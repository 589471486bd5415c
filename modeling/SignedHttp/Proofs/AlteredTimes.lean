import SignedHttp.Proofs.Determination
import SignedHttp.Proofs.SignedRequests

namespace SignedHttp

open SigningString

namespace Signature

def HasTimes (s : Signature) (times : Bound → Instant) : Prop :=
  ∀ b, s.bound? b = some (times b)

/-- The second signature is the first one but for its times. -/
def SameButTimes (s t : Signature) : Prop :=
  t = { s with created := t.created, expires := t.expires }

variable {s t : Signature} {r q : Request} {e : Escaping} {times others : Bound → Instant}
  {text : String} {g : HeaderName}

theorem HasTimes.value (h : s.HasTimes times) (b : Bound) (e : Escaping) :
    (Source.of b.name).value? r (s.composition e) b.name =
      .ok (some (Text.signedDecimal (times b).seconds)) := by
  have hc : s.created = some (times .created) := h .created
  have he : s.expires = some (times .expires) := h .expires
  cases b with
  | created =>
    change Source.created.value? _ _ _ = _
    simp [Source.value?, Signature.composition, hc]
  | expires =>
    change Source.expires.value? _ _ _ = _
    simp [Source.value?, expiresValue?, Signature.composition, hc, he, Instant.shift?_sub]

/-- With other times, and another value in the field of the signature, each name has lines beside
each other, or none on both sides. -/
theorem HasTimes.beside (hs : s.HasTimes times) (ht : t.HasTimes others)
    (hq : r.SameBut "authorization" q) {o p : Option Line}
    (ho : line? r (s.composition e) g = .ok o) (hp : line? q (t.composition e) g = .ok p) :
    Option.Rel Line.Beside o p := by
  by_cases hb : ∃ b : Bound, g = b.name
  · obtain ⟨b, rfl⟩ := hb
    apply beside_of_lines _ _ _ ho hp
    · cases b <;> exact nofun
    · exact (hs.value b e).symm ▸ nofun
    · exact (ht.value b e).symm ▸ nofun
  by_cases ha : g.text = "authorization"
  · obtain rfl : g = ⟨"authorization", by decide⟩ := HeaderName.ext ha
    exact beside_of_lines (by decide) fieldValue_ne_none fieldValue_ne_none ho hp
  · have hvalues : r.fields.values g.text = q.fields.values g.text := by
      refine (hq.values _ ?_).symm
      rwa [g.lowered_text]
    have hsame : line? r (s.composition e) g = line? q (t.composition e) g :=
      line?_congr hq.method.symm hq.uri.symm hvalues rfl (fun h => absurd ⟨.created, h⟩ hb)
        (fun h => absurd ⟨.expires, h⟩ hb)
    obtain rfl := Except.ok.inj (ho.symm.trans (hsame.trans hp))
    cases o with
    | none => exact .none
    | some l => exact .some ⟨rfl, Or.inl rfl⟩

/-- Times that are signed show in the signing string. -/
theorem HasTimes.seconds_eq (hs : s.HasTimes times) (ht : t.HasTimes others)
    (hst : s.SameButTimes t) (hq : r.SameBut "authorization" q)
    (hl : ∀ b : Bound, s.lists b.name = true)
    (hr : signingString r (s.composition e) = .ok text)
    (hqt : signingString q (t.composition e) = .ok text) (b : Bound) :
    (times b).seconds = (others b).seconds := by
  have hheaders : (s.composition e).headers = (t.composition e).headers := by
    rw [hst]
    rfl
  have hnonce : nonceLine? (s.composition e) = nonceLine? (t.composition e) := by
    rw [hst]
    rfl
  obtain ⟨ls, hls, hms⟩ := headerLines_eq hheaders hnonce hr hqt
    (fun g _ o p ho hp => hs.beside ht hq ho hp)
  have hm : b.name ∈ (s.composition e).headers := List.contains_iff_mem.mp (hl b)
  obtain ⟨o, ho, hp⟩ := line?_eq_of_headerLines hheaders hls hms hm (by cases b <;> rfl)
  -- the line of the time is the same on both sides
  have hvalue := (hs.value b e).symm.trans (value?_of_line? ho)
  have hother := (ht.value b e).symm.trans (value?_of_line? hp)
  exact Text.signedDecimal_inj (Option.some.inj (Except.ok.inj (hvalue.trans hother.symm)))

theorem SameButTimes.isDated_eq (h : s.SameButTimes t) : t.isDated = s.isDated := by
  rw [h]
  rfl

theorem SameButTimes.lists_eq (h : s.SameButTimes t) (g : HeaderName) : t.lists g = s.lists g := by
  rw [h]
  rfl

theorem SameButTimes.value_eq (h : s.SameButTimes t) : t.value = s.value := by
  rw [h]

theorem SameButTimes.eq (h : s.SameButTimes t) (hb : ∀ b, t.bound? b = s.bound? b) : t = s := by
  have hc : t.created = s.created := hb .created
  have he : t.expires = s.expires := hb .expires
  rw [h, hc, he]

theorem WellRead.bound {P : Char → Prop} (h : s.WellRead P) {b : Bound} {time : Instant}
    (ht : s.bound? b = some time) : time.wholeSeconds = time := by
  cases b with
  | created => exact h.created time ht
  | expires => exact h.expires time ht

end Signature

theorem Instant.eq_of_seconds {s t : Instant} (hs : s.wholeSeconds = s) (ht : t.wholeSeconds = t)
    (h : s.seconds = t.seconds) : s = t := by
  have hsn := congrArg Instant.nanos hs
  have htn := congrArg Instant.nanos ht
  apply Instant.ext
  simp only [Instant.wholeSeconds, Instant.seconds] at hsn htn h
  omega

/-- A rejection because the signature has ended or has not begun. -/
def Rejection.OutOfTime (reason : Rejection) : Prop :=
  reason.code = .expired ∨ ∃ t, reason = .notYetCreated t

/-- A key accepts no bytes for two texts. -/
def AcceptsOneText {κ : Type} [SigningKey κ] (k : κ) : Prop :=
  ∀ bytes text other, SigningKey.verify k text bytes = true →
    SigningKey.verify k other bytes = true → text = other

namespace Attempt

variable {κ ω ε : Type} [SigningKey κ] {register : Nonce → ω → Except ε Bool × ω}
  {a b : Attempt κ} {u v : ω}

/-- The second attempt is made with the same request at the same time, but for the times in its
signature. -/
structure Retimed (a b : Attempt κ) : Prop where
  request : a.request.SameBut "authorization" b.request
  read : ∃ scheme, Authorization.ofRequest scheme b.request = .ok b.signature
  signature : a.signature.SameButTimes b.signature
  client : b.client = a.client
  now : b.now = a.now

/-- Checks that reject a request out of time are the two that look at the clock. -/
theorem not_inTime_of_run {cs : List Check} {reason : Rejection}
    (h : a.run register cs u = (.ok (some reason), v)) (ho : reason.OutOfTime) :
    ¬ (a.creationRejection? = none ∧ a.expirationRejection? = none) := by
  have hexpired : ∀ c : Check, c.code = .expired → c = .expirationTime := by
    intro c
    cases c <;> decide
  have hcreated : ∀ c : Check, c.code = .invalidSignature → c = .creationTime := by
    intro c
    cases c <;> decide
  rintro ⟨hc, he⟩
  rcases exists_of_run h with ⟨c, -, hr⟩ | ⟨value, rfl⟩
  · have hcode := (code_eq hr).symm
    rcases ho with hx | ⟨t, rfl⟩
    · obtain rfl := hexpired c (hcode.trans hx)
      exact absurd (he.symm.trans hr) nofun
    · obtain rfl := hcreated c hcode
      exact absurd (hc.symm.trans hr) nofun
  · rcases ho with hx | ⟨t, ht⟩
    · cases hx
    · cases ht

def untimed (a : Attempt κ) : Attempt κ :=
  { a with signature := { a.signature with created := none, expires := none } }

omit [SigningKey κ] in
theorem boundRejection?_dated (hd : a.signature.isDated = true) {b : Bound} :
    a.boundRejection? b = none ↔ a.signature.lists b.name = false := by
  rw [boundRejection?_eq_none_iff, hd]
  constructor
  · intro h
    by_contra hl
    obtain ⟨hno, -⟩ := h (by simpa using hl)
    cases hno
  · intro hl hlisted
    rw [hl] at hlisted
    cases hlisted

omit [SigningKey κ] in
/-- Times that are not listed do not show in the signing string. -/
theorem signingString_untimed (h : ∀ b : Bound, a.signature.lists b.name = false) (e : Escaping) :
    signingString a.request (a.signature.composition e) =
      signingString a.request (a.untimed.signature.composition e) := by
  have hunlisted : ∀ b : Bound, b.name ∉ (a.signature.composition e).headers := by
    intro b hm
    have hl := List.contains_iff_mem.mpr hm
    exact absurd ((h b).symm.trans hl) nofun
  exact signingString_congr rfl rfl rfl (fun _ _ => rfl) rfl
    (fun hm => absurd hm (hunlisted .created)) (fun hm => absurd hm (hunlisted .expires)) rfl

theorem rejection?_untimed (hd : a.signature.isDated = true)
    (hl : ∀ b : Bound, a.signature.lists b.name = false) {c : Check} (hc : c ≠ .creationTime)
    (he : c ≠ .expirationTime) : a.untimed.rejection? c = none ↔ a.rejection? c = none := by
  cases c with
  | headersPresent => rfl
  | knownAlgorithm => rfl
  | matchingAlgorithm => rfl
  | createdGuard =>
    exact (boundRejection?_dated (a := a.untimed) hd).trans (boundRejection?_dated hd).symm
  | creationTime => exact absurd rfl hc
  | expiresGuard =>
    exact (boundRejection?_dated (a := a.untimed) hd).trans (boundRejection?_dated hd).symm
  | expirationTime => exact absurd rfl he
  | digest => rfl
  | nonce => rfl
  | signatureString =>
    have hstring := signingString_untimed hl a.client.terms.escaping
    simp only [rejection?, stringRejection?_eq_none_iff]
    rw [hstring]
    rfl

theorem passed_untimed_iff (hd : a.signature.isDated = true) :
    (∀ c ∈ Check.standard, a.rejection? c = none) ↔
      (a.creationRejection? = none ∧ a.expirationRejection? = none) ∧
        ∀ c ∈ Check.standard, a.untimed.rejection? c = none := by
  have hunlisted : ∀ {x : Attempt κ}, x.signature.isDated = true →
      (∀ c ∈ Check.standard, x.rejection? c = none) →
      ∀ b : Bound, x.signature.lists b.name = false := by
    intro x hx h b
    rw [← boundRejection?_dated hx]
    cases b with
    | created => exact h .createdGuard (by decide)
    | expires => exact h .expiresGuard (by decide)
  constructor
  · intro h
    refine ⟨⟨h .creationTime (by decide), h .expirationTime (by decide)⟩, fun c hm => ?_⟩
    by_cases hc : c = .creationTime
    · subst hc
      rfl
    by_cases he : c = .expirationTime
    · subst he
      rfl
    · exact (rejection?_untimed hd (hunlisted hd h) hc he).mpr (h c hm)
  · rintro ⟨⟨hcreated, hexpires⟩, h⟩ c hm
    by_cases hc : c = .creationTime
    · subst hc
      exact hcreated
    by_cases he : c = .expirationTime
    · subst he
      exact hexpires
    · exact (rejection?_untimed hd (hunlisted (x := a.untimed) hd h) hc he).mp (h c hm)

omit [SigningKey κ] in
theorem inTime_iff {scheme : String}
    (hread : Authorization.ofRequest scheme a.request = .ok a.signature) :
    a.creationRejection? = none ∧ a.expirationRejection? = none ↔
      a.signature.InTime a.client a.now := by
  obtain ⟨header, -, hr⟩ := Authorization.ofRequest_eq_ok_iff.mp hread
  have hw := Authorization.read_wellRead (P := fun _ => True) hr (by simp)
  rw [creationRejection?_eq_none_iff, expirationRejection?_eq_none_iff]
  constructor
  · rintro ⟨hc, he⟩
    refine ⟨hc, fun t ht => ?_⟩
    rw [hw.expires t ht]
    exact he t ht
  · rintro ⟨hc, he⟩
    refine ⟨hc, fun t ht => ?_⟩
    rw [← hw.expires t ht]
    exact he t ht

/-- A signature that names its algorithm is accepted with any times that the clock agrees with, if
it is accepted without times. -/
theorem dated_accepted_iff {scheme : String}
    (hread : Authorization.ofRequest scheme a.request = .ok a.signature)
    (hd : a.signature.isDated = true) :
    a.run register Check.standard u = (.ok none, v) ↔
      a.signature.InTime a.client a.now ∧
        a.untimed.run register Check.standard u = (.ok none, v) := by
  have hcount : Check.standard.count .nonce = 1 := by decide
  rw [run_accepts_iff hcount, run_accepts_iff hcount, passed_untimed_iff hd, inTime_iff hread,
    and_assoc]
  rfl

end Attempt

namespace Settings

variable {κ : Type} [SigningKey κ] {s : Settings κ} {r : Request} {t : Instant}
  {lifetime : Duration} {nonce : String} {a b : Attempt κ}

/-- A signer for a client: the client takes the signatures of its key, and no hook comes between. -/
structure SignsFor (s : Settings κ) (c : Client κ) : Prop where
  hooks : s.hooks.Transparent
  escaping : c.terms.escaping = s.escaping
  takes (key : κ) (text : String) (bytes : Bytes) : s.key = some key →
    SigningKey.sign key text = .ok bytes → SigningKey.verify c.key text bytes = true

/-- An attempt with the request that comes of signing, and with its signature. -/
structure Steps.Sent (steps : s.Steps r t lifetime nonce) (a : Attempt κ) : Prop where
  request : a.request = steps.signed
  signature : a.signature = steps.signature.written

def Steps.time (steps : s.Steps r t lifetime nonce) : Bound → Instant
  | .created => t.wholeSeconds.wholeSeconds
  | .expires => steps.expires.wholeSeconds

theorem Steps.Sent.hasTimes {steps : s.Steps r t lifetime nonce} (h : steps.Sent a) :
    a.signature.HasTimes steps.time := by
  rw [h.signature]
  intro b
  cases b <;> rfl

theorem Steps.Sent.text_eq {steps : s.Steps r t lifetime nonce} (h : steps.Sent a)
    (hs : s.SignsFor a.client) (hone : AcceptsOneText a.client.key) (hr : a.Retimed b)
    (hb : b.Signed) :
    signingString b.request (b.signature.composition s.escaping) = .ok steps.text := by
  obtain ⟨text, received, hstring, hdecoded, hverified⟩ := hb
  have hvalue : b.signature.value = Text.Base64.encode steps.bytes := by
    rw [hr.signature.value_eq, h.signature]
    rfl
  rw [hvalue, Text.Base64.decode_encode] at hdecoded
  obtain rfl := Except.ok.inj hdecoded
  rw [hr.client] at hverified
  have htakes := hs.takes steps.key steps.text steps.bytes steps.passed.key steps.signs
  obtain rfl := hone _ _ _ htakes hverified
  rw [hr.client, hs.escaping] at hstring
  exact hstring

/-- A signature that leaves the algorithm to the key, and is sound with other times, has the times
that it was made with. -/
theorem Steps.Sent.signature_eq {steps : s.Steps r t lifetime nonce} (h : steps.Sent a)
    (hs : s.SignsFor a.client) (hone : AcceptsOneText a.client.key)
    (hn : s.namesAlgorithm = false) (hr : a.Retimed b) (hb : b.Sound) :
    b.signature = a.signature := by
  have htimed : b.Timed := by
    rcases hb.kind with ht | hd
    · exact ht
    · have hdated := hd.names.isDated
      rw [hr.signature.isDated_eq, h.signature, (steps.written_leaves hn).not_isDated] at hdated
      cases hdated
  choose others hothers _ using htimed.given
  have hlisted : ∀ bound : Bound, a.signature.lists bound.name = true := by
    intro bound
    rw [← hr.signature.lists_eq]
    exact htimed.listed bound
  have hq : steps.ready.SameBut "authorization" b.request :=
    (Request.setHeader_sameBut steps.authorizes).trans (h.request ▸ hr.request)
  have hmade : signingString steps.ready (a.signature.composition s.escaping) = .ok steps.text := by
    rw [h.signature]
    exact steps.signingString_eq
  have hseconds := h.hasTimes.seconds_eq hothers hr.signature hq hlisted hmade
    (h.text_eq hs hone hr hb.signed)
  obtain ⟨scheme, hread⟩ := hr.read
  obtain ⟨header, -, hheader⟩ := Authorization.ofRequest_eq_ok_iff.mp hread
  have hw := Authorization.read_wellRead (P := fun _ => True) hheader (by simp)
  apply hr.signature.eq
  intro bound
  have hwhole : (steps.time bound).wholeSeconds = steps.time bound := by
    cases bound <;> exact Authorization.wholeSeconds_wholeSeconds _
  have hsame := Instant.eq_of_seconds hwhole (hw.bound (hothers bound)) (hseconds bound)
  rw [hothers, h.hasTimes, hsame]

end Settings

/-- A request is signed for a client by a key whose signatures are each good for one text. If the
signature leaves the algorithm to the key and the request is rejected out of time, no other times
make it acceptable at that time. If the signature names the algorithm its times are not signed, and
it is accepted with any times that the clock agrees with exactly if it is accepted without them. -/
theorem Settings.retimed_accepted_iff {κ ω ε : Type} [SigningKey κ] {s : Settings κ} {r : Request}
    {t : Instant} {lifetime : Duration} {nonce : String} {made : Signature} {a b : Attempt κ}
    (register : Nonce → ω → Except ε Bool × ω) (hs : s.SignsFor a.client)
    (hone : AcceptsOneText a.client.key)
    (hmade : (s.signRequest r t lifetime nonce).result = .ok made)
    (hrequest : a.request = (s.signRequest r t lifetime nonce).request)
    (hsignature : a.signature = made.written) (hr : a.Retimed b) :
    (s.namesAlgorithm = false → ∀ reason u v,
        a.run register Check.standard u = (.ok (some reason), v) → reason.OutOfTime →
        ∀ w x, b.run register Check.standard w ≠ (.ok none, x)) ∧
      (s.namesAlgorithm = true → ∀ w x, b.run register Check.standard w = (.ok none, x) ↔
        b.signature.InTime b.client b.now ∧
          b.untimed.run register Check.standard w = (.ok none, x)) := by
  obtain ⟨steps, rfl, hsigned⟩ := signRequest_steps hs.hooks hmade
  have hsent : steps.Sent a := ⟨hrequest.trans hsigned.symm, hsignature⟩
  obtain ⟨scheme, hread⟩ := hr.read
  constructor
  · intro hn reason u v hrejected hout w x haccepted
    have hpassed := (Attempt.run_accepts_iff (by decide)).mp haccepted
    have hsound := (Attempt.sound_iff (Verifier.listed_ne_empty hread)).mp hpassed.1
    have hsame := hsent.signature_eq hs hone hn hr hsound
    have hcreation : a.creationRejection? = b.creationRejection? := by
      rw [Attempt.creationRejection?, Attempt.creationRejection?, hsame, hr.client, hr.now]
    have hexpiration : a.expirationRejection? = b.expirationRejection? := by
      rw [Attempt.expirationRejection?, Attempt.expirationRejection?, hsame, hr.client, hr.now]
    apply Attempt.not_inTime_of_run hrejected hout
    rw [hcreation, hexpiration]
    exact ⟨hpassed.1 .creationTime (by decide), hpassed.1 .expirationTime (by decide)⟩
  · intro hn w x
    apply Attempt.dated_accepted_iff hread
    rw [hr.signature.isDated_eq, hsignature]
    exact (steps.written_names hn).isDated

namespace Sample

/-- A key that is good for one text. -/
structure Stamp where
  text : String

instance : SigningKey Stamp where
  family _ := .hmac
  hash _ := .sha256
  canSign _ := true
  sign k text := if text = k.text then .ok [0] else .error .noEphemeral
  verify k text bytes := text == k.text && bytes == [0]

theorem Stamp.acceptsOneText (k : Stamp) : AcceptsOneText k := by
  intro bytes text other ht ho
  have htext : text = k.text := beq_iff_eq.mp (Bool.and_eq_true_iff.mp ht).1
  have hother : other = k.text := beq_iff_eq.mp (Bool.and_eq_true_iff.mp ho).1
  exact htext.trans hother.symm

def stamp (named : Bool) : Stamp where
  text := "(request-target): get /\ndate: Thu, 01 Jan 1970 00:16:40 GMT" ++
    if named then "" else "\n(created): 1000\n(expires): 1300"

def stampClient (named : Bool) : Client Stamp :=
  ⟨client.id, client.name, stamp named, client.terms, client.valid⟩

def stampSettings (named : Bool) : Settings Stamp :=
  { (Settings.standard "client1" : Settings Stamp) with
    key := some (stamp named)
    namesAlgorithm := named }

theorem stamp_signsFor (named : Bool) : (stampSettings named).SignsFor (stampClient named) where
  hooks := Hooks.transparent_none
  escaping := rfl
  takes key text bytes hk hs := by
    obtain rfl := Option.some.inj hk
    change (if text = (stamp named).text then Except.ok [0] else .error KeyDefect.noEphemeral) =
      .ok bytes at hs
    split at hs
    · next he =>
      obtain rfl := Except.ok.inj hs
      exact Bool.and_eq_true_iff.mpr ⟨beq_iff_eq.mpr he, rfl⟩
    · cases hs

def stamped (named : Bool) : Settings.Outcome :=
  (stampSettings named).signRequest unsigned (second 1000) (.ofSeconds 300) ""

def stampedSignature (named : Bool) : Signature where
  keyId := "client1"
  algorithm := some (if named then "hmac-sha256" else "hs2019")
  created := some (second 1000)
  expires := some (second 1300)
  headers := some ([.requestTarget, .date] ++ if named then [] else [.created, .expires])
  nonce := none
  value := "AA=="

set_option maxRecDepth 10000 in
theorem stamped_result (named : Bool) : (stamped named).result = .ok (stampedSignature named) := by
  cases named <;> decide +kernel

/-- The request is verified long after its signature has ended. -/
def late (named : Bool) : Attempt Stamp :=
  ⟨(stamped named).request, (stampedSignature named).written, stampClient named, second 2000⟩

def prolonged (named : Bool) : Signature :=
  { stampedSignature named with expires := some (second 3000) }

def withProlonged (named : Bool) : Except Field.Defect Request :=
  (stamped named).request.setHeader "authorization"
    (Authorization.defaultScheme ++ " " ++ Authorization.write (prolonged named))

@[irreducible]
def prolongedRequest (named : Bool) : Request :=
  (withProlonged named).toOption.getD unsigned

set_option maxRecDepth 10000 in
theorem withProlonged_eq (named : Bool) : withProlonged named = .ok (prolongedRequest named) := by
  have hok : (withProlonged named).isOk = true := by cases named <;> decide +kernel
  unfold prolongedRequest
  cases hw : withProlonged named with
  | error d =>
    rw [hw] at hok
    cases hok
  | ok q => rfl

def lateProlonged (named : Bool) : Attempt Stamp :=
  ⟨prolongedRequest named, prolonged named, stampClient named, second 2000⟩

theorem prolonged_writable (named : Bool) : (prolonged named).Writable := by
  refine ⟨?_, ?_, ?_, ?_, ?_, ?_⟩
  all_goals cases named <;> decide

theorem prolonged_retimed (named : Bool) : (late named).Retimed (lateProlonged named) where
  request := Request.setHeader_sameBut (withProlonged_eq named)
  read := by
    refine ⟨Authorization.defaultScheme, ?_⟩
    have hread := Authorization.ofRequest_setHeader (withProlonged_eq named) (by decide)
      (Text.forall_mem_of_all (by decide)) (prolonged_writable named)
    have hwritten : (prolonged named).written = prolonged named := by cases named <;> rfl
    rwa [hwritten] at hread
  signature := by cases named <;> rfl
  client := rfl
  now := rfl

def keep (n : Nonce) (u : Memory Stamp) : Except (Empty ⊕ Empty) Bool × Memory Stamp :=
  NonceStore.tryRegister n (second 2000) u

def noNonces : Memory Stamp := ⟨.empty, .empty⟩

set_option maxRecDepth 10000 in
theorem late_rejected (named : Bool) :
    (late named).run keep Check.standard noNonces =
      (.ok (some (.expired (second 1300))), noNonces) := by
  have hfirst : Check.beforeNonce.findSome? (late named).rejection? =
      some (.expired (second 1300)) := by
    cases named <;> decide +kernel
  rw [Check.standard_eq, Attempt.run_around (by decide) (by decide), hfirst]

set_option maxRecDepth 10000 in
theorem prolonged_accepted :
    (lateProlonged true).run keep Check.standard noNonces = (.ok none, noNonces) := by
  refine (Attempt.run_accepts_iff (by decide)).mpr ⟨?_, rfl⟩
  unfold lateProlonged prolongedRequest
  decide +kernel

/-- A later end is of no use where it is signed; where it is not, the rest of the signature
decides. -/
theorem prolonged_samples :
    (∀ w x, (lateProlonged false).run keep Check.standard w ≠ (.ok none, x)) ∧
      ∀ w x, (lateProlonged true).run keep Check.standard w = (.ok none, x) ↔
        (lateProlonged true).untimed.run keep Check.standard w = (.ok none, x) := by
  have hretimed := fun named => Settings.retimed_accepted_iff keep (stamp_signsFor named)
    (stamp named).acceptsOneText (stamped_result named) rfl rfl (prolonged_retimed named)
  constructor
  · exact (hretimed false).1 rfl _ _ _ (late_rejected false) (Or.inl rfl)
  · intro w x
    have htime : (lateProlonged true).signature.InTime (stampClient true) (second 2000) :=
      ⟨by decide, by decide⟩
    exact ((hretimed true).2 rfl w x).trans (and_iff_right htime)

/-- A request that is rejected out of time can be made acceptable by other times. -/
theorem times_not_bound :
    ¬ ∀ (s : Settings Stamp) (r : Request) (t : Instant) (lifetime : Duration) (nonce : String)
      (made : Signature) (a b : Attempt Stamp), s.SignsFor a.client → AcceptsOneText a.client.key →
      (s.signRequest r t lifetime nonce).result = .ok made →
      a.request = (s.signRequest r t lifetime nonce).request → a.signature = made.written →
      a.Retimed b → ∀ reason u v, a.run keep Check.standard u = (.ok (some reason), v) →
      reason.OutOfTime → ∀ w x, b.run keep Check.standard w ≠ (.ok none, x) := by
  intro hclaim
  have hrequest : ∀ named, (late named).request = ((stampSettings named).signRequest unsigned
      (second 1000) (.ofSeconds 300) "").request := fun _ => rfl
  exact hclaim _ _ _ _ _ _ _ _ (stamp_signsFor true) (stamp true).acceptsOneText
    (stamped_result true) (hrequest true) rfl (prolonged_retimed true) _ _ _ (late_rejected true)
    (Or.inl rfl) _ _ prolonged_accepted

end Sample

end SignedHttp
