import SignedHttp.Proofs.Key
import SignedHttp.Proofs.Sending
import SignedHttp.Proofs.Signing
import SignedHttp.Proofs.Text.Base64

namespace SignedHttp

/-- A key takes the signatures of another one. -/
def Key.Takes (k giver : Key) : Prop :=
  ∀ text bytes, SigningKey.sign giver text = .ok bytes → SigningKey.verify k text bytes = true

theorem Key.hmac_takes (secret : Bytes) (hash : Hash) :
    (Key.hmac secret hash).Takes (.hmac secret hash) := by
  intro text bytes hs
  obtain rfl := Except.ok.inj hs
  exact beq_self_eq_true (hash.hmac secret (Text.bytes text))

section Algorithm

variable {κ : Type} [SigningKey κ] {k : κ}

theorem quote_not_mem_algorithmName : '"' ∉ (algorithmName k).toList := by
  unfold algorithmName
  generalize family k = f
  generalize hash k = h
  cases f <;> cases h <;> decide

theorem algorithmName_ne_empty : algorithmName k ≠ "" := by
  unfold algorithmName
  generalize family k = f
  generalize hash k = h
  cases f <;> cases h <;> decide

theorem namesAlgorithm_algorithmName {s : Signature} (hs : s.algorithm = some (algorithmName k)) :
    s.NamesAlgorithm (family k) (hash k) := by
  unfold algorithmName at hs
  refine ⟨_, _, hs, ?_, ?_, ?_⟩
  · cases family k <;> decide
  · cases family k <;> decide
  · cases hash k <;> decide

end Algorithm

theorem Text.Base64.encode_ne_empty {bs : Bytes} (h : bs ≠ []) : encode bs ≠ "" := by
  intro he
  have hd := decode_encode bs
  rw [he] at hd
  exact h (Except.ok.inj hd).symm

theorem trimmed_digestText {hash : Hash} {body : Bytes} :
    Text.trimmed (Request.digestText hash body) =
      hash.digestName ++ "=" ++ Text.Base64.encode (hash.digest body) := by
  have hname : ∀ c ∈ (hash.digestName ++ "=").toList, Text.isBlank c = false := by
    apply Text.forall_mem_of_all
    cases hash <;> decide
  have hall : ∀ c ∈ (Request.digestText hash body).toList, Text.isBlank c = false := by
    intro c hc
    unfold Request.digestText at hc
    rw [String.toList_append] at hc
    rcases List.mem_append.mp hc with hc | hc
    · exact hname c hc
    · exact (Text.Base64.forall_mem_encode _ c hc).1
  rw [Text.trimmed, Text.trim_eq_self_of_forall hall, String.ofList_toList]
  rfl

/-- A signature is begun and not ended, up to the clock skew of a client. The end is at a whole
second, since it is sent as such. -/
structure Signature.InTime {κ : Type} (s : Signature) (c : Client κ) (now : Instant) : Prop where
  begun (t : Instant) : s.created = some t → t.nanos ≤ now.nanos + c.clockSkew.nanos
  notEnded (t : Instant) : s.expires = some t →
    now.nanos - c.clockSkew.nanos ≤ t.wholeSeconds.nanos

namespace Settings

section AnyKey

variable {κ : Type} [SigningKey κ] {s : Settings κ} {r : Request} {t : Instant}
  {lifetime : Duration} {nonce : String}

namespace Steps

variable (steps : s.Steps r t lifetime nonce)

theorem algorithmParameter_ne_empty {key : κ} : s.algorithmParameter key ≠ "" := by
  unfold algorithmParameter
  split
  · exact algorithmName_ne_empty
  · decide

theorem written_algorithm :
    steps.signature.written.algorithm = some (s.algorithmParameter steps.key) := by
  have hne : s.algorithmParameter steps.key ≠ "" := algorithmParameter_ne_empty
  simp [Signature.written, signature, signatureOf, Authorization.nonEmpty, Option.filter, hne]

theorem written_eq :
    steps.signature.written = { steps.signature with
      expires := steps.signature.expires.map Instant.wholeSeconds
      nonce := Authorization.nonEmpty steps.signature.nonce } := by
  have halgorithm : Authorization.nonEmpty steps.signature.algorithm = steps.signature.algorithm :=
    steps.written_algorithm
  have hcreated : steps.signature.created.map Instant.wholeSeconds = steps.signature.created :=
    congrArg some (Authorization.wholeSeconds_wholeSeconds t)
  rw [Signature.written, halgorithm, hcreated]

theorem lists_iff {h : HeaderName} :
    steps.signature.written.lists h = true ↔ h ∈ s.headersFor r :=
  List.contains_iff_mem

theorem written_names (hn : s.namesAlgorithm = true) :
    steps.signature.written.NamesAlgorithm (family steps.key) (hash steps.key) := by
  apply namesAlgorithm_algorithmName
  rw [steps.written_algorithm, algorithmParameter, if_pos hn]

theorem written_leaves (hn : s.namesAlgorithm = false) :
    steps.signature.written.LeavesAlgorithm := by
  intro given ha
  obtain rfl := Option.some.inj (steps.written_algorithm.symm.trans ha)
  rw [algorithmParameter, if_neg (by simp [hn])]
  exact Text.equalIgnoringCase_refl _

/-- The signing string comes out the same on both sides. -/
theorem signingString_eq :
    signingString steps.ready (steps.signature.written.composition s.escaping) =
      .ok steps.text := by
  rw [← steps.composes]
  refine signingString_congr rfl rfl rfl (fun _ _ => rfl) rfl (fun _ => ?_) (fun _ => ?_) ?_
  · exact congrArg some (Authorization.wholeSeconds_wholeSeconds _)
  · have hends := steps.ends
    simp only [SigningString.expiresValue?, Signature.composition, Signature.written, signature,
      signatureOf, composition, Option.map_some, Option.bind_some, hends,
      Instant.shift?_sub, Authorization.seconds_wholeSeconds]
  · simp only [SigningString.nonceLine?, Signature.composition, Signature.written, signature,
      signatureOf, composition, Authorization.nonEmpty]
    cases s.nonceFor nonce <;> simp [Option.filter_filter]

end Steps

end AnyKey

/-- What a signer keeps to, so that its signatures can be read and hold what is checked. -/
structure Transmits (s : Settings Key) (r : Request) (nonce : String) : Prop where
  hooks : s.hooks = .none
  keyId : '"' ∉ s.keyId.toList
  nonce : s.usesNonce = true → '"' ∉ nonce.toList
  scheme : ∀ c ∈ s.scheme.toList, Text.isBlank c = false
  names : ∀ h ∈ s.headers, h.text ≠ "authorization"
  times : s.namesAlgorithm = true ∨ s.addsRecommended = true ∨
    HeaderName.created ∈ s.headers ∧ .expires ∈ s.headers
  bounds (b : Bound) : r.hasHeader b.word = false
  digest : .digest ∈ s.headersFor r → r.hasHeader "digest" = false

/-- Of a request that is signed, the checks find what they look for. -/
structure Covers (s : Settings Key) (r : Request) : Prop where
  names : ∀ h ∈ s.headers, h.text ≠ "authorization"
  times : s.namesAlgorithm = true ∨ s.addsRecommended = true ∨
    HeaderName.created ∈ s.headers ∧ .expires ∈ s.headers
  bounds (b : Bound) : r.hasHeader b.word = false
  digest : .digest ∈ s.headersFor r → r.hasHeader "digest" = false

/-- A client whose signatures are made with these settings. -/
structure Fits (s : Settings Key) (c : Client Key) : Prop where
  escaping : c.terms.escaping = s.escaping
  takes (key : Key) : s.key = some key → c.key.Takes key
  named (key : Key) : s.namesAlgorithm = true → s.key = some key →
    family c.key = family key ∧ hash c.key = hash key

variable {s : Settings Key} {r : Request} {t : Instant} {lifetime : Duration} {nonce : String}

theorem Transmits.covers (hs : s.Transmits r nonce) : s.Covers r :=
  ⟨hs.names, hs.times, hs.bounds, hs.digest⟩

namespace Steps

variable (steps : s.Steps r t lifetime nonce)

theorem hasHeader_eq {n : String} (hd : Text.lowered n ≠ "date") (hg : Text.lowered n ≠ "digest") :
    steps.ready.hasHeader n = r.hasHeader n := by
  rw [(Request.withDigest_sameBut steps.digests).hasHeader hg,
    (Request.withDate_sameBut steps.dates).hasHeader hd]

theorem ready_body : steps.ready.body = r.body :=
  (Request.withDigest_sameBut steps.digests).body.trans (Request.withDate_sameBut steps.dates).body

theorem ready_digest (hs : s.Covers r) (hm : .digest ∈ s.headersFor r) :
    ∃ body hash, r.body = some body ∧
      steps.ready.header? "digest" = some (Request.digestText hash body) := by
  have hdate := Request.withDate_sameBut steps.dates
  have hno : steps.dated.hasHeader "digest" = false := by
    rw [hdate.hasHeader (by decide), hs.digest hm]
  obtain ⟨body, hash, hb, hd⟩ := Request.withDigest_digest steps.digests hm hno
  exact ⟨body, hash, hdate.body ▸ hb, hd⟩

theorem hasHeader (hs : s.Covers r) {h : HeaderName} (hm : h ∈ s.headersFor r)
    (hp : h.isPseudo = false) : steps.ready.hasHeader h.text = true := by
  by_cases hdate : h = .date
  · subst hdate
    rw [(Request.withDigest_sameBut steps.digests).hasHeader (by decide)]
    exact Request.withDate_date steps.dates hm
  · by_cases hdigest : h = .digest
    · subst hdigest
      obtain ⟨body, hash, -, hd⟩ := steps.ready_digest hs hm
      exact Request.hasHeader_of_header? hd
    · have hfield := SigningString.of_eq_field hp hdate hdigest
      have hvalues := values_of_signingString steps.composes hm (steps.passed.isEmpty_eq hm) hfield
      exact Fields.has_iff.mpr hvalues

theorem quote_not_mem_algorithm {key : Key} : '"' ∉ (s.algorithmParameter key).toList := by
  unfold algorithmParameter
  split
  · exact quote_not_mem_algorithmName
  · decide

theorem requestTarget_mem : HeaderName.requestTarget ∈ s.headersFor r :=
  mem_headersFor.mpr (Or.inr (Or.inl rfl))

theorem signature_complete : steps.signature.defect? = none := by
  have hid : s.keyId.isEmpty = false := steps.passed.keyId
  have hvalue : (Text.Base64.encode steps.bytes).isEmpty = false := by
    have hne := Text.Base64.encode_ne_empty (Key.sign_ne_nil steps.signs)
    simpa using hne
  have hnames : (s.headersFor r).isEmpty = false := by
    have hne := List.ne_nil_of_mem (requestTarget_mem (s := s) (r := r))
    simpa using hne
  simp [Signature.defect?, signature, signatureOf, hid, hvalue, hnames]

theorem signature_writable (hid : '"' ∉ s.keyId.toList)
    (hnonce : s.usesNonce = true → '"' ∉ nonce.toList) : steps.signature.Writable := by
  refine ⟨steps.signature_complete, fun h hm => steps.passed.isEmpty_eq hm, hid, ?_, ?_, ?_⟩
  · intro a ha
    obtain rfl := Option.some.inj ha
    exact quote_not_mem_algorithm
  · intro n hn
    unfold signature signatureOf nonceFor at hn
    obtain ⟨hu, hn⟩ := Option.ite_none_right_eq_some.mp hn
    obtain rfl := Option.some.inj hn
    exact hnonce hu
  · intro hm
    exact (Text.Base64.forall_mem_encode steps.bytes _ hm).2 rfl

/-- The signature is read back from the signed request. -/
theorem read_signed (hid : '"' ∉ s.keyId.toList)
    (hnonce : s.usesNonce = true → '"' ∉ nonce.toList)
    (hb : ∀ c ∈ s.scheme.toList, Text.isBlank c = false) :
    Authorization.ofRequest s.scheme steps.signed = .ok steps.signature.written :=
  Authorization.ofRequest_setHeader steps.authorizes steps.passed.scheme_ne_nil hb
    (steps.signature_writable hid hnonce)

theorem text_ne_authorization (hs : s.Covers r) {h : HeaderName}
    (hl : steps.signature.lists h = true) : h.text ≠ "authorization" :=
  Settings.text_ne_authorization hs.names (steps.lists_iff.mp hl)

variable {c : Client Key} {now : Instant}

/-- The attempt that a verifier makes of the request, but for the field of the signature. -/
def attempt (c : Client Key) (now : Instant) : Attempt Key :=
  ⟨steps.ready, steps.signature.written, c, now⟩

theorem isDated (hn : s.namesAlgorithm = true)
    (hk : family c.key = family steps.key ∧ hash c.key = hash steps.key) :
    (steps.attempt c now).Dated := by
  refine ⟨?_, steps.lists_iff.mpr (mem_headersFor.mpr (by simp)), fun b => ?_⟩
  · have hnames := steps.written_names hn
    rw [← hk.1, ← hk.2] at hnames
    exact hnames
  · rw [← Bool.not_eq_true]
    intro hl
    obtain ⟨hc, he⟩ := steps.passed.bounds hn (steps.lists_iff.mp hl)
    cases b with
    | created => exact hc rfl
    | expires => exact he rfl

theorem isTimed (hs : s.Covers r) (hn : s.namesAlgorithm = false) :
    (steps.attempt c now).Timed := by
  refine ⟨steps.written_leaves hn, fun b => steps.lists_iff.mpr ?_, fun b => ?_⟩
  · rcases hs.times with ht | ht | ⟨hc, he⟩
    · rw [hn] at ht
      cases ht
    · refine mem_headersFor.mpr (Or.inr (Or.inr (Or.inr ⟨ht, Or.inl ⟨hn, ?_⟩⟩)))
      cases b with
      | created => exact Or.inl rfl
      | expires => exact Or.inr rfl
    · refine mem_headersFor.mpr (Or.inl ?_)
      cases b with
      | created => exact hc
      | expires => exact he
  · have hno : steps.ready.header? b.word = none := by
      apply Request.header?_eq_none
      rw [steps.hasHeader_eq, hs.bounds b] <;> cases b <;> decide
    cases b with
    | created => exact ⟨_, rfl, by simp [attempt, hno]⟩
    | expires => exact ⟨_, rfl, by simp [attempt, hno]⟩

theorem bodyMatches (hs : s.Covers r) : (steps.attempt c now).BodyMatches := by
  intro hl
  obtain ⟨body, hash, hb, hd⟩ := steps.ready_digest hs (steps.lists_iff.mp hl)
  refine ⟨body, Request.digestText hash body, hash.digestName, _, hash,
    steps.ready_body.trans hb, hd, trimmed_digestText, ?_, ?_, Text.Base64.decode_encode _⟩
  · cases hash <;> decide
  · cases hash <;> decide

theorem isSound (hs : s.Covers r) (hc : s.Fits c)
    (ht : steps.signature.InTime c now) : (steps.attempt c now).Sound := by
  refine ⟨steps.lists_iff.mpr requestTarget_mem, ?_, ?_, ?_, ?_, steps.bodyMatches hs, ?_⟩
  · cases hn : s.namesAlgorithm with
    | true => exact Or.inr (steps.isDated hn (hc.named steps.key hn steps.passed.key))
    | false => exact Or.inl (steps.isTimed hs hn)
  · intro h hl hp
    exact steps.hasHeader hs (steps.lists_iff.mp hl) hp
  · intro u hu
    have hwhole : u = t.wholeSeconds :=
      (Option.some.inj hu).symm.trans (Authorization.wholeSeconds_wholeSeconds t)
    rw [hwhole]
    exact ht.begun _ rfl
  · intro u hu
    obtain rfl := Option.some.inj hu
    exact ht.notEnded _ rfl
  · refine ⟨steps.text, steps.bytes, ?_, Text.Base64.decode_encode _, ?_⟩
    · have hstring := steps.signingString_eq
      rw [← hc.escaping] at hstring
      exact hstring
    · exact hc.takes _ steps.passed.key _ _ steps.signs

/-- The request is accepted while its signature is in time, if the signature can be read and its
nonce can be registered. -/
theorem accepted_of_read {ω ε : Type} [ClientStore ω Key ε] [NonceStore ω ε] {v : Verifier ω}
    {clocks : Readings} (hs : s.Covers r) (hown : v.ownChecks = none)
    (hread : Authorization.ofRequest v.scheme steps.signed = .ok steps.signature.written)
    (hclient : ClientStore.find? s.keyId v.store = .ok (some c))
    (hc : s.Fits c) (ht : steps.signature.InTime c clocks.now)
    (hnew : ∀ value, steps.signature.written.nonce = some value →
      (NonceStore.tryRegister ⟨c.id, value, clocks.now.later c.nonceLifetime⟩ clocks.now
        v.store).1 = .ok true) :
    (v.verify clocks steps.signed).1 = .ok (.accepted steps.signature.written c) :=
  Verifier.accepted_of_read hown hread (Request.setHeader_sameBut steps.authorizes)
    (fun _ => steps.text_ne_authorization hs) hclient (steps.isSound hs hc ht) hnew

theorem accepted {ω ε : Type} [ClientStore ω Key ε] [NonceStore ω ε] {v : Verifier ω}
    {clocks : Readings} (hs : s.Transmits r nonce) (hown : v.ownChecks = none)
    (hscheme : v.scheme = s.scheme) (hclient : ClientStore.find? s.keyId v.store = .ok (some c))
    (hc : s.Fits c) (ht : steps.signature.InTime c clocks.now)
    (hnew : ∀ value, steps.signature.written.nonce = some value →
      (NonceStore.tryRegister ⟨c.id, value, clocks.now.later c.nonceLifetime⟩ clocks.now
        v.store).1 = .ok true) :
    (v.verify clocks steps.signed).1 = .ok (.accepted steps.signature.written c) := by
  have hread : Authorization.ofRequest v.scheme steps.signed = .ok steps.signature.written := by
    rw [hscheme]
    exact steps.read_signed hs.keyId hs.nonce hs.scheme
  exact steps.accepted_of_read hs.covers hown hread hclient hc ht hnew

end Steps

end Settings

namespace Verifier

variable {ω ε : Type} [ClientStore ω Key ε] [NonceStore ω ε] [RemembersNonces ω ε]

/-- A verifier with the standard checks that knows a client by the key id of settings and does not
remember the nonce. -/
structure Expects (v : Verifier ω) (s : Settings Key) (c : Client Key) (nonce : String)
    (now : Instant) : Prop where
  ownChecks : v.ownChecks = none
  scheme : v.scheme = s.scheme
  client : ClientStore.find? s.keyId v.store = .ok (some c)
  fits : s.Fits c
  nonceNew : s.usesNonce = true → Ready v.store ∧ ¬ Remembers v.store (c.id, nonce) now

/-- A request that was signed is accepted while its signature is in time, and the signature is read
as it was made, but for the part of a second of its end. -/
theorem signed_accepted {v : Verifier ω} {s : Settings Key} {r : Request} {t : Instant}
    {lifetime : Duration} {nonce : String} {signature : Signature} {c : Client Key}
    {clocks : Readings} (hs : s.Transmits r nonce)
    (hr : (s.signRequest r t lifetime nonce).result = .ok signature)
    (hv : v.Expects s c nonce clocks.now) (ht : signature.InTime c clocks.now) :
    (v.verify clocks (s.signRequest r t lifetime nonce).request).1 =
      .ok (.accepted { signature with
        expires := signature.expires.map Instant.wholeSeconds
        nonce := Authorization.nonEmpty signature.nonce } c) := by
  obtain ⟨steps, rfl, hrequest⟩ := Settings.signRequest_ok hs.hooks hr
  rw [← hrequest, ← steps.written_eq]
  refine steps.accepted hs hv.ownChecks hv.scheme hv.client hv.fits ht ?_
  intro value hvalue
  have hgiven : s.nonceFor nonce = some value := (Option.filter_eq_some_iff.mp hvalue).1
  obtain ⟨hu, he⟩ := Option.ite_none_right_eq_some.mp hgiven
  obtain ⟨hready, hnew⟩ := hv.nonceNew hu
  obtain rfl := Option.some.inj he
  exact RemembersNonces.new hready hnew

end Verifier

namespace Sample

def settings : Settings Key :=
  { (Settings.standard "client1" : Settings Key) with
    key := some client.key
    usesNonce := true }

def unsigned : Request := Place.parameter.request

/-- Signed half a second past a second, for a lifetime with a part of a second. -/
def outcome : Settings.Outcome :=
  settings.signRequest unsigned (.clamped 1000500000000) (.ofMillis 300250) "n1"

def made : Signature where
  keyId := "client1"
  algorithm := some "hs2019"
  created := some (second 1000)
  expires := some (.clamped 1300250000000)
  headers := some [.requestTarget, .date, .created, .expires]
  nonce := some "n1"
  value := "hlolJiU11X5Bv26dEJZmmfYXYvlh/os3icRL3uUVxhQ="

theorem transmits : settings.Transmits unsigned "n1" where
  hooks := rfl
  keyId := by decide
  nonce _ := by decide
  scheme := Text.forall_mem_of_all (by decide)
  names := by simp [settings, Settings.standard]
  times := Or.inr (Or.inl rfl)
  bounds _ := rfl
  digest _ := rfl

theorem fits : settings.Fits client where
  escaping := rfl
  takes key hk := by
    obtain rfl := Option.some.inj hk
    exact Key.hmac_takes _ _
  named key hn := by cases hn

theorem expects (now : Instant) : memory.Expects settings client "n1" now where
  ownChecks := rfl
  scheme := rfl
  client := by rfl
  fits := fits
  nonceNew _ := ⟨trivial, nofun⟩

set_option maxRecDepth 10000 in
theorem outcome_result : outcome.result = .ok made := by decide +kernel

theorem signed_request_accepted :
    (memory.verify (readings 1010) outcome.request).1 =
      .ok (.accepted { made with expires := some (second 1300) } client) :=
  Verifier.signed_accepted transmits outcome_result (expects _) ⟨by decide, by decide⟩

end Sample

end SignedHttp
