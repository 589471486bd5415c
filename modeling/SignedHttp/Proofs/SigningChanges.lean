import SignedHttp.Proofs.Lines
import SignedHttp.Proofs.SignedRequests

namespace SignedHttp

theorem Fields.set_set (fs : Fields) (f : Field) : (fs.set f).set f = fs.set f := by
  simp [Fields.set, List.filter_append, List.filter_filter]

namespace Request

variable {r q dated ready : Request} {names : List HeaderName} {hash : Option Hash} {t : Instant}
  {name value : String}

theorem setHeader_again (h : r.setHeader name value = .ok q) : q.setHeader name value = .ok q := by
  obtain ⟨f, hf, he⟩ := bind_eq_ok_iff.mp h
  obtain rfl := Except.ok.inj he
  refine bind_eq_ok_iff.mpr ⟨f, hf, ?_⟩
  simp only [Fields.set_set]
  rfl

theorem exists_withDate (r : Request) (names : List HeaderName) (t : Instant) :
    ∃ dated, r.withDate names t = .ok dated := by
  unfold withDate
  split
  · exact exists_setHeader r rfl (HttpDate.isPrinted_of_mem_write _)
  · exact ⟨r, rfl⟩

theorem withDate_of_hasHeader (h : r.hasHeader "date" = true) : r.withDate names t = .ok r := by
  simp [withDate, h]

theorem withDate_of_not_hasHeader (hm : HeaderName.date ∈ names) (h : r.hasHeader "date" = false) :
    r.withDate names t = r.setHeader "date" (HttpDate.write (.ofInstant t)) := by
  simp [withDate, hm, h]

theorem isPrinted_of_mem_digestText (hash : Hash) (body : Bytes) :
    ∀ c ∈ (digestText hash body).toList, Text.IsPrinted c := by
  have hname : ∀ c ∈ (hash.digestName ++ "=").toList, Text.IsPrinted c := by
    apply Text.forall_mem_of_all
    cases hash <;> decide
  intro c hc
  rw [digestText, String.toList_append] at hc
  rcases List.mem_append.mp hc with hc | hc
  · exact hname c hc
  · exact Text.Base64.isPrinted_of_mem_encode _ c hc

/-- A digest is missing that is to be signed, and it can be made. -/
structure LacksDigest (r : Request) (names : List HeaderName) (hash : Option Hash) : Prop where
  listed : HeaderName.digest ∈ names
  body : r.hasBody = true
  missing : r.hasHeader "digest" = false
  hash : hash.isSome = true

theorem LacksDigest.exists_withDigest (h : r.LacksDigest names hash) :
    ∃ body used ready, r.body = some body ∧ hash = some used ∧
      r.setHeader "digest" (digestText used body) = .ok ready ∧
      r.withDigest names hash = .ok ready := by
  obtain ⟨body, hbody⟩ := Option.isSome_iff_exists.mp h.body
  obtain ⟨used, rfl⟩ := Option.isSome_iff_exists.mp h.hash
  obtain ⟨ready, hset⟩ : ∃ ready, r.setHeader "digest" (digestText used body) = .ok ready :=
    exists_setHeader r rfl (isPrinted_of_mem_digestText used body)
  refine ⟨body, used, ready, hbody, rfl, hset, ?_⟩
  simp [withDigest, h.listed, hbody, h.missing, hset, Except.mapError]

theorem withDigest_there (hm : HeaderName.digest ∈ names)
    (hd : r.withDigest names hash = .ok ready) :
    ready.hasBody = true ∧ ready.hasHeader "digest" = true := by
  have hbody : ready.hasBody = r.hasBody := congrArg Option.isSome (withDigest_sameBut hd).body
  unfold withDigest at hd
  rw [List.contains_iff_mem.mpr hm] at hd
  cases hb : r.body with
  | none => simp [hb] at hd
  | some body =>
    refine ⟨hbody.trans (congrArg Option.isSome hb), ?_⟩
    simp only [hb, Bool.not_true, Bool.false_eq_true, ↓reduceIte] at hd
    split at hd
    · next hthere => exact Except.ok.inj hd ▸ hthere
    · split at hd
      · cases hd
      · exact hasHeader_of_header? (setHeader_header? (mapError_eq_ok_iff.mp hd))

theorem withDigest_of_there
    (h : HeaderName.digest ∈ names → r.hasBody = true ∧ r.hasHeader "digest" = true) :
    r.withDigest names hash = .ok r := by
  by_cases hm : HeaderName.digest ∈ names
  · obtain ⟨hb, hd⟩ := h hm
    obtain ⟨body, hbody⟩ := Option.isSome_iff_exists.mp hb
    simp [withDigest, hbody, hd]
  · simp [withDigest, hm]

theorem withDigest_of_not_lacksDigest (h : ¬ r.LacksDigest names hash)
    (hd : r.withDigest names hash = .ok ready) : ready = r := by
  unfold withDigest at hd
  split at hd
  · exact (Except.ok.inj hd).symm
  · next hlisted =>
    split at hd
    · cases hd
    · next body hbody =>
      split at hd
      · exact (Except.ok.inj hd).symm
      · next hmissing =>
        split at hd
        · cases hd
        · next used =>
          refine absurd ⟨?_, ?_, ?_, rfl⟩ h
          · simpa using hlisted
          · simp [hasBody, hbody]
          · simpa using hmissing

end Request

namespace Settings

variable {κ : Type} {s : Settings κ} {r q dated ready : Request} {t : Instant}
  {lifetime : Duration} {nonce : String}

def PutsDigest (s : Settings κ) (r : Request) : Prop :=
  r.LacksDigest (s.headersFor r) s.bodyHash

/-- The second request is what signing leaves of the first one: a date and a digest are put in where
they are missing, and no field changes that is not one of its own. -/
structure Leaves (s : Settings κ) (t : Instant) (own : List String) (r q : Request) : Prop where
  method : q.method = r.method
  uri : q.uri = r.uri
  body : q.body = r.body
  others (name : String) : Text.lowered name ∉ own → q.fields.values name = r.fields.values name
  keepsDate : r.hasHeader "date" = true → q.fields.values "date" = r.fields.values "date"
  putsDate : r.hasHeader "date" = false → ∃ v : FieldValue, q.fields.values "date" = [v] ∧
    v.text = HttpDate.write (.ofInstant t.wholeSeconds)
  keepsDigest : ¬ s.PutsDigest r → q.fields.values "digest" = r.fields.values "digest"
  putsDigest : s.PutsDigest r → ∃ body hash, r.body = some body ∧ s.bodyHash = some hash ∧
    ∃ v : FieldValue, q.fields.values "digest" = [v] ∧ v.text = Request.digestText hash body

theorem mem_headersFor_date : HeaderName.date ∈ s.headersFor r :=
  mem_headersFor.mpr (Or.inr (Or.inr (Or.inl rfl)))

theorem headersFor_congr (hb : q.hasBody = r.hasBody) : s.headersFor q = s.headersFor r := by
  unfold headersFor
  rw [hb]

theorem lacksDigest_dated (hd : r.withDate (s.headersFor r) t = .ok dated) :
    dated.LacksDigest (s.headersFor r) s.bodyHash ↔ s.PutsDigest r := by
  have hsame := Request.withDate_sameBut hd
  have hbody : dated.hasBody = r.hasBody := congrArg Option.isSome hsame.body
  have hdigest : dated.hasHeader "digest" = r.hasHeader "digest" := hsame.hasHeader (by decide)
  constructor
  · intro h
    exact ⟨h.listed, hbody ▸ h.body, hdigest ▸ h.missing, h.hash⟩
  · intro h
    exact ⟨h.listed, hbody.symm ▸ h.body, hdigest.symm ▸ h.missing, h.hash⟩

theorem date_of_withDate (hd : r.withDate (s.headersFor r) t = .ok dated)
    (hmissing : r.hasHeader "date" = false) :
    ∃ v : FieldValue, dated.fields.values "date" = [v] ∧
      v.text = HttpDate.write (.ofInstant t) := by
  rw [Request.withDate_of_not_hasHeader mem_headersFor_date hmissing] at hd
  obtain ⟨-, -, -, v, htext, hvalues⟩ := Request.setHeader_values hd
  exact ⟨v, hvalues "date", htext⟩

theorem eq_of_withDate (hd : r.withDate (s.headersFor r) t = .ok dated)
    (hthere : r.hasHeader "date" = true) : dated = r := by
  rw [Request.withDate_of_hasHeader hthere] at hd
  exact (Except.ok.inj hd).symm

theorem leaves_dated (hd : r.withDate (s.headersFor r) t.wholeSeconds = .ok dated)
    (hno : ¬ s.PutsDigest r) : s.Leaves t ["date", "digest"] r dated := by
  have hsame := Request.withDate_sameBut hd
  exact {
    method := hsame.method
    uri := hsame.uri
    body := hsame.body
    others := fun name hn => hsame.values name (fun he => hn (he ▸ by simp))
    keepsDate := fun hthere => by rw [eq_of_withDate hd hthere]
    putsDate := date_of_withDate hd
    keepsDigest := fun _ => hsame.values "digest" (by decide)
    putsDigest := fun hputs => absurd hputs hno }

theorem leaves_ready (hd : r.withDate (s.headersFor r) t.wholeSeconds = .ok dated)
    (hg : dated.withDigest (s.headersFor r) s.bodyHash = .ok ready) :
    s.Leaves t ["date", "digest"] r ready := by
  by_cases hputs : s.PutsDigest r
  · obtain ⟨body, used, q, hbody, hused, hset, hwith⟩ :=
      ((lacksDigest_dated hd).mpr hputs).exists_withDigest
    obtain rfl : q = ready := Except.ok.inj (hwith.symm.trans hg)
    have hdated := Request.withDate_sameBut hd
    have hsame := Request.withDigest_sameBut hg
    obtain ⟨-, -, -, v, htext, hvalues⟩ := Request.setHeader_values hset
    have hdate : q.fields.values "date" = dated.fields.values "date" :=
      hsame.values "date" (by decide)
    exact {
      method := hsame.method.trans hdated.method
      uri := hsame.uri.trans hdated.uri
      body := hsame.body.trans hdated.body
      others := fun name hn => (hsame.values name (fun he => hn (he ▸ by simp))).trans
        (hdated.values name (fun he => hn (he ▸ by simp)))
      keepsDate := fun hthere => by rw [hdate, eq_of_withDate hd hthere]
      putsDate := fun hmissing => hdate ▸ date_of_withDate hd hmissing
      keepsDigest := fun hno => absurd hputs hno
      putsDigest := fun _ =>
        ⟨body, used, hdated.body.symm.trans hbody, hused, v, hvalues "digest", htext⟩ }
  · obtain rfl := Request.withDigest_of_not_lacksDigest (mt (lacksDigest_dated hd).mp hputs) hg
    exact leaves_dated hd hputs

theorem Leaves.authorized {signed : Request} {value : String}
    (h : s.Leaves t ["date", "digest"] r ready)
    (hset : ready.setHeader "authorization" value = .ok signed) :
    s.Leaves t ["authorization", "date", "digest"] r signed := by
  have hsame := Request.setHeader_sameBut hset
  have hdate : signed.fields.values "date" = ready.fields.values "date" :=
    hsame.values "date" (by decide)
  have hdigest : signed.fields.values "digest" = ready.fields.values "digest" :=
    hsame.values "digest" (by decide)
  exact {
    method := hsame.method.trans h.method
    uri := hsame.uri.trans h.uri
    body := hsame.body.trans h.body
    others := fun name hn => by
      rw [List.mem_cons, not_or] at hn
      exact (hsame.values name hn.1).trans (h.others name hn.2)
    keepsDate := fun hthere => hdate.trans (h.keepsDate hthere)
    putsDate := fun hmissing => hdate ▸ h.putsDate hmissing
    keepsDigest := fun hno => hdigest.trans (h.keepsDigest hno)
    putsDigest := fun hputs => hdigest ▸ h.putsDigest hputs }

section Signing

variable [SigningKey κ] {key : κ} {signature : Signature} {d : SigningDefect}

/-- A signing with settings that passed their check fails when date and digest are put in, or when
no digest can be. -/
theorem signRequest_fails (hc : s.check = .ok key)
    (hr : (s.signRequest r t lifetime nonce).result = .error d) :
    ∃ dated, r.withDate (s.headersFor r) t.wholeSeconds = .ok dated ∧
      (dated.withDigest (s.headersFor r) s.bodyHash =
          .ok (s.signRequest r t lifetime nonce).request ∨
        ¬ s.PutsDigest r ∧ (s.signRequest r t lifetime nonce).request = dated) := by
  obtain ⟨dated, hdated⟩ := Request.exists_withDate r (s.headersFor r) t.wholeSeconds
  refine ⟨dated, hdated, ?_⟩
  unfold signRequest at hr ⊢
  cases hdigest : dated.withDigest (s.headersFor r) s.bodyHash with
  | error e =>
    refine Or.inr ⟨fun hputs => ?_, by simp only [hc, hdated, hdigest]⟩
    obtain ⟨-, -, ready, -, -, -, hready⟩ :=
      ((lacksDigest_dated hdated).mpr hputs).exists_withDigest
    rw [hdigest] at hready
    cases hready
  | ok ready =>
    left
    simp only [hc, hdated, hdigest] at hr ⊢
    split at hr
    · rfl
    · split at hr
      · rfl
      · cases hr

/-- A signing that fails leaves the request as it was exactly if it has put nothing in: the request
had a date, and no digest was missing that could be made. What it has put in stays. -/
theorem failed_unchanged_iff (hc : s.check = .ok key)
    (hr : (s.signRequest r t lifetime nonce).result = .error d) :
    s.Leaves t ["date", "digest"] r (s.signRequest r t lifetime nonce).request ∧
      ((s.signRequest r t lifetime nonce).request = r ↔
        r.hasHeader "date" = true ∧ ¬ s.PutsDigest r) := by
  obtain ⟨dated, hdated, hrequest⟩ := signRequest_fails hc hr
  generalize (s.signRequest r t lifetime nonce).request = q at hrequest ⊢
  have hleaves : s.Leaves t ["date", "digest"] r q := by
    rcases hrequest with hready | ⟨hno, rfl⟩
    · exact leaves_ready hdated hready
    · exact leaves_dated hdated hno
  refine ⟨hleaves, ?_⟩
  constructor
  · intro hsame
    subst hsame
    refine ⟨?_, fun hputs => ?_⟩
    · by_contra hmissing
      rw [Bool.not_eq_true] at hmissing
      obtain ⟨v, hv, -⟩ := hleaves.putsDate hmissing
      rw [Fields.has_eq_false_iff.mp hmissing] at hv
      cases hv
    · obtain ⟨-, -, -, -, v, hv, -⟩ := hleaves.putsDigest hputs
      rw [Fields.has_eq_false_iff.mp hputs.missing] at hv
      cases hv
  · intro hnothing
    obtain ⟨hthere, hno⟩ := hnothing
    obtain rfl := eq_of_withDate hdated hthere
    rcases hrequest with hready | ⟨-, hq⟩
    · exact Request.withDigest_of_not_lacksDigest (mt (lacksDigest_dated hdated).mp hno) hready
    · exact hq

end Signing

end Settings

namespace Sample

/-- Settings that ask for a field which the request does not have. -/
def demanding : Settings Key :=
  { (Settings.standard "client1" : Settings Key) with
    key := some client.key
    headers := [⟨"x-not-there", by decide⟩] }

def failed : Settings.Outcome :=
  demanding.signRequest unsigned (second 1000) (.ofMillis 300000) ""

theorem failed_result :
    failed.result = .error (.string (.missingHeader ⟨"x-not-there", by decide⟩)) := by
  decide +kernel

theorem failed_leaves_date :
    demanding.check = .ok client.key ∧ failed.request ≠ unsigned := by
  have hcheck : demanding.check = .ok client.key := by decide
  obtain ⟨-, hunchanged⟩ := Settings.failed_unchanged_iff hcheck failed_result
  exact ⟨hcheck, fun hsame => absurd (hunchanged.mp hsame).1 (by decide)⟩

theorem failed_signing_changes :
    ¬ ∀ (s : Settings Key) (r : Request) (t : Instant) (lifetime : Duration) (nonce : String)
        (d : SigningDefect), s.check.isOk = true →
      (s.signRequest r t lifetime nonce).result = .error d →
      (s.signRequest r t lifetime nonce).request = r := by
  intro hunchanged
  have hsame : failed.request = unsigned :=
    hunchanged demanding unsigned (second 1000) (.ofMillis 300000) "" _ rfl failed_result
  have hdate : failed.request.hasHeader "date" = true := by decide +kernel
  rw [hsame] at hdate
  exact absurd hdate (by decide)

end Sample

namespace Settings

variable {κ : Type} [SigningKey κ] {s : Settings κ} {r : Request} {t : Instant}
  {lifetime : Duration} {nonce : String}

namespace Steps

variable (steps : s.Steps r t lifetime nonce)

theorem leaves : s.Leaves t ["authorization", "date", "digest"] r steps.signed :=
  (leaves_ready steps.dates steps.digests).authorized steps.authorizes

theorem headersFor_signed : s.headersFor steps.signed = s.headersFor r :=
  headersFor_congr (congrArg Option.isSome steps.leaves.body)

theorem exists_again (hn : ∀ h ∈ s.headersFor r, h.text ≠ "authorization") :
    ∃ again : s.Steps steps.signed t lifetime nonce,
      again.key = steps.key ∧ again.signature = steps.signature ∧ again.signed = steps.signed := by
  have hsame := Request.setHeader_sameBut steps.authorizes
  have hdate : steps.signed.hasHeader "date" = true := by
    rw [hsame.hasHeader (by decide),
      (Request.withDigest_sameBut steps.digests).hasHeader (by decide)]
    exact Request.withDate_date steps.dates mem_headersFor_date
  have hdigest : HeaderName.digest ∈ s.headersFor r →
      steps.signed.hasBody = true ∧ steps.signed.hasHeader "digest" = true := by
    intro hm
    obtain ⟨hbody, hthere⟩ := Request.withDigest_there hm steps.digests
    exact ⟨(congrArg Option.isSome hsame.body).trans hbody,
      (hsame.hasHeader (by decide)).trans hthere⟩
  have hnames := steps.headersFor_signed
  have hcomposes := signingString_sameBut
    (c := s.composition (s.headersFor r) t.wholeSeconds lifetime (s.nonceFor nonce)) hsame hn
  refine ⟨{
    key := steps.key, passed := steps.passed, dated := steps.signed,
    dates := Request.withDate_of_hasHeader hdate, ready := steps.signed,
    digests := hnames ▸ Request.withDigest_of_there hdigest,
    expires := steps.expires, ends := steps.ends, text := steps.text,
    composes := hnames ▸ hcomposes.trans steps.composes,
    bytes := steps.bytes, signs := steps.signs, signed := steps.signed,
    authorizes := hnames ▸ Request.setHeader_again steps.authorizes }, rfl, ?_, rfl⟩
  simp only [Steps.signature, hnames]

theorem check_eq {signature : Signature}
    (hr : (s.signRequest r t lifetime nonce).result = .ok signature) :
    s.check = .ok steps.key := by
  cases hc : s.check with
  | error e => simp [signRequest, hc] at hr
  | ok key =>
    have hkey := (check_eq_ok hc).key
    rw [steps.passed.key] at hkey
    exact congrArg Except.ok (Option.some.inj hkey).symm

theorem signRequest_eq (hh : s.hooks = .none) (hc : s.check = .ok steps.key) :
    s.signRequest r t lifetime nonce = ⟨.ok steps.signature, steps.signed, []⟩ := by
  have hsignature : s.signatureFor steps.ready (s.headersFor r) t lifetime (s.nonceFor nonce) =
      (.ok steps.signature, []) := by
    simp only [signatureFor, hc, steps.ends, steps.composes, hookComposed, hookCreated, hh,
      Hooks.none, steps.signs]
    rfl
  have hset : steps.ready.setHeader "authorization" (s.authorization steps.signature) =
      .ok steps.signed := steps.authorizes
  rw [nonceFor] at hsignature
  simp only [signRequest, hc, steps.dates, steps.digests, hsignature, hset, hh, Hooks.none]
  rfl

end Steps

/-- A signing changes the fields for the date, the digest and the signature only: a date and a
digest where they are missing, and one value for the signature. If the signature is not signed
itself, then signing once more gives the same signature and leaves the request as it is. -/
theorem signing_changes_once {o : Outcome} {signature : Signature} (hh : s.hooks = .none)
    (ho : s.signRequest r t lifetime nonce = o) (hr : o.result = .ok signature) :
    s.Leaves t ["authorization", "date", "digest"] r o.request ∧
      (∃ v : FieldValue, o.request.fields.values "authorization" = [v] ∧
        v.text = s.authorization signature) ∧
      ((∀ h ∈ s.headers, h.text ≠ "authorization") →
        s.signRequest o.request t lifetime nonce = o) := by
  subst ho
  obtain ⟨steps, rfl, hrequest⟩ := signRequest_ok hh hr
  have hc : s.check = .ok steps.key := steps.check_eq hr
  rw [← hrequest]
  refine ⟨steps.leaves, ?_, fun hn => ?_⟩
  · obtain ⟨-, -, -, v, htext, hvalues⟩ := Request.setHeader_values steps.authorizes
    exact ⟨v, hvalues "authorization", htext⟩
  · have hnames : ∀ h ∈ s.headersFor r, h.text ≠ "authorization" :=
      fun h hm => text_ne_authorization hn hm
    obtain ⟨again, hkey, hsignature, hsigned⟩ := steps.exists_again hnames
    rw [again.signRequest_eq hh (hkey ▸ hc), hsignature, hsigned, steps.signRequest_eq hh hc]

end Settings

namespace Sample

/-- The date of the first signing stays when the request is signed again. -/
theorem outcome_again :
    (∃ v : FieldValue, outcome.request.fields.values "date" = [v] ∧
        v.text = "Thu, 01 Jan 1970 00:16:40 GMT") ∧
      settings.signRequest outcome.request (.clamped 1000500000000) (.ofMillis 300250) "n1" =
        outcome := by
  have houtcome :
      settings.signRequest unsigned (.clamped 1000500000000) (.ofMillis 300250) "n1" = outcome :=
    rfl
  obtain ⟨hleaves, -, hagain⟩ := Settings.signing_changes_once rfl houtcome outcome_result
  obtain ⟨v, hv, htext⟩ := hleaves.putsDate rfl
  have hdate : HttpDate.write (.ofInstant (Instant.clamped 1000500000000).wholeSeconds) =
      "Thu, 01 Jan 1970 00:16:40 GMT" := by decide +kernel
  exact ⟨⟨v, hv, htext.trans hdate⟩, hagain (by simp [settings, Settings.standard])⟩

end Sample

end SignedHttp
