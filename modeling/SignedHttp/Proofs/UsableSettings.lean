import SignedHttp.Proofs.Authorization.Quoting
import SignedHttp.Proofs.SignedRequests

namespace SignedHttp

/-- A request that brings nothing of its own into a signature. -/
def Request.plain : Request where
  method := ⟨"GET", rfl⟩
  uri := "/"
  fields := []
  body := none

/-- What settings and a nonce must be so that signatures can be verified. -/
structure Settings.Usable (s : Settings Key) (nonce : String) : Prop where
  keyId : Authorization.Quotable s.keyId
  nonce : s.usesNonce = true → Authorization.Quotable nonce
  scheme : Authorization.IsScheme s.scheme
  times : s.namesAlgorithm = true ∨ s.addsRecommended = true ∨
    HeaderName.created ∈ s.headers ∧ .expires ∈ s.headers

/-- A signature is read as it was made, an empty nonce as none. -/
structure Signature.ReadAs (s given : Signature) : Prop where
  keyId : given.keyId = s.keyId
  algorithm : given.algorithm = s.algorithm
  created : given.created = s.created
  headers : given.headers = s.headers
  nonce : given.nonce = if s.nonce = some "" then none else s.nonce

theorem Request.plain_hasHeader (name : String) : plain.hasHeader name = false := rfl

namespace Settings.Steps

variable {s : Settings Key} {t : Instant} {lifetime : Duration} {nonce : String}

theorem names_plain (steps : s.Steps .plain t lifetime nonce) {h : HeaderName}
    (hm : h ∈ s.headers) : h.text ≠ "authorization" := by
  intro he
  have hlisted : h ∈ s.headersFor .plain := mem_headersFor.mpr (Or.inl hm)
  have hfield : SigningString.Source.of h = .field := by
    refine SigningString.of_eq_field ?_ ?_ ?_
    · simp [HeaderName.isPseudo, he]
    · rintro rfl
      exact absurd he (by decide)
    · rintro rfl
      exact absurd he (by decide)
  have hvalues := values_of_signingString steps.composes hlisted (steps.passed.isEmpty_eq hlisted)
    hfield
  have hthere : steps.ready.hasHeader "authorization" = true := he ▸ Fields.has_iff.mpr hvalues
  rw [steps.hasHeader_eq (by decide) (by decide), Request.plain_hasHeader] at hthere
  cases hthere

theorem covers_plain (steps : s.Steps .plain t lifetime nonce)
    (htimes : s.namesAlgorithm = true ∨ s.addsRecommended = true ∨
      HeaderName.created ∈ s.headers ∧ .expires ∈ s.headers) : s.Covers .plain :=
  ⟨fun _ => steps.names_plain, htimes, fun _ => rfl, fun _ => rfl⟩

variable {r : Request} (steps : s.Steps r t lifetime nonce)

/-- A lifetime of a second makes up for the part of a second that each of the times loses. -/
theorem inTime {c : Client Key} (hl : billion ≤ lifetime.nanos) :
    steps.signature.InTime c t := by
  have hends := Instant.shift?_eq_some_iff.mp steps.ends
  have hwhole : ∀ u : Instant, u.wholeSeconds.nanos = u.nanos - u.nanos % 1000000000 :=
    fun _ => rfl
  rw [hwhole] at hends
  unfold billion at hl
  refine ⟨fun u hu => ?_, fun u hu => ?_⟩
  · obtain rfl : t.wholeSeconds = u := Option.some.inj hu
    rw [hwhole]
    omega
  · obtain rfl : steps.expires = u := Option.some.inj hu
    rw [hwhole]
    omega

theorem value_quotable : Authorization.Quotable steps.signature.value :=
  Authorization.quotable_of_not_mem
    (fun hm => (Text.Base64.forall_mem_encode steps.bytes _ hm).2 rfl)

theorem algorithm_quotable : ∀ a, steps.signature.algorithm = some a → Authorization.Quotable a := by
  intro a ha
  obtain rfl := Option.some.inj ha
  exact Authorization.quotable_of_not_mem quote_not_mem_algorithm

theorem names_complete : ∀ h ∈ steps.signature.headers.getD [], h.isEmpty = false :=
  fun _ hm => steps.passed.isEmpty_eq hm

theorem nonce_eq_some {n : String} (hn : steps.signature.nonce = some n) :
    s.usesNonce = true ∧ nonce = n := by
  obtain ⟨hu, hn⟩ := Option.ite_none_right_eq_some.mp hn
  exact ⟨hu, Option.some.inj hn⟩

theorem read_usable (hs : s.Usable nonce) :
    Authorization.ofRequest s.scheme steps.signed = .ok steps.signature.written := by
  have hquotable : steps.signature.Quotable := by
    refine ⟨steps.signature_complete, steps.names_complete, hs.keyId, steps.algorithm_quotable,
      fun n hn => ?_, steps.value_quotable⟩
    obtain ⟨hu, rfl⟩ := steps.nonce_eq_some hn
    exact hs.nonce hu
  exact Authorization.ofRequest_eq_ok_iff.mpr ⟨_, Request.setHeader_header? steps.authorizes,
    Authorization.read_write hs.scheme hquotable⟩

theorem written_readAs : steps.signature.ReadAs steps.signature.written := by
  refine ⟨rfl, ?_, ?_, rfl, Authorization.nonEmpty_eq _⟩
  · rw [steps.written_eq]
  · rw [steps.written_eq]

theorem times_of_kind {given : Signature} {c : Client Key} {q : Request} {now : Instant}
    (hgiven : steps.signature.ReadAs given)
    (hkind : Attempt.Timed ⟨q, given, c, now⟩ ∨ Attempt.Dated ⟨q, given, c, now⟩) :
    s.namesAlgorithm = true ∨ s.addsRecommended = true ∨
      HeaderName.created ∈ s.headers ∧ .expires ∈ s.headers := by
  cases hn : s.namesAlgorithm with
  | true => exact Or.inl rfl
  | false =>
    refine Or.inr ?_
    cases ha : s.addsRecommended with
    | true => exact Or.inl rfl
    | false =>
      have hlisted : ∀ h, given.lists h = true → h ∈ s.headersFor r := by
        intro h hl
        rw [Signature.lists, hgiven.headers] at hl
        exact List.contains_iff_mem.mp hl
      have hparameter : s.algorithmParameter steps.key = hs2019 := if_neg (by simp [hn])
      have halgorithm : given.algorithm = some hs2019 :=
        hgiven.algorithm.trans (congrArg some hparameter)
      rcases hkind with ht | hd
      · have htime : ∀ b : Bound, b.name ∈ s.headers := by
          intro b
          rcases mem_headersFor.mp (hlisted _ (ht.listed b)) with hm | hm | hm | ⟨hm, -⟩
          · exact hm
          · exact absurd hm (by cases b <;> decide)
          · exact absurd hm (by cases b <;> decide)
          · rw [ha] at hm
            cases hm
        exact Or.inr ⟨htime .created, htime .expires⟩
      · -- `hs2019` has no hyphen
        obtain ⟨family, hash, hname, -⟩ := hd.names
        have hhyphen : '-' ∈ hs2019.toList := by
          rw [← Option.some.inj (hname.symm.trans halgorithm)]
          simp
        exact absurd hhyphen (by decide)

/-- A signature that is read as it was made, and kept by the checks, was made with usable
settings. -/
theorem usable_of_read {given : Signature} {c : Client Key} {now : Instant}
    (hread : Authorization.ofRequest s.scheme steps.signed = .ok given)
    (hgiven : steps.signature.ReadAs given) (hsound : Attempt.Sound ⟨steps.signed, given, c, now⟩) :
    s.Usable nonce := by
  obtain ⟨header, hheader, hread⟩ := Authorization.ofRequest_eq_ok_iff.mp hread
  obtain rfl : s.authorization steps.signature = header :=
    Option.some.inj ((Request.setHeader_header? steps.authorizes).symm.trans hheader)
  have hscheme : Authorization.IsScheme s.scheme :=
    Authorization.isScheme_of_read steps.passed.scheme_ne_nil hread
  have hparameters : Authorization.readParameters (Authorization.write steps.signature).toList =
      .ok given := (Authorization.read_header hscheme _).symm.trans hread
  have hnonce : given.nonce = Authorization.nonEmpty steps.signature.nonce :=
    hgiven.nonce.trans (Authorization.nonEmpty_eq _).symm
  have hquotable := Authorization.signature_quotable steps.signature_complete steps.names_complete
    steps.algorithm_quotable steps.value_quotable hparameters hgiven.keyId hnonce
  refine ⟨hquotable.keyId, fun hu => hquotable.nonce nonce (if_pos hu), hscheme, ?_⟩
  exact steps.times_of_kind hgiven hsound.kind

end Settings.Steps

namespace Verifier

variable {ω ε : Type} [ClientStore ω Key ε] [NonceStore ω ε] [RemembersNonces ω ε]

variable {v : Verifier ω} {s : Settings Key} {t : Instant} {lifetime : Duration} {nonce : String}
  {signature : Signature} {c : Client Key} {clocks : Readings}

theorem usable_of_accepted {given : Signature} (hhooks : s.hooks = .none)
    (hr : (s.signRequest .plain t lifetime nonce).result = .ok signature)
    (hv : v.Expects s c nonce t) (hgiven : signature.ReadAs given)
    (haccepted : (v.verify clocks (s.signRequest .plain t lifetime nonce).request).1 =
      .ok (.accepted given c)) : s.Usable nonce := by
  obtain ⟨steps, rfl, hrequest⟩ := Settings.signRequest_ok hhooks hr
  rw [← hrequest] at haccepted
  obtain ⟨hread, -, hsound, -⟩ := (standard_accepted_iff hv.ownChecks).mp haccepted
  rw [hv.scheme] at hread
  exact steps.usable_of_read hread hgiven hsound

theorem accepted_of_usable (hhooks : s.hooks = .none)
    (hr : (s.signRequest .plain t lifetime nonce).result = .ok signature)
    (hl : billion ≤ lifetime.nanos) (hv : v.Expects s c nonce t) (hnow : clocks.now = t)
    (hs : s.Usable nonce) :
    ∃ given, (v.verify clocks (s.signRequest .plain t lifetime nonce).request).1 =
      .ok (.accepted given c) ∧ signature.ReadAs given := by
  obtain ⟨steps, rfl, hrequest⟩ := Settings.signRequest_ok hhooks hr
  rw [← hrequest]
  refine ⟨_, ?_, steps.written_readAs⟩
  have hread : Authorization.ofRequest v.scheme steps.signed = .ok steps.signature.written := by
    rw [hv.scheme]
    exact steps.read_usable hs
  refine steps.accepted_of_read (steps.covers_plain hs.times) hv.ownChecks hread hv.client hv.fits
    (hnow ▸ steps.inTime hl) ?_
  intro value hvalue
  obtain ⟨hu, rfl⟩ := steps.nonce_eq_some (Option.filter_eq_some_iff.mp hvalue).1
  obtain ⟨hready, hnew⟩ := hv.nonceNew hu
  rw [← hnow] at hnew
  exact RemembersNonces.new hready hnew

/-- A plain request that was signed is accepted at the time of signing, with its signature read as it
was made, exactly if the settings are usable. -/
theorem plain_accepted_iff (hhooks : s.hooks = .none)
    (hr : (s.signRequest .plain t lifetime nonce).result = .ok signature)
    (hl : billion ≤ lifetime.nanos) (hv : v.Expects s c nonce t) (hnow : clocks.now = t) :
    (∃ given, (v.verify clocks (s.signRequest .plain t lifetime nonce).request).1 =
        .ok (.accepted given c) ∧ signature.ReadAs given) ↔
      s.Usable nonce := by
  constructor
  · rintro ⟨given, haccepted, hgiven⟩
    exact usable_of_accepted hhooks hr hv hgiven haccepted
  · exact accepted_of_usable hhooks hr hl hv hnow

end Verifier

namespace Sample

def quotingOutcome : Settings.Outcome :=
  settings.signRequest .plain (second 1000) (.ofSeconds 300) "n,\"1\"="

def quotingSignature : Signature where
  keyId := "client1"
  algorithm := some "hs2019"
  created := some (second 1000)
  expires := some (second 1300)
  headers := some [.requestTarget, .date, .created, .expires]
  nonce := some "n,\"1\"="
  value := "ZVQJCNVQ5EO7tbpgKvD0UOrTjzWMRu3Ht4pklkSrn2I="

set_option maxRecDepth 10000 in
theorem quotingOutcome_result : quotingOutcome.result = .ok quotingSignature := by decide +kernel

theorem quoting_expects : memory.Expects settings client "n,\"1\"=" (second 1000) where
  ownChecks := rfl
  scheme := rfl
  client := by rfl
  fits := fits
  nonceNew _ := ⟨trivial, nofun⟩

theorem quoting_accepted : ∃ given,
    (memory.verify (readings 1000) quotingOutcome.request).1 = .ok (.accepted given client) ∧
      quotingSignature.ReadAs given :=
  (Verifier.plain_accepted_iff rfl quotingOutcome_result (by decide) quoting_expects rfl).mpr
    ⟨by decide, fun _ => by decide,
      Authorization.isScheme_of_forall (by decide) (Text.forall_mem_of_all (by decide)),
      Or.inr (Or.inl rfl)⟩

/-- Settings that sign no times, and leave the algorithm to the key. -/
def untimed : Settings Key :=
  { settings with
    usesNonce := false
    addsRecommended := false }

def untimedOutcome : Settings.Outcome :=
  untimed.signRequest .plain (second 1000) (.ofSeconds 300) ""

theorem untimed_expects : memory.Expects untimed client "" (second 1000) where
  ownChecks := rfl
  scheme := rfl
  client := by rfl
  fits := ⟨rfl, fits.takes, nofun⟩
  nonceNew := nofun

set_option maxRecDepth 10000 in
theorem untimedOutcome_isOk : untimedOutcome.result.isOk = true := by decide +kernel

/-- The check of the settings does not see that a signature without times cannot be verified. -/
theorem checked_settings_unusable : ¬ ∀ (s : Settings Key) (t : Instant) (lifetime : Duration)
    (nonce : String) (signature : Signature) (v : Verifier (Memory Key)) (c : Client Key)
    (clocks : Readings), s.check.isOk = true → s.hooks = .none →
    (s.signRequest .plain t lifetime nonce).result = .ok signature → billion ≤ lifetime.nanos →
    v.Expects s c nonce t → clocks.now = t →
    ∃ given, (v.verify clocks (s.signRequest .plain t lifetime nonce).request).1 =
      .ok (.accepted given c) ∧ signature.ReadAs given := by
  intro h
  cases hr : untimedOutcome.result with
  | error d =>
    have hok := untimedOutcome_isOk
    rw [hr] at hok
    cases hok
  | ok signature =>
    obtain ⟨given, haccepted, hgiven⟩ := h untimed (second 1000) (.ofSeconds 300) "" signature memory
      client (readings 1000) (by decide) rfl hr (by decide) untimed_expects rfl
    have husable := Verifier.usable_of_accepted rfl hr untimed_expects hgiven haccepted
    exact absurd husable.times (by decide)

end Sample

end SignedHttp
