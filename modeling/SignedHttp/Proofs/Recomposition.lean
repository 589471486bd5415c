import SignedHttp.Proofs.AlgorithmLabels

namespace SignedHttp

open SigningString

namespace SigningString

variable {r : Request} {c : Composition} {h : HeaderName}

theorem isPseudo_of_field (hf : Source.of h = .field) : h.isPseudo = false := by
  cases hp : h.isPseudo with
  | false => rfl
  | true => rcases HeaderName.isPseudo_iff.mp hp with rfl | rfl | rfl <;> cases hf

theorem exists_fieldValue?_iff :
    (∃ value, fieldValue? r h = some value) ↔ r.hasHeader h.text = true := by
  rw [Request.hasHeader, Fields.has_iff, fieldValue?, Request.headerValues]
  cases r.fields.values h.text with
  | nil => simp
  | cons v vs => simp

/-- A name has its line or contributes none, unless it is that of a field that is not there or that
of an expiration that is out of range. -/
theorem exists_line?_iff (he : h.isEmpty = false) :
    (∃ o, line? r c h = .ok o) ↔
      (Source.of h = .field → r.hasHeader h.text = true) ∧
        (Source.of h = .expires → ∃ o, expiresValue? c = .ok o) := by
  rw [line?, he, if_neg Bool.false_ne_true, exists_map_iff, ← exists_fieldValue?_iff]
  cases Source.of h with
  | field =>
    rw [Source.value?]
    cases fieldValue? r h <;> simp
  | expires => simp [Source.value?]
  | requestTarget => simp [Source.value?]
  | created => simp [Source.value?]
  | date => simp [Source.value?]
  | digest => simp [Source.value?]

theorem exists_headerLines_iff :
    (∃ ls, headerLines r c = .ok ls) ↔
      ∀ h ∈ c.headers, h.isEmpty = false → ∃ o, line? r c h = .ok o := by
  unfold headerLines
  rw [exists_bind_pure_iff, exists_mapM_iff]
  simp only [List.mem_filter, Bool.not_eq_true', and_imp]

end SigningString

theorem exists_signingString_iff {r : Request} {c : Composition} :
    (∃ text, signingString r c = .ok text) ↔
      ∀ h ∈ c.headers, h.isEmpty = false → ∃ o, line? r c h = .ok o := by
  rw [signingString, exists_map_iff, ← exists_headerLines_iff]
  exact exists_bind_pure_iff

theorem Signature.expiresValue?_composition (s : Signature) (e : Escaping) :
    expiresValue? (s.composition e) = .ok (s.created.bind (fun _ =>
      s.expires.map (fun t => Text.signedDecimal t.seconds))) := by
  unfold expiresValue? Signature.composition
  cases s.created with
  | none => rfl
  | some created =>
    cases s.expires with
    | none => rfl
    | some expires =>
      simp only [Option.bind_some, Option.map_some, Instant.shift?_sub]

namespace Attempt

variable {κ ω ε : Type} [SigningKey κ] {register : Nonce → ω → Except ε Bool × ω} {a : Attempt κ}
  {cs : List Check} {s t : ω}

omit [SigningKey κ] in
/-- Of a request that claims to be signed the text can be composed if each listed field is there;
a date and a digest may be missing. -/
theorem recomposed_iff :
    (∃ text, signingString a.request (a.signature.composition a.client.terms.escaping) =
        .ok text) ↔
      ∀ h, a.signature.lists h = true → h.isEmpty = false → Source.of h = .field →
        a.request.hasHeader h.text = true := by
  rw [exists_signingString_iff]
  simp only [Signature.lists, List.contains_iff_mem]
  refine forall₃_congr (fun h _ he => ?_)
  rw [exists_line?_iff he, Signature.expiresValue?_composition]
  simp

omit [SigningKey κ] in
theorem recomposed_of_headersPresent (h : a.headersRejection? = none) :
    ∃ text, signingString a.request (a.signature.composition a.client.terms.escaping) =
      .ok text := by
  obtain ⟨-, hpresent⟩ := headersRejection?_eq_none_iff.mp h
  exact recomposed_iff.mpr (fun g hl he hf => hpresent g hl (isPseudo_of_field hf) he)

theorem of_rejection?_notComposed {c : Check} {d : SigningString.Defect}
    (h : a.rejection? c = some (.notComposed d)) :
    signingString a.request (a.signature.composition a.client.terms.escaping) = .error d := by
  have hcode : Failure.Code.invalidString = c.code := code_eq h
  obtain rfl : c = .signatureString := by
    revert hcode
    cases c <;> decide
  simp only [rejection?, stringRejection?] at h
  split at h
  · next d' he =>
    rw [he]
    obtain rfl := Rejection.notComposed.inj (Option.some.inj h)
    rfl
  · next text _ =>
    split at h
    · cases h
    · split at h <;> cases h

theorem rejection?_ne_notComposed (h : a.headersRejection? = none) (c : Check)
    (d : SigningString.Defect) : a.rejection? c ≠ some (.notComposed d) := by
  intro hd
  obtain ⟨text, htext⟩ := recomposed_of_headersPresent h
  rw [of_rejection?_notComposed hd] at htext
  cases htext

/-- If the fields are looked for first, no text is tried that cannot be composed. -/
theorem run_ne_notComposed (d : SigningString.Defect) :
    a.run register (.headersPresent :: cs) s ≠ (.ok (some (.notComposed d)), t) := by
  intro h
  cases hf : a.headersRejection? with
  | none =>
    rcases exists_of_run h with ⟨c, -, hc⟩ | ⟨value, hvalue⟩
    · exact rejection?_ne_notComposed hf c d hc
    · cases hvalue
  | some reason =>
    have hreason : a.rejection? .headersPresent = some reason := hf
    have hfirst : a.run register (.headersPresent :: cs) s = (.ok (some reason), s) := by
      simp only [run, step, reduceCtorEq, ↓reduceIte, hreason]
    rw [hfirst] at h
    obtain rfl := Option.some.inj (Except.ok.inj (Prod.mk.inj h).1)
    have hcode : Failure.Code.invalidString = Check.headersPresent.code := code_eq hreason
    cases hcode

/-- Where the check of the fields passes, the text that is checked can be composed, whatever the
names, the times and the way of escaping: nothing but a listed field can be missing. The standard
checks look at the fields first, so they reject no request because its text cannot be composed. -/
theorem recomposed_when_checked (register : Nonce → ω → Except ε Bool × ω) (a : Attempt κ) (s : ω) :
    ((∃ text, signingString a.request (a.signature.composition a.client.terms.escaping) =
        .ok text) ↔
      ∀ h, a.signature.lists h = true → h.isEmpty = false → Source.of h = .field →
        a.request.hasHeader h.text = true) ∧
    (a.rejection? .headersPresent = none →
      (∃ text, signingString a.request (a.signature.composition a.client.terms.escaping) =
        .ok text) ∧
      ∀ d, a.rejection? .signatureString ≠ some (.notComposed d)) ∧
    ∀ d t, a.run register Check.standard s ≠ (.ok (some (.notComposed d)), t) := by
  refine ⟨recomposed_iff, fun h => ⟨recomposed_of_headersPresent h, fun d => ?_⟩,
    fun d t => run_ne_notComposed d⟩
  exact rejection?_ne_notComposed h .signatureString d

end Attempt

namespace Sample

/-- A signature that lists a name twice and the empty one, and that ends as long before it begins as
it can. -/
def overstretched : Attempt Key where
  request := Place.field.request
  signature :=
    { Place.field.signature with
      created := some Instant.latest.wholeSeconds
      expires := some .earliest
      headers := some
        [.expires, .empty, .requestTarget, .created, nonceField.1.headerName, .expires, .empty] }
  client := client
  now := second 1000

theorem overstretched_recomposed :
    overstretched.rejection? .headersPresent = none ∧
      ∃ text, signingString overstretched.request
        (overstretched.signature.composition client.terms.escaping) = .ok text := by
  have hpresent : overstretched.rejection? .headersPresent = none := by decide
  have hchecked := Attempt.recomposed_when_checked register overstretched memory.store
  exact ⟨hpresent, (hchecked.2.1 hpresent).1⟩

end Sample

end SignedHttp
