import SignedHttp.Check
import SignedHttp.Proofs.Authorization.Read
import SignedHttp.Proofs.Text.Ascii
import SignedHttp.Proofs.Text.Splitting

namespace SignedHttp

namespace Instant

variable {s t : Instant} {d : Duration}

theorem shift?_eq_some_iff {n : Int} : s.shift? n = some t ↔ t.nanos = s.nanos + n := by
  unfold shift?
  constructor
  · intro h
    obtain ⟨_, he⟩ := Option.dite_none_right_eq_some.mp h
    rw [← Option.some.inj he]
  · intro h
    rw [← h, ofNanos?_nanos]

theorem shift?_sub (s t : Instant) : s.shift? (t.nanos - s.nanos) = some t := by
  rw [shift?_eq_some_iff]
  omega

/-- No instant lies outside the range, so the limits change no comparison. -/
theorem later_lt_iff : s.later d < t ↔ s.nanos + d.nanos < t.nanos := by
  have hl := t.le_latest
  have he := s.earliest_le
  rw [lt_def, later, nanos_clamped]
  simp only [earliest, latest]
  omega

theorem lt_sooner_iff : s < t.sooner d ↔ s.nanos < t.nanos - d.nanos := by
  have he := s.earliest_le
  have hl := t.le_latest
  rw [lt_def, sooner, nanos_clamped]
  simp only [earliest, latest]
  omega

end Instant

namespace Signature

variable {s : Signature}

theorem familyAndHash?_eq_some_iff {f g : String} :
    s.familyAndHash? = some (f, g) ↔ s.algorithm = some (f ++ "-" ++ g) ∧ '-' ∉ f.toList := by
  unfold familyAndHash?
  cases s.algorithm with
  | none => simp
  | some given =>
    simp only [Option.bind_some, Option.some.injEq]
    split
    · next h =>
      simp only [reduceCtorEq, false_iff, not_and]
      intro heq
      obtain rfl := heq
      have hl := Text.equalIgnoringCase_iff.mp h
      have hm : '-' ∈ Text.lower (f ++ "-" ++ g).toList := by
        simp only [Text.lower, String.toList_append, List.map_append]
        simp
      rw [hl] at hm
      exact absurd hm (by decide)
    · exact Text.cut_eq_some_iff

end Signature

namespace Attempt

variable {κ : Type} {a : Attempt κ}

theorem nonce?_of_read {scheme : String} {r : Request} {s : Signature} {c : Client κ}
    {now : Instant} (hs : Authorization.ofRequest scheme r = .ok s) :
    nonce? ⟨r, s, c, now⟩ =
      s.nonce.map (fun value => ⟨c.id, value, now.later c.nonceLifetime⟩) := by
  obtain ⟨header, -, hr⟩ := Authorization.ofRequest_eq_ok_iff.mp hs
  have hw := Authorization.read_wellRead (P := fun _ => True) hr (by simp)
  rw [nonce?, hw.nonce?_eq]

theorem headersRejection?_eq_none_iff :
    a.headersRejection? = none ↔
      (∀ h ∈ a.signature.requiredNames, a.signature.lists h = true) ∧
        ∀ h, a.signature.lists h = true → h.isPseudo = false → h.isEmpty = false →
          a.request.hasHeader h.text = true := by
  unfold headersRejection? Signature.lists
  cases a.signature.headers with
  | none =>
    have hm : HeaderName.requestTarget ∈ a.signature.requiredNames := by
      unfold Signature.requiredNames
      split <;> simp
    simp only [reduceCtorEq, false_iff, not_and]
    intro hr
    simpa using hr _ hm
  | some hs =>
    simp only [Option.getD_some, List.contains_iff_mem]
    cases hf : a.signature.requiredNames.find? (fun h => !hs.contains h) with
    | some h =>
      have hm := List.mem_of_find?_eq_some hf
      have hn := List.find?_some hf
      simp only [reduceCtorEq, false_iff]
      intro hgiven
      obtain ⟨hr, -⟩ := hgiven
      simp [hr h hm] at hn
    | none =>
      have hr : ∀ h ∈ a.signature.requiredNames, h ∈ hs := by simpa using hf
      have ha : a.absentHeader? hs = none ↔
          ∀ h ∈ hs, h.isPseudo = false → h.isEmpty = false →
            a.request.hasHeader h.text = true := by
        simp [absentHeader?]
      simp only [Option.map_eq_none_iff, ha]
      exact ⟨fun h => ⟨hr, h⟩, fun h => h.2⟩

theorem algorithmRejection?_eq_none_iff :
    a.algorithmRejection? = none ↔
      ∀ given, a.signature.algorithm = some given →
        Text.equalIgnoringCase given hs2019 = true ∨
        ∃ f h, a.signature.familyAndHash? = some (f, h) ∧ isKnown f h = true := by
  unfold algorithmRejection?
  cases a.signature.algorithm with
  | none => simp
  | some given =>
    simp only [Option.some.injEq, forall_eq']
    split
    · next h => simp [h]
    · next h =>
      cases a.signature.familyAndHash? with
      | none => simp [h]
      | some fh =>
        obtain ⟨f, g⟩ := fh
        simp only [h, Bool.false_eq_true, false_or, ite_eq_left_iff, Bool.not_eq_true,
          reduceCtorEq, imp_false, Option.some.injEq, Prod.mk.injEq]
        constructor
        · intro hk
          exact ⟨f, g, ⟨rfl, rfl⟩, by simpa using hk⟩
        · intro hgiven
          obtain ⟨_, _, ⟨rfl, rfl⟩, hk⟩ := hgiven
          simpa using hk

theorem mismatchRejection?_eq_none_iff [SigningKey κ] :
    a.mismatchRejection? = none ↔
      ∀ f h, a.signature.familyAndHash? = some (f, h) →
        Text.equalIgnoringCase f (family a.client.key).name = true ∧
          Hash.ofName? h = some (hash a.client.key) := by
  unfold mismatchRejection?
  cases a.signature.familyAndHash? with
  | none => simp
  | some fh =>
    obtain ⟨f, h⟩ := fh
    by_cases hf : Text.equalIgnoringCase f (family a.client.key).name = true
    · by_cases hh : Hash.ofName? h = some (hash a.client.key)
      · simp [hf, hh]
      · simp [hf, hh]
    · simp [hf]

/-- A time that is listed is there, and no field contradicts it. -/
theorem boundRejection?_eq_none_iff {b : Bound} :
    a.boundRejection? b = none ↔
      (a.signature.lists b.name = true → a.signature.isDated = false ∧
        ∃ t, a.signature.bound? b = some t ∧
          ∀ text, a.request.header? b.word = some text →
            Text.int64? (Text.trimmed text) = some t.seconds) := by
  unfold boundRejection?
  cases a.signature.lists b.name with
  | false => simp
  | true =>
    cases a.signature.isDated with
    | true => simp
    | false =>
      cases a.signature.bound? b with
      | none => simp
      | some t =>
        cases a.request.header? b.word with
        | none => simp
        | some text => simp

theorem creationRejection?_eq_none_iff :
    a.creationRejection? = none ↔
      ∀ t, a.signature.created = some t →
        t.nanos ≤ a.now.nanos + a.client.clockSkew.nanos := by
  unfold creationRejection?
  cases a.signature.created with
  | none => simp
  | some t => simp [Instant.later_lt_iff]

theorem expirationRejection?_eq_none_iff :
    a.expirationRejection? = none ↔
      ∀ t, a.signature.expires = some t →
        a.now.nanos - a.client.clockSkew.nanos ≤ t.nanos := by
  unfold expirationRejection?
  cases a.signature.expires with
  | none => simp
  | some t => simp [Instant.lt_sooner_iff]

theorem digestRejection_eq_none_iff {header : String} {body : Bytes} :
    digestRejection header body = none ↔
      ∃ name encoded hash, Text.cut '=' (Text.trimmed header) = some (name, encoded) ∧
        Hash.ofName? name = some hash ∧
        Text.Base64.decode encoded = .ok (hash.digest body) := by
  unfold digestRejection
  rcases Text.cut '=' (Text.trimmed header) with _ | ⟨name, encoded⟩
  · simp
  · simp only [Option.some.injEq, Prod.mk.injEq]
    cases hn : Hash.ofName? name with
    | none =>
      simp only [reduceCtorEq, false_iff]
      intro hgiven
      obtain ⟨_, _, hash, ⟨rfl, rfl⟩, hh, -⟩ := hgiven
      simp [hn] at hh
    | some hash =>
      cases hd : Text.Base64.decode encoded with
      | error e =>
        simp only [reduceCtorEq, false_iff]
        intro hgiven
        obtain ⟨_, _, _, ⟨rfl, rfl⟩, -, he⟩ := hgiven
        simp [hd] at he
      | ok expected =>
        have hif : (if hash.digest body = expected then none else some Rejection.digestMismatch) =
            none ↔ hash.digest body = expected := by
          split <;> simp [*]
        rw [hif]
        constructor
        · intro heq
          obtain rfl := heq
          exact ⟨name, encoded, hash, ⟨rfl, rfl⟩, hn, hd⟩
        · intro hgiven
          obtain ⟨_, _, _, ⟨rfl, rfl⟩, hh, he⟩ := hgiven
          rw [hn] at hh
          rw [hd] at he
          cases hh
          cases he
          rfl

theorem digestRejection?_eq_none_iff :
    a.digestRejection? = none ↔
      (a.signature.lists .digest = true →
        ∃ body header, a.request.body = some body ∧ a.request.header? "digest" = some header ∧
          digestRejection header body = none) := by
  unfold digestRejection?
  cases a.signature.lists .digest with
  | false => simp
  | true =>
    cases a.request.body with
    | none => simp
    | some body =>
      cases a.request.header? "digest" with
      | none => simp
      | some header => simp

theorem stringRejection?_eq_none_iff [SigningKey κ] :
    a.stringRejection? = none ↔
      ∃ text received,
        signingString a.request (a.signature.composition a.client.terms.escaping) = .ok text ∧
        Text.Base64.decode a.signature.value = .ok received ∧
        SigningKey.verify a.client.key text received = true := by
  unfold stringRejection?
  cases signingString a.request (a.signature.composition a.client.terms.escaping) with
  | error d => simp
  | ok text =>
    cases Text.Base64.decode a.signature.value with
    | error e => simp
    | ok received => simp

end Attempt

end SignedHttp
