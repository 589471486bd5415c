import SignedHttp.Proofs.NonceLifetime

namespace SignedHttp

namespace Attempt

variable {κ ω ε : Type} [SigningKey κ] {register : Nonce → ω → Except ε Bool × ω} {a : Attempt κ}
  {s t : ω} {reason : Rejection}

theorem code_eq_iff {c : Check} (h : a.rejection? c = some reason) :
    reason.code = .invalidString ↔ c = .signatureString := by
  rw [code_eq h]
  cases c <;> decide

theorem exists_standard : ∃ before, Check.standard = before ++ [.nonce, .signatureString] ∧
    Check.nonce ∉ before ∧ Check.signatureString ∉ before :=
  ⟨Check.beforeNonce, Check.standard_eq, by decide, by decide⟩

/-- The standard checks reject a request in front of its nonce, because of its nonce, or by the
signing string when the nonce has passed. -/
theorem run_standard_rejects (h : a.run register Check.standard s = (.ok (some reason), t)) :
    reason.code ≠ .invalidString ∧
        (s = t ∨ ∃ n, a.nonce? = some n ∧ register n s = (.ok false, t)) ∨
      reason.code = .invalidString ∧ a.nonceStep register s = (.ok none, t) := by
  obtain ⟨before, he, hb, hnot⟩ := exists_standard
  rw [he, run_around hb (by decide)] at h
  cases hf : before.findSome? a.rejection? with
  | some r =>
    simp only [hf, Prod.mk.injEq, Except.ok.injEq, Option.some.injEq] at h
    obtain ⟨rfl, rfl⟩ := h
    obtain ⟨c, hm, hc⟩ := List.exists_of_findSome?_eq_some hf
    refine Or.inl ⟨fun hcode => hnot ?_, Or.inl rfl⟩
    rwa [(code_eq_iff hc).mp hcode] at hm
  | none =>
    rcases hn : a.nonceStep register s with ⟨_ | _ | r, u⟩
    · simp [hf, hn] at h
    · simp only [hf, hn, List.findSome?_singleton, Prod.mk.injEq, Except.ok.injEq] at h
      obtain ⟨hs, rfl⟩ := h
      exact Or.inr ⟨(code_eq_iff hs).mpr rfl, rfl⟩
    · simp only [hf, hn, Prod.mk.injEq, Except.ok.injEq, Option.some.injEq] at h
      obtain ⟨rfl, rfl⟩ := h
      obtain ⟨n, hnonce, hr, rfl⟩ := nonceStep_rejects_iff.mp hn
      exact Or.inl ⟨nofun, Or.inr ⟨n, hnonce, hr⟩⟩

/-- The standard checks fail only where the nonce is registered. -/
theorem run_standard_fails {e : ε} (h : a.run register Check.standard s = (.error e, t)) :
    ∃ n, a.nonce? = some n ∧ register n s = (.error e, t) := by
  obtain ⟨before, he, hb, -⟩ := exists_standard
  rw [he, run_around hb (by decide)] at h
  cases hf : before.findSome? a.rejection? with
  | some r => simp [hf] at h
  | none =>
    rcases hn : a.nonceStep register s with ⟨_ | _ | r, u⟩
    · simp only [hf, hn] at h
      exact nonceStep_fails_iff.mp (hn.trans h)
    · simp [hf, hn] at h
    · simp [hf, hn] at h

end Attempt

namespace Verifier

variable {ω κ ε : Type} [SigningKey κ] [ClientStore ω κ ε] [NonceStore ω ε] [RemembersNonces ω ε]
  {v : Verifier ω} {clocks : Readings} {r : Request} {reason : Rejection} {s : Option Signature}
  {c : Option (Client κ)}

/-- A rejected request has left the store alone, or it was rejected by its signing string and has
used its nonce up. -/
theorem rejected_cases (hown : v.ownChecks = none)
    (h : (v.verify clocks r).1 = .ok (.rejected reason s c)) :
    (v.verify clocks r).2.store = v.store ∧
        (reason.code = .invalidString → s.bind Signature.nonce = none) ∨
      reason.code = .invalidString ∧ ∃ signature client nonce,
        s = some signature ∧ c = some client ∧ signature.nonce = some nonce ∧
        ¬ Remembers v.store (client.id, nonce) clocks.now ∧
        Remembers (v.verify clocks r).2.store (client.id, nonce)
          (clocks.now.later client.nonceLifetime) := by
  have he := verify_ends clocks r v
  rw [h] at he
  generalize (v.verify clocks r).2.store = after at he ⊢
  cases he with
  | unreadable => exact Or.inl ⟨rfl, nofun⟩
  | unknown => exact Or.inl ⟨rfl, nofun⟩
  | @rejected signature client _ _ hs hc hr =>
    rw [checked, checks, hown] at hr
    rcases Attempt.run_standard_rejects hr with ⟨hcode, rfl | ⟨n, -, hn⟩⟩ | ⟨hcode, hn⟩
    · exact Or.inl ⟨rfl, fun hgiven => absurd hgiven hcode⟩
    · exact Or.inl ⟨RemembersNonces.refused hn, fun hgiven => absurd hgiven hcode⟩
    · rcases Attempt.nonceStep_accepts_iff.mp hn with ⟨hnone, rfl⟩ | ⟨n, hsome, hregistered⟩
      · rw [Attempt.nonce?_of_read hs, Option.map_eq_none_iff] at hnone
        exact Or.inl ⟨rfl, fun _ => hnone⟩
      · rw [Attempt.nonce?_of_read hs, Option.map_eq_some_iff] at hsome
        obtain ⟨nonce, hnonce, rfl⟩ := hsome
        obtain ⟨hnew, hold⟩ := RemembersNonces.registered hregistered
        exact Or.inr ⟨hcode, _, _, nonce, rfl, rfl, hnonce, hnew, hold⟩

/-- A rejected request leaves the store as it was, unless it carries a nonce and is rejected by its
signing string: then the nonce was not remembered before, and is remembered for its lifetime. -/
theorem rejected_store_iff (hown : v.ownChecks = none)
    (h : (v.verify clocks r).1 = .ok (.rejected reason s c)) :
    ((v.verify clocks r).2.store = v.store ↔
        (reason.code = .invalidString → s.bind Signature.nonce = none)) ∧
      ∀ signature client nonce, s = some signature → c = some client →
        signature.nonce = some nonce → reason.code = .invalidString →
        ¬ Remembers v.store (client.id, nonce) clocks.now ∧
        Remembers (v.verify clocks r).2.store (client.id, nonce)
          (clocks.now.later client.nonceLifetime) := by
  rcases rejected_cases hown h with ⟨hsame, hno⟩ | ⟨hcode, signature, client, nonce, rfl, rfl, hn,
    hnew, hold⟩
  · refine ⟨⟨fun _ => hno, fun _ => hsame⟩, ?_⟩
    intro signature client nonce hs _ hn hcode
    have hnone := hno hcode
    rw [hs, Option.bind_some, hn] at hnone
    cases hnone
  · constructor
    · constructor
      · intro hsame
        rw [hsame] at hold
        exact absurd (RemembersNonces.earlier hold (Instant.le_later _ _)) hnew
      · intro hno
        have hnone := hno hcode
        rw [Option.bind_some, hn] at hnone
        cases hnone
    · intro _ _ _ hs hc hnonce _
      cases hs
      cases hc
      cases hn.symm.trans hnonce
      exact ⟨hnew, hold⟩

end Verifier

namespace Sample

/-- The client's signature with a value that anybody can make up. -/
def forged : Signature :=
  { Place.parameter.signature with value := "AAAA" }

set_option maxRecDepth 2000 in
def forgedField : FieldValue where
  bytes := Text.bytes <|
    "Signature keyId=\"client1\",created=1000,expires=1300," ++
      "headers=\"(request-target) (created) (expires)\",nonce=\"n1\",signature=\"AAAA\""
  wellFormed := by decide +kernel

def forgery : Request :=
  { Place.parameter.request with fields := [(authorizationName, forgedField)] }

set_option maxRecDepth 4000 in
theorem read_forgery :
    Authorization.ofRequest Authorization.defaultScheme forgery = .ok forged := by decide +kernel

set_option maxRecDepth 4000 in
theorem checked_forgery :
    (memory.checked (readings 1000) forgery forged client).1 = .ok (some .valueMismatch) := by
  decide +kernel

theorem forgery_rejected :
    (memory.verify (readings 1000) forgery).1 =
      .ok (.rejected .valueMismatch (some forged) (some client)) := by
  have hread : Authorization.ofRequest memory.scheme forgery = .ok forged := read_forgery
  have hstored : ClientStore.find? forged.keyId memory.store = .ok (some client) := rfl
  have hchecked : memory.checked (readings 1000) forgery forged client =
      (.ok (some .valueMismatch), (memory.checked (readings 1000) forgery forged client).2) :=
    Prod.ext checked_forgery rfl
  have hend := (Verifier.verify_ends (readings 1000) forgery memory).of_checked hread hstored
  rw [hchecked] at hend
  exact hend.1

/-- The forged request is rejected, and the nonce of the true one is used up by it. -/
theorem forgery_uses_nonce :
    (memory.verify (readings 1000) forgery).1 =
        .ok (.rejected .valueMismatch (some forged) (some client)) ∧
      Remembers (memory.verify (readings 1000) forgery).2.store (client.id, "n1")
        ((second 1000).later client.nonceLifetime) := by
  refine ⟨forgery_rejected, ?_⟩
  obtain ⟨-, hused⟩ := Verifier.rejected_store_iff rfl forgery_rejected
  exact (hused forged client "n1" rfl rfl rfl rfl).2

/-- A rejected request does not always leave the nonces as they were. -/
theorem rejected_changes_nonces :
    ¬ ∀ (v : Verifier (Memory Key)) (clocks : Readings) (r : Request) (reason : Rejection)
      (s : Option Signature) (c : Option (Client Key)), v.ownChecks = none →
      (v.verify clocks r).1 = .ok (.rejected reason s c) →
      (v.verify clocks r).2.store.nonces = v.store.nonces := by
  intro hclaim
  have hsame := hclaim memory (readings 1000) forgery _ _ _ rfl forgery_rejected
  rcases Verifier.rejected_cases rfl forgery_rejected with
    ⟨-, hno⟩ | ⟨-, signature, client, nonce, -, -, -, hnew, hold⟩
  · cases hno rfl
  · have hbefore : Remembers memory.store.nonces (client.id, nonce)
        ((readings 1000).now.later client.nonceLifetime) := hsame ▸ hold
    exact hnew (RemembersNonces.earlier hbefore (Instant.le_later _ _))

end Sample

end SignedHttp
