import SignedHttp.Verifier

namespace SignedHttp

def Check.code : Check → Failure.Code
  | headersPresent => .headerMissing
  | knownAlgorithm => .invalidAlgorithm
  | matchingAlgorithm => .invalidAlgorithm
  | createdGuard => .invalidCreated
  | creationTime => .invalidSignature
  | expiresGuard => .invalidExpires
  | expirationTime => .expired
  | digest => .invalidDigest
  | nonce => .replayed
  | signatureString => .invalidString

def Check.beforeNonce : List Check :=
  [headersPresent, knownAlgorithm, matchingAlgorithm, createdGuard, creationTime, expiresGuard,
    expirationTime, digest]

theorem Check.standard_eq : standard = beforeNonce ++ .nonce :: [.signatureString] := rfl

namespace Attempt

variable {κ ω σ ε : Type} [SigningKey κ] {register : Nonce → ω → Except ε Bool × ω}
  {a : Attempt κ} {cs before after : List Check} {s t : ω}

omit [SigningKey κ] in
theorem nonceStep_accepts_iff :
    a.nonceStep register s = (.ok none, t) ↔
      (a.nonce? = none ∧ s = t) ∨ ∃ n, a.nonce? = some n ∧ register n s = (.ok true, t) := by
  unfold nonceStep
  cases a.nonce? with
  | none => simp
  | some n =>
    rcases hr : register n s with ⟨_ | b, u⟩
    · simp [hr]
    · cases b <;> simp [hr]

omit [SigningKey κ] in
theorem nonceStep_rejects_iff {reason : Rejection} :
    a.nonceStep register s = (.ok (some reason), t) ↔
      ∃ n, a.nonce? = some n ∧ register n s = (.ok false, t) ∧ reason = .replayed n.value := by
  unfold nonceStep
  cases a.nonce? with
  | none => simp
  | some n =>
    rcases hr : register n s with ⟨_ | b, u⟩
    · simp [hr]
    · cases b with
      | true => simp [hr]
      | false =>
        simp only [hr, Prod.mk.injEq, Except.ok.injEq, Option.some.injEq, exists_eq_left', true_and]
        constructor
        · intro hgiven
          obtain ⟨rfl, rfl⟩ := hgiven
          exact ⟨rfl, rfl⟩
        · intro hgiven
          obtain ⟨rfl, rfl⟩ := hgiven
          exact ⟨rfl, rfl⟩

omit [SigningKey κ] in
theorem nonceStep_fails_iff {e : ε} :
    a.nonceStep register s = (.error e, t) ↔
      ∃ n, a.nonce? = some n ∧ register n s = (.error e, t) := by
  unfold nonceStep
  cases a.nonce? with
  | none => simp
  | some n =>
    rcases hr : register n s with ⟨_ | b, u⟩
    · simp [hr]
    · cases b <;> simp [hr]

theorem run_of_not_mem (h : Check.nonce ∉ cs) (s : ω) :
    a.run register cs s = (.ok (cs.findSome? a.rejection?), s) := by
  induction cs with
  | nil => rfl
  | cons c cs ih =>
    have hc : c ≠ .nonce := fun he => h (by simp [he])
    have ht := ih (fun hm => h (List.mem_cons_of_mem _ hm))
    simp only [run, step, if_neg hc, List.findSome?_cons]
    cases a.rejection? c with
    | none => exact ht
    | some r => rfl

/-- A sequence in which the nonce is checked once: the checks before, the nonce, the checks
behind. -/
theorem run_around (hb : Check.nonce ∉ before) (ha : Check.nonce ∉ after) (s : ω) :
    a.run register (before ++ .nonce :: after) s =
      match before.findSome? a.rejection? with
      | some r => (.ok (some r), s)
      | none =>
        match a.nonceStep register s with
        | (.ok none, t) => (.ok (after.findSome? a.rejection?), t)
        | stopped => stopped := by
  induction before with
  | nil =>
    simp only [List.nil_append, List.findSome?_nil, run, step, ↓reduceIte]
    rcases a.nonceStep register s with ⟨_ | _ | r, t⟩
    · rfl
    · exact run_of_not_mem ha t
    · rfl
  | cons c before ih =>
    have hc : c ≠ .nonce := fun he => hb (by simp [he])
    have ht := ih (fun hm => hb (List.mem_cons_of_mem _ hm))
    simp only [List.cons_append, run, step, if_neg hc, List.findSome?_cons]
    cases a.rejection? c with
    | none => exact ht
    | some r => rfl

theorem exists_around (h : cs.count .nonce = 1) :
    ∃ before after, cs = before ++ .nonce :: after ∧ Check.nonce ∉ before ∧
      Check.nonce ∉ after := by
  obtain ⟨before, after, rfl⟩ := List.append_of_mem (List.count_pos_iff.mp (h ▸ Nat.one_pos))
  simp only [List.count_append, List.count_cons_self] at h
  exact ⟨before, after, rfl, List.count_eq_zero.mp (by omega), List.count_eq_zero.mp (by omega)⟩

/-- A sequence lets a request through if no check has an objection and the nonce is new. -/
theorem run_accepts_iff (h : cs.count .nonce = 1) :
    a.run register cs s = (.ok none, t) ↔
      (∀ c ∈ cs, a.rejection? c = none) ∧ a.nonceStep register s = (.ok none, t) := by
  obtain ⟨before, after, rfl, hb, ha⟩ := exists_around h
  have hsplit : (∀ c ∈ before ++ .nonce :: after, a.rejection? c = none) ↔
      before.findSome? a.rejection? = none ∧ after.findSome? a.rejection? = none := by
    simp only [List.findSome?_eq_none_iff, List.mem_append, List.mem_cons]
    constructor
    · intro hall
      exact ⟨fun c hc => hall c (Or.inl hc), fun c hc => hall c (Or.inr (Or.inr hc))⟩
    · intro hgiven c hcases
      obtain ⟨hf, hl⟩ := hgiven
      rcases hcases with hc | rfl | hc
      · exact hf c hc
      · rfl
      · exact hl c hc
  rw [run_around hb ha, hsplit]
  cases before.findSome? a.rejection? with
  | some r => simp
  | none =>
    rcases a.nonceStep register s with ⟨_ | _ | r, u⟩
    · simp
    · simp
    · simp

theorem code_eq {c : Check} {reason : Rejection} (h : a.rejection? c = some reason) :
    reason.code = c.code := by
  cases c with
  | headersPresent =>
    simp only [rejection?, headersRejection?] at h
    grind [Option.map_eq_some_iff, Rejection.code, Check.code]
  | knownAlgorithm =>
    simp only [rejection?, algorithmRejection?] at h
    grind [Rejection.code, Check.code]
  | matchingAlgorithm =>
    simp only [rejection?, mismatchRejection?] at h
    grind [Rejection.code, Check.code]
  | createdGuard =>
    simp only [rejection?, boundRejection?] at h
    grind [Rejection.code, Bound.code, Check.code]
  | creationTime =>
    simp only [rejection?, creationRejection?] at h
    grind [Rejection.code, Check.code]
  | expiresGuard =>
    simp only [rejection?, boundRejection?] at h
    grind [Rejection.code, Bound.code, Check.code]
  | expirationTime =>
    simp only [rejection?, expirationRejection?] at h
    grind [Rejection.code, Check.code]
  | digest =>
    simp only [rejection?, digestRejection?, digestRejection] at h
    grind [Rejection.code, Check.code]
  | nonce => cases h
  | signatureString =>
    simp only [rejection?, stringRejection?] at h
    grind [Rejection.code, Check.code]

theorem exists_of_run {reason : Rejection} (h : a.run register cs s = (.ok (some reason), t)) :
    (∃ c ∈ cs, a.rejection? c = some reason) ∨ ∃ value, reason = .replayed value := by
  induction cs generalizing s with
  | nil => cases h
  | cons c cs ih =>
    unfold run at h
    split at h
    · rcases ih h with ⟨d, hd, hr⟩ | hreplayed
      · exact Or.inl ⟨d, List.mem_cons_of_mem _ hd, hr⟩
      · exact Or.inr hreplayed
    · next given u hstep =>
      obtain ⟨rfl, rfl⟩ : given = reason ∧ u = t := by simpa using h
      unfold step at hstep
      split at hstep
      · obtain ⟨n, -, -, hreplayed⟩ := nonceStep_rejects_iff.mp hstep
        exact Or.inr ⟨n.value, hreplayed⟩
      · exact Or.inl ⟨c, List.mem_cons_self, Except.ok.inj (Prod.mk.inj hstep).1⟩
    · cases h

theorem rejection?_ne_replayed (c : Check) (value : String) :
    a.rejection? c ≠ some (.replayed value) := by
  intro h
  have hcode : Failure.Code.replayed = c.code := code_eq h
  obtain rfl : c = .nonce := by
    revert hcode
    cases c <;> decide
  cases h

theorem run_replayed (h : cs.count .nonce = 1) {value : String}
    (hr : a.run register cs s = (.ok (some (.replayed value)), t)) :
    ∃ n, a.nonce? = some n ∧ register n s = (.ok false, t) ∧ n.value = value := by
  obtain ⟨before, after, rfl, hb, ha⟩ := exists_around h
  rw [run_around hb ha] at hr
  have hno : ∀ checks : List Check, checks.findSome? a.rejection? ≠ some (.replayed value) := by
    intro checks he
    obtain ⟨c, _, hc⟩ := List.exists_of_findSome?_eq_some he
    exact rejection?_ne_replayed c value hc
  cases hf : before.findSome? a.rejection? with
  | some r =>
    simp only [hf, Prod.mk.injEq, Except.ok.injEq] at hr
    exact absurd (hf.trans hr.1) (hno before)
  | none =>
    simp only [hf] at hr
    rcases hn : a.nonceStep register s with ⟨_ | _ | r, u⟩
    · simp [hn] at hr
    · simp only [hn, Prod.mk.injEq, Except.ok.injEq] at hr
      exact absurd hr.1 (hno after)
    · simp only [hn, Prod.mk.injEq, Except.ok.injEq, Option.some.injEq] at hr
      obtain ⟨rfl, rfl⟩ := hr
      obtain ⟨n, ha, hn, he⟩ := nonceStep_rejects_iff.mp hn
      exact ⟨n, ha, hn, (Rejection.replayed.inj he).symm⟩

section Related

variable {other : Nonce → σ → Except ε Bool × σ} {R : ω → σ → Prop}

/-- The registration of the nonce of the request has the same result on two related states, and
leaves them related. -/
def RegistersAlike (a : Attempt κ) (register : Nonce → ω → Except ε Bool × ω)
    (other : Nonce → σ → Except ε Bool × σ) (R : ω → σ → Prop) : Prop :=
  ∀ n, a.nonce? = some n → ∀ s u, R s u →
    (register n s).1 = (other n u).1 ∧ R (register n s).2 (other n u).2

omit [SigningKey κ] in
theorem nonceStep_related (hr : a.RegistersAlike register other R) {u : σ} (h : R s u) :
    (a.nonceStep register s).1 = (a.nonceStep other u).1 ∧
      R (a.nonceStep register s).2 (a.nonceStep other u).2 := by
  unfold nonceStep
  cases hn : a.nonce? with
  | none => exact ⟨rfl, h⟩
  | some n =>
    have hboth := hr n hn s u h
    simp only
    generalize register n s = left at hboth ⊢
    generalize other n u = right at hboth ⊢
    obtain ⟨x, s'⟩ := left
    obtain ⟨y, u'⟩ := right
    obtain ⟨rfl, hleft⟩ : x = y ∧ R s' u' := hboth
    rcases x with e | _ | _ <;> exact ⟨rfl, hleft⟩

theorem run_related (hr : a.RegistersAlike register other R) {u : σ} (h : R s u) :
    (a.run register cs s).1 = (a.run other cs u).1 ∧
      R (a.run register cs s).2 (a.run other cs u).2 := by
  induction cs generalizing s u with
  | nil => exact ⟨rfl, h⟩
  | cons c cs ih =>
    have hstep : (a.step register c s).1 = (a.step other c u).1 ∧
        R (a.step register c s).2 (a.step other c u).2 := by
      unfold step
      split
      · exact nonceStep_related hr h
      · exact ⟨rfl, h⟩
    unfold run
    generalize a.step register c s = left at hstep ⊢
    generalize a.step other c u = right at hstep ⊢
    obtain ⟨x, s'⟩ := left
    obtain ⟨y, u'⟩ := right
    obtain ⟨rfl, hleft⟩ : x = y ∧ R s' u' := hstep
    rcases x with e | _ | r
    · exact ⟨rfl, hleft⟩
    · exact ih hleft
    · exact ⟨rfl, hleft⟩

end Related

/-- What the registration of its nonce keeps, the whole sequence keeps. -/
theorem run_keeps {P : ω → Prop} (hk : ∀ n, a.nonce? = some n → ∀ s, P s → P (register n s).2)
    (hs : P s) : P (a.run register cs s).2 := by
  have hr : a.RegistersAlike register register (fun s u => s = u ∧ P s) := by
    intro n hn s u hgiven
    obtain ⟨rfl, hs⟩ := hgiven
    exact ⟨rfl, rfl, hk n hn s hs⟩
  exact (run_related hr ⟨rfl, hs⟩).2.2

/-- A sequence of checks knows no more of a state than what its registrations use of it. -/
theorem run_map {view : σ → ω} {inner : Nonce → σ → Except ε Bool × σ}
    (hi : ∀ n u, register n (view u) = ((inner n u).1, view (inner n u).2)) (u : σ) :
    a.run register cs (view u) = ((a.run inner cs u).1, view (a.run inner cs u).2) := by
  have hr : a.RegistersAlike register inner (fun s u => s = view u) := by
    intro n _ s u hs
    subst hs
    rw [hi]
    exact ⟨rfl, rfl⟩
  have hboth : (a.run register cs (view u)).1 = (a.run inner cs u).1 ∧
      (a.run register cs (view u)).2 = view (a.run inner cs u).2 := run_related hr rfl
  exact Prod.ext hboth.1 hboth.2

end Attempt

end SignedHttp
