import SignedHttp.Proofs.Chain

namespace SignedHttp.Verifier

variable {ω κ ε α : Type}

def SetUpAs (v w : Verifier ω) : Prop :=
  v.scheme = w.scheme ∧ v.ownChecks = w.ownChecks

theorem SetUpAs.refl (v : Verifier ω) : v.SetUpAs v := ⟨rfl, rfl⟩

theorem SetUpAs.symm {v w : Verifier ω} (h : v.SetUpAs w) : w.SetUpAs v :=
  ⟨h.1.symm, h.2.symm⟩

theorem SetUpAs.trans {u v w : Verifier ω} (h : u.SetUpAs v) (k : v.SetUpAs w) : u.SetUpAs w :=
  ⟨h.1.trans k.1, h.2.trans k.2⟩

theorem SetUpAs.checks_eq {v w : Verifier ω} (h : v.SetUpAs w) : v.checks = w.checks := by
  unfold checks
  rw [h.2]

theorem SetUpAs.count_nonce {v w : Verifier ω} (h : v.SetUpAs w)
    (hw : w.checks.count .nonce = 1) : v.checks.count .nonce = 1 := by
  rw [h.checks_eq, hw]

theorem standard_count_nonce {v : Verifier ω} (h : v.ownChecks = none) :
    v.checks.count .nonce = 1 := by
  rw [checks, h]
  decide

section Nonces

variable [NonceStore ω ε]

theorem registration_setUpAs (clocks : Readings) (n : Nonce) (v : Verifier ω) :
    (registration clocks n v).2.SetUpAs v := by
  unfold registration
  split <;> exact ⟨rfl, rfl⟩

theorem registration_eq (clocks : Readings) (n : Nonce) (v : Verifier ω) :
    NonceStore.tryRegister n clocks.now v.store =
      ((registration clocks n v).1, (registration clocks n v).2.store) := by
  unfold registration
  split <;> rfl

theorem tidy_setUpAs (clocks : Readings) (v : Verifier ω) : (v.tidy clocks).SetUpAs v := by
  unfold tidy
  simp only
  split
  · unfold purge
    simp only
    split <;> exact ⟨rfl, rfl⟩
  · exact ⟨rfl, rfl⟩

theorem tidy_store (clocks : Readings) (v : Verifier ω) :
    (v.tidy clocks).store = v.store ∨
      (v.tidy clocks).store = (NonceStore.purge clocks.now v.store).2 := by
  unfold tidy
  simp only
  split
  · right
    unfold purge
    simp only
    split <;> rfl
  · left
    rfl

end Nonces

section Lookup

variable [ClientStore ω κ ε] {clocks : Readings} {s : Signature} {v : Verifier ω}

theorem lookup_eq :
    v.lookup clocks s = (ClientStore.find? s.keyId v.store, (v.lookup clocks s).2) := rfl

theorem lookup_setUpAs : (v.lookup clocks s).2.SetUpAs v := ⟨rfl, rfl⟩

theorem lookup_store : (v.lookup clocks s).2.store = v.store := rfl

end Lookup

variable [NonceStore ω ε]

/-- The checks of a request with a signature of a client, made on a store. -/
def checked [SigningKey κ] (clocks : Readings) (r : Request) (s : Signature) (c : Client κ)
    (v : Verifier ω) : Except ε (Option Rejection) × ω :=
  Attempt.run (fun n t => NonceStore.tryRegister n clocks.now t) ⟨r, s, c, clocks.now⟩ v.checks
    v.store

variable [ClientStore ω κ ε]

/-- The ways in which a verification ends: its result, and the store afterwards. -/
inductive Ends [SigningKey κ] (clocks : Readings) (r : Request) (v : Verifier ω) :
    Except ε (Verdict κ) → ω → Prop
  | unreadable {d : Authorization.Defect} (hs : Authorization.ofRequest v.scheme r = .error d) :
    Ends clocks r v (.ok (.rejected (.unreadable d) none none)) v.store
  | lookupFailed {s : Signature} {e : ε} (hs : Authorization.ofRequest v.scheme r = .ok s)
    (hc : ClientStore.find? s.keyId v.store = .error e) :
    Ends clocks r v (.error e) v.store
  | unknown {s : Signature} (hs : Authorization.ofRequest v.scheme r = .ok s)
    (hc : ClientStore.find? s.keyId v.store = .ok none) :
    Ends clocks r v (.ok (.rejected (.unknownClient s.keyId) (some s) none)) v.store
  | failed {s : Signature} {c : Client κ} {e : ε} {t : ω}
    (hs : Authorization.ofRequest v.scheme r = .ok s)
    (hc : ClientStore.find? s.keyId v.store = .ok (some c))
    (hr : v.checked clocks r s c = (.error e, t)) :
    Ends clocks r v (.error e) t
  | rejected {s : Signature} {c : Client κ} {reason : Rejection} {t : ω}
    (hs : Authorization.ofRequest v.scheme r = .ok s)
    (hc : ClientStore.find? s.keyId v.store = .ok (some c))
    (hr : v.checked clocks r s c = (.ok (some reason), t)) :
    Ends clocks r v (.ok (.rejected reason (some s) (some c))) t
  | accepted {s : Signature} {c : Client κ} {t u : ω}
    (hs : Authorization.ofRequest v.scheme r = .ok s)
    (hc : ClientStore.find? s.keyId v.store = .ok (some c))
    (hr : v.checked clocks r s c = (.ok none, t))
    (hu : u = t ∨ u = (NonceStore.purge clocks.now t).2) :
    Ends clocks r v (.ok (.accepted s c)) u

variable [SigningKey κ] {clocks : Readings} {r : Request} {v : Verifier ω} {s : Signature}
  {c : Client κ}

omit [ClientStore ω κ ε] in
theorem checked_eq (clocks : Readings) (r : Request) (s : Signature) (c : Client κ)
    {w : Verifier ω} (hw : w.SetUpAs v) (hstore : w.store = v.store) :
    v.checked clocks r s c =
      ((Attempt.run (registration clocks) ⟨r, s, c, clocks.now⟩ w.checks w).1,
        (Attempt.run (registration clocks) ⟨r, s, c, clocks.now⟩ w.checks w).2.store) := by
  unfold checked
  rw [← hstore, ← hw.checks_eq]
  exact Attempt.run_map (registration_eq clocks) w

theorem judge_ends (hs : Authorization.ofRequest v.scheme r = .ok s)
    (hc : ClientStore.find? s.keyId v.store = .ok (some c)) {w : Verifier ω} (hw : w.SetUpAs v)
    (hstore : w.store = v.store) :
    Ends clocks r v (w.judge clocks r s c).1 (w.judge clocks r s c).2.store := by
  have hr := checked_eq clocks r s c hw hstore
  unfold judge
  rcases hrun : Attempt.run (registration clocks) ⟨r, s, c, clocks.now⟩ w.checks w with
    ⟨e | _ | reason, t⟩
  · exact .failed hs hc (by rw [hr, hrun])
  · rw [hrun] at hr
    simp only
    split
    · exact .accepted hs hc hr (tidy_store clocks t)
    · exact .accepted hs hc hr (Or.inl rfl)
  · exact .rejected hs hc (by rw [hr, hrun])

omit [ClientStore ω κ ε] in
theorem judge_setUpAs (w : Verifier ω) : (w.judge clocks r s c).2.SetUpAs w := by
  have hrun : (Attempt.run (registration clocks) ⟨r, s, c, clocks.now⟩ w.checks w).2.SetUpAs w :=
    Attempt.run_keeps (P := fun u => u.SetUpAs w)
      (fun n _ u hu => (registration_setUpAs clocks n u).trans hu) (.refl w)
  unfold judge
  rcases he : Attempt.run (registration clocks) ⟨r, s, c, clocks.now⟩ w.checks w with
    ⟨e | _ | reason, t⟩
  · rwa [he] at hrun
  · rw [he] at hrun
    simp only
    split
    · exact (tidy_setUpAs clocks t).trans hrun
    · exact hrun
  · rwa [he] at hrun

/-- Every verification ends in one of these ways. -/
theorem verify_ends (clocks : Readings) (r : Request) (v : Verifier ω) :
    Ends clocks r v (v.verify clocks r).1 (v.verify clocks r).2.store := by
  change Ends clocks r v (v.decideOn clocks r).1 (v.decideOn clocks r).2.store
  unfold decideOn
  cases hs : Authorization.ofRequest v.scheme r with
  | error d => exact .unreadable hs
  | ok s =>
    simp only
    rw [lookup_eq]
    rcases hc : ClientStore.find? s.keyId v.store with e | _ | c
    · exact .lookupFailed hs hc
    · exact .unknown hs hc
    · exact judge_ends hs hc lookup_setUpAs lookup_store

/-- A verification keeps what registrations and purges at its time keep. -/
theorem verify_keeps {P : ω → Prop}
    (hr : ∀ n t, P t → P (NonceStore.tryRegister n clocks.now t).2)
    (hp : ∀ t, P t → P (NonceStore.purge clocks.now t).2) (hv : P v.store) :
    P (v.verify clocks r).2.store := by
  have hk : ∀ (s : Signature) (c : Client κ) (t : ω), (v.checked clocks r s c).2 = t → P t := by
    intro s c t heq
    obtain rfl := heq
    exact Attempt.run_keeps (fun n _ => hr n) hv
  have he := verify_ends clocks r v
  generalize (v.verify clocks r).1 = result at he
  generalize (v.verify clocks r).2.store = after at he
  cases he with
  | unreadable => exact hv
  | lookupFailed => exact hv
  | unknown => exact hv
  | failed _ _ hrun => exact hk _ _ _ (by rw [hrun])
  | rejected _ _ hrun => exact hk _ _ _ (by rw [hrun])
  | accepted _ _ hrun hu =>
    have ht := hk _ _ _ (congrArg Prod.snd hrun)
    rcases hu with rfl | rfl
    · exact ht
    · exact hp _ ht

theorem verify_clients {σ τ δ : Type} [ClientStore σ κ δ] [NonceStore τ ε]
    {v : Verifier (Beside σ τ)} : (v.verify clocks r).2.store.clients = v.store.clients :=
  verify_keeps (P := fun u : Beside σ τ => u.clients = v.store.clients) (fun _ _ hu => hu)
    (fun _ hu => hu) rfl

theorem verify_setUpAs : (v.verify clocks r).2.SetUpAs v := by
  change (v.decideOn clocks r).2.SetUpAs v
  unfold decideOn
  cases Authorization.ofRequest v.scheme r with
  | error d => exact .refl v
  | ok s =>
    simp only
    rw [lookup_eq]
    rcases ClientStore.find? s.keyId v.store with e | _ | c
    · exact lookup_setUpAs
    · exact lookup_setUpAs
    · exact (judge_setUpAs _).trans lookup_setUpAs

omit [ClientStore ω κ ε] in
theorem checked_accepts_iff (hv : v.checks.count .nonce = 1) :
    (∃ t, v.checked clocks r s c = (.ok none, t)) ↔
      (∀ k ∈ v.checks, Attempt.rejection? ⟨r, s, c, clocks.now⟩ k = none) ∧
      ∀ n, Attempt.nonce? ⟨r, s, c, clocks.now⟩ = some n →
        (NonceStore.tryRegister n clocks.now v.store).1 = .ok true := by
  unfold checked
  simp only [Attempt.run_accepts_iff hv, Attempt.nonceStep_accepts_iff, exists_and_left]
  cases Attempt.nonce? ⟨r, s, c, clocks.now⟩ with
  | none => simp
  | some n =>
    simp only [reduceCtorEq, false_and, Option.some.injEq, exists_eq_left', false_or,
      forall_eq']
    rcases NonceStore.tryRegister n clocks.now v.store with ⟨result, t⟩
    simp

/-- A request with a known client ends as its checks do. -/
theorem Ends.of_checked {result : Except ε (Verdict κ)} {after : ω}
    (he : Ends clocks r v result after) (hs : Authorization.ofRequest v.scheme r = .ok s)
    (hc : ClientStore.find? s.keyId v.store = .ok (some c)) :
    match v.checked clocks r s c with
    | (.error e, t) => result = .error e ∧ after = t
    | (.ok (some reason), t) => result = .ok (.rejected reason (some s) (some c)) ∧ after = t
    | (.ok none, t) => result = .ok (.accepted s c) ∧
      (after = t ∨ after = (NonceStore.purge clocks.now t).2) := by
  cases he with
  | unreadable hs' => simp [hs] at hs'
  | lookupFailed hs' hc' =>
    cases hs.symm.trans hs'
    simp [hc] at hc'
  | unknown hs' hc' =>
    cases hs.symm.trans hs'
    simp [hc] at hc'
  | failed hs' hc' hr =>
    cases hs.symm.trans hs'
    cases hc.symm.trans hc'
    simp [hr]
  | rejected hs' hc' hr =>
    cases hs.symm.trans hs'
    cases hc.symm.trans hc'
    simp [hr]
  | accepted hs' hc' hr hu =>
    cases hs.symm.trans hs'
    cases hc.symm.trans hc'
    simp [hr, hu]

/-- A request is accepted if its signature can be read, the client it names is there, no check has
an objection, and its nonce is new. -/
theorem verify_accepted_iff (hv : v.checks.count .nonce = 1) :
    (v.verify clocks r).1 = .ok (.accepted s c) ↔
      Authorization.ofRequest v.scheme r = .ok s ∧
      ClientStore.find? s.keyId v.store = .ok (some c) ∧
      (∀ k ∈ v.checks, Attempt.rejection? ⟨r, s, c, clocks.now⟩ k = none) ∧
      ∀ n, Attempt.nonce? ⟨r, s, c, clocks.now⟩ = some n →
        (NonceStore.tryRegister n clocks.now v.store).1 = .ok true := by
  rw [← checked_accepts_iff hv]
  have he := verify_ends clocks r v
  constructor
  · intro heq
    rw [heq] at he
    generalize (v.verify clocks r).2.store = after at he
    cases he with
    | accepted hs hc hrun => exact ⟨hs, hc, _, hrun⟩
  · intro hgiven
    obtain ⟨hs, hc, t, hrun⟩ := hgiven
    have hend := he.of_checked hs hc
    rw [hrun] at hend
    exact hend.1

end SignedHttp.Verifier
