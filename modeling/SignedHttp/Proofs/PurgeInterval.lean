import SignedHttp.Proofs.Consulting

namespace SignedHttp

variable {ω κ ε : Type}

namespace Periodic

/-- Fewer requests than the policy waits for have come since the last purge. -/
def Bounded (p : Periodic) : Prop :=
  p.count.toNat < max p.every.toNat 1

variable {p : Periodic} {now : Instant}

theorem bounded_of_count_zero (h : p.count = 0) : p.Bounded := by
  have hzero : p.count.toNat = 0 := congrArg UInt32.toNat h
  rw [Bounded, hzero]
  omega

theorem Bounded.succ (h : p.Bounded) : (p.count + 1).toNat = p.count.toNat + 1 := by
  have hevery := p.every.toNat_lt
  have hroom : p.count.toNat + 1 < 2 ^ 32 := by
    rw [Bounded] at h
    omega
  exact (UInt32.toNat_add p.count 1).trans (Nat.mod_eq_of_lt hroom)

theorem succ_lt_of_waits (h : (p.ask now).1 = false) : (p.count + 1).toNat < p.every.toNat :=
  UInt32.lt_iff_toNat_lt.mp (UInt32.not_le.mp (of_decide_eq_false (Bool.or_eq_false_iff.mp h).1))

end Periodic

def NonceUse.purges : NonceUse ε → Bool
  | purged _ => true
  | tried _ => false

namespace Observation

def purges (o : Observation κ ε) : Bool :=
  o.uses.any NonceUse.purges

/-- The request was accepted and carries a nonce. -/
def tidied (o : Observation κ ε) : Bool :=
  Verifier.tidies o.result

end Observation

namespace Verifier

section Tidy

variable [NonceStore ω ε] {clocks : Readings} {v : Verifier ω} {p : Periodic}

theorem tidy_of_due (hv : v.policy = .periodic p) (hdue : (p.ask clocks.asked).1 = true) :
    (v.tidy clocks).policy = .periodic ((p.ask clocks.asked).2.purged clocks.told) ∧
      (v.tidy clocks).store = (NonceStore.purge clocks.now v.store).2 := by
  rw [tidy_eq, hv, PurgePolicy.ask, if_pos hdue, purge_eq]
  exact ⟨rfl, rfl⟩

theorem tidy_of_not_due (hv : v.policy = .periodic p) (hdue : (p.ask clocks.asked).1 = false) :
    (v.tidy clocks).policy = .periodic (p.ask clocks.asked).2 ∧
      (v.tidy clocks).store = v.store := by
  rw [tidy_eq, hv, PurgePolicy.ask, if_neg (Bool.eq_false_iff.mp hdue)]
  exact ⟨rfl, rfl⟩

def tidyAfter (clocks : Readings) (result : Except ε (Verdict κ)) (v : Verifier ω) : Verifier ω :=
  if tidies result then v.tidy clocks else v

end Tidy

variable [SigningKey κ] [ClientStore ω κ ε] [NonceStore ω ε] {v : Verifier ω} {clocks : Readings}
  {r : Request} {s : Signature} {c : Client κ}

section Kept

variable {P : ω → Prop}

omit [ClientStore ω κ ε] in
theorem judge_tidies
    (hregister : ∀ n t, P t → P (NonceStore.tryRegister n clocks.now t).2) (hv : P v.store) :
    ∃ u : Verifier ω, u.policy = v.policy ∧ P u.store ∧
      (v.judge clocks r s c).2 = u.tidyAfter clocks (v.judge clocks r s c).1 := by
  have hpolicy := run_policy clocks ⟨r, s, c, clocks.now⟩ v.checks v
  have hkept : P (Attempt.run (registration clocks) ⟨r, s, c, clocks.now⟩ v.checks v).2.store := by
    refine Attempt.run_keeps (P := fun u : Verifier ω => P u.store) (fun n _ u hu => ?_) hv
    have hafter := hregister n u.store hu
    rw [registration_eq clocks n u] at hafter
    exact hafter
  unfold judge
  generalize Attempt.run (registration clocks) ⟨r, s, c, clocks.now⟩ v.checks v = ran
    at hpolicy hkept ⊢
  rcases ran with ⟨e | _ | reason, t⟩ <;> exact ⟨t, hpolicy, hkept, rfl⟩

/-- What comes before the policy is asked changes neither the policy nor what registrations
keep. -/
theorem verify_tidies (clocks : Readings) (r : Request)
    (hregister : ∀ n t, P t → P (NonceStore.tryRegister n clocks.now t).2) (hv : P v.store) :
    ∃ u : Verifier ω, u.policy = v.policy ∧ P u.store ∧
      (v.verify clocks r).2 = (u.tidyAfter clocks (v.verify clocks r).1).record
        (.verified (clocks.took .verification) (ending (v.verify clocks r).1)) := by
  suffices hdecided : ∃ u : Verifier ω, u.policy = v.policy ∧ P u.store ∧
      (v.decideOn clocks r).2 = u.tidyAfter clocks (v.decideOn clocks r).1 by
    obtain ⟨u, hpolicy, hstore, hafter⟩ := hdecided
    exact ⟨u, hpolicy, hstore, congrArg (record _) hafter⟩
  unfold decideOn
  cases Authorization.ofRequest v.scheme r with
  | error d => exact ⟨v, rfl, hv, rfl⟩
  | ok s =>
    have hpolicy : (v.lookup clocks s).2.policy = v.policy := rfl
    have hstore : P (v.lookup clocks s).2.store := hv
    simp only
    generalize v.lookup clocks s = found at hpolicy hstore ⊢
    obtain ⟨e | _ | c, u⟩ := found
    · exact ⟨u, hpolicy, hstore, rfl⟩
    · exact ⟨u, hpolicy, hstore, rfl⟩
    · obtain ⟨t, ht, hkept, hafter⟩ := judge_tidies (r := r) (s := s) (c := c) hregister hstore
      exact ⟨t, ht.trans hpolicy, hkept, hafter⟩

end Kept

theorem result_observe (x : Visit ω) (v : Verifier ω) : (v.observe x).result = (v.visit x).1 := by
  let w : Verifier (Journaled ω ε) := v.journaling x
  let u : Verifier ω := { v with store := x.before v.store }
  have hscheme : w.scheme = u.scheme := rfl
  have hfind (s : Signature) :
      ClientStore.find? s.keyId w.store = ClientStore.find? (κ := κ) s.keyId u.store := rfl
  have hregister (n : Nonce) (t : Journaled ω ε) :
      NonceStore.tryRegister n x.clocks.now t.store =
        ((NonceStore.tryRegister n x.clocks.now t).1,
          (NonceStore.tryRegister n x.clocks.now t).2.store) := rfl
  have hchecked (s : Signature) (c : Client κ) :
      (w.checked x.clocks x.request s c).1 = (u.checked x.clocks x.request s c).1 :=
    (congrArg Prod.fst (Attempt.run_map hregister w.store)).symm
  have houtcome : (w.outcome x.clocks x.request).1 = (u.outcome (κ := κ) x.clocks x.request).1 := by
    unfold outcome
    simp only [hscheme, hfind]
    cases Authorization.ofRequest u.scheme x.request with
    | error d => rfl
    | ok s =>
      simp only
      rcases ClientStore.find? (κ := κ) s.keyId u.store with e | _ | c
      · rfl
      · rfl
      · exact congrArg (Except.map (verdict s c)) (hchecked s c)
  exact (verify_outcome x.clocks x.request w).1.trans
    (houtcome.trans (verify_outcome x.clocks x.request u).1.symm)

theorem results_observeAll (xs : List (Visit ω)) (v : Verifier ω) :
    (v.observeAll xs).map Observation.result = (v.visitAll xs).1 := by
  induction xs generalizing v with
  | nil => rfl
  | cons x xs ih =>
    simp only [observeAll, visitAll, List.map_cons, result_observe, ih]

end Verifier

namespace Periodic

/-- What becomes of a periodic policy in a visit. -/
inductive Passes (o : Observation κ ε) (p q : Periodic) : Prop
  | unasked (htidied : o.tidied = false) (hpurges : o.purges = false) (hq : q = p)
  | waits (htidied : o.tidied = true) (hpurges : o.purges = false) (hevery : q.every = p.every)
    (hcount : q.count = p.count + 1) (hlt : (p.count + 1).toNat < p.every.toNat)
  | purges (htidied : o.tidied = true) (hpurges : o.purges = true) (hevery : q.every = p.every)
    (hcount : q.count = 0)

/-- What becomes of a periodic policy in a run. -/
structure Keeps (seen : List (Observation κ ε)) (p q : Periodic) : Prop where
  every : q.every = p.every
  bounded : q.Bounded
  /-- Without a purge, all accepted requests with a nonce are counted. -/
  count : (∀ o ∈ seen, o.tidied = true → o.purges = false) →
    q.count.toNat = p.count.toNat + seen.countP Observation.tidied
  always : p.every = 0 → ∀ o ∈ seen, o.tidied = true → o.purges = true

variable {o : Observation κ ε} {seen : List (Observation κ ε)} {p q r : Periodic}

theorem Passes.every_eq (h : Passes o p q) : q.every = p.every := by
  cases h with
  | unasked _ _ hq => rw [hq]
  | waits _ _ hevery => exact hevery
  | purges _ _ hevery => exact hevery

theorem Passes.bounded (h : Passes o p q) (hp : p.Bounded) : q.Bounded := by
  cases h with
  | unasked _ _ hq => exact hq ▸ hp
  | waits _ _ hevery hcount hlt =>
    rw [Bounded, hevery, hcount]
    exact lt_of_lt_of_le hlt (Nat.le_max_left _ _)
  | purges _ _ _ hcount => exact bounded_of_count_zero hcount

theorem Passes.count_eq (h : Passes o p q) (hp : p.Bounded)
    (hnone : o.tidied = true → o.purges = false) :
    q.count.toNat = p.count.toNat + o.tidied.toNat := by
  cases h with
  | unasked htidied _ hq => rw [hq, htidied, Bool.toNat_false, Nat.add_zero]
  | waits htidied _ _ hcount => rw [hcount, htidied, hp.succ, Bool.toNat_true]
  | purges htidied hpurges => rw [hnone htidied] at hpurges; cases hpurges

theorem Passes.purges_of_every_zero (h : Passes o p q) (hevery : p.every = 0)
    (htidied : o.tidied = true) : o.purges = true := by
  cases h with
  | unasked hnone => rw [hnone] at htidied; cases htidied
  | waits _ _ _ _ hlt => rw [hevery] at hlt; exact absurd hlt (Nat.not_lt_zero _)
  | purges _ hpurges => exact hpurges

theorem Keeps.nil (hp : p.Bounded) : Keeps ([] : List (Observation κ ε)) p p where
  every := rfl
  bounded := hp
  count _ := rfl
  always _ _ ho := nomatch ho

theorem Keeps.cons (ho : Passes o p q) (hp : p.Bounded) (h : Keeps seen q r) :
    Keeps (o :: seen) p r where
  every := h.every.trans ho.every_eq
  bounded := h.bounded
  count hnone := by
    obtain ⟨hfirst, hrest⟩ := List.forall_mem_cons.mp hnone
    rw [h.count hrest, ho.count_eq hp hfirst, List.countP_cons]
    cases o.tidied with
    | false => rfl
    | true => exact Nat.add_right_comm _ 1 _
  always hevery := List.forall_mem_cons.mpr
    ⟨ho.purges_of_every_zero hevery, h.always (ho.every_eq.trans hevery)⟩

/-- As many accepted requests with a nonce as the policy waits for do not pass without a purge. -/
theorem Keeps.exists_purges (h : Keeps seen p q)
    (henough : max p.every.toNat 1 ≤ seen.countP Observation.tidied) :
    ∃ o ∈ seen, o.tidied = true ∧ o.purges = true := by
  by_contra hnone
  have hcount := h.count fun o ho htidied =>
    Bool.eq_false_iff.mpr fun hpurges => hnone ⟨o, ho, htidied, hpurges⟩
  have hbounded := h.bounded
  rw [Bounded, h.every] at hbounded
  omega

end Periodic

namespace Verifier

variable [SigningKey κ] [ClientStore ω κ ε] [NonceStore ω ε] {v : Verifier ω} {p : Periodic}

theorem visit_passes (hv : v.policy = .periodic p) (x : Visit ω) :
    ∃ q, (v.visit x).2.policy = .periodic q ∧ Periodic.Passes (v.observe x) p q := by
  -- the policy is that of the verifier itself, and the purge is in the journal of the one beside it
  have hregister (n : Nonce) (t : Journaled ω ε) (ht : t.journal.any NonceUse.purges = false) :
      (NonceStore.tryRegister n x.clocks.now t).2.journal.any NonceUse.purges = false := by
    refine List.any_append.trans ?_
    rw [ht]
    rfl
  obtain ⟨u, hu, -, hvisit⟩ := verify_tidies x.clocks x.request
    (v := { v with store := x.before v.store }) (P := fun _ => True) (fun _ _ _ => trivial) trivial
  obtain ⟨w, hw, hjournal, hobserve⟩ := verify_tidies x.clocks x.request
    (v := v.journaling (ε := ε) x) (P := fun t => t.journal.any NonceUse.purges = false)
    hregister rfl
  have hpolicy : (v.visit x).2.policy = (u.tidyAfter x.clocks (v.observe x).result).policy :=
    (congrArg Verifier.policy hvisit).trans
      (congrArg (fun result => (u.tidyAfter x.clocks result).policy) (result_observe x v).symm)
  have hpurges : (v.observe x).purges =
      (w.tidyAfter x.clocks (v.observe x).result).store.journal.any NonceUse.purges :=
    congrArg (fun after => after.store.journal.any NonceUse.purges) hobserve
  replace hu : u.policy = .periodic p := hu.trans hv
  replace hw : w.policy = .periodic p := hw.trans hv
  rw [hpolicy]
  cases htidied : tidies (v.observe x).result with
  | false =>
    rw [tidyAfter, if_neg (Bool.eq_false_iff.mp htidied)] at hpurges ⊢
    exact ⟨p, hu, .unasked htidied (hpurges.trans hjournal) rfl⟩
  | true =>
    rw [tidyAfter, if_pos htidied] at hpurges ⊢
    cases hdue : (p.ask x.clocks.asked).1 with
    | false =>
      obtain ⟨hafter, -⟩ := tidy_of_not_due hu hdue
      obtain ⟨-, hstore⟩ := tidy_of_not_due hw hdue
      rw [hstore, hjournal] at hpurges
      exact ⟨_, hafter, .waits htidied hpurges rfl rfl (Periodic.succ_lt_of_waits hdue)⟩
    | true =>
      obtain ⟨hafter, -⟩ := tidy_of_due hu hdue
      obtain ⟨-, hstore⟩ := tidy_of_due hw hdue
      have hpurged : (NonceStore.purge x.clocks.now w.store).2.journal.any NonceUse.purges = true :=
        List.any_append.trans (Bool.or_true _)
      rw [hstore, hpurged] at hpurges
      exact ⟨_, hafter, .purges htidied hpurges rfl rfl⟩

theorem visitAll_keeps (hv : v.policy = .periodic p) (hp : p.Bounded) (xs : List (Visit ω)) :
    ∃ q, (v.visitAll xs).2.policy = .periodic q ∧ Periodic.Keeps (v.observeAll xs) p q := by
  induction xs generalizing v p with
  | nil => exact ⟨p, hv, .nil hp⟩
  | cons x xs ih =>
    obtain ⟨q, hq, hpasses⟩ := visit_passes hv x
    obtain ⟨r, hr, hkeeps⟩ := ih hq (hpasses.bounded hp)
    exact ⟨r, hr, .cons hpasses hp hkeeps⟩

/-- A verifier with a periodic policy, whatever its checks and stores do and whatever the clocks
show. At any time its policy has counted fewer requests than it waits for, or none, and has room
to count one more. From then on, of as many accepted requests with a nonce as it waits for, at
least one has the store purged, whether purges fail or not; and if it waits for none, each one
does. -/
theorem periodic_purges {every : UInt32} {period : Duration} {start : Instant}
    (hv : v.policy = .periodic (.start every period start)) (xs ys : List (Visit ω)) :
    let before := (v.visitAll xs).2
    let seen := before.observeAll ys
    (∃ p, before.policy = .periodic p ∧ p.every = every ∧ p.count.toNat < max every.toNat 1 ∧
      (p.count + 1).toNat = p.count.toNat + 1) ∧
    seen.map Observation.result = (before.visitAll ys).1 ∧
    (max every.toNat 1 ≤ seen.countP Observation.tidied →
      ∃ o ∈ seen, o.tidied = true ∧ o.purges = true) ∧
    (every = 0 → ∀ o ∈ seen, o.tidied = true → o.purges = true) := by
  intro before seen
  obtain ⟨p, hp, hpast⟩ := visitAll_keeps hv (Periodic.bounded_of_count_zero rfl) xs
  obtain ⟨q, hq, hkeeps⟩ := visitAll_keeps hp hpast.bounded ys
  have hevery : p.every = every := hpast.every
  have hbounded := hpast.bounded
  exact ⟨⟨p, hp, hevery, hevery ▸ hbounded, hbounded.succ⟩, results_observeAll ys before,
    fun henough => hkeeps.exists_purges (hevery ▸ henough),
    fun hzero => hkeeps.always (hevery.trans hzero)⟩

end Verifier

namespace Sample

/-- A verifier that purges behind each second request, by a clock that went back a long way. Its
first purge fails. -/
def everySecond : Verifier (Faltering (Memory Key)) :=
  tidying (.periodic (.start 2 (.ofSeconds 600) (second 2000))) [true]

theorem everySecond_tidied :
    (everySecond.observeAll repeated).countP Observation.tidied = 2 := by
  have hobserve := observe_sent (v := everySecond) (n := 1000) ⟨rfl, rfl⟩ rfl rfl (by decide)
    (by decide)
  have hvisit := visit_sent (v := everySecond) (n := 1000) ⟨rfl, rfl⟩ rfl rfl (by decide)
    (by decide)
  simp only [repeated, Verifier.observeAll, hobserve, hvisit]
  rw [observe_sent ⟨rfl, rfl⟩ rfl rfl (by decide) (by decide),
    visit_sent ⟨rfl, rfl⟩ rfl rfl (by decide) (by decide),
    observe_sent ⟨rfl, rfl⟩ rfl rfl (by decide) (by decide)]
  decide +kernel

theorem everySecond_purges :
    ∃ o ∈ (everySecond.visitAll unsignedVisits).2.observeAll repeated,
      o.tidied = true ∧ o.purges = true := by
  obtain ⟨-, -, henough, -⟩ :=
    Verifier.periodic_purges (v := everySecond) rfl unsignedVisits repeated
  have hunsigned : (everySecond.visitAll unsignedVisits).2 = everySecond := rfl
  refine henough ?_
  rw [hunsigned, everySecond_tidied]
  decide

end Sample

end SignedHttp
