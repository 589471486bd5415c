import SignedHttp.Proofs.Accounting
import SignedHttp.Proofs.RejectedRequests

namespace SignedHttp

variable {ω κ ε : Type}

namespace Verifier

/-- The request was accepted and carries a nonce. -/
def tidies : Except ε (Verdict κ) → Bool
  | .ok (.accepted s _) => s.nonce.isSome
  | _ => false

/-- The request carries a nonce and was rejected by its signing string. -/
def forged : Except ε (Verdict κ) → Bool
  | .ok (.rejected reason s _) =>
    reason.code = .invalidString && (s.bind Signature.nonce).isSome
  | _ => false

end Verifier

def NonceUse.registers : NonceUse ε → Bool
  | tried (.ok true) => true
  | _ => false

def Journaled.registrations (s : Journaled ω ε) : Nat :=
  s.journal.countP NonceUse.registers

def Observation.registrations (o : Observation κ ε) : Nat :=
  o.uses.countP NonceUse.registers

section Journal

variable [NonceStore ω ε] {n : Nonce} {now : Instant} {s t : Journaled ω ε}

theorem Journaled.registrations_try {result : Except ε Bool}
    (h : NonceStore.tryRegister n now s = (result, t)) :
    t.registrations = s.registrations + (NonceUse.tried result).registers.toNat := by
  obtain ⟨rfl, rfl⟩ := Prod.mk.inj h
  rw [registrations, List.countP_append, List.countP_singleton]
  rcases NonceStore.tryRegister n now s.store with ⟨e | _ | _, u⟩ <;> rfl

theorem Journaled.registrations_purge (now : Instant) (s : Journaled ω ε) :
    (NonceStore.purge now s).2.registrations = s.registrations :=
  List.countP_append

namespace Attempt

variable {a : Attempt κ}

theorem registrations_nonceStep
    (h : a.nonceStep (fun n u => NonceStore.tryRegister n now u) s = (.ok none, t)) :
    t.registrations = s.registrations + a.nonce?.isSome.toNat := by
  rcases nonceStep_accepts_iff.mp h with ⟨hnone, rfl⟩ | ⟨n, hsome, hr⟩
  · simp [hnone]
  · rw [Journaled.registrations_try hr, hsome]
    rfl

variable [SigningKey κ] {result : Except ε (Option Rejection)}

/-- The standard checks register the nonce of a request that passes, or that they reject by its
signing string. -/
theorem registrations_run
    (h : a.run (fun n u => NonceStore.tryRegister n now u) Check.standard s = (result, t)) :
    t.registrations = s.registrations +
      match result with
      | .ok none => a.nonce?.isSome.toNat
      | .ok (some reason) => (reason.code = .invalidString && a.nonce?.isSome).toNat
      | .error _ => 0 := by
  rcases result with e | _ | reason
  · obtain ⟨n, -, hr⟩ := run_standard_fails h
    exact Journaled.registrations_try hr
  · exact registrations_nonceStep ((run_accepts_iff (by decide)).mp h).2
  · rcases run_standard_rejects h with ⟨hcode, rfl | ⟨n, -, hr⟩⟩ | ⟨hcode, hstep⟩
    · simp [hcode]
    · rw [Journaled.registrations_try hr]
      simp [hcode, NonceUse.registers]
    · rw [registrations_nonceStep hstep]
      simp [hcode]

end Attempt

end Journal

namespace Verifier

variable [SigningKey κ] [ClientStore ω κ ε] [NonceStore ω ε] {v : Verifier ω}

/-- A verification adds the nonce of a request that it accepts, or rejects by its signing string,
and no other. -/
theorem Ends.registrations {clocks : Readings} {r : Request} {v : Verifier (Journaled ω ε)}
    {result : Except ε (Verdict κ)} {after : Journaled ω ε} (hown : v.ownChecks = none)
    (h : Ends clocks r v result after) :
    after.registrations = v.store.registrations +
      ((tidies result).toNat + (forged result).toNat) := by
  have hchecks : v.checks = Check.standard := by
    rw [checks, hown]
    rfl
  have hnonce {s : Signature} (hs : Authorization.ofRequest v.scheme r = .ok s) (c : Client κ) :
      (Attempt.nonce? ⟨r, s, c, clocks.now⟩).isSome = s.nonce.isSome := by
    rw [Attempt.nonce?_of_read hs, Option.isSome_map]
  cases h with
  | unreadable => rfl
  | lookupFailed => rfl
  | unknown => rfl
  | failed hs hc hr =>
    rw [checked, hchecks] at hr
    exact Attempt.registrations_run hr
  | rejected hs hc hr =>
    rw [checked, hchecks] at hr
    have hadded := Attempt.registrations_run hr
    simp only [hnonce hs] at hadded
    simpa [tidies, forged] using hadded
  | accepted hs hc hr hu =>
    rw [checked, hchecks] at hr
    have hadded := Attempt.registrations_run hr
    simp only [hnonce hs] at hadded
    rcases hu with rfl | rfl
    · exact hadded
    · rw [Journaled.registrations_purge]
      exact hadded

omit [SigningKey κ] [ClientStore ω κ ε] [NonceStore ω ε] in
/-- The verifier with a policy that has these answers ready. -/
def scripted (answers : List Bool) (v : Verifier ω) : Verifier ω :=
  { v with policy := .scripted answers }

def answered (clocks : Readings) (result : Except ε (Verdict κ)) (v : Verifier ω) : List Bool :=
  if tidies result then [(v.policy.ask clocks.asked).1] else []

section Scripted

variable {clocks : Readings}

theorem registration_scripted (clocks : Readings) (answers : List Bool) (n : Nonce)
    (v : Verifier ω) :
    registration clocks n (v.scripted answers) =
      ((registration clocks n v).1, (registration clocks n v).2.scripted answers) := by
  obtain ⟨scheme, own, policy, collector, store⟩ := v
  cases own <;> rfl

theorem registration_policy (clocks : Readings) (n : Nonce) (v : Verifier ω) :
    (registration clocks n v).2.policy = v.policy := by
  unfold registration
  split <;> rfl

theorem tidy_scripted (answers : List Bool) (v : Verifier ω) :
    (v.scripted ((v.policy.ask clocks.asked).1 :: answers)).tidy clocks =
      (v.tidy clocks).scripted answers := by
  have hask : (v.scripted ((v.policy.ask clocks.asked).1 :: answers)).policy.ask clocks.asked =
      ((v.policy.ask clocks.asked).1, .scripted answers) := rfl
  rw [tidy_eq, tidy_eq, hask]
  split
  · rw [purge_eq, purge_eq]
    rfl
  · rfl

variable {r : Request} {s : Signature} {c : Client κ}

section Run

omit [ClientStore ω κ ε]

/-- The checks do not ask the policy. -/
theorem run_scripted (a : Attempt κ) (cs : List Check) (answers : List Bool) (v : Verifier ω) :
    a.run (registration clocks) cs (v.scripted answers) =
      ((a.run (registration clocks) cs v).1,
        (a.run (registration clocks) cs v).2.scripted answers) :=
  Attempt.run_map (registration_scripted clocks answers) v

theorem run_policy (clocks : Readings) (a : Attempt κ) (cs : List Check) (v : Verifier ω) :
    (a.run (registration clocks) cs v).2.policy = v.policy :=
  Attempt.run_keeps (P := fun u : Verifier ω => u.policy = v.policy)
    (fun n _ u hu => (registration_policy clocks n u).trans hu) rfl

theorem judge_scripted (answers : List Bool) (v : Verifier ω) :
    (v.scripted (v.answered clocks (v.judge clocks r s c).1 ++ answers)).judge clocks r s c =
      ((v.judge clocks r s c).1, (v.judge clocks r s c).2.scripted answers) := by
  have hpolicy := run_policy clocks ⟨r, s, c, clocks.now⟩ v.checks v
  have hchecks (tape : List Bool) : (v.scripted tape).checks = v.checks := rfl
  unfold judge
  simp only [hchecks, run_scripted]
  generalize Attempt.run (registration clocks) ⟨r, s, c, clocks.now⟩ v.checks v = ran at hpolicy ⊢
  rcases ran with ⟨e | _ | reason, t⟩
  · rfl
  · cases hnonce : s.nonce.isSome with
    | false => simp [answered, tidies, hnonce]
    | true =>
      simp only [answered, tidies, hnonce, ↓reduceIte, List.singleton_append, ← hpolicy]
      rw [tidy_scripted]
  · rfl

end Run

theorem decideOn_scripted (answers : List Bool) (v : Verifier ω) :
    (v.scripted (v.answered clocks (v.decideOn clocks r).1 ++ answers)).decideOn clocks r =
      ((v.decideOn clocks r).1, (v.decideOn clocks r).2.scripted answers) := by
  have hscheme (tape : List Bool) : (v.scripted tape).scheme = v.scheme := rfl
  unfold decideOn
  simp only [hscheme]
  cases Authorization.ofRequest v.scheme r with
  | error d => rfl
  | ok s =>
    have hlookup (tape : List Bool) : (v.scripted tape).lookup clocks s =
        ((v.lookup clocks s).1, (v.lookup clocks s).2.scripted tape) := rfl
    have hpolicy : (v.lookup clocks s).2.policy = v.policy := rfl
    simp only [hlookup]
    generalize v.lookup clocks s = found at hpolicy ⊢
    obtain ⟨e | _ | c, u⟩ := found
    · rfl
    · rfl
    · have hanswered (result : Except ε (Verdict κ)) :
          v.answered clocks result = u.answered clocks result := by
        unfold answered
        rw [← hpolicy]
      simp only [hanswered]
      exact judge_scripted answers u

theorem verify_scripted (answers : List Bool) (v : Verifier ω) :
    (v.scripted (v.answered clocks (v.verify clocks r).1 ++ answers)).verify clocks r =
      ((v.verify clocks r).1, (v.verify clocks r).2.scripted answers) := by
  let ended (decided : Except ε (Verdict κ) × Verifier ω) :=
    (decided.1, decided.2.record (.verified (clocks.took .verification) (ending decided.1)))
  exact congrArg ended (decideOn_scripted answers v)

end Scripted

def answers (x : Visit ω) (v : Verifier ω) : List Bool :=
  v.answered x.clocks (v.visit x).1

/-- The answers that the policy gives in visits one after the other. -/
def answersAll : List (Visit ω) → Verifier ω → List (List Bool)
  | [], _ => []
  | x :: xs, v => v.answers x :: (v.visit x).2.answersAll xs

/-- A policy that has the answers of a visit ready, and others behind, gives all of them and no
other one, and the visit is the same. -/
theorem visit_scripted (x : Visit ω) (more : List Bool) (v : Verifier ω) :
    (v.scripted (v.answers x ++ more)).visit x =
      ((v.visit x).1, (v.visit x).2.scripted more) :=
  verify_scripted more { v with store := x.before v.store }

theorem visitAll_scripted (xs : List (Visit ω)) (more : List Bool) (v : Verifier ω) :
    (v.scripted ((v.answersAll xs).flatten ++ more)).visitAll xs =
      ((v.visitAll xs).1, (v.visitAll xs).2.scripted more) := by
  induction xs generalizing v with
  | nil => rfl
  | cons x xs ih =>
    simp only [answersAll, visitAll, List.flatten_cons, List.append_assoc, visit_scripted, ih]

theorem length_answers (x : Visit ω) :
    (v.answers x).length = (tidies (v.visit x).1).toNat := by
  unfold answers answered
  cases tidies (v.visit x).1 <;> rfl

theorem observe_result (hown : v.ownChecks = none) (x : Visit ω) :
    (v.observe x).result = (v.visit x).1 :=
  (congrArg Prod.fst (visit_equip hown x v.collector).1).symm

/-- A visit adds one nonce if the policy is asked, and one if the request is forged. -/
theorem observe_registrations (hown : v.ownChecks = none) (x : Visit ω) :
    (v.observe x).registrations =
      (v.answers x).length + (forged (v.observe x).result).toNat := by
  rw [length_answers, ← observe_result hown x]
  have hends := verify_ends x.clocks x.request (v.journaling (ε := ε) x)
  have hadded := hends.registrations hown
  exact hadded.trans (Nat.zero_add _)

/-- What was observed of a visit agrees with the answers that the policy gave in it: one if the
request was accepted with a nonce, and none otherwise; and the nonces that were added are as many,
and one more if the request was forged. -/
structure AgreesWith (o : Observation κ ε) (answers : List Bool) : Prop where
  asked : answers.length = (tidies o.result).toNat
  added : o.registrations = answers.length + (forged o.result).toNat

theorem observeAll_agree (hown : v.ownChecks = none) (xs : List (Visit ω)) :
    List.Forall₂ AgreesWith (v.observeAll xs) (v.answersAll xs) := by
  induction xs generalizing v with
  | nil => exact .nil
  | cons x xs ih =>
    refine .cons ⟨?_, observe_registrations hown x⟩ (ih (visit_equip hown x none).2)
    rw [length_answers, observe_result hown x]

omit [SigningKey κ] [ClientStore ω κ ε] [NonceStore ω ε] in
/-- In a run there are as many nonces more than questions as there are forged requests. -/
theorem sum_registrations {os : List (Observation κ ε)} {answers : List (List Bool)}
    (h : List.Forall₂ AgreesWith os answers) :
    (os.map Observation.registrations).sum =
      answers.flatten.length + os.countP (fun o => forged o.result) := by
  induction h with
  | nil => rfl
  | @cons o given os answers ho _ ih =>
    simp only [List.map_cons, List.sum_cons, List.flatten_cons, List.length_append,
      List.countP_cons, ih, ho.added]
    cases forged o.result <;> simp <;> omega

/-- The purge policy is asked once behind each request that is accepted and carries a nonce, and
not otherwise. Such a request adds one nonce to the store, and so does each forged one, behind
which the policy is not asked. So no more nonces are added in a run than the policy is asked
exactly if no request of the run is forged. -/
theorem registrations_asked_iff (hown : v.ownChecks = none) (xs : List (Visit ω)) :
    (∀ more, (v.scripted ((v.answersAll xs).flatten ++ more)).visitAll xs =
      ((v.visitAll xs).1, (v.visitAll xs).2.scripted more)) ∧
    (v.observeAll xs).map Observation.result = (v.visitAll xs).1 ∧
    List.Forall₂ AgreesWith (v.observeAll xs) (v.answersAll xs) ∧
    (((v.observeAll xs).map Observation.registrations).sum ≤ (v.answersAll xs).flatten.length ↔
      ∀ o ∈ v.observeAll xs, forged o.result = false) := by
  have hagree := observeAll_agree hown xs
  refine ⟨fun more => visitAll_scripted xs more v, observed_results hown xs, hagree, ?_⟩
  rw [sum_registrations hagree]
  constructor
  · intro hle o ho
    have hnone : (v.observeAll xs).countP (fun o => forged o.result) = 0 := by omega
    simpa using List.countP_eq_zero.mp hnone o ho
  · intro hnone
    have hzero : (v.observeAll xs).countP (fun o => forged o.result) = 0 :=
      List.countP_eq_zero.mpr fun o ho => by simp [hnone o ho]
    omega

end Verifier

namespace Sample

def forgedVisit : Visit (Memory Key) := ⟨id, readings 1000, forgery⟩

theorem observe_forgery :
    (memory.observe forgedVisit).result =
      .ok (.rejected .valueMismatch (some forged) (some client)) :=
  (Verifier.observe_result rfl forgedVisit).trans forgery_rejected

/-- The forged request adds a nonce, and the policy is not asked. -/
theorem forgery_unasked :
    (memory.observe forgedVisit).registrations = 1 ∧ memory.answers forgedVisit = [] := by
  obtain ⟨-, -, hagree, -⟩ := Verifier.registrations_asked_iff (v := memory) rfl [forgedVisit]
  obtain ⟨hasked, hadded⟩ := (List.forall₂_cons.mp hagree).1
  rw [observe_forgery] at hasked hadded
  have hnone : memory.answers forgedVisit = [] := List.length_eq_zero_iff.mp hasked
  rw [hnone] at hadded
  exact ⟨hadded, hnone⟩

theorem forgery_exceeds :
    ¬ ∀ (v : Verifier (Memory Key)) (xs : List (Visit (Memory Key))), v.ownChecks = none →
      ((v.observeAll xs).map Observation.registrations).sum ≤ (v.answersAll xs).flatten.length := by
  intro hclaim
  have hle := hclaim memory [forgedVisit] rfl
  have hsum := Verifier.sum_registrations
    (Verifier.observeAll_agree (v := memory) rfl [forgedVisit])
  have hforged : (memory.observeAll [forgedVisit]).countP
      (fun o => Verifier.forged o.result) = 1 := by
    simp only [Verifier.observeAll, List.countP_singleton, observe_forgery]
    rfl
  omega

end Sample

end SignedHttp
