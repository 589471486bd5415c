import SignedHttp.Proofs.AlgorithmLabels
import SignedHttp.Proofs.Store.Remembering

namespace SignedHttp

namespace Attempt

variable {κ : Type} [SigningKey κ] {a : Attempt κ} {cs ds : List Check} {s t : NonceTable}

def registerInMemory (a : Attempt κ) (n : Nonce) (s : NonceTable) :
    Except Empty Bool × NonceTable :=
  NonceStore.tryRegister n a.now s

def runInMemory (cs : List Check) (a : Attempt κ) (s : NonceTable) :
    Except Empty (Option Rejection) × NonceTable :=
  a.run a.registerInMemory cs s

/-- What checks ask of a request and of the table, whatever their order. -/
structure Unobjected (cs : List Check) (a : Attempt κ) (s : NonceTable) : Prop where
  passes : ∀ c ∈ cs, a.rejection? c = none
  unused : ∀ n, a.nonce? = some n → s.live n.key a.now = false

theorem Unobjected.perm (h : cs.Perm ds) : a.Unobjected cs s ↔ a.Unobjected ds s := by
  constructor
  · intro hcs
    exact ⟨fun c hc => hcs.passes c (h.mem_iff.mpr hc), hcs.unused⟩
  · intro hds
    exact ⟨fun c hc => hds.passes c (h.mem_iff.mp hc), hds.unused⟩

/-- The table after an accepted request. -/
def remembered (a : Attempt κ) (s : NonceTable) : NonceTable :=
  a.nonce?.elim s (fun n => s.put n)

omit [SigningKey κ] in
theorem nonceStep_inMemory_iff :
    a.nonceStep a.registerInMemory s = (.ok none, t) ↔
      (∀ n, a.nonce? = some n → s.live n.key a.now = false) ∧ t = a.remembered s := by
  rw [nonceStep_accepts_iff, remembered]
  cases a.nonce? with
  | none =>
    simp only [reduceCtorEq, false_and, exists_false, or_false, true_and, false_implies,
      implies_true, Option.elim_none]
    exact eq_comm
  | some n =>
    simp only [reduceCtorEq, false_and, false_or, Option.some.injEq, exists_eq_left', forall_eq',
      Option.elim_some, registerInMemory, NonceTable.tryRegister_eq]
    cases s.live n.key a.now with
    | true => simp
    | false =>
      simp only [Bool.false_eq_true, ↓reduceIte, Prod.mk.injEq, true_and]
      exact eq_comm

theorem runInMemory_accepts_iff (h : cs.count .nonce = 1) :
    a.runInMemory cs s = (.ok none, t) ↔ a.Unobjected cs s ∧ t = a.remembered s := by
  rw [runInMemory, run_accepts_iff h, nonceStep_inMemory_iff]
  constructor
  · intro hgiven
    obtain ⟨hpasses, hunused, ht⟩ := hgiven
    exact ⟨⟨hpasses, hunused⟩, ht⟩
  · intro hgiven
    obtain ⟨hall, ht⟩ := hgiven
    exact ⟨hall.passes, hall.unused, ht⟩

theorem runInMemory_fst_iff (h : cs.count .nonce = 1) :
    (a.runInMemory cs s).1 = .ok none ↔ a.Unobjected cs s := by
  constructor
  · intro haccepted
    exact ((runInMemory_accepts_iff h).mp (Prod.ext haccepted rfl)).1
  · intro hall
    rw [(runInMemory_accepts_iff h).mpr ⟨hall, rfl⟩]

theorem runInMemory_rejects_iff (h : cs.count .nonce = 1) :
    (∃ reason, (a.runInMemory cs s).1 = .ok (some reason)) ↔ ¬ a.Unobjected cs s := by
  rw [← runInMemory_fst_iff h]
  rcases (a.runInMemory cs s).1 with e | _ | r
  · exact e.elim
  · simp
  · simp

/-- All orders of the standard checks accept the same requests, those to which no check objects and
whose nonce is unused; they reject the others, and leave the same table behind an accepted one. -/
theorem order_immaterial (h : cs.Perm Check.standard) (a : Attempt κ) (s : NonceTable) :
    ((a.runInMemory cs s).1 = .ok none ↔ (a.runInMemory Check.standard s).1 = .ok none) ∧
      ((a.runInMemory cs s).1 = .ok none ↔ a.Unobjected Check.standard s) ∧
      ((∃ reason, (a.runInMemory cs s).1 = .ok (some reason)) ↔
        ¬ a.Unobjected Check.standard s) ∧
      ((a.runInMemory cs s).1 = .ok none →
        (a.runInMemory cs s).2 = (a.runInMemory Check.standard s).2 ∧
        (a.runInMemory cs s).2 = a.remembered s) := by
  have hstandard : Check.standard.count .nonce = 1 := by decide
  have hcount : cs.count .nonce = 1 := (h.count_eq .nonce).trans hstandard
  refine ⟨?_, ?_, ?_, fun haccepted => ?_⟩
  · rw [runInMemory_fst_iff hcount, runInMemory_fst_iff hstandard, Unobjected.perm h]
  · rw [runInMemory_fst_iff hcount, Unobjected.perm h]
  · rw [runInMemory_rejects_iff hcount, Unobjected.perm h]
  · have hall := (runInMemory_fst_iff hcount).mp haccepted
    rw [(runInMemory_accepts_iff hcount).mpr ⟨hall, rfl⟩,
      (runInMemory_accepts_iff hstandard).mpr ⟨(Unobjected.perm h).mp hall, rfl⟩]
    exact ⟨rfl, rfl⟩

end Attempt

namespace Sample

/-- The checks the other way round accept the client's request, and reject it when it comes again. -/
theorem reversed_accepts :
    Check.standard.reverse.Perm Check.standard ∧
      (unlabelled.runInMemory Check.standard.reverse .empty).1 = .ok none ∧
      ∃ reason, (unlabelled.runInMemory Check.standard.reverse
        (unlabelled.runInMemory Check.standard.reverse .empty).2).1 = .ok (some reason) := by
  have hperm := List.reverse_perm Check.standard
  have hunobjected : unlabelled.Unobjected Check.standard .empty := by
    obtain ⟨u, hu⟩ := unlabelled_accepted
    exact ⟨((Attempt.run_accepts_iff (by decide)).mp hu).1, fun n _ => rfl⟩
  obtain ⟨-, haccepts, -, htable⟩ := Attempt.order_immaterial hperm unlabelled .empty
  have hreversed : (unlabelled.runInMemory Check.standard.reverse .empty).1 = .ok none :=
    haccepts.mpr hunobjected
  refine ⟨hperm, hreversed, ?_⟩
  rw [(htable hreversed).2]
  refine (Attempt.order_immaterial hperm unlabelled (unlabelled.remembered .empty)).2.2.1.mpr ?_
  intro hagain
  have hused : (unlabelled.remembered .empty).live ("client1", "n1") (second 1000) = true := by
    decide
  have hnew : (unlabelled.remembered .empty).live ("client1", "n1") (second 1000) = false :=
    hagain.unused _ rfl
  rw [hused] at hnew
  cases hnew

end Sample

end SignedHttp
