import Mathlib.Algebra.BigOperators.Ring.List
import Mathlib.Algebra.Order.BigOperators.Group.List
import Mathlib.Algebra.Order.Ring.Nat
import SignedHttp.Proofs.Counting

namespace SignedHttp

namespace Collector

/-- What is done with a collector. -/
inductive Call where
  | record (e : Metrics.Event)
  | reset

def after (c : Collector) : Call → Collector
  | .record e => c.record e
  | .reset => c.reset

def afterAll (c : Collector) (calls : List Call) : Collector :=
  calls.foldl after c

/-- The events since the last reset, if these were the events before. -/
def kept (events : List Metrics.Event) : Call → List Metrics.Event
  | .record e => events ++ [e]
  | .reset => []

def sinceReset (calls : List Call) : List Metrics.Event :=
  calls.foldl kept []

theorem after_counting (events : List Metrics.Event) (call : Call) :
    (counting (Metrics.zero.recordAll events)).after call =
      counting (Metrics.zero.recordAll (kept events call)) := by
  cases call with
  | record e =>
    have happend : Metrics.zero.recordAll (events ++ [e]) =
        (Metrics.zero.recordAll events).record e := List.foldl_append
    exact congrArg counting happend.symm
  | reset => rfl

theorem afterAll_counting (calls : List Call) :
    (counting .zero).afterAll calls = counting (Metrics.zero.recordAll (sinceReset calls)) := by
  suffices hall : ∀ events : List Metrics.Event,
      (counting (Metrics.zero.recordAll events)).afterAll calls =
        counting (Metrics.zero.recordAll (calls.foldl kept events)) from hall []
  induction calls with
  | nil => exact fun _ => rfl
  | cons call calls ih =>
    intro events
    have hstep := congrArg (fun c : Collector => c.afterAll calls) (after_counting events call)
    exact hstep.trans (ih (kept events call))

end Collector

/-- The kinds of events whose lengths are averaged. -/
inductive Timed where
  | signings
  | attempts
  | storeCalls

namespace Timed

def took? : Timed → Metrics.Event → Option Duration
  | signings, .signed took => some took
  | attempts, .verified took _ => some took
  | storeCalls, .stored took _ => some took
  | _, _ => none

/-- The microseconds of each event of the kind, or the largest number of 64 bits. -/
def samples (k : Timed) (events : List Metrics.Event) : List Nat :=
  (events.filterMap k.took?).map fun took => min took.micros (UInt64.size - 1)

def total : Timed → Metrics → UInt64
  | signings, m => m.signingTime
  | attempts, m => m.attemptTime
  | storeCalls, m => m.storeTime

def count : Timed → Metrics → UInt64
  | signings, m => m.signed
  | attempts, m => m.attempts
  | storeCalls, m => m.storeCalls

def average : Timed → Metrics → UInt64
  | signings, m => m.averageSigning
  | attempts, m => m.averageAttempt
  | storeCalls, m => m.averageStore

variable {k : Timed} {m : Metrics}

/-- The counters of a kind are the total and the number of the samples, modulo 2⁶⁴. -/
structure Sums (k : Timed) (m : Metrics) (samples : List Nat) : Prop where
  total : k.total m = .ofNat samples.sum
  count : k.count m = .ofNat samples.length

theorem sums_zero (k : Timed) : k.Sums .zero [] := by
  cases k <;> exact ⟨rfl, rfl⟩

theorem record_took {e : Metrics.Event} {took : Duration} (he : k.took? e = some took)
    (m : Metrics) :
    k.total (m.record e) = k.total m + Metrics.micros took ∧
      k.count (m.record e) = k.count m + 1 := by
  cases k <;> cases e <;> cases he <;> exact ⟨rfl, rfl⟩

theorem record_other {e : Metrics.Event} (he : k.took? e = none) (m : Metrics) :
    k.total (m.record e) = k.total m ∧ k.count (m.record e) = k.count m := by
  -- the ending of an attempt decides which of the other counters change
  cases k <;> rcases e with took | ⟨took, _ | code | _⟩ | ⟨took, success⟩ | removed <;> cases he <;>
    exact ⟨rfl, rfl⟩

theorem Sums.record {taken : List Nat} (h : k.Sums m taken) (e : Metrics.Event) :
    k.Sums (m.record e) (taken ++ k.samples [e]) := by
  cases he : k.took? e with
  | none =>
    obtain ⟨htotal, hcount⟩ := record_other he m
    have hsamples : k.samples [e] = [] := by simp [samples, he]
    rw [hsamples, List.append_nil]
    exact ⟨htotal.trans h.total, hcount.trans h.count⟩
  | some took =>
    obtain ⟨htotal, hcount⟩ := record_took he m
    have hsamples : k.samples [e] = [min took.micros (UInt64.size - 1)] := by simp [samples, he]
    rw [hsamples]
    constructor
    · rw [htotal, h.total, List.sum_append, List.sum_singleton, UInt64.ofNat_add]
      rfl
    · rw [hcount, Metrics.succ_eq h.count, List.length_append, List.length_singleton]

theorem Sums.recordAll {taken : List Nat} (h : k.Sums m taken) (events : List Metrics.Event) :
    k.Sums (m.recordAll events) (taken ++ k.samples events) := by
  induction events generalizing m taken with
  | nil =>
    rw [samples, List.filterMap_nil, List.map_nil, List.append_nil]
    exact h
  | cons e events ih =>
    have hsplit : k.samples (e :: events) = k.samples [e] ++ k.samples events := by
      rw [samples, samples, samples, ← List.map_append, ← List.filterMap_append,
        List.singleton_append]
    rw [hsplit, ← List.append_assoc]
    exact ih (h.record e)

theorem average_eq (k : Timed) (m : Metrics) :
    k.average m = Metrics.average (k.total m) (k.count m) := by
  cases k <;> rfl

theorem toNat_average (total samples : UInt64) :
    (Metrics.average total samples).toNat = total.toNat / samples.toNat := by
  unfold Metrics.average
  split
  · exact UInt64.toNat_div total samples
  · next hnone =>
    have hzero : samples.toNat = 0 := Nat.eq_zero_of_not_pos hnone
    rw [hzero, Nat.div_zero]
    rfl

theorem Sums.average {taken : List Nat} (h : k.Sums m taken) :
    (k.average m).toNat = taken.sum % UInt64.size / (taken.length % UInt64.size) := by
  rw [average_eq, toNat_average, h.total, h.count, UInt64.toNat_ofNat', UInt64.toNat_ofNat']

end Timed

/-- No less than some sample and no more than some sample; nothing, if there are none. -/
structure Between (samples : List Nat) (n : Nat) : Prop where
  empty : samples = [] → n = 0
  above : samples ≠ [] → ∃ s ∈ samples, s ≤ n
  below : samples ≠ [] → ∃ s ∈ samples, n ≤ s

namespace Between

variable {samples : List Nat} {total : Nat}

theorem exists_ge_div (h : samples ≠ []) : ∃ s ∈ samples, samples.sum / samples.length ≤ s := by
  have hsums : (samples.map fun _ => samples.sum / samples.length).sum ≤ (samples.map id).sum := by
    rw [List.map_id, List.map_const', List.sum_replicate_nat]
    exact Nat.mul_div_le samples.sum samples.length
  exact List.exists_le_of_sum_le h _ _ hsums

theorem exists_mul_le_sum (h : samples ≠ []) :
    ∃ s ∈ samples, s * samples.length ≤ samples.sum := by
  have hsums : (samples.map fun s => s * samples.length).sum =
      (samples.map fun _ => samples.sum).sum := by
    rw [List.sum_map_mul_right, List.map_id', List.map_const', List.sum_replicate_nat, Nat.mul_comm]
  exact List.exists_le_of_sum_le h _ _ hsums.le

/-- A quotient that falls short of the mean is between the samples if one of them is no more. -/
theorem div_iff (hle : total ≤ samples.sum) :
    Between samples (total / samples.length) ↔
      samples = [] ∨ ∃ s ∈ samples, s * samples.length ≤ total := by
  by_cases hnone : samples = []
  · subst hnone
    exact iff_of_true ⟨fun _ => Nat.div_zero total, (absurd rfl ·), (absurd rfl ·)⟩ (.inl rfl)
  have hpos := List.length_pos_iff.mpr hnone
  constructor
  · intro h
    obtain ⟨s, hs, hle⟩ := h.above hnone
    exact .inr ⟨s, hs, (Nat.le_div_iff_mul_le hpos).mp hle⟩
  · rintro (hempty | ⟨s, hs, hmul⟩)
    · exact absurd hempty hnone
    obtain ⟨t, ht, hbound⟩ := exists_ge_div hnone
    exact ⟨(absurd · hnone), fun _ => ⟨s, hs, (Nat.le_div_iff_mul_le hpos).mpr hmul⟩,
      fun _ => ⟨t, ht, (Nat.div_le_div_right hle).trans hbound⟩⟩

theorem mean (samples : List Nat) : Between samples (samples.sum / samples.length) := by
  refine (div_iff le_rfl).mpr ?_
  by_cases hnone : samples = []
  · exact .inl hnone
  · exact .inr (exists_mul_le_sum hnone)

end Between

/-- A total that wraps around falls short of the mean by one or more. -/
theorem mod_div_eq_iff {sum n size : Nat} (hn : n < size) (hempty : n = 0 → sum = 0) :
    sum % size / n = sum / n ↔ sum < size := by
  constructor
  · intro heq
    by_contra hwraps
    have hpos : 0 < n := by
      rcases Nat.eq_zero_or_pos n with hzero | hpos
      · have := hempty hzero
        omega
      · exact hpos
    have hdrop : sum % size + n ≤ sum := by
      have hsub : sum % size ≤ sum - size := by
        rw [Nat.mod_eq_sub_mod (by omega)]
        exact Nat.mod_le _ _
      omega
    have hshort := Nat.div_le_div_right (c := n) hdrop
    rw [Nat.add_div_right _ hpos] at hshort
    omega
  · intro hlt
    rw [Nat.mod_eq_of_lt hlt]

namespace Timed

/-- What is shown as an average after any events and resets is the total of the lengths since the
last reset over their number, both modulo 2⁶⁴. If there are fewer than 2⁶⁴ of them, it is their mean
exactly if the total is less than 2⁶⁴, and then it is between them. In any case it is between them
exactly if one of them is no more than an equal share of what is left of the total. -/
theorem average_between_iff (k : Timed) (calls : List Collector.Call) :
    let samples := k.samples (Collector.sinceReset calls)
    let shown := (k.average ((Collector.counting .zero).afterAll calls).metrics).toNat
    shown = samples.sum % UInt64.size / (samples.length % UInt64.size) ∧
    (samples.length < UInt64.size →
      (shown = samples.sum / samples.length ↔ samples.sum < UInt64.size) ∧
      (samples.sum < UInt64.size → Between samples shown) ∧
      (Between samples shown ↔
        samples = [] ∨ ∃ s ∈ samples, s * samples.length ≤ samples.sum % UInt64.size)) := by
  intro samples shown
  have hshown : shown = samples.sum % UInt64.size / (samples.length % UInt64.size) := by
    have hsums := k.sums_zero.recordAll (Collector.sinceReset calls)
    rw [List.nil_append] at hsums
    have haverage := hsums.average
    have hcollector := Collector.afterAll_counting calls
    exact (congrArg (fun c : Collector => (k.average c.metrics).toNat) hcollector).trans haverage
  refine ⟨hshown, fun hlength => ?_⟩
  rw [Nat.mod_eq_of_lt hlength] at hshown
  rw [hshown]
  refine ⟨mod_div_eq_iff hlength fun hzero => ?_, fun hsum => ?_, Between.div_iff (Nat.mod_le _ _)⟩
  · rw [List.length_eq_zero_iff.mp hzero, List.sum_nil]
  · rw [Nat.mod_eq_of_lt hsum]
    exact Between.mean samples

end Timed

namespace Sample

/-- An hour that is forgotten, and then ten and thirty microseconds with a failed call of a store
between them. -/
def someCalls : List Collector.Call :=
  [.record (.signed (.ofSeconds 3600)), .reset, .record (.signed (.ofNanos 10000)),
    .record (.stored (.ofNanos 500) false), .record (.signed (.ofNanos 30999))]

theorem someCalls_average :
    (Timed.signings.average ((Collector.counting .zero).afterAll someCalls).metrics).toNat = 20 ∧
      Between [10, 30] 20 := by
  obtain ⟨-, h⟩ := Timed.average_between_iff .signings someCalls
  have hsamples : Timed.signings.samples (Collector.sinceReset someCalls) = [10, 30] := by decide
  rw [hsamples] at h
  obtain ⟨hexact, hbetween, -⟩ := h (by decide)
  have hshown := hexact.mpr (by decide)
  rw [hshown] at hbetween
  exact ⟨hshown, hbetween (by decide)⟩

def longCalls : List Collector.Call :=
  [.record (.signed (.ofNanos (0x8000000000000000 * 1000))),
    .record (.signed (.ofNanos (0x8000000000000000 * 1000)))]

/-- Their total wraps around to nothing. -/
theorem longCalls_average :
    ¬ ∀ (k : Timed) (calls : List Collector.Call),
      Between (k.samples (Collector.sinceReset calls))
        (k.average ((Collector.counting .zero).afterAll calls).metrics).toNat := by
  intro hall
  have hsamples : Timed.signings.samples (Collector.sinceReset longCalls) =
      [0x8000000000000000, 0x8000000000000000] := by decide
  have hshown :
      (Timed.signings.average ((Collector.counting .zero).afterAll longCalls).metrics).toNat = 0 := by
    decide
  have hbetween := hall .signings longCalls
  rw [hsamples, hshown] at hbetween
  obtain ⟨s, hs, hzero⟩ := hbetween.above (by decide)
  have hs : s = 0x8000000000000000 := by simpa using hs
  omega

end Sample

end SignedHttp
