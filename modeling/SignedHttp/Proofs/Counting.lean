import SignedHttp.Metrics
import SignedHttp.Proofs.Store.Table

namespace SignedHttp

/-- The numbers that metrics count, without a bound. -/
structure Tally where
  attempts : Nat := 0
  accepted : Nat := 0
  /-- The attempts that were not accepted. -/
  refused : Nat := 0
  refusedBy : Failure.Code → Nat := fun _ => 0
  storeCalls : Nat := 0
  storeErrors : Nat := 0
  /-- The purges that succeeded, and how many nonces they removed. -/
  purges : Nat := 0
  purgedNonces : Nat := 0

namespace Tally

theorem ext {t u : Tally} (ha : t.attempts = u.attempts) (hs : t.accepted = u.accepted)
    (hr : t.refused = u.refused) (hb : ∀ code, t.refusedBy code = u.refusedBy code)
    (hc : t.storeCalls = u.storeCalls) (he : t.storeErrors = u.storeErrors)
    (hp : t.purges = u.purges) (hn : t.purgedNonces = u.purgedNonces) : t = u := by
  have hby : t.refusedBy = u.refusedBy := funext hb
  cases t
  cases u
  simp_all

def note (t : Tally) : Metrics.Event → Tally
  | .signed _ => t
  | .verified _ .accepted => { t with attempts := t.attempts + 1, accepted := t.accepted + 1 }
  | .verified _ (.rejected code) =>
    { t with
      attempts := t.attempts + 1
      refused := t.refused + 1
      refusedBy := fun c => t.refusedBy c + if c = code then 1 else 0 }
  | .verified _ .failed => { t with attempts := t.attempts + 1, refused := t.refused + 1 }
  | .stored _ success =>
    { t with
      storeCalls := t.storeCalls + 1
      storeErrors := t.storeErrors + if success then 0 else 1 }
  | .purged removed =>
    { t with purges := t.purges + 1, purgedNonces := t.purgedNonces + removed }

def noteAll (t : Tally) (events : List Metrics.Event) : Tally :=
  events.foldl note t

/-- No number is out of the range of the counters. -/
structure Fits (t : Tally) : Prop where
  attempts : t.attempts < UInt64.size
  accepted : t.accepted < UInt64.size
  refused : t.refused < UInt64.size
  refusedBy : ∀ code, t.refusedBy code < UInt64.size
  storeCalls : t.storeCalls < UInt64.size
  storeErrors : t.storeErrors < UInt64.size
  purges : t.purges < UInt64.size
  purgedNonces : t.purgedNonces < UInt64.size

end Tally

namespace Metrics

def recordAll (m : Metrics) (events : List Event) : Metrics :=
  events.foldl record m

/-- The counters are the numbers, modulo 2⁶⁴. -/
structure Counts (m : Metrics) (t : Tally) : Prop where
  attempts : m.attempts = .ofNat t.attempts
  accepted : m.accepted = .ofNat t.accepted
  refused : m.refused = .ofNat t.refused
  refusedBy : ∀ code, m.refusals code = .ofNat (t.refusedBy code)
  storeCalls : m.storeCalls = .ofNat t.storeCalls
  storeErrors : m.storeErrors = .ofNat t.storeErrors
  purges : m.purges = .ofNat t.purges
  purgedNonces : m.purgedNonces = .ofNat t.purgedNonces

variable {m : Metrics} {t : Tally}

theorem counts_zero : zero.Counts {} where
  attempts := rfl
  accepted := rfl
  refused := rfl
  refusedBy _ := rfl
  storeCalls := rfl
  storeErrors := rfl
  purges := rfl
  purgedNonces := rfl

theorem succ_eq {n : UInt64} {k : Nat} (h : n = .ofNat k) : n + 1 = .ofNat (k + 1) := by
  rw [h, UInt64.ofNat_add]
  rfl

theorem refusals_put (m : Metrics) (code c : Failure.Code) (n : UInt64) :
    ({ m with refusedBy := m.refusedBy.put code n } : Metrics).refusals c =
      if c = code then n else m.refusals c := by
  by_cases hc : c = code
  · subst hc
    rw [if_pos rfl, refusals, Table.find?_put_self, Option.getD_some]
  · rw [if_neg hc, refusals, Table.find?_put_other _ _ hc, refusals]

theorem Counts.record (h : m.Counts t) (e : Event) : (m.record e).Counts (t.note e) := by
  cases e with
  | signed took => exact { h with }
  | verified took ending =>
    cases ending with
    | accepted =>
      exact { h with attempts := succ_eq h.attempts, accepted := succ_eq h.accepted }
    | failed => exact { h with attempts := succ_eq h.attempts, refused := succ_eq h.refused }
    | rejected code =>
      refine { h with
        attempts := succ_eq h.attempts
        refused := succ_eq h.refused
        refusedBy := fun c => ?_ }
      refine (refusals_put m code c _).trans ?_
      by_cases hc : c = code
      · subst hc
        rw [if_pos rfl, succ_eq (h.refusedBy c)]
        simp [Tally.note]
      · rw [if_neg hc, h.refusedBy c]
        simp [Tally.note, hc]
  | stored took success =>
    cases success with
    | true => exact { h with storeCalls := succ_eq h.storeCalls }
    | false =>
      exact { h with
        storeCalls := succ_eq h.storeCalls
        storeErrors := succ_eq h.storeErrors }
  | purged removed =>
    refine { h with purges := succ_eq h.purges, purgedNonces := ?_ }
    change m.purgedNonces + UInt64.ofNat removed = _
    rw [h.purgedNonces, ← UInt64.ofNat_add]
    rfl

theorem Counts.recordAll (h : m.Counts t) (events : List Event) :
    (m.recordAll events).Counts (t.noteAll events) := by
  induction events generalizing m t with
  | nil => exact h
  | cons e events ih => exact ih (h.record e)

/-- The counters are the numbers. -/
structure Shows (m : Metrics) (t : Tally) : Prop where
  attempts : m.attempts.toNat = t.attempts
  accepted : m.accepted.toNat = t.accepted
  refused : m.refused.toNat = t.refused
  refusedBy : ∀ code, (m.refusals code).toNat = t.refusedBy code
  storeCalls : m.storeCalls.toNat = t.storeCalls
  storeErrors : m.storeErrors.toNat = t.storeErrors
  purges : m.purges.toNat = t.purges
  purgedNonces : m.purgedNonces.toNat = t.purgedNonces

theorem toNat_eq {n : UInt64} {k : Nat} (h : n = .ofNat k) (hk : k < UInt64.size) : n.toNat = k := by
  rw [h, UInt64.toNat_ofNat_of_lt' hk]

theorem Counts.shows (h : m.Counts t) (hfits : t.Fits) : m.Shows t where
  attempts := toNat_eq h.attempts hfits.attempts
  accepted := toNat_eq h.accepted hfits.accepted
  refused := toNat_eq h.refused hfits.refused
  refusedBy code := toNat_eq (h.refusedBy code) (hfits.refusedBy code)
  storeCalls := toNat_eq h.storeCalls hfits.storeCalls
  storeErrors := toNat_eq h.storeErrors hfits.storeErrors
  purges := toNat_eq h.purges hfits.purges
  purgedNonces := toNat_eq h.purgedNonces hfits.purgedNonces

end Metrics

end SignedHttp
