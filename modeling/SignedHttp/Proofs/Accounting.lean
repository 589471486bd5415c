import SignedHttp.Proofs.Counting
import SignedHttp.Proofs.Purging

namespace SignedHttp

variable {ω κ ε : Type}

/-- A call of a store of nonces in the course of a verification, and what came of it. -/
inductive NonceUse (ε : Type) where
  | tried (result : Except ε Bool)
  | purged (result : Except ε Nat)

namespace NonceUse

def failed : NonceUse ε → Bool
  | tried result => !result.isOk
  | purged result => !result.isOk

def removed? : NonceUse ε → Option Nat
  | purged (.ok n) => some n
  | _ => none

def events (clocks : Readings) : NonceUse ε → List Metrics.Event
  | tried result => [.stored (clocks.took .registration) result.isOk]
  | purged result =>
    .stored (clocks.took .purge) result.isOk ::
      match result with
      | .ok n => [.purged n]
      | .error _ => []

end NonceUse

/-- A store that keeps a journal of its registrations and purges. -/
structure Journaled (ω ε : Type) where
  store : ω
  journal : List (NonceUse ε)

namespace Journaled

instance [ClientStore ω κ ε] : ClientStore (Journaled ω ε) κ ε where
  register c s := Part.lift id (fun t => { s with store := t }) (ClientStore.register c s.store)
  find? id s := ClientStore.find? id s.store

instance [NonceStore ω ε] : NonceStore (Journaled ω ε) ε where
  register n s := Part.lift id (fun t => { s with store := t }) (NonceStore.register n s.store)
  find? client value s := NonceStore.find? client value s.store
  tryRegister n now s :=
    let r := NonceStore.tryRegister n now s.store
    (r.1, ⟨r.2, s.journal ++ [.tried r.1]⟩)
  purge now s :=
    let r := NonceStore.purge now s.store
    (r.1, ⟨r.2, s.journal ++ [.purged r.1]⟩)
  size s := NonceStore.size s.store
  title s := NonceStore.title s.store

end Journaled

namespace Collector

def recordAll (events : List Metrics.Event) (c : Collector) : Collector :=
  events.foldl (fun c e => c.record e) c

theorem recordAll_append (es fs : List Metrics.Event) (c : Collector) :
    c.recordAll (es ++ fs) = (c.recordAll es).recordAll fs :=
  List.foldl_append

theorem recordAll_counting (es : List Metrics.Event) (m : Metrics) :
    (counting m).recordAll es = counting (m.recordAll es) := by
  induction es generalizing m with
  | nil => rfl
  | cons e es ih => exact ih (m.record e)

end Collector

namespace Verifier

/-- A verifier with the standard checks that tells nobody anything. -/
structure Plain (v : Verifier ω) : Prop where
  own : v.ownChecks = none
  untold : v.collector = none

theorem Plain.exists_eq {v : Verifier ω} (h : v.Plain) :
    ∃ scheme policy store, v = ⟨scheme, none, policy, none, store⟩ := by
  obtain ⟨scheme, own, policy, collector, store⟩ := v
  obtain rfl : own = none := h.own
  obtain rfl : collector = none := h.untold
  exact ⟨scheme, policy, store, rfl⟩

def told (clocks : Readings) (c : Option Collector) (w : Verifier (Journaled ω ε)) :
    Verifier ω where
  scheme := w.scheme
  ownChecks := w.ownChecks
  policy := w.policy
  collector := c.map (Collector.recordAll (w.store.journal.flatMap (NonceUse.events clocks)))
  store := w.store.store

/-- One verifier tells what is in the journal of the store of another one, which tells nobody
anything. Otherwise they are alike. -/
def Tells (clocks : Readings) (c : Option Collector) (v : Verifier ω)
    (w : Verifier (Journaled ω ε)) : Prop :=
  w.Plain ∧ v = w.told clocks c

section Nonces

variable [NonceStore ω ε] {clocks : Readings} {c : Option Collector} {v : Verifier ω}
  {w : Verifier (Journaled ω ε)}

theorem told_append (clocks : Readings) (c : Option Collector) (journal : List (NonceUse ε))
    (u : NonceUse ε) :
    c.map (Collector.recordAll ((journal ++ [u]).flatMap (NonceUse.events clocks))) =
      (c.map (Collector.recordAll (journal.flatMap (NonceUse.events clocks)))).map
        (Collector.recordAll (u.events clocks)) := by
  cases c with
  | none => rfl
  | some c =>
    simp only [Option.map_some, List.flatMap_append, List.flatMap_singleton,
      Collector.recordAll_append]

theorem Tells.registration (h : Tells clocks c v w) (n : Nonce) :
    (registration clocks n v).1 = (registration clocks n w).1 ∧
      Tells clocks c (registration clocks n v).2 (registration clocks n w).2 := by
  obtain ⟨hplain, rfl⟩ := h
  obtain ⟨scheme, policy, ⟨store, journal⟩, rfl⟩ := hplain.exists_eq
  refine ⟨rfl, ⟨rfl, rfl⟩, ?_⟩
  have happend := told_append clocks c journal
    (.tried (NonceStore.tryRegister n clocks.now store).1)
  -- all but the collectors is equal by computation
  exact congrArg (fun collector => (⟨scheme, none, policy, collector,
    (NonceStore.tryRegister n clocks.now store).2⟩ : Verifier ω)) happend.symm

theorem purge_eq (v : Verifier ω) :
    v.purge clocks =
      { v with
        policy := v.policy.purged clocks.told
        collector := v.collector.map (Collector.recordAll
          ((NonceUse.purged (NonceStore.purge clocks.now v.store).1).events clocks))
        store := (NonceStore.purge clocks.now v.store).2 } := by
  obtain ⟨scheme, own, policy, collector, store⟩ := v
  simp only [Verifier.purge, purgeNonces, afterCounted]
  rcases NonceStore.purge clocks.now store with ⟨e | removed, t⟩ <;> cases collector <;> rfl

theorem Tells.purge (h : Tells clocks c v w) :
    Tells clocks c (v.purge clocks) (w.purge clocks) := by
  obtain ⟨hplain, rfl⟩ := h
  obtain ⟨scheme, policy, ⟨store, journal⟩, rfl⟩ := hplain.exists_eq
  have happend := told_append clocks c journal (.purged (NonceStore.purge clocks.now store).1)
  rw [purge_eq, purge_eq]
  refine ⟨⟨rfl, rfl⟩, ?_⟩
  exact congrArg (fun collector => (⟨scheme, none, policy.purged clocks.told, collector,
    (NonceStore.purge clocks.now store).2⟩ : Verifier ω)) happend.symm

theorem tidy_eq (v : Verifier ω) :
    v.tidy clocks =
      if (v.policy.ask clocks.asked).1 then
        ({ v with policy := (v.policy.ask clocks.asked).2 } : Verifier ω).purge clocks
      else { v with policy := (v.policy.ask clocks.asked).2 } := rfl

theorem Tells.tidy (h : Tells clocks c v w) :
    Tells clocks c (v.tidy clocks) (w.tidy clocks) := by
  have hasked : Tells clocks c { v with policy := (v.policy.ask clocks.asked).2 }
      { w with policy := (w.policy.ask clocks.asked).2 } := by
    obtain ⟨hplain, rfl⟩ := h
    exact ⟨⟨hplain.own, hplain.untold⟩, rfl⟩
  have hpolicy : v.policy = w.policy := by
    rw [h.2]
    rfl
  rw [hpolicy] at hasked
  rw [tidy_eq, tidy_eq, hpolicy]
  split
  · exact hasked.purge
  · exact hasked

end Nonces

variable [SigningKey κ] [ClientStore ω κ ε] [NonceStore ω ε] {clocks : Readings} {r : Request}
  {s : Signature} {d : Client κ} {c : Option Collector} {v : Verifier ω}
  {w : Verifier (Journaled ω ε)}

omit [ClientStore ω κ ε] in
theorem Tells.run (h : Tells clocks c v w) (a : Attempt κ) (cs : List Check) :
    (a.run (Verifier.registration clocks) cs v).1 =
        (a.run (Verifier.registration clocks) cs w).1 ∧
      Tells clocks c (a.run (Verifier.registration clocks) cs v).2
        (a.run (Verifier.registration clocks) cs w).2 :=
  Attempt.run_related (fun n _ _ _ hr => hr.registration n) h

omit [ClientStore ω κ ε] in
theorem Tells.judge (h : Tells clocks c v w) :
    (v.judge clocks r s d).1 = (w.judge clocks r s d).1 ∧
      Tells clocks c (v.judge clocks r s d).2 (w.judge clocks r s d).2 := by
  have hchecks : v.checks = w.checks := by
    rw [h.2]
    rfl
  have hrun := h.run ⟨r, s, d, clocks.now⟩ w.checks
  unfold Verifier.judge
  rw [hchecks]
  generalize Attempt.run (κ := κ) _ _ w.checks v = left at hrun ⊢
  generalize Attempt.run (κ := κ) _ _ w.checks w = right at hrun ⊢
  obtain ⟨x, v'⟩ := left
  obtain ⟨y, w'⟩ := right
  obtain ⟨rfl, hafter⟩ : x = y ∧ Tells clocks c v' w' := hrun
  rcases x with e | _ | reason
  · exact ⟨rfl, hafter⟩
  · refine ⟨rfl, ?_⟩
    change Tells clocks c (if s.nonce.isSome then v'.tidy clocks else v')
      (if s.nonce.isSome then w'.tidy clocks else w')
    split
    · exact hafter.tidy
    · exact hafter
  · exact ⟨rfl, hafter⟩

/-- What the lookup of the client comes to, if the signature of the request can be read. -/
def found? (r : Request) (v : Verifier ω) : Option (Except ε (Option (Client κ))) :=
  match Authorization.ofRequest v.scheme r with
  | .error _ => none
  | .ok s => some (ClientStore.find? s.keyId v.store)

end Verifier

/-- What took place in a verification, and came of the calls of the stores. -/
structure Observation (κ ε : Type) where
  clocks : Readings
  result : Except ε (Verdict κ)
  /-- Nothing, if no client was looked up. -/
  lookup : Option (Except ε (Option (Client κ)))
  uses : List (NonceUse ε)

namespace Observation

def lookupEvents (clocks : Readings) (lookup : Option (Except ε (Option (Client κ)))) :
    List Metrics.Event :=
  lookup.toList.map fun found => .stored (clocks.took .lookup) found.isOk

def events (o : Observation κ ε) : List Metrics.Event :=
  lookupEvents o.clocks o.lookup ++ o.uses.flatMap (NonceUse.events o.clocks) ++
    [.verified (o.clocks.took .verification) (Verifier.ending o.result)]

end Observation

namespace Verifier

variable [SigningKey κ] [ClientStore ω κ ε] [NonceStore ω ε] {clocks : Readings} {r : Request}
  {c : Option Collector} {v : Verifier ω} {w : Verifier (Journaled ω ε)}

omit [SigningKey κ] [NonceStore ω ε] in
theorem Tells.lookup (clocks : Readings) (c : Option Collector) (s : Signature)
    (hplain : w.Plain) (hfresh : w.store.journal = []) :
    ((w.told clocks c).lookup clocks s).1 = (w.lookup clocks s).1 ∧
      Tells clocks
        (c.map (Collector.recordAll (Observation.lookupEvents clocks
          (some (ClientStore.find? s.keyId w.store)))))
        ((w.told clocks c).lookup clocks s).2 (w.lookup clocks s).2 := by
  obtain ⟨scheme, policy, ⟨store, journal⟩, rfl⟩ := hplain.exists_eq
  obtain rfl : journal = [] := hfresh
  refine ⟨rfl, ⟨rfl, rfl⟩, ?_⟩
  cases c <;> rfl

theorem Tells.decideOn (clocks : Readings) (c : Option Collector) (r : Request)
    (hplain : w.Plain) (hfresh : w.store.journal = []) :
    ((w.told clocks c).decideOn clocks r).1 = (w.decideOn clocks r).1 ∧
      Tells clocks (c.map (Collector.recordAll (Observation.lookupEvents clocks (w.found? r))))
        ((w.told clocks c).decideOn clocks r).2 (w.decideOn clocks r).2 := by
  have hscheme : (w.told clocks c).scheme = w.scheme := rfl
  unfold Verifier.decideOn found?
  rw [hscheme]
  cases hs : Authorization.ofRequest w.scheme r with
  | error d =>
    have hsame : c.map (Collector.recordAll []) = c := Option.map_id'
    exact ⟨rfl, hplain, congrArg (w.told clocks) hsame.symm⟩
  | ok s =>
    obtain ⟨hresult, hafter⟩ := Tells.lookup clocks c s hplain hfresh
    simp only
    generalize (w.told clocks c).lookup clocks s = left at hresult hafter ⊢
    generalize w.lookup clocks s = right at hresult hafter ⊢
    obtain ⟨x, v'⟩ := left
    obtain ⟨y, w'⟩ := right
    obtain rfl : x = y := hresult
    rcases x with e | _ | d
    · exact ⟨rfl, hafter⟩
    · exact ⟨rfl, hafter⟩
    · exact hafter.judge

def equip (c : Option Collector) (v : Verifier ω) : Verifier ω :=
  { v with collector := c }

/-- A verification comes to the same result and leaves the same store behind with a collector and
without one, and the collector is told of the whole journal and no more. -/
theorem verify_told (clocks : Readings) (c : Option Collector) (r : Request)
    (hplain : w.Plain) (hfresh : w.store.journal = []) :
    (w.told clocks c).verify clocks r =
        ((w.verify clocks r).1, ((w.verify clocks r).2.told clocks none).equip
          (c.map (Collector.recordAll (Observation.events
            ⟨clocks, (w.verify clocks r).1, w.found? r, (w.verify clocks r).2.store.journal⟩)))) ∧
      (w.verify clocks r).2.Plain := by
  obtain ⟨hresult, hplain, htold⟩ := Tells.decideOn clocks c r hplain hfresh
  have hboth : (w.told clocks c).decideOn clocks r = (_, _) := Prod.ext hresult htold
  unfold Verifier.verify
  rw [hboth]
  generalize w.decideOn clocks r = decided at hplain ⊢
  obtain ⟨x, w'⟩ := decided
  obtain ⟨scheme, policy, ⟨store, journal⟩, rfl⟩ := Plain.exists_eq hplain
  refine ⟨?_, rfl, rfl⟩
  cases c with
  | none => rfl
  | some c =>
    simp only [Observation.events, Option.map_some, Collector.recordAll_append]
    rfl

theorem verify_of_found {s : Signature} {d : Client κ} {u : Verifier ω}
    {judged : Except ε (Verdict κ) × Verifier ω} (hs : Authorization.ofRequest v.scheme r = .ok s)
    (hd : v.lookup clocks s = (.ok (some d), u)) (hj : u.judge clocks r s d = judged) :
    v.verify clocks r = (judged.1,
      judged.2.record (.verified (clocks.took .verification) (ending judged.1))) := by
  unfold Verifier.verify Verifier.decideOn
  rw [hs]
  simp only
  rw [hd]
  simp only
  rw [hj]

end Verifier

/-- A request that is verified after others may have changed the store. -/
structure Visit (ω : Type) where
  before : ω → ω
  clocks : Readings
  request : Request

namespace Verifier

variable [SigningKey κ] [ClientStore ω κ ε] [NonceStore ω ε] {v : Verifier ω}

def visit (x : Visit ω) (v : Verifier ω) : Except ε (Verdict κ) × Verifier ω :=
  ({ v with store := x.before v.store } : Verifier ω).verify x.clocks x.request

/-- The results of visits one after the other, and the verifier after them. -/
def visitAll : List (Visit ω) → Verifier ω → List (Except ε (Verdict κ)) × Verifier ω
  | [], v => ([], v)
  | x :: xs, v =>
    let (result, v) := v.visit x
    let (results, v) := v.visitAll xs
    (result :: results, v)

def journaling (x : Visit ω) (v : Verifier ω) : Verifier (Journaled ω ε) where
  scheme := v.scheme
  ownChecks := v.ownChecks
  policy := v.policy
  collector := none
  store := ⟨x.before v.store, []⟩

def observe (x : Visit ω) (v : Verifier ω) : Observation κ ε :=
  let w : Verifier (Journaled ω ε) := v.journaling x
  let verified := w.verify x.clocks x.request
  ⟨x.clocks, verified.1, w.found? x.request, verified.2.store.journal⟩

def observeAll : List (Visit ω) → Verifier ω → List (Observation κ ε)
  | [], _ => []
  | x :: xs, v => v.observe x :: (v.visit x).2.observeAll xs

theorem observe_of_read {x : Visit ω} {s : Signature}
    {verified : Except ε (Verdict κ) × Verifier (Journaled ω ε)}
    (hs : Authorization.ofRequest v.scheme x.request = .ok s)
    (hv : (v.journaling x).verify x.clocks x.request = verified) :
    v.observe x = ⟨x.clocks, verified.1, some (ClientStore.find? s.keyId (x.before v.store)),
      verified.2.store.journal⟩ := by
  have hfound : (v.journaling (ε := ε) x).found? x.request =
      some (ClientStore.find? s.keyId (x.before v.store)) := by
    unfold found?
    change (match Authorization.ofRequest v.scheme x.request with
      | .error _ => none
      | .ok s => some (ClientStore.find? s.keyId (x.before v.store))) = _
    rw [hs]
  unfold observe
  simp only
  rw [hfound, hv]

/-- A visit with a collector and without one: only the collector differs, which is told what was
observed. -/
theorem visit_equip (hown : v.ownChecks = none) (x : Visit ω) (c : Option Collector) :
    (v.equip c).visit x = ((v.observe x).result,
      (v.visit x).2.equip (c.map (Collector.recordAll (v.observe x).events))) ∧
      (v.visit x).2.ownChecks = none := by
  have hplain : (v.journaling (ε := ε) x).Plain := ⟨hown, rfl⟩
  have hvisit (c : Option Collector) :
      (v.equip c).visit x = ((v.observe x).result,
        (((v.journaling (ε := ε) x).verify x.clocks x.request).2.told x.clocks none).equip
          (c.map (Collector.recordAll (v.observe x).events))) := by
    have htold := (verify_told x.clocks c x.request hplain rfl).1
    cases c <;> exact htold
  have hself : v.visit x = _ := hvisit v.collector
  rw [hvisit, hself]
  exact ⟨rfl, (verify_told x.clocks none x.request hplain rfl).2.own⟩

theorem visitAll_equip (hown : v.ownChecks = none) (xs : List (Visit ω)) (c : Option Collector) :
    (v.equip c).visitAll xs = ((v.observeAll xs).map Observation.result,
      (v.visitAll xs).2.equip
        (c.map (Collector.recordAll ((v.observeAll xs).flatMap Observation.events)))) ∧
      (v.visitAll xs).2.ownChecks = none := by
  -- each visit starts from what the one before left, without any trace of the collector
  induction xs generalizing v c with
  | nil =>
    have hsame : c.map (Collector.recordAll []) = c := Option.map_id'
    exact ⟨congrArg (fun c => ([], v.equip c)) hsame.symm, hown⟩
  | cons x xs ih =>
    obtain ⟨hvisit, hown⟩ := visit_equip hown x c
    obtain ⟨hrest, hown⟩ := ih hown (c.map (Collector.recordAll (v.observe x).events))
    refine ⟨?_, hown⟩
    simp only [visitAll, observeAll, hvisit, hrest, List.map_cons, List.flatMap_cons]
    cases c with
    | none => rfl
    | some c => simp only [Option.map_some, Collector.recordAll_append]

end Verifier

namespace Observation

def accepted (o : Observation κ ε) : Bool :=
  match o.result with
  | .ok verdict => verdict.success
  | .error _ => false

def code? (o : Observation κ ε) : Option Failure.Code :=
  match o.result with
  | .ok (.rejected reason ..) => some reason.code
  | _ => none

end Observation

namespace Tally

/-- What took place, in numbers. -/
def of (os : List (Observation κ ε)) : Tally :=
  let lookups := os.filterMap Observation.lookup
  let uses := os.flatMap Observation.uses
  { attempts := os.length
    accepted := os.countP Observation.accepted
    refused := os.countP (!·.accepted)
    refusedBy := fun code => os.countP (·.code? = some code)
    storeCalls := lookups.length + uses.length
    storeErrors := lookups.countP (!·.isOk) + uses.countP NonceUse.failed
    purges := (uses.filterMap NonceUse.removed?).length
    purgedNonces := (uses.filterMap NonceUse.removed?).sum }

theorem noteAll_append (t : Tally) (es fs : List Metrics.Event) :
    t.noteAll (es ++ fs) = (t.noteAll es).noteAll fs :=
  List.foldl_append

theorem noteAll_use (t : Tally) (clocks : Readings) (u : NonceUse ε) :
    t.noteAll (u.events clocks) =
      { t with
        storeCalls := t.storeCalls + 1
        storeErrors := t.storeErrors + if u.failed then 1 else 0
        purges := t.purges + u.removed?.toList.length
        purgedNonces := t.purgedNonces + u.removed?.toList.sum } := by
  rcases u with (e | b) | (e | n) <;> rfl

theorem noteAll_uses (t : Tally) (clocks : Readings) (uses : List (NonceUse ε)) :
    t.noteAll (uses.flatMap (NonceUse.events clocks)) =
      { t with
        storeCalls := t.storeCalls + uses.length
        storeErrors := t.storeErrors + uses.countP NonceUse.failed
        purges := t.purges + (uses.filterMap NonceUse.removed?).length
        purgedNonces := t.purgedNonces + (uses.filterMap NonceUse.removed?).sum } := by
  induction uses generalizing t with
  | nil => rfl
  | cons u uses ih =>
    rw [List.flatMap_cons, noteAll_append, noteAll_use, ih]
    cases hr : u.removed? <;>
      simp [hr, List.countP_cons, Nat.add_assoc, Nat.add_comm, Nat.add_left_comm]

theorem noteAll_lookup (t : Tally) (clocks : Readings)
    (lookup : Option (Except ε (Option (Client κ)))) :
    t.noteAll (Observation.lookupEvents clocks lookup) =
      { t with
        storeCalls := t.storeCalls + lookup.toList.length
        storeErrors := t.storeErrors + lookup.toList.countP (!·.isOk) } := by
  rcases lookup with _ | e | found <;> rfl

theorem note_verified (t : Tally) (o : Observation κ ε) (took : Duration) :
    t.note (.verified took (Verifier.ending o.result)) =
      { t with
        attempts := t.attempts + 1
        accepted := t.accepted + if o.accepted then 1 else 0
        refused := t.refused + if !o.accepted then 1 else 0
        refusedBy := fun code => t.refusedBy code + if o.code? = some code then 1 else 0 } := by
  obtain ⟨clocks, result, lookup, uses⟩ := o
  rcases result with e | ⟨s, c⟩ | ⟨reason, s, c⟩
  · rfl
  · rfl
  · simp only [Verifier.ending, note, Observation.accepted, Observation.code?, Verdict.success,
      Option.some.injEq, eq_comm]
    rfl

theorem noteAll_observation (os : List (Observation κ ε)) (o : Observation κ ε) :
    (of os).noteAll o.events = of (os ++ [o]) := by
  have hlast (t : Tally) (e : Metrics.Event) : t.noteAll [e] = t.note e := rfl
  rw [Observation.events, noteAll_append, noteAll_append, noteAll_lookup, noteAll_uses, hlast,
    note_verified]
  have hlookup : [o].filterMap Observation.lookup = o.lookup.toList := by
    cases h : o.lookup <;> simp [h]
  apply Tally.ext <;> simp [of, hlookup, Nat.add_assoc, Nat.add_left_comm]

theorem noteAll_observations (os ps : List (Observation κ ε)) :
    (of os).noteAll (ps.flatMap Observation.events) = of (os ++ ps) := by
  induction ps generalizing os with
  | nil => rw [List.append_nil]; rfl
  | cons p ps ih =>
    rw [List.flatMap_cons, noteAll_append, noteAll_observation, ih, List.append_assoc,
      List.singleton_append]

end Tally

namespace Verifier

variable [SigningKey κ] [ClientStore ω κ ε] [NonceStore ω ε] {v : Verifier ω}

def attach (m : Metrics) (v : Verifier ω) : Verifier ω :=
  v.equip (some (.counting m))

def reset (v : Verifier ω) : Verifier ω :=
  v.equip (v.collector.map Collector.reset)

theorem observed_results (hown : v.ownChecks = none) (xs : List (Visit ω)) :
    (v.observeAll xs).map Observation.result = (v.visitAll xs).1 :=
  (congrArg Prod.fst (visitAll_equip hown xs v.collector).1).symm

theorem visitAll_attach (hown : v.ownChecks = none) (m : Metrics) (xs : List (Visit ω)) :
    (v.attach m).visitAll xs = ((v.visitAll xs).1, (v.visitAll xs).2.attach
      (m.recordAll ((v.observeAll xs).flatMap Observation.events))) := by
  rw [attach, (visitAll_equip hown xs _).1, observed_results hown, Option.map_some,
    Collector.recordAll_counting]
  rfl

/-- Metrics only observe, and they count exactly. However a verifier with the standard checks is set
up and whatever its stores do, it comes to the same results and leaves the same stores behind
whether somebody counts or not; and its counters are what the results and a journal of the calls of
its stores since the last reset come to. -/
theorem metrics_exact (hown : v.ownChecks = none) (m : Metrics) (xs ys : List (Visit ω)) :
    let plain := v.visitAll xs
    let counted := (v.attach m).visitAll xs
    let plainSince := plain.2.visitAll ys
    let countedSince := counted.2.reset.visitAll ys
    let seen := plain.2.observeAll ys
    counted.1 = plain.1 ∧ counted.2.store = plain.2.store ∧
      countedSince.1 = plainSince.1 ∧ countedSince.2.store = plainSince.2.store ∧
      seen.map Observation.result = plainSince.1 ∧
      ∃ shown, countedSince.2.collector = some (.counting shown) ∧
        ((Tally.of seen).Fits → shown.Shows (Tally.of seen)) := by
  intro plain counted plainSince countedSince seen
  have hcounted : counted = (plain.1, plain.2.attach _) := visitAll_attach hown m xs
  have hownSince : plain.2.ownChecks = none := (visitAll_equip hown xs none).2
  have hsince : countedSince = (plainSince.1, plainSince.2.attach
      (Metrics.zero.recordAll (seen.flatMap Observation.events))) := by
    have hreset : counted.2.reset = plain.2.attach .zero := by
      rw [hcounted]
      rfl
    change counted.2.reset.visitAll ys = _
    rw [hreset]
    exact visitAll_attach hownSince .zero ys
  rw [hcounted, hsince]
  refine ⟨rfl, rfl, rfl, rfl, observed_results hownSince ys, _, rfl, fun hfits => ?_⟩
  have hcounts := Metrics.counts_zero.recordAll (seen.flatMap Observation.events)
  have htally : ({} : Tally).noteAll (seen.flatMap Observation.events) = Tally.of seen :=
    Tally.noteAll_observations [] seen
  exact (htally ▸ hcounts).shows hfits

end Verifier

namespace Sample

theorem run_sent (register : Nonce → ω → Except ε Bool × ω) {n : Nat} (hl : 940 ≤ n)
    (hh : n ≤ 1360) (s : ω) :
    Attempt.run register ⟨Place.parameter.sent, Place.parameter.signature, client, second n⟩
        Check.standard s =
      match register ⟨"client1", "n1", (second n).later client.nonceLifetime⟩ s with
      | (.error e, s) => (.error e, s)
      | (.ok false, s) => (.ok (some (.replayed "n1")), s)
      | (.ok true, s) => (.ok none, s) := by
  have hread := Place.parameter.read_sent
  have hall := (Attempt.sound_iff (Verifier.listed_ne_empty hread)).mpr
    (Place.parameter.sound_sent hl hh)
  have hnone {cs : List Check} (hcs : cs ⊆ Check.standard) :
      cs.findSome? (Attempt.rejection? ⟨Place.parameter.sent, Place.parameter.signature, client,
        second n⟩) = none :=
    List.findSome?_eq_none_iff.mpr fun c hc => hall c (hcs hc)
  rw [Check.standard_eq, Attempt.run_around (by decide) (by decide), hnone (by decide)]
  have hnonce : Attempt.nonce? ⟨Place.parameter.sent, Place.parameter.signature, client,
      second n⟩ = some ⟨"client1", "n1", (second n).later client.nonceLifetime⟩ :=
    Attempt.nonce?_of_read hread
  simp only [Attempt.nonceStep, hnonce]
  rcases register ⟨"client1", "n1", (second n).later client.nonceLifetime⟩ s with
    ⟨e | _ | _, t⟩
  · rfl
  · rfl
  · exact congrArg (fun reason => (Except.ok reason, t)) (hnone (by decide))

section Sent

variable [ClientStore ω Key ε] [NonceStore ω ε]

def settle (n : Nat) (v : Verifier ω) : Except ε (Verdict Key) × Verifier ω :=
  match Verifier.registration (readings n)
      ⟨"client1", "n1", (second n).later client.nonceLifetime⟩ v with
  | (.error e, v) => (.error e, v)
  | (.ok false, v) =>
    (.ok (.rejected (.replayed "n1") (some Place.parameter.signature) (some client)), v)
  | (.ok true, v) => (.ok (.accepted Place.parameter.signature client), v.tidy (readings n))

omit [ClientStore ω Key ε] in
theorem judge_sent {v : Verifier ω} {n : Nat} (hown : v.ownChecks = none) (hl : 940 ≤ n)
    (hh : n ≤ 1360) :
    v.judge (readings n) Place.parameter.sent Place.parameter.signature client = settle n v := by
  have hchecks : v.checks = Check.standard := by
    rw [Verifier.checks, hown]
    rfl
  have hrun := hchecks ▸ run_sent (Verifier.registration (readings n)) hl hh v
  have hnow : (readings n).now = second n := rfl
  unfold Verifier.judge settle
  rw [hnow, hrun]
  rcases Verifier.registration (readings n) _ v with ⟨e | _ | _, t⟩ <;> rfl

theorem verify_sent {v : Verifier ω} {n : Nat} (hplain : v.Plain)
    (hscheme : v.scheme = Authorization.defaultScheme)
    (hclient : ClientStore.find? "client1" v.store = .ok (some client))
    (hl : 940 ≤ n) (hh : n ≤ 1360) :
    v.verify (readings n) Place.parameter.sent =
      ((settle n v).1,
        (settle n v).2.record (.verified default (Verifier.ending (settle n v).1))) := by
  have hread : Authorization.ofRequest v.scheme Place.parameter.sent =
      .ok Place.parameter.signature := hscheme ▸ Place.parameter.read_sent
  have hlookup : v.lookup (readings n) Place.parameter.signature = (.ok (some client), v) := by
    obtain ⟨scheme, policy, store, rfl⟩ := hplain.exists_eq
    exact congrArg (fun found => (found, _)) hclient
  exact Verifier.verify_of_found hread hlookup (judge_sent hplain.own hl hh)

def sentAt (n : Nat) : Visit ω := ⟨id, readings n, Place.parameter.sent⟩

theorem visit_sent {v : Verifier ω} {n : Nat} (hplain : v.Plain)
    (hscheme : v.scheme = Authorization.defaultScheme)
    (hclient : ClientStore.find? "client1" v.store = .ok (some client))
    (hl : 940 ≤ n) (hh : n ≤ 1360) :
    v.visit (sentAt n) = ((settle n v).1,
      (settle n v).2.record (.verified default (Verifier.ending (settle n v).1))) :=
  verify_sent hplain hscheme hclient hl hh

theorem observe_sent {v : Verifier ω} {n : Nat} (hplain : v.Plain)
    (hscheme : v.scheme = Authorization.defaultScheme)
    (hclient : ClientStore.find? "client1" v.store = .ok (some client))
    (hl : 940 ≤ n) (hh : n ≤ 1360) :
    v.observe (sentAt n) =
      ⟨readings n, (settle n (v.journaling (ε := ε) (sentAt n))).1, some (.ok (some client)),
        (settle n (v.journaling (ε := ε) (sentAt n))).2.store.journal⟩ := by
  have hjournaling : (v.journaling (ε := ε) (sentAt n)).Plain := ⟨hplain.own, rfl⟩
  have hread : Authorization.ofRequest v.scheme Place.parameter.sent =
      .ok Place.parameter.signature := hscheme ▸ Place.parameter.read_sent
  have hobserve := Verifier.observe_of_read (x := sentAt n) hread
    (verify_sent hjournaling hscheme hclient hl hh)
  exact hobserve.trans (congrArg (fun found => Observation.mk _ _ (some found) _) hclient)

end Sent

/-- A verifier that purges twice, and fails at first. -/
def twice : Verifier (Faltering (Memory Key)) := tidying (.scripted [true, true]) [true]

def unsignedVisits : List (Visit (Faltering (Memory Key))) :=
  [⟨id, readings 990, Place.parameter.request⟩]

/-- A request, its replay, and the same request when its nonce is forgotten. -/
def repeated : List (Visit (Faltering (Memory Key))) := [sentAt 1000, sentAt 1000, sentAt 1301]

/-- The purge behind the first request fails, and the last one removes the nonce that expired
before. -/
def repeatedTally : Tally where
  attempts := 3
  accepted := 2
  refused := 1
  refusedBy code := if code = .replayed then 1 else 0
  storeCalls := 8
  storeErrors := 1
  purges := 1
  purgedNonces := 1

theorem tally_repeated : Tally.of (twice.observeAll repeated) = repeatedTally := by
  have hobserve := observe_sent (v := twice) (n := 1000) ⟨rfl, rfl⟩ rfl rfl (by decide) (by decide)
  have hvisit := visit_sent (v := twice) (n := 1000) ⟨rfl, rfl⟩ rfl rfl (by decide) (by decide)
  simp only [repeated, Verifier.observeAll, hobserve, hvisit]
  rw [observe_sent ⟨rfl, rfl⟩ rfl rfl (by decide) (by decide),
    visit_sent ⟨rfl, rfl⟩ rfl rfl (by decide) (by decide),
    observe_sent ⟨rfl, rfl⟩ rfl rfl (by decide) (by decide)]
  apply Tally.ext
  case hb =>
    intro code
    cases code <;> decide +kernel
  all_goals decide +kernel

theorem repeatedTally_fits : repeatedTally.Fits where
  attempts := by decide
  accepted := by decide
  refused := by decide
  refusedBy code := by cases code <;> decide
  storeCalls := by decide
  storeErrors := by decide
  purges := by decide
  purgedNonces := by decide

/-- What came before the reset is not counted. -/
theorem repeated_counted :
    ∃ shown,
      (((twice.attach .zero).visitAll unsignedVisits).2.reset.visitAll repeated).2.collector =
        some (.counting shown) ∧ shown.Shows repeatedTally := by
  obtain ⟨-, -, -, -, -, shown, hshown, hshows⟩ :=
    Verifier.metrics_exact (v := twice) rfl .zero unsignedVisits repeated
  have hunsigned : (twice.visitAll unsignedVisits).2 = twice := rfl
  rw [hunsigned, tally_repeated] at hshows
  exact ⟨shown, hshown, hshows repeatedTally_fits⟩

end Sample

end SignedHttp
