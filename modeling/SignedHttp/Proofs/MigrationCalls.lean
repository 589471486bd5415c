import SignedHttp.Proofs.RepeatedMigration

namespace SignedHttp

namespace Migration

variable {σ ε : Type}

inductive Call where
  | read
  | step (version : Nat)
  | write (version : Nat)
  deriving DecidableEq, Repr

def Call.ofStep (m : Migration σ ε) : Call :=
  .step m.version

/-- Data with the calls that were made on them, whether these failed or not. -/
structure Traced (σ : Type) where
  data : σ
  calls : List Call

namespace Traced

def call {α : Type} (c : Call) (f : σ → Except ε α × σ) (s : Traced σ) :
    Except ε α × Traced σ :=
  ((f s.data).1, ⟨(f s.data).2, s.calls ++ [c]⟩)

def record (r : VersionRecord σ ε) : VersionRecord (Traced σ) ε where
  read := call .read r.read
  write n := call (.write n) (r.write n)

def migration (m : Migration σ ε) : Migration (Traced σ) ε :=
  ⟨m.version, m.title, call (.ofStep m) m.apply⟩

end Traced

def calls (record : VersionRecord σ ε) (ms : List (Migration σ ε)) (s : σ) : List Call :=
  (run (Traced.record record) (ms.map Traced.migration) ⟨s, []⟩).2.calls

variable {record : VersionRecord σ ε} {ms steps made rest : List (Migration σ ε)}
  {m : Migration σ ε} {version : σ → Nat} {s t u : σ} {c : Nat} {e : ε}

theorem run_unread (hd : defect? ms = none) (hr : record.read s = (.error e, t)) :
    run record ms s = (.error (.failed e), t) := by
  simp only [run, hd, hr]

theorem run_upToDate (hd : defect? ms = none) (hr : record.read s = (.ok c, t))
    (hp : pending c ms = []) : run record ms s = (.ok c, t) := by
  simp only [run, hd, hr, hp, List.isEmpty_nil, ↓reduceIte]

theorem run_pending (hd : defect? ms = none) (hr : record.read s = (.ok c, t))
    (hp : pending c ms ≠ []) :
    run record ms s = ((advance record (pending c ms) t).1.mapError .failed,
      (advance record (pending c ms) t).2) := by
  have hsome : (pending c ms).isEmpty = false := by simpa using hp
  simp only [run, hd, hr, hsome, Bool.false_eq_true, ↓reduceIte]

theorem applyAll_append (h : Succeed made t) :
    applyAll (made ++ rest) t = applyAll rest (applyAll made t).2 := by
  induction made generalizing t with
  | nil => rfl
  | cons m made ih =>
    obtain ⟨hok, hrest⟩ := h
    rw [List.cons_append, applyAll, applyAll]
    generalize m.apply t = r at hok hrest ⊢
    rcases r with ⟨e | _, u⟩
    · cases hok
    · exact ih hrest

theorem run_stopped (hd : defect? ms = none) (hr : record.read s = (.ok c, t))
    (hp : pending c ms = made ++ m :: rest) (hm : Succeed made t)
    (hf : m.apply (applyAll made t).2 = (.error e, u)) :
    run record ms s = (.error (.failed e), u) := by
  have hall : applyAll (pending c ms) t = (.error e, u) := by
    rw [hp, applyAll_append hm, applyAll, hf]
  rw [run_pending hd hr (by simp [hp]), advance, hall]
  rfl

theorem run_written (hd : defect? ms = none) (hr : record.read s = (.ok c, t))
    (hp : pending c ms ≠ []) (hm : Succeed (pending c ms) t) {result : Except ε Unit}
    (hw : record.write (latest ms) (applyAll (pending c ms) t).2 = (result, u)) :
    run record ms s = ((result.map (fun _ => latest ms)).mapError .failed, u) := by
  have hall : applyAll (pending c ms) t = (.ok (), (applyAll (pending c ms) t).2) :=
    Prod.ext (applyAll_succeed hm) rfl
  rw [run_pending hd hr hp, advance, hall, latest_pending hp]
  simp only [hw]
  cases result <;> rfl

/-- Steps all succeed, or there is a first one that fails. -/
theorem succeed_or_fails (steps : List (Migration σ ε)) (t : σ) :
    Succeed steps t ∨ ∃ made m rest e u, steps = made ++ m :: rest ∧ Succeed made t ∧
      m.apply (applyAll made t).2 = (.error e, u) := by
  induction steps generalizing t with
  | nil => exact Or.inl trivial
  | cons m steps ih =>
    rcases hm : m.apply t with ⟨e | _, u⟩
    · exact Or.inr ⟨[], m, steps, e, u, rfl, trivial, hm⟩
    · have hok : (m.apply t).1.isOk = true := by rw [hm]; rfl
      have hafter : ∀ made, applyAll (m :: made) t = applyAll made u := fun made => by
        rw [applyAll, hm]
      have hstate : (m.apply t).2 = u := by rw [hm]
      rcases ih u with hall | ⟨made, n, rest, e, v, hsteps, hmade, hfails⟩
      · exact Or.inl ⟨hok, hstate ▸ hall⟩
      · refine Or.inr ⟨m :: made, n, rest, e, v, by rw [hsteps]; rfl, ⟨hok, hstate ▸ hmade⟩, ?_⟩
        rw [hafter, hfails]

theorem defect?_traced : defect? (ms.map Traced.migration) = defect? ms :=
  defectAfter?_map (fun _ => ⟨rfl, rfl⟩)

theorem pending_traced : pending c (ms.map Traced.migration) = (pending c ms).map Traced.migration :=
  pending_map (fun _ => rfl)

theorem latest_traced : latest (ms.map Traced.migration) = latest ms :=
  latest_map (fun _ => rfl)

theorem read_traced {result : Except ε Nat} (h : record.read s = (result, t)) (cs : List Call) :
    (Traced.record record).read ⟨s, cs⟩ = (result, ⟨t, cs ++ [.read]⟩) := by
  simp only [Traced.record, Traced.call, h]

theorem write_traced {result : Except ε Unit} {n : Nat} (h : record.write n s = (result, t))
    (cs : List Call) :
    (Traced.record record).write n ⟨s, cs⟩ = (result, ⟨t, cs ++ [.write n]⟩) := by
  simp only [Traced.record, Traced.call, h]

theorem succeed_traced {cs : List Call} (h : Succeed steps t) :
    Succeed (steps.map Traced.migration) ⟨t, cs⟩ := by
  induction steps generalizing t cs with
  | nil => trivial
  | cons m steps ih => exact ⟨h.1, ih h.2⟩

theorem applyAll_traced {cs : List Call} (h : Succeed steps t) :
    (applyAll (steps.map Traced.migration) ⟨t, cs⟩).2 =
      ⟨(applyAll steps t).2, cs ++ steps.map .ofStep⟩ := by
  induction steps generalizing t cs with
  | nil => simp [applyAll]
  | cons m steps ih =>
    obtain ⟨hok, hrest⟩ := h
    have hstep : (Traced.migration m).apply ⟨t, cs⟩ =
        ((m.apply t).1, ⟨(m.apply t).2, cs ++ [.ofStep m]⟩) := rfl
    rw [List.map_cons, applyAll, applyAll, hstep]
    generalize m.apply t = r at hok hrest ⊢
    rcases r with ⟨e | _, u⟩
    · cases hok
    · rw [ih hrest, List.append_assoc]
      rfl

theorem traced_upToDate (hd : defect? ms = none) (hr : record.read s = (.ok c, t))
    (hp : pending c ms = []) :
    run (Traced.record record) (ms.map Traced.migration) ⟨s, []⟩ = (.ok c, ⟨t, [.read]⟩) :=
  run_upToDate (defect?_traced.trans hd) (read_traced hr []) (by rw [pending_traced, hp]; rfl)

theorem traced_stopped (hd : defect? ms = none) (hr : record.read s = (.ok c, t))
    (hp : pending c ms = made ++ m :: rest) (hm : Succeed made t)
    (hf : m.apply (applyAll made t).2 = (.error e, u)) :
    run (Traced.record record) (ms.map Traced.migration) ⟨s, []⟩ =
      (.error (.failed e), ⟨u, .read :: (made ++ [m]).map .ofStep⟩) := by
  have hp' : pending c (ms.map Traced.migration) =
      made.map Traced.migration ++ Traced.migration m :: rest.map Traced.migration := by
    rw [pending_traced, hp, List.map_append, List.map_cons]
  refine run_stopped (defect?_traced.trans hd) (read_traced hr []) hp' (succeed_traced hm) ?_
  rw [applyAll_traced hm]
  simp [Traced.migration, Traced.call, hf]

theorem traced_written (hd : defect? ms = none) (hr : record.read s = (.ok c, t))
    (hp : pending c ms ≠ []) (hm : Succeed (pending c ms) t) {result : Except ε Unit}
    (hw : record.write (latest ms) (applyAll (pending c ms) t).2 = (result, u)) :
    run (Traced.record record) (ms.map Traced.migration) ⟨s, []⟩ =
      ((result.map (fun _ => latest ms)).mapError .failed,
        ⟨u, .read :: (pending c ms).map .ofStep ++ [.write (latest ms)]⟩) := by
  have hp' : pending c (ms.map Traced.migration) ≠ [] := by simpa [pending_traced] using hp
  rw [← latest_traced] at hw ⊢
  refine run_written (defect?_traced.trans hd) (read_traced hr []) hp' ?_ ?_
  · rw [pending_traced]
    exact succeed_traced hm
  · rw [pending_traced, applyAll_traced hm]
    exact write_traced hw _

theorem run_traced (record : VersionRecord σ ε) (ms : List (Migration σ ε)) (s : σ) :
    run (Traced.record record) (ms.map Traced.migration) ⟨s, []⟩ =
      ((run record ms s).1, ⟨(run record ms s).2, calls record ms s⟩) := by
  cases hd : defect? ms with
  | some d =>
    have hd' : defect? (ms.map Traced.migration) = some d := defect?_traced.trans hd
    simp only [calls, run, hd, hd']
  | none =>
    rcases hr : record.read s with ⟨e | c, t⟩
    · rw [calls, run_unread (defect?_traced.trans hd) (read_traced hr []), run_unread hd hr]
    by_cases hp : pending c ms = []
    · rw [calls, traced_upToDate hd hr hp, run_upToDate hd hr hp]
    rcases succeed_or_fails (pending c ms) t with hm | ⟨made, m, rest, e, u, hsteps, hm, hf⟩
    · rcases hw : record.write (latest ms) (applyAll (pending c ms) t).2 with ⟨result, u⟩
      rw [calls, traced_written hd hr hp hm hw, run_written hd hr hp hm hw]
    · rw [calls, traced_stopped hd hr hsteps hm hf, run_stopped hd hr hsteps hm hf]

/-- A record gives the version that was written last: the steps leave it alone. Its calls may
fail. -/
structure Keeps (record : VersionRecord σ ε) (ms : List (Migration σ ε)) (version : σ → Nat) :
    Prop where
  reads {s : σ} {n : Nat} : (record.read s).1 = .ok n → n = version s
  readKeeps (s : σ) : version (record.read s).2 = version s
  writes {s : σ} {n : Nat} : (record.write n s).1 = .ok () → version (record.write n s).2 = n
  applyKeeps {s : σ} {m : Migration σ ε} : m ∈ ms → version (m.apply s).2 = version s

theorem Observed.keeps {made : σ → List Nat} (h : Observed record ms version made) :
    Keeps record ms version where
  reads := h.reads
  readKeeps s := (h.readKeeps s).1
  writes := h.writes
  applyKeeps := h.applyKeeps

theorem Keeps.read (h : Keeps record ms version) (hr : record.read s = (.ok c, t)) :
    version s = c ∧ version t = c := by
  have hreads := h.reads (s := s) (n := c)
  have hkeeps := h.readKeeps s
  rw [hr] at hreads hkeeps
  obtain rfl := hreads rfl
  exact ⟨rfl, hkeeps⟩

theorem Keeps.applyAll (h : Keeps record ms version) (hs : ∀ m ∈ steps, m ∈ ms) (t : σ) :
    version (Migration.applyAll steps t).2 = version t := by
  induction steps generalizing t with
  | nil => rfl
  | cons m steps ih =>
    have hm := h.applyKeeps (s := t) (hs m List.mem_cons_self)
    rw [Migration.applyAll]
    generalize m.apply t = r at hm ⊢
    rcases r with ⟨e | _, u⟩
    · exact hm
    · exact (ih (fun n hn => hs n (List.mem_cons_of_mem _ hn)) u).trans hm

/-- What a run makes of data at version `c`, which are `t` after that was read. -/
structure Exact (record : VersionRecord σ ε) (ms : List (Migration σ ε)) (version : σ → Nat)
    (s : σ) (c : Nat) (t : σ) : Prop where
  /-- The steps that are pending are those of higher versions, each once. -/
  complete (m : Migration σ ε) : m ∈ pending c ms ↔ m ∈ ms ∧ c < m.version
  ascending : ((pending c ms).map Migration.version).Pairwise (· < ·)
  /-- The first step that fails is the last call, whatever comes after it. -/
  stops {made rest : List (Migration σ ε)} {m : Migration σ ε} {e : ε} {u : σ} :
    pending c ms = made ++ m :: rest → Succeed made t →
    m.apply (applyAll made t).2 = (.error e, u) →
    run record ms s = (.error (.failed e), u) ∧ version u = c ∧
      calls record ms s = .read :: (made ++ [m]).map .ofStep
  rests : pending c ms = [] →
    run record ms s = (.ok (max c (latest ms)), t) ∧ version t = c ∧ calls record ms s = [.read]
  /-- Once all steps are made, the last one is recorded. -/
  advances {u : σ} : pending c ms ≠ [] → Succeed (pending c ms) t →
    record.write (latest (pending c ms)) (applyAll (pending c ms) t).2 = (.ok (), u) →
    run record ms s = (.ok (max c (latest ms)), u) ∧ version u = max c (latest ms) ∧
      calls record ms s =
        .read :: (pending c ms).map .ofStep ++ [.write (latest (pending c ms))]
  /-- A run that succeeded leaves nothing to do. -/
  again {v : Nat} : (run record ms s).1 = .ok v →
    calls record ms (run record ms s).2 = [.read] ∧
      ∀ n, (record.read (run record ms s).2).1 = .ok n →
        (run record ms (run record ms s).2).1 = .ok v

theorem calls_of_latest_le (h : Keeps record ms version) (hd : defect? ms = none)
    (hv : latest ms ≤ version s) :
    calls record ms s = [.read] ∧
      ∀ n, (record.read s).1 = .ok n → (run record ms s).1 = .ok (version s) := by
  rcases hr : record.read s with ⟨e | c, t⟩
  · refine ⟨?_, nofun⟩
    rw [calls, run_unread (defect?_traced.trans hd) (read_traced hr [])]
    rfl
  · obtain ⟨rfl, -⟩ := h.read hr
    have hp := pending_eq_nil_iff.mpr hv
    rw [calls, traced_upToDate hd hr hp, run_upToDate hd hr hp]
    exact ⟨rfl, fun _ _ => rfl⟩

/-- A run that succeeds leaves the version that it gives, which is no earlier than the latest. -/
theorem version_of_run (h : Keeps record ms version) (hd : defect? ms = none) {v : Nat}
    (hok : (run record ms s).1 = .ok v) : version (run record ms s).2 = v ∧ latest ms ≤ v := by
  rcases hr : record.read s with ⟨e | c, t⟩
  · rw [run_unread hd hr] at hok
    cases hok
  by_cases hp : pending c ms = []
  · rw [run_upToDate hd hr hp] at hok ⊢
    obtain rfl := Except.ok.inj hok
    exact ⟨(h.read hr).2, pending_eq_nil_iff.mp hp⟩
  rcases succeed_or_fails (pending c ms) t with hm | ⟨made, m, rest, e, u, hsteps, hm, hf⟩
  · have hwrites := h.writes (s := (applyAll (pending c ms) t).2) (n := latest ms)
    rcases hw : record.write (latest ms) (applyAll (pending c ms) t).2 with ⟨e | _, u⟩
    · rw [run_written hd hr hp hm hw] at hok
      cases hok
    · rw [run_written hd hr hp hm hw] at hok ⊢
      rw [hw] at hwrites
      obtain rfl := Except.ok.inj hok
      exact ⟨hwrites rfl, Nat.le_refl _⟩
  · rw [run_stopped hd hr hsteps hm hf] at hok
    cases hok

theorem exact_of_sound (h : Keeps record ms version)
    (hsound : (ms.map Migration.version).Nodup ∧ ∀ m ∈ ms, 0 < m.version)
    (hr : record.read s = (.ok c, t)) : Exact record ms version s c t := by
  have hd := defect?_eq_none_iff.mpr hsound
  have hkept := (h.read hr).2
  refine ⟨fun m => mem_pending, pending_ascending hsound.1, fun {made rest m e u} hsteps hm hf => ?_,
    fun hp => ?_, fun {u} hp hm hw => ?_, fun {v} hok => ?_⟩
  · have hmade : ∀ n ∈ made ++ [m], n ∈ ms := fun n hn => by
      have hn' : n ∈ pending c ms := by
        rw [hsteps, List.append_cons]
        exact List.mem_append_left _ hn
      exact (mem_pending.mp hn').1
    have hfront := h.applyAll (fun n hn => hmade n (List.mem_append_left _ hn)) t
    have hlast := h.applyKeeps (s := (applyAll made t).2) (hmade m (by simp))
    rw [hf] at hlast
    refine ⟨run_stopped hd hr hsteps hm hf, hlast.trans (hfront.trans hkept), ?_⟩
    rw [calls, traced_stopped hd hr hsteps hm hf]
  · have hmax : max c (latest ms) = c := Nat.max_eq_left (pending_eq_nil_iff.mp hp)
    rw [calls, traced_upToDate hd hr hp, hmax]
    exact ⟨run_upToDate hd hr hp, hkept, rfl⟩
  · have hmax : max c (latest ms) = latest ms :=
      Nat.max_eq_right (Nat.le_of_lt (lt_latest_of_pending hp))
    have hwrites := h.writes (s := (applyAll (pending c ms) t).2) (n := latest (pending c ms))
    rw [hw] at hwrites
    rw [latest_pending hp] at hw hwrites ⊢
    rw [calls, traced_written hd hr hp hm hw, run_written hd hr hp hm hw, hmax]
    exact ⟨rfl, hwrites rfl, rfl⟩
  · obtain ⟨hv, hlatest⟩ := version_of_run h hd hok
    obtain ⟨hcalls, hagain⟩ := calls_of_latest_le h hd (hv.symm ▸ hlatest)
    exact ⟨hcalls, fun n hn => (hagain n hn).trans (congrArg Except.ok hv)⟩

/-- A list with a version that is zero or repeated is refused before anything is read. Any other one
is made as far as it goes: the steps of higher versions in ascending order, up to the first that
fails, and the record of the last one if none does. -/
theorem run_calls [Reportable ε] (h : Keeps record ms version) (s : σ) :
    run (Traced.record record) (ms.map Traced.migration) ⟨s, []⟩ =
      ((run record ms s).1, ⟨(run record ms s).2, calls record ms s⟩) ∧
    ((∃ m ∈ ms, m.version = 0) ∨ ¬ (ms.map Migration.version).Nodup →
      ∃ d, run record ms s = (.error d, s) ∧ (Reportable.fault d).kind = .validation ∧
        calls record ms s = []) ∧
    ((∀ m ∈ ms, m.version ≠ 0) → (ms.map Migration.version).Nodup →
      ∀ {c : Nat} {t : σ}, record.read s = (.ok c, t) → Exact record ms version s c t) := by
  refine ⟨run_traced record ms s, fun hunsound => ?_, fun hpos hnodup c t hr => ?_⟩
  · have hd : defect? ms ≠ none := by
      rw [ne_eq, defect?_eq_none_iff]
      rintro ⟨hnodup, hpos⟩
      rcases hunsound with ⟨m, hm, h0⟩ | hrepeated
      · exact absurd (hpos m hm) (by omega)
      · exact hrepeated hnodup
    obtain ⟨d, hd⟩ := Option.ne_none_iff_exists'.mp hd
    have hd' : defect? (ms.map Traced.migration) = some d := defect?_traced.trans hd
    refine ⟨d, by simp only [run, hd], ?_, by simp only [calls, run, hd']⟩
    rcases defectAfter?_cases hd with ⟨title, rfl⟩ | ⟨v, rfl⟩ <;> rfl
  · exact exact_of_sound h ⟨hnodup, fun m hm => Nat.pos_of_ne_zero (hpos m hm)⟩ hr

end Migration

namespace Sample

open Migration (Call run calls pending Succeed)

local instance : Reportable Unit where
  fault _ := ⟨.storage, "boom"⟩

theorem Stand.pending_steps (c : Nat) (ns : List Nat) :
    pending c (ns.map Stand.step) = (ns.filter (fun n => c < n)).mergeSort.map Stand.step := by
  rw [pending, List.filter_map]
  exact Eq.symm (List.map_mergeSort (fun _ _ _ _ => rfl))

/-- Steps out of order, one of which is made already, with the highest version there is. -/
def upgrade : List (Migration Stand Unit) :=
  [4294967295, 2, 7, 3].map Stand.step

theorem pending_upgrade : pending 2 upgrade = [3, 7, 4294967295].map Stand.step := by
  have hversions : ([4294967295, 2, 7, 3].filter (fun n : Nat => 2 < n)).mergeSort =
      [3, 7, 4294967295] := by simp [List.mergeSort]
  rw [upgrade, Stand.pending_steps, hversions]

/-- The step to version 7 fails. The next run makes the one before it once more, and the run behind
it none. With a version that occurs twice there is no run at all. -/
theorem upgrade_halted_then_made :
    run Stand.record upgrade ⟨2, [], [false, false, true]⟩ =
      (.error (.failed ()), ⟨2, [3], []⟩) ∧
    calls Stand.record upgrade ⟨2, [], [false, false, true]⟩ = [.read, .step 3, .step 7] ∧
    run Stand.record upgrade ⟨2, [3], []⟩ =
      (.ok 4294967295, ⟨4294967295, [3, 3, 7, 4294967295], []⟩) ∧
    calls Stand.record upgrade ⟨2, [3], []⟩ =
      [.read, .step 3, .step 7, .step 4294967295, .write 4294967295] ∧
    calls Stand.record upgrade ⟨4294967295, [3, 3, 7, 4294967295], []⟩ = [.read] ∧
    calls Stand.record (upgrade ++ upgrade) ⟨2, [], []⟩ = [] := by
  have hkeeps : Migration.Keeps Stand.record upgrade Stand.version := (Stand.observed _).keeps
  have hexact : ∀ {s t : Stand}, Stand.record.read s = (.ok 2, t) →
      Migration.Exact Stand.record upgrade Stand.version s 2 t :=
    fun hr => (Migration.run_calls hkeeps _).2.2 (by decide) (by decide) hr
  have hpending := pending_upgrade
  have hsplit : pending 2 upgrade =
      [Stand.step 3] ++ Stand.step 7 :: [Stand.step 4294967295] := hpending
  obtain ⟨hhalted, -, hcalls⟩ :=
    (hexact (s := ⟨2, [], [false, false, true]⟩) rfl).stops hsplit ⟨rfl, trivial⟩ rfl
  have hlater := hexact (s := ⟨2, [3], []⟩) rfl
  obtain ⟨hmade, -, hcalls'⟩ := hlater.advances (by simp [hpending])
    (by rw [hpending]; exact ⟨rfl, rfl, rfl, trivial⟩) (by rw [hpending]; rfl)
  have hagain := (hlater.again (congrArg Prod.fst hmade)).1
  rw [hmade] at hagain
  rw [hpending] at hcalls'
  have hdouble : Migration.Keeps Stand.record (upgrade ++ upgrade) Stand.version := by
    rw [upgrade, ← List.map_append]
    exact (Stand.observed _).keeps
  obtain ⟨-, -, -, hnone⟩ :=
    (Migration.run_calls hdouble ⟨2, [], []⟩).2.1 (Or.inr (by decide))
  exact ⟨hhalted, hcalls, hmade, hcalls', hagain, hnone⟩

end Sample

end SignedHttp
