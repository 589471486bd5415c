import SignedHttp.Proofs.Store.Interruption

namespace SignedHttp

namespace Migration

variable {σ ε : Type} {record : VersionRecord σ ε} {ms steps : List (Migration σ ε)}
  {version : σ → Nat} {made : σ → List Nat} {s : σ}

/-- What is seen of data that are migrated: the version that is recorded, and the versions of the
steps that were made, in order. Of a call that fails nothing is seen. -/
structure Observed (record : VersionRecord σ ε) (ms : List (Migration σ ε)) (version : σ → Nat)
    (made : σ → List Nat) : Prop where
  reads {s : σ} {n : Nat} : (record.read s).1 = .ok n → n = version s
  readKeeps (s : σ) : version (record.read s).2 = version s ∧ made (record.read s).2 = made s
  writes {s : σ} {n : Nat} : (record.write n s).1 = .ok () → version (record.write n s).2 = n
  writeFails {s : σ} {n : Nat} {e : ε} : (record.write n s).1 = .error e →
    version (record.write n s).2 = version s
  writeKeeps (s : σ) (n : Nat) : made (record.write n s).2 = made s
  applies {s : σ} {m : Migration σ ε} : m ∈ ms → (m.apply s).1 = .ok () →
    made (m.apply s).2 = made s ++ [m.version]
  applyFails {s : σ} {m : Migration σ ε} {e : ε} : m ∈ ms → (m.apply s).1 = .error e →
    made (m.apply s).2 = made s
  applyKeeps {s : σ} {m : Migration σ ε} : m ∈ ms → version (m.apply s).2 = version s

theorem applyAll_made (h : Observed record ms version made) (hs : ∀ m ∈ steps, m ∈ ms) (s : σ) :
    version (applyAll steps s).2 = version s ∧
      ∃ n, made (applyAll steps s).2 = made s ++ (steps.take n).map Migration.version ∧
        ((applyAll steps s).1 = .ok () → n = steps.length) := by
  induction steps generalizing s with
  | nil => exact ⟨rfl, 0, by simp [applyAll], fun _ => rfl⟩
  | cons m steps ih =>
    have hm := hs m List.mem_cons_self
    have hversion := h.applyKeeps (s := s) hm
    have hok := h.applies (s := s) hm
    have hfails := fun e => h.applyFails (s := s) (e := e) hm
    unfold applyAll
    generalize m.apply s = r at hversion hok hfails ⊢
    rcases r with ⟨e | _, t⟩
    · exact ⟨hversion, 0, by simpa using hfails e rfl, fun hok => by cases hok⟩
    · obtain ⟨hkeeps, n, hn, hall⟩ := ih (fun m hm => hs m (List.mem_cons_of_mem _ hm)) t
      refine ⟨hkeeps.trans hversion, n + 1, ?_, fun hr => congrArg (· + 1) (hall hr)⟩
      have ht : made t = made s ++ [m.version] := hok rfl
      rw [hn, ht, List.take_succ_cons, List.map_cons, List.append_assoc]
      rfl

/-- How a run ends that starts from `s`: with some first steps made and nothing recorded, with
nothing to do, or with all steps made and the last one recorded. -/
inductive Ends (ms : List (Migration σ ε)) (version : σ → Nat) (made : σ → List Nat) (s : σ) :
    Except (Defect ε) Nat × σ → Prop
  | failed {e : ε} {t : σ} (n : Nat) : version t = version s →
    made t = made s ++ ((pending (version s) ms).take n).map Migration.version →
    Ends ms version made s (.error (.failed e), t)
  | upToDate {t : σ} : pending (version s) ms = [] → version t = version s → made t = made s →
    Ends ms version made s (.ok (version s), t)
  | advanced {t : σ} : pending (version s) ms ≠ [] →
    version t = latest (pending (version s) ms) →
    made t = made s ++ (pending (version s) ms).map Migration.version →
    Ends ms version made s (.ok (latest (pending (version s) ms)), t)

theorem run_ends (h : Observed record ms version made) (hd : defect? ms = none) (s : σ) :
    Ends ms version made s (run record ms s) := by
  have hreads := fun n => h.reads (s := s) (n := n)
  have hkeeps := h.readKeeps s
  unfold run
  rw [hd]
  generalize record.read s = r at hreads hkeeps ⊢
  rcases r with ⟨e | current, t⟩
  · exact .failed 0 hkeeps.1 (by simpa using hkeeps.2)
  · obtain rfl := hreads current rfl
    obtain ⟨htv, htm⟩ : version t = version s ∧ made t = made s := hkeeps
    simp only
    split
    · next hempty => exact .upToDate (by simpa using hempty) htv htm
    · next hsome =>
      have hpending : pending (version s) ms ≠ [] := by simpa using hsome
      have hsteps : ∀ m ∈ pending (version s) ms, m ∈ ms := fun m hm => (mem_pending.mp hm).1
      obtain ⟨hav, n, ham, hall⟩ := applyAll_made h hsteps t
      unfold advance
      rcases hr : applyAll (pending (version s) ms) t with ⟨e | _, u⟩
      · rw [hr] at hav ham
        exact .failed n (hav.trans htv) (htm ▸ ham)
      · rw [hr] at hav ham hall
        obtain rfl := hall rfl
        rw [List.take_length] at ham
        have hwrites := h.writes (s := u) (n := latest (pending (version s) ms))
        have hfails := fun e =>
          h.writeFails (s := u) (n := latest (pending (version s) ms)) (e := e)
        have hmade := h.writeKeeps u (latest (pending (version s) ms))
        simp only
        generalize record.write (latest (pending (version s) ms)) u = r at hwrites hfails hmade ⊢
        rcases r with ⟨e | _, v⟩
        · refine .failed (pending (version s) ms).length ((hfails e rfl).trans (hav.trans htv)) ?_
          rw [List.take_length, ← htm]
          exact hmade.trans ham
        · exact .advanced hpending (hwrites rfl) (hmade.trans (htm ▸ ham))

def after (record : VersionRecord σ ε) (ms : List (Migration σ ε)) (s : σ) : Nat → σ
  | 0 => s
  | k + 1 => (run record ms (after record ms s k)).2

/-- How many of the first runs failed. -/
def failures (record : VersionRecord σ ε) (ms : List (Migration σ ε)) (s : σ) : Nat → Nat
  | 0 => 0
  | k + 1 =>
    failures record ms s k + if (run record ms (after record ms s k)).1.isOk then 0 else 1

def Succeed : List (Migration σ ε) → σ → Prop
  | [], _ => True
  | m :: ms, s => (m.apply s).1.isOk = true ∧ Succeed ms (m.apply s).2

/-- No call of a run fails. -/
structure Smooth (record : VersionRecord σ ε) (ms : List (Migration σ ε)) (s : σ) : Prop where
  reads : (record.read s).1.isOk = true
  applies {n : Nat} : (record.read s).1 = .ok n → Succeed (pending n ms) (record.read s).2
  writes {n : Nat} : (record.read s).1 = .ok n → pending n ms ≠ [] →
    (record.write (latest (pending n ms))
      (applyAll (pending n ms) (record.read s).2).2).1.isOk = true

/-- What comes of runs on data without a version, whichever of their calls fail. -/
structure Repeatable (record : VersionRecord σ ε) (ms : List (Migration σ ε)) (version : σ → Nat)
    (made : σ → List Nat) (s : σ) : Prop where
  /-- No version but the latest is ever recorded. -/
  recorded (k : Nat) : version (after record ms s k) = 0 ∨ version (after record ms s k) = latest ms
  /-- A run makes some first steps in ascending order, and none once the latest version is
  recorded. -/
  making (k : Nat) : ∃ steps,
    made (after record ms s (k + 1)) = made (after record ms s k) ++ steps ∧
    steps <+: (ms.map Migration.version).mergeSort ∧
    (version (after record ms s k) = latest ms → steps = [])
  /-- A step is made once, and once more for each failed run at most. -/
  bounded (k : Nat) (m : Migration σ ε) : m ∈ ms →
    (made (after record ms s k)).count m.version ≤
      (made s).count m.version + failures record ms s k + 1
  /-- All steps were made when the latest version is recorded. -/
  complete (k : Nat) : version (after record ms s k) = latest ms →
    ∀ m ∈ ms, m.version ∈ made (after record ms s k)
  /-- A run of which no call fails gives the latest version. -/
  ends (k : Nat) : Smooth record ms (after record ms s k) →
    (run record ms (after record ms s k)).1 = .ok (latest ms)

theorem applyAll_succeed (h : Succeed steps s) : (applyAll steps s).1 = .ok () := by
  induction steps generalizing s with
  | nil => rfl
  | cons m steps ih =>
    obtain ⟨hok, hrest⟩ := h
    unfold applyAll
    generalize m.apply s = r at hok hrest ⊢
    rcases r with ⟨e | _, t⟩
    · cases hok
    · exact ih hrest

theorem run_smooth (h : Smooth record ms s) (hd : defect? ms = none) :
    (run record ms s).1.isOk = true := by
  have hreads := h.reads
  have happlies := fun n => h.applies (n := n)
  have hwrites := fun n => h.writes (n := n)
  unfold run
  rw [hd]
  generalize record.read s = r at hreads happlies hwrites ⊢
  rcases r with ⟨e | current, t⟩
  · cases hreads
  simp only
  split
  · rfl
  · next hsome =>
    have hall := applyAll_succeed (happlies current rfl)
    have hw := hwrites current rfl (by simpa using hsome)
    unfold advance
    generalize applyAll (pending current ms) t = r at hall hw ⊢
    rcases r with ⟨e | _, u⟩
    · cases hall
    simp only at hw ⊢
    generalize record.write (latest (pending current ms)) u = r at hw ⊢
    rcases r with ⟨e | _, v⟩
    · cases hw
    · rfl

theorem run_latest (h : Observed record ms version made) (hd : defect? ms = none)
    (hv : version s = 0 ∨ version s = latest ms) (hok : (run record ms s).1.isOk = true) :
    (run record ms s).1 = .ok (latest ms) := by
  have hends := run_ends h hd s
  generalize run record ms s = r at hok hends ⊢
  cases hends with
  | failed n hver hmade => cases hok
  | upToDate hempty hver hmade =>
    have hle := pending_eq_nil_iff.mp hempty
    rcases hv with h0 | hl
    · exact congrArg Except.ok (by omega)
    · rw [hl]
  | advanced hsome hver hmade => rw [latest_pending hsome]

theorem run_recorded (h : Observed record ms version made) (hd : defect? ms = none)
    (hv : version s = latest ms) :
    version (run record ms s).2 = latest ms ∧ made (run record ms s).2 = made s := by
  have hnone : pending (version s) ms = [] := hv ▸ pending_latest
  have hends := run_ends h hd s
  generalize run record ms s = r at hends ⊢
  cases hends with
  | failed n hver hmade => exact ⟨hver.trans hv, by simpa [hnone] using hmade⟩
  | upToDate hempty hver hmade => exact ⟨hver.trans hv, hmade⟩
  | advanced hsome hver hmade => exact absurd hnone hsome

/-- A run on data without a version makes first steps in ascending order. It records nothing, and
has made nothing unless it failed; or it makes them all and records the latest version. -/
theorem run_unrecorded (h : Observed record ms version made) (hd : defect? ms = none)
    (h0 : version s = 0) :
    ∃ steps, made (run record ms s).2 = made s ++ steps ∧
      steps <+: (ms.map Migration.version).mergeSort ∧
      (version (run record ms s).2 = 0 ∧ ((run record ms s).1.isOk = true → steps = []) ∨
        version (run record ms s).2 = latest ms ∧
          steps = (ms.map Migration.version).mergeSort) := by
  have hpos := (defect?_eq_none_iff.mp hd).2
  have hends := run_ends h hd s
  generalize run record ms s = r at hends ⊢
  cases hends with
  | failed n hver hmade =>
    rw [h0] at hver hmade
    refine ⟨_, hmade, ?_, Or.inl ⟨hver, fun hok => by cases hok⟩⟩
    rw [← versions_pending_zero hpos]
    exact (List.take_prefix n _).map _
  | upToDate hempty hver hmade =>
    exact ⟨[], by simpa using hmade, List.nil_prefix, Or.inl ⟨hver.trans h0, fun _ => rfl⟩⟩
  | advanced hsome hver hmade =>
    rw [latest_pending hsome] at hver
    rw [h0, versions_pending_zero hpos] at hmade
    exact ⟨_, hmade, List.prefix_refl _, Or.inr ⟨hver, rfl⟩⟩

/-- After any number of runs nothing is recorded and a step was made in failed runs only, or the
latest version is recorded and a step was made in one run besides. -/
theorem after_cases (h : Observed record ms version made) (hd : defect? ms = none)
    (h0 : version s = 0) (k : Nat) :
    (version (after record ms s k) = 0 ∧ ∀ v, (made (after record ms s k)).count v ≤
        (made s).count v + failures record ms s k) ∨
      (version (after record ms s k) = latest ms ∧
        (∀ m ∈ ms, m.version ∈ made (after record ms s k)) ∧
        ∀ v, (made (after record ms s k)).count v ≤
          (made s).count v + failures record ms s k + 1) := by
  have hnodup : (ms.map Migration.version).mergeSort.Nodup :=
    (List.mergeSort_perm _ _).nodup_iff.mpr (defect?_eq_none_iff.mp hd).1
  induction k with
  | zero => exact Or.inl ⟨h0, fun v => Nat.le_of_eq rfl⟩
  | succ k ih =>
    unfold after failures
    generalize after record ms s k = t at ih ⊢
    rcases ih with ⟨hv, hcount⟩ | ⟨hv, hall, hcount⟩
    · obtain ⟨steps, hmade, hprefix, hcases⟩ := run_unrecorded h hd hv
      have honce : ∀ v, steps.count v ≤ 1 :=
        List.nodup_iff_count.mp (hnodup.sublist hprefix.sublist)
      rw [hmade]
      rcases hcases with ⟨hv', hnone⟩ | ⟨hv', rfl⟩
      · refine Or.inl ⟨hv', fun v => ?_⟩
        have hv1 := hcount v
        have hv2 := honce v
        rw [List.count_append]
        split
        · next hok =>
          rw [hnone hok, List.count_nil]
          omega
        · omega
      · refine Or.inr ⟨hv', fun m hm => ?_, fun v => ?_⟩
        · refine List.mem_append_right _ (List.mem_mergeSort.mpr ?_)
          exact List.mem_map_of_mem hm
        · have hv1 := hcount v
          have hv2 := honce v
          rw [List.count_append]
          omega
    · obtain ⟨hv', hmade⟩ := run_recorded h hd hv
      rw [hmade]
      exact Or.inr ⟨hv', hall, fun v => Nat.le_trans (hcount v) (by omega)⟩

theorem repeatable (h : Observed record ms version made)
    (hd : (ms.map Migration.version).Nodup ∧ ∀ m ∈ ms, 0 < m.version) (h0 : version s = 0) :
    Repeatable record ms version made s := by
  have hdefect := defect?_eq_none_iff.mpr hd
  have hrecorded : ∀ k, version (after record ms s k) = 0 ∨
      version (after record ms s k) = latest ms :=
    fun k => (after_cases h hdefect h0 k).imp And.left And.left
  refine ⟨hrecorded, fun k => ?_, fun k m hm => ?_, fun k hv m hm => ?_, fun k hsmooth => ?_⟩
  · by_cases hv : version (after record ms s k) = latest ms
    · exact ⟨[], by rw [List.append_nil]; exact (run_recorded h hdefect hv).2, List.nil_prefix,
        fun _ => rfl⟩
    · obtain ⟨steps, hmade, hprefix, -⟩ :=
        run_unrecorded h hdefect ((hrecorded k).resolve_right hv)
      exact ⟨steps, hmade, hprefix, fun hl => absurd hl hv⟩
  · rcases after_cases h hdefect h0 k with ⟨-, hcount⟩ | ⟨-, -, hcount⟩
    · exact Nat.le_trans (hcount m.version) (by omega)
    · exact hcount m.version
  · rcases after_cases h hdefect h0 k with ⟨hzero, -⟩ | ⟨-, hall, -⟩
    · have hle := version_le_latest hm
      have hpos := hd.2 m hm
      omega
    · exact hall m hm
  · exact run_latest h hdefect (hrecorded k) (run_smooth hsmooth hdefect)

/-- What a failed run has made is made again by the next one, and not once the latest version is
recorded. Clients are prepared in a database whenever all that failed before comes before the
record of the version. -/
theorem repeated_runs :
    (∀ {σ ε : Type} {record : VersionRecord σ ε} {ms : List (Migration σ ε)} {version : σ → Nat}
      {made : σ → List Nat} {s : σ}, Observed record ms version made →
      (ms.map Migration.version).Nodup → (∀ m ∈ ms, 0 < m.version) → version s = 0 →
      Repeatable record ms version made s) ∧
    ∀ {db : Database} {attempts : List Nat}, Schema.Resumable db → 4 ∉ attempts →
      (Schema.prepare .clients (Schema.attempted .clients attempts db)).1 = .ok 2 :=
  ⟨fun h hd hpos h0 => repeatable h ⟨hd, hpos⟩ h0, Schema.prepare_resumed⟩

end Migration

namespace Sample

/-- Data that are migrated by calls of which some fail: the next ones as listed. -/
structure Stand where
  version : Nat
  made : List Nat
  faults : List Bool
  deriving DecidableEq, Repr

namespace Stand

def call {α : Type} (f : Stand → α × Stand) (s : Stand) : Except Unit α × Stand :=
  match s.faults with
  | [] => (.ok (f s).1, (f s).2)
  | true :: faults => (.error (), { s with faults })
  | false :: faults => (.ok (f { s with faults }).1, (f { s with faults }).2)

def record : VersionRecord Stand Unit where
  read := call (fun s => (s.version, s))
  write n := call (fun s => ((), { s with version := n }))

def step (n : Nat) : Migration Stand Unit :=
  ⟨n, "step", call (fun s => ((), { s with made := s.made ++ [n] }))⟩

theorem observed (ns : List Nat) :
    Migration.Observed record (ns.map step) Stand.version Stand.made where
  reads {s n} h := by
    rcases s with ⟨version, made, _ | ⟨_ | _, faults⟩⟩
    · exact (Except.ok.inj h).symm
    · exact (Except.ok.inj h).symm
    · cases h
  readKeeps s := by
    rcases s with ⟨version, made, _ | ⟨_ | _, faults⟩⟩ <;> exact ⟨rfl, rfl⟩
  writes {s n} h := by
    rcases s with ⟨version, made, _ | ⟨_ | _, faults⟩⟩
    · rfl
    · rfl
    · cases h
  writeFails {s n e} h := by
    rcases s with ⟨version, made, _ | ⟨_ | _, faults⟩⟩
    · cases h
    · cases h
    · rfl
  writeKeeps s n := by
    rcases s with ⟨version, made, _ | ⟨_ | _, faults⟩⟩ <;> rfl
  applies {s m} hm h := by
    obtain ⟨n, -, rfl⟩ := List.mem_map.mp hm
    rcases s with ⟨version, made, _ | ⟨_ | _, faults⟩⟩
    · rfl
    · rfl
    · cases h
  applyFails {s m e} hm h := by
    obtain ⟨n, -, rfl⟩ := List.mem_map.mp hm
    rcases s with ⟨version, made, _ | ⟨_ | _, faults⟩⟩
    · cases h
    · cases h
    · rfl
  applyKeeps {s m} hm := by
    obtain ⟨n, -, rfl⟩ := List.mem_map.mp hm
    rcases s with ⟨version, made, _ | ⟨_ | _, faults⟩⟩ <;> rfl

theorem run_unrecorded {s t : Stand} (h : record.read s = (.ok 0, t)) :
    (Migration.run record ([1, 2].map step) s).2 =
      (Migration.advance record ([1, 2].map step) t).2 := by
  have hsound : Migration.defect? ([1, 2].map step) = none := rfl
  have hpending : Migration.pending 0 ([1, 2].map step) = [1, 2].map step :=
    List.mergeSort_of_pairwise (by decide)
  simp only [Migration.run, hsound, h, hpending]
  rfl

end Stand

theorem second_run : Migration.Repeatable Stand.record ([2, 1].map Stand.step) Stand.version
      Stand.made ⟨0, [], [false, false, true, false, false, false, true]⟩ ∧
    (Schema.prepare .clients (Schema.attempted .clients [3, 0, 2] .empty)).1 = .ok 2 :=
  ⟨Migration.repeated_runs.1 (Stand.observed _) (by decide) (by decide) rfl,
    Migration.repeated_runs.2 (.unrecorded rfl nofun) (by decide)⟩

/-- A run whose second step fails records no version, so the next one makes the first step again. -/
theorem steps_made_twice : ¬ ∀ (ms : List (Migration Stand Unit)) (s : Stand) (k : Nat),
    Migration.Observed Stand.record ms Stand.version Stand.made →
    (ms.map Migration.version).Nodup → (∀ m ∈ ms, 0 < m.version) → s.version = 0 → s.made = [] →
    (Migration.after Stand.record ms s k).made.Nodup := by
  intro h
  have htwice := h ([1, 2].map Stand.step) ⟨0, [], [false, false, true]⟩ 2
    (Stand.observed _) (by decide) (by decide) rfl rfl
  have hfirst : (Migration.run Stand.record ([1, 2].map Stand.step)
      ⟨0, [], [false, false, true]⟩).2 = ⟨0, [1], []⟩ := by
    rw [Stand.run_unrecorded (t := ⟨0, [], [false, true]⟩) rfl]
    rfl
  have hsecond : (Migration.run Stand.record ([1, 2].map Stand.step)
      ⟨0, [1], []⟩).2 = ⟨2, [1, 1, 2], []⟩ := by
    rw [Stand.run_unrecorded (t := ⟨0, [1], []⟩) rfl]
    rfl
  simp only [Migration.after, hfirst, hsecond] at htwice
  exact absurd htwice (by decide)

end Sample

end SignedHttp
