import SignedHttp.Proofs.Migration
import SignedHttp.Proofs.Results
import SignedHttp.Proofs.Store.Schema

namespace SignedHttp

namespace Schema

/-- A database of which so many statements still succeed. -/
structure Interrupted where
  database : Database
  left : Nat

namespace Interrupted

/-- A statement that fails, and changes nothing, when none succeeds any more. -/
def statement {α : Type} (f : Database.Statement α) (s : Interrupted) :
    Except (Option Database.Defect) α × Interrupted :=
  match s.left with
  | 0 => (.error none, s)
  | n + 1 => ((f s.database).1.mapError some, ⟨(f s.database).2, n⟩)

def record (part : Part) : VersionRecord Interrupted (Option Database.Defect) where
  read s :=
    match statement Database.createVersions s with
    | (.error e, s) => (.error e, s)
    | (.ok (), s) => statement (fun db => (db.version part.name, db)) s
  write n := statement (Database.putVersion part.name n)

def migration (m : Migration Database Database.Defect) :
    Migration Interrupted (Option Database.Defect) :=
  ⟨m.version, m.title, statement m.apply⟩

end Interrupted

/-- Prepares a part of the schema with so many statements that succeed. -/
def prepareWithin (n : Nat) (part : Part) (db : Database) :
    Except (Migration.Defect (Option Database.Defect)) Nat × Database :=
  let (result, s) := Migration.run (Interrupted.record part)
    (part.migrations.map Interrupted.migration) ⟨db, n⟩
  (result, s.database)

/-- The database after one preparation for each number of statements that succeed in it. -/
def attempted (part : Part) (attempts : List Nat) (db : Database) : Database :=
  attempts.foldl (fun db n => (prepareWithin n part db).2) db

def recorded (part : Part) (db : Database) : Int :=
  ((db.versions.getD .empty).find? part.name).getD 0

/-- The part of clients was brought in, or it has no version and lacks the last column. -/
inductive Resumable (db : Database) : Prop
  | unrecorded : recorded .clients db = 0 → (∀ t, db.clients = some t → t.hasClaims = false) →
    Resumable db
  | recorded : recorded .clients db = 2 → Resumable db

variable {part : Part} {db : Database} {n v : Nat}

open Interrupted (migration)

theorem defect?_migration (part : Part) :
    Migration.defect? (part.migrations.map migration) = none := by
  cases part <;> rfl

theorem latest_migration (steps : List (Migration Database Database.Defect)) :
    Migration.latest (steps.map migration) = Migration.latest steps :=
  Migration.latest_map (fun _ => rfl)

theorem pending_migration (v : Nat) (steps : List (Migration Database Database.Defect)) :
    Migration.pending v (steps.map migration) = (Migration.pending v steps).map migration :=
  Migration.pending_map (fun _ => rfl)

theorem applyAll_migration {steps : List (Migration Database Database.Defect)}
    (h : steps.length ≤ n) (db : Database) :
    ∃ left, n ≤ left + steps.length ∧ Migration.applyAll (steps.map migration) ⟨db, n⟩ =
      ((Migration.applyAll steps db).1.mapError some,
        ⟨(Migration.applyAll steps db).2, left⟩) := by
  induction steps generalizing n db with
  | nil => exact ⟨n, Nat.le_refl _, rfl⟩
  | cons m steps ih =>
    obtain ⟨n, rfl⟩ : ∃ k, n = k + 1 := ⟨n - 1, by simp at h; omega⟩
    have hstep : (migration m).apply ⟨db, n + 1⟩ =
        ((m.apply db).1.mapError some, ⟨(m.apply db).2, n⟩) := rfl
    simp only [List.map_cons, Migration.applyAll, hstep]
    generalize m.apply db = r
    rcases r with ⟨e | _, db⟩
    · exact ⟨n, by simp, rfl⟩
    · obtain ⟨left, hleft, heq⟩ := ih (by simpa using h) db
      exact ⟨left, by simp; omega, heq⟩

theorem advance_migration {steps : List (Migration Database Database.Defect)}
    (h : steps.length < n) (part : Part) (db : Database) :
    ∃ left, Migration.advance (Interrupted.record part) (steps.map migration) ⟨db, n⟩ =
      ((Migration.advance (record part) steps db).1.mapError some,
        ⟨(Migration.advance (record part) steps db).2, left⟩) := by
  obtain ⟨left, hleft, heq⟩ := applyAll_migration (Nat.le_of_lt h) db
  obtain ⟨left, rfl⟩ : ∃ k, left = k + 1 := ⟨left - 1, by omega⟩
  simp only [Migration.advance, heq, latest_migration]
  generalize Migration.applyAll steps db = r
  rcases r with ⟨e | _, db⟩
  · exact ⟨left + 1, rfl⟩
  · refine ⟨left, ?_⟩
    have hwrite : (Interrupted.record part).write (Migration.latest steps) ⟨db, left + 1⟩ =
        (((record part).write (Migration.latest steps) db).1.mapError some,
          ⟨((record part).write (Migration.latest steps) db).2, left⟩) := rfl
    simp only [mapError_ok, hwrite]
    generalize (record part).write (Migration.latest steps) db = r
    rcases r with ⟨e | _, db⟩ <;> rfl

/-- A preparation takes a statement for the table of versions, one to read the version, one for each
step and one to record it. With so many it is as if none ever failed. -/
theorem prepareWithin_enough (h : part.migrations.length + 2 < n) (db : Database) :
    (prepareWithin n part db).2 = (prepare part db).2 := by
  obtain ⟨n, rfl⟩ : ∃ k, n = k + 2 := ⟨n - 2, by omega⟩
  have hsound : Migration.defect? part.migrations = none := by
    cases part <;> rfl
  have hread : (Interrupted.record part).read ⟨db, n + 2⟩ =
      (((record part).read db).1.mapError some, ⟨((record part).read db).2, n⟩) := rfl
  simp only [prepareWithin, prepare, Migration.run, defect?_migration, hsound, hread]
  generalize (record part).read db = r
  rcases r with ⟨e | current, db⟩
  · rfl
  simp only [mapError_ok, pending_migration, List.isEmpty_map]
  split
  · rfl
  · have hlength : (Migration.pending current part.migrations).length < n := by
      have hle := List.length_filter_le (fun m => decide (current < m.version)) part.migrations
      rw [Migration.pending, List.length_mergeSort]
      omega
    obtain ⟨left, heq⟩ := advance_migration hlength part db
    rw [heq]

theorem version_recorded (h : recorded part db = (v : Int)) (hv : v < 0x100000000) :
    (Database.createVersions db).2.version part.name = .ok v := by
  have hrows : (Database.createVersions db).2.versionRows = .ok (db.versions.getD .empty) := rfl
  have hrow : (((db.versions.getD .empty).find? part.name).getD 0) = (v : Int) := h
  simp only [Database.version, hrows, bind, Except.bind, hrow]
  rw [if_pos (by simp; omega)]
  rfl

theorem read_recorded (h : recorded part db = (v : Int)) (hv : v < 0x100000000) :
    (record part).read db = (.ok v, (Database.createVersions db).2) :=
  congrArg (fun r => (r, (Database.createVersions db).2)) (version_recorded h hv)

theorem read_within (h : recorded part db = (v : Int)) (hv : v < 0x100000000) (n : Nat) :
    (Interrupted.record part).read ⟨db, n + 2⟩ =
      (.ok v, ⟨(Database.createVersions db).2, n⟩) :=
  congrArg (fun r => (Except.mapError some r, (⟨(Database.createVersions db).2, n⟩ : Interrupted)))
    (version_recorded h hv)

theorem pending_last (part : Part) : Migration.pending 2 part.migrations = [] := by
  cases part <;> simp [Migration.pending, Part.migrations]

theorem advance_clients (h : ∀ t, db.clients = some t → t.hasClaims = false) :
    Migration.advance (record .clients) Part.clients.migrations (Database.createVersions db).2 =
      (.ok 2, { db with
        versions := some ((db.versions.getD .empty).put "clients" 2)
        clients := some ⟨true, (db.clients.getD ⟨false, .empty⟩).rows⟩ }) := by
  obtain ⟨versions, _ | ⟨hasClaims, rows⟩, nonces, nonceIndex⟩ := db
  · rfl
  · obtain rfl : hasClaims = false := h _ rfl
    rfl

theorem prepare_unrecorded (h0 : recorded .clients db = 0)
    (hclaims : ∀ t, db.clients = some t → t.hasClaims = false) :
    prepare .clients db =
      (.ok 2, { db with
        versions := some ((db.versions.getD .empty).put "clients" 2)
        clients := some ⟨true, (db.clients.getD ⟨false, .empty⟩).rows⟩ }) := by
  have hsound : Migration.defect? Part.clients.migrations = none := rfl
  have hsome : Part.clients.migrations.isEmpty = false := rfl
  have hread := read_recorded (v := 0) h0 (by decide)
  simp only [prepare, Migration.run, hsound, hread, pending_zero, hsome, advance_clients hclaims]
  rfl

theorem prepare_recorded (h : recorded part db = 2) :
    prepare part db = (.ok 2, (Database.createVersions db).2) := by
  have hsound : Migration.defect? part.migrations = none := by
    cases part <;> rfl
  have hread := read_recorded (v := 2) h (by decide)
  simp [prepare, Migration.run, hsound, hread, pending_last]

theorem prepareWithin_unrecorded (n : Nat) (h0 : recorded part db = 0) :
    (prepareWithin (n + 2) part db).2 =
      (Migration.advance (Interrupted.record part) (part.migrations.map migration)
        ⟨(Database.createVersions db).2, n⟩).2.database := by
  have hsome : part.migrations.isEmpty = false := by
    cases part <;> rfl
  have hread := read_within (v := 0) h0 (by decide) n
  simp [prepareWithin, Migration.run, defect?_migration, hread, pending_migration, pending_zero,
    hsome]

theorem prepareWithin_recorded (n : Nat) (h : recorded part db = 2) :
    (prepareWithin (n + 2) part db).2 = (Database.createVersions db).2 := by
  have hread := read_within (v := 2) h (by decide) n
  simp [prepareWithin, Migration.run, defect?_migration, hread, pending_migration, pending_last]

theorem unrecorded_resumable (h0 : recorded .clients db = 0)
    (hclaims : ∀ t, db.clients = some t → t.hasClaims = false) (hn : n ≠ 4) :
    Resumable (prepareWithin n .clients db).2 := by
  rcases n with _ | _ | _ | _ | _ | n
  · exact .unrecorded h0 hclaims
  · exact .unrecorded h0 hclaims
  · rw [prepareWithin_unrecorded 0 h0]
    exact .unrecorded h0 hclaims
  · -- the table of clients is there now, still without its last column
    rw [prepareWithin_unrecorded 1 h0]
    refine .unrecorded h0 (fun t ht => ?_)
    have htable : db.clients.getD ⟨false, .empty⟩ = t := Option.some.inj ht
    cases hclients : db.clients with
    | none => rw [← htable, hclients, Option.getD_none]
    | some u => rw [← htable, hclients, Option.getD_some, hclaims u hclients]
  · exact absurd rfl hn
  · have henough : Part.clients.migrations.length + 2 < n + 5 := by
      simp [Part.migrations]
    rw [prepareWithin_enough henough, prepare_unrecorded h0 hclaims]
    refine .recorded ?_
    simp [recorded, Part.name]

theorem recorded_resumable (h2 : recorded .clients db = 2) (n : Nat) :
    Resumable (prepareWithin n .clients db).2 := by
  rcases n with _ | _ | n
  · exact .recorded h2
  · exact .recorded h2
  · rw [prepareWithin_recorded n h2]
    exact .recorded h2

/-- Whichever statement is the first to fail, except the fifth, which records the version. -/
theorem prepareWithin_resumable (h : Resumable db) (hn : n ≠ 4) :
    Resumable (prepareWithin n .clients db).2 := by
  cases h with
  | unrecorded h0 hclaims => exact unrecorded_resumable h0 hclaims hn
  | recorded h2 => exact recorded_resumable h2 n

theorem attempted_resumable {attempts : List Nat} (h : Resumable db) (hn : 4 ∉ attempts) :
    Resumable (attempted .clients attempts db) := by
  induction attempts generalizing db with
  | nil => exact h
  | cons n attempts ih =>
    have hhead := List.ne_of_not_mem_cons hn
    exact ih (prepareWithin_resumable h hhead.symm) (List.not_mem_of_not_mem_cons hn)

/-- A preparation that failed, at whichever statements before the one that records the version,
succeeds when it is repeated. -/
theorem prepare_resumed {attempts : List Nat} (h : Resumable db) (hn : 4 ∉ attempts) :
    (prepare .clients (attempted .clients attempts db)).1 = .ok 2 := by
  cases attempted_resumable h hn with
  | unrecorded h0 hclaims => rw [prepare_unrecorded h0 hclaims]
  | recorded h2 => rw [prepare_recorded h2]

end Schema

end SignedHttp
