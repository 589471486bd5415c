import SignedHttp.Proofs.MigrationCalls
import SignedHttp.Proofs.Store.Interchange

namespace SignedHttp

namespace Schema

variable {part other : Part} {db db' : Database}

/-- The step up to which the tables of a part are there, with their columns. -/
def stage (db : Database) : Part → Nat
  | .clients => (db.clients.map (fun t => if t.hasClaims then 2 else 1)).getD 0
  | .nonces => (db.nonces.map (fun _ => if db.nonceIndex then 2 else 1)).getD 0

/-- The recorded versions are those of the tables. -/
def InStep (db : Database) : Prop :=
  ∀ part, recorded part db = stage db part

def finished (part : Part) (db : Database) : Database :=
  match part with
  | .clients => { db with
      versions := some ((db.versions.getD .empty).put part.name 2)
      clients := some ⟨true, (db.clients.getD ⟨false, .empty⟩).rows⟩ }
  | .nonces => { db with
      versions := some ((db.versions.getD .empty).put part.name 2)
      nonces := some (db.nonces.getD .empty)
      nonceIndex := true }

theorem inStep_empty : InStep .empty := fun part => by cases part <;> rfl

theorem stage_le (db : Database) (part : Part) : stage db part ≤ 2 := by
  cases part with
  | clients =>
    rcases h : db.clients with _ | ⟨_ | _, rows⟩ <;> simp [stage, h]
  | nonces =>
    rcases h : db.nonces with _ | rows <;> cases hi : db.nonceIndex <;> simp [stage, h, hi]

theorem pending_stage (part : Part) {n : Nat} (h : n ≤ 2) :
    Migration.pending n part.migrations = part.migrations.drop n := by
  rcases n with _ | _ | n
  · exact pending_zero part
  · cases part <;> simp [Migration.pending, Part.migrations]
  · obtain rfl : n = 0 := by omega
    rw [pending_last]
    cases part <;> rfl

theorem prepare_eq (h : recorded part db = stage db part) (hlt : stage db part < 2) :
    prepare part db =
      ((Migration.advance (record part) (part.migrations.drop (stage db part))
          (Database.createVersions db).2).1.mapError .failed,
        (Migration.advance (record part) (part.migrations.drop (stage db part))
          (Database.createVersions db).2).2) := by
  have hsound : Migration.defect? part.migrations = none := by
    cases part <;> rfl
  have hpending := pending_stage part (stage_le db part)
  have hsome : part.migrations.drop (stage db part) ≠ [] := by
    cases part <;> simpa [Part.migrations] using hlt
  rw [← hpending] at hsome ⊢
  exact Migration.run_pending hsound (read_recorded h (by omega)) hsome

theorem finished_of_stage (h : recorded part db = 2) (hstage : stage db part = 2) :
    finished part db = (Database.createVersions db).2 := by
  have hrow : (db.versions.getD .empty).find? part.name = some 2 := by
    cases hf : (db.versions.getD .empty).find? part.name with
    | none => simp [recorded, hf] at h
    | some n =>
      rw [recorded, hf, Option.getD_some] at h
      rw [h]
  have hput := Table.put_eq_self hrow
  obtain ⟨versions, clients, nonces, index⟩ := db
  cases part with
  | clients =>
    rcases clients with _ | ⟨_ | _, rows⟩
    · cases hstage
    · cases hstage
    · simp only [finished, Database.createVersions, hput, Option.getD_some]
  | nonces =>
    rcases nonces with _ | rows
    · cases hstage
    · cases index with
      | false => cases hstage
      | true => simp only [finished, Database.createVersions, hput, Option.getD_some]

/-- Wherever it stood, a part is brought in. -/
theorem prepare_inStep (h : recorded part db = stage db part) :
    prepare part db = (.ok 2, finished part db) := by
  by_cases hlt : stage db part < 2
  · rw [prepare_eq h hlt]
    obtain ⟨versions, clients, nonces, index⟩ := db
    cases part with
    | clients =>
      rcases clients with _ | ⟨_ | _, rows⟩
      · rfl
      · rfl
      · exact absurd hlt (by simp [stage])
    | nonces =>
      rcases nonces with _ | rows
      · rfl
      · cases index with
        | false => rfl
        | true => exact absurd hlt (by simp [stage])
  · have hle := stage_le db part
    have hstage : stage db part = 2 := by omega
    have hrecorded : recorded part db = 2 := by rw [h, hstage]; rfl
    rw [prepare_recorded hrecorded, finished_of_stage hrecorded hstage]

theorem recorded_finished (part other : Part) (db : Database) :
    recorded other (finished part db) = if other = part then 2 else recorded other db := by
  have hversions : (finished part db).versions =
      some ((db.versions.getD .empty).put part.name 2) := by
    cases part <;> rfl
  rw [recorded, hversions, Option.getD_some]
  split
  · next he =>
    subst he
    rw [Table.find?_put_self]
    rfl
  · next hne =>
    have hname : other.name ≠ part.name := by
      cases part <;> cases other <;> first | exact absurd rfl hne | decide
    rw [Table.find?_put_other _ _ hname]
    rfl

theorem stage_finished (part other : Part) (db : Database) :
    stage (finished part db) other = if other = part then 2 else stage db other := by
  cases part <;> cases other <;> rfl

theorem InStep.finished (h : InStep db) (part : Part) : InStep (finished part db) := by
  intro other
  rw [recorded_finished, stage_finished, h other]
  split <;> rfl

/-- The clients in a database, which has none without a table of them. -/
def clientRecords (db : Database) : Table String ClientRow :=
  (db.clients.map ClientRows.rows).getD .empty

def nonceRecords (db : Database) : Table (String × String) Int :=
  db.nonces.getD .empty

theorem records_finished (part : Part) (db : Database) :
    clientRecords (finished part db) = clientRecords db ∧
      nonceRecords (finished part db) = nonceRecords db := by
  cases part with
  | clients =>
    refine ⟨?_, rfl⟩
    cases hc : db.clients <;> simp [clientRecords, finished, hc]
  | nonces => exact ⟨rfl, rfl⟩

/-- The databases have the same tables with the same columns, and record the same versions. -/
structure Alike (db db' : Database) : Prop where
  versions : db'.versions = db.versions
  clients : db'.clients.map ClientRows.hasClaims = db.clients.map ClientRows.hasClaims
  nonces : db'.nonces.isSome = db.nonces.isSome
  nonceIndex : db'.nonceIndex = db.nonceIndex

theorem Alike.refl (db : Database) : Alike db db := ⟨rfl, rfl, rfl, rfl⟩

theorem Alike.recorded_eq (h : Alike db db') (part : Part) : recorded part db' = recorded part db := by
  rw [recorded, recorded, h.versions]

theorem Alike.stage_eq (h : Alike db db') (part : Part) : stage db' part = stage db part := by
  obtain ⟨-, hclients, hnonces, hindex⟩ := h
  cases part with
  | clients =>
    have heq := congrArg (fun o : Option Bool => (o.map (fun b => if b then 2 else 1)).getD 0) hclients
    rw [Option.map_map, Option.map_map] at heq
    exact heq
  | nonces =>
    rw [stage, stage, hindex]
    cases hn : db.nonces <;> cases hn' : db'.nonces <;> simp_all

theorem InStep.alike (h : InStep db) (ha : Alike db db') : InStep db' := fun part => by
  rw [ha.recorded_eq, ha.stage_eq, h part]

end Schema

namespace Database

theorem putClient_alike (id : String) (row : ClientRow) (db : Database) :
    Schema.Alike db (putClient id row db).2 := by
  rw [putClient, clientRows]
  rcases hc : db.clients with _ | ⟨_ | _, rows⟩
  · exact .refl db
  · exact .refl db
  · exact ⟨rfl, by rw [hc]; rfl, rfl, rfl⟩

theorem putNonce_alike (key : String × String) (second : Int) (db : Database) :
    Schema.Alike db (putNonce key second db).2 := by
  rw [putNonce, nonceRows]
  cases hn : db.nonces with
  | none => exact .refl db
  | some rows => exact ⟨rfl, rfl, by rw [hn]; rfl, rfl⟩

theorem deleteNonces_alike (second : Int) (db : Database) :
    Schema.Alike db (deleteNonces second db).2 := by
  rw [deleteNonces, nonceRows]
  cases hn : db.nonces with
  | none => exact .refl db
  | some rows => exact ⟨rfl, rfl, by rw [hn]; rfl, rfl⟩

end Database

namespace Archive

theorem putUnlessLive_alike (n : Nonce) (now : Instant) (db : Database) :
    Schema.Alike db (putUnlessLive n now db).2 := by
  rw [putUnlessLive]
  split
  · exact .refl db
  · exact .refl db
  · exact Database.putNonce_alike _ _ db

variable {κ : Type}

/-- What is done to a database through its stores. -/
inductive Operation (κ : Type) where
  | prepare (part : Schema.Part)
  | register (c : Client κ)
  | nonce (call : NonceCall)
  /-- The stores are opened anew, with another protector. -/
  | reopen (protector : Option Protector)

variable [SigningKey κ] [StorableKey κ] {s : Archive κ}

def perform (s : Archive κ) : Operation κ → Archive κ
  | .prepare part => (prepare part s).2
  | .register c => (ClientStore.register c s).2
  | .nonce call => (call.answer s).2
  | .reopen protector => { s with protector }

def performAll (s : Archive κ) (ops : List (Operation κ)) : Archive κ :=
  ops.foldl perform s

omit [SigningKey κ] [StorableKey κ] in
theorem answer_alike (s : Archive κ) (call : NonceCall) :
    Schema.Alike s.database (call.answer s).2.database := by
  cases call with
  | register n => exact Database.putNonce_alike _ _ _
  | tryRegister n now => exact putUnlessLive_alike _ _ _
  | find client value => exact .refl _
  | purge now => exact Database.deleteNonces_alike _ _
  | size => exact .refl _

theorem register_alike (c : Client κ) (s : Archive κ) :
    Schema.Alike s.database (ClientStore.register c s).2.database := by
  rw [register_eq]
  cases storeClient s.protector c with
  | error d => exact .refl _
  | ok row => exact Database.putClient_alike _ _ _

theorem perform_cases (h : Schema.InStep s.database) (op : Operation κ) :
    (∃ part, op = .prepare part ∧ (s.perform op).database = Schema.finished part s.database) ∨
      Schema.Alike s.database (s.perform op).database := by
  cases op with
  | prepare part => exact Or.inl ⟨part, rfl, congrArg Prod.snd (Schema.prepare_inStep (h part))⟩
  | register c => exact Or.inr (register_alike c s)
  | nonce call => exact Or.inr (answer_alike s call)
  | reopen protector => exact Or.inr (.refl _)

theorem inStep_perform (h : Schema.InStep s.database) (op : Operation κ) :
    Schema.InStep (s.perform op).database := by
  rcases perform_cases h op with ⟨part, -, hdb⟩ | ha
  · rw [hdb]
    exact h.finished part
  · exact h.alike ha

theorem inStep_performAll (h : Schema.InStep s.database) (ops : List (Operation κ)) :
    Schema.InStep (s.performAll ops).database := by
  induction ops generalizing s with
  | nil => exact h
  | cons op ops ih => exact ih (inStep_perform h op)

/-- A part that was brought in stays so. -/
theorem recorded_performAll {part : Schema.Part} (h : Schema.InStep s.database)
    (h2 : Schema.recorded part s.database = 2) (ops : List (Operation κ)) :
    Schema.recorded part (s.performAll ops).database = 2 := by
  induction ops generalizing s with
  | nil => exact h2
  | cons op ops ih =>
    refine ih (inStep_perform h op) ?_
    rcases perform_cases h op with ⟨other, -, hdb⟩ | ha
    · rw [hdb, Schema.recorded_finished, h2, ite_self]
    · rw [ha.recorded_eq, h2]

/-- In a new database, and in any other one whose versions are those of its tables, every preparation
succeeds, at whatever place among the registrations and the preparations of either part. From the
first one on the recorded version is the last one; the records of clients and of nonces are as they
were, and so is the version of the other part. -/
theorem preparations_independent :
    Schema.InStep .empty ∧
    ∀ {s : Archive κ}, Schema.InStep s.database →
      ∀ (before later : List (Operation κ)) (part : Schema.Part),
        (prepare part (s.performAll before)).1 = .ok () ∧
        Schema.recorded part ((s.performAll before).perform (.prepare part)).database = 2 ∧
        Schema.recorded part (s.performAll (before ++ .prepare part :: later)).database = 2 ∧
        Schema.clientRecords ((s.performAll before).perform (.prepare part)).database =
          Schema.clientRecords (s.performAll before).database ∧
        Schema.nonceRecords ((s.performAll before).perform (.prepare part)).database =
          Schema.nonceRecords (s.performAll before).database ∧
        ∀ other, other ≠ part →
          Schema.recorded other ((s.performAll before).perform (.prepare part)).database =
            Schema.recorded other (s.performAll before).database := by
  refine ⟨Schema.inStep_empty, fun {s} h before later part => ?_⟩
  have hbefore := inStep_performAll h before
  have hprepared := Schema.prepare_inStep (hbefore part)
  have hdb : ((s.performAll before).perform (.prepare part)).database =
      Schema.finished part (s.performAll before).database := congrArg Prod.snd hprepared
  have hrecorded : Schema.recorded part ((s.performAll before).perform (.prepare part)).database =
      2 := by
    rw [hdb, Schema.recorded_finished, if_pos rfl]
  obtain ⟨hclients, hnonces⟩ := Schema.records_finished part (s.performAll before).database
  refine ⟨?_, hrecorded, ?_, ?_, ?_, fun other hother => ?_⟩
  · rw [prepare, hprepared]
    rfl
  · rw [performAll, List.foldl_append]
    exact recorded_performAll (inStep_perform hbefore _) hrecorded later
  · rw [hdb, hclients]
  · rw [hdb, hnonces]
  · rw [hdb, Schema.recorded_finished, if_neg hother]

end Archive

namespace Sample

open Archive (prepare)

def earlyRow : ClientRow :=
  ⟨"Client", "HMAC", "sha256", "c2VjcmV0", false, 60000, 300000, 0, "[]"⟩

/-- A database from the time before clients had claims, with a client and without a table of
nonces. -/
def early : Archive Key :=
  ⟨⟨some (Table.empty.put "clients" 1), some ⟨false, Table.empty.put "client1" earlyRow⟩, none,
    false⟩, none⟩

theorem early_prepared :
    Schema.InStep early.database ∧
    (prepare .clients early).1 = .ok () ∧
    Schema.clientRecords (early.perform (.prepare .clients)).database =
      Table.empty.put "client1" earlyRow ∧
    Schema.recorded .nonces (early.perform (.prepare .clients)).database = 0 ∧
    Schema.recorded .clients (early.performAll [.prepare .clients, .prepare .nonces,
      .nonce (.register ⟨"client1", "n1", second 1300⟩), .register client, .prepare .nonces,
      .prepare .clients]).database = 2 := by
  have hstep : Schema.InStep early.database := fun part => by cases part <;> rfl
  obtain ⟨-, hall⟩ := @Archive.preparations_independent Key _ _
  obtain ⟨hok, -, hstays, hrecords, -, hother⟩ := hall hstep [] [.prepare .nonces,
    .nonce (.register ⟨"client1", "n1", second 1300⟩), .register client, .prepare .nonces,
    .prepare .clients] .clients
  exact ⟨hstep, hok, hrecords, hother .nonces (by decide), hstays⟩

end Sample

end SignedHttp
