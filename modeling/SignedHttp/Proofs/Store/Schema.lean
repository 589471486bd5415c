import SignedHttp.Store.Archive

namespace SignedHttp

namespace Schema

theorem pending_zero (part : Part) : Migration.pending 0 part.migrations = part.migrations := by
  have hsorted : (part.migrations.filter (fun m => 0 < m.version)).mergeSort
      (fun m n => m.version ≤ n.version) = part.migrations.filter (fun m => 0 < m.version) := by
    refine List.mergeSort_of_pairwise ?_
    cases part <;> simp [Part.migrations]
  rw [Migration.pending, hsorted]
  cases part <;> rfl

theorem prepare_new (part : Part) {db : Database}
    (h : (Database.createVersions db).2.version part.name = .ok 0) :
    (prepare part db).2 =
      (Migration.advance (record part) part.migrations (Database.createVersions db).2).2 := by
  have hsound : Migration.defect? part.migrations = none := by
    cases part <;> rfl
  have hsome : part.migrations.isEmpty = false := by
    cases part <;> rfl
  have hread : (record part).read db = (.ok 0, (Database.createVersions db).2) :=
    congrArg (fun version => (version, (Database.createVersions db).2)) h
  simp [prepare, Migration.run, hsound, hread, pending_zero, hsome]

theorem prepare_empty :
    (prepare .nonces (prepare .clients .empty).2).2 =
      ⟨some ((Table.empty.put "clients" 2).put "nonces" 2), some ⟨true, .empty⟩, some .empty,
        true⟩ := by
  rw [prepare_new .clients rfl, prepare_new .nonces rfl]
  rfl

end Schema

def Archive.fresh {κ : Type} (p : Option Protector) : Archive κ :=
  (prepare .nonces (prepare .clients ⟨.empty, p⟩).2).2

theorem Archive.fresh_eq {κ : Type} (p : Option Protector) :
    (fresh p : Archive κ) =
      ⟨⟨some ((Table.empty.put "clients" 2).put "nonces" 2), some ⟨true, .empty⟩, some .empty,
        true⟩, p⟩ :=
  congrArg (fun db => (⟨db, p⟩ : Archive κ)) Schema.prepare_empty

namespace Archive

variable {κ : Type} {s : Archive κ}

/-- A new database in which these parts of the schema were prepared. -/
def New (parts : List Schema.Part) (s : Archive κ) : Prop :=
  ∃ p, s = parts.foldl (fun s part => (prepare part s).2) ⟨.empty, p⟩

theorem fresh_new (p : Option Protector) :
    (fresh p : Archive κ).New [.clients, .nonces] := ⟨p, rfl⟩

theorem New.clients (h : s.New [.clients]) : s.database.clients = some ⟨true, .empty⟩ := by
  obtain ⟨p, rfl⟩ := h
  change (Schema.prepare .clients .empty).2.clients = _
  rw [Schema.prepare_new .clients rfl]
  rfl

theorem New.nonces (h : s.New [.nonces]) : s.database.nonces = some .empty := by
  obtain ⟨p, rfl⟩ := h
  change (Schema.prepare .nonces .empty).2.nonces = _
  rw [Schema.prepare_new .nonces rfl]
  rfl

theorem New.both (h : s.New [.clients, .nonces]) :
    s.database.clients = some ⟨true, .empty⟩ ∧ s.database.nonces = some .empty := by
  obtain ⟨p, rfl⟩ := h
  change (fresh p : Archive κ).database.clients = _ ∧ (fresh p : Archive κ).database.nonces = _
  rw [fresh_eq]
  exact ⟨rfl, rfl⟩

end Archive

end SignedHttp
