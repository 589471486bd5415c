import SignedHttp.Fault

namespace SignedHttp

/-- A step on data of type `σ`. A step that fails gives the data as it leaves them. -/
structure Migration (σ ε : Type) where
  version : Nat
  title : String
  apply : σ → Except ε Unit × σ

/-- Where the number of the last step is kept. Nothing is kept under zero. -/
structure VersionRecord (σ ε : Type) where
  read : σ → Except ε Nat × σ
  write : Nat → σ → Except ε Unit × σ

namespace Migration

variable {σ ε : Type}

inductive Defect (ε : Type) where
  | versionZero (title : String)
  | duplicateVersion (version : Nat)
  | failed (e : ε)
  deriving DecidableEq

instance [Reportable ε] : Reportable (Defect ε) where
  fault
    | .versionZero title => ⟨.validation, s!"migration '{title}' has version 0"⟩
    | .duplicateVersion version => ⟨.validation, s!"duplicate migration version {version}"⟩
    | .failed e => Reportable.fault e

def defectAfter? (seen : List Nat) : List (Migration σ ε) → Option (Defect ε)
  | [] => none
  | m :: ms =>
    if m.version = 0 then some (.versionZero m.title)
    else if seen.contains m.version then some (.duplicateVersion m.version)
    else defectAfter? (m.version :: seen) ms

def defect? (ms : List (Migration σ ε)) : Option (Defect ε) :=
  defectAfter? [] ms

def latest (ms : List (Migration σ ε)) : Nat :=
  (ms.map Migration.version).foldl max 0

/-- The steps after a version, in ascending order. -/
def pending (current : Nat) (ms : List (Migration σ ε)) : List (Migration σ ε) :=
  (ms.filter (fun m => current < m.version)).mergeSort (fun m n => m.version ≤ n.version)

def applyAll : List (Migration σ ε) → σ → Except ε Unit × σ
  | [], s => (.ok (), s)
  | m :: ms, s =>
    match m.apply s with
    | (.ok (), s) => applyAll ms s
    | (.error e, s) => (.error e, s)

def advance (record : VersionRecord σ ε) (ms : List (Migration σ ε)) (s : σ) :
    Except ε Nat × σ :=
  match applyAll ms s with
  | (.error e, s) => (.error e, s)
  | (.ok (), s) =>
    match record.write (latest ms) s with
    | (.error e, s) => (.error e, s)
    | (.ok (), s) => (.ok (latest ms), s)

/-- Makes the steps that are pending and gives the version reached. Data of the latest version or
a later one stay as they are. -/
def run (record : VersionRecord σ ε) (ms : List (Migration σ ε)) (s : σ) :
    Except (Defect ε) Nat × σ :=
  match defect? ms with
  | some d => (.error d, s)
  | none =>
    match record.read s with
    | (.error e, s) => (.error (.failed e), s)
    | (.ok current, s) =>
      if (pending current ms).isEmpty then (.ok current, s)
      else
        let (result, s) := advance record (pending current ms) s
        (result.mapError .failed, s)

end Migration

end SignedHttp
