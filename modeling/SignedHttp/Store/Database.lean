import SignedHttp.Fault
import SignedHttp.Store.Table
import SignedHttp.Text.Decimal

namespace SignedHttp

/-- A stored client. Durations are in milliseconds. -/
structure ClientRow where
  name : String
  algorithm : String
  hash : String
  key : String
  guarded : Bool
  clockSkew : Int
  nonceLifetime : Int
  escaping : Int
  claims : String
  deriving DecidableEq, Repr

/-- The table of clients. Its column of claims was added later. -/
structure ClientRows where
  hasClaims : Bool
  rows : Table String ClientRow

structure Database where
  versions : Option (Table String Int)
  clients : Option ClientRows
  /-- The second at which each nonce expires, by client and value. -/
  nonces : Option (Table (String × String) Int)
  nonceIndex : Bool

namespace Database

inductive Defect where
  | noTable (name : String)
  | noColumn (name : String)
  | duplicateColumn (name : String)
  | versionRange (n : Int)
  deriving DecidableEq, Repr

instance : Reportable Defect where
  fault
    | .noTable name => ⟨.storage, s!"no such table: {name}"⟩
    | .noColumn name => ⟨.storage, s!"no such column: {name}"⟩
    | .duplicateColumn name => ⟨.storage, s!"duplicate column name: {name}"⟩
    | .versionRange n => ⟨.storage, s!"Integer {Text.signedDecimal n} out of range at index 0"⟩

def empty : Database := ⟨none, none, none, false⟩

/-- A statement gives the database afterwards, which is unchanged if it fails. -/
abbrev Statement (α : Type) : Type := Database → Except Defect α × Database

def createVersions : Statement Unit := fun db =>
  (.ok (), { db with versions := some (db.versions.getD .empty) })

def createClients : Statement Unit := fun db =>
  (.ok (), { db with clients := some (db.clients.getD ⟨false, .empty⟩) })

def addClaims : Statement Unit := fun db =>
  match db.clients with
  | none => (.error (.noTable "clients"), db)
  | some t =>
    if t.hasClaims then (.error (.duplicateColumn "claims"), db)
    else (.ok (), { db with clients := some ⟨true, t.rows⟩ })

def createNonces : Statement Unit := fun db =>
  (.ok (), { db with nonces := some (db.nonces.getD .empty) })

def indexNonces : Statement Unit := fun db =>
  match db.nonces with
  | none => (.error (.noTable "main.nonces"), db)
  | some _ => (.ok (), { db with nonceIndex := true })

def versionRows (db : Database) : Except Defect (Table String Int) :=
  match db.versions with
  | some t => .ok t
  | none => .error (.noTable "schema_versions")

/-- The version of a part of the schema, zero if none is recorded. -/
def version (part : String) (db : Database) : Except Defect Nat := do
  let n := ((← db.versionRows).find? part).getD 0
  if 0 ≤ n && n < 0x100000000 then return n.toNat else throw (.versionRange n)

def putVersion (part : String) (n : Int) : Statement Unit := fun db =>
  match db.versionRows with
  | .error d => (.error d, db)
  | .ok t => (.ok (), { db with versions := some (t.put part n) })

def clientRows (db : Database) : Except Defect (Table String ClientRow) :=
  match db.clients with
  | none => .error (.noTable "clients")
  | some t => if t.hasClaims then .ok t.rows else .error (.noColumn "claims")

def client? (id : String) (db : Database) : Except Defect (Option ClientRow) :=
  db.clientRows.map (fun t => t.find? id)

def putClient (id : String) (row : ClientRow) : Statement Unit := fun db =>
  match db.clientRows with
  | .error d => (.error d, db)
  | .ok t => (.ok (), { db with clients := some ⟨true, t.put id row⟩ })

def nonceRows (db : Database) : Except Defect (Table (String × String) Int) :=
  match db.nonces with
  | none => .error (.noTable "nonces")
  | some t => .ok t

def nonce? (key : String × String) (db : Database) : Except Defect (Option Int) :=
  db.nonceRows.map (fun t => t.find? key)

def putNonce (key : String × String) (second : Int) : Statement Unit := fun db =>
  match db.nonceRows with
  | .error d => (.error d, db)
  | .ok t => (.ok (), { db with nonces := some (t.put key second) })

/-- Removes the nonces that expire before a second, and counts them. -/
def deleteNonces (second : Int) : Statement Nat := fun db =>
  match db.nonceRows with
  | .error d => (.error d, db)
  | .ok t =>
    let kept := t.filter (fun row => second ≤ row.2)
    (.ok (t.size - kept.size), { db with nonces := some kept })

end Database

end SignedHttp
