import SignedHttp.Migration
import SignedHttp.Store.Database

namespace SignedHttp.Schema

inductive Part where
  | clients
  | nonces
  deriving DecidableEq, Repr

def Part.name : Part → String
  | .clients => "clients"
  | .nonces => "nonces"

def Part.migrations : Part → List (Migration Database Database.Defect)
  | .clients =>
    [⟨1, "create clients table", Database.createClients⟩,
      ⟨2, "add client claims", Database.addClaims⟩]
  | .nonces =>
    [⟨1, "create nonces table", Database.createNonces⟩,
      ⟨2, "index nonce expiration", Database.indexNonces⟩]

/-- The version of a part, in a table that is created when it is first needed. -/
def record (part : Part) : VersionRecord Database Database.Defect where
  read db :=
    let db := (Database.createVersions db).2
    (db.version part.name, db)
  write n := Database.putVersion part.name n

def prepare (part : Part) (db : Database) :
    Except (Migration.Defect Database.Defect) Nat × Database :=
  Migration.run (record part) part.migrations db

end SignedHttp.Schema
