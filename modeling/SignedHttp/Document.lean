import SignedHttp.Client
import SignedHttp.Rejection
import SignedHttp.Text.Json
import SignedHttp.Time.Timestamp

namespace SignedHttp.Document

/-- Brings a value into the form in which it is written, if it is one of the right kind. -/
abbrev Reader := Json → Option Json

def text? : Json → Option String
  | .string s => s
  | _ => none

def text : Reader := fun j => (text? j).map .text

def nullable (read : Reader) : Reader
  | .null => some .null
  | j => read j

def items (read : Reader) : Reader
  | .array js => (js.mapM read).map .array
  | _ => none

/-- The values of a member that occurs at most once. -/
def member? (members : List (Option String × Json)) (name : String) : Option (Option Json) :=
  match members.filter (fun m => m.1 = some name) with
  | [] => some none
  | [m] => some (some m.2)
  | _ => none

/-- The values of the named members, in that order, of an object whose keys all spell texts. An
array is taken for the list of all of them. -/
def members? (names : List String) : Json → Option (List (Option Json))
  | .object members =>
    if members.all (fun m => m.1.isSome) then names.mapM (member? members) else none
  | .array js => if js.length = names.length then some (js.map some) else none
  | _ => none

structure Member where
  name : String
  optional : Bool
  read : Reader

def Member.value? (m : Member) : Option Json → Option Json
  | some j => m.read j
  | none => if m.optional then some .null else none

def required (name : String) (read : Reader) : Member := ⟨name, false, read⟩

def optional (name : String) (read : Reader) : Member := ⟨name, true, nullable read⟩

def record (members : List Member) : Reader := fun j => do
  let found ← members? (members.map Member.name) j
  let values ← (members.zip found).mapM (fun (m, j) => m.value? j)
  return .record ((members.map Member.name).zip values)

def time : Reader := fun j => do
  let m ← Timestamp.read? (← text? j)
  return .text (Timestamp.write m)

def headerName : Reader := fun j => do
  match HeaderName.ofText (← text? j) with
  | .ok h => return .text h.text
  | .error _ => none

/-- The name of a code, or an object that holds nothing but `null` under it. -/
def code : Reader := fun j => do
  let name ←
    match j with
    | .object [(some name, .null)] => some name
    | j => text? j
  let c ← Failure.Code.ofText? name
  return .text c.text

def signature : Reader :=
  record [required "key_id" text, optional "algorithm" text, optional "created" time,
    optional "expires" time, optional "headers" (items headerName), optional "nonce" text,
    required "string" text]

def nonce : Reader :=
  record [required "client_id" text, required "value" text, required "expiration" time]

def claim : Reader :=
  record [required "type" text, required "value" text]

def failure : Reader :=
  record [required "code" code, required "message" text]

def principal : Reader :=
  record [required "claims" (items claim)]

def ofKind? (kind : String) : Option Reader :=
  match kind with
  | "signature" => some signature
  | "header_name" => some headerName
  | "key_id" => some text
  | "nonce" => some nonce
  | "claim" => some claim
  | "failure" => some failure
  | "failure_code" => some code
  | "principal" => some principal
  | _ => none

inductive Defect where
  | malformed
  deriving DecidableEq, Repr

instance : Reportable Defect where
  fault
    | .malformed => ⟨.storage, "serialization"⟩

def read (reader : Reader) (text : String) : Except Defect Json :=
  match (Json.read? text).bind reader with
  | some j => .ok j
  | none => .error .malformed

def ofFailure (f : Failure) : Json :=
  .record [("code", .text f.code.text), ("message", .text f.message)]

def ofClaim (c : Claim) : Json :=
  .record [("type", .text c.kind), ("value", .text c.value)]

def writeClaims (claims : List Claim) : String :=
  String.ofList (Json.array (claims.map ofClaim)).write

def claim? (j : Json) : Option Claim := do
  match ← members? ["type", "value"] j with
  | [some kind, some value] => return ⟨← text? kind, ← text? value⟩
  | _ => none

def claims? : Json → Option (List Claim)
  | .array js => js.mapM claim?
  | _ => none

def readClaims (text : String) : Except Defect (List Claim) :=
  match (Json.read? text).bind claims? with
  | some claims => .ok claims
  | none => .error .malformed

end SignedHttp.Document
