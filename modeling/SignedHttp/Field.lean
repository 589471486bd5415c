import SignedHttp.HeaderName
import SignedHttp.Text.Utf8

namespace SignedHttp

structure FieldName where
  text : String
  wellFormed : Text.isLowerToken text.toList = true
  deriving DecidableEq

def isFieldByte (b : UInt8) : Bool :=
  (b ≥ 32 && b != 127) || b == 9

structure FieldValue where
  bytes : Bytes
  wellFormed : bytes.all isFieldByte = true
  deriving DecidableEq

abbrev Field := FieldName × FieldValue

abbrev Fields := List Field

inductive Field.Defect where
  | name (given : String)
  | value (name : FieldName)
  deriving DecidableEq

instance : Reportable Field.Defect where
  fault
    | .name given => ⟨.invalidArgument, s!"header name '{given}': invalid HTTP header name"⟩
    | .value name =>
      ⟨.invalidArgument, s!"header value for '{name.text}': failed to parse header value"⟩

namespace FieldName

/-- The longest name, in bytes. -/
def maxLength : Nat := 65535

def ofText (given : String) : Except Field.Defect FieldName :=
  let cs := Text.lower given.toList
  if h : Text.isLowerToken cs = true then
    if cs.length ≤ maxLength then .ok ⟨String.ofList cs, by simpa using h⟩
    else .error (.name given)
  else .error (.name given)

def headerName (f : FieldName) : HeaderName :=
  ⟨f.text, by simp [isHeaderText, f.wellFormed]⟩

end FieldName

namespace FieldValue

def ofBytes? (bs : Bytes) : Option FieldValue :=
  if h : bs.all isFieldByte = true then some ⟨bs, h⟩ else none

def text (v : FieldValue) : String :=
  Text.lossy v.bytes

def trimmed (v : FieldValue) : String :=
  Text.trimmed v.text

end FieldValue

def Field.make (name value : String) : Except Field.Defect Field := do
  let name ← FieldName.ofText name
  match FieldValue.ofBytes? (Text.bytes value) with
  | some value => return (name, value)
  | none => throw (.value name)

namespace Fields

def values (fs : Fields) (name : String) : List FieldValue :=
  fs.filterMap (fun f => if f.1.text == Text.lowered name then some f.2 else none)

def first? (fs : Fields) (name : String) : Option FieldValue :=
  (fs.values name).head?

def has (fs : Fields) (name : String) : Bool :=
  fs.any (fun f => f.1.text == Text.lowered name)

/-- The names that occur, in alphabetical order. -/
def names (fs : Fields) : List String :=
  ((fs.map (fun f => f.1.text)).eraseDups).mergeSort (· ≤ ·)

/-- One more value behind those that are there. -/
def add (fs : Fields) (f : Field) : Fields :=
  fs ++ [f]

/-- One value in place of all those that are there. -/
def set (fs : Fields) (f : Field) : Fields :=
  fs.filter (fun g => g.1.text != f.1.text) ++ [f]

def without (fs : Fields) (name : FieldName) : Fields :=
  fs.filter (fun g => g.1.text != name.text)

end Fields

end SignedHttp
