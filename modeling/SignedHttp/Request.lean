import SignedHttp.Field

namespace SignedHttp

structure Method where
  text : String
  wellFormed : Text.isToken text.toList = true
  deriving DecidableEq

def Method.ofText? (s : String) : Option Method :=
  if h : Text.isToken s.toList = true then some ⟨s, h⟩ else none

/-- The address is kept as it was written, so that every way of escaping can be applied to it. -/
structure Request where
  method : Method
  uri : String
  fields : Fields
  body : Option Bytes
  deriving DecidableEq

namespace Request

def hasBody (r : Request) : Bool :=
  r.body.isSome

/-- The text of the first value of a field. -/
def header? (r : Request) (name : String) : Option String :=
  (r.fields.first? name).map FieldValue.text

def hasHeader (r : Request) (name : String) : Bool :=
  r.fields.has name

def headerValues (r : Request) (name : HeaderName) : List FieldValue :=
  r.fields.values name.text

def addHeader (r : Request) (name value : String) : Except Field.Defect Request := do
  let f ← Field.make name value
  return { r with fields := r.fields.add f }

def setHeader (r : Request) (name value : String) : Except Field.Defect Request := do
  let f ← Field.make name value
  return { r with fields := r.fields.set f }

end Request

end SignedHttp
