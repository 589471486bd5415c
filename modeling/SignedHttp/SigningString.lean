import SignedHttp.Request
import SignedHttp.Target
import SignedHttp.Time.HttpDate

namespace SignedHttp

/-- What a signing string is made of, besides the request. -/
structure Composition where
  headers : List HeaderName
  escaping : Escaping
  time : Option Instant
  /-- The nanoseconds from `time` to the time written for `(expires)`. -/
  offset : Option Int
  nonce : Option String
  deriving DecidableEq

structure Line where
  name : String
  value : String
  deriving DecidableEq, Repr

def Line.text (l : Line) : String :=
  l.name ++ ": " ++ l.value

namespace SigningString

inductive Defect where
  | missingHeader (h : HeaderName)
  | emptyName
  | overflow
  deriving DecidableEq

instance : Reportable Defect where
  fault
    | .missingHeader h =>
      ⟨.signing, s!"header '{h.text}' is required for signing but is missing from the request"⟩
    | .emptyName => ⟨.validation, "the empty header name cannot be composed"⟩
    | .overflow => ⟨.outOfRange, "expiration time overflows"⟩

inductive Source where
  | field
  | requestTarget
  | created
  | expires
  | date
  | digest
  deriving DecidableEq, Repr

def Source.all : List Source := [field, requestTarget, created, expires, date, digest]

/-- What a source is called; the first one is that of all names but five. -/
def Source.name : Source → String
  | field => "default"
  | requestTarget => "request-target"
  | created => "created"
  | expires => "expires"
  | date => "date"
  | digest => "digest"

def Source.of (h : HeaderName) : Source :=
  if h = .requestTarget then .requestTarget
  else if h = .created then .created
  else if h = .expires then .expires
  else if h = .date then .date
  else if h = .digest then .digest
  else .field

/-- The values of a field in one line. A value holds no line break, so nothing but the white
space around it is left out. -/
def fieldValue? (r : Request) (h : HeaderName) : Option String :=
  match r.headerValues h with
  | [] => none
  | values =>
    some (String.ofList (List.intercalate [',', ' '] (values.map (fun v => v.trimmed.toList))))

def targetValue (r : Request) (e : Escaping) : String :=
  Text.lowered r.method.text ++ " " ++ e.apply r.uri

/-- The date of a request in its written form, if it has one that can be read. -/
def dateValue? (r : Request) (h : HeaderName) : Option String :=
  ((r.header? h.text).bind HttpDate.read?).map HttpDate.write

def expiresValue? (c : Composition) : Except Defect (Option String) :=
  match c.time, c.offset with
  | some time, some offset =>
    match time.shift? offset with
    | some t => .ok (some (Text.signedDecimal t.seconds))
    | none => .error .overflow
  | _, _ => .ok none

def Source.value? (r : Request) (c : Composition) (h : HeaderName) :
    Source → Except Defect (Option String)
  | .field =>
    match fieldValue? r h with
    | some value => .ok (some value)
    | none => .error (.missingHeader h)
  | .requestTarget => .ok (some (targetValue r c.escaping))
  | .created => .ok (c.time.map (fun t => Text.signedDecimal t.seconds))
  | .expires => expiresValue? c
  | .date => .ok (dateValue? r h)
  | .digest => .ok ((r.fields.first? h.text).map FieldValue.trimmed)

def line? (r : Request) (c : Composition) (h : HeaderName) : Except Defect (Option Line) :=
  if h.isEmpty then .error .emptyName
  else ((Source.of h).value? r c h).map (fun value => value.map (Line.mk h.text))

/-- The line of the nonce, an empty nonce counting as none. -/
def nonceLine? (c : Composition) : Option Line :=
  (c.nonce.filter (fun n => !n.isEmpty)).map (Line.mk "nonce")

def headerLines (r : Request) (c : Composition) : Except Defect (List Line) := do
  let lines ← (c.headers.filter (fun h => !h.isEmpty)).mapM (line? r c)
  return lines.filterMap id

def lines (r : Request) (c : Composition) : Except Defect (List Line) := do
  return (← headerLines r c) ++ (nonceLine? c).toList

def joinLines (lines : List Line) : String :=
  String.ofList (List.intercalate ['\n'] (lines.map (fun l => l.text.toList)))

end SigningString

/-- The text that is signed for a request. -/
def signingString (r : Request) (c : Composition) : Except SigningString.Defect String :=
  (SigningString.lines r c).map SigningString.joinLines

end SignedHttp
