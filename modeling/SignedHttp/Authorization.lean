import SignedHttp.Request
import SignedHttp.Signature
import SignedHttp.Text.Decimal

namespace SignedHttp

namespace Authorization

def defaultScheme : String := "Signature"

inductive Parameter where
  | keyId
  | algorithm
  | created
  | expires
  | headers
  | nonce
  | signature
  deriving DecidableEq, Repr

def Parameter.all : List Parameter :=
  [keyId, algorithm, created, expires, headers, nonce, signature]

def Parameter.name : Parameter → String
  | keyId => "keyId"
  | algorithm => "algorithm"
  | created => "created"
  | expires => "expires"
  | headers => "headers"
  | nonce => "nonce"
  | signature => "signature"

def Parameter.ofName? (name : String) : Option Parameter :=
  Parameter.all.find? (fun p => p.name == name)

inductive Defect where
  | missing
  | noParameters
  | scheme (given expected : String)
  | malformed (part : String)
  | duplicate (p : Parameter)
  | headerName (d : HeaderName.Defect)
  | incomplete (d : Signature.Defect)
  deriving DecidableEq, Repr

def Defect.text : Defect → String
  | .missing => "the request has no Authorization header"
  | .noParameters => "the Authorization header has no parameters"
  | .scheme given expected =>
    s!"unsupported authorization scheme '{given}', expected '{expected}'"
  | .malformed part => s!"malformed signature parameter '{part}'"
  | .duplicate p => s!"duplicate signature parameter '{p.name}'"
  | .headerName d => s!"invalid headers parameter: {(Reportable.fault d).message}"
  | .incomplete d => (Reportable.fault d).message

instance : Reportable Defect where
  fault d := ⟨.invalidSignature, d.text⟩

def quoted (p : Parameter) (value : String) : String :=
  p.name ++ "=\"" ++ value ++ "\""

def plain (p : Parameter) (value : Int) : String :=
  p.name ++ "=" ++ Text.signedDecimal value

def nonEmpty (s : Option String) : Option String :=
  s.filter (fun t => !t.isEmpty)

def joinNames (names : List HeaderName) : String :=
  String.ofList (List.intercalate [' '] (names.map (fun h => h.text.toList)))

/-- The parameters that a signature is written with. Times lose their part of a second. -/
def parts (s : Signature) : List String :=
  [some (quoted .keyId s.keyId),
    (nonEmpty s.algorithm).map (quoted .algorithm),
    s.created.map (fun t => plain .created t.seconds),
    s.expires.map (fun t => plain .expires t.seconds),
    (s.headers.filter (fun hs => !hs.isEmpty)).map (fun hs => quoted .headers (joinNames hs)),
    (nonEmpty s.nonce).map (quoted .nonce),
    some (quoted .signature s.value)].filterMap id

def joinParts (parts : List String) : String :=
  String.ofList (List.intercalate [','] (parts.map String.toList))

def write (s : Signature) : String :=
  joinParts (parts s)

/-- The parts between the commas that stand outside quotes; `inQuotes` at the start. -/
def splitParts (inQuotes : Bool) : List Char → List (List Char)
  | [] => [[]]
  | c :: cs =>
    if c == ',' && !inQuotes then [] :: splitParts false cs
    else
      match splitParts (if c == '"' then !inQuotes else inQuotes) cs with
      | [] => [[c]]
      | part :: parts => (c :: part) :: parts

def unquoted (cs : List Char) : List Char :=
  match cs with
  | '"' :: rest => if rest.getLast? == some '"' then rest.dropLast else cs
  | _ => cs

/-- A parameter as it was read. -/
inductive Entry where
  | text (p : Parameter) (value : String)
  | time (p : Parameter) (value : Option Instant)
  | names (value : List HeaderName)
  deriving DecidableEq

def Entry.parameter : Entry → Parameter
  | .text p _ => p
  | .time p _ => p
  | .names _ => .headers

/-- Whole seconds of the calendar; any other text is no time. -/
def readTime (value : String) : Option Instant :=
  (Text.int64? value).bind Instant.ofSeconds?

def readNames (value : String) : Except HeaderName.Defect (List HeaderName) :=
  (Text.words value.toList).mapM (fun w => HeaderName.ofText (String.ofList w))

def readEntry (p : Parameter) (value : String) : Except Defect Entry :=
  match p with
  | .created => .ok (.time p (readTime value))
  | .expires => .ok (.time p (readTime value))
  | .headers =>
    match readNames value with
    | .ok names => .ok (.names names)
    | .error d => .error (.headerName d)
  | _ => .ok (.text p value)

/-- Reads one more part. Blank parts and unknown parameters say nothing; a known parameter must
not occur twice. -/
def addPart (entries : List Entry) (part : List Char) : Except Defect (List Entry) :=
  let part := Text.trim part
  if part.isEmpty then .ok entries
  else
    match Text.splitFirst '=' part with
    | none => .error (.malformed (String.ofList part))
    | some (key, value) =>
      match Parameter.ofName? (String.ofList (Text.trim key)) with
      | none => .ok entries
      | some p =>
        if entries.any (fun e => e.parameter == p) then .error (.duplicate p)
        else do
          let e ← readEntry p (String.ofList (unquoted (Text.trim value)))
          return entries ++ [e]

def textOf? (entries : List Entry) (p : Parameter) : Option String :=
  entries.findSome? (fun | .text q value => if q = p then some value else none | _ => none)

def timeOf? (entries : List Entry) (p : Parameter) : Option Instant :=
  entries.findSome? (fun | .time q value => if q = p then value else none | _ => none)

def namesOf? (entries : List Entry) : Option (List HeaderName) :=
  entries.findSome? (fun | .names value => some value | _ => none)

def signatureOf (entries : List Entry) : Signature where
  keyId := (textOf? entries .keyId).getD ""
  algorithm := nonEmpty (textOf? entries .algorithm)
  created := timeOf? entries .created
  expires := timeOf? entries .expires
  headers := namesOf? entries
  nonce := nonEmpty (textOf? entries .nonce)
  value := (textOf? entries .signature).getD ""

def readParameters (params : List Char) : Except Defect Signature := do
  let entries ← (splitParts false params).foldlM addPart []
  let s := signatureOf entries
  match s.defect? with
  | some d => throw (.incomplete d)
  | none => return s

def read (scheme header : String) : Except Defect Signature :=
  match Text.splitFirst ' ' (Text.trim header.toList) with
  | none => .error .noParameters
  | some (given, params) =>
    if given != scheme.toList then .error (.scheme (String.ofList given) scheme)
    else if (Text.trim params).isEmpty then .error .noParameters
    else readParameters (Text.trim params)

def ofRequest (scheme : String) (r : Request) : Except Defect Signature :=
  match r.header? "authorization" with
  | some header => read scheme header
  | none => .error .missing

end Authorization

end SignedHttp
