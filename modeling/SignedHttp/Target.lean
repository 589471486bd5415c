import SignedHttp.Fault
import SignedHttp.Text.Ascii
import SignedHttp.Text.Blank
import SignedHttp.Text.Decimal
import SignedHttp.Text.Percent

namespace SignedHttp

inductive Escaping where
  | rfc3986
  | rfc2396
  | unescaped
  | verbatim
  deriving DecidableEq, Repr

namespace Escaping

def name : Escaping → String
  | rfc3986 => "RFC3986"
  | rfc2396 => "RFC2396"
  | unescaped => "Unescaped"
  | verbatim => "OriginalString"

def ordinal : Escaping → Int
  | rfc3986 => 0
  | rfc2396 => 1
  | unescaped => 2
  | verbatim => 3

inductive Defect where
  | unknownName (given : String)
  | unknownOrdinal (given : Int)
  /-- A writer of one kind was asked for another one. -/
  | mismatch (writer asked : Escaping)
  deriving DecidableEq, Repr

instance : Reportable Defect where
  fault
    | .unknownName given => ⟨.outOfRange, s!"unknown request target escaping '{given}'"⟩
    | .unknownOrdinal given =>
      ⟨.outOfRange, s!"request target escaping ordinal {Text.signedDecimal given}"⟩
    | .mismatch writer asked =>
      ⟨.invalidArgument, s!"{writer.name} escaper cannot apply {asked.name} escaping"⟩

def ofName (given : String) : Except Defect Escaping :=
  match String.ofList (Text.lower (Text.trim given.toList)) with
  | "rfc3986" => .ok rfc3986
  | "rfc2396" => .ok rfc2396
  | "unescaped" => .ok unescaped
  | "originalstring" => .ok verbatim
  | _ => .error (.unknownName given)

def ofOrdinal (n : Int) : Except Defect Escaping :=
  match n with
  | 0 => .ok rfc3986
  | 1 => .ok rfc2396
  | 2 => .ok unescaped
  | 3 => .ok verbatim
  | _ => .error (.unknownOrdinal n)

end Escaping

namespace Target

def schemeMark : List Char := "://".toList

def cutScheme? : List Char → Option (List Char × List Char)
  | [] => none
  | c :: cs =>
    if schemeMark.isPrefixOf (c :: cs) then some ([], (c :: cs).drop schemeMark.length)
    else (cutScheme? cs).map (fun (before, after) => (c :: before, after))

def isScheme : List Char → Bool
  | [] => false
  | c :: cs => c.isAlpha && cs.all (fun d => d.isAlphanum || d == '+' || d == '-' || d == '.')

def relativePart (uri : List Char) : List Char :=
  let whole := uri.takeWhile (· != '#')
  match cutScheme? whole with
  | some (scheme, rest) =>
    if isScheme scheme then rest.dropWhile (fun c => c != '/' && c != '?') else whole
  | none => whole

/-- The path and the query of an address. A path starts with a slash unless it is `*`. -/
def pathAndQuery (uri : List Char) : List Char :=
  match relativePart uri with
  | ['*'] => ['*']
  | '/' :: rest => '/' :: rest
  | relative => '/' :: relative

end Target

/-- A target with all escapes decoded: path segments, and query pairs of which some have no
value. -/
inductive Target where
  | asterisk
  | resource (segments : List (List Char)) (query : Option (List (List Char × Option (List Char))))
  deriving DecidableEq

namespace Target

def readPair (pair : List Char) : List Char × Option (List Char) :=
  match Text.splitFirst '=' pair with
  | some (key, value) => (Text.Percent.decode key, some (Text.Percent.decode value))
  | none => (Text.Percent.decode pair, none)

def readPath (path : List Char) : List (List Char) :=
  (List.splitOn '/' path).map Text.Percent.decode

def readQuery (query : List Char) : List (List Char × Option (List Char)) :=
  (List.splitOn '&' query).map readPair

def read (target : List Char) : Target :=
  if target == ['*'] then asterisk
  else
    match Text.splitFirst '?' target with
    | some (path, query) => resource (readPath path) (some (readQuery query))
    | none => resource (readPath target) none

def ofUri (uri : String) : Target :=
  read (pathAndQuery uri.toList)

def writePair (keep : Char → Bool) : List Char × Option (List Char) → List Char
  | (key, some value) =>
    Text.Percent.encode keep key ++ '=' :: Text.Percent.encode keep value
  | (key, none) => Text.Percent.encode keep key

/-- Writes a target; `inPath` and `inQuery` hold of the characters that stay unescaped. -/
def write (inPath inQuery : Char → Bool) : Target → List Char
  | asterisk => ['*']
  | resource segments query =>
    List.intercalate ['/'] (segments.map (Text.Percent.encode inPath)) ++
      match query with
      | some pairs => '?' :: List.intercalate ['&'] (pairs.map (writePair inQuery))
      | none => []

/-- The characters that RFC 3986 calls unreserved. -/
def isUnreserved (c : Char) : Bool :=
  c.isAlphanum || "-._~".toList.contains c

/-- The characters that RFC 2396 allows within a path segment. -/
def isSegmentChar (c : Char) : Bool :=
  c.isAlphanum || "-_.!~*'();:@&=+$,".toList.contains c

/-- The characters that RFC 2396 allows within a query key or value. -/
def isQueryChar (c : Char) : Bool :=
  (isSegmentChar c && c != '&' && c != '=') || c == '/' || c == '?'

end Target

namespace Escaping

/-- The target of an address in the form that is signed. -/
def apply (e : Escaping) (uri : String) : String :=
  String.ofList <|
    match e with
    | rfc3986 => (Target.ofUri uri).write Target.isUnreserved Target.isUnreserved
    | rfc2396 => (Target.ofUri uri).write Target.isSegmentChar Target.isQueryChar
    | unescaped => Text.Percent.decode (Target.pathAndQuery uri.toList)
    | verbatim => Target.pathAndQuery uri.toList

/-- Applies a way of escaping with a writer that knows one way only. -/
def applyWith (writer asked : Escaping) (uri : String) : Except Defect String :=
  if writer = asked then .ok (asked.apply uri) else .error (.mismatch writer asked)

end Escaping

end SignedHttp
