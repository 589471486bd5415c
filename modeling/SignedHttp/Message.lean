import SignedHttp.Request
import SignedHttp.Target

namespace SignedHttp.Message

/-- The characters that may stand before `://` in an address, in any order and number. -/
def isSchemeChar (c : Char) : Bool :=
  c.isAlphanum || "+-.~".toList.contains c

/-- The two schemes that are written in lower case however they are given. -/
def commonSchemes : List (List Char) := ["http".toList, "https".toList]

def schemeText (scheme : List Char) : List Char :=
  if commonSchemes.contains (Text.lower scheme) then Text.lower scheme else scheme

def locationText (location : List Char) : List Char :=
  let authority := location.takeWhile (fun c => c != '/' && c != '?')
  let path := location.dropWhile (fun c => c != '/' && c != '?')
  if path.head? == some '/' then location else authority ++ '/' :: path

/-- The text of an address after parsing: without a fragment, and with a path behind an
authority. -/
def addressText (uri : String) : String :=
  let whole := uri.toList.takeWhile (· != '#')
  String.ofList <|
    match Target.cutScheme? whole with
    | some (scheme, location) =>
      if scheme.all isSchemeChar then
        schemeText scheme ++ Target.schemeMark ++ locationText location
      else whole
    | none => whole

def toRequest (method : Method) (uri : String) (fields : Fields) (body : Bytes) : Request where
  method := method
  uri := addressText uri
  fields := fields
  body := if body.isEmpty then none else some body

end SignedHttp.Message
