import SignedHttp.Text.Blank
import SignedHttp.Text.Decimal

namespace SignedHttp.Text

/-- At most `most` digits at the front, and the rest. -/
def spanDigits : Nat → List Char → List Char × List Char
  | most + 1, c :: cs =>
    if c.isDigit then ((spanDigits most cs).map (c :: ·) id) else ([], c :: cs)
  | _, cs => ([], cs)

def scanNumber? (least most : Nat) (cs : List Char) : Option (Nat × List Char) :=
  let (ds, rest) := spanDigits most cs
  if ds.length < least then none else some (Nat.ofDigitChars 10 ds 0, rest)

def scanLongNumber? (least : Nat) (cs : List Char) : Option (Nat × List Char) :=
  scanNumber? least cs.length cs

def scanChar? (c : Char) : List Char → Option (List Char)
  | d :: rest => if c == d then some rest else none
  | [] => none

/-- The rest after at least one blank, and after all that follow it. -/
def scanBlanks? : List Char → Option (List Char)
  | c :: rest => if isBlank c then some (trimStart rest) else none
  | [] => none

/-- The place in `names` of the three letters at the front, in any case. -/
def scanName? (names : List String) (cs : List Char) : Option (Nat × List Char) :=
  match cs with
  | a :: b :: c :: rest =>
    (names.findIdx? (fun name => name.toList.map Char.toLower == [a, b, c].map Char.toLower)).map
      (fun i => (i, rest))
  | _ => none

end SignedHttp.Text
