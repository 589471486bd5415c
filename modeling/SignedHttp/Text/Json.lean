import SignedHttp.Text.Decimal
import SignedHttp.Text.Hex

namespace SignedHttp

inductive Json where
  | null
  | bool (b : Bool)
  | number (text : String)
  | string (text : Option String)
  | array (items : List Json)
  | object (members : List (Option String × Json))

namespace Json

def text (s : String) : Json := string (some s)

def record (members : List (String × Json)) : Json :=
  object (members.map (fun m => (some m.1, m.2)))

/-- The short escapes of control characters, and of the quote and the backslash. -/
def shortEscape? (c : Char) : Option Char :=
  match c with
  | '"' => some '"'
  | '\\' => some '\\'
  | '\n' => some 'n'
  | '\t' => some 't'
  | '\r' => some 'r'
  | '\x08' => some 'b'
  | '\x0c' => some 'f'
  | _ => none

def writeChar (c : Char) : List Char :=
  match shortEscape? c with
  | some d => ['\\', d]
  | none =>
    if c.toNat < 32 then
      ['\\', 'u', '0', '0', Nat.digitChar (c.toNat / 16), Nat.digitChar (c.toNat % 16)]
    else [c]

def writeString (cs : List Char) : List Char :=
  '"' :: cs.flatMap writeChar ++ ['"']

mutual

def write : Json → List Char
  | null => "null".toList
  | bool true => "true".toList
  | bool false => "false".toList
  | number s => s.toList
  | string s => writeString (s.getD "").toList
  | array items => '[' :: writeItems items ++ [']']
  | object members => '{' :: writeMembers members ++ ['}']

def writeItems : List Json → List Char
  | [] => []
  | [item] => write item
  | item :: items => write item ++ ',' :: writeItems items

def writeMembers : List (Option String × Json) → List Char
  | [] => []
  | [(key, value)] => writeString (key.getD "").toList ++ ':' :: write value
  | (key, value) :: members =>
    writeString (key.getD "").toList ++ ':' :: write value ++ ',' :: writeMembers members

end

def isSpace (c : Char) : Bool :=
  c == ' ' || c == '\n' || c == '\t' || c == '\r'

def skipSpace (cs : List Char) : List Char :=
  cs.dropWhile isSpace

/-- A unit of a string as it is written: a character, or a number that `\u` gives. -/
inductive Piece where
  | char (c : Char)
  | code (n : Nat)

def unescape? (c : Char) : Option Char :=
  match c with
  | '"' => some '"'
  | '\\' => some '\\'
  | '/' => some '/'
  | 'n' => some '\n'
  | 't' => some '\t'
  | 'r' => some '\r'
  | 'b' => some '\x08'
  | 'f' => some '\x0c'
  | _ => none

def fourDigits? (a b c d : Char) : Option Nat := do
  let a ← Text.hexValue? a
  let b ← Text.hexValue? b
  let c ← Text.hexValue? c
  let d ← Text.hexValue? d
  return 4096 * a + 256 * b + 16 * c + d

def readPieces? : List Char → Option (List Piece × List Char)
  | '"' :: rest => some ([], rest)
  | '\\' :: 'u' :: a :: b :: c :: d :: rest => do
    let n ← fourDigits? a b c d
    let (pieces, rest) ← readPieces? rest
    return (.code n :: pieces, rest)
  | '\\' :: e :: rest => do
    let c ← unescape? e
    let (pieces, rest) ← readPieces? rest
    return (.char c :: pieces, rest)
  | c :: rest => do
    if c.toNat < 32 || c == '\\' then none
    let (pieces, rest) ← readPieces? rest
    return (.char c :: pieces, rest)
  | [] => none

def isHighSurrogate (n : Nat) : Bool := 0xD800 ≤ n && n < 0xDC00

def isLowSurrogate (n : Nat) : Bool := 0xDC00 ≤ n && n < 0xE000

/-- The text that pieces spell. Surrogates must come in pairs. -/
def spell? : List Piece → Option (List Char)
  | [] => some []
  | .char c :: rest => (spell? rest).map (c :: ·)
  | .code n :: rest =>
    if isLowSurrogate n then none
    else if isHighSurrogate n then
      match rest with
      | .code m :: rest =>
        if isLowSurrogate m then
          (spell? rest).map (Char.ofNat (0x10000 + 1024 * (n - 0xD800) + (m - 0xDC00)) :: ·)
        else none
      | _ => none
    else (spell? rest).map (Char.ofNat n :: ·)

def readString? (cs : List Char) : Option (Option String × List Char) :=
  (readPieces? cs).map (fun (pieces, rest) => ((spell? pieces).map String.ofList, rest))

def digits? (cs : List Char) : Option (List Char × List Char) :=
  match cs.takeWhile Char.isDigit with
  | [] => none
  | ds => some (ds, cs.dropWhile Char.isDigit)

/-- The whole part of a number has no leading zeros. -/
def wholePart? : List Char → Option (List Char × List Char)
  | '0' :: rest => if rest.head?.any Char.isDigit then none else some (['0'], rest)
  | cs => digits? cs

def fractionPart? : List Char → Option (List Char × List Char)
  | '.' :: rest => (digits? rest).map (fun (ds, rest) => ('.' :: ds, rest))
  | cs => some ([], cs)

def exponentPart? : List Char → Option (List Char × List Char)
  | e :: rest =>
    if e == 'e' || e == 'E' then
      match rest with
      | '+' :: rest => (digits? rest).map (fun (ds, rest) => (e :: '+' :: ds, rest))
      | '-' :: rest => (digits? rest).map (fun (ds, rest) => (e :: '-' :: ds, rest))
      | rest => (digits? rest).map (fun (ds, rest) => (e :: ds, rest))
    else some ([], e :: rest)
  | [] => some ([], [])

def readNumber? (cs : List Char) : Option (Json × List Char) := do
  let (sign, rest) :=
    match cs with
    | '-' :: rest => (['-'], rest)
    | cs => ([], cs)
  let (whole, rest) ← wholePart? rest
  let (fraction, rest) ← fractionPart? rest
  let (exponent, rest) ← exponentPart? rest
  return (number (String.ofList (sign ++ whole ++ fraction ++ exponent)), rest)

def readWord? (cs : List Char) : Option (Json × List Char) :=
  if "null".toList.isPrefixOf cs then some (null, cs.drop 4)
  else if "true".toList.isPrefixOf cs then some (bool true, cs.drop 4)
  else if "false".toList.isPrefixOf cs then some (bool false, cs.drop 5)
  else none

mutual

/-- Reads a value; `fuel` bounds the steps. -/
def readValue? : Nat → List Char → Option (Json × List Char)
  | 0, _ => none
  | fuel + 1, cs =>
    match skipSpace cs with
    | '"' :: rest => (readString? rest).map (fun (s, rest) => (string s, rest))
    | '[' :: rest =>
      match skipSpace rest with
      | ']' :: rest => some (array [], rest)
      | rest => (readItems? fuel rest).map (fun (items, rest) => (array items, rest))
    | '{' :: rest =>
      match skipSpace rest with
      | '}' :: rest => some (object [], rest)
      | rest => (readMembers? fuel rest).map (fun (members, rest) => (object members, rest))
    | c :: rest => if c == '-' || c.isDigit then readNumber? (c :: rest) else readWord? (c :: rest)
    | [] => none

def readItems? : Nat → List Char → Option (List Json × List Char)
  | 0, _ => none
  | fuel + 1, cs => do
    let (item, rest) ← readValue? fuel cs
    match skipSpace rest with
    | ',' :: rest =>
      let (items, rest) ← readItems? fuel rest
      return (item :: items, rest)
    | ']' :: rest => return ([item], rest)
    | _ => none

def readMembers? : Nat → List Char → Option (List (Option String × Json) × List Char)
  | 0, _ => none
  | fuel + 1, cs => do
    match skipSpace cs with
    | '"' :: rest =>
      let (key, rest) ← readString? rest
      match skipSpace rest with
      | ':' :: rest =>
        let (value, rest) ← readValue? fuel rest
        match skipSpace rest with
        | ',' :: rest =>
          let (members, rest) ← readMembers? fuel rest
          return ((key, value) :: members, rest)
        | '}' :: rest => return ([(key, value)], rest)
        | _ => none
      | _ => none
    | _ => none

end

def read? (s : String) : Option Json := do
  let cs := s.toList
  let (value, rest) ← readValue? (2 * cs.length + 2) cs
  if (skipSpace rest).isEmpty then some value else none

end Json

end SignedHttp
