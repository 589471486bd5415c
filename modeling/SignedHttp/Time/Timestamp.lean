import SignedHttp.Text.Ascii
import SignedHttp.Text.Scan
import SignedHttp.Time.Calendar

namespace SignedHttp.Timestamp

open Text Calendar

/-- The fraction of a second in zero, three, six or nine digits. -/
def fractionText (nanos : Nat) : List Char :=
  if nanos == 0 then []
  else if nanos % 1000000 == 0 then '.' :: padded 3 (nanos / 1000000)
  else if nanos % 1000 == 0 then '.' :: padded 6 (nanos / 1000)
  else '.' :: padded 9 nanos

def write (m : Moment) : String :=
  let d := m.date
  let (hour, minute, second) := m.clock
  String.ofList <|
    List.intercalate ['-'] [Moment.yearText d.year, padded 2 d.month, padded 2 d.day] ++ 'T' ::
      List.intercalate [':'] [padded 2 hour, padded 2 minute, padded 2 second] ++
      fractionText m.fraction ++ ['Z']

/-- A year of at most four digits, or one of any length behind a sign. -/
def scanYear? (cs : List Char) : Option (Int × List Char) :=
  match trimStart cs with
  | '-' :: rest => (scanLongNumber? 1 rest).map (fun (y, rest) => (-Int.ofNat y, rest))
  | '+' :: rest => (scanLongNumber? 1 rest).map (fun (y, rest) => (Int.ofNat y, rest))
  | cs => (scanNumber? 1 4 cs).map (fun (y, rest) => (Int.ofNat y, rest))

def scanPair? (cs : List Char) : Option (Nat × List Char) :=
  (scanNumber? 1 2 (trimStart cs)).map (fun (n, rest) => (n, rest))

/-- The nanoseconds behind a point; digits after the ninth say nothing. -/
def scanFraction? (cs : List Char) : Option (Nat × List Char) :=
  match cs with
  | '.' :: rest =>
    let (ds, rest) := spanDigits 9 rest
    if ds.isEmpty then none
    else some (Nat.ofDigitChars 10 ds 0 * Nat.pow 10 (9 - ds.length), rest.dropWhile Char.isDigit)
  | _ => some (0, cs)

/-- The sign of an offset, which may be the mathematical minus. -/
def scanSign? : List Char → Option (Bool × List Char)
  | '+' :: rest => some (false, rest)
  | '-' :: rest => some (true, rest)
  | c :: rest => if c == Char.ofNat 0x2212 then some (true, rest) else none
  | [] => none

/-- The seconds ahead of UTC. Colons and blanks may stand between hours and minutes. -/
def scanOffset? (cs : List Char) : Option (Int × List Char) := do
  match cs with
  | 'Z' :: rest => return (0, rest)
  | 'z' :: rest => return (0, rest)
  | _ =>
    if lower (cs.take 3) == "utc".toList then return (0, cs.drop 3)
    let (negative, rest) ← scanSign? cs
    let (hours, rest) ← scanNumber? 2 2 rest
    let (minutes, rest) ← scanNumber? 2 2 (rest.dropWhile (fun c => c == ':' || isBlank c))
    if minutes ≥ 60 then none
    let seconds : Int := 3600 * hours + 60 * minutes
    return (if negative then -seconds else seconds, rest)

def scanSeparator? : List Char → Option (List Char)
  | c :: rest => if c == 'T' || c == 't' || c == ' ' then some rest else none
  | [] => none

def read? (s : String) : Option Moment := do
  let (year, cs) ← scanYear? s.toList
  let (month, cs) ← scanPair? (← scanChar? '-' (trimStart cs))
  let (day, cs) ← scanPair? (← scanChar? '-' (trimStart cs))
  let (hour, cs) ← scanPair? (← scanSeparator? cs)
  let (minute, cs) ← scanPair? (← scanChar? ':' (trimStart cs))
  let (second, cs) ← scanPair? (← scanChar? ':' (trimStart cs))
  let (nanos, cs) ← scanFraction? cs
  let (offset, cs) ← scanOffset? (trimStart cs)
  if !(trimStart cs).isEmpty then none
  Moment.ofLocal? ⟨year, month, day⟩ hour minute second nanos offset

end SignedHttp.Timestamp
