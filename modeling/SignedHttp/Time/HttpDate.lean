import SignedHttp.Text.Ascii
import SignedHttp.Text.Scan
import SignedHttp.Time.Calendar

namespace SignedHttp.HttpDate

open Text Calendar

def write (m : Moment) : String :=
  let d := m.date
  let (hour, minute, second) := m.clock
  String.ofList <| List.intercalate [' '] [
    ((weekdayNames[weekday m.dayNumber]?).getD "").toList ++ [','],
    padded 2 d.day,
    ((monthNames[d.month - 1]?).getD "").toList,
    Moment.yearText d.year,
    List.intercalate [':'] [padded 2 hour, padded 2 minute, padded 2 second],
    "GMT".toList]

/-- A year of two digits lies within fifty years of 2000, one of three digits counts from
1900. -/
def fullYear (digitCount year : Nat) : Nat :=
  if digitCount == 2 then (if year < 50 then 2000 + year else 1900 + year)
  else if digitCount == 3 then 1900 + year
  else year

/-- The hours ahead of UTC of a named zone. Zones of one letter count as UTC, `J` is none. -/
def namedZone? (name : List Char) : Option Int :=
  match String.ofList (lower name) with
  | "gmt" | "ut" | "z" => some 0
  | "edt" => some (-4)
  | "est" | "cdt" => some (-5)
  | "cst" | "mdt" => some (-6)
  | "mst" | "pdt" => some (-7)
  | "pst" => some (-8)
  | "j" => none
  | _ => if name.length == 1 then some 0 else none

def scanZone? (cs : List Char) : Option (Int × List Char) := do
  let name := cs.takeWhile Char.isAlpha
  if !name.isEmpty then
    let hours ← namedZone? name
    return (3600 * hours, cs.drop name.length)
  let (negative, rest) ←
    match cs with
    | '+' :: rest => some (false, rest)
    | '-' :: rest => some (true, rest)
    | _ => none
  let (hours, rest) ← scanNumber? 2 2 rest
  let (minutes, rest) ← scanNumber? 2 2 rest
  if minutes ≥ 60 then none
  let seconds : Int := 3600 * hours + 60 * minutes
  return (if negative then -seconds else seconds, rest)

/-- The rest after a comment of which `depth` parentheses are open. -/
def closeComment? : Nat → List Char → Option (List Char)
  | 0, rest => some rest
  | _ + 1, [] => none
  | _ + 1, ['\\'] => none
  | depth + 1, '\\' :: _ :: rest => closeComment? (depth + 1) rest
  | depth + 1, '(' :: rest => closeComment? (depth + 2) rest
  | depth + 1, ')' :: rest => closeComment? depth rest
  | depth + 1, _ :: rest => closeComment? (depth + 1) rest

/-- Whether a text is nothing but comments with blanks before them; `fuel` bounds their
number. -/
def isComments : Nat → List Char → Bool
  | 0, cs => cs.isEmpty
  | fuel + 1, cs =>
    cs.isEmpty ||
      match trimStart cs with
      | '(' :: rest =>
        match closeComment? 1 rest with
        | some rest => isComments fuel rest
        | none => false
      | _ => false

def scanDayName? (cs : List Char) : Option (Option Nat × List Char) :=
  match scanName? weekdayNames cs with
  | some (day, rest) => (scanChar? ',' rest).map (fun rest => (some day, rest))
  | none => some (none, cs)

def scanSeconds? (cs : List Char) : Option (Nat × List Char) :=
  match scanChar? ':' (trimStart cs) with
  | some rest => scanNumber? 2 2 rest
  | none => some (0, cs)

def read? (s : String) : Option Moment := do
  let (dayName, cs) ← scanDayName? (trim s.toList)
  let (day, cs) ← scanNumber? 1 2 (trimStart cs)
  let (month, cs) ← scanName? monthNames (← scanBlanks? cs)
  let before ← scanBlanks? cs
  let (year, cs) ← scanLongNumber? 2 before
  let year := fullYear (before.length - cs.length) year
  let (hour, cs) ← scanNumber? 2 2 (← scanBlanks? cs)
  let (minute, cs) ← scanNumber? 2 2 (trimStart (← scanChar? ':' (trimStart cs)))
  let (second, cs) ← scanSeconds? cs
  let (offset, cs) ← scanZone? (← scanBlanks? cs)
  if !isComments cs.length cs then none
  let date : Date := ⟨year, month + 1, day⟩
  if dayName.any (· != weekday date.number) then none
  Moment.ofLocal? date hour minute second 0 offset

end SignedHttp.HttpDate
