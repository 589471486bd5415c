namespace SignedHttp

abbrev Bytes := List UInt8

namespace Text.Utf8

def encode (cs : List Char) : Bytes :=
  cs.flatMap String.utf8EncodeChar

/-- A character of which some bytes are still to come: its bits so far, how many bytes follow,
and the range of the next one. -/
structure Open where
  code : Nat
  owed : Nat
  low : Nat
  high : Nat

/-- What a byte means at the start of a character. -/
inductive Lead where
  | ascii (c : Char)
  | opens (o : Open)
  | stray

/-- The range of the second byte leaves out overlong forms, surrogates and what lies above
U+10FFFF. -/
def lead (b : Nat) : Lead :=
  if b < 0x80 then .ascii (Char.ofNat b)
  else if b < 0xC2 then .stray
  else if b < 0xE0 then .opens ⟨b - 0xC0, 1, 0x80, 0xBF⟩
  else if b == 0xE0 then .opens ⟨0, 2, 0xA0, 0xBF⟩
  else if b == 0xED then .opens ⟨0xD, 2, 0x80, 0x9F⟩
  else if b < 0xF0 then .opens ⟨b - 0xE0, 2, 0x80, 0xBF⟩
  else if b == 0xF0 then .opens ⟨0, 3, 0x90, 0xBF⟩
  else if b < 0xF4 then .opens ⟨b - 0xF0, 3, 0x80, 0xBF⟩
  else if b == 0xF4 then .opens ⟨4, 3, 0x80, 0x8F⟩
  else .stray

/-- The characters of a byte string, `none` standing for each malformed part. -/
def scan : Option Open → Bytes → List (Option Char)
  | none, [] => []
  | some _, [] => [none]
  | state, b :: rest =>
    let fresh (_ : Unit) :=
      match lead b.toNat with
      | .ascii c => some c :: scan none rest
      | .opens o => scan (some o) rest
      | .stray => none :: scan none rest
    match state with
    | none => fresh ()
    | some o =>
      if o.low ≤ b.toNat && b.toNat ≤ o.high then
        let code := o.code * 64 + (b.toNat - 0x80)
        if o.owed == 1 then some (Char.ofNat code) :: scan none rest
        else scan (some ⟨code, o.owed - 1, 0x80, 0xBF⟩) rest
      else none :: fresh ()

def replacement : Char := Char.ofNat 0xFFFD

def decodeLossy (bs : Bytes) : List Char :=
  (scan none bs).map (fun c => c.getD replacement)

def decode? (bs : Bytes) : Option (List Char) :=
  (scan none bs).mapM id

end Text.Utf8

namespace Text

def bytes (s : String) : Bytes :=
  Utf8.encode s.toList

def lossy (bs : Bytes) : String :=
  String.ofList (Utf8.decodeLossy bs)

end Text

end SignedHttp
