import SignedHttp.Proofs.Text.Splitting
import SignedHttp.Proofs.Text.Utf8
import SignedHttp.Text.Percent

namespace SignedHttp.Text.Percent

variable {keep : Char → Bool}

def signsOf (keep : Char → Bool) (b : UInt8) : Bytes :=
  if isAscii b && keep (Char.ofNat b.toNat) then [b]
  else [37, UInt8.ofNat (upperHexDigit (b.toNat / 16)).toNat,
    UInt8.ofNat (upperHexDigit (b.toNat % 16)).toNat]

theorem digit?_upperHexDigit {d : Nat} (h : d < 16) :
    digit? (UInt8.ofNat (upperHexDigit d).toNat) = some d := by
  have hall : ∀ d < 16, digit? (UInt8.ofNat (upperHexDigit d).toNat) = some d := by decide
  exact hall d h

theorem signsOf_ascii (b : UInt8) : ∀ a ∈ signsOf keep b, a.toNat < 0x80 := by
  have hb : b.toNat < 256 := b.toNat_lt
  have hdigit : ∀ d < 16, (UInt8.ofNat (upperHexDigit d).toNat).toNat < 0x80 := by decide
  intro a ha
  unfold signsOf at ha
  split at ha
  · next hk =>
    obtain rfl := List.mem_singleton.mp ha
    simpa [isAscii] using (Bool.and_eq_true_iff.mp hk).1
  · simp only [List.mem_cons, List.not_mem_nil, or_false] at ha
    rcases ha with rfl | rfl | rfl
    · decide
    · exact hdigit _ (by omega)
    · exact hdigit _ (by omega)

theorem encodeByte_eq (b : UInt8) :
    encodeByte keep b = (signsOf keep b).map (fun a => Char.ofNat a.toNat) := by
  have hb : b.toNat < 256 := b.toNat_lt
  have hdigit : ∀ d < 16,
      Char.ofNat (UInt8.ofNat (upperHexDigit d).toNat).toNat = upperHexDigit d := by decide
  unfold encodeByte signsOf
  split
  · rfl
  · rw [List.map_cons, List.map_cons, List.map_cons, hdigit _ (by omega), hdigit _ (by omega)]
    rfl

/-- An encoded text is ASCII, so its bytes are its signs. -/
theorem encode_encode (cs : List Char) :
    Utf8.encode (encode keep cs) = (Utf8.encode cs).flatMap (signsOf keep) := by
  have hsigns : encode keep cs =
      ((Utf8.encode cs).flatMap (signsOf keep)).map (fun a => Char.ofNat a.toNat) := by
    rw [encode, List.map_flatMap]
    exact congrArg (fun f => (Utf8.encode cs).flatMap f) (funext encodeByte_eq)
  rw [hsigns, Utf8.encode_ascii]
  intro a ha
  obtain ⟨b, -, hb⟩ := List.mem_flatMap.mp ha
  exact signsOf_ascii b a hb

theorem decodeBytes_cons {b : UInt8} (h : b ≠ 37) (rest : Bytes) :
    decodeBytes (b :: rest) = b :: decodeBytes rest := by
  have hmark : (b == 37) = false := by simpa using h
  match rest with
  | [] => rfl
  | [_] => rfl
  | _ :: _ :: _ => simp [decodeBytes, escaped?, hmark]

theorem decodeBytes_signsOf (hk : keep '%' = false) (b : UInt8) (rest : Bytes) :
    decodeBytes (signsOf keep b ++ rest) = b :: decodeBytes rest := by
  have hb : b.toNat < 256 := b.toNat_lt
  unfold signsOf
  split
  · next hkept =>
    apply decodeBytes_cons
    rintro rfl
    rw [show Char.ofNat (37 : UInt8).toNat = '%' from rfl, hk] at hkept
    exact absurd hkept (by simp)
  · have hhigh := digit?_upperHexDigit (d := b.toNat / 16) (by omega)
    have hlow := digit?_upperHexDigit (d := b.toNat % 16) (by omega)
    have hescaped : escaped? 37 (UInt8.ofNat (upperHexDigit (b.toNat / 16)).toNat)
        (UInt8.ofNat (upperHexDigit (b.toNat % 16)).toNat) = some b := by
      rw [escaped?, if_pos (by decide), hhigh, hlow]
      change some (UInt8.ofNat (16 * (b.toNat / 16) + b.toNat % 16)) = some b
      rw [Nat.div_add_mod, UInt8.ofNat_toNat]
    simp only [List.cons_append, List.nil_append, decodeBytes, hescaped]

/-- A text is decoded from what it was encoded as. -/
theorem decode_encode (hk : keep '%' = false) (cs : List Char) : decode (encode keep cs) = cs := by
  have hbytes : ∀ bs : Bytes, decodeBytes (bs.flatMap (signsOf keep)) = bs := by
    intro bs
    induction bs with
    | nil => rfl
    | cons b bs ih => rw [List.flatMap_cons, decodeBytes_signsOf hk, ih]
  rw [decode, encode_encode, hbytes, Utf8.decodeLossy_encode]

/-- An ASCII character that is neither the mark of an escape nor one of its digits. -/
structure Apart (c : Char) : Prop where
  ascii : c.toNat < 0x80
  ne_mark : c ≠ '%'
  no_digit : hexValue? c = none

namespace Apart

variable {c : Char}

theorem toNat_ofNat (h : Apart c) : (UInt8.ofNat c.toNat).toNat = c.toNat :=
  Utf8.toNat_ofNat (Nat.lt_trans h.ascii (by decide))

theorem ofNat_toNat (h : Apart c) : Char.ofNat (UInt8.ofNat c.toNat).toNat = c := by
  rw [h.toNat_ofNat, Char.ofNat_toNat]

theorem encode_cons (h : Apart c) (cs : List Char) :
    Utf8.encode (c :: cs) = UInt8.ofNat c.toNat :: Utf8.encode cs := by
  have hone : Utf8.encode [c] = [UInt8.ofNat c.toNat] :=
    Utf8.encode_of_lt (fun d hd => List.mem_singleton.mp hd ▸ h.ascii)
  rw [← List.singleton_append, Utf8.encode_append, hone, List.singleton_append]

end Apart

/-- An escape is not cut by a byte that it cannot hold. -/
theorem decodeBytes_append {b : UInt8} (hm : b ≠ 37) (hd : digit? b = none) (bs rest : Bytes) :
    decodeBytes (bs ++ b :: rest) = decodeBytes bs ++ b :: decodeBytes rest := by
  -- neither of the two bytes behind a mark can be the byte
  have hhigh : ∀ a c, escaped? a b c = none := by
    intro a c
    simp [escaped?, hd]
  have hlow : ∀ a c, escaped? a c b = none := by
    intro a c
    simp [escaped?, hd]
  fun_induction decodeBytes bs with
  | case1 a x y bs byte he ih => simp only [List.cons_append, decodeBytes, he, ih]
  | case2 a x y bs he ih =>
    simp only [List.cons_append] at ih
    simp only [List.cons_append, decodeBytes, he, ih]
  | case3 a bs hshort ih =>
    match bs with
    | [] =>
      have hcut : decodeBytes (a :: b :: rest) = a :: decodeBytes (b :: rest) := by
        cases rest with
        | nil => rfl
        | cons c rest => simp only [decodeBytes, hhigh]
      exact hcut.trans (congrArg (a :: ·) ih)
    | [x] =>
      have hcut : decodeBytes (a :: x :: b :: rest) = a :: decodeBytes (x :: b :: rest) := by
        simp only [decodeBytes, hlow]
      exact hcut.trans (congrArg (a :: ·) ih)
    | x :: y :: bs => exact absurd rfl (hshort x y bs)
  | case4 => exact decodeBytes_cons hm rest

/-- What stands around such a character is decoded apart, also if an escape or the bytes of a
character break off there. -/
theorem Apart.decode_append {c : Char} (h : Apart c) (cs ds : List Char) :
    decode (cs ++ c :: ds) = decode cs ++ c :: decode ds := by
  have hmark : UInt8.ofNat c.toNat ≠ 37 := by
    intro he
    apply h.ne_mark
    rw [← h.ofNat_toNat, he]
    rfl
  have hdigit : digit? (UInt8.ofNat c.toNat) = none := by
    rw [digit?, h.ofNat_toNat, h.no_digit]
  rw [decode, Utf8.encode_append, h.encode_cons, decodeBytes_append hmark hdigit,
    Utf8.decodeLossy_append_ascii (by rw [h.toNat_ofNat]; exact h.ascii), h.ofNat_toNat]
  rfl

theorem Apart.decode_intercalate {c : Char} (h : Apart c) (parts : List (List Char)) :
    decode (List.intercalate [c] parts) = List.intercalate [c] (parts.map decode) := by
  induction parts with
  | nil => rfl
  | cons p ps ih =>
    by_cases hp : ps = []
    · subst hp
      rw [List.map_singleton, List.intercalate_singleton, List.intercalate_singleton]
    · rw [List.map_cons, List.intercalate_cons_of_ne_nil hp,
        List.intercalate_cons_of_ne_nil (by simpa using hp), List.append_assoc,
        List.singleton_append, h.decode_append, ih, List.append_assoc, List.singleton_append]

end SignedHttp.Text.Percent
