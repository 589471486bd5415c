import SignedHttp.Text.Json

namespace SignedHttp

namespace Text

theorem hexValue?_digitChar {d : Nat} (h : d < 16) : hexValue? d.digitChar = some d := by
  have hall : ∀ d < 16, hexValue? d.digitChar = some d := by decide
  exact hall d h

end Text

namespace Json

variable {rest : List Char}

/-- A character of a string as it is written: control characters without a short escape become
numbers. -/
def pieceOf (c : Char) : Piece :=
  if shortEscape? c = none ∧ c.toNat < 32 then .code c.toNat else .char c

theorem unescape?_of_shortEscape? {c d : Char} (h : shortEscape? c = some d) :
    unescape? d = some c ∧ d ≠ 'u' := by
  unfold shortEscape? at h
  split at h <;> cases h <;> decide

theorem fourDigits?_hex {n : Nat} (h : n < 32) :
    fourDigits? '0' '0' (Nat.digitChar (n / 16)) (Nat.digitChar (n % 16)) = some n := by
  have hzero : Text.hexValue? '0' = some 0 := by decide
  simp only [fourDigits?, hzero, Text.hexValue?_digitChar (d := n / 16) (by omega),
    Text.hexValue?_digitChar (d := n % 16) (by omega)]
  change some (4096 * 0 + 256 * 0 + 16 * (n / 16) + n % 16) = some n
  exact congrArg some (by omega)

theorem readPieces?_escape {c d : Char} (h : unescape? d = some c) (hu : d ≠ 'u')
    (rest : List Char) :
    readPieces? ('\\' :: d :: rest) =
      (readPieces? rest).map (fun read => (.char c :: read.1, read.2)) := by
  rw [readPieces?]
  · rw [h]
    cases readPieces? rest <;> rfl
  · rintro _ _ _ _ _ rfl
    exact absurd rfl hu

theorem readPieces?_code {n : Nat} {a b c d : Char} (h : fourDigits? a b c d = some n)
    (rest : List Char) :
    readPieces? ('\\' :: 'u' :: a :: b :: c :: d :: rest) =
      (readPieces? rest).map (fun read => (.code n :: read.1, read.2)) := by
  rw [readPieces?, h]
  cases readPieces? rest <;> rfl

theorem readPieces?_plain {c : Char} (hquote : c ≠ '"') (hback : c ≠ '\\')
    (hc : ¬ c.toNat < 32) (rest : List Char) :
    readPieces? (c :: rest) =
      (readPieces? rest).map (fun read => (.char c :: read.1, read.2)) := by
  rw [readPieces?]
  · simp only [hc, hback, beq_iff_eq, decide_false, Bool.false_or, ↓reduceIte]
    cases readPieces? rest <;> rfl
  · exact hquote
  · exact fun _ _ _ _ _ he _ => absurd he hback
  · exact fun _ _ he _ => absurd he hback

theorem readPieces?_writeChar (c : Char) (rest : List Char) :
    readPieces? (writeChar c ++ rest) =
      (readPieces? rest).map (fun read => (pieceOf c :: read.1, read.2)) := by
  unfold writeChar pieceOf
  cases hs : shortEscape? c with
  | some d =>
    obtain ⟨hd, hu⟩ := unescape?_of_shortEscape? hs
    exact readPieces?_escape hd hu rest
  | none =>
    by_cases hc : c.toNat < 32
    · simp only [hc, and_self, ↓reduceIte]
      exact readPieces?_code (fourDigits?_hex hc) rest
    · simp only [hc, and_false, ↓reduceIte]
      exact readPieces?_plain (by rintro rfl; cases hs) (by rintro rfl; cases hs) hc rest

theorem readPieces?_write (cs rest : List Char) :
    readPieces? (cs.flatMap writeChar ++ '"' :: rest) = some (cs.map pieceOf, rest) := by
  induction cs with
  | nil => rfl
  | cons c cs ih => rw [List.flatMap_cons, List.append_assoc, readPieces?_writeChar, ih]; rfl

theorem spell?_code {n : Nat} (h : n < 32) (pieces : List Piece) :
    spell? (.code n :: pieces) = (spell? pieces).map (Char.ofNat n :: ·) := by
  have hlow : isLowSurrogate n = false := by
    simp only [isLowSurrogate, Bool.and_eq_false_imp, decide_eq_true_eq, decide_eq_false_iff_not]
    omega
  have hhigh : isHighSurrogate n = false := by
    simp only [isHighSurrogate, Bool.and_eq_false_imp, decide_eq_true_eq, decide_eq_false_iff_not]
    omega
  rw [spell?.eq_def]
  simp only [hlow, hhigh, Bool.false_eq_true, ↓reduceIte]

theorem spell?_pieceOf (cs : List Char) : spell? (cs.map pieceOf) = some cs := by
  induction cs with
  | nil => rfl
  | cons c cs ih =>
    rw [List.map_cons, pieceOf]
    split
    · next hc => rw [spell?_code hc.2, ih, Char.ofNat_toNat, Option.map_some]
    · rw [spell?, ih, Option.map_some]

theorem readString?_write (s : String) (rest : List Char) :
    readString? (s.toList.flatMap writeChar ++ '"' :: rest) = some (some s, rest) := by
  simp [readString?, readPieces?_write, spell?_pieceOf]

/-- A value is read back from its text, whatever follows, in no more steps than twice the length of
the text. Its text does not begin with what ends a list, or with a blank. -/
structure ReadBack (j : Json) : Prop where
  starts : ∃ c cs, j.write = c :: cs ∧ isSpace c = false ∧ c ≠ ']'
  read (fuel : Nat) (rest : List Char) :
    2 * j.write.length ≤ fuel → readValue? fuel (j.write ++ rest) = some (j, rest)

theorem skipSpace_cons {c : Char} (h : isSpace c = false) (cs : List Char) :
    skipSpace (c :: cs) = c :: cs := by
  simp [skipSpace, h]

theorem readBack_text (s : String) : (text s).ReadBack where
  starts := ⟨'"', _, rfl, by decide, by decide⟩
  read fuel rest h := by
    obtain ⟨fuel, rfl⟩ : ∃ n, fuel = n + 1 :=
      Nat.exists_eq_succ_of_ne_zero (by simp [text, write, writeString] at h; omega)
    change readValue? (fuel + 1) ('"' :: s.toList.flatMap writeChar ++ ['"'] ++ rest) = _
    rw [List.append_assoc, List.cons_append, readValue?, skipSpace_cons (by decide)]
    simp only [List.cons_append, List.nil_append, readString?_write]
    rfl

theorem writeItems_cons (item next : Json) (items : List Json) :
    writeItems (item :: next :: items) = item.write ++ ',' :: writeItems (next :: items) := by
  rw [writeItems]
  exact List.cons_ne_nil _ _

theorem readItems?_write {items : List Json} (hne : items ≠ []) (h : ∀ j ∈ items, j.ReadBack)
    {fuel : Nat} (hf : 2 * (writeItems items).length < fuel) (rest : List Char) :
    readItems? fuel (writeItems items ++ ']' :: rest) = some (items, rest) := by
  induction items generalizing fuel with
  | nil => exact absurd rfl hne
  | cons item items ih =>
    obtain ⟨fuel, rfl⟩ : ∃ n, fuel = n + 1 := Nat.exists_eq_succ_of_ne_zero (by omega)
    have hitem := (h item List.mem_cons_self).read
    cases items with
    | nil =>
      rw [writeItems] at hf ⊢
      rw [readItems?, hitem fuel _ (by omega)]
      rfl
    | cons next items =>
      rw [writeItems_cons, List.length_append, List.length_cons] at hf
      rw [writeItems_cons, List.append_assoc, List.cons_append, readItems?,
        hitem fuel _ (by omega)]
      have hroom : 2 * (writeItems (next :: items)).length < fuel := by omega
      have hrest := ih (List.cons_ne_nil _ _) (fun j hm => h j (List.mem_cons_of_mem _ hm)) hroom
      simp only [bind, Option.bind, skipSpace_cons (c := ',') (by decide), hrest]
      rfl

theorem writeItems_starts {item : Json} (h : item.ReadBack) (items : List Json) :
    ∃ c cs, writeItems (item :: items) = c :: cs ∧ isSpace c = false ∧ c ≠ ']' := by
  obtain ⟨c, cs, hc, hspace, hend⟩ := h.starts
  cases items with
  | nil => exact ⟨c, cs, by rw [writeItems, hc], hspace, hend⟩
  | cons next items => exact ⟨c, _, by rw [writeItems_cons, hc]; rfl, hspace, hend⟩

theorem readValue?_items {fuel : Nat} {c : Char} {cs : List Char} (hspace : isSpace c = false)
    (hend : c ≠ ']') :
    readValue? (fuel + 1) ('[' :: c :: cs) =
      (readItems? fuel (c :: cs)).map (fun read => (array read.1, read.2)) := by
  rw [readValue?, skipSpace_cons (by decide)]
  simp only [skipSpace_cons hspace]
  split
  · next he => exact absurd (List.cons.inj he).1 hend
  · rfl

theorem readBack_array {items : List Json} (h : ∀ j ∈ items, j.ReadBack) :
    (array items).ReadBack where
  starts := ⟨'[', _, rfl, by decide, by decide⟩
  read fuel rest hf := by
    rw [write] at hf ⊢
    rw [List.append_assoc, List.cons_append, List.singleton_append]
    simp only [List.length_append, List.length_cons, List.length_nil] at hf
    obtain ⟨fuel, rfl⟩ : ∃ n, fuel = n + 1 := Nat.exists_eq_succ_of_ne_zero (by omega)
    cases items with
    | nil => rfl
    | cons item items =>
      obtain ⟨c, cs, hc, hspace, hend⟩ := writeItems_starts (h item List.mem_cons_self) items
      have hroom : 2 * (writeItems (item :: items)).length < fuel := by omega
      have hitems := readItems?_write (List.cons_ne_nil item items) h hroom rest
      rw [hc, List.cons_append] at hitems ⊢
      rw [readValue?_items hspace hend, hitems]
      rfl

/-- The text of the members of an object. -/
abbrev memberText (members : List (String × Json)) : List Char :=
  writeMembers (members.map (fun m => (some m.1, m.2)))

theorem memberText_cons (m next : String × Json) (members : List (String × Json)) :
    memberText (m :: next :: members) =
      writeString m.1.toList ++ ':' :: m.2.write ++ ',' :: memberText (next :: members) := by
  rw [memberText, List.map_cons, List.map_cons, writeMembers]
  · rfl
  · exact List.cons_ne_nil _ _

theorem readMembers?_member {m : String × Json} (h : m.2.ReadBack) {fuel : Nat}
    (hf : 2 * m.2.write.length ≤ fuel) (rest : List Char) :
    readMembers? (fuel + 1) (writeString m.1.toList ++ ':' :: m.2.write ++ rest) =
      match skipSpace rest with
      | ',' :: rest =>
        (readMembers? fuel rest).map (fun read => ((some m.1, m.2) :: read.1, read.2))
      | '}' :: rest => some ([(some m.1, m.2)], rest)
      | _ => none := by
  have hstart : writeString m.1.toList ++ ':' :: m.2.write ++ rest =
      '"' :: (m.1.toList.flatMap writeChar ++ '"' :: ':' :: (m.2.write ++ rest)) := by
    simp [writeString]
  rw [hstart, readMembers?, skipSpace_cons (by decide)]
  simp only [bind, Option.bind, readString?_write, skipSpace_cons (c := ':') (by decide),
    h.read fuel rest hf]
  rcases skipSpace rest with _ | ⟨c, tail⟩
  · rfl
  · by_cases hcomma : c = ','
    · subst hcomma
      simp only
      cases readMembers? fuel tail <;> rfl
    · by_cases hbrace : c = '}'
      · subst hbrace
        rfl
      · simp [hcomma, hbrace]

theorem readMembers?_write {members : List (String × Json)} (hne : members ≠ [])
    (h : ∀ m ∈ members, m.2.ReadBack) {fuel : Nat} (hf : 2 * (memberText members).length < fuel)
    (rest : List Char) :
    readMembers? fuel (memberText members ++ '}' :: rest) =
      some (members.map (fun m => (some m.1, m.2)), rest) := by
  induction members generalizing fuel with
  | nil => exact absurd rfl hne
  | cons m members ih =>
    obtain ⟨fuel, rfl⟩ : ∃ n, fuel = n + 1 := Nat.exists_eq_succ_of_ne_zero (by omega)
    have hm := h m List.mem_cons_self
    cases members with
    | nil =>
      have htext : memberText [m] = writeString m.1.toList ++ ':' :: m.2.write := rfl
      rw [htext, List.length_append, List.length_cons] at hf
      rw [htext, readMembers?_member hm (by omega)]
      rfl
    | cons next members =>
      rw [memberText_cons] at hf ⊢
      simp only [List.length_append, List.length_cons] at hf
      have hroom : 2 * (memberText (next :: members)).length < fuel := by omega
      have hrest := ih (List.cons_ne_nil _ _) (fun j hj => h j (List.mem_cons_of_mem _ hj)) hroom
      rw [List.append_assoc (_ ++ _), List.cons_append, readMembers?_member hm (by omega),
        skipSpace_cons (by decide)]
      simp only [hrest]
      rfl

theorem readValue?_members (fuel : Nat) (cs : List Char) :
    readValue? (fuel + 1) ('{' :: '"' :: cs) =
      (readMembers? fuel ('"' :: cs)).map (fun read => (object read.1, read.2)) := by
  rw [readValue?, skipSpace_cons (by decide)]
  simp only [skipSpace_cons (c := '"') (by decide)]
  split
  · next he => exact absurd (List.cons.inj he).1 (by decide)
  · rfl

theorem readBack_record {members : List (String × Json)} (h : ∀ m ∈ members, m.2.ReadBack) :
    (record members).ReadBack where
  starts := ⟨'{', _, rfl, by decide, by decide⟩
  read fuel rest hf := by
    have htext : (record members).write = '{' :: memberText members ++ ['}'] := by
      rw [record, write]
    rw [htext] at hf ⊢
    rw [List.append_assoc, List.cons_append, List.singleton_append]
    simp only [List.length_append, List.length_cons, List.length_nil] at hf
    obtain ⟨fuel, rfl⟩ : ∃ n, fuel = n + 1 := Nat.exists_eq_succ_of_ne_zero (by omega)
    cases members with
    | nil => rfl
    | cons m members =>
      have hroom : 2 * (memberText (m :: members)).length < fuel := by omega
      have hmembers := readMembers?_write (List.cons_ne_nil m members) h hroom rest
      have hstart : ∃ cs, memberText (m :: members) = '"' :: cs := by
        cases members with
        | nil => exact ⟨_, rfl⟩
        | cons next members => exact ⟨_, by rw [memberText_cons]; rfl⟩
      obtain ⟨cs, hcs⟩ := hstart
      rw [hcs, List.cons_append] at hmembers ⊢
      rw [readValue?_members, hmembers]
      rfl

theorem read?_write {j : Json} (h : j.ReadBack) : read? (String.ofList j.write) = some j := by
  have hread := h.read (2 * j.write.length + 2) [] (by omega)
  rw [List.append_nil] at hread
  unfold read?
  simp only [String.toList_ofList, hread]
  rfl

end Json

end SignedHttp
