import SignedHttp.Text.Utf8

namespace SignedHttp.Text.Utf8

variable {o : Open} {b : UInt8} {rest : Bytes} {c : Char}

theorem scan_ascii (h : lead b.toNat = .ascii c) : scan none (b :: rest) = some c :: scan none rest := by
  simp only [scan, h]

theorem scan_opens (h : lead b.toNat = .opens o) : scan none (b :: rest) = scan (some o) rest := by
  simp only [scan, h]

theorem scan_last (hl : o.low ≤ b.toNat) (hh : b.toNat ≤ o.high) (ho : o.owed = 1) :
    scan (some o) (b :: rest) =
      some (Char.ofNat (o.code * 64 + (b.toNat - 0x80))) :: scan none rest := by
  simp [scan, hl, hh, ho]

theorem scan_inner (hl : o.low ≤ b.toNat) (hh : b.toNat ≤ o.high) (ho : o.owed ≠ 1) :
    scan (some o) (b :: rest) =
      scan (some ⟨o.code * 64 + (b.toNat - 0x80), o.owed - 1, 0x80, 0xBF⟩) rest := by
  simp [scan, hl, hh, ho]

theorem toNat_ofNat {n : Nat} (h : n < 256) : (UInt8.ofNat n).toNat = n := by
  simp [Nat.mod_eq_of_lt h]

theorem lead_one {x : Nat} (hx : x < 0x80) : lead x = .ascii (Char.ofNat x) := by
  simp [lead, hx]

theorem lead_two {x : Nat} (hl : 2 ≤ x) (hx : x < 32) : lead (x + 0xC0) = .opens ⟨x, 1, 0x80, 0xBF⟩ := by
  have h1 : ¬ x + 0xC0 < 0x80 := by omega
  have h2 : ¬ x + 0xC0 < 0xC2 := by omega
  have h3 : x + 0xC0 < 0xE0 := by omega
  simp [lead, h1, h2, h3]

/-- The first of three bytes leaves room for the second one, unless the two start an overlong form
or a surrogate. -/
theorem lead_three {x y : Nat} (hx : x < 16) (hy : y < 64) (hl : 32 ≤ x * 64 + y)
    (hs : x * 64 + y < 0x360 ∨ 0x37F < x * 64 + y) :
    ∃ o, lead (x + 0xE0) = .opens o ∧ o.code = x ∧ o.owed = 2 ∧ o.low ≤ y + 0x80 ∧
      y + 0x80 ≤ o.high := by
  by_cases h0 : x = 0
  · subst h0
    exact ⟨⟨0, 2, 0xA0, 0xBF⟩, rfl, rfl, rfl, by simp only; omega, by simp only; omega⟩
  by_cases h13 : x = 13
  · subst h13
    exact ⟨⟨13, 2, 0x80, 0x9F⟩, rfl, rfl, rfl, by simp only; omega, by simp only; omega⟩
  have h1 : ¬ x + 0xE0 < 0x80 := by omega
  have h2 : ¬ x + 0xE0 < 0xC2 := by omega
  have h3 : ¬ x + 0xE0 < 0xE0 := by omega
  have h5 : x + 0xE0 < 0xF0 := by omega
  refine ⟨⟨x, 2, 0x80, 0xBF⟩, by simp [lead, h0, h1, h2, h3, h13, h5], rfl, rfl, ?_, ?_⟩
  · simp only
    omega
  · simp only
    omega

theorem lead_four {x y : Nat} (hy : y < 64) (hl : 16 ≤ x * 64 + y) (hh : x * 64 + y < 0x110) :
    ∃ o, lead (x + 0xF0) = .opens o ∧ o.code = x ∧ o.owed = 3 ∧ o.low ≤ y + 0x80 ∧
      y + 0x80 ≤ o.high := by
  have hx : x = 0 ∨ x = 1 ∨ x = 2 ∨ x = 3 ∨ x = 4 := by omega
  rcases hx with rfl | rfl | rfl | rfl | rfl
  · exact ⟨⟨0, 3, 0x90, 0xBF⟩, rfl, rfl, rfl, by simp only; omega, by simp only; omega⟩
  · exact ⟨⟨1, 3, 0x80, 0xBF⟩, rfl, rfl, rfl, by simp only; omega, by simp only; omega⟩
  · exact ⟨⟨2, 3, 0x80, 0xBF⟩, rfl, rfl, rfl, by simp only; omega, by simp only; omega⟩
  · exact ⟨⟨3, 3, 0x80, 0xBF⟩, rfl, rfl, rfl, by simp only; omega, by simp only; omega⟩
  · exact ⟨⟨4, 3, 0x80, 0x8F⟩, rfl, rfl, rfl, by simp only; omega, by simp only; omega⟩

theorem toNat_cases (c : Char) : c.toNat < 0xD800 ∨ 0xDFFF < c.toNat ∧ c.toNat < 0x110000 :=
  c.valid

theorem scan_utf8EncodeChar (c : Char) (rest : Bytes) :
    scan none (String.utf8EncodeChar c ++ rest) = some c :: scan none rest := by
  have hv := toNat_cases c
  have hc : Char.ofNat c.toNat = c := Char.ofNat_toNat c
  have he : c.val.toNat = c.toNat := rfl
  simp only [String.utf8EncodeChar, he]
  generalize c.toNat = v at hv hc
  split
  · next h =>
    have hb := toNat_ofNat (n := v) (by omega)
    rw [List.singleton_append, scan_ascii (c := c) (by rw [hb, lead_one (by omega), hc])]
  split
  · next h1 h2 =>
    have hb := toNat_ofNat (n := v / 64 % 0x20 + 0xC0) (by omega)
    have hd := toNat_ofNat (n := v % 0x40 + 0x80) (by omega)
    simp only [List.cons_append, List.nil_append]
    rw [scan_opens (by rw [hb]; exact lead_two (by omega) (by omega)),
      scan_last (by rw [hd]; simp only; omega) (by rw [hd]; simp only; omega) rfl, hd]
    have hsum : v / 64 % 0x20 * 64 + (v % 0x40 + 0x80 - 0x80) = v := by omega
    simp only [hsum, hc]
  split
  · next h1 h2 h3 =>
    have hb := toNat_ofNat (n := v / 4096 % 0x10 + 0xE0) (by omega)
    have hd := toNat_ofNat (n := v / 64 % 0x40 + 0x80) (by omega)
    have hf := toNat_ofNat (n := v % 0x40 + 0x80) (by omega)
    obtain ⟨o, ho, hcode, howed, hl, hh⟩ :=
      lead_three (x := v / 4096 % 0x10) (y := v / 64 % 0x40) (by omega) (by omega) (by omega)
        (by omega)
    simp only [List.cons_append, List.nil_append]
    rw [scan_opens (by rw [hb]; exact ho), scan_inner (by rw [hd]; exact hl) (by rw [hd]; exact hh)
      (by omega), scan_last (by rw [hf]; simp only; omega) (by rw [hf]; simp only; omega)
      (by simp [howed]), hd, hf, hcode]
    have hsum : (v / 4096 % 0x10 * 64 + (v / 64 % 0x40 + 0x80 - 0x80)) * 64 +
        (v % 0x40 + 0x80 - 0x80) = v := by omega
    simp only [hsum, hc]
  · next h1 h2 h3 =>
    have hb := toNat_ofNat (n := v / 262144 % 0x08 + 0xF0) (by omega)
    have hd := toNat_ofNat (n := v / 4096 % 0x40 + 0x80) (by omega)
    have hf := toNat_ofNat (n := v / 64 % 0x40 + 0x80) (by omega)
    have hg := toNat_ofNat (n := v % 0x40 + 0x80) (by omega)
    obtain ⟨o, ho, hcode, howed, hl, hh⟩ :=
      lead_four (x := v / 262144 % 0x08) (y := v / 4096 % 0x40) (by omega) (by omega) (by omega)
    simp only [List.cons_append, List.nil_append]
    rw [scan_opens (by rw [hb]; exact ho), scan_inner (by rw [hd]; exact hl) (by rw [hd]; exact hh)
      (by omega), scan_inner (by rw [hf]; simp only; omega) (by rw [hf]; simp only; omega)
      (by simp [howed]), scan_last (by rw [hg]; simp only; omega) (by rw [hg]; simp only; omega)
      (by simp [howed]), hd, hf, hg, hcode]
    have hsum : ((v / 262144 % 0x08 * 64 + (v / 4096 % 0x40 + 0x80 - 0x80)) * 64 +
        (v / 64 % 0x40 + 0x80 - 0x80)) * 64 + (v % 0x40 + 0x80 - 0x80) = v := by omega
    simp only [hsum, hc]

theorem scan_encode (cs : List Char) : scan none (encode cs) = cs.map some := by
  induction cs with
  | nil => rfl
  | cons c cs ih =>
    change scan none (String.utf8EncodeChar c ++ encode cs) = _
    rw [scan_utf8EncodeChar, ih, List.map_cons]

theorem decodeLossy_encode (cs : List Char) : decodeLossy (encode cs) = cs := by
  rw [decodeLossy, scan_encode, List.map_map]
  exact List.map_id cs

/-- The character that is begun will not be an ASCII one. -/
def Open.Long (o : Open) : Prop :=
  2 ≤ o.code ∨ 2 ≤ o.owed ∧ 0x82 ≤ o.code * 64 + o.low

theorem long_of_lead {n : Nat} (h : lead n = .opens o) : o.Long := by
  unfold lead at h
  split at h
  · cases h
  split at h
  · cases h
  next _ hC2 =>
  split at h
  · simp only [Lead.opens.injEq] at h
    subst h
    exact Or.inl (by simp only; omega)
  next hE0 =>
  split at h
  · simp only [Lead.opens.injEq] at h
    subst h
    exact Or.inr ⟨by simp, by simp⟩
  next hE0' =>
  split at h
  · simp only [Lead.opens.injEq] at h
    subst h
    exact Or.inl (by simp)
  split at h
  · simp only [Lead.opens.injEq] at h
    subst h
    simp only [beq_iff_eq] at hE0'
    exact Or.inr ⟨by simp, by simp only; omega⟩
  next hF0 =>
  split at h
  · simp only [Lead.opens.injEq] at h
    subst h
    exact Or.inr ⟨by simp, by simp⟩
  next hF0' =>
  split at h
  · simp only [Lead.opens.injEq] at h
    subst h
    simp only [beq_iff_eq] at hF0'
    exact Or.inr ⟨by simp, by simp only; omega⟩
  split at h
  · simp only [Lead.opens.injEq] at h
    subst h
    exact Or.inl (by simp)
  · cases h

theorem scan_some_cons (o : Open) (b : UInt8) (rest : Bytes) :
    scan (some o) (b :: rest) =
      if o.low ≤ b.toNat ∧ b.toNat ≤ o.high then
        if o.owed = 1 then some (Char.ofNat (o.code * 64 + (b.toNat - 0x80))) :: scan none rest
        else scan (some ⟨o.code * 64 + (b.toNat - 0x80), o.owed - 1, 0x80, 0xBF⟩) rest
      else none :: scan none (b :: rest) := by
  simp [scan]

theorem ascii_of_lead {n : Nat} (h : lead n = .ascii c) : n < 0x80 ∧ c = Char.ofNat n := by
  unfold lead at h
  split at h
  · next hn => exact ⟨hn, (Lead.ascii.inj h).symm⟩
  · repeat' split at h
    all_goals cases h

theorem toNat_ofNat_of_one_byte {n : Nat} (h : n < 0x80) : (Char.ofNat n).toNat = n := by
  have hv : n.isValidChar := Or.inl (by omega)
  unfold Char.ofNat
  rw [dif_pos hv]
  rfl

theorem encode_ascii {bs : Bytes} (h : ∀ b ∈ bs, b.toNat < 0x80) :
    encode (bs.map (fun b => Char.ofNat b.toNat)) = bs := by
  induction bs with
  | nil => rfl
  | cons b bs ih =>
    have hb := h b List.mem_cons_self
    have hc : (Char.ofNat b.toNat).val.toNat = b.toNat := toNat_ofNat_of_one_byte hb
    have hchar : String.utf8EncodeChar (Char.ofNat b.toNat) = [b] := by
      have hle : b.toNat ≤ 0x7f := by omega
      simp only [String.utf8EncodeChar, hc, hle, ↓reduceIte, UInt8.ofNat_toNat]
    have hrest := ih (fun c hc => h c (List.mem_cons_of_mem _ hc))
    unfold encode at hrest ⊢
    rw [List.map_cons, List.flatMap_cons, hchar, hrest]
    rfl

theorem encode_of_lt {cs : List Char} (h : ∀ c ∈ cs, c.toNat < 0x80) :
    encode cs = cs.map (fun c => UInt8.ofNat c.toNat) := by
  have hcode : ∀ c ∈ cs, (UInt8.ofNat c.toNat).toNat = c.toNat := by
    intro c hc
    have hlt := h c hc
    rw [UInt8.toNat_ofNat', Nat.mod_eq_of_lt (by omega)]
  have hback : (cs.map (fun c => UInt8.ofNat c.toNat)).map (fun b => Char.ofNat b.toNat) = cs := by
    rw [List.map_map]
    refine (List.map_congr_left fun c hc => ?_).trans (List.map_id cs)
    rw [Function.comp_apply, hcode c hc, Char.ofNat_toNat, id_eq]
  have hascii : ∀ b ∈ cs.map (fun c => UInt8.ofNat c.toNat), b.toNat < 0x80 := by
    intro b hb
    obtain ⟨c, hc, rfl⟩ := List.mem_map.mp hb
    exact (hcode c hc).symm ▸ h c hc
  exact (congrArg encode hback).symm.trans (encode_ascii hascii)

theorem toNat_ofNat_of_two_bytes {n : Nat} (h : 0x80 ≤ n) :
    (Char.ofNat n).toNat = 0 ∨ 0x80 ≤ (Char.ofNat n).toNat := by
  unfold Char.ofNat
  by_cases hv : n.isValidChar
  · right
    rw [dif_pos hv]
    exact h
  · left
    rw [dif_neg hv]
    rfl

theorem mem_of_mem_scan {state : Option Open} {bs : Bytes} (hs : ∀ o, state = some o → o.Long)
    (h : some c ∈ scan state bs) (hc : c.toNat < 0x80) (h0 : c.toNat ≠ 0) :
    UInt8.ofNat c.toNat ∈ bs := by
  induction bs generalizing state with
  | nil => cases state <;> simp [scan] at h
  | cons b rest ih =>
    have hfresh : some c ∈ scan none (b :: rest) → UInt8.ofNat c.toNat ∈ b :: rest := by
      intro h
      cases hl : lead b.toNat with
      | ascii d =>
        rw [scan_ascii hl] at h
        rcases List.mem_cons.mp h with h | h
        · obtain ⟨hb, rfl⟩ := ascii_of_lead hl
          rw [Option.some.inj h, toNat_ofNat_of_one_byte hb, UInt8.ofNat_toNat]
          exact List.mem_cons_self
        · exact List.mem_cons_of_mem _ (ih (by simp) h)
      | opens o =>
        rw [scan_opens hl] at h
        refine List.mem_cons_of_mem _ (ih (fun p hp => ?_) h)
        rw [← Option.some.inj hp]
        exact long_of_lead hl
      | stray =>
        simp only [scan, hl, List.mem_cons, reduceCtorEq, false_or] at h
        exact List.mem_cons_of_mem _ (ih (by simp) h)
    cases state with
    | none => exact hfresh h
    | some o =>
      have ho := hs o rfl
      rw [scan_some_cons] at h
      split at h
      · split at h
        · rcases List.mem_cons.mp h with h | h
          · have hlong : 0x80 ≤ o.code * 64 + (b.toNat - 0x80) := by
              unfold Open.Long at ho
              omega
            rw [Option.some.inj h] at hc h0
            rcases toNat_ofNat_of_two_bytes hlong with hz | hz
            · exact absurd hz h0
            · omega
          · exact List.mem_cons_of_mem _ (ih (by simp) h)
        · refine List.mem_cons_of_mem _ (ih (fun p hp => ?_) h)
          rw [← Option.some.inj hp]
          left
          unfold Open.Long at ho
          simp only
          omega
      · simp only [List.mem_cons, reduceCtorEq, false_or] at h
        exact hfresh (by simpa using h)

theorem newline_mem {bs : Bytes} (h : '\n' ∈ decodeLossy bs) : (10 : UInt8) ∈ bs := by
  obtain ⟨found, hm, he⟩ := List.mem_map.mp h
  cases found with
  | none => exact absurd he (by decide)
  | some c =>
    obtain rfl : c = '\n' := he
    exact mem_of_mem_scan (by simp) hm (by decide) (by decide)

theorem encode_append (cs ds : List Char) : encode (cs ++ ds) = encode cs ++ encode ds :=
  List.flatMap_append

/-- No character goes on with an ASCII byte. -/
theorem low_of_lead {n : Nat} (h : lead n = .opens o) : 0x80 ≤ o.low := by
  unfold lead at h
  grind

/-- An ASCII byte ends what is begun, and stands for itself: what comes before it and what comes
behind it are read apart. -/
theorem scan_append_ascii (hb : b.toNat < 0x80) {state : Option Open}
    (hs : ∀ o, state = some o → 0x80 ≤ o.low) (bs rest : Bytes) :
    scan state (bs ++ b :: rest) = scan state bs ++ some (Char.ofNat b.toNat) :: scan none rest := by
  induction bs generalizing state with
  | nil =>
    have hlead : scan none (b :: rest) = some (Char.ofNat b.toNat) :: scan none rest :=
      scan_ascii (lead_one hb)
    cases state with
    | none => exact hlead
    | some o =>
      have hlow := hs o rfl
      rw [List.nil_append, scan_some_cons, if_neg (by omega), hlead]
      rfl
  | cons d bs ih =>
    have hfresh : scan none (d :: (bs ++ b :: rest)) =
        scan none (d :: bs) ++ some (Char.ofNat b.toNat) :: scan none rest := by
      cases hl : lead d.toNat with
      | ascii c => rw [scan_ascii hl, scan_ascii hl, ih (by simp), List.cons_append]
      | opens o =>
        rw [scan_opens hl, scan_opens hl, ih]
        intro p hp
        rw [← Option.some.inj hp]
        exact low_of_lead hl
      | stray =>
        simp only [scan, hl, List.cons_append]
        rw [ih (by simp)]
    cases state with
    | none => exact hfresh
    | some o =>
      rw [List.cons_append, scan_some_cons, scan_some_cons]
      split
      · split
        · rw [ih (by simp), List.cons_append]
        · rw [ih]
          intro p hp
          obtain rfl := Option.some.inj hp
          exact Nat.le_refl 0x80
      · rw [hfresh, List.cons_append]

theorem decodeLossy_append_ascii (hb : b.toNat < 0x80) (bs rest : Bytes) :
    decodeLossy (bs ++ b :: rest) = decodeLossy bs ++ Char.ofNat b.toNat :: decodeLossy rest := by
  rw [decodeLossy, scan_append_ascii hb (by simp), List.map_append]
  rfl

end SignedHttp.Text.Utf8
