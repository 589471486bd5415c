import SignedHttp.Proofs.Text.Ascii
import SignedHttp.Proofs.Text.Splitting
import SignedHttp.Proofs.Text.Utf8
import SignedHttp.Text.Base64

namespace SignedHttp.Text.Base64

def IsSign (b : UInt8) : Prop :=
  b = pad ∨ ∃ v < 64, b = symbol v

theorem value?_symbol {v : Nat} (h : v < 64) : value? (symbol v) = some v := by
  have hall : ∀ v < 64, value? (symbol v) = some v := by decide
  exact hall v h

theorem symbol_ne_pad {v : Nat} (h : v < 64) : symbol v ≠ pad := by
  have hall : ∀ v < 64, symbol v ≠ pad := by decide
  exact hall v h

theorem valueAt_symbol {v : Nat} (h : v < 64) (offset : Nat) :
    valueAt (symbol v) offset = .ok v := by
  simp [valueAt, value?_symbol h]

theorem IsSign.char {b : UInt8} (h : IsSign b) :
    b.toNat < 0x80 ∧ isBlank (Char.ofNat b.toNat) = false ∧ Char.ofNat b.toNat ≠ '"' := by
  rcases h with rfl | ⟨v, hv, rfl⟩
  · decide
  · have hall : ∀ v < 64, (symbol v).toNat < 0x80 ∧
        isBlank (Char.ofNat (symbol v).toNat) = false ∧
        Char.ofNat (symbol v).toNat ≠ '"' := by decide
    exact hall v hv

theorem IsSign.printed {b : UInt8} (h : IsSign b) : IsPrinted (Char.ofNat b.toNat) := by
  rcases h with rfl | ⟨v, hv, rfl⟩
  · decide
  · have hall : ∀ v < 64, IsPrinted (Char.ofNat (symbol v).toNat) := by decide
    exact hall v hv

theorem isSign_symbol {v : Nat} (h : v < 64) : IsSign (symbol v) := Or.inr ⟨v, h, rfl⟩

theorem isSign_of_mem_encodeBytes {bs : Bytes} : ∀ b ∈ encodeBytes bs, IsSign b := by
  fun_induction encodeBytes bs with
  | case1 => simp
  | case2 a =>
    have ha := a.toNat_lt
    simp only [List.mem_cons, List.not_mem_nil, or_false, forall_eq_or_imp, forall_eq]
    exact ⟨isSign_symbol (by omega), isSign_symbol (by omega), Or.inl rfl, Or.inl rfl⟩
  | case3 a b =>
    have ha := a.toNat_lt
    have hb := b.toNat_lt
    simp only [List.mem_cons, List.not_mem_nil, or_false, forall_eq_or_imp, forall_eq]
    exact ⟨isSign_symbol (by omega), isSign_symbol (by omega), isSign_symbol (by omega),
      Or.inl rfl⟩
  | case4 a b c rest ih =>
    have ha := a.toNat_lt
    have hb := b.toNat_lt
    have hc := c.toNat_lt
    simp only [List.mem_cons, forall_eq_or_imp]
    exact ⟨isSign_symbol (by omega), isSign_symbol (by omega), isSign_symbol (by omega),
      isSign_symbol (by omega), ih⟩

theorem lastValues_symbol {start v : Nat} (h : v < 64) (rest : Bytes) (values : List Nat) :
    lastValues start (symbol v :: rest) values 0 = lastValues start rest (values ++ [v]) 0 := by
  simp [lastValues, symbol_ne_pad h, value?_symbol h]

theorem lastValues_pad {start pads : Nat} (rest : Bytes) {values : List Nat}
    (h : 2 ≤ values.length + pads) :
    lastValues start (pad :: rest) values pads = lastValues start rest values (pads + 1) := by
  have hn : ¬ values.length + pads < 2 := by omega
  simp [lastValues, hn]

theorem decodeLast_two {start v w : Nat} (hv : v < 64) (hw : w < 64) (h : w % 16 = 0) :
    decodeLast start [symbol v, symbol w, pad, pad] = .ok [UInt8.ofNat (v * 4 + w / 16)] := by
  unfold decodeLast
  rw [lastValues_symbol hv, lastValues_symbol hw, lastValues_pad _ (by simp),
    lastValues_pad _ (by simp)]
  simp [lastValues, bind, Except.bind, pure, Except.pure, h]

theorem decodeLast_three {start v w x : Nat} (hv : v < 64) (hw : w < 64) (hx : x < 64)
    (h : x % 4 = 0) :
    decodeLast start [symbol v, symbol w, symbol x, pad] =
      .ok [UInt8.ofNat (v * 4 + w / 16), UInt8.ofNat (w % 16 * 16 + x / 4)] := by
  unfold decodeLast
  rw [lastValues_symbol hv, lastValues_symbol hw, lastValues_symbol hx, lastValues_pad _ (by simp)]
  simp [lastValues, bind, Except.bind, pure, Except.pure, h]

theorem decodeLast_four {start v w x y : Nat} (hv : v < 64) (hw : w < 64) (hx : x < 64)
    (hy : y < 64) :
    decodeLast start [symbol v, symbol w, symbol x, symbol y] =
      .ok [UInt8.ofNat (v * 4 + w / 16), UInt8.ofNat (w % 16 * 16 + x / 4),
        UInt8.ofNat (x % 4 * 64 + y)] := by
  unfold decodeLast
  rw [lastValues_symbol hv, lastValues_symbol hw, lastValues_symbol hx, lastValues_symbol hy]
  simp [lastValues, bind, Except.bind, pure, Except.pure]

theorem ofNat_eq {n : Nat} {b : UInt8} (h : n = b.toNat) : UInt8.ofNat n = b := by
  rw [h, UInt8.ofNat_toNat]

theorem decodeQuads_encodeBytes (bs : Bytes) (start : Nat) :
    decodeQuads start (encodeBytes bs) = .ok bs := by
  fun_induction encodeBytes bs generalizing start with
  | case1 => rfl
  | case2 a =>
    have ha := a.toNat_lt
    change decodeLast start _ = _
    rw [decodeLast_two (by omega) (by omega) (by omega), ofNat_eq (b := a) (by omega)]
  | case3 a b =>
    have ha := a.toNat_lt
    have hb := b.toNat_lt
    change decodeLast start _ = _
    rw [decodeLast_three (by omega) (by omega) (by omega) (by omega), ofNat_eq (b := a) (by omega),
      ofNat_eq (b := b) (by omega)]
  | case4 a b c rest ih =>
    have ha := a.toNat_lt
    have hb := b.toNat_lt
    have hc := c.toNat_lt
    cases hr : encodeBytes rest with
    | nil =>
      have hrest : rest = [] := by
        have he := ih 0
        rw [hr] at he
        exact (Except.ok.inj he).symm
      subst hrest
      change decodeLast start _ = _
      rw [decodeLast_four (by omega) (by omega) (by omega) (by omega), ofNat_eq (b := a) (by omega),
        ofNat_eq (b := b) (by omega), ofNat_eq (b := c) (by omega)]
    | cons e es =>
      have he := ih (start + 4)
      rw [hr] at he
      simp only [decodeQuads, valueAt_symbol (v := a.toNat / 4) (by omega),
        valueAt_symbol (v := a.toNat % 4 * 16 + b.toNat / 16) (by omega),
        valueAt_symbol (v := b.toNat % 16 * 4 + c.toNat / 64) (by omega),
        valueAt_symbol (v := c.toNat % 64) (by omega), he, bind, Except.bind, pure, Except.pure]
      rw [ofNat_eq (b := a) (by omega), ofNat_eq (b := b) (by omega), ofNat_eq (b := c) (by omega)]

theorem length_encodeBytes (bs : Bytes) : (encodeBytes bs).length % 4 = 0 := by
  fun_induction encodeBytes bs with
  | case1 => simp
  | case2 a => simp
  | case3 a b => simp
  | case4 a b c rest ih =>
    simp only [List.length_cons]
    omega

theorem decodeBytes_encodeBytes (bs : Bytes) : decodeBytes (encodeBytes bs) = .ok bs := by
  have hl : lengthFault? (encodeBytes bs) = none := by
    unfold lengthFault?
    rw [length_encodeBytes]
    split <;> simp
  simp [decodeBytes, hl, decodeQuads_encodeBytes]

theorem toList_encode (bs : Bytes) :
    (encode bs).toList = (encodeBytes bs).map (fun b => Char.ofNat b.toNat) := by
  simp [encode]

theorem forall_mem_encode (bs : Bytes) :
    ∀ c ∈ (encode bs).toList, isBlank c = false ∧ c ≠ '"' := by
  intro c hc
  rw [toList_encode] at hc
  obtain ⟨b, hb, rfl⟩ := List.mem_map.mp hc
  exact (isSign_of_mem_encodeBytes b hb).char.2

theorem isPrinted_of_mem_encode (bs : Bytes) : ∀ c ∈ (encode bs).toList, IsPrinted c := by
  intro c hc
  rw [toList_encode] at hc
  obtain ⟨b, hb, rfl⟩ := List.mem_map.mp hc
  exact (isSign_of_mem_encodeBytes b hb).printed

theorem decode_encode (bs : Bytes) : decode (encode bs) = .ok bs := by
  have htrim : trim (encode bs).toList = (encode bs).toList :=
    trim_eq_self_of_forall (fun c hc => (forall_mem_encode bs c hc).1)
  rw [decode, htrim, toList_encode,
    Utf8.encode_ascii (fun b hb => (isSign_of_mem_encodeBytes b hb).char.1),
    decodeBytes_encodeBytes]

end SignedHttp.Text.Base64
