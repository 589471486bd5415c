import Mathlib.Algebra.GroupWithZero.Nat
import SignedHttp.Proofs.Key
import SignedHttp.Store.Archive

namespace SignedHttp

open Crypto

namespace Crypto

theorem ofBytes_append (bs : Bytes) (b : UInt8) :
    ofBytes (bs ++ [b]) = 256 * ofBytes bs + b.toNat := by
  rw [ofBytes, List.foldl_append, List.foldl_cons, List.foldl_nil, ← ofBytes]

theorem ofBytes_zero (bs : Bytes) : ofBytes (0 :: bs) = ofBytes bs := rfl

theorem ofBytes_toBytes {len n : Nat} (h : n < 256 ^ len) : ofBytes (toBytes len n) = n := by
  induction len generalizing n with
  | zero =>
    rw [Nat.pow_zero, Nat.lt_one_iff] at h
    rw [h]
    rfl
  | succ len ih =>
    have hrest : n / 256 < 256 ^ len := by
      rw [Nat.pow_succ] at h
      exact Nat.div_lt_of_lt_mul (Nat.mul_comm _ _ ▸ h)
    rw [toBytes, ofBytes_append, ih hrest, UInt8.toNat_ofNat']
    exact Nat.div_add_mod n 256

theorem byteLength_le {n k : Nat} (h : n < 256 ^ k) : byteLength n ≤ k := by
  unfold byteLength
  split
  · exact Nat.zero_le k
  · next hn =>
    rw [show 256 = 2 ^ 8 from rfl, ← Nat.pow_mul] at h
    have hlog : n.log2 < 8 * k := (Nat.log2_lt hn).mpr h
    omega

theorem lt_pow_byteLength (n : Nat) : n < 256 ^ byteLength n := by
  unfold byteLength
  split
  · next hn => simp [hn]
  · next hn =>
    rw [show 256 = 2 ^ 8 from rfl, ← Nat.pow_mul]
    exact (Nat.log2_lt hn).mp (by omega)

theorem ofBytes_minimalBytes (n : Nat) : ofBytes (minimalBytes n) = n :=
  ofBytes_toBytes (lt_pow_byteLength n)

theorem length_minimalBytes (n : Nat) : (minimalBytes n).length = byteLength n :=
  length_toBytes ..

namespace Der

variable {n : Nat} {value rest : Bytes}

theorem readLength?_lengthBytes (h : n < 256 ^ 4) (rest : Bytes) :
    readLength? (lengthBytes n ++ rest) = some (n, rest) := by
  have hround : ∀ k < 256, (UInt8.ofNat k).toNat = k := fun k hk => by
    rw [UInt8.toNat_ofNat', Nat.mod_eq_of_lt hk]
  by_cases hn : n < 0x80
  · have hshort : UInt8.ofNat n < 0x80 := by
      rw [UInt8.lt_iff_toNat_lt, hround n (by omega)]
      exact hn
    rw [lengthBytes, if_pos hn, List.cons_append, List.nil_append, readLength?, if_pos hshort,
      hround n (by omega)]
  · have hle := byteLength_le h
    have hpos : byteLength n ≠ 0 := by
      unfold byteLength
      split <;> omega
    have hlong : ¬ UInt8.ofNat (0x80 + byteLength n) < 0x80 := by
      rw [UInt8.lt_iff_toNat_lt, hround _ (by omega)]
      change ¬ 0x80 + byteLength n < 128
      omega
    have hlength := length_minimalBytes n
    have hform : lengthBytes n = UInt8.ofNat (0x80 + byteLength n) :: minimalBytes n := by
      rw [lengthBytes, if_neg hn]
    have hroom : byteLength n ≤ (minimalBytes n).length + rest.length := by omega
    have hfour : ¬ byteLength n > 4 := by omega
    rw [hform, List.cons_append, readLength?, if_neg hlong]
    simp only [hround _ (show 0x80 + byteLength n < 256 by omega), Nat.add_sub_cancel_left,
      List.take_left' hlength, List.drop_left' hlength, ofBytes_minimalBytes]
    simp [hpos, hroom, hfour, hform]

theorem readElement?_element {tag : UInt8} (h : value.length < 256 ^ 4) (rest : Bytes) :
    readElement? tag (element tag value ++ rest) = some (value, rest) := by
  have hroom : ¬ (value ++ rest).length < value.length := by
    rw [List.length_append]
    omega
  have hform : element tag value ++ rest =
      tag :: (lengthBytes value.length ++ (value ++ rest)) := by
    simp [element]
  rw [hform, readElement?]
  simp only [bne_self_eq_false, Bool.false_eq_true, ↓reduceIte, bind, Option.bind,
    readLength?_lengthBytes h, hroom, List.take_left, List.drop_left]
  rfl

theorem readWhole?_element (tag : UInt8) (h : value.length < 256 ^ 4) :
    readWhole? tag (element tag value) = some value := by
  have hread : readElement? tag (element tag value ++ []) = some (value, []) :=
    readElement?_element h []
  rw [List.append_nil] at hread
  rw [readWhole?, hread]
  rfl

theorem ofBytes_unsigned (n : Nat) : ofBytes (unsigned n) = n := by
  have hn := ofBytes_minimalBytes n
  unfold unsigned
  split
  · next hm =>
    rw [hm] at hn
    exact hn
  · next b bs hm =>
    rw [hm] at hn
    split
    · rwa [ofBytes_zero]
    · exact hn

theorem length_unsigned_le {k : Nat} (h : n < 256 ^ k) : (unsigned n).length ≤ k + 1 := by
  have hk := byteLength_le h
  have hlength := length_minimalBytes n
  unfold unsigned
  split
  · rw [List.length_singleton]
    omega
  · next b bs hm =>
    rw [hm, List.length_cons] at hlength
    split <;> simp only [List.length_cons] <;> omega

theorem readUnsigned?_element (h : (unsigned n).length < 256 ^ 4) (rest : Bytes) :
    readUnsigned? (element integerTag (unsigned n) ++ rest) = some (n, rest) := by
  rw [readUnsigned?, readElement?_element h]
  simp [ofBytes_unsigned]

theorem length_element_le (tag : UInt8) (h : value.length < 256 ^ 4) :
    (element tag value).length ≤ value.length + 6 := by
  have hle := byteLength_le h
  have hlength := length_minimalBytes value.length
  rw [element, List.length_append, List.length_cons, lengthBytes]
  split
  · rw [List.length_singleton]
    omega
  · rw [List.length_cons]
    omega

theorem one_shiftLeft_bytes (k : Nat) : 1 <<< (8 * k) = 256 ^ k := by
  rw [Nat.one_shiftLeft, Nat.pow_mul]

theorem bounds_of_usable {key : Rsa.PublicKey} (h : key.usable = true) :
    key.modulus < 256 ^ 512 ∧ key.exponent < 256 ^ 512 := by
  have hpow : 1 <<< 4096 = 256 ^ 512 := one_shiftLeft_bytes 512
  simp only [Rsa.PublicKey.usable, hpow, Bool.and_eq_true, decide_eq_true_eq] at h
  exact ⟨h.1.1.1.1.1, Nat.lt_trans h.1.1.1.1.2 h.1.1.1.1.1⟩

theorem decodeKey?_encodeKey {key : Rsa.PublicKey} (h : key.usable = true) :
    decodeKey? (encodeKey key) = some key := by
  obtain ⟨hmodulus, hexponent⟩ := bounds_of_usable h
  have hm := length_unsigned_le hmodulus
  have he := length_unsigned_le hexponent
  have hmshort : (unsigned key.modulus).length < 256 ^ 4 := by omega
  have heshort : (unsigned key.exponent).length < 256 ^ 4 := by omega
  have hme := length_element_le integerTag hmshort
  have hee := length_element_le integerTag heshort
  have hnumbers : (element integerTag (unsigned key.modulus) ++
      element integerTag (unsigned key.exponent)).length < 256 ^ 4 := by
    rw [List.length_append]
    omega
  have hbody := length_element_le sequenceTag hnumbers
  rw [List.length_append] at hbody
  have hid : (element sequenceTag rsaIdentifier).length = 15 := rfl
  have hinner : (0 :: element sequenceTag (element integerTag (unsigned key.modulus) ++
      element integerTag (unsigned key.exponent))).length < 256 ^ 4 := by
    rw [List.length_cons]
    omega
  have hbits := length_element_le bitStringTag hinner
  rw [List.length_cons] at hbits
  have hexponent' := readUnsigned?_element heshort []
  rw [List.append_nil] at hexponent'
  rw [decodeKey?, encodeKey]
  simp only
  rw [readWhole?_element _ (by rw [List.length_append]; omega)]
  simp only [Option.bind_eq_bind, Option.bind_some]
  rw [readElement?_element (by decide)]
  simp only [bne_self_eq_false, Bool.false_eq_true, ↓reduceIte, Option.bind_some]
  rw [readWhole?_element _ hinner]
  simp only [Option.bind_some]
  rw [readWhole?_element _ hnumbers]
  simp only [Option.bind_some]
  rw [readUnsigned?_element hmshort]
  simp only [Option.bind_some, hexponent']
  simp [h]

end Der

namespace P256

theorem decode?_encode {q : Point} (h : onCurve q = true) : decode? (encode q) = some q := by
  have hp : p < 256 ^ 32 := by decide
  have hbounds : q.x < p ∧ q.y < p := by
    simp only [onCurve, Bool.and_eq_true, decide_eq_true_eq] at h
    exact h.1
  have hx : ofBytes (toBytes 32 q.x) = q.x := ofBytes_toBytes (Nat.lt_trans hbounds.1 hp)
  have hy : ofBytes (toBytes 32 q.y) = q.y := ofBytes_toBytes (Nat.lt_trans hbounds.2 hp)
  have hlength : (toBytes 32 q.x ++ toBytes 32 q.y).length = 64 := by
    rw [List.length_append, length_toBytes, length_toBytes]
  rw [encode, List.cons_append, decode?]
  simp only [hlength, BEq.rfl, Bool.and_self, ↓reduceIte, List.take_left' (length_toBytes 32 q.x),
    List.drop_left' (length_toBytes 32 q.x), hx, hy, h]

end P256

end Crypto

namespace Key

/-- What is needed to check signatures: a secret, or the public half of a pair. -/
def publicHalf : Key → Key
  | hmac secret hash => hmac secret hash
  | rsa publicHalf _ hash => rsa publicHalf none hash
  | ecdsa point _ hash => ecdsa point none hash

/-- The public half is what key generation gives: numbers of a usual size, or a point of the
curve. -/
def Genuine : Key → Prop
  | hmac .. => True
  | rsa publicHalf .. => publicHalf.usable = true
  | ecdsa point .. => P256.onCurve point = true

/-- A stored key is read back, but for its private half. -/
theorem ofMaterial?_material {k : Key} (h : k.Genuine) :
    StorableKey.ofMaterial? (family k) (hash k) (StorableKey.material k) = some k.publicHalf := by
  cases k with
  | hmac secret hash => rfl
  | rsa publicHalf exponent hash =>
    change (Der.decodeKey? (Der.encodeKey publicHalf)).map _ = _
    rw [Der.decodeKey?_encodeKey h]
    rfl
  | ecdsa point scalar hash =>
    change (P256.decode? (P256.encode point)).map _ = _
    rw [P256.decode?_encode h]
    rfl

end Key

end SignedHttp
