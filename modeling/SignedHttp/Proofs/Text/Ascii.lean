import SignedHttp.Text.Ascii
import SignedHttp.Text.Blank

namespace SignedHttp.Text

theorem forall_mem_of_all {P : Char → Prop} [DecidablePred P] {cs : List Char}
    (h : cs.all (fun c => decide (P c)) = true) : ∀ c ∈ cs, P c :=
  fun c hc => of_decide_eq_true (List.all_eq_true.mp h c hc)

theorem forall_char_lt {bound : Nat} {P : Char → Prop} (h : ∀ n < bound, P (Char.ofNat n)) {c : Char}
    (hc : c.toNat < bound) : P c := by
  have hp := h c.toNat hc
  rwa [Char.ofNat_toNat] at hp

/-- The characters of ASCII that are printed, the blank among them. -/
def IsPrinted (c : Char) : Prop :=
  32 ≤ c.toNat ∧ c.toNat < 127

instance : DecidablePred IsPrinted :=
  fun c => inferInstanceAs (Decidable (32 ≤ c.toNat ∧ c.toNat < 127))

theorem newline_not_mem_of_printed {cs : List Char} (h : ∀ c ∈ cs, IsPrinted c) : '\n' ∉ cs :=
  fun hm => absurd (h _ hm) (by decide)

theorem toNat_lt_of_isAlphanum {c : Char} (h : c.isAlphanum = true) : c.toNat < 128 := by
  delta Char.isAlphanum Char.isAlpha Char.isUpper Char.isLower Char.isDigit at h
  simp only [Bool.or_eq_true, Bool.and_eq_true, decide_eq_true_eq, UInt32.le_iff_toNat_le,
    ge_iff_le] at h
  have hc : c.toNat = c.val.toNat := rfl
  have hz : 'Z'.val.toNat = 90 := rfl
  have hl : 'z'.val.toNat = 122 := rfl
  have h9 : '9'.val.toNat = 57 := rfl
  omega

theorem toNat_lt_of_isTokenChar {c : Char} (h : isTokenChar c = true) : c.toNat < 128 := by
  simp only [isTokenChar, Bool.or_eq_true] at h
  rcases h with h | h
  · exact toNat_lt_of_isAlphanum h
  · have hall : ∀ d ∈ "!#$%&'*+-.^_`|~".toList, d.toNat < 128 := forall_mem_of_all (by decide)
    exact hall c (List.contains_iff_mem.mp h)

theorem not_isBlank_of_isTokenChar {c : Char} (h : isTokenChar c = true) : isBlank c = false :=
  forall_char_lt (P := fun c => isTokenChar c = true → isBlank c = false) (by decide)
    (toNat_lt_of_isTokenChar h) h

theorem toLower_eq_self {c : Char} (h : c.isUpper = false) : c.toLower = c := by
  delta Char.toLower
  split
  · next hu =>
    have ht : c.isUpper = true := by
      delta Char.isUpper
      simpa using hu
    rw [ht] at h
    cases h
  · rfl

theorem lower_eq_self {cs : List Char} (h : cs.all (fun c => !c.isUpper) = true) :
    lower cs = cs := by
  unfold lower
  refine (List.map_congr_left ?_).trans (List.map_id cs)
  intro c hc
  exact toLower_eq_self (by simpa using List.all_eq_true.mp h c hc)

theorem isUpper_toLower (c : Char) : c.toLower.isUpper = false := by
  delta Char.toLower Char.isUpper
  grind

theorem isLowerToken_lower (cs : List Char) : isLowerToken (lower cs) = isToken (lower cs) := by
  have hall : (lower cs).all (fun c => !c.isUpper) = true := by
    refine List.all_eq_true.mpr fun c hc => ?_
    obtain ⟨d, -, rfl⟩ := List.mem_map.mp hc
    rw [isUpper_toLower, Bool.not_false]
  rw [isLowerToken, hall, Bool.and_true]

theorem equalIgnoringCase_refl (s : String) : equalIgnoringCase s s = true := by
  simp [equalIgnoringCase]

theorem equalIgnoringCase_iff {a b : String} :
    equalIgnoringCase a b = true ↔ lower a.toList = lower b.toList := by
  simp [equalIgnoringCase]

end SignedHttp.Text
