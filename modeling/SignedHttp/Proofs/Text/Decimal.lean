import SignedHttp.Proofs.Text.Ascii
import SignedHttp.Text.Decimal

namespace SignedHttp.Text

theorem isPrinted_of_mem_toDigits (n : Nat) : ∀ c ∈ Nat.toDigits 10 n, IsPrinted c := by
  intro c hc
  have hdigit : c.isDigit = true := Nat.isDigit_of_mem_toDigits (by decide) (by decide) hc
  have hlt : c.toNat < 128 := toNat_lt_of_isAlphanum (by simp [Char.isAlphanum, hdigit])
  exact forall_char_lt (P := fun c => c.isDigit = true → IsPrinted c) (by decide) hlt hdigit

theorem isPrinted_of_mem_padded (width n : Nat) : ∀ c ∈ padded width n, IsPrinted c := by
  intro c hc
  rcases List.mem_append.mp hc with hc | hc
  · rw [List.eq_of_mem_replicate hc]
    decide
  · exact isPrinted_of_mem_toDigits n c hc

theorem isPrinted_of_mem_signedDecimal (n : Int) : ∀ c ∈ (signedDecimal n).toList, IsPrinted c := by
  rw [signedDecimal, String.toList_ofList, signedDigits]
  split
  · intro c hc
    rcases List.mem_cons.mp hc with rfl | hc
    · decide
    · exact isPrinted_of_mem_toDigits _ c hc
  · exact isPrinted_of_mem_toDigits _

theorem natural?_toDigits (n : Nat) : natural? (Nat.toDigits 10 n) = some n := by
  have hall : (Nat.toDigits 10 n).all Char.isDigit = true :=
    List.all_eq_true.mpr (fun _ hc => Nat.isDigit_of_mem_toDigits (by decide) (by decide) hc)
  have hne : (Nat.toDigits 10 n).isEmpty = false := by simp
  simp [natural?, hall, hne]

theorem integer?_signedDigits (n : Int) : integer? (signedDigits n) = some n := by
  unfold signedDigits
  split
  · next h =>
    simp only [integer?, natural?_toDigits, Option.map_some, Option.some.injEq, Int.ofNat_eq_natCast]
    omega
  · next h =>
    have hread : integer? (Nat.toDigits 10 n.natAbs) =
        (natural? (Nat.toDigits 10 n.natAbs)).map Int.ofNat := by
      cases hd : Nat.toDigits 10 n.natAbs with
      | nil => exact absurd hd Nat.toDigits_ne_nil
      | cons c cs =>
        have hc : c.isDigit = true :=
          Nat.isDigit_of_mem_toDigits (by decide) (by decide) (hd ▸ List.mem_cons_self)
        unfold integer?
        split
        · next heq =>
          obtain ⟨rfl, -⟩ := List.cons.inj heq
          exact absurd hc (by decide)
        · next heq =>
          obtain ⟨rfl, -⟩ := List.cons.inj heq
          exact absurd hc (by decide)
        · rfl
    rw [hread, natural?_toDigits]
    simp only [Option.map_some, Option.some.injEq, Int.ofNat_eq_natCast]
    omega

theorem signedDecimal_inj {m n : Int} (h : signedDecimal m = signedDecimal n) : m = n := by
  have hdigits : signedDigits m = signedDigits n := by
    simpa [signedDecimal] using congrArg String.toList h
  have hread := congrArg integer? hdigits
  rw [integer?_signedDigits, integer?_signedDigits] at hread
  exact Option.some.inj hread

theorem int64?_signedDecimal {n : Int} (hl : -0x8000000000000000 ≤ n)
    (hh : n < 0x8000000000000000) : int64? (signedDecimal n) = some n := by
  have hfits : (decide (-0x8000000000000000 ≤ n) && decide (n < 0x8000000000000000)) = true := by
    rw [decide_eq_true hl, decide_eq_true hh]
    rfl
  rw [int64?, signedDecimal, String.toList_ofList, integer?_signedDigits]
  exact Option.filter_some_pos hfits

end SignedHttp.Text
