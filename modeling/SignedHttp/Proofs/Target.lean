import SignedHttp.Target
import SignedHttp.Proofs.Text.Ascii
import SignedHttp.Proofs.Text.Splitting

namespace SignedHttp

namespace Text.Percent

variable {P : Char → Prop} {keep : Char → Bool} {cs : List Char}

def escapeSigns : List Char := "%0123456789ABCDEF".toList

theorem upperHexDigit_mem {d : Nat} (h : d < 16) : upperHexDigit d ∈ escapeSigns := by
  have hall : ∀ d < 16, upperHexDigit d ∈ escapeSigns := by decide
  exact hall d h

theorem forall_mem_encode (hescape : ∀ c ∈ escapeSigns, P c) (hkeep : ∀ c, keep c = true → P c) :
    ∀ c ∈ encode keep cs, P c := by
  intro c hc
  obtain ⟨b, -, hb⟩ := List.mem_flatMap.mp hc
  have hlt : b.toNat < 256 := b.toNat_lt
  unfold encodeByte at hb
  split at hb
  · next hk =>
    obtain rfl := List.mem_singleton.mp hb
    exact hkeep _ (Bool.and_eq_true_iff.mp hk).2
  · simp only [List.mem_cons, List.not_mem_nil, or_false] at hb
    rcases hb with rfl | rfl | rfl
    · exact hescape _ (by decide)
    · exact hescape _ (upperHexDigit_mem (by omega))
    · exact hescape _ (upperHexDigit_mem (by omega))

end Text.Percent

namespace Target

variable {P : Char → Prop} {inPath inQuery : Char → Bool} {uri : List Char} {c : Char}

def delimiters : List Char := "*/?&=".toList

/-- What holds of delimiters, escapes and all characters that are kept, holds of a written
target. -/
theorem forall_mem_write (hdelimiter : ∀ c ∈ delimiters, P c)
    (hescape : ∀ c ∈ Text.Percent.escapeSigns, P c) (hpath : ∀ c, inPath c = true → P c)
    (hquery : ∀ c, inQuery c = true → P c) (t : Target) : ∀ c ∈ write inPath inQuery t, P c := by
  have hpair : ∀ pair, ∀ c ∈ writePair inQuery pair, P c := by
    intro pair c hc
    obtain ⟨key, value⟩ := pair
    cases value with
    | none => exact Text.Percent.forall_mem_encode hescape hquery c hc
    | some value =>
      rcases List.mem_append.mp hc with hc | hc
      · exact Text.Percent.forall_mem_encode hescape hquery c hc
      · rcases List.mem_cons.mp hc with rfl | hc
        · exact hdelimiter _ (by decide)
        · exact Text.Percent.forall_mem_encode hescape hquery c hc
  cases t with
  | asterisk => exact fun c hc => hdelimiter c (by simp_all [write, delimiters])
  | resource segments query =>
    intro c hc
    rcases List.mem_append.mp hc with hc | hc
    · rcases Text.mem_intercalate hc with hc | ⟨part, hpart, hc⟩
      · exact hdelimiter c (by simp_all [delimiters])
      · obtain ⟨segment, -, rfl⟩ := List.mem_map.mp hpart
        exact Text.Percent.forall_mem_encode hescape hpath c hc
    · cases query with
      | none => cases hc
      | some pairs =>
        rcases List.mem_cons.mp hc with rfl | hc
        · exact hdelimiter _ (by decide)
        · rcases Text.mem_intercalate hc with hc | ⟨part, hpart, hc⟩
          · exact hdelimiter c (by simp_all [delimiters])
          · obtain ⟨pair, -, rfl⟩ := List.mem_map.mp hpart
            exact hpair pair c hc

theorem suffix_of_cutScheme? {cs scheme rest : List Char}
    (h : cutScheme? cs = some (scheme, rest)) : rest <:+ cs := by
  induction cs generalizing scheme with
  | nil => cases h
  | cons d ds ih =>
    unfold cutScheme? at h
    split at h
    · obtain ⟨-, rfl⟩ := Prod.mk.inj (Option.some.inj h)
      exact List.drop_suffix _ _
    · obtain ⟨⟨front, back⟩, hcut, he⟩ := Option.map_eq_some_iff.mp h
      obtain ⟨-, rfl⟩ := Prod.mk.inj he
      exact (ih hcut).trans (List.suffix_cons d ds)

theorem mem_of_mem_relativePart (h : c ∈ relativePart uri) : c ∈ uri := by
  have hwhole : ∀ d, d ∈ uri.takeWhile (· != '#') → d ∈ uri :=
    fun d hd => (List.takeWhile_prefix _).mem hd
  unfold relativePart at h
  simp only at h
  split at h
  · next scheme rest hcut =>
    split at h
    · exact hwhole c ((suffix_of_cutScheme? hcut).mem ((List.dropWhile_sublist _).mem h))
    · exact hwhole c h
  · exact hwhole c h

/-- Nothing but a slash in front is put into an address. -/
theorem mem_of_mem_pathAndQuery (h : c ∈ pathAndQuery uri) : c = '/' ∨ c ∈ uri := by
  unfold pathAndQuery at h
  split at h
  · next he => exact Or.inr (mem_of_mem_relativePart (he ▸ h))
  · next rest he => exact Or.inr (mem_of_mem_relativePart (he ▸ h))
  · rcases List.mem_cons.mp h with rfl | h
    · exact Or.inl rfl
    · exact Or.inr (mem_of_mem_relativePart h)

end Target

namespace Escaping

variable {e : Escaping}

/-- A way of escaping that writes the target anew, from what it stands for. -/
def Rewrites (e : Escaping) : Prop :=
  e = .rfc3986 ∨ e = .rfc2396

/-- A target that is written anew holds no line break, whatever the address. -/
theorem Rewrites.newline_not_mem (h : e.Rewrites) (uri : String) :
    '\n' ∉ (e.apply uri).toList := by
  have hwritten : ∀ {inPath inQuery : Char → Bool} (t : Target), inPath '\n' = false →
      inQuery '\n' = false → '\n' ∉ t.write inPath inQuery := by
    intro inPath inQuery t hpath hquery hm
    refine Target.forall_mem_write (P := (· ≠ '\n')) (Text.forall_mem_of_all (by decide))
      (Text.forall_mem_of_all (by decide)) ?_ ?_ t _ hm rfl
    · rintro c hc rfl
      rw [hpath] at hc
      cases hc
    · rintro c hc rfl
      rw [hquery] at hc
      cases hc
  rcases h with rfl | rfl
  · simp only [apply, String.toList_ofList]
    exact hwritten _ (by decide) (by decide)
  · simp only [apply, String.toList_ofList]
    exact hwritten _ (by decide) (by decide)

/-- Only decoding puts a line break into a target. -/
theorem newline_not_mem_apply (he : e ≠ .unescaped) {uri : String} (hu : '\n' ∉ uri.toList) :
    '\n' ∉ (e.apply uri).toList := by
  cases e with
  | rfc3986 => exact Rewrites.newline_not_mem (Or.inl rfl) uri
  | rfc2396 => exact Rewrites.newline_not_mem (Or.inr rfl) uri
  | unescaped => exact absurd rfl he
  | verbatim =>
    simp only [apply, String.toList_ofList]
    intro hm
    rcases Target.mem_of_mem_pathAndQuery hm with hslash | hm
    · exact absurd hslash (by decide)
    · exact hu hm

end Escaping

end SignedHttp
