import SignedHttp.Proofs.CanonicalTargets

namespace SignedHttp

namespace Target

def plainPair : List Char × Option (List Char) → List Char
  | (key, some value) => key ++ '=' :: value
  | (key, none) => key

/-- A target as text, with nothing escaped. -/
def plain : Target → List Char
  | asterisk => ['*']
  | resource segments query =>
    List.intercalate ['/'] segments ++
      match query with
      | some pairs => '?' :: List.intercalate ['&'] (pairs.map plainPair)
      | none => []

theorem apart_of_delimiter {c : Char} (h : c ∈ delimiters) : Text.Percent.Apart c := by
  have hascii : ∀ c ∈ delimiters, c.toNat < 0x80 := Text.forall_mem_of_all (by decide)
  have hmark : ∀ c ∈ delimiters, c ≠ '%' := Text.forall_mem_of_all (by decide)
  have hdigit : ∀ c ∈ delimiters, Text.hexValue? c = none := Text.forall_mem_of_all (by decide)
  exact ⟨hascii c h, hmark c h, hdigit c h⟩

theorem plainPair_readPair (pair : List Char) :
    plainPair (readPair pair) = Text.Percent.decode pair := by
  unfold readPair
  cases hs : Text.splitFirst '=' pair with
  | none => rfl
  | some parts =>
    obtain ⟨rfl, -⟩ := Text.splitFirst_eq_some_iff.mp hs
    exact ((apart_of_delimiter (by decide)).decode_append parts.1 parts.2).symm

theorem intercalate_readPath (path : List Char) :
    List.intercalate ['/'] (readPath path) = Text.Percent.decode path := by
  rw [readPath, ← (apart_of_delimiter (by decide)).decode_intercalate, List.intercalate_splitOn]

theorem intercalate_readQuery (query : List Char) :
    List.intercalate ['&'] ((readQuery query).map plainPair) = Text.Percent.decode query := by
  have hpairs : (readQuery query).map plainPair =
      (List.splitOn '&' query).map Text.Percent.decode := by
    rw [readQuery, List.map_map]
    exact List.map_congr_left (fun pair _ => plainPair_readPair pair)
  rw [hpairs, ← (apart_of_delimiter (by decide)).decode_intercalate, List.intercalate_splitOn]

/-- Decoding a path and query part by part comes to decoding it as a whole, also where an escape or
the bytes of a character are cut by a delimiter. -/
theorem plain_read (target : List Char) : plain (read target) = Text.Percent.decode target := by
  unfold read
  split
  · next hstar =>
    obtain rfl := beq_iff_eq.mp hstar
    rfl
  · cases hs : Text.splitFirst '?' target with
    | none => simp only [plain, intercalate_readPath, List.append_nil]
    | some parts =>
      obtain ⟨rfl, -⟩ := Text.splitFirst_eq_some_iff.mp hs
      simp only [plain, intercalate_readPath, intercalate_readQuery]
      exact ((apart_of_delimiter (by decide)).decode_append parts.1 parts.2).symm

theorem hash_not_mem_pathAndQuery (uri : List Char) : '#' ∉ pathAndQuery uri := by
  have hfront : '#' ∉ uri.takeWhile (· != '#') := by
    intro hm
    exact absurd (List.mem_takeWhile_imp hm) (by decide)
  have hwhole : pathAndQuery uri = pathAndQuery (uri.takeWhile (· != '#')) := by
    unfold pathAndQuery relativePart
    rw [Text.takeWhile_ne_eq_self hfront]
  rw [hwhole]
  intro hm
  rcases mem_of_mem_pathAndQuery hm with hslash | hm
  · exact absurd hslash (by decide)
  · exact hfront hm

theorem pathAndQuery_pathAndQuery (uri : List Char) :
    pathAndQuery (pathAndQuery uri) = pathAndQuery uri := by
  have hhash := hash_not_mem_pathAndQuery uri
  rcases pathAndQuery_cases uri with hstar | ⟨rest, hslash⟩
  · rw [hstar]
    rfl
  · rw [hslash] at hhash ⊢
    rw [pathAndQuery, relativePart_slash (fun hm => hhash (List.mem_cons_of_mem _ hm))]
    rfl

end Target

namespace Escaping

variable {e : Escaping}

theorem unescaped_apply (uri : String) :
    unescaped.apply uri = String.ofList (Target.ofUri uri).plain := by
  rw [Target.ofUri, Target.plain_read]
  rfl

theorem ofUri_apply (he : e ≠ .unescaped) (uri : String) :
    Target.ofUri (e.apply uri) = Target.ofUri uri := by
  cases e with
  | rfc3986 => exact Rewrites.ofUri_apply (Or.inl rfl) uri
  | rfc2396 => exact Rewrites.ofUri_apply (Or.inr rfl) uri
  | unescaped => exact absurd rfl he
  | verbatim =>
    simp only [Target.ofUri, apply, String.toList_ofList, Target.pathAndQuery_pathAndQuery]

/-- A target that was escaped in any other way has the unescaped form that it had before. What was
decoded once is not to be decoded again: that would take escaped percent signs for escapes. -/
theorem unescaped_after_iff :
    (∀ uri, unescaped.apply (e.apply uri) = unescaped.apply uri) ↔ e ≠ .unescaped := by
  constructor
  · rintro hforgets rfl
    exact absurd (hforgets "%2541") (by decide +kernel)
  · intro he uri
    rw [unescaped_apply, unescaped_apply, ofUri_apply he]

end Escaping

namespace Sample

/-- An address in which delimiters cut the bytes of characters, and escapes break off. -/
def cutOff : String := "https://example.com/%E2%82/%AC%2?%=%C3&%A9=%4#%41"

theorem cutOff_escaped :
    Escaping.unescaped.apply (Escaping.rfc2396.apply cutOff) = Escaping.unescaped.apply cutOff ∧
      Escaping.unescaped.apply cutOff = "/\ufffd/\ufffd%2?%=\ufffd&\ufffd=%4" :=
  ⟨Escaping.unescaped_after_iff.mpr (by decide) cutOff, by decide +kernel⟩

end Sample

end SignedHttp
