import SignedHttp.Proofs.Target
import SignedHttp.Proofs.Text.Percent

namespace SignedHttp

namespace Target

/-- The segments of a path with a query: what stands between slashes in front of the first question
mark. -/
def segmentsOf (target : List Char) : List (List Char) :=
  (List.splitOn '/' (target.takeWhile (· != '?'))).map Text.Percent.decode

def pairOf (pair : List Char) : List Char × Option (List Char) :=
  (Text.Percent.decode (pair.takeWhile (· != '=')),
    if '=' ∈ pair then some (Text.Percent.decode (pair.dropWhile (· != '=')).tail) else none)

def queryOf? (target : List Char) : Option (List (List Char × Option (List Char))) :=
  if '?' ∈ target then some ((List.splitOn '&' (target.dropWhile (· != '?')).tail).map pairOf)
  else none

/-- Two paths with queries are both `*`, or decode to the same segments and the same pairs. -/
def SameStructure (p q : List Char) : Prop :=
  p = ['*'] ∧ q = ['*'] ∨
    p ≠ ['*'] ∧ q ≠ ['*'] ∧ segmentsOf p = segmentsOf q ∧ queryOf? p = queryOf? q

instance (p q : List Char) : Decidable (SameStructure p q) :=
  inferInstanceAs (Decidable (_ ∨ _))

theorem readPair_eq (pair : List Char) : readPair pair = pairOf pair := by
  unfold readPair pairOf
  rw [Text.splitFirst_eq]
  by_cases hm : '=' ∈ pair
  · simp only [hm, ↓reduceIte]
  · simp only [hm, ↓reduceIte, Text.takeWhile_ne_eq_self hm]

theorem read_eq {target : List Char} (h : target ≠ ['*']) :
    read target = resource (segmentsOf target) (queryOf? target) := by
  have hstar : (target == ['*']) = false := by simpa using h
  have hquery : ∀ query, readQuery query = (List.splitOn '&' query).map pairOf :=
    fun query => List.map_congr_left (fun pair _ => readPair_eq pair)
  unfold read segmentsOf queryOf?
  rw [hstar, Text.splitFirst_eq]
  by_cases hm : '?' ∈ target
  · simp only [hm, ↓reduceIte, Bool.false_eq_true, readPath, hquery]
  · simp only [hm, ↓reduceIte, Bool.false_eq_true, readPath, Text.takeWhile_ne_eq_self hm]

theorem read_eq_iff {p q : List Char} : read p = read q ↔ SameStructure p q := by
  have hstar : read ['*'] = asterisk := rfl
  unfold SameStructure
  by_cases hp : p = ['*'] <;> by_cases hq : q = ['*']
  · simp [hp, hq]
  · simp [hp, hq, hstar, read_eq hq]
  · simp [hp, hq, hstar, read_eq hp]
  · simp [hp, hq, read_eq hp, read_eq hq]

/-- Characters that stay unescaped: none that separates two parts, starts an escape, or starts a
fragment. -/
structure Separating (inPath inQuery : Char → Bool) : Prop where
  path : ∀ c ∈ "%/?#".toList, inPath c = false
  query : ∀ c ∈ "%&=#".toList, inQuery c = false

/-- A target as an address gives it: the path starts with a slash, and a query has a pair, if only
an empty one. -/
def Absolute : Target → Prop
  | asterisk => True
  | resource segments query => (∃ s ss, segments = [] :: s :: ss) ∧ query ≠ some []

variable {keep inPath inQuery : Char → Bool}

theorem not_mem_encode {c : Char} {cs : List Char} (hc : keep c = false)
    (hs : c ∉ Text.Percent.escapeSigns) : c ∉ Text.Percent.encode keep cs := by
  intro hm
  refine Text.Percent.forall_mem_encode (P := (· ≠ c)) ?_ ?_ c hm rfl
  · rintro d hd rfl
    exact hs hd
  · rintro d hd rfl
    rw [hc] at hd
    cases hd

theorem exists_write_resource (inPath inQuery : Char → Bool) (s : List Char)
    (ss : List (List Char)) (query : Option (List (List Char × Option (List Char)))) :
    ∃ rest, write inPath inQuery (resource ([] :: s :: ss) query) = '/' :: rest := by
  simp only [write]
  rw [List.map_cons, List.intercalate_cons_of_ne_nil (by simp)]
  exact ⟨_, rfl⟩

namespace Separating

variable (h : Separating inPath inQuery)

include h

theorem readPath_intercalate {segments : List (List Char)} (hne : segments ≠ []) :
    readPath (List.intercalate ['/'] (segments.map (Text.Percent.encode inPath))) = segments := by
  have hno : ∀ w ∈ segments.map (Text.Percent.encode inPath), '/' ∉ w := by
    intro w hw
    obtain ⟨segment, -, rfl⟩ := List.mem_map.mp hw
    exact not_mem_encode (h.path _ (by decide)) (by decide)
  rw [readPath, List.splitOn_intercalate _ hno (by simpa using hne), List.map_map]
  refine (List.map_congr_left ?_).trans (List.map_id segments)
  intro segment _
  exact Text.Percent.decode_encode (h.path _ (by decide)) segment

theorem readPair_writePair (pair : List Char × Option (List Char)) :
    readPair (writePair inQuery pair) = pair := by
  have hdecode := Text.Percent.decode_encode (h.query '%' (by decide))
  have hno : ∀ cs, '=' ∉ Text.Percent.encode inQuery cs :=
    fun _ => not_mem_encode (h.query _ (by decide)) (by decide)
  obtain ⟨key, value⟩ := pair
  cases value with
  | none =>
    rw [readPair, writePair, Text.splitFirst_eq, if_neg (hno key)]
    simp only [hdecode]
  | some value =>
    rw [readPair, writePair, Text.splitFirst_append _ (hno key)]
    simp only [hdecode]

theorem readQuery_intercalate {pairs : List (List Char × Option (List Char))} (hne : pairs ≠ []) :
    readQuery (List.intercalate ['&'] (pairs.map (writePair inQuery))) = pairs := by
  have hno : ∀ cs, '&' ∉ Text.Percent.encode inQuery cs :=
    fun _ => not_mem_encode (h.query _ (by decide)) (by decide)
  have hpair : ∀ w ∈ pairs.map (writePair inQuery), '&' ∉ w := by
    intro w hw
    obtain ⟨⟨key, value⟩, -, rfl⟩ := List.mem_map.mp hw
    cases value with
    | none => exact hno key
    | some value => simp [writePair, hno]
  rw [readQuery, List.splitOn_intercalate _ hpair (by simpa using hne), List.map_map]
  refine (List.map_congr_left ?_).trans (List.map_id pairs)
  intro pair _
  exact h.readPair_writePair pair

theorem read_write {t : Target} (ht : t.Absolute) : read (write inPath inQuery t) = t := by
  cases t with
  | asterisk => rfl
  | resource segments query =>
    obtain ⟨⟨s, ss, rfl⟩, hquery⟩ := ht
    have hstar : (write inPath inQuery (resource ([] :: s :: ss) query) == ['*']) = false := by
      obtain ⟨rest, hw⟩ := exists_write_resource inPath inQuery s ss query
      simp [hw]
    have hmark : '?' ∉
        List.intercalate ['/'] (([] :: s :: ss).map (Text.Percent.encode inPath)) := by
      refine Text.not_mem_intercalate (by decide) (fun part hp => ?_)
      obtain ⟨segment, -, rfl⟩ := List.mem_map.mp hp
      exact not_mem_encode (h.path _ (by decide)) (by decide)
    have hpath : readPath
        (List.intercalate ['/'] (([] :: s :: ss).map (Text.Percent.encode inPath))) =
          [] :: s :: ss := h.readPath_intercalate (by simp)
    unfold read
    rw [hstar]
    cases query with
    | none =>
      simp only [write, List.append_nil, Text.splitFirst_eq, hmark, ↓reduceIte,
        Bool.false_eq_true, hpath]
    | some pairs =>
      have hpairs : readQuery (List.intercalate ['&'] (pairs.map (writePair inQuery))) = pairs :=
        h.readQuery_intercalate (fun he => hquery (he ▸ rfl))
      simp only [write, Text.splitFirst_append _ hmark, Bool.false_eq_true, ↓reduceIte, hpath,
        hpairs]

end Separating

theorem relativePart_slash {rest : List Char} (h : '#' ∉ rest) :
    relativePart ('/' :: rest) = '/' :: rest := by
  have hwhole : ('/' :: rest).takeWhile (· != '#') = '/' :: rest :=
    Text.takeWhile_ne_eq_self (by simpa using h)
  have hcut : cutScheme? ('/' :: rest) = (cutScheme? rest).map (Prod.map ('/' :: ·) id) := rfl
  unfold relativePart
  simp only [hwhole, hcut]
  cases cutScheme? rest with
  | none => rfl
  | some found => rfl

theorem pathAndQuery_cases (uri : List Char) :
    pathAndQuery uri = ['*'] ∨ ∃ rest, pathAndQuery uri = '/' :: rest := by
  unfold pathAndQuery
  split
  · exact Or.inl rfl
  · exact Or.inr ⟨_, rfl⟩
  · exact Or.inr ⟨_, rfl⟩

theorem absolute_read (rest : List Char) : (read ('/' :: rest)).Absolute := by
  have hpath : ∀ path, ∃ s ss, readPath ('/' :: path) = [] :: s :: ss := by
    intro path
    obtain ⟨s, ss, hs⟩ := List.exists_cons_of_ne_nil (List.splitOn_ne_nil '/' path)
    refine ⟨Text.Percent.decode s, ss.map Text.Percent.decode, ?_⟩
    rw [readPath, List.splitOn_cons_eq_if_modifyHead, if_pos (beq_self_eq_true '/'), hs]
    rfl
  have hquery : ∀ query, some (readQuery query) ≠ some [] := by
    intro query he
    exact List.splitOn_ne_nil '&' query (List.map_eq_nil_iff.mp (Option.some.inj he))
  have hstar : (('/' :: rest) == ['*']) = false := by simp
  unfold read
  rw [hstar]
  simp only [Bool.false_eq_true, ↓reduceIte, Text.splitFirst]
  cases Text.splitFirst '?' rest with
  | none => exact ⟨hpath rest, by simp⟩
  | some found => exact ⟨hpath found.1, hquery found.2⟩

theorem absolute_ofUri (uri : String) : (ofUri uri).Absolute := by
  unfold ofUri
  rcases pathAndQuery_cases uri.toList with hstar | ⟨rest, hslash⟩
  · rw [hstar]
    trivial
  · rw [hslash]
    exact absolute_read rest

theorem Separating.pathAndQuery_write (h : Separating inPath inQuery) {t : Target}
    (ht : t.Absolute) : pathAndQuery (write inPath inQuery t) = write inPath inQuery t := by
  cases t with
  | asterisk => rfl
  | resource segments query =>
    obtain ⟨⟨s, ss, rfl⟩, -⟩ := ht
    have hmark : '#' ∉ write inPath inQuery (resource ([] :: s :: ss) query) := by
      have hkept : ∀ {keep : Char → Bool}, keep '#' = false → ∀ c, keep c = true → c ≠ '#' := by
        rintro keep hno c hc rfl
        rw [hno] at hc
        cases hc
      intro hm
      exact forall_mem_write (P := (· ≠ '#')) (Text.forall_mem_of_all (by decide))
        (Text.forall_mem_of_all (by decide)) (hkept (h.path _ (by decide)))
        (hkept (h.query _ (by decide))) _ _ hm rfl
    obtain ⟨rest, hw⟩ := exists_write_resource inPath inQuery s ss query
    rw [hw] at hmark ⊢
    unfold pathAndQuery
    rw [relativePart_slash (fun hm => hmark (List.mem_cons_of_mem _ hm))]
    rfl

theorem Separating.ofUri_write (h : Separating inPath inQuery) {t : Target} (ht : t.Absolute) :
    ofUri (String.ofList (write inPath inQuery t)) = t := by
  rw [ofUri, String.toList_ofList, h.pathAndQuery_write ht, h.read_write ht]

end Target

namespace Escaping

variable {e : Escaping}

theorem Rewrites.exists_separating (he : e.Rewrites) :
    ∃ inPath inQuery, Target.Separating inPath inQuery ∧
      ∀ uri, e.apply uri = String.ofList ((Target.ofUri uri).write inPath inQuery) := by
  rcases he with rfl | rfl
  · refine ⟨Target.isUnreserved, Target.isUnreserved, ⟨?_, ?_⟩, fun _ => rfl⟩
    all_goals exact Text.forall_mem_of_all (by decide)
  · refine ⟨Target.isSegmentChar, Target.isQueryChar, ⟨?_, ?_⟩, fun _ => rfl⟩
    all_goals exact Text.forall_mem_of_all (by decide)

theorem Rewrites.ofUri_apply (he : e.Rewrites) (uri : String) :
    Target.ofUri (e.apply uri) = Target.ofUri uri := by
  obtain ⟨inPath, inQuery, hsep, happly⟩ := he.exists_separating
  rw [happly, hsep.ofUri_write (Target.absolute_ofUri uri)]

/-- Escaped forms are canonical: they stay as they are when they are escaped again, and addresses
have one such form exactly if their paths with queries have one structure. -/
theorem canonical (he : e.Rewrites) :
    (∀ uri, e.apply (e.apply uri) = e.apply uri) ∧
      ∀ u v, e.apply u = e.apply v ↔
        Target.SameStructure (Target.pathAndQuery u.toList) (Target.pathAndQuery v.toList) := by
  obtain ⟨inPath, inQuery, -, happly⟩ := he.exists_separating
  have htarget : ∀ {u v}, Target.ofUri u = Target.ofUri v → e.apply u = e.apply v := by
    intro u v huv
    rw [happly, happly, huv]
  refine ⟨fun uri => htarget (he.ofUri_apply uri), fun u v => ?_⟩
  rw [← Target.read_eq_iff]
  refine ⟨fun hsame => ?_, htarget⟩
  calc Target.ofUri u = Target.ofUri (e.apply u) := (he.ofUri_apply u).symm
    _ = Target.ofUri (e.apply v) := by rw [hsame]
    _ = Target.ofUri v := he.ofUri_apply v

end Escaping

namespace Sample

/-- An address with all that a path with a query does not show: scheme, authority, fragment, and
escapes of signs that need none. -/
def roundabout : String := "https://example.com/%61 b/c%2Fd?x=1%3D=%zz&y#end"

def direct : String := "/a%20b/c%2fd?x=1%3d%3D%25zz&y"

set_option maxRecDepth 4000 in
/-- The two have one escaped form, which keeps the escapes that the structure needs. -/
theorem roundabout_direct :
    Escaping.Rewrites .rfc2396 ∧
      Escaping.rfc2396.apply roundabout = Escaping.rfc2396.apply direct ∧
      Escaping.rfc2396.apply (Escaping.rfc2396.apply roundabout) =
        Escaping.rfc2396.apply roundabout :=
  ⟨Or.inr rfl, ((Escaping.canonical (Or.inr rfl)).2 _ _).mpr (by decide +kernel),
    (Escaping.canonical (Or.inr rfl)).1 _⟩

end Sample

end SignedHttp
