import SignedHttp.Proofs.SigningString
import SignedHttp.Proofs.Target
import SignedHttp.Proofs.Text.Decimal

namespace SignedHttp

namespace HttpDate

theorem isPrinted_of_mem_nth {names : List String}
    (h : ∀ name ∈ names, name.toList.all (fun c => decide (Text.IsPrinted c)) = true) (i : Nat) :
    ∀ c ∈ ((names[i]?).getD "").toList, Text.IsPrinted c := by
  cases hn : names[i]? with
  | none => simp
  | some name => exact Text.forall_mem_of_all (h name (List.mem_of_getElem? hn))

theorem isPrinted_of_mem_yearText (y : Int) :
    ∀ c ∈ Calendar.Moment.yearText y, Text.IsPrinted c := by
  unfold Calendar.Moment.yearText
  split
  · exact Text.isPrinted_of_mem_padded _ _
  · intro c hc
    rcases List.mem_cons.mp hc with rfl | hc
    · split <;> decide
    · exact Text.isPrinted_of_mem_padded _ _ c hc

theorem isPrinted_of_mem_write (m : Calendar.Moment) :
    ∀ c ∈ (write m).toList, Text.IsPrinted c := by
  rw [write, String.toList_ofList]
  refine Text.forall_mem_intercalate (P := Text.IsPrinted) (Text.forall_mem_of_all (by decide)) ?_
  simp only [List.mem_cons, List.not_mem_nil, or_false, forall_eq_or_imp, forall_eq]
  refine ⟨?_, Text.isPrinted_of_mem_padded _ _, isPrinted_of_mem_nth (by decide) _,
    isPrinted_of_mem_yearText _,
    Text.forall_mem_intercalate (Text.forall_mem_of_all (by decide)) ?_,
    Text.forall_mem_of_all (by decide)⟩
  · intro c hc
    rcases List.mem_append.mp hc with hc | hc
    · exact isPrinted_of_mem_nth (by decide) _ c hc
    · rw [List.mem_singleton.mp hc]
      decide
  · simp only [List.mem_cons, List.not_mem_nil, or_false, forall_eq_or_imp, forall_eq]
    exact ⟨Text.isPrinted_of_mem_padded _ _, Text.isPrinted_of_mem_padded _ _,
      Text.isPrinted_of_mem_padded _ _⟩

end HttpDate

theorem Method.not_isBlank_of_mem_lowered (m : Method) :
    ∀ c ∈ (Text.lowered m.text).toList, Text.isBlank c = false := by
  intro c hc
  rw [Text.lowered, String.toList_ofList] at hc
  obtain ⟨d, hd, rfl⟩ := List.mem_map.mp hc
  have hw := m.wellFormed
  simp only [Text.isToken, Bool.and_eq_true, List.all_eq_true] at hw
  have htoken := hw.2 d hd
  exact Text.forall_char_lt (P := fun d => Text.isTokenChar d = true → Text.isBlank d.toLower = false)
    (by decide) (Text.toNat_lt_of_isTokenChar htoken) htoken

namespace Line

def breaks (l : Line) : Nat :=
  l.text.toList.count '\n'

theorem breaks_eq {l : Line} (hn : '\n' ∉ l.name.toList) :
    l.breaks = l.value.toList.count '\n' := by
  have hname : l.name.toList.count '\n' = 0 := List.count_eq_zero.mpr hn
  have hmark : (": ".toList).count '\n' = 0 := by decide
  simp only [breaks, text, String.toList_append, List.count_append, hname, hmark]
  omega

end Line

open SigningString

namespace SigningString

variable {r q : Request} {c d : Composition} {g h : HeaderName} {value : String} {l : Line}
  {ls : List Line}

theorem newline_not_mem_fieldValue? (hv : fieldValue? r h = some value) : '\n' ∉ value.toList := by
  unfold fieldValue? at hv
  split at hv
  · cases hv
  · obtain rfl := Option.some.inj hv
    rw [String.toList_ofList]
    apply Text.not_mem_intercalate (by decide)
    intro part hpart
    obtain ⟨v, -, rfl⟩ := List.mem_map.mp hpart
    exact v.newline_not_mem_trimmed

theorem newline_not_mem_value? {s : Source} (hs : s ≠ .requestTarget)
    (hv : s.value? r c h = .ok (some value)) : '\n' ∉ value.toList := by
  cases s with
  | field =>
    simp only [Source.value?] at hv
    split at hv
    · next given hf =>
      obtain rfl := Option.some.inj (Except.ok.inj hv)
      exact newline_not_mem_fieldValue? hf
    · cases hv
  | requestTarget => exact absurd rfl hs
  | created =>
    obtain ⟨t, -, rfl⟩ := Option.map_eq_some_iff.mp (Except.ok.inj hv)
    exact Text.newline_not_mem_of_printed (Text.isPrinted_of_mem_signedDecimal _)
  | expires =>
    simp only [Source.value?, expiresValue?] at hv
    split at hv
    · split at hv
      · obtain rfl := Option.some.inj (Except.ok.inj hv)
        exact Text.newline_not_mem_of_printed (Text.isPrinted_of_mem_signedDecimal _)
      · cases hv
    · cases hv
  | date =>
    obtain ⟨moment, -, rfl⟩ := Option.map_eq_some_iff.mp (Except.ok.inj hv)
    exact Text.newline_not_mem_of_printed (HttpDate.isPrinted_of_mem_write _)
  | digest =>
    obtain ⟨v, -, rfl⟩ := Option.map_eq_some_iff.mp (Except.ok.inj hv)
    exact v.newline_not_mem_trimmed

/-- The line breaks that a target holds in the form that is signed. -/
def targetBreaks (r : Request) (e : Escaping) : Nat :=
  (e.apply r.uri).toList.count '\n'

theorem targetBreaks_eq_zero_iff {e : Escaping} :
    targetBreaks r e = 0 ↔ '\n' ∉ (e.apply r.uri).toList :=
  List.count_eq_zero

theorem count_targetValue (e : Escaping) :
    (targetValue r e).toList.count '\n' = targetBreaks r e := by
  have hmethod : (Text.lowered r.method.text).toList.count '\n' = 0 := by
    apply List.count_eq_zero.mpr
    intro hm
    exact absurd (r.method.not_isBlank_of_mem_lowered _ hm) (by decide)
  have hmark : (" ".toList).count '\n' = 0 := by decide
  simp only [targetValue, targetBreaks, String.toList_append, List.count_append, hmethod, hmark]
  omega

/-- A line holds no line break, but for those of a target. -/
theorem breaks_of_line? (hl : line? r c h = .ok (some l)) :
    l.breaks = if h = .requestTarget then targetBreaks r c.escaping else 0 := by
  have hname := name_of_line? hl
  rw [Line.breaks_eq (hname ▸ h.newline_not_mem)]
  unfold line? at hl
  split at hl
  · cases hl
  · obtain ⟨o, hv, ho⟩ := map_eq_ok_iff.mp hl
    obtain ⟨value, rfl, rfl⟩ := Option.map_eq_some_iff.mp ho
    split
    · next ht =>
      obtain rfl := ht
      obtain rfl := Option.some.inj (Except.ok.inj hv)
      exact count_targetValue _
    · next ht =>
      refine List.count_eq_zero.mpr (newline_not_mem_value? (fun hs => ?_) hv)
      exact ht (eq_of_header? (hs ▸ rfl))

/-- The target has a line in any case, so its line breaks come once for each time it is listed. -/
theorem sum_breaks_filterMap {names : List HeaderName} {os : List (Option Line)}
    (h : List.Forall₂ (fun g o => line? r c g = .ok o) names os) :
    ((os.filterMap id).map Line.breaks).sum =
      names.count .requestTarget * targetBreaks r c.escaping := by
  induction h with
  | nil => exact (Nat.zero_mul _).symm
  | @cons g o names os hl _ ih =>
    by_cases ht : g = .requestTarget
    · obtain rfl := ht
      obtain ⟨l, rfl⟩ : ∃ l, o = some l := ⟨_, (Except.ok.inj hl).symm⟩
      have hbreaks := breaks_of_line? hl
      rw [if_pos rfl] at hbreaks
      have hfirst : (some l :: os).filterMap id = l :: os.filterMap id := rfl
      rw [hfirst, List.map_cons, List.sum_cons, hbreaks, ih, List.count_cons_self, Nat.succ_mul,
        Nat.add_comm]
    · rw [List.count_cons_of_ne ht, ← ih]
      cases o with
      | none => rfl
      | some l =>
        have hbreaks := breaks_of_line? hl
        rw [if_neg ht] at hbreaks
        have hfirst : (some l :: os).filterMap id = l :: os.filterMap id := rfl
        rw [hfirst, List.map_cons, List.sum_cons, hbreaks, Nat.zero_add]

end SigningString

/-- The pieces of a text between line breaks; there is none in the empty text. -/
def lineCount (text : String) : Nat :=
  if text.isEmpty then 0 else (List.splitOn '\n' text.toList).length

/-- The lines that a composition may have: one for each name, and one for the nonce. -/
def Composition.size (c : Composition) : Nat :=
  (c.headers.filter (fun h => !h.isEmpty)).length + (nonceLine? c).toList.length

def Composition.PlainNonce (c : Composition) : Prop :=
  ∀ n, c.nonce = some n → '\n' ∉ n.toList

namespace SigningString

variable {r : Request} {c : Composition} {l : Line} {ls : List Line}

theorem joinLines_ne_empty : (joinLines (l :: ls)).isEmpty = false := by
  have hl : l.text.toList ≠ [] := by simp [Line.text]
  have hjoin : List.intercalate ['\n'] (l.text.toList :: ls.map (fun l => l.text.toList)) ≠ [] := by
    by_cases hls : ls = []
    · subst hls
      rwa [List.map_nil, List.intercalate_singleton]
    · rw [List.intercalate_cons_of_ne_nil (by simpa using hls)]
      simp
  simpa [joinLines] using hjoin

theorem lineCount_joinLines (ls : List Line) :
    lineCount (joinLines ls) = ls.length + (ls.map Line.breaks).sum := by
  cases ls with
  | nil => rfl
  | cons l ls =>
    have hparts : (l :: ls).map (fun l => l.text.toList) ≠ [] := List.cons_ne_nil _ _
    have hcount := Text.count_intercalate '\n' hparts
    unfold lineCount
    rw [joinLines_ne_empty, if_neg Bool.false_ne_true, Text.length_splitOn, joinLines,
      String.toList_ofList, hcount]
    simp only [List.map_map, List.length_map]
    exact Nat.add_comm _ _

theorem breaks_nonceLine? (hn : c.PlainNonce) (hl : nonceLine? c = some l) : l.breaks = 0 := by
  obtain ⟨n, hgiven, rfl⟩ := Option.map_eq_some_iff.mp hl
  have hname : '\n' ∉ "nonce".toList := by decide
  rw [Line.breaks_eq hname]
  exact List.count_eq_zero.mpr (hn n (Option.filter_eq_some_iff.mp hgiven).1)

theorem lines_eq_ok_iff : lines r c = .ok ls ↔
    ∃ os, (c.headers.filter (fun h => !h.isEmpty)).mapM (line? r c) = .ok os ∧
      ls = os.filterMap id ++ (nonceLine? c).toList := by
  simp only [lines, headerLines, bind_eq_ok_iff, pure_eq_ok, Except.ok.injEq]
  constructor
  · rintro ⟨_, ⟨os, hos, rfl⟩, rfl⟩
    exact ⟨os, hos, rfl⟩
  · rintro ⟨os, hos, rfl⟩
    exact ⟨_, ⟨os, hos, rfl⟩, rfl⟩

/-- A signing string has its lines, and those that the target brings along. -/
theorem lineCount_eq (hls : lines r c = .ok ls) (hn : c.PlainNonce) :
    lineCount (joinLines ls) =
      ls.length + c.headers.count .requestTarget * targetBreaks r c.escaping := by
  obtain ⟨os, hos, rfl⟩ := lines_eq_ok_iff.mp hls
  have hnonce : ((nonceLine? c).toList.map Line.breaks).sum = 0 := by
    cases hl : nonceLine? c with
    | none => rfl
    | some l => simpa using breaks_nonceLine? hn hl
  have hcount : (c.headers.filter (fun h => !h.isEmpty)).count .requestTarget =
      c.headers.count .requestTarget := List.count_filter rfl
  rw [lineCount_joinLines, List.map_append, List.sum_append, hnonce,
    sum_breaks_filterMap (mapM_eq_ok_iff.mp hos), hcount, Nat.add_zero]

theorem length_le_size (hls : lines r c = .ok ls) : ls.length ≤ c.size := by
  obtain ⟨os, hos, rfl⟩ := lines_eq_ok_iff.mp hls
  have hle := List.length_filterMap_le id os
  have hlength := (mapM_eq_ok_iff.mp hos).length_eq
  rw [List.length_append, Composition.size]
  omega

def targetAlone (e : Escaping) : Composition := ⟨[.requestTarget], e, none, none, none⟩

end SigningString

/-- A signing string has at most one line for each name and one for the nonce, whatever is listed,
exactly if the target holds no line break in the form that is signed. The target of an address
without line breaks holds one only if its escapes are decoded. -/
theorem lines_bounded_iff (r : Request) (e : Escaping) :
    ((∀ c text, c.escaping = e → c.PlainNonce → signingString r c = .ok text →
        lineCount text ≤ c.size) ↔ '\n' ∉ (e.apply r.uri).toList) ∧
      ('\n' ∉ r.uri.toList → e ≠ .unescaped → '\n' ∉ (e.apply r.uri).toList) := by
  refine ⟨?_, fun hu he => Escaping.newline_not_mem_apply he hu⟩
  rw [← targetBreaks_eq_zero_iff]
  constructor
  · intro hbound
    have hls : lines r (targetAlone e) = .ok [⟨"(request-target)", targetValue r e⟩] := rfl
    have hplain : (targetAlone e).PlainNonce := nofun
    have hcount := lineCount_eq hls hplain
    have hle := hbound (targetAlone e) _ rfl hplain (map_eq_ok_iff.mpr ⟨_, hls, rfl⟩)
    have hlisted : (targetAlone e).headers.count .requestTarget = 1 := List.count_singleton_self
    have hsize : (targetAlone e).size = 1 := rfl
    have hescaping : (targetAlone e).escaping = e := rfl
    rw [hcount, hlisted, hsize, hescaping, List.length_singleton] at hle
    omega
  · intro hnone c text he hn hs
    obtain ⟨ls, hls, rfl⟩ := map_eq_ok_iff.mp hs
    rw [lineCount_eq hls hn, he, hnone, Nat.mul_zero, Nat.add_zero]
    exact length_le_size hls

namespace Sample

theorem isToken_get : Text.isToken "GET".toList = true := by decide

/-- The escape in the target is that of a line break. -/
def injecting : Request where
  method := ⟨"GET", isToken_get⟩
  uri := "/%0Ahost:%20evil"
  fields := []
  body := none

theorem injected :
    signingString injecting (targetAlone .unescaped) =
      .ok "(request-target): get /\nhost: evil" := by
  decide +kernel

/-- The decoded target brings a line along, in any other form it does not. -/
theorem injecting_unbounded :
    '\n' ∈ (Escaping.unescaped.apply injecting.uri).toList ∧
      ∀ e : Escaping, e ≠ .unescaped → ∀ c text, c.escaping = e → c.PlainNonce →
        signingString injecting c = .ok text → lineCount text ≤ c.size := by
  refine ⟨by decide +kernel, fun e he => ?_⟩
  have hu : '\n' ∉ injecting.uri.toList := by decide
  exact (lines_bounded_iff injecting e).1.mpr ((lines_bounded_iff injecting e).2 hu he)

/-- The lines of a signing string are not bounded by what is listed. -/
theorem lines_not_bounded :
    ¬ ∀ (r : Request) (c : Composition) (text : String), '\n' ∉ r.uri.toList → c.PlainNonce →
      signingString r c = .ok text → lineCount text ≤ c.size := by
  intro hclaim
  have hu : '\n' ∉ injecting.uri.toList := by decide
  have hle := hclaim injecting (targetAlone .unescaped) _ hu nofun injected
  exact absurd hle (by decide +kernel)

end Sample

end SignedHttp
