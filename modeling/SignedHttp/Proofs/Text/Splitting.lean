import Mathlib.Algebra.GroupWithZero.Nat
import Mathlib.Data.List.Forall2
import Mathlib.Data.List.TakeWhile
import SignedHttp.Text.Blank

namespace SignedHttp.Text

theorem splitFirst_append {separator : Char} {before : List Char} (after : List Char)
    (h : separator ∉ before) :
    splitFirst separator (before ++ separator :: after) = some (before, after) := by
  induction before with
  | nil => simp [splitFirst]
  | cons c cs ih =>
    simp only [List.mem_cons, not_or] at h
    have hc : (c == separator) = false := by simpa using Ne.symm h.1
    simp [splitFirst, hc, ih h.2]

theorem splitFirst_eq_some_iff {separator : Char} {cs before after : List Char} :
    splitFirst separator cs = some (before, after) ↔
      cs = before ++ separator :: after ∧ separator ∉ before := by
  refine ⟨fun h => ?_, fun ⟨he, hn⟩ => he ▸ splitFirst_append after hn⟩
  induction cs generalizing before with
  | nil => simp [splitFirst] at h
  | cons c cs ih =>
    by_cases hc : c = separator
    · simp only [splitFirst, hc, beq_self_eq_true, ↓reduceIte, Option.some.injEq,
        Prod.mk.injEq] at h
      obtain ⟨rfl, rfl⟩ := h
      simp [hc]
    · have hb : (c == separator) = false := by simpa using hc
      simp only [splitFirst, hb, Bool.false_eq_true, ↓reduceIte] at h
      obtain ⟨⟨front, rest⟩, hs, he⟩ := Option.map_eq_some_iff.mp h
      simp only [Prod.mk.injEq] at he
      obtain ⟨rfl, rfl⟩ := he
      obtain ⟨rfl, hn⟩ := ih hs
      exact ⟨rfl, by simp [hn, Ne.symm hc]⟩

theorem takeWhile_ne_eq_self {separator : Char} {cs : List Char} (h : separator ∉ cs) :
    cs.takeWhile (· != separator) = cs := by
  refine List.takeWhile_eq_self_iff.mpr (fun c hc => ?_)
  have hne : c ≠ separator := fun he => h (he ▸ hc)
  simpa using hne

theorem splitFirst_eq (separator : Char) (cs : List Char) :
    splitFirst separator cs =
      if separator ∈ cs then
        some (cs.takeWhile (· != separator), (cs.dropWhile (· != separator)).tail)
      else none := by
  induction cs with
  | nil => rfl
  | cons c cs ih =>
    by_cases hc : c = separator
    · subst hc
      simp [splitFirst]
    · have hne : separator ≠ c := fun he => hc he.symm
      by_cases hm : separator ∈ cs <;> simp [splitFirst, hc, hne, ih, hm]

theorem cut_eq_some_iff {separator : Char} {s a b : String} :
    cut separator s = some (a, b) ↔
      s = a ++ String.singleton separator ++ b ∧ separator ∉ a.toList := by
  have hs : s = a ++ String.singleton separator ++ b ↔
      s.toList = a.toList ++ separator :: b.toList := by
    rw [← String.toList_inj]
    simp
  rw [hs, ← splitFirst_eq_some_iff]
  unfold cut
  constructor
  · intro h
    obtain ⟨⟨before, after⟩, hf, he⟩ := Option.map_eq_some_iff.mp h
    simp only [Prod.mk.injEq] at he
    obtain ⟨rfl, rfl⟩ := he
    simpa using hf
  · intro h
    rw [h]
    simp

theorem intercalate_append (separator : List Char) {front back : List (List Char)} (hf : front ≠ [])
    (hb : back ≠ []) :
    List.intercalate separator (front ++ back) =
      List.intercalate separator front ++ separator ++ List.intercalate separator back := by
  induction front with
  | nil => exact absurd rfl hf
  | cons p ps ih =>
    by_cases hp : ps = []
    · subst hp
      rw [List.singleton_append, List.intercalate_cons_of_ne_nil hb, List.intercalate_singleton]
    · rw [List.cons_append, List.intercalate_cons_of_ne_nil (by simp [hp]),
        List.intercalate_cons_of_ne_nil hp, ih hp]
      simp

theorem mem_intercalate {separator : List Char} {parts : List (List Char)} {c : Char}
    (h : c ∈ List.intercalate separator parts) : c ∈ separator ∨ ∃ part ∈ parts, c ∈ part := by
  induction parts with
  | nil => simp at h
  | cons p ps ih =>
    by_cases hp : ps = []
    · subst hp
      exact Or.inr ⟨p, by simp, by simpa using h⟩
    · rw [List.intercalate_cons_of_ne_nil hp] at h
      rcases List.mem_append.mp h with h | h
      · rcases List.mem_append.mp h with h | h
        · exact Or.inr ⟨p, by simp, h⟩
        · exact Or.inl h
      · rcases ih h with h | ⟨q, hq, hc⟩
        · exact Or.inl h
        · exact Or.inr ⟨q, List.mem_cons_of_mem _ hq, hc⟩

theorem forall_mem_intercalate {P : Char → Prop} {separator : List Char} {parts : List (List Char)}
    (hs : ∀ c ∈ separator, P c) (hp : ∀ part ∈ parts, ∀ c ∈ part, P c) :
    ∀ c ∈ List.intercalate separator parts, P c := by
  intro c hc
  rcases mem_intercalate hc with hc | ⟨part, hm, hc⟩
  · exact hs c hc
  · exact hp part hm c hc

theorem not_mem_intercalate {separator : List Char} {parts : List (List Char)} {c : Char}
    (hs : c ∉ separator) (hp : ∀ part ∈ parts, c ∉ part) :
    c ∉ List.intercalate separator parts := by
  intro hc
  rcases mem_intercalate hc with hc | ⟨part, hm, hc⟩
  · exact hs hc
  · exact hp part hm hc

theorem count_intercalate (separator : Char) {parts : List (List Char)} (h : parts ≠ []) :
    (List.intercalate [separator] parts).count separator + 1 =
      (parts.map (List.count separator)).sum + parts.length := by
  induction parts with
  | nil => exact absurd rfl h
  | cons p ps ih =>
    by_cases hp : ps = []
    · subst hp
      rw [List.intercalate_singleton, List.map_singleton, List.sum_singleton,
        List.length_singleton]
    · have hrest := ih hp
      rw [List.intercalate_cons_of_ne_nil hp]
      simp only [List.count_append, List.count_singleton_self, List.map_cons, List.sum_cons,
        List.length_cons]
      omega

/-- Parts are told apart by the joined text, if those that are not the same hold no separator. -/
theorem intercalate_inj {separator : Char} {ps qs : List (List Char)}
    (h : List.Forall₂ (fun p q => p = q ∨ separator ∉ p ∧ separator ∉ q) ps qs)
    (he : List.intercalate [separator] ps = List.intercalate [separator] qs) : ps = qs := by
  induction h with
  | nil => rfl
  | @cons p q ps qs hpq hrest ih =>
    by_cases hps : ps = []
    · subst hps
      obtain rfl := List.forall₂_nil_left_iff.mp hrest
      simpa using he
    · have hqs : qs ≠ [] := by
        rintro rfl
        exact hps (List.forall₂_nil_right_iff.mp hrest)
      rw [List.intercalate_cons_of_ne_nil hps, List.intercalate_cons_of_ne_nil hqs,
        List.append_assoc, List.append_assoc] at he
      have hsplit : p = q ∧ List.intercalate [separator] ps = List.intercalate [separator] qs := by
        rcases hpq with rfl | ⟨hp, hq⟩
        · exact ⟨rfl, List.append_cancel_left (List.append_cancel_left he)⟩
        · have hcut := (splitFirst_append _ hp).symm.trans
            ((congrArg (splitFirst separator) he).trans (splitFirst_append _ hq))
          exact Prod.mk.inj (Option.some.inj hcut)
      rw [hsplit.1, ih hsplit.2]

theorem lastPart_intercalate {separator : Char} (parts : List (List Char)) {part : List Char}
    (h : separator ∉ part) :
    ((List.intercalate [separator] (parts ++ [part])).reverse.takeWhile
      (· != separator)).reverse = part := by
  have hall : ∀ c ∈ part.reverse, (c != separator) = true := by
    intro c hc
    have hne : c ≠ separator := fun he => h (he ▸ List.mem_reverse.mp hc)
    simpa using hne
  by_cases hp : parts = []
  · subst hp
    rw [List.nil_append, List.intercalate_singleton, ← List.append_nil part.reverse,
      List.takeWhile_append_of_pos hall]
    simp
  · rw [intercalate_append _ hp (by simp), List.intercalate_singleton]
    simp only [List.reverse_append, List.reverse_cons, List.reverse_nil, List.nil_append]
    rw [List.takeWhile_append_of_pos hall]
    simp

theorem length_splitOn (separator : Char) (cs : List Char) :
    (List.splitOn separator cs).length = cs.count separator + 1 := by
  induction cs with
  | nil => rfl
  | cons c cs ih =>
    rw [List.splitOn_cons_eq_if_modifyHead]
    split
    · next h =>
      obtain rfl := beq_iff_eq.mp h
      rw [List.length_cons, ih, List.count_cons_self]
    · next h =>
      have hne : c ≠ separator := fun he => h (beq_iff_eq.mpr he)
      rw [List.length_modifyHead, ih, List.count_cons_of_ne hne]

theorem exists_splitOnP_append {p : Char → Bool} {start : List Char}
    (h : ∀ d ∈ start, p d = false) (rest : List Char) :
    ∃ tail pieces, List.splitOnP p (start ++ rest) = (start ++ tail) :: pieces := by
  induction start with
  | nil =>
    cases hs : List.splitOnP p rest with
    | nil => exact absurd hs (List.splitOnP_ne_nil _ _)
    | cons q qs => exact ⟨q, qs, by simp [hs]⟩
  | cons d ds ih =>
    have hd : p d = false := h d (by simp)
    obtain ⟨tail, pieces, hs⟩ := ih (fun e he => h e (List.mem_cons_of_mem _ he))
    refine ⟨tail, pieces, ?_⟩
    rw [List.cons_append, List.splitOnP_cons_eq_if_modifyHead, hs]
    simp [hd]

/-- A joined text has the pieces of its parts. -/
theorem splitOnP_intercalate_eq_flatMap {p : Char → Bool} {separator : Char}
    (hs : p separator = true) {parts : List (List Char)} (hne : parts ≠ []) :
    List.splitOnP p (List.intercalate [separator] parts) = parts.flatMap (List.splitOnP p) := by
  induction parts with
  | nil => exact absurd rfl hne
  | cons q qs ih =>
    by_cases hq : qs = []
    · subst hq
      simp
    · rw [List.intercalate_cons_of_ne_nil hq, List.append_assoc, List.singleton_append,
        List.splitOnP_append_cons _ _ hs, ih hq, List.flatMap_cons]

theorem mem_splitOnP_intercalate {p : Char → Bool} {separator : Char} (hs : p separator = true)
    {parts : List (List Char)} {part piece : List Char} (hm : part ∈ parts)
    (hp : piece ∈ List.splitOnP p part) :
    piece ∈ List.splitOnP p (List.intercalate [separator] parts) := by
  rw [splitOnP_intercalate_eq_flatMap hs (List.ne_nil_of_mem hm)]
  exact List.mem_flatMap.mpr ⟨part, hm, hp⟩

theorem exists_piece_of_intercalate {p : Char → Bool} {separator : Char} (hs : p separator = true)
    {parts : List (List Char)} {part start : List Char} (hm : part ∈ parts)
    (hstart : start <+: part) (h : ∀ d ∈ start, p d = false) :
    ∃ piece ∈ List.splitOnP p (List.intercalate [separator] parts), start <+: piece := by
  obtain ⟨rest, rfl⟩ := hstart
  obtain ⟨tail, pieces, hsplit⟩ := exists_splitOnP_append h rest
  refine ⟨start ++ tail, mem_splitOnP_intercalate hs hm ?_, List.prefix_append _ _⟩
  rw [hsplit]
  exact List.mem_cons_self

theorem splitOnP_intercalate {p : Char → Bool} {separator : Char} (hs : p separator = true)
    {pieces : List (List Char)} (hne : pieces ≠ []) (h : ∀ w ∈ pieces, ∀ d ∈ w, p d = false) :
    List.splitOnP p (List.intercalate [separator] pieces) = pieces := by
  have hself : pieces.map (List.splitOnP p) = pieces.map (fun w => [w]) :=
    List.map_congr_left (fun w hw => List.splitOnP_eq_singleton (h w hw))
  rw [splitOnP_intercalate_eq_flatMap hs hne, List.flatMap_def, hself, ← List.flatMap_def]
  exact List.flatMap_singleton' pieces

theorem words_intercalate {ws : List (List Char)}
    (h : ∀ w ∈ ws, w ≠ [] ∧ ∀ c ∈ w, isBlank c = false) :
    words (List.intercalate [' '] ws) = ws := by
  by_cases hw : ws = []
  · subst hw
    rfl
  · unfold words
    rw [splitOnP_intercalate (by decide) hw (fun w hm => (h w hm).2)]
    apply List.filter_eq_self.mpr
    intro w hm
    simpa using (h w hm).1

theorem dropWhile_eq_self {p : Char → Bool} {cs : List Char}
    (h : ∀ c, cs.head? = some c → p c = false) : cs.dropWhile p = cs := by
  cases cs with
  | nil => rfl
  | cons c cs => simp [h c rfl]

theorem trim_eq_self {cs : List Char} (hh : ∀ c, cs.head? = some c → isBlank c = false)
    (hl : ∀ c, cs.getLast? = some c → isBlank c = false) : trim cs = cs := by
  unfold trim trimStart trimEnd
  rw [dropWhile_eq_self hh, dropWhile_eq_self (by simpa using hl), List.reverse_reverse]

theorem trim_eq_self_of_forall {cs : List Char} (h : ∀ c ∈ cs, isBlank c = false) :
    trim cs = cs :=
  trim_eq_self (fun c hc => h c (List.mem_of_head? hc)) (fun c hc => h c (List.mem_of_getLast? hc))

theorem mem_of_mem_trim {cs : List Char} {c : Char} (h : c ∈ trim cs) : c ∈ cs := by
  unfold trim trimEnd at h
  have hr := (List.dropWhile_sublist _).mem (List.mem_reverse.mp h)
  exact (List.dropWhile_sublist _).mem (List.mem_reverse.mp hr)

section Blanks

variable {cs back : List Char} {c : Char}

theorem trimEnd_append_of_ne_nil (front : List Char) (h : trimEnd back ≠ []) :
    trimEnd (front ++ back) = front ++ trimEnd back := by
  unfold trimEnd at h ⊢
  have hkept : (back.reverse.dropWhile isBlank).isEmpty = false := by simpa using h
  rw [List.reverse_append, List.dropWhile_append, hkept]
  simp

theorem trim_append {front : List Char} (hne : front ≠ [])
    (hh : ∀ c, front.head? = some c → isBlank c = false) (hback : trimEnd back ≠ []) :
    trim (front ++ back) = front ++ trimEnd back := by
  have hstart : trimStart (front ++ back) = front ++ back := by
    refine dropWhile_eq_self (fun c hc => hh c ?_)
    rwa [List.head?_append_of_ne_nil _ hne] at hc
  rw [trim, hstart, trimEnd_append_of_ne_nil _ hback]

/-- Trimming makes no difference to what makes none of a blank at either end. -/
theorem apply_trimStart {β : Type} {f : List Char → β}
    (h : ∀ c cs, isBlank c = true → f (c :: cs) = f cs) (cs : List Char) :
    f (trimStart cs) = f cs := by
  unfold trimStart
  induction cs with
  | nil => rfl
  | cons c cs ih =>
    by_cases hc : isBlank c = true
    · rw [List.dropWhile_cons_of_pos hc, ih, h c cs hc]
    · rw [List.dropWhile_cons_of_neg hc]

theorem apply_trimEnd {β : Type} {f : List Char → β}
    (h : ∀ c cs, isBlank c = true → f (cs ++ [c]) = f cs) (cs : List Char) :
    f (trimEnd cs) = f cs := by
  have hreverse := apply_trimStart (f := fun ds => f ds.reverse)
    (fun c ds hc => by rw [List.reverse_cons, h c _ hc]) cs.reverse
  simpa [trimStart, trimEnd] using hreverse

theorem trim_cons_blank (hc : isBlank c = true) (cs : List Char) : trim (c :: cs) = trim cs := by
  rw [trim, trimStart, List.dropWhile_cons_of_pos hc]
  rfl

theorem trim_concat_blank (hc : isBlank c = true) (cs : List Char) : trim (cs ++ [c]) = trim cs := by
  unfold trim trimStart
  rw [List.dropWhile_append]
  split
  · next he => simp [List.isEmpty_iff.mp he, hc]
  · simp [trimEnd, hc]

theorem trim_append_blank (front : List Char) (h : ∀ c ∈ back, isBlank c = true) :
    trim (front ++ back) = trim front := by
  induction back generalizing front with
  | nil => rw [List.append_nil]
  | cons c back ih =>
    rw [List.append_cons, ih _ (fun d hd => h d (List.mem_cons_of_mem _ hd)),
      trim_concat_blank (h c List.mem_cons_self)]

theorem trim_trimEnd (cs : List Char) : trim (trimEnd cs) = trim cs :=
  apply_trimEnd (fun _ ds hc => trim_concat_blank hc ds) cs

theorem trim_trim (cs : List Char) : trim (trim cs) = trim cs := by
  change trim (trimEnd (trimStart cs)) = trim cs
  rw [trim_trimEnd]
  exact apply_trimStart (fun _ ds hc => trim_cons_blank hc ds) cs

theorem trimEnd_eq_nil_iff : trimEnd cs = [] ↔ ∀ c ∈ cs, isBlank c = true := by
  simp [trimEnd, List.dropWhile_eq_nil_iff]

theorem trim_eq_nil_iff : trim cs = [] ↔ ∀ c ∈ cs, isBlank c = true := by
  rw [trim, trimEnd_eq_nil_iff]
  refine ⟨fun h c hc => ?_, fun h c hc => h c ((List.dropWhile_sublist _).mem hc)⟩
  rw [← List.takeWhile_append_dropWhile (p := isBlank) (l := cs)] at hc
  rcases List.mem_append.mp hc with hc | hc
  · exact List.mem_takeWhile_imp hc
  · exact h c hc

end Blanks

end SignedHttp.Text
