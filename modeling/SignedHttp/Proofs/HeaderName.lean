import SignedHttp.HeaderName
import SignedHttp.Proofs.Text.Ascii
import SignedHttp.Proofs.Text.Splitting

namespace SignedHttp.HeaderName

theorem text_cases (h : HeaderName) :
    h.text.toList = [] ∨ h.text.toList ∈ pseudoNames ∨ Text.isLowerToken h.text.toList = true := by
  have hw := h.wellFormed
  simp only [isHeaderText, Bool.or_eq_true, List.isEmpty_iff, List.contains_iff_mem] at hw
  rcases hw with (hw | hw) | hw
  · exact Or.inl hw
  · exact Or.inr (Or.inl hw)
  · exact Or.inr (Or.inr hw)

theorem isEmpty_iff {h : HeaderName} : h.isEmpty = true ↔ h.text.toList = [] := by
  simp [isEmpty]

theorem forall_mem_text {P : Char → Prop} [DecidablePred P]
    (hp : pseudoNames.all (fun cs => cs.all (fun c => decide (P c))) = true)
    (ht : ∀ c, Text.isTokenChar c = true → P c) (h : HeaderName) : ∀ c ∈ h.text.toList, P c := by
  intro c hc
  rcases h.text_cases with he | hm | hl
  · simp [he] at hc
  · exact Text.forall_mem_of_all (List.all_eq_true.mp hp _ hm) c hc
  · simp only [Text.isLowerToken, Text.isToken, Bool.and_eq_true, List.all_eq_true] at hl
    exact ht c (hl.1.2 c hc)

theorem not_isBlank_of_mem (h : HeaderName) : ∀ c ∈ h.text.toList, Text.isBlank c = false :=
  forall_mem_text (by decide) (fun _ => Text.not_isBlank_of_isTokenChar) h

theorem quote_not_mem (h : HeaderName) : '"' ∉ h.text.toList := by
  intro hm
  refine forall_mem_text (P := (· ≠ '"')) (by decide) ?_ h _ hm rfl
  intro c hc he
  obtain rfl := he
  exact absurd hc (by decide)

theorem colon_not_mem (h : HeaderName) : ':' ∉ h.text.toList := by
  intro hm
  refine forall_mem_text (P := (· ≠ ':')) (by decide) ?_ h _ hm rfl
  rintro c hc rfl
  exact absurd hc (by decide)

theorem newline_not_mem (h : HeaderName) : '\n' ∉ h.text.toList := by
  intro hm
  exact absurd (h.not_isBlank_of_mem _ hm) (by decide)

theorem lower_text (h : HeaderName) : Text.lower h.text.toList = h.text.toList := by
  rcases h.text_cases with he | hm | hl
  · rw [he]
    rfl
  · have hall : ∀ cs ∈ pseudoNames, Text.lower cs = cs := by decide
    exact hall _ hm
  · simp only [Text.isLowerToken, Bool.and_eq_true] at hl
    exact Text.lower_eq_self hl.2

theorem lowered_text (h : HeaderName) : Text.lowered h.text = h.text := by
  rw [Text.lowered, h.lower_text, String.ofList_toList]

theorem ofText_ok {given : String} {h : HeaderName} (ho : ofText given = .ok h) :
    h.text.toList = Text.lower (Text.trim given.toList) ∧ h.isEmpty = false := by
  unfold ofText at ho
  simp only at ho
  split at ho
  · cases ho
  · next hne =>
    split at ho
    · simp only [Except.ok.injEq] at ho
      subst ho
      exact ⟨by simp, by simpa [isEmpty] using hne⟩
    · cases ho

/-- A text means the name, not the empty one, whose text it is without white space and capitals. -/
theorem ofText_eq_ok_iff {given : String} {h : HeaderName} :
    ofText given = .ok h ↔
      h.isEmpty = false ∧ h.text.toList = Text.lower (Text.trim given.toList) := by
  refine ⟨fun ho => ⟨(ofText_ok ho).2, (ofText_ok ho).1⟩, fun ⟨he, ht⟩ => ?_⟩
  have hne : h.text.toList.isEmpty = false := by
    have : ¬ h.text.toList = [] := fun hn => by simp [isEmpty_iff.mpr hn] at he
    simpa using this
  unfold ofText
  simp only [← ht, hne, Bool.false_eq_true, ↓reduceIte, h.wellFormed, ↓reduceDIte,
    Except.ok.injEq]
  exact ext String.ofList_toList

theorem ofText_text {h : HeaderName} (he : h.isEmpty = false) : ofText h.text = .ok h := by
  rw [ofText_eq_ok_iff, Text.trim_eq_self_of_forall h.not_isBlank_of_mem, h.lower_text]
  exact ⟨he, rfl⟩

theorem isPseudo_iff {h : HeaderName} :
    h.isPseudo = true ↔ h = requestTarget ∨ h = created ∨ h = expires := by
  constructor
  · intro hp
    rcases h.text_cases with he | hm | hl
    · simp [isPseudo, he] at hp
    · simp only [pseudoNames, List.mem_cons, List.not_mem_nil, or_false] at hm
      rcases hm with hm | hm | hm
      · exact Or.inl (ext (String.toList_inj.mp hm))
      · exact Or.inr (Or.inl (ext (String.toList_inj.mp hm)))
      · exact Or.inr (Or.inr (ext (String.toList_inj.mp hm)))
    · simp only [Text.isLowerToken, Text.isToken, Bool.and_eq_true, List.all_eq_true] at hl
      simp only [isPseudo, beq_iff_eq] at hp
      exact absurd (hl.1.2 _ (List.mem_of_head? hp)) (by decide)
  · rintro (rfl | rfl | rfl) <;> rfl

end SignedHttp.HeaderName
