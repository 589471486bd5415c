import SignedHttp.Document
import SignedHttp.Proofs.Authorization.RoundTrip

namespace SignedHttp

namespace HeaderName

/-- The ways to come by a name other than the empty one: it is fixed, or what a text means, by itself
or in a document, or the name of a field. -/
inductive Obtained : HeaderName → Prop
  | fixed {h : HeaderName} (hm : h ∈ [requestTarget, created, expires, date, digest]) : Obtained h
  | ofText {given : String} {h : HeaderName} (ho : ofText given = .ok h) : Obtained h
  | ofDocument {j : Json} {h : HeaderName} (hd : Document.headerName j = some (.text h.text)) :
    Obtained h
  | ofField (f : FieldName) : Obtained f.headerName

/-- What is relied on: the text is that of one of the names in parentheses or a token, without
capitals in either case, and means the name itself. -/
structure Canonical (h : HeaderName) : Prop where
  nonempty : h.text ≠ ""
  lowered : Text.lowered h.text = h.text
  kind : if h.isPseudo then h = requestTarget ∨ h = created ∨ h = expires
    else ∀ c ∈ h.text.toList, Text.isTokenChar c = true
  reread : ofText h.text = .ok h

variable {h : HeaderName} {given s t : String}

theorem isHeaderText_lower_iff {cs : List Char} (hne : Text.lower cs ≠ []) :
    isHeaderText (Text.lower cs) = true ↔
      Text.lower cs ∈ pseudoNames ∨ Text.isToken (Text.lower cs) = true := by
  simp [isHeaderText, hne, Text.isLowerToken_lower]

theorem exists_ofText_iff :
    (∃ h, ofText given = .ok h) ↔ Text.lower (Text.trim given.toList) ∈ pseudoNames ∨
      Text.isToken (Text.lower (Text.trim given.toList)) = true := by
  have hnil : ¬ (([] : List Char) ∈ pseudoNames ∨ Text.isToken [] = true) := by decide
  by_cases hne : Text.lower (Text.trim given.toList) = []
  · rw [hne]
    refine iff_of_false ?_ hnil
    rintro ⟨h, ho⟩
    have hempty := isEmpty_iff.mpr ((ofText_ok ho).1.trans hne)
    rw [(ofText_ok ho).2] at hempty
    cases hempty
  · rw [← isHeaderText_lower_iff hne]
    constructor
    · rintro ⟨h, ho⟩
      rw [← (ofText_ok ho).1]
      exact h.wellFormed
    · intro hw
      refine ⟨⟨String.ofList (Text.lower (Text.trim given.toList)), by simpa using hw⟩, ?_⟩
      exact ofText_eq_ok_iff.mpr ⟨by simpa [isEmpty] using hne, by simp⟩

/-- Texts that mean a name mean the same one if they are equal but for white space around them and
capitals. -/
theorem ofText_same_iff (hs : ofText s = .ok h) :
    ofText t = .ok h ↔ Text.lower (Text.trim t.toList) = Text.lower (Text.trim s.toList) := by
  obtain ⟨hne, hs⟩ := ofText_eq_ok_iff.mp hs
  rw [ofText_eq_ok_iff, and_iff_right hne, hs, eq_comm]

theorem isEmpty_field (f : FieldName) : f.headerName.isEmpty = false := by
  have hw := f.wellFormed
  simp only [Text.isLowerToken, Text.isToken, Bool.and_eq_true, Bool.not_eq_true'] at hw
  have hne : f.text.toList ≠ [] := by simpa using hw.1.1
  exact Bool.eq_false_iff.mpr fun he => hne (isEmpty_iff.mp he)

theorem ofText_of_document {j : Json} (hd : Document.headerName j = some (.text h.text)) :
    ∃ given, Document.text? j = some given ∧ ofText given = .ok h := by
  obtain ⟨given, hj, hd⟩ := Option.bind_eq_some_iff.mp hd
  cases ho : ofText given with
  | error d => simp [ho] at hd
  | ok g =>
    simp only [ho, Option.pure_def, Option.some.injEq, Json.text, Json.string.injEq] at hd
    obtain rfl := ext hd
    exact ⟨given, hj, ho⟩

theorem Obtained.isEmpty (ho : Obtained h) : h.isEmpty = false := by
  cases ho with
  | fixed hm => exact (by decide : ∀ h ∈ [requestTarget, created, expires, date, digest],
      h.isEmpty = false) h hm
  | ofText ho => exact (ofText_ok ho).2
  | ofDocument hd =>
    obtain ⟨given, -, ho⟩ := ofText_of_document hd
    exact (ofText_ok ho).2
  | ofField f => exact isEmpty_field f

theorem isTokenChar_of_not_isPseudo (hp : h.isPseudo = false) :
    ∀ c ∈ h.text.toList, Text.isTokenChar c = true := by
  intro c hc
  rcases h.text_cases with he | hm | hl
  · simp [he] at hc
  · have hall : ∀ cs ∈ pseudoNames, cs.head? = some '(' := by decide
    rw [isPseudo, hall _ hm] at hp
    cases hp
  · simp only [Text.isLowerToken, Text.isToken, Bool.and_eq_true, List.all_eq_true] at hl
    exact hl.1.2 c hc

theorem canonical_of_not_isEmpty (he : h.isEmpty = false) : h.Canonical where
  nonempty := by simpa [isEmpty] using he
  lowered := h.lowered_text
  kind := by
    split
    · next hp => exact isPseudo_iff.mp hp
    · next hp => exact isTokenChar_of_not_isPseudo (by simpa using hp)
  reread := ofText_text he

/-- Every name that is obtained is canonical. A text means one if it is, but for white space around
it and capitals, one of the three in parentheses or a token; two texts then mean the same one if they
are equal but for these; and a list of names is read back from the names with a blank between two. -/
theorem obtained_canonical :
    (∀ h, Obtained h → h.Canonical) ∧
    (∀ s, (∃ h, ofText s = .ok h) ↔ Text.lower (Text.trim s.toList) ∈ pseudoNames ∨
      Text.isToken (Text.lower (Text.trim s.toList)) = true) ∧
    (∀ s t h, ofText s = .ok h →
      (ofText t = .ok h ↔ Text.lower (Text.trim t.toList) = Text.lower (Text.trim s.toList))) ∧
    ∀ names, (∀ h ∈ names, Obtained h) →
      Authorization.readNames (Authorization.joinNames names) = .ok names :=
  ⟨fun _ ho => canonical_of_not_isEmpty ho.isEmpty, fun _ => exists_ofText_iff,
    fun _ _ _ => ofText_same_iff,
    fun _ hnames => Authorization.readNames_joinNames fun h hm => (hnames h hm).isEmpty⟩

end HeaderName

namespace Sample

def oddField : FieldName := ⟨"x-odd_name~", by decide⟩

def gathered : List HeaderName := [.requestTarget, .date, oddField.headerName, .expires]

theorem gathered_canonical :
    (∀ h ∈ gathered, h.Obtained) ∧ (∀ h ∈ gathered, h.Canonical) ∧
      HeaderName.ofText "\tX-ODD_Name~ " = .ok oddField.headerName ∧
      Authorization.readNames (Authorization.joinNames gathered) = .ok gathered := by
  obtain ⟨hcanonical, -, hsame, hlist⟩ := HeaderName.obtained_canonical
  have hdate : HeaderName.ofText " Date" = .ok .date := by rfl
  have hexpires : Document.headerName (.text "(EXPIRES)") = some (.text "(expires)") := by rfl
  have hodd : HeaderName.ofText "x-odd_name~" = .ok oddField.headerName := by rfl
  have hobtained : ∀ h ∈ gathered, h.Obtained := by
    simp only [gathered, List.forall_mem_cons, List.not_mem_nil, false_imp_iff, implies_true,
      and_true]
    exact ⟨.fixed (by decide), .ofText hdate, .ofField oddField, .ofDocument hexpires⟩
  exact ⟨hobtained, fun h hm => hcanonical h (hobtained h hm),
    (hsame _ _ _ hodd).mpr (by decide), hlist gathered hobtained⟩

end Sample

end SignedHttp
