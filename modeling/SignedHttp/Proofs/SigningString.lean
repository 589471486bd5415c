import SignedHttp.Proofs.Field
import SignedHttp.Proofs.HeaderName
import SignedHttp.SigningString

namespace SignedHttp

open SigningString

variable {r q : Request} {c d : Composition} {g h : HeaderName}

namespace SigningString

/-- The one name that has its value from a source; a field can have any name. -/
def Source.header? : Source → Option HeaderName
  | field => none
  | requestTarget => some .requestTarget
  | created => some .created
  | expires => some .expires
  | date => some .date
  | digest => some .digest

theorem eq_of_header? (hs : (Source.of h).header? = some g) : h = g := by
  unfold Source.of at hs
  split at hs
  · next he => exact he.trans (Option.some.inj hs)
  · split at hs
    · next he => exact he.trans (Option.some.inj hs)
    · split at hs
      · next he => exact he.trans (Option.some.inj hs)
      · split at hs
        · next he => exact he.trans (Option.some.inj hs)
        · split at hs
          · next he => exact he.trans (Option.some.inj hs)
          · cases hs

theorem line?_congr (hmethod : r.method = q.method) (huri : r.uri = q.uri)
    (hvalues : r.fields.values h.text = q.fields.values h.text) (hescaping : c.escaping = d.escaping)
    (htime : h = .created → c.time = d.time)
    (hexpires : h = .expires → expiresValue? c = expiresValue? d) : line? r c h = line? q d h := by
  have hfirst : r.fields.first? h.text = q.fields.first? h.text := by
    rw [Fields.first?, Fields.first?, hvalues]
  unfold line?
  have hsource : (Source.of h).value? r c h = (Source.of h).value? q d h := by
    cases hs : Source.of h with
    | field => simp only [Source.value?, fieldValue?, Request.headerValues, hvalues]
    | requestTarget => simp only [Source.value?, targetValue, hmethod, huri, hescaping]
    | created => simp only [Source.value?, htime (eq_of_header? (hs ▸ rfl))]
    | expires => simp only [Source.value?, hexpires (eq_of_header? (hs ▸ rfl))]
    | date => simp only [Source.value?, dateValue?, Request.header?, hfirst]
    | digest => simp only [Source.value?, hfirst]
  rw [hsource]

theorem of_eq_field (hp : h.isPseudo = false) (hdate : h ≠ .date) (hdigest : h ≠ .digest) :
    Source.of h = .field := by
  unfold Source.of
  rw [if_neg, if_neg, if_neg, if_neg hdate, if_neg hdigest]
  all_goals
    intro heq
    obtain rfl := heq
    exact absurd hp (by decide)

theorem values_of_line? {o : Option Line} (he : h.isEmpty = false) (hf : Source.of h = .field)
    (hl : line? r c h = .ok o) : r.fields.values h.text ≠ [] := by
  unfold line? at hl
  rw [he, if_neg Bool.false_ne_true] at hl
  obtain ⟨value, hv, -⟩ := map_eq_ok_iff.mp hl
  simp only [hf, Source.value?, fieldValue?, Request.headerValues] at hv
  intro hn
  simp [hn] at hv

theorem name_of_line? {l : Line} (hl : line? r c h = .ok (some l)) : l.name = h.text := by
  unfold line? at hl
  split at hl
  · cases hl
  · obtain ⟨value, -, hv⟩ := map_eq_ok_iff.mp hl
    obtain ⟨_, -, rfl⟩ := Option.map_eq_some_iff.mp hv
    rfl

theorem exists_line? {ls : List Line} (hls : headerLines r c = .ok ls) (hm : h ∈ c.headers)
    (he : h.isEmpty = false) : ∃ o, line? r c h = .ok o := by
  obtain ⟨os, hos, -⟩ := bind_eq_ok_iff.mp hls
  obtain ⟨o, -, ho⟩ := exists_of_mapM hos (List.mem_filter.mpr ⟨hm, by simp [he]⟩)
  exact ⟨o, ho⟩

/-- The lines of the names are those that a listed name contributes. -/
theorem mem_headerLines_iff {ls : List Line} (hls : headerLines r c = .ok ls) {l : Line} :
    l ∈ ls ↔ ∃ h ∈ c.headers, line? r c h = .ok (some l) := by
  obtain ⟨os, hos, he⟩ := bind_eq_ok_iff.mp hls
  obtain rfl := Except.ok.inj he
  simp only [List.mem_filterMap, id_eq, exists_eq_right]
  constructor
  · intro hm
    obtain ⟨h, hh, hl⟩ := exists_of_mem_mapM hos hm
    exact ⟨h, (List.mem_filter.mp hh).1, hl⟩
  · intro hgiven
    obtain ⟨h, hh, hl⟩ := hgiven
    have hne : h.isEmpty = false := by
      unfold line? at hl
      split at hl
      · cases hl
      · next hne => simpa using hne
    obtain ⟨o, hm, ho⟩ := exists_of_mapM hos (List.mem_filter.mpr ⟨hh, by simp [hne]⟩)
    obtain rfl := Except.ok.inj (hl.symm.trans ho)
    exact hm

end SigningString

/-- Requests with the same request line and the same values of all listed fields have the same
signing string, if the times are the same that are listed. -/
theorem signingString_congr (hheaders : c.headers = d.headers) (hmethod : r.method = q.method)
    (huri : r.uri = q.uri)
    (hvalues : ∀ h ∈ c.headers, r.fields.values h.text = q.fields.values h.text)
    (hescaping : c.escaping = d.escaping) (htime : .created ∈ c.headers → c.time = d.time)
    (hexpires : .expires ∈ c.headers → expiresValue? c = expiresValue? d)
    (hnonce : nonceLine? c = nonceLine? d) : signingString r c = signingString q d := by
  have hlines : headerLines r c = headerLines q d := by
    unfold headerLines
    rw [← hheaders]
    rw [mapM_congr (fun h hh => ?_)]
    have hm := (List.mem_filter.mp hh).1
    exact line?_congr hmethod huri (hvalues h hm) hescaping (fun he => htime (he ▸ hm))
      (fun he => hexpires (he ▸ hm))
  unfold signingString lines
  rw [hlines, hnonce]

/-- A field that is not listed does not matter. -/
theorem signingString_sameBut {name : String} (hq : r.SameBut name q)
    (hn : ∀ h ∈ c.headers, h.text ≠ name) : signingString q c = signingString r c := by
  refine signingString_congr rfl hq.method hq.uri (fun h hm => hq.values _ ?_) rfl (fun _ => rfl)
    (fun _ => rfl) rfl
  rw [h.lowered_text]
  exact hn h hm

theorem values_of_signingString {text : String} (hs : signingString r c = .ok text)
    (hm : h ∈ c.headers) (he : h.isEmpty = false) (hf : Source.of h = .field) :
    r.fields.values h.text ≠ [] := by
  obtain ⟨ls, hls, -⟩ := map_eq_ok_iff.mp hs
  obtain ⟨front, hfront, -⟩ := bind_eq_ok_iff.mp hls
  obtain ⟨o, ho⟩ := exists_line? hfront hm he
  exact values_of_line? he hf ho

end SignedHttp
