import SignedHttp.Proofs.Lines

namespace SignedHttp

open SigningString

/-- A line that can be read back from a text. -/
structure Line.Plain (l : Line) : Prop where
  name : ':' ∉ l.name.toList
  text : '\n' ∉ l.text.toList

theorem Line.Plain.ext {l m : Line} (hl : l.Plain) (hm : m.Plain) (h : l.text = m.text) :
    l = m := by
  have hcut : ∀ {k : Line}, k.Plain → Text.splitFirst ':' k.text.toList =
      some (k.name.toList, ' ' :: k.value.toList) := by
    intro k hk
    have htext : k.text.toList = k.name.toList ++ ':' :: ' ' :: k.value.toList := by
      simp [Line.text]
    rw [htext]
    exact Text.splitFirst_append _ hk.name
  have heq := (hcut hl).symm.trans ((congrArg (Text.splitFirst ':') (congrArg _ h)).trans (hcut hm))
  obtain ⟨hname, hvalue⟩ := Prod.mk.inj (Option.some.inj heq)
  obtain ⟨-, hvalue⟩ := List.cons.inj hvalue
  cases l
  cases m
  exact congrArg₂ Line.mk (String.toList_inj.mp hname) (String.toList_inj.mp hvalue)

namespace SigningString

variable {r q : Request} {c d : Composition} {h : HeaderName} {l : Line} {ls ms : List Line}
  {text : String}

theorem isEmpty_joinLines : (joinLines ls).isEmpty = ls.isEmpty := by
  cases ls with
  | nil => rfl
  | cons l ls => exact joinLines_ne_empty

theorem splitOn_joinLines (h : ∀ l ∈ ls, l.Plain) (hne : ls ≠ []) :
    List.splitOn '\n' (joinLines ls).toList = ls.map (fun l => l.text.toList) := by
  rw [joinLines, String.toList_ofList]
  refine List.splitOn_intercalate _ (fun piece hm hbreak => ?_) (by simpa using hne)
  obtain ⟨l, hl, rfl⟩ := List.mem_map.mp hm
  exact (h l hl).text hbreak

theorem Plain.eq_of_texts (hl : ∀ l ∈ ls, l.Plain) (hm : ∀ m ∈ ms, m.Plain)
    (h : ls.map (fun l => l.text.toList) = ms.map (fun l => l.text.toList)) : ls = ms := by
  induction ls generalizing ms with
  | nil => exact (List.map_eq_nil_iff.mp h.symm).symm
  | cons l ls ih =>
    cases ms with
    | nil => cases h
    | cons m ms =>
      obtain ⟨hfirst, hrest⟩ := List.cons.inj h
      have hsame := (hl l List.mem_cons_self).ext (hm m List.mem_cons_self)
        (String.toList_inj.mp hfirst)
      rw [hsame, ih (fun k hk => hl k (List.mem_cons_of_mem _ hk))
        (fun k hk => hm k (List.mem_cons_of_mem _ hk)) hrest]

/-- Lines that can be read back are the same if their texts are. -/
theorem joinLines_inj (hl : ∀ l ∈ ls, l.Plain) (hm : ∀ m ∈ ms, m.Plain)
    (h : joinLines ls = joinLines ms) : ls = ms := by
  have hempty : ls.isEmpty = ms.isEmpty := by
    rw [← isEmpty_joinLines, ← isEmpty_joinLines, h]
  cases ls with
  | nil => exact (List.isEmpty_iff.mp hempty.symm).symm
  | cons l ls =>
    have hne : ms ≠ [] := by
      rintro rfl
      cases hempty
    apply Plain.eq_of_texts hl hm
    rw [← splitOn_joinLines hl (List.cons_ne_nil l ls), ← splitOn_joinLines hm hne, h]

theorem plain_of_lines (he : c.escaping.Rewrites) (hn : c.PlainNonce) (hls : lines r c = .ok ls) :
    ∀ l ∈ ls, l.Plain := by
  obtain ⟨front, hfront, hend⟩ := bind_eq_ok_iff.mp hls
  rw [← Except.ok.inj hend]
  intro l hm
  rcases List.mem_append.mp hm with hm | hm
  · obtain ⟨h, -, hl⟩ := (mem_headerLines_iff hfront).mp hm
    refine ⟨name_of_line? hl ▸ h.colon_not_mem, List.count_eq_zero.mp ?_⟩
    have hnone : targetBreaks r c.escaping = 0 :=
      targetBreaks_eq_zero_iff.mpr (he.newline_not_mem _)
    have hbreaks := breaks_of_line? hl
    rw [hnone, ite_self] at hbreaks
    exact hbreaks
  · have hl := Option.mem_toList.mp hm
    have hname : ':' ∉ "nonce".toList := by decide
    refine ⟨?_, List.count_eq_zero.mp (breaks_nonceLine? hn hl)⟩
    obtain ⟨n, -, rfl⟩ := Option.map_eq_some_iff.mp hl
    exact hname

theorem line?_of_headerLines (hr : headerLines r c = .ok ls) (hq : headerLines q d = .ok ls)
    (hm : h ∈ c.headers) (hl : line? r c h = .ok (some l)) : line? q d h = .ok (some l) := by
  obtain ⟨g, -, hg⟩ := (mem_headerLines_iff hq).mp ((mem_headerLines_iff hr).mpr ⟨h, hm, hl⟩)
  obtain rfl : g = h := HeaderName.ext ((name_of_line? hg).symm.trans (name_of_line? hl))
  exact hg

/-- Each name has the same line in both strings, or none in both. -/
theorem line?_eq_of_headerLines (hheaders : c.headers = d.headers)
    (hr : headerLines r c = .ok ls) (hq : headerLines q d = .ok ls) (hm : h ∈ c.headers)
    (he : h.isEmpty = false) : ∃ o, line? r c h = .ok o ∧ line? q d h = .ok o := by
  obtain ⟨o, ho⟩ := exists_line? hr hm he
  refine ⟨o, ho, ?_⟩
  cases o with
  | some l => exact line?_of_headerLines hr hq hm ho
  | none =>
    obtain ⟨p, hp⟩ := exists_line? hq (hheaders ▸ hm) he
    cases p with
    | none => exact hp
    | some l =>
      have hl := line?_of_headerLines hq hr (hheaders ▸ hm) hp
      exact absurd (ho.symm.trans hl) nofun

theorem value?_of_line? {o : Option Line} (hl : line? r c h = .ok o) :
    (Source.of h).value? r c h = .ok (o.map Line.value) := by
  unfold line? at hl
  split at hl
  · cases hl
  · obtain ⟨value, hv, rfl⟩ := map_eq_ok_iff.mp hl
    rw [hv]
    cases value <;> rfl

theorem targetValue_inj {e f : Escaping} (h : targetValue r e = targetValue q f) :
    Text.lowered r.method.text = Text.lowered q.method.text ∧ e.apply r.uri = f.apply q.uri := by
  have hcut : ∀ (p : Request) (e : Escaping), Text.cut ' ' (targetValue p e) =
      some (Text.lowered p.method.text, e.apply p.uri) := by
    intro p e
    refine Text.cut_eq_some_iff.mpr ⟨rfl, fun hm => ?_⟩
    exact absurd (p.method.not_isBlank_of_mem_lowered _ hm) (by decide)
  have heq := (hcut r e).symm.trans (h ▸ hcut q f)
  exact Prod.mk.inj (Option.some.inj heq)

/-- What stands for a name is the same in two requests: the method and the target, the values of a
field, or else the value of the line, if there is one. -/
structure Agree (r : Request) (c : Composition) (q : Request) (d : Composition) (h : HeaderName) :
    Prop where
  value : ∃ value, (Source.of h).value? r c h = .ok value ∧ (Source.of h).value? q d h = .ok value
  target : h = .requestTarget → Text.lowered r.method.text = Text.lowered q.method.text ∧
    c.escaping.apply r.uri = d.escaping.apply q.uri
  field : Source.of h = .field → ∃ value, fieldValue? r h = some value ∧ fieldValue? q h = some value

theorem agree_of_line? {o : Option Line} (hr : line? r c h = .ok o) (hq : line? q d h = .ok o) :
    Agree r c q d h := by
  have hrv := value?_of_line? hr
  have hqv := value?_of_line? hq
  refine ⟨⟨_, hrv, hqv⟩, fun ht => ?_, fun hf => ?_⟩
  · obtain rfl := ht
    have heq := Option.some.inj (Except.ok.inj (hrv.trans hqv.symm))
    exact targetValue_inj heq
  · rw [hf] at hrv hqv
    simp only [Source.value?] at hrv hqv
    cases hv : fieldValue? r h with
    | none => simp [hv] at hrv
    | some v =>
      cases hw : fieldValue? q h with
      | none => simp [hw] at hqv
      | some w =>
        simp only [hv, hw] at hrv hqv
        have heq := Except.ok.inj (hrv.trans hqv.symm)
        exact ⟨v, rfl, heq.symm⟩

end SigningString

variable {r q : Request} {c d : Composition} {text : String}

/-- A signing string shows its lines, and with the names and the nonce given it shows what stands
for each name: lines that are left out do not make two requests look alike. -/
theorem signingString_determines (hc : c.escaping.Rewrites) (hd : d.escaping.Rewrites)
    (hcn : c.PlainNonce) (hdn : d.PlainNonce) (hr : signingString r c = .ok text)
    (hq : signingString q d = .ok text) :
    ∃ ls, lines r c = .ok ls ∧ lines q d = .ok ls ∧
      (c.headers = d.headers → c.nonce = d.nonce →
        ∀ h ∈ c.headers, h.isEmpty = false → Agree r c q d h) := by
  obtain ⟨ls, hls, rfl⟩ := map_eq_ok_iff.mp hr
  obtain ⟨ms, hms, htext⟩ := map_eq_ok_iff.mp hq
  obtain rfl := joinLines_inj (plain_of_lines hd hdn hms) (plain_of_lines hc hcn hls) htext
  refine ⟨ms, hls, hms, fun hheaders hnonce h hm he => ?_⟩
  -- the nonce's line is the same, so the lines in front of it are
  obtain ⟨front, hfront, hend⟩ := bind_eq_ok_iff.mp hls
  obtain ⟨front', hfront', hend'⟩ := bind_eq_ok_iff.mp hms
  have htail : nonceLine? d = nonceLine? c := by rw [nonceLine?, nonceLine?, hnonce]
  rw [htail] at hend'
  obtain rfl := List.append_cancel_right (Except.ok.inj (hend.trans hend'.symm))
  obtain ⟨o, ho, hp⟩ := line?_eq_of_headerLines hheaders hfront hfront' hm he
  exact agree_of_line? ho hp

/-- Two lines under one name, which are the same or hold no line breaks. Such lines can be compared
also where a target brings along lines of its own. -/
def Line.Beside (l m : Line) : Prop :=
  l.name = m.name ∧ (l = m ∨ l.breaks = 0 ∧ m.breaks = 0)

namespace SigningString

variable {r q : Request} {c d : Composition} {g : HeaderName} {ls ms : List Line}

theorem eq_of_text {l m : Line} (h : l.Beside m) (ht : l.text = m.text) : l = m := by
  obtain ⟨name, value⟩ := l
  obtain ⟨name', value'⟩ := m
  obtain rfl : name = name' := h.1
  have hlists := congrArg String.toList ht
  simp only [Line.text, String.toList_append, List.append_cancel_left_eq] at hlists
  rw [String.toList_inj.mp hlists]

/-- Lines beside each other are the same if their texts are. -/
theorem eq_of_beside (h : List.Forall₂ Line.Beside ls ms) (he : joinLines ls = joinLines ms) :
    ls = ms := by
  have htexts : ls.map (fun l => l.text.toList) = ms.map (fun l => l.text.toList) := by
    refine Text.intercalate_inj ?_ (String.ofList_injective he)
    rw [List.forall₂_map_left_iff, List.forall₂_map_right_iff]
    refine h.imp ?_
    rintro l m ⟨-, rfl | ⟨hl, hm⟩⟩
    · exact Or.inl rfl
    · exact Or.inr ⟨List.count_eq_zero.mp hl, List.count_eq_zero.mp hm⟩
  clear he
  induction h with
  | nil => rfl
  | cons hlm _ ih =>
    obtain ⟨htext, hrest⟩ := List.cons.inj htexts
    rw [eq_of_text hlm (String.toList_inj.mp htext), ih hrest]

theorem filterMap_beside {names : List HeaderName} {os ps : List (Option Line)}
    (ho : List.Forall₂ (fun g o => line? r c g = .ok o) names os)
    (hp : List.Forall₂ (fun g p => line? q d g = .ok p) names ps)
    (h : ∀ g ∈ names, ∀ o p, line? r c g = .ok o → line? q d g = .ok p →
      Option.Rel Line.Beside o p) :
    List.Forall₂ Line.Beside (os.filterMap id) (ps.filterMap id) := by
  induction ho generalizing ps with
  | nil =>
    cases hp
    exact .nil
  | cons hline _ ih =>
    cases hp with
    | cons hline' hrest =>
      have hothers := ih hrest (fun g hg => h g (List.mem_cons_of_mem _ hg))
      cases h _ List.mem_cons_self _ _ hline hline' with
      | none => exact hothers
      | some hlm => exact .cons hlm hothers

/-- If each name has lines beside each other, or none on both sides, the lines are the same if the
signing strings are. -/
theorem headerLines_eq (hheaders : c.headers = d.headers) (hnonce : nonceLine? c = nonceLine? d)
    {text : String} (hr : signingString r c = .ok text) (hq : signingString q d = .ok text)
    (h : ∀ g ∈ c.headers, ∀ o p, line? r c g = .ok o → line? q d g = .ok p →
      Option.Rel Line.Beside o p) :
    ∃ ls, headerLines r c = .ok ls ∧ headerLines q d = .ok ls := by
  obtain ⟨all, hls, rfl⟩ := map_eq_ok_iff.mp hr
  obtain ⟨all', hms, htext⟩ := map_eq_ok_iff.mp hq
  obtain ⟨os, hos, rfl⟩ := lines_eq_ok_iff.mp hls
  obtain ⟨ps, hps, rfl⟩ := lines_eq_ok_iff.mp hms
  have hbeside : List.Forall₂ Line.Beside (os.filterMap id) (ps.filterMap id) := by
    apply filterMap_beside (mapM_eq_ok_iff.mp hos)
    · rw [hheaders]
      exact mapM_eq_ok_iff.mp hps
    · exact fun g hg => h g (List.mem_filter.mp hg).1
  have htail : List.Forall₂ Line.Beside (nonceLine? c).toList (nonceLine? d).toList := by
    rw [hnonce]
    exact List.forall₂_same.mpr (fun l _ => ⟨rfl, Or.inl rfl⟩)
  have hsame := eq_of_beside (List.rel_append hbeside htail) htext.symm
  rw [hnonce] at hsame
  refine ⟨os.filterMap id, ?_, ?_⟩
  · exact bind_eq_ok_iff.mpr ⟨os, hos, rfl⟩
  · rw [List.append_cancel_right hsame]
    exact bind_eq_ok_iff.mpr ⟨ps, hps, rfl⟩

theorem fieldValue_ne_none : Source.field.value? r c g ≠ .ok none := by
  simp only [Source.value?]
  cases fieldValue? r g <;> simp

theorem beside_of_lines {o p : Option Line} (hg : g ≠ .requestTarget)
    (hv : (Source.of g).value? r c g ≠ .ok none) (hw : (Source.of g).value? q d g ≠ .ok none)
    (ho : line? r c g = .ok o) (hp : line? q d g = .ok p) : Option.Rel Line.Beside o p := by
  cases o with
  | none => exact absurd (value?_of_line? ho) hv
  | some l =>
    cases p with
    | none => exact absurd (value?_of_line? hp) hw
    | some m =>
      have hl := breaks_of_line? ho
      have hm := breaks_of_line? hp
      rw [if_neg hg] at hl hm
      exact .some ⟨(name_of_line? ho).trans (name_of_line? hp).symm, Or.inr ⟨hl, hm⟩⟩

end SigningString

namespace Sample

theorem isLowerToken_date : Text.isLowerToken "date".toList = true := by decide

/-- A tilde that is escaped, and a date without a day or an hour. -/
def escapedTilde : Request where
  method := injecting.method
  uri := "/%7Euser"
  fields := [(⟨"date", isLowerToken_date⟩, ⟨Text.bytes "2024", by decide⟩)]
  body := none

def plainTilde : Request :=
  { escapedTilde with uri := "/~user", fields := [] }

def targetAndDate : Composition :=
  ⟨[.requestTarget, .date], .rfc3986, none, none, some "n1"⟩

theorem tilde_text :
    signingString escapedTilde targetAndDate = .ok "(request-target): get /~user\nnonce: n1" ∧
      signingString plainTilde targetAndDate = .ok "(request-target): get /~user\nnonce: n1" := by
  decide +kernel

/-- The targets are the same, and neither request has a line for its date. -/
theorem tildes_agree :
    Agree escapedTilde targetAndDate plainTilde targetAndDate .requestTarget ∧
      Agree escapedTilde targetAndDate plainTilde targetAndDate .date := by
  have hnonce : targetAndDate.PlainNonce := by
    intro n hn
    obtain rfl := Option.some.inj hn
    decide
  obtain ⟨hescaped, hplain⟩ := tilde_text
  obtain ⟨ls, -, -, hagree⟩ :=
    signingString_determines (Or.inl rfl) (Or.inl rfl) hnonce hnonce hescaped hplain
  have hlisted := hagree rfl rfl
  exact ⟨hlisted .requestTarget (by simp [targetAndDate]) rfl,
    hlisted .date (by simp [targetAndDate]) rfl⟩

end Sample

end SignedHttp
