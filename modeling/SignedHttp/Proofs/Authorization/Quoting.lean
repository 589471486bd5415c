import SignedHttp.Proofs.Authorization.RoundTrip

namespace SignedHttp

namespace Text

theorem count_comma_dropBlanks (cs : List Char) :
    (cs.dropWhile isBlank).count ',' = cs.count ',' := by
  induction cs with
  | nil => rfl
  | cons c cs ih =>
    rw [List.dropWhile_cons]
    split
    · next hc =>
      have hne : c ≠ ',' := fun he => absurd (he ▸ hc) (by decide)
      rw [ih, List.count_cons_of_ne hne]
    · rfl

theorem count_comma_trimEnd (cs : List Char) : (trimEnd cs).count ',' = cs.count ',' := by
  rw [trimEnd, List.count_reverse, count_comma_dropBlanks, List.count_reverse]

theorem count_comma_trim (cs : List Char) : (trim cs).count ',' = cs.count ',' := by
  rw [trim, count_comma_trimEnd, trimStart, count_comma_dropBlanks]

theorem trimEnd_append (front back : List Char) {c : Char} (hc : isBlank c = false) :
    trimEnd (front ++ c :: back) = front ++ c :: trimEnd back := by
  have hkept : (c :: front.reverse).dropWhile isBlank = c :: front.reverse := by
    simp [hc]
  unfold trimEnd
  rw [List.reverse_append, List.reverse_cons, List.append_assoc, List.singleton_append,
    List.dropWhile_append]
  split
  · next he => simp [hkept, List.isEmpty_iff.mp he]
  · simp

theorem isBlank_head_trim {cs : List Char} {c : Char} (h : (trim cs).head? = some c) :
    isBlank c = false := by
  have hprefix : trim cs <+: trimStart cs := by
    rw [trim, trimEnd, ← List.reverse_suffix, List.reverse_reverse]
    exact List.dropWhile_suffix _
  obtain ⟨rest, hr⟩ := hprefix
  cases ht : trim cs with
  | nil => simp [ht] at h
  | cons d ds =>
    obtain rfl : d = c := by simpa [ht] using h
    have hhead : (trimStart cs).head? = some d := by rw [← hr, ht]; rfl
    have hnot := List.head?_dropWhile_not isBlank cs
    rw [trimStart] at hhead
    simpa [hhead] using hnot

end Text

namespace Authorization

variable {q : Bool} {part rest cs first : List Char} {more : List (List Char)}

theorem exists_splitParts (q : Bool) (cs : List Char) :
    ∃ first more, splitParts q cs = first :: more := by
  induction cs generalizing q with
  | nil => exact ⟨[], [], rfl⟩
  | cons c cs ih =>
    by_cases hc : c = ',' ∧ q = false
    · obtain ⟨rfl, rfl⟩ := hc
      exact ⟨_, _, splitParts_comma cs⟩
    · obtain ⟨first, more, hs⟩ := ih (if c = '"' then !q else q)
      exact ⟨_, _, splitParts_cons (fun he => by simpa [he] using hc) hs⟩

theorem splitParts_prefix (h : ∀ c ∈ cs, c ≠ '"' ∧ c ≠ ',') (hs : splitParts q rest = first :: more) :
    splitParts q (cs ++ rest) = (cs ++ first) :: more := by
  induction cs with
  | nil => exact hs
  | cons c cs ih =>
    obtain ⟨hq, hc⟩ := h c List.mem_cons_self
    refine splitParts_cons (fun he => absurd he hc) ?_
    rw [if_neg hq]
    exact ih (fun d hd => h d (List.mem_cons_of_mem _ hd))

theorem splitParts_intercalate_append {parts : List (List Char)} (h : ∀ p ∈ parts, IsPart false p)
    (hne : more ≠ []) :
    splitParts false (List.intercalate [','] (parts ++ more)) =
      parts ++ splitParts false (List.intercalate [','] more) := by
  induction parts with
  | nil => rfl
  | cons p ps ih =>
    rw [List.cons_append, List.intercalate_cons_of_ne_nil (by simp [hne]), List.append_assoc]
    change splitParts false (p ++ ',' :: List.intercalate [','] (ps ++ more)) = _
    rw [splitParts_append (h p List.mem_cons_self), ih (fun p hp => h p (List.mem_cons_of_mem _ hp))]
    rfl

/-- A text that is followed by a comma keeps its commas only if it is a part. -/
theorem isPart_of_count (h : splitParts q (part ++ ',' :: rest) = first :: more)
    (hcount : first.count ',' = part.count ',') : IsPart q part := by
  induction part generalizing q first more with
  | nil =>
    cases q with
    | false => rfl
    | true =>
      obtain ⟨tail, parts, hs⟩ := exists_splitParts true rest
      have hcomma : splitParts true (',' :: rest) = (',' :: tail) :: parts :=
        splitParts_cons (fun _ => rfl) hs
      rw [List.nil_append, hcomma] at h
      obtain ⟨rfl, -⟩ := List.cons.inj h
      simp at hcount
  | cons c cs ih =>
    by_cases hc : c = ',' ∧ q = false
    · obtain ⟨rfl, rfl⟩ := hc
      rw [List.cons_append, splitParts_comma] at h
      obtain ⟨rfl, -⟩ := List.cons.inj h
      simp at hcount
    · have hin : c = ',' → q = true := fun he => by simpa [he] using hc
      obtain ⟨tail, parts, hs⟩ := exists_splitParts (if c = '"' then !q else q) (cs ++ ',' :: rest)
      rw [List.cons_append, splitParts_cons hin hs] at h
      obtain ⟨rfl, -⟩ := List.cons.inj h
      refine ⟨hin, ih hs ?_⟩
      simpa [List.count_cons] using hcount

theorem count_comma_unquoted (cs : List Char) : (unquoted cs).count ',' = cs.count ',' := by
  unfold unquoted
  split
  · next rest =>
    split
    · next hl =>
      obtain ⟨inner, rfl⟩ := List.getLast?_eq_some_iff.mp (beq_iff_eq.mp hl)
      simp
    · rfl
  · rfl

theorem addPart_quoted {entries : List Entry} {p : Parameter}
    (hp : p ≠ .created ∧ p ≠ .expires ∧ p ≠ .headers) (hnew : ∀ f ∈ entries, f.parameter ≠ p)
    (cs : List Char) :
    ∃ value : String, value.toList.count ',' = cs.count ',' ∧
      addPart entries (p.name.toList ++ '=' :: '"' :: cs) = .ok (entries ++ [.text p value]) := by
  obtain ⟨hname, hnn, hof⟩ := p.name_facts
  refine ⟨String.ofList (unquoted (Text.trim (Text.trimEnd ('"' :: cs)))), ?_, ?_⟩
  · rw [String.toList_ofList, count_comma_unquoted, Text.count_comma_trim, Text.count_comma_trimEnd]
    simp
  · have htrim : Text.trim (p.name.toList ++ '=' :: '"' :: cs) =
        p.name.toList ++ '=' :: Text.trimEnd ('"' :: cs) := by
      have hstart : Text.trimStart (p.name.toList ++ '=' :: '"' :: cs) =
          p.name.toList ++ '=' :: '"' :: cs := by
        refine Text.dropWhile_eq_self (fun c hc => ?_)
        rw [List.head?_append_of_ne_nil _ hnn] at hc
        exact (hname c (List.mem_of_head? hc)).2.2.2
      rw [Text.trim, hstart, Text.trimEnd_append _ _ (by decide)]
    have hsplit : Text.splitFirst '=' (p.name.toList ++ '=' :: Text.trimEnd ('"' :: cs)) =
        some (p.name.toList, Text.trimEnd ('"' :: cs)) :=
      Text.splitFirst_append _ (fun h => (hname _ h).2.2.1 rfl)
    have hkey : Text.trim p.name.toList = p.name.toList :=
      Text.trim_eq_self_of_forall (fun c hc => (hname c hc).2.2.2)
    have hany : (entries.any (fun f => f.parameter == p)) = false := by
      simpa using hnew
    unfold addPart
    simp only [htrim, hsplit, hkey, String.ofList_toList, hof, hany]
    simp [readEntry_text hp, bind, Except.bind, pure, Except.pure]

theorem addPart_extends {entries after : List Entry} (h : addPart entries part = .ok after) :
    entries <+: after := by
  obtain ⟨own, -, -, rfl⟩ := addPart_eq_ok_iff.mp h
  exact List.prefix_append _ _

theorem addParts_extends {parts : List (List Char)} {entries after : List Entry}
    (h : parts.foldlM addPart entries = .ok after) : entries <+: after := by
  induction parts generalizing entries with
  | nil =>
    cases h
    exact List.prefix_refl _
  | cons part parts ih =>
    simp only [List.foldlM_cons, bind, Except.bind] at h
    split at h
    · cases h
    · next middle hm => exact (addPart_extends hm).trans (ih h)

theorem textOf?_append (front back : List Entry) (p : Parameter) :
    textOf? (front ++ back) p = (textOf? front p).or (textOf? back p) :=
  List.findSome?_append

theorem textOf?_eq_none {entries : List Entry} {p : Parameter}
    (h : ∀ e ∈ entries, e.parameter ≠ p) : textOf? entries p = none :=
  List.findSome?_eq_none_iff.mpr (fun e he => Entry.text?_eq_none (h e he))

/-- A text that is read as it was written, behind parts that are read, keeps its commas where the
header is split; `tail` is what stands behind the quote that opens it. -/
theorem count_comma_of_read {front back entries : List Entry} {p : Parameter} {value : String}
    {tail : List Char} (hfront : ∀ e ∈ front, e.Writable)
    (hd : (front ++ .text p value :: back).Pairwise (fun e f => e.parameter ≠ f.parameter))
    (hp : p ≠ .created ∧ p ≠ .expires ∧ p ≠ .headers)
    (htail : List.intercalate [','] ((Entry.text p value :: back).map (fun e => e.part.toList)) =
      p.name.toList ++ '=' :: '"' :: tail)
    (hs : splitParts true tail = first :: more)
    (h : (splitParts false (List.intercalate [',']
      ((front ++ .text p value :: back).map (fun e => e.part.toList)))).foldlM addPart [] =
        .ok entries)
    (hv : textOf? entries p = some value) : first.count ',' = value.toList.count ',' := by
  obtain ⟨hpairs, -, hcross⟩ := List.pairwise_append.mp hd
  have hnew : ∀ f ∈ front, f.parameter ≠ p := fun f hf => hcross f hf _ List.mem_cons_self
  have hparts : ∀ cs ∈ front.map (fun e => e.part.toList), IsPart false cs := by
    intro cs hm
    obtain ⟨e, he, rfl⟩ := List.mem_map.mp hm
    exact (hfront e he).isPart
  have hpart : splitParts false (p.name.toList ++ '=' :: '"' :: tail) =
      (p.name.toList ++ '=' :: '"' :: first) :: more := by
    have hopen : splitParts false ('=' :: '"' :: tail) = ('=' :: '"' :: first) :: more :=
      splitParts_cons (fun he => absurd he (by decide))
        (splitParts_cons (fun he => absurd he (by decide)) hs)
    have hname : ∀ c ∈ p.name.toList, c ≠ '"' ∧ c ≠ ',' := fun c hc =>
      ⟨(p.name_facts.1 c hc).1, (p.name_facts.1 c hc).2.1⟩
    exact splitParts_prefix hname hopen
  have hall : (front.map (fun e => e.part.toList)).foldlM addPart [] = .ok front :=
    addParts_parts hfront hpairs
  obtain ⟨given, hcount, hadd⟩ := addPart_quoted hp hnew first
  rw [List.map_append, splitParts_intercalate_append hparts (by simp), htail, hpart,
    List.foldlM_append, hall] at h
  simp only [bind, Except.bind, List.foldlM_cons, hadd] at h
  obtain ⟨others, rfl⟩ := addParts_extends h
  have hgiven : textOf? (front ++ [.text p given] ++ others) p = some given := by
    have hself : textOf? [.text p given] p = some given := by simp [textOf?]
    rw [textOf?_append, textOf?_append, textOf?_eq_none hnew, hself]
    rfl
  rw [← Option.some.inj (hgiven.symm.trans hv), hcount]

/-- A text that is read as it was written, behind parts that are read and in front of others, has its
end where it was quoted. -/
theorem quotable_of_read {front back entries : List Entry} {p : Parameter} {value : String}
    (hfront : ∀ e ∈ front, e.Writable)
    (hd : (front ++ .text p value :: back).Pairwise (fun e f => e.parameter ≠ f.parameter))
    (hp : p ≠ .created ∧ p ≠ .expires ∧ p ≠ .headers) (hback : back ≠ [])
    (h : (splitParts false (List.intercalate [',']
      ((front ++ .text p value :: back).map (fun e => e.part.toList)))).foldlM addPart [] =
        .ok entries)
    (hv : textOf? entries p = some value) : Quotable value := by
  have htail : List.intercalate [','] ((Entry.text p value :: back).map (fun e => e.part.toList)) =
      p.name.toList ++ '=' :: '"' :: (value.toList ++ ['"'] ++
        ',' :: List.intercalate [','] (back.map (fun e => e.part.toList))) := by
    rw [List.map_cons, List.intercalate_cons_of_ne_nil (by simpa using hback), Entry.part,
      toList_quoted]
    simp
  obtain ⟨first, more, hs⟩ := exists_splitParts true
    (value.toList ++ ['"'] ++ ',' :: List.intercalate [','] (back.map (fun e => e.part.toList)))
  refine isPart_of_count hs ?_
  rw [count_comma_of_read hfront hd hp htail hs h hv]
  simp

theorem quotable_empty : Quotable "" := quotable_of_not_mem (by decide)

theorem quotable_keyId {s given : Signature} (h : readParameters (write s).toList = .ok given)
    (hid : given.keyId = s.keyId) : Quotable s.keyId := by
  obtain ⟨entries, hf, rfl, -⟩ := readParameters_eq_ok_iff.mp h
  have hd := entriesOf_distinct s
  rw [toList_write] at hf
  obtain ⟨others, ho⟩ := leadingEntries_eq_cons s
  rw [entriesOf_eq, ho, List.cons_append] at hf hd
  cases ht : textOf? entries .keyId with
  | none =>
    have hempty : s.keyId = "" := by simpa [signatureOf, ht] using hid.symm
    exact hempty ▸ quotable_empty
  | some v =>
    obtain rfl : v = s.keyId := by simpa [signatureOf, ht] using hid
    have hnone : ∀ e ∈ ([] : List Entry), e.Writable := by simp
    exact quotable_of_read hnone hd (by decide) (by simp) hf ht

theorem entriesOf_nonce {s : Signature} {n : String} (hn : nonEmpty s.nonce = some n) :
    ∃ front, entriesOf { s with nonce := none } = front ++ [.text .signature s.value] ∧
      entriesOf s = front ++ .text .nonce n :: [.text .signature s.value] := by
  have hall : Parameter.all =
      [.keyId, .algorithm, .created, .expires, .headers] ++ [.nonce, .signature] := rfl
  have hnonce : written? s .nonce = some (.text .nonce n) :=
    congrArg (Option.map (Entry.text .nonce)) hn
  refine ⟨[.keyId, .algorithm, .created, .expires, .headers].filterMap (written? s), ?_, ?_⟩
  · rw [entriesOf, hall, List.filterMap_append]
    rfl
  · rw [entriesOf, hall, List.filterMap_append, List.filterMap_cons_some hnonce]
    rfl

theorem quotable_nonce {s given : Signature} (hothers : { s with nonce := none }.Quotable)
    (h : readParameters (write s).toList = .ok given) (hnonce : given.nonce = nonEmpty s.nonce)
    {n : String} (hn : nonEmpty s.nonce = some n) : Quotable n := by
  obtain ⟨entries, hf, rfl, -⟩ := readParameters_eq_ok_iff.mp h
  obtain ⟨front, hwithout, hwith⟩ := entriesOf_nonce hn
  have hd := entriesOf_distinct s
  have hfront : ∀ e ∈ front, e.Writable := by
    intro e he
    exact writable_entries hothers e (hwithout ▸ List.mem_append_left _ he)
  rw [toList_write] at hf
  rw [hwith] at hf hd
  have hv : textOf? entries .nonce = some n :=
    (Option.filter_eq_some_iff.mp (hnonce.trans hn)).1
  exact quotable_of_read hfront hd (by decide) (by simp) hf hv

/-- If the algorithm and the value can be quoted, a key id and a nonce that are read as they were
written can. -/
theorem signature_quotable {s given : Signature} (hd : s.defect? = none)
    (hnames : ∀ h ∈ s.headers.getD [], h.isEmpty = false)
    (halgorithm : ∀ a, s.algorithm = some a → Quotable a) (hvalue : Quotable s.value)
    (h : readParameters (write s).toList = .ok given) (hid : given.keyId = s.keyId)
    (hnonce : given.nonce = nonEmpty s.nonce) : s.Quotable := by
  have hkey := quotable_keyId h hid
  refine ⟨hd, hnames, hkey, halgorithm, fun n hn => ?_, hvalue⟩
  by_cases he : n = ""
  · exact he ▸ quotable_empty
  · have hothers : { s with nonce := none }.Quotable :=
      ⟨hd, hnames, hkey, halgorithm, nofun, hvalue⟩
    refine quotable_nonce hothers h hnonce ?_
    simp [nonEmpty_eq, hn, he]

theorem isScheme_of_read {scheme : String} {s given : Signature} (hne : scheme.toList ≠ [])
    (h : read scheme (scheme ++ " " ++ write s) = .ok given) : IsScheme scheme := by
  unfold read at h
  split at h
  · cases h
  · next found params hs =>
    split at h
    · cases h
    · next hfound =>
      obtain rfl : found = scheme.toList := by simpa using hfound
      obtain ⟨htrim, hspace⟩ := Text.splitFirst_eq_some_iff.mp hs
      refine ⟨hne, hspace, fun c hc => ?_⟩
      have hhead : (Text.trim (scheme ++ " " ++ write s).toList).head? = some c := by
        rw [htrim, List.head?_append_of_ne_nil _ hne]
        exact hc
      exact Text.isBlank_head_trim hhead

end Authorization

end SignedHttp
