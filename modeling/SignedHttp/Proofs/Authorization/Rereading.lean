import Mathlib.Data.List.Induction
import SignedHttp.Proofs.Authorization.Commas

namespace SignedHttp

namespace Authorization

variable {s : Signature} {entries : List Entry} {p : Parameter} {value : String}

theorem mem_leadingEntries_iff {e : Entry} :
    e ∈ leadingEntries s ↔ ∃ p, p ≠ .signature ∧ written? s p = some e := by
  refine List.mem_filterMap.trans (exists_congr (fun p => and_congr_left (fun _ => ?_)))
  cases p <;> decide

theorem mem_leadingEntries (h : text? s p = some value) (hp : p ≠ .signature) :
    .text p value ∈ leadingEntries s := by
  refine mem_leadingEntries_iff.mpr ⟨p, hp, ?_⟩
  cases p with
  | created | expires | headers => cases h
  | keyId | algorithm | nonce | signature => exact congrArg (Option.map (Entry.text _)) h

theorem textOf?_of_text? (hd : (signatureOf entries).defect? = none)
    (h : text? (signatureOf entries) p = some value) : textOf? entries p = some value := by
  have hfound : ∀ {p : Parameter}, (textOf? entries p).getD "" ≠ "" →
      textOf? entries p = some ((textOf? entries p).getD "") := by
    intro p hne
    cases ht : textOf? entries p with
    | none => simp [ht] at hne
    | some v => rfl
  have hkept : ∀ {p : Parameter}, nonEmpty (nonEmpty (textOf? entries p)) = some value →
      textOf? entries p = some value := by
    intro p hv
    rw [nonEmpty_nonEmpty] at hv
    exact (Option.filter_eq_some_iff.mp hv).1
  obtain ⟨hid, hvalue, -⟩ := Signature.complete_iff.mp hd
  cases p with
  | keyId => exact (hfound hid).trans h
  | algorithm => exact hkept h
  | nonce => exact hkept h
  | signature => exact (hfound hvalue).trans h
  | created | expires | headers => cases h

/-- A signature of which each text has its end where it was quoted, the last one perhaps only because
nothing stands behind it. -/
structure Enclosed (s : Signature) : Prop where
  leading : ∀ p text, text? s p = some text → p ≠ .signature → Quotable text
  value : Unbroken true s.value.toList

theorem leading_writable (hnames : ∀ h ∈ s.headers.getD [], h.isEmpty = false) (h : Enclosed s) :
    ∀ e ∈ leadingEntries s, e.Writable := by
  intro e he
  obtain ⟨p, hp, hwritten⟩ := mem_leadingEntries_iff.mp he
  exact writable_of_written? hnames hwritten (fun value ht => h.leading p value ht hp)

theorem readParameters_enclosed (hd : s.defect? = none)
    (hnames : ∀ h ∈ s.headers.getD [], h.isEmpty = false) (h : Enclosed s) :
    readParameters (write s).toList = .ok s.written := by
  have hwritable := leading_writable hnames h
  have hdistinct := entriesOf_distinct s
  rw [entriesOf_eq] at hdistinct
  obtain ⟨hpairs, -, hcross⟩ := List.pairwise_append.mp hdistinct
  have hleading : ∀ cs ∈ (leadingEntries s).map (fun e => e.part.toList), IsPart false cs := by
    intro cs hm
    obtain ⟨e, he, rfl⟩ := List.mem_map.mp hm
    exact (hwritable e he).isPart
  have hlast : splitParts false (quoted .signature s.value).toList =
      [(quoted .signature s.value).toList] :=
    splitParts_unbroken ((unbroken_quoted .signature).mpr h.value)
  have hsplit : splitParts false (write s).toList =
      (leadingEntries s).map (fun e => e.part.toList) ++ [(quoted .signature s.value).toList] := by
    rw [toList_write, entriesOf_eq, List.map_append,
      splitParts_intercalate_append hleading (by simp)]
    simp [Entry.part, hlast]
  have hfront : ((leadingEntries s).map (fun e => e.part.toList)).foldlM addPart [] =
      .ok (leadingEntries s) := addParts_parts hwritable hpairs
  have hadd : addPart (leadingEntries s) (quoted .signature s.value).toList =
      .ok (entriesOf s) := by
    rw [entriesOf_eq]
    exact addPart_of_quoted (fun f hf => hcross f hf _ List.mem_cons_self)
      (readEntry_text (by decide) _)
  refine readParameters_eq_ok_iff.mpr
    ⟨entriesOf s, ?_, signatureOf_entriesOf hd, written_complete hd⟩
  rw [hsplit, List.foldlM_append, hfront]
  simp only [bind, Except.bind, List.foldlM_cons, hadd]
  rfl

/-- Entries that are written in front of others come back only if they could be written. -/
theorem writable_of_read {es back : List Entry} (hback : back ≠ [])
    (hd : (es ++ back).Pairwise (fun e f => e.parameter ≠ f.parameter))
    (hf : (splitParts false (List.intercalate [',']
      ((es ++ back).map (fun e => e.part.toList)))).foldlM addPart [] = .ok entries)
    (hes : ∀ e ∈ es, e.Writable ∨ ∃ p value, e = .text p value ∧
      (p ≠ .created ∧ p ≠ .expires ∧ p ≠ .headers) ∧ textOf? entries p = some value) :
    ∀ e ∈ es, e.Writable := by
  -- An entry is found where it was written only if all those in front of it are.
  induction es using List.reverseRecOn generalizing back with
  | nil => simp
  | append_singleton es e ih =>
    rw [List.append_assoc, List.singleton_append] at hd hf
    have hfront : ∀ f ∈ es, f.Writable :=
      ih (by simp) hd hf (fun f hm => hes f (List.mem_append_left _ hm))
    intro f hm
    rcases List.mem_append.mp hm with hm | hm
    · exact hfront f hm
    · obtain rfl := List.mem_singleton.mp hm
      rcases hes f (by simp) with hw | ⟨p, value, rfl, hp, hv⟩
      · exact hw
      · exact ⟨hp.1, hp.2.1, hp.2.2, quotable_of_read hfront hd hp hback hf hv⟩

/-- Behind the last text no part begins, so that it may leave quotes open; a comma in it must stand in
quotes. -/
theorem unbroken_of_read {front : List Entry} (hfront : ∀ e ∈ front, e.Writable)
    (hd : (front ++ [Entry.text p value]).Pairwise (fun e f => e.parameter ≠ f.parameter))
    (hp : p ≠ .created ∧ p ≠ .expires ∧ p ≠ .headers)
    (h : (splitParts false (List.intercalate [',']
      ((front ++ [Entry.text p value]).map (fun e => e.part.toList)))).foldlM addPart [] =
        .ok entries)
    (hv : textOf? entries p = some value) : Unbroken true value.toList := by
  have htail : List.intercalate [','] ([Entry.text p value].map (fun e => e.part.toList)) =
      p.name.toList ++ '=' :: '"' :: (value.toList ++ ['"']) := by
    rw [List.map_singleton, List.intercalate_singleton, Entry.part, toList_quoted]
  obtain ⟨first, more, hs⟩ := exists_splitParts true (value.toList ++ ['"'])
  refine unbroken_append_quote.mp (unbroken_of_count hs ?_)
  rw [count_comma_of_read hfront hd hp htail hs h hv]
  simp

theorem enclosed_of_read (hnames : ∀ h ∈ s.headers.getD [], h.isEmpty = false)
    (h : readParameters (write s).toList = .ok s) : Enclosed s := by
  obtain ⟨entries, hf, he, hd⟩ := readParameters_eq_ok_iff.mp h
  have hfound : ∀ {p value}, text? s p = some value → textOf? entries p = some value := by
    intro p value ht
    rw [← he] at hd ht
    exact textOf?_of_text? hd ht
  have hdistinct := entriesOf_distinct s
  rw [toList_write] at hf
  rw [entriesOf_eq] at hdistinct hf
  have hleading : ∀ e ∈ leadingEntries s, e.Writable := by
    refine writable_of_read (by simp) hdistinct hf (fun e hm => ?_)
    obtain ⟨p, -, hwritten⟩ := mem_leadingEntries_iff.mp hm
    cases ht : text? s p with
    | none => exact .inl (writable_of_written? hnames hwritten (by simp [ht]))
    | some value =>
      obtain rfl : e = .text p value := by
        rcases written?_cases hwritten with ⟨v, rfl, hv⟩ | ⟨t, rfl, rfl | rfl⟩ | ⟨hs, rfl, rfl, -⟩
        · rw [Option.some.inj (hv.symm.trans ht)]
        all_goals cases ht
      exact .inr ⟨p, value, rfl, text?_parameter ht, hfound ht⟩
  refine ⟨fun p text ht hp => ?_, ?_⟩
  · exact (hleading _ (mem_leadingEntries ht hp)).2.2.2
  · exact unbroken_of_read hleading hdistinct (by decide) hf (hfound rfl)

end Authorization

theorem Signature.WellRead.written_eq {P : Char → Prop} {s : Signature} (h : s.WellRead P) :
    s.written = s := by
  have htime : ∀ t : Option Instant, (∀ u, t = some u → u.wholeSeconds = u) →
      t.map Instant.wholeSeconds = t := by
    intro t ht
    cases t with
    | none => rfl
    | some u => exact congrArg some (ht u rfl)
  unfold written
  rw [Authorization.nonEmpty_eq, if_neg h.algorithm, Authorization.nonEmpty_eq, if_neg h.nonce,
    htime _ h.created, htime _ h.expires]

namespace Authorization

theorem readParameters_write_iff {P : Char → Prop} {s : Signature} (h : s.WellRead P) :
    readParameters (write s).toList = .ok s ↔ Enclosed s := by
  constructor
  · exact enclosed_of_read h.names
  · intro hs
    rw [readParameters_enclosed h.complete h.names hs, h.written_eq]

theorem mem_texts_iff {P : Char → Prop} {s : Signature} (h : s.WellRead P) {text : String} :
    text ∈ s.keyId :: s.algorithm.toList ++ s.nonce.toList ↔
      ∃ p, text? s p = some text ∧ p ≠ .signature := by
  have halgorithm : nonEmpty s.algorithm = s.algorithm := by
    rw [nonEmpty_eq, if_neg h.algorithm]
  have hnonce : nonEmpty s.nonce = s.nonce := by
    rw [nonEmpty_eq, if_neg h.nonce]
  simp only [List.cons_append, List.mem_cons, List.mem_append, Option.mem_toList]
  constructor
  · rintro (rfl | ht | ht)
    · exact ⟨.keyId, rfl, by decide⟩
    · exact ⟨.algorithm, halgorithm.trans ht, by decide⟩
    · exact ⟨.nonce, hnonce.trans ht, by decide⟩
  · rintro ⟨p, ht, hp⟩
    cases p <;> simp_all [text?]

theorem enclosed_iff {P : Char → Prop} {s : Signature} (h : s.WellRead P) :
    Enclosed s ↔
      (∀ text ∈ s.keyId :: s.algorithm.toList ++ s.nonce.toList, Even (text.toList.count '"')) ∧
      ∀ text ∈ s.value :: s.keyId :: s.algorithm.toList ++ s.nonce.toList, ∀ front back,
        text.toList = front ++ ',' :: back → Even (front.count '"') := by
  simp only [← unbroken_open_iff]
  constructor
  · rintro ⟨hleading, hvalue⟩
    have hquotable : ∀ text ∈ s.keyId :: s.algorithm.toList ++ s.nonce.toList, Quotable text := by
      intro text hm
      obtain ⟨p, ht, hp⟩ := (mem_texts_iff h).mp hm
      exact hleading p text ht hp
    refine ⟨fun text hm => (quotable_iff.mp (hquotable text hm)).2, fun text hm => ?_⟩
    rcases List.mem_cons.mp hm with rfl | hm
    · exact hvalue
    · exact (quotable_iff.mp (hquotable text hm)).1
  · rintro ⟨heven, hcommas⟩
    refine ⟨fun p text ht hp => ?_, hcommas _ List.mem_cons_self⟩
    have hm := (mem_texts_iff h).mpr ⟨p, ht, hp⟩
    exact quotable_iff.mpr ⟨hcommas text (List.mem_cons_of_mem _ hm), heven text hm⟩

/-- A signature that was read is read again from the header in which it is written, if and only if the
texts in front of its value have an even number of quotes each, and all of them an even number before
each comma. -/
theorem read_again_iff {scheme header : String} {s : Signature} (hne : scheme ≠ "")
    (hb : ∀ c ∈ scheme.toList, Text.isBlank c = false) (h : read scheme header = .ok s) :
    read scheme (scheme ++ " " ++ write s) = .ok s ↔
      (∀ text ∈ s.keyId :: s.algorithm.toList ++ s.nonce.toList, Even (text.toList.count '"')) ∧
      ∀ text ∈ s.value :: s.keyId :: s.algorithm.toList ++ s.nonce.toList, ∀ front back,
        text.toList = front ++ ',' :: back → Even (front.count '"') := by
  have hwell : s.WellRead (fun _ => True) := read_wellRead h (fun _ _ => trivial)
  rw [read_header (isScheme_of_forall (by simpa using hne) hb), readParameters_write_iff hwell,
    enclosed_iff hwell]

end Authorization

namespace Sample

/-- Values that are not in quotes, with quotes in them, and a quote that is left open at the end. -/
def loose : String :=
  "Signature keyId=a\"b\"c,, nonce=\"x,\"\"y\" ,headers=Date,signature=c2\"ln"

def looseSignature : Signature :=
  ⟨"a\"b\"c", none, none, none, some [.date], some "x,\"\"y", "c2\"ln"⟩

theorem loose_read_again :
    Authorization.read "Signature" loose = .ok looseSignature ∧
      Authorization.read "Signature" ("Signature" ++ " " ++ Authorization.write looseSignature) =
        .ok looseSignature := by
  have hread : Authorization.read "Signature" loose = .ok looseSignature := by rfl
  have hne : "Signature" ≠ "" := by decide
  have hb : ∀ c ∈ "Signature".toList, Text.isBlank c = false := Text.forall_mem_of_all (by decide)
  have hwell : looseSignature.WellRead (fun _ => True) :=
    Authorization.read_wellRead hread (fun _ _ => trivial)
  have henclosed : Authorization.Enclosed looseSignature := by
    refine ⟨fun p text ht hp => ?_, Authorization.unbroken_of_count rfl rfl⟩
    have hall : ∀ q ∈ Authorization.Parameter.all, q ≠ .signature →
        ∀ t ∈ Authorization.text? looseSignature q, Authorization.Quotable t := by decide
    exact hall p (by cases p <;> decide) hp text ht
  exact ⟨hread, (Authorization.read_again_iff hne hb hread).mpr
    ((Authorization.enclosed_iff hwell).mp henclosed)⟩

/-- The parameter in the key id is one of the header in which the signature is written. -/
theorem key_id_read_as_nonce :
    ¬ ∀ (scheme header : String) (s : Signature), scheme ≠ "" →
      (∀ c ∈ scheme.toList, Text.isBlank c = false) →
      Authorization.read scheme header = .ok s →
        Authorization.read scheme (scheme ++ " " ++ Authorization.write s) = .ok s := by
  intro h
  have hread : Authorization.read "Signature"
      "Signature keyId=a\",nonce=\"b,headers=\"date\",signature=\"c2ln\"" =
        .ok ⟨"a\",nonce=\"b", none, none, none, some [.date], none, "c2ln"⟩ := by rfl
  have hagain := h _ _ _ (by decide) (Text.forall_mem_of_all (by decide)) hread
  have hgiven : Authorization.read "Signature" ("Signature" ++ " " ++
      Authorization.write ⟨"a\",nonce=\"b", none, none, none, some [.date], none, "c2ln"⟩) =
        .ok ⟨"a", none, none, none, some [.date], some "b", "c2ln"⟩ := by rfl
  rw [hgiven] at hagain
  simp at hagain

end Sample

end SignedHttp
