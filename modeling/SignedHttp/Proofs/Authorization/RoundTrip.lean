import SignedHttp.Proofs.Authorization.Read
import SignedHttp.Proofs.Field
import SignedHttp.Proofs.Text.Decimal

namespace SignedHttp

namespace Authorization

section Parts

/-- A part without a comma outside quotes, at whose end no quotes are open. -/
def IsPart : Bool → List Char → Prop
  | inQuotes, [] => inQuotes = false
  | inQuotes, c :: cs =>
    (c = ',' → inQuotes = true) ∧ IsPart (if c = '"' then !inQuotes else inQuotes) cs

instance decidableIsPart : (q : Bool) → (cs : List Char) → Decidable (IsPart q cs)
  | q, [] => inferInstanceAs (Decidable (q = false))
  | q, c :: cs =>
    have := decidableIsPart (if c = '"' then !q else q) cs
    inferInstanceAs (Decidable ((c = ',' → q = true) ∧ IsPart (if c = '"' then !q else q) cs))

variable {q : Bool} {part rest cs : List Char}

theorem splitParts_comma (cs : List Char) :
    splitParts false (',' :: cs) = [] :: splitParts false cs := by
  simp [splitParts]

theorem splitParts_cons {c : Char} {parts : List (List Char)} (hc : c = ',' → q = true)
    (h : splitParts (if c = '"' then !q else q) cs = part :: parts) :
    splitParts q (c :: cs) = (c :: part) :: parts := by
  have hcomma : (c == ',' && !q) = false := by
    by_cases he : c = ','
    · simp [hc he]
    · simp [he]
  rw [splitParts]
  simp only [hcomma, Bool.false_eq_true, ↓reduceIte, beq_iff_eq]
  rw [h]

theorem splitParts_append (h : IsPart q part) :
    splitParts q (part ++ ',' :: rest) = part :: splitParts false rest := by
  induction part generalizing q with
  | nil =>
    simp only [IsPart] at h
    subst h
    exact splitParts_comma rest
  | cons c cs ih =>
    obtain ⟨hc, ht⟩ := h
    exact splitParts_cons hc (ih ht)

theorem splitParts_part (h : IsPart q part) : splitParts q part = [part] := by
  induction part generalizing q with
  | nil => rfl
  | cons c cs ih =>
    obtain ⟨hc, ht⟩ := h
    exact splitParts_cons hc (ih ht)

theorem splitParts_intercalate {parts : List (List Char)} (hne : parts ≠ [])
    (h : ∀ p ∈ parts, IsPart false p) :
    splitParts false (List.intercalate [','] parts) = parts := by
  induction parts with
  | nil => exact absurd rfl hne
  | cons p ps ih =>
    have hp := h p List.mem_cons_self
    by_cases hps : ps = []
    · subst hps
      rw [List.intercalate_singleton, splitParts_part hp]
    · rw [List.intercalate_cons_of_ne_nil hps, List.append_assoc]
      change splitParts false (p ++ ',' :: List.intercalate [','] ps) = p :: ps
      rw [splitParts_append hp, ih hps (fun p hp => h p (List.mem_cons_of_mem _ hp))]

theorem isPart_append_iff (h : ∀ c ∈ cs, c ≠ '"' ∧ (c = ',' → q = true)) :
    IsPart q (cs ++ rest) ↔ IsPart q rest := by
  induction cs with
  | nil => exact Iff.rfl
  | cons c cs ih =>
    obtain ⟨hq, hc⟩ := h c List.mem_cons_self
    rw [List.cons_append, IsPart, if_neg hq, ih (fun d hd => h d (List.mem_cons_of_mem _ hd))]
    exact and_iff_right hc

theorem isPart_append (h : ∀ c ∈ cs, c ≠ '"' ∧ (c = ',' → q = true)) (hr : IsPart q rest) :
    IsPart q (cs ++ rest) :=
  (isPart_append_iff h).mpr hr

end Parts

/-- A text after which the quote behind it ends the part. -/
def Quotable (value : String) : Prop :=
  IsPart true (value.toList ++ ['"'])

instance (value : String) : Decidable (Quotable value) :=
  inferInstanceAs (Decidable (IsPart true _))

theorem quotable_of_not_mem {value : String} (h : '"' ∉ value.toList) : Quotable value :=
  isPart_append (fun _ hc => ⟨fun he => h (he ▸ hc), fun _ => rfl⟩) (by simp [IsPart])

def Entry.part : Entry → String
  | .text p value => quoted p value
  | .time p value => plain p ((value.map Instant.seconds).getD 0)
  | .names hs => quoted .headers (joinNames hs)

/-- An entry that can be written so that it is read back. -/
def Entry.Writable : Entry → Prop
  | .text p value =>
    p ≠ .created ∧ p ≠ .expires ∧ p ≠ .headers ∧ Quotable value
  | .time p value => (p = .created ∨ p = .expires) ∧ ∃ t : Instant, value = some t.wholeSeconds
  | .names hs => ∀ h ∈ hs, h.isEmpty = false

theorem Parameter.name_facts (p : Parameter) :
    (∀ c ∈ p.name.toList, c ≠ '"' ∧ c ≠ ',' ∧ c ≠ '=' ∧ Text.isBlank c = false) ∧
      p.name.toList ≠ [] ∧ Parameter.ofName? p.name = some p := by
  refine ⟨Text.forall_mem_of_all ?_, ?_, ?_⟩
  all_goals cases p <;> decide

theorem toList_quoted (p : Parameter) (value : String) :
    (quoted p value).toList = p.name.toList ++ '=' :: '"' :: (value.toList ++ ['"']) := by
  simp [quoted]

theorem toList_plain (p : Parameter) (n : Int) :
    (plain p n).toList = p.name.toList ++ '=' :: Text.signedDigits n := by
  simp [plain, Text.signedDecimal]

theorem signedDigits_ne_nil (n : Int) : Text.signedDigits n ≠ [] := by
  unfold Text.signedDigits
  split
  · simp
  · exact Nat.toDigits_ne_nil

theorem signedDigits_facts {n : Int} {c : Char} (h : c ∈ Text.signedDigits n) :
    Text.isBlank c = false ∧ c ≠ '"' ∧ c ≠ ',' := by
  have hdigit : c.isDigit = true → Text.isBlank c = false ∧ c ≠ '"' ∧ c ≠ ',' := by
    intro hd
    refine ⟨Text.not_isBlank_of_isTokenChar ?_, ?_, ?_⟩
    · simp [Text.isTokenChar, Char.isAlphanum, hd]
    · intro heq
      obtain rfl := heq
      exact absurd hd (by decide)
    · intro heq
      obtain rfl := heq
      exact absurd hd (by decide)
  unfold Text.signedDigits at h
  split at h
  · rcases List.mem_cons.mp h with rfl | h
    · decide
    · exact hdigit (Nat.isDigit_of_mem_toDigits (by decide) (by decide) h)
  · exact hdigit (Nat.isDigit_of_mem_toDigits (by decide) (by decide) h)

theorem isPart_quoted_iff (p : Parameter) {value : String} :
    IsPart false (quoted p value).toList ↔ Quotable value := by
  rw [toList_quoted, isPart_append_iff]
  · simp [IsPart, Quotable]
  · intro c hc
    obtain ⟨h1, h2, -, -⟩ := p.name_facts.1 c hc
    exact ⟨h1, fun h => absurd h h2⟩

theorem isPart_plain (p : Parameter) (n : Int) : IsPart false (plain p n).toList := by
  rw [toList_plain, ← List.append_nil (_ ++ _), List.append_assoc]
  refine isPart_append (fun c hc => ?_) ⟨by decide, ?_⟩
  · obtain ⟨h1, h2, -, -⟩ := p.name_facts.1 c hc
    exact ⟨h1, fun h => absurd h h2⟩
  · refine isPart_append (fun c hc => ?_) rfl
    obtain ⟨-, h1, h2⟩ := signedDigits_facts hc
    exact ⟨h1, fun h => absurd h h2⟩

theorem quote_not_mem_joinNames (hs : List HeaderName) : '"' ∉ (joinNames hs).toList := by
  rw [joinNames, String.toList_ofList]
  intro hm
  rcases Text.mem_intercalate hm with h | ⟨part, hp, hc⟩
  · exact absurd h (by decide)
  · obtain ⟨h, -, rfl⟩ := List.mem_map.mp hp
    exact h.quote_not_mem hc

theorem Entry.Writable.isPart {e : Entry} (h : e.Writable) : IsPart false e.part.toList := by
  cases e with
  | text p value => exact (isPart_quoted_iff p).mpr h.2.2.2
  | time p value => exact isPart_plain p _
  | names hs => exact (isPart_quoted_iff _).mpr (quotable_of_not_mem (quote_not_mem_joinNames hs))

/-- A part is a parameter's name, an equals sign, and a value that starts and ends with no blank. -/
theorem addPart_of_value {entries : List Entry} {p : Parameter} {value : List Char} {e : Entry}
    (hnew : ∀ f ∈ entries, f.parameter ≠ p)
    (hhead : ∀ c, value.head? = some c → Text.isBlank c = false)
    (hlast : ∀ c, value.getLast? = some c → Text.isBlank c = false) (hne : value ≠ [])
    (he : readEntry p (String.ofList (unquoted value)) = .ok e) :
    addPart entries (p.name.toList ++ '=' :: value) = .ok (entries ++ [e]) := by
  obtain ⟨hname, hnn, hof⟩ := p.name_facts
  have htrim : Text.trim (p.name.toList ++ '=' :: value) = p.name.toList ++ '=' :: value := by
    refine Text.trim_eq_self (fun c hc => ?_) (fun c hc => ?_)
    · rw [List.head?_append_of_ne_nil _ hnn] at hc
      exact (hname c (List.mem_of_head? hc)).2.2.2
    · rw [List.getLast?_append_of_ne_nil _ (by simp), List.getLast?_cons_of_ne_nil hne] at hc
      exact hlast c hc
  have hsplit : Text.splitFirst '=' (p.name.toList ++ '=' :: value) =
      some (p.name.toList, value) :=
    Text.splitFirst_append _ (fun h => (hname _ h).2.2.1 rfl)
  have hkey : Text.trim p.name.toList = p.name.toList :=
    Text.trim_eq_self_of_forall (fun c hc => (hname c hc).2.2.2)
  have hany : (entries.any (fun f => f.parameter == p)) = false := by
    simpa using hnew
  unfold addPart
  simp only [htrim, hsplit, hkey, String.ofList_toList, hof, hany, Text.trim_eq_self hhead hlast]
  simp [he, bind, Except.bind, pure, Except.pure]

theorem unquoted_quoted (cs : List Char) : unquoted ('"' :: (cs ++ ['"'])) = cs := by
  simp [unquoted]

theorem unquoted_of_not_mem {cs : List Char} (h : '"' ∉ cs) : unquoted cs = cs := by
  unfold unquoted
  split
  · exact absurd List.mem_cons_self h
  · rfl

theorem wholeSeconds_wholeSeconds (t : Instant) : t.wholeSeconds.wholeSeconds = t.wholeSeconds := by
  apply Instant.ext
  unfold Instant.wholeSeconds
  simp only
  omega

theorem readTime_seconds (t : Instant) :
    readTime (Text.signedDecimal t.seconds) = some t.wholeSeconds := by
  have he := t.earliest_le
  have hl := t.le_latest
  have hread : Text.int64? (Text.signedDecimal t.seconds) = some t.seconds :=
    Text.int64?_signedDecimal (by unfold Instant.seconds; omega) (by unfold Instant.seconds; omega)
  have hn : t.seconds * 1000000000 = t.wholeSeconds.nanos := by
    unfold Instant.seconds Instant.wholeSeconds
    simp only
    omega
  rw [readTime, hread, Option.bind_some, Instant.ofSeconds?, hn, Instant.ofNanos?_nanos]

theorem readNames_joinNames {hs : List HeaderName} (h : ∀ n ∈ hs, n.isEmpty = false) :
    readNames (joinNames hs) = .ok hs := by
  have hwords : Text.words (joinNames hs).toList = hs.map (fun n => n.text.toList) := by
    rw [joinNames, String.toList_ofList]
    apply Text.words_intercalate
    intro w hw
    obtain ⟨n, hn, rfl⟩ := List.mem_map.mp hw
    refine ⟨fun he => ?_, n.not_isBlank_of_mem⟩
    have := h n hn
    rw [HeaderName.isEmpty_iff.mpr he] at this
    cases this
  rw [readNames, hwords, mapM_eq_ok_iff, List.forall₂_map_left_iff, List.forall₂_same]
  intro n hn
  rw [String.ofList_toList]
  exact HeaderName.ofText_text (h n hn)

theorem readEntry_text {p : Parameter} (hp : p ≠ .created ∧ p ≠ .expires ∧ p ≠ .headers)
    (value : String) : readEntry p value = .ok (.text p value) := by
  cases p with
  | created => exact absurd rfl hp.1
  | expires => exact absurd rfl hp.2.1
  | headers => exact absurd rfl hp.2.2
  | _ => rfl

theorem addPart_of_quoted {entries : List Entry} {p : Parameter} {value : String} {e : Entry}
    (hnew : ∀ f ∈ entries, f.parameter ≠ p) (he : readEntry p value = .ok e) :
    addPart entries (quoted p value).toList = .ok (entries ++ [e]) := by
  rw [toList_quoted]
  refine addPart_of_value hnew (fun c hc => ?_) (fun c hc => ?_) (by simp) ?_
  · obtain rfl : '"' = c := by simpa using hc
    decide
  · obtain rfl : '"' = c := by simpa [List.getLast?_cons] using hc
    decide
  · rwa [unquoted_quoted, String.ofList_toList]

theorem addPart_part {entries : List Entry} {e : Entry} (hw : e.Writable)
    (hnew : ∀ f ∈ entries, f.parameter ≠ e.parameter) :
    addPart entries e.part.toList = .ok (entries ++ [e]) := by
  cases e with
  | text p value =>
    obtain ⟨hc, he, hh, -⟩ := hw
    exact addPart_of_quoted hnew (readEntry_text ⟨hc, he, hh⟩ value)
  | time p value =>
    obtain ⟨hp, t, rfl⟩ := hw
    have hchars : ∀ c ∈ Text.signedDigits t.wholeSeconds.seconds,
        Text.isBlank c = false ∧ c ≠ '"' := fun c hc =>
      ⟨(signedDigits_facts hc).1, (signedDigits_facts hc).2.1⟩
    rw [Entry.part, toList_plain]
    simp only [Option.map_some, Option.getD_some]
    refine addPart_of_value hnew (fun c hc => (hchars c (List.mem_of_head? hc)).1)
      (fun c hc => (hchars c (List.mem_of_getLast? hc)).1) (signedDigits_ne_nil _) ?_
    rw [unquoted_of_not_mem (fun h => (hchars _ h).2 rfl)]
    change readEntry p (Text.signedDecimal t.wholeSeconds.seconds) = _
    rcases hp with rfl | rfl
    · rw [readEntry, readTime_seconds, wholeSeconds_wholeSeconds]
    · rw [readEntry, readTime_seconds, wholeSeconds_wholeSeconds]
  | names hs =>
    exact addPart_of_quoted hnew (by simp [readEntry, readNames_joinNames hw])

theorem addParts_parts {es entries : List Entry} (hw : ∀ e ∈ es, e.Writable)
    (hd : (entries ++ es).Pairwise (fun e f => e.parameter ≠ f.parameter)) :
    (es.map (fun e => e.part.toList)).foldlM addPart entries = .ok (entries ++ es) := by
  induction es generalizing entries with
  | nil => simp [pure, Except.pure]
  | cons e es ih =>
    have hsplit := List.pairwise_append.mp hd
    rw [List.map_cons, List.foldlM_cons,
      addPart_part (hw e List.mem_cons_self) (fun f hf => hsplit.2.2 f hf e List.mem_cons_self)]
    have hrest : (es.map (fun e => e.part.toList)).foldlM addPart (entries ++ [e]) =
        .ok (entries ++ [e] ++ es) :=
      ih (fun f hf => hw f (List.mem_cons_of_mem _ hf)) (by simpa using hd)
    simpa [bind, Except.bind] using hrest

end Authorization

/-- What is left of a signature that is written: texts that are empty count as none, and times lose
their part of a second. -/
def Signature.written (s : Signature) : Signature :=
  { s with
    algorithm := Authorization.nonEmpty s.algorithm
    created := s.created.map Instant.wholeSeconds
    expires := s.expires.map Instant.wholeSeconds
    nonce := Authorization.nonEmpty s.nonce }

/-- A signature that can be written so that it is read back. -/
structure Signature.Writable (s : Signature) : Prop where
  complete : s.defect? = none
  names : ∀ h ∈ s.headers.getD [], h.isEmpty = false
  keyId : '"' ∉ s.keyId.toList
  algorithm : ∀ a, s.algorithm = some a → '"' ∉ a.toList
  nonce : ∀ n, s.nonce = some n → '"' ∉ n.toList
  value : '"' ∉ s.value.toList

/-- A signature of which each text has its end where it was quoted. -/
structure Signature.Quotable (s : Signature) : Prop where
  complete : s.defect? = none
  names : ∀ h ∈ s.headers.getD [], h.isEmpty = false
  keyId : Authorization.Quotable s.keyId
  algorithm : ∀ a, s.algorithm = some a → Authorization.Quotable a
  nonce : ∀ n, s.nonce = some n → Authorization.Quotable n
  value : Authorization.Quotable s.value

theorem Signature.Writable.quotable {s : Signature} (h : s.Writable) : s.Quotable where
  complete := h.complete
  names := h.names
  keyId := Authorization.quotable_of_not_mem h.keyId
  algorithm a ha := Authorization.quotable_of_not_mem (h.algorithm a ha)
  nonce n hn := Authorization.quotable_of_not_mem (h.nonce n hn)
  value := Authorization.quotable_of_not_mem h.value

namespace Authorization

/-- The text that is written as the value of a parameter, if it has one. -/
def text? (s : Signature) : Parameter → Option String
  | .keyId => some s.keyId
  | .algorithm => nonEmpty s.algorithm
  | .nonce => nonEmpty s.nonce
  | .signature => some s.value
  | .created | .expires | .headers => none

def written? (s : Signature) : Parameter → Option Entry
  | .created => s.created.map (fun t => .time .created (some t.wholeSeconds))
  | .expires => s.expires.map (fun t => .time .expires (some t.wholeSeconds))
  | .headers => (s.headers.filter (fun hs => !hs.isEmpty)).map .names
  | p => (text? s p).map (.text p)

def entriesOf (s : Signature) : List Entry :=
  Parameter.all.filterMap (written? s)

/-- The entries in front of the signature value. -/
def leadingEntries (s : Signature) : List Entry :=
  [.keyId, .algorithm, .created, .expires, .headers, .nonce].filterMap (written? s)

theorem Parameter.mem_all (p : Parameter) : p ∈ Parameter.all := by
  cases p <;> decide

section Entries

variable {s : Signature} {p : Parameter} {e : Entry} {value : String}

theorem text?_parameter (h : text? s p = some value) :
    p ≠ .created ∧ p ≠ .expires ∧ p ≠ .headers := by
  cases p <;> simp_all [text?]

theorem written?_cases (h : written? s p = some e) :
    (∃ value, e = .text p value ∧ text? s p = some value) ∨
    (∃ t : Instant, e = .time p (some t.wholeSeconds) ∧ (p = .created ∨ p = .expires)) ∨
    ∃ hs, e = .names hs ∧ p = .headers ∧ s.headers = some hs := by
  cases p with
  | created =>
    obtain ⟨t, -, rfl⟩ := Option.map_eq_some_iff.mp h
    exact .inr (.inl ⟨t, rfl, .inl rfl⟩)
  | expires =>
    obtain ⟨t, -, rfl⟩ := Option.map_eq_some_iff.mp h
    exact .inr (.inl ⟨t, rfl, .inr rfl⟩)
  | headers =>
    obtain ⟨hs, hf, rfl⟩ := Option.map_eq_some_iff.mp h
    exact .inr (.inr ⟨hs, rfl, rfl, (Option.filter_eq_some_iff.mp hf).1⟩)
  | keyId | signature =>
    obtain rfl := Option.some.inj h
    exact .inl ⟨_, rfl, rfl⟩
  | algorithm | nonce =>
    obtain ⟨value, hv, rfl⟩ := Option.map_eq_some_iff.mp h
    exact .inl ⟨value, rfl, hv⟩

theorem parameter_of_written? (h : written? s p = some e) : e.parameter = p := by
  rcases written?_cases h with ⟨_, rfl, -⟩ | ⟨_, rfl, -⟩ | ⟨_, rfl, rfl, -⟩ <;> rfl

/-- Only the text of an entry may keep it from being read back. -/
theorem writable_of_written? (hnames : ∀ h ∈ s.headers.getD [], h.isEmpty = false)
    (he : written? s p = some e) (ht : ∀ value, text? s p = some value → Quotable value) :
    e.Writable := by
  rcases written?_cases he with ⟨value, rfl, hv⟩ | ⟨t, rfl, hp⟩ | ⟨hs, rfl, -, hh⟩
  · obtain ⟨hc, hx, hh⟩ := text?_parameter hv
    exact ⟨hc, hx, hh, ht value hv⟩
  · exact ⟨hp, t, rfl⟩
  · intro n hn
    exact hnames n (by rw [hh]; exact hn)

theorem entriesOf_eq (s : Signature) :
    entriesOf s = leadingEntries s ++ [.text .signature s.value] := by
  have hall : Parameter.all =
      [.keyId, .algorithm, .created, .expires, .headers, .nonce] ++ [.signature] := rfl
  rw [entriesOf, hall, List.filterMap_append]
  rfl

theorem leadingEntries_eq_cons (s : Signature) :
    ∃ others, leadingEntries s = .text .keyId s.keyId :: others :=
  ⟨_, rfl⟩

end Entries

theorem seconds_wholeSeconds (t : Instant) : t.wholeSeconds.seconds = t.seconds := by
  unfold Instant.wholeSeconds Instant.seconds
  simp only
  omega

theorem parts_eq (s : Signature) : parts s = (entriesOf s).map Entry.part := by
  have hparts :
      parts s = (Parameter.all.map (fun p => (written? s p).map Entry.part)).filterMap id := by
    simp only [parts, Parameter.all, List.map_cons, List.map_nil, written?, text?, Option.map_map,
      Option.map_some, Option.getD_some, Function.comp_def, Entry.part, seconds_wholeSeconds]
  rw [hparts, List.filterMap_map, entriesOf, List.map_filterMap]
  rfl

theorem entriesOf_distinct (s : Signature) :
    (entriesOf s).Pairwise (fun e f => e.parameter ≠ f.parameter) := by
  have hnodup : Parameter.all.Nodup := by decide
  refine List.pairwise_filterMap.mpr (hnodup.imp (fun hne e he f hf => ?_))
  rwa [parameter_of_written? he, parameter_of_written? hf]

theorem findSome?_eq_of_mem {α β : Type} {f : α → Option β} {xs : List α} {x : α} (hx : x ∈ xs)
    (h : ∀ y, y ≠ x → f y = none) : xs.findSome? f = f x := by
  cases hv : f x with
  | none =>
    refine List.findSome?_eq_none_iff.mpr (fun y _ => ?_)
    by_cases hy : y = x
    · rw [hy, hv]
    · exact h y hy
  | some v =>
    obtain ⟨front, back, hsplit, hfront⟩ := List.eq_append_cons_of_mem hx
    exact List.findSome?_eq_some_iff.mpr
      ⟨front, x, back, hsplit, hv, fun y hy => h y (fun he => hfront (he ▸ hy))⟩

theorem lookup_entriesOf {β : Type} {f : Entry → Option β} {p : Parameter}
    (hf : ∀ e, e.parameter ≠ p → f e = none) (s : Signature) :
    (entriesOf s).findSome? f = (written? s p).bind f := by
  rw [entriesOf, ← List.head?_filterMap, List.filterMap_filterMap, List.head?_filterMap]
  refine findSome?_eq_of_mem p.mem_all (fun q hq => ?_)
  refine Option.bind_eq_none_iff.mpr (fun e he => hf e ?_)
  rwa [parameter_of_written? he]

theorem textOf?_entriesOf (s : Signature) (p : Parameter) :
    textOf? (entriesOf s) p = text? s p := by
  refine (lookup_entriesOf (f := Entry.text? p) (fun _ => Entry.text?_eq_none) s).trans ?_
  cases p with
  | created | expires | headers =>
    simp [written?, text?, Option.bind_map, Function.comp_def, Entry.text?]
  | keyId | algorithm | nonce | signature =>
    simp [written?, Option.bind_map, Function.comp_def, Entry.text?]

theorem timeOf?_entriesOf (s : Signature) :
    timeOf? (entriesOf s) .created = s.created.map Instant.wholeSeconds ∧
      timeOf? (entriesOf s) .expires = s.expires.map Instant.wholeSeconds := by
  constructor
  all_goals
    refine (lookup_entriesOf (fun _ => Entry.time?_eq_none) s).trans ?_
    rw [written?, Option.bind_map, Option.map_eq_bind]
    rfl

theorem namesOf?_entriesOf (s : Signature) :
    namesOf? (entriesOf s) = s.headers.filter (fun hs => !hs.isEmpty) := by
  refine (lookup_entriesOf (fun _ => Entry.names?_eq_none) s).trans ?_
  simp [written?, Option.bind_map, Function.comp_def, Entry.names?]

theorem nonEmpty_nonEmpty (t : Option String) : nonEmpty (nonEmpty t) = nonEmpty t := by
  simp [nonEmpty]

theorem nonEmpty_eq (t : Option String) : nonEmpty t = if t = some "" then none else t := by
  cases t with
  | none => rfl
  | some v => by_cases hv : v = "" <;> simp [nonEmpty, Option.filter, hv]

theorem headers_of_complete {s : Signature} (hd : s.defect? = none) :
    ∃ hs, s.headers = some hs ∧ hs ≠ [] := by
  obtain ⟨-, -, hne⟩ := Signature.complete_iff.mp hd
  cases hh : s.headers with
  | none => simp [hh] at hne
  | some hs => exact ⟨hs, rfl, by simpa [hh] using hne⟩

theorem signatureOf_entriesOf {s : Signature} (hd : s.defect? = none) :
    signatureOf (entriesOf s) = s.written := by
  obtain ⟨hs, hh, hne⟩ := headers_of_complete hd
  have hkept : s.headers.filter (fun hs => !hs.isEmpty) = s.headers := by
    simp [hh, Option.filter, hne]
  obtain ⟨hcreated, hexpires⟩ := timeOf?_entriesOf s
  simp only [signatureOf, textOf?_entriesOf, hcreated, hexpires, namesOf?_entriesOf, hkept, text?,
    nonEmpty_nonEmpty, Option.getD_some]
  rfl

theorem writable_entries {s : Signature} (h : s.Quotable) : ∀ e ∈ entriesOf s, e.Writable := by
  have hpresent : ∀ {t : Option String} {v : String}, nonEmpty t = some v → t = some v :=
    fun hv => (Option.filter_eq_some_iff.mp hv).1
  intro e he
  obtain ⟨p, -, hp⟩ := List.mem_filterMap.mp he
  refine writable_of_written? h.names hp (fun value ht => ?_)
  cases p with
  | keyId => exact Option.some.inj ht ▸ h.keyId
  | algorithm => exact h.algorithm value (hpresent ht)
  | nonce => exact h.nonce value (hpresent ht)
  | signature => exact Option.some.inj ht ▸ h.value
  | created | expires | headers => cases ht

theorem toList_write (s : Signature) :
    (write s).toList = List.intercalate [','] ((entriesOf s).map (fun e => e.part.toList)) := by
  simp [write, joinParts, parts_eq, Function.comp_def]

theorem written_complete {s : Signature} (hd : s.defect? = none) : s.written.defect? = none := hd

theorem readParameters_write {s : Signature} (h : s.Quotable) :
    readParameters (write s).toList = .ok s.written := by
  have hparts : splitParts false (write s).toList =
      (entriesOf s).map (fun e => e.part.toList) := by
    rw [toList_write]
    apply splitParts_intercalate (by simp [entriesOf_eq])
    intro p hp
    obtain ⟨e, he, rfl⟩ := List.mem_map.mp hp
    exact (writable_entries h e he).isPart
  have hfold : ((entriesOf s).map (fun e => e.part.toList)).foldlM addPart [] =
      .ok ([] ++ entriesOf s) := addParts_parts (writable_entries h) (entriesOf_distinct s)
  rw [List.nil_append] at hfold
  simp only [readParameters, hparts, hfold, bind, Except.bind]
  rw [signatureOf_entriesOf h.complete, written_complete h.complete]
  rfl

theorem write_ends (s : Signature) :
    (∃ rest, (write s).toList = 'k' :: rest) ∧ (write s).toList.getLast? = some '"' := by
  obtain ⟨others, ho⟩ := leadingEntries_eq_cons s
  have hlast : ([Entry.text .signature s.value].map (fun e => e.part.toList)) =
      [(quoted .signature s.value).toList] := rfl
  have hw : (write s).toList =
      List.intercalate [','] ((leadingEntries s).map (fun e => e.part.toList)) ++ [','] ++
        (quoted .signature s.value).toList := by
    rw [toList_write, entriesOf_eq, List.map_append,
      Text.intercalate_append _ (by simp [ho]) (by simp), hlast, List.intercalate_singleton]
  have hfirst : ∃ rest, List.intercalate [',']
      ((leadingEntries s).map (fun e => e.part.toList)) = 'k' :: rest := by
    obtain ⟨tail, ht⟩ : ∃ tail, (quoted .keyId s.keyId).toList = 'k' :: tail := by
      rw [toList_quoted]
      exact ⟨_, rfl⟩
    rw [ho, List.map_cons, Entry.part]
    by_cases hn : others = []
    · subst hn
      exact ⟨tail, by simp [ht]⟩
    · rw [List.intercalate_cons_of_ne_nil (by simpa using hn), ht]
      exact ⟨_, rfl⟩
  obtain ⟨rest, hr⟩ := hfirst
  constructor
  · rw [hw, hr]
    exact ⟨_, rfl⟩
  · rw [hw, List.getLast?_append_of_ne_nil _ (by simp [toList_quoted]), toList_quoted]
    simp [List.getLast?_append, List.getLast?_cons]

/-- A scheme that the first blank after it tells apart from the parameters. -/
structure IsScheme (scheme : String) : Prop where
  nonempty : scheme.toList ≠ []
  unspaced : ' ' ∉ scheme.toList
  begins : ∀ c, scheme.toList.head? = some c → Text.isBlank c = false

theorem isScheme_of_forall {scheme : String} (hne : scheme.toList ≠ [])
    (hb : ∀ c ∈ scheme.toList, Text.isBlank c = false) : IsScheme scheme where
  nonempty := hne
  unspaced hm := absurd (hb _ hm) (by decide)
  begins c hc := hb c (List.mem_of_head? hc)

theorem toList_header (scheme : String) (s : Signature) :
    (scheme ++ " " ++ write s).toList = scheme.toList ++ ' ' :: (write s).toList := by
  simp

theorem trim_write (s : Signature) : Text.trim (write s).toList = (write s).toList := by
  obtain ⟨⟨rest, hfirst⟩, hlast⟩ := write_ends s
  refine Text.trim_eq_self (fun c hc => ?_) (fun c hc => ?_)
  · rw [hfirst] at hc
    obtain rfl : 'k' = c := by simpa using hc
    decide
  · rw [hlast] at hc
    obtain rfl := Option.some.inj hc
    decide

theorem read_header {scheme : String} (h : IsScheme scheme) (s : Signature) :
    read scheme (scheme ++ " " ++ write s) = readParameters (write s).toList := by
  obtain ⟨⟨rest, hfirst⟩, hlast⟩ := write_ends s
  have htrim : Text.trim (scheme.toList ++ ' ' :: (write s).toList) =
      scheme.toList ++ ' ' :: (write s).toList := by
    refine Text.trim_eq_self (fun c hc => ?_) (fun c hc => ?_)
    · rw [List.head?_append_of_ne_nil _ h.nonempty] at hc
      exact h.begins c hc
    · rw [List.getLast?_append_of_ne_nil _ (by simp),
        List.getLast?_cons_of_ne_nil (by simp [hfirst]), hlast] at hc
      obtain rfl := Option.some.inj hc
      decide
  have hsplit : Text.splitFirst ' ' (scheme.toList ++ ' ' :: (write s).toList) =
      some (scheme.toList, (write s).toList) :=
    Text.splitFirst_append _ h.unspaced
  have hnonempty : (write s).toList.isEmpty = false := by simp [hfirst]
  simp only [read, toList_header, htrim, hsplit, bne_self_eq_false, Bool.false_eq_true, ↓reduceIte,
    trim_write, hnonempty]

/-- A signature is read back from the header in which it was written. -/
theorem read_write {scheme : String} {s : Signature} (hscheme : IsScheme scheme)
    (h : s.Quotable) : read scheme (scheme ++ " " ++ write s) = .ok s.written :=
  (read_header hscheme s).trans (readParameters_write h)

theorem ofRequest_setHeader {r q : Request} {scheme : String} {s : Signature}
    (hq : r.setHeader "authorization" (scheme ++ " " ++ write s) = .ok q)
    (hne : scheme.toList ≠ []) (hb : ∀ c ∈ scheme.toList, Text.isBlank c = false)
    (h : s.Writable) : ofRequest scheme q = .ok s.written :=
  ofRequest_eq_ok_iff.mpr ⟨_, Request.setHeader_header? hq,
    read_write (isScheme_of_forall hne hb) h.quotable⟩

/-- Whatever stands in its texts, commas and the other parameters' names included, a signature is read
back if none of them holds a quote. -/
theorem signature_read_back {scheme : String} {s : Signature} (hne : scheme ≠ "")
    (hb : ∀ c ∈ scheme.toList, Text.isBlank c = false) (hd : s.defect? = none)
    (hnames : ∀ names, s.headers = some names → ∀ h ∈ names, h.isEmpty = false)
    (hid : '"' ∉ s.keyId.toList) (halgorithm : ∀ a, s.algorithm = some a → '"' ∉ a.toList)
    (hnonce : ∀ n, s.nonce = some n → '"' ∉ n.toList) (hvalue : '"' ∉ s.value.toList) :
    read scheme (scheme ++ " " ++ write s) = .ok { s with
      algorithm := if s.algorithm = some "" then none else s.algorithm
      created := s.created.map Instant.wholeSeconds
      expires := s.expires.map Instant.wholeSeconds
      nonce := if s.nonce = some "" then none else s.nonce } := by
  have hlisted : ∀ h ∈ s.headers.getD [], h.isEmpty = false := by
    intro h hm
    cases hh : s.headers with
    | none => simp [hh] at hm
    | some names => exact hnames names hh h (by simpa [hh] using hm)
  have hw : s.Writable := ⟨hd, hlisted, hid, halgorithm, hnonce, hvalue⟩
  rw [read_write (isScheme_of_forall (by simpa using hne) hb) hw.quotable, Signature.written,
    nonEmpty_eq, nonEmpty_eq]

end Authorization

namespace Sample

/-- A signature with texts that look like more parameters. -/
def awkward : Signature where
  keyId := " client=1, nonce"
  algorithm := some ""
  created := some (.clamped 1000500000000)
  expires := some (.clamped (-1))
  headers := some [.requestTarget, .date, .date]
  nonce := some ",created=7,\n signature=é "
  value := "=,="

theorem awkward_read_back :
    Authorization.read Authorization.defaultScheme
        (Authorization.defaultScheme ++ " " ++ Authorization.write awkward) =
      .ok { awkward with
        algorithm := none
        created := some (.clamped 1000000000000)
        expires := some (.clamped (-1000000000)) } :=
  Authorization.signature_read_back (by decide) (Text.forall_mem_of_all (by decide)) (by decide)
    (by decide) (by decide) (by decide) (by decide) (by decide)

end Sample

end SignedHttp
