import SignedHttp.Authorization
import SignedHttp.Proofs.HeaderName
import SignedHttp.Proofs.Results

namespace SignedHttp

theorem Signature.complete_iff {s : Signature} :
    s.defect? = none ↔ s.keyId ≠ "" ∧ s.value ≠ "" ∧ s.headers.getD [] ≠ [] := by
  unfold defect?
  by_cases hid : s.keyId = ""
  · simp [hid]
  by_cases hvalue : s.value = ""
  · simp [hid, hvalue]
  by_cases hheaders : s.headers.getD [] = [] <;> simp [hid, hvalue, hheaders]

/-- A signature as a reader gives it: complete, without empty texts and names, its times at whole
seconds. `P` holds of the characters of its texts. -/
structure Signature.WellRead (P : Char → Prop) (s : Signature) : Prop where
  complete : s.defect? = none
  names : ∀ h ∈ s.headers.getD [], h.isEmpty = false
  algorithm : s.algorithm ≠ some ""
  nonce : s.nonce ≠ some ""
  nonceText : ∀ n, s.nonce = some n → ∀ c ∈ n.toList, P c
  created : ∀ t, s.created = some t → t.wholeSeconds = t
  expires : ∀ t, s.expires = some t → t.wholeSeconds = t

namespace Authorization

variable {P : Char → Prop}

theorem mem_of_mem_splitParts {cs part : List Char} {c : Char} {q : Bool}
    (hp : part ∈ splitParts q cs) (hc : c ∈ part) : c ∈ cs := by
  induction cs generalizing q part with
  | nil =>
    simp only [splitParts, List.mem_singleton] at hp
    simp [hp] at hc
  | cons d ds ih =>
    unfold splitParts at hp
    split at hp
    · rcases List.mem_cons.mp hp with rfl | hp
      · simp at hc
      · exact List.mem_cons_of_mem _ (ih hp hc)
    · split at hp
      · simp only [List.mem_singleton] at hp
        subst hp
        simp only [List.mem_singleton] at hc
        simp [hc]
      · next first rest hs =>
        rcases List.mem_cons.mp hp with rfl | hp
        · rcases List.mem_cons.mp hc with rfl | hc
          · simp
          · exact List.mem_cons_of_mem _ (ih (hs ▸ List.mem_cons_self) hc)
        · exact List.mem_cons_of_mem _ (ih (hs ▸ List.mem_cons_of_mem _ hp) hc)

theorem mem_of_mem_unquoted {cs : List Char} {c : Char} (h : c ∈ unquoted cs) : c ∈ cs := by
  unfold unquoted at h
  split at h
  · next rest =>
    split at h
    · exact List.mem_cons_of_mem _ ((List.dropLast_sublist rest).mem h)
    · exact h
  · exact h

theorem readNames_ok {value : String} {names : List HeaderName} (h : readNames value = .ok names) :
    ∀ n ∈ names, n.isEmpty = false := by
  intro n hn
  obtain ⟨w, _, hw⟩ := exists_of_mem_mapM h hn
  exact (HeaderName.ofText_ok hw).2

theorem readTime_wholeSeconds {value : String} {t : Instant} (h : readTime value = some t) :
    t.wholeSeconds = t := by
  obtain ⟨n, -, hn⟩ := Option.bind_eq_some_iff.mp h
  unfold Instant.ofSeconds? Instant.ofNanos? at hn
  obtain ⟨_, he⟩ := Option.dite_none_right_eq_some.mp hn
  rw [← Option.some.inj he]
  apply Instant.ext
  simp only [Instant.wholeSeconds]
  omega

/-- What holds of an entry that was read from characters with `P`. -/
def Entry.Sound (P : Char → Prop) : Entry → Prop
  | .text _ value => ∀ c ∈ value.toList, P c
  | .time _ value => ∀ t, value = some t → t.wholeSeconds = t
  | .names hs => ∀ h ∈ hs, h.isEmpty = false

theorem readEntry_sound {p : Parameter} {value : String} {e : Entry}
    (h : readEntry p value = .ok e) (hv : ∀ c ∈ value.toList, P c) : e.Sound P := by
  unfold readEntry at h
  split at h
  · cases h
    exact fun _ => readTime_wholeSeconds
  · cases h
    exact fun _ => readTime_wholeSeconds
  · split at h
    · next names hn =>
      cases h
      exact readNames_ok hn
    · cases h
  · cases h
    exact hv

theorem readEntry_parameter {p : Parameter} {value : String} {e : Entry}
    (h : readEntry p value = .ok e) : e.parameter = p := by
  unfold readEntry at h
  split at h
  · cases h
    rfl
  · cases h
    rfl
  · split at h
    · cases h
      rfl
    · cases h
  · cases h
    rfl

theorem addKnown_eq_ok_iff {entries after : List Entry} {p : Parameter} {value : String} :
    (if entries.any (fun e => e.parameter == p) then .error (.duplicate p)
      else do
        let e ← readEntry p value
        return entries ++ [e] : Except Defect (List Entry)) = .ok after ↔
      ∃ e, readEntry p value = .ok e ∧ (∀ f ∈ entries, f.parameter ≠ e.parameter) ∧
        after = entries ++ [e] := by
  have hknown : entries.any (fun e => e.parameter == p) = true ↔
      ¬ ∀ f ∈ entries, f.parameter ≠ p := by simp
  constructor
  · intro h
    split at h
    · cases h
    · next hnew =>
      obtain ⟨e, he, ha⟩ := bind_eq_ok_iff.mp h
      obtain rfl := readEntry_parameter he
      exact ⟨e, he, Decidable.not_not.mp (mt hknown.mpr hnew), (Except.ok.inj ha).symm⟩
  · rintro ⟨e, he, hnew, rfl⟩
    obtain rfl := readEntry_parameter he
    rw [if_neg (fun hany => hknown.mp hany hnew), he]
    rfl

/-- A part adds what it says by itself, one entry or none, if nothing in front of it is about the same
parameter. -/
theorem addPart_eq_ok_iff {entries after : List Entry} {part : List Char} :
    addPart entries part = .ok after ↔
      ∃ own : Option Entry, addPart [] part = .ok own.toList ∧
        (∀ e ∈ entries, ∀ f ∈ own, e.parameter ≠ f.parameter) ∧ after = entries ++ own.toList := by
  rw [Option.exists]
  dsimp only [addPart]
  by_cases hblank : (Text.trim part).isEmpty = true
  · simp [hblank, eq_comm]
  rw [if_neg hblank, if_neg hblank]
  cases Text.splitFirst '=' (Text.trim part) with
  | none => simp
  | some found =>
    obtain ⟨key, value⟩ := found
    dsimp only
    cases Parameter.ofName? (String.ofList (Text.trim key)) with
    | none => simp [eq_comm]
    | some p =>
      dsimp only
      simp only [addKnown_eq_ok_iff]
      simp

theorem addPart_sound {entries after : List Entry} {part : List Char}
    (h : addPart entries part = .ok after) (he : ∀ e ∈ entries, e.Sound P)
    (hp : ∀ c ∈ part, P c) : ∀ e ∈ after, e.Sound P := by
  simp only [addPart] at h
  split at h
  · cases h
    exact he
  · split at h
    · cases h
    · next key value hs =>
      split at h
      · cases h
        exact he
      · split at h
        · cases h
        · simp only [bind, Except.bind, pure, Except.pure] at h
          split at h
          · cases h
          · next e hr =>
            cases h
            intro f hf
            rcases List.mem_append.mp hf with hf | hf
            · exact he f hf
            · obtain rfl := List.mem_singleton.mp hf
              apply readEntry_sound hr
              intro c hc
              have ht := (Text.splitFirst_eq_some_iff.mp hs).1
              have hm := Text.mem_of_mem_trim (mem_of_mem_unquoted (by simpa using hc))
              exact hp c (Text.mem_of_mem_trim (ht ▸ by simp [hm]))

theorem addParts_sound {parts : List (List Char)} {entries after : List Entry}
    (h : parts.foldlM addPart entries = .ok after) (he : ∀ e ∈ entries, e.Sound P)
    (hp : ∀ part ∈ parts, ∀ c ∈ part, P c) : ∀ e ∈ after, e.Sound P := by
  induction parts generalizing entries with
  | nil =>
    cases h
    exact he
  | cons part parts ih =>
    simp only [List.foldlM_cons, bind, Except.bind] at h
    split at h
    · cases h
    · next middle hm =>
      exact ih h (addPart_sound hm he (hp part (by simp)))
        (fun q hq => hp q (List.mem_cons_of_mem _ hq))

def Entry.text? (p : Parameter) : Entry → Option String
  | .text q value => if q = p then some value else none
  | _ => none

def Entry.time? (p : Parameter) : Entry → Option Instant
  | .time q value => if q = p then value else none
  | _ => none

def Entry.names? : Entry → Option (List HeaderName)
  | .names hs => some hs
  | _ => none

theorem Entry.text?_eq_none {e : Entry} {p : Parameter} (h : e.parameter ≠ p) :
    e.text? p = none := by
  cases e with
  | text q value => exact if_neg h
  | time q value => rfl
  | names hs => rfl

theorem Entry.time?_eq_none {e : Entry} {p : Parameter} (h : e.parameter ≠ p) :
    e.time? p = none := by
  cases e with
  | text q value => rfl
  | time q value => exact if_neg h
  | names hs => rfl

theorem Entry.names?_eq_none {e : Entry} (h : e.parameter ≠ .headers) : e.names? = none := by
  cases e with
  | text q value => rfl
  | time q value => rfl
  | names hs => exact absurd rfl h

theorem textOf?_sound {entries : List Entry} {p : Parameter} {value : String}
    (he : ∀ e ∈ entries, e.Sound P) (h : textOf? entries p = some value) :
    ∀ c ∈ value.toList, P c := by
  obtain ⟨e, hm, hv⟩ := List.exists_of_findSome?_eq_some h
  have hs := he e hm
  cases e with
  | text q v =>
    simp only [Option.ite_none_right_eq_some, Option.some.injEq] at hv
    exact hv.2 ▸ hs
  | time q v => cases hv
  | names hs => cases hv

theorem timeOf?_sound {entries : List Entry} {p : Parameter} {t : Instant}
    (he : ∀ e ∈ entries, e.Sound P) (h : timeOf? entries p = some t) : t.wholeSeconds = t := by
  obtain ⟨e, hm, hv⟩ := List.exists_of_findSome?_eq_some h
  have hs := he e hm
  cases e with
  | text q v => cases hv
  | time q v => exact hs t (Option.ite_none_right_eq_some.mp hv).2
  | names hs => cases hv

theorem namesOf?_sound {entries : List Entry} {names : List HeaderName}
    (he : ∀ e ∈ entries, e.Sound P) (h : namesOf? entries = some names) :
    ∀ n ∈ names, n.isEmpty = false := by
  obtain ⟨e, hm, hv⟩ := List.exists_of_findSome?_eq_some h
  have hs := he e hm
  cases e with
  | text q v => cases hv
  | time q v => cases hv
  | names ns =>
    cases hv
    exact hs

theorem nonEmpty_ne_some_empty (t : Option String) : nonEmpty t ≠ some "" := by
  intro h
  simpa using (Option.filter_eq_some_iff.mp h).2

theorem readParameters_eq_ok_iff {params : List Char} {s : Signature} :
    readParameters params = .ok s ↔
      ∃ entries, (splitParts false params).foldlM addPart [] = .ok entries ∧
        signatureOf entries = s ∧ s.defect? = none := by
  simp only [readParameters, bind_eq_ok_iff]
  constructor
  · rintro ⟨entries, hf, h⟩
    split at h
    · cases h
    · next hd =>
      cases h
      exact ⟨entries, hf, rfl, hd⟩
  · rintro ⟨entries, hf, rfl, hd⟩
    exact ⟨entries, hf, by rw [hd]; rfl⟩

theorem readParameters_wellRead {params : List Char} {s : Signature}
    (h : readParameters params = .ok s) (hp : ∀ c ∈ params, P c) : s.WellRead P := by
  obtain ⟨entries, hf, rfl, hd⟩ := readParameters_eq_ok_iff.mp h
  have he : ∀ e ∈ entries, e.Sound P :=
    addParts_sound hf (by simp) (fun part hm c hc => hp c (mem_of_mem_splitParts hm hc))
  refine ⟨hd, ?_, nonEmpty_ne_some_empty _, nonEmpty_ne_some_empty _, ?_,
    fun _ => timeOf?_sound he, fun _ => timeOf?_sound he⟩
  · intro n hn
    cases hh : namesOf? entries with
    | none => simp [signatureOf, hh] at hn
    | some names =>
      rw [signatureOf, hh] at hn
      exact namesOf?_sound he hh n hn
  · intro n hn
    exact textOf?_sound he (Option.filter_eq_some_iff.mp hn).1

/-- A signature that was read is complete, lists no empty name, and took its characters from the
header. -/
theorem read_wellRead {scheme header : String} {s : Signature} (h : read scheme header = .ok s)
    (hp : ∀ c ∈ header.toList, P c) : s.WellRead P := by
  unfold read at h
  split at h
  · cases h
  · next given params hs =>
    split at h
    · cases h
    · split at h
      · cases h
      · apply readParameters_wellRead h
        intro c hc
        have ht := (Text.splitFirst_eq_some_iff.mp hs).1
        exact hp c (Text.mem_of_mem_trim (ht ▸ by simp [Text.mem_of_mem_trim hc]))

theorem ofRequest_eq_ok_iff {scheme : String} {r : Request} {s : Signature} :
    ofRequest scheme r = .ok s ↔
      ∃ header, r.header? "authorization" = some header ∧ read scheme header = .ok s := by
  unfold ofRequest
  split
  · next header hh => simp [hh]
  · next hh => simp [hh]

end Authorization

namespace Signature

variable {P : Char → Prop} {s : Signature}

theorem WellRead.nonce?_eq (h : s.WellRead P) : s.nonce? = s.nonce := by
  unfold nonce?
  cases hn : s.nonce with
  | none => rfl
  | some n =>
    have hne : n ≠ "" := fun he => h.nonce (he ▸ hn)
    simp [Option.filter, hne]

end Signature

end SignedHttp
