import Mathlib.Data.List.Perm.Basic
import SignedHttp.Proofs.Authorization.Commas

namespace SignedHttp.Authorization

variable {c : Char} {cs ds part : List Char} {entries : List Entry}

theorem addPart_trim (entries : List Entry) (part : List Char) :
    addPart entries (Text.trim part) = addPart entries part := by
  simp only [addPart, Text.trim_trim]

theorem readParameters_congr
    (h : (splitParts false cs).map Text.trim = (splitParts false ds).map Text.trim) :
    readParameters cs = readParameters ds := by
  have hfold : ∀ parts : List (List Char),
      (parts.map Text.trim).foldlM addPart [] = parts.foldlM addPart [] := by
    intro parts
    simp only [List.foldlM_map, addPart_trim]
  unfold readParameters
  rw [← hfold, h, hfold]

theorem separates_not_blank (hc : Text.isBlank c = true) : c ≠ '"' ∧ c ≠ ',' :=
  ⟨fun he => absurd (he ▸ hc) (by decide), fun he => absurd (he ▸ hc) (by decide)⟩

theorem splitParts_cons_blank (hc : Text.isBlank c = true) (q : Bool) (cs : List Char) :
    (splitParts q (c :: cs)).map Text.trim = (splitParts q cs).map Text.trim := by
  obtain ⟨hq, hcomma⟩ := separates_not_blank hc
  obtain ⟨first, more, hs⟩ := exists_splitParts q cs
  have hcons : splitParts q (c :: cs) = (c :: first) :: more :=
    splitParts_cons (fun he => absurd he hcomma) (by rwa [if_neg hq])
  rw [hcons, hs, List.map_cons, List.map_cons, Text.trim_cons_blank hc]

theorem splitParts_concat (hc : c ≠ ',') (q : Bool) (cs : List Char) :
    ∃ front last, splitParts q cs = front ++ [last] ∧
      splitParts q (cs ++ [c]) = front ++ [last ++ [c]] := by
  -- The quotes seen so far are in the flag, which the induction leaves open.
  induction cs generalizing q with
  | nil => exact ⟨[], [], rfl, splitParts_cons (fun he => absurd he hc) rfl⟩
  | cons d ds ih =>
    by_cases hd : d = ',' ∧ q = false
    · obtain ⟨rfl, rfl⟩ := hd
      obtain ⟨front, last, hs, ht⟩ := ih false
      exact ⟨[] :: front, last, by rw [splitParts_comma, hs]; rfl,
        by rw [List.cons_append, splitParts_comma, ht]; rfl⟩
    · have hin : d = ',' → q = true := fun he => by simpa [he] using hd
      obtain ⟨front, last, hs, ht⟩ := ih (if d = '"' then !q else q)
      cases front with
      | nil => exact ⟨[], d :: last, splitParts_cons hin hs, splitParts_cons hin ht⟩
      | cons first front =>
        exact ⟨(d :: first) :: front, last, splitParts_cons hin hs, splitParts_cons hin ht⟩

theorem splitParts_concat_blank (hc : Text.isBlank c = true) (q : Bool) (cs : List Char) :
    (splitParts q (cs ++ [c])).map Text.trim = (splitParts q cs).map Text.trim := by
  obtain ⟨front, last, hs, ht⟩ := splitParts_concat (separates_not_blank hc).2 q cs
  rw [hs, ht]
  simp [Text.trim_concat_blank hc]

theorem readParameters_trimEnd (cs : List Char) :
    readParameters (Text.trimEnd cs) = readParameters cs :=
  Text.apply_trimEnd (fun _ ds hc => readParameters_congr (splitParts_concat_blank hc false ds)) cs

theorem readParameters_trim (cs : List Char) :
    readParameters (Text.trim cs) = readParameters cs :=
  (readParameters_trimEnd _).trans (Text.apply_trimStart
    (fun _ ds hc => readParameters_congr (splitParts_cons_blank hc false ds)) cs)

theorem read_eq_ok_iff {scheme params : String} {s : Signature} (hne : scheme ≠ "")
    (hb : ∀ c ∈ scheme.toList, Text.isBlank c = false) :
    read scheme (scheme ++ " " ++ params) = .ok s ↔ readParameters params.toList = .ok s := by
  have hs : scheme.toList ≠ [] := by simpa using hne
  have hspace : ' ' ∉ scheme.toList := fun h => absurd (hb _ h) (by decide)
  have hlist : (scheme ++ " " ++ params).toList = scheme.toList ++ [' '] ++ params.toList := by simp
  by_cases hblank : ∀ c ∈ params.toList, Text.isBlank c = true
  · -- The blank behind the scheme goes as well, and two different errors are given.
    have htrim : Text.trim (scheme ++ " " ++ params).toList = scheme.toList := by
      rw [hlist, Text.trim_append_blank _ hblank, Text.trim_concat_blank (by decide),
        Text.trim_eq_self_of_forall hb]
    have hnone : Text.splitFirst ' ' scheme.toList = none := by
      rw [Text.splitFirst_eq, if_neg hspace]
    have hread : readParameters params.toList = .error (.incomplete .noKeyId) := by
      rw [← readParameters_trim, Text.trim_eq_nil_iff.mpr hblank]
      rfl
    rw [read, htrim, hnone, hread]
    simp
  · have hend : Text.trimEnd params.toList ≠ [] := mt Text.trimEnd_eq_nil_iff.mp hblank
    have htrim : Text.trim (scheme ++ " " ++ params).toList =
        scheme.toList ++ ' ' :: Text.trimEnd params.toList := by
      have hbegin : ∀ c, (scheme.toList ++ [' ']).head? = some c → Text.isBlank c = false := by
        intro c hc
        rw [List.head?_append_of_ne_nil _ hs] at hc
        exact hb c (List.mem_of_head? hc)
      rw [hlist, Text.trim_append (by simp) hbegin hend, List.append_assoc, List.singleton_append]
    have hkept : Text.trim (Text.trimEnd params.toList) ≠ [] := by
      rw [Text.trim_trimEnd]
      exact mt Text.trim_eq_nil_iff.mp hblank
    have hread : read scheme (scheme ++ " " ++ params) =
        readParameters (Text.trim (Text.trimEnd params.toList)) := by
      rw [read, htrim, Text.splitFirst_append _ hspace]
      simp [hkept]
    rw [hread, readParameters_trim, readParameters_trimEnd]

/-- No two entries are about the same parameter. -/
abbrev Distinct (entries : List Entry) : Prop :=
  entries.Pairwise (fun e f => e.parameter ≠ f.parameter)

/-- A header is read if each part can be by itself and no two entries are about the same parameter. -/
theorem addParts_eq_ok_iff {parts : List (List Char)} {after : List Entry}
    (hd : Distinct entries) : parts.foldlM addPart entries = .ok after ↔
      ∃ owns : List (Option Entry),
        List.Forall₂ (fun part own => addPart [] part = .ok own.toList) parts owns ∧
        Distinct (entries ++ owns.flatMap Option.toList) ∧
        after = entries ++ owns.flatMap Option.toList := by
  induction parts generalizing entries with
  | nil => simp [List.forall₂_nil_left_iff, hd, pure_eq_ok, eq_comm]
  | cons part parts ih =>
    rw [List.foldlM_cons, bind_eq_ok_iff]
    constructor
    · rintro ⟨middle, hpart, hrest⟩
      obtain ⟨own, hown, hnew, rfl⟩ := addPart_eq_ok_iff.mp hpart
      have hmiddle : Distinct (entries ++ own.toList) :=
        List.pairwise_append.mpr ⟨hd, by cases own <;> simp,
          fun e he f hf => hnew e he f (by simpa using hf)⟩
      obtain ⟨owns, howns, hall, rfl⟩ := (ih hmiddle).mp hrest
      exact ⟨own :: owns, .cons hown howns, by simpa using hall, by simp⟩
    · rintro ⟨owns, howns, hall, rfl⟩
      cases howns with
      | @cons _ own _ owns hown howns =>
        rw [List.flatMap_cons, ← List.append_assoc] at hall
        have hmiddle := (List.pairwise_append.mp hall).1
        have hnew : ∀ e ∈ entries, ∀ f ∈ own, e.parameter ≠ f.parameter := fun e he f hf =>
          (List.pairwise_append.mp hmiddle).2.2 e he f (by simpa using hf)
        exact ⟨_, addPart_eq_ok_iff.mpr ⟨own, hown, hnew, rfl⟩,
          (ih hmiddle).mpr ⟨owns, howns, hall, by simp⟩⟩

theorem addParts_perm {parts others : List (List Char)} (h : parts.Perm others)
    (hf : parts.foldlM addPart [] = .ok entries) :
    ∃ given, others.foldlM addPart [] = .ok given ∧ entries.Perm given ∧ Distinct entries := by
  obtain ⟨owns, howns, hall, rfl⟩ := (addParts_eq_ok_iff .nil).mp hf
  obtain ⟨given, hgiven, hperm⟩ := List.perm_comp_forall₂ h.symm howns
  rw [List.nil_append] at hall ⊢
  have hentries : (owns.flatMap Option.toList).Perm (given.flatMap Option.toList) :=
    hperm.symm.flatMap_right _
  have hgivenDistinct := (hentries.pairwise_iff (fun hne => hne.symm)).mp hall
  exact ⟨_, (addParts_eq_ok_iff .nil).mpr ⟨given, hgiven, hgivenDistinct, rfl⟩, hentries, hall⟩

theorem findSome?_perm {α β : Type} {f : α → Option β} {xs ys : List α} (h : xs.Perm ys)
    (hd : xs.Pairwise (fun a b => f a = none ∨ f b = none)) : xs.findSome? f = ys.findSome? f := by
  induction h with
  | nil => rfl
  | cons a _ ih => rw [List.findSome?_cons, List.findSome?_cons, ih (List.pairwise_cons.mp hd).2]
  | swap a b xs =>
    rcases (List.pairwise_cons.mp hd).1 a List.mem_cons_self with ha | hb
    · simp [List.findSome?_cons, ha]
    · cases hf : f b <;> simp [hb, hf]
  | trans hxy _ ihx ihy =>
    exact (ihx hd).trans (ihy ((hxy.pairwise_iff (fun hab => hab.symm)).mp hd))

theorem lookup_perm {given : List Entry} {β : Type} {f : Entry → Option β} {p : Parameter}
    (hf : ∀ e, e.parameter ≠ p → f e = none) (h : entries.Perm given)
    (hd : Distinct entries) : entries.findSome? f = given.findSome? f := by
  refine findSome?_perm h (hd.imp (fun {a b} hab => ?_))
  by_cases ha : a.parameter = p
  · exact .inr (hf b (fun hb => hab (ha.trans hb.symm)))
  · exact .inl (hf a ha)

theorem signatureOf_perm {given : List Entry} (h : entries.Perm given)
    (hd : Distinct entries) : signatureOf entries = signatureOf given := by
  have htext : ∀ p, textOf? entries p = textOf? given p := fun p =>
    lookup_perm (f := Entry.text? p) (fun _ => Entry.text?_eq_none) h hd
  have htime : ∀ p, timeOf? entries p = timeOf? given p := fun p =>
    lookup_perm (f := Entry.time? p) (fun _ => Entry.time?_eq_none) h hd
  have hnames : namesOf? entries = namesOf? given :=
    lookup_perm (f := Entry.names?) (fun _ => Entry.names?_eq_none) h hd
  simp only [signatureOf, htext, htime, hnames]

theorem readParameters_perm {parts others : List String} {s : Signature}
    (hparts : ∀ part ∈ parts, IsPart false part.toList) (h : parts.Perm others)
    (hr : readParameters (joinParts parts).toList = .ok s) :
    readParameters (joinParts others).toList = .ok s := by
  have hsplit : ∀ ps : List String, ps ≠ [] → (∀ part ∈ ps, IsPart false part.toList) →
      splitParts false (joinParts ps).toList = ps.map String.toList := by
    intro ps hne hps
    rw [joinParts, String.toList_ofList]
    refine splitParts_intercalate (by simpa using hne) (fun cs hcs => ?_)
    obtain ⟨part, hm, rfl⟩ := List.mem_map.mp hcs
    exact hps part hm
  by_cases hne : parts = []
  · subst hne
    rwa [List.nil_perm.mp h]
  · have hothers : others ≠ [] := fun he => hne (List.perm_nil.mp (he ▸ h))
    obtain ⟨entries, hf, rfl, hd⟩ := readParameters_eq_ok_iff.mp hr
    rw [hsplit parts hne hparts] at hf
    obtain ⟨given, hg, hperm, hdistinct⟩ := addParts_perm (h.map String.toList) hf
    refine readParameters_eq_ok_iff.mpr ⟨given, ?_, (signatureOf_perm hperm hdistinct).symm, hd⟩
    rwa [hsplit others hothers (fun part hm => hparts part (h.mem_iff.mpr hm))]

/-- Parts with an even number of quotes each and no comma outside them are read alike in any order. -/
theorem read_in_any_order {scheme : String} {parts others : List String} (hne : scheme ≠ "")
    (hb : ∀ c ∈ scheme.toList, Text.isBlank c = false)
    (hparts : ∀ part ∈ parts, Even (part.toList.count '"') ∧
      ∀ front back, part.toList = front ++ ',' :: back → Odd (front.count '"'))
    (h : parts.Perm others) :
    (∃ s, read scheme (scheme ++ " " ++ joinParts parts) = .ok s ∧
      read scheme (scheme ++ " " ++ joinParts others) = .ok s) ∨
    ∃ d e, read scheme (scheme ++ " " ++ joinParts parts) = .error d ∧
      read scheme (scheme ++ " " ++ joinParts others) = .error e := by
  have hmove : ∀ {ps qs : List String}, (∀ part ∈ ps, IsPart false part.toList) → ps.Perm qs →
      ∀ s, read scheme (scheme ++ " " ++ joinParts ps) = .ok s →
        read scheme (scheme ++ " " ++ joinParts qs) = .ok s := by
    intro ps qs hps hperm s hr
    exact (read_eq_ok_iff hne hb).mpr
      (readParameters_perm hps hperm ((read_eq_ok_iff hne hb).mp hr))
  have hthese : ∀ part ∈ parts, IsPart false part.toList := fun part hm =>
    isPart_closed_iff.mpr (hparts part hm)
  have hthose : ∀ part ∈ others, IsPart false part.toList := fun part hm =>
    hthese part (h.mem_iff.mpr hm)
  cases hr : read scheme (scheme ++ " " ++ joinParts parts) with
  | ok s => exact .inl ⟨s, rfl, hmove hthese h s hr⟩
  | error d =>
    cases ho : read scheme (scheme ++ " " ++ joinParts others) with
    | ok s =>
      have hback := hmove hthose h.symm s ho
      -- This order would be read as well.
      rw [hr] at hback
      cases hback
    | error e => exact .inr ⟨d, e, rfl, rfl⟩

end SignedHttp.Authorization

namespace SignedHttp.Sample

def mixedParts : List String :=
  ["headers=\"date\"", " ", "realm=\"a,b=c,\"", " keyId = app", "", "created=soon", "realm=",
    "signature=c\"2,l\"n"]

def mixed : Signature :=
  ⟨"app", none, none, none, some [.date], none, "c\"2,l\"n"⟩

theorem mixed_parts_reversed :
    (∀ part ∈ mixedParts, Authorization.IsPart false part.toList) ∧
      mixedParts.Perm mixedParts.reverse ∧
      Authorization.read "Signature" ("Signature" ++ " " ++ Authorization.joinParts mixedParts) =
        .ok mixed ∧
      Authorization.read "Signature"
        ("Signature" ++ " " ++ Authorization.joinParts mixedParts.reverse) = .ok mixed := by
  have hne : "Signature" ≠ "" := by decide
  have hb : ∀ c ∈ "Signature".toList, Text.isBlank c = false := Text.forall_mem_of_all (by decide)
  have hparts : ∀ part ∈ mixedParts, Authorization.IsPart false part.toList := by decide
  have hperm := (List.reverse_perm mixedParts).symm
  have hread : Authorization.read "Signature"
      ("Signature" ++ " " ++ Authorization.joinParts mixedParts) = .ok mixed := by rfl
  refine ⟨hparts, hperm, hread, ?_⟩
  rcases Authorization.read_in_any_order hne hb
    (fun part hm => Authorization.isPart_closed_iff.mp (hparts part hm)) hperm with
    ⟨s, hs, ht⟩ | ⟨d, e, hd, -⟩
  · rw [hread] at hs
    cases hs
    exact ht
  · rw [hread] at hd
    cases hd

end SignedHttp.Sample
