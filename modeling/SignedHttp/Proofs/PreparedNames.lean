import SignedHttp.Proofs.SignedRequests

namespace SignedHttp

theorem Attempt.listed_of_notAllowed {κ : Type} {a : Attempt κ} {b c : Bound} {given : String}
    (hr : a.boundRejection? b = some (.boundNotAllowed c given)) :
    a.signature.lists b.name = true ∧ a.signature.isDated = true := by
  unfold boundRejection? at hr
  cases hl : a.signature.lists b.name with
  | false => simp [hl] at hr
  | true =>
    cases hd : a.signature.isDated with
    | true => exact ⟨rfl, rfl⟩
    | false =>
      simp only [hl, hd, Bool.not_true, Bool.false_eq_true, ↓reduceIte] at hr
      -- the objections that are left are others
      grind

namespace Settings

variable {κ : Type} {s : Settings κ} {r : Request} {g h place : HeaderName}
  {names completed more : List HeaderName}

/-- The names that may be put in. -/
def completions : List HeaderName :=
  [.requestTarget, .date, .created, .expires, .digest]

/-- The second list is the first one with names put in, each of them once and only if it was
missing. -/
structure Completes (names completed : List HeaderName) : Prop where
  kept : names.Sublist completed
  put (h : HeaderName) : completed.count h = names.count h ∨
    h ∈ completions ∧ names.count h = 0 ∧ completed.count h = 1

theorem Completes.refl (names : List HeaderName) : Completes names names :=
  ⟨List.Sublist.refl names, fun _ => Or.inl rfl⟩

theorem Completes.trans (hc : Completes names completed) (hm : Completes completed more) :
    Completes names more := by
  refine ⟨hc.kept.trans hm.kept, fun h => ?_⟩
  rcases hm.put h with hsame | ⟨hmay, hno, hone⟩
  · rw [hsame]
    exact hc.put h
  · -- what is put in later was not put in before
    rcases hc.put h with hsame | ⟨-, -, honce⟩
    · exact Or.inr ⟨hmay, hsame ▸ hno, hone⟩
    · rw [hno] at honce
      cases honce

theorem Completes.insert {before after : List HeaderName} (hmay : h ∈ completions)
    (hno : h ∉ before ++ after) : Completes (before ++ after) (before ++ h :: after) := by
  refine ⟨(List.sublist_cons_self h after).append_left before, fun g => ?_⟩
  have hcount : (before ++ h :: after).count g =
      (before ++ after).count g + if h = g then 1 else 0 := by
    simp only [List.count_append, List.count_cons, beq_iff_eq, Nat.add_assoc]
  rw [hcount]
  split
  · next he =>
    subst he
    have hzero := List.count_eq_zero.mpr hno
    exact Or.inr ⟨hmay, hzero, congrArg (· + 1) hzero⟩
  · exact Or.inl rfl

theorem exists_insertAfter (place h : HeaderName) (names : List HeaderName) :
    ∃ before after, names = before ++ after ∧
      insertAfter place h names = before ++ h :: after := by
  induction names with
  | nil => exact ⟨[], [], rfl, rfl⟩
  | cons n names ih =>
    unfold insertAfter
    split
    · exact ⟨[n], names, rfl, rfl⟩
    · obtain ⟨before, after, rfl, hinsert⟩ := ih
      exact ⟨n :: before, after, rfl, congrArg (n :: ·) hinsert⟩

theorem completes_unlessThere (hmay : h ∈ completions)
    (hput : ∃ before after, names = before ++ after ∧ completed = before ++ h :: after) :
    Completes names (if names.contains h then names else completed) := by
  split
  · exact .refl names
  · next hno =>
    obtain ⟨before, after, rfl, rfl⟩ := hput
    exact .insert hmay (fun hm => hno (List.contains_iff_mem.mpr hm))

theorem completes_withTarget : Completes names (withTarget names) :=
  completes_unlessThere (by decide) ⟨[], names, rfl, rfl⟩

theorem completes_withDate : Completes names (withDate names) :=
  completes_unlessThere (by decide) (exists_insertAfter _ _ names)

theorem completes_withName (hmay : h ∈ completions) : Completes names (withName names h) :=
  completes_unlessThere hmay ⟨names, [], (List.append_nil names).symm, rfl⟩

theorem completes_headersFor : Completes s.headers (s.headersFor r) := by
  have hdate : Completes s.headers (withDate (withTarget s.headers)) :=
    completes_withTarget.trans completes_withDate
  unfold headersFor
  simp only
  split
  · have htimes : Completes s.headers (if s.namesAlgorithm then withDate (withTarget s.headers)
        else withName (withName (withDate (withTarget s.headers)) .created) .expires) := by
      split
      · exact hdate
      · exact (hdate.trans (completes_withName (by decide))).trans (completes_withName (by decide))
    split
    · exact htimes.trans (completes_withName (by decide))
    · exact htimes
  · exact hdate

/-- Where nothing is missing, nothing is put in. -/
theorem Completes.eq_of_subset (hc : Completes names completed) (hall : completed ⊆ names) :
    completed = names := by
  have hcount : ∀ h, names.count h = completed.count h := by
    intro h
    rcases hc.put h with hsame | ⟨-, hno, hone⟩
    · exact hsame.symm
    · have hm : h ∈ completed := List.count_pos_iff.mp (hone ▸ Nat.one_pos)
      exact absurd (hall hm) (List.count_eq_zero.mp hno)
  exact (hc.kept.eq_of_length (List.perm_iff_count.mpr hcount).length_eq).symm

theorem headersFor_headersFor (s : Settings κ) (r : Request) :
    ({ s with headers := s.headersFor r } : Settings κ).headersFor r = s.headersFor r := by
  refine completes_headersFor.eq_of_subset fun h hm => ?_
  rcases mem_headersFor.mp hm with hm | hrest
  · exact hm
  · exact mem_headersFor.mpr (Or.inr hrest)

section Verifying

variable [SigningKey κ] {key : κ} {signature : Signature}

/-- A signature with the algorithm parameter of the settings has a date in place of the two times
if the parameter names an algorithm. -/
theorem isDated_eq (ha : signature.algorithm = some (s.algorithmParameter key)) :
    signature.isDated = s.namesAlgorithm := by
  unfold algorithmParameter at ha
  cases hn : s.namesAlgorithm with
  | true =>
    rw [hn, if_pos rfl] at ha
    exact (namesAlgorithm_algorithmName ha).isDated
  | false =>
    rw [hn, if_neg Bool.false_ne_true] at ha
    apply Signature.LeavesAlgorithm.not_isDated
    intro given hgiven
    obtain rfl := Option.some.inj (ha.symm.trans hgiven)
    exact Text.equalIgnoringCase_refl _

theorem requiredNames_subset (hk : s.namesAlgorithm = true ∨ s.addsRecommended = true)
    (ha : signature.algorithm = some (s.algorithmParameter key)) :
    signature.requiredNames ⊆ s.headersFor r := by
  intro h hm
  unfold Signature.requiredNames at hm
  rw [isDated_eq ha] at hm
  cases hn : s.namesAlgorithm with
  | true =>
    rw [hn, if_pos rfl] at hm
    rcases List.mem_pair.mp hm with rfl | rfl
    · exact mem_headersFor.mpr (Or.inr (Or.inl rfl))
    · exact mem_headersFor.mpr (Or.inr (Or.inr (Or.inl rfl)))
  | false =>
    rw [hn, if_neg Bool.false_ne_true] at hm
    have hadds : s.addsRecommended = true := by
      rcases hk with hnames | hadds
      · rw [hn] at hnames
        cases hnames
      · exact hadds
    rcases List.mem_cons.mp hm with rfl | hm
    · exact mem_headersFor.mpr (Or.inr (Or.inl rfl))
    · exact mem_headersFor.mpr (Or.inr (Or.inr (Or.inr ⟨hadds, Or.inl ⟨hn, List.mem_pair.mp hm⟩⟩)))

theorem headersRejection?_ne_notSigned {a : Attempt κ}
    (hk : s.namesAlgorithm = true ∨ s.addsRecommended = true)
    (ha : a.signature.algorithm = some (s.algorithmParameter key))
    (hh : a.signature.headers = some (s.headersFor r)) (h : HeaderName) :
    a.headersRejection? ≠ some (.notSigned h) := by
  have hnone : a.signature.requiredNames.find? (fun h => !(s.headersFor r).contains h) = none := by
    rw [List.find?_eq_none]
    intro n hm
    simpa using requiredNames_subset hk ha hm
  simp only [Attempt.headersRejection?, hh, hnone]
  cases a.absentHeader? (s.headersFor r) <;> simp

theorem boundRejection?_ne_notAllowed {a : Attempt κ} (hp : s.Passed key)
    (ha : a.signature.algorithm = some (s.algorithmParameter key))
    (hh : a.signature.headers = some (s.headersFor r)) (b : Bound) (given : String) :
    a.boundRejection? b ≠ some (.boundNotAllowed b given) := by
  intro hr
  obtain ⟨hl, hd⟩ := Attempt.listed_of_notAllowed hr
  rw [Signature.lists, hh] at hl
  obtain ⟨hc, he⟩ := hp.bounds ((isDated_eq ha).symm.trans hd) (List.contains_iff_mem.mp hl)
  cases b with
  | created => exact hc rfl
  | expires => exact he rfl

/-- The names that are signed hold those of the settings in their order and as often as they are
there; target, date, the two times and digest are put in at most once, and only where they are
missing; and names that are complete stay as they are. If the settings pass their check, and name
their algorithm or add what is recommended, then every name that a verifier requires is there, and
none that it forbids. -/
theorem prepared_names (s : Settings κ) (r : Request) :
    Completes s.headers (s.headersFor r) ∧
      ({ s with headers := s.headersFor r } : Settings κ).headersFor r = s.headersFor r ∧
      ∀ key, s.check = .ok key → s.namesAlgorithm = true ∨ s.addsRecommended = true →
        ∀ a : Attempt κ, a.signature.algorithm = some (s.algorithmParameter key) →
          a.signature.headers = some (s.headersFor r) →
          a.signature.requiredNames ⊆ s.headersFor r ∧
            (∀ h, a.headersRejection? ≠ some (.notSigned h)) ∧
            ∀ b given, a.boundRejection? b ≠ some (.boundNotAllowed b given) := by
  refine ⟨completes_headersFor, headersFor_headersFor s r, ?_⟩
  intro key hcheck hk a ha hh
  exact ⟨requiredNames_subset hk ha, headersRejection?_ne_notSigned hk ha hh,
    boundRejection?_ne_notAllowed (check_eq_ok hcheck) ha hh⟩

end Verifying

end Settings

namespace Sample

def host : HeaderName := ⟨"host", by decide⟩

/-- Settings with a name that is repeated, and with a time in front of the target. -/
def arranged : Settings Key :=
  { settings with
    bodyHash := some .sha256
    headers := [host, .expires, host, .requestTarget] }

def posted : Request :=
  { unsigned with body := some (Text.bytes "hello") }

def arrangedSignature : Signature :=
  { made with headers := some [host, .expires, host, .requestTarget, .date, .created, .digest] }

theorem arranged_prepared :
    arranged.check = .ok client.key ∧
      arrangedSignature.headers = some (arranged.headersFor posted) ∧
      arrangedSignature.requiredNames ⊆ arranged.headersFor posted := by
  have hcheck : arranged.check = .ok client.key := by decide
  have hnames : arrangedSignature.headers = some (arranged.headersFor posted) := by decide
  obtain ⟨-, -, hverifies⟩ := Settings.prepared_names arranged posted
  obtain ⟨hrequired, -⟩ := hverifies client.key hcheck (Or.inr rfl)
    ⟨posted, arrangedSignature, client, second 1000⟩ rfl hnames
  exact ⟨hcheck, hnames, hrequired⟩

end Sample

end SignedHttp
