import SignedHttp.Migration

namespace SignedHttp.Migration

variable {σ τ ε δ : Type} {ms steps : List (Migration σ ε)} {m : Migration σ ε} {c : Nat}

theorem defectAfter?_eq_none_iff {seen : List Nat} :
    defectAfter? seen ms = none ↔
      (ms.map Migration.version).Nodup ∧ ∀ m ∈ ms, 0 < m.version ∧ m.version ∉ seen := by
  induction ms generalizing seen with
  | nil => simp [defectAfter?]
  | cons m ms ih =>
    by_cases h0 : m.version = 0
    · simp [defectAfter?, h0]
    by_cases hs : m.version ∈ seen
    · simp [defectAfter?, h0, hs]
    simp only [defectAfter?, h0, ↓reduceIte, List.contains_iff_mem, hs, ih, List.map_cons,
      List.nodup_cons, List.mem_cons, not_or, forall_eq_or_imp]
    constructor
    · intro hgiven
      obtain ⟨hd, hall⟩ := hgiven
      refine ⟨⟨fun hm => ?_, hd⟩, ⟨by omega, id⟩, fun n hn => ⟨(hall n hn).1, (hall n hn).2.2⟩⟩
      obtain ⟨n, hn, he⟩ := List.mem_map.mp hm
      exact (hall n hn).2.1 he
    · intro hgiven
      obtain ⟨⟨hm, hd⟩, -, hall⟩ := hgiven
      refine ⟨hd, fun n hn => ⟨(hall n hn).1, fun he => hm ?_, (hall n hn).2⟩⟩
      exact he ▸ List.mem_map_of_mem hn

theorem defect?_eq_none_iff :
    defect? ms = none ↔ (ms.map Migration.version).Nodup ∧ ∀ m ∈ ms, 0 < m.version := by
  simp [defect?, defectAfter?_eq_none_iff]

theorem defectAfter?_cases {seen : List Nat} {d : Defect ε} (h : defectAfter? seen ms = some d) :
    (∃ title, d = .versionZero title) ∨ ∃ version, d = .duplicateVersion version := by
  induction ms generalizing seen with
  | nil => cases h
  | cons m ms ih =>
    unfold defectAfter? at h
    split at h
    · exact Or.inl ⟨m.title, (Option.some.inj h).symm⟩
    · split at h
      · exact Or.inr ⟨m.version, (Option.some.inj h).symm⟩
      · exact ih h

theorem foldl_max_le_iff {vs : List Nat} {start bound : Nat} :
    vs.foldl max start ≤ bound ↔ start ≤ bound ∧ ∀ v ∈ vs, v ≤ bound := by
  induction vs generalizing start with
  | nil => simp
  | cons v vs ih =>
    simp only [List.foldl_cons, ih, Nat.max_le, List.forall_mem_cons, and_assoc]

theorem latest_le_iff {bound : Nat} : latest ms ≤ bound ↔ ∀ m ∈ ms, m.version ≤ bound := by
  simp [latest, foldl_max_le_iff]

theorem version_le_latest (h : m ∈ ms) : m.version ≤ latest ms :=
  latest_le_iff.mp (Nat.le_refl _) m h

theorem mem_pending : m ∈ pending c ms ↔ m ∈ ms ∧ c < m.version := by
  simp [pending, List.mem_mergeSort]

theorem pending_eq_nil_iff : pending c ms = [] ↔ latest ms ≤ c := by
  simp only [List.eq_nil_iff_forall_not_mem, mem_pending, latest_le_iff, not_and, Nat.not_lt]

theorem pending_latest : pending (latest ms) ms = [] :=
  pending_eq_nil_iff.mpr (Nat.le_refl _)

theorem latest_pending_le : latest (pending c ms) ≤ latest ms :=
  latest_le_iff.mpr (fun _ hm => version_le_latest (mem_pending.mp hm).1)

theorem latest_pending (h : pending c ms ≠ []) : latest (pending c ms) = latest ms := by
  obtain ⟨n, hn⟩ := List.exists_mem_of_ne_nil _ h
  have hc : c < latest (pending c ms) :=
    Nat.lt_of_lt_of_le (mem_pending.mp hn).2 (version_le_latest hn)
  refine Nat.le_antisymm latest_pending_le (latest_le_iff.mpr (fun m hm => ?_))
  by_cases hm' : c < m.version
  · exact version_le_latest (mem_pending.mpr ⟨hm, hm'⟩)
  · omega

theorem lt_latest_of_pending (h : pending c ms ≠ []) : c < latest ms := by
  rwa [ne_eq, pending_eq_nil_iff, Nat.not_le] at h

theorem versions_pending (c : Nat) (ms : List (Migration σ ε)) :
    (pending c ms).map Migration.version =
      ((ms.map Migration.version).filter (fun v => c < v)).mergeSort := by
  rw [pending, List.filter_map]
  exact List.map_mergeSort (fun _ _ _ _ => rfl)

theorem versions_pending_zero (hpos : ∀ m ∈ ms, 0 < m.version) :
    (pending 0 ms).map Migration.version = (ms.map Migration.version).mergeSort := by
  rw [versions_pending, List.filter_eq_self.mpr]
  intro v hv
  obtain ⟨m, hm, rfl⟩ := List.mem_map.mp hv
  exact decide_eq_true (hpos m hm)

theorem pending_ascending (h : (ms.map Migration.version).Nodup) :
    ((pending c ms).map Migration.version).Pairwise (· < ·) := by
  rw [versions_pending]
  have hsorted : (((ms.map Migration.version).filter (fun v => c < v)).mergeSort).Pairwise
      (· ≤ ·) := by
    have htrans : ∀ a b d : Nat, decide (a ≤ b) → decide (b ≤ d) → decide (a ≤ d) := by
      simp only [decide_eq_true_eq]
      exact fun _ _ _ => Nat.le_trans
    have htotal : ∀ a b : Nat, decide (a ≤ b) || decide (b ≤ a) := by
      simpa using Nat.le_total
    simpa using List.pairwise_mergeSort htrans htotal
      ((ms.map Migration.version).filter (fun v => c < v))
  have hnodup : (((ms.map Migration.version).filter (fun v => c < v)).mergeSort).Nodup :=
    (List.mergeSort_perm _ _).nodup_iff.mpr (h.filter _)
  exact (hsorted.and hnodup).imp (fun h => Nat.lt_of_le_of_ne h.1 h.2)

theorem latest_map {f : Migration σ ε → Migration τ δ} (hf : ∀ m, (f m).version = m.version) :
    latest (ms.map f) = latest ms := by
  rw [latest, latest, List.map_map]
  exact congrArg (List.foldl max 0) (List.map_congr_left (fun m _ => hf m))

theorem defectAfter?_map {f : Migration σ ε → Migration τ ε} {seen : List Nat}
    (hf : ∀ m, (f m).version = m.version ∧ (f m).title = m.title) :
    defectAfter? seen (ms.map f) = defectAfter? seen ms := by
  induction ms generalizing seen with
  | nil => rfl
  | cons m ms ih => simp only [List.map_cons, defectAfter?, hf, ih]

theorem pending_map {f : Migration σ ε → Migration τ δ} (hf : ∀ m, (f m).version = m.version) :
    pending c (ms.map f) = (pending c ms).map f := by
  have hfilter : ms.filter ((fun m => decide (c < m.version)) ∘ f) =
      ms.filter (fun m => c < m.version) :=
    List.filter_congr (fun m _ => by simp only [Function.comp_apply, hf])
  rw [pending, List.filter_map, hfilter, pending]
  exact (List.map_mergeSort (fun m _ n _ => by simp only [hf])).symm

end SignedHttp.Migration
