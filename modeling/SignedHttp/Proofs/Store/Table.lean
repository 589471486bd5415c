import SignedHttp.Store.Table

namespace SignedHttp.Table

variable {κ ρ σ : Type}

theorem ext {t u : Table κ ρ} (h : t.rows = u.rows) : t = u := by
  cases t
  cases u
  simp_all

def map (f : ρ → σ) (t : Table κ ρ) : Table κ σ :=
  ⟨t.rows.map (Prod.map id f), by
    rw [List.map_map]
    exact t.distinct⟩

theorem size_map (f : ρ → σ) (t : Table κ ρ) : (t.map f).size = t.size := List.length_map _

theorem filter_map {f : ρ → σ} {p : κ × σ → Bool} {q : κ × ρ → Bool} {t : Table κ ρ}
    (h : ∀ row, p (Prod.map id f row) = q row) : (t.map f).filter p = (t.filter q).map f := by
  apply ext
  change (t.rows.map _).filter p = (t.rows.filter q).map _
  rw [List.filter_map]
  congr 1
  exact List.filter_congr (fun row _ => h row)

variable [DecidableEq κ] {t : Table κ ρ} {k : κ} {r : ρ}

theorem find?_map (f : ρ → σ) (t : Table κ ρ) (k : κ) : (t.map f).find? k = (t.find? k).map f := by
  simp only [find?, map, List.find?_map, Option.map_map]
  rfl

theorem put_map (f : ρ → σ) (t : Table κ ρ) (k : κ) (r : ρ) :
    (t.map f).put k (f r) = (t.put k r).map f := by
  apply ext
  change putRows k (f r) (t.rows.map _) = (putRows k r t.rows).map _
  induction t.rows with
  | nil => rfl
  | cons row rows ih =>
    simp only [List.map_cons, putRows, Prod.map_fst, id_eq]
    split
    · rfl
    · rw [ih, List.map_cons]

theorem mem_put {row : κ × ρ} (h : row ∈ (t.put k r).rows) : row = (k, r) ∨ row ∈ t.rows := by
  revert h
  change row ∈ putRows k r t.rows → _
  induction t.rows with
  | nil => simp [putRows]
  | cons first rows ih =>
    unfold putRows
    intro h
    split at h
    · rcases List.mem_cons.mp h with rfl | hm
      · exact Or.inl rfl
      · exact Or.inr (List.mem_cons_of_mem _ hm)
    · rcases List.mem_cons.mp h with rfl | hm
      · exact Or.inr List.mem_cons_self
      · exact (ih hm).imp_right (List.mem_cons_of_mem _)

/-- Keys are distinct, so a row is found exactly if it is there. -/
theorem find?_eq_some_iff : t.find? k = some r ↔ (k, r) ∈ t.rows := by
  obtain ⟨rows, hd⟩ := t
  simp only [find?]
  induction rows with
  | nil => simp
  | cons row rows ih =>
    obtain ⟨j, q⟩ := row
    simp only [List.map_cons, List.nodup_cons] at hd
    by_cases hj : j = k
    · subst hj
      have hnot : (j, r) ∉ rows := fun hm => hd.1 (List.mem_map_of_mem hm)
      simp [hnot, eq_comm]
    · have hne : (k, r) ≠ (j, q) := fun he => hj (congrArg Prod.fst he).symm
      simpa [List.find?_cons, hj, hne] using ih hd.2

theorem put_eq_self (h : t.find? k = some r) : t.put k r = t := by
  apply ext
  change putRows k r t.rows = t.rows
  obtain ⟨rows, hd⟩ := t
  simp only [find?] at h
  induction rows with
  | nil => simp at h
  | cons row rows ih =>
    simp only [List.map_cons, List.nodup_cons] at hd
    unfold putRows
    split
    · next hk =>
      simp only [List.find?_cons, hk, decide_true, Option.map_some, Option.some.injEq] at h
      rw [← hk, ← h]
    · next hk => rw [ih hd.2 (by simpa [List.find?_cons, hk] using h)]

theorem find?_filter_iff {p : κ × ρ → Bool} :
    (t.filter p).find? k = some r ↔ t.find? k = some r ∧ p (k, r) = true := by
  rw [find?_eq_some_iff, find?_eq_some_iff, filter, List.mem_filter]

end SignedHttp.Table
