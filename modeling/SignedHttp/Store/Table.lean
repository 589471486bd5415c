namespace SignedHttp

structure Table (κ ρ : Type) where
  rows : List (κ × ρ)
  distinct : (rows.map Prod.fst).Nodup

namespace Table

variable {κ ρ : Type}

def empty : Table κ ρ := ⟨[], List.nodup_nil⟩

instance : Inhabited (Table κ ρ) := ⟨empty⟩

def size (t : Table κ ρ) : Nat :=
  t.rows.length

def filter (p : κ × ρ → Bool) (t : Table κ ρ) : Table κ ρ :=
  ⟨t.rows.filter p, t.distinct.sublist ((List.filter_sublist).map _)⟩

variable [DecidableEq κ]

def find? (t : Table κ ρ) (k : κ) : Option ρ :=
  (t.rows.find? (fun row => row.1 = k)).map Prod.snd

/-- Writes a row in its place, or at the end. -/
def putRows (k : κ) (r : ρ) : List (κ × ρ) → List (κ × ρ)
  | [] => [(k, r)]
  | row :: rows => if row.1 = k then (k, r) :: rows else row :: putRows k r rows

theorem mem_keys_putRows {k j : κ} {r : ρ} {rows : List (κ × ρ)} :
    j ∈ (putRows k r rows).map Prod.fst ↔ j = k ∨ j ∈ rows.map Prod.fst := by
  induction rows with
  | nil => simp [putRows]
  | cons row rows ih =>
    unfold putRows
    split
    · next h => subst h; simp
    · simp only [List.map_cons, List.mem_cons, ih]
      grind

theorem nodup_keys_putRows {k : κ} {r : ρ} {rows : List (κ × ρ)}
    (h : (rows.map Prod.fst).Nodup) : ((putRows k r rows).map Prod.fst).Nodup := by
  induction rows with
  | nil => simp [putRows]
  | cons row rows ih =>
    simp only [List.map_cons, List.nodup_cons] at h
    unfold putRows
    split
    · next hk => subst hk; simpa using h
    · next hk =>
      simp only [List.map_cons, List.nodup_cons]
      refine ⟨?_, ih h.2⟩
      rw [mem_keys_putRows]
      rintro (he | hm)
      · exact hk he
      · exact h.1 hm

def put (t : Table κ ρ) (k : κ) (r : ρ) : Table κ ρ :=
  ⟨putRows k r t.rows, nodup_keys_putRows t.distinct⟩

@[simp]
theorem find?_put_self (t : Table κ ρ) (k : κ) (r : ρ) : (t.put k r).find? k = some r := by
  obtain ⟨rows, hd⟩ := t
  simp only [find?, put]
  induction rows with
  | nil => simp [putRows]
  | cons row rows ih =>
    simp only [List.map_cons, List.nodup_cons] at hd
    unfold putRows
    split
    · simp
    · next h => simpa [List.find?_cons, h] using ih hd.2

theorem find?_put_other (t : Table κ ρ) {k j : κ} (r : ρ) (h : j ≠ k) :
    (t.put k r).find? j = t.find? j := by
  obtain ⟨rows, hd⟩ := t
  simp only [find?, put]
  induction rows with
  | nil => simp [putRows, h.symm]
  | cons row rows ih =>
    simp only [List.map_cons, List.nodup_cons] at hd
    unfold putRows
    split
    · next hk => subst hk; simp [h.symm]
    · simp only [List.find?_cons]
      split
      · rfl
      · exact ih hd.2

end Table

end SignedHttp
