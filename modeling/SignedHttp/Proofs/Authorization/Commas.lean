import Mathlib.Algebra.Ring.Parity
import SignedHttp.Proofs.Authorization.Quoting

namespace SignedHttp.Authorization

variable {q : Bool} {c : Char} {cs rest first : List Char} {more : List (List Char)}

/-- No comma of a text ends a part; `q` if quotes are open at its start. -/
def Unbroken (q : Bool) (cs : List Char) : Prop :=
  ∀ front back, cs = front ++ ',' :: back → (Even (front.count '"') ↔ q = true)

theorem unbroken_nil (q : Bool) : Unbroken q [] := by
  intro front back he
  simp at he

theorem unbroken_open_iff :
    Unbroken true cs ↔ ∀ front back, cs = front ++ ',' :: back → Even (front.count '"') := by
  simp [Unbroken]

theorem even_count_cons (c : Char) (q : Bool) (cs : List Char) :
    (Even ((c :: cs).count '"') ↔ q = true) ↔
      (Even (cs.count '"') ↔ (if c = '"' then !q else q) = true) := by
  by_cases hc : c = '"'
  · subst hc
    rw [List.count_cons_self, Nat.even_add_one, if_pos rfl]
    cases q <;> simp
  · rw [List.count_cons_of_ne hc, if_neg hc]

theorem unbroken_cons :
    Unbroken q (c :: cs) ↔
      (c = ',' → q = true) ∧ Unbroken (if c = '"' then !q else q) cs := by
  constructor
  · intro h
    refine ⟨fun hc => (h [] cs (by rw [hc]; rfl)).mp Even.zero, fun front back he => ?_⟩
    exact (even_count_cons c q front).mp (h (c :: front) back (by rw [he]; rfl))
  · rintro ⟨hc, h⟩ front back he
    cases front with
    | nil => simpa using hc (List.cons.inj he).1
    | cons d front =>
      obtain ⟨rfl, ht⟩ := List.cons.inj he
      exact (even_count_cons c q front).mpr (h front back ht)

theorem unbroken_append (h : ∀ c ∈ cs, c ≠ '"' ∧ c ≠ ',') :
    Unbroken q (cs ++ rest) ↔ Unbroken q rest := by
  induction cs with
  | nil => exact Iff.rfl
  | cons c cs ih =>
    obtain ⟨hq, hc⟩ := h c List.mem_cons_self
    rw [List.cons_append, unbroken_cons, if_neg hq, ih (fun d hd => h d (List.mem_cons_of_mem _ hd))]
    exact and_iff_right (fun he => absurd he hc)

theorem unbroken_append_quote : Unbroken q (cs ++ ['"']) ↔ Unbroken q cs := by
  induction cs generalizing q with
  | nil => simp [unbroken_cons, unbroken_nil]
  | cons c cs ih => rw [List.cons_append, unbroken_cons, unbroken_cons, ih]

theorem splitParts_unbroken (h : Unbroken q cs) : splitParts q cs = [cs] := by
  induction cs generalizing q with
  | nil => rfl
  | cons c cs ih =>
    obtain ⟨hc, ht⟩ := unbroken_cons.mp h
    exact splitParts_cons hc (ih ht)

theorem unbroken_of_count (h : splitParts q cs = first :: more)
    (hcount : first.count ',' = cs.count ',') : Unbroken q cs := by
  induction cs generalizing q first more with
  | nil => exact unbroken_nil q
  | cons c cs ih =>
    by_cases hc : c = ',' ∧ q = false
    · obtain ⟨rfl, rfl⟩ := hc
      rw [splitParts_comma] at h
      obtain ⟨rfl, -⟩ := List.cons.inj h
      simp at hcount
    · have hin : c = ',' → q = true := fun he => by simpa [he] using hc
      obtain ⟨tail, parts, hs⟩ := exists_splitParts (if c = '"' then !q else q) cs
      rw [splitParts_cons hin hs] at h
      obtain ⟨rfl, -⟩ := List.cons.inj h
      exact unbroken_cons.mpr ⟨hin, ih hs (by simpa [List.count_cons] using hcount)⟩

/-- A part has no comma outside quotes, and closes those that are open. -/
theorem isPart_iff : IsPart q cs ↔ Unbroken q cs ∧ (Even (cs.count '"') ↔ q = false) := by
  induction cs generalizing q with
  | nil => simp [IsPart, unbroken_nil]
  | cons c cs ih =>
    have hclosed := even_count_cons c (!q) cs
    have hturn : (if c = '"' then !!q else !q) = true ↔ (if c = '"' then !q else q) = false := by
      split <;> simp
    rw [hturn, Bool.not_eq_true'] at hclosed
    rw [IsPart, ih, unbroken_cons, hclosed, and_assoc]

/-- A text is a part if it has an even number of quotes, and an odd one before each comma. -/
theorem isPart_closed_iff :
    IsPart false cs ↔ Even (cs.count '"') ∧
      ∀ front back, cs = front ++ ',' :: back → Odd (front.count '"') := by
  rw [isPart_iff, and_comm]
  simp [Unbroken]

theorem quotable_iff {value : String} :
    Quotable value ↔ Unbroken true value.toList ∧ Even (value.toList.count '"') := by
  rw [Quotable, isPart_iff, unbroken_append_quote]
  simp [Nat.even_add_one]

theorem unbroken_quoted (p : Parameter) {value : String} :
    Unbroken false (quoted p value).toList ↔ Unbroken true value.toList := by
  have hname : ∀ c ∈ p.name.toList, c ≠ '"' ∧ c ≠ ',' := fun c hc =>
    ⟨(p.name_facts.1 c hc).1, (p.name_facts.1 c hc).2.1⟩
  rw [toList_quoted, unbroken_append hname]
  simp [unbroken_cons, unbroken_append_quote]

end SignedHttp.Authorization
