import SignedHttp.Proofs.Authorization.Commas

namespace SignedHttp.Authorization

variable {cs part rest : List Char} {parts : List (List Char)}

/-- Parts that make up a text, cut at commas outside quotes and at no other ones. Only the last one
may leave quotes open. -/
structure Divides (cs : List Char) (parts : List (List Char)) : Prop where
  nonempty : parts ≠ []
  joined : List.intercalate [','] parts = cs
  closed : ∀ part ∈ parts.dropLast, Even (part.count '"')
  unbroken : ∀ part ∈ parts, ∀ front back, part = front ++ ',' :: back → Odd (front.count '"')

theorem unbroken_closed_iff :
    Unbroken false cs ↔ ∀ front back, cs = front ++ ',' :: back → Odd (front.count '"') := by
  simp [Unbroken]

theorem unbroken_or_isPart (q : Bool) (cs : List Char) :
    Unbroken q cs ∨ ∃ part rest, cs = part ++ ',' :: rest ∧ IsPart q part := by
  induction cs generalizing q with
  | nil => exact .inl (unbroken_nil q)
  | cons c cs ih =>
    by_cases hc : c = ',' ∧ q = false
    · obtain ⟨rfl, rfl⟩ := hc
      exact .inr ⟨[], cs, rfl, rfl⟩
    · have hin : c = ',' → q = true := fun he => by simpa [he] using hc
      rcases ih (if c = '"' then !q else q) with h | ⟨part, rest, rfl, hp⟩
      · exact .inl (unbroken_cons.mpr ⟨hin, h⟩)
      · exact .inr ⟨c :: part, rest, rfl, hin, hp⟩

theorem Divides.single (h : Unbroken false cs) : Divides cs [cs] where
  nonempty := by simp
  joined := List.intercalate_singleton
  closed := by simp
  unbroken := by simpa using unbroken_closed_iff.mp h

theorem Divides.cons (hp : IsPart false part) (h : Divides rest parts) :
    Divides (part ++ ',' :: rest) (part :: parts) where
  nonempty := by simp
  joined := by
    rw [List.intercalate_cons_of_ne_nil h.nonempty, h.joined]
    simp
  closed := by
    rw [List.dropLast_cons_of_ne_nil h.nonempty]
    exact List.forall_mem_cons.mpr ⟨(isPart_closed_iff.mp hp).1, h.closed⟩
  unbroken := List.forall_mem_cons.mpr ⟨(isPart_closed_iff.mp hp).2, h.unbroken⟩

theorem divides_splitParts (cs : List Char) : Divides cs (splitParts false cs) := by
  rcases unbroken_or_isPart false cs with h | ⟨part, rest, he, hp⟩
  · rw [splitParts_unbroken h]
    exact .single h
  · have hshorter : rest.length < cs.length := by
      rw [he, List.length_append, List.length_cons]
      omega
    rw [he, splitParts_append hp]
    exact .cons hp (divides_splitParts rest)
termination_by cs.length

theorem Divides.splitParts_eq (h : Divides cs parts) : splitParts false cs = parts := by
  obtain ⟨front, last, rfl⟩ := (List.eq_nil_or_concat parts).resolve_left h.nonempty
  rw [List.concat_eq_append] at h ⊢
  have hclosed : ∀ part ∈ front, Even (part.count '"') := by
    simpa only [List.dropLast_concat] using h.closed
  have hparts : ∀ part ∈ front, IsPart false part := fun part hm =>
    isPart_closed_iff.mpr ⟨hclosed part hm, h.unbroken part (List.mem_append_left _ hm)⟩
  have hlast : Unbroken false last :=
    unbroken_closed_iff.mpr (h.unbroken last (by simp))
  rw [← h.joined, splitParts_intercalate_append hparts (by simp), List.intercalate_singleton,
    splitParts_unbroken hlast]

/-- Splitting loses nothing and cuts where it has to: joined with commas the parts are the text
again, all but the last one have an even number of quotes, in front of each comma within a part
there is an odd number, and no other list of parts is like that. -/
theorem splitParts_eq_iff : splitParts false cs = parts ↔ Divides cs parts :=
  ⟨fun h => h ▸ divides_splitParts cs, Divides.splitParts_eq⟩

/-- Quotes that are left open take the commas behind them into the last part. -/
example : splitParts false "a=\"b,c\",,d=\"e,f".toList =
    ["a=\"b,c\"".toList, [], "d=\"e,f".toList] := by decide

end SignedHttp.Authorization
