import SignedHttp.Verifier

namespace SignedHttp

inductive Call (κ : Type) where
  | register (c : Client κ)
  | verify (clocks : Readings) (r : Request)

def Call.time? {κ : Type} : Call κ → Option Instant
  | register _ => none
  | verify clocks _ => some clocks.now

/-- The clock never goes back. -/
def Chronological {κ : Type} (calls : List (Call κ)) : Prop :=
  (calls.filterMap Call.time?).Pairwise (· ≤ ·)

theorem Chronological.cons {κ : Type} {call : Call κ} {calls : List (Call κ)}
    (h : Chronological (call :: calls)) :
    (∀ now, call.time? = some now → ∀ t ∈ calls.filterMap Call.time?, now ≤ t) ∧
      Chronological calls := by
  unfold Chronological at h ⊢
  cases hc : call.time? with
  | none => simpa [List.filterMap_cons, hc] using h
  | some now =>
    rw [List.filterMap_cons_some hc] at h
    obtain ⟨hf, hr⟩ := List.pairwise_cons.mp h
    refine ⟨?_, hr⟩
    intro _ hgiven
    cases hgiven
    exact hf

/-- A verification that took place. -/
structure Event (κ ε : Type) where
  now : Instant
  request : Request
  result : Except ε (Verdict κ)

namespace Verifier

variable {ω κ ε : Type} [SigningKey κ] [ClientStore ω κ ε] [NonceStore ω ε]

def serve (v : Verifier ω) : Call κ → Verifier ω
  | .register c => (v.after (ClientStore.register c v.store)).2
  | .verify clocks r => (v.verify clocks r).2

def serveAll (v : Verifier ω) (calls : List (Call κ)) : Verifier ω :=
  calls.foldl serve v

def event? (v : Verifier ω) : Call κ → Option (Event κ ε)
  | .register _ => none
  | .verify clocks r => some ⟨clocks.now, r, (v.verify clocks r).1⟩

/-- What took place in a run, in order. -/
def history (v : Verifier ω) : List (Call κ) → List (Event κ ε)
  | [] => []
  | call :: calls => (v.event? call).toList ++ (v.serve call).history calls

variable {v : Verifier ω}

theorem serve_verify (clocks : Readings) (r : Request) :
    v.serve (.verify clocks r) = (v.verify clocks r).2 := rfl

theorem history_verify (clocks : Readings) (r : Request) (calls : List (Call κ)) :
    v.history (.verify clocks r :: calls) = ⟨clocks.now, r, (v.verify clocks r).1⟩ ::
      (v.serve (.verify clocks r)).history calls := rfl

theorem serveAll_singleton (call : Call κ) : v.serveAll [call] = v.serve call := rfl

theorem time?_of_event? {call : Call κ} {e : Event κ ε} (h : v.event? call = some e) :
    call.time? = some e.now := by
  cases call with
  | register c => cases h
  | verify clocks r =>
    cases h
    rfl

theorem mem_times {calls : List (Call κ)} {e : Event κ ε} (h : e ∈ v.history calls) :
    e.now ∈ calls.filterMap Call.time? := by
  induction calls generalizing v with
  | nil => cases h
  | cons call calls ih =>
    rcases List.mem_append.mp h with h | h
    · exact List.mem_filterMap.mpr
        ⟨call, List.mem_cons_self, time?_of_event? (Option.mem_toList.mp h)⟩
    · obtain ⟨other, hm, ht⟩ := List.mem_filterMap.mp (ih h)
      exact List.mem_filterMap.mpr ⟨other, List.mem_cons_of_mem _ hm, ht⟩

end Verifier

end SignedHttp
