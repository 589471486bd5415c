import SignedHttp.Proofs.NonceLifetime
import SignedHttp.Proofs.Store.Unwinding

namespace SignedHttp

variable {ω κ ε : Type}

/-- The client that a request says it comes from, if its signature can be read. -/
def Request.sender? (scheme : String) (r : Request) : Option String :=
  (Authorization.ofRequest scheme r).toOption.map Signature.keyId

def Call.client? (scheme : String) : Call κ → Option String
  | .register c => some c.id
  | .verify _ r => r.sender? scheme

/-- Both calls are about the same, and at one time, whatever their other clocks show. -/
inductive Call.Same : Call κ → Call κ → Prop
  | register (c : Client κ) : Same (.register c) (.register c)
  | verify {clocks other : Readings} (r : Request) (hnow : clocks.now = other.now) :
    Same (.verify clocks r) (.verify other r)

theorem Call.Same.refl (call : Call κ) : call.Same call := by
  cases call with
  | register c => exact .register c
  | verify clocks r => exact .verify r rfl

theorem Attempt.client_of_nonce? {a : Attempt κ} {n : Nonce} (h : a.nonce? = some n) :
    n.client = a.client.id := by
  obtain ⟨value, -, rfl⟩ := Option.map_eq_some_iff.mp h
  rfl

namespace Verifier

variable [SigningKey κ] [ClientStore ω κ ε] [NonceStore ω ε] {v w : Verifier ω}
  {clocks other : Readings} {r : Request} {s : Signature} {c : Client κ}

def verdict (s : Signature) (c : Client κ) : Option Rejection → Verdict κ
  | none => .accepted s c
  | some reason => .rejected reason (some s) (some c)

/-- The result of a verification, and the store behind its checks. -/
def outcome (clocks : Readings) (r : Request) (v : Verifier ω) : Except ε (Verdict κ) × ω :=
  match Authorization.ofRequest v.scheme r with
  | .error d => (.ok (.rejected (.unreadable d) none none), v.store)
  | .ok s =>
    match ClientStore.find? s.keyId v.store with
    | .error e => (.error e, v.store)
    | .ok none => (.ok (.rejected (.unknownClient s.keyId) (some s) none), v.store)
    | .ok (some c) =>
      ((v.checked clocks r s c).1.map (verdict s c), (v.checked clocks r s c).2)

/-- Behind the checks there is a purge or nothing. -/
theorem verify_outcome (clocks : Readings) (r : Request) (v : Verifier ω) :
    (v.verify clocks r).1 = (v.outcome clocks r).1 ∧
      ((v.verify clocks r).2.store = (v.outcome clocks r).2 ∨
        (v.verify clocks r).2.store = (NonceStore.purge clocks.now (v.outcome clocks r).2).2) := by
  have he := verify_ends clocks r v
  generalize (v.verify clocks r).1 = result at he ⊢
  generalize (v.verify clocks r).2.store = after at he ⊢
  unfold outcome
  cases he with
  | unreadable hs => simp [hs]
  | lookupFailed hs hc => simp [hs, hc]
  | unknown hs hc => simp [hs, hc]
  | failed hs hc hr => simp [hs, hc, hr, Except.map]
  | rejected hs hc hr => simp [hs, hc, hr, Except.map, verdict]
  | accepted hs hc hr hu => simp [hs, hc, hr, hu, Except.map, verdict]

variable {mine : String → Prop} {R : Instant → ω → ω → Prop}

theorem checked_same (hU : Unwinding mine R) (hset : v.SetUpAs w) (hnow : clocks.now = other.now)
    (h : R clocks.now v.store w.store) (hc : mine c.id) :
    (v.checked clocks r s c).1 = (w.checked other r s c).1 ∧
      R clocks.now (v.checked clocks r s c).2 (w.checked other r s c).2 := by
  unfold checked
  rw [← hset.checks_eq, ← hnow]
  refine Attempt.run_related ?_ h
  intro n hn s t hr
  exact hU.tryRegister hr (Attempt.client_of_nonce? hn ▸ hc)

theorem checked_other (hU : Unwinding mine R) {t : ω} (h : R clocks.now v.store t)
    (hc : ¬ mine c.id) : R clocks.now (v.checked clocks r s c).2 t :=
  Attempt.run_keeps (P := fun u => R clocks.now u t)
    (fun _ hn _ hr => hU.tryRegisterOther hr (Attempt.client_of_nonce? hn ▸ hc)) h

theorem outcome_same (hU : Unwinding mine R) (hset : v.SetUpAs w) (hnow : clocks.now = other.now)
    (h : R clocks.now v.store w.store)
    (hm : ∀ s, Authorization.ofRequest v.scheme r = .ok s → mine s.keyId) :
    (v.outcome clocks r).1 = (w.outcome other r).1 ∧
      R clocks.now (v.outcome clocks r).2 (w.outcome other r).2 := by
  unfold outcome
  rw [← hset.1]
  cases hs : Authorization.ofRequest v.scheme r with
  | error d => exact ⟨rfl, h⟩
  | ok s =>
    simp only
    rw [← hU.find h (hm s hs)]
    rcases hc : ClientStore.find? s.keyId v.store with e | _ | c
    · exact ⟨rfl, h⟩
    · exact ⟨rfl, h⟩
    · obtain ⟨hresult, hleft⟩ := checked_same hU hset hnow h ((hU.keyed h hc).mpr (hm s hs))
      exact ⟨congrArg (Except.map (verdict s c)) hresult, hleft⟩

theorem outcome_other (hU : Unwinding mine R) {t : ω} (h : R clocks.now v.store t)
    (hm : ∀ s, Authorization.ofRequest v.scheme r = .ok s → ¬ mine s.keyId) :
    R clocks.now (v.outcome clocks r).2 t := by
  unfold outcome
  cases hs : Authorization.ofRequest v.scheme r with
  | error d => exact h
  | ok s =>
    simp only
    rcases hc : ClientStore.find? s.keyId v.store with e | _ | c
    · exact h
    · exact h
    · exact checked_other hU h (fun hmine => hm s hs ((hU.keyed h hc).mp hmine))

omit [SigningKey κ] in
/-- A purge on one of the stores keeps them related. -/
theorem related_behind_purge (hU : Unwinding mine R) {now : Instant} {s t u : ω} (h : R now s t)
    (hu : u = s ∨ u = (NonceStore.purge now s).2) : R now u t := by
  rcases hu with rfl | rfl
  · exact h
  · exact hU.purge h

theorem verify_same (hU : Unwinding mine R) (hset : v.SetUpAs w) (hnow : clocks.now = other.now)
    (h : R clocks.now v.store w.store)
    (hm : ∀ s, Authorization.ofRequest v.scheme r = .ok s → mine s.keyId) :
    (v.verify clocks r).1 = (w.verify other r).1 ∧
      R clocks.now (v.verify clocks r).2.store (w.verify other r).2.store := by
  obtain ⟨hfirst, hpurged⟩ := verify_outcome clocks r v
  obtain ⟨hsecond, hpurged'⟩ := verify_outcome other r w
  obtain ⟨hresult, hleft⟩ := outcome_same hU hset hnow h hm
  refine ⟨hfirst.trans (hresult.trans hsecond.symm), ?_⟩
  rw [← hnow] at hpurged'
  have hone := hU.symm (related_behind_purge hU hleft hpurged)
  exact hU.symm (related_behind_purge hU hone hpurged')

theorem verify_other (hU : Unwinding mine R) {t : ω} (h : R clocks.now v.store t)
    (hm : ∀ s, Authorization.ofRequest v.scheme r = .ok s → ¬ mine s.keyId) :
    R clocks.now (v.verify clocks r).2.store t :=
  related_behind_purge hU (outcome_other hU h hm) (verify_outcome clocks r v).2

theorem sender?_of_read (hs : Authorization.ofRequest v.scheme r = .ok s) :
    r.sender? v.scheme = some s.keyId := by
  rw [Request.sender?, hs]
  rfl

variable {keep : Option String → Bool} {calls others : List (Call κ)} {now : Instant}

/-- The results for some of the clients are those of a run without the other clients. The run of
the calls of these clients alone may have a verifier and a store of its own, as long as these
clients cannot tell the stores apart. -/
theorem history_filter (hU : Unwinding (fun id => keep (some id) = true) R) (hset : v.SetUpAs w)
    (h : R now v.store w.store) (hc : Chronological calls)
    (hnow : ∀ t ∈ calls.filterMap Call.time?, now ≤ t)
    (hsame : List.Forall₂ Call.Same (calls.filter (fun call => keep (call.client? v.scheme)))
      others) :
    (v.history calls).filter (fun e => keep (e.request.sender? v.scheme)) = w.history others := by
  induction calls generalizing others now v w with
  | nil =>
    cases hsame
    rfl
  | cons call calls ih =>
    obtain ⟨hfirst, hrest⟩ := hc.cons
    have hscheme : (v.serve call).scheme = v.scheme := (serve_setUpAs call).1
    have hserved : (v.serve call).SetUpAs w := (serve_setUpAs call).trans hset
    rw [← hscheme] at hsame ⊢
    cases call with
    | register c =>
      cases hk : keep (some c.id) with
      | false =>
        rw [List.filter_cons_of_neg (by simpa [Call.client?] using hk)] at hsame
        have hleft := hU.registerOther h (by simpa using hk)
        exact ih hserved hleft hrest hnow hsame
      | true =>
        rw [List.filter_cons_of_pos (by simpa [Call.client?] using hk)] at hsame
        cases hsame with
        | cons hcall hothers =>
          cases hcall
          have hboth : (v.serve (.register c)).SetUpAs (w.serve (.register c)) := hset
          exact ih (w := w.serve (.register c)) hboth (hU.register h hk) hrest hnow hothers
    | verify clocks r =>
      have hlater : R clocks.now v.store w.store :=
        hU.later h (hnow clocks.now List.mem_cons_self)
      have hafter := hfirst clocks.now rfl
      rw [history_verify]
      cases hk : keep (r.sender? v.scheme) with
      | false =>
        rw [← hscheme] at hk
        rw [List.filter_cons_of_neg (by simpa [Call.client?] using hk)] at hsame
        rw [List.filter_cons_of_neg (by simpa using hk)]
        have hleft := verify_other hU hlater (fun s hs hm => by
          rw [hscheme, sender?_of_read hs, hm] at hk
          cases hk)
        exact ih hserved hleft hrest hafter hsame
      | true =>
        rw [← hscheme] at hk
        rw [List.filter_cons_of_pos (by simpa [Call.client?] using hk)] at hsame
        rw [List.filter_cons_of_pos (by simpa using hk)]
        cases hsame with
        | cons hcall hothers =>
          cases hcall with
          | @verify _ other _ hnow' =>
            have hmine : ∀ s, Authorization.ofRequest v.scheme r = .ok s →
                keep (some s.keyId) = true := by
              intro s hs
              rwa [hscheme, sender?_of_read hs] at hk
            obtain ⟨hresult, hleft⟩ := verify_same hU hset hnow' hlater hmine
            have hboth : (v.serve (.verify clocks r)).SetUpAs (w.serve (.verify other r)) :=
              hserved.trans (serve_setUpAs (.verify other r)).symm
            rw [history_verify, hresult, hnow', ih hboth hleft hrest hafter hothers]

end Verifier

end SignedHttp
