import SignedHttp.Proofs.Runs
import SignedHttp.Proofs.Sending

namespace SignedHttp

variable {ω κ ε : Type}

namespace Instant

theorem le_later (t : Instant) (d : Duration) : t ≤ t.later d := by
  have hl := t.le_latest
  change t.nanos ≤ max (-8334601228800000000000) (min (t.nanos + d.nanos) 8210266876799999999999)
  omega

theorem not_le {s t : Instant} : ¬ s ≤ t ↔ t < s := Int.not_le

theorem lt_of_lt_of_le {s t u : Instant} (h : s < t) (k : t ≤ u) : s < u := Int.lt_of_lt_of_le h k

end Instant

/-- A client used a nonce: a request of it with the nonce was accepted. -/
def Event.Uses (e : Event κ ε) (c : Client κ) (nonce : String) : Prop :=
  ∃ s, e.result = .ok (.accepted s c) ∧ s.nonce = some nonce

theorem Event.uses {now : Instant} {r : Request} {result : Except ε (Verdict κ)} {s : Signature}
    {c : Client κ} {nonce : String} (h : result = .ok (.accepted s c)) (hn : s.nonce = some nonce) :
    Event.Uses ⟨now, r, result⟩ c nonce :=
  ⟨s, h, hn⟩

/-- If both events use one nonce of a client, then the second one takes place after the lifetime
that the nonce was given by the first one. -/
def Event.Apart (first second : Event κ ε) : Prop :=
  ∀ c d nonce, first.Uses c nonce → second.Uses d nonce → c.id = d.id →
    first.now.later c.nonceLifetime < second.now

namespace Verifier

variable [SigningKey κ] [ClientStore ω κ ε] [NonceStore ω ε] [RemembersNonces ω ε]
  {v : Verifier ω} {clocks : Readings} {r : Request} {s : Signature} {c : Client κ}
  {key : String × String} {nonce : String} {t : Instant}

omit [RemembersNonces ω ε] in
theorem serve_setUpAs (call : Call κ) : (v.serve call).SetUpAs v := by
  cases call with
  | register c => exact ⟨rfl, rfl⟩
  | verify clocks r => exact verify_setUpAs

omit [RemembersNonces ω ε] in
theorem serveAll_setUpAs (calls : List (Call κ)) : (v.serveAll calls).SetUpAs v := by
  induction calls generalizing v with
  | nil => exact .refl v
  | cons call calls ih => exact ih.trans (serve_setUpAs call)

omit [RemembersNonces ω ε] in
theorem exists_of_mem_history {calls : List (Call κ)} {e : Event κ ε} (h : e ∈ v.history calls) :
    ∃ (w : Verifier ω) (clocks : Readings), w.SetUpAs v ∧ clocks.now = e.now ∧
      (w.verify clocks e.request).1 = e.result := by
  induction calls generalizing v with
  | nil => cases h
  | cons call calls ih =>
    rcases List.mem_append.mp h with h | h
    · cases call with
      | register c => cases h
      | verify clocks r =>
        obtain rfl := List.mem_singleton.mp h
        exact ⟨v, clocks, .refl v, rfl, rfl⟩
    · obtain ⟨w, clocks, hw, hnow, hresult⟩ := ih h
      exact ⟨w, clocks, hw.trans (serve_setUpAs call), hnow, hresult⟩

omit [RemembersNonces ω ε] in
theorem accepted_registers (hv : v.checks.count .nonce = 1)
    (ha : (v.verify clocks r).1 = .ok (.accepted s c)) (hn : s.nonce = some nonce) :
    ∃ t, NonceStore.tryRegister ⟨c.id, nonce, clocks.now.later c.nonceLifetime⟩ clocks.now v.store =
        (.ok true, t) ∧
      ((v.verify clocks r).2.store = t ∨
        (v.verify clocks r).2.store = (NonceStore.purge clocks.now t).2) := by
  have he := verify_ends clocks r v
  rw [ha] at he
  generalize (v.verify clocks r).2.store = after at he ⊢
  cases he with
  | @accepted _ _ t u hs hc hr hu =>
    have hstep := ((Attempt.run_accepts_iff hv).mp hr).2
    rcases Attempt.nonceStep_accepts_iff.mp hstep with ⟨hnone, -⟩ | ⟨n, hsome, hreg⟩
    · simp [Attempt.nonce?_of_read hs, hn] at hnone
    · rw [Attempt.nonce?_of_read hs, hn] at hsome
      cases hsome
      exact ⟨t, hreg, hu⟩

/-- An accepted request carries a nonce that is not remembered, and leaves it remembered. -/
theorem accepted_remembers (hv : v.checks.count .nonce = 1)
    (ha : (v.verify clocks r).1 = .ok (.accepted s c)) (hn : s.nonce = some nonce) :
    ¬ Remembers v.store (c.id, nonce) clocks.now ∧
      Remembers (v.verify clocks r).2.store (c.id, nonce)
        (clocks.now.later c.nonceLifetime) := by
  obtain ⟨t, hreg, hu⟩ := accepted_registers hv ha hn
  obtain ⟨hnew, hold⟩ := RemembersNonces.registered hreg
  refine ⟨hnew, ?_⟩
  rcases hu with hu | hu
  · rw [hu]
    exact hold
  · rw [hu]
    exact RemembersNonces.afterPurge hold (Instant.le_later _ _)

theorem replayed_store (hv : v.checks.count .nonce = 1) {value : String} {s : Option Signature}
    {c : Option (Client κ)} (h : (v.verify clocks r).1 = .ok (.rejected (.replayed value) s c)) :
    (v.verify clocks r).2.store = v.store := by
  have he := verify_ends clocks r v
  rw [h] at he
  generalize (v.verify clocks r).2.store = after at he ⊢
  cases he with
  | rejected hs hc hr =>
    obtain ⟨n, -, hreg, -⟩ := Attempt.run_replayed hv hr
    exact RemembersNonces.refused hreg

variable [KeepsNonces ω κ ε ε]

theorem serve_remembers {call : Call κ} (h : Remembers v.store key t)
    (ht : ∀ now, call.time? = some now → now ≤ t) : Remembers (v.serve call).store key t := by
  cases call with
  | register c => exact KeepsNonces.afterClient h
  | verify clocks r =>
    have hnow := ht clocks.now rfl
    exact verify_keeps (P := fun u => Remembers u key t)
      (fun n u hu => RemembersNonces.afterTryRegister hu hnow)
      (fun u hu => RemembersNonces.afterPurge hu hnow) h

theorem serveAll_remembers {calls : List (Call κ)} (h : Remembers v.store key t)
    (ht : ∀ now ∈ calls.filterMap Call.time?, now ≤ t) :
    Remembers (v.serveAll calls).store key t := by
  induction calls generalizing v with
  | nil => exact h
  | cons call calls ih =>
    have hfirst : ∀ now, call.time? = some now → now ≤ t := fun now hnow =>
      ht now (List.mem_filterMap.mpr ⟨call, List.mem_cons_self, hnow⟩)
    refine ih (serve_remembers h hfirst) (fun now hnow => ht now ?_)
    obtain ⟨other, hm, hother⟩ := List.mem_filterMap.mp hnow
    exact List.mem_filterMap.mpr ⟨other, List.mem_cons_of_mem _ hm, hother⟩

/-- A remembered nonce is used again only when it is no longer remembered. -/
theorem history_after {calls : List (Call κ)} (hv : v.checks.count .nonce = 1)
    (hc : Chronological calls) (h : Remembers v.store (c.id, nonce) t) {e : Event κ ε}
    (he : e ∈ v.history calls) {d : Client κ} (hd : d.id = c.id) (hu : e.Uses d nonce) :
    t < e.now := by
  induction calls generalizing v with
  | nil => cases he
  | cons call calls ih =>
    obtain ⟨hfirst, hrest⟩ := hc.cons
    rcases List.mem_append.mp he with he | he
    · cases call with
      | register c => cases he
      | verify clocks r =>
        obtain rfl := List.mem_singleton.mp he
        obtain ⟨s, ha, hn⟩ := hu
        have ha : (v.verify clocks r).1 = .ok (.accepted s d) := ha
        obtain ⟨hnew, -⟩ := accepted_remembers hv ha hn
        refine Instant.not_le.mp (fun hle => hnew ?_)
        rw [hd]
        exact RemembersNonces.earlier h hle
    · by_cases hle : ∀ now, call.time? = some now → now ≤ t
      · exact ih ((serve_setUpAs call).count_nonce hv) hrest (serve_remembers h hle) he
      · obtain ⟨now, hnow, hgt⟩ : ∃ now, call.time? = some now ∧ ¬ now ≤ t := by simpa using hle
        exact Instant.lt_of_lt_of_le (Instant.not_le.mp hgt)
          (hfirst now hnow e.now (mem_times he))

theorem history_apart {calls : List (Call κ)} (hv : v.checks.count .nonce = 1)
    (hc : Chronological calls) : (v.history calls).Pairwise Event.Apart := by
  induction calls generalizing v with
  | nil => exact .nil
  | cons call calls ih =>
    have hrest := hc.cons.2
    have hv' : (v.serve call).checks.count .nonce = 1 := (serve_setUpAs call).count_nonce hv
    cases call with
    | register c => exact ih hv' hrest
    | verify clocks r =>
      refine List.pairwise_cons.mpr ⟨?_, ih hv' hrest⟩
      intro e he c d nonce hgiven hu hd
      obtain ⟨s, ha, hn⟩ := hgiven
      have ha : (v.verify clocks r).1 = .ok (.accepted s c) := ha
      obtain ⟨-, hold⟩ := accepted_remembers hv ha hn
      exact history_after hv' hrest hold he hd.symm hu

end Verifier

/-- A store keeps replays away: over any run of a verifier that checks nonces, from any content of
the store and with a clock that never goes back, the uses of a nonce are apart, and a request that
is rejected as a replay changes nothing. -/
def ExcludesReplays (ω κ ε : Type) [SigningKey κ] [ClientStore ω κ ε] [NonceStore ω ε] : Prop :=
  ∀ v : Verifier ω, v.checks.count .nonce = 1 →
    (∀ calls : List (Call κ), Chronological calls → (v.history calls).Pairwise Event.Apart) ∧
    ∀ clocks r value s c, (v.verify clocks r).1 = .ok (.rejected (.replayed value) s c) →
      (v.verify clocks r).2.store = v.store

theorem excludesReplays [SigningKey κ] [ClientStore ω κ ε] [NonceStore ω ε] [RemembersNonces ω ε]
    [KeepsNonces ω κ ε ε] : ExcludesReplays ω κ ε :=
  fun _ hv => ⟨fun _ hc => Verifier.history_apart hv hc,
    fun _ _ _ _ _ h => Verifier.replayed_store hv h⟩

/-- Replays are kept away by nonces in memory, in a database, and in any store with the standard
way to register, whatever the clients are kept in. -/
theorem stores_exclude_replays [SigningKey κ] [StorableKey κ] :
    (∀ (σ δ : Type) [ClientStore σ κ δ], ExcludesReplays (Beside σ NonceTable) κ (δ ⊕ Empty)) ∧
    (∀ (σ δ : Type) [ClientStore σ κ δ],
      ExcludesReplays (Beside σ (Archive κ)) κ (δ ⊕ Archive.Defect)) ∧
    ExcludesReplays (Archive κ) κ Archive.Defect ∧
    (∀ (σ τ δ ε : Type) [ClientStore σ κ δ] [NonceStore τ ε] [StandardNonces τ ε],
      ExcludesReplays (Beside σ τ) κ (δ ⊕ ε)) := by
  refine ⟨fun _ _ _ => excludesReplays, fun _ _ _ => excludesReplays, excludesReplays, ?_⟩
  intro σ τ δ ε _ _ _
  have := StandardNonces.remembers (ω := τ)
  exact excludesReplays

namespace Sample

def verifier : Verifier (Beside (ClientTable Key) PlainNonces) :=
  .standard ⟨⟨Table.empty.put "client1" client⟩, ⟨.empty⟩⟩ (second 0)

def call (n : Nat) : Call Key := .verify (readings n) Place.parameter.sent

theorem accepted_first :
    (verifier.verify (readings 1000) Place.parameter.sent).1 =
      .ok (.accepted Place.parameter.signature client) :=
  parameter_accepted rfl rfl rfl (by decide) (by decide) rfl

/-- A second behind its lifetime the nonce is forgotten, purged or not. -/
theorem store_after :
    ClientStore.find? "client1" (verifier.serve (call 1000)).store = .ok (some client) ∧
      (NonceStore.tryRegister ⟨"client1", "n1", (second 1301).later client.nonceLifetime⟩
        (second 1301) (verifier.serve (call 1000)).store).1 = .ok true := by
  have hv : verifier.checks.count .nonce = 1 := Verifier.standard_count_nonce rfl
  obtain ⟨t, hreg, hu⟩ := Verifier.accepted_registers hv accepted_first rfl
  obtain rfl := (Prod.mk.inj hreg).2
  rw [call, Verifier.serve_verify]
  rcases hu with hu | hu
  · rw [hu]
    exact ⟨rfl, rfl⟩
  · rw [hu]
    exact ⟨rfl, rfl⟩

theorem accepted_again :
    ((verifier.serve (call 1000)).verify (readings 1301) Place.parameter.sent).1 =
      .ok (.accepted Place.parameter.signature client) := by
  have hset := Verifier.serve_setUpAs (v := verifier) (call 1000)
  obtain ⟨hclient, hnew⟩ := store_after
  exact parameter_accepted hset.2 hset.1 hclient (by decide) (by decide) hnew

/-- Both uses of the nonce are accepted, the second one behind the lifetime. -/
theorem uses_apart :
    (verifier.history [call 1000, call 1301]).Pairwise Event.Apart ∧
      ∃ first last, verifier.history [call 1000, call 1301] = [first, last] ∧
        first.Uses client "n1" ∧ last.Uses client "n1" := by
  have hchronological : Chronological [call 1000, call 1301] := by
    unfold Chronological
    decide
  obtain ⟨-, -, -, hstandard⟩ := stores_exclude_replays (κ := Key)
  refine ⟨(hstandard (ClientTable Key) PlainNonces Empty Empty verifier (by decide)).1 _
    hchronological, ?_⟩
  have hevents : verifier.history [call 1000, call 1301] =
      [⟨second 1000, Place.parameter.sent,
          (verifier.verify (readings 1000) Place.parameter.sent).1⟩,
        ⟨second 1301, Place.parameter.sent,
          ((verifier.serve (call 1000)).verify (readings 1301) Place.parameter.sent).1⟩] := by
    rw [call, call, Verifier.history_verify, Verifier.history_verify]
    rfl
  exact ⟨_, _, hevents, Event.uses accepted_first rfl, Event.uses accepted_again rfl⟩

end Sample

end SignedHttp
