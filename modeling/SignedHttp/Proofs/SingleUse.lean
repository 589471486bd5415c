import SignedHttp.Proofs.NonceLifetime
import SignedHttp.Proofs.SignedRequests

namespace SignedHttp

variable {ω κ ε : Type}

def Event.Accepts (e : Event κ ε) (r : Request) (c : Client κ) : Prop :=
  e.request = r ∧ ∃ s, e.result = .ok (.accepted s c)

theorem Event.accepts {now : Instant} {r : Request} {result : Except ε (Verdict κ)} {s : Signature}
    {c : Client κ} (h : result = .ok (.accepted s c)) : Event.Accepts ⟨now, r, result⟩ r c :=
  ⟨rfl, s, h⟩

/-- No two events accept the request as one of the client. -/
def AcceptedOnce (events : List (Event κ ε)) (r : Request) (c : Client κ) : Prop :=
  events.Pairwise (fun e f => ¬ (e.Accepts r c ∧ f.Accepts r c))

/-- A nonce comes with the signature, and is remembered for as long as the signature can be in
time. -/
def Signature.OutlivedBy (s : Signature) (t : Tolerances) : Prop :=
  ∃ nonce created expires,
    s.nonce = some nonce ∧ s.created = some created ∧ s.expires = some expires ∧
      expires.nanos - created.nanos + 2 * t.clockSkew.nanos ≤ t.nonceLifetime.nanos

namespace Verifier

variable [SigningKey κ] [ClientStore ω κ ε] [NonceStore ω ε] {v : Verifier ω}
  {calls : List (Call κ)} {r : Request} {s : Signature} {c : Client κ}

/-- Whatever is accepted in a run of the standard checks is sound with the signature that it
carries. -/
theorem history_sound (hown : v.ownChecks = none) (hs : Authorization.ofRequest v.scheme r = .ok s)
    {e : Event κ ε} (he : e ∈ v.history calls) (ha : e.Accepts r c) :
    e.result = .ok (.accepted s c) ∧ Attempt.Sound ⟨r, s, c, e.now⟩ := by
  obtain ⟨rfl, s', hresult⟩ := ha
  obtain ⟨w, clocks, hset, hnow, hverify⟩ := exists_of_mem_history he
  have haccepted : (w.verify clocks e.request).1 = .ok (.accepted s' c) := hverify.trans hresult
  obtain ⟨hread, -, hsound, -⟩ := (standard_accepted_iff (hset.2.trans hown)).mp haccepted
  rw [hset.1] at hread
  obtain rfl := Except.ok.inj (hs.symm.trans hread)
  exact ⟨hresult, hnow ▸ hsound⟩

variable [RemembersNonces ω ε] [KeepsNonces ω κ ε ε]

/-- Two acceptances are further apart than the nonce lives, and both are in time. -/
theorem history_once (hown : v.ownChecks = none) (hc : Chronological calls)
    (hs : Authorization.ofRequest v.scheme r = .ok s) (hl : s.OutlivedBy c.terms.tolerances) :
    AcceptedOnce (v.history calls) r c := by
  obtain ⟨nonce, created, expires, hn, hcreated, hexpires, hlong⟩ := hl
  apply (history_apart (standard_count_nonce hown) hc).imp_of_mem
  intro first last hfirst hlast hapart hboth
  obtain ⟨hfirstResult, hfirstSound⟩ := history_sound hown hs hfirst hboth.1
  obtain ⟨hlastResult, hlastSound⟩ := history_sound hown hs hlast hboth.2
  have hgap : first.now.nanos + c.nonceLifetime.nanos < last.now.nanos :=
    Instant.later_lt_iff.mp
      (hapart c c nonce ⟨s, hfirstResult, hn⟩ ⟨s, hlastResult, hn⟩ rfl)
  have hbegun : created.nanos ≤ first.now.nanos + c.clockSkew.nanos :=
    hfirstSound.notEarly created hcreated
  have hnotEnded : last.now.nanos - c.clockSkew.nanos ≤ expires.nanos :=
    hlastSound.notLate expires hexpires
  unfold Client.nonceLifetime at hgap
  unfold Client.clockSkew at hbegun hnotEnded
  omega

end Verifier

/-- Types of stores with which a request is accepted once only, if its nonce is remembered for as
long as its signature can be in time: over any run of the standard checks, from any content of the
store, and with a clock that never goes back. -/
def AcceptsOnce (ω κ ε : Type) [SigningKey κ] [ClientStore ω κ ε] [NonceStore ω ε] : Prop :=
  ∀ v : Verifier ω, v.ownChecks = none → ∀ calls : List (Call κ), Chronological calls →
    ∀ r s c, Authorization.ofRequest v.scheme r = .ok s → s.OutlivedBy c.terms.tolerances →
      AcceptedOnce (v.history calls) r c

theorem acceptsOnce [SigningKey κ] [ClientStore ω κ ε] [NonceStore ω ε] [RemembersNonces ω ε]
    [KeepsNonces ω κ ε ε] : AcceptsOnce ω κ ε :=
  fun _ hown _ hc _ _ _ hs hl => Verifier.history_once hown hc hs hl

/-- Nonces in memory and nonces in a database are remembered so that a request is accepted once
only, whatever the clients are kept in and whenever expired nonces are purged. -/
theorem stores_accept_once [SigningKey κ] [StorableKey κ] :
    (∀ (σ δ : Type) [ClientStore σ κ δ], AcceptsOnce (Beside σ NonceTable) κ (δ ⊕ Empty)) ∧
    (∀ (σ δ : Type) [ClientStore σ κ δ],
      AcceptsOnce (Beside σ (Archive κ)) κ (δ ⊕ Archive.Defect)) ∧
    AcceptsOnce (Archive κ) κ Archive.Defect :=
  ⟨fun _ _ _ => acceptsOnce, fun _ _ _ => acceptsOnce, acceptsOnce⟩

theorem Verifier.expiration_in_memory [SigningKey κ] {v : Verifier (Memory κ)} {clocks : Readings}
    {r : Request} {s : Signature} {c : Client κ} {nonce : String} {n : Nonce}
    (hv : v.checks.count .nonce = 1) (ha : (v.verify clocks r).1 = .ok (.accepted s c))
    (hn : s.nonce = some nonce)
    (hf : (v.verify clocks r).2.store.nonces.nonces.find? (c.id, nonce) = some n) :
    n.expiration = clocks.now.later c.nonceLifetime := by
  obtain ⟨t, hreg, hu⟩ := accepted_registers hv ha hn
  have hput : t.nonces.nonces.find? (c.id, nonce) =
      some ⟨c.id, nonce, clocks.now.later c.nonceLifetime⟩ := by
    have hnonces := (Beside.tryRegister_eq_ok hreg).1
    rw [NonceTable.tryRegister_eq] at hnonces
    split at hnonces
    · cases hnonces
    · rw [← (Prod.mk.inj hnonces).2]
      exact Table.find?_put_self ..
  have hkept : t.nonces.nonces.find? (c.id, nonce) = some n := by
    rcases hu with hu | hu
    · rwa [hu] at hf
    · rw [hu] at hf
      exact (Table.find?_filter_iff.mp hf).1
  obtain rfl := Option.some.inj (hput.symm.trans hkept)
  rfl

namespace Tolerances

variable {t : Tolerances}

theorem warnings_eq_nil_iff :
    t.warnings = [] ↔
      10 * billion ≤ t.clockSkew.nanos ∧ t.clockSkew.nanos < 301 * billion ∧
      60 * billion ≤ t.nonceLifetime.nanos ∧ t.nonceLifetime.nanos < 3601 * billion ∧
      2 * t.clockSkew.nanos ≤ t.nonceLifetime.nanos := by
  have hs := t.clockSkew.lt_bound
  simp only [warnings, List.filter_eq_nil_iff, List.mem_cons, List.not_mem_nil, or_false,
    forall_eq_or_imp, forall_eq, deserves, Duration.isZero, Duration.seconds, Duration.doubled,
    Duration.nanos_ofNanos]
  grind

end Tolerances

namespace Settings

variable {s : Settings Key} {r : Request} {t : Instant} {nonce : String}

/-- Settings with the lifetime that they come with, and with nonces. -/
structure Usual (s : Settings Key) (nonce : String) : Prop where
  lifetime : s.lifetime = .ofSeconds 300
  usesNonce : s.usesNonce = true
  namesNone : s.namesAlgorithm = false
  hooks : s.hooks = .none
  keyId : '"' ∉ s.keyId.toList
  nonceGiven : nonce ≠ ""
  nonceText : '"' ∉ nonce.toList
  scheme : ∀ c ∈ s.scheme.toList, Text.isBlank c = false

theorem Usual.written (hs : s.Usual nonce) (steps : s.Steps r t s.lifetime nonce) :
    ∃ created expires, steps.signature.written.nonce = some nonce ∧
      steps.signature.written.created = some created ∧
      steps.signature.written.expires = some expires ∧
      expires.nanos - created.nanos = (Duration.ofSeconds 300).nanos := by
  have hends : steps.expires.nanos = t.wholeSeconds.nanos + (Duration.ofSeconds 300).nanos := by
    rw [← hs.lifetime]
    exact Instant.shift?_eq_some_iff.mp steps.ends
  refine ⟨t.wholeSeconds, steps.expires.wholeSeconds, ?_, ?_, rfl, ?_⟩
  · rw [steps.written_eq]
    simp [Steps.signature, signatureOf, nonceFor, hs.usesNonce, Authorization.nonEmpty,
      Option.filter, hs.nonceGiven]
  · rw [steps.written_eq]
    rfl
  · have hlifetime : (Duration.ofSeconds 300).nanos = 300000000000 := rfl
    rw [hlifetime] at hends ⊢
    simp only [Instant.wholeSeconds] at hends ⊢
    omega

end Settings

namespace Tolerances

variable {t : Tolerances}

/-- With these tolerances of a client, a request that is signed by usual settings is accepted once
only, with stores of a type. -/
def SingleUse (t : Tolerances) (ω : Type) {ε : Type} [ClientStore ω Key ε] [NonceStore ω ε] :
    Prop :=
  ∀ (v : Verifier ω) (calls : List (Call Key)) (s : Settings Key) (r : Request) (u : Instant)
    (nonce : String) (signature : Signature) (c : Client Key),
    v.ownChecks = none → v.scheme = s.scheme → Chronological calls → s.Usual nonce →
    (s.signRequest r u s.lifetime nonce).result = .ok signature → c.terms.tolerances = t →
    AcceptedOnce (v.history calls) (s.signRequest r u s.lifetime nonce).request c

theorem singleUse_of_le [ClientStore ω Key ε] [NonceStore ω ε] [RemembersNonces ω ε]
    [KeepsNonces ω Key ε ε]
    (h : (Duration.ofSeconds 300).nanos + 2 * t.clockSkew.nanos ≤ t.nonceLifetime.nanos) :
    t.SingleUse ω := by
  intro v calls s r u nonce signature c hown hscheme hc hs hr ht
  obtain ⟨steps, -, hsigned⟩ := Settings.signRequest_ok hs.hooks hr
  rw [← hsigned]
  have hread : Authorization.ofRequest v.scheme steps.signed = .ok steps.signature.written := by
    rw [hscheme]
    exact steps.read_signed hs.keyId (fun _ => hs.nonceText) hs.scheme
  obtain ⟨created, expires, hn, hcreated, hexpires, hlength⟩ := hs.written steps
  refine Verifier.history_once hown hc hread ⟨nonce, created, expires, hn, hcreated, hexpires, ?_⟩
  rw [hlength, ht]
  omega

end Tolerances

namespace Sample

variable {t : Tolerances}

def tolerant (t : Tolerances) (h : t.warnings = []) : Client Key where
  id := "client1"
  name := "Client"
  key := client.key
  terms := { Terms.standard with tolerances := t }
  valid := by
    obtain ⟨hskew, -, hlifetime, -⟩ := Tolerances.warnings_eq_nil_iff.mp h
    have hid : "client1".isEmpty = false := by decide
    have hname : (Text.trim "Client".toList).isEmpty = false := by decide
    have hs : t.clockSkew.isZero = false := by
      rw [Duration.isZero, beq_eq_false_iff_ne]
      unfold billion at hskew
      omega
    have hl : t.nonceLifetime.isZero = false := by
      rw [Duration.isZero, beq_eq_false_iff_ne]
      unfold billion at hlifetime
      omega
    simp only [Client.defect?, hid, hname, hs, hl, Bool.false_eq_true, ↓reduceIte]

def tolerating (t : Tolerances) (h : t.warnings = []) : Verifier (Memory Key) :=
  .standard ⟨⟨Table.empty.put "client1" (tolerant t h)⟩, .empty⟩ (second 0)

def clocks (now : Instant) : Readings := ⟨now, now, now, fun _ => default⟩

def usual : Settings.Outcome :=
  settings.signRequest unsigned (second 1000) settings.lifetime "n1"

theorem isUsual : settings.Usual "n1" where
  lifetime := rfl
  usesNonce := rfl
  namesNone := rfl
  hooks := rfl
  keyId := by decide
  nonceGiven := by decide
  nonceText := by decide
  scheme := Text.forall_mem_of_all (by decide)

def usualSignature : Signature :=
  { made with expires := some (second 1300) }

set_option maxRecDepth 10000 in
theorem usual_result : usual.result = .ok usualSignature := by decide +kernel

/-- The request is accepted from the clock skew before it was signed to the clock skew behind the
end of its signature, if the nonce can be registered. -/
theorem usual_accepted (h : t.warnings = []) {v : Verifier (Memory Key)} {now : Instant}
    (hset : v.SetUpAs (tolerating t h))
    (hclients : v.store.clients = (tolerating t h).store.clients)
    (hbegun : (second 1000).nanos ≤ now.nanos + t.clockSkew.nanos)
    (hnotEnded : now.nanos - t.clockSkew.nanos ≤ (second 1300).nanos)
    (hnew : (NonceStore.tryRegister ⟨"client1", "n1", now.later t.nonceLifetime⟩ now v.store).1 =
      .ok true) :
    (v.verify (clocks now) usual.request).1 = .ok (.accepted usualSignature (tolerant t h)) := by
  obtain ⟨steps, hs, hsigned⟩ := Settings.signRequest_ok isUsual.hooks usual_result
  have hwritten : steps.signature.written = usualSignature := by
    rw [hs]
    rfl
  have hclient : ClientStore.find? settings.keyId v.store = .ok (some (tolerant t h)) := by
    change (ClientStore.find? settings.keyId v.store.clients).mapError _ = _
    rw [hclients]
    rfl
  rw [usual, ← hsigned, ← hwritten]
  refine steps.accepted transmits hset.2 hset.1 hclient ⟨rfl, ?_, nofun⟩ ⟨?_, ?_⟩ ?_
  · intro key hkey
    obtain rfl := Option.some.inj hkey
    exact Key.hmac_takes _ _
  · intro u hu
    rw [hs] at hu
    obtain rfl := Option.some.inj hu
    exact hbegun
  · intro u hu
    rw [hs] at hu
    obtain rfl := Option.some.inj hu
    exact hnotEnded
  · intro value hvalue
    rw [hwritten] at hvalue
    obtain rfl := Option.some.inj hvalue
    exact hnew

/-- When the signature begins to be in time. -/
def start (t : Tolerances) : Instant := .clamped (1000000000000 - t.clockSkew.nanos)

/-- When the signature ceases to be in time. -/
def finish (t : Tolerances) : Instant := .clamped (1300000000000 + t.clockSkew.nanos)

theorem nanos_eq (h : t.warnings = []) :
    (second 1000).nanos = 1000000000000 ∧ (second 1300).nanos = 1300000000000 ∧
      (start t).nanos = 1000000000000 - t.clockSkew.nanos ∧
      (finish t).nanos = 1300000000000 + t.clockSkew.nanos := by
  obtain ⟨-, hskew, -⟩ := Tolerances.warnings_eq_nil_iff.mp h
  unfold billion at hskew
  refine ⟨nanos_second (by decide), nanos_second (by decide), ?_, ?_⟩
  · rw [start, Instant.nanos_clamped]
    simp only [Instant.earliest, Instant.latest]
    omega
  · rw [finish, Instant.nanos_clamped]
    simp only [Instant.earliest, Instant.latest]
    omega

/-- The two verifications, as early and as late as they may be. -/
def bothEnds (t : Tolerances) : List (Call Key) :=
  [.verify (clocks (start t)) usual.request, .verify (clocks (finish t)) usual.request]

theorem bothEnds_chronological (h : t.warnings = []) : Chronological (bothEnds t) := by
  obtain ⟨-, -, hstart, hfinish⟩ := nanos_eq h
  have hle : start t ≤ finish t := by
    rw [Instant.le_def, hstart, hfinish]
    omega
  change [start t, finish t].Pairwise (· ≤ ·)
  simpa using hle

theorem accepted_at_start (h : t.warnings = []) :
    ((tolerating t h).verify (clocks (start t)) usual.request).1 =
      .ok (.accepted usualSignature (tolerant t h)) := by
  obtain ⟨hcreated, hexpires, hstart, -⟩ := nanos_eq h
  refine usual_accepted h (.refl _) rfl ?_ ?_ rfl
  · rw [hcreated, hstart]
    omega
  · rw [hexpires, hstart]
    omega

/-- The nonce is forgotten before the signature ceases to be in time. -/
theorem accepted_at_finish (h : t.warnings = [])
    (hl : t.nonceLifetime.nanos < (Duration.ofSeconds 300).nanos + 2 * t.clockSkew.nanos) :
    (((tolerating t h).verify (clocks (start t)) usual.request).2.verify (clocks (finish t))
      usual.request).1 = .ok (.accepted usualSignature (tolerant t h)) := by
  obtain ⟨hcreated, hexpires, hstart, hfinish⟩ := nanos_eq h
  refine usual_accepted h Verifier.verify_setUpAs Verifier.verify_clients ?_ ?_ ?_
  · rw [hcreated, hfinish]
    omega
  · rw [hexpires, hfinish]
    omega
  · refine Memory.tryRegister_iff.mpr (fun n hf => ?_)
    have hexpiration := Verifier.expiration_in_memory (Verifier.standard_count_nonce rfl)
      (accepted_at_start h) rfl hf
    have hlength : (Duration.ofSeconds 300).nanos = 300000000000 := rfl
    rw [hexpiration]
    refine Instant.later_lt_iff.mpr ?_
    change (start t).nanos + (t.nonceLifetime.nanos : Int) < (finish t).nanos
    rw [hstart, hfinish]
    omega

theorem bothEnds_history (h : t.warnings = []) :
    (tolerating t h).history (bothEnds t) =
      [⟨start t, usual.request,
          ((tolerating t h).verify (clocks (start t)) usual.request).1⟩,
        ⟨finish t, usual.request,
          (((tolerating t h).verify (clocks (start t)) usual.request).2.verify
            (clocks (finish t)) usual.request).1⟩] := by
  rw [bothEnds, Verifier.history_verify, Verifier.history_verify, Verifier.serve_verify]
  rfl

theorem refused_at_finish (h : t.warnings = [])
    (honce : AcceptedOnce ((tolerating t h).history (bothEnds t)) usual.request (tolerant t h)) :
    (((tolerating t h).verify (clocks (start t)) usual.request).2.verify (clocks (finish t))
      usual.request).1 ≠ .ok (.accepted usualSignature (tolerant t h)) := by
  intro hlast
  rw [bothEnds_history] at honce
  obtain ⟨hpair, -⟩ := List.pairwise_cons.mp honce
  exact hpair _ (List.mem_singleton.mpr rfl)
    ⟨Event.accepts (accepted_at_start h), Event.accepts hlast⟩

/-- Tolerances that fall short are no protection against a request that comes twice. -/
theorem not_singleUse (h : t.warnings = [])
    (hl : t.nonceLifetime.nanos < (Duration.ofSeconds 300).nanos + 2 * t.clockSkew.nanos) :
    ¬ t.SingleUse (Memory Key) := by
  intro hsingle
  have honce := hsingle (tolerating t h) (bothEnds t) settings unsigned (second 1000) "n1"
    usualSignature (tolerant t h) rfl rfl (bothEnds_chronological h) isUsual usual_result rfl
  exact refused_at_finish h honce (accepted_at_finish h hl)

end Sample

/-- Tolerances without a warning make requests single-use exactly if nonces live as long as the
signatures and twice the clock skew. -/
theorem Tolerances.singleUse_iff {t : Tolerances} (h : t.warnings = []) :
    (∀ (ω ε : Type) [ClientStore ω Key ε] [NonceStore ω ε] [RemembersNonces ω ε]
      [KeepsNonces ω Key ε ε], t.SingleUse ω) ↔
      (Duration.ofSeconds 300).nanos + 2 * t.clockSkew.nanos ≤ t.nonceLifetime.nanos := by
  constructor
  · intro hsingle
    by_contra hshort
    exact Sample.not_singleUse h (Nat.lt_of_not_le hshort) (hsingle (Memory Key) _)
  · intro hle ω ε _ _ _ _
    exact singleUse_of_le hle

namespace Sample

/-- The tolerances for production are among those that fall short. -/
theorem production_falls_short :
    Tolerances.production.warnings = [] ∧
      ¬ ∀ (ω ε : Type) [ClientStore ω Key ε] [NonceStore ω ε] [RemembersNonces ω ε]
        [KeepsNonces ω Key ε ε], Tolerances.production.SingleUse ω := by
  have hnone : Tolerances.production.warnings = [] := by decide
  refine ⟨hnone, fun hsingle => ?_⟩
  have hle := (Tolerances.singleUse_iff hnone).mp hsingle
  exact absurd hle (by decide)

/-- It takes more than the absence of warnings to make requests single-use. -/
theorem warnings_miss_replays :
    ¬ ∀ t : Tolerances, t.warnings = [] → t.SingleUse (Memory Key) := by
  intro hclaim
  have hnone : Tolerances.production.warnings = [] := by decide
  exact not_singleUse hnone (by decide) (hclaim _ hnone)

/-- Two minutes more than the signatures live, which is twice the clock skew. -/
def enough : Tolerances := .ofSeconds 60 420

theorem enough_warnings : enough.warnings = [] := by decide

/-- With a nonce that lives long enough, only the first of both requests is accepted. -/
theorem once_at_both_ends :
    AcceptedOnce ((tolerating enough enough_warnings).history (bothEnds enough)) usual.request
        (tolerant enough enough_warnings) ∧
      ((tolerating enough enough_warnings).verify (clocks (start enough)) usual.request).1 =
        .ok (.accepted usualSignature (tolerant enough enough_warnings)) ∧
      (((tolerating enough enough_warnings).verify (clocks (start enough)) usual.request).2.verify
        (clocks (finish enough)) usual.request).1 ≠
        .ok (.accepted usualSignature (tolerant enough enough_warnings)) := by
  have hfirst := accepted_at_start enough_warnings
  obtain ⟨hread, -⟩ := (Verifier.standard_accepted_iff rfl).mp hfirst
  have honce := (stores_accept_once (κ := Key)).1 (ClientTable Key) Empty
    (tolerating enough enough_warnings) rfl (bothEnds enough)
    (bothEnds_chronological enough_warnings) usual.request usualSignature
    (tolerant enough enough_warnings) hread
    ⟨"n1", second 1000, second 1300, rfl, rfl, rfl, by decide⟩
  exact ⟨honce, hfirst, refused_at_finish enough_warnings honce⟩

end Sample

end SignedHttp
