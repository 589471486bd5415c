import SignedHttp.Proofs.NonceLifetime
import SignedHttp.Proofs.Sending
import SignedHttp.Proofs.Store.Enrolment
import SignedHttp.Proofs.Store.Unwinding

namespace SignedHttp

variable {ω σ τ κ δ ε : Type}

/-- Clients are looked up without failure in the stores with this property, which registrations of
admitted clients keep, whether they succeed or not. -/
structure ServesClients [ClientStore σ κ δ] (admitted : Client κ → Prop) (P : σ → Prop) :
    Prop where
  find {s : σ} (id : String) : P s → ∃ found, ClientStore.find? id s = .ok found
  register {s : σ} {c : Client κ} : P s → admitted c → P (ClientStore.register c s).2

/-- Nonces are registered without failure in the stores with this property, which registrations
keep, and purges whether they fail or not. -/
structure ServesNonces [NonceStore τ ε] (P : τ → Prop) : Prop where
  tryRegister {s : τ} (n : Nonce) (now : Instant) :
    P s → ∃ b t, NonceStore.tryRegister n now s = (.ok b, t) ∧ P t
  purge {s : τ} (now : Instant) : P s → P (NonceStore.purge now s).2

/-- The stores with this property serve both. -/
structure Serves [ClientStore ω κ ε] [NonceStore ω ε] (admitted : Client κ → Prop)
    (P : ω → Prop) : Prop extends ServesClients admitted P, ServesNonces P

theorem Serves.beside [ClientStore σ κ δ] [NonceStore τ ε] {admitted : Client κ → Prop}
    {P : σ → Prop} {Q : τ → Prop} (hc : ServesClients admitted P) (hn : ServesNonces Q) :
    Serves admitted (fun s : Beside σ τ => P s.clients ∧ Q s.nonces) where
  find {s} id h := by
    obtain ⟨found, hf⟩ := hc.find id h.1
    exact ⟨found, mapError_eq_ok_iff.mpr hf⟩
  register h ha := ⟨hc.register h.1 ha, h.2⟩
  tryRegister {s} n now h := by
    obtain ⟨b, t, hr, ht⟩ := hn.tryRegister n now h.2
    refine ⟨b, { s with nonces := t }, ?_, h.1, ht⟩
    change Part.lift Sum.inr _ (NonceStore.tryRegister n now s.nonces) = _
    rw [hr]
    rfl
  purge now h := ⟨h.1, hn.purge now h.2⟩

theorem ClientTable.serves :
    ServesClients (fun _ => True) (fun _ : ClientTable κ => True) where
  find _ _ := ⟨_, rfl⟩
  register _ _ := trivial

theorem NonceTable.serves : ServesNonces (fun _ : NonceTable => True) where
  tryRegister {s} n now _ := by
    rw [NonceTable.tryRegister_eq]
    split <;> exact ⟨_, _, rfl, trivial⟩
  purge _ _ := trivial

namespace Archive

/-- The table of clients is in order, secrets are recovered, and every client can be read. -/
structure Readable (s : Archive Key) : Prop where
  inOrder : s.InOrder
  faithful : Protector.Faithful s.protector
  found : ∀ id, ∃ found, ClientStore.find? id s = .ok found

def HoldsNonces (s : Archive κ) : Prop :=
  ∃ rows, s.database.nonces = some rows

theorem Readable.register {s : Archive Key} (h : s.Readable) {c : Client Key}
    (hc : c.key.Genuine) : (ClientStore.register c s).2.Readable := by
  rcases register_cases h.inOrder c with
    ⟨-, d, hr⟩ | ⟨read, t, hread, hr, horder, hprotector, hfind⟩
  · rw [hr]
    exact h
  · rw [hr]
    refine ⟨horder, hprotector ▸ h.faithful, fun id => ?_⟩
    rw [hfind, readBack?_kept h.faithful hc hread]
    split
    · exact ⟨_, rfl⟩
    · exact h.found id

theorem Readable.of_sameClients {s t : Archive Key} (h : s.Readable) (hst : SameClients s t) :
    t.Readable where
  inOrder := by
    obtain ⟨rows, hr⟩ := h.inOrder
    exact ⟨rows, hst.1 ▸ hr⟩
  faithful := hst.2 ▸ h.faithful
  found id := hst.find?_eq id ▸ h.found id

theorem servesClients : ServesClients (fun c : Client Key => c.key.Genuine) Readable where
  find id h := h.found id
  register h hc := h.register hc

theorem servesNonces : ServesNonces (HoldsNonces (κ := κ)) where
  tryRegister {s} n now h := by
    obtain ⟨rows, hr⟩ := h
    rw [tryRegister_eq, putUnlessLive_of_some hr]
    split
    · exact ⟨_, _, rfl, rows, hr⟩
    · exact ⟨_, _, rfl, _, rfl⟩
  purge {s} now h := by
    obtain ⟨rows, hr⟩ := h
    change HoldsNonces ({ s with database := (Database.deleteNonces now.seconds s.database).2 } :
      Archive κ)
    rw [Database.deleteNonces, Database.nonceRows, hr]
    exact ⟨_, rfl⟩

theorem serves : Serves (fun c : Client Key => c.key.Genuine)
    (fun s : Archive Key => s.Readable ∧ s.HoldsNonces) where
  find id h := h.1.found id
  register {s c} h hc := by
    obtain ⟨rows, hr⟩ := h.2
    exact ⟨h.1.register hc, rows, (register_nonces c s).trans hr⟩
  tryRegister {s} n now h := by
    obtain ⟨b, t, hr, ht⟩ := servesNonces.tryRegister n now h.2
    have hsame := tryRegister_sameClients n now s
    rw [hr] at hsame
    exact ⟨b, t, hr, h.1.of_sameClients hsame, ht⟩
  purge now h :=
    ⟨h.1.of_sameClients (purge_sameClients now _), servesNonces.purge now h.2⟩

theorem readable_of_empty {s : Archive Key} (hp : Protector.Faithful s.protector)
    (h : s.database.clients = some ⟨true, .empty⟩) : s.Readable where
  inOrder := ⟨_, h⟩
  faithful := hp
  found id := ⟨none, find?_of_empty h id⟩

end Archive

namespace Attempt

variable {register : Nonce → ω → Except ε Bool × ω} {P : ω → Prop} {s : ω}

theorem nonceStep_result (hr : ∀ n s, P s → ∃ b t, register n s = (.ok b, t) ∧ P t)
    (a : Attempt κ) (hs : P s) : ∃ result t, a.nonceStep register s = (.ok result, t) ∧ P t := by
  unfold nonceStep
  cases a.nonce? with
  | none => exact ⟨none, s, rfl, hs⟩
  | some n =>
    obtain ⟨b, t, hb, ht⟩ := hr n s hs
    simp only [hb]
    cases b with
    | true => exact ⟨none, t, rfl, ht⟩
    | false => exact ⟨_, t, rfl, ht⟩

theorem run_result [SigningKey κ] (hr : ∀ n s, P s → ∃ b t, register n s = (.ok b, t) ∧ P t)
    (a : Attempt κ) (cs : List Check) (hs : P s) :
    ∃ result t, a.run register cs s = (.ok result, t) ∧ P t := by
  induction cs generalizing s with
  | nil => exact ⟨none, s, rfl, hs⟩
  | cons c cs ih =>
    have hstep : ∃ result t, a.step register c s = (.ok result, t) ∧ P t := by
      unfold step
      split
      · exact nonceStep_result hr a hs
      · exact ⟨_, s, rfl, hs⟩
    obtain ⟨result, t, hresult, ht⟩ := hstep
    rw [run, hresult]
    cases result with
    | none => exact ih ht
    | some reason => exact ⟨_, t, rfl, ht⟩

end Attempt

namespace Verifier

variable [SigningKey κ] [ClientStore ω κ ε] [NonceStore ω ε] {admitted : Client κ → Prop}
  {P : ω → Prop} {v : Verifier ω}

/-- Over a store that serves, a verification comes to a verdict. -/
theorem verify_decides (h : Serves admitted P) (hv : P v.store) (clocks : Readings)
    (r : Request) : ∃ verdict, (v.verify clocks r).1 = .ok verdict := by
  have he := verify_ends clocks r v
  generalize (v.verify clocks r).1 = result at he ⊢
  generalize (v.verify clocks r).2.store = after at he
  cases he with
  | unreadable => exact ⟨_, rfl⟩
  | lookupFailed hs hc =>
    obtain ⟨found, hf⟩ := h.find _ hv
    cases hf.symm.trans hc
  | unknown => exact ⟨_, rfl⟩
  | @failed s c _ _ hs hc hr =>
    obtain ⟨outcome, t, hrun, -⟩ :=
      Attempt.run_result (fun n _ => h.tryRegister n clocks.now) ⟨r, s, c, clocks.now⟩ v.checks hv
    cases hrun.symm.trans hr
  | rejected => exact ⟨_, rfl⟩
  | accepted => exact ⟨_, rfl⟩

theorem serve_serves (h : Serves admitted P) (hv : P v.store) {call : Call κ}
    (hcall : ∀ c, call = .register c → admitted c) : P (v.serve call).store := by
  cases call with
  | register c => exact h.register hv (hcall c rfl)
  | verify clocks r =>
    refine verify_keeps (fun n t ht => ?_) (fun t => h.purge clocks.now) hv
    obtain ⟨b, u, hr, hu⟩ := h.tryRegister n clocks.now ht
    rw [hr]
    exact hu

theorem serveAll_serves (h : Serves admitted P) (hv : P v.store) {calls : List (Call κ)}
    (hcalls : ∀ c, .register c ∈ calls → admitted c) : P (v.serveAll calls).store := by
  induction calls generalizing v with
  | nil => exact hv
  | cons call calls ih =>
    have hfirst : ∀ c, call = .register c → admitted c :=
      fun c hc => hcalls c (hc ▸ List.mem_cons_self)
    exact ih (serve_serves h hv hfirst) (fun c hm => hcalls c (List.mem_cons_of_mem _ hm))

end Verifier

/-- From such stores on, a verifier comes to a verdict on every request, at whatever time, behind
whatever registrations of admitted clients and whatever other requests. -/
def AlwaysDecides (ω κ ε : Type) [SigningKey κ] [ClientStore ω κ ε] [NonceStore ω ε]
    (new : ω → Prop) (admitted : Client κ → Prop) : Prop :=
  ∀ (v : Verifier ω) (calls : List (Call κ)), new v.store →
    (∀ c, .register c ∈ calls → admitted c) → ∀ (clocks : Readings) (r : Request),
      ∃ verdict, ((v.serveAll calls).verify clocks r).1 = .ok verdict

theorem Serves.alwaysDecides [SigningKey κ] [ClientStore ω κ ε] [NonceStore ω ε]
    {admitted : Client κ → Prop} {P new : ω → Prop} (h : Serves admitted P)
    (hnew : ∀ s, new s → P s) : AlwaysDecides ω κ ε new admitted :=
  fun _ _ hv hcalls clocks r =>
    Verifier.verify_decides h (Verifier.serveAll_serves h (hnew _ hv) hcalls) clocks r

/-- A new database whose protector, if there is one, recovers what it protected. -/
def Archive.NewFaithful (parts : List Schema.Part) (s : Archive κ) : Prop :=
  s.New parts ∧ Protector.Faithful s.protector

/-- No request makes a verification fail: neither in memory nor in databases, whether clients and
nonces are kept in the same way or not, and in one database or in two. -/
theorem requests_decided [SigningKey κ] :
    AlwaysDecides (Memory κ) κ (Empty ⊕ Empty) (· = .empty) (fun _ => True) ∧
    AlwaysDecides (Beside (ClientTable κ) (Archive κ)) κ (Empty ⊕ Archive.Defect)
      (fun s => s.clients = .empty ∧ s.nonces.New [.nonces]) (fun _ => True) ∧
    AlwaysDecides (Beside (Archive Key) NonceTable) Key (Archive.Defect ⊕ Empty)
      (fun s => s.clients.NewFaithful [.clients] ∧ s.nonces = .empty)
      (fun c => c.key.Genuine) ∧
    AlwaysDecides (Beside (Archive Key) (Archive Key)) Key (Archive.Defect ⊕ Archive.Defect)
      (fun s => s.clients.NewFaithful [.clients] ∧ s.nonces.New [.nonces])
      (fun c => c.key.Genuine) ∧
    AlwaysDecides (Archive Key) Key Archive.Defect (Archive.NewFaithful [.clients, .nonces])
      (fun c => c.key.Genuine) := by
  refine ⟨?_, ?_, ?_, ?_, ?_⟩
  · exact (Serves.beside ClientTable.serves NonceTable.serves).alwaysDecides
      (fun _ _ => ⟨trivial, trivial⟩)
  · exact (Serves.beside ClientTable.serves Archive.servesNonces).alwaysDecides
      (fun _ h => ⟨trivial, _, h.2.nonces⟩)
  · exact (Serves.beside Archive.servesClients NonceTable.serves).alwaysDecides
      (fun _ h => ⟨Archive.readable_of_empty h.1.2 h.1.1.clients, trivial⟩)
  · exact (Serves.beside Archive.servesClients Archive.servesNonces).alwaysDecides
      (fun _ h => ⟨Archive.readable_of_empty h.1.2 h.1.1.clients, _, h.2.nonces⟩)
  · exact Archive.serves.alwaysDecides
      (fun _ h => ⟨Archive.readable_of_empty h.2 h.1.both.1, _, h.1.both.2⟩)

namespace Sample

def guarded : Verifier (Archive Key) :=
  .standard (Archive.fresh guard) (second 0)

theorem guarded_new : guarded.store.NewFaithful [.clients, .nonces] :=
  ⟨Archive.fresh_new guard, guard_faithful⟩

theorem client_found :
    ClientStore.find? "client1" (guarded.serve (.register client)).store = .ok (some client) := by
  have hstored : (Archive.readBack? guard client).isSome = true :=
    (Archive.isSome_readBack? guard client).mpr ⟨by decide, rfl⟩
  obtain ⟨read, hread⟩ := Option.isSome_iff_exists.mp hstored
  have hguard : guarded.store.protector = guard := rfl
  have hgenuine : client.key.Genuine := trivial
  refine (Archive.find?_register ⟨_, guarded_new.1.both.1⟩ client "client1").trans ?_
  rw [hguard, hread, Archive.readBack?_kept guard_faithful hgenuine hread]
  rfl

theorem nonce_new (n : Nonce) (now : Instant) :
    (NonceStore.tryRegister n now (guarded.serve (.register client)).store).1 = .ok true := by
  have hnonces : (guarded.serve (.register client)).store.database.nonces = some .empty :=
    (Archive.register_nonces client guarded.store).trans guarded_new.1.both.2
  rw [Archive.tryRegister_eq, Archive.putUnlessLive_fst, Archive.live_of_some hnonces]
  rfl

/-- Behind a registration, a request that is accepted and its replay, all requests still get a
verdict. -/
theorem guarded_decides :
    ((guarded.serve (.register client)).verify (readings 1000) Place.parameter.sent).1 =
        .ok (.accepted Place.parameter.signature client) ∧
      ∀ (clocks : Readings) (r : Request), ∃ verdict,
        ((guarded.serveAll [.register client, call 1000, call 1001]).verify clocks r).1 =
          .ok verdict := by
  refine ⟨parameter_accepted rfl rfl client_found (by decide) (by decide) (nonce_new ..), ?_⟩
  obtain ⟨-, -, -, -, harchive⟩ := requests_decided (κ := Key)
  refine harchive guarded _ guarded_new (fun c hc => ?_)
  obtain rfl : c = client := by simpa [call] using hc
  trivial

end Sample

end SignedHttp
