import SignedHttp.Proofs.Noninterference
import SignedHttp.Proofs.Store.Rows
import SignedHttp.Proofs.Store.Schema

namespace SignedHttp

variable {ω κ ε : Type} {mine : String → Prop}

namespace ClientTable

variable {s t : ClientTable κ}

/-- The tables hold the same of these clients. -/
structure AlikeFor (mine : String → Prop) (s t : ClientTable κ) : Prop where
  first : s.Keyed
  second : t.Keyed
  found : ∀ id, mine id → s.clients.find? id = t.clients.find? id

theorem alikeFor_unwinding (mine : String → Prop) :
    ClientUnwinding mine (AlikeFor (κ := κ) mine) where
  symm h := ⟨h.second, h.first, fun id hm => (h.found id hm).symm⟩
  find h hm := congrArg Except.ok (h.found _ hm)
  keyed h hf := by rw [h.first _ _ (Except.ok.inj hf)]
  register {s t c} h _ := by
    refine ⟨h.first.register c, h.second.register c, fun id hm => ?_⟩
    change (s.clients.put c.id c).find? id = (t.clients.put c.id c).find? id
    by_cases hid : id = c.id
    · subst hid
      rw [Table.find?_put_self, Table.find?_put_self]
    · rw [Table.find?_put_other _ _ hid, Table.find?_put_other _ _ hid, h.found id hm]
  registerOther {s t c} h hother := by
    refine ⟨h.first.register c, h.second, fun id hm => ?_⟩
    change (s.clients.put c.id c).find? id = _
    have hid : id ≠ c.id := fun he => hother (he ▸ hm)
    rw [Table.find?_put_other _ _ hid, h.found id hm]

end ClientTable

namespace Archive

variable [SigningKey κ] [StorableKey κ] {p q : Option Protector} {s t : Archive κ}

/-- The archives are in order, and hold the same of these clients. -/
structure AlikeFor (mine : String → Prop) (s t : Archive κ) : Prop where
  first : s.InOrder
  second : t.InOrder
  protectors : Protector.Alike s.protector t.protector
  found : ∀ id, mine id → ClientStore.find? id s = ClientStore.find? id t

theorem AlikeFor.moved {s' : Archive κ} (h : SameClients s s') (hr : AlikeFor mine s t) :
    AlikeFor mine s' t where
  first := by
    obtain ⟨rows, hr⟩ := hr.first
    exact ⟨rows, h.1 ▸ hr⟩
  second := hr.second
  protectors := h.2 ▸ hr.protectors
  found id hm := (h.find?_eq id).symm.trans (hr.found id hm)

theorem alikeFor_unwinding (mine : String → Prop) :
    ClientUnwinding mine (AlikeFor (κ := κ) mine) where
  symm h := ⟨h.second, h.first, h.protectors.symm, fun id hm => (h.found id hm).symm⟩
  find h hm := h.found _ hm
  keyed _ hf := by rw [id_of_find? hf]
  register {s t c} h _ := by
    refine ⟨h.first.register c, h.second.register c, ?_, fun id hm => ?_⟩
    · rw [register_protector, register_protector]
      exact h.protectors
    · rw [find?_register h.first, find?_register h.second, readBack?_alike h.protectors,
        h.found id hm]
  registerOther {s t c} h hother := by
    refine ⟨h.first.register c, h.second, ?_, fun id hm => ?_⟩
    · rw [register_protector]
      exact h.protectors
    · have hid : id ≠ c.id := fun he => hother (he ▸ hm)
      rw [find?_register h.first, ← h.found id hm]
      split
      · exact if_neg hid
      · rfl

end Archive

/-- Both stores hold the same of a client: itself, and its nonces. -/
def SameFor [ClientStore ω κ ε] [NonceStore ω ε] (id : String) (s t : ω) : Prop :=
  ClientStore.find? id s = ClientStore.find? id t ∧
    ∀ value, NonceStore.find? id value s = NonceStore.find? id value t

theorem SameFor.parts {σ τ δ : Type} [ClientStore σ κ δ] [NonceStore τ ε] {id : String}
    {s t : Beside σ τ} (h : SameFor id s t) :
    ClientStore.find? id s.clients = ClientStore.find? id t.clients ∧
      ∀ value, NonceStore.find? id value s.nonces = NonceStore.find? id value t.nonces :=
  ⟨eq_of_mapError (fun _ _ => Sum.inl.inj) h.1,
    fun value => eq_of_mapError (fun _ _ => Sum.inr.inj) (h.2 value)⟩

/-- The calls that concern a client: its registrations, and the requests that name it. -/
def Call.ofClient (scheme id : String) (calls : List (Call κ)) : List (Call κ) :=
  calls.filter (fun call => call.client? scheme == some id)

def Event.ofClient (scheme id : String) (events : List (Event κ ε)) : List (Event κ ε) :=
  events.filter (fun e => e.request.sender? scheme == some id)

/-- Clients are apart in a store: if two runs of verifiers that are set up alike begin with the same
of a client and have the same calls of it at the same times, then it gets the same results,
whatever other calls there are in them. -/
def ClientsApart (ω κ ε : Type) [SigningKey κ] [ClientStore ω κ ε] [NonceStore ω ε]
    (Admitted : ω → ω → Prop) : Prop :=
  ∀ (id : String) (v w : Verifier ω) (calls others : List (Call κ)), v.SetUpAs w →
    Admitted v.store w.store → SameFor id v.store w.store →
    Chronological calls → Chronological others →
    List.Forall₂ Call.Same (Call.ofClient v.scheme id calls) (Call.ofClient v.scheme id others) →
    Event.ofClient v.scheme id (v.history calls) = Event.ofClient v.scheme id (w.history others)

theorem clientsApart [SigningKey κ] [ClientStore ω κ ε] [NonceStore ω ε]
    {Admitted : ω → ω → Prop} {R : (String → Prop) → Instant → ω → ω → Prop}
    (hU : ∀ mine, Unwinding mine (R mine))
    (hstart : ∀ {mine : String → Prop} {s t : ω}, Admitted s t →
      (∀ id, mine id → SameFor id s t) → R mine .earliest s t)
    (hsecond : ∀ {s t : ω}, Admitted s t → Admitted t t) : ClientsApart ω κ ε Admitted := by
  intro id v w calls others hset hadmitted hsame hc ho hcalls
  let keep : Option String → Bool := fun sender => sender == some id
  have hmine : ∀ i, keep (some i) = true → i = id := fun i hk => by simpa [keep] using hk
  have hboth : R (fun i => keep (some i) = true) .earliest v.store w.store :=
    hstart hadmitted (fun i hi => hmine i hi ▸ hsame)
  have hone : R (fun i => keep (some i) = true) .earliest w.store w.store :=
    hstart (hsecond hadmitted) (fun _ _ => ⟨rfl, fun _ => rfl⟩)
  have hself : List.Forall₂ Call.Same (Call.ofClient w.scheme id others)
      (Call.ofClient w.scheme id others) := List.forall₂_same.mpr (fun call _ => .refl call)
  have hfirst := Verifier.history_filter (hU _) hset hboth hc (fun t _ => t.earliest_le) hcalls
  have hrest := Verifier.history_filter (hU _) (.refl w) hone ho (fun t _ => t.earliest_le) hself
  rw [← hset.1] at hrest
  exact hfirst.trans hrest.symm

/-- Clients are apart in memory, where every client is stored under its own id, and in databases
that are in order and read back secrets alike, for clients and nonces together or for each. -/
theorem clients_apart [SigningKey κ] [StorableKey κ] :
    ClientsApart (Memory κ) κ (Empty ⊕ Empty)
      (fun s t => s.clients.Keyed ∧ t.clients.Keyed) ∧
    ClientsApart (Archive κ) κ Archive.Defect
      (fun s t => s.InOrder ∧ t.InOrder ∧ Protector.Alike s.protector t.protector) ∧
    ClientsApart (Beside (Archive κ) (Archive κ)) κ (Archive.Defect ⊕ Archive.Defect)
      (fun s t => s.clients.InOrder ∧ t.clients.InOrder ∧
        Protector.Alike s.clients.protector t.clients.protector) := by
  refine ⟨?_, ?_, ?_⟩
  · refine clientsApart (fun mine => .beside (ClientTable.alikeFor_unwinding mine)) ?_
      (fun h => ⟨h.2, h.2⟩)
    intro mine s t hgiven hsame
    exact ⟨⟨hgiven.1, hgiven.2, fun id hm => Except.ok.inj (hsame id hm).parts.1⟩,
      .of_find? (fun client value hm => (hsame client hm).parts.2 value)⟩
  · refine clientsApart
      (fun mine => Archive.unwinding (Archive.alikeFor_unwinding mine) Archive.AlikeFor.moved) ?_
      (fun h => ⟨h.2.1, h.2.1, .refl _⟩)
    intro mine s t hgiven hsame
    exact ⟨⟨hgiven.1, hgiven.2.1, hgiven.2.2, fun id hm => (hsame id hm).1⟩,
      .of_find? (fun client value hm => (hsame client hm).2 value)⟩
  · refine clientsApart (fun mine => .beside (Archive.alikeFor_unwinding mine)) ?_
      (fun h => ⟨h.2.1, h.2.1, .refl _⟩)
    intro mine s t hgiven hsame
    exact ⟨⟨hgiven.1, hgiven.2.1, hgiven.2.2, fun id hm => (hsame id hm).parts.1⟩,
      .of_find? (fun client value hm => (hsame client hm).parts.2 value)⟩

namespace Sample

def neighbour : Client Key :=
  ⟨"client2", "Neighbour", client.key, .standard, by decide⟩

set_option maxRecDepth 2000 in
def neighbourField : FieldValue where
  bytes := Text.bytes <|
    "Signature keyId=\"client2\",created=1000,expires=1300," ++
      "headers=\"(request-target) (created) (expires)\",nonce=\"n1\"," ++
      "signature=\"YpxYfiN/K3ghoHmaaSlOJDZpPpIMza0PhCz4q8xH/LU=\""
  wellFormed := by decide +kernel

def copied : Request :=
  { Place.parameter.request with fields := [(authorizationName, neighbourField)] }

set_option maxRecDepth 4000 in
theorem sender_copied : copied.sender? Authorization.defaultScheme = some "client2" := by
  decide +kernel

theorem sender_unsigned :
    Place.parameter.request.sender? Authorization.defaultScheme = none := by
  decide

theorem sender_sent :
    Place.parameter.sent.sender? Authorization.defaultScheme = some "client1" := by
  rw [Request.sender?, Place.parameter.read_sent]
  rfl

def fresh : Verifier (Memory Key) := .standard .empty (second 0)

def alone : List (Call Key) := [.register client, call 1000]

/-- The same calls among those of a neighbour, and of somebody who does not sign. -/
def crowded : List (Call Key) :=
  [.register neighbour, .verify (readings 990) Place.parameter.request, .register client,
    .verify (readings 1000) copied, call 1000]

theorem ofClient_alone : Call.ofClient fresh.scheme "client1" alone = alone := by
  simp [Call.ofClient, alone, call, Call.client?, fresh, Verifier.standard, sender_sent, client]

theorem ofClient_crowded : Call.ofClient fresh.scheme "client1" crowded = alone := by
  simp [Call.ofClient, alone, crowded, call, Call.client?, fresh, Verifier.standard, sender_sent,
    sender_copied, sender_unsigned, client, neighbour]

theorem alone_accepted :
    fresh.history alone =
      [⟨second 1000, Place.parameter.sent, .ok (.accepted Place.parameter.signature client)⟩] := by
  have haccepted : ((fresh.serve (.register client)).verify (readings 1000)
      Place.parameter.sent).1 = .ok (.accepted Place.parameter.signature client) :=
    parameter_accepted rfl rfl rfl (by decide) (by decide) rfl
  change [(⟨_, _, _⟩ : Event Key _)] = _
  rw [haccepted]
  rfl

theorem chronological : Chronological alone ∧ Chronological crowded := by
  unfold Chronological
  decide

def archived (p : Option Protector) : Verifier (Archive Key) :=
  .standard (Archive.fresh p) (second 0)

theorem archived_store (p : Option Protector) : (archived p).store = Archive.fresh p := rfl

theorem archived_admitted {p q : Option Protector} (h : Protector.Alike p q) :
    (archived p).store.InOrder ∧ (archived q).store.InOrder ∧
      Protector.Alike (archived p).store.protector (archived q).store.protector := by
  rw [archived_store, archived_store, Archive.fresh_eq, Archive.fresh_eq]
  exact ⟨⟨.empty, rfl⟩, ⟨.empty, rfl⟩, h⟩

theorem archived_same (p q : Option Protector) (id : String) :
    SameFor id (archived p).store (archived q).store := by
  rw [archived_store, archived_store, Archive.fresh_eq, Archive.fresh_eq]
  refine ⟨?_, fun value => ?_⟩
  · rw [Archive.findClient_eq, Archive.findClient_eq]
    rfl
  · rw [Archive.findNonce_eq, Archive.findNonce_eq]

def passphrase : Protector where
  protect plain :=
    .ok (Protector.conceal (Protector.keyOf "passphrase") (List.replicate 12 0) plain)
  unprotect := Protector.reveal (Protector.keyOf "passphrase")

theorem passphrase_recovers : Protector.Recovers (some passphrase) := by
  have hgiven : Protector.ofPassphrase "passphrase" (fun _ => List.replicate 12 0) =
      .ok passphrase := if_neg (by decide)
  exact Protector.ofPassphrase_recovers hgiven (fun _ => rfl)

/-- In a crowd the client gets the result that it gets alone, also when its secret is kept in
another way. -/
theorem neighbour_unnoticed :
    fresh.history alone =
        [⟨second 1000, Place.parameter.sent,
          .ok (.accepted Place.parameter.signature client)⟩] ∧
      Event.ofClient fresh.scheme "client1" (fresh.history crowded) =
        Event.ofClient fresh.scheme "client1" (fresh.history alone) ∧
      Event.ofClient fresh.scheme "client1" ((archived none).history crowded) =
        Event.ofClient fresh.scheme "client1" ((archived (some passphrase)).history alone) := by
  obtain ⟨hmemory, harchive, -⟩ := clients_apart (κ := Key)
  have hcalls : List.Forall₂ Call.Same (Call.ofClient fresh.scheme "client1" crowded)
      (Call.ofClient fresh.scheme "client1" alone) := by
    rw [ofClient_crowded, ofClient_alone]
    exact List.forall₂_same.mpr (fun call _ => .refl call)
  have hprotectors : Protector.Alike none (some passphrase) :=
    Protector.recovers_none.alike passphrase_recovers
  exact ⟨alone_accepted,
    hmemory "client1" fresh fresh crowded alone (.refl _)
      ⟨ClientTable.keyed_empty, ClientTable.keyed_empty⟩ ⟨rfl, fun _ => rfl⟩ chronological.2
      chronological.1 hcalls,
    harchive "client1" (archived none) (archived (some passphrase)) crowded alone ⟨rfl, rfl⟩
      (archived_admitted hprotectors) (archived_same _ _ _) chronological.2 chronological.1 hcalls⟩

end Sample

end SignedHttp
