import SignedHttp.Proofs.NonceLifetime
import SignedHttp.Proofs.Sending
import SignedHttp.Proofs.Store.Enrolment
import SignedHttp.Proofs.Store.Unwinding

namespace SignedHttp

variable {ω σ τ κ δ ε : Type}

namespace Verifier

variable [SigningKey κ] [ClientStore ω κ ε] [NonceStore ω ε]

def registered? (v : Verifier ω) : Call κ → Option (Client κ)
  | .register c => if (ClientStore.register c v.store).1.isOk then some c else none
  | .verify .. => none

/-- The clients that are registered in a run, in order. -/
def registered (v : Verifier ω) : List (Call κ) → List (Client κ)
  | [] => []
  | call :: calls => (v.registered? call).toList ++ (v.serve call).registered calls

end Verifier

/-- In a store with this property, a registration that succeeds leaves under the id of the client
what is kept of it, and all else leaves each client as it was. -/
structure HoldsClients [ClientStore σ κ δ] (P : σ → Prop) (Kept : Client κ → Client κ → Prop) :
    Prop where
  register {s : σ} (c : Client κ) : P s → P (ClientStore.register c s).2
  found {s : σ} {c d : Client κ} {id : String} :
    P s → ClientStore.find? id (ClientStore.register c s).2 = .ok (some d) →
      ((ClientStore.register c s).1.isOk = true ∧ id = c.id ∧ Kept c d) ∨
      (¬ ((ClientStore.register c s).1.isOk = true ∧ id = c.id) ∧
        ClientStore.find? id s = .ok (some d))

/-- Beside that, nonces are registered and purged without any effect on the clients. -/
structure HoldsIdentities [ClientStore ω κ ε] [NonceStore ω ε] (P : ω → Prop)
    (Kept : Client κ → Client κ → Prop) : Prop extends HoldsClients P Kept where
  tryRegister {s : ω} (n : Nonce) (now : Instant) : P s → P (NonceStore.tryRegister n now s).2 ∧
    ∀ id, ClientStore.find? id (NonceStore.tryRegister n now s).2 = ClientStore.find? id s
  purge {s : ω} (now : Instant) : P s → P (NonceStore.purge now s).2 ∧
    ∀ id, ClientStore.find? id (NonceStore.purge now s).2 = ClientStore.find? id s

theorem HoldsClients.beside [ClientStore σ κ δ] [NonceStore τ ε] {P : σ → Prop}
    {Kept : Client κ → Client κ → Prop} (h : HoldsClients P Kept) :
    HoldsIdentities (fun s : Beside σ τ => P s.clients) Kept where
  register c hs := h.register c hs
  found {s c d id} hs hf := by
    have hok : (ClientStore.register c s).1.isOk = (ClientStore.register c s.clients).1.isOk :=
      isOk_mapError ..
    rw [hok]
    rcases h.found hs (mapError_eq_ok_iff.mp hf) with hnew | ⟨hnot, hold⟩
    · exact Or.inl hnew
    · exact Or.inr ⟨hnot, mapError_eq_ok_iff.mpr hold⟩
  tryRegister n now hs := ⟨hs, fun _ => rfl⟩
  purge now hs := ⟨hs, fun _ => rfl⟩

theorem ClientTable.holdsClients :
    HoldsClients (fun _ : ClientTable κ => True) (fun c d => d = c) where
  register _ _ := trivial
  found {s c d id} _ hf := by
    change Except.ok ((s.clients.put c.id c).find? id) = Except.ok (some d) at hf
    have hput := Except.ok.inj hf
    by_cases hid : id = c.id
    · subst hid
      rw [Table.find?_put_self] at hput
      exact Or.inl ⟨rfl, rfl, (Option.some.inj hput).symm⟩
    · rw [Table.find?_put_other _ _ hid] at hput
      exact Or.inr ⟨fun h => hid h.2, congrArg Except.ok hput⟩

namespace Archive

/-- What a database with this protector keeps of a client: all but the private half of its key, and
the key if it can be read back. -/
def Keeps (p : Option Protector) (c d : Client Key) : Prop :=
  (∃ key, d = c.keptWith key) ∧ (Protector.Faithful p → c.key.Genuine → d = c.kept)

theorem keeps_of_readBack? {p : Option Protector} {c d : Client Key}
    (h : readBack? p c = some (.ok d)) : Keeps p c d :=
  ⟨exists_keptWith h, fun hp hc => Except.ok.inj (readBack?_kept hp hc h)⟩

theorem holdsClients (p : Option Protector) :
    HoldsClients (fun s : Archive Key => s.InOrder ∧ s.protector = p) (Keeps p) where
  register {s} c hs := ⟨hs.1.register c, (register_protector c s).trans hs.2⟩
  found {s c d id} hs hf := by
    rcases register_cases hs.1 c with
      ⟨-, e, hr⟩ | ⟨read, t, hread, hr, -, -, hfind⟩
    · rw [hr] at hf ⊢
      exact Or.inr ⟨fun h => (nomatch h.1), hf⟩
    · rw [hr] at hf ⊢
      rw [hfind] at hf
      split at hf
      · next hid =>
        obtain ⟨e, hread', he⟩ := map_eq_ok_iff.mp hf
        obtain rfl := Option.some.inj he
        exact Or.inl ⟨rfl, hid, keeps_of_readBack? (hs.2 ▸ hread' ▸ hread)⟩
      · next hid => exact Or.inr ⟨fun h => hid h.2, hf⟩

theorem holdsIdentities (p : Option Protector) :
    HoldsIdentities (fun s : Archive Key => s.InOrder ∧ s.protector = p) (Keeps p) where
  toHoldsClients := holdsClients p
  tryRegister {s} n now hs := by
    have hsame := tryRegister_sameClients n now s
    exact ⟨⟨hs.1.of_sameClients hsame, hsame.2 ▸ hs.2⟩, fun id => (hsame.find?_eq id).symm⟩
  purge {s} now hs := by
    have hsame := purge_sameClients now s
    exact ⟨⟨hs.1.of_sameClients hsame, hsame.2 ▸ hs.2⟩, fun id => (hsame.find?_eq id).symm⟩

end Archive

/-- The principal has the id and the name of the client, whatever else the client claims, and all of
its claims behind them. -/
def Principal.Names (p : Principal) (c : Client κ) : Prop :=
  p.id? = some c.id ∧ p.claim? Principal.nameKind = some c.name ∧
    p.claims = ⟨Principal.idKind, c.id⟩ :: ⟨Principal.nameKind, c.name⟩ :: c.terms.claims

theorem Principal.ofClient_names (c : Client κ) : (Principal.ofClient c).Names c :=
  ⟨rfl, rfl, rfl⟩

theorem Principal.ofClient_eq {c d : Client κ} (hid : d.id = c.id) (hname : d.name = c.name)
    (hclaims : d.terms.claims = c.terms.claims) :
    Principal.ofClient d = Principal.ofClient c := by
  rw [ofClient, ofClient, hid, hname, hclaims]

theorem Archive.Keeps.principal_eq {p : Option Protector} {c d : Client Key} (h : Keeps p c d) :
    Principal.ofClient d = Principal.ofClient c := by
  obtain ⟨⟨key, rfl⟩, -⟩ := h
  exact Principal.ofClient_eq rfl rfl c.terms.claims_inMillis

namespace Verifier

variable [SigningKey κ] [ClientStore ω κ ε] [NonceStore ω ε] {P : ω → Prop}
  {Kept : Client κ → Client κ → Prop} {v : Verifier ω} {cs : List (Client κ)}

/-- Under each id there is at most what is kept of the last of these clients. -/
def Holds (Kept : Client κ → Client κ → Prop) (s : ω) (cs : List (Client κ)) : Prop :=
  ∀ id d, ClientStore.find? id s = .ok (some d) → ∃ c, Client.last? id cs = some c ∧ Kept c d

theorem serve_holds (h : HoldsIdentities P Kept) (hv : P v.store) (hcs : Holds Kept v.store cs)
    (call : Call κ) : P (v.serve call).store ∧
      Holds Kept (v.serve call).store (cs ++ (v.registered? call).toList) := by
  cases call with
  | verify clocks r =>
    rw [registered?, Option.toList_none, List.append_nil]
    refine verify_keeps (P := fun t => P t ∧ Holds Kept t cs) (fun n t ht => ?_) (fun t ht => ?_)
      ⟨hv, hcs⟩
    · obtain ⟨hp, hsame⟩ := h.tryRegister n clocks.now ht.1
      exact ⟨hp, fun id d hf => ht.2 id d (hsame id ▸ hf)⟩
    · obtain ⟨hp, hsame⟩ := h.purge clocks.now ht.1
      exact ⟨hp, fun id d hf => ht.2 id d (hsame id ▸ hf)⟩
  | register c =>
    refine ⟨h.register c hv, fun id d hf => ?_⟩
    rw [registered?, Client.last?_append]
    rcases h.found hv hf with ⟨hok, hid, hkept⟩ | ⟨hnot, hold⟩
    · rw [if_pos hok, Option.toList_some, Client.last?_singleton, if_pos hid]
      exact ⟨c, rfl, hkept⟩
    · obtain ⟨c', hc', hkept⟩ := hcs id d hold
      refine ⟨c', ?_, hkept⟩
      split
      · next hok =>
        rw [Option.toList_some, Client.last?_singleton, if_neg (fun hid => hnot ⟨hok, hid⟩)]
        exact hc'
      · exact hc'

/-- Behind a run, it is the last of the clients that were there and of those registered in it. -/
theorem serveAll_holds (h : HoldsIdentities P Kept) (hv : P v.store)
    (hcs : Holds Kept v.store cs) (calls : List (Call κ)) :
    Holds Kept (v.serveAll calls).store (cs ++ v.registered calls) := by
  induction calls generalizing v cs with
  | nil =>
    rw [registered, List.append_nil]
    exact hcs
  | cons call calls ih =>
    obtain ⟨hp, hholds⟩ := serve_holds h hv hcs call
    rw [registered, ← List.append_assoc]
    exact ih hp hholds

theorem found_of_accepted {clocks : Readings} {r : Request} {s : Signature} {c : Client κ}
    (h : (v.verify clocks r).1 = .ok (.accepted s c)) :
    Authorization.ofRequest v.scheme r = .ok s ∧
      ClientStore.find? s.keyId v.store = .ok (some c) := by
  have he := verify_ends clocks r v
  rw [h] at he
  generalize (v.verify clocks r).2.store = after at he
  cases he with
  | accepted hs hc => exact ⟨hs, hc⟩

/-- Behind a run from a store without clients, whoever is accepted was registered last under the key
id of the signature. -/
theorem accepted_last (h : HoldsIdentities P Kept) (hv : P v.store)
    (hnone : ∀ id, ClientStore.find? id v.store = .ok none) {calls : List (Call κ)}
    {clocks : Readings} {r : Request} {s : Signature} {d : Client κ}
    (ha : ((v.serveAll calls).verify clocks r).1 = .ok (.accepted s d)) :
    Authorization.ofRequest v.scheme r = .ok s ∧
      ∃ c, Client.last? s.keyId (v.registered calls) = some c ∧ c.id = s.keyId ∧ Kept c d := by
  obtain ⟨hs, hfound⟩ := found_of_accepted ha
  have hempty : Holds Kept v.store [] := fun id d hf => nomatch (hnone id).symm.trans hf
  obtain ⟨c, hc, hkept⟩ := serveAll_holds h hv hempty calls s.keyId d hfound
  have hset : (v.serveAll calls).SetUpAs v := serveAll_setUpAs calls
  exact ⟨hset.1 ▸ hs, c, hc, Client.id_of_last? hc, hkept⟩

end Verifier

/-- From such stores on, the client that is reported of an accepted request is what is kept of the
one that was registered last under exactly the key id of the signature, and the principal is that
of it. -/
def BindsIdentity (ω κ ε : Type) [SigningKey κ] [ClientStore ω κ ε] [NonceStore ω ε]
    (new : ω → Prop) (Kept : ω → Client κ → Client κ → Prop) : Prop :=
  ∀ (v : Verifier ω) (calls : List (Call κ)) (clocks : Readings) (r : Request) (s : Signature)
    (d : Client κ), new v.store →
    ((v.serveAll calls).verify clocks r).1 = .ok (.accepted s d) →
    Authorization.ofRequest v.scheme r = .ok s ∧
      ∃ c p, Client.last? s.keyId (v.registered calls) = some c ∧ c.id = s.keyId ∧
        Kept v.store c d ∧ (Verdict.accepted s d).principal? = some p ∧ p.Names c

theorem bindsIdentity [SigningKey κ] [ClientStore ω κ ε] [NonceStore ω ε] {new : ω → Prop}
    {P : ω → ω → Prop} {Kept : ω → Client κ → Client κ → Prop}
    (h : ∀ s, HoldsIdentities (P s) (Kept s))
    (hnew : ∀ s, new s → P s s ∧ ∀ id, ClientStore.find? id s = .ok none)
    (hkept : ∀ s c d, Kept s c d → Principal.ofClient d = Principal.ofClient c) :
    BindsIdentity ω κ ε new Kept := by
  intro v calls clocks r s d hv ha
  obtain ⟨hstart, hnone⟩ := hnew v.store hv
  obtain ⟨hs, c, hc, hid, hk⟩ := Verifier.accepted_last (h v.store) hstart hnone ha
  refine ⟨hs, c, Principal.ofClient d, hc, hid, hk, rfl, ?_⟩
  rw [hkept v.store c d hk]
  exact Principal.ofClient_names c

/-- Identities are bound in memory, where clients are kept as they are, and in databases, whatever
the nonces are kept in. -/
theorem identities_bound [SigningKey κ] :
    (∀ (τ ε : Type) [NonceStore τ ε], BindsIdentity (Beside (ClientTable κ) τ) κ (Empty ⊕ ε)
      (fun s => s.clients = .empty) (fun _ c d => d = c)) ∧
    (∀ (τ ε : Type) [NonceStore τ ε],
      BindsIdentity (Beside (Archive Key) τ) Key (Archive.Defect ⊕ ε)
        (fun s => s.clients.New [.clients]) (fun s => Archive.Keeps s.clients.protector)) ∧
    BindsIdentity (Archive Key) Key Archive.Defect (Archive.New [.clients, .nonces])
      (fun s => Archive.Keeps s.protector) := by
  refine ⟨fun τ ε _ => ?_, fun τ ε _ => ?_, ?_⟩
  · refine bindsIdentity (fun _ => ClientTable.holdsClients.beside) (fun s hs => ⟨trivial, ?_⟩) ?_
    · intro id
      change (ClientStore.find? id s.clients).mapError _ = _
      rw [hs]
      rfl
    · rintro _ c d rfl
      rfl
  · refine bindsIdentity (fun s => (Archive.holdsClients s.clients.protector).beside)
      (fun s hs => ⟨⟨⟨_, hs.clients⟩, rfl⟩, fun id => ?_⟩) (fun _ _ _ hk => hk.principal_eq)
    exact mapError_eq_ok_iff.mpr (Archive.find?_of_empty hs.clients id)
  · exact bindsIdentity (fun s => Archive.holdsIdentities s.protector)
      (fun s hs => ⟨⟨⟨_, hs.both.1⟩, rfl⟩, Archive.find?_of_empty hs.both.1⟩)
      (fun _ _ _ hk => hk.principal_eq)

/-- The checks look at no more of a client than its key, its clock skew and how it escapes. -/
theorem Attempt.rejection?_ofClient [SigningKey κ] {r : Request} {s : Signature} {c d : Client κ}
    {now : Instant} (hkey : c.key = d.key) (hskew : c.clockSkew = d.clockSkew)
    (hescaping : c.terms.escaping = d.terms.escaping) (k : Check) :
    rejection? ⟨r, s, c, now⟩ k = rejection? ⟨r, s, d, now⟩ k := by
  cases k <;>
    simp only [rejection?, headersRejection?, absentHeader?, algorithmRejection?,
      mismatchRejection?, boundRejection?, creationRejection?, expirationRejection?,
      digestRejection?, stringRejection?, hkey, hskew, hescaping]

namespace Sample

/-- The client, with claims to be somebody else. -/
def pretender : Client Key :=
  { client with
    terms := { Terms.standard with
      claims := [⟨"appid", "admin"⟩, ⟨"name", "Administrator"⟩, ⟨"role", "reader"⟩] } }

def capital : Client Key :=
  ⟨"CLIENT1", "Capital", .hmac (Text.bytes "other") .sha512, .standard, by decide⟩

def blank : Verifier (Memory Key) := .standard .empty (second 0)

def registrations : List (Call Key) :=
  [.register client, .register pretender, .register capital]

theorem pretender_accepted :
    ((blank.serveAll registrations).verify (readings 1000) Place.parameter.sent).1 =
      .ok (.accepted Place.parameter.signature pretender) := by
  have haccepted : (memory.verify (readings 1000) Place.parameter.sent).1 =
      .ok (.accepted Place.parameter.signature client) :=
    parameter_accepted rfl rfl rfl (by decide) (by decide) rfl
  have hmemory : memory.checks.count .nonce = 1 := Verifier.standard_count_nonce rfl
  have hblank : (blank.serveAll registrations).checks.count .nonce = 1 :=
    Verifier.standard_count_nonce rfl
  obtain ⟨hs, -, hchecks, hnonce⟩ := (Verifier.verify_accepted_iff hmemory).mp haccepted
  refine (Verifier.verify_accepted_iff hblank).mpr ⟨hs, rfl, fun k hk => ?_, hnonce⟩
  exact (Attempt.rejection?_ofClient rfl rfl rfl k).trans (hchecks k hk)

/-- The pretender is reported under its own id and name. -/
theorem pretender_reported :
    ((blank.serveAll registrations).verify (readings 1000) Place.parameter.sent).1 =
        .ok (.accepted Place.parameter.signature pretender) ∧
      (Principal.ofClient pretender).id? = some "client1" ∧
      (Principal.ofClient pretender).claims =
        [⟨"appid", "client1"⟩, ⟨"name", "Client"⟩, ⟨"appid", "admin"⟩,
          ⟨"name", "Administrator"⟩, ⟨"role", "reader"⟩] := by
  obtain ⟨hmemory, -, -⟩ := identities_bound (κ := Key)
  obtain ⟨-, c, p, -, -, hkept, hp, hnames⟩ :=
    hmemory NonceTable Empty blank registrations (readings 1000) Place.parameter.sent
      Place.parameter.signature pretender rfl pretender_accepted
  obtain rfl : pretender = c := hkept
  obtain rfl : Principal.ofClient pretender = p := Option.some.inj hp
  exact ⟨pretender_accepted, hnames.1, hnames.2.2⟩

end Sample

end SignedHttp
