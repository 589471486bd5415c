import SignedHttp.Client
import SignedHttp.Nonce

namespace SignedHttp

/-- Types of stores of clients, which are kept by their ids. -/
class ClientStore (ω : Type) (κ ε : outParam Type) where
  /-- Puts a client in the place of one with the same id. -/
  register : Client κ → ω → Except ε Unit × ω
  find? : String → ω → Except ε (Option (Client κ))

/-- The standard way to register a nonce: it is looked for, and put in unless one with its key is
found that has not expired. -/
def registerUnlessLive {ω ε : Type} (find? : String → String → ω → Except ε (Option Nonce))
    (register : Nonce → ω → Except ε Unit × ω) (n : Nonce) (now : Instant) (s : ω) :
    Except ε Bool × ω :=
  match find? n.client n.value s with
  | .error e => (.error e, s)
  | .ok found =>
    if found.any (fun m => !m.expired now) then (.ok false, s)
    else
      match register n s with
      | (.error e, s) => (.error e, s)
      | (.ok (), s) => (.ok true, s)

/-- Types of stores of nonces, which are kept by client and value. -/
class NonceStore (ω : Type) (ε : outParam Type) where
  /-- Puts a nonce in the place of one with the same key. -/
  register : Nonce → ω → Except ε Unit × ω
  /-- The stored nonce, expired or not. -/
  find? : String → String → ω → Except ε (Option Nonce)
  /-- Registers a nonce and says so, unless one with its key is stored that has not expired. -/
  tryRegister : Nonce → Instant → ω → Except ε Bool × ω := registerUnlessLive find? register
  /-- Removes the expired nonces and counts them. -/
  purge : Instant → ω → Except ε Nat × ω
  size : ω → Except ε Nat
  title : ω → String

def clientNotFound (id : String) : Fault :=
  ⟨.clientNotFound, id⟩

/-- The result of an operation on a part, put back into the whole. -/
def Part.lift {ε δ α σ τ : Type} (cause : ε → δ) (put : σ → τ) (result : Except ε α × σ) :
    Except δ α × τ :=
  (result.1.mapError cause, put result.2)

/-- A store of clients and a store of nonces that know nothing of each other. -/
structure Beside (σ τ : Type) where
  clients : σ
  nonces : τ

namespace Beside

variable {σ τ κ δ ε : Type}

instance [ClientStore σ κ δ] [NonceStore τ ε] : ClientStore (Beside σ τ) κ (δ ⊕ ε) where
  register c s :=
    Part.lift .inl (fun t => { s with clients := t }) (ClientStore.register c s.clients)
  find? id s := (ClientStore.find? id s.clients).mapError .inl

instance [ClientStore σ κ δ] [NonceStore τ ε] : NonceStore (Beside σ τ) (δ ⊕ ε) where
  register n s :=
    Part.lift .inr (fun t => { s with nonces := t }) (NonceStore.register n s.nonces)
  find? client value s := (NonceStore.find? client value s.nonces).mapError .inr
  tryRegister n now s :=
    Part.lift .inr (fun t => { s with nonces := t }) (NonceStore.tryRegister n now s.nonces)
  purge now s :=
    Part.lift .inr (fun t => { s with nonces := t }) (NonceStore.purge now s.nonces)
  size s := (NonceStore.size s.nonces).mapError .inr
  title s := NonceStore.title s.nonces

end Beside

instance : Reportable Empty where
  fault := nofun

instance {δ ε : Type} [Reportable δ] [Reportable ε] : Reportable (δ ⊕ ε) where
  fault
    | .inl d => Reportable.fault d
    | .inr e => Reportable.fault e

end SignedHttp
