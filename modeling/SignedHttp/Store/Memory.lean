import SignedHttp.Store.Basic
import SignedHttp.Store.Table

namespace SignedHttp

structure ClientTable (κ : Type) where
  clients : Table String (Client κ)

structure NonceTable where
  nonces : Table (String × String) Nonce

namespace ClientTable

variable {κ : Type}

def empty : ClientTable κ := ⟨.empty⟩

instance : ClientStore (ClientTable κ) κ Empty where
  register c s := (.ok (), ⟨s.clients.put c.id c⟩)
  find? id s := .ok (s.clients.find? id)

end ClientTable

namespace NonceTable

def empty : NonceTable := ⟨.empty⟩

def put (n : Nonce) (s : NonceTable) : NonceTable :=
  ⟨s.nonces.put n.key n⟩

def live (s : NonceTable) (key : String × String) (now : Instant) : Bool :=
  (s.nonces.find? key).any (fun n => !n.expired now)

def purged (s : NonceTable) (now : Instant) : NonceTable :=
  ⟨s.nonces.filter (fun row => !row.2.expired now)⟩

instance : NonceStore NonceTable Empty where
  register n s := (.ok (), s.put n)
  find? client value s := .ok (s.nonces.find? (client, value))
  tryRegister n now s := if s.live n.key now then (.ok false, s) else (.ok true, s.put n)
  purge now s := (.ok (s.nonces.size - (s.purged now).nonces.size), s.purged now)
  size s := .ok s.nonces.size
  title _ := "In-memory HashMap storage"

end NonceTable

abbrev Memory (κ : Type) : Type := Beside (ClientTable κ) NonceTable

def Memory.empty {κ : Type} : Memory κ := ⟨.empty, .empty⟩

end SignedHttp
