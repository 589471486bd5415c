import SignedHttp.Store.Basic

namespace SignedHttp

variable {σ τ κ δ ε : Type}

instance [ClientStore σ κ δ] [ClientStore τ κ ε] : ClientStore (σ ⊕ τ) κ (δ ⊕ ε) where
  register c
    | .inl s => Part.lift .inl .inl (ClientStore.register c s)
    | .inr t => Part.lift .inr .inr (ClientStore.register c t)
  find? id
    | .inl s => (ClientStore.find? id s).mapError .inl
    | .inr t => (ClientStore.find? id t).mapError .inr

instance [NonceStore σ δ] [NonceStore τ ε] : NonceStore (σ ⊕ τ) (δ ⊕ ε) where
  register n
    | .inl s => Part.lift .inl .inl (NonceStore.register n s)
    | .inr t => Part.lift .inr .inr (NonceStore.register n t)
  find? client value
    | .inl s => (NonceStore.find? client value s).mapError .inl
    | .inr t => (NonceStore.find? client value t).mapError .inr
  tryRegister n now
    | .inl s => Part.lift .inl .inl (NonceStore.tryRegister n now s)
    | .inr t => Part.lift .inr .inr (NonceStore.tryRegister n now t)
  purge now
    | .inl s => Part.lift .inl .inl (NonceStore.purge now s)
    | .inr t => Part.lift .inr .inr (NonceStore.purge now t)
  size
    | .inl s => (NonceStore.size s).mapError .inl
    | .inr t => (NonceStore.size t).mapError .inr
  title
    | .inl s => NonceStore.title s
    | .inr t => NonceStore.title t

end SignedHttp
