import SignedHttp.Proofs.Store.Remembering

namespace SignedHttp

variable {ω σ τ κ δ ε : Type} {mine : String → Prop}

theorem Instant.seconds_of_ofSeconds? {n : Int} {t : Instant} (h : ofSeconds? n = some t) :
    t.seconds = n := by
  unfold ofSeconds? ofNanos? at h
  split at h
  · obtain rfl := Option.some.inj h
    exact Int.mul_ediv_cancel n (by decide)
  · cases h

/-- Types of stores whose nonces count or do not count at a time. Below, `now` is the time at which
an operation runs, and it is not after the time `u` that is asked about. -/
class LiveNonces (ω : Type) (ε : outParam Type) [NonceStore ω ε] where
  /-- Whether a nonce with a key is stored that counts at a time. -/
  live : String × String → Instant → ω → Except ε Bool
  /-- Whether a nonce counts at a time once it is put in. -/
  counts : Nonce → Instant → Bool
  live_congr {client value : String} {u : Instant} {s t : ω} :
    NonceStore.find? client value s = NonceStore.find? client value t →
      live (client, value) u s = live (client, value) u t
  tryRegister_fst (n : Nonce) (now : Instant) (s : ω) :
    (NonceStore.tryRegister n now s).1 = (live n.key now s).map (fun used => !used)
  live_registered {n : Nonce} {now : Instant} {s : ω} (u : Instant) :
    live n.key now s = .ok false →
      live n.key u (NonceStore.tryRegister n now s).2 = .ok (counts n u)
  live_other {n : Nonce} {now : Instant} {s : ω} {key : String × String} (u : Instant) :
    (live n.key now s = .ok false → key ≠ n.key) →
      live key u (NonceStore.tryRegister n now s).2 = live key u s
  live_purge {now u : Instant} {s : ω} (key : String × String) :
    now ≤ u → live key u (NonceStore.purge now s).2 = live key u s

export LiveNonces (live counts)

namespace NonceTable

instance : LiveNonces NonceTable Empty where
  live key u s := .ok (s.live key u)
  counts n u := !n.expired u
  live_congr h := by
    rw [NonceTable.live, NonceTable.live, Except.ok.inj h]
  tryRegister_fst n now s := by
    rw [tryRegister_eq]
    cases s.live n.key now <;> rfl
  live_registered {n now s} u h := by
    rw [tryRegister_eq, Except.ok.inj h]
    exact congrArg Except.ok (live_put_self n u s)
  live_other {n now s key} u h := by
    rw [tryRegister_eq]
    cases hl : s.live n.key now with
    | true => rfl
    | false => exact congrArg Except.ok (live_put_other (h (congrArg Except.ok hl)))
  live_purge key h := congrArg Except.ok (live_purged h)

end NonceTable

namespace Archive

def stored? : Except Defect (Option Nonce) → Except Database.Defect (Option Int)
  | .ok found => .ok (found.map (fun n => n.expiration.seconds))
  | .error (.noInstant second) => .ok (some second)
  | .error (.database d) => .error d
  | .error _ => .ok none

theorem stored?_find? (client value : String) (s : Archive κ) :
    stored? (NonceStore.find? client value s) = s.database.nonce? (client, value) := by
  rw [findNonce_eq]
  rcases s.database.nonce? (client, value) with d | _ | second
  · rfl
  · rfl
  · simp only [readNonce]
    cases ht : Instant.ofSeconds? second with
    | none => rfl
    | some t => exact congrArg (fun n => Except.ok (some n)) (Instant.seconds_of_ofSeconds? ht)

instance : LiveNonces (Archive κ) Defect where
  live key u s := (live key u s.database).mapError .database
  counts n u := u.seconds ≤ n.expiration.seconds
  live_congr h := by
    rw [live, live, ← stored?_find?, ← stored?_find?, h]
  tryRegister_fst n now s := by
    rw [tryRegister_eq, putUnlessLive_fst]
    cases live n.key now s.database <;> rfl
  live_registered u h := by
    rw [tryRegister_eq, live_putUnlessLive_self (mapError_eq_ok_iff.mp h)]
    rfl
  live_other u h := by
    rw [tryRegister_eq, live_putUnlessLive_other (fun hl => h (mapError_eq_ok_iff.mpr hl))]
  live_purge key h := congrArg (Except.mapError Defect.database) (live_deleteNonces h)

end Archive

/-- From a time on, the same nonces of these clients count in both stores. -/
def CountAlike [NonceStore ω ε] [LiveNonces ω ε] (mine : String → Prop) (now : Instant)
    (s t : ω) : Prop :=
  ∀ client value u, mine client → now ≤ u → live (client, value) u s = live (client, value) u t

namespace CountAlike

variable [NonceStore ω ε] [LiveNonces ω ε] {now u : Instant} {s t : ω} {n : Nonce}

theorem refl (mine : String → Prop) (now : Instant) (s : ω) : CountAlike mine now s s :=
  fun _ _ _ _ _ => rfl

theorem symm (h : CountAlike mine now s t) : CountAlike mine now t s :=
  fun client value u hm hu => (h client value u hm hu).symm

theorem later (h : CountAlike mine now s t) (hu : now ≤ u) : CountAlike mine u s t :=
  fun client value _ hm hlater => h client value _ hm (Instant.le_trans hu hlater)

theorem of_find? (h : ∀ client value, mine client →
    NonceStore.find? client value s = NonceStore.find? client value t) :
    CountAlike mine now s t :=
  fun client value _ hm _ => LiveNonces.live_congr (h client value hm)

theorem tryRegister (h : CountAlike mine now s t) (hm : mine n.client) :
    (NonceStore.tryRegister n now s).1 = (NonceStore.tryRegister n now t).1 ∧
      CountAlike mine now (NonceStore.tryRegister n now s).2
        (NonceStore.tryRegister n now t).2 := by
  have hsame : live n.key now s = live n.key now t :=
    h n.client n.value now hm (Int.le_refl _)
  refine ⟨?_, ?_⟩
  · rw [LiveNonces.tryRegister_fst, LiveNonces.tryRegister_fst, hsame]
  · intro client value u hc hu
    by_cases hput : live n.key now t = .ok false ∧ (client, value) = n.key
    · obtain ⟨hnew, hk⟩ := hput
      rw [hk, LiveNonces.live_registered u (hsame.trans hnew), LiveNonces.live_registered u hnew]
    · have hother : live n.key now t = .ok false → (client, value) ≠ n.key :=
        fun hnew hk => hput ⟨hnew, hk⟩
      rw [LiveNonces.live_other u (hsame ▸ hother), LiveNonces.live_other u hother]
      exact h client value u hc hu

theorem tryRegisterOther (h : CountAlike mine now s t) (hm : ¬ mine n.client) :
    CountAlike mine now (NonceStore.tryRegister n now s).2 t := by
  intro client value u hc hu
  have hk : (client, value) ≠ n.key := by
    intro hk
    obtain ⟨rfl, -⟩ := Prod.mk.inj hk
    exact hm hc
  rw [LiveNonces.live_other u (fun _ => hk)]
  exact h client value u hc hu

theorem purge (h : CountAlike mine now s t) :
    CountAlike mine now (NonceStore.purge now s).2 t := by
  intro client value u hc hu
  rw [LiveNonces.live_purge _ hu]
  exact h client value u hc hu

end CountAlike

/-- Two stores of clients are related so that these clients cannot tell them apart: each is found
alike, and the relation is kept when one of them is registered in both, and when another client is
registered in one. -/
structure ClientUnwinding [ClientStore σ κ δ] (mine : String → Prop) (C : σ → σ → Prop) :
    Prop where
  symm {s t : σ} : C s t → C t s
  find {s t : σ} {id : String} :
    C s t → mine id → ClientStore.find? id s = ClientStore.find? id t
  /-- Only these clients are found under their ids. -/
  keyed {s t : σ} {id : String} {c : Client κ} :
    C s t → ClientStore.find? id s = .ok (some c) → (mine c.id ↔ mine id)
  register {s t : σ} {c : Client κ} : C s t → mine c.id →
    C (ClientStore.register c s).2 (ClientStore.register c t).2
  registerOther {s t : σ} {c : Client κ} : C s t → ¬ mine c.id →
    C (ClientStore.register c s).2 t

/-- Two stores of clients and nonces are so related, from a time on. -/
structure Unwinding [ClientStore ω κ ε] [NonceStore ω ε] (mine : String → Prop)
    (R : Instant → ω → ω → Prop) : Prop where
  symm {now : Instant} {s t : ω} : R now s t → R now t s
  later {now u : Instant} {s t : ω} : R now s t → now ≤ u → R u s t
  find {now : Instant} {s t : ω} {id : String} :
    R now s t → mine id → ClientStore.find? id s = ClientStore.find? id t
  keyed {now : Instant} {s t : ω} {id : String} {c : Client κ} :
    R now s t → ClientStore.find? id s = .ok (some c) → (mine c.id ↔ mine id)
  register {now : Instant} {s t : ω} {c : Client κ} : R now s t → mine c.id →
    R now (ClientStore.register c s).2 (ClientStore.register c t).2
  registerOther {now : Instant} {s t : ω} {c : Client κ} : R now s t → ¬ mine c.id →
    R now (ClientStore.register c s).2 t
  tryRegister {now : Instant} {s t : ω} {n : Nonce} : R now s t → mine n.client →
    (NonceStore.tryRegister n now s).1 = (NonceStore.tryRegister n now t).1 ∧
      R now (NonceStore.tryRegister n now s).2 (NonceStore.tryRegister n now t).2
  tryRegisterOther {now : Instant} {s t : ω} {n : Nonce} : R now s t → ¬ mine n.client →
    R now (NonceStore.tryRegister n now s).2 t
  purge {now : Instant} {s t : ω} : R now s t → R now (NonceStore.purge now s).2 t

/-- A store of clients and a store of nonces that know nothing of each other are related in their
parts. -/
theorem Unwinding.beside [ClientStore σ κ δ] [NonceStore τ ε] [LiveNonces τ ε]
    {C : σ → σ → Prop} (h : ClientUnwinding mine C) :
    Unwinding mine (fun now (s t : Beside σ τ) =>
      C s.clients t.clients ∧ CountAlike mine now s.nonces t.nonces) where
  symm hr := ⟨h.symm hr.1, hr.2.symm⟩
  later hr hu := ⟨hr.1, hr.2.later hu⟩
  find hr hm := congrArg (Except.mapError Sum.inl) (h.find hr.1 hm)
  keyed hr hf := h.keyed hr.1 (mapError_eq_ok_iff.mp hf)
  register hr hm := ⟨h.register hr.1 hm, hr.2⟩
  registerOther hr hm := ⟨h.registerOther hr.1 hm, hr.2⟩
  tryRegister hr hm := by
    obtain ⟨hsame, hleft⟩ := hr.2.tryRegister hm
    exact ⟨congrArg (Except.mapError Sum.inr) hsame, hr.1, hleft⟩
  tryRegisterOther hr hm := ⟨hr.1, hr.2.tryRegisterOther hm⟩
  purge hr := ⟨hr.1, hr.2.purge⟩

namespace Archive

theorem tryRegister_sameClients (n : Nonce) (now : Instant) (s : Archive κ) :
    SameClients s (NonceStore.tryRegister n now s).2 := by
  refine ⟨?_, rfl⟩
  rw [tryRegister_eq]
  cases hr : s.database.nonces with
  | none => rw [putUnlessLive_of_none hr]
  | some rows =>
    rw [putUnlessLive_of_some hr]
    split <;> rfl

theorem purge_sameClients (now : Instant) (s : Archive κ) :
    SameClients s (NonceStore.purge now s).2 := by
  refine ⟨?_, rfl⟩
  change s.database.clients = (Database.deleteNonces now.seconds s.database).2.clients
  unfold Database.deleteNonces
  cases s.database.nonceRows <;> rfl

variable [SigningKey κ] [StorableKey κ]

theorem register_live (c : Client κ) (s : Archive κ) (key : String × String) (u : Instant) :
    LiveNonces.live key u (ClientStore.register c s).2 = LiveNonces.live key u s :=
  congrArg (Except.mapError Defect.database) (live_of_nonces (register_nonces c s))

/-- Archives whose clients are related by no more than the way in which they are kept, and whose
nonces count alike. -/
theorem unwinding {C : Archive κ → Archive κ → Prop} (h : ClientUnwinding mine C)
    (hkept : ∀ {s s' t : Archive κ}, SameClients s s' → C s t → C s' t) :
    Unwinding mine (fun now s t => C s t ∧ CountAlike mine now s t) where
  symm hr := ⟨h.symm hr.1, hr.2.symm⟩
  later hr hu := ⟨hr.1, hr.2.later hu⟩
  find hr hm := h.find hr.1 hm
  keyed hr hf := h.keyed hr.1 hf
  register hr hm := by
    refine ⟨h.register hr.1 hm, fun client value u hc hu => ?_⟩
    rw [register_live, register_live]
    exact hr.2 client value u hc hu
  registerOther hr hm := by
    refine ⟨h.registerOther hr.1 hm, fun client value u hc hu => ?_⟩
    rw [register_live]
    exact hr.2 client value u hc hu
  tryRegister {now s t n} hr hm := by
    obtain ⟨hsame, hleft⟩ := hr.2.tryRegister hm
    have hfirst := hkept (tryRegister_sameClients n now s) hr.1
    have hboth := hkept (tryRegister_sameClients n now t) (h.symm hfirst)
    exact ⟨hsame, h.symm hboth, hleft⟩
  tryRegisterOther hr hm := ⟨hkept (tryRegister_sameClients ..) hr.1, hr.2.tryRegisterOther hm⟩
  purge hr := ⟨hkept (purge_sameClients ..) hr.1, hr.2.purge⟩

end Archive

theorem ClientUnwinding.all [ClientStore σ κ δ] :
    ClientUnwinding (fun _ => True) (Eq : σ → σ → Prop) where
  symm h := h.symm
  find h _ := by rw [h]
  keyed _ _ := Iff.rfl
  register h _ := by rw [h]
  registerOther _ h := absurd trivial h

namespace Archive

variable {s t : Archive κ}

theorem SameClients.moved {s' : Archive κ} (h : SameClients s s') (hr : SameClients s t) :
    SameClients s' t :=
  ⟨h.1.symm.trans hr.1, h.2.symm.trans hr.2⟩

variable [SigningKey κ] [StorableKey κ]

/-- Nobody can tell archives apart that keep the same clients in one way. -/
theorem SameClients.unwinding :
    ClientUnwinding (fun _ => True) (SameClients : Archive κ → Archive κ → Prop) where
  symm h := ⟨h.1.symm, h.2.symm⟩
  find h _ := h.find?_eq _
  keyed _ _ := Iff.rfl
  register {s t c} h _ := by
    refine ⟨?_, ?_⟩
    · rw [register_clients, register_clients, h.clientRows_eq, h.1, h.2]
    · rw [register_protector, register_protector, h.2]
  registerOther _ h := absurd trivial h

end Archive

end SignedHttp
