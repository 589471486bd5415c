import SignedHttp.Proofs.Noninterference

namespace SignedHttp

variable {ω κ ε : Type}

/-- A store of which some purges fail. -/
structure Faltering (ω : Type) where
  store : ω
  /-- Whether the purges to come fail, one after the other. All others do not. -/
  faults : List Bool

namespace Faltering

instance [ClientStore ω κ ε] : ClientStore (Faltering ω) κ (ε ⊕ Unit) where
  register c s :=
    Part.lift .inl (fun t => { s with store := t }) (ClientStore.register c s.store)
  find? id s := (ClientStore.find? id s.store).mapError .inl

/-- A purge that fails removes nothing. -/
instance [NonceStore ω ε] : NonceStore (Faltering ω) (ε ⊕ Unit) where
  register n s := Part.lift .inl (fun t => { s with store := t }) (NonceStore.register n s.store)
  find? client value s := (NonceStore.find? client value s.store).mapError .inl
  tryRegister n now s :=
    Part.lift .inl (fun t => { s with store := t }) (NonceStore.tryRegister n now s.store)
  purge now s :=
    if s.faults.headD false then (.error (.inr ()), { s with faults := s.faults.tail })
    else Part.lift .inl (fun t => ⟨t, s.faults.tail⟩) (NonceStore.purge now s.store)
  size s := (NonceStore.size s.store).mapError .inl
  title s := NonceStore.title s.store

/-- Who cannot tell stores apart does not see either which of their purges fail. -/
theorem unwinding [ClientStore ω κ ε] [NonceStore ω ε] {mine : String → Prop}
    {R : Instant → ω → ω → Prop} (h : Unwinding mine R) :
    Unwinding mine (fun now (s t : Faltering ω) => R now s.store t.store) where
  symm hr := h.symm hr
  later hr hu := h.later hr hu
  find hr hm := congrArg (Except.mapError Sum.inl) (h.find hr hm)
  keyed hr hf := h.keyed hr (mapError_eq_ok_iff.mp hf)
  register hr hm := h.register hr hm
  registerOther hr hm := h.registerOther hr hm
  tryRegister hr hm := by
    obtain ⟨hsame, hleft⟩ := h.tryRegister hr hm
    exact ⟨congrArg (Except.mapError Sum.inl) hsame, hleft⟩
  tryRegisterOther hr hm := h.tryRegisterOther hr hm
  purge {now s t} hr := by
    change R now (if s.faults.headD false then _ else _ : Except _ Nat × Faltering ω).2.store _
    split
    · exact hr
    · exact h.purge hr

end Faltering

/-- Purges on a store are not seen from outside: two verifiers that are set up alike over the same
store, whatever their policies and whichever of their purges fail, come to the same results in
all runs with the same calls and a clock that never goes back. -/
def PurgesUnseen (ω κ ε : Type) [SigningKey κ] [ClientStore ω κ ε] [NonceStore ω ε] : Prop :=
  ∀ (v w : Verifier (Faltering ω)) (calls others : List (Call κ)), v.SetUpAs w →
    v.store.store = w.store.store → Chronological calls → List.Forall₂ Call.Same calls others →
    v.history calls = w.history others

theorem purgesUnseen [SigningKey κ] [ClientStore ω κ ε] [NonceStore ω ε]
    {R : Instant → ω → ω → Prop} (hU : Unwinding (fun _ => True) R)
    (hrefl : ∀ now s, R now s s) : PurgesUnseen ω κ ε := by
  intro v w calls others hset hstore hc hsame
  let all : Option String → Bool := fun _ => true
  have hfaltering : Unwinding (fun id => all (some id) = true)
      (fun now (s t : Faltering ω) => R now s.store t.store) := by
    simpa [all] using Faltering.unwinding hU
  have hstart : R .earliest v.store.store w.store.store := hstore ▸ hrefl _ _
  have hnow : ∀ t ∈ calls.filterMap Call.time?, Instant.earliest ≤ t :=
    fun t _ => t.earliest_le
  have hall := Verifier.history_filter hfaltering hset hstart hc hnow
    (by simpa only [all, List.filter_true] using hsame)
  simpa only [all, List.filter_true] using hall

/-- Purges are not seen with nonces in memory or in a database, whatever the clients are kept
in. -/
theorem purges_unseen [SigningKey κ] [StorableKey κ] :
    (∀ (σ δ : Type) [ClientStore σ κ δ], PurgesUnseen (Beside σ NonceTable) κ (δ ⊕ Empty)) ∧
    (∀ (σ δ : Type) [ClientStore σ κ δ],
      PurgesUnseen (Beside σ (Archive κ)) κ (δ ⊕ Archive.Defect)) ∧
    PurgesUnseen (Archive κ) κ Archive.Defect :=
  ⟨fun _ _ _ => purgesUnseen (.beside .all) (fun now s => ⟨rfl, .refl _ now s.nonces⟩),
    fun _ _ _ => purgesUnseen (.beside .all) (fun now s => ⟨rfl, .refl _ now s.nonces⟩),
    purgesUnseen (Archive.unwinding Archive.SameClients.unwinding Archive.SameClients.moved)
      (fun now s => ⟨⟨rfl, rfl⟩, .refl _ now s⟩)⟩

namespace Sample

/-- A verifier that knows the client, and a nonce of it that has long expired. -/
def tidying (policy : PurgePolicy) (faults : List Bool) : Verifier (Faltering (Memory Key)) where
  scheme := Authorization.defaultScheme
  ownChecks := none
  policy := policy
  collector := none
  store :=
    ⟨⟨⟨Table.empty.put "client1" client⟩, NonceTable.empty.put ⟨"client1", "n0", second 900⟩⟩,
      faults⟩

theorem tidying_accepted (policy : PurgePolicy) (faults : List Bool) :
    ((tidying policy faults).verify (readings 1000) Place.parameter.sent).1 =
      .ok (.accepted Place.parameter.signature client) :=
  parameter_accepted rfl rfl rfl (by decide) (by decide) rfl

/-- The one verifier never purges. The other one does so twice, and fails at first. -/
theorem tidied_unseen :
    (tidying .never []).history [call 1000, call 1301] =
        (tidying (.scripted [true, true]) [true]).history [call 1000, call 1301] ∧
      ((tidying .never []).verify (readings 1000) Place.parameter.sent).1 =
        .ok (.accepted Place.parameter.signature client) ∧
      NonceStore.size ((tidying .never []).tidy (readings 1000)).store = .ok 1 ∧
      NonceStore.size (((tidying (.scripted [true, true]) [true]).tidy (readings 1000)).tidy
        (readings 1301)).store = .ok 0 := by
  have hchronological : Chronological [call 1000, call 1301] := by
    unfold Chronological
    decide
  obtain ⟨hmemory, -, -⟩ := purges_unseen (κ := Key)
  refine ⟨hmemory (ClientTable Key) Empty _ _ _ _ ⟨rfl, rfl⟩ rfl hchronological ?_,
    tidying_accepted .never [], rfl, rfl⟩
  exact .cons (.refl _) (.cons (.refl _) .nil)

end Sample

end SignedHttp
