import SignedHttp.Proofs.Results
import SignedHttp.Proofs.Store.Clients
import SignedHttp.Proofs.Store.Table
import SignedHttp.Store.Memory

namespace SignedHttp

variable {ω σ τ κ δ ε : Type}

namespace Instant

variable {s t u : Instant}

theorem le_trans (h : s ≤ t) (k : t ≤ u) : s ≤ u := Int.le_trans h k

theorem not_lt : ¬ s < t ↔ t ≤ s := Int.not_lt

theorem seconds_le (h : s ≤ t) : s.seconds ≤ t.seconds := by
  have hn : s.nanos ≤ t.nanos := h
  unfold seconds
  omega

end Instant

/-- Types of stores that remember a nonce until it expires. Below, `now` is the time at which an
operation runs, and it is not after the time `t` that is asked about. -/
class RemembersNonces (ω : Type) (ε : outParam Type) [NonceStore ω ε] where
  /-- Whether the nonce with a key counts as used at a time. -/
  Remembers : ω → String × String → Instant → Prop
  earlier {s : ω} {key : String × String} {t u : Instant} :
    Remembers s key u → t ≤ u → Remembers s key t
  /-- Whether the store is in order, so that a registration cannot fail. -/
  Ready : ω → Prop
  new {n : Nonce} {now : Instant} {s : ω} :
    Ready s → ¬ Remembers s n.key now → (NonceStore.tryRegister n now s).1 = .ok true
  /-- A nonce is new only if it is not remembered, and is remembered from then on. -/
  registered {n : Nonce} {now : Instant} {s s' : ω} :
    NonceStore.tryRegister n now s = (.ok true, s') →
      ¬ Remembers s n.key now ∧ Remembers s' n.key n.expiration
  /-- A used nonce changes nothing. -/
  refused {n : Nonce} {now : Instant} {s s' : ω} :
    NonceStore.tryRegister n now s = (.ok false, s') → s' = s
  afterTryRegister {n : Nonce} {now t : Instant} {s : ω} {key : String × String} :
    Remembers s key t → now ≤ t → Remembers (NonceStore.tryRegister n now s).2 key t
  afterPurge {now t : Instant} {s : ω} {key : String × String} :
    Remembers s key t → now ≤ t → Remembers (NonceStore.purge now s).2 key t

export RemembersNonces (Remembers Ready)

/-- Types of stores in which the registration of a client makes no nonce forgotten. -/
class KeepsNonces (ω : Type) (κ δ ε : outParam Type) [ClientStore ω κ δ] [NonceStore ω ε]
    [RemembersNonces ω ε] : Prop where
  afterClient {c : Client κ} {s : ω} {key : String × String} {t : Instant} :
    Remembers s key t → Remembers (ClientStore.register c s).2 key t

namespace NonceTable

variable {s : NonceTable} {n : Nonce} {key : String × String} {now t : Instant}

theorem live_iff :
    s.live key now = true ↔ ∃ n, s.nonces.find? key = some n ∧ now ≤ n.expiration := by
  unfold live
  cases s.nonces.find? key with
  | none => simp
  | some n => simp [Nonce.expired, Instant.not_lt]

theorem live_earlier (h : s.live key t = true) (ht : now ≤ t) : s.live key now = true := by
  obtain ⟨n, hf, hn⟩ := live_iff.mp h
  exact live_iff.mpr ⟨n, hf, Instant.le_trans ht hn⟩

theorem live_put_self (n : Nonce) (t : Instant) (s : NonceTable) :
    (s.put n).live n.key t = !n.expired t := by
  rw [live, put, Table.find?_put_self]
  rfl

theorem live_put_other (h : key ≠ n.key) : (s.put n).live key t = s.live key t := by
  rw [live, put, Table.find?_put_other _ _ h]
  rfl

theorem live_purged (h : now ≤ t) : (s.purged now).live key t = s.live key t := by
  rw [Bool.eq_iff_iff, live_iff, live_iff]
  refine exists_congr (fun n => ?_)
  rw [purged, Table.find?_filter_iff, and_assoc]
  refine and_congr_right (fun _ => ?_)
  simpa [Nonce.expired, Instant.not_lt] using Instant.le_trans h

theorem tryRegister_eq (n : Nonce) (now : Instant) (s : NonceTable) :
    NonceStore.tryRegister n now s =
      if s.live n.key now then (.ok false, s) else (.ok true, s.put n) := rfl

instance : RemembersNonces NonceTable Empty where
  Remembers s key t := s.live key t = true
  earlier h ht := live_earlier h ht
  Ready _ := True
  new _ hl := by
    rw [tryRegister_eq, if_neg hl]
  registered {n now s s'} h := by
    rw [tryRegister_eq] at h
    split at h
    · cases h
    · next hl =>
      cases h
      exact ⟨hl, live_iff.mpr ⟨_, Table.find?_put_self .., Int.le_refl _⟩⟩
  refused h := by
    rw [tryRegister_eq] at h
    split at h
    · cases h
      rfl
    · cases h
  afterTryRegister {n now t s key} h ht := by
    rw [tryRegister_eq]
    split
    · exact h
    · next hl =>
      have hk : key ≠ n.key := by
        rintro rfl
        exact hl (live_earlier h ht)
      exact (live_put_other hk).trans h
  afterPurge h ht := (live_purged ht).trans h

end NonceTable

namespace Archive

variable {n : Nonce} {key : String × String} {now t : Instant} {db db' : Database}
  {rows : Table (String × String) Int}

theorem live_of_nonces (h : db'.nonces = db.nonces) : live key t db' = live key t db := by
  rw [live, live, Database.nonce?, Database.nonce?, Database.nonceRows, Database.nonceRows, h]

theorem live_of_some (h : db.nonces = some rows) :
    live key t db = .ok ((rows.find? key).any (fun second => t.seconds ≤ second)) := by
  rw [live, Database.nonce?, Database.nonceRows, h]
  rfl

theorem live_of_none (h : db.nonces = none) : live key t db = .error (.noTable "nonces") := by
  rw [live, Database.nonce?, Database.nonceRows, h]
  rfl

theorem live_iff :
    live key now db = .ok true ↔
      ∃ rows second, db.nonces = some rows ∧ rows.find? key = some second ∧
        now.seconds ≤ second := by
  cases hr : db.nonces with
  | none => simp [live_of_none hr]
  | some rows =>
    rw [live_of_some hr]
    cases hf : rows.find? key with
    | none => simp [hf]
    | some second => simp [hf]

theorem live_earlier (h : live key t db = .ok true) (ht : now ≤ t) :
    live key now db = .ok true := by
  obtain ⟨rows, second, hr, hf, hs⟩ := live_iff.mp h
  exact live_iff.mpr ⟨rows, second, hr, hf, Int.le_trans (Instant.seconds_le ht) hs⟩

theorem putUnlessLive_of_none (h : db.nonces = none) (n : Nonce) (now : Instant) :
    putUnlessLive n now db = (.error (.noTable "nonces"), db) := by
  rw [putUnlessLive, live_of_none h]

open Classical in
theorem putUnlessLive_of_some (h : db.nonces = some rows) (n : Nonce) (now : Instant) :
    putUnlessLive n now db =
      if live n.key now db = .ok true then (.ok false, db)
      else (.ok true, { db with nonces := some (rows.put n.key n.expiration.seconds) }) := by
  rw [putUnlessLive, live_of_some h]
  cases (rows.find? n.key).any (fun second => now.seconds ≤ second) with
  | true => simp
  | false => simp [Database.putNonce, Database.nonceRows, h, Except.map]

theorem putUnlessLive_fst (n : Nonce) (now : Instant) (db : Database) :
    (putUnlessLive n now db).1 = (live n.key now db).map (fun used => !used) := by
  cases hr : db.nonces with
  | none =>
    rw [putUnlessLive_of_none hr, live_of_none hr]
    rfl
  | some rows =>
    rw [putUnlessLive_of_some hr, live_of_some hr]
    cases (rows.find? n.key).any (fun second => now.seconds ≤ second) <;> simp [Except.map]

theorem live_putUnlessLive_self (h : live n.key now db = .ok false) :
    live n.key t (putUnlessLive n now db).2 = .ok (t.seconds ≤ n.expiration.seconds) := by
  cases hr : db.nonces with
  | none => simp [live_of_none hr] at h
  | some rows =>
    have hnew : live n.key now db ≠ .ok true := by simp [h]
    rw [putUnlessLive_of_some hr, if_neg hnew, live_of_some rfl, Table.find?_put_self]
    rfl

/-- A registration that is refused, or is for another key, makes no difference to a nonce. -/
theorem live_putUnlessLive_other (h : live n.key now db = .ok false → key ≠ n.key) :
    live key t (putUnlessLive n now db).2 = live key t db := by
  cases hr : db.nonces with
  | none => rw [putUnlessLive_of_none hr]
  | some rows =>
    rw [putUnlessLive_of_some hr]
    split
    · rfl
    · next hl =>
      have hk : key ≠ n.key := by
        rw [live_of_some hr] at h hl
        exact h (congrArg Except.ok (Bool.eq_false_iff.mpr (fun he => hl (congrArg Except.ok he))))
      rw [live_of_some rfl, live_of_some hr, Table.find?_put_other _ _ hk]

theorem live_deleteNonces (h : now ≤ t) :
    live key t (Database.deleteNonces now.seconds db).2 = live key t db := by
  cases hr : db.nonces with
  | none => rw [Database.deleteNonces, Database.nonceRows, hr]
  | some rows =>
    rw [Database.deleteNonces, Database.nonceRows, hr, live_of_some rfl, live_of_some hr]
    refine congrArg Except.ok ?_
    rw [Bool.eq_iff_iff, Option.any_eq_true, Option.any_eq_true]
    refine exists_congr (fun second => ?_)
    rw [Table.find?_filter_iff, and_assoc]
    refine and_congr_right (fun _ => ?_)
    simpa using fun hs => Int.le_trans (Instant.seconds_le h) hs

theorem findNonce_eq (client value : String) (s : Archive κ) :
    NonceStore.find? client value s =
      match s.database.nonce? (client, value) with
      | .error d => .error (.database d)
      | .ok none => .ok none
      | .ok (some second) => (readNonce client value second).map some := by
  change ((s.database.nonce? (client, value)).mapError Defect.database >>= fun found => _) = _
  rcases s.database.nonce? (client, value) with d | _ | second
  · rfl
  · rfl
  · change (readNonce client value second >>= fun n => _) = (readNonce client value second).map some
    cases readNonce client value second <;> rfl

theorem tryRegister_eq (n : Nonce) (now : Instant) (s : Archive κ) :
    NonceStore.tryRegister n now s =
      ((putUnlessLive n now s.database).1.mapError .database,
        { s with database := (putUnlessLive n now s.database).2 }) := rfl

instance : RemembersNonces (Archive κ) Defect where
  Remembers s key t := live key t s.database = .ok true
  earlier h ht := live_earlier h ht
  Ready s := ∃ rows, s.database.nonces = some rows
  new := by
    intro n now s hgiven hl
    obtain ⟨rows, hr⟩ := hgiven
    rw [tryRegister_eq, putUnlessLive_of_some hr, if_neg hl]
    rfl
  registered {n now s s'} h := by
    rw [tryRegister_eq] at h
    cases hr : s.database.nonces with
    | none => simp [putUnlessLive_of_none hr, Except.mapError] at h
    | some rows =>
      rw [putUnlessLive_of_some hr] at h
      split at h
      · simp [Except.mapError] at h
      · next hl =>
        simp only [Prod.mk.injEq] at h
        obtain ⟨-, rfl⟩ := h
        exact ⟨hl, live_iff.mpr ⟨_, _, rfl, Table.find?_put_self .., Int.le_refl _⟩⟩
  refused {n now s s'} h := by
    rw [tryRegister_eq] at h
    cases hr : s.database.nonces with
    | none => simp [putUnlessLive_of_none hr, Except.mapError] at h
    | some rows =>
      rw [putUnlessLive_of_some hr] at h
      split at h
      · simp only [Prod.mk.injEq] at h
        exact h.2.symm
      · simp [Except.mapError] at h
  afterTryRegister {n now t s key} h ht := by
    refine (live_putUnlessLive_other (fun hnew => ?_)).trans h
    rintro rfl
    cases hnew.symm.trans (live_earlier h ht)
  afterPurge h ht := (live_deleteNonces ht).trans h

/-- Clients and nonces are in different tables. -/
instance [SigningKey κ] [StorableKey κ] : KeepsNonces (Archive κ) κ Defect Defect where
  afterClient h := (live_of_nonces (register_nonces ..)).trans h

end Archive

/-- Types of stores with the standard way to register, whose other operations do what is said of
them: a nonce is found once it is put in, and an operation has an effect on no other key and on
no nonce that has not expired. -/
class StandardNonces (ω : Type) (ε : outParam Type) [NonceStore ω ε] : Prop where
  tryRegister_eq (n : Nonce) (now : Instant) (s : ω) :
    NonceStore.tryRegister n now s = registerUnlessLive NonceStore.find? NonceStore.register n now s
  find?_registered {n : Nonce} {s s' : ω} :
    NonceStore.register n s = (.ok (), s') → NonceStore.find? n.client n.value s' = .ok (some n)
  find?_other {n : Nonce} {s : ω} {client value : String} :
    (client, value) ≠ n.key →
      NonceStore.find? client value (NonceStore.register n s).2 = NonceStore.find? client value s
  find?_purged {now : Instant} {s : ω} {client value : String} {n : Nonce} :
    NonceStore.find? client value s = .ok (some n) → n.expired now = false →
      NonceStore.find? client value (NonceStore.purge now s).2 = .ok (some n)

namespace StandardNonces

variable [NonceStore ω ε] [StandardNonces ω ε]

/-- What a registration does: the look-up fails and nothing changes, a nonce that is there is
refused and nothing changes, or the nonce is put in. -/
theorem tryRegister_cases (n : Nonce) (now : Instant) (s : ω) :
    (∃ e, NonceStore.find? n.client n.value s = .error e ∧
      NonceStore.tryRegister n now s = (.error e, s)) ∨
    (∃ m, NonceStore.find? n.client n.value s = .ok (some m) ∧ now ≤ m.expiration ∧
      NonceStore.tryRegister n now s = (.ok false, s)) ∨
    ((∀ m, NonceStore.find? n.client n.value s = .ok (some m) → ¬ now ≤ m.expiration) ∧
      NonceStore.tryRegister n now s =
        ((NonceStore.register n s).1.map (fun _ => true), (NonceStore.register n s).2)) := by
  rw [tryRegister_eq, registerUnlessLive]
  cases hf : NonceStore.find? n.client n.value s with
  | error e => exact Or.inl ⟨e, rfl, rfl⟩
  | ok found =>
    right
    simp only
    split
    · next hl =>
      left
      cases found with
      | none => simp at hl
      | some m => exact ⟨m, rfl, by simpa [Nonce.expired, Instant.not_lt] using hl, rfl⟩
    · next hl =>
      right
      refine ⟨?_, ?_⟩
      · intro m hm
        cases hm
        simpa [Nonce.expired, Instant.not_lt] using hl
      · rcases NonceStore.register n s with ⟨_ | _, t⟩ <;> rfl

@[reducible]
def remembers : RemembersNonces ω ε where
  Remembers s key t := ∃ n, NonceStore.find? key.1 key.2 s = .ok (some n) ∧ t ≤ n.expiration
  earlier := by
    intro s key t u hgiven ht
    obtain ⟨n, hf, hn⟩ := hgiven
    exact ⟨n, hf, Instant.le_trans ht hn⟩
  Ready s :=
    (∀ client value, (NonceStore.find? client value s).isOk = true) ∧
      ∀ n, (NonceStore.register n s).1.isOk = true
  new := by
    intro n now s hgiven hl
    obtain ⟨hfind, hreg⟩ := hgiven
    rcases tryRegister_cases n now s with ⟨e, hf, -⟩ | ⟨m, hf, hm, -⟩ | ⟨-, he⟩
    · have hok := hfind n.client n.value
      rw [hf] at hok
      cases hok
    · exact absurd ⟨m, hf, hm⟩ hl
    · rw [he]
      have hok := hreg n
      rcases hr : (NonceStore.register n s).1 with e | u
      · rw [hr] at hok
        cases hok
      · rfl
  registered {n now s s'} h := by
    rcases tryRegister_cases n now s with ⟨e, -, he⟩ | ⟨m, -, -, he⟩ | ⟨hl, he⟩
    · simp [he] at h
    · simp [he] at h
    · rw [he] at h
      rcases hr : NonceStore.register n s with ⟨e | u, t⟩
      · simp [hr, Except.map] at h
      · simp only [hr, Except.map, Prod.mk.injEq, true_and] at h
        subst h
        refine ⟨?_, n, find?_registered hr, Int.le_refl _⟩
        intro hgiven
        obtain ⟨m, hm, hn⟩ := hgiven
        exact hl m hm hn
  refused {n now s s'} h := by
    rcases tryRegister_cases n now s with ⟨e, -, he⟩ | ⟨m, -, -, he⟩ | ⟨-, he⟩
    · simp [he] at h
    · simp only [he, Prod.mk.injEq, true_and] at h
      exact h.symm
    · rw [he] at h
      rcases hr : NonceStore.register n s with ⟨e | u, t⟩ <;> simp [hr, Except.map] at h
  afterTryRegister := by
    intro n now t s key hgiven ht
    obtain ⟨m, hm, hn⟩ := hgiven
    rcases tryRegister_cases n now s with ⟨e, -, he⟩ | ⟨_, -, -, he⟩ | ⟨hl, he⟩
    · exact ⟨m, by rw [he]; exact hm, hn⟩
    · exact ⟨m, by rw [he]; exact hm, hn⟩
    · refine ⟨m, ?_, hn⟩
      rw [he]
      by_cases hk : key = n.key
      · subst hk
        exact absurd (Instant.le_trans ht hn) (hl m hm)
      · exact (find?_other hk).trans hm
  afterPurge := by
    intro now t s key hgiven ht
    obtain ⟨m, hm, hn⟩ := hgiven
    refine ⟨m, find?_purged hm ?_, hn⟩
    simpa [Nonce.expired, Instant.not_lt] using Instant.le_trans ht hn

end StandardNonces

/-- Nonces in memory, with the standard way to register. -/
structure PlainNonces where
  table : NonceTable

instance : NonceStore PlainNonces Empty where
  register n s := (.ok (), ⟨s.table.put n⟩)
  find? client value s := NonceStore.find? client value s.table
  purge now s := ((NonceStore.purge now s.table).1, ⟨(NonceStore.purge now s.table).2⟩)
  size s := NonceStore.size s.table
  title s := NonceStore.title s.table

instance : StandardNonces PlainNonces Empty where
  tryRegister_eq _ _ _ := rfl
  find?_registered {n s s'} h := by
    obtain rfl := (Prod.mk.inj h).2
    exact congrArg Except.ok (Table.find?_put_self ..)
  find?_other hk := congrArg Except.ok (Table.find?_put_other _ _ hk)
  find?_purged hf he := by
    refine congrArg Except.ok (Table.find?_filter_iff.mpr ⟨Except.ok.inj hf, ?_⟩)
    simpa using he

/-- The standard way to register does what the table itself does. -/
theorem PlainNonces.tryRegister_eq (n : Nonce) (now : Instant) (s : NonceTable) :
    NonceStore.tryRegister n now (⟨s⟩ : PlainNonces) =
      ((NonceStore.tryRegister n now s).1, ⟨(NonceStore.tryRegister n now s).2⟩) := by
  rw [NonceTable.tryRegister_eq]
  change (if s.live n.key now then _ else _) = _
  split <;> rfl

namespace Beside

variable [ClientStore σ κ δ] [NonceStore τ ε]

theorem tryRegister_eq_ok {n : Nonce} {now : Instant} {s s' : Beside σ τ} {b : Bool}
    (h : NonceStore.tryRegister n now s = (.ok b, s')) :
    NonceStore.tryRegister n now s.nonces = (.ok b, s'.nonces) ∧ s'.clients = s.clients := by
  change Part.lift (Sum.inr : ε → δ ⊕ ε) (fun t => ({ s with nonces := t } : Beside σ τ))
    (NonceStore.tryRegister n now s.nonces) = _ at h
  rcases hr : NonceStore.tryRegister n now s.nonces with ⟨e | b, t⟩
  · simp [hr, Part.lift, Except.mapError] at h
  · simp only [hr, Part.lift, Except.mapError, Prod.mk.injEq, Except.ok.injEq] at h
    obtain ⟨rfl, rfl⟩ := h
    exact ⟨rfl, rfl⟩

variable [RemembersNonces τ ε]

instance : RemembersNonces (Beside σ τ) (δ ⊕ ε) where
  Remembers s key t := Remembers s.nonces key t
  earlier h ht := RemembersNonces.earlier h ht
  Ready s := Ready s.nonces
  new hr hl := mapError_eq_ok_iff.mpr (RemembersNonces.new hr hl)
  registered h := RemembersNonces.registered (tryRegister_eq_ok h).1
  refused {n now s s'} h := by
    obtain ⟨hn, hc⟩ := tryRegister_eq_ok h
    have he := RemembersNonces.refused hn
    cases s
    cases s'
    simp_all
  afterTryRegister h ht := RemembersNonces.afterTryRegister (n := _) h ht
  afterPurge h ht := RemembersNonces.afterPurge h ht

instance : KeepsNonces (Beside σ τ) κ (δ ⊕ ε) (δ ⊕ ε) where
  afterClient h := h

end Beside

/-- In memory a nonce is new unless one with its key is there that has not expired. -/
theorem Memory.tryRegister_iff {n : Nonce} {now : Instant} {s : Memory κ} :
    (NonceStore.tryRegister n now s).1 = .ok true ↔
      ∀ m, s.nonces.nonces.find? n.key = some m → m.expiration < now := by
  change ((NonceStore.tryRegister n now s.nonces).1.mapError Sum.inr : Except (Empty ⊕ Empty) Bool) =
    .ok true ↔ _
  rw [mapError_eq_ok_iff, NonceTable.tryRegister_eq]
  have hl : s.nonces.live n.key now = true ↔
      ∃ m, s.nonces.nonces.find? n.key = some m ∧ now ≤ m.expiration := NonceTable.live_iff
  split
  · next hlive =>
    obtain ⟨m, hf, hm⟩ := hl.mp hlive
    simp only [Except.ok.injEq, Bool.false_eq_true, false_iff]
    intro hnew
    exact Instant.not_lt.mpr hm (hnew m hf)
  · next hnot =>
    simp only [true_iff]
    intro m hf
    exact Int.not_le.mp (fun hm => hnot (hl.mpr ⟨m, hf, hm⟩))

end SignedHttp
