import SignedHttp.Proofs.Protection
import SignedHttp.Proofs.Results
import SignedHttp.Store.Archive
import SignedHttp.Store.Memory

namespace SignedHttp

variable {κ : Type}

namespace ClientTable

variable {s : ClientTable κ}

def Keyed (s : ClientTable κ) : Prop :=
  ∀ id c, s.clients.find? id = some c → c.id = id

theorem keyed_empty : (empty : ClientTable κ).Keyed := nofun

theorem Keyed.register (h : s.Keyed) (c : Client κ) : (ClientStore.register c s).2.Keyed := by
  intro id d hf
  change (s.clients.put c.id c).find? id = some d at hf
  by_cases hid : id = c.id
  · subst hid
    rw [Table.find?_put_self] at hf
    exact congrArg Client.id (Option.some.inj hf).symm
  · rw [Table.find?_put_other _ _ hid] at hf
    exact h id d hf

end ClientTable

theorem Family.ofName?_name (f : Family) : Family.ofName? f.name = some f := by
  cases f <;> decide

namespace Archive

/-- The clients of both archives are kept in one and the same way. -/
def SameClients (s t : Archive κ) : Prop :=
  s.database.clients = t.database.clients ∧ s.protector = t.protector

variable {p q : Option Protector} {s t : Archive κ}

theorem SameClients.clientRows_eq (h : SameClients s t) :
    s.database.clientRows = t.database.clientRows := by
  rw [Database.clientRows, Database.clientRows, h.1]

variable [SigningKey κ] [StorableKey κ]

theorem register_eq (c : Client κ) (s : Archive κ) :
    ClientStore.register c s =
      match storeClient s.protector c with
      | .error d => (.error d, s)
      | .ok row => run (Database.putClient c.id row) s := rfl

theorem register_clients (c : Client κ) (s : Archive κ) :
    (ClientStore.register c s).2.database.clients =
      match storeClient s.protector c, s.database.clientRows with
      | .ok row, .ok rows => some ⟨true, rows.put c.id row⟩
      | _, _ => s.database.clients := by
  rw [register_eq]
  cases storeClient s.protector c with
  | error d => rfl
  | ok row =>
    simp only [run, Database.putClient]
    cases s.database.clientRows <;> rfl

theorem register_protector (c : Client κ) (s : Archive κ) :
    (ClientStore.register c s).2.protector = s.protector := by
  rw [register_eq]
  cases storeClient s.protector c <;> rfl

theorem findClient_eq (id : String) (s : Archive κ) :
    ClientStore.find? id s =
      match s.database.client? id with
      | .error d => .error (.database d)
      | .ok none => .ok none
      | .ok (some row) => (readClient s.protector id row).map some := by
  change ((s.database.client? id).mapError Defect.database >>= fun found => _) = _
  rcases s.database.client? id with d | _ | row
  · rfl
  · rfl
  · simp only [mapError_ok, bind, Except.bind]
    rcases (readClient s.protector id row : Except Defect (Client κ)) with d | c <;> rfl

theorem find?_of_empty {s : Archive κ} (h : s.database.clients = some ⟨true, .empty⟩)
    (id : String) : ClientStore.find? id s = .ok none := by
  rw [findClient_eq, Database.client?, Database.clientRows, h]
  rfl

theorem register_nonces (c : Client κ) (s : Archive κ) :
    (ClientStore.register c s).2.database.nonces = s.database.nonces := by
  rw [register_eq]
  cases storeClient s.protector c with
  | error d => rfl
  | ok row =>
    simp only [run, Database.putClient]
    cases s.database.clientRows <;> rfl

theorem SameClients.find?_eq (h : SameClients s t) (id : String) :
    ClientStore.find? id s = ClientStore.find? id t := by
  rw [findClient_eq, findClient_eq, Database.client?, Database.client?, h.clientRows_eq, h.2]

/-- What is read back of a key once it is stored, if it can be stored. -/
def keptKey? (p : Option Protector) (k : κ) : Option (Except Defect String) :=
  let encoded := Text.Base64.encode (StorableKey.material k)
  if (family k).isSecret then (Protector.readBack? p encoded).map (Except.mapError .protection)
  else some (.ok encoded)

theorem storeKey_cases (p : Option Protector) (k : κ) :
    (keptKey? p k = none ∧ ∃ d, storeKey p k = .error d) ∨
    ∃ read key guarded, keptKey? p k = some read ∧ storeKey p k = .ok (key, guarded) ∧
      ∀ row : ClientRow, row.key = key → row.guarded = guarded →
        plainKey p (family k) row = read := by
  unfold keptKey? storeKey plainKey
  cases hs : (family k).isSecret with
  | false =>
    refine Or.inr ⟨_, Text.Base64.encode (StorableKey.material k), false, rfl, ?_, ?_⟩
    · cases p <;> rfl
    · intro row hkey _
      simp [hkey]
  | true =>
    cases p with
    | none =>
      refine Or.inr ⟨_, Text.Base64.encode (StorableKey.material k), false, rfl, rfl, ?_⟩
      intro row hkey hguarded
      simp [hkey, hguarded, Except.mapError]
    | some p =>
      simp only [Protector.readBack?]
      cases hp : p.protect (Text.Base64.encode (StorableKey.material k)) with
      | error d => exact Or.inl ⟨rfl, .protection d, rfl⟩
      | ok x =>
        refine Or.inr ⟨_, x, true, rfl, rfl, ?_⟩
        intro row hkey hguarded
        simp [hkey, hguarded]

/-- What is read back of a client once it is stored, if it can be stored. -/
def readBack? (p : Option Protector) (c : Client κ) : Option (Except Defect (Client κ)) :=
  match storeClient p c with
  | .ok row => some (readClient p c.id row)
  | .error _ => none

omit [SigningKey κ] in
theorem id_of_readClient {id : String} {row : ClientRow} {c : Client κ}
    (h : readClient p id row = .ok c) : c.id = id := by
  unfold readClient at h
  simp only [bind_eq_ok_iff, mapError_eq_ok_iff] at h
  obtain ⟨key, -, claims, -, skew, -, lifetime, -, escaping, -, hmake⟩ := h
  unfold Client.make at hmake
  split at hmake
  · cases hmake
  · cases hmake
    rfl

theorem id_of_find? {id : String} {c : Client κ} (h : ClientStore.find? id s = .ok (some c)) :
    c.id = id := by
  rw [findClient_eq] at h
  split at h
  · cases h
  · cases h
  · obtain ⟨d, hd, hsome⟩ := map_eq_ok_iff.mp h
    obtain rfl := Option.some.inj hsome
    exact id_of_readClient hd

/-- The table of clients is there, with all of its columns. -/
def InOrder (s : Archive κ) : Prop :=
  ∃ rows, s.database.clients = some ⟨true, rows⟩

omit [SigningKey κ] [StorableKey κ] in
theorem InOrder.of_sameClients (h : s.InOrder) (hst : SameClients s t) : t.InOrder := by
  obtain ⟨rows, hr⟩ := h
  exact ⟨rows, hst.1 ▸ hr⟩

/-- Behind a registration the client is found as it is read back, and every other client as
before. -/
theorem find?_register (h : s.InOrder) (c : Client κ) (id : String) :
    ClientStore.find? id (ClientStore.register c s).2 =
      match readBack? s.protector c with
      | some read => if id = c.id then read.map some else ClientStore.find? id s
      | none => ClientStore.find? id s := by
  obtain ⟨rows, hr⟩ := h
  have hrows : s.database.clientRows = .ok rows := by
    rw [Database.clientRows, hr]
    rfl
  have hclients := register_clients c s
  rw [readBack?]
  cases hstore : storeClient s.protector c with
  | error d =>
    rw [hstore] at hclients
    have hsame : SameClients s (ClientStore.register c s).2 :=
      ⟨hclients.symm, (register_protector c s).symm⟩
    exact (hsame.find?_eq id).symm
  | ok row =>
    rw [hstore, hrows] at hclients
    have hfound : (ClientStore.register c s).2.database.client? id =
        .ok ((rows.put c.id row).find? id) := by
      rw [Database.client?, Database.clientRows, hclients]
      rfl
    rw [findClient_eq, hfound, register_protector]
    by_cases hid : id = c.id
    · subst hid
      rw [Table.find?_put_self]
      exact (if_pos rfl).symm
    · rw [Table.find?_put_other _ _ hid]
      refine Eq.trans ?_ (if_neg hid).symm
      rw [findClient_eq, Database.client?, hrows]
      rfl

theorem InOrder.register (h : s.InOrder) (c : Client κ) : (ClientStore.register c s).2.InOrder := by
  obtain ⟨rows, hr⟩ := h
  unfold InOrder
  rw [register_clients]
  split
  · exact ⟨_, rfl⟩
  · exact ⟨rows, hr⟩

/-- A client that cannot be stored is refused, and nothing changes. Any other one is put in. -/
theorem register_cases (h : s.InOrder) (c : Client κ) :
    (readBack? s.protector c = none ∧ ∃ d, ClientStore.register c s = (.error d, s)) ∨
    ∃ read t, readBack? s.protector c = some read ∧ ClientStore.register c s = (.ok (), t) ∧
      t.InOrder ∧ t.protector = s.protector ∧
      ∀ id, ClientStore.find? id t =
        if id = c.id then read.map some else ClientStore.find? id s := by
  have hfind := find?_register h c
  have hprotector := register_protector c s
  have horder := h.register c
  obtain ⟨rows, hr⟩ := h
  have hrows : s.database.clientRows = .ok rows := by
    rw [Database.clientRows, hr]
    rfl
  rw [register_eq] at hfind hprotector horder ⊢
  unfold readBack? at hfind ⊢
  cases hstore : storeClient s.protector c with
  | error d => exact Or.inl ⟨rfl, d, rfl⟩
  | ok row =>
    simp only [hstore] at hfind hprotector horder
    have hresult : run (Database.putClient c.id row) s =
        (.ok (), (run (Database.putClient c.id row) s).2) := by
      simp only [run, Database.putClient, hrows]
      rfl
    exact Or.inr ⟨_, _, rfl, hresult, horder, hprotector, hfind⟩

end Archive

def Client.last? (id : String) (cs : List (Client κ)) : Option (Client κ) :=
  cs.reverse.find? (fun c => c.id = id)

theorem Client.last?_append (id : String) (cs ds : List (Client κ)) :
    last? id (cs ++ ds) = (last? id ds).or (last? id cs) := by
  rw [last?, List.reverse_append, List.find?_append]
  rfl

theorem Client.last?_singleton (id : String) (c : Client κ) :
    last? id [c] = if id = c.id then some c else none := by
  simp only [last?, List.reverse_singleton, List.find?_singleton, decide_eq_true_eq,
    eq_comm (a := id)]

theorem Client.id_of_last? {id : String} {cs : List (Client κ)} {c : Client κ}
    (h : last? id cs = some c) : c.id = id := by
  simpa using List.find?_some h

end SignedHttp
