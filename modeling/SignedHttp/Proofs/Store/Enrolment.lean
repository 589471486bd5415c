import SignedHttp.Proofs.Store.Interruption
import SignedHttp.Proofs.Store.Rows

namespace SignedHttp

/-- The data of a client that is to be registered, and how texts are protected at that time: salts
are drawn anew each time, and it may fail now and then. -/
structure Enrolment where
  id : String
  name : String
  key : Key
  terms : Terms
  protect : String → Except ProtectionDefect String

/-- A protector that protects in another way and reads back as before. -/
def Protector.protecting (protect : String → Except ProtectionDefect String)
    (p : Option Protector) : Option Protector :=
  p.map (fun p => { p with protect := protect })

namespace Enrolment

def client (e : Enrolment) : Except Client.Defect (Client Key) :=
  Client.make e.id e.name e.key e.terms

/-- The data are those of a client, its durations can be stored, and its secret can be protected if
it has to be. -/
def Admissible (p : Option Protector) (e : Enrolment) : Prop :=
  Client.defect? e.id e.name e.terms.tolerances = none ∧ e.terms.tolerances.Storable ∧
    ((family e.key).isSecret = true → p.isSome = true →
      (e.protect (Text.Base64.encode (StorableKey.material e.key))).isOk = true)

instance (p : Option Protector) (e : Enrolment) : Decidable (e.Admissible p) :=
  inferInstanceAs (Decidable (_ ∧ _ ∧ (_ → _ → _)))

/-- The key is one that can be read back, and what is protected at that time can be. -/
structure Sound (p : Option Protector) (e : Enrolment) : Prop where
  genuine : e.key.Genuine
  faithful : Protector.Faithful (Protector.protecting e.protect p)

end Enrolment

namespace Archive

def enrol (e : Enrolment) (s : Archive Key) : Except Defect Unit × Archive Key :=
  match e.client with
  | .error d => (.error (.client d), s)
  | .ok c =>
    let r := ClientStore.register c
      ({ s with protector := Protector.protecting e.protect s.protector } : Archive Key)
    (r.1, { r.2 with protector := s.protector })

def enrolAll (es : List Enrolment) (s : Archive Key) : Archive Key :=
  es.foldl (fun s e => (s.enrol e).2) s

/-- The client that is enrolled by one call, if the call succeeds. -/
def enrolled? (e : Enrolment) (s : Archive Key) : Option (Client Key) :=
  if (s.enrol e).1.isOk then e.client.toOption else none

def enrolled : List Enrolment → Archive Key → List (Client Key)
  | [], _ => []
  | e :: es, s => (s.enrolled? e).toList ++ enrolled es (s.enrol e).2

section Protecting

variable {κ : Type} [StorableKey κ] {protect : String → Except ProtectionDefect String}
  {p : Option Protector}

omit [StorableKey κ] in
theorem isSome_readBack?_protecting {plain : String} :
    (Protector.readBack? (Protector.protecting protect p) plain).isSome = true ↔
      (p.isSome = true → (protect plain).isOk = true) := by
  cases p with
  | none => simp [Protector.protecting, Protector.readBack?]
  | some p =>
    cases h : protect plain <;>
      simp [Protector.protecting, Protector.readBack?, h, Except.isOk, Except.toBool]

theorem isSome_keptKey? [SigningKey κ] (p : Option Protector) (k : κ) :
    (keptKey? p k).isSome = true ↔ ((family k).isSecret = true →
      (Protector.readBack? p (Text.Base64.encode (StorableKey.material k))).isSome = true) := by
  unfold keptKey?
  cases (family k).isSecret <;> simp

theorem readClient_protecting (id : String) (row : ClientRow) :
    readClient (Protector.protecting protect p) id row =
      (readClient p id row : Except Defect (Client κ)) := by
  have hplain : ∀ f row, plainKey (Protector.protecting protect p) f row = plainKey p f row := by
    cases p <;> exact fun _ _ => rfl
  simp only [readClient, readKey, hplain]

theorem find?_protecting [SigningKey κ] {s : Archive κ}
    (h : s.protector = Protector.protecting protect p) (id : String) :
    ClientStore.find? id s = ClientStore.find? id (⟨s.database, p⟩ : Archive κ) := by
  rw [findClient_eq, findClient_eq, h]
  simp only [readClient_protecting]

end Protecting

variable {s : Archive Key} {e : Enrolment}

theorem enrol_cases (hs : s.InOrder) (e : Enrolment) :
    (¬ e.Admissible s.protector ∧ ∃ d, s.enrol e = (.error d, s)) ∨
    ∃ c read t, e.client = .ok c ∧ e.Admissible s.protector ∧
      readBack? (Protector.protecting e.protect s.protector) c = some read ∧
      s.enrol e = (.ok (), t) ∧ t.InOrder ∧ t.protector = s.protector ∧
      ∀ id, ClientStore.find? id t =
        if id = c.id then read.map some else ClientStore.find? id s := by
  cases hv : Client.defect? e.id e.name e.terms.tolerances with
  | some d =>
    have hclient : e.client = .error d := Client.make_error hv e.key
    refine Or.inl ⟨fun ha => ?_, .client d, by rw [enrol, hclient]⟩
    cases hv.symm.trans ha.1
  | none =>
    have hclient : e.client = .ok ⟨e.id, e.name, e.key, e.terms, hv⟩ := Client.make_eq hv e.key
    generalize hc : (⟨e.id, e.name, e.key, e.terms, hv⟩ : Client Key) = c at hclient
    generalize hp : Protector.protecting e.protect s.protector = p
    have hadmissible : e.Admissible s.protector ↔ (readBack? p c).isSome = true := by
      rw [isSome_readBack?, isSome_keptKey?, ← hp, isSome_readBack?_protecting, ← hc]
      exact and_iff_right hv
    have hfound : ∀ id, ClientStore.find? id (⟨s.database, p⟩ : Archive Key) =
        ClientStore.find? id s := find?_protecting hp.symm
    rcases register_cases (s := ⟨s.database, p⟩) hs c with
      ⟨hnone, d, hr⟩ | ⟨read, t, hsome, hr, horder, hprotector, hfind⟩
    · refine Or.inl ⟨fun ha => ?_, d, ?_⟩
      · have hread := hadmissible.mp ha
        rw [hnone] at hread
        cases hread
      · rw [enrol, hclient]
        simp only [hp, hr]
    · refine Or.inr ⟨c, read, { t with protector := s.protector }, hclient, ?_, hsome, ?_, horder,
        rfl, fun id => ?_⟩
      · rw [hadmissible, hsome]
        rfl
      · rw [enrol, hclient]
        simp only [hp, hr]
      · have hback := find?_protecting (hprotector.trans hp.symm) id
        rw [← hback, hfind, hfound]

/-- Whether an enrolment succeeds depends on itself alone, not on those before it. -/
theorem enrolled_eq (hs : s.InOrder) (es : List Enrolment) :
    enrolled es s = es.filterMap (fun e =>
      if e.Admissible s.protector then e.client.toOption else none) := by
  induction es generalizing s with
  | nil => rfl
  | cons e es ih =>
    rw [enrolled, enrolled?]
    rcases enrol_cases hs e with
      ⟨hnot, d, hr⟩ | ⟨c, read, t, hclient, hadmissible, -, hr, horder, hprotector, -⟩
    · rw [hr, ih hs, List.filterMap_cons, if_neg hnot]
      rfl
    · rw [hr, ih horder, hprotector, List.filterMap_cons, if_pos hadmissible, hclient]
      rfl

theorem find?_enrol (hs : s.InOrder) (he : e.Sound s.protector) :
    (s.enrol e).2.InOrder ∧ (s.enrol e).2.protector = s.protector ∧
      ∀ id, ClientStore.find? id (s.enrol e).2 =
        match Client.last? id (s.enrolled? e).toList with
        | some c => .ok (some c.kept)
        | none => ClientStore.find? id s := by
  rcases enrol_cases hs e with
    ⟨-, d, hr⟩ | ⟨c, read, t, hclient, -, hread, hr, horder, hprotector, hfind⟩
  · have hnone : s.enrolled? e = none := by
      rw [enrolled?, hr]
      rfl
    rw [hr, hnone]
    exact ⟨hs, rfl, fun _ => rfl⟩
  · have hsome : s.enrolled? e = some c := by
      rw [enrolled?, hr, hclient]
      rfl
    have hkey : c.key = e.key := Client.key_of_make hclient
    rw [hr, hsome]
    refine ⟨horder, hprotector, fun id => ?_⟩
    rw [hfind, readBack?_kept he.faithful (hkey ▸ he.genuine) hread, Option.toList_some,
      Client.last?_singleton]
    by_cases hid : id = c.id
    · rw [if_pos hid, if_pos hid]
      rfl
    · rw [if_neg hid, if_neg hid]

/-- Behind any enrolments, the last client with an id is found as it is kept. -/
theorem find?_enrolAll (hs : s.InOrder) {es : List Enrolment}
    (hes : ∀ e ∈ es, e.Sound s.protector) :
    (s.enrolAll es).InOrder ∧ (s.enrolAll es).protector = s.protector ∧
      ∀ id, ClientStore.find? id (s.enrolAll es) =
        match Client.last? id (enrolled es s) with
        | some c => .ok (some c.kept)
        | none => ClientStore.find? id s := by
  induction es generalizing s with
  | nil => exact ⟨hs, rfl, fun _ => rfl⟩
  | cons e es ih =>
    obtain ⟨horder, hprotector, hfind⟩ := find?_enrol hs (hes e List.mem_cons_self)
    have hrest : ∀ e' ∈ es, e'.Sound (s.enrol e).2.protector := by
      rw [hprotector]
      exact fun e' hm => hes e' (List.mem_cons_of_mem _ hm)
    obtain ⟨horder, hprotector', hfind'⟩ := ih horder hrest
    refine ⟨horder, hprotector'.trans hprotector, fun id => ?_⟩
    change ClientStore.find? id ((s.enrol e).2.enrolAll es) = _
    rw [hfind', hfind, enrolled, Client.last?_append]
    cases Client.last? id (enrolled es (s.enrol e).2) <;> rfl

theorem prepared_clients {db : Database} (p : Option Protector)
    (hnew : Schema.recorded .clients db = 0) (hnone : db.clients = none) :
    (prepare .clients (⟨db, p⟩ : Archive Key)).2.database.clients = some ⟨true, .empty⟩ := by
  change (Schema.prepare .clients db).2.clients = _
  rw [Schema.prepare_unrecorded hnew (by simp [hnone]), hnone]
  rfl

/-- From the preparation of a database without clients on, and whichever clients are enrolled and
with whatever success: under every id the client is found that was enrolled last, with the public
half of its key and its durations in whole milliseconds, or none if none was; and an enrolment
succeeds if it is admissible, and changes nothing if it is not. -/
theorem clients_read_back {db : Database} {p : Option Protector}
    (hnew : Schema.recorded .clients db = 0) (hnone : db.clients = none) {es : List Enrolment}
    (hes : ∀ e ∈ es, e.Sound p) :
    let s : Archive Key := (prepare .clients ⟨db, p⟩).2
    (∀ id, ClientStore.find? id (s.enrolAll es) =
      .ok ((Client.last? id (enrolled es s)).map Client.kept)) ∧
    (∀ e, ((s.enrolAll es).enrol e).1 = .ok () ↔ e.Admissible p) ∧
    (∀ e d, ((s.enrolAll es).enrol e).1 = .error d →
      ((s.enrolAll es).enrol e).2 = s.enrolAll es) := by
  intro s
  have hclients : s.database.clients = some ⟨true, .empty⟩ := prepared_clients p hnew hnone
  obtain ⟨horder, hprotector, hfind⟩ := find?_enrolAll ⟨_, hclients⟩ hes
  refine ⟨fun id => ?_, fun e => ?_, fun e d hd => ?_⟩
  · rw [hfind, find?_of_empty hclients]
    cases Client.last? id (enrolled es s) <;> rfl
  · rcases enrol_cases horder e with ⟨hnot, d, hr⟩ | ⟨c, read, t, -, hadmissible, -, hr, -⟩
    · rw [hprotector] at hnot
      rw [hr]
      constructor
      · intro hok
        cases hok
      · exact fun ha => absurd ha hnot
    · rw [hprotector] at hadmissible
      rw [hr]
      exact ⟨fun _ => hadmissible, fun _ => rfl⟩
  · rcases enrol_cases horder e with ⟨-, d', hr⟩ | ⟨c, read, t, -, -, -, hr, -⟩
    · rw [hr]
    · rw [hr] at hd
      cases hd

end Archive

namespace Sample

def salted (salt : UInt8) (plain : String) : Except ProtectionDefect String :=
  .ok (Protector.conceal (Protector.keyOf "passphrase") (List.replicate 12 salt) plain)

def broken (_ : String) : Except ProtectionDefect String :=
  .error .noPassphrase

def guard : Option Protector :=
  some ⟨salted 0, Protector.reveal (Protector.keyOf "passphrase")⟩

theorem salted_faithful (salt : UInt8) :
    Protector.Faithful (Protector.protecting (salted salt) guard) := by
  have hgiven : Protector.ofPassphrase "passphrase" (fun _ => List.replicate 12 salt) =
      .ok ⟨salted salt, Protector.reveal (Protector.keyOf "passphrase")⟩ := if_neg (by decide)
  exact (Protector.ofPassphrase_recovers hgiven (fun _ => rfl)).faithful

theorem guard_faithful : Protector.Faithful guard := salted_faithful 0

theorem broken_faithful : Protector.Faithful (Protector.protecting broken guard) :=
  fun _ _ h => nomatch h

def finelyTimed (nonceLifetime : Duration) : Terms :=
  ⟨⟨.ofNanos 1500000, nonceLifetime⟩, .verbatim, [⟨"appid", "a \"quoted\" one\n"⟩]⟩

/-- The first client twice, the second one with a key pair, and between them one without an id, one
whose nonces last too long and one whose secret cannot be protected. -/
def enrolments : List Enrolment :=
  [⟨"client1", "First", .hmac [1, 2, 3] .sha256, .standard, salted 1⟩,
    ⟨"", "Nobody", .hmac [1] .sha256, .standard, salted 2⟩,
    ⟨"client2", "Second", .ecdsa Crypto.P256.generator (some 1) .sha512, .standard, broken⟩,
    ⟨"client1", "Forever", .hmac [4] .sha256, finelyTimed .longest, salted 3⟩,
    ⟨"client1", "First again", .hmac [5, 6] .sha1, finelyTimed (.ofSeconds 1), salted 4⟩,
    ⟨"client2", "Second again", .hmac [7] .sha256, .standard, broken⟩]

theorem enrolments_sound : ∀ e ∈ enrolments, e.Sound guard := by
  simp only [enrolments, List.forall_mem_cons]
  refine ⟨⟨trivial, salted_faithful 1⟩, ⟨trivial, salted_faithful 2⟩, ⟨?_, broken_faithful⟩,
    ⟨trivial, salted_faithful 3⟩, ⟨trivial, salted_faithful 4⟩, ⟨trivial, broken_faithful⟩, nofun⟩
  change Crypto.P256.onCurve Crypto.P256.generator = true
  decide +kernel

theorem enrolments_admissible :
    enrolments.filterMap (fun e => if e.Admissible guard then e.client.toOption else none) =
      [⟨"client1", "First", .hmac [1, 2, 3] .sha256, .standard, by decide⟩,
        ⟨"client2", "Second", .ecdsa Crypto.P256.generator (some 1) .sha512, .standard, by decide⟩,
        ⟨"client1", "First again", .hmac [5, 6] .sha1, finelyTimed (.ofSeconds 1), by decide⟩] := by
  rfl

/-- Under the first id there is the last client that was enrolled, with its clock skew rounded up;
under the second id a client without the private half of its key; and none under another case of
the first id. -/
theorem enrolments_read_back :
    let s : Archive Key := (Archive.prepare .clients ⟨.empty, guard⟩).2
    ClientStore.find? "client1" (s.enrolAll enrolments) =
      .ok (some ⟨"client1", "First again", .hmac [5, 6] .sha1,
        ⟨⟨.ofMillis 2, .ofSeconds 1⟩, .verbatim, [⟨"appid", "a \"quoted\" one\n"⟩]⟩,
        by decide⟩) ∧
    ClientStore.find? "client2" (s.enrolAll enrolments) =
      .ok (some ⟨"client2", "Second", .ecdsa Crypto.P256.generator none .sha512, .standard,
        by decide⟩) ∧
    ClientStore.find? "Client1" (s.enrolAll enrolments) = .ok none := by
  intro s
  have hnew : Schema.recorded .clients .empty = 0 := rfl
  obtain ⟨hfind, -, -⟩ := Archive.clients_read_back hnew rfl enrolments_sound
  have horder : s.InOrder := ⟨_, Archive.prepared_clients guard rfl rfl⟩
  have henrolled := (Archive.enrolled_eq horder enrolments).trans enrolments_admissible
  refine ⟨(hfind _).trans ?_, (hfind _).trans ?_, (hfind _).trans ?_⟩
  · rw [henrolled]
    rfl
  · rw [henrolled]
    rfl
  · rw [henrolled]
    rfl

end Sample

end SignedHttp
