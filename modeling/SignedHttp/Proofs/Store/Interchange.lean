import SignedHttp.Proofs.NonceLifetime
import SignedHttp.Proofs.Store.Schema

namespace SignedHttp

variable {ω κ ε : Type}

namespace Instant

variable {now t : Instant}

theorem le_iff_seconds_le (h : now.wholeSeconds = now) : now ≤ t ↔ now.seconds ≤ t.seconds := by
  have hn : now.nanos - now.nanos % 1000000000 = now.nanos := congrArg nanos h
  rw [le_def, seconds, seconds]
  omega

theorem ofSeconds?_seconds (t : Instant) : ofSeconds? t.seconds = some t.wholeSeconds := by
  have hn : t.seconds * 1000000000 = t.wholeSeconds.nanos := by
    change t.nanos / 1000000000 * 1000000000 = t.nanos - t.nanos % 1000000000
    omega
  rw [ofSeconds?, hn, ofNanos?_nanos]

end Instant

/-- A call of a store of nonces. -/
inductive NonceCall where
  | register (n : Nonce)
  | tryRegister (n : Nonce) (now : Instant)
  | find (client value : String)
  | purge (now : Instant)
  | size

inductive NonceAnswer where
  | registered
  | tried (isNew : Bool)
  | found (n : Option Nonce)
  | purged (removed : Nat)
  | size (total : Nat)
  deriving DecidableEq

/-- The answer with the part of a second taken off the expiration. -/
def NonceAnswer.inSeconds : NonceAnswer → NonceAnswer
  | found n => found (n.map (fun n => { n with expiration := n.expiration.wholeSeconds }))
  | answer => answer

namespace NonceCall

def time? : NonceCall → Option Instant
  | register _ => none
  | tryRegister _ now => some now
  | find .. => none
  | purge now => some now
  | size => none

/-- The clock of a call shows a whole second. -/
def AtWholeSecond (call : NonceCall) : Prop :=
  ∀ now, call.time? = some now → now.wholeSeconds = now

variable [NonceStore ω ε]

def answer (s : ω) : NonceCall → Except ε NonceAnswer × ω
  | register n =>
    ((NonceStore.register n s).1.map (fun _ => .registered), (NonceStore.register n s).2)
  | tryRegister n now =>
    ((NonceStore.tryRegister n now s).1.map .tried, (NonceStore.tryRegister n now s).2)
  | find client value => ((NonceStore.find? client value s).map .found, s)
  | purge now => ((NonceStore.purge now s).1.map .purged, (NonceStore.purge now s).2)
  | size => ((NonceStore.size s).map .size, s)

def answers (s : ω) : List NonceCall → List (Except ε NonceAnswer)
  | [] => []
  | call :: calls => (answer s call).1 :: answers (answer s call).2 calls

end NonceCall

/-- The database holds the nonces of the table, with the seconds of their expirations. -/
structure Database.Mirrors (db : Database) (s : NonceTable) : Prop where
  rows : db.nonces = some (s.nonces.map (fun n => n.expiration.seconds))
  /-- Every nonce of the table is stored under its own key. -/
  keyed : ∀ row ∈ s.nonces.rows, row.2.key = row.1

namespace Database.Mirrors

variable {db : Database} {s : NonceTable} {now : Instant}

theorem nonceRows_eq (h : db.Mirrors s) :
    db.nonceRows = .ok (s.nonces.map (fun n => n.expiration.seconds)) := by
  rw [nonceRows, h.rows]

theorem nonce?_eq (h : db.Mirrors s) (key : String × String) :
    db.nonce? key = .ok ((s.nonces.find? key).map (fun n => n.expiration.seconds)) := by
  rw [nonce?, h.nonceRows_eq, Except.map, Table.find?_map]

theorem live_eq (h : db.Mirrors s) (hw : now.wholeSeconds = now) (key : String × String) :
    Archive.live key now db = .ok (s.live key now) := by
  rw [Archive.live, h.nonce?_eq, Except.map, NonceTable.live]
  cases s.nonces.find? key with
  | none => rfl
  | some n =>
    have hle := Instant.le_iff_seconds_le (t := n.expiration) hw
    simp [Nonce.expired, ← hle, ← Instant.not_lt]

theorem put (h : db.Mirrors s) (n : Nonce) :
    ∃ db', putNonce n.key n.expiration.seconds db = (.ok (), db') ∧ db'.Mirrors (s.put n) := by
  rw [putNonce, h.nonceRows_eq]
  refine ⟨_, rfl, congrArg some (Table.put_map ..), fun row hm => ?_⟩
  rcases Table.mem_put hm with rfl | hm
  · rfl
  · exact h.keyed row hm

theorem tryRegister (h : db.Mirrors s) (hw : now.wholeSeconds = now) (n : Nonce) :
    ∃ b s' db', NonceStore.tryRegister n now s = (.ok b, s') ∧
      Archive.putUnlessLive n now db = (.ok b, db') ∧ db'.Mirrors s' := by
  rw [NonceTable.tryRegister_eq, Archive.putUnlessLive, h.live_eq hw]
  cases s.live n.key now with
  | true => exact ⟨_, _, _, rfl, rfl, h⟩
  | false =>
    obtain ⟨db', hput, hmirrors⟩ := h.put n
    simp only [hput]
    exact ⟨_, _, _, rfl, rfl, hmirrors⟩

theorem purge (h : db.Mirrors s) (hw : now.wholeSeconds = now) :
    ∃ db', deleteNonces now.seconds db =
        (.ok (s.nonces.size - (s.purged now).nonces.size), db') ∧ db'.Mirrors (s.purged now) := by
  have hkept : (s.nonces.map (fun n => n.expiration.seconds)).filter
      (fun row => now.seconds ≤ row.2) =
      (s.purged now).nonces.map (fun n => n.expiration.seconds) := by
    refine Table.filter_map (fun row => ?_)
    have hle := Instant.le_iff_seconds_le (t := row.2.expiration) hw
    simp [Nonce.expired, ← hle, ← Instant.not_lt]
  rw [deleteNonces, h.nonceRows_eq]
  simp only [hkept, Table.size_map]
  exact ⟨_, rfl, rfl, fun row hm => h.keyed row (List.mem_of_mem_filter hm)⟩

end Database.Mirrors

namespace Archive

variable {u : Archive κ} {s : NonceTable}

theorem run_eq {α : Type} {statement : Database.Statement α}
    {result : Except Database.Defect α} {db : Database}
    (h : statement u.database = (result, db)) :
    run statement u = (result.mapError .database, { u with database := db }) := by
  rw [run, h]

theorem find?_eq (h : u.database.Mirrors s) (client value : String) :
    NonceStore.find? client value u = .ok ((s.nonces.find? (client, value)).map
      (fun n => { n with expiration := n.expiration.wholeSeconds })) := by
  rw [findNonce_eq, h.nonce?_eq]
  cases hf : s.nonces.find? (client, value) with
  | none => rfl
  | some n =>
    have hkey : n.key = (client, value) := h.keyed _ (Table.find?_eq_some_iff.mp hf)
    obtain ⟨rfl, rfl⟩ := Prod.mk.inj hkey
    simp only [Option.map_some, readNonce, Instant.ofSeconds?_seconds]
    rfl

end Archive

namespace NonceCall

/-- One call is answered alike by the table, by the table with the standard way to register and by
the database, which is a copy of the table again. -/
theorem answer_eq {u : Archive κ} {s : NonceTable} (h : u.database.Mirrors s) {call : NonceCall}
    (hw : call.AtWholeSecond) :
    ∃ a s' u', answer s call = (.ok a, s') ∧
      answer (⟨s⟩ : PlainNonces) call = (.ok a, ⟨s'⟩) ∧
      answer u call = (.ok a.inSeconds, u') ∧ u'.database.Mirrors s' := by
  cases call with
  | register n =>
    obtain ⟨db, hput, hmirrors⟩ := h.put n
    refine ⟨.registered, s.put n, { u with database := db }, rfl, rfl, ?_, hmirrors⟩
    change ((Archive.run _ u).1.map _, (Archive.run _ u).2) = _
    rw [Archive.run_eq hput]
    rfl
  | tryRegister n now =>
    obtain ⟨b, s', db, hs, hdb, hmirrors⟩ := h.tryRegister (hw now rfl) n
    refine ⟨.tried b, s', { u with database := db }, ?_, ?_, ?_, hmirrors⟩
    · rw [answer, hs]
      rfl
    · rw [answer, PlainNonces.tryRegister_eq, hs]
      rfl
    · change ((Archive.run _ u).1.map _, (Archive.run _ u).2) = _
      rw [Archive.run_eq hdb]
      rfl
  | find client value =>
    refine ⟨.found (s.nonces.find? (client, value)), s, u, rfl, rfl, ?_, h⟩
    rw [answer, Archive.find?_eq h]
    rfl
  | purge now =>
    obtain ⟨db, hpurge, hmirrors⟩ := h.purge (hw now rfl)
    refine ⟨.purged _, s.purged now, { u with database := db }, rfl, rfl, ?_, hmirrors⟩
    change ((Archive.run _ u).1.map _, (Archive.run _ u).2) = _
    rw [Archive.run_eq hpurge]
    rfl
  | size =>
    refine ⟨.size s.nonces.size, s, u, rfl, rfl, ?_, h⟩
    change ((u.database.nonceRows.map Table.size).mapError Archive.Defect.database |>.map _, u) = _
    rw [h.nonceRows_eq]
    simp only [Except.map, Except.mapError, Table.size_map]
    rfl

/-- So are any calls, one after the other. -/
theorem answers_eq {u : Archive κ} {s : NonceTable} (h : u.database.Mirrors s)
    {calls : List NonceCall} (hw : ∀ call ∈ calls, call.AtWholeSecond) :
    ∃ as : List NonceAnswer, answers s calls = as.map .ok ∧
      answers (⟨s⟩ : PlainNonces) calls = as.map .ok ∧
      answers u calls = as.map (fun a => .ok a.inSeconds) := by
  induction calls generalizing u s with
  | nil => exact ⟨[], rfl, rfl, rfl⟩
  | cons call calls ih =>
    obtain ⟨a, s', u', hs, hplain, hu, hmirrors⟩ := answer_eq h (hw call List.mem_cons_self)
    obtain ⟨as, hss, hplains, hus⟩ :=
      ih hmirrors (fun other hm => hw other (List.mem_cons_of_mem _ hm))
    refine ⟨a :: as, ?_, ?_, ?_⟩
    · rw [answers, hs, hss, List.map_cons]
    · rw [answers, hplain, hplains, List.map_cons]
    · rw [answers, hu, hus, List.map_cons]

/-- From empty stores on, the table, the table with the standard way to register and the database
give the same answers, but for the part of a second of the expirations that are found. -/
theorem answers_interchangeable {u : Archive κ} (hu : u.database.nonces = some .empty)
    {calls : List NonceCall} (hw : ∀ call ∈ calls, call.AtWholeSecond) :
    ∃ as : List NonceAnswer, answers NonceTable.empty calls = as.map .ok ∧
      answers (⟨.empty⟩ : PlainNonces) calls = as.map .ok ∧
      answers u calls = as.map (fun a => .ok a.inSeconds) := by
  have hempty : u.database.Mirrors .empty := ⟨hu, fun _ hm => absurd hm List.not_mem_nil⟩
  exact answers_eq hempty hw

end NonceCall

namespace Sample

def expiring (value : String) (expiration : Instant) : Nonce :=
  ⟨"client1", value, expiration⟩

def millis (n : Int) : Instant := .clamped (n * 1000000)

/-- Calls with expirations half a second before and one and a half seconds behind the start of
1970, and with the first and the last of all. -/
def nonceCalls : List NonceCall :=
  [.tryRegister (expiring "before" (millis (-500))) (millis (-1000)),
    .tryRegister (expiring "before" .latest) (millis (-1000)),
    .tryRegister (expiring "before" (millis (-500))) (millis 0),
    .register (expiring "behind" (millis 1500)),
    .tryRegister (expiring "behind" .latest) (millis 1000),
    .find "client1" "behind",
    .register (expiring "first" .earliest),
    .find "client1" "first",
    .register (expiring "last" .latest),
    .purge (millis 1000),
    .find "client1" "before",
    .tryRegister (expiring "behind" .latest) (millis 2000),
    .size]

def nonceAnswers : List NonceAnswer :=
  [.tried true, .tried false, .tried true, .registered, .tried false,
    .found (some (expiring "behind" (millis 1500))), .registered,
    .found (some (expiring "first" .earliest)), .registered, .purged 2, .found none, .tried true,
    .size 2]

theorem nonceCalls_whole : ∀ call ∈ nonceCalls, call.AtWholeSecond := by
  unfold NonceCall.AtWholeSecond
  decide

theorem nonceCalls_answered :
    NonceCall.answers NonceTable.empty nonceCalls = nonceAnswers.map .ok := by
  decide

/-- The other stores answer as the table does; the database says whole seconds. -/
theorem stores_answer :
    NonceCall.answers (⟨.empty⟩ : PlainNonces) nonceCalls = nonceAnswers.map .ok ∧
      NonceCall.answers (Archive.fresh none : Archive Key) nonceCalls =
        nonceAnswers.map (fun a => .ok a.inSeconds) ∧
      (NonceAnswer.found (some (expiring "behind" (millis 1500)))).inSeconds =
        .found (some (expiring "behind" (millis 1000))) := by
  have hempty : (Archive.fresh none : Archive Key).database.nonces = some .empty := by
    rw [Archive.fresh_eq]
  obtain ⟨as, hs, hplain, hu⟩ := NonceCall.answers_interchangeable hempty nonceCalls_whole
  obtain rfl : as = nonceAnswers :=
    List.map_injective_iff.mpr (fun _ _ => Except.ok.inj) (hs.symm.trans nonceCalls_answered)
  exact ⟨hplain, hu, by decide⟩

end Sample

end SignedHttp
