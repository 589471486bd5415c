import SignedHttp.Proofs.KeyMaterial
import SignedHttp.Proofs.Store.Clients
import SignedHttp.Proofs.Text.Json

namespace SignedHttp

namespace Document

theorem readBack_ofClaim (c : Claim) : (ofClaim c).ReadBack := by
  refine Json.readBack_record (fun m hm => ?_)
  rcases List.mem_cons.mp hm with rfl | hm
  · exact Json.readBack_text c.kind
  · obtain rfl := List.mem_singleton.mp hm
    exact Json.readBack_text c.value

theorem claim?_ofClaim (c : Claim) : claim? (ofClaim c) = some c := rfl

theorem mapM_claim?_ofClaim (claims : List Claim) :
    (claims.map ofClaim).mapM claim? = some claims := by
  induction claims with
  | nil => rfl
  | cons c claims ih =>
    rw [List.map_cons, List.mapM_cons, claim?_ofClaim, ih]
    rfl

theorem readClaims_writeClaims (claims : List Claim) :
    readClaims (writeClaims claims) = .ok claims := by
  have hback : (Json.array (claims.map ofClaim)).ReadBack := by
    refine Json.readBack_array (fun j hj => ?_)
    obtain ⟨c, -, rfl⟩ := List.mem_map.mp hj
    exact readBack_ofClaim c
  rw [readClaims, writeClaims, Json.read?_write hback]
  simp only [Option.bind, claims?, mapM_claim?_ofClaim]

end Document

namespace Duration

/-- The duration in whole milliseconds, a part of one counting as one. -/
def inMillis (d : Duration) : Duration :=
  .ofMillis d.millisUp

def Storable (d : Duration) : Prop :=
  d.millisUp < 0x8000000000000000

instance (d : Duration) : Decidable d.Storable :=
  inferInstanceAs (Decidable (_ < _))

theorem nanos_inMillis (d : Duration) :
    d.inMillis.nanos = min (d.millisUp * 1000000) 18446744073709551615999999999 :=
  nanos_ofNanos _

theorem isZero_inMillis (d : Duration) : d.inMillis.isZero = d.isZero := by
  rw [Bool.eq_iff_iff, isZero, isZero, beq_iff_eq, beq_iff_eq, nanos_inMillis, millisUp]
  omega

end Duration

def Tolerances.inMillis (t : Tolerances) : Tolerances :=
  ⟨t.clockSkew.inMillis, t.nonceLifetime.inMillis⟩

def Tolerances.Storable (t : Tolerances) : Prop :=
  t.clockSkew.Storable ∧ t.nonceLifetime.Storable

instance (t : Tolerances) : Decidable t.Storable :=
  inferInstanceAs (Decidable (_ ∧ _))

def Terms.inMillis (t : Terms) : Terms :=
  { t with tolerances := t.tolerances.inMillis }

theorem Terms.claims_inMillis (t : Terms) : t.inMillis.claims = t.claims := by
  -- without the parts, `rfl` would compare the tolerances as well
  cases t
  rfl

theorem Client.defect?_inMillis (id name : String) (t : Tolerances) :
    Client.defect? id name t.inMillis = Client.defect? id name t := by
  simp only [defect?, Tolerances.inMillis, Duration.isZero_inMillis]

theorem Hash.ofName?_name (h : Hash) : Hash.ofName? h.name = some h := by
  cases h <;> decide

theorem Escaping.ofOrdinal_ordinal (e : Escaping) : Escaping.ofOrdinal e.ordinal = .ok e := by
  cases e <;> rfl

namespace Client

variable {κ : Type}

theorem make_eq {id name : String} {terms : Terms} (h : defect? id name terms.tolerances = none)
    (key : κ) : make id name key terms = .ok ⟨id, name, key, terms, h⟩ := by
  unfold make
  split
  · next hd => cases h.symm.trans hd
  · rfl

theorem make_error {id name : String} {terms : Terms} {d : Defect}
    (h : defect? id name terms.tolerances = some d) (key : κ) :
    make id name key terms = .error d := by
  unfold make
  split
  · next e he => exact congrArg Except.error (Option.some.inj (he.symm.trans h))
  · next hn => cases hn.symm.trans h

theorem key_of_make {id name : String} {key : κ} {terms : Terms} {c : Client κ}
    (h : make id name key terms = .ok c) : c.key = key := by
  unfold make at h
  split at h
  · cases h
  · cases h
    rfl

def keptWith (c : Client κ) (key : κ) : Client κ :=
  ⟨c.id, c.name, key, c.terms.inMillis, (defect?_inMillis ..).trans c.valid⟩

/-- What a database keeps of a client. -/
def kept (c : Client Key) : Client Key :=
  c.keptWith c.key.publicHalf

end Client

namespace Archive

variable {κ : Type} {p : Option Protector}

theorem storeDuration_eq (what : String) (d : Duration) :
    storeDuration what d = if d.Storable then .ok d.millisUp else .error (.tooLong what d) := rfl

theorem readDuration_millisUp (what : String) (d : Duration) :
    readDuration what d.millisUp = .ok d.inMillis := by
  rw [readDuration, if_neg (Int.not_lt.mpr (Int.natCast_nonneg _)), Int.toNat_natCast]
  rfl

def keyOf [StorableKey κ] (f : Family) (h : Hash) (read : Except Defect String) :
    Except Defect κ := do
  let bytes ← (Text.Base64.decode (← read)).mapError .notBase64
  (StorableKey.ofMaterial? f h bytes).elim (.error (.malformedKey f)) .ok

theorem readKey_eq [StorableKey κ] {row : ClientRow} {f : Family} {h : Hash}
    (hf : row.algorithm = f.name) (hh : row.hash = h.name) :
    readKey p row = (keyOf f h (plainKey p f row) : Except Defect κ) := by
  rw [readKey, hf, hh, Hash.ofName?_name, Family.ofName?_name]
  simp only [keyOf]
  refine bind_congr (fun text => bind_congr (fun bytes => ?_))
  cases (StorableKey.ofMaterial? f h bytes : Option κ) <;> rfl

variable [SigningKey κ] [StorableKey κ] {c : Client κ} {text : String} {guarded : Bool}

def rowOf (c : Client κ) (key : String) (guarded : Bool) : ClientRow where
  name := c.name
  algorithm := (family c.key).name
  hash := (hash c.key).name
  key := key
  guarded := guarded
  clockSkew := c.clockSkew.millisUp
  nonceLifetime := c.nonceLifetime.millisUp
  escaping := c.terms.escaping.ordinal
  claims := Document.writeClaims c.terms.claims

theorem storeClient_eq (hs : c.terms.tolerances.Storable)
    (hk : storeKey p c.key = .ok (text, guarded)) :
    storeClient p c = .ok (rowOf c text guarded) := by
  have hskew : c.clockSkew.Storable := hs.1
  have hlifetime : c.nonceLifetime.Storable := hs.2
  rw [storeClient, hk, storeDuration_eq, if_pos hskew, storeDuration_eq, if_pos hlifetime]
  rfl

theorem storeClient_fails (h : ¬ c.terms.tolerances.Storable ∨ ∃ d, storeKey p c.key = .error d) :
    ∃ d, storeClient p c = .error d := by
  unfold storeClient
  rcases hk : storeKey p c.key with d | ⟨text, guarded⟩
  · exact ⟨d, rfl⟩
  · have hs : ¬ c.terms.tolerances.Storable := h.resolve_right (by simp [hk])
    rw [storeDuration_eq, storeDuration_eq]
    by_cases hskew : c.clockSkew.Storable
    · have hlifetime : ¬ c.nonceLifetime.Storable := fun hlifetime => hs ⟨hskew, hlifetime⟩
      rw [if_pos hskew, if_neg hlifetime]
      exact ⟨_, rfl⟩
    · rw [if_neg hskew]
      exact ⟨_, rfl⟩

theorem readClient_rowOf (p : Option Protector) (c : Client κ) (text : String) (guarded : Bool) :
    readClient p c.id (rowOf c text guarded) =
      (keyOf (family c.key) (hash c.key)
        (plainKey p (family c.key) (rowOf c text guarded))).map c.keptWith := by
  rw [readClient, readKey_eq (f := family c.key) (h := hash c.key) rfl rfl]
  rcases (keyOf (family c.key) (hash c.key) (plainKey p (family c.key) (rowOf c text guarded)) :
    Except Defect κ) with d | key
  · rfl
  · simp only [rowOf, Document.readClaims_writeClaims, readDuration_millisUp,
      Escaping.ofOrdinal_ordinal, mapError_ok]
    exact congrArg (Except.mapError Defect.client) (Client.make_eq (c.keptWith key).valid key)

/-- What is read back of a stored client is the client, with what is read back of its key. -/
theorem readBack?_eq (p : Option Protector) (c : Client κ) :
    readBack? p c =
      if c.terms.tolerances.Storable then
        (keptKey? p c.key).map (fun read =>
          (keyOf (family c.key) (hash c.key) read).map c.keptWith)
      else none := by
  rcases storeKey_cases p c.key with ⟨hkept, hfails⟩ | ⟨read, text, guarded, hkept, hstore, hread⟩
  · obtain ⟨d, hd⟩ := storeClient_fails (.inr hfails)
    rw [readBack?, hd, hkept, Option.map_none, ite_self]
  · by_cases hs : c.terms.tolerances.Storable
    · rw [readBack?, storeClient_eq hs hstore, hkept, if_pos hs, Option.map_some,
        ← hread (rowOf c text guarded) rfl rfl]
      exact congrArg some (readClient_rowOf p c text guarded)
    · obtain ⟨d, hd⟩ := storeClient_fails (p := p) (.inl hs)
      rw [readBack?, hd, if_neg hs]

theorem readBack?_alike {q : Option Protector} (h : Protector.Alike p q) (c : Client κ) :
    readBack? p c = readBack? q c := by
  have hkept : keptKey? p c.key = keptKey? q c.key := by
    simp only [keptKey?, h _]
  rw [readBack?_eq, readBack?_eq, hkept]

theorem isSome_readBack? (p : Option Protector) (c : Client κ) :
    (readBack? p c).isSome = true ↔
      c.terms.tolerances.Storable ∧ (keptKey? p c.key).isSome = true := by
  rw [readBack?_eq]
  by_cases hs : c.terms.tolerances.Storable
  · rw [if_pos hs, Option.isSome_map, and_iff_right hs]
  · rw [if_neg hs]
    exact ⟨nofun, fun h => absurd h.1 hs⟩

theorem exists_keptWith {d : Client κ} (h : readBack? p c = some (.ok d)) :
    ∃ key, d = c.keptWith key := by
  rw [readBack?_eq] at h
  split at h
  · obtain ⟨read, -, hread⟩ := Option.map_eq_some_iff.mp h
    obtain ⟨key, -, hkey⟩ := map_eq_ok_iff.mp hread
    exact ⟨key, hkey.symm⟩
  · cases h

theorem keptKey?_faithful (hp : Protector.Faithful p) {k : κ} {read : Except Defect String}
    (h : keptKey? p k = some read) :
    read = .ok (Text.Base64.encode (StorableKey.material k)) := by
  unfold keptKey? at h
  simp only at h
  split at h
  · obtain ⟨plain, hplain, rfl⟩ := Option.map_eq_some_iff.mp h
    rw [hp _ _ hplain, mapError_ok]
  · exact (Option.some.inj h).symm

theorem readBack?_kept {c : Client Key} (hp : Protector.Faithful p) (hk : c.key.Genuine)
    {read : Except Defect (Client Key)} (h : readBack? p c = some read) : read = .ok c.kept := by
  rw [readBack?_eq] at h
  split at h
  · obtain ⟨text, htext, rfl⟩ := Option.map_eq_some_iff.mp h
    have hkey : keyOf (family c.key) (hash c.key) text = .ok c.key.publicHalf := by
      rw [keptKey?_faithful hp htext, keyOf]
      simp only [bind, Except.bind, Text.Base64.decode_encode, mapError_ok,
        Key.ofMaterial?_material hk]
      rfl
    rw [hkey]
    rfl
  · cases h

end Archive

end SignedHttp
