import SignedHttp.Proofs.Checks
import SignedHttp.Proofs.Store.Remembering
import SignedHttp.Proofs.Verification

namespace SignedHttp

namespace Signature

variable {s : Signature} {f : Family} {h : Hash}

/-- The algorithm is left to the key. -/
def LeavesAlgorithm (s : Signature) : Prop :=
  ∀ given, s.algorithm = some given → Text.equalIgnoringCase given hs2019 = true

/-- The algorithm parameter is the name of a family, a hyphen, and the name of a hash. -/
def NamesAlgorithm (s : Signature) (f : Family) (h : Hash) : Prop :=
  ∃ given hashName, s.algorithm = some (given ++ "-" ++ hashName) ∧ '-' ∉ given.toList ∧
    Text.equalIgnoringCase given f.name = true ∧ Hash.ofName? hashName = some h

theorem LeavesAlgorithm.not_isDated (hl : s.LeavesAlgorithm) : s.isDated = false := by
  unfold isDated
  cases ha : s.algorithm with
  | none => rfl
  | some given =>
    simp only [Option.any_some]
    rw [Text.equalIgnoringCase_iff.mp (hl given ha)]
    decide

theorem LeavesAlgorithm.familyAndHash? (hl : s.LeavesAlgorithm) : s.familyAndHash? = none := by
  cases ha : s.algorithm with
  | none => simp [Signature.familyAndHash?, ha]
  | some given => simp [Signature.familyAndHash?, ha, hl given ha]

theorem NamesAlgorithm.isDated (hn : s.NamesAlgorithm f h) : s.isDated = true := by
  obtain ⟨given, hashName, ha, -, hf, -⟩ := hn
  have hstart : Text.lower f.name.toList ++ ['-'] ∈ datedAlgorithms := by
    cases f <;> decide
  have hlower : Text.lower (given ++ "-" ++ hashName).toList =
      (Text.lower f.name.toList ++ ['-']) ++ Text.lower hashName.toList := by
    rw [← Text.equalIgnoringCase_iff.mp hf]
    simp [Text.lower]
  simp only [Signature.isDated, ha, Option.any_some, List.any_eq_true]
  exact ⟨_, hstart, by rw [hlower, List.isPrefixOf_iff_prefix]; exact List.prefix_append _ _⟩

theorem NamesAlgorithm.isKnown (hn : s.NamesAlgorithm f h) :
    ∃ given hashName, s.familyAndHash? = some (given, hashName) ∧
      Attempt.isKnown given hashName = true := by
  obtain ⟨given, hashName, ha, hd, hf, hh⟩ := hn
  refine ⟨given, hashName, familyAndHash?_eq_some_iff.mpr ⟨ha, hd⟩, ?_⟩
  have hm : f ∈ Family.all := by cases f <;> decide
  simp only [Attempt.isKnown, hh, Option.isSome_some, Bool.and_true, List.any_eq_true]
  exact ⟨f, hm, hf⟩

end Signature

namespace Attempt

variable {κ : Type} [SigningKey κ] {a : Attempt κ}

/-- A parameter with both names known and both those of the key is all that passes, besides one
that leaves the algorithm to the key. -/
theorem algorithm_iff :
    a.algorithmRejection? = none ∧ a.mismatchRejection? = none ↔
      a.signature.LeavesAlgorithm ∨
        a.signature.NamesAlgorithm (family a.client.key) (hash a.client.key) := by
  rw [algorithmRejection?_eq_none_iff, mismatchRejection?_eq_none_iff]
  constructor
  · intro hgiven
    obtain ⟨hknown, hmatch⟩ := hgiven
    by_cases hl : a.signature.LeavesAlgorithm
    · exact Or.inl hl
    · right
      unfold Signature.LeavesAlgorithm at hl
      obtain ⟨given, ha, hne⟩ : ∃ given, a.signature.algorithm = some given ∧
          ¬ Text.equalIgnoringCase given hs2019 = true := by simpa using hl
      rcases hknown given ha with he | ⟨f, h, hfh, -⟩
      · exact absurd he hne
      · obtain ⟨hf, hh⟩ := hmatch f h hfh
        obtain ⟨hs, hd⟩ := Signature.familyAndHash?_eq_some_iff.mp hfh
        exact ⟨f, h, hs, hd, hf, hh⟩
  · intro hcases
    rcases hcases with hl | hn
    · exact ⟨fun given ha => Or.inl (hl given ha), by simp [hl.familyAndHash?]⟩
    · refine ⟨fun given _ => Or.inr hn.isKnown, ?_⟩
      obtain ⟨given, hashName, ha, hd, hf, hh⟩ := hn
      rw [Signature.familyAndHash?_eq_some_iff.mpr ⟨ha, hd⟩]
      intro _ _ hgiven
      cases hgiven
      exact ⟨hf, hh⟩

/-- A signature with both times: they are listed and given, and no field contradicts them. -/
structure Timed (a : Attempt κ) : Prop where
  leaves : a.signature.LeavesAlgorithm
  listed (b : Bound) : a.signature.lists b.name = true
  given (b : Bound) : ∃ t, a.signature.bound? b = some t ∧
    ∀ text, a.request.header? b.word = some text →
      Text.int64? (Text.trimmed text) = some t.seconds

/-- A signature with a date in place of the times, which names the algorithm of the key. -/
structure Dated (a : Attempt κ) : Prop where
  names : a.signature.NamesAlgorithm (family a.client.key) (hash a.client.key)
  date : a.signature.lists .date = true
  unlisted (b : Bound) : a.signature.lists b.name = false

/-- The fields that are listed are there. -/
def FieldsPresent (a : Attempt κ) : Prop :=
  ∀ h, a.signature.lists h = true → h.isPseudo = false → a.request.hasHeader h.text = true

/-- The digest of the body is listed only if there is a body with that digest. -/
def BodyMatches (a : Attempt κ) : Prop :=
  a.signature.lists .digest = true →
    ∃ body header name encoded hash, a.request.body = some body ∧
      a.request.header? "digest" = some header ∧
      Text.trimmed header = name ++ "=" ++ encoded ∧ '=' ∉ name.toList ∧
      Hash.ofName? name = some hash ∧
      Text.Base64.decode encoded = .ok (hash.digest body)

/-- The signature is one of the signing string by the key of the client. -/
def Signed (a : Attempt κ) : Prop :=
  ∃ text received,
    signingString a.request (a.signature.composition a.client.terms.escaping) = .ok text ∧
    Text.Base64.decode a.signature.value = .ok received ∧
    SigningKey.verify a.client.key text received = true

/-- What the standard checks ask for, the novelty of the nonce apart. -/
structure Sound (a : Attempt κ) : Prop where
  target : a.signature.lists .requestTarget = true
  kind : a.Timed ∨ a.Dated
  present : a.FieldsPresent
  notEarly (t : Instant) : a.signature.created = some t →
    t.nanos ≤ a.now.nanos + a.client.clockSkew.nanos
  notLate (t : Instant) : a.signature.expires = some t →
    a.now.nanos - a.client.clockSkew.nanos ≤ t.nanos
  body : a.BodyMatches
  signed : a.Signed

omit [SigningKey κ] in
theorem bodyMatches_iff : a.digestRejection? = none ↔ a.BodyMatches := by
  rw [digestRejection?_eq_none_iff, BodyMatches]
  apply forall_congr'
  intro _
  simp only [digestRejection_eq_none_iff, Text.cut_eq_some_iff]
  constructor
  · intro hgiven
    obtain ⟨body, header, hb, hh, name, encoded, hash, ⟨ht, hn⟩, hash?, hd⟩ := hgiven
    exact ⟨body, header, name, encoded, hash, hb, hh, ht, hn, hash?, hd⟩
  · intro hgiven
    obtain ⟨body, header, name, encoded, hash, hb, hh, ht, hn, hash?, hd⟩ := hgiven
    exact ⟨body, header, hb, hh, name, encoded, hash, ⟨ht, hn⟩, hash?, hd⟩

theorem kind_iff (hne : ∀ h, a.signature.lists h = true → h.isEmpty = false) :
    (a.headersRejection? = none ∧ (a.algorithmRejection? = none ∧ a.mismatchRejection? = none) ∧
        ∀ b, a.boundRejection? b = none) ↔
      a.signature.lists .requestTarget = true ∧ (a.Timed ∨ a.Dated) ∧ a.FieldsPresent := by
  simp only [headersRejection?_eq_none_iff, algorithm_iff, boundRejection?_eq_none_iff]
  constructor
  · intro hgiven
    obtain ⟨⟨hreq, hfields⟩, halg, hbounds⟩ := hgiven
    have hpresent : a.FieldsPresent := fun h hl hp => hfields h hl hp (hne h hl)
    rcases halg with hl | hn
    · simp only [Signature.requiredNames, hl.not_isDated, Bool.false_eq_true, ↓reduceIte,
        List.mem_cons, List.not_mem_nil, or_false, forall_eq_or_imp, forall_eq] at hreq
      have hlisted : ∀ b : Bound, a.signature.lists b.name = true
        | .created => hreq.2.1
        | .expires => hreq.2.2
      exact ⟨hreq.1, Or.inl ⟨hl, hlisted, fun b => (hbounds b (hlisted b)).2⟩, hpresent⟩
    · simp only [Signature.requiredNames, hn.isDated, ↓reduceIte, List.mem_cons,
        List.not_mem_nil, or_false, forall_eq_or_imp, forall_eq] at hreq
      refine ⟨hreq.1, Or.inr ⟨hn, hreq.2, fun b => ?_⟩, hpresent⟩
      by_cases hb : a.signature.lists b.name = true
      · have hd := (hbounds b hb).1
        rw [hn.isDated] at hd
        cases hd
      · simpa using hb
  · intro hgiven
    obtain ⟨htarget, hkind, hpresent⟩ := hgiven
    have hfields : ∀ h, a.signature.lists h = true → h.isPseudo = false → h.isEmpty = false →
        a.request.hasHeader h.text = true := fun h hl hp _ => hpresent h hl hp
    rcases hkind with ht | hd
    · refine ⟨⟨?_, hfields⟩, Or.inl ht.leaves, fun b _ => ⟨ht.leaves.not_isDated, ht.given b⟩⟩
      simp only [Signature.requiredNames, ht.leaves.not_isDated, Bool.false_eq_true, ↓reduceIte,
        List.mem_cons, List.not_mem_nil, or_false, forall_eq_or_imp, forall_eq]
      exact ⟨htarget, ht.listed .created, ht.listed .expires⟩
    · refine ⟨⟨?_, hfields⟩, Or.inr hd.names, fun b hb => ?_⟩
      · simp only [Signature.requiredNames, hd.names.isDated, ↓reduceIte, List.mem_cons,
          List.not_mem_nil, or_false, forall_eq_or_imp, forall_eq]
        exact ⟨htarget, hd.date⟩
      · rw [hd.unlisted b] at hb
        cases hb

/-- The standard checks have no objection to a signature that was read exactly if it is sound. -/
theorem sound_iff (hne : ∀ h, a.signature.lists h = true → h.isEmpty = false) :
    (∀ k ∈ Check.standard, a.rejection? k = none) ↔ a.Sound := by
  have hbound : (∀ b, a.boundRejection? b = none) ↔
      a.boundRejection? .created = none ∧ a.boundRejection? .expires = none :=
    ⟨fun h => ⟨h _, h _⟩, fun h b => by cases b; exacts [h.1, h.2]⟩
  have hall : (∀ k ∈ Check.standard, a.rejection? k = none) ↔
      (a.headersRejection? = none ∧
        (a.algorithmRejection? = none ∧ a.mismatchRejection? = none) ∧
        ∀ b, a.boundRejection? b = none) ∧
      a.creationRejection? = none ∧ a.expirationRejection? = none ∧
      a.digestRejection? = none ∧ a.stringRejection? = none := by
    rw [hbound]
    simp only [Check.standard, List.mem_cons, List.not_mem_nil, or_false, forall_eq_or_imp,
      forall_eq, rejection?]
    constructor
    · intro hgiven
      obtain ⟨h1, h2, h3, h4, h5, h6, h7, h8, -, h9⟩ := hgiven
      exact ⟨⟨h1, ⟨h2, h3⟩, h4, h6⟩, h5, h7, h8, h9⟩
    · intro hgiven
      obtain ⟨⟨h1, ⟨h2, h3⟩, h4, h6⟩, h5, h7, h8, h9⟩ := hgiven
      exact ⟨h1, h2, h3, h4, h5, h6, h7, h8, trivial, h9⟩
  rw [hall, kind_iff hne, creationRejection?_eq_none_iff, expirationRejection?_eq_none_iff,
    bodyMatches_iff, stringRejection?_eq_none_iff]
  constructor
  · intro hgiven
    obtain ⟨⟨ht, hk, hp⟩, he, hl, hb, hs⟩ := hgiven
    exact ⟨ht, hk, hp, he, hl, hb, hs⟩
  · intro hgiven
    obtain ⟨ht, hk, hp, he, hl, hb, hs⟩ := hgiven
    exact ⟨⟨ht, hk, hp⟩, he, hl, hb, hs⟩

end Attempt

namespace Verifier

theorem listed_ne_empty {scheme : String} {r : Request} {s : Signature}
    (hs : Authorization.ofRequest scheme r = .ok s) :
    ∀ h, s.lists h = true → h.isEmpty = false := by
  obtain ⟨header, -, hr⟩ := Authorization.ofRequest_eq_ok_iff.mp hs
  have hw := Authorization.read_wellRead (P := fun _ => True) hr (by simp)
  intro h hl
  exact hw.names h (List.contains_iff_mem.mp hl)

section AnyStore

variable {ω κ ε : Type} [SigningKey κ] [ClientStore ω κ ε] [NonceStore ω ε] {v : Verifier ω}
  {clocks : Readings} {r : Request} {s : Signature} {c : Client κ}

/-- With the standard checks a request is accepted if its signature can be read, the client it
names is there, it is sound, and a nonce that it carries can be registered. -/
theorem standard_accepted_iff (hown : v.ownChecks = none) :
    (v.verify clocks r).1 = .ok (.accepted s c) ↔
      Authorization.ofRequest v.scheme r = .ok s ∧
      ClientStore.find? s.keyId v.store = .ok (some c) ∧
      Attempt.Sound ⟨r, s, c, clocks.now⟩ ∧
      ∀ nonce, s.nonce = some nonce →
        (NonceStore.tryRegister ⟨c.id, nonce, clocks.now.later c.nonceLifetime⟩ clocks.now
          v.store).1 = .ok true := by
  rw [verify_accepted_iff (standard_count_nonce hown), checks, hown]
  apply and_congr_right
  intro hs
  rw [Attempt.nonce?_of_read hs]
  apply and_congr_right'
  apply and_congr (Attempt.sound_iff (listed_ne_empty hs))
  simp

end AnyStore

section InMemory

variable {κ : Type} [SigningKey κ]

/-- What makes a verifier with its stores in memory and the standard checks accept a request. -/
structure Accepts (v : Verifier (Memory κ)) (now : Instant) (r : Request) (s : Signature)
    (c : Client κ) : Prop where
  read : Authorization.ofRequest v.scheme r = .ok s
  stored : v.store.clients.clients.find? s.keyId = some c
  sound : Attempt.Sound ⟨r, s, c, now⟩
  nonceNew (nonce : String) : s.nonce = some nonce →
    ∀ n, v.store.nonces.nonces.find? (c.id, nonce) = some n → n.expiration < now

/-- A request is accepted, as signed by a client with a signature, under exactly these
conditions. -/
theorem accepts_iff (v : Verifier (Memory κ)) (clocks : Readings) (r : Request) (s : Signature)
    (c : Client κ) :
    (({ v with ownChecks := none } : Verifier (Memory κ)).verify clocks r).1 =
        .ok (.accepted s c) ↔
      v.Accepts clocks.now r s c := by
  rw [standard_accepted_iff rfl]
  constructor
  · intro hgiven
    obtain ⟨hs, hc, hsound, hnew⟩ := hgiven
    refine ⟨hs, Except.ok.inj hc, hsound, ?_⟩
    intro nonce hn
    exact Memory.tryRegister_iff.mp (hnew nonce hn)
  · intro haccepts
    refine ⟨haccepts.read, congrArg Except.ok haccepts.stored, haccepts.sound, ?_⟩
    intro nonce hn
    exact Memory.tryRegister_iff.mpr (haccepts.nonceNew nonce hn)

end InMemory

end Verifier

end SignedHttp
