import SignedHttp.Proofs.Field
import SignedHttp.Signing

namespace SignedHttp

/-- Hooks that give back what they are given. -/
structure Hooks.Transparent (h : Hooks) : Prop where
  composed (hook : Request → String → String) : h.composed = some hook →
    ∀ r text, hook r text = text
  created (hook : Request → Signature → Signature) : h.created = some hook →
    ∀ r signature, hook r signature = signature

theorem Hooks.transparent_none : Hooks.none.Transparent := ⟨nofun, nofun⟩

namespace Settings

variable {κ : Type} {s : Settings κ} {r : Request} {g h place : HeaderName}
  {names : List HeaderName}

theorem mem_insertAfter : g ∈ insertAfter place h names ↔ g = h ∨ g ∈ names := by
  induction names with
  | nil => simp [insertAfter]
  | cons n names ih =>
    unfold insertAfter
    split
    · simp only [List.mem_cons]
      exact or_left_comm
    · simp only [List.mem_cons, ih]
      exact or_left_comm

theorem mem_unlessThere {added : List HeaderName} (ha : ∀ n, n ∈ added ↔ n = h ∨ n ∈ names) :
    g ∈ (if names.contains h then names else added) ↔ g = h ∨ g ∈ names := by
  split
  · next hc =>
    refine ⟨Or.inr, ?_⟩
    intro hcases
    rcases hcases with rfl | hm
    · exact List.contains_iff_mem.mp hc
    · exact hm
  · exact ha g

theorem mem_withTarget : g ∈ withTarget names ↔ g = .requestTarget ∨ g ∈ names :=
  mem_unlessThere (fun _ => List.mem_cons)

theorem mem_withDate : g ∈ withDate names ↔ g = .date ∨ g ∈ names :=
  mem_unlessThere (fun _ => mem_insertAfter)

theorem mem_withName : g ∈ withName names h ↔ g = h ∨ g ∈ names := by
  apply mem_unlessThere
  intro n
  rw [List.mem_append, List.mem_singleton]
  exact or_comm

theorem mem_ofSettings :
    h ∈ withDate (withTarget s.headers) ↔ h ∈ s.headers ∨ h = .requestTarget ∨ h = .date := by
  rw [mem_withDate, mem_withTarget]
  constructor
  · intro hcases
    rcases hcases with hd | ht | hm
    · exact Or.inr (Or.inr hd)
    · exact Or.inr (Or.inl ht)
    · exact Or.inl hm
  · intro hcases
    rcases hcases with hm | ht | hd
    · exact Or.inr (Or.inr hm)
    · exact Or.inr (Or.inl ht)
    · exact Or.inl hd

theorem mem_headersFor :
    h ∈ s.headersFor r ↔
      h ∈ s.headers ∨ h = .requestTarget ∨ h = .date ∨
        s.addsRecommended = true ∧
          (s.namesAlgorithm = false ∧ (h = .created ∨ h = .expires) ∨
            r.hasBody = true ∧ s.bodyHash.isSome = true ∧ h = .digest) := by
  have hor : ∀ q : Prop, (h ∈ withDate (withTarget s.headers) ∨ q) ↔
      h ∈ s.headers ∨ h = .requestTarget ∨ h = .date ∨ q := by
    intro q
    rw [mem_ofSettings, or_assoc, or_assoc]
  rw [← hor]
  unfold headersFor
  cases s.addsRecommended with
  | false => simp
  | true =>
    -- what is put in last is the last alternative
    have htimes : h ∈ (if s.namesAlgorithm then withDate (withTarget s.headers)
          else withName (withName (withDate (withTarget s.headers)) .created) .expires) ↔
        h ∈ withDate (withTarget s.headers) ∨
          s.namesAlgorithm = false ∧ (h = .created ∨ h = .expires) := by
      cases s.namesAlgorithm with
      | true => simp
      | false =>
        simp only [Bool.false_eq_true, ↓reduceIte, mem_withName, true_and]
        rw [← or_assoc, or_comm, or_comm (a := h = .expires)]
    cases hd : r.hasBody && s.bodyHash.isSome with
    | false =>
      have hno : ¬ (r.hasBody = true ∧ s.bodyHash.isSome = true ∧ h = .digest) := by
        intro hgiven
        obtain ⟨hb, hs, -⟩ := hgiven
        simp [hb, hs] at hd
      simp only [↓reduceIte, Bool.false_eq_true, htimes, hno, true_and, or_false]
    | true =>
      obtain ⟨hb, hs⟩ := Bool.and_eq_true_iff.mp hd
      simp only [↓reduceIte, mem_withName, htimes, hb, hs, true_and]
      rw [or_comm, or_assoc]

/-- The signature is signed itself only if the settings list it. -/
theorem text_ne_authorization (hn : ∀ g ∈ s.headers, g.text ≠ "authorization")
    (hm : h ∈ s.headersFor r) : h.text ≠ "authorization" := by
  rcases mem_headersFor.mp hm with hm | rfl | rfl | ⟨-, ⟨-, rfl | rfl⟩ | ⟨-, -, rfl⟩⟩
  · exact hn h hm
  all_goals decide

/-- What settings must have that pass their check. -/
structure Passed (s : Settings κ) (key : κ) : Prop where
  keyId : s.keyId.isEmpty = false
  key : s.key = some key
  names : ∀ h ∈ s.headers, h.isEmpty = false
  allowed : s.namesAlgorithm = true → HeaderName.created ∉ s.headers ∧ .expires ∉ s.headers
  scheme : (Text.trim s.scheme.toList).isEmpty = false

theorem forbiddenName?_eq_none (hf : s.forbiddenName? = none) (hn : s.namesAlgorithm = true) :
    HeaderName.created ∉ s.headers ∧ .expires ∉ s.headers := by
  unfold forbiddenName? at hf
  rw [if_pos hn, List.find?_eq_none] at hf
  have hnot : ∀ n ∈ [HeaderName.created, .expires], n ∉ s.headers := by
    intro n hm hin
    exact hf n hm (List.contains_iff_mem.mpr hin)
  exact ⟨hnot _ (by simp), hnot _ (by simp)⟩

theorem Passed.isEmpty_eq {key : κ} (hp : s.Passed key) (hm : h ∈ s.headersFor r) :
    h.isEmpty = false := by
  rcases mem_headersFor.mp hm with hm | rfl | rfl | ⟨-, ⟨-, rfl | rfl⟩ | ⟨-, -, rfl⟩⟩
  · exact hp.names h hm
  all_goals rfl

theorem Passed.bounds {key : κ} (hp : s.Passed key) (hn : s.namesAlgorithm = true)
    (hm : h ∈ s.headersFor r) : h ≠ .created ∧ h ≠ .expires := by
  obtain ⟨hc, he⟩ := hp.allowed hn
  rcases mem_headersFor.mp hm with hm | rfl | rfl | ⟨-, ⟨hno, -⟩ | ⟨-, -, rfl⟩⟩
  · exact ⟨fun heq => hc (heq ▸ hm), fun heq => he (heq ▸ hm)⟩
  · decide
  · decide
  · rw [hn] at hno
    cases hno
  · decide

theorem Passed.scheme_ne_nil {key : κ} (hp : s.Passed key) : s.scheme.toList ≠ [] := by
  intro he
  have ht := hp.scheme
  rw [he] at ht
  exact absurd ht (by decide)

theorem check_eq_ok [SigningKey κ] {key : κ} (hc : s.check = .ok key) : s.Passed key := by
  unfold check at hc
  cases hid : s.keyId.isEmpty with
  | true => simp [hid, throw_bind] at hc
  | false =>
    cases hk : s.key with
    | none => simp [hid, hk] at hc
    | some k =>
      simp only [hid, hk, Bool.false_eq_true, ↓reduceIte, guard_eq_ok_iff] at hc
      obtain ⟨-, -, hnames, hc⟩ := hc
      cases hf : s.forbiddenName? with
      | some n => simp [hf, throw_bind] at hc
      | none =>
        simp only [hf, guard_eq_ok_iff, pure_eq_ok, Except.ok.injEq] at hc
        obtain ⟨hscheme, rfl⟩ := hc
        refine ⟨hid, hk, fun n hm => ?_, forbiddenName?_eq_none hf, by simpa using hscheme⟩
        by_contra hne
        exact hnames (List.any_eq_true.mpr ⟨n, hm, by simpa using hne⟩)

theorem hookComposed_text (hh : s.hooks.Transparent) (text : String) :
    (s.hookComposed r text).1 = text := by
  unfold hookComposed
  split
  · next hook he => exact hh.composed hook he r text
  · rfl

theorem hookCreated_signature (hh : s.hooks.Transparent) (signature : Signature) :
    (s.hookCreated r signature).1 = signature := by
  unfold hookCreated
  split
  · next hook he => exact hh.created hook he r signature
  · rfl

section Steps

variable [SigningKey κ]

def nonceFor (s : Settings κ) (nonce : String) : Option String :=
  if s.usesNonce then some nonce else none

def signatureOf (s : Settings κ) (key : κ) (names : List HeaderName) (t expires : Instant)
    (nonce : Option String) (bytes : Bytes) : Signature where
  keyId := s.keyId
  algorithm := some (s.algorithmParameter key)
  created := some t
  expires := some expires
  headers := some names
  nonce := nonce
  value := Text.Base64.encode bytes

/-- The steps of signing a request while the hooks change nothing. -/
structure Steps (s : Settings κ) (r : Request) (t : Instant) (lifetime : Duration)
    (nonce : String) where
  key : κ
  passed : s.Passed key
  dated : Request
  dates : r.withDate (s.headersFor r) t.wholeSeconds = .ok dated
  /-- The request with all fields that are signed. -/
  ready : Request
  digests : dated.withDigest (s.headersFor r) s.bodyHash = .ok ready
  expires : Instant
  ends : t.wholeSeconds.shift? lifetime.nanos = some expires
  text : String
  composes : signingString ready
    (s.composition (s.headersFor r) t.wholeSeconds lifetime (s.nonceFor nonce)) = .ok text
  bytes : Bytes
  signs : SigningKey.sign key text = .ok bytes
  signed : Request
  authorizes : ready.setHeader "authorization" (s.authorization (s.signatureOf key
    (s.headersFor r) t.wholeSeconds expires (s.nonceFor nonce) bytes)) = .ok signed

def Steps.signature {t : Instant} {lifetime : Duration} {nonce : String}
    (steps : s.Steps r t lifetime nonce) : Signature :=
  s.signatureOf steps.key (s.headersFor r) t.wholeSeconds steps.expires (s.nonceFor nonce)
    steps.bytes

theorem signatureFor_ok {key : κ} {names : List HeaderName} {t : Instant} {lifetime : Duration}
    {nonce : Option String} {signature : Signature} {notices : List Notice}
    (hh : s.hooks.Transparent) (hc : s.check = .ok key)
    (hs : s.signatureFor r names t lifetime nonce = (.ok signature, notices)) :
    ∃ expires text bytes, t.wholeSeconds.shift? lifetime.nanos = some expires ∧
      signingString r (s.composition names t.wholeSeconds lifetime nonce) = .ok text ∧
      SigningKey.sign key text = .ok bytes ∧
      signature = s.signatureOf key names t.wholeSeconds expires nonce bytes := by
  unfold signatureFor at hs
  cases hends : t.wholeSeconds.shift? lifetime.nanos with
  | none => simp [hc, hends] at hs
  | some expires =>
    cases hstring : signingString r (s.composition names t.wholeSeconds lifetime nonce) with
    | error d => simp [hc, hends, hstring] at hs
    | ok text =>
      cases hsign : SigningKey.sign key text with
      | error d => simp [hc, hends, hstring, hookComposed_text hh, hsign] at hs
      | ok bytes =>
        simp only [hc, hends, hstring, hookComposed_text hh, hsign, hookCreated_signature hh,
          Prod.mk.injEq, Except.ok.injEq] at hs
        exact ⟨expires, text, bytes, rfl, rfl, hsign, hs.1.symm⟩

theorem signRequest_steps {t : Instant} {lifetime : Duration} {nonce : String}
    {signature : Signature} (hh : s.hooks.Transparent)
    (hr : (s.signRequest r t lifetime nonce).result = .ok signature) :
    ∃ steps : s.Steps r t lifetime nonce, steps.signature = signature ∧
      steps.signed = (s.signRequest r t lifetime nonce).request := by
  unfold signRequest at hr ⊢
  cases hc : s.check with
  | error d => simp [hc] at hr
  | ok key =>
    cases hdate : r.withDate (s.headersFor r) t.wholeSeconds with
    | error d => simp [hc, hdate] at hr
    | ok dated =>
      cases hdigest : dated.withDigest (s.headersFor r) s.bodyHash with
      | error d => simp [hc, hdate, hdigest] at hr
      | ok ready =>
        rcases hsig : s.signatureFor ready (s.headersFor r) t lifetime (s.nonceFor nonce) with
          ⟨d | given, notices⟩
        · simp only [nonceFor] at hsig
          simp [hc, hdate, hdigest, hsig] at hr
        · obtain ⟨expires, text, bytes, hends, hcomposes, hsigns, he⟩ :=
            signatureFor_ok hh hc hsig
          simp only [nonceFor] at hsig
          cases hset : ready.setHeader "authorization" (s.authorization given) with
          | error d => simp [hc, hdate, hdigest, hsig, hset] at hr
          | ok signed =>
            simp only [hc, hdate, hdigest, hsig, hset, Except.ok.injEq] at hr ⊢
            refine ⟨{
              key := key, passed := check_eq_ok hc, dated := dated, dates := hdate,
              ready := ready, digests := hdigest, expires := expires, ends := hends,
              text := text, composes := hcomposes, bytes := bytes, signs := hsigns,
              signed := signed, authorizes := he ▸ hset }, ?_, rfl⟩
            exact he.symm.trans hr

/-- Signing without hooks succeeds in these steps only. -/
theorem signRequest_ok {t : Instant} {lifetime : Duration} {nonce : String}
    {signature : Signature} (hh : s.hooks = .none)
    (hr : (s.signRequest r t lifetime nonce).result = .ok signature) :
    ∃ steps : s.Steps r t lifetime nonce, steps.signature = signature ∧
      steps.signed = (s.signRequest r t lifetime nonce).request :=
  signRequest_steps (hh ▸ Hooks.transparent_none) hr

end Steps

end Settings

namespace Request

variable {r dated ready : Request} {names : List HeaderName}

theorem withDate_sameBut {t : Instant} (h : r.withDate names t = .ok dated) :
    SameBut "date" r dated := by
  unfold withDate at h
  split at h
  · exact setHeader_sameBut h
  · rw [← Except.ok.inj h]
    exact .refl _ _

theorem withDate_date {t : Instant} (h : r.withDate names t = .ok dated)
    (hm : HeaderName.date ∈ names) : dated.hasHeader "date" = true := by
  unfold withDate at h
  split at h
  · exact hasHeader_of_header? (setHeader_header? h)
  · next hc =>
    rw [← Except.ok.inj h]
    simpa [hm] using hc

theorem withDigest_sameBut {hash : Option Hash} (h : r.withDigest names hash = .ok ready) :
    SameBut "digest" r ready := by
  unfold withDigest at h
  split at h
  · rw [← Except.ok.inj h]
    exact .refl _ _
  · split at h
    · cases h
    · split at h
      · rw [← Except.ok.inj h]
        exact .refl _ _
      · split at h
        · cases h
        · exact setHeader_sameBut (mapError_eq_ok_iff.mp h)

theorem withDigest_digest {hash : Option Hash} (h : r.withDigest names hash = .ok ready)
    (hm : HeaderName.digest ∈ names) (hno : r.hasHeader "digest" = false) :
    ∃ body hash, r.body = some body ∧ ready.header? "digest" = some (digestText hash body) := by
  unfold withDigest at h
  rw [List.contains_iff_mem.mpr hm] at h
  cases hb : r.body with
  | none => simp [hb] at h
  | some body =>
    cases hash with
    | none => simp [hb, hno] at h
    | some hash =>
      simp only [hb, hno, Bool.not_true, Bool.false_eq_true, ↓reduceIte] at h
      exact ⟨body, hash, rfl, setHeader_header? (mapError_eq_ok_iff.mp h)⟩

end Request

end SignedHttp
