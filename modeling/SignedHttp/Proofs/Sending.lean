import SignedHttp.Proofs.Acceptance
import SignedHttp.Proofs.Authorization.RoundTrip
import SignedHttp.Proofs.SigningString

namespace SignedHttp

namespace Attempt

variable {κ : Type} [SigningKey κ] {r q : Request} {s : Signature} {c : Client κ} {now : Instant}

/-- Requests that differ in a field that is neither listed nor one of the three that are always
looked at are sound alike. -/
theorem Sound.sameBut {name : String} (hq : r.SameBut name q) (hd : name ≠ "digest")
    (hb : ∀ b : Bound, name ≠ b.word) (hn : ∀ h, s.lists h = true → h.text ≠ name)
    (h : Sound ⟨r, s, c, now⟩) : Sound ⟨q, s, c, now⟩ := by
  have hbound : ∀ b : Bound, q.header? b.word = r.header? b.word := by
    intro b
    apply hq.header?
    have hlower : Text.lowered b.word = b.word := by cases b <;> decide
    rw [hlower]
    exact (hb b).symm
  have hlisted : ∀ h, s.lists h = true → Text.lowered h.text ≠ name := by
    intro h hl
    rw [h.lowered_text]
    exact hn h hl
  refine ⟨h.target, ?_, ?_, h.notEarly, h.notLate, ?_, ?_⟩
  · rcases h.kind with ht | hd
    · refine Or.inl ⟨ht.leaves, ht.listed, fun b => ?_⟩
      obtain ⟨t, hgiven, hfield⟩ := ht.given b
      exact ⟨t, hgiven, fun text htext => hfield text ((hbound b).symm.trans htext)⟩
    · exact Or.inr ⟨hd.names, hd.date, hd.unlisted⟩
  · intro g hl hp
    have hpresent : r.hasHeader g.text = true := h.present g hl hp
    exact (hq.hasHeader (hlisted g hl)).trans hpresent
  · intro hl
    obtain ⟨body, header, name', encoded, hash, hbody, hheader, hrest⟩ := h.body hl
    refine ⟨body, header, name', encoded, hash, hq.body.trans hbody, ?_, hrest⟩
    have hsame : q.header? "digest" = r.header? "digest" := hq.header? hd.symm
    exact hsame.trans hheader
  · obtain ⟨text, received, hstring, hrest⟩ := h.signed
    refine ⟨text, received, ?_, hrest⟩
    have hsame := signingString_sameBut (c := s.composition c.terms.escaping) hq
      (fun g hg => hn g (List.contains_iff_mem.mpr hg))
    exact hsame.trans hstring

/-- Only the two times of a signature are compared with the clock. -/
theorem Sound.atTime {later : Instant} (h : Sound ⟨r, s, c, now⟩)
    (hearly : ∀ t, s.created = some t → t.nanos ≤ later.nanos + c.clockSkew.nanos)
    (hlate : ∀ t, s.expires = some t → later.nanos - c.clockSkew.nanos ≤ t.nanos) :
    Sound ⟨r, s, c, later⟩ := by
  refine ⟨h.target, ?_, h.present, hearly, hlate, h.body, h.signed⟩
  rcases h.kind with ht | hd
  · exact Or.inl ⟨ht.leaves, ht.listed, ht.given⟩
  · exact Or.inr ⟨hd.names, hd.date, hd.unlisted⟩

end Attempt

namespace Verifier

variable {ω κ ε : Type} [SigningKey κ] [ClientStore ω κ ε] [NonceStore ω ε]

/-- A request is accepted with the signature that is read from it, if it is sound without the field
of the signature, the signature's client is there, and the nonce is new. -/
theorem accepted_of_read {v : Verifier ω} {r q : Request} {s : Signature} {c : Client κ}
    {clocks : Readings} (hown : v.ownChecks = none)
    (hread : Authorization.ofRequest v.scheme q = .ok s) (hsame : r.SameBut "authorization" q)
    (hn : ∀ h, s.lists h = true → h.text ≠ "authorization")
    (hc : ClientStore.find? s.keyId v.store = .ok (some c))
    (hsound : Attempt.Sound ⟨r, s, c, clocks.now⟩)
    (hnew : ∀ nonce, s.nonce = some nonce →
      (NonceStore.tryRegister ⟨c.id, nonce, clocks.now.later c.nonceLifetime⟩ clocks.now
        v.store).1 = .ok true) :
    (v.verify clocks q).1 = .ok (.accepted s c) := by
  refine (standard_accepted_iff hown).mpr ⟨hread, hc, ?_, hnew⟩
  apply hsound.sameBut hsame (by decide) _ hn
  intro b
  cases b <;> decide

/-- A request is accepted with a signature that was put into it, if it is sound with it, the
signature's client is there, and the nonce is new. -/
theorem accepted_of_sound {v : Verifier ω} {r q : Request} {s : Signature} {c : Client κ}
    {clocks : Readings} (hown : v.ownChecks = none) (hne : v.scheme.toList ≠ [])
    (hb : ∀ c ∈ v.scheme.toList, Text.isBlank c = false) (hw : s.Writable)
    (hq : r.setHeader "authorization" (v.scheme ++ " " ++ Authorization.write s) = .ok q)
    (hn : ∀ h, s.lists h = true → h.text ≠ "authorization")
    (hc : ClientStore.find? s.keyId v.store = .ok (some c))
    (hsound : Attempt.Sound ⟨r, s.written, c, clocks.now⟩)
    (hnew : ∀ nonce, s.written.nonce = some nonce →
      (NonceStore.tryRegister ⟨c.id, nonce, clocks.now.later c.nonceLifetime⟩ clocks.now
        v.store).1 = .ok true) :
    (v.verify clocks q).1 = .ok (.accepted s.written c) :=
  accepted_of_read hown (Authorization.ofRequest_setHeader hq hne hb hw)
    (Request.setHeader_sameBut hq) hn hc hsound hnew

end Verifier

namespace Sample

def client : Client Key :=
  ⟨"client1", "Client", .hmac (Text.bytes "secret") .sha256, .standard, by decide⟩

def second (n : Nat) : Instant := .clamped (n * 1000000000)

theorem nanos_second {n : Nat} (h : n ≤ 8210266876799) : (second n).nanos = n * 1000000000 := by
  rw [second, Instant.nanos_clamped]
  simp only [Instant.earliest, Instant.latest]
  omega

/-- Clocks that agree, while nothing takes any time. -/
def readings (n : Nat) : Readings := ⟨second n, second n, second n, fun _ => default⟩

def memory : Verifier (Memory Key) :=
  .standard ⟨⟨Table.empty.put "client1" client⟩, .empty⟩ (second 0)

/-- Where a nonce stands: in the parameter, or in a field that is signed. -/
inductive Place where
  | parameter
  | field

def authorizationName : FieldName := ⟨"authorization", by decide⟩

def nonceField : Field := (⟨"nonce", by decide⟩, ⟨Text.bytes "n1", by decide⟩)

namespace Place

/-- The same signature, whatever the place of the nonce. -/
def signature (p : Place) : Signature where
  keyId := "client1"
  algorithm := none
  created := some (second 1000)
  expires := some (second 1300)
  headers := some <| [.requestTarget, .created, .expires] ++
    match p with
    | parameter => []
    | field => [nonceField.1.headerName]
  nonce :=
    match p with
    | parameter => some "n1"
    | field => none
  value := "YpxYfiN/K3ghoHmaaSlOJDZpPpIMza0PhCz4q8xH/LU="

def request (p : Place) : Request where
  method := ⟨"GET", by decide⟩
  uri := "/"
  fields :=
    match p with
    | parameter => []
    | field => [nonceField]
  body := none

def withSignature (p : Place) : Except Field.Defect Request :=
  p.request.setHeader "authorization" (Authorization.defaultScheme ++ " " ++
    Authorization.write p.signature)

@[irreducible]
def sent (p : Place) : Request :=
  p.withSignature.toOption.getD p.request

def text : String := "(request-target): get /\n(created): 1000\n(expires): 1300\nnonce: n1"

set_option maxRecDepth 4000 in
theorem withSignature_eq (p : Place) : p.withSignature = .ok p.sent := by
  have hok : p.withSignature.isOk = true := by cases p <;> decide +kernel
  unfold sent
  cases hs : p.withSignature with
  | error d =>
    rw [hs] at hok
    cases hok
  | ok q => rfl

theorem names (p : Place) {h : HeaderName} (hl : p.signature.lists h = true) :
    h.isEmpty = false ∧ h.text ≠ "authorization" := by
  have hall : ∀ h ∈ p.signature.headers.getD [], h.isEmpty = false ∧ h.text ≠ "authorization" := by
    cases p <;> decide
  exact hall h (List.contains_iff_mem.mp hl)

theorem writable (p : Place) : p.signature.Writable := by
  refine ⟨?_, fun h hm => (p.names (List.contains_iff_mem.mpr hm)).1, ?_, ?_, ?_, ?_⟩
  all_goals cases p <;> decide

theorem written_eq (p : Place) : p.signature.written = p.signature := by
  cases p <;> rfl

theorem read_sent (p : Place) :
    Authorization.ofRequest Authorization.defaultScheme p.sent = .ok p.signature := by
  have hread := Authorization.ofRequest_setHeader p.withSignature_eq (by decide)
    (Text.forall_mem_of_all (by decide)) p.writable
  rwa [p.written_eq] at hread

set_option maxRecDepth 4000 in
theorem signingString_sent (p : Place) :
    signingString p.sent (p.signature.composition client.terms.escaping) = .ok text := by
  have hrequest : signingString p.request (p.signature.composition client.terms.escaping) =
      .ok text := by
    cases p <;> decide +kernel
  rw [← hrequest]
  exact signingString_sameBut (Request.setHeader_sameBut p.withSignature_eq)
    (fun h hm => (p.names (List.contains_iff_mem.mpr hm)).2)

set_option maxRecDepth 4000 in
theorem sound (p : Place) {n : Nat} (hl : 940 ≤ n) (hh : n ≤ 1360) :
    Attempt.Sound ⟨p.request, p.signature, client, second n⟩ := by
  have hnow := nanos_second (n := n) (by omega)
  have hskew : client.clockSkew.nanos = 60000000000 := rfl
  have hbegin : Attempt.Sound ⟨p.request, p.signature, client, second 1000⟩ := by
    apply (Attempt.sound_iff (fun h hl => (p.names hl).1)).mp
    cases p <;> decide +kernel
  apply hbegin.atTime
  · intro t ht
    obtain rfl := Option.some.inj ht
    rw [hnow, hskew, nanos_second (by decide)]
    omega
  · intro t ht
    obtain rfl := Option.some.inj ht
    rw [hnow, hskew, nanos_second (by decide)]
    omega

theorem sound_sent (p : Place) {n : Nat} (hl : 940 ≤ n) (hh : n ≤ 1360) :
    Attempt.Sound ⟨p.sent, p.signature, client, second n⟩ := by
  have hsame := Request.setHeader_sameBut p.withSignature_eq
  refine (p.sound hl hh).sameBut hsame (by decide) (fun b => ?_) (fun h hl => (p.names hl).2)
  cases b <;> decide

end Place

theorem accepted {ω ε : Type} [ClientStore ω Key ε] [NonceStore ω ε] {v : Verifier ω}
    {p : Place} {n : Nat} (hown : v.ownChecks = none)
    (hscheme : v.scheme = Authorization.defaultScheme)
    (hclient : ClientStore.find? "client1" v.store = .ok (some client))
    (hl : 940 ≤ n) (hh : n ≤ 1360)
    (hnew : ∀ nonce, p.signature.nonce = some nonce →
      (NonceStore.tryRegister ⟨"client1", nonce, (second n).later client.nonceLifetime⟩ (second n)
        v.store).1 = .ok true) :
    (v.verify (readings n) p.sent).1 = .ok (.accepted p.signature client) := by
  have hsound := p.sound hl hh
  rw [← p.written_eq] at hsound ⊢
  have hsent : p.request.setHeader "authorization"
      (v.scheme ++ " " ++ Authorization.write p.signature) = .ok p.sent := by
    rw [hscheme]
    exact p.withSignature_eq
  refine Verifier.accepted_of_sound hown ?_ ?_ p.writable hsent (fun h hl => (p.names hl).2)
    hclient hsound ?_
  · rw [hscheme]
    decide
  · rw [hscheme]
    exact Text.forall_mem_of_all (by decide)
  · rw [p.written_eq]
    exact hnew

theorem parameter_accepted {ω ε : Type} [ClientStore ω Key ε] [NonceStore ω ε] {v : Verifier ω}
    {n : Nat} (hown : v.ownChecks = none) (hscheme : v.scheme = Authorization.defaultScheme)
    (hclient : ClientStore.find? "client1" v.store = .ok (some client))
    (hl : 940 ≤ n) (hh : n ≤ 1360)
    (hnew : (NonceStore.tryRegister ⟨"client1", "n1", (second n).later client.nonceLifetime⟩
      (second n) v.store).1 = .ok true) :
    (v.verify (readings n) Place.parameter.sent).1 =
      .ok (.accepted Place.parameter.signature client) := by
  apply accepted hown hscheme hclient hl hh
  intro nonce hn
  obtain rfl := Option.some.inj hn
  exact hnew

end Sample

end SignedHttp
