import SignedHttp.Proofs.NonceLifetime
import SignedHttp.Proofs.Sending

namespace SignedHttp

namespace SigningString

variable {r q : Request} {c d : Composition} {text nonce other : String}

/-- The last line of a signing string, if that line is one of a nonce. -/
theorem lastLine_eq (h : signingString r c = .ok text)
    (hn : nonceLine? c = some ⟨"nonce", nonce⟩) (hb : '\n' ∉ nonce.toList) :
    (text.toList.reverse.takeWhile (· != '\n')).reverse = "nonce: ".toList ++ nonce.toList := by
  obtain ⟨all, hall, rfl⟩ := map_eq_ok_iff.mp h
  obtain ⟨front, -, hend⟩ := bind_eq_ok_iff.mp hall
  have hlines : all = front ++ [⟨"nonce", nonce⟩] := by
    rw [hn] at hend
    exact (Except.ok.inj hend).symm
  have hline : (Line.mk "nonce" nonce).text.toList = "nonce: ".toList ++ nonce.toList := by
    simp [Line.text]
  have hnot : '\n' ∉ "nonce: ".toList ++ nonce.toList := by
    intro hm
    rcases List.mem_append.mp hm with hm | hm
    · exact absurd hm (by decide)
    · exact hb hm
  rw [hlines, joinLines, String.toList_ofList, List.map_append, List.map_singleton, hline]
  exact Text.lastPart_intercalate _ hnot

/-- A signing string with a nonce has that nonce only. -/
theorem nonce_unique (h : signingString r c = .ok text) (k : signingString q d = .ok text)
    (hn : nonceLine? c = some ⟨"nonce", nonce⟩) (hb : '\n' ∉ nonce.toList)
    (kn : nonceLine? d = some ⟨"nonce", other⟩) (kb : '\n' ∉ other.toList) : nonce = other := by
  have hlast := (lastLine_eq h hn hb).symm.trans (lastLine_eq k kn kb)
  exact String.toList_inj.mp (List.append_cancel_left hlast)

end SigningString

namespace Signature

variable {s : Signature} {r : Request} {scheme nonce : String}

theorem newline_not_mem_nonce (hs : Authorization.ofRequest scheme r = .ok s)
    (hn : s.nonce = some nonce) : '\n' ∉ nonce.toList := by
  obtain ⟨header, hheader, hread⟩ := Authorization.ofRequest_eq_ok_iff.mp hs
  have hw := Authorization.read_wellRead (P := (· ≠ '\n')) hread
    (fun c hc he => Request.newline_not_mem_header? hheader (he ▸ hc))
  intro hm
  exact hw.nonceText nonce hn _ hm rfl

theorem nonceLine?_eq (hs : Authorization.ofRequest scheme r = .ok s) (hn : s.nonce = some nonce)
    (e : Escaping) : SigningString.nonceLine? (s.composition e) = some ⟨"nonce", nonce⟩ := by
  obtain ⟨header, -, hread⟩ := Authorization.ofRequest_eq_ok_iff.mp hs
  have hw := Authorization.read_wellRead (P := fun _ => True) hread (by simp)
  have hgiven : s.nonce.filter (fun n => !n.isEmpty) = some nonce := hw.nonce?_eq.trans hn
  change (s.nonce.filter (fun n => !n.isEmpty)).map (Line.mk "nonce") = _
  rw [hgiven]
  rfl

end Signature

namespace Verifier

variable {ω κ ε : Type} [SigningKey κ] [ClientStore ω κ ε] [NonceStore ω ε]

/-- A request is accepted and, behind other calls, another request of the same client has the same
signing string and the same signature, while the nonces of the first one live. -/
structure Repeats (v : Verifier ω) (clocks : Readings) (a : Attempt κ) (calls : List (Call κ))
    (later : Readings) (b : Attempt κ) : Prop where
  now : clocks.now = a.now
  laterNow : later.now = b.now
  accepted : (v.verify clocks a.request).1 = .ok (.accepted a.signature a.client)
  chronological : Chronological (.verify clocks a.request :: calls ++ [.verify later b.request])
  read : Authorization.ofRequest v.scheme b.request = .ok b.signature
  client : ClientStore.find? b.signature.keyId
    (v.serveAll (.verify clocks a.request :: calls)).store = .ok (some b.client)
  sameClient : b.client.id = a.client.id
  sameString : ∃ text,
    signingString a.request (a.signature.composition a.client.terms.escaping) = .ok text ∧
    signingString b.request (b.signature.composition b.client.terms.escaping) = .ok text
  sameValue : Text.Base64.decode b.signature.value = Text.Base64.decode a.signature.value
  inLifetime : b.now ≤ a.now.later a.client.nonceLifetime

variable {v : Verifier ω} {clocks later : Readings} {a b : Attempt κ} {calls : List (Call κ)}
  {nonce : String}

theorem Repeats.nonce_eq (h : v.Repeats clocks a calls later b) (hv : v.checks.count .nonce = 1)
    (hn : a.signature.nonce = some nonce) {other : String} (ho : b.signature.nonce = some other) :
    nonce = other := by
  obtain ⟨text, ha, hb⟩ := h.sameString
  obtain ⟨hread, -⟩ := (verify_accepted_iff hv).mp h.accepted
  exact SigningString.nonce_unique ha hb
    (Signature.nonceLine?_eq hread hn _) (Signature.newline_not_mem_nonce hread hn)
    (Signature.nonceLine?_eq h.read ho _) (Signature.newline_not_mem_nonce h.read ho)

omit [ClientStore ω κ ε] [NonceStore ω ε] in
/-- The signature is that of the same string, so it is right while the client keeps its key. -/
theorem signed_again {text : String}
    (ha : signingString a.request (a.signature.composition a.client.terms.escaping) = .ok text)
    (hb : signingString b.request (b.signature.composition b.client.terms.escaping) = .ok text)
    (hvalue : Text.Base64.decode b.signature.value = Text.Base64.decode a.signature.value)
    (hkey : b.client.key = a.client.key) (h : a.Signed) : b.Signed := by
  obtain ⟨text', received, hstring, hdecoded, hverified⟩ := h
  obtain rfl := Except.ok.inj (ha.symm.trans hstring)
  exact ⟨text, received, hb, hvalue.trans hdecoded, hkey ▸ hverified⟩

variable [RemembersNonces ω ε] [KeepsNonces ω κ ε ε]

theorem Repeats.remembers (h : v.Repeats clocks a calls later b) (hv : v.checks.count .nonce = 1)
    (hn : a.signature.nonce = some nonce) :
    Remembers (v.serveAll (.verify clocks a.request :: calls)).store (b.client.id, nonce)
      b.now := by
  obtain ⟨-, hold⟩ := accepted_remembers hv h.accepted hn
  have hearlier := RemembersNonces.earlier hold (h.now ▸ h.inLifetime)
  rw [h.sameClient]
  apply serveAll_remembers (v := v.serve (.verify clocks a.request)) hearlier
  intro now hnow
  have hsplit := h.chronological
  rw [Chronological, List.filterMap_append, List.pairwise_append] at hsplit
  obtain ⟨other, hm, hother⟩ := List.mem_filterMap.mp hnow
  have hle : now ≤ later.now := hsplit.2.2 now
    (List.mem_filterMap.mpr ⟨other, List.mem_cons_of_mem _ hm, hother⟩) later.now
    (by simp [Call.time?])
  rwa [h.laterNow] at hle

/-- After a request was accepted with a nonce, a request with the same signing string and the same
signature is accepted, while the nonce lives, exactly if it does not carry the nonce as a parameter
and is otherwise sound. Its signature is right anyway while the client keeps its key. -/
theorem repeated_accepted_iff (h : v.Repeats clocks a calls later b) (hown : v.ownChecks = none)
    (hn : a.signature.nonce = some nonce) :
    (((v.serveAll (.verify clocks a.request :: calls)).verify later b.request).1 =
        .ok (.accepted b.signature b.client) ↔ b.signature.nonce = none ∧ b.Sound) ∧
      (b.client.key = a.client.key → b.Signed) := by
  have hset : (v.serveAll (.verify clocks a.request :: calls)).SetUpAs v := serveAll_setUpAs _
  have hread : Authorization.ofRequest
      (v.serveAll (.verify clocks a.request :: calls)).scheme b.request = .ok b.signature := by
    rw [hset.1]
    exact h.read
  constructor
  · rw [standard_accepted_iff (hset.2.trans hown), h.laterNow]
    constructor
    · intro haccepted
      obtain ⟨-, -, hsound, hnew⟩ := haccepted
      refine ⟨?_, hsound⟩
      cases ho : b.signature.nonce with
      | none => rfl
      | some other =>
        have hremembered := h.remembers (standard_count_nonce hown) hn
        rw [h.nonce_eq (standard_count_nonce hown) hn ho] at hremembered
        have hregistered := hnew other ho
        obtain ⟨hforgotten, -⟩ := RemembersNonces.registered (Prod.ext hregistered rfl)
        exact absurd hremembered hforgotten
    · intro hgiven
      obtain ⟨hnone, hsound⟩ := hgiven
      refine ⟨hread, h.client, hsound, ?_⟩
      simp [hnone]
  · intro hkey
    obtain ⟨text, ha, hb⟩ := h.sameString
    obtain ⟨-, -, hsound, -⟩ := (standard_accepted_iff hown).mp h.accepted
    exact signed_again ha hb h.sameValue hkey hsound.signed

end Verifier

namespace Sample

theorem accepted_in_memory :
    (memory.verify (readings 1000) Place.parameter.sent).1 =
      .ok (.accepted Place.parameter.signature client) :=
  parameter_accepted rfl rfl rfl (by decide) (by decide) rfl

theorem client_in_memory :
    ClientStore.find? "client1"
      (memory.serveAll [.verify (readings 1000) Place.parameter.sent]).store =
        .ok (some client) := by
  have hkept : (memory.verify (readings 1000) Place.parameter.sent).2.store.clients =
      memory.store.clients := Verifier.verify_clients
  rw [Verifier.serveAll_singleton, Verifier.serve_verify]
  generalize (memory.verify (readings 1000) Place.parameter.sent).2.store = u at hkept ⊢
  obtain ⟨clients, nonces⟩ := u
  obtain rfl : clients = memory.store.clients := hkept
  rfl

theorem repeats (p : Place) :
    memory.Repeats (readings 1000)
      ⟨Place.parameter.sent, Place.parameter.signature, client, second 1000⟩ []
      (readings 1300) ⟨p.sent, p.signature, client, second 1300⟩ where
  now := rfl
  laterNow := rfl
  accepted := accepted_in_memory
  chronological := by
    change [second 1000, second 1300].Pairwise (· ≤ ·)
    decide
  read := p.read_sent
  client := client_in_memory
  sameClient := rfl
  sameString := ⟨Place.text, Place.parameter.signingString_sent, p.signingString_sent⟩
  sameValue := rfl
  inLifetime := by
    change second 1300 ≤ (second 1000).later client.nonceLifetime
    decide

/-- With the parameter the signature is refused, with the field it is accepted. -/
theorem moved_nonce_accepted :
    let v := memory.serveAll [.verify (readings 1000) Place.parameter.sent]
    (v.verify (readings 1300) Place.parameter.sent).1 ≠
        .ok (.accepted Place.parameter.signature client) ∧
      (v.verify (readings 1300) Place.field.sent).1 =
        .ok (.accepted Place.field.signature client) := by
  constructor
  · intro haccepted
    have hiff := (Verifier.repeated_accepted_iff (repeats .parameter) rfl rfl).1
    obtain ⟨hnone, -⟩ := hiff.mp haccepted
    cases hnone
  · have hiff := (Verifier.repeated_accepted_iff (repeats .field) rfl rfl).1
    exact hiff.mpr ⟨rfl, Place.field.sound_sent (by decide) (by decide)⟩

/-- A signature that was accepted with a nonce is not accepted once only. -/
theorem signature_not_single_use :
    ¬ ∀ (v : Verifier (Memory Key)) (clocks later : Readings) (a b : Attempt Key)
      (calls : List (Call Key)) (nonce : String), v.ownChecks = none →
      v.Repeats clocks a calls later b → a.signature.nonce = some nonce →
      ((v.serveAll (.verify clocks a.request :: calls)).verify later b.request).1 ≠
        .ok (.accepted b.signature b.client) := by
  intro hclaim
  apply hclaim memory (readings 1000) (readings 1300) _ _ [] "n1" rfl (repeats .field) rfl
  have hset : (memory.serveAll [.verify (readings 1000) Place.parameter.sent]).SetUpAs memory :=
    Verifier.serveAll_setUpAs _
  exact accepted hset.2 hset.1 client_in_memory (by decide) (by decide) (by simp [Place.signature])

end Sample

end SignedHttp
