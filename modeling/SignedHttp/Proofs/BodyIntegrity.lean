import SignedHttp.Proofs.Sending

namespace SignedHttp

open SigningString

/-- A line holds a digest of a body, under some spelling of the name of the hash function. -/
def Line.Digests (l : Line) (hash : Hash) (body : Bytes) : Prop :=
  ∃ name encoded, l.text = "digest: " ++ name ++ "=" ++ encoded ∧ '=' ∉ name.toList ∧
    Hash.ofName? name = some hash ∧ Text.Base64.decode encoded = .ok (hash.digest body)

theorem Line.Digests.digest_eq {l : Line} {hash other : Hash} {body second : Bytes}
    (h : l.Digests hash body) (k : l.Digests other second) :
    hash = other ∧ hash.digest second = hash.digest body := by
  obtain ⟨name, encoded, ht, hn, hname, hdecoded⟩ := h
  obtain ⟨name', encoded', kt, kn, kname, kdecoded⟩ := k
  have hsame : name ++ "=" ++ encoded = name' ++ "=" ++ encoded' := by
    have htexts := ht.symm.trans kt
    simp only [String.append_assoc, String.append_right_inj] at htexts ⊢
    exact htexts
  have hcut := (Text.cut_eq_some_iff.mpr ⟨rfl, hn⟩).symm.trans
    ((congrArg (Text.cut '=') hsame).trans (Text.cut_eq_some_iff.mpr ⟨rfl, kn⟩))
  obtain ⟨rfl, rfl⟩ := Prod.mk.inj (Option.some.inj hcut)
  obtain rfl := Option.some.inj (hname.symm.trans kname)
  exact ⟨rfl, (Except.ok.inj (hdecoded.symm.trans kdecoded)).symm⟩

theorem mem_splitOn_joinLines {ls : List Line} {l : Line} (hm : l ∈ ls)
    (h : '\n' ∉ l.text.toList) : l.text.toList ∈ List.splitOn '\n' (joinLines ls).toList := by
  rw [joinLines, String.toList_ofList, List.splitOn_eq_splitOnP]
  refine Text.mem_splitOnP_intercalate (p := (· == '\n')) (beq_self_eq_true '\n')
    (List.mem_map_of_mem (f := fun l : Line => l.text.toList) hm) ?_
  rw [List.splitOnP_eq_singleton (fun d hd => ?_)]
  · exact List.mem_singleton.mpr rfl
  · have hne : d ≠ '\n' := fun he => h (he ▸ hd)
    simpa using hne

namespace Attempt

variable {κ ω ε : Type} [SigningKey κ] {register : Nonce → ω → Except ε Bool × ω}
  {a : Attempt κ} {s t : ω}

def digestLine? (a : Attempt κ) : Except Defect (Option Line) :=
  line? a.request (a.signature.composition a.client.terms.escaping) .digest

omit [SigningKey κ] in
theorem digestLine?_of_header? {header : String} (h : a.request.header? "digest" = some header) :
    a.digestLine? = .ok (some ⟨"digest", Text.trimmed header⟩) := by
  obtain ⟨v, hv, rfl⟩ := Option.map_eq_some_iff.mp h
  have hfirst : a.request.fields.first? HeaderName.digest.text = some v := hv
  change Except.ok _ = _
  rw [hfirst]
  rfl

omit [SigningKey κ] in
theorem BodyMatches.digests (h : a.BodyMatches) (hl : a.signature.lists .digest = true) :
    ∃ body l hash, a.request.body = some body ∧ a.digestLine? = .ok (some l) ∧
      l.Digests hash body ∧ '\n' ∉ l.text.toList := by
  obtain ⟨body, header, name, encoded, hash, hbody, hheader, ht, hn, hname, hdecoded⟩ := h hl
  have htext : "digest" ++ ": " ++ Text.trimmed header = "digest: " ++ name ++ "=" ++ encoded := by
    rw [ht]
    simp [String.append_assoc]
  refine ⟨body, _, hash, hbody, digestLine?_of_header? hheader,
    ⟨name, encoded, htext, hn, hname, hdecoded⟩, ?_⟩
  obtain ⟨v, -, rfl⟩ := Option.map_eq_some_iff.mp hheader
  intro hm
  change '\n' ∈ ("digest: " ++ v.trimmed).toList at hm
  rw [String.toList_append] at hm
  rcases List.mem_append.mp hm with hm | hm
  · exact absurd hm (by decide)
  · exact v.newline_not_mem_trimmed hm

omit [SigningKey κ] in
theorem mem_lines_of_digestLine? {ls : List Line} {l : Line}
    (hls : lines a.request (a.signature.composition a.client.terms.escaping) = .ok ls)
    (hl : a.signature.lists .digest = true) (h : a.digestLine? = .ok (some l)) : l ∈ ls := by
  obtain ⟨front, hfront, hend⟩ := bind_eq_ok_iff.mp hls
  rw [← Except.ok.inj hend]
  exact List.mem_append_left _
    ((mem_headerLines_iff hfront).mpr ⟨.digest, List.contains_iff_mem.mp hl, h⟩)

theorem bodyMatches_of_run (h : a.run register Check.standard s = (.ok none, t)) :
    a.BodyMatches :=
  bodyMatches_iff.mp (((run_accepts_iff (by decide)).mp h).1 .digest (by decide))

/-- An accepted request that lists its digest has a body, and the text that is checked against the
key of the client has a line with the digest of that body. So all accepted requests with that line
have bodies with the same digest. -/
theorem accepted_body_signed (h : a.run register Check.standard s = (.ok none, t))
    (hl : a.signature.lists .digest = true) :
    ∃ body text received l hash, a.request.body = some body ∧
      signingString a.request (a.signature.composition a.client.terms.escaping) = .ok text ∧
      Text.Base64.decode a.signature.value = .ok received ∧
      SigningKey.verify a.client.key text received = true ∧
      a.digestLine? = .ok (some l) ∧ l.text.toList ∈ List.splitOn '\n' text.toList ∧
      l.Digests hash body ∧
      ∀ {κ' ω' ε' : Type} [SigningKey κ'] (b : Attempt κ')
        (register' : Nonce → ω' → Except ε' Bool × ω') (s' t' : ω'),
        b.run register' Check.standard s' = (.ok none, t') → b.signature.lists .digest = true →
        b.digestLine? = .ok (some l) →
        ∃ other, b.request.body = some other ∧ hash.digest other = hash.digest body := by
  obtain ⟨body, l, hash, hbody, hline, hdigests, hbreak⟩ := (bodyMatches_of_run h).digests hl
  obtain ⟨text, received, hstring, hdecoded, hverified⟩ := stringRejection?_eq_none_iff.mp
    (((run_accepts_iff (by decide)).mp h).1 .signatureString (by decide))
  obtain ⟨ls, hls, rfl⟩ := map_eq_ok_iff.mp hstring
  refine ⟨body, _, received, l, hash, hbody, hstring, hdecoded, hverified, hline,
    mem_splitOn_joinLines (mem_lines_of_digestLine? hls hl hline) hbreak, hdigests, ?_⟩
  intro κ' ω' ε' _ b register' s' t' hb hbl hsame
  obtain ⟨other, m, hash', hother, hm, hmdigests, -⟩ := (bodyMatches_of_run hb).digests hbl
  obtain rfl := Option.some.inj (Except.ok.inj (hsame.symm.trans hm))
  exact ⟨other, hother, (hdigests.digest_eq hmdigests).2⟩

end Attempt

namespace Sample

/-- The digest that is signed comes first. Behind it is one of another body. -/
def digestFields : Fields :=
  [(⟨"digest", by decide⟩,
      ⟨Text.bytes "\tsha256=A3ySFO73TMOIfzpPCFtOF9digNr9JzsO4WDAnEuhz9Q= ", by decide⟩),
    (⟨"digest", by decide⟩, ⟨Text.bytes "SHA-256=AAAA", by decide⟩)]

def delivery (method : Method) (uri value : String) : Attempt Key where
  request := ⟨method, uri, digestFields, some (Text.bytes "\x7b\"id\":1\x7d")⟩
  signature :=
    { Place.field.signature with
      headers := some [.requestTarget, .created, .expires, .digest]
      value := value }
  client := client
  now := second 1000

def order : Attempt Key :=
  delivery ⟨"POST", by decide⟩ "/orders" "mKz6JPxoo4STyqlMLvLDN/7WP466vEaDMt5RaP6dBio="

def change : Attempt Key :=
  delivery ⟨"PUT", by decide⟩ "/orders/1" "Lt772puEOwFLNakdNN7MoxB7HWkzyUx3cUIDFv14jVc="

def unregistered (_ : Nonce) (u : Unit) : Except Empty Bool × Unit := (.ok false, u)

set_option maxRecDepth 4000 in
theorem order_accepted : order.run unregistered Check.standard () = (.ok none, ()) :=
  (Attempt.run_accepts_iff (by decide)).mpr ⟨by decide +kernel, rfl⟩

set_option maxRecDepth 4000 in
theorem change_accepted : change.run unregistered Check.standard () = (.ok none, ()) :=
  (Attempt.run_accepts_iff (by decide)).mpr ⟨by decide +kernel, rfl⟩

/-- Both requests sign the digest of the body that they have. -/
theorem deliveries_signed :
    ∃ body other l hash, order.request.body = some body ∧ change.request.body = some other ∧
      order.digestLine? = .ok (some l) ∧ change.digestLine? = .ok (some l) ∧
      l.Digests hash body ∧ hash.digest other = hash.digest body := by
  obtain ⟨body, -, -, l, hash, hbody, -, -, -, hline, -, hdigests, hothers⟩ :=
    Attempt.accepted_body_signed order_accepted (by decide)
  obtain ⟨other, hother, hsame⟩ := hothers change unregistered () () change_accepted (by decide)
    hline
  exact ⟨body, other, l, hash, hbody, hother, hline, hline, hdigests, hsame⟩

end Sample

end SignedHttp
