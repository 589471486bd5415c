import SignedHttp.Proofs.Sending

namespace SignedHttp

open SigningString

/-- A line of the text begins with the name and a colon. -/
def Shows (text name : String) : Prop :=
  ∃ line ∈ List.splitOn '\n' text.toList, (name ++ ": ").toList <+: line

theorem shows_joinLines {ls : List Line} {l : Line} (hm : l ∈ ls) (h : '\n' ∉ l.name.toList) :
    Shows (joinLines ls) l.name := by
  have hstart : (l.name ++ ": ").toList <+: l.text.toList :=
    ⟨l.value.toList, by simp [Line.text]⟩
  have hnone : ∀ d ∈ (l.name ++ ": ").toList, (d == '\n') = false := by
    intro d hd
    rw [String.toList_append] at hd
    rcases List.mem_append.mp hd with hd | hd
    · have hne : d ≠ '\n' := fun he => h (he ▸ hd)
      simpa using hne
    · exact Text.forall_mem_of_all (P := fun d => (d == '\n') = false) (by decide) d hd
  rw [Shows, joinLines, String.toList_ofList, List.splitOn_eq_splitOnP]
  exact Text.exists_piece_of_intercalate (p := (· == '\n')) (beq_self_eq_true '\n')
    (List.mem_map_of_mem (f := fun l : Line => l.text.toList) hm) hstart hnone

/-- There is a date, and the first one cannot be read. -/
def Request.HasUnreadableDate (r : Request) : Prop :=
  ∃ text, r.header? "date" = some text ∧ HttpDate.read? text = none

theorem dateValue?_eq_none {r : Request} (h : r.HasUnreadableDate) :
    dateValue? r .date = none := by
  obtain ⟨text, ht, hr⟩ := h
  have ht : r.header? HeaderName.date.text = some text := ht
  simp [dateValue?, ht, hr]

namespace Attempt

variable {κ : Type} [SigningKey κ] {a : Attempt κ} {g : HeaderName} {ls : List Line}

theorem Sound.times (h : a.Sound) {b : Bound} (hl : a.signature.lists b.name = true) :
    ∃ created expires, a.signature.created = some created ∧
      a.signature.expires = some expires := by
  rcases h.kind with ht | hd
  · obtain ⟨created, hc, -⟩ := ht.given .created
    obtain ⟨expires, he, -⟩ := ht.given .expires
    exact ⟨created, expires, hc, he⟩
  · rw [hd.unlisted b] at hl
    cases hl

/-- No listed name contributes nothing, but for a date that cannot be read. -/
theorem Sound.contributes (h : a.Sound) (hl : a.signature.lists g = true)
    (hdate : ¬ (g = .date ∧ a.request.HasUnreadableDate)) :
    (Source.of g).value? a.request (a.signature.composition a.client.terms.escaping) g ≠
      .ok none := by
  by_cases hp : g.isPseudo = true
  · rcases HeaderName.isPseudo_iff.mp hp with rfl | rfl | rfl
    · exact nofun
    · obtain ⟨created, expires, hc, -⟩ := h.times (b := .created) hl
      change Except.ok _ ≠ Except.ok none
      simp [Signature.composition, hc]
    · obtain ⟨created, expires, hc, he⟩ := h.times (b := .expires) hl
      change expiresValue? _ ≠ Except.ok none
      simp [expiresValue?, Signature.composition, hc, he, Instant.shift?_sub]
  · have hp : g.isPseudo = false := by simpa using hp
    by_cases hd : g = .date
    · subst hd
      obtain ⟨text, ht⟩ := Request.exists_header? (h.present _ hl hp)
      intro hv
      refine hdate ⟨rfl, text, ht, ?_⟩
      have hnone : dateValue? a.request .date = none := Except.ok.inj hv
      simpa [dateValue?, ht] using hnone
    · by_cases hg : g = .digest
      · subst hg
        obtain ⟨body, header, -, -, -, -, hheader, -⟩ := h.body hl
        intro hv
        have hnone := Except.ok.inj hv
        rw [Option.map_eq_none_iff] at hnone
        obtain ⟨v, hv, -⟩ := Option.map_eq_some_iff.mp hheader
        have hsome : a.request.fields.first? HeaderName.digest.text = some v := hv
        rw [hsome] at hnone
        cases hnone
      · rw [of_eq_field hp hd hg]
        cases hv : fieldValue? a.request g <;> simp [Source.value?, hv]

/-- Each listed name has a line, but for a date that cannot be read. -/
theorem Sound.exists_line (h : a.Sound)
    (hls : lines a.request (a.signature.composition a.client.terms.escaping) = .ok ls)
    (hl : a.signature.lists g = true) (he : g.isEmpty = false)
    (hdate : ¬ (g = .date ∧ a.request.HasUnreadableDate)) : ∃ l ∈ ls, l.name = g.text := by
  obtain ⟨front, hfront, hend⟩ := bind_eq_ok_iff.mp hls
  have hm : g ∈ a.signature.headers.getD [] := List.contains_iff_mem.mp hl
  obtain ⟨o, ho⟩ := exists_line? hfront hm he
  have hline := ho
  unfold line? at hline
  rw [he, if_neg Bool.false_ne_true] at hline
  obtain ⟨value, hvalue, rfl⟩ := map_eq_ok_iff.mp hline
  cases value with
  | none => exact absurd hvalue (h.contributes hl hdate)
  | some value =>
    refine ⟨⟨g.text, value⟩, ?_, rfl⟩
    rw [← Except.ok.inj hend]
    exact List.mem_append_left _ ((mem_headerLines_iff hfront).mpr ⟨g, hm, ho⟩)

end Attempt

theorem no_dateLine {r : Request} {c : Composition} {ls : List Line} (hls : lines r c = .ok ls)
    (h : r.HasUnreadableDate) : ∀ l ∈ ls, l.name ≠ HeaderName.date.text := by
  obtain ⟨front, hfront, hend⟩ := bind_eq_ok_iff.mp hls
  rw [← Except.ok.inj hend]
  intro l hm hname
  rcases List.mem_append.mp hm with hm | hm
  · obtain ⟨g, -, hline⟩ := (mem_headerLines_iff hfront).mp hm
    obtain rfl : g = .date := HeaderName.ext ((name_of_line? hline).symm.trans hname)
    have hnone : line? r c .date = .ok ((dateValue? r .date).map (Line.mk "date")) := rfl
    rw [hnone, dateValue?_eq_none h] at hline
    cases hline
  · obtain ⟨n, -, rfl⟩ := Option.map_eq_some_iff.mp (Option.mem_toList.mp hm)
    have hne : "nonce" ≠ HeaderName.date.text := by decide
    exact hne hname

namespace Verifier

variable {ω κ ε : Type} [SigningKey κ] [ClientStore ω κ ε] [NonceStore ω ε] {v : Verifier ω}
  {clocks : Readings} {r : Request} {s : Signature} {c : Client κ}

/-- The text that is checked against the key of the client shows each listed name of an accepted
request, but for a date that cannot be read: that one contributes no line. -/
theorem accepted_covers (hown : v.ownChecks = none)
    (h : (v.verify clocks r).1 = .ok (.accepted s c)) :
    ∃ ls received, lines r (s.composition c.terms.escaping) = .ok ls ∧
      Text.Base64.decode s.value = .ok received ∧
      SigningKey.verify c.key (joinLines ls) received = true ∧
      ∀ g, s.lists g = true →
        (¬ (g = .date ∧ r.HasUnreadableDate) → Shows (joinLines ls) g.text) ∧
        (g = .date → r.HasUnreadableDate → ∀ l ∈ ls, l.name ≠ g.text) := by
  obtain ⟨hread, -, hsound, -⟩ := (standard_accepted_iff hown).mp h
  obtain ⟨text, received, hstring, hdecoded, hverified⟩ := hsound.signed
  obtain ⟨ls, hls, rfl⟩ := map_eq_ok_iff.mp hstring
  refine ⟨ls, received, hls, hdecoded, hverified, fun g hl => ⟨fun hdate => ?_, ?_⟩⟩
  · obtain ⟨l, hm, hname⟩ := hsound.exists_line hls hl (listed_ne_empty hread g hl) hdate
    rw [← hname]
    exact shows_joinLines hm (hname ▸ g.newline_not_mem)
  · intro hg hunreadable
    rw [hg]
    exact no_dateLine hls hunreadable

end Verifier

namespace Sample

/-- The client's signature with a date listed. The text that is signed stays the same. -/
def dated : Signature :=
  { Place.parameter.signature with
    headers := some [.requestTarget, .created, .expires, .date] }

set_option maxRecDepth 2000 in
def datedField : FieldValue where
  bytes := Text.bytes <|
    "Signature keyId=\"client1\",created=1000,expires=1300," ++
      "headers=\"(request-target) (created) (expires) date\",nonce=\"n1\"," ++
      "signature=\"YpxYfiN/K3ghoHmaaSlOJDZpPpIMza0PhCz4q8xH/LU=\""
  wellFormed := by decide +kernel

def undated : Request :=
  { Place.parameter.request with
    fields := [(⟨"date", by decide⟩, ⟨Text.bytes "yesterday", by decide⟩),
      (authorizationName, datedField)] }

set_option maxRecDepth 4000 in
theorem read_undated :
    Authorization.ofRequest Authorization.defaultScheme undated = .ok dated := by decide +kernel

set_option maxRecDepth 4000 in
theorem sound_undated : Attempt.Sound ⟨undated, dated, client, second 1000⟩ := by
  apply (Attempt.sound_iff (Verifier.listed_ne_empty read_undated)).mp
  decide +kernel

theorem undated_accepted :
    (memory.verify (readings 1000) undated).1 = .ok (.accepted dated client) := by
  apply (Verifier.standard_accepted_iff rfl).mpr
  refine ⟨read_undated, rfl, sound_undated, ?_⟩
  intro nonce hn
  obtain rfl := Option.some.inj hn
  rfl

theorem signingString_undated :
    signingString undated (dated.composition client.terms.escaping) = .ok Place.text := by
  decide +kernel

theorem undated_unreadable : undated.HasUnreadableDate :=
  ⟨"yesterday", by decide +kernel, by decide +kernel⟩

/-- The request is accepted, its creation is covered, and its date is not. -/
theorem undated_covers :
    (memory.verify (readings 1000) undated).1 = .ok (.accepted dated client) ∧
      ∃ ls, lines undated (dated.composition client.terms.escaping) = .ok ls ∧
        Shows (joinLines ls) HeaderName.created.text ∧
        ∀ l ∈ ls, l.name ≠ HeaderName.date.text := by
  refine ⟨undated_accepted, ?_⟩
  obtain ⟨ls, -, hls, -, -, hlisted⟩ := Verifier.accepted_covers rfl undated_accepted
  exact ⟨ls, hls, (hlisted .created (by decide)).1 (by simp [HeaderName.created, HeaderName.date]),
    (hlisted .date (by decide)).2 rfl undated_unreadable⟩

/-- Not each name that an accepted request lists is covered. -/
theorem date_not_covered :
    ¬ ∀ (v : Verifier (Memory Key)) (clocks : Readings) (r : Request) (s : Signature)
      (c : Client Key) (text : String), v.ownChecks = none →
      (v.verify clocks r).1 = .ok (.accepted s c) →
      signingString r (s.composition c.terms.escaping) = .ok text →
      ∀ g, s.lists g = true → Shows text g.text := by
  intro hclaim
  have hshown := hclaim memory (readings 1000) undated dated client Place.text rfl undated_accepted
    signingString_undated .date (by decide)
  have hhidden : ¬ Shows Place.text HeaderName.date.text := by
    unfold Shows
    decide
  exact hhidden hshown

end Sample

end SignedHttp
