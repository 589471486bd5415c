import SignedHttp.Proofs.Sending

namespace SignedHttp

namespace Attempt

variable {κ ω ε : Type} [SigningKey κ] {register : Nonce → ω → Except ε Bool × ω}
  {a b : Attempt κ} {label : Option String} {s t : ω}

/-- The same request with another algorithm parameter. -/
def relabelled (a : Attempt κ) (label : Option String) : Attempt κ :=
  { a with signature := { a.signature with algorithm := label } }

/-- The algorithm is left to the key in both signatures, or both name the algorithm of the key. -/
inductive SameLabels (a b : Attempt κ) : Prop
  | leave (ha : a.signature.LeavesAlgorithm) (hb : b.signature.LeavesAlgorithm)
  | name (ha : a.signature.NamesAlgorithm (family a.client.key) (hash a.client.key))
    (hb : b.signature.NamesAlgorithm (family a.client.key) (hash a.client.key))

theorem SameLabels.isDated_eq (h : a.SameLabels b) : b.signature.isDated = a.signature.isDated := by
  cases h with
  | leave ha hb => rw [ha.not_isDated, hb.not_isDated]
  | name ha hb => rw [ha.isDated, hb.isDated]

omit [SigningKey κ] in
/-- The kind of the algorithm shows in the list of names: a dated signature does not list its
creation, any other one does. -/
theorem lists_created_eq (hh : a.headersRejection? = none)
    (hb : a.boundRejection? .created = none) :
    a.signature.lists .created = !a.signature.isDated := by
  cases hd : a.signature.isDated with
  | false =>
    refine (headersRejection?_eq_none_iff.mp hh).1 .created ?_
    simp [Signature.requiredNames, hd]
  | true =>
    rw [Bool.not_true, ← Bool.not_eq_true]
    intro hl
    obtain ⟨hno, -⟩ := boundRejection?_eq_none_iff.mp hb hl
    rw [hd] at hno
    cases hno

/-- Only the checks of the algorithm itself tell labels of one kind apart. -/
theorem rejection?_relabelled_iff
    (hd : (a.relabelled label).signature.isDated = a.signature.isDated) {c : Check}
    (hk : c ≠ .knownAlgorithm) (hm : c ≠ .matchingAlgorithm) :
    (a.relabelled label).rejection? c = none ↔ a.rejection? c = none := by
  have hbound : ∀ b : Bound,
      (a.relabelled label).boundRejection? b = none ↔ a.boundRejection? b = none := by
    intro b
    rw [boundRejection?_eq_none_iff, boundRejection?_eq_none_iff, hd]
    rfl
  cases c with
  | headersPresent =>
    have hnames : (a.relabelled label).signature.requiredNames = a.signature.requiredNames := by
      rw [Signature.requiredNames, Signature.requiredNames, hd]
    simp only [rejection?]
    rw [headersRejection?_eq_none_iff, headersRejection?_eq_none_iff, hnames]
    rfl
  | knownAlgorithm => exact absurd rfl hk
  | matchingAlgorithm => exact absurd rfl hm
  | createdGuard => exact hbound .created
  | creationTime => rfl
  | expiresGuard => exact hbound .expires
  | expirationTime => rfl
  | digest => rfl
  | nonce => rfl
  | signatureString => rfl

/-- Two signatures that differ in their labels both pass the checks only with labels of one
kind. -/
theorem sameLabels_of_passed (ha : ∀ c ∈ Check.standard, a.rejection? c = none)
    (hb : ∀ c ∈ Check.standard, (a.relabelled label).rejection? c = none) :
    a.SameLabels (a.relabelled label) := by
  have hadated := lists_created_eq (ha .headersPresent (by decide)) (ha .createdGuard (by decide))
  have hbdated := lists_created_eq (hb .headersPresent (by decide)) (hb .createdGuard (by decide))
  have hsame : (a.relabelled label).signature.isDated = a.signature.isDated :=
    Bool.not_inj (hbdated.symm.trans hadated)
  have halg := algorithm_iff.mp
    ⟨ha .knownAlgorithm (by decide), ha .matchingAlgorithm (by decide)⟩
  have hblg := algorithm_iff.mp
    ⟨hb .knownAlgorithm (by decide), hb .matchingAlgorithm (by decide)⟩
  rcases halg with hl | hn
  · rcases hblg with kl | kn
    · exact .leave hl kl
    · rw [kn.isDated, hl.not_isDated] at hsame
      cases hsame
  · rcases hblg with kl | kn
    · rw [kl.not_isDated, hn.isDated] at hsame
      cases hsame
    · exact .name hn kn

theorem passed_of_sameLabels (ha : ∀ c ∈ Check.standard, a.rejection? c = none)
    (h : a.SameLabels (a.relabelled label)) :
    ∀ c ∈ Check.standard, (a.relabelled label).rejection? c = none := by
  have halgorithm : (a.relabelled label).algorithmRejection? = none ∧
      (a.relabelled label).mismatchRejection? = none := by
    rw [algorithm_iff]
    cases h with
    | leave _ hb => exact Or.inl hb
    | name _ hb => exact Or.inr hb
  intro c hc
  by_cases hk : c = .knownAlgorithm
  · obtain rfl := hk
    exact halgorithm.1
  · by_cases hm : c = .matchingAlgorithm
    · obtain rfl := hm
      exact halgorithm.2
    · exact (rejection?_relabelled_iff h.isDated_eq hk hm).mpr (ha c hc)

/-- A signature that is accepted is accepted with another algorithm parameter, from the same store,
exactly if both leave the algorithm to the key or both name the algorithm of the client's key. So
no signature is accepted both as a dated one and as one that is not. -/
theorem relabelled_accepted_iff (h : a.run register Check.standard s = (.ok none, t)) :
    ((∃ u, (a.relabelled label).run register Check.standard s = (.ok none, u)) ↔
        a.SameLabels (a.relabelled label)) ∧
      ((a.relabelled label).signature.isDated ≠ a.signature.isDated →
        ∀ u, (a.relabelled label).run register Check.standard s ≠ (.ok none, u)) := by
  have hcount : Check.standard.count .nonce = 1 := by decide
  obtain ⟨hpassed, hnonce⟩ := (run_accepts_iff hcount).mp h
  -- the nonce is the same under both labels, and so is what the store says of it
  have hstep : (a.relabelled label).nonceStep register s = (.ok none, t) := hnonce
  have hsame : ∀ u, (a.relabelled label).run register Check.standard s = (.ok none, u) →
      a.SameLabels (a.relabelled label) := by
    intro u hu
    exact sameLabels_of_passed hpassed ((run_accepts_iff hcount).mp hu).1
  refine ⟨⟨fun haccepted => ?_, fun hlabels => ⟨t, ?_⟩⟩, fun hne u hu => ?_⟩
  · obtain ⟨u, hu⟩ := haccepted
    exact hsame u hu
  · exact (run_accepts_iff hcount).mpr ⟨passed_of_sameLabels hpassed hlabels, hstep⟩
  · exact hne (hsame u hu).isDated_eq

end Attempt

namespace Sample

def unlabelled : Attempt Key :=
  ⟨Place.parameter.sent, Place.parameter.signature, client, second 1000⟩

def register (n : Nonce) (u : Memory Key) : Except (Empty ⊕ Empty) Bool × Memory Key :=
  NonceStore.tryRegister n (second 1000) u

theorem unlabelled_accepted :
    ∃ u, unlabelled.run register Check.standard memory.store = (.ok none, u) := by
  refine ⟨(register ⟨"client1", "n1", (second 1000).later client.nonceLifetime⟩ memory.store).2,
    ?_⟩
  refine (Attempt.run_accepts_iff (by decide)).mpr ⟨?_, rfl⟩
  refine (Attempt.sound_iff (fun h hl => (Place.parameter.names hl).1)).mpr ?_
  exact Place.parameter.sound_sent (by decide) (by decide)

/-- The signature is accepted as `HS2019` as well, and not under the name of the client's own
algorithm. -/
theorem relabelled_samples :
    (∃ u, (unlabelled.relabelled (some "HS2019")).run register Check.standard memory.store =
        (.ok none, u)) ∧
      ∀ u, (unlabelled.relabelled (some "hmac-sha256")).run register Check.standard memory.store ≠
        (.ok none, u) := by
  obtain ⟨t, ht⟩ := unlabelled_accepted
  constructor
  · refine (Attempt.relabelled_accepted_iff ht).1.mpr (.leave nofun ?_)
    intro given hg
    obtain rfl := Option.some.inj hg
    decide
  · exact (Attempt.relabelled_accepted_iff ht).2 (by decide)

end Sample

end SignedHttp
