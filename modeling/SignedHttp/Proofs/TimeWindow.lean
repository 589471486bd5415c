import SignedHttp.Proofs.AlgorithmLabels

namespace SignedHttp

/-- The nanoseconds of the longest span that is added in one go: the milliseconds that fit 64 bits
with a sign. -/
def longestSpan : Nat := 0x7FFFFFFFFFFFFFFF * 1000000

/-- A length of time as a span; a longer one counts as the longest. -/
def Duration.span (d : Duration) : Nat :=
  min d.nanos longestSpan

namespace Instant

variable {t : Instant} {d : Duration}

theorem shift?_eq_none_iff {n : Int} :
    t.shift? n = none ↔ t.nanos + n < earliest.nanos ∨ latest.nanos < t.nanos + n := by
  unfold shift? ofNanos?
  rw [dite_eq_right_iff]
  simp only [reduceCtorEq, imp_false]
  omega

/-- The range of instants is shorter than the longest span, so a sum with a span that was cut off is
out of range, and ends where the sum with the whole span ends. -/
theorem clamped_eq_shift? {n : Int} {last : Instant}
    (h : 0 ≤ n ∧ last = latest ∨ n ≤ 0 ∧ last = earliest) :
    clamped (t.nanos + n) =
      (t.shift? (max (-(longestSpan : Int)) (min n longestSpan))).getD last := by
  have hl := t.le_latest
  have he := t.earliest_le
  apply ext
  rw [nanos_clamped]
  cases hs : t.shift? (max (-(longestSpan : Int)) (min n longestSpan)) with
  | some u =>
    have hu := shift?_eq_some_iff.mp hs
    have hmin := u.earliest_le
    have hmax := u.le_latest
    rw [Option.getD_some]
    simp only [longestSpan, earliest, latest] at hu ⊢
    omega
  | none =>
    have hout := shift?_eq_none_iff.mp hs
    rw [Option.getD_none]
    rcases h with ⟨hn, rfl⟩ | ⟨hn, rfl⟩
    · simp only [longestSpan, earliest, latest] at hout ⊢
      omega
    · simp only [longestSpan, earliest, latest] at hout ⊢
      omega

theorem later_eq_shift? : t.later d = (t.shift? d.span).getD latest := by
  have hspan : max (-(longestSpan : Int)) (min (d.nanos : Int) longestSpan) = d.span := by
    simp only [Duration.span]
    omega
  rw [later, clamped_eq_shift? (Or.inl ⟨by omega, rfl⟩), hspan]

theorem sooner_eq_shift? : t.sooner d = (t.shift? (-d.span)).getD earliest := by
  have hspan : max (-(longestSpan : Int)) (min (-(d.nanos : Int)) longestSpan) = -d.span := by
    simp only [Duration.span]
    omega
  rw [sooner, Int.sub_eq_add_neg, clamped_eq_shift? (Or.inr ⟨by omega, rfl⟩), hspan]

end Instant

namespace Bound

variable {b : Bound} {now t : Instant} {skew : Duration}

def check : Bound → Check
  | created => .creationTime
  | expires => .expirationTime

/-- The nanoseconds by which a time is on the wrong side of the clock: a creation ahead of it, an
expiration behind it. -/
def deviation (now t : Instant) : Bound → Int
  | created => t.nanos - now.nanos
  | expires => now.nanos - t.nanos

/-- The last creation and the first expiration within the skew, made in steps of which none can
leave the range. -/
def limit (now : Instant) (skew : Duration) : Bound → Instant
  | created => (now.shift? skew.span).getD .latest
  | expires => (now.shift? (-skew.span)).getD .earliest

def untimely (t : Instant) : Bound → Rejection
  | created => .notYetCreated t
  | expires => .expired t

/-- What is cut off from a limit changes no comparison. -/
theorem deviation_limit_iff :
    b.deviation (b.limit now skew) t ≤ 0 ↔ b.deviation now t ≤ skew.nanos := by
  cases b with
  | created =>
    have hlimit : t.nanos ≤ (now.later skew).nanos ↔ t.nanos ≤ now.nanos + skew.nanos := by
      rw [← Int.not_lt, ← Instant.lt_def, Instant.later_lt_iff, Int.not_lt]
    rw [Instant.later_eq_shift?] at hlimit
    simp only [deviation, limit]
    omega
  | expires =>
    have hlimit : (now.sooner skew).nanos ≤ t.nanos ↔ now.nanos - skew.nanos ≤ t.nanos := by
      rw [← Int.not_lt, ← Instant.lt_def, Instant.lt_sooner_iff, Int.not_lt]
    rw [Instant.sooner_eq_shift?] at hlimit
    simp only [deviation, limit]
    omega

end Bound

namespace Attempt

variable {κ ω ε : Type} [SigningKey κ]

/-- A time is rejected if it deviates from the clock by more than the skew. -/
theorem rejection?_check (a : Attempt κ) (b : Bound) :
    a.rejection? b.check = (a.signature.bound? b).bind (fun t =>
      if b.deviation a.now t ≤ a.client.clockSkew.nanos then none else some (b.untimely t)) := by
  cases b with
  | created =>
    simp only [Bound.check, rejection?, creationRejection?, Signature.bound?]
    cases a.signature.created with
    | none => rfl
    | some t =>
      have hlate : a.now.later a.client.clockSkew < t ↔
          ¬ Bound.created.deviation a.now t ≤ a.client.clockSkew.nanos := by
        rw [Instant.later_lt_iff, Bound.deviation]
        omega
      simp only [hlate, ite_not, Option.bind_some, Bound.untimely]
  | expires =>
    simp only [Bound.check, rejection?, expirationRejection?, Signature.bound?]
    cases a.signature.expires with
    | none => rfl
    | some t =>
      have hpast : t < a.now.sooner a.client.clockSkew ↔
          ¬ Bound.expires.deviation a.now t ≤ a.client.clockSkew.nanos := by
        rw [Instant.lt_sooner_iff, Bound.deviation]
        omega
      simp only [hpast, ite_not, Option.bind_some, Bound.untimely]

theorem step_check (register : Nonce → ω → Except ε Bool × ω) (a : Attempt κ) (b : Bound) (s : ω) :
    a.step register b.check s = (.ok (a.rejection? b.check), s) := by
  cases b <;> rfl

/-- Either time passes its check exactly if it is absent or deviates from the clock by no more than
the skew, be they as far apart as they may. -/
theorem step_check_passes_iff {register : Nonce → ω → Except ε Bool × ω} {a : Attempt κ} {b : Bound}
    {s : ω} :
    a.step register b.check s = (.ok none, s) ↔
      ∀ t, a.signature.bound? b = some t → b.deviation a.now t ≤ a.client.clockSkew.nanos := by
  rw [step_check, rejection?_check]
  cases a.signature.bound? b with
  | none => simp
  | some t => simp

theorem step_check_rejects {register : Nonce → ω → Except ε Bool × ω} {a : Attempt κ} {b : Bound}
    {t : Instant} (ht : a.signature.bound? b = some t)
    (hout : a.client.clockSkew.nanos < b.deviation a.now t) (s : ω) :
    a.step register b.check s = (.ok (some (b.untimely t)), s) := by
  rw [step_check, rejection?_check, ht, Option.bind_some, if_neg (Int.not_le.mpr hout)]

/-- The window is exact to the nanosecond, at the ends of the range of instants and with the longest
skew as well: whether a time passes is a comparison of unbounded numbers, and a limit that is cut
off wherever a step would leave the range gives the same answer. So a client with a longer skew
passes whenever one with a shorter skew does. -/
theorem window_exact (register : Nonce → ω → Except ε Bool × ω) (a : Attempt κ) (b : Bound)
    (s : ω) :
    (a.step register b.check s = (.ok none, s) ↔
      ∀ t, a.signature.bound? b = some t → b.deviation a.now t ≤ a.client.clockSkew.nanos) ∧
    (∀ t, a.signature.bound? b = some t →
      (a.step register b.check s = (.ok none, s) ↔
        b.deviation (b.limit a.now a.client.clockSkew) t ≤ 0) ∧
      (a.client.clockSkew.nanos < b.deviation a.now t →
        a.step register b.check s = (.ok (some (b.untimely t)), s))) ∧
    ∀ lenient : Client κ, a.client.clockSkew.nanos ≤ lenient.clockSkew.nanos →
      a.step register b.check s = (.ok none, s) →
      ({ a with client := lenient } : Attempt κ).step register b.check s = (.ok none, s) := by
  refine ⟨step_check_passes_iff, fun t ht => ⟨?_, fun hout => step_check_rejects ht hout s⟩, ?_⟩
  · rw [step_check_passes_iff, Bound.deviation_limit_iff, ht]
    simp only [Option.some.injEq, forall_eq']
  · intro lenient hlonger hpass
    rw [step_check_passes_iff] at hpass ⊢
    intro t ht
    have hwithin : b.deviation a.now t ≤ a.client.clockSkew.nanos := hpass t ht
    exact Int.le_trans hwithin (Int.ofNat_le.mpr hlonger)

end Attempt

namespace Sample

def strictClient : Client Key :=
  ⟨"client1", "Client", .hmac (Text.bytes "secret") .sha256,
    ⟨⟨.ofNanos 1, .ofSeconds 300⟩, .rfc3986, []⟩, by decide⟩

def lenientClient : Client Key :=
  ⟨"client1", "Client", .hmac (Text.bytes "secret") .sha256,
    ⟨⟨.longest, .ofSeconds 300⟩, .rfc3986, []⟩, by decide⟩

/-- A signature that begins at the last instant of all and ended at the first. -/
def backwards (c : Client Key) (now : Instant) : Attempt Key where
  request := Place.parameter.request
  signature :=
    { Place.parameter.signature with created := some .latest, expires := some .earliest }
  client := c
  now := now

def beforeLatest (n : Nat) : Instant := .clamped (Instant.latest.nanos - n)

def timed (c : Client Key) (now : Instant) (b : Bound) :
    Except (Empty ⊕ Empty) (Option Rejection) × Memory Key :=
  (backwards c now).step register b.check memory.store

/-- With a skew of a nanosecond the window ends a nanosecond ahead; the longest skew spans the whole
range. -/
theorem extreme_times :
    timed strictClient (beforeLatest 1) .created = (.ok none, memory.store) ∧
      timed lenientClient (beforeLatest 1) .created = (.ok none, memory.store) ∧
      timed strictClient (beforeLatest 2) .created =
        (.ok (some (.notYetCreated .latest)), memory.store) ∧
      timed lenientClient .earliest .created = (.ok none, memory.store) ∧
      timed lenientClient .latest .expires = (.ok none, memory.store) := by
  have hnear := Attempt.window_exact register (backwards strictClient (beforeLatest 1)) .created
    memory.store
  have hout := Attempt.window_exact register (backwards strictClient (beforeLatest 2)) .created
    memory.store
  have hspan := Attempt.window_exact register (backwards lenientClient .earliest) .created
    memory.store
  have hlast := Attempt.window_exact register (backwards lenientClient .latest) .expires
    memory.store
  have hpass : timed strictClient (beforeLatest 1) .created = (.ok none, memory.store) :=
    hnear.1.mpr (by decide)
  refine ⟨hpass, ?_, ?_, ?_, ?_⟩
  · exact hnear.2.2 lenientClient (by decide) hpass
  · exact (hout.2.1 .latest rfl).2 (by decide)
  · exact (hspan.2.1 .latest rfl).1.mpr (by decide)
  · exact hlast.1.mpr (by decide)

end Sample

end SignedHttp
