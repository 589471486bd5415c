import SignedHttp.Proofs.Results
import SignedHttp.Proofs.Text.Ascii
import SignedHttp.Proofs.Text.Splitting
import SignedHttp.Proofs.Text.Utf8
import SignedHttp.Request

namespace SignedHttp

namespace Fields

variable {fs : Fields} {name : String}

theorem has_iff : fs.has name = true ↔ fs.values name ≠ [] := by
  unfold has values
  rw [List.any_eq_true]
  constructor
  · intro hgiven
    obtain ⟨f, hf, hn⟩ := hgiven
    exact List.ne_nil_of_mem (List.mem_filterMap.mpr ⟨f, hf, if_pos hn⟩)
  · intro hne
    obtain ⟨v, hv⟩ := List.exists_mem_of_ne_nil _ hne
    obtain ⟨f, hf, hn⟩ := List.mem_filterMap.mp hv
    exact ⟨f, hf, (Option.ite_none_right_eq_some.mp hn).1⟩

theorem has_eq_false_iff : fs.has name = false ↔ fs.values name = [] := by
  rw [← Bool.not_eq_true, has_iff, not_not]

theorem values_set (fs : Fields) (f : Field) (name : String) :
    (fs.set f).values name = if f.1.text = Text.lowered name then [f.2] else fs.values name := by
  unfold values set
  rw [List.filterMap_append]
  split
  · next h =>
    have hothers : (fs.filter (fun g => g.1.text != f.1.text)).filterMap
        (fun g => if g.1.text == Text.lowered name then some g.2 else none) = [] := by
      rw [List.filterMap_eq_nil_iff]
      intro g hg
      have hne := (List.mem_filter.mp hg).2
      rw [← h]
      simpa using hne
    rw [hothers]
    simp [h]
  · next h =>
    have hothers : (fs.filter (fun g => g.1.text != f.1.text)).filterMap
        (fun g => if g.1.text == Text.lowered name then some g.2 else none) =
        fs.filterMap (fun g => if g.1.text == Text.lowered name then some g.2 else none) := by
      rw [List.filterMap_filter]
      apply List.filterMap_congr
      intro g _
      by_cases hg : g.1.text = Text.lowered name
      · have hne : g.1.text ≠ f.1.text := fun he => h (he ▸ hg)
        simp [hg, Ne.symm h]
      · simp [hg]
    rw [hothers]
    simp [h]

end Fields

theorem FieldValue.newline_not_mem_text (v : FieldValue) : '\n' ∉ v.text.toList := by
  intro hm
  have hbreak : (10 : UInt8) ∈ v.bytes := Text.Utf8.newline_mem (by
    simpa [FieldValue.text, Text.lossy] using hm)
  have hall := List.all_eq_true.mp v.wellFormed 10 hbreak
  exact absurd hall (by decide)

theorem FieldValue.newline_not_mem_trimmed (v : FieldValue) : '\n' ∉ v.trimmed.toList := by
  intro hm
  rw [FieldValue.trimmed, Text.trimmed, String.toList_ofList] at hm
  exact v.newline_not_mem_text (Text.mem_of_mem_trim hm)

theorem FieldValue.exists_ofBytes? {cs : List Char} (h : ∀ c ∈ cs, Text.IsPrinted c) :
    ∃ v, FieldValue.ofBytes? (Text.Utf8.encode cs) = some v := by
  have hbytes : Text.Utf8.encode cs = cs.map (fun c => UInt8.ofNat c.toNat) :=
    Text.Utf8.encode_of_lt fun c hc => Nat.lt_succ_of_lt (h c hc).2
  have hall : (Text.Utf8.encode cs).all isFieldByte = true := by
    rw [hbytes, List.all_map, List.all_eq_true]
    intro c hc
    have hprinted : ∀ n < 127, 32 ≤ n → isFieldByte (UInt8.ofNat n) = true := by decide
    exact hprinted c.toNat (h c hc).2 (h c hc).1
  exact ⟨⟨_, hall⟩, dif_pos hall⟩

namespace Request

variable {r q : Request} {name value : String}

theorem newline_not_mem_header? {text : String} (h : r.header? name = some text) :
    '\n' ∉ text.toList := by
  obtain ⟨v, -, rfl⟩ := Option.map_eq_some_iff.mp h
  exact v.newline_not_mem_text

/-- The second request is the first one but for the field with a name. -/
structure SameBut (name : String) (r q : Request) : Prop where
  method : q.method = r.method
  uri : q.uri = r.uri
  body : q.body = r.body
  values (n : String) : Text.lowered n ≠ name → q.fields.values n = r.fields.values n

theorem SameBut.refl (name : String) (r : Request) : SameBut name r r :=
  ⟨rfl, rfl, rfl, fun _ _ => rfl⟩

theorem SameBut.trans {p : Request} (h : SameBut name p r) (k : SameBut name r q) :
    SameBut name p q :=
  ⟨k.method.trans h.method, k.uri.trans h.uri, k.body.trans h.body,
    fun n hn => (k.values n hn).trans (h.values n hn)⟩

theorem SameBut.hasHeader (h : SameBut name r q) {n : String} (hn : Text.lowered n ≠ name) :
    q.hasHeader n = r.hasHeader n := by
  rw [Bool.eq_iff_iff]
  unfold Request.hasHeader
  rw [Fields.has_iff, Fields.has_iff, h.values n hn]

theorem SameBut.header? (h : SameBut name r q) {n : String} (hn : Text.lowered n ≠ name) :
    q.header? n = r.header? n := by
  unfold Request.header? Fields.first?
  rw [h.values n hn]

theorem hasHeader_of_header? (h : r.header? name = some value) : r.hasHeader name = true := by
  unfold hasHeader
  rw [Fields.has_iff]
  intro he
  simp [header?, Fields.first?, he] at h

theorem header?_eq_none (h : r.hasHeader name = false) : r.header? name = none := by
  unfold header? Fields.first?
  rw [Fields.has_eq_false_iff.mp h]
  rfl

theorem exists_header? (h : r.hasHeader name = true) : ∃ text, r.header? name = some text := by
  have hne := Fields.has_iff.mp h
  obtain ⟨v, vs, hv⟩ := List.exists_cons_of_ne_nil hne
  exact ⟨v.text, by simp [header?, Fields.first?, hv]⟩

theorem text_of_bytes (s : String) : Text.lossy (Text.bytes s) = s := by
  rw [Text.lossy, Text.bytes, Text.Utf8.decodeLossy_encode, String.ofList_toList]

theorem setHeader_values (h : r.setHeader name value = .ok q) :
    q.method = r.method ∧ q.uri = r.uri ∧ q.body = r.body ∧
      ∃ v : FieldValue, v.text = value ∧ ∀ n, q.fields.values n =
        if Text.lowered name = Text.lowered n then [v] else r.fields.values n := by
  unfold setHeader at h
  obtain ⟨f, hf, he⟩ := bind_eq_ok_iff.mp h
  obtain rfl := Except.ok.inj he
  unfold Field.make at hf
  obtain ⟨fname, hname, hf⟩ := bind_eq_ok_iff.mp hf
  have htext : fname.text = Text.lowered name := by
    unfold FieldName.ofText at hname
    simp only at hname
    split at hname
    · split at hname
      · rw [← Except.ok.inj hname]
        rfl
      · cases hname
    · cases hname
  split at hf
  · next v hv =>
    obtain rfl := Except.ok.inj hf
    have hbytes : v.bytes = Text.bytes value := by
      unfold FieldValue.ofBytes? at hv
      split at hv
      · rw [← Option.some.inj hv]
      · cases hv
    refine ⟨rfl, rfl, rfl, v, ?_, fun n => ?_⟩
    · rw [FieldValue.text, hbytes, text_of_bytes]
    · rw [← htext]
      exact Fields.values_set r.fields (fname, v) n
  · cases hf

theorem exists_setHeader (r : Request) (hname : (FieldName.ofText name).isOk = true)
    (hvalue : ∀ c ∈ value.toList, Text.IsPrinted c) : ∃ q, r.setHeader name value = .ok q := by
  obtain ⟨v, hv⟩ := FieldValue.exists_ofBytes? hvalue
  cases hn : FieldName.ofText name with
  | error d =>
    rw [hn] at hname
    cases hname
  | ok n =>
    have hfield : Field.make name value = .ok (n, v) := by
      refine bind_eq_ok_iff.mpr ⟨n, hn, ?_⟩
      rw [Text.bytes, hv]
      rfl
    exact ⟨_, bind_eq_ok_iff.mpr ⟨(n, v), hfield, rfl⟩⟩

theorem setHeader_sameBut (h : r.setHeader name value = .ok q) :
    SameBut (Text.lowered name) r q := by
  obtain ⟨hm, hu, hb, v, -, hv⟩ := setHeader_values h
  refine ⟨hm, hu, hb, fun n hn => ?_⟩
  rw [hv n, if_neg (Ne.symm hn)]

theorem setHeader_header? (h : r.setHeader name value = .ok q) : q.header? name = some value := by
  obtain ⟨-, -, -, v, ht, hv⟩ := setHeader_values h
  unfold header? Fields.first?
  rw [hv name, if_pos rfl]
  exact congrArg some ht

end Request

end SignedHttp
