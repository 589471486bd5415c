import SignedHttp.Key

namespace SignedHttp

namespace Crypto

@[simp]
theorem length_toBytes (len n : Nat) : (toBytes len n).length = len := by
  induction len generalizing n with
  | zero => rfl
  | succ len ih => simp [toBytes, ih]

theorem toBytes_ne_nil {len : Nat} (h : 0 < len) (n : Nat) : toBytes len n ≠ [] :=
  List.ne_nil_of_length_pos (by simpa using h)

end Crypto

open Crypto

theorem Hash.digest_ne_nil (h : Hash) (message : Bytes) : h.digest message ≠ [] := by
  apply List.ne_nil_of_length_pos
  cases h with
  | sha1 => simp [digest, Sha1.digest]
  | sha256 => simp [digest, Sha2.sha256, Sha2.hash, Sha2.words32]
  | sha384 => simp [digest, Sha2.sha384, Sha2.hash, Sha2.words64]
  | sha512 => simp [digest, Sha2.sha512, Sha2.hash, Sha2.words64]

theorem Crypto.Rsa.sign?_ne_nil {key : PrivateKey} {hash : Hash} {message signature : Bytes}
    (h : sign? key hash message = some signature) : signature ≠ [] := by
  obtain ⟨padded, hp, rfl⟩ := Option.map_eq_some_iff.mp h
  refine toBytes_ne_nil ?_ _
  unfold encoded? at hp
  simp only at hp
  split at hp
  · cases hp
  · omega

theorem Crypto.Ecdsa.sign?_ne_nil {d : Nat} {digest signature : Bytes}
    (h : sign? d digest = some signature) : signature ≠ [] := by
  unfold sign? at h
  obtain ⟨k, -, h⟩ := Option.bind_eq_some_iff.mp h
  obtain ⟨q, -, h⟩ := Option.bind_eq_some_iff.mp h
  simp only at h
  split at h
  · cases h
  · rw [← Option.some.inj h]
    simp [toBytes_ne_nil]

theorem Hash.hmac_ne_nil (h : Hash) (secret message : Bytes) : h.hmac secret message ≠ [] := by
  unfold hmac
  exact digest_ne_nil h _

theorem elim_eq_ok {δ : Type} {d : δ} {o : Option Bytes} {signature : Bytes}
    (h : o.elim (.error d) .ok = (.ok signature : Except δ Bytes)) : o = some signature := by
  cases o with
  | none => cases h
  | some bs => rw [Except.ok.inj h]

theorem Key.sign_ne_nil {k : Key} {text : String} {signature : Bytes}
    (h : SigningKey.sign k text = .ok signature) : signature ≠ [] := by
  cases k with
  | hmac secret hash =>
    rw [← Except.ok.inj h]
    exact Hash.hmac_ne_nil hash _ _
  | rsa publicHalf exponent hash =>
    cases exponent with
    | none => cases h
    | some exponent => exact Rsa.sign?_ne_nil (elim_eq_ok h)
  | ecdsa point scalar hash =>
    cases scalar with
    | none => cases h
    | some scalar => exact Ecdsa.sign?_ne_nil (elim_eq_ok h)

end SignedHttp
