import SignedHttp.Proofs.Key
import SignedHttp.Proofs.Text.Base64
import SignedHttp.Proofs.Text.Utf8
import SignedHttp.Protection

namespace SignedHttp

namespace Crypto

section Pieces

variable {α : Type} {size : Nat} {xs ys : List α}

theorem pieces_eq (hs : 0 < size) (h : xs ≠ []) :
    pieces size xs = xs.take size :: pieces size (xs.drop size) := by
  obtain ⟨n, rfl⟩ := Nat.exists_eq_succ_of_ne_zero (Nat.ne_of_gt hs)
  cases xs with
  | nil => exact absurd rfl h
  | cons x xs => rw [pieces, List.take_succ_cons, List.drop_succ_cons, Nat.succ_sub_one]

theorem pieces_append (hs : 0 < size) (h : xs.length = size) :
    pieces size (xs ++ ys) = xs :: pieces size ys := by
  have hne : xs ++ ys ≠ [] := by
    intro he
    have hzero := congrArg List.length he
    rw [List.length_append, List.length_nil] at hzero
    omega
  rw [pieces_eq hs hne, List.take_left' h, List.drop_left' h]

theorem pieces_of_le (hs : 0 < size) (hne : xs ≠ []) (h : xs.length ≤ size) :
    pieces size xs = [xs] := by
  rw [pieces_eq hs hne, List.take_of_length_le h, List.drop_of_length_le h, pieces]

theorem flatten_pieces (size : Nat) (xs : List α) : (pieces size xs).flatten = xs := by
  induction xs using pieces.induct size with
  | case1 => rw [pieces, List.flatten_nil]
  | case2 x xs ih =>
    rw [pieces, List.flatten_cons, ih, List.cons_append, List.take_append_drop]

theorem pieces_even (hs : 0 < size) {n : Nat} (h : xs.length = n * size) :
    (pieces size xs).length = n ∧ ∀ piece ∈ pieces size xs, piece.length = size := by
  induction n generalizing xs with
  | zero =>
    rw [Nat.zero_mul] at h
    rw [List.eq_nil_of_length_eq_zero h, pieces]
    exact ⟨rfl, fun _ hm => absurd hm List.not_mem_nil⟩
  | succ n ih =>
    rw [Nat.succ_mul] at h
    have hle : size ≤ xs.length := by omega
    have hne : xs ≠ [] := List.ne_nil_of_length_pos (Nat.lt_of_lt_of_le hs hle)
    have hrest : (xs.drop size).length = n * size := by
      rw [List.length_drop, h, Nat.add_sub_cancel]
    obtain ⟨hlength, hall⟩ := ih hrest
    rw [pieces_eq hs hne]
    exact ⟨congrArg Nat.succ hlength, List.forall_mem_cons.mpr ⟨List.length_take_of_le hle, hall⟩⟩

theorem length_flatten_even {xss : List (List α)} (h : ∀ xs ∈ xss, xs.length = size) :
    xss.flatten.length = xss.length * size := by
  rw [List.length_flatten, List.map_congr_left h, List.map_const', List.sum_replicate_nat]

end Pieces

namespace Aes

theorem length_xor (a b : Bytes) : (xor a b).length = min a.length b.length := List.length_zipWith

theorem xor_xor {a b : Bytes} (h : a.length ≤ b.length) : xor (xor a b) b = a := by
  induction a generalizing b with
  | nil => rfl
  | cons x a ih =>
    cases b with
    | nil => cases h
    | cons y b =>
      have htail : xor (xor a b) b = a := ih (Nat.le_of_succ_le_succ h)
      change ((x ^^^ y) ^^^ y) :: xor (xor a b) b = _
      rw [htail, UInt8.xor_assoc, UInt8.xor_self, UInt8.xor_zero]

theorem length_shiftRows (block : Bytes) : (shiftRows block).length = 16 := by
  rw [shiftRows, List.length_map, List.length_range]

theorem length_mixColumn (column : Bytes) : (mixColumn column).length = column.length := by
  unfold mixColumn
  split <;> rfl

theorem length_mixColumns (block : Bytes) : (mixColumns block).length = block.length := by
  have hcolumns : ∀ columns : List Bytes,
      (columns.flatMap mixColumn).length = columns.flatten.length := by
    intro columns
    induction columns with
    | nil => rfl
    | cons column columns ih =>
      rw [List.flatMap_cons, List.flatten_cons, List.length_append, List.length_append, ih,
        length_mixColumn]
  rw [mixColumns, hcolumns, flatten_pieces]

theorem length_rounds {keys : List Bytes} (hk : ∀ key ∈ keys, key.length = 16) {block : Bytes}
    (hb : block.length = 16) : (rounds block keys).length = 16 := by
  induction keys generalizing block with
  | nil => exact hb
  | cons key keys ih =>
    have hkey := hk key List.mem_cons_self
    cases keys with
    | nil => rw [rounds, length_xor, length_shiftRows, hkey, Nat.min_self]
    | cons next keys =>
      rw [rounds]
      · refine ih (fun k hm => hk k (List.mem_cons_of_mem _ hm)) ?_
        rw [length_xor, length_mixColumns, length_shiftRows, hkey, Nat.min_self]
      · nofun

/-- Words of a key schedule: as many as that, of four bytes each. -/
structure Words (ws : Array Bytes) (n : Nat) : Prop where
  size : ws.size = n
  word : ∀ w ∈ ws, w.length = 4

theorem Words.push {ws : Array Bytes} {n : Nat} (h : Words ws n) (hn : 8 ≤ n) :
    Words (ws.push (nextWord ws n)) (n + 1) := by
  have hget : ∀ j, j < n → ((ws[j]?).getD []).length = 4 := by
    intro j hj
    have hlt : j < ws.size := h.size ▸ hj
    rw [Array.getElem?_eq_getElem hlt, Option.getD_some]
    exact h.word _ (Array.getElem_mem hlt)
  refine ⟨by rw [Array.size_push, h.size], fun w hw => ?_⟩
  rcases Array.mem_push.mp hw with hw | rfl
  · exact h.word w hw
  · have hback := hget (n - 8) (by omega)
    have hlast := hget (n - 1) (by omega)
    unfold nextWord
    simp only
    rw [length_xor, hback]
    refine Nat.min_eq_left (Nat.le_of_eq (Eq.symm ?_))
    split
    · split
      · rfl
      · exact hlast
    · split
      · rw [List.length_map, hlast]
      · exact hlast

theorem length_roundKeys {key : Bytes} (h : key.length = 32) :
    ∀ k ∈ roundKeys key, k.length = 16 := by
  have hstart : Words (pieces 4 key).toArray 8 := by
    obtain ⟨hlength, hall⟩ : (pieces 4 key).length = 8 ∧ ∀ w ∈ pieces 4 key, w.length = 4 :=
      pieces_even (by decide) h
    exact ⟨hlength, fun w hw => hall w (List.mem_toArray.mp hw)⟩
  have hwords : ∀ n, Words ((List.range n).foldl (fun ws i => ws.push (nextWord ws (i + 8)))
      (pieces 4 key).toArray) (n + 8) := by
    intro n
    induction n with
    | zero => exact hstart
    | succ n ih =>
      rw [List.range_succ, List.foldl_append, List.foldl_cons, List.foldl_nil, Nat.succ_add]
      exact ih.push (Nat.le_add_left 8 n)
  obtain ⟨hsize, hword⟩ := hwords 52
  intro k hk
  obtain ⟨ws, hws, rfl⟩ := List.mem_map.mp hk
  have hfour : ws.length = 4 :=
    (pieces_even (n := 15) (by decide) (Array.length_toList.trans hsize)).2 ws hws
  have hall : ∀ w ∈ ws, w.length = 4 := by
    intro w hw
    have hm := List.mem_flatten.mpr ⟨ws, hws, hw⟩
    rw [flatten_pieces] at hm
    exact hword w (Array.mem_toList_iff.mp hm)
  rw [length_flatten_even hall, hfour]

theorem length_encryptBlock {key block : Bytes} (hk : key.length = 32) (hb : block.length = 16) :
    (encryptBlock key block).length = 16 := by
  have hkeys := length_roundKeys hk
  unfold encryptBlock
  cases hround : roundKeys key with
  | nil => exact hb
  | cons first keys =>
    rw [hround] at hkeys
    refine length_rounds (fun k hm => hkeys k (List.mem_cons_of_mem _ hm)) ?_
    rw [length_xor, hb, hkeys first List.mem_cons_self, Nat.min_self]

end Aes

namespace Gcm

variable {key nonce : Bytes}

theorem length_mask (hk : key.length = 32) (hn : nonce.length = nonceLength) (i : Nat) :
    (Aes.encryptBlock key (counterBlock nonce i)).length = 16 := by
  apply Aes.length_encryptBlock hk
  rw [counterBlock, List.length_append, hn, length_toBytes]
  rfl

/-- The text from the `i`-th block on, combined with its counter blocks. -/
def combineFrom (key nonce : Bytes) (i : Nat) (text : Bytes) : Bytes :=
  (((pieces 16 text).zipIdx i).map (fun (block, i) =>
    Aes.xor block (Aes.encryptBlock key (counterBlock nonce (i + 1))))).flatten

theorem combineFrom_nil (i : Nat) : combineFrom key nonce i [] = [] := by
  rw [combineFrom, pieces]
  rfl

theorem combineFrom_last {text : Bytes} (hne : text ≠ []) (h : text.length ≤ 16) (i : Nat) :
    combineFrom key nonce i text =
      Aes.xor text (Aes.encryptBlock key (counterBlock nonce (i + 1))) := by
  rw [combineFrom, pieces_of_le (by decide) hne h]
  simp

theorem combineFrom_append {block text : Bytes} (h : block.length = 16) (i : Nat) :
    combineFrom key nonce i (block ++ text) =
      Aes.xor block (Aes.encryptBlock key (counterBlock nonce (i + 1))) ++
        combineFrom key nonce (i + 1) text := by
  rw [combineFrom, pieces_append (by decide) h]
  rfl

/-- Decrypting undoes encrypting: each block is combined with the same bytes again. -/
theorem combineFrom_twice (hk : key.length = 32) (hn : nonce.length = nonceLength) (text : Bytes)
    (i : Nat) : combineFrom key nonce i (combineFrom key nonce i text) = text := by
  have hmask := length_mask hk hn (i + 1)
  by_cases hlast : text.length ≤ 16
  · by_cases hne : text = []
    · rw [hne, combineFrom_nil, combineFrom_nil]
    · have hle : text.length ≤ (Aes.encryptBlock key (counterBlock nonce (i + 1))).length := by
        rwa [hmask]
      have hlength :=
        (Aes.length_xor text (Aes.encryptBlock key (counterBlock nonce (i + 1)))).trans
          (Nat.min_eq_left hle)
      rw [combineFrom_last hne hlast, combineFrom_last _ (hlength ▸ hlast), Aes.xor_xor hle]
      exact List.ne_nil_of_length_pos (hlength ▸ List.length_pos_of_ne_nil hne)
  · have hblock : (text.take 16).length = 16 := List.length_take_of_le (by omega)
    have hrest := combineFrom_twice hk hn (text.drop 16) (i + 1)
    have hsplit := List.take_append_drop 16 text
    rw [← hsplit, combineFrom_append hblock, combineFrom_append, hrest, Aes.xor_xor]
    · exact Nat.le_of_eq (hblock.trans hmask.symm)
    · rw [Aes.length_xor, hblock, hmask, Nat.min_self]
termination_by text.length
decreasing_by
  rw [List.length_drop]
  omega

theorem length_tag (hk : key.length = 32) (hn : nonce.length = nonceLength) (ciphertext : Bytes) :
    (tag key nonce ciphertext).length = tagLength := by
  simp only [tag]
  rw [Aes.length_xor, length_mask hk hn, length_toBytes]
  rfl

/-- What is encrypted is decrypted with the same key and nonce. -/
theorem decrypt?_encrypt (hk : key.length = 32) (hn : nonce.length = nonceLength) (plain : Bytes) :
    decrypt? key nonce (encrypt key nonce plain) = some plain := by
  have htag := length_tag hk hn (combine key nonce plain)
  have hcut : (encrypt key nonce plain).length - tagLength = (combine key nonce plain).length := by
    rw [encrypt, List.length_append, htag, Nat.add_sub_cancel]
  have hlong : ¬ (encrypt key nonce plain).length < tagLength := by
    rw [encrypt, List.length_append, htag]
    omega
  rw [decrypt?, if_neg hlong, hcut, encrypt, List.take_left, List.drop_left]
  simp only [BEq.rfl, ↓reduceIte]
  exact congrArg some (combineFrom_twice hk hn plain 0)

end Gcm

end Crypto

theorem Text.Utf8.decode?_encode (cs : List Char) : decode? (encode cs) = some cs := by
  rw [decode?, scan_encode]
  induction cs with
  | nil => rfl
  | cons c cs ih => simp [List.mapM_cons, ih]

namespace Protector

open Crypto

theorem length_keyOf (passphrase : String) : (keyOf passphrase).length = 32 := by
  simp [keyOf, Hash.digest, Sha2.sha256, Sha2.hash, Sha2.words32]

theorem reveal_conceal {key salt : Bytes} (hk : key.length = 32)
    (hs : salt.length = Gcm.nonceLength) (plain : String) :
    reveal key (conceal key salt plain) = .ok plain := by
  have hlong : ¬ (salt ++ Gcm.encrypt key salt (Text.bytes plain)).length < Gcm.nonceLength := by
    rw [List.length_append]
    omega
  rw [reveal, conceal, Text.Base64.decode_encode]
  simp only [if_neg hlong]
  rw [List.take_left' hs, List.drop_left' hs, Gcm.decrypt?_encrypt hk hs]
  simp only [Text.bytes, Text.Utf8.decode?_encode, String.ofList_toList]

/-- What is read back of a text once it is stored, if it can be stored. Without a protector it is
stored as it is. -/
def readBack? : Option Protector → String → Option (Except ProtectionDefect String)
  | none, plain => some (.ok plain)
  | some p, plain =>
    match p.protect plain with
    | .ok guarded => some (p.unprotect guarded)
    | .error _ => none

/-- The same is read back in both ways, whatever the stored forms. -/
def Alike (p q : Option Protector) : Prop :=
  ∀ plain, readBack? p plain = readBack? q plain

theorem Alike.refl (p : Option Protector) : Alike p p := fun _ => rfl

theorem Alike.symm {p q : Option Protector} (h : Alike p q) : Alike q p :=
  fun plain => (h plain).symm

def Recovers (p : Option Protector) : Prop :=
  ∀ plain, readBack? p plain = some (.ok plain)

theorem recovers_none : Recovers none := fun _ => rfl

theorem Recovers.alike {p q : Option Protector} (hp : Recovers p) (hq : Recovers q) : Alike p q :=
  fun plain => (hp plain).trans (hq plain).symm

/-- What is read back is what was protected, though not every text need be protected. -/
def Faithful (p : Option Protector) : Prop :=
  ∀ plain read, readBack? p plain = some read → read = .ok plain

theorem Recovers.faithful {p : Option Protector} (h : Recovers p) : Faithful p :=
  fun plain _ hread => (Option.some.inj ((h plain).symm.trans hread)).symm

theorem ofPassphrase_recovers {passphrase : String} {salt : String → Bytes} {p : Protector}
    (h : ofPassphrase passphrase salt = .ok p)
    (hs : ∀ plain, (salt plain).length = Gcm.nonceLength) : Recovers (some p) := by
  unfold ofPassphrase at h
  split at h
  · cases h
  · obtain rfl := Except.ok.inj h
    exact fun plain => congrArg some (reveal_conceal (length_keyOf passphrase) (hs plain) plain)

end Protector

end SignedHttp
