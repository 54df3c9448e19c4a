import Unserlob.Lib.Radix

/-!
# Frames

The base framing of the WebSocket protocol: two bytes of flags and a length, which may go on in two or eight
bytes more, a mask key if the flags say so, and the payload.

* `bigEndian`, `ofBytes`: numbers as bytes, the highest first;
* `Form`, `shortest`: the three ways to write a length, and the one to be used;
* `mask`: the payload under a key; `Frame`, `read`: a frame, and how it is read;
* **`read_frame`**: a head, a key and a payload are read as one frame.
-/

namespace Frames

/-- The `k` lowest bytes of a number. -/
def bigEndian (k n : ℕ) : List UInt8 := (Radix.numeral 256 k n).reverse.map UInt8.ofNat

/-- The number of some bytes. -/
def ofBytes (bs : List UInt8) : ℕ := Nat.ofDigits 256 (bs.reverse.map UInt8.toNat)

theorem length_bigEndian (k n : ℕ) : (bigEndian k n).length = k := by simp [bigEndian]

theorem ofBytes_bigEndian {k n : ℕ} (h : n < 256 ^ k) : ofBytes (bigEndian k n) = n := by
  have hback : ((bigEndian k n).reverse.map UInt8.toNat) = Radix.numeral 256 k n := by
    rw [bigEndian, ← List.map_reverse, List.reverse_reverse, List.map_map]
    refine (List.map_congr_left fun d hd => ?_).trans (List.map_id _)
    rw [Function.comp_apply, UInt8.toNat_ofNat', Nat.mod_eq_of_lt (Radix.lt_of_mem_numeral (by decide) hd), id]
  rw [ofBytes, hback, Radix.ofDigits_numeral_of_lt h]

/-- Lengths of seven, sixteen and sixty-four bits. -/
inductive Form where
  | short
  | medium
  | long
  deriving DecidableEq

/-- The first form that a length fits into. -/
def shortest (n : ℕ) : Form := if n < 126 then .short else if n < 2 ^ 16 then .medium else .long

structure Frame where
  fin : Bool
  /-- The three reserved bits. -/
  rsv : ℕ
  opcode : ℕ
  form : Form
  masked : Bool
  payload : List UInt8
  deriving DecidableEq

/-- Every byte under the key, four by four. -/
def mask (key bs : List UInt8) : List UInt8 := bs.mapIdx fun i b => b ^^^ key.getD (i % 4) 0

@[simp] theorem length_mask (key bs : List UInt8) : (mask key bs).length = bs.length := List.length_mapIdx

/-- **Masking twice.** -/
theorem mask_mask (key bs : List UInt8) : mask key (mask key bs) = bs := by
  refine List.ext_getElem? fun i => ?_
  rw [mask, mask, List.getElem?_mapIdx, List.getElem?_mapIdx, Option.map_map]
  refine (congrArg (Option.map · bs[i]?) ?_).trans Option.map_id_apply
  funext b
  rw [Function.comp_apply, UInt8.xor_assoc, UInt8.xor_self, UInt8.xor_zero, id]

theorem mask_zero (bs : List UInt8) : mask (List.replicate 4 0) bs = bs := by
  refine List.ext_getElem? fun i => ?_
  rw [mask, List.getElem?_mapIdx]
  refine (congrArg (Option.map · bs[i]?) ?_).trans Option.map_id_apply
  funext b
  have hkey : (List.replicate 4 (0 : UInt8)).getD (i % 4) 0 = 0 := by
    rw [List.getD_eq_getElem?_getD, List.getElem?_replicate, if_pos (Nat.mod_lt i (by decide)), Option.getD_some]
  rw [hkey, UInt8.xor_zero, id]

/-- The length, by the seven bits for it in the second byte; the highest of sixty-four bits is zero. -/
def readLength (n7 : ℕ) (bs : List UInt8) : Option (Form × ℕ × List UInt8) :=
  if n7 < 126 then some (.short, n7, bs)
  else if n7 = 126 then if 2 ≤ bs.length then some (.medium, ofBytes (bs.take 2), bs.drop 2) else none
  else if 8 ≤ bs.length ∧ ofBytes (bs.take 8) < 2 ^ 63 then some (.long, ofBytes (bs.take 8), bs.drop 8) else none

/-- The seven bits and the bytes for a length in its shortest form. -/
def field (n : ℕ) : ℕ × List UInt8 :=
  match shortest n with
  | .short => (n, [])
  | .medium => (126, bigEndian 2 n)
  | .long => (127, bigEndian 8 n)

theorem field_cases (n : ℕ) :
    n < 126 ∧ shortest n = .short ∧ field n = (n, []) ∨
    126 ≤ n ∧ n < 2 ^ 16 ∧ shortest n = .medium ∧ field n = (126, bigEndian 2 n) ∨
    2 ^ 16 ≤ n ∧ shortest n = .long ∧ field n = (127, bigEndian 8 n) := by
  by_cases h1 : n < 126
  · have hs : shortest n = .short := if_pos h1
    exact Or.inl ⟨h1, hs, by rw [field, hs]⟩
  by_cases h2 : n < 2 ^ 16
  · have hs : shortest n = .medium := by rw [shortest, if_neg h1, if_pos h2]
    exact Or.inr (Or.inl ⟨by omega, h2, hs, by rw [field, hs]⟩)
  · have hs : shortest n = .long := by rw [shortest, if_neg h1, if_neg h2]
    exact Or.inr (Or.inr ⟨by omega, hs, by rw [field, hs]⟩)

theorem field_lt (n : ℕ) : (field n).1 < 128 := by
  rcases field_cases n with ⟨h, -, hf⟩ | ⟨-, -, -, hf⟩ | ⟨-, -, hf⟩
  · rw [hf]
    exact h.trans (by decide)
  · rw [hf]
    exact (by decide : 126 < 128)
  · rw [hf]
    exact (by decide : 127 < 128)

theorem readLength_medium {bs : List UInt8} (h : 2 ≤ bs.length) :
    readLength 126 bs = some (.medium, ofBytes (bs.take 2), bs.drop 2) := by
  rw [readLength, if_neg (by decide), if_pos rfl, if_pos h]

theorem readLength_long {bs : List UInt8} (h : 8 ≤ bs.length) (hn : ofBytes (bs.take 8) < 2 ^ 63) :
    readLength 127 bs = some (.long, ofBytes (bs.take 8), bs.drop 8) := by
  rw [readLength, if_neg (by decide), if_neg (by decide), if_pos ⟨h, hn⟩]

/-- **The shortest form is read.** -/
theorem readLength_field {n : ℕ} (h : n < 2 ^ 63) (r : List UInt8) :
    readLength (field n).1 ((field n).2 ++ r) = some (shortest n, n, r) := by
  have hroom : ∀ k, k ≤ (bigEndian k n ++ r).length := fun k => by
    rw [List.length_append, length_bigEndian]
    omega
  rcases field_cases n with ⟨h1, hs, hf⟩ | ⟨-, h2, hs, hf⟩ | ⟨-, hs, hf⟩
  · rw [hs, hf]
    exact if_pos h1
  · have hval := ofBytes_bigEndian (show n < 256 ^ 2 by omega)
    rw [hs, hf, readLength_medium (hroom 2), List.take_left' (length_bigEndian 2 n),
      List.drop_left' (length_bigEndian 2 n), hval]
  · have hval := ofBytes_bigEndian (show n < 256 ^ 8 by omega)
    have htake : (bigEndian 8 n ++ r).take 8 = bigEndian 8 n := List.take_left' (length_bigEndian 8 n)
    rw [hs, hf, readLength_long (hroom 8) (by rw [htake, hval]; exact h), htake,
      List.drop_left' (length_bigEndian 8 n), hval]

/-- The key, which is there just when the mask bit is set. -/
def readKey (masked : Bool) (bs : List UInt8) : Option (List UInt8 × List UInt8) :=
  if masked then if 4 ≤ bs.length then some (bs.take 4, bs.drop 4) else none
  else some (List.replicate 4 0, bs)

/-- **Reading a frame**, and what is behind it. -/
def read : List UInt8 → Option (Frame × List UInt8)
  | b₀ :: b₁ :: bs => do
    let (form, n, bs) ← readLength (b₁.toNat % 128) bs
    let masked := decide (128 ≤ b₁.toNat)
    let (key, bs) ← readKey masked bs
    if n ≤ bs.length then
      some (⟨decide (128 ≤ b₀.toNat), b₀.toNat / 16 % 8, b₀.toNat % 16, form, masked, mask key (bs.take n)⟩, bs.drop n)
    else none
  | _ => none

/-- **A head, a key and a payload under it** are one frame. -/
theorem read_frame (b₀ : UInt8) {b₁ : UInt8} (key : List UInt8) {payload : List UInt8} (hn : payload.length < 2 ^ 63) (hk : key.length = 4)
    (hb : b₁.toNat = 128 + (field payload.length).1) (rest : List UInt8) :
    read (b₀ :: b₁ :: ((field payload.length).2 ++ (key ++ (mask key payload ++ rest)))) =
      some (⟨decide (128 ≤ b₀.toNat), b₀.toNat / 16 % 8, b₀.toNat % 16, shortest payload.length, true, payload⟩, rest) := by
  have hlt := field_lt payload.length
  have hseven : b₁.toNat % 128 = (field payload.length).1 := by omega
  have hmasked : decide (128 ≤ b₁.toNat) = true := decide_eq_true (by omega)
  have hkey : readKey true (key ++ (mask key payload ++ rest)) = some (key, mask key payload ++ rest) := by
    rw [readKey, if_pos rfl, if_pos (by rw [List.length_append]; omega), List.take_left' hk, List.drop_left' hk]
  have hlen := length_mask key payload
  simp only [read, hseven, hmasked, readLength_field hn, hkey, bind, Option.bind]
  rw [if_pos (by rw [List.length_append]; omega), List.take_left' hlen, List.drop_left' hlen, mask_mask]

end Frames
