import Unserlob.Lib.Sha1

/-!
# The digest of a handshake (`sha.c`)

* `rotl`, `loadWord`, `extend`, `s32`, `turn`, `shaChunk`: a block;
* `shaFin`, `sha`: the message, block after block;
* `s32_eq`, **`shaChunk_eq`**: the 80 words and the 80 turns;
* `shaBlocks_eq`, `shaFin_eq`: the whole blocks, and the padding;
* `sha_eq`, **`sha_stores`**: it is SHA-1.
-/

namespace Unserlob

open Sha1 (Word State)

def rotl (x : Word) (n : ℕ) : Word :=
  let n := n % 32
  x <<< n ||| x >>> (32 - n)

/-- `s32[i]` for `i < 16`, byte by byte. -/
def loadWord (buf : List UInt8) (i : ℕ) : Word :=
  let byte (k : ℕ) : Word := (buf.getD (4 * i + k) 0).toBitVec.setWidth 32
  let s : Word := 0 ^^^ byte 0
  let s := s <<< 8 ^^^ byte 1
  let s := s <<< 8 ^^^ byte 2
  s <<< 8 ^^^ byte 3

/-- `s32[i]` for `16 <= i < 32`. -/
def near (s : List Word) (i : ℕ) : Word :=
  rotl (s.getD (i - 3) 0 ^^^ s.getD (i - 8) 0 ^^^ s.getD (i - 14) 0 ^^^ s.getD (i - 16) 0) 1

/-- `s32[i]` for `32 <= i < 80`. -/
def far (s : List Word) (i : ℕ) : Word :=
  rotl (s.getD (i - 6) 0 ^^^ s.getD (i - 16) 0 ^^^ s.getD (i - 28) 0 ^^^ s.getD (i - 32) 0) 2

/-- A loop that stores into `s32` from the left to the right. -/
def extend (g : List Word → ℕ → Word) (k n : ℕ) (s : List Word) : List Word :=
  (List.range' k n).foldl (fun s i => s ++ [g s i]) s

def s32 (buf : List UInt8) : List Word :=
  extend far 32 48 (extend near 16 16 ((List.range 16).map (loadWord buf)))

/-- A turn of the main loop. -/
def turn (s32 : List Word) (r : State) (i : ℕ) : State :=
  let f := match i / 20 with
    | 0 => r.d ^^^ (r.b &&& (r.c ^^^ r.d))
    | 2 => (r.b &&& r.c) ||| (r.b &&& r.d) ||| (r.c &&& r.d)
    | _ => r.b ^^^ r.c ^^^ r.d
  let k : Word := match i / 20 with
    | 0 => 0x5a827999
    | 1 => 0x6ed9eba1
    | 2 => 0x8f1bbcdc
    | _ => 0xca62c1d6
  let tmp := rotl r.a 5 + f + r.e + k + s32.getD i 0
  ⟨tmp, r.a, rotl r.b 30, r.c, r.d⟩

/-- `sha_chunk` -/
def shaChunk (h : State) (buf : List UInt8) : State :=
  let res := (List.range 80).foldl (turn (s32 buf)) h
  ⟨h.a + res.a, h.b + res.b, h.c + res.c, h.d + res.d, h.e + res.e⟩

/-- The last eight bytes: `b64 = bsz * 8U`, the highest byte first. -/
def sizeBytes (bsz : ℕ) : List UInt8 :=
  let b64 : BitVec 64 := BitVec.ofNat 64 (bsz * 8)
  [56, 48, 40, 32, 24, 16, 8, 0].map fun k => UInt8.ofBitVec ((b64 >>> (k : ℕ)).setWidth 8)

/-- `sha_fin`, with what follows the whole blocks. -/
def shaFin (h : State) (buf : List UInt8) (bsz : ℕ) : State :=
  let rsz := bsz % 64
  let l := (buf.take rsz ++ List.replicate (64 - rsz) 0).set rsz 0x80
  -- check if there's room for the filesize indicator
  let hl := if 56 ≤ rsz then (shaChunk h l, List.replicate 64 0) else (h, l)
  shaChunk hl.1 (hl.2.take 56 ++ sizeBytes bsz)

def shaInit : State := ⟨0x67452301, 0xefcdab89, 0x98badcfe, 0x10325476, 0xc3d2e1f0⟩

/-- `for (j = 0; j + 64 <= bsz; j += 64)`, in `n` turns. -/
def shaBlocks (buf : List UInt8) (n : ℕ) : State :=
  (List.range n).foldl (fun h j => shaChunk h ((buf.drop (64 * j)).take 64)) shaInit

/-- A word of the result. -/
def shaOut (v : Word) : List UInt8 :=
  [24, 16, 8, 0].map fun k => UInt8.ofBitVec ((v >>> (k : ℕ)).setWidth 8)

/-- `sha` -/
def sha (buf : List UInt8) : List UInt8 :=
  let bsz := buf.length
  let h :=
    if bsz = 0 then shaChunk shaInit (0x80 :: List.replicate 63 0)
    else
      let rest := bsz % 64
      shaFin (shaBlocks buf (bsz / 64)) (buf.drop (bsz - rest)) bsz
  shaOut h.a ++ shaOut h.b ++ shaOut h.c ++ shaOut h.d ++ shaOut h.e

/-- The example of the standard: `abc`. -/
example : sha [97, 98, 99] = [0xa9, 0x99, 0x3e, 0x36, 0x47, 0x06, 0x81, 0x6a, 0xba, 0x3e, 0x25, 0x71, 0x78,
    0x50, 0xc2, 0x6c, 0x9c, 0xd0, 0xd8, 0x9d] := by decide +kernel

theorem rotl_eq (x : Word) {n : ℕ} (h : n < 32) : rotl x n = x.rotateLeft n := by
  rw [rotl, Nat.mod_eq_of_lt h, BitVec.rotateLeft_def, Nat.mod_eq_of_lt h]

theorem shifted_word (a b c d : BitVec 8) :
    ((((0 ^^^ a.setWidth 32) <<< 8 ^^^ b.setWidth 32) <<< 8 ^^^ c.setWidth 32) <<< 8 ^^^ d.setWidth 32 : Word) =
      a ++ b ++ c ++ d := by
  apply BitVec.eq_of_getLsbD_eq
  intro k hk
  simp only [BitVec.getLsbD_xor, BitVec.getLsbD_shiftLeft, BitVec.getLsbD_setWidth, BitVec.getLsbD_append, hk,
    decide_true, Bool.true_and]
  by_cases h8 : k < 8
  · simp [h8]
  · have hd := BitVec.getLsbD_of_ge d k (by omega)
    by_cases h16 : k - 8 < 8
    · simp [h8, h16, hd, show k - 8 < 32 by omega]
    · have hc := BitVec.getLsbD_of_ge c (k - 8) (by omega)
      by_cases h24 : k - 8 - 8 < 8
      · simp [h8, h16, h24, hd, hc, show k - 8 < 32 by omega, show k - 8 - 8 < 32 by omega]
      · have hb := BitVec.getLsbD_of_ge b (k - 8 - 8) (by omega)
        simp [h8, h16, h24, hd, hc, hb, show k - 8 < 32 by omega, show k - 8 - 8 < 32 by omega,
          show k - 8 - 8 - 8 < 32 by omega]

theorem loadWord_eq (buf : List UInt8) (i : ℕ) : loadWord buf i = Sha1.wordAt buf i :=
  shifted_word _ _ _ _

theorem extend_eq {W : ℕ → Word} {g : List Word → ℕ → Word} {k n : ℕ}
    (h : ∀ i, k ≤ i → i < k + n → g ((List.range i).map W) i = W i) :
    extend g k n ((List.range k).map W) = (List.range (k + n)).map W := by
  induction n with
  | zero => rfl
  | succ n ih =>
      rw [extend, List.range'_concat, List.foldl_append, ← extend, ih fun i h1 h2 => h i h1 (by omega), Nat.one_mul, List.foldl_cons,
        List.foldl_nil, h (k + n) (by omega) (by omega), ← Nat.add_assoc, List.range_succ, List.map_append]
      rfl

theorem getD_range {W : ℕ → Word} {n i : ℕ} (h : i < n) : ((List.range n).map W).getD i 0 = W i := by
  rw [List.getD_eq_getElem?_getD, List.getElem?_map, List.getElem?_range h]
  rfl

theorem s32_eq (buf : List UInt8) : s32 buf = (List.range 80).map (Sha1.schedule (Sha1.wordAt buf)) := by
  have h0 : (List.range 16).map (loadWord buf) = (List.range 16).map (Sha1.schedule (Sha1.wordAt buf)) := by
    refine List.map_congr_left fun i hi => ?_
    rw [loadWord_eq, Sha1.schedule_lt (List.mem_range.mp hi)]
  have h16 : ∀ i, 16 ≤ i → near ((List.range i).map (Sha1.schedule (Sha1.wordAt buf))) i =
      Sha1.schedule (Sha1.wordAt buf) i := by
    intro i hi
    rw [near, getD_range (by omega), getD_range (by omega), getD_range (by omega), getD_range (by omega),
      rotl_eq _ (by omega), ← Sha1.schedule_ge hi]
  have h32 : ∀ i, 32 ≤ i → far ((List.range i).map (Sha1.schedule (Sha1.wordAt buf))) i =
      Sha1.schedule (Sha1.wordAt buf) i := by
    intro i hi
    rw [far, getD_range (by omega), getD_range (by omega), getD_range (by omega), getD_range (by omega),
      rotl_eq _ (by omega), ← Sha1.schedule_far hi]
  rw [s32, h0, extend_eq fun i hi _ => h16 i hi, extend_eq fun i hi _ => h32 i hi]

theorem turn_eq (W : ℕ → Word) {i : ℕ} (hi : i < 80) (r : State) :
    turn ((List.range 80).map W) r i = Sha1.round i (W i) r := by
  have hdiv : i / 20 = 0 ∧ i < 20 ∨ i / 20 = 1 ∧ 20 ≤ i ∧ i < 40 ∨ i / 20 = 2 ∧ 40 ≤ i ∧ i < 60 ∨
      i / 20 = 3 ∧ 60 ≤ i := by omega
  unfold turn Sha1.round Sha1.f Sha1.K
  rw [getD_range hi, rotl_eq _ (by omega), rotl_eq _ (by omega)]
  rcases hdiv with ⟨hd, h⟩ | ⟨hd, h, h'⟩ | ⟨hd, h, h'⟩ | ⟨hd, h⟩
  · simp only [hd, if_pos h, Sha1.f_choose]
  · simp only [hd, if_neg (show ¬ i < 20 by omega), if_pos h']
  · simp only [hd, if_neg (show ¬ i < 20 by omega), if_neg (show ¬ i < 40 by omega), if_pos h',
      Sha1.f_majority]
  · simp only [hd, if_neg (show ¬ i < 20 by omega), if_neg (show ¬ i < 40 by omega),
      if_neg (show ¬ i < 60 by omega)]

theorem shaChunk_eq (h : State) (buf : List UInt8) : shaChunk h buf = Sha1.compress h (Sha1.wordAt buf) := by
  have hturns : ∀ n ≤ 80, (List.range n).foldl (turn (s32 buf)) h =
      Sha1.rounds (Sha1.schedule (Sha1.wordAt buf)) n h := by
    intro n
    induction n with
    | zero => exact fun _ => rfl
    | succ n ih =>
        intro hn
        rw [List.range_succ, List.foldl_append, ih (by omega), List.foldl_cons, List.foldl_nil, s32_eq,
          turn_eq _ (by omega), Sha1.rounds]
  unfold shaChunk Sha1.compress
  rw [hturns 80 (Nat.le_refl 80)]

/-! ## The message -/

theorem shaOut_eq (v : Word) : shaOut v = v.bytes := by
  simp [shaOut, Sha1.Word.bytes]

theorem sizeBytes_eq {n : ℕ} (h : n < 2 ^ 61) : sizeBytes n = Sha1.be64 (8 * n) := by
  have hbyte : ∀ k, UInt8.ofBitVec ((BitVec.ofNat 64 (n * 8) >>> (8 * k)).setWidth 8) =
      UInt8.ofNat (8 * n / 256 ^ k) := by
    intro k
    apply UInt8.toNat_inj.mp
    rw [UInt8.toNat_ofNat']
    show ((BitVec.ofNat 64 (n * 8) >>> (8 * k)).setWidth 8).toNat = _
    rw [BitVec.toNat_setWidth, BitVec.toNat_ushiftRight, BitVec.toNat_ofNat,
      Nat.mod_eq_of_lt (show n * 8 < 2 ^ 64 by omega), Nat.shiftRight_eq_div_pow, Nat.pow_mul, Nat.mul_comm n 8]
  show ((List.range 8).map fun i => UInt8.ofBitVec ((BitVec.ofNat 64 (n * 8) >>> (8 * (7 - i))).setWidth 8)) = _
  exact List.map_congr_left fun i _ => hbyte (7 - i)

/-- **The whole blocks** of a message, whatever follows. -/
theorem shaBlocks_eq (bs p : List UInt8) {n : ℕ} (h : 64 * n ≤ bs.length) :
    shaBlocks bs n = Sha1.absorb (bs ++ p) n := by
  induction n with
  | zero => rfl
  | succ n ih =>
      rw [shaBlocks, List.range_succ, List.foldl_append, ← shaBlocks, ih (by omega), Sha1.absorb_succ,
        List.drop_append_of_le_length (by omega), List.take_append_of_le_length (by rw [List.length_drop]; omega)]
      exact shaChunk_eq _ _

theorem set_sep {rest : List UInt8} (h : rest.length < 64) :
    (rest ++ List.replicate (64 - rest.length) 0).set rest.length 0x80 =
      rest ++ 0x80 :: List.replicate (63 - rest.length) 0 := by
  rw [List.set_append_right _ _ (Nat.le_refl _), Nat.sub_self,
    show 64 - rest.length = 63 - rest.length + 1 by omega, List.replicate_succ, List.set_cons_zero]

theorem shaFin_small (h : State) {rest : List UInt8} {n : ℕ} (hr : n % 64 = rest.length)
    (hlt : rest.length < 56) : shaFin h rest n =
      shaChunk h (rest ++ 0x80 :: List.replicate (55 - rest.length) 0 ++ sizeBytes n) := by
  simp only [shaFin, hr, List.take_length, set_sep (show rest.length < 64 by omega),
    if_neg (Nat.not_le.mpr hlt)]
  rw [List.take_append, List.take_of_length_le (show rest.length ≤ 56 by omega),
    show 56 - rest.length = 55 - rest.length + 1 by omega, List.take_succ_cons, List.take_replicate,
    Nat.min_eq_left (by omega)]

theorem shaFin_large (h : State) {rest : List UInt8} {n : ℕ} (hr : n % 64 = rest.length)
    (hle : 56 ≤ rest.length) (hlt : rest.length < 64) : shaFin h rest n =
      shaChunk (shaChunk h (rest ++ 0x80 :: List.replicate (63 - rest.length) 0))
        (List.replicate 56 0 ++ sizeBytes n) := by
  simp only [shaFin, hr, List.take_length, set_sep hlt, if_pos hle]
  rfl

theorem shaFin_eq {bs : List UInt8} (h : bs.length < 2 ^ 61) :
    shaFin (Sha1.absorb (bs ++ Sha1.pad bs.length) (bs.length / 64)) (bs.drop (bs.length - bs.length % 64))
      bs.length = Sha1.absorb (bs ++ Sha1.pad bs.length) ((bs.length + 72) / 64) := by
  have hn : bs.length - bs.length % 64 = 64 * (bs.length / 64) := by omega
  have hlen : bs.length % 64 = (bs.drop (64 * (bs.length / 64))).length := by
    rw [List.length_drop]
    omega
  have hdrop : ∀ k, ((bs ++ Sha1.pad bs.length).drop (64 * (bs.length / 64 + k))) =
      (bs.drop (64 * (bs.length / 64)) ++ Sha1.pad bs.length).drop (64 * k) := by
    intro k
    rw [Nat.mul_add, ← List.drop_drop, List.drop_append_of_le_length (by omega)]
  have hpad : Sha1.pad bs.length =
      0x80 :: List.replicate ((119 - bs.length % 64) % 64) 0 ++ sizeBytes bs.length := by
    rw [sizeBytes_eq h, Sha1.pad]
  have hdrop0 := hdrop 0
  rw [hn]
  generalize bs.drop (64 * (bs.length / 64)) = rest at hlen hdrop hdrop0
  rw [Nat.add_zero, Nat.mul_zero, List.drop_zero] at hdrop0
  have hlt : rest.length < 64 := by omega
  by_cases h56 : 56 ≤ rest.length
  · have hzeros : (119 - bs.length % 64) % 64 = 63 - rest.length + 56 := by omega
    have hsplit : rest ++ Sha1.pad bs.length =
        (rest ++ 0x80 :: List.replicate (63 - rest.length) 0) ++ (List.replicate 56 0 ++ sizeBytes bs.length) := by
      rw [hpad, hzeros, List.replicate_add]
      simp only [List.append_assoc, List.cons_append]
    have hl : (rest ++ 0x80 :: List.replicate (63 - rest.length) 0).length = 64 := by
      simp
      omega
    rw [shaFin_large _ hlen h56 hlt, show (bs.length + 72) / 64 = bs.length / 64 + 1 + 1 by omega,
      Sha1.absorb_succ, Sha1.absorb_succ, ← shaChunk_eq, ← shaChunk_eq, hdrop 1, hdrop0, hsplit,
      Nat.mul_one, List.take_left' hl, List.drop_left' hl, List.take_of_length_le]
    simp [sizeBytes]
  · have hzeros : (119 - bs.length % 64) % 64 = 55 - rest.length := by omega
    rw [shaFin_small _ hlen (by omega), show (bs.length + 72) / 64 = bs.length / 64 + 1 by omega,
      Sha1.absorb_succ, ← shaChunk_eq, hdrop0, hpad, hzeros,
      List.take_of_length_le, List.append_assoc]
    simp [sizeBytes]
    omega

/-- **`sha` is SHA-1**, of a message whose size in bits fits into 64 bits. -/
theorem sha_eq {bs : List UInt8} (h : bs.length < 2 ^ 61) : sha bs = Sha1.digest bs := by
  have hfin : shaFin (shaBlocks bs (bs.length / 64)) (bs.drop (bs.length - bs.length % 64)) bs.length =
      Sha1.absorb (bs ++ Sha1.pad bs.length) ((bs ++ Sha1.pad bs.length).length / 64) := by
    rw [shaBlocks_eq bs (Sha1.pad bs.length) (by omega), shaFin_eq h, Sha1.length_padded,
      Nat.mul_div_cancel_left _ (by omega)]
  have hall : (if bs.length = 0 then shaChunk shaInit (0x80 :: List.replicate 63 0)
      else shaFin (shaBlocks bs (bs.length / 64)) (bs.drop (bs.length - bs.length % 64)) bs.length) =
      Sha1.absorb (bs ++ Sha1.pad bs.length) ((bs ++ Sha1.pad bs.length).length / 64) := by
    rw [← hfin]
    split_ifs with h0
    · -- an empty message makes up the same block
      cases List.length_eq_zero_iff.mp h0
      rfl
    · rfl
  unfold sha Sha1.digest Sha1.State.bytes
  simp only [hall, shaOut_eq]

/-- **What is stored** are the twenty bytes of the digest, the highest byte of every word first. -/
theorem sha_stores (bs : List UInt8) (h : bs.length < 2 ^ 61) :
    sha bs = Sha1.digest bs ∧ (sha bs).length = 20 := by
  rw [sha_eq h]
  exact ⟨rfl, Sha1.length_digest bs⟩

/-- Fifty-six bytes: the size no longer fits beside the separator. -/
theorem sha_stores_fiftySix : sha (List.replicate 56 0x61) = Sha1.digest (List.replicate 56 0x61) ∧
    (sha (List.replicate 56 0x61)).length = 20 :=
  sha_stores _ (by rw [List.length_replicate]; decide)

end Unserlob
