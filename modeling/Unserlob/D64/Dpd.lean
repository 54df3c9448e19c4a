import Unserlob.Lib.Decimal
import Unserlob.D64.Text

/-!
# `_Decimal64` words in the DPD build (`dfp754_d64.c`)

The other build keeps the last fifteen digits in five declets and the first one beside the exponent.

* `packDeclet`, `unpackDeclet`: three nibbles in ten bits; they compute `declet` and undo it;
* `mantDpd64`, `quantexpdpd64`, `signDpd64`, `bcd64todpd`: the source's readers and its writer, which the
  lemmas of their names compute on the word of a decimal;
* **`quantexpdpd64_of_ne`**: behind a first digit of eight or nine the exponent is read one place too low.
-/

namespace Unserlob

open Ascii Cursor Decimal

/-- `pack_declet` -/
def packDeclet (x : BitVec 32) : BitVec 32 :=
  let n0 := x &&& 0xf
  let n1 := (x >>> 4) &&& 0xf
  let n2 := (x >>> 8) &&& 0xf
  -- 8 or 9, 0b1000 or 0b1001, store only low bit
  let d0 := if n0 ≥ 8 then n0 &&& 0x1 else n0
  let d1 := if n1 ≥ 8 then n1 &&& 0x1 else n1
  let d2 := if n2 ≥ 8 then n2 &&& 0x1 else n2
  let c := (if n0 ≥ 8 then 0b001#32 else 0) ||| (if n1 ≥ 8 then 0b010 else 0) |||
    (if n2 ≥ 8 then 0b100 else 0)
  let res := d2 <<< 7 ||| d1 <<< 4 ||| d0
  match c.toNat with
  | 0b000 => res
  | 0b001 => res ||| 0b100#32 <<< 1
  | 0b010 => res &&& ~~~0b1110#32 ||| (0b101#32 <<< 1 ||| (d0 &&& 0b110) <<< 4)
  | 0b011 => res ||| (0b100#32 <<< 4 ||| 0b111#32 <<< 1)
  | 0b100 => res &&& ~~~0b1110#32 ||| ((d0 &&& 0b110) <<< 7 ||| 0b110#32 <<< 1)
  | 0b101 => res &&& ~~~0b1100000#32 ||| ((d1 &&& 0b110) <<< 7 ||| 0b010#32 <<< 4 ||| 0b111#32 <<< 1)
  | 0b110 => res &&& ~~~0b1110#32 ||| ((d0 &&& 0b110) <<< 7 ||| 0b111#32 <<< 1)
  | 0b111 => res ||| (0b110#32 <<< 4 ||| 0b111#32 <<< 1)
  | _ => 0

/-- `unpack_declet` -/
def unpackDeclet (x : BitVec 32) : BitVec 32 :=
  let trivial := (x &&& 0b1111) ||| (x &&& 0b1110000) ||| (x &&& 0b1110000000) <<< 1
  if x &&& 0b1000 = 0 then trivial
  else
    match ((x >>> 1) &&& 0b111).toNat with
    | 0b100 => trivial
    | 0b101 =>
      -- ghf -> 100f ghi
      (x &&& 0b1110000000) <<< 1 ||| (0b1000#32 <<< 4 ||| (x &&& 0b0010000)) |||
        ((x &&& 0b1100000) >>> 4 ||| (x &&& 0b1))
    | 0b110 =>
      -- ghc -> 100c ghi
      (0b1000#32 <<< 8 ||| (x &&& 0b0010000000) <<< 1) ||| (x &&& 0b1110000) |||
        ((x &&& 0b1100000000) >>> 7 ||| (x &&& 0b1))
    | 0b111 =>
      match ((x >>> 5) &&& 0b11).toNat with
      | 0b10 =>
        (x &&& 0b1110000000) <<< 1 ||| (0b1000#32 <<< 4 ||| (x &&& 0b0000010000)) |||
          (0b1000#32 <<< 0 ||| (x &&& 0b0000000001))
      | 0b01 =>
        (0b1000#32 <<< 8 ||| (x &&& 0b0010000000) <<< 1) |||
          ((x &&& 0b1100000000) >>> 3 ||| (x &&& 0b0000010000)) ||| (0b1000#32 <<< 0 ||| (x &&& 0b0000000001))
      | 0b00 =>
        (0b1000#32 <<< 8 ||| (x &&& 0b0010000000) <<< 1) ||| (0b1000#32 <<< 4 ||| (x &&& 0b0000010000)) |||
          ((x &&& 0b1100000000) >>> 7 ||| (x &&& 0b1))
      | 0b11 =>
        (0b1000#32 <<< 8 ||| (x &&& 0b0010000000) <<< 1) ||| (0b1000#32 <<< 4 ||| (x &&& 0b0000010000)) |||
          (0b1000#32 <<< 0 ||| (x &&& 0b0000000001))
      | _ => 0
    | _ => 0

/-- `sign_dpd64` -/
def signDpd64 (x : BitVec 64) : ℤ := (x.sshiftRight 63).toInt

/-- `mant_dpd64` -/
def mantDpd64 (x : BitVec 64) : BitVec 64 :=
  -- at least the last 50 bits aye
  let res := x &&& 0x3ffffffffffff
  let b := x >>> 58
  if b &&& 0b11000 = 0b11000 then res ^^^ ((b &&& 0b00001) ||| 0b1000) <<< 50
  else res ^^^ (b &&& 0b00111) <<< 50

/-- `quantexpdpd64` -/
def quantexpdpd64 (x : BitVec 64) : ℤ :=
  let b := x >>> 50
  if b = 0 then 0
  else
    let tmp :=
      if b &&& 0b1100000000000 ≠ 0b1100000000000 then (b &&& 0b1100000000000) >>> 3 ||| (b &&& 0b11111111)
      else (b &&& 0b001100000000) >>> 1 ||| (b &&& 0b11111111)
    (tmp.toNat : ℤ) - 398

/-- `(uint64_t)pack_declet(m & 0xfffU)` -/
def packAt (m : BitVec 64) : BitVec 64 := (packDeclet ((m &&& 0xfff).setWidth 32)).setWidth 64

/-- `bcd64todpd` -/
def bcd64todpd (b : Bcd64) : BitVec 64 :=
  let m := b.mant
  let u := BitVec.ofInt 64 b.sign <<< 63
  let rex := BitVec.ofInt 32 (b.expo + 398)
  -- assemble the d64
  let u := u ^^^ packAt m
  let u := u ^^^ packAt (m >>> 12) <<< 10
  let u := u ^^^ packAt (m >>> 24) <<< 20
  let u := u ^^^ packAt (m >>> 36) <<< 30
  let u := u ^^^ packAt (m >>> 48) <<< 40
  let m := m >>> 60
  let rex :=
    if m ≥ 8 then ((rex &&& 0b1100000000) <<< 1 ^^^ (rex &&& 0b0011111111)) ^^^ 0b1100000000000
    else (rex &&& 0b1100000000) <<< 3 ^^^ (rex &&& 0b0011111111)
  -- the beef bits from the expo
  let u := u ^^^ rex.setWidth 64 <<< 50
  -- the TTT bits (or T)
  u ^^^ (m &&& 0x7) <<< 58

/-- `unpack_declet((m >> i) & 0x3ffU)` -/
def unpackAt (m : BitVec 64) (i : ℕ) : BitVec 64 :=
  (unpackDeclet (((m >>> i) &&& 0x3ff).setWidth 32)).setWidth 64

/-- `b <<= 12U; b ^= unpack_declet((m >> i) & 0x3ffU);` -/
def pushDeclet (m b : BitVec 64) (i : ℕ) : BitVec 64 := b <<< 12 ^^^ unpackAt m i

/-- `dpd64tostr` -/
def dpd64tostr (bsz : ℕ) (x : BitVec 64) : List UInt8 :=
  let e := quantexpdpd64 x
  let m := mantDpd64 x
  if m ≠ 0 then
    -- get us a proper bcd version of M
    let b := [40, 30, 20, 10, 0].foldl (pushDeclet m) (m >>> 50)
    bcd64tostr bsz ⟨b, e, signDpd64 x⟩
  -- no stinking signed 0s and m is in bcd form already
  else bcd64tostr bsz ⟨m, e, 0⟩

/-! ## Declets -/

theorem packDeclet_bcd3 {n : ℕ} (h : n < 1000) :
    packDeclet (BitVec.ofNat 32 (bcd3 n)) = BitVec.ofNat 32 (declet n) := by
  have hall : ∀ n < 1000, packDeclet (BitVec.ofNat 32 (bcd3 n)) = BitVec.ofNat 32 (declet n) := by
    decide +kernel
  exact hall n h

theorem unpackDeclet_declet {n : ℕ} (h : n < 1000) :
    unpackDeclet (BitVec.ofNat 32 (declet n)) = BitVec.ofNat 32 (bcd3 n) := by
  have hall : ∀ n < 1000, unpackDeclet (BitVec.ofNat 32 (declet n)) = BitVec.ofNat 32 (bcd3 n) := by
    decide +kernel
  exact hall n h

theorem bcd3_lt {n : ℕ} (h : n < 1000) : bcd3 n < 4096 := by
  unfold bcd3
  omega

theorem bcd3_eq {n : ℕ} (h : n < 1000) : bcd3 n = Radix.recode 10 16 3 n := by
  rw [Radix.recode_succ, Radix.recode_succ, Radix.recode_succ, bcd3]
  simp only [Radix.recode, Radix.numeral, Nat.ofDigits_nil]
  omega

theorem bcd3_group {n : ℕ} (c i : ℕ) (hi : 3 * i + 3 ≤ n) :
    Radix.recode 10 16 n c / 4096 ^ i % 4096 = bcd3 (c / 1000 ^ i % 1000) := by
  obtain ⟨k, rfl⟩ := Nat.exists_eq_add_of_le hi
  have hlow : Radix.recode 10 16 (3 * i) c < 16 ^ (3 * i) := Radix.recode_lt (by decide) (by decide) (by decide) _ _
  have hthree : Radix.recode 10 16 3 (c / 1000 ^ i) = Radix.recode 10 16 3 (c / 1000 ^ i % 1000) := by
    unfold Radix.recode
    rw [← Radix.numeral_mod (le_refl 3)]
    rfl
  rw [show 3 * i + 3 + k = 3 * i + (3 + k) by omega, Radix.recode_add, Radix.recode_add, Nat.pow_mul 16 3 i,
    Nat.pow_mul 10 3 i, bcd3_eq (Nat.mod_lt _ (by decide)), ← hthree]
  rw [Nat.pow_mul 16 3 i] at hlow
  rw [show (16 ^ 3) ^ i = 4096 ^ i from rfl, show (10 ^ 3) ^ i = 1000 ^ i from rfl,
    Nat.add_mul_div_left _ _ (by positivity), Nat.div_eq_of_lt hlow, Nat.zero_add,
    show 16 ^ 3 = 4096 from rfl, Nat.add_mul_mod_self_left]
  exact Nat.mod_eq_of_lt (Radix.recode_lt (by decide) (by decide) (by decide) 3 _)

theorem toNat_packAt {m : BitVec 64} {n : ℕ} (h : n < 1000) (hm : m.toNat % 4096 = bcd3 n) :
    (packAt m).toNat = declet n := by
  have hx : (m &&& 0xfff).setWidth 32 = BitVec.ofNat 32 (bcd3 n) := by
    rw [← BitVec.toNat_inj, BitVec.toNat_setWidth, BitVec.toNat_and, BitVec.toNat_ofNat,
      show m.toNat &&& (0xfff : BitVec 64).toNat = m.toNat % 4096 from Word.and_low _ 12, hm]
  have hlt := declet_lt h
  rw [packAt, hx, packDeclet_bcd3 h, BitVec.toNat_setWidth, BitVec.toNat_ofNat]
  omega

theorem toNat_unpackAt {m : BitVec 64} {i n : ℕ} (h : n < 1000) (hm : m.toNat / 2 ^ i % 1024 = declet n) :
    (unpackAt m i).toNat = bcd3 n := by
  have hx : ((m >>> i) &&& 0x3ff).setWidth 32 = BitVec.ofNat 32 (declet n) := by
    rw [← BitVec.toNat_inj, BitVec.toNat_setWidth, BitVec.toNat_and, BitVec.toNat_ofNat, BitVec.toNat_ushiftRight,
      Nat.shiftRight_eq_div_pow, show m.toNat / 2 ^ i &&& (0x3ff : BitVec 64).toNat = m.toNat / 2 ^ i % 1024 from
      Word.and_low _ 10, hm]
  have hlt := bcd3_lt h
  rw [unpackAt, hx, unpackDeclet_declet h, BitVec.toNat_setWidth, BitVec.toNat_ofNat]
  omega

theorem toNat_pushDeclet {m : BitVec 64} (b : BitVec 64) {i n : ℕ} (h : n < 1000)
    (hm : m.toNat / 2 ^ i % 1024 = declet n) :
    (pushDeclet m b i).toNat = b.toNat * 4096 % 2 ^ 64 + bcd3 n := by
  have hlt := bcd3_lt h
  rw [pushDeclet, BitVec.toNat_xor, toNat_unpackAt h hm, BitVec.toNat_shiftLeft, Nat.shiftLeft_eq,
    show b.toNat * 2 ^ 12 % 2 ^ 64 = b.toNat % 2 ^ 52 * 2 ^ 12 by omega, Word.xor_of_lt _ hlt]
  omega

/-! ## The readers -/

theorem toNat_and_mask {w : ℕ} (x m : BitVec w) {j k : ℕ} (hm : m.toNat = (2 ^ k - 1) * 2 ^ j) :
    (x &&& m).toNat = x.toNat / 2 ^ j % 2 ^ k * 2 ^ j := by
  rw [BitVec.toNat_and, hm, Word.and_mask]

theorem toNat_mantDpd64 (x : BitVec 64) : (mantDpd64 x).toNat =
    (if x.toNat / 2 ^ 61 % 4 = 3 then 8 + x.toNat / 2 ^ 58 % 2 else x.toNat / 2 ^ 58 % 8) * 2 ^ 50 +
      x.toNat % 2 ^ 50 := by
  have hx := x.isLt
  have hb : (x >>> 58).toNat = x.toNat / 2 ^ 58 := by rw [BitVec.toNat_ushiftRight, Nat.shiftRight_eq_div_pow]
  have hlow : (x &&& 0x3ffffffffffff).toNat = x.toNat % 2 ^ 50 := by
    rw [BitVec.toNat_and]
    exact Word.and_low _ 50
  have hcase : (x >>> 58) &&& 0b11000 = 0b11000 ↔ x.toNat / 2 ^ 61 % 4 = 3 := by
    rw [← BitVec.toNat_inj, toNat_and_mask _ _ (j := 3) (k := 2) rfl, hb]
    change _ = 3 * 2 ^ 3 ↔ _
    omega
  have hone : (((x >>> 58) &&& 0b00001) ||| 0b1000).toNat = 8 + x.toNat / 2 ^ 58 % 2 := by
    rw [BitVec.toNat_or, toNat_and_mask _ _ (j := 0) (k := 1) rfl, hb, Nat.lor_comm]
    have h := Word.or_of_lt 1 (b := x.toNat / 2 ^ 58 % 2) (k := 3) (by omega)
    simpa using h
  have hthree : ((x >>> 58) &&& 0b00111).toNat = x.toNat / 2 ^ 58 % 8 := by
    rw [BitVec.toNat_and, hb]
    exact Word.and_low _ 3
  have hput : ∀ t : BitVec 64, t.toNat < 16 →
      ((x &&& 0x3ffffffffffff#64) ^^^ t <<< 50).toNat = t.toNat * 2 ^ 50 + x.toNat % 2 ^ 50 := by
    intro t ht
    rw [BitVec.toNat_xor, show (x &&& 0x3ffffffffffff#64).toNat = x.toNat % 2 ^ 50 from hlow,
      BitVec.toNat_shiftLeft, Nat.shiftLeft_eq, Nat.mod_eq_of_lt (show t.toNat * 2 ^ 50 < 2 ^ 64 by omega),
      Nat.xor_comm]
    exact Word.xor_of_lt _ (by omega)
  rw [mantDpd64]
  by_cases h : x.toNat / 2 ^ 61 % 4 = 3
  · rw [if_pos (hcase.mpr h), if_pos h, ← hone]
    exact hput _ (by omega)
  · rw [if_neg (mt hcase.mp h), if_neg h, ← hthree]
    exact hput _ (by omega)

/-- The exponent field as it is read: behind a first digit from eight on its bits are taken from one place
further down, and bit seven comes from two places. -/
def readBiased (top biased : ℕ) : ℕ :=
  if top < 8 then biased
  else biased / 256 % 2 * 256 + max (top - 8) (biased % 256 / 128) * 128 + biased % 128

theorem or_shared {t y : ℕ} (ht : t < 4) (hy : y < 256) :
    t * 2 ^ 7 ||| y = t / 2 * 256 + max (t % 2) (y / 128) * 128 + y % 128 := by
  have hall : ∀ t < 4, ∀ y < 256, t * 2 ^ 7 ||| y = t / 2 * 256 + max (t % 2) (y / 128) * 128 + y % 128 := by
    decide +kernel
  exact hall t ht y hy

theorem quantexpdpd64_eq {x : BitVec 64} (h0 : x.toNat / 2 ^ 50 ≠ 0) : quantexpdpd64 x =
    ((if x.toNat / 2 ^ 61 % 4 = 3 then
        x.toNat / 2 ^ 59 % 2 * 256 + max (x.toNat / 2 ^ 58 % 2) (x.toNat / 2 ^ 57 % 2) * 128 + x.toNat / 2 ^ 50 % 128
      else x.toNat / 2 ^ 61 % 4 * 256 + x.toNat / 2 ^ 50 % 256 : ℕ) : ℤ) - 398 := by
  have hx := x.isLt
  have hb : (x >>> 50).toNat = x.toNat / 2 ^ 50 := by rw [BitVec.toNat_ushiftRight, Nat.shiftRight_eq_div_pow]
  have hne : x >>> 50 ≠ 0 := by
    rw [Ne, ← BitVec.toNat_inj, hb]
    exact h0
  have hlow : ((x >>> 50) &&& 0b11111111).toNat = x.toNat / 2 ^ 50 % 256 := by
    rw [BitVec.toNat_and, hb]
    exact Word.and_low _ 8
  have hhigh : ((x >>> 50) &&& 0b1100000000000).toNat = x.toNat / 2 ^ 61 % 4 * 2 ^ 11 := by
    rw [toNat_and_mask _ _ (j := 11) (k := 2) rfl, hb]
    omega
  have hmid : ((x >>> 50) &&& 0b001100000000).toNat = x.toNat / 2 ^ 58 % 4 * 2 ^ 8 := by
    rw [toNat_and_mask _ _ (j := 8) (k := 2) rfl, hb]
    omega
  have hcase : (x >>> 50) &&& 0b1100000000000 ≠ 0b1100000000000 ↔ ¬ x.toNat / 2 ^ 61 % 4 = 3 := by
    rw [Ne, ← BitVec.toNat_inj, hhigh]
    change ¬ _ = 3 * 2 ^ 11 ↔ _
    omega
  have hplain : (((x >>> 50) &&& 0b1100000000000) >>> 3 ||| ((x >>> 50) &&& 0b11111111)).toNat =
      x.toNat / 2 ^ 61 % 4 * 256 + x.toNat / 2 ^ 50 % 256 := by
    rw [BitVec.toNat_or, BitVec.toNat_ushiftRight, hhigh, hlow, Nat.shiftRight_eq_div_pow,
      show x.toNat / 2 ^ 61 % 4 * 2 ^ 11 / 2 ^ 3 = x.toNat / 2 ^ 61 % 4 * 2 ^ 8 by omega]
    exact Word.or_of_lt _ (by omega)
  have hspec : (((x >>> 50) &&& 0b001100000000) >>> 1 ||| ((x >>> 50) &&& 0b11111111)).toNat =
      x.toNat / 2 ^ 59 % 2 * 256 + max (x.toNat / 2 ^ 58 % 2) (x.toNat / 2 ^ 57 % 2) * 128 + x.toNat / 2 ^ 50 % 128 := by
    rw [BitVec.toNat_or, BitVec.toNat_ushiftRight, hmid, hlow, Nat.shiftRight_eq_div_pow,
      show x.toNat / 2 ^ 58 % 4 * 2 ^ 8 / 2 ^ 1 = x.toNat / 2 ^ 58 % 4 * 2 ^ 7 by omega,
      or_shared (by omega) (by omega)]
    have h1 : x.toNat / 2 ^ 58 % 4 / 2 = x.toNat / 2 ^ 59 % 2 := by omega
    have h2 : x.toNat / 2 ^ 58 % 4 % 2 = x.toNat / 2 ^ 58 % 2 := by omega
    have h3 : x.toNat / 2 ^ 50 % 256 / 128 = x.toNat / 2 ^ 57 % 2 := by omega
    have h4 : x.toNat / 2 ^ 50 % 256 % 128 = x.toNat / 2 ^ 50 % 128 := by omega
    rw [h1, h2, h3, h4]
  rw [quantexpdpd64, if_neg hne]
  by_cases h : x.toNat / 2 ^ 61 % 4 = 3
  · rw [if_neg (hcase.not_left.mpr h), if_pos h]
    exact congrArg (fun n : ℕ => (n : ℤ) - 398) hspec
  · rw [if_pos (hcase.mpr h), if_neg h]
    exact congrArg (fun n : ℕ => (n : ℤ) - 398) hplain

section Fields
variable (s biased : ℕ) {comb ds : ℕ} (hcomb : comb < 32) (hds : ds < 2 ^ 50)

variable (comb) in
include hds in
theorem dpdWord_mid : dpdWord s comb biased ds / 2 ^ 50 % 256 = biased % 256 := by
  unfold dpdWord
  omega

variable (comb) in
include hds in
theorem dpdWord_low : dpdWord s comb biased ds % 2 ^ 50 = ds := by
  unfold dpdWord
  omega

include hcomb hds

theorem dpdWord_high : dpdWord s comb biased ds / 2 ^ 58 % 32 = comb := by
  unfold dpdWord
  omega

theorem dpdWord_sign : dpdWord s comb biased ds / 2 ^ 63 = s := by
  unfold dpdWord
  omega

end Fields

theorem combination_read {top biased : ℕ} (ht : top < 10) (hb : biased < 768) :
    (if combination top biased / 8 = 3 then 8 + combination top biased % 2 else combination top biased % 8) = top := by
  unfold combination
  split_ifs <;> omega

section Read
variable {d : Dec} {x : BitVec 64} (hx : x.toNat = dpd d)
include hx

theorem mantDpd64_dpd : (mantDpd64 x).toNat = d.coef / 10 ^ 15 * 2 ^ 50 + declets 5 d.coef := by
  have ht : d.coef / 10 ^ 15 < 10 := Nat.div_lt_of_lt_mul d.coef_lt
  have hcomb := combination_lt ht d.biased_lt
  have hhigh := dpdWord_high (signBit d.neg) d.biased (hcomb.trans (by decide)) (declets_lt 5 d.coef)
  have hlow := dpdWord_low (signBit d.neg) d.biased (combination (d.coef / 10 ^ 15) d.biased) (declets_lt 5 d.coef)
  have htop := combination_read ht d.biased_lt
  rw [toNat_mantDpd64, hx, dpd, hlow]
  generalize dpdWord _ _ _ _ = w at hhigh
  generalize combination _ _ = comb at *
  rw [show w / 2 ^ 61 % 4 = comb / 8 by omega, show w / 2 ^ 58 % 2 = comb % 2 by omega,
    show w / 2 ^ 58 % 8 = comb % 8 by omega, htop]

/-- **The exponent read.** -/
theorem quantexpdpd64_of_ne (h0 : x.toNat / 2 ^ 50 ≠ 0) :
    quantexpdpd64 x = (readBiased (d.coef / 10 ^ 15) d.biased : ℤ) - 398 := by
  have hb := d.biased_lt
  have ht : d.coef / 10 ^ 15 < 10 := Nat.div_lt_of_lt_mul d.coef_lt
  have hcomb := combination_lt ht d.biased_lt
  have hhigh := dpdWord_high (signBit d.neg) d.biased (hcomb.trans (by decide)) (declets_lt 5 d.coef)
  have hmid := dpdWord_mid (signBit d.neg) d.biased (combination (d.coef / 10 ^ 15) d.biased) (declets_lt 5 d.coef)
  rw [← dpd, ← hx] at hhigh hmid
  generalize d.coef / 10 ^ 15 = top at *
  generalize d.biased = biased at *
  unfold combination at hhigh
  unfold readBiased
  by_cases h8 : top < 8
  · rw [if_pos h8] at hhigh
    have h1 : x.toNat / 2 ^ 61 % 4 = biased / 256 := by omega
    rw [quantexpdpd64_eq h0, if_neg (by omega), h1, hmid, if_pos h8]
    omega
  · rw [if_neg h8] at hhigh
    have h3 : x.toNat / 2 ^ 61 % 4 = x.toNat / 2 ^ 58 % 32 / 8 := by omega
    have h1 : x.toNat / 2 ^ 59 % 2 = biased / 256 % 2 := by omega
    have h2 : x.toNat / 2 ^ 58 % 2 = top - 8 := by omega
    have h4 : x.toNat / 2 ^ 57 % 2 = biased % 256 / 128 := by omega
    have h5 : x.toNat / 2 ^ 50 % 128 = biased % 128 := by omega
    rw [quantexpdpd64_eq h0, if_pos (h3.trans (by omega)), h1, h2, h4, h5, if_neg h8]

theorem dpd_head_eq_zero_iff : x.toNat / 2 ^ 50 = 0 ↔ d.neg = false ∧ d.biased = 0 ∧ d.coef < 10 ^ 15 := by
  have hb := d.biased_lt
  have hds := declets_lt 5 d.coef
  have hc := d.coef_lt
  rw [hx, dpd, dpdWord, combination]
  cases d.neg with
  | true =>
      rw [show signBit true = 1 from rfl]
      split_ifs <;> simp <;> omega
  | false =>
      rw [show signBit false = 0 from rfl]
      split_ifs <;> simp <;> omega

theorem quantexpdpd64_dpd (h : 0 < d.biased) :
    quantexpdpd64 x = (readBiased (d.coef / 10 ^ 15) d.biased : ℤ) - 398 :=
  quantexpdpd64_of_ne hx fun h0 => by
    rw [((dpd_head_eq_zero_iff hx).mp h0).2.1] at h
    exact absurd h (lt_irrefl 0)

theorem signDpd64_dpd : signDpd64 x = if d.neg then -1 else 0 := by
  have ht : d.coef / 10 ^ 15 < 10 := Nat.div_lt_of_lt_mul d.coef_lt
  have hcomb := combination_lt ht d.biased_lt
  have hs := dpdWord_sign (signBit d.neg) d.biased (hcomb.trans (by decide)) (declets_lt 5 d.coef)
  rw [← dpd, ← hx] at hs
  have hsign : signDpd64 x = if 2 ^ 63 ≤ x.toNat then -1 else 0 := signBid64_eq x
  rw [hsign]
  cases hn : d.neg
  · rw [hn] at hs
    exact if_neg (by rw [signBit] at hs; simp at hs; omega)
  · rw [hn] at hs
    exact if_pos (by rw [signBit] at hs; simp at hs; omega)

end Read

/-! ## The writer -/

theorem toNat_shl {u : BitVec 64} {i : ℕ} (h : u.toNat * 2 ^ i < 2 ^ 64) : (u <<< i).toNat = u.toNat * 2 ^ i := by
  rw [BitVec.toNat_shiftLeft, Nat.shiftLeft_eq, Nat.mod_eq_of_lt h]

/-- The exponent bits where the word has them. -/
def spread (top r : ℕ) : ℕ := if top ≥ 8 then 3 * 2 ^ 11 + r / 256 * 2 ^ 9 + r % 256 else r / 256 * 2 ^ 11 + r % 256

theorem spread_put {s top r ds : ℕ} (ht : top < 10) (hr : r < 1024) (hd : ds < 2 ^ 50) :
    (s * 2 ^ 63 + ds) ^^^ (spread top r * 2 ^ 50) ^^^ (top % 8 * 2 ^ 58) = dpdWord s (combination top r) r ds := by
  rw [dpdWord, spread, combination]
  by_cases h8 : top ≥ 8
  · rw [if_pos h8, if_neg (by omega)]
    have h3 : s * 2 ^ 63 + (3 * 2 ^ 11 + r / 256 * 2 ^ 9 + r % 256) * 2 ^ 50 + ds =
        (s * 2 ^ 4 + 3 * 2 ^ 2 + r / 256) * 2 ^ 59 + (r % 256 * 2 ^ 50 + ds) := by ring
    have h8' : top % 8 = top - 8 := by omega
    have h4 : (s * 2 ^ 4 + 3 * 2 ^ 2 + r / 256) * 2 ^ 59 + top % 8 * 2 ^ 58 + (r % 256 * 2 ^ 50 + ds) =
        s * 2 ^ 63 + ((24 + r / 256 * 2 + (top - 8)) * 2 ^ 58 + r % 256 * 2 ^ 50 + ds) := by
      rw [h8']
      ring
    have h1 := Word.put s (show 13 + 50 = 63 from rfl) hd
      (show 3 * 2 ^ 11 + r / 256 * 2 ^ 9 + r % 256 < 2 ^ 13 by omega)
    have h2 := Word.put (s * 2 ^ 4 + 3 * 2 ^ 2 + r / 256) (show 1 + 58 = 59 from rfl)
      (show r % 256 * 2 ^ 50 + ds < 2 ^ 58 by omega) (show top % 8 < 2 ^ 1 by omega)
    exact (congrArg (fun u : ℕ => u ^^^ (top % 8 * 2 ^ 58)) (h1.trans h3)).trans (h2.trans h4)
  · rw [if_neg h8, if_pos (by omega)]
    have h3 : s * 2 ^ 63 + (r / 256 * 2 ^ 11 + r % 256) * 2 ^ 50 + ds =
        (s * 2 ^ 2 + r / 256) * 2 ^ 61 + (r % 256 * 2 ^ 50 + ds) := by ring
    have h4 : (s * 2 ^ 2 + r / 256) * 2 ^ 61 + top % 8 * 2 ^ 58 + (r % 256 * 2 ^ 50 + ds) =
        s * 2 ^ 63 + ((r / 256 * 8 + top) * 2 ^ 58 + r % 256 * 2 ^ 50 + ds) := by
      rw [Nat.mod_eq_of_lt (show top < 8 by omega)]
      ring
    have h1 := Word.put s (show 13 + 50 = 63 from rfl) hd (show r / 256 * 2 ^ 11 + r % 256 < 2 ^ 13 by omega)
    have h2 := Word.put (s * 2 ^ 2 + r / 256) (show 3 + 58 = 61 from rfl)
      (show r % 256 * 2 ^ 50 + ds < 2 ^ 58 by omega) (show top % 8 < 2 ^ 3 by omega)
    exact (congrArg (fun u : ℕ => u ^^^ (top % 8 * 2 ^ 58)) (h1.trans h3)).trans (h2.trans h4)

theorem toNat_beef {u rex t : BitVec 64} {s top r ds : ℕ} (ht : top < 10) (hr : r < 1024) (hd : ds < 2 ^ 50)
    (hu : u.toNat = s * 2 ^ 63 + ds) (hrex : rex.toNat = spread top r) (htop : t.toNat = top % 8) :
    ((u ^^^ rex <<< 50) ^^^ t <<< 58).toNat = dpdWord s (combination top r) r ds := by
  have hlt : spread top r < 2 ^ 13 := by
    unfold spread
    split_ifs <;> omega
  rw [BitVec.toNat_xor, BitVec.toNat_xor, hu, toNat_shl (by rw [hrex]; omega), hrex,
    toNat_shl (by rw [htop]; omega), htop]
  exact spread_put ht hr hd

theorem toNat_rex {rex m : BitVec 64} {x : BitVec 32} {top r : ℕ} (ht : m.toNat = top) (hr : r < 1024)
    (hx : x.toNat % 1024 = r) (hrex : rex = (if m ≥ 8 then
      ((x &&& 0b1100000000) <<< 1 ^^^ (x &&& 0b0011111111)) ^^^ 0b1100000000000
    else (x &&& 0b1100000000) <<< 3 ^^^ (x &&& 0b0011111111)).setWidth 64) : rex.toNat = spread top r := by
  have hcase : m ≥ 8 ↔ top ≥ 8 := by
    rw [ge_iff_le, BitVec.le_def, ht]
    rfl
  have hhigh : (x &&& 0b1100000000).toNat = r / 256 * 2 ^ 8 := by
    rw [toNat_and_mask _ _ (j := 8) (k := 2) rfl]
    omega
  have hlow : (x &&& 0b0011111111).toNat = r % 256 := by
    rw [toNat_and_mask _ _ (j := 0) (k := 8) rfl]
    omega
  have hshl : ∀ i ≤ 3, ((x &&& 0b1100000000) <<< i).toNat = r / 256 * 2 ^ (8 + i) := by
    intro i hi
    have hpow : 2 ^ i ≤ 2 ^ 3 := Nat.pow_le_pow_right (by decide) hi
    have hfit : r / 256 * 2 ^ 8 * 2 ^ i < 2 ^ 32 := by nlinarith [Nat.div_lt_of_lt_mul (show r < 256 * 4 from hr)]
    rw [BitVec.toNat_shiftLeft, Nat.shiftLeft_eq, hhigh, Nat.mod_eq_of_lt hfit, pow_add, mul_assoc]
  rw [hrex, spread, BitVec.toNat_setWidth]
  by_cases h8 : top ≥ 8
  · rw [if_pos (hcase.mpr h8), if_pos h8, BitVec.toNat_xor, BitVec.toNat_xor, hshl 1 (by decide), hlow,
      Word.xor_of_lt (k := 9) _ (by omega), Nat.xor_comm, show (0b1100000000000 : BitVec 32).toNat = 3 * 2 ^ 11 from rfl,
      Word.xor_of_lt 3 (by omega)]
    omega
  · rw [if_neg (mt hcase.mp h8), if_neg h8, BitVec.toNat_xor, hshl 3 le_rfl, hlow,
      Word.xor_of_lt (k := 11) _ (by omega)]
    omega

theorem recode_digit {d : ℕ} (hd : d < 10) : Radix.recode 10 16 1 d = d := by
  rw [Radix.recode_succ]
  exact Nat.mod_eq_of_lt hd

theorem recode_top {c : ℕ} (hc : c < 10 ^ 16) :
    Radix.recode 10 16 16 c = c / 10 ^ 15 * 2 ^ 60 + Radix.recode 10 16 15 c := by
  have htop : c / 10 ^ 15 < 10 := Nat.div_lt_of_lt_mul hc
  rw [show Radix.recode 10 16 16 c = Radix.recode 10 16 (15 + 1) c from rfl, Radix.recode_add, recode_digit htop]
  ring

section Assemble
variable {b : Bcd64} {c : ℕ} (hc : c < 10 ^ 16) (hm : b.mant.toNat = Radix.recode 10 16 16 c)

include hm

theorem packAt_put {i : ℕ} (hi : i < 5) {u : BitVec 64} {s : ℕ} (hu : u.toNat = s * 2 ^ 63 + declets i c) :
    (u ^^^ packAt (b.mant >>> (12 * i)) <<< (10 * i)).toNat = s * 2 ^ 63 + declets (i + 1) c := by
  have hlt := declet_lt (Nat.mod_lt (c / 1000 ^ i) (show 0 < 1000 by decide))
  have hone : (packAt (b.mant >>> (12 * i))).toNat = declet (c / 1000 ^ i % 1000) := by
    apply toNat_packAt (Nat.mod_lt _ (by decide))
    rw [BitVec.toNat_ushiftRight, Nat.shiftRight_eq_div_pow, pow_mul, hm]
    exact bcd3_group c i (by omega)
  have hpow : 2 ^ (10 * i) ≤ 2 ^ 40 := Nat.pow_le_pow_right (by decide) (by omega)
  have hroom : 2 ^ 23 ≤ 2 ^ (63 - 10 * i) := Nat.pow_le_pow_right (by decide) (by omega)
  have hlow : declets i c < 2 ^ (10 * i) := by
    rw [pow_mul]
    exact declets_lt i c
  rw [BitVec.toNat_xor, hu, toNat_shl (by rw [hone]; nlinarith), hone,
    Word.put s (show 63 - 10 * i + 10 * i = 63 by omega) hlow (by omega), declets_succ, pow_mul, add_assoc]
  rfl

include hc

theorem toNat_top : (b.mant >>> 60).toNat = c / 10 ^ 15 := by
  have hlow : Radix.recode 10 16 15 c < 2 ^ 60 := Radix.recode_lt (by decide) (by decide) (by decide) _ _
  rw [BitVec.toNat_ushiftRight, Nat.shiftRight_eq_div_pow, hm, recode_top hc]
  omega

/-- **The word assembled** from a packed number. -/
theorem toNat_bcd64todpd : (bcd64todpd b).toNat = dpdWord (b.sign % 2).toNat
      (combination (c / 10 ^ 15) ((b.expo + 398) % 1024).toNat) ((b.expo + 398) % 1024).toNat (declets 5 c) := by
  have htop : c / 10 ^ 15 < 10 := Nat.div_lt_of_lt_mul hc
  have hx : (BitVec.ofInt 32 (b.expo + 398)).toNat % 1024 = ((b.expo + 398) % 1024).toNat := by
    rw [BitVec.toNat_ofInt]
    omega
  have hr : ((b.expo + 398) % 1024).toNat < 1024 := by omega
  have hs : (BitVec.ofInt 64 b.sign <<< 63).toNat = (b.sign % 2).toNat * 2 ^ 63 + declets 0 c := by
    rw [BitVec.toNat_shiftLeft, Nat.shiftLeft_eq, BitVec.toNat_ofInt, declets]
    omega
  have hm60 : (b.mant >>> 60).toNat = c / 10 ^ 15 := toNat_top hc hm
  -- the declets
  have h1 := packAt_put hm (i := 0) (by decide) hs
  rw [Nat.mul_zero, BitVec.ushiftRight_zero, BitVec.shiftLeft_zero] at h1
  have h2 := packAt_put hm (i := 1) (by decide) h1
  have h3 := packAt_put hm (i := 2) (by decide) h2
  have h4 := packAt_put hm (i := 3) (by decide) h3
  have h5 := packAt_put hm (i := 4) (by decide) h4
  -- the exponent and the digit beside it
  have h6 := toNat_rex hm60 hr hx rfl
  have h7 : ((b.mant >>> 60) &&& 0x7).toNat = c / 10 ^ 15 % 8 := by
    rw [BitVec.toNat_and, hm60]
    exact Word.and_low _ 3
  exact toNat_beef htop hr (declets_lt 5 c) h5 h6 h7

end Assemble

theorem toNat_bcd64todpd_dec {b : Bcd64} {d : Dec} (hm : b.mant.toNat = Radix.recode 10 16 16 d.coef)
    (he : b.expo = d.expo) (hs : b.sign % 2 = signBit d.neg) : (bcd64todpd b).toNat = dpd d := by
  have hlt := d.biased_lt
  have hsub := d.biased_sub
  have h1 : (b.sign % 2).toNat = signBit d.neg := by rw [hs, Int.toNat_natCast]
  have h2 : ((b.expo + 398) % 1024).toNat = d.biased := by omega
  rw [toNat_bcd64todpd d.coef_lt hm, h1, h2]
  rfl

/-! ## The packed number of a word -/

theorem recode_three (k c : ℕ) :
    Radix.recode 10 16 (3 + k) c = bcd3 (c % 1000) + 4096 * Radix.recode 10 16 k (c / 1000) := by
  have hthree : Radix.recode 10 16 3 c = Radix.recode 10 16 3 (c % 1000) := by
    unfold Radix.recode
    rw [← Radix.numeral_mod (le_refl 3)]
    rfl
  rw [Radix.recode_add, hthree, bcd3_eq (Nat.mod_lt _ (by decide))]
  rfl

theorem recode_groups (c : ℕ) : Radix.recode 10 16 15 c =
    bcd3 (c / 1000 ^ 4 % 1000) * 2 ^ 48 + bcd3 (c / 1000 ^ 3 % 1000) * 2 ^ 36 + bcd3 (c / 1000 ^ 2 % 1000) * 2 ^ 24 +
      bcd3 (c / 1000 % 1000) * 2 ^ 12 + bcd3 (c % 1000) := by
  have h : Radix.recode 10 16 15 c = Radix.recode 10 16 (3 + (3 + (3 + (3 + (3 + 0))))) c := rfl
  have h0 : Radix.recode 10 16 0 (c / 1000 / 1000 / 1000 / 1000 / 1000) = 0 := rfl
  have h2 : c / 1000 / 1000 = c / 1000 ^ 2 := Nat.div_div_eq_div_mul _ _ _
  have h3 : c / 1000 ^ 2 / 1000 = c / 1000 ^ 3 := Nat.div_div_eq_div_mul _ _ _
  have h4 : c / 1000 ^ 3 / 1000 = c / 1000 ^ 4 := Nat.div_div_eq_div_mul _ _ _
  rw [h, recode_three, recode_three, recode_three, recode_three, recode_three, h0, h2, h3, h4]
  ring

section Unpack
variable {m : BitVec 64} {top c : ℕ} (hm : m.toNat = top * 2 ^ 50 + declets 5 c)
include hm

theorem declet_at {i : ℕ} (hi : i < 5) : m.toNat / 2 ^ (10 * i) % 1024 = declet (c / 1000 ^ i % 1000) := by
  have hdiv := declets_div 5 c hi
  have hpow : 2 ^ 50 = 2 ^ (10 * i) * (1024 * 1024 ^ (4 - i)) := by
    rw [pow_mul, ← pow_succ', show (2 ^ 10) ^ i = 1024 ^ i from rfl, ← pow_add, show i + (4 - i + 1) = 5 by omega]
    rfl
  rw [hm, hpow, Nat.add_comm, mul_comm top, mul_assoc, Nat.add_mul_div_left _ _ (by positivity), mul_assoc,
    Nat.add_mul_mod_self_left, pow_mul]
  exact hdiv

theorem toNat_pushFour (b : BitVec 64) : ([30, 20, 10, 0].foldl (pushDeclet m) b).toNat =
    (b.toNat * 2 ^ 48 + bcd3 (c / 1000 ^ 3 % 1000) * 2 ^ 36 + bcd3 (c / 1000 ^ 2 % 1000) * 2 ^ 24 +
      bcd3 (c / 1000 % 1000) * 2 ^ 12 + bcd3 (c % 1000)) % 2 ^ 64 := by
  have hlt : ∀ a, bcd3 (a % 1000) < 4096 := fun a => bcd3_lt (Nat.mod_lt a (by decide))
  have h3 := hlt (c / 1000 ^ 3)
  have h2 := hlt (c / 1000 ^ 2)
  have h1 := hlt (c / 1000)
  have h0 := hlt c
  have hd0 : m.toNat / 2 ^ 0 % 1024 = declet (c % 1000) := by simpa using declet_at hm (i := 0) (by decide)
  have hd1 : m.toNat / 2 ^ 10 % 1024 = declet (c / 1000 % 1000) := by simpa using declet_at hm (i := 1) (by decide)
  rw [List.foldl_cons, List.foldl_cons, List.foldl_cons, List.foldl_cons, List.foldl_nil,
    toNat_pushDeclet _ (Nat.mod_lt _ (by decide)) hd0, toNat_pushDeclet _ (Nat.mod_lt _ (by decide)) hd1,
    toNat_pushDeclet _ (Nat.mod_lt _ (by decide)) (declet_at hm (i := 2) (by decide)),
    toNat_pushDeclet _ (Nat.mod_lt _ (by decide)) (declet_at hm (i := 3) (by decide))]
  generalize bcd3 (c / 1000 ^ 3 % 1000) = x3 at *
  generalize bcd3 (c / 1000 ^ 2 % 1000) = x2 at *
  generalize bcd3 (c / 1000 % 1000) = x1 at *
  generalize bcd3 (c % 1000) = x0 at *
  clear hlt hd0 hd1
  omega

/-- **Unpacked behind the first digit.** -/
theorem toNat_pushFive {b : BitVec 64} (hb : b.toNat < 16) :
    ([40, 30, 20, 10, 0].foldl (pushDeclet m) b).toNat = b.toNat * 2 ^ 60 + Radix.recode 10 16 15 c := by
  have hlt : Radix.recode 10 16 15 c < 16 ^ 15 := Radix.recode_lt (by decide) (by decide) (by decide) _ _
  have hx4 := bcd3_lt (Nat.mod_lt (c / 1000 ^ 4) (show 0 < 1000 by decide))
  have hgroups := recode_groups c
  rw [List.foldl_cons, toNat_pushFour hm,
    toNat_pushDeclet _ (Nat.mod_lt _ (by decide)) (declet_at hm (i := 4) (by decide))]
  clear hm
  omega

end Unpack

end Unserlob
