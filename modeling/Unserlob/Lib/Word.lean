import Mathlib.Data.Nat.Bitwise
import Mathlib.Tactic.IntervalCases
import Unserlob.Lib.Radix

/-!
# Machine words as numbers

Fields of a word are put together with shifts and exclusive-or and taken apart with masks. These
lemmas turn both into arithmetic.

* `xor_of_lt`: a shifted field and a small one never overlap;
* `put`, `put_bit`: a field put into a word that is clear there, and a bit put onto a bit;
* `and_mask`: masking a field out;
* `toNat_nibble`, `toNat_shl_or`: one hexadecimal digit off, and onto, the low end of a word.
-/

namespace Word

theorem xor_of_lt (a : ℕ) {b k : ℕ} (h : b < 2 ^ k) : (a * 2 ^ k) ^^^ b = a * 2 ^ k + b := by
  apply Nat.eq_of_testBit_eq
  intro i
  rw [Nat.testBit_xor, Nat.testBit_mul_two_pow, Nat.mul_comm a, Nat.testBit_two_pow_mul_add a h]
  by_cases hi : i < k
  · simp [hi, Nat.not_le.mpr hi]
  · have hb : b.testBit i = false :=
      Nat.testBit_lt_two_pow (h.trans_le (Nat.pow_le_pow_right (by omega) (by omega)))
    simp [hi, hb, Nat.not_lt.mp hi]

theorem or_of_lt (a : ℕ) {b k : ℕ} (h : b < 2 ^ k) : (a * 2 ^ k) ||| b = a * 2 ^ k + b := by
  rw [Nat.mul_comm a, Nat.two_pow_add_eq_or_of_lt h]

/-- **A field put into a word** that is clear there. -/
theorem put (a : ℕ) {b c j k n : ℕ} (hn : j + k = n) (hb : b < 2 ^ k) (hc : c < 2 ^ j) :
    (a * 2 ^ n + b) ^^^ (c * 2 ^ k) = a * 2 ^ n + c * 2 ^ k + b := by
  subst hn
  have hpow : 2 ^ (j + k) = 2 ^ j * 2 ^ k := pow_add 2 j k
  have hb' : b < 2 ^ (j + k) := hb.trans_le (Nat.pow_le_pow_right (by omega) (by omega))
  calc (a * 2 ^ (j + k) + b) ^^^ (c * 2 ^ k) = (a * 2 ^ j * 2 ^ k ^^^ c * 2 ^ k) ^^^ b := by
        rw [← xor_of_lt a hb', Nat.xor_assoc, Nat.xor_comm b, ← Nat.xor_assoc, hpow, mul_assoc]
    _ = (a * 2 ^ j + c) * 2 ^ k ^^^ b := by
        rw [← Nat.shiftLeft_eq _ k, ← Nat.shiftLeft_eq c k, ← Nat.shiftLeft_xor_distrib, xor_of_lt a hc,
          Nat.shiftLeft_eq]
    _ = a * 2 ^ (j + k) + c * 2 ^ k + b := by
        rw [xor_of_lt _ hb, add_mul, mul_assoc, hpow]

theorem put_bit {s t b k : ℕ} (hs : s < 2) (ht : t < 2) (hb : b < 2 ^ k) :
    (s * 2 ^ k) ^^^ (t * 2 ^ k + b) = (s + t) % 2 * 2 ^ k + b := by
  have hst : s ^^^ t = (s + t) % 2 := by interval_cases s <;> interval_cases t <;> rfl
  rw [← xor_of_lt t hb, ← Nat.xor_assoc, ← Nat.shiftLeft_eq s, ← Nat.shiftLeft_eq t,
    ← Nat.shiftLeft_xor_distrib, hst, Nat.shiftLeft_eq, xor_of_lt _ hb]

theorem and_mask (x j k : ℕ) : x &&& ((2 ^ k - 1) * 2 ^ j) = x / 2 ^ j % 2 ^ k * 2 ^ j := by
  apply Nat.eq_of_testBit_eq
  intro i
  rw [Nat.testBit_and, Nat.testBit_mul_two_pow, Nat.testBit_mul_two_pow, Nat.testBit_two_pow_sub_one,
    Nat.testBit_mod_two_pow, Nat.testBit_div_two_pow]
  by_cases hi : j ≤ i
  · rw [show i - j + j = i by omega]
    by_cases hk : i - j < k <;> simp [hi, hk]
  · simp [hi]

theorem and_low (x k : ℕ) : x &&& (2 ^ k - 1) = x % 2 ^ k := Nat.and_two_pow_sub_one_eq_mod x k

/-! ## Hexadecimal digits -/

theorem toNat_nibble (w : BitVec 64) : (w &&& 0xf).toNat = w.toNat % 16 := by
  rw [BitVec.toNat_and]
  exact and_low w.toNat 4

theorem toNat_shr (w : BitVec 64) : (w >>> 4).toNat = w.toNat / 16 := by
  rw [BitVec.toNat_ushiftRight, Nat.shiftRight_eq_div_pow]

theorem toNat_shl_or {w d : BitVec 64} (hw : w.toNat < 2 ^ 60) (hd : d.toNat < 16) :
    (w <<< 4 ||| d).toNat = w.toNat * 16 + d.toNat := by
  rw [BitVec.toNat_or, BitVec.toNat_shiftLeft, Nat.shiftLeft_eq, Nat.mod_eq_of_lt (by omega)]
  exact or_of_lt w.toNat (k := 4) hd

end Word
