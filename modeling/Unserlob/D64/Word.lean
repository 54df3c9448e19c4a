import Mathlib.Data.Rat.Defs
import Mathlib.Data.Int.Notation
import Mathlib.Algebra.Order.Field.Rat
import Mathlib.Tactic.Linarith
import Unserlob.Lib.Word

/-!
# `_Decimal64` words (`dfp754_d64.c`, BID build)

A decimal is a 64-bit word: sign, ten exponent bits and a 53-bit coefficient, or, when the two bits
after the sign are set, an exponent two places further down and a coefficient whose top bits `100`
are implied.

* `signBid64`, `mantBid64`, `quantexpbid64`, `assembleBid`: the source's readers and its writer;
* `toNat_mantBid64_plain`, `quantexpbid64_plain`, `signBid64_eq`: the readers as arithmetic on the word;
* `Decimal64.val`, `Decimal64.Num`: the number a word denotes.
-/

namespace Unserlob

/-- `_Decimal64` in the binary integer encoding; `bits64` and `bobs64` are the identity. -/
abbrev Decimal64 := BitVec 64

/-- The two bits after the sign select the layout. -/
def special (x : Decimal64) : Prop := x &&& 0x6000000000000000 = 0x6000000000000000

instance : DecidablePred special := fun _ => inferInstanceAs (Decidable (_ = _))

/-- `sign_bid64`: an arithmetic shift, so `0` or `-1`. -/
def signBid64 (x : Decimal64) : ℤ := (x.sshiftRight 63).toInt

/-- `mant_bid64` -/
def mantBid64 (x : Decimal64) : BitVec 64 :=
  if special x then (0b100#64 <<< 51) ^^^ (x &&& 0x7ffffffffffff) else x &&& 0x1fffffffffffff

/-- `quantexpbid64`; the all-zero word is given exponent `0`. -/
def quantexpbid64 (x : Decimal64) : ℤ :=
  if x = 0 then 0
  else
    let tmp := if ¬ special x then x >>> 53 else x >>> 51
    ((tmp &&& 0x3ff).toNat : ℤ) - 398

/-- `assemble_bid` -/
def assembleBid (m ex s : BitVec 64) : Decimal64 :=
  let u := s <<< 63
  if m &&& (1#64 <<< 53) ≠ 0 then
    ((u ^^^ 0b11#64 <<< 61) ^^^ ex <<< 51) ^^^ (m &&& 0x7ffffffffffff)
  else
    (u ^^^ ex <<< 53) ^^^ (m &&& 0x1fffffffffffff)

/-- `isnand64` -/
def isnand64 (x : Decimal64) : Bool := x &&& 0x7c00000000000000 == 0x7c00000000000000

/-- `isinfd64` -/
def isinfd64 (x : Decimal64) : Bool := x &&& 0x7c00000000000000 == 0x7800000000000000

/-- `NAND64` -/
def NAND64 : Decimal64 := 0x7c00000000000000

/-- The literal `0.dd`. -/
def zerodd : Decimal64 := 0x31c0000000000000

/-! ## The readers as arithmetic -/

theorem special_iff (x : Decimal64) : special x ↔ x.toNat / 2 ^ 61 % 4 = 3 := by
  have h : (x &&& 0x6000000000000000).toNat = x.toNat / 2 ^ 61 % 4 * 2 ^ 61 := by
    rw [BitVec.toNat_and]
    exact Word.and_mask x.toNat 61 2
  unfold special
  rw [← BitVec.toNat_inj, h]
  change _ = 3 * 2 ^ 61 ↔ _
  omega

theorem toNat_mantBid64_plain {x : Decimal64} (h : ¬ special x) :
    (mantBid64 x).toNat = x.toNat % 2 ^ 53 := by
  rw [mantBid64, if_neg h, BitVec.toNat_and]
  exact Word.and_low x.toNat 53

theorem toNat_mantBid64_special {x : Decimal64} (h : special x) :
    (mantBid64 x).toNat = 2 ^ 53 + x.toNat % 2 ^ 51 := by
  rw [mantBid64, if_pos h, BitVec.toNat_xor, BitVec.toNat_and]
  have hl : x.toNat &&& (0x7ffffffffffff : Decimal64).toNat = x.toNat % 2 ^ 51 :=
    Word.and_low x.toNat 51
  rw [hl]
  have hlt : x.toNat % 2 ^ 51 < 2 ^ 51 := Nat.mod_lt _ (by decide)
  exact Word.xor_of_lt 4 hlt

theorem quantexpbid64_plain {x : Decimal64} (h : ¬ special x) (h0 : x ≠ 0) :
    quantexpbid64 x = (x.toNat / 2 ^ 53 % 1024 : ℕ) - 398 := by
  rw [quantexpbid64, if_neg h0]
  simp only [h, not_false_eq_true, if_true]
  rw [BitVec.toNat_and, BitVec.toNat_ushiftRight, Nat.shiftRight_eq_div_pow]
  congr 2
  exact Word.and_low _ 10

theorem signBid64_eq (x : Decimal64) : signBid64 x = if 2 ^ 63 ≤ x.toNat then -1 else 0 := by
  have hx := x.isLt
  rw [signBid64, BitVec.toInt_sshiftRight, BitVec.toInt_eq_toNat_cond, Int.shiftRight_eq_div_pow]
  split_ifs <;> omega

/-- The fields of the word, a small coefficient in the plain layout; an exponent from `1024` on runs into
the sign. -/
theorem toNat_assembleBid_fields {m ex s : BitVec 64} (hm : m.toNat < 2 ^ 53) :
    (assembleBid m ex s).toNat =
      (s.toNat + ex.toNat / 1024) % 2 * 2 ^ 63 + (ex.toNat % 1024 * 2 ^ 53 + m.toNat) := by
  have hbit : ¬ m &&& (1#64 <<< 53) ≠ 0 := by
    rw [not_not, ← BitVec.toNat_inj, BitVec.toNat_and]
    have h : m.toNat &&& (1#64 <<< 53).toNat = m.toNat / 2 ^ 53 % 2 ^ 1 * 2 ^ 53 := Word.and_mask m.toNat 53 1
    rw [h, Nat.div_eq_of_lt hm]
    rfl
  have hs : (s <<< 63).toNat = s.toNat % 2 * 2 ^ 63 := by
    rw [BitVec.toNat_shiftLeft, Nat.shiftLeft_eq]
    omega
  have hx : (ex <<< 53).toNat = ex.toNat / 1024 % 2 * 2 ^ 63 + ex.toNat % 1024 * 2 ^ 53 := by
    rw [BitVec.toNat_shiftLeft, Nat.shiftLeft_eq]
    omega
  have hl : (m &&& 0x1fffffffffffff).toNat = m.toNat := by
    rw [BitVec.toNat_and, ← Nat.mod_eq_of_lt hm]
    exact (Word.and_low _ 53).trans (Nat.mod_mod _ _)
  have hput := Word.put_bit (k := 63) (b := ex.toNat % 1024 * 2 ^ 53) (show s.toNat % 2 < 2 by omega)
    (show ex.toNat / 1024 % 2 < 2 by omega) (by omega)
  rw [assembleBid, if_neg hbit, BitVec.toNat_xor, BitVec.toNat_xor, hs, hx, hl, hput, ← Nat.add_mod,
    show (s.toNat + ex.toNat / 1024) % 2 * 2 ^ 63 + ex.toNat % 1024 * 2 ^ 53 =
      ((s.toNat + ex.toNat / 1024) % 2 * 2 ^ 10 + ex.toNat % 1024) * 2 ^ 53 by ring, Word.xor_of_lt _ hm]
  ring

theorem toNat_assembleBid {m ex s : BitVec 64} (hm : m.toNat < 2 ^ 53) (he : ex.toNat < 2 ^ 10) :
    (assembleBid m ex s).toNat = s.toNat % 2 * 2 ^ 63 + ex.toNat * 2 ^ 53 + m.toNat := by
  rw [toNat_assembleBid_fields hm]
  omega

/-! ## Values -/

/-- The word is a finite number. -/
def Decimal64.finite (x : Decimal64) : Prop := ¬ isnand64 x ∧ ¬ isinfd64 x

instance : DecidablePred Decimal64.finite := fun _ => inferInstanceAs (Decidable (_ ∧ _))

theorem toNat_and_top (x : Decimal64) :
    (x &&& 0x7c00000000000000).toNat = x.toNat / 2 ^ 58 % 2 ^ 5 * 2 ^ 58 := by
  rw [BitVec.toNat_and]
  exact Word.and_mask x.toNat 58 5

theorem isnand64_iff (x : Decimal64) : isnand64 x = true ↔ x.toNat / 2 ^ 58 % 2 ^ 5 = 31 := by
  rw [isnand64, beq_iff_eq, ← BitVec.toNat_inj, toNat_and_top]
  change _ = 31 * 2 ^ 58 ↔ _
  omega

theorem isinfd64_iff (x : Decimal64) : isinfd64 x = true ↔ x.toNat / 2 ^ 58 % 2 ^ 5 = 30 := by
  rw [isinfd64, beq_iff_eq, ← BitVec.toNat_inj, toNat_and_top]
  change _ = 30 * 2 ^ 58 ↔ _
  omega

theorem finite_of_not_special {x : Decimal64} (h : ¬ special x) : x.finite := by
  rw [special_iff] at h
  constructor
  · rw [isnand64_iff]; omega
  · rw [isinfd64_iff]; omega

/-- The coefficient counted with: from `10 ^ 16` on it is read as zero. -/
def Decimal64.coef (x : Decimal64) : ℕ :=
  if (mantBid64 x).toNat < 10 ^ 16 then (mantBid64 x).toNat else 0

/-- The value of a finite word. -/
def Decimal64.val (x : Decimal64) : ℚ :=
  (if signBid64 x ≠ 0 then -1 else 1) * x.coef * 10 ^ quantexpbid64 x

/-- What a word denotes. -/
inductive Decimal64.Num where
  | nan
  | inf (neg : Bool)
  | fin (q : ℚ)
  deriving DecidableEq

/-- **The number denoted.** -/
def Decimal64.num (x : Decimal64) : Decimal64.Num :=
  if isnand64 x then .nan
  else if isinfd64 x then .inf (signBid64 x ≠ 0)
  else .fin x.val

theorem Decimal64.num_of_finite {x : Decimal64} (h : Decimal64.finite x) : x.num = .fin x.val := by
  rw [Decimal64.num, if_neg h.1, if_neg h.2]

theorem Decimal64.val_of_mant {x : Decimal64} (h : mantBid64 x = 0) : x.val = 0 := by
  simp [Decimal64.val, Decimal64.coef, h]

theorem Decimal64.val_nonneg {x : Decimal64} (h : signBid64 x = 0) : 0 ≤ x.val := by
  rw [Decimal64.val, if_neg (not_not.mpr h), one_mul]
  exact mul_nonneg (Nat.cast_nonneg _) (zpow_nonneg (by norm_num) _)

/-- `x > 0.dd` -/
def gtZero (x : Decimal64) : Bool :=
  match x.num with
  | .nan => false
  | .inf neg => !neg
  | .fin q => 0 < q

/-- `x >= 0.dd` -/
def geZero (x : Decimal64) : Bool :=
  match x.num with
  | .nan => false
  | .inf neg => !neg
  | .fin q => 0 ≤ q

/-- `x + y > 0.dd`; rounding does not change the sign of a sum. -/
def sumGtZero (x y : Decimal64) : Bool :=
  match x.num, y.num with
  | .fin p, .fin q => 0 < p + q
  | .inf a, .inf b => !a && !b
  | .inf a, .fin _ => !a
  | .fin _, .inf b => !b
  | _, _ => false

end Unserlob
