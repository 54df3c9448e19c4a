import Unserlob.D64.Quantize

/-!
# The quantum and the nearest number (`quantized64`)

* `quantexpbid64_finite`: the exponent read from a finite word;
* `quantizebid64_up`: digits go up to the quantum;
* **`quantizebid64_nearest`**: when what is left is the nearest number, halves away from zero.
-/

namespace Unserlob

open Decimal

theorem quantexpbid64_finite {r : Decimal64} {neg : Bool} {c : ℕ} {e : ℤ} (hr : bidRead r.toNat = .fin neg c e) :
    -398 ≤ quantexpbid64 r ∧ quantexpbid64 r ≤ 369 := by
  rw [bidRead, readWord] at hr
  split_ifs at hr with hnan hinf
  apply quantexpbid64_range
  exact ⟨by rw [isnand64_iff]; exact hnan, by rw [isinfd64_iff]; exact hinf⟩

theorem coef_zero_or_quantexp {d : Dec} {x : Decimal64} (hx : x.toNat = bid d) :
    d.coef = 0 ∨ quantexpbid64 x = d.expo := by
  by_cases h0 : x = 0
  · left
    have hm := mantBid64_bid hx
    subst h0
    exact hm.symm
  · exact .inr (quantexpbid64_of_ne hx h0)

section Up
variable {d : Dec} {x r : Decimal64} (hx : x.toNat = bid d) (hle : quantexpbid64 x ≤ quantexpbid64 r)
include hx hle

/-- **Digits go up to the quantum.** -/
theorem quantizebid64_up {neg : Bool} {c : ℕ} {e : ℤ} (hr : bidRead r.toNat = .fin neg c e) :
    ∃ u : Dec, (quantizebid64 x r).toNat = bid u ∧ u.neg = d.neg ∧ u.expo = quantexpbid64 r ∧
      u.coef = dropDigits (quantexpbid64 r - quantexpbid64 x).toNat d.coef := by
  have hdrop := dropDigits_le (quantexpbid64 r - quantexpbid64 x).toNat d.coef
  have hm := toNat_truncBid_iterate (quantexpbid64 r - quantexpbid64 x).toNat (mantBid64 x)
  rw [mantBid64_bid hx] at hm
  let u : Dec := ⟨d.neg, dropDigits (quantexpbid64 r - quantexpbid64 x).toNat d.coef, quantexpbid64 r,
    hdrop.trans_lt d.coef_lt, (quantexpbid64_finite hr).1, (quantexpbid64_finite hr).2⟩
  refine ⟨u, ?_, rfl, rfl, rfl⟩
  -- nothing to expand
  have hnone : (max (quantexpbid64 x) (quantexpbid64 r) - quantexpbid64 r).toNat = 0 := by omega
  rw [← assembleBid_dec u hm, quantizebid64, hnone, max_eq_right hle, signBid64_bid hx]
  rfl

theorem abs_val_div : |d.val| / 10 ^ quantexpbid64 r =
    (d.coef : ℚ) / (10 ^ (quantexpbid64 r - quantexpbid64 x).toNat : ℕ) := by
  rw [d.abs_val]
  rcases coef_zero_or_quantexp hx with h0 | hexp
  · rw [h0]
    simp
  · have hk : quantexpbid64 r = d.expo + ((quantexpbid64 r - quantexpbid64 x).toNat : ℤ) := by omega
    have hten : (10 : ℚ) ^ d.expo ≠ 0 := by positivity
    conv_lhs => rw [hk, zpow_add₀ (by norm_num), zpow_natCast]
    push_cast
    field_simp

end Up

/-- **Rounding to the quantum of another number** finds the nearest coefficient, halves up, unless the digits
that go make up to a half among themselves. -/
theorem quantizebid64_nearest {d : Dec} {x r : Decimal64} (hx : x.toNat = bid d) {neg : Bool} {c : ℕ} {e : ℤ}
    (hr : bidRead r.toNat = .fin neg c e) (hle : quantexpbid64 x ≤ quantexpbid64 r) :
    ∃ u : Dec, (quantizebid64 x r).toNat = bid u ∧ u.neg = d.neg ∧ u.expo = quantexpbid64 r ∧
      ((u.coef : ℤ) = round (|d.val| / 10 ^ quantexpbid64 r) ∧ |u.val - d.val| ≤ 10 ^ quantexpbid64 r / 2 ↔
        ¬ RoundsAgain (quantexpbid64 r - quantexpbid64 x).toNat d.coef) := by
  obtain ⟨u, hu, hneg, hexp, hcoef⟩ := quantizebid64_up hx hle hr
  refine ⟨u, hu, hneg, hexp, ?_⟩
  rw [← dropDigits_eq_round_iff, ← hcoef, ← abs_val_div hx hle, and_iff_left_iff_imp]
  intro h
  have hpos : (0 : ℚ) < 10 ^ quantexpbid64 r := by positivity
  have hfar : |u.val| - |d.val| = -((|d.val| / 10 ^ quantexpbid64 r - u.coef) * 10 ^ quantexpbid64 r) := by
    rw [u.abs_val, hexp, sub_mul, div_mul_cancel₀ _ hpos.ne']
    ring
  have hhalf := abs_sub_round (|d.val| / 10 ^ quantexpbid64 r)
  rw [← h, Int.cast_natCast] at hhalf
  rw [Dec.abs_sub_val hneg, hfar, abs_neg, abs_mul, abs_of_pos hpos]
  calc |(|d.val| / 10 ^ quantexpbid64 r - u.coef)| * 10 ^ quantexpbid64 r
      ≤ 1 / 2 * 10 ^ quantexpbid64 r := mul_le_mul_of_nonneg_right hhalf hpos.le
    _ = 10 ^ quantexpbid64 r / 2 := by ring

/-- Two and a half. -/
def twoHalf : Dec := ⟨false, 25, -1, by decide, by decide, by decide⟩

/-- Two and a half to the quantum of one. -/
theorem quantizebid64_twoHalf :
    ∃ u : Dec, (quantizebid64 0x31a0000000000019 0x31c0000000000001).toNat = bid u ∧ u.neg = twoHalf.neg ∧
      u.expo = quantexpbid64 0x31c0000000000001 ∧
      ((u.coef : ℤ) = round (|twoHalf.val| / 10 ^ quantexpbid64 0x31c0000000000001) ∧
        |u.val - twoHalf.val| ≤ 10 ^ quantexpbid64 0x31c0000000000001 / 2 ↔
        ¬ RoundsAgain (quantexpbid64 0x31c0000000000001 - quantexpbid64 0x31a0000000000019).toNat twoHalf.coef) :=
  quantizebid64_nearest (by decide) (show bidRead (0x31c0000000000001 : Decimal64).toNat = .fin false 1 0 by decide)
    (by decide)

/-- Forty-five hundredths. -/
def fortyFive : Dec := ⟨false, 45, -2, by decide, by decide, by decide⟩

/-- Rounded to the quantum of one, it is one. -/
theorem quantizebid64_fortyFive : ¬ ∀ (d : Dec) (x r : Decimal64), x.toNat = bid d → ∀ (neg : Bool) (c : ℕ) (e : ℤ),
    bidRead r.toNat = .fin neg c e → quantexpbid64 x ≤ quantexpbid64 r →
    ∃ u : Dec, (quantizebid64 x r).toNat = bid u ∧ u.neg = d.neg ∧ u.expo = quantexpbid64 r ∧
      (u.coef : ℤ) = round (|d.val| / 10 ^ quantexpbid64 r) ∧ |u.val - d.val| ≤ 10 ^ quantexpbid64 r / 2 := by
  intro h
  obtain ⟨u, hu, hneg, hexp, hround, -⟩ := h fortyFive 0x318000000000002d 0x31c0000000000001 (by decide) false 1 0
    (by decide) (by decide)
  have hone : bidRead (quantizebid64 0x318000000000002d 0x31c0000000000001).toNat = .fin false 1 0 := by decide
  rw [hu, bidRead_bid] at hone
  have hval : |fortyFive.val| / 10 ^ quantexpbid64 (0x31c0000000000001 : Decimal64) = 45 / 100 := by
    rw [Dec.abs_val, show quantexpbid64 (0x31c0000000000001 : Decimal64) = 0 by decide]
    norm_num [fortyFive]
  have hzero : round (45 / 100 : ℚ) = 0 := by
    rw [round_eq_zero_iff]
    norm_num
  rw [hval, hzero, (Denoted.fin.inj hone).2.1] at hround
  exact absurd hround (by decide)

end Unserlob
