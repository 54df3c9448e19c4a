import Unserlob.D64.Dpd

/-!
# Packed and unpacked again (`bcd64todpd`, `dpd64tostr`)

* `unpacked`: the coefficient that `dpd64tostr` gets back from a word;
* `Clear`: which exponents are read as they were written;
* **`bcd64todpd_unpacked`**: sign and coefficient always come back, the exponent just where it is clear.
-/

namespace Unserlob

open Decimal

/-- The coefficient of a word with its five declets unpacked, as in `dpd64tostr`. -/
def unpacked (x : BitVec 64) : BitVec 64 := [40, 30, 20, 10, 0].foldl (pushDeclet (mantDpd64 x)) (mantDpd64 x >>> 50)

/-- The condition: the first digit is below eight; or the two highest bits of the exponent field are not `10`, and
the first digit is an eight or the next bit is set. -/
def Clear (c : ℕ) (e : ℤ) : Prop :=
  c < 8 * 10 ^ 15 ∨ e + 398 < 512 ∧ (c < 9 * 10 ^ 15 ∨ 128 ≤ (e + 398) % 256)

instance (c : ℕ) (e : ℤ) : Decidable (Clear c e) := inferInstanceAs (Decidable (_ ∨ _))

theorem readBiased_eq_iff {top biased : ℕ} (ht : top < 10) (hb : biased < 768) :
    readBiased top biased = biased ↔ top < 8 ∨ biased < 512 ∧ (top < 9 ∨ 128 ≤ biased % 256) := by
  unfold readBiased
  split_ifs with h8
  · exact iff_of_true rfl (Or.inl h8)
  · rw [or_iff_right h8]
    omega

theorem clear_iff (d : Dec) : Clear d.coef d.expo ↔
    d.coef / 10 ^ 15 < 8 ∨ d.biased < 512 ∧ (d.coef / 10 ^ 15 < 9 ∨ 128 ≤ d.biased % 256) := by
  have hsub := d.biased_sub
  unfold Clear
  omega

section Parts
variable {d : Dec} {x : BitVec 64} (hx : x.toNat = dpd d)
include hx

/-- **The coefficient comes back.** -/
theorem toNat_unpacked_dpd : (unpacked x).toNat = Radix.recode 10 16 16 d.coef := by
  have ht : d.coef / 10 ^ 15 < 10 := Nat.div_lt_of_lt_mul d.coef_lt
  have hds := declets_lt 5 d.coef
  have hm := mantDpd64_dpd hx
  have htop : (mantDpd64 x >>> 50).toNat = d.coef / 10 ^ 15 := by
    rw [BitVec.toNat_ushiftRight, Nat.shiftRight_eq_div_pow, hm]
    omega
  rw [unpacked, toNat_pushFive hm (by omega), htop, recode_top d.coef_lt]

/-- **The exponent comes back** just where it is clear. -/
theorem quantexpdpd64_eq_iff (h0 : ¬ (d.neg = false ∧ d.expo = -398 ∧ d.coef < 10 ^ 15)) :
    quantexpdpd64 x = d.expo ↔ Clear d.coef d.expo := by
  have ht : d.coef / 10 ^ 15 < 10 := Nat.div_lt_of_lt_mul d.coef_lt
  have hsub := d.biased_sub
  have hhead : x.toNat / 2 ^ 50 ≠ 0 := by
    rw [Ne, dpd_head_eq_zero_iff hx]
    rintro ⟨hn, hb, hc⟩
    exact h0 ⟨hn, by omega, hc⟩
  rw [quantexpdpd64_of_ne hx hhead, clear_iff, ← readBiased_eq_iff ht d.biased_lt]
  omega

end Parts

/-- **Packing and unpacking**: for every sign, sixteen digits and exponent, those apart that the reader of the
exponent takes for zero, sign and coefficient come back, and the exponent just where it is clear. -/
theorem bcd64todpd_unpacked {b : Bcd64} {c : ℕ} (hc : c < 10 ^ 16) (hm : b.mant.toNat = Radix.recode 10 16 16 c)
    (hs : b.sign = 0 ∨ b.sign = 1 ∨ b.sign = -1) (he : -398 ≤ b.expo) (he' : b.expo ≤ 369)
    (h0 : ¬ (b.sign = 0 ∧ b.expo = -398 ∧ c < 10 ^ 15)) :
    (signDpd64 (bcd64todpd b) ≠ 0 ↔ b.sign ≠ 0) ∧ unpacked (bcd64todpd b) = b.mant ∧
      (quantexpdpd64 (bcd64todpd b) = b.expo ↔ Clear c b.expo) := by
  let d : Dec := ⟨decide (b.sign ≠ 0), c, b.expo, hc, he, he'⟩
  have hsign : b.sign % 2 = signBit d.neg := by
    rcases hs with h | h | h <;> simp [d, h, signBit]
  have hx : (bcd64todpd b).toNat = dpd d := toNat_bcd64todpd_dec hm rfl hsign
  refine ⟨?_, ?_, ?_⟩
  · rw [signDpd64_dpd hx]
    by_cases h : b.sign = 0 <;> simp [d, h]
  · exact BitVec.eq_of_toNat_eq ((toNat_unpacked_dpd hx).trans hm.symm)
  · refine quantexpdpd64_eq_iff hx fun hz => h0 ⟨?_, hz.2⟩
    exact not_not.mp (of_decide_eq_false hz.1)

/-- Sixteen digits from a nine on. -/
def nines : Bcd64 := ⟨0x9999999999999999, 0, 0⟩

/-- Nine, with fifteen digits behind the point. -/
def ninePoint : Bcd64 := ⟨0x9999999999999999, -15, 0⟩

theorem bcd64todpd_unpacked_nines : (signDpd64 (bcd64todpd nines) ≠ 0 ↔ nines.sign ≠ 0) ∧
    unpacked (bcd64todpd nines) = nines.mant ∧
    (quantexpdpd64 (bcd64todpd nines) = nines.expo ↔ Clear 9999999999999999 nines.expo) :=
  bcd64todpd_unpacked (by decide) (by decide +kernel) (by decide) (by decide) (by decide) (by decide)

/-- It comes back a hundred and twenty-eight places further up. -/
theorem bcd64todpd_ninePoint : ¬ ∀ (b : Bcd64) (c : ℕ), c < 10 ^ 16 → b.mant.toNat = Radix.recode 10 16 16 c →
    (b.sign = 0 ∨ b.sign = 1 ∨ b.sign = -1) → -398 ≤ b.expo → b.expo ≤ 369 →
    ¬ (b.sign = 0 ∧ b.expo = -398 ∧ c < 10 ^ 15) →
    (signDpd64 (bcd64todpd b) ≠ 0 ↔ b.sign ≠ 0) ∧ unpacked (bcd64todpd b) = b.mant ∧
      quantexpdpd64 (bcd64todpd b) = b.expo := by
  intro h
  have hall := h ninePoint 9999999999999999 (by decide) (by decide +kernel) (by decide) (by decide) (by decide)
    (by decide)
  have hread : quantexpdpd64 (bcd64todpd ninePoint) = 113 := by decide +kernel
  rw [hread] at hall
  exact absurd hall.2.2 (by decide)

end Unserlob
