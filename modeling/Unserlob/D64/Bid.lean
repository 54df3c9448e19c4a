import Unserlob.Lib.Decimal
import Unserlob.D64.Word

/-!
# The BID readers and writer on decimals

* `mantBid64_bid`, **`quantexpbid64_bid`**, `signBid64_bid`: the source's readers on the word of a decimal;
* `mantBid64_assembleBid`, `quantexpbid64_assembleBid`, `signBid64_assembleBid`: what is read of an assembled word;
* **`assembleBid_dec`**: the word assembled from the parts of a decimal is the word of the decimal;
* `assembleBid_read`: the word assembled from the parts read of a word is the word;
* **`assembleBid_unpacked`**: packing and reading undo each other.
-/

namespace Unserlob

open Decimal

/-! ## The readers -/

theorem quantexpbid64_special {x : Decimal64} (h : special x) :
    quantexpbid64 x = (x.toNat / 2 ^ 51 % 1024 : ℕ) - 398 := by
  have h0 : x ≠ 0 := by
    rintro rfl
    exact absurd h (by decide)
  rw [quantexpbid64, if_neg h0]
  simp only [h, not_true_eq_false, if_false]
  rw [BitVec.toNat_and, BitVec.toNat_ushiftRight, Nat.shiftRight_eq_div_pow]
  congr 2
  exact Word.and_low _ 10

section Read
variable {d : Dec} {x : Decimal64} (hx : x.toNat = bid d)
include hx

theorem special_bid : special x ↔ ¬ d.coef < 2 ^ 53 := by
  have hb := d.biased_lt
  have hc := d.coef_lt
  have hs := signBit_lt d.neg
  rw [special_iff, hx, bid]
  split_ifs with h
  · simp only [h, not_true_eq_false, iff_false]
    omega
  · simp only [h, not_false_eq_true, iff_true]
    omega

theorem mantBid64_bid : (mantBid64 x).toNat = d.coef := by
  have hb := d.biased_lt
  have hc := d.coef_lt
  have hs := signBit_lt d.neg
  by_cases h : d.coef < 2 ^ 53
  · rw [toNat_mantBid64_plain (mt (special_bid hx).mp (not_not.mpr h)), hx, bid, if_pos h]
    omega
  · rw [toNat_mantBid64_special ((special_bid hx).mpr h), hx, bid, if_neg h]
    omega

theorem quantexpbid64_of_ne (h0 : x ≠ 0) : quantexpbid64 x = d.expo := by
  have hb := d.biased_lt
  have hc := d.coef_lt
  have hs := signBit_lt d.neg
  rw [← d.biased_sub]
  by_cases h : d.coef < 2 ^ 53
  · have hexp : x.toNat / 2 ^ 53 % 1024 = d.biased := by
      rw [hx, bid, if_pos h]
      omega
    rw [quantexpbid64_plain (mt (special_bid hx).mp (not_not.mpr h)) h0, hexp]
  · have hexp : x.toNat / 2 ^ 51 % 1024 = d.biased := by
      rw [hx, bid, if_neg h]
      omega
    rw [quantexpbid64_special ((special_bid hx).mpr h), hexp]

/-- **The exponent read.** -/
theorem quantexpbid64_bid (h0 : 0 < d.biased) : quantexpbid64 x = d.expo := by
  apply quantexpbid64_of_ne hx
  rintro rfl
  unfold bid at hx
  change 0 = _ at hx
  split_ifs at hx <;> omega

theorem signBid64_bid : signBid64 x = if d.neg then -1 else 0 := by
  have hb := d.biased_lt
  have hc := d.coef_lt
  have hs : x.toNat / 2 ^ 63 = signBit d.neg := by
    rw [hx, bid]
    split_ifs <;> omega
  rw [signBid64_eq]
  cases hn : d.neg
  · rw [hn] at hs
    exact if_neg (by change _ = 0 at hs; omega)
  · rw [hn] at hs
    exact if_pos (by change _ = 1 at hs; omega)

theorem finite_bid : x.finite := by
  have hb := d.biased_lt
  have hc := d.coef_lt
  have hs := signBit_lt d.neg
  have htop : x.toNat / 2 ^ 58 % 2 ^ 5 < 30 := by
    rw [hx, bid]
    split_ifs <;> omega
  constructor
  · rw [isnand64_iff]
    omega
  · rw [isinfd64_iff]
    omega

end Read

theorem mantBid64_lt (x : Decimal64) : (mantBid64 x).toNat < 2 ^ 53 + 2 ^ 51 := by
  by_cases h : special x
  · rw [toNat_mantBid64_special h]
    omega
  · rw [toNat_mantBid64_plain h]
    omega

/-- **The exponent of a finite word** is in range, also where the coefficient is not canonical. -/
theorem quantexpbid64_range {x : Decimal64} (h : x.finite) : -398 ≤ quantexpbid64 x ∧ quantexpbid64 x ≤ 369 := by
  obtain ⟨hnan, hinf⟩ := h
  rw [isnand64_iff] at hnan
  rw [isinfd64_iff] at hinf
  by_cases h0 : x = 0
  · subst h0
    decide
  by_cases hs : special x
  · rw [quantexpbid64_special hs]
    rw [special_iff] at hs
    omega
  · rw [quantexpbid64_plain hs h0]
    rw [special_iff] at hs
    omega

/-! ## The writer -/

theorem toNat_assembleBid_large {m ex s : BitVec 64} (hm : 2 ^ 53 ≤ m.toNat) (hm' : m.toNat < 2 ^ 53 + 2 ^ 51)
    (he : ex.toNat < 768) :
    (assembleBid m ex s).toNat = s.toNat % 2 * 2 ^ 63 + (3 * 2 ^ 61 + ex.toNat * 2 ^ 51 + (m.toNat - 2 ^ 53)) := by
  have hbit : m &&& (1#64 <<< 53) ≠ 0 := by
    rw [Ne, ← BitVec.toNat_inj, BitVec.toNat_and]
    have h : m.toNat &&& (1#64 <<< 53).toNat = m.toNat / 2 ^ 53 % 2 ^ 1 * 2 ^ 53 := Word.and_mask m.toNat 53 1
    rw [h, show m.toNat / 2 ^ 53 = 1 by omega]
    decide
  have hs : (s <<< 63).toNat = s.toNat % 2 * 2 ^ 63 := by
    rw [BitVec.toNat_shiftLeft, Nat.shiftLeft_eq]
    omega
  have hx : (ex <<< 51).toNat = ex.toNat * 2 ^ 51 := by
    rw [BitVec.toNat_shiftLeft, Nat.shiftLeft_eq]
    omega
  have hl : (m &&& 0x7ffffffffffff).toNat = m.toNat - 2 ^ 53 := by
    rw [BitVec.toNat_and, show m.toNat &&& (0x7ffffffffffff : BitVec 64).toNat = m.toNat % 2 ^ 51 from
      Word.and_low m.toNat 51]
    omega
  have h3 : (0b11#64 <<< 61).toNat = 3 * 2 ^ 61 := rfl
  have h1 : (s.toNat % 2 * 2 ^ 63) ^^^ (3 * 2 ^ 61) = (s.toNat % 2 * 2 ^ 2 + 3) * 2 ^ 61 := by
    rw [Word.xor_of_lt _ (by decide)]
    ring
  have h2 : ((s.toNat % 2 * 2 ^ 2 + 3) * 2 ^ 61) ^^^ (ex.toNat * 2 ^ 51) =
      ((s.toNat % 2 * 2 ^ 2 + 3) * 2 ^ 10 + ex.toNat) * 2 ^ 51 := by
    rw [Word.xor_of_lt _ (by omega)]
    ring
  rw [assembleBid, if_pos hbit, BitVec.toNat_xor, BitVec.toNat_xor, BitVec.toNat_xor, hs, hx, hl, h3, h1, h2,
    Word.xor_of_lt _ (by omega)]
  ring

/-! ## What is assembled is read again -/

section Assembled
variable {m ex : BitVec 64} (s : BitVec 64) (hm : m.toNat < 2 ^ 53 + 2 ^ 51) (he : ex.toNat < 768)
include hm he

theorem special_assembleBid : special (assembleBid m ex s) ↔ 2 ^ 53 ≤ m.toNat := by
  rw [special_iff]
  by_cases h : m.toNat < 2 ^ 53
  · rw [toNat_assembleBid h (by omega)]
    omega
  · rw [toNat_assembleBid_large (by omega) hm he]
    omega

/-- **The coefficient**, canonical or not. -/
theorem mantBid64_assembleBid : mantBid64 (assembleBid m ex s) = m := by
  have hlayout := special_assembleBid s hm he
  apply BitVec.eq_of_toNat_eq
  by_cases h : m.toNat < 2 ^ 53
  · rw [toNat_mantBid64_plain (by rw [hlayout]; omega), toNat_assembleBid h (by omega)]
    omega
  · rw [toNat_mantBid64_special (by rw [hlayout]; omega), toNat_assembleBid_large (by omega) hm he]
    omega

/-- **The exponent**, the all-zero word apart. -/
theorem quantexpbid64_assembleBid (h0 : assembleBid m ex s ≠ 0) :
    quantexpbid64 (assembleBid m ex s) = (ex.toNat : ℤ) - 398 := by
  have hlayout := special_assembleBid s hm he
  by_cases h : m.toNat < 2 ^ 53
  · rw [quantexpbid64_plain (by rw [hlayout]; omega) h0, toNat_assembleBid h (by omega)]
    omega
  · rw [quantexpbid64_special (by rw [hlayout]; omega), toNat_assembleBid_large (by omega) hm he]
    omega

/-- **The sign.** -/
theorem signBid64_assembleBid : signBid64 (assembleBid m ex s) = if s.toNat % 2 = 1 then -1 else 0 := by
  have hsign : (2 ^ 63 ≤ (assembleBid m ex s).toNat) ↔ s.toNat % 2 = 1 := by
    by_cases h : m.toNat < 2 ^ 53
    · rw [toNat_assembleBid h (by omega)]
      omega
    · rw [toNat_assembleBid_large (by omega) hm he]
      omega
  rw [signBid64_eq]
  simp only [hsign]

theorem assembleBid_eq_zero_iff : assembleBid m ex s = 0 ↔ m = 0 ∧ ex = 0 ∧ s.toNat % 2 = 0 := by
  rw [← BitVec.toNat_inj, ← BitVec.toNat_inj, ← BitVec.toNat_inj, show (0 : BitVec 64).toNat = 0 from rfl]
  by_cases h : m.toNat < 2 ^ 53
  · rw [toNat_assembleBid h (by omega)]
    omega
  · rw [toNat_assembleBid_large (by omega) hm he]
    omega

end Assembled

/-- **The word assembled from the parts of a decimal.** -/
theorem assembleBid_dec (d : Dec) {m : BitVec 64} (hm : m.toNat = d.coef) :
    (assembleBid m (BitVec.ofInt 64 (d.expo + 398)) (BitVec.ofInt 64 (if d.neg then -1 else 0))).toNat = bid d := by
  have hb := d.biased_lt
  have hc := d.coef_lt
  have hex : (BitVec.ofInt 64 (d.expo + 398)).toNat = d.biased := by
    have h := d.biased_sub
    rw [BitVec.toNat_ofInt]
    omega
  have hs : (BitVec.ofInt 64 (if d.neg then -1 else 0)).toNat % 2 = signBit d.neg := by
    cases d.neg <;> decide
  rw [bid]
  by_cases h : d.coef < 2 ^ 53
  · rw [toNat_assembleBid_fields (by omega), hm, hex, if_pos h]
    omega
  · rw [toNat_assembleBid_large (by omega) (by omega) (by omega), hm, hex, hs, if_neg h]

/-! ## What is read is assembled again -/

/-- **The parts of a finite word** make up the word, whether its coefficient is canonical or not; the all-zero word
apart, whose exponent is taken for zero. -/
theorem assembleBid_read {x : Decimal64} (hx : x.finite) (h0 : x ≠ 0) :
    assembleBid (mantBid64 x) (BitVec.ofInt 64 (quantexpbid64 x + 398)) (BitVec.ofInt 64 (signBid64 x)) = x := by
  have hlt := x.isLt
  have hrange := quantexpbid64_range hx
  have hex : ((BitVec.ofInt 64 (quantexpbid64 x + 398)).toNat : ℤ) = quantexpbid64 x + 398 := by
    rw [BitVec.toNat_ofInt]
    omega
  have hsign : (BitVec.ofInt 64 (signBid64 x)).toNat % 2 = x.toNat / 2 ^ 63 := by
    rw [signBid64_eq]
    split_ifs with h
    · rw [show (BitVec.ofInt 64 (-1)).toNat % 2 = 1 by decide]
      omega
    · rw [show (BitVec.ofInt 64 0).toNat % 2 = 0 by decide]
      omega
  apply BitVec.eq_of_toNat_eq
  by_cases hs : special x
  · have hm := toNat_mantBid64_special hs
    have hq := quantexpbid64_special hs
    rw [toNat_assembleBid_large (by omega) (by omega) (by omega), hsign, hm]
    rw [special_iff] at hs
    omega
  · have hm := toNat_mantBid64_plain hs
    have hq := quantexpbid64_plain hs h0
    rw [toNat_assembleBid (by omega) (by omega), hsign, hm]
    rw [special_iff] at hs
    omega

theorem assembleBid_sign (m ex : BitVec 64) {s t : BitVec 64} (h : s.toNat % 2 = t.toNat % 2) :
    assembleBid m ex s = assembleBid m ex t := by
  have hst : s <<< 63 = t <<< 63 := by
    apply BitVec.eq_of_toNat_eq
    rw [BitVec.toNat_shiftLeft, BitVec.toNat_shiftLeft, Nat.shiftLeft_eq, Nat.shiftLeft_eq]
    omega
  rw [assembleBid, assembleBid, hst]

/-- **Packing and reading**: of every sign, sixteen digits and exponent the same parts are read, whether the sign was
one bit or all of them, and the parts read of a finite word are packed to its bits; the all-zero word apart. -/
theorem assembleBid_unpacked :
    (∀ m ex s : BitVec 64, s = 0 ∨ s = 1 → m.toNat < 10 ^ 16 → ex.toNat < 768 → ¬ (m = 0 ∧ ex = 0 ∧ s = 0) →
      mantBid64 (assembleBid m ex s) = m ∧ quantexpbid64 (assembleBid m ex s) = (ex.toNat : ℤ) - 398 ∧
      signBid64 (assembleBid m ex s) = (if s = 0 then 0 else -1) ∧
      assembleBid m ex (if s = 0 then 0 else BitVec.allOnes 64) = assembleBid m ex s) ∧
    ∀ x : Decimal64, x.finite → x ≠ 0 →
      assembleBid (mantBid64 x) (BitVec.ofInt 64 (quantexpbid64 x + 398)) (BitVec.ofInt 64 (signBid64 x)) = x := by
  refine ⟨fun m ex s hs hm he h0 => ?_, fun x => assembleBid_read⟩
  have hm' : m.toNat < 2 ^ 53 + 2 ^ 51 := by omega
  have hne : assembleBid m ex s ≠ 0 := by
    rw [Ne, assembleBid_eq_zero_iff s hm' he]
    rintro ⟨rfl, rfl, hz⟩
    rcases hs with rfl | rfl
    · exact h0 ⟨rfl, rfl, rfl⟩
    · exact absurd hz (by decide)
  refine ⟨mantBid64_assembleBid s hm' he, quantexpbid64_assembleBid s hm' he hne, ?_, ?_⟩
  · rw [signBid64_assembleBid s hm' he]
    rcases hs with rfl | rfl <;> decide
  · apply assembleBid_sign
    rcases hs with rfl | rfl <;> decide

/-- Minus `9999999999999999`, with three digits behind the point. -/
theorem assembleBid_unpacked_nines :
    (mantBid64 (assembleBid 9999999999999999 395 1) = 9999999999999999 ∧
      quantexpbid64 (assembleBid 9999999999999999 395 1) = ((395 : BitVec 64).toNat : ℤ) - 398 ∧
      signBid64 (assembleBid 9999999999999999 395 1) = (if (1 : BitVec 64) = 0 then 0 else -1) ∧
      assembleBid 9999999999999999 395 (if (1 : BitVec 64) = 0 then 0 else BitVec.allOnes 64) =
        assembleBid 9999999999999999 395 1) ∧
    assembleBid (mantBid64 0xec5b86f26fc0ffff) (BitVec.ofInt 64 (quantexpbid64 0xec5b86f26fc0ffff + 398))
      (BitVec.ofInt 64 (signBid64 0xec5b86f26fc0ffff)) = 0xec5b86f26fc0ffff :=
  ⟨assembleBid_unpacked.1 _ _ _ (Or.inr rfl) (by decide) (by decide) (by decide),
    assembleBid_unpacked.2 _ (by decide) (by decide)⟩

end Unserlob
