import Unserlob.D64.Value

/-!
# What is printed (`d64tostr`)

* `Digits`, `Spelled`: the integer part and the digits behind the point that spell a number;
* `spelled_numText`: the text of a number is made of such;
* `Wanted`: the text that is wanted of any word;
* **`d64tostr_wanted`**: it is what `d64tostr` writes wherever it fits.
-/

namespace Unserlob

open Ascii Cursor Decimal

/-! ## Spelling a number -/

def Digits (w : List UInt8) : Prop := ∀ c ∈ w, isdigit c = true

/-- **The digits on both sides of the point** that spell `m · 10 ^ e`. -/
structure Spelled (m : ℕ) (e : ℤ) (int frac : List UInt8) : Prop where
  left : Digits int
  right : Digits frac
  ne_nil : int ≠ []
  length : frac.length = (-e).toNat
  lead : int.head? = some (ch '0') → int = [ch '0'] ∨ m = 0 ∧ 0 < e
  zeros : m = 0 → 0 < e → int = List.replicate (e.toNat + 1) (ch '0')
  val : (numVal int : ℚ) + numVal frac / 10 ^ frac.length = m * 10 ^ e

/-- The text with a sign and these digits. -/
def spelling (neg : Bool) (e : ℤ) (int frac : List UInt8) : List UInt8 :=
  (if neg then [ch '-'] else []) ++ int ++ if e < 0 then ch '.' :: frac else []

theorem numVal_fixedDigits (n m : ℕ) : numVal (fixedDigits n m) = m % 10 ^ n := by
  rw [fixedDigits, numVal_map fun d hd => lt_of_mem_numeral hd, List.reverse_reverse, Radix.ofDigits_numeral]

theorem head_decimal {q : ℕ} (hq : q ≠ 0) (t : List UInt8) : (decimal q ++ t).head? ≠ some (ch '0') := by
  obtain ⟨d, ds, hds, hd, hlt⟩ := digits_reverse_cons hq
  rw [decimal_eq_map hq, hds, List.map_cons, List.cons_append, List.head?_cons]
  exact fun h => hd ((digitByte_eq_zero hlt).mp (Option.some.inj h))

theorem spelled_point (m : ℕ) {e : ℤ} (he : e < 0) :
    Spelled m e (decimal (m / 10 ^ (-e).toNat)) (fixedDigits (-e).toNat m) := by
  refine ⟨fun c => isdigit_of_mem_decimal, fun c => isdigit_of_mem_fixedDigits, decimal_ne_nil _,
    length_fixedDigits _ _, fun hlead => Or.inl ?_, fun _ h0 => absurd h0 (by omega), ?_⟩
  · by_cases hq : m / 10 ^ (-e).toNat = 0
    · rw [hq, decimal_zero]
    · exact absurd hlead (by simpa using head_decimal hq [])
  · -- quotient and remainder
    have hdiv : ((m / 10 ^ (-e).toNat : ℕ) : ℚ) * 10 ^ (-e).toNat + (m % 10 ^ (-e).toNat : ℕ) = m := by
      exact_mod_cast Nat.div_add_mod' m (10 ^ (-e).toNat)
    have hpow : (10 : ℚ) ^ e = (10 ^ (-e).toNat)⁻¹ := by
      rw [← zpow_natCast, ← zpow_neg, Int.toNat_of_nonneg (by omega), neg_neg]
    rw [numVal_decimal, numVal_fixedDigits, length_fixedDigits, hpow, ← hdiv]
    field_simp

theorem spelled_whole (m : ℕ) {e : ℤ} (he : ¬ e < 0) :
    Spelled m e (decimal m ++ List.replicate e.toNat (ch '0')) [] := by
  refine ⟨?_, fun c hc => absurd hc List.not_mem_nil, ?_, ?_, fun hlead => ?_, fun h0 _ => ?_, ?_⟩
  · intro c hc
    rcases List.mem_append.mp hc with hc | hc
    · exact isdigit_of_mem_decimal hc
    · rw [List.eq_of_mem_replicate hc]
      decide
  · exact fun h => decimal_ne_nil m (List.append_eq_nil_iff.mp h).1
  · rw [List.length_nil]
    omega
  · by_cases hm : m = 0
    · by_cases h0 : e = 0
      · subst h0 hm
        exact Or.inl rfl
      · exact Or.inr ⟨hm, by omega⟩
    · exact absurd hlead (head_decimal hm _)
  · rw [h0, decimal_zero, List.replicate_succ]
    rfl
  · have hpow : (10 : ℚ) ^ e = 10 ^ e.toNat := by rw [← zpow_natCast, Int.toNat_of_nonneg (by omega)]
    rw [numVal_append, numVal_decimal, numVal_zeros, List.length_replicate, List.length_nil, pow_zero, div_one,
      show numVal [] = 0 from rfl, hpow]
    push_cast
    ring

/-- **The digits that are printed.** -/
theorem spelled_numText (neg : Bool) (m : ℕ) (e : ℤ) :
    ∃ int frac, Spelled m e int frac ∧ numText neg m e = spelling neg e int frac := by
  by_cases he : e < 0
  · exact ⟨_, _, spelled_point m he, by rw [numText, spelling, if_pos he, if_pos he, List.append_assoc]⟩
  · exact ⟨_, _, spelled_whole m he, by rw [numText, spelling, if_neg he, if_neg he, List.append_nil]⟩

/-! ## Any word -/

/-- **What is wanted of the text of a word**: of a finite one, a minus for a number below zero, and the digits that
spell its coefficient at the exponent that is read. -/
def Wanted (x : Decimal64) (t : List UInt8) : Prop :=
  if isnand64 x then t = bytes ['n', 'a', 'n']
  else if isinfd64 x then t = (if signBid64 x ≠ 0 then [ch '-'] else []) ++ bytes ['i', 'n', 'f']
  else ∃ int frac, Spelled (mantBid64 x).toNat (quantexpbid64 x) int frac ∧
    t = spelling (decide (x.val < 0)) (quantexpbid64 x) int frac ∧
    |x.val| = numVal int + numVal frac / 10 ^ frac.length

theorem printedSign_eq {d : Dec} {x : Decimal64} (hx : x.toNat = bid d) : printedSign x = decide (x.val < 0) := by
  have hcoef : x.coef = (mantBid64 x).toNat := by
    rw [Decimal64.coef, if_pos (by rw [mantBid64_bid hx]; exact d.coef_lt)]
  have hten : (0 : ℚ) < 10 ^ quantexpbid64 x := by positivity
  rw [printedSign, decide_eq_decide, Decimal64.val, hcoef]
  by_cases hm : mantBid64 x = 0
  · simp [hm]
  · have hpos : (0 : ℚ) < (mantBid64 x).toNat := by
      exact_mod_cast Nat.pos_of_ne_zero fun h => hm (BitVec.eq_of_toNat_eq h)
    by_cases hs : signBid64 x = 0
    · simp only [hm, hs, ne_eq, not_true_eq_false, and_false, if_false, one_mul, false_iff, not_lt]
      positivity
    · simp only [hm, hs, ne_eq, not_false_eq_true, true_and, if_true, true_iff]
      nlinarith [mul_pos hpos hten]

theorem wanted_d64Text {x : Decimal64} (hx : x.finite → ∃ d : Dec, x.toNat = bid d) : Wanted x (d64Text x) := by
  unfold Wanted
  by_cases hnan : isnand64 x
  · rw [if_pos hnan, d64Text, if_pos hnan]
    rfl
  by_cases hinf : isinfd64 x
  · rw [if_neg hnan, if_pos hinf, d64Text, if_neg hnan, if_pos hinf]
    rfl
  obtain ⟨d, hd⟩ := hx ⟨hnan, hinf⟩
  have hlt : (mantBid64 x).toNat < 10 ^ 16 := by
    rw [mantBid64_bid hd]
    exact d.coef_lt
  obtain ⟨int, frac, hs, htext⟩ := spelled_numText (printedSign x) (mantBid64 x).toNat (quantexpbid64 x)
  rw [if_neg hnan, if_neg hinf]
  refine ⟨int, frac, hs, ?_, ?_⟩
  · rw [← printedSign_eq hd, ← htext, d64Text, if_neg hnan, if_neg hinf, finText, Nat.mod_eq_of_lt hlt, printedSign]
  · rw [hs.val, Decimal64.val, Decimal64.coef, if_pos hlt, abs_mul, abs_mul, Nat.abs_cast,
      abs_of_pos (show (0 : ℚ) < 10 ^ quantexpbid64 x by positivity)]
    split_ifs <;> simp

/-- **`d64tostr` prints the exact value** of every canonical number, and the names of the words that are none, into
every buffer that the text fits into; it returns the length of the text. -/
theorem d64tostr_wanted (x : Decimal64) (hx : x.finite → ∃ d : Dec, x.toNat = bid d) :
    ∃ t, Wanted x t ∧ ∀ bsz, t.length ≤ bsz → (d64Bytes x bsz).2 = t.length ∧
      ∃ e, (d64Bytes x bsz).1 = t ++ e ∧ (e = [] ∨ e = [0]) :=
  ⟨d64Text x, wanted_d64Text hx, fun _ h => d64Bytes_of_le h⟩

/-- Minus sixteen nines, with three of them behind the point. -/
def sixteenNines : Dec := ⟨true, 9999999999999999, -3, by decide, by decide, by decide⟩

theorem d64tostr_wanted_nines : ∃ t, Wanted 0xec5b86f26fc0ffff t ∧ ∀ bsz, t.length ≤ bsz →
    (d64Bytes 0xec5b86f26fc0ffff bsz).2 = t.length ∧
      ∃ e, (d64Bytes 0xec5b86f26fc0ffff bsz).1 = t ++ e ∧ (e = [] ∨ e = [0]) :=
  d64tostr_wanted _ fun _ => ⟨sixteenNines, by decide⟩

end Unserlob
