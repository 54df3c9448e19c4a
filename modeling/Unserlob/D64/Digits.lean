import Unserlob.D64.Kept
import Mathlib.Tactic.FieldSimp
import Mathlib.Algebra.Order.Field.Power

/-!
# The number a text denotes

* `numVal`: digits as a number; **`toNat_keptWord`**: the word kept holds the number of the digits kept;
* `dropped`: the digits that are not kept;
* `textVal`: the number itself, and **`textVal_eq`**: by the digits kept and dropped.
-/

namespace Unserlob

open Ascii Cursor

/-! ## Digits as numbers -/

/-- The number of a digit string. -/
def numVal (w : List UInt8) : ℕ := Nat.ofDigits 10 (digitVals w).reverse

theorem numVal_singleton (c : UInt8) : numVal [c] = c.toNat - 48 := Nat.ofDigits_singleton

theorem numVal_append (w v : List UInt8) : numVal (w ++ v) = numVal w * 10 ^ v.length + numVal v := by
  rw [numVal, digitVals_append, List.reverse_append, Nat.ofDigits_append, List.length_reverse, length_digitVals]
  unfold numVal
  ring

theorem numVal_lt {w : List UInt8} (h : ∀ c ∈ w, isdigit c = true) : numVal w < 10 ^ w.length := by
  have hlt := Nat.ofDigits_lt_base_pow_length (b := 10) (l := (digitVals w).reverse) (by decide)
    (fun d hd => (digitVals_spec h).2 d (List.mem_reverse.mp hd))
  rwa [List.length_reverse, length_digitVals] at hlt

theorem numVal_map {ds : List ℕ} (h : ∀ d ∈ ds, d < 10) : numVal (ds.map digitByte) = Nat.ofDigits 10 ds.reverse := by
  have hback : digitVals (ds.map digitByte) = ds := by
    unfold digitVals
    rw [List.map_map]
    refine (List.map_congr_left fun d hd => ?_).trans (List.map_id ds)
    rw [Function.comp_apply, toNat_digitByte (h d hd), Nat.add_sub_cancel_left, id]
  rw [numVal, hback]

theorem numVal_decimal (n : ℕ) : numVal (decimal n) = n := by
  by_cases h : n = 0
  · subst h
    rfl
  · rw [decimal_eq_map h, numVal_map fun d hd => lt_of_mem_digits hd, List.reverse_reverse, Nat.ofDigits_digits]

theorem numVal_zeros (n : ℕ) : numVal (List.replicate n (ch '0')) = 0 := by
  have hds : (digitVals (List.replicate n (ch '0'))).reverse = List.replicate n 0 := by
    rw [digitVals, List.map_replicate, List.reverse_replicate]
    rfl
  rw [numVal, hds, Nat.ofDigits_replicate_zero]

theorem numVal_dropWhile (w : List UInt8) : numVal (w.dropWhile (· == ch '0')) = numVal w := by
  have hzeros : ∀ c ∈ w.takeWhile (· == ch '0'), c = ch '0' := fun c hc =>
    beq_iff_eq.mp (List.mem_takeWhile_imp (p := (· == ch '0')) hc)
  have happ := List.takeWhile_append_dropWhile (p := (· == ch '0')) (l := w)
  conv_rhs => rw [← happ, numVal_append, List.eq_replicate_of_mem hzeros, numVal_zeros, Nat.zero_mul, Nat.zero_add]

/-- **The word kept** holds the number of the digits kept. -/
theorem toNat_keptWord (p : Ptr) : (keptWord p).toNat = Radix.recode 10 16 16 (numVal (kept p)) := by
  have hds := (digitVals_spec fun c (h : c ∈ kept p) => isdigit_of_mem_kept h).2
  have hlen : (digitVals (kept p)).reverse.length ≤ 16 := by
    rw [List.length_reverse, length_digitVals]
    exact (length_kept_le p).trans (by decide)
  have hrec := Radix.recode_ofDigits (b := 10) (c := 16) (by decide) (fun d hd => hds d (List.mem_reverse.mp hd)) hlen
  rw [keptWord, toNat_packAll hds (j := 0) (by decide) (by rw [length_digitVals]; have := length_kept_le p; omega),
    numVal, hrec]
  exact (congrArg (· + _) (Nat.zero_mul _)).trans (Nat.zero_add _)

theorem numVal_kept_lt (p : Ptr) : numVal (kept p) < 10 ^ 15 :=
  (numVal_lt fun _ hc => isdigit_of_mem_kept hc).trans_le (Nat.pow_le_pow_right (by decide) (length_kept_le p))

/-! ## The digits that are dropped -/

/-- The digits that are not kept. -/
def dropped (p : Ptr) : List UInt8 := (intDigits p).drop 15 ++ (fracDigits p).drop (fracRoom p)

theorem kept_append_dropped (p : Ptr) : kept p ++ dropped p = intDigits p ++ fracDigits p := by
  unfold kept dropped
  by_cases h : (intDigits p).length ≤ 15
  · rw [List.take_of_length_le h, List.drop_eq_nil_of_le h, List.nil_append, List.append_assoc, List.take_append_drop]
  · have hroom : fracRoom p = 0 := by
      unfold fracRoom
      omega
    rw [hroom, List.take_zero, List.append_nil, List.drop_zero, ← List.append_assoc, List.take_append_drop]

theorem isdigit_of_mem_dropped {p : Ptr} {c : UInt8} (h : c ∈ dropped p) : isdigit c = true :=
  isdigit_of_mem_number (by rw [← kept_append_dropped]; exact List.mem_append_right _ h)

theorem numVal_dropped_zeros {p : Ptr} (h : ∀ c ∈ dropped p, c = ch '0') : numVal (dropped p) = 0 := by
  rw [List.eq_replicate_of_mem h, numVal_zeros]

theorem isRound_of_roundsUp {p : Ptr} (h : roundsUp p = true) : isRound ((dropped p).headD 0) = true := by
  have h0 : isRound 0 = false := by decide
  rw [roundsUp, Bool.or_eq_true, Bool.and_eq_true, decide_eq_true_iff] at h
  rw [dropped]
  rcases h with h | ⟨hroom, h⟩
  · cases hd : (intDigits p).drop 15 with
    | nil =>
        rw [hd, List.headD_nil, h0] at h
        cases h
    | cons c t =>
        rw [hd] at h
        exact h
  · have hnone : (intDigits p).drop 15 = [] := by
      rw [List.drop_eq_nil_iff]
      unfold fracRoom at hroom
      omega
    rwa [hnone]

theorem expoOf_eq (p : Ptr) : expoOf p = (dropped p).length - (fracDigits p).length := by
  have h : (fracDigits p).length = ((fracDigits p).take (fracRoom p)).length +
      ((fracDigits p).drop (fracRoom p)).length := by
    rw [← List.length_append, List.take_append_drop]
  rw [expoOf, dropped, List.length_append]
  omega

theorem expoOf_bounds {p : Ptr} (h : (intDigits p).length ≤ 384) : -15 ≤ expoOf p ∧ expoOf p ≤ 369 := by
  have hroom : fracRoom p ≤ 15 := Nat.sub_le _ _
  rw [expoOf, List.length_drop, List.length_take]
  omega

/-- **The number a text denotes.** -/
def textVal (p : Ptr) : ℚ :=
  (if isNeg p then -1 else 1) * numVal (intDigits (signEnd p) ++ fracDigits (signEnd p)) *
    10 ^ (-(fracDigits (signEnd p)).length : ℤ)

theorem textVal_eq (p : Ptr) : textVal p = (if isNeg p then -1 else 1) *
    (numVal (kept (signEnd p)) + numVal (dropped (signEnd p)) / 10 ^ (dropped (signEnd p)).length) *
    10 ^ expoOf (signEnd p) := by
  have hexp : (-(fracDigits (signEnd p)).length : ℤ) =
      expoOf (signEnd p) + -((dropped (signEnd p)).length : ℤ) := by
    rw [expoOf_eq]
    ring
  rw [textVal, ← kept_append_dropped, numVal_append, hexp, zpow_add₀ (by norm_num), zpow_neg, zpow_natCast]
  push_cast
  field_simp

end Unserlob
