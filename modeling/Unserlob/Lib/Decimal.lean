import Mathlib.Data.Rat.Defs
import Mathlib.Algebra.Order.Field.Rat
import Mathlib.Algebra.Order.Field.Power
import Mathlib.Tactic.Ring
import Mathlib.Tactic.Linarith

/-!
# Decimals of sixteen digits and their two encodings

A word has a sign, a combination field, whose top bits belong to the exponent or, after two ones, to the
coefficient, and the rest of both.

* `Dec`, `Dec.val`: sign, coefficient and exponent; `Denoted`: what a word may be;
* `bid`, `bidRead`: the binary encoding, and **`bidRead_bid`**;
* `declet`, `decletVal`: three digits in ten bits; `decletVal_declet`;
* `dpd`, `dpdRead`: the decimal encoding, and **`dpdRead_dpd`**.
-/

namespace Decimal

/-- A number that both encodings have a word for. -/
structure Dec where
  neg : Bool
  coef : ℕ
  expo : ℤ
  coef_lt : coef < 10 ^ 16
  expo_ge : -398 ≤ expo
  expo_le : expo ≤ 369
  deriving DecidableEq

/-- What a word denotes. -/
inductive Denoted where
  | nan
  | inf (neg : Bool)
  | fin (neg : Bool) (coef : ℕ) (expo : ℤ)
  deriving DecidableEq

def Dec.denoted (d : Dec) : Denoted := .fin d.neg d.coef d.expo

/-- The number itself. -/
def Dec.val (d : Dec) : ℚ := (if d.neg then -1 else 1) * d.coef * 10 ^ d.expo

/-- The number a word denotes, if it denotes one. -/
def Denoted.val : Denoted → Option ℚ
  | .fin neg coef expo => some ((if neg then -1 else 1) * coef * 10 ^ expo)
  | _ => none

theorem Dec.abs_val (d : Dec) : |d.val| = d.coef * 10 ^ d.expo := by
  rw [val, abs_mul, abs_mul, abs_of_nonneg (show (0 : ℚ) ≤ 10 ^ d.expo by positivity), Nat.abs_cast]
  cases d.neg <;> simp

theorem Dec.abs_sub_val {d u : Dec} (h : u.neg = d.neg) : |u.val - d.val| = |(|u.val| - |d.val|)| := by
  rw [abs_val, abs_val, val, val, h, mul_assoc, mul_assoc, ← mul_sub, abs_mul]
  cases d.neg <;> simp

theorem Dec.val_denoted (d : Dec) : d.denoted.val = some d.val := rfl

/-- The exponent as it is stored. -/
def Dec.biased (d : Dec) : ℕ := (d.expo + 398).toNat

theorem Dec.biased_lt (d : Dec) : d.biased < 768 := by
  have h1 := d.expo_ge
  have h2 := d.expo_le
  unfold biased
  omega

theorem Dec.biased_sub (d : Dec) : (d.biased : ℤ) - 398 = d.expo := by
  have h1 := d.expo_ge
  unfold biased
  omega

/-- The sign bit. -/
def signBit (neg : Bool) : ℕ := if neg then 1 else 0

theorem signBit_lt (neg : Bool) : signBit neg < 2 := by cases neg <;> decide

/-- The sign of a word. -/
def isNegWord (w : ℕ) : Bool := w / 2 ^ 63 % 2 = 1

theorem isNegWord_add (neg : Bool) {r : ℕ} (h : r < 2 ^ 63) : isNegWord (signBit neg * 2 ^ 63 + r) = neg := by
  have h1 : (signBit neg * 2 ^ 63 + r) / 2 ^ 63 % 2 = signBit neg := by
    have := signBit_lt neg
    omega
  rw [isNegWord, h1]
  cases neg <;> rfl

/-- Words that are no finite number, and the others. -/
def readWord (fin : ℕ → ℕ × ℤ) (w : ℕ) : Denoted :=
  if w / 2 ^ 58 % 32 = 31 then .nan
  else if w / 2 ^ 58 % 32 = 30 then .inf (isNegWord w)
  else .fin (isNegWord w) (fin w).1 (fin w).2

/-! ## Binary coefficients -/

/-- Coefficient and exponent; coefficients of more than sixteen digits are zeros. -/
def bidFin (w : ℕ) : ℕ × ℤ :=
  if w / 2 ^ 61 % 4 = 3 then
    (if 2 ^ 53 + w % 2 ^ 51 < 10 ^ 16 then 2 ^ 53 + w % 2 ^ 51 else 0, (w / 2 ^ 51 % 1024 : ℕ) - 398)
  else (w % 2 ^ 53, (w / 2 ^ 53 % 1024 : ℕ) - 398)

def bidRead : ℕ → Denoted := readWord bidFin

/-- The binary encoding. -/
def bid (d : Dec) : ℕ :=
  signBit d.neg * 2 ^ 63 +
    if d.coef < 2 ^ 53 then d.biased * 2 ^ 53 + d.coef else 3 * 2 ^ 61 + d.biased * 2 ^ 51 + (d.coef - 2 ^ 53)

theorem bid_lt (d : Dec) : bid d < 2 ^ 64 := by
  have h1 := d.biased_lt
  have h2 := d.coef_lt
  have h3 := signBit_lt d.neg
  unfold bid
  split_ifs <;> omega

theorem bidRead_plain (neg : Bool) {e m : ℕ} (he : e < 768) (hm : m < 2 ^ 53) :
    bidRead (signBit neg * 2 ^ 63 + (e * 2 ^ 53 + m)) = .fin neg m (e - 398) := by
  have hneg := isNegWord_add neg (r := e * 2 ^ 53 + m) (by omega)
  have hw : (signBit neg * 2 ^ 63 + (e * 2 ^ 53 + m)) / 2 ^ 58 % 32 < 30 := by omega
  have hl : (signBit neg * 2 ^ 63 + (e * 2 ^ 53 + m)) / 2 ^ 61 % 4 ≠ 3 := by omega
  have hmod : (signBit neg * 2 ^ 63 + (e * 2 ^ 53 + m)) % 2 ^ 53 = m := by omega
  have hexp : (signBit neg * 2 ^ 63 + (e * 2 ^ 53 + m)) / 2 ^ 53 % 1024 = e := by omega
  rw [bidRead, readWord, if_neg (by omega), if_neg (by omega), bidFin, if_neg hl, hneg, hmod, hexp]

theorem bidRead_large (neg : Bool) {e m : ℕ} (he : e < 768) (hm : 2 ^ 53 + m < 10 ^ 16) :
    bidRead (signBit neg * 2 ^ 63 + (3 * 2 ^ 61 + e * 2 ^ 51 + m)) = .fin neg (2 ^ 53 + m) (e - 398) := by
  have hneg := isNegWord_add neg (r := 3 * 2 ^ 61 + e * 2 ^ 51 + m) (by omega)
  have hw : (signBit neg * 2 ^ 63 + (3 * 2 ^ 61 + e * 2 ^ 51 + m)) / 2 ^ 58 % 32 < 30 := by omega
  have hl : (signBit neg * 2 ^ 63 + (3 * 2 ^ 61 + e * 2 ^ 51 + m)) / 2 ^ 61 % 4 = 3 := by omega
  have hmod : (signBit neg * 2 ^ 63 + (3 * 2 ^ 61 + e * 2 ^ 51 + m)) % 2 ^ 51 = m := by omega
  have hexp : (signBit neg * 2 ^ 63 + (3 * 2 ^ 61 + e * 2 ^ 51 + m)) / 2 ^ 51 % 1024 = e := by omega
  rw [bidRead, readWord, if_neg (by omega), if_neg (by omega), bidFin, if_pos hl, hneg, hmod, if_pos hm, hexp]

/-- **Reading the binary encoding.** -/
theorem bidRead_bid (d : Dec) : bidRead (bid d) = d.denoted := by
  have h2 := d.coef_lt
  rw [bid, Dec.denoted, ← d.biased_sub]
  by_cases hc : d.coef < 2 ^ 53
  · rw [if_pos hc, bidRead_plain d.neg d.biased_lt hc]
  · rw [if_neg hc, bidRead_large d.neg d.biased_lt (by omega), Nat.add_sub_of_le (Nat.not_lt.mp hc)]

/-! ## Three digits in ten bits -/

/-- The three digits of a number, as hexadecimal digits. -/
def bcd3 (n : ℕ) : ℕ := n / 100 * 256 + n / 10 % 10 * 16 + n % 10

/-- Three digits; a digit from `8` on leaves room to say so. -/
def declet (n : ℕ) : ℕ :=
  let a := n / 100
  let b := n / 10 % 10
  let c := n % 10
  if a < 8 then
    if b < 8 then if c < 8 then a * 128 + b * 16 + c else a * 128 + b * 16 + 8 + c % 2
    else if c < 8 then a * 128 + c / 2 * 32 + b % 2 * 16 + 10 + c % 2
    else a * 128 + 64 + b % 2 * 16 + 14 + c % 2
  else if b < 8 then
    if c < 8 then c / 2 * 256 + a % 2 * 128 + b * 16 + 12 + c % 2
    else b / 2 * 256 + a % 2 * 128 + 32 + b % 2 * 16 + 14 + c % 2
  else if c < 8 then c / 2 * 256 + a % 2 * 128 + b % 2 * 16 + 14 + c % 2
  else a % 2 * 128 + 96 + b % 2 * 16 + 14 + c % 2

/-- The number of ten bits `pqr stu v wx y`. -/
def decletVal (x : ℕ) : ℕ :=
  let pqr := x / 128 % 8
  let stu := x / 16 % 8
  let pq := x / 256 % 4
  let r := x / 128 % 2
  let st := x / 32 % 4
  let u := x / 16 % 2
  let y := x % 2
  if x / 8 % 2 = 0 then pqr * 100 + stu * 10 + x % 8
  else if x / 2 % 4 = 0 then pqr * 100 + stu * 10 + (8 + y)
  else if x / 2 % 4 = 1 then pqr * 100 + (8 + u) * 10 + (2 * st + y)
  else if x / 2 % 4 = 2 then (8 + r) * 100 + stu * 10 + (2 * pq + y)
  else if st = 0 then (8 + r) * 100 + (8 + u) * 10 + (2 * pq + y)
  else if st = 1 then (8 + r) * 100 + (2 * pq + u) * 10 + (8 + y)
  else if st = 2 then pqr * 100 + (8 + u) * 10 + (8 + y)
  else (8 + r) * 100 + (8 + u) * 10 + (8 + y)

theorem declet_lt {n : ℕ} (h : n < 1000) : declet n < 1024 := by
  have hall : ∀ n < 1000, declet n < 1024 := by decide +kernel
  exact hall n h

/-- **Reading a declet.** -/
theorem decletVal_declet {n : ℕ} (h : n < 1000) : decletVal (declet n) = n := by
  have hall : ∀ n < 1000, decletVal (declet n) = n := by decide +kernel
  exact hall n h

/-- The `n` lowest groups of three digits. -/
def declets : ℕ → ℕ → ℕ
  | 0, _ => 0
  | n + 1, c => declet (c % 1000) + 1024 * declets n (c / 1000)

/-- The number of `n` declets. -/
def decletsVal : ℕ → ℕ → ℕ
  | 0, _ => 0
  | n + 1, w => decletVal (w % 1024) + 1000 * decletsVal n (w / 1024)

theorem declets_lt (n c : ℕ) : declets n c < 1024 ^ n := by
  induction n generalizing c with
  | zero => exact Nat.one_pos
  | succ n ih =>
      have h1 := declet_lt (Nat.mod_lt c (show 0 < 1000 by decide))
      have h2 := ih (c / 1000)
      rw [declets, pow_succ]
      omega

theorem declets_div (n c : ℕ) : ∀ {i : ℕ}, i < n → declets n c / 1024 ^ i % 1024 = declet (c / 1000 ^ i % 1000) := by
  induction n generalizing c with
  | zero => exact fun h => absurd h (Nat.not_lt_zero _)
  | succ n ih =>
      have h1 := declet_lt (Nat.mod_lt c (show 0 < 1000 by decide))
      intro i hi
      cases i with
      | zero =>
          rw [declets, pow_zero, pow_zero, Nat.div_one, Nat.div_one]
          omega
      | succ i =>
          have hstep : (declet (c % 1000) + 1024 * declets n (c / 1000)) / 1024 = declets n (c / 1000) := by omega
          rw [declets, pow_succ', pow_succ', ← Nat.div_div_eq_div_mul, ← Nat.div_div_eq_div_mul, hstep]
          exact ih _ (by omega)

theorem declets_succ (n c : ℕ) : declets (n + 1) c = declet (c / 1000 ^ n % 1000) * 1024 ^ n + declets n c := by
  induction n generalizing c with
  | zero => rw [declets, declets, declets, pow_zero, pow_zero, Nat.div_one]; ring
  | succ n ih =>
      rw [declets, ih, declets, Nat.div_div_eq_div_mul, ← pow_succ', pow_succ 1024]
      ring

theorem decletsVal_declets (n c : ℕ) : decletsVal n (declets n c) = c % 1000 ^ n := by
  induction n generalizing c with
  | zero => rw [pow_zero, Nat.mod_one]; rfl
  | succ n ih =>
      have h1 := declet_lt (Nat.mod_lt c (show 0 < 1000 by decide))
      have hlow : (declet (c % 1000) + 1024 * declets n (c / 1000)) % 1024 = declet (c % 1000) := by omega
      have hhigh : (declet (c % 1000) + 1024 * declets n (c / 1000)) / 1024 = declets n (c / 1000) := by omega
      rw [declets, decletsVal, hlow, hhigh, decletVal_declet (Nat.mod_lt c (by decide)), ih, pow_succ', Nat.mod_mul]

theorem decletsVal_mod (n w : ℕ) : decletsVal n (w % 1024 ^ n) = decletsVal n w := by
  induction n generalizing w with
  | zero => rfl
  | succ n ih =>
      rw [decletsVal, decletsVal, pow_succ', Nat.mod_mul_right_mod, Nat.mod_mul_right_div_self, ih]

/-! ## Decimal coefficients -/

/-- Coefficient and exponent. -/
def dpdFin (w : ℕ) : ℕ × ℤ :=
  if w / 2 ^ 61 % 4 = 3 then
    ((8 + w / 2 ^ 58 % 2) * 10 ^ 15 + decletsVal 5 w, (w / 2 ^ 59 % 4 * 256 + w / 2 ^ 50 % 256 : ℕ) - 398)
  else (w / 2 ^ 58 % 8 * 10 ^ 15 + decletsVal 5 w, (w / 2 ^ 61 % 4 * 256 + w / 2 ^ 50 % 256 : ℕ) - 398)

def dpdRead : ℕ → Denoted := readWord dpdFin

/-- The five bits behind the sign. -/
def combination (top biased : ℕ) : ℕ := if top < 8 then biased / 256 * 8 + top else 24 + biased / 256 * 2 + (top - 8)

/-- The word with these fields. -/
def dpdWord (sign comb biased trailing : ℕ) : ℕ :=
  sign * 2 ^ 63 + (comb * 2 ^ 58 + biased % 256 * 2 ^ 50 + trailing)

/-- The decimal encoding. -/
def dpd (d : Dec) : ℕ :=
  dpdWord (signBit d.neg) (combination (d.coef / 10 ^ 15) d.biased) d.biased (declets 5 d.coef)

theorem combination_lt {top biased : ℕ} (ht : top < 10) (hb : biased < 768) : combination top biased < 30 := by
  unfold combination
  split_ifs <;> omega

theorem dpd_lt (d : Dec) : dpd d < 2 ^ 64 := by
  have h1 := d.biased_lt
  have h2 := d.coef_lt
  have h3 := signBit_lt d.neg
  have h4 := declets_lt 5 d.coef
  have h5 := combination_lt (show d.coef / 10 ^ 15 < 10 by omega) h1
  unfold dpd dpdWord
  omega

section Fields
variable (neg : Bool) {comb : ℕ} (biased c : ℕ)

theorem decletsVal_dpdWord : decletsVal 5 (dpdWord (signBit neg) comb biased (declets 5 c)) = c % 10 ^ 15 := by
  have h5 := declets_lt 5 c
  have hlow : dpdWord (signBit neg) comb biased (declets 5 c) % 1024 ^ 5 = declets 5 c := by
    unfold dpdWord
    omega
  rw [← decletsVal_mod, hlow, decletsVal_declets]
  rfl

variable (hcomb : comb < 32)
include hcomb

theorem isNegWord_dpdWord : isNegWord (dpdWord (signBit neg) comb biased (declets 5 c)) = neg := by
  have h5 := declets_lt 5 c
  exact isNegWord_add neg (by omega)

theorem comb_dpdWord : dpdWord (signBit neg) comb biased (declets 5 c) / 2 ^ 58 % 32 = comb := by
  have h5 := declets_lt 5 c
  unfold dpdWord
  omega

/-- **Reading a word field by field.** -/
theorem dpdFin_dpdWord : dpdFin (dpdWord (signBit neg) comb biased (declets 5 c)) =
    if comb / 8 = 3 then ((8 + comb % 2) * 10 ^ 15 + c % 10 ^ 15, ((comb / 2 % 4 * 256 + biased % 256 : ℕ) : ℤ) - 398)
    else (comb % 8 * 10 ^ 15 + c % 10 ^ 15, ((comb / 8 * 256 + biased % 256 : ℕ) : ℤ) - 398) := by
  have h5 := declets_lt 5 c
  have hw := comb_dpdWord neg biased c hcomb
  have hb : dpdWord (signBit neg) comb biased (declets 5 c) / 2 ^ 50 % 256 = biased % 256 := by
    unfold dpdWord
    omega
  rw [dpdFin, decletsVal_dpdWord neg biased c, hb]
  generalize dpdWord (signBit neg) comb biased (declets 5 c) = w at hw ⊢
  have h1 : w / 2 ^ 61 % 4 = comb / 8 := by omega
  have h2 : w / 2 ^ 58 % 2 = comb % 2 := by omega
  have h3 : w / 2 ^ 59 % 4 = comb / 2 % 4 := by omega
  have h4 : w / 2 ^ 58 % 8 = comb % 8 := by omega
  rw [h1, h2, h3, h4]

end Fields

theorem dpdRead_combination (neg : Bool) {top biased : ℕ} (c : ℕ) (ht : top < 10) (hb : biased < 768) :
    dpdRead (dpdWord (signBit neg) (combination top biased) biased (declets 5 c)) =
      .fin neg (top * 10 ^ 15 + c % 10 ^ 15) (biased - 398) := by
  have hcomb := combination_lt ht hb
  rw [dpdRead, readWord, comb_dpdWord neg biased c (by omega), if_neg (by omega), if_neg (by omega),
    isNegWord_dpdWord neg biased c (by omega), dpdFin_dpdWord neg biased c (by omega)]
  unfold combination at hcomb ⊢
  by_cases h8 : top < 8
  · rw [if_pos h8] at hcomb ⊢
    have h1 : (biased / 256 * 8 + top) % 8 = top := by omega
    have h2 : (biased / 256 * 8 + top) / 8 * 256 + biased % 256 = biased := by omega
    rw [if_neg (by omega), h1, h2]
  · rw [if_neg h8] at hcomb ⊢
    have h1 : 8 + (24 + biased / 256 * 2 + (top - 8)) % 2 = top := by omega
    have h2 : (24 + biased / 256 * 2 + (top - 8)) / 2 % 4 * 256 + biased % 256 = biased := by omega
    rw [if_pos (by omega), h1, h2]

/-- **Reading the decimal encoding.** -/
theorem dpdRead_dpd (d : Dec) : dpdRead (dpd d) = d.denoted := by
  have h2 := d.coef_lt
  rw [dpd, dpdRead_combination d.neg d.coef (by omega) d.biased_lt, Nat.div_add_mod', d.biased_sub, Dec.denoted]

end Decimal
