import Mathlib.Logic.Function.Iterate
import Mathlib.Algebra.Order.Field.Rat
import Mathlib.Algebra.Order.Round
import Mathlib.Data.Rat.Floor
import Mathlib.Tactic.Ring
import Mathlib.Tactic.NormNum
import Mathlib.Tactic.Positivity
import Mathlib.Tactic.Linarith

/-!
# Coefficients moved to another exponent

* `dropDigits`: the last digit goes and its half rounds up, one digit after the other, so that a carry
  can round again; **`dropDigits_eq_zero_iff`** says when nothing is left, **`dropDigits_eq_round_iff`**
  when what is left is the nearest number;
* `expand`: digits come back one by one while there is room; `expand_rel` runs two such loops side by
  side, **`expand_spec`** says that the number stays the same.
-/

namespace Decimal

/-! ## Dropping digits -/

/-- The last digit goes; half and more rounds up. -/
def dropDigit (m : ℕ) : ℕ := m / 10 + if 5 ≤ m % 10 then 1 else 0

/-- `k` digits go, one by one. -/
def dropDigits (k m : ℕ) : ℕ := dropDigit^[k] m

@[simp] theorem dropDigits_zero (m : ℕ) : dropDigits 0 m = m := rfl

theorem dropDigits_succ (k m : ℕ) : dropDigits (k + 1) m = dropDigits k (dropDigit m) := rfl

theorem dropDigits_add (j k m : ℕ) : dropDigits (j + k) m = dropDigits j (dropDigits k m) :=
  Function.iterate_add_apply _ _ _ _

theorem dropDigit_mono : Monotone dropDigit := by
  intro m n h
  unfold dropDigit
  split_ifs <;> omega

theorem dropDigits_mono (k : ℕ) : Monotone (dropDigits k) := dropDigit_mono.iterate k

theorem dropDigits_split (k a m : ℕ) : dropDigits k (a * 10 ^ k + m) = a + dropDigits k m := by
  induction k generalizing m with
  | zero => rw [pow_zero, mul_one, dropDigits_zero, dropDigits_zero]
  | succ k ih =>
      have hstep : dropDigit (a * 10 ^ (k + 1) + m) = a * 10 ^ k + dropDigit m := by
        unfold dropDigit
        rw [pow_succ, ← mul_assoc]
        split_ifs <;> omega
      rw [dropDigits_succ, hstep, ih, dropDigits_succ]

theorem dropDigits_zero_right (k : ℕ) : dropDigits k 0 = 0 := Function.iterate_fixed rfl k

theorem dropDigits_mul_pow (k a : ℕ) : dropDigits k (a * 10 ^ k) = a := by
  have h := dropDigits_split k a 0
  rwa [dropDigits_zero_right] at h

/-- **Nothing is left** of what begins below four, or below four after four, and so on. -/
theorem dropDigits_eq_zero_iff (k m : ℕ) : dropDigits k m = 0 ↔ 9 * m < 4 * 10 ^ k + 5 := by
  induction k generalizing m with
  | zero => rw [dropDigits_zero]; omega
  | succ k ih =>
      have hnine : (4 * 10 ^ k + 5) % 9 = 0 := by
        have h := Nat.pow_mod 10 k 9
        rw [show 10 % 9 = 1 from rfl, one_pow] at h
        omega
      rw [dropDigits_succ, ih, dropDigit, pow_succ]
      split_ifs <;> omega

theorem dropDigits_pow {k n : ℕ} (hk : k ≤ n) : dropDigits k (10 ^ n) = 10 ^ (n - k) := by
  have hpow : 10 ^ n = 10 ^ (n - k) * 10 ^ k := by rw [← pow_add, Nat.sub_add_cancel hk]
  rw [hpow, dropDigits_mul_pow]

theorem dropDigits_le (k m : ℕ) : dropDigits k m ≤ m := by
  induction k generalizing m with
  | zero => exact le_rfl
  | succ k ih =>
      have hstep : dropDigit m ≤ m := by
        unfold dropDigit
        split_ifs <;> omega
      exact (ih _).trans hstep

/-- **Digits that go leave a number unchanged** just when they are zeros. -/
theorem dropDigits_mul_eq_iff (k m : ℕ) : dropDigits k m * 10 ^ k = m ↔ 10 ^ k ∣ m := by
  constructor
  · intro h
    exact ⟨_, (h.symm.trans (mul_comm _ _))⟩
  · rintro ⟨a, rfl⟩
    rw [mul_comm (10 ^ k) a, dropDigits_mul_pow]

/-- **Two numbers of digits dropped** leave the same just when the further digits are zeros. -/
theorem dropDigits_mul_eq_add_iff (k j m : ℕ) :
    dropDigits k m * 10 ^ k = dropDigits (k + j) m * 10 ^ (k + j) ↔ 10 ^ j ∣ dropDigits k m := by
  have hpos : 0 < 10 ^ k := by positivity
  rw [Nat.add_comm k j, dropDigits_add, pow_add, ← mul_assoc, Nat.mul_right_cancel_iff hpos, eq_comm,
    dropDigits_mul_eq_iff]

/-- **What is left of `n` digits** when something is. -/
theorem dropDigits_small {n k m : ℕ} (h : m < 10 ^ n) (h0 : dropDigits k m ≠ 0) :
    k ≤ n ∧ dropDigits k m * 10 ^ k ≤ 10 ^ n := by
  have hk : k ≤ n := by
    by_contra hk
    have hpow : 10 ^ (n + 1) ≤ 10 ^ k := Nat.pow_le_pow_right (by decide) (by omega)
    rw [pow_succ] at hpow
    exact h0 ((dropDigits_eq_zero_iff k m).mpr (by omega))
  have hmono := dropDigits_mono k h.le
  rw [dropDigits_pow hk] at hmono
  refine ⟨hk, (Nat.mul_le_mul_right _ hmono).trans_eq ?_⟩
  rw [← pow_add, Nat.sub_add_cancel hk]

theorem dropDigits_large {n k m : ℕ} (h : 10 ^ n ≤ m) (h' : m < 10 ^ (n + 1)) (h0 : dropDigits k m ≠ 0) :
    10 ^ n ≤ dropDigits k m * 10 ^ k := by
  have hk := (dropDigits_small h' h0).1
  by_cases hn : k ≤ n
  · have hmono := dropDigits_mono k h
    rw [dropDigits_pow hn] at hmono
    refine Eq.trans_le ?_ (Nat.mul_le_mul_right _ hmono)
    rw [← pow_add, Nat.sub_add_cancel hn]
  · calc 10 ^ n ≤ 10 ^ k := Nat.pow_le_pow_right (by decide) (by omega)
      _ ≤ dropDigits k m * 10 ^ k := Nat.le_mul_of_pos_left _ (Nat.pos_of_ne_zero h0)

/-! ## The nearest number -/

theorem dropDigits_eq (k m : ℕ) :
    dropDigits k m = m / 10 ^ k + if 4 * 10 ^ k + 5 ≤ 9 * (m % 10 ^ k) then 1 else 0 := by
  have hlt : m % 10 ^ k < 10 ^ k := Nat.mod_lt _ (by positivity)
  have hle : dropDigits k (m % 10 ^ k) ≤ 1 := by
    have h := dropDigits_mono k hlt.le
    rwa [dropDigits_pow le_rfl, Nat.sub_self, pow_zero] at h
  have hzero := dropDigits_eq_zero_iff k (m % 10 ^ k)
  conv_lhs => rw [← Nat.div_add_mod' m (10 ^ k), dropDigits_split]
  congr 1
  split_ifs <;> omega

theorem round_natCast_div {n : ℕ} (hn : 0 < n) (m : ℕ) :
    round ((m : ℚ) / n) = (m / n + if n ≤ 2 * (m % n) then 1 else 0 : ℕ) := by
  have hlt := Nat.mod_lt m hn
  have hfloor : ⌊2 * ((m : ℚ) / n)⌋ = ((2 * m / n : ℕ) : ℤ) := by
    rw [← mul_div_assoc]
    exact_mod_cast Rat.floor_natCast_div_natCast (2 * m) n
  have htwice : 2 * m / n = 2 * (m / n) + if n ≤ 2 * (m % n) then 1 else 0 := by
    have hsum : 2 * m = 2 * (m % n) + n * (2 * (m / n)) := by
      conv_lhs => rw [← Nat.mod_add_div m n]
      ring
    rw [hsum, Nat.add_mul_div_left _ _ hn, Nat.add_comm]
    congr 1
    split_ifs with h
    · exact Nat.div_eq_of_lt_le (by omega) (by omega)
    · exact Nat.div_eq_of_lt (by omega)
  rw [round_eq_div, hfloor, htwice]
  split_ifs <;> omega

/-- The digits that go are below a half, and make up to it among themselves. -/
def RoundsAgain (k m : ℕ) : Prop := 2 * (m % 10 ^ k) < 10 ^ k ∧ 4 * 10 ^ k + 5 ≤ 9 * (m % 10 ^ k)

instance (k m : ℕ) : Decidable (RoundsAgain k m) := inferInstanceAs (Decidable (_ ∧ _))

/-- **The nearest number** is left, halves up, but after a carry into a half. -/
theorem dropDigits_eq_round_iff (k m : ℕ) :
    (dropDigits k m : ℤ) = round ((m : ℚ) / (10 ^ k : ℕ)) ↔ ¬ RoundsAgain k m := by
  have hpos : 0 < 10 ^ k := by positivity
  have hlt : m % 10 ^ k < 10 ^ k := Nat.mod_lt _ hpos
  -- a half is enough to carry
  have hhalf : 10 ^ k ≤ 2 * (m % 10 ^ k) → 4 * 10 ^ k + 5 ≤ 9 * (m % 10 ^ k) := by
    cases k with
    | zero => omega
    | succ k => rw [pow_succ] at hpos hlt ⊢; omega
  rw [round_natCast_div hpos, dropDigits_eq, Nat.cast_inj, RoundsAgain]
  split_ifs <;> omega

/-- **Rounding halves away**: one number is near, and not below where the fraction is a half or more. -/
theorem near_away_iff {c n : ℕ} {t : ℚ} (h0 : 0 ≤ t) (h1 : t < 1) :
    |(c : ℚ) - (n + t)| ≤ 1 / 2 ∧ (1 / 2 ≤ t → n + t ≤ c) ↔ c = n + if 1 / 2 ≤ t then 1 else 0 := by
  rw [abs_le]
  split_ifs with h
  · constructor
    · rintro ⟨⟨-, hle⟩, haway⟩
      have hlow : (n : ℚ) < c := by linarith [haway h]
      have hhigh : (c : ℚ) < n + 2 := by linarith
      have hlow : n < c := by exact_mod_cast hlow
      have hhigh : c < n + 2 := by exact_mod_cast hhigh
      omega
    · rintro rfl
      push_cast
      exact ⟨⟨by linarith, by linarith⟩, fun _ => by linarith⟩
  · constructor
    · rintro ⟨⟨hge, hle⟩, -⟩
      have hlow : (n : ℚ) < c + 1 := by linarith
      have hhigh : (c : ℚ) < n + 1 := by linarith
      have hlow : n < c + 1 := by exact_mod_cast hlow
      have hhigh : c < n + 1 := by exact_mod_cast hhigh
      omega
    · rintro rfl
      exact ⟨⟨by linarith, by linarith⟩, fun ht => absurd ht h⟩

/-! ## Room for more digits -/

variable {α β : Type}

/-- `for (; small(m) && n > 0; n--) m = grow(m)`, each turn counted in the exponent. -/
def expand (small : α → Bool) (grow : α → α) : ℕ → α → ℤ → α × ℤ
  | 0, m, e => (m, e)
  | n + 1, m, e => if small m then expand small grow n (grow m) (e - 1) else (m, e)

/-- **Two loops side by side.** -/
theorem expand_rel {R : α → β → Prop} (small : α → Bool) (grow : α → α) (small' : β → Bool) (grow' : β → β)
    (hsmall : ∀ a b, R a b → small a = small' b)
    (hgrow : ∀ a b, R a b → small' b = true → R (grow a) (grow' b)) (n : ℕ) {a : α} {b : β} (h : R a b) (e : ℤ) :
    R (expand small grow n a e).1 (expand small' grow' n b e).1 ∧
      (expand small grow n a e).2 = (expand small' grow' n b e).2 := by
  induction n generalizing a b e with
  | zero => exact ⟨h, rfl⟩
  | succ n ih =>
      rw [expand, expand, hsmall a b h]
      by_cases hs : small' b = true
      · rw [if_pos hs, if_pos hs]
        exact ih (hgrow a b h hs) _
      · rw [if_neg hs, if_neg hs]
        exact ⟨h, rfl⟩

/-- Ten times the coefficient while it is below `lim`. -/
def expandTo (lim : ℕ) : ℕ → ℕ → ℤ → ℕ × ℤ := expand (fun m => decide (m < lim)) (· * 10)

/-- **The number stays the same.** -/
theorem expand_spec (lim n m : ℕ) (e : ℤ) :
    ((expandTo lim n m e).1 : ℚ) * 10 ^ (expandTo lim n m e).2 = m * 10 ^ e ∧
      (expandTo lim n m e).1 ≤ max m (10 * lim - 1) ∧
      e - n ≤ (expandTo lim n m e).2 ∧ (expandTo lim n m e).2 ≤ e := by
  induction n generalizing m e with
  | zero =>
      unfold expandTo expand
      exact ⟨rfl, le_max_left _ _, by simp, le_rfl⟩
  | succ n ih =>
      by_cases hs : m < lim
      · have heq : expandTo lim (n + 1) m e = expandTo lim n (m * 10) (e - 1) := if_pos (decide_eq_true hs)
        have hih := ih (m * 10) (e - 1)
        have hten : ((m * 10 : ℕ) : ℚ) * 10 ^ (e - 1) = m * 10 ^ e := by
          rw [zpow_sub_one₀ (by norm_num)]
          push_cast
          ring
        rw [heq, hih.1, hten]
        refine ⟨rfl, ?_, ?_, ?_⟩ <;> omega
      · have heq : expandTo lim (n + 1) m e = (m, e) := if_neg (by simpa using hs)
        rw [heq]
        exact ⟨rfl, le_max_left _ _, by omega, le_rfl⟩

/-- **It stops before its turns are over** only where there is no room. -/
theorem expand_full {lim n m : ℕ} {e : ℤ} (h : e - n < (expandTo lim n m e).2) : lim ≤ (expandTo lim n m e).1 := by
  induction n generalizing m e with
  | zero =>
      rw [expandTo, expand] at h
      simp at h
  | succ n ih =>
      by_cases hs : m < lim
      · have heq : expandTo lim (n + 1) m e = expandTo lim n (m * 10) (e - 1) := if_pos (decide_eq_true hs)
        rw [heq] at h ⊢
        exact ih (by omega)
      · have heq : expandTo lim (n + 1) m e = (m, e) := if_neg (by simpa using hs)
        rw [heq]
        exact Nat.not_lt.mp hs

theorem expand_done {lim n m : ℕ} {e : ℤ} (h : lim ≤ m ∨ n = 0) : expandTo lim n m e = (m, e) := by
  cases n with
  | zero => rfl
  | succ n =>
      have hlim : lim ≤ m := h.resolve_right (Nat.succ_ne_zero n)
      exact if_neg (by simpa using hlim)

end Decimal
