import Mathlib.Data.Nat.Digits.Lemmas
import Mathlib.Tactic.Ring
import Mathlib.Tactic.NormNum

/-!
# Numerals of fixed width

`numeral b n m` lists the `n` lowest base-`b` digits of `m`, least significant first; unlike
`Nat.digits` it keeps leading zeros.

* `ofDigits_numeral`, `numeral_ofDigits`: reading back gives `m % b ^ n`, and every digit list is
  the numeral of its value;
* `numeral_add`: splitting a numeral;
* `foldl_horner`: the value a left-to-right digit scanner accumulates;
* **`numeral_eq_digits`**: the numeral is `Nat.digits` padded with zeros;
* `recode`: reading the digits of one base in another, as in packed decimal words; `recode_lt_iff`:
  the recoded word keeps the numeral's width.
-/

namespace Radix

/-- The `n` lowest base-`b` digits of `m`, least significant first. -/
def numeral (b : ℕ) : ℕ → ℕ → List ℕ
  | 0, _ => []
  | n + 1, m => m % b :: numeral b n (m / b)

variable {b : ℕ}

@[simp] theorem length_numeral (n m : ℕ) : (numeral b n m).length = n := by
  induction n generalizing m with
  | zero => rfl
  | succ n ih => rw [numeral, List.length_cons, ih]

theorem lt_of_mem_numeral (hb : 0 < b) {n m d : ℕ} (h : d ∈ numeral b n m) : d < b := by
  induction n generalizing m with
  | zero => cases h
  | succ n ih =>
      rcases List.mem_cons.mp h with rfl | h
      · exact Nat.mod_lt _ hb
      · exact ih h

/-- **Reading a numeral back.** -/
theorem ofDigits_numeral (n m : ℕ) : Nat.ofDigits b (numeral b n m) = m % b ^ n := by
  induction n generalizing m with
  | zero => simp [numeral, Nat.mod_one]
  | succ n ih =>
      rw [numeral, Nat.ofDigits_cons, ih, pow_succ', Nat.mod_mul]

theorem ofDigits_numeral_of_lt {n m : ℕ} (h : m < b ^ n) :
    Nat.ofDigits b (numeral b n m) = m := by
  rw [ofDigits_numeral, Nat.mod_eq_of_lt h]

/-- **Every digit list is the numeral of its value.** -/
theorem numeral_ofDigits (ds : List ℕ) (h : ∀ d ∈ ds, d < b) :
    numeral b ds.length (Nat.ofDigits b ds) = ds := by
  induction ds with
  | nil => rfl
  | cons d ds ih =>
      have hd : d < b := h d List.mem_cons_self
      rw [List.length_cons, numeral, Nat.ofDigits_cons, Nat.add_mul_mod_self_left,
        Nat.mod_eq_of_lt hd, Nat.add_mul_div_left _ _ (by omega), Nat.div_eq_of_lt hd, zero_add,
        ih fun x hx => h x (List.mem_cons_of_mem _ hx)]

theorem numeral_add (n k m : ℕ) :
    numeral b (n + k) m = numeral b n m ++ numeral b k (m / b ^ n) := by
  induction n generalizing m with
  | zero => simp [numeral]
  | succ n ih =>
      rw [Nat.succ_add, numeral, numeral, List.cons_append, ih, Nat.div_div_eq_div_mul, pow_succ']

theorem numeral_zero (n : ℕ) : numeral b n 0 = List.replicate n 0 := by
  induction n with
  | zero => rfl
  | succ n ih => rw [numeral, Nat.zero_mod, Nat.zero_div, ih, List.replicate_succ]

/-- **A numeral is the digit list padded with zeros.** -/
theorem numeral_eq_digits (hb : 1 < b) {n m : ℕ} (h : m < b ^ n) :
    numeral b n m = Nat.digits b m ++ List.replicate (n - (Nat.digits b m).length) 0 := by
  induction n generalizing m with
  | zero =>
      have : m = 0 := by simpa using h
      simp [this, numeral]
  | succ n ih =>
      rcases Nat.eq_zero_or_pos m with rfl | hm
      · simp [numeral_zero]
      · have hlt : m / b < b ^ n := Nat.div_lt_of_lt_mul (by rwa [← pow_succ'])
        rw [numeral, ih hlt, Nat.digits_def' hb hm, List.cons_append, List.length_cons,
          Nat.succ_sub_succ]

theorem numeral_mod {n k m : ℕ} (h : k ≤ n) : numeral b k (m % b ^ n) = numeral b k m := by
  induction k generalizing n m with
  | zero => rfl
  | succ k ih =>
      obtain ⟨n, rfl⟩ : ∃ n', n = n' + 1 := ⟨n - 1, by omega⟩
      rw [numeral, numeral, pow_succ', Nat.mod_mul_right_mod, Nat.mod_mul_right_div_self,
        ih (by omega)]

theorem getElem?_numeral {n k : ℕ} (h : k < n) (m : ℕ) :
    (numeral b n m)[k]? = some (m / b ^ k % b) := by
  induction n generalizing k m with
  | zero => omega
  | succ n ih =>
      cases k with
      | zero => simp [numeral]
      | succ k =>
          rw [numeral, List.getElem?_cons_succ, ih (by omega), Nat.div_div_eq_div_mul, pow_succ']

/-- **Horner's rule**, digits read from the left. -/
theorem foldl_horner (ds : List ℕ) (a : ℕ) :
    ds.foldl (fun w d => w * b + d) a = a * b ^ ds.length + Nat.ofDigits b ds.reverse := by
  induction ds generalizing a with
  | nil => simp
  | cons d ds ih =>
      rw [List.foldl_cons, ih, List.reverse_cons, Nat.ofDigits_append, Nat.ofDigits_singleton,
        List.length_reverse, List.length_cons, pow_succ]
      ring

/-! ## Digits of one base read in another -/

/-- The `n` lowest base-`b` digits of `m`, read as base-`c` digits. -/
def recode (b c n m : ℕ) : ℕ := Nat.ofDigits c (numeral b n m)

variable {c : ℕ}

theorem recode_lt (hb : 0 < b) (hbc : b ≤ c) (hc : 1 < c) (n m : ℕ) : recode b c n m < c ^ n := by
  have h := Nat.ofDigits_lt_base_pow_length hc
    (l := numeral b n m) fun d hd => (lt_of_mem_numeral hb hd).trans_le hbc
  rwa [length_numeral] at h

/-- **Recoding up and back down.** -/
theorem numeral_recode (hb : 0 < b) (hbc : b ≤ c) (n m : ℕ) :
    numeral c n (recode b c n m) = numeral b n m := by
  have h := numeral_ofDigits (b := c) (numeral b n m) fun d hd =>
    (lt_of_mem_numeral hb hd).trans_le hbc
  rwa [length_numeral] at h

theorem recode_recode (hb : 0 < b) (hbc : b ≤ c) {n m : ℕ} (h : m < b ^ n) :
    recode c b n (recode b c n m) = m := by
  rw [recode, numeral_recode hb hbc, ofDigits_numeral_of_lt h]

theorem recode_zero (n : ℕ) : recode b c n 0 = 0 := by
  rw [recode, numeral_zero, Nat.ofDigits_replicate_zero]

theorem recode_succ (n m : ℕ) : recode b c (n + 1) m = m % b + c * recode b c n (m / b) := by
  rw [recode, numeral, Nat.ofDigits_cons, recode]

theorem recode_add (n k m : ℕ) :
    recode b c (n + k) m = recode b c n m + c ^ n * recode b c k (m / b ^ n) := by
  rw [recode, numeral_add, Nat.ofDigits_append, length_numeral, recode, recode]

theorem recode_eq_of_lt {n k m : ℕ} (h : m < b ^ n) : recode b c (n + k) m = recode b c n m := by
  rw [recode_add, Nat.div_eq_of_lt h, recode_zero, mul_zero, add_zero]

theorem recode_ofDigits (hb : 1 < b) {ds : List ℕ} (h : ∀ d ∈ ds, d < b) {n : ℕ} (hn : ds.length ≤ n) :
    recode b c n (Nat.ofDigits b ds) = Nat.ofDigits c ds := by
  obtain ⟨k, rfl⟩ := Nat.exists_eq_add_of_le hn
  rw [recode_eq_of_lt (Nat.ofDigits_lt_base_pow_length hb h), recode, numeral_ofDigits ds h]

/-- Recoding, then dropping digits. -/
theorem recode_div (hb : 0 < b) (hbc : b ≤ c) (hc : 1 < c) {k m : ℕ} (h : m < b ^ k) (n : ℕ) :
    recode b c k m / c ^ n = recode b c k (m / b ^ n) := by
  rw [← recode_eq_of_lt (c := c) (k := n) h, Nat.add_comm k n, recode_add,
    Nat.add_mul_div_left _ _ (pow_pos (by omega) n),
    Nat.div_eq_of_lt (recode_lt hb hbc hc n m), zero_add]

/-- **The digits are the same**, place by place. -/
theorem recode_digit (hb : 0 < b) (hbc : b ≤ c) (hc : 1 < c) {k m : ℕ} (h : m < b ^ k) (i : ℕ) :
    recode b c k m / c ^ i % c = m / b ^ i % b := by
  rw [recode_div hb hbc hc h]
  cases k with
  | zero =>
      have h0 : m = 0 := by simpa using h
      rw [h0, Nat.zero_div, recode_zero, Nat.zero_mod, Nat.zero_mod]
  | succ k =>
      rw [recode_succ, Nat.add_mul_mod_self_left, Nat.mod_eq_of_lt ((Nat.mod_lt _ hb).trans_le hbc)]

theorem recode_mul_pow (hb : 0 < b) (k n m : ℕ) : recode b c (k + n) (m * b ^ k) = recode b c n m * c ^ k := by
  have hlow : recode b c k (m * b ^ k) = 0 := by
    rw [recode, ← numeral_mod le_rfl, Nat.mul_mod_left]
    exact recode_zero k
  rw [recode_add, hlow, Nat.mul_div_cancel _ (pow_pos hb k), Nat.zero_add, mul_comm]

theorem recode_width {n k m : ℕ} (hn : m < b ^ n) (hk : m < b ^ k) : recode b c n m = recode b c k m := by
  rcases le_total n k with h | h
  · obtain ⟨j, rfl⟩ := Nat.exists_eq_add_of_le h
    exact (recode_eq_of_lt hn).symm
  · obtain ⟨j, rfl⟩ := Nat.exists_eq_add_of_le h
    exact recode_eq_of_lt hk

theorem recode_mod_pow (hb : 0 < b) (hbc : b ≤ c) (hc : 1 < c) (n k m : ℕ) :
    recode b c (n + k) m % c ^ n = recode b c n (m % b ^ n) := by
  rw [recode_add, Nat.add_mul_mod_self_left, Nat.mod_eq_of_lt (recode_lt hb hbc hc n m), recode, recode,
    numeral_mod le_rfl]

theorem recode_lt_iff (hb : 0 < b) (hbc : b ≤ c) (hc : 1 < c) {k m : ℕ} (h : m < b ^ k) (n : ℕ) :
    recode b c k m < c ^ n ↔ m < b ^ n := by
  have hdiv : m / b ^ n < b ^ k := (Nat.div_le_self _ _).trans_lt h
  have hzero : recode b c k (m / b ^ n) = 0 ↔ m / b ^ n = 0 := by
    constructor
    · intro h0
      have hback := recode_recode hb hbc hdiv
      rw [h0, recode_zero] at hback
      exact hback.symm
    · intro h0
      rw [h0, recode_zero]
  rw [← Nat.div_eq_zero_iff_lt (Nat.pow_pos (by omega)), recode_div hb hbc hc h, hzero,
    Nat.div_eq_zero_iff_lt (Nat.pow_pos hb)]

theorem numeral_recode_of_lt (hb : 0 < b) (hbc : b ≤ c) {k m : ℕ} (h : m < b ^ k) (n : ℕ) :
    numeral c n (recode b c k m) = numeral b n m := by
  rcases Nat.le_total n k with hnk | hkn
  · obtain ⟨j, rfl⟩ := Nat.exists_eq_add_of_le hnk
    have hr := numeral_recode hb hbc (n + j) m
    rw [numeral_add, numeral_add] at hr
    exact (List.append_inj hr (by simp)).1
  · obtain ⟨j, rfl⟩ := Nat.exists_eq_add_of_le hkn
    rw [← recode_eq_of_lt (k := j) h, numeral_recode hb hbc]

/-- **A recoded number has the same digits.** -/
theorem digits_recode (hb : 1 < b) (hbc : b ≤ c) {k m : ℕ} (h : m < b ^ k) :
    Nat.digits c (recode b c k m) = Nat.digits b m := by
  rw [recode, numeral_eq_digits hb h, Nat.ofDigits_append_replicate_zero]
  apply Nat.digits_ofDigits c (by omega)
  · exact fun d hd => (Nat.digits_lt_base hb hd).trans_le hbc
  · intro hne
    exact Nat.getLast_digit_ne_zero b (Nat.digits_ne_nil_iff_ne_zero.mp hne)

end Radix
