import Unserlob.Lib.Radix

/-!
# Decimal numerals as bytes

* `ch`, `digitByte`, `isdigit`, `isspace`: single bytes;
* `decimal n`: the numeral of `n` without leading zeros, as `printf` writes it;
* `fixedDigits n m`: the `n` lowest decimal digits of `m`, leading zeros included;
* `decimal_eq_map`: both are the images of digit lists, whose values `ofDigits_digits` and
  `Radix.ofDigits_numeral` give.
-/

namespace Ascii

/-- The byte of an ASCII character. -/
abbrev ch (c : Char) : UInt8 := c.toUInt8

/-- The bytes of a text. -/
abbrev bytes (cs : List Char) : List UInt8 := cs.map ch

/-- The byte of a decimal digit. -/
def digitByte (d : ℕ) : UInt8 := UInt8.ofNat (48 + d)

def isdigit (c : UInt8) : Bool := ch '0' ≤ c && c ≤ ch '9'

/-- White space of the C locale. -/
def isspace (c : UInt8) : Bool := c == ch ' ' || (9 ≤ c && c ≤ 13)

theorem toNat_digitByte {d : ℕ} (h : d < 10) : (digitByte d).toNat = 48 + d := by
  rw [digitByte, UInt8.toNat_ofNat', Nat.mod_eq_of_lt (by omega)]

theorem isdigit_iff (c : UInt8) : isdigit c = true ↔ 48 ≤ c.toNat ∧ c.toNat ≤ 57 := by
  rw [isdigit, Bool.and_eq_true, decide_eq_true_iff, decide_eq_true_iff, UInt8.le_iff_toNat_le,
    UInt8.le_iff_toNat_le]
  exact Iff.rfl

theorem isdigit_digitByte {d : ℕ} (h : d < 10) : isdigit (digitByte d) = true := by
  rw [isdigit_iff, toNat_digitByte h]; omega

theorem eq_digitByte {c : UInt8} (h : isdigit c = true) :
    c.toNat - 48 < 10 ∧ c = digitByte (c.toNat - 48) := by
  rw [isdigit_iff] at h
  have hlt : c.toNat - 48 < 10 := by omega
  refine ⟨hlt, ?_⟩
  rw [← UInt8.toNat_inj, toNat_digitByte hlt]
  omega

theorem digitByte_eq_zero {d : ℕ} (h : d < 10) : digitByte d = ch '0' ↔ d = 0 := by
  rw [← UInt8.toNat_inj, toNat_digitByte h, show (ch '0').toNat = 48 from rfl]
  omega

/-- The decimal numeral of `n`. -/
def decimal (n : ℕ) : List UInt8 :=
  if n = 0 then [ch '0'] else (Nat.digits 10 n).reverse.map digitByte

/-- The `n` lowest decimal digits of `m`. -/
def fixedDigits (n m : ℕ) : List UInt8 := (Radix.numeral 10 n m).reverse.map digitByte

@[simp] theorem length_fixedDigits (n m : ℕ) : (fixedDigits n m).length = n := by
  simp [fixedDigits]

theorem decimal_zero : decimal 0 = [ch '0'] := rfl

theorem decimal_eq_map {n : ℕ} (h : n ≠ 0) :
    decimal n = (Nat.digits 10 n).reverse.map digitByte := if_neg h

theorem decimal_ne_nil (n : ℕ) : decimal n ≠ [] := by
  by_cases h : n = 0
  · simp [h, decimal_zero]
  · rw [decimal_eq_map h]; simpa [Nat.digits_eq_nil_iff_eq_zero] using h

theorem isdigit_of_mem_map {ds : List ℕ} (h : ∀ d ∈ ds, d < 10) {c : UInt8}
    (hc : c ∈ ds.map digitByte) : isdigit c = true := by
  obtain ⟨d, hd, rfl⟩ := List.mem_map.mp hc
  exact isdigit_digitByte (h d hd)

theorem lt_of_mem_digits {n d : ℕ} (h : d ∈ (Nat.digits 10 n).reverse) : d < 10 :=
  Nat.digits_lt_base (by decide) (List.mem_reverse.mp h)

theorem lt_of_mem_numeral {n m d : ℕ} (h : d ∈ (Radix.numeral 10 n m).reverse) : d < 10 :=
  Radix.lt_of_mem_numeral (by decide) (List.mem_reverse.mp h)

theorem isdigit_of_mem_decimal {n : ℕ} {c : UInt8} (h : c ∈ decimal n) : isdigit c = true := by
  by_cases hn : n = 0
  · rw [hn, decimal_zero, List.mem_singleton] at h
    subst h; rfl
  · rw [decimal_eq_map hn] at h
    exact isdigit_of_mem_map (fun d hd => lt_of_mem_digits hd) h

theorem isdigit_of_mem_fixedDigits {n m : ℕ} {c : UInt8} (h : c ∈ fixedDigits n m) :
    isdigit c = true :=
  isdigit_of_mem_map (fun _ hd => lt_of_mem_numeral hd) h

theorem digits_reverse_cons {n : ℕ} (h : n ≠ 0) :
    ∃ d ds, (Nat.digits 10 n).reverse = d :: ds ∧ d ≠ 0 ∧ d < 10 := by
  have hne : Nat.digits 10 n ≠ [] := Nat.digits_ne_nil_iff_ne_zero.mpr h
  cases hr : (Nat.digits 10 n).reverse with
  | nil => exact absurd (List.reverse_eq_nil_iff.mp hr) hne
  | cons d ds =>
      have hlast : (Nat.digits 10 n).getLast hne = d := by
        have := congrArg List.head? hr
        rw [List.head?_reverse, List.getLast?_eq_some_getLast hne] at this
        simpa using this
      refine ⟨d, ds, rfl, ?_, ?_⟩
      · rw [← hlast]; exact Nat.getLast_digit_ne_zero 10 h
      · exact lt_of_mem_digits (n := n) (by rw [hr]; exact List.mem_cons_self)

theorem length_decimal_le {n k : ℕ} (hk : 0 < k) (h : n < 10 ^ k) : (decimal n).length ≤ k := by
  by_cases hn : n = 0
  · rw [hn, decimal_zero]; exact hk
  · rw [decimal_eq_map hn, List.length_map, List.length_reverse, Nat.digits_length_le_iff (by decide)]
    exact h

end Ascii
