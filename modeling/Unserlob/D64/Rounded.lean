import Unserlob.D64.Digits

/-!
# What rounding leaves

* `carry_ok`: the digits a carry loop has gone over;
* `StopsAt`, `roundedAt`: where the carry of a number stops, and the number left; **`roundBcd64At_val`**;
* `StopsAt.rounded_lt_iff`: a sixteenth digit is left just when fifteen nines were rounded up;
* `Left`, **`strtobcd64At_val`**: what the parser returns, as a number; `Nines`, `strtobcd64At_digits`.
-/

namespace Unserlob

open Ascii Cursor

/-- **What a carry loop has gone over.** -/
theorem carry_ok {roff : BitVec 64} : ∀ {fuel : ℕ} {mant : BitVec 64} {sh : ℕ} {m x : BitVec 64} {sh' : ℕ},
    carry roff fuel mant sh = .ok (m, x, sh') →
    ∃ k, m.toNat = mant.toNat / 16 ^ k ∧ sh' = sh + 4 * k ∧ x = BitVec.ofNat 64 (m.toNat % 16) + roff ∧
      ¬ Carries roff (mant.toNat / 16 ^ k % 16) ∧ ∀ i < k, Carries roff (mant.toNat / 16 ^ i % 16) := by
  intro fuel
  induction fuel with
  | zero => exact fun h => nomatch h
  | succ fuel ih =>
      intro mant sh m x sh' h
      have hnib : mant &&& 0xf = BitVec.ofNat 64 (mant.toNat % 16) := by
        rw [← BitVec.toNat_inj, Word.toNat_nibble, BitVec.toNat_ofNat]
        exact (Nat.mod_eq_of_lt (by omega)).symm
      rw [carry, hnib] at h
      by_cases hx : Carries roff (mant.toNat % 16)
      · rw [if_pos (show _ > _ from hx)] at h
        obtain ⟨k, hm, hsh, hval, hstop, hover⟩ := ih h
        have hshr : ∀ i, (mant >>> 4).toNat / 16 ^ i = mant.toNat / 16 ^ (i + 1) := fun i => by
          rw [Word.toNat_shr, Nat.div_div_eq_div_mul, pow_succ']
        rw [hshr] at hm hstop
        refine ⟨k + 1, hm, by omega, hval, hstop, ?_⟩
        intro i hi
        cases i with
        | zero => rwa [pow_zero, Nat.div_one]
        | succ i =>
            rw [← hshr]
            exact hover i (by omega)
      · rw [if_neg (show ¬ _ > _ from hx)] at h
        have h := Except.ok.inj h
        rw [Prod.mk.injEq, Prod.mk.injEq] at h
        obtain ⟨rfl, rfl, rfl⟩ := h
        refine ⟨0, by rw [pow_zero, Nat.div_one], rfl, rfl, ?_, fun i hi => absurd hi (Nat.not_lt_zero i)⟩
        rwa [pow_zero, Nat.div_one]

theorem carries_up {n : ℕ} (h : n ≤ 9) : Carries (BitVec.ofInt 64 1) n ↔ n = 9 := by
  interval_cases n <;> decide

theorem carries_down {n : ℕ} (h : n ≤ 9) : Carries (BitVec.ofInt 64 (-1)) n ↔ n = 0 := by
  interval_cases n <;> decide

theorem rounded_digit {n : ℕ} (h : n ≤ 9) (neg : Bool)
    (hstop : ¬ Carries (BitVec.ofInt 64 (if neg then -1 else 1)) n) :
    (BitVec.ofNat 64 n + BitVec.ofInt 64 (if neg then -1 else 1)).toNat = if neg then n - 1 else n + 1 := by
  revert hstop
  cases neg <;> interval_cases n <;> decide

theorem toNat_rounded {m x : BitVec 64} (hx : x.toNat < 16) (k : ℕ) :
    (((m &&& 0xfffffff0) ^^^ x) <<< (4 * k)).toNat = (m.toNat / 16 % 16 ^ 7 * 16 + x.toNat) * 16 ^ k % 16 ^ 16 := by
  have hmask : (m &&& 0xfffffff0).toNat = m.toNat / 2 ^ 4 % 2 ^ 28 * 2 ^ 4 := by
    rw [BitVec.toNat_and]
    exact Word.and_mask m.toNat 4 28
  rw [BitVec.toNat_shiftLeft, Nat.shiftLeft_eq, BitVec.toNat_xor, hmask, Word.xor_of_lt (k := 4) _ hx, pow_mul]
  rfl

theorem recode_rounded {a y : ℕ} (ha : a < 10 ^ 16) (hy : y < 10) :
    Radix.recode 10 16 16 a / 16 % 16 ^ 7 * 16 + y = Radix.recode 10 16 8 (a / 10 % 10 ^ 7 * 10 + y) := by
  have hdiv := Radix.recode_div (b := 10) (c := 16) (by decide) (by decide) (by decide) ha 1
  have hmod := Radix.recode_mod_pow (b := 10) (c := 16) (by decide) (by decide) (by decide) 7 9 (a / 10)
  rw [pow_one, pow_one] at hdiv
  rw [hdiv, Radix.recode_succ 7, hmod, show (a / 10 % 10 ^ 7 * 10 + y) % 10 = y by omega,
    show (a / 10 % 10 ^ 7 * 10 + y) / 10 = a / 10 % 10 ^ 7 by omega]
  ring

/-- The number that a carry over `k` digits leaves: eight digits of it are there. -/
def roundedAt (neg : Bool) (k n : ℕ) : ℕ :=
  (if neg then n / 10 ^ k % 10 ^ 8 - 1 else n / 10 ^ k % 10 ^ 8 + 1) * 10 ^ k

/-- The digit that a carry goes over. -/
def overDigit (neg : Bool) : ℕ := if neg then 0 else 9

theorem carries_iff {n : ℕ} (h : n ≤ 9) (neg : Bool) :
    Carries (BitVec.ofInt 64 (if neg then -1 else 1)) n ↔ n = overDigit neg := by
  cases neg with
  | false => exact carries_up h
  | true => exact carries_down h

/-- Where the carry of a number stops. -/
structure StopsAt (neg : Bool) (k n : ℕ) : Prop where
  passed : ∀ i < k, n / 10 ^ i % 10 = overDigit neg
  stop : n / 10 ^ k % 10 ≠ overDigit neg

theorem roundedAt_le (neg : Bool) (k n : ℕ) : roundedAt neg k n ≤ if neg then n else n + 10 ^ k := by
  have hmod : n / 10 ^ k % 10 ^ 8 ≤ n / 10 ^ k := Nat.mod_le _ _
  have hdiv := Nat.div_mul_le_self n (10 ^ k)
  cases neg with
  | true => exact (Nat.mul_le_mul_right _ ((Nat.sub_le _ _).trans hmod)).trans hdiv
  | false =>
      calc roundedAt false k n ≤ (n / 10 ^ k + 1) * 10 ^ k := Nat.mul_le_mul_right _ (Nat.add_le_add_right hmod 1)
        _ = n / 10 ^ k * 10 ^ k + 10 ^ k := by ring
        _ ≤ n + 10 ^ k := Nat.add_le_add_right hdiv _

section Stop
variable {neg : Bool} {k n : ℕ} (h : StopsAt neg k n) (hn : n < 10 ^ 15)
include h hn

theorem StopsAt.le : k ≤ 15 ∧ (k = 15 → neg = false) := by
  cases neg with
  | false =>
      refine ⟨?_, fun _ => rfl⟩
      by_contra hk
      have h9 := h.passed 15 (by omega)
      rw [Nat.div_eq_of_lt hn] at h9
      exact absurd h9 (by decide)
  | true =>
      have hk : k < 15 := by
        by_contra hk
        refine h.stop ?_
        rw [Nat.div_eq_of_lt (hn.trans_le (Nat.pow_le_pow_right (by decide) (by omega)))]
        rfl
      exact ⟨hk.le, fun h15 => by omega⟩

theorem StopsAt.rounded_lt : roundedAt neg k n < 2 * 10 ^ 15 := by
  have hpow : 10 ^ k ≤ 10 ^ 15 := Nat.pow_le_pow_right (by decide) (h.le hn).1
  have hle := roundedAt_le neg k n
  split_ifs at hle <;> omega

/-- **A sixteenth digit** is left behind fifteen nines only. -/
theorem StopsAt.rounded_lt_iff : roundedAt neg k n < 10 ^ 15 ↔ ¬ (neg = false ∧ k = 15) := by
  have hle := roundedAt_le neg k n
  cases neg with
  | true => exact iff_of_true (hle.trans_lt hn) fun h => by cases h.1
  | false =>
      have hk := (h.le hn).1
      constructor
      · rintro hlt ⟨-, rfl⟩
        rw [roundedAt, Nat.div_eq_of_lt hn] at hlt
        exact absurd hlt (by decide)
      · intro h15
        have hk14 : k ≤ 14 := Nat.le_of_lt_succ (lt_of_le_of_ne hk fun h => h15 ⟨rfl, h⟩)
        have hpow : 10 ^ 15 = 10 ^ k * (10 * 10 ^ (14 - k)) := by
          rw [← pow_succ', ← pow_add]
          congr 1
          omega
        have ha : n / 10 ^ k < 10 * 10 ^ (14 - k) := Nat.div_lt_of_lt_mul (by rwa [← hpow])
        have h9 : n / 10 ^ k % 10 ≠ 9 := h.stop
        have hmod : n / 10 ^ k % 10 ^ 8 ≤ n / 10 ^ k := Nat.mod_le _ _
        rw [hpow, mul_comm (10 ^ k)]
        exact Nat.mul_lt_mul_of_pos_right (show n / 10 ^ k % 10 ^ 8 + 1 < _ by omega) (by positivity)

end Stop

/-- Where the loop has stopped: the word is shifted there and its last digit has taken the rounding. -/
theorem carry_stops {mant : BitVec 64} {n : ℕ} (hm : mant.toNat = Radix.recode 10 16 16 n) (hn : n < 10 ^ 16)
    {neg : Bool} {fuel : ℕ} {m x : BitVec 64} {sh : ℕ}
    (hc : carry (BitVec.ofInt 64 (if neg then -1 else 1)) fuel mant 0 = .ok (m, x, sh)) :
    ∃ k, StopsAt neg k n ∧ sh = 4 * k ∧ m.toNat = Radix.recode 10 16 16 (n / 10 ^ k) ∧
      x.toNat = if neg then n / 10 ^ k % 10 - 1 else n / 10 ^ k % 10 + 1 := by
  have hdigit : ∀ i, mant.toNat / 16 ^ i % 16 = n / 10 ^ i % 10 := fun i => by
    rw [hm, Radix.recode_digit (by decide) (by decide) (by decide) hn]
  have hle : ∀ i, n / 10 ^ i % 10 ≤ 9 := fun i => by omega
  obtain ⟨k, hmk, hsh, hx, hstop, hover⟩ := carry_ok hc
  rw [hdigit, carries_iff (hle k)] at hstop
  refine ⟨k, ⟨fun i hi => (carries_iff (hle i) neg).mp (by rw [← hdigit]; exact hover i hi), hstop⟩, by omega, ?_, ?_⟩
  · rw [hmk, hm, Radix.recode_div (by decide) (by decide) (by decide) hn]
  · have hlow : m.toNat % 16 = n / 10 ^ k % 10 := by rw [hmk, hdigit]
    rw [hx, hlow]
    exact rounded_digit (hle k) neg (mt (carries_iff (hle k) neg).mp hstop)

theorem StopsAt.digit {neg : Bool} {k n x : ℕ} (h : StopsAt neg k n)
    (hx : x = if neg then n / 10 ^ k % 10 - 1 else n / 10 ^ k % 10 + 1) : x < 10 ∧
      n / 10 ^ k / 10 % 10 ^ 7 * 10 + x = if neg then n / 10 ^ k % 10 ^ 8 - 1 else n / 10 ^ k % 10 ^ 8 + 1 := by
  subst hx
  have hstop := h.stop
  cases neg with
  | true =>
      have h0 : n / 10 ^ k % 10 ≠ 0 := hstop
      constructor
      · change n / 10 ^ k % 10 - 1 < 10
        omega
      · change _ + (n / 10 ^ k % 10 - 1) = n / 10 ^ k % 10 ^ 8 - 1
        omega
  | false =>
      have h9 : n / 10 ^ k % 10 ≠ 9 := hstop
      constructor
      · change n / 10 ^ k % 10 + 1 < 10
        omega
      · change _ + (n / 10 ^ k % 10 + 1) = n / 10 ^ k % 10 ^ 8 + 1
        omega

/-- **What rounding leaves**, as a number. -/
theorem roundBcd64At_val {mant : BitVec 64} {n : ℕ} (hm : mant.toNat = Radix.recode 10 16 16 n) (hn : n < 10 ^ 15)
    {neg : Bool} {fuel : ℕ} {r : BitVec 64} (hr : roundBcd64At fuel mant (if neg then -1 else 1) = .ok r) :
    ∃ k, StopsAt neg k n ∧ r.toNat = Radix.recode 10 16 16 (roundedAt neg k n) := by
  have hn16 : n < 10 ^ 16 := hn.trans (by decide)
  cases hc : carry (BitVec.ofInt 64 (if neg then -1 else 1)) fuel mant 0 with
  | error e =>
      rw [roundBcd64At, hc] at hr
      cases hr
  | ok t =>
      obtain ⟨m, x, sh⟩ := t
      obtain ⟨k, hstops, rfl, hmk, hx⟩ := carry_stops hm hn16 hc
      obtain ⟨hx10, hsum⟩ := hstops.digit hx
      have hdiv : n / 10 ^ k < 10 ^ 16 := (Nat.div_le_self _ _).trans_lt hn16
      have hlt8 : n / 10 ^ k / 10 % 10 ^ 7 * 10 + x.toNat < 10 ^ 8 := by omega
      have hlt16 : (n / 10 ^ k / 10 % 10 ^ 7 * 10 + x.toNat) * 10 ^ k < 10 ^ 16 := by
        rw [hsum]
        exact (hstops.rounded_lt hn).trans (by decide)
      have hltk : (n / 10 ^ k / 10 % 10 ^ 7 * 10 + x.toNat) * 10 ^ k < 10 ^ (k + 8) := by
        rw [pow_add, mul_comm]
        exact Nat.mul_lt_mul_of_pos_left hlt8 (by positivity)
      refine ⟨k, hstops, ?_⟩
      rw [roundBcd64At, hc] at hr
      rw [← Except.ok.inj hr]
      calc _ = (m.toNat / 16 % 16 ^ 7 * 16 + x.toNat) * 16 ^ k % 16 ^ 16 := toNat_rounded (by omega) k
        _ = Radix.recode 10 16 (k + 8) ((n / 10 ^ k / 10 % 10 ^ 7 * 10 + x.toNat) * 10 ^ k) % 16 ^ 16 := by
          rw [hmk, recode_rounded hdiv hx10, ← Radix.recode_mul_pow (by decide)]
        _ = Radix.recode 10 16 16 ((n / 10 ^ k / 10 % 10 ^ 7 * 10 + x.toNat) * 10 ^ k) := by
          rw [Radix.recode_width hltk hlt16]
          exact Nat.mod_eq_of_lt (Radix.recode_lt (by decide) (by decide) (by decide) _ _)
        _ = _ := by rw [hsum, roundedAt]

/-! ## What the parser returns -/

theorem keptWord_nines (p : Ptr) :
    (∀ i < 15, (keptWord p).toNat / 16 ^ i % 16 = 9) ↔ kept p = List.replicate 15 (ch '9') := by
  obtain ⟨hmap, hlt⟩ := digitVals_spec fun c hc => isdigit_of_mem_kept (p := p) hc
  have hlen := length_kept_le p
  constructor
  · intro hnine
    have hword : (keptWord p).toNat = Nat.ofDigits 16 (digitVals (kept p)).reverse := by
      rw [keptWord, toNat_packAll hlt (j := 0) (by decide) (by rw [length_digitVals]; omega)]
      exact (congrArg (· + _) (Nat.zero_mul _)).trans (Nat.zero_add _)
    have h15 : (kept p).length = 15 := by
      by_contra hne
      have hpow : 16 ^ (kept p).length ≤ 16 ^ 14 := Nat.pow_le_pow_right (by decide) (by omega)
      have h14 := hnine 14 (by decide)
      rw [Nat.div_eq_of_lt ((packed_keptWord p).1.lt.trans_le hpow)] at h14
      exact absurd h14 (by decide)
    have hnum := Radix.numeral_ofDigits (b := 16) (digitVals (kept p)).reverse fun d hd =>
      (hlt d (List.mem_reverse.mp hd)).trans (by decide)
    rw [List.length_reverse, length_digitVals, h15, ← hword] at hnum
    have hrep : Radix.numeral 16 15 (keptWord p).toNat = List.replicate 15 9 := by
      apply List.ext_getElem?
      intro k
      by_cases hk : k < 15
      · rw [Radix.getElem?_numeral hk, hnine k hk, List.getElem?_replicate, if_pos hk]
      · rw [List.getElem?_eq_none (by simp; omega), List.getElem?_eq_none (by simp; omega)]
    rw [hrep] at hnum
    rw [← hmap, ← List.reverse_reverse (digitVals (kept p)), ← hnum]
    rfl
  · intro h
    rw [keptWord, h]
    decide +kernel

/-- A number that is not negative and whose fifteen digits are nines and round up. -/
def Nines (p : Ptr) : Prop :=
  isNeg p = false ∧ roundsUp (signEnd p) = true ∧ kept (signEnd p) = List.replicate 15 (ch '9')

instance : DecidablePred Nines := fun _ => inferInstanceAs (Decidable (_ ∧ _))

/-- The number that is left of the digits kept. -/
def Left (p : Ptr) (c : ℕ) : Prop :=
  (roundsUp (signEnd p) = false ∧ c = numVal (kept (signEnd p))) ∨
    (roundsUp (signEnd p) = true ∧ ∃ k, StopsAt (isNeg p) k (numVal (kept (signEnd p))) ∧
      c = roundedAt (isNeg p) k (numVal (kept (signEnd p))))

/-- **What the parser returns**, as a number. -/
theorem strtobcd64At_val {fuel : ℕ} {p : Ptr} (h : numEnd p ≠ []) {r : Bcd64 × Ptr}
    (hr : strtobcd64At fuel p = .ok r) : r.1.expo = expoOf (signEnd p) ∧ r.1.sign = (if isNeg p then 1 else 0) ∧
      r.2 = numEnd p ∧ ∃ c, Left p c ∧ r.1.mant.toNat = Radix.recode 10 16 16 c := by
  have hword := toNat_keptWord (signEnd p)
  rw [strtobcd64At_eq fuel h] at hr
  by_cases hup : roundsUp (signEnd p) = true
  · rw [if_pos hup] at hr
    cases hround : roundBcd64At fuel (keptWord (signEnd p)) (if isNeg p then -1 else 1) with
    | error e =>
        rw [hround] at hr
        cases hr
    | ok mant =>
        rw [hround] at hr
        rw [← Except.ok.inj hr]
        obtain ⟨k, hstop, hmant⟩ := roundBcd64At_val hword (numVal_kept_lt _) hround
        exact ⟨rfl, rfl, rfl, _, .inr ⟨hup, k, hstop, rfl⟩, hmant⟩
  · rw [if_neg hup] at hr
    rw [← Except.ok.inj hr]
    exact ⟨rfl, rfl, rfl, _, .inl ⟨Bool.not_eq_true _ ▸ hup, rfl⟩, hword⟩

theorem Left.lt {p : Ptr} {c : ℕ} (h : Left p c) : c < 2 * 10 ^ 15 ∧ (c < 10 ^ 15 ↔ ¬ Nines p) := by
  have hn := numVal_kept_lt (signEnd p)
  rcases h with ⟨hup, rfl⟩ | ⟨hup, k, hstop, rfl⟩
  · exact ⟨by omega, iff_of_true hn fun hn => by rw [hn.2.1] at hup; cases hup⟩
  · refine ⟨hstop.rounded_lt hn, (hstop.rounded_lt_iff hn).trans (not_congr ?_)⟩
    have hdigit : ∀ i, (keptWord (signEnd p)).toNat / 16 ^ i % 16 = numVal (kept (signEnd p)) / 10 ^ i % 10 := fun i => by
      rw [toNat_keptWord, Radix.recode_digit (by decide) (by decide) (by decide) (hn.trans (by decide))]
    rw [Nines, hup, and_iff_right rfl, ← keptWord_nines]
    simp only [hdigit]
    refine and_congr_right fun hneg => ⟨?_, fun hnine => ?_⟩
    · rintro rfl i hi
      rw [hstop.passed i hi, hneg]
      rfl
    · by_contra h15
      have hle := (hstop.le hn).1
      refine hstop.stop ?_
      rw [hnine k (by omega), hneg]
      rfl

/-- **The digits returned.** -/
theorem strtobcd64At_digits {fuel : ℕ} {p : Ptr} (h : numEnd p ≠ []) {r : Bcd64 × Ptr}
    (hr : strtobcd64At fuel p = .ok r) :
    r.1.expo = expoOf (signEnd p) ∧ r.1.sign = (if isNeg p then 1 else 0) ∧
      ∃ c < 2 * 10 ^ 15, r.1.mant.toNat = Radix.recode 10 16 16 c ∧ (c < 10 ^ 15 ↔ ¬ Nines p) := by
  obtain ⟨hexpo, hsign, -, c, hleft, hmant⟩ := strtobcd64At_val h hr
  exact ⟨hexpo, hsign, c, hleft.lt.1, hmant, hleft.lt.2⟩

end Unserlob
