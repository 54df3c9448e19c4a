import Unserlob.Lib.Rounding
import Unserlob.D64.Bid
import Unserlob.D64.Dpd

/-!
# Rounding to a quantum (`quantizebid64`, `quantizedpd64`)

Both builds drop digits up to the exponent of the other number, or bring zeros in down to it while there is
room; one does so on a number, the other on nibbles, where a carry may stay in the lowest one.

* `quantizebid64`, `quantizedpd64`: the source's functions;
* `quantum`: coefficient and exponent that a coefficient comes to;
* **`quantizebid64_bid`**, **`quantizedpd64_dpd`**: what the two make of the words of decimals; the second
  loses the first of sixteen digits.
-/

namespace Unserlob

open Cursor Decimal

/-- `m = m / 10U + ((m % 10U) >= 5U);` -/
def truncBid (m : BitVec 64) : BitVec 64 := m / 10 + if m % 10 ≥ 5 then 1 else 0

/-- `quantizebid64` -/
def quantizebid64 (x r : Decimal64) : Decimal64 :=
  -- get the exponents of x and r
  let er := quantexpbid64 r
  let ex := quantexpbid64 x
  let m := mantBid64 x
  -- truncate: for (; ex < er; ex++)
  let m := truncBid^[(er - ex).toNat] m
  let ex := max ex er
  -- expand (only if we don't exceed the range)
  let (m, ex) := expand (fun m : BitVec 64 => decide (m < 100000000000000)) (· * 10) (ex - er).toNat m ex
  assembleBid m (BitVec.ofInt 64 (ex + 398)) (BitVec.ofInt 64 (signBid64 x))

/-- `b = (b >> 4U) + ((b & 0xfU) >= 5U);` -/
def truncDpd (b : BitVec 64) : BitVec 64 := b >>> 4 + if b &&& 0xf ≥ 5 then 1 else 0

/-- `for (i = 0U; (b & 0xfU) >= 10U; b >>= 4U, b++, i++);` -/
def flipOver : ℕ → BitVec 64 → ℕ → Res (BitVec 64 × ℕ)
  | 0, _, _ => .error .loop
  | fuel + 1, b, i => if b &&& 0xf ≥ 10 then flipOver fuel (b >>> 4 + 1) (i + 1) else .ok (b, i)

/-- `quantizedpd64`. Sixteen nibbles are over after seventeen turns. -/
def quantizedpd64 (x r : BitVec 64) : Res (BitVec 64) := do
  -- get the exponents of x and r
  let er := quantexpdpd64 r
  let ex := quantexpdpd64 x
  -- get the mantissa TTT MH ML, with MH, ML being declets
  let m := mantDpd64 x
  let b := (m &&& 0x3c000000000000) >>> 8 ^^^ unpackAt m 40
  let b := [30, 20, 10, 0].foldl (pushDeclet m) b
  -- truncate (on bcd): for (; ex < er; ex++)
  let b := truncDpd^[(er - ex).toNat] b
  let ex := max ex er
  -- the lowest 4 bits could be 0xa, so flip them over to 0
  let (b, i) ← flipOver 17 b 0
  -- fix them up by shifting by 4i
  let b := b <<< (4 * i)
  -- expand (only if we don't exceed the range)
  let (b, ex) := expand (fun b : BitVec 64 => decide (b < 0x100000000000000)) (· <<< 4) (ex - er).toNat b ex
  pure (bcd64todpd ⟨b, ex, signDpd64 x⟩)

/-! ## On numbers -/

/-- Coefficient and exponent of `c · 10 ^ ex` with the quantum `10 ^ er`. -/
def quantum (c : ℕ) (ex er : ℤ) : ℕ × ℤ :=
  expandTo (10 ^ 14) (max ex er - er).toNat (dropDigits (er - ex).toNat c) (max ex er)

theorem quantum_val (c : ℕ) (ex er : ℤ) : ((quantum c ex er).1 : ℚ) * 10 ^ (quantum c ex er).2 =
    dropDigits (er - ex).toNat c * 10 ^ max ex er := (expand_spec _ _ _ _).1

theorem quantum_lt_of {b c : ℕ} (hb : 10 ^ 15 ≤ b) (hc : c < b) (ex er : ℤ) : (quantum c ex er).1 < b := by
  have h := (expand_spec (10 ^ 14) (max ex er - er).toNat (dropDigits (er - ex).toNat c) (max ex er)).2.1
  have hle := dropDigits_le (er - ex).toNat c
  rw [quantum]
  omega

theorem quantum_lt {c : ℕ} (hc : c < 10 ^ 16) (ex er : ℤ) : (quantum c ex er).1 < 10 ^ 16 :=
  quantum_lt_of (by decide) hc ex er

theorem quantum_ge (c : ℕ) (ex er : ℤ) : er ≤ (quantum c ex er).2 := by
  have h := (expand_spec (10 ^ 14) (max ex er - er).toNat (dropDigits (er - ex).toNat c) (max ex er)).2.2.1
  rw [quantum]
  omega

theorem quantum_full {c : ℕ} {ex er : ℤ} (h : er < (quantum c ex er).2) : 10 ^ 14 ≤ (quantum c ex er).1 :=
  expand_full (by rw [quantum] at h; omega)

theorem quantum_of_full {c : ℕ} {ex er : ℤ} (hle : er ≤ ex) (h : er < ex → 10 ^ 14 ≤ c) : quantum c ex er = (c, ex) := by
  have hdrop : (er - ex).toNat = 0 := by omega
  rw [quantum, hdrop, dropDigits_zero, max_eq_left hle]
  refine expand_done ?_
  by_cases hlt : er < ex
  · exact Or.inl (h hlt)
  · exact Or.inr (by omega)

theorem quantum_bounds (c : ℕ) (ex er : ℤ) : min ex er ≤ (quantum c ex er).2 ∧ (quantum c ex er).2 ≤ max ex er := by
  have h := (expand_spec (10 ^ 14) (max ex er - er).toNat (dropDigits (er - ex).toNat c) (max ex er)).2.2
  rw [quantum]
  omega

/-! ## The BID build -/

theorem toNat_truncBid (m : BitVec 64) : (truncBid m).toNat = dropDigit m.toNat := by
  have hm := m.isLt
  have hcase : m % 10 ≥ 5 ↔ 5 ≤ m.toNat % 10 := by
    rw [ge_iff_le, BitVec.le_def, BitVec.toNat_umod]
    rfl
  rw [truncBid, dropDigit, BitVec.toNat_add, BitVec.toNat_udiv]
  by_cases h : 5 ≤ m.toNat % 10
  · rw [if_pos (hcase.mpr h), if_pos h]
    change (m.toNat / 10 + 1) % 2 ^ 64 = _
    omega
  · rw [if_neg (mt hcase.mp h), if_neg h]
    change (m.toNat / 10 + 0) % 2 ^ 64 = _
    omega

theorem toNat_truncBid_iterate (n : ℕ) (m : BitVec 64) : (truncBid^[n] m).toNat = dropDigits n m.toNat :=
  Function.Semiconj.iterate_right (f := BitVec.toNat) (fun m => toNat_truncBid m) n m

/-- **The BID build** on any words: the coefficient and exponent it assembles. -/
theorem quantizebid64_eq (x y : Decimal64) : ∃ m : BitVec 64,
    m.toNat = (quantum (mantBid64 x).toNat (quantexpbid64 x) (quantexpbid64 y)).1 ∧
    quantizebid64 x y = assembleBid m
      (BitVec.ofInt 64 ((quantum (mantBid64 x).toNat (quantexpbid64 x) (quantexpbid64 y)).2 + 398))
      (BitVec.ofInt 64 (signBid64 x)) := by
  have hrel := expand_rel (R := fun (a : BitVec 64) (b : ℕ) => a.toNat = b)
    (fun m => decide (m < 100000000000000)) (· * 10) (fun m => decide (m < 10 ^ 14)) (· * 10)
    (fun a b h => by rw [← h]; rfl)
    (fun a b h hs => by
      have hb : b < 10 ^ 14 := of_decide_eq_true hs
      rw [BitVec.toNat_mul, h]
      exact Nat.mod_eq_of_lt (by change b * 10 < _; omega))
    (max (quantexpbid64 x) (quantexpbid64 y) - quantexpbid64 y).toNat
    (toNat_truncBid_iterate (quantexpbid64 y - quantexpbid64 x).toNat (mantBid64 x))
    (max (quantexpbid64 x) (quantexpbid64 y))
  refine ⟨_, hrel.1, ?_⟩
  rw [quantizebid64, show (quantum _ _ _).2 = _ from hrel.2.symm]

theorem quantizebid64_dec {d : Dec} {x y : Decimal64} (hx : x.toNat = bid d) (hd : -398 ≤ quantexpbid64 x)
    (hd' : quantexpbid64 x ≤ 369) (hy : -398 ≤ quantexpbid64 y) (hy' : quantexpbid64 y ≤ 369) :
    ∃ u : Dec, (quantizebid64 x y).toNat = bid u ∧ u.neg = d.neg ∧
      (u.coef, u.expo) = quantum d.coef (quantexpbid64 x) (quantexpbid64 y) := by
  have hlt := quantum_lt d.coef_lt (quantexpbid64 x) (quantexpbid64 y)
  have hbounds := quantum_bounds d.coef (quantexpbid64 x) (quantexpbid64 y)
  obtain ⟨m, hm, hz⟩ := quantizebid64_eq x y
  rw [mantBid64_bid hx] at hm hz
  let u : Dec := ⟨d.neg, (quantum d.coef (quantexpbid64 x) (quantexpbid64 y)).1,
    (quantum d.coef (quantexpbid64 x) (quantexpbid64 y)).2, hlt, (le_min hd hy).trans hbounds.1,
    hbounds.2.trans (max_le hd' hy')⟩
  refine ⟨u, ?_, rfl, rfl⟩
  rw [← assembleBid_dec u hm, hz, signBid64_bid hx]

/-- **The BID build** on the words of decimals. -/
theorem quantizebid64_bid {d r : Dec} {x y : Decimal64} (hx : x.toNat = bid d) (hy : y.toNat = bid r)
    (hd : 0 < d.biased) (hr : 0 < r.biased) : ∃ u : Dec, (quantizebid64 x y).toNat = bid u ∧ u.neg = d.neg ∧
      (u.coef, u.expo) = quantum d.coef d.expo r.expo := by
  have hex := quantexpbid64_bid hx hd
  have her := quantexpbid64_bid hy hr
  have h := quantizebid64_dec hx (hex.symm ▸ d.expo_ge) (hex.symm ▸ d.expo_le) (her.symm ▸ r.expo_ge)
    (her.symm ▸ r.expo_le)
  rwa [hex, her] at h

/-! ## The DPD build -/

/-- Digits in nibbles, the lowest of which may have come to ten. -/
def Coded (b : BitVec 64) (m : ℕ) : Prop :=
  ∃ h d, m = 10 * h + d ∧ d ≤ 10 ∧ h < 10 ^ 15 ∧ b.toNat = 16 * Radix.recode 10 16 15 h + d

theorem recode_lt_pow (m : ℕ) : Radix.recode 10 16 15 m < 16 ^ 15 :=
  Radix.recode_lt (by decide) (by decide) (by decide) _ _

theorem recode_lowest {m : ℕ} (hm : m < 10 ^ 15) :
    Radix.recode 10 16 15 m = m % 10 + 16 * Radix.recode 10 16 15 (m / 10) := by
  have h : Radix.recode 10 16 15 (m / 10) = Radix.recode 10 16 14 (m / 10) :=
    Radix.recode_eq_of_lt (n := 14) (k := 1) (by omega)
  rw [h, ← Radix.recode_succ]

theorem recode_sixteen {m : ℕ} (hm : m < 10 ^ 15) : Radix.recode 10 16 16 m = Radix.recode 10 16 15 m :=
  Radix.recode_eq_of_lt (n := 15) (k := 1) hm

theorem Coded.of_recode {b : BitVec 64} {m : ℕ} (hm : m < 10 ^ 15) (h : b.toNat = Radix.recode 10 16 15 m) :
    Coded b m := by
  refine ⟨m / 10, m % 10, by omega, by omega, by omega, ?_⟩
  rw [h, recode_lowest hm, Nat.add_comm]

/-- **One digit less**, on nibbles and on numbers. -/
theorem Coded.trunc {b : BitVec 64} {m : ℕ} (hb : Coded b m) : Coded (truncDpd b) (dropDigit m) := by
  obtain ⟨h, d, rfl, hd, hh, hb⟩ := hb
  have hrec := recode_lt_pow h
  have hcase : b &&& 0xf ≥ 5 ↔ 5 ≤ d := by
    rw [ge_iff_le, BitVec.le_def, Word.toNat_nibble, hb, show (5 : BitVec 64).toNat = 5 from rfl]
    omega
  have hshr : (b >>> 4).toNat = Radix.recode 10 16 15 h := by
    rw [Word.toNat_shr, hb]
    omega
  have hlow := recode_lowest hh
  have hmod : h % 10 < 10 := Nat.mod_lt _ (by decide)
  refine ⟨h / 10, h % 10 + (if 5 ≤ d then 1 else 0), ?_, ?_, by omega, ?_⟩
  · unfold dropDigit
    split_ifs <;> omega
  · split_ifs <;> omega
  · rw [truncDpd, BitVec.toNat_add, hshr]
    by_cases h5 : 5 ≤ d
    · rw [if_pos (hcase.mpr h5), if_pos h5, show (1 : BitVec 64).toNat = 1 from rfl]
      omega
    · rw [if_neg (mt hcase.mp h5), if_neg h5, show (0 : BitVec 64).toNat = 0 from rfl]
      omega

theorem Coded.trunc_iterate (n : ℕ) {b : BitVec 64} {m : ℕ} (hb : Coded b m) :
    Coded (truncDpd^[n] b) (dropDigits n m) := by
  induction n generalizing b m with
  | zero => exact hb
  | succ n ih => exact ih hb.trunc

section Flip
variable {b : BitVec 64} {h d : ℕ} (hh : h < 10 ^ 15) (hb : b.toNat = 16 * Radix.recode 10 16 15 h + d)
include hb

theorem flipOver_last (hd : d < 10) (fuel i : ℕ) :
    flipOver (fuel + 1) b i = .ok (b, i) ∧ b.toNat = Radix.recode 10 16 16 (10 * h + d) := by
  have hcase : ¬ b &&& 0xf ≥ 10 := by
    rw [ge_iff_le, BitVec.le_def, Word.toNat_nibble, hb, show (10 : BitVec 64).toNat = 10 from rfl]
    omega
  have hrec : Radix.recode 10 16 16 (10 * h + d) = (10 * h + d) % 10 + 16 * Radix.recode 10 16 15 ((10 * h + d) / 10) :=
    Radix.recode_succ 15 _
  rw [flipOver, if_neg hcase, hrec, show (10 * h + d) / 10 = h by omega, show (10 * h + d) % 10 = d by omega, hb]
  exact ⟨rfl, Nat.add_comm _ _⟩

include hh

theorem flipOver_next (hd : d = 10) (fuel i : ℕ) :
    flipOver (fuel + 1) b i = flipOver fuel (b >>> 4 + 1) (i + 1) ∧
      (b >>> 4 + 1).toNat = 16 * Radix.recode 10 16 15 (h / 10) + (h % 10 + 1) := by
  have hrec := recode_lt_pow h
  have hcase : b &&& 0xf ≥ 10 := by
    rw [ge_iff_le, BitVec.le_def, Word.toNat_nibble, hb, show (10 : BitVec 64).toNat = 10 from rfl]
    omega
  have hlow := recode_lowest hh
  rw [flipOver, if_pos hcase, BitVec.toNat_add, Word.toNat_shr, hb, show (1 : BitVec 64).toNat = 1 from rfl]
  exact ⟨rfl, by omega⟩

end Flip

theorem toNat_shl_nibble {b : BitVec 64} {j m : ℕ} (hm : m < 10 ^ 15)
    (hb : (b <<< (4 * j)).toNat = Radix.recode 10 16 16 m) :
    (b <<< (4 * (j + 1))).toNat = Radix.recode 10 16 16 (10 * m) := by
  have hrec := recode_lt_pow m
  have hten : Radix.recode 10 16 16 (10 * m) = 10 * m % 10 + 16 * Radix.recode 10 16 15 (10 * m / 10) :=
    Radix.recode_succ 15 _
  rw [recode_sixteen hm] at hb
  rw [show 4 * (j + 1) = 4 * j + 4 by ring, BitVec.shiftLeft_add, BitVec.toNat_shiftLeft, Nat.shiftLeft_eq, hb, hten,
    Nat.mul_div_cancel_left m (by decide)]
  omega

/-- **Flipping over** ends, and what is shifted back has a digit in every nibble. -/
theorem flipOver_spec {k : ℕ} : ∀ {b : BitVec 64} {h d : ℕ} (i : ℕ), d ≤ 10 → h < 10 ^ k → h < 10 ^ 15 →
    10 * h + d < 10 ^ 16 → b.toNat = 16 * Radix.recode 10 16 15 h + d →
    ∃ b' j, flipOver (k + 2) b i = .ok (b', i + j) ∧
      (b' <<< (4 * j)).toNat = Radix.recode 10 16 16 (10 * h + d) := by
  induction k with
  | zero =>
      intro b h d i hd hk hh hm hb
      by_cases h10 : d < 10
      · have hlast := flipOver_last hb h10 1 i
        exact ⟨b, 0, hlast.1, by rw [Nat.mul_zero, BitVec.shiftLeft_zero, hlast.2]⟩
      · have h0 : h = 0 := by omega
        subst h0
        have hnext := flipOver_next hh hb (by omega) 1 i
        have hlast := flipOver_last hnext.2 (by omega) 0 (i + 1)
        refine ⟨b >>> 4 + 1, 1, hnext.1.trans hlast.1, ?_⟩
        rw [show 10 * 0 + d = 10 * 1 by omega]
        apply toNat_shl_nibble (j := 0) (by decide)
        rw [Nat.mul_zero, BitVec.shiftLeft_zero]
        exact hlast.2
  | succ k ih =>
      intro b h d i hd hk hh hm hb
      by_cases h10 : d < 10
      · have hlast := flipOver_last hb h10 (k + 2) i
        exact ⟨b, 0, hlast.1, by rw [Nat.mul_zero, BitVec.shiftLeft_zero, hlast.2]⟩
      · have hnext := flipOver_next hh hb (by omega) (k + 2) i
        rw [pow_succ] at hk
        obtain ⟨b', j, hflip, hval⟩ := ih (i + 1) (by omega) (by omega) (by omega) (by omega) hnext.2
        refine ⟨b', j + 1, ?_, ?_⟩
        · rw [hnext.1, hflip, add_right_comm, add_assoc]
        · rw [show 10 * h + d = 10 * (10 * (h / 10) + (h % 10 + 1)) by omega]
          exact toNat_shl_nibble (by omega) hval

/-- **The digits that are unpacked**: the first of sixteen is shifted out. -/
theorem toNat_unpacked {m : BitVec 64} {top c : ℕ} (ht : top < 16) (hm : m.toNat = top * 2 ^ 50 + declets 5 c) :
    ([30, 20, 10, 0].foldl (pushDeclet m) ((m &&& 0x3c000000000000) >>> 8 ^^^ unpackAt m 40)).toNat =
      Radix.recode 10 16 15 (c % 10 ^ 15) := by
  have hds := declets_lt 5 c
  have hx4 := bcd3_lt (Nat.mod_lt (c / 1000 ^ 4) (show 0 < 1000 by decide))
  have hrec := recode_lt_pow c
  have hgroups := recode_groups c
  have hmask : (m &&& 0x3c000000000000).toNat = top * 2 ^ 50 := by
    rw [toNat_and_mask _ _ (j := 50) (k := 4) rfl, hm]
    omega
  have hstart : ((m &&& 0x3c000000000000) >>> 8 ^^^ unpackAt m 40).toNat = top * 2 ^ 42 + bcd3 (c / 1000 ^ 4 % 1000) := by
    rw [BitVec.toNat_xor, BitVec.toNat_ushiftRight, hmask, Nat.shiftRight_eq_div_pow,
      toNat_unpackAt (Nat.mod_lt _ (by decide)) (declet_at hm (i := 4) (by decide)),
      show top * 2 ^ 50 / 2 ^ 8 = top * 2 ^ 42 by omega]
    exact Word.xor_of_lt top (hx4.trans (by decide))
  have hmod : Radix.recode 10 16 15 (c % 10 ^ 15) = Radix.recode 10 16 15 c := by
    rw [Radix.recode, Radix.numeral_mod le_rfl]
    rfl
  rw [toNat_pushFour hm, hstart, hmod, hgroups]
  omega

/-- Words and the numbers whose digits they hold. -/
def Holds (b : BitVec 64) (m : ℕ) : Prop := b.toNat = Radix.recode 10 16 16 m ∧ m < 10 ^ 16

theorem Holds.lt_iff {b : BitVec 64} {m : ℕ} (h : Holds b m) : b < 0x100000000000000 ↔ m < 10 ^ 14 := by
  rw [BitVec.lt_def, h.1]
  exact Radix.recode_lt_iff (by decide) (by decide) (by decide) h.2 14

theorem Holds.grow {b : BitVec 64} {m : ℕ} (h : Holds b m) (hm : m < 10 ^ 14) : Holds (b <<< 4) (m * 10) := by
  have hb : (b <<< (4 * 0)).toNat = Radix.recode 10 16 16 m := by
    rw [Nat.mul_zero, BitVec.shiftLeft_zero, h.1]
  have hshl := toNat_shl_nibble (by omega) hb
  refine ⟨?_, by omega⟩
  rw [mul_comm m]
  exact hshl

/-- The exponent the DPD build reads from the word of a decimal. -/
def readExpo (d : Dec) : ℤ := (readBiased (d.coef / 10 ^ 15) d.biased : ℤ) - 398

theorem readBiased_le {top biased : ℕ} (ht : top < 10) (hb : biased < 768) : readBiased top biased < 768 := by
  unfold readBiased
  split_ifs <;> omega

theorem readExpo_bounds (d : Dec) : -398 ≤ readExpo d ∧ readExpo d ≤ 369 := by
  have ht : d.coef / 10 ^ 15 < 10 := Nat.div_lt_of_lt_mul d.coef_lt
  have h := readBiased_le ht d.biased_lt
  unfold readExpo
  omega

theorem bcd64todpd_dec (v : Dec) {b : BitVec 64} (hb : b.toNat = Radix.recode 10 16 16 v.coef) :
    (bcd64todpd ⟨b, v.expo, if v.neg then -1 else 0⟩).toNat = dpd v :=
  toNat_bcd64todpd_dec hb rfl (by cases v.neg <;> rfl)

/-- **The DPD build** on the words of decimals. -/
theorem quantizedpd64_dpd {d r : Dec} {x y : BitVec 64} (hx : x.toNat = dpd d) (hy : y.toNat = dpd r)
    (hd : 0 < d.biased) (hr : 0 < r.biased) : ∃ w v, quantizedpd64 x y = .ok w ∧ w.toNat = dpd v ∧ v.neg = d.neg ∧
      (v.coef, v.expo) = quantum (d.coef % 10 ^ 15) (readExpo d) (readExpo r) := by
  have hc : d.coef % 10 ^ 15 < 10 ^ 15 := Nat.mod_lt _ (by decide)
  have ht : d.coef / 10 ^ 15 < 10 := Nat.div_lt_of_lt_mul d.coef_lt
  have hlt := quantum_lt (show d.coef % 10 ^ 15 < 10 ^ 16 by omega) (readExpo d) (readExpo r)
  have hbounds := quantum_bounds (d.coef % 10 ^ 15) (readExpo d) (readExpo r)
  have hge : -398 ≤ min (readExpo d) (readExpo r) := le_min (readExpo_bounds d).1 (readExpo_bounds r).1
  have hle : max (readExpo d) (readExpo r) ≤ 369 := max_le (readExpo_bounds d).2 (readExpo_bounds r).2
  -- truncate
  have hunpacked := toNat_unpacked (by omega) (mantDpd64_dpd hx)
  obtain ⟨h, e, hsum, he, hh, hcoded⟩ :=
    (Coded.of_recode hc hunpacked).trunc_iterate (readExpo r - readExpo d).toNat
  have hdrop := dropDigits_le (readExpo r - readExpo d).toNat (d.coef % 10 ^ 15)
  -- flip over
  obtain ⟨b, j, hflip, hval⟩ := flipOver_spec (k := 15) 0 he hh hh (by omega) hcoded
  rw [← hsum] at hval
  rw [Nat.zero_add, show 15 + 2 = 17 from rfl] at hflip
  -- expand
  have hrel := expand_rel (R := Holds) (fun b => decide (b < 0x100000000000000)) (· <<< 4)
    (fun m => decide (m < 10 ^ 14)) (· * 10) (fun a b h => by simp only [h.lt_iff])
    (fun a b h hs => h.grow (of_decide_eq_true hs)) (max (readExpo d) (readExpo r) - readExpo r).toNat
    ⟨hval, by omega⟩ (max (readExpo d) (readExpo r))
  let v : Dec := ⟨d.neg, (quantum (d.coef % 10 ^ 15) (readExpo d) (readExpo r)).1,
    (quantum (d.coef % 10 ^ 15) (readExpo d) (readExpo r)).2, hlt, hge.trans hbounds.1, hbounds.2.trans hle⟩
  refine ⟨_, v, ?_, bcd64todpd_dec v hrel.1.1, rfl, rfl⟩
  rw [quantizedpd64, show quantexpdpd64 x = readExpo d from quantexpdpd64_dpd hx hd,
    show quantexpdpd64 y = readExpo r from quantexpdpd64_dpd hy hr, signDpd64_dpd hx,
    show v.expo = _ from hrel.2.symm]
  dsimp only
  rw [hflip]
  rfl

end Unserlob
