import Unserlob.D64.Quantize
import Unserlob.D64.Rounded
import Unserlob.D64.RoundTrip

/-!
# The two builds side by side

* `strtobid64At`, `strtodpd64At`: the parsers; **`words_agree_iff`**: when they denote the same number;
* `bid64tostr_bid`, `dpd64tostr_dpd`: the texts written; **`texts_agree_iff`**: when they are the same;
* `dropped_agree_iff`, **`quantized_agree_iff`**: when the same value is left with the same quantum;
* **`builds_agree`**: all three, and `builds_differ` a number of each kind.
-/

namespace Unserlob

open Ascii Cursor Decimal

/-! ## Parsing -/

/-- `strtobid64`, with a carry loop of at most `fuel` turns. -/
def strtobid64At (fuel : ℕ) (src : Ptr) : Res (Decimal64 × Ptr) := do
  let (b, on) ← strtobcd64At fuel src
  pure (bcd64tobid b, on)

/-- `strtodpd64`, likewise. -/
def strtodpd64At (fuel : ℕ) (src : Ptr) : Res (BitVec 64 × Ptr) := do
  let (b, on) ← strtobcd64At fuel src
  pure (bcd64todpd b, on)

theorem bidRead_spill (neg : Bool) {e m : ℕ} (he : 768 ≤ e) (he' : e < 1024) (hm : m < 10 ^ 15) {neg' : Bool}
    {c : ℕ} {x : ℤ} (hc : 0 < c) (hne : c ≠ 2 ^ 53 + m) :
    bidRead (signBit neg * 2 ^ 63 + (e * 2 ^ 53 + m)) ≠ .fin neg' c x := by
  have hs := signBit_lt neg
  have hl : (signBit neg * 2 ^ 63 + (e * 2 ^ 53 + m)) / 2 ^ 61 % 4 = 3 := by omega
  have hmod : (signBit neg * 2 ^ 63 + (e * 2 ^ 53 + m)) % 2 ^ 51 = m := by omega
  rw [bidRead, readWord, bidFin, if_pos hl, hmod]
  intro h
  split_ifs at h
  all_goals
    have h := (Denoted.fin.inj h).2.1
    simp only at h
    omega

theorem isNegWord_of_bidRead {w : ℕ} {neg : Bool} {c : ℕ} {x : ℤ} (h : bidRead w = .fin neg c x) :
    isNegWord w = neg := by
  rw [bidRead, readWord] at h
  split_ifs at h
  exact (Denoted.fin.inj h).1

section Words
variable {b : Bcd64} {c : ℕ} (hc : c < 2 * 10 ^ 15) (hm : b.mant.toNat = Radix.recode 10 16 16 c) {neg : Bool}
  (hs : b.sign = if neg then 1 else 0)
include hm hs

/-- **The BID word** of a parsed number: the sixteenth digit is not there, and the exponent runs into the sign. -/
theorem toNat_bcd64tobid : (bcd64tobid b).toNat =
    (signBit neg + ((b.expo + 398) % 2048).toNat / 1024) % 2 * 2 ^ 63 +
      (((b.expo + 398) % 2048).toNat % 1024 * 2 ^ 53 + c % 10 ^ 15) := by
  have hunpack : (unpack 15 (mirror b.mant >>> 4) 0).toNat = c % 10 ^ 15 := by
    have hlow : Radix.recode 10 16 16 c % 16 ^ 15 = Radix.recode 10 16 15 (c % 10 ^ 15) := by
      rw [show Radix.recode 10 16 16 c = Radix.recode 10 16 (15 + 1) c from rfl, Radix.recode_add,
        Nat.add_mul_mod_self_left, Nat.mod_eq_of_lt (recode_lt_pow c), Radix.recode, Radix.recode,
        Radix.numeral_mod le_rfl]
    rw [toNat_unpack_mirror, hm, Radix.recode, ← Radix.numeral_mod (le_refl 15), hlow]
    exact Radix.recode_recode (by decide) (by decide) (Nat.mod_lt _ (by decide))
  have hex : (BitVec.ofInt 64 (b.expo + 398)).toNat % 2048 = ((b.expo + 398) % 2048).toNat := by
    rw [BitVec.toNat_ofInt]
    omega
  have hsign : (BitVec.ofInt 64 b.sign).toNat = signBit neg := by
    rw [hs]
    cases neg <;> rfl
  rw [bcd64tobid, toNat_assembleBid_fields (by omega), hunpack, hsign]
  omega

include hc

/-- **The DPD word** of a parsed number; the exponent is cut to ten bits. -/
theorem toNat_bcd64todpd_fields : (bcd64todpd b).toNat =
    dpdWord (signBit neg) (combination (c / 10 ^ 15) (((b.expo + 398) % 2048).toNat % 1024))
      (((b.expo + 398) % 2048).toNat % 1024) (declets 5 c) := by
  have hr : ((b.expo + 398) % 1024).toNat = ((b.expo + 398) % 2048).toNat % 1024 := by omega
  have hsign : (b.sign % 2).toNat = signBit neg := by
    rw [hs]
    cases neg <;> rfl
  rw [toNat_bcd64todpd (by omega) hm, hr, hsign]

end Words

theorem dpdRead_plain (neg : Bool) {c e : ℕ} (hc : c < 10 ^ 16) (he : e < 768) :
    dpdRead (dpdWord (signBit neg) (combination (c / 10 ^ 15) e) e (declets 5 c)) = .fin neg c (e - 398) := by
  have htop : c / 10 ^ 15 < 10 := Nat.div_lt_of_lt_mul hc
  rw [dpdRead_combination neg c htop he, Nat.div_add_mod']

/-- Reading a word whose exponent is not: the coefficient gets another first digit. -/
theorem dpdRead_spill (neg : Bool) {c e : ℕ} (hc : c < 2 * 10 ^ 15) (he : 768 ≤ e) (he' : e < 1024) :
    ∃ x, dpdRead (dpdWord (signBit neg) (combination (c / 10 ^ 15) e) e (declets 5 c)) =
      .fin neg (8 * 10 ^ 15 + c) x := by
  have htop : c / 10 ^ 15 < 2 := Nat.div_lt_of_lt_mul hc
  have hcomb : combination (c / 10 ^ 15) e = 24 + c / 10 ^ 15 := by
    rw [combination, if_pos (by omega)]
    omega
  rw [hcomb, dpdRead, readWord, comb_dpdWord neg e c (by omega), if_neg (by omega), if_neg (by omega),
    isNegWord_dpdWord neg e c (by omega), dpdFin_dpdWord neg e c (by omega), if_pos (by omega)]
  refine ⟨_, congrArg (fun m => Denoted.fin neg m _) ?_⟩
  omega

/-- **When the words of a parsed number denote the same**: the exponent fits its field and there are no more
than fifteen digits. -/
theorem words_agree_iff {b : Bcd64} {c : ℕ} (hc : c < 2 * 10 ^ 15) (hm : b.mant.toNat = Radix.recode 10 16 16 c)
    {neg : Bool} (hs : b.sign = if neg then 1 else 0) :
    bidRead (bcd64tobid b).toNat = dpdRead (bcd64todpd b).toNat ↔ (b.expo + 398) % 2048 < 768 ∧ c < 10 ^ 15 := by
  have hlow : c % 10 ^ 15 < 10 ^ 15 := Nat.mod_lt _ (by decide)
  have hiff : (b.expo + 398) % 2048 < 768 ↔ ((b.expo + 398) % 2048).toNat < 768 := by omega
  rw [toNat_bcd64tobid hm hs, toNat_bcd64todpd_fields hc hm hs, hiff]
  have hr : ((b.expo + 398) % 2048).toNat < 2048 := by omega
  generalize ((b.expo + 398) % 2048).toNat = r at hr ⊢
  have hsb := signBit_lt neg
  by_cases h1024 : r < 1024
  · rw [Nat.div_eq_of_lt h1024, Nat.add_zero, Nat.mod_eq_of_lt hsb, Nat.mod_eq_of_lt h1024]
    by_cases h768 : r < 768
    · rw [bidRead_plain neg h768 (hlow.trans (by decide)), dpdRead_plain neg (by omega) h768, Denoted.fin.injEq,
        and_iff_right rfl, and_iff_left rfl, and_iff_right h768]
      omega
    · obtain ⟨x, hx⟩ := dpdRead_spill neg hc (Nat.not_lt.mp h768) h1024
      rw [hx]
      exact iff_of_false (bidRead_spill neg (Nat.not_lt.mp h768) h1024 hlow (by omega) (by omega)) fun h => h768 h.1
  · refine iff_of_false ?_ fun h => by omega
    -- the BID word has the other sign
    have hfin : ∃ m x, dpdRead (dpdWord (signBit neg) (combination (c / 10 ^ 15) (r % 1024)) (r % 1024)
        (declets 5 c)) = .fin neg m x := by
      by_cases h768 : r % 1024 < 768
      · exact ⟨_, _, dpdRead_plain neg (by omega) h768⟩
      · obtain ⟨x, hx⟩ := dpdRead_spill neg hc (Nat.not_lt.mp h768) (Nat.mod_lt _ (by decide))
        exact ⟨_, x, hx⟩
    obtain ⟨m, x, hx⟩ := hfin
    intro h
    have hsign := isNegWord_of_bidRead (h.trans hx)
    have hflip : (signBit neg + r / 1024) % 2 = signBit (!neg) := by
      rw [show r / 1024 = 1 by omega]
      cases neg <;> rfl
    rw [hflip, isNegWord_add _ (by omega)] at hsign
    cases neg <;> cases hsign

/-- The exponent fits its field, with its bit ten clear, and no fifteen nines are rounded up. -/
def ParsesAlike (p : Ptr) : Prop := (expoOf (signEnd p) + 398) % 2048 < 768 ∧ ¬ Nines p

instance : DecidablePred ParsesAlike := fun _ => inferInstanceAs (Decidable (_ ∧ _))

/-- **When the parsers agree.** -/
theorem parsers_agree_iff {fuel : ℕ} {p : Ptr} (h : numEnd p ≠ []) {x : Decimal64} {y : BitVec 64} {on on' : Ptr}
    (hx : strtobid64At fuel p = .ok (x, on)) (hy : strtodpd64At fuel p = .ok (y, on')) :
    bidRead x.toNat = dpdRead y.toNat ↔ ParsesAlike p := by
  obtain ⟨r, hr, hx⟩ := bind_ok.mp hx
  obtain ⟨r', hr', hy⟩ := bind_ok.mp hy
  obtain rfl := Except.ok.inj (hr.symm.trans hr')
  rw [← (Prod.mk.inj (Except.ok.inj hx)).1, ← (Prod.mk.inj (Except.ok.inj hy)).1]
  obtain ⟨hexpo, hsign, c, hc, hmant, hiff⟩ := strtobcd64At_digits h hr
  rw [words_agree_iff hc hmant hsign, hexpo, hiff, ParsesAlike]

/-! ## Writing -/

theorem toNat_reencode_coef (d : Dec) :
    (reencode 16 (BitVec.ofNat 64 d.coef) 0).toNat = Radix.recode 10 16 16 d.coef := by
  have hc := d.coef_lt
  rw [toNat_reencode_eq, BitVec.toNat_ofNat, Nat.mod_eq_of_lt (hc.trans (by decide)), Nat.mod_eq_of_lt hc]

theorem mantDpd64_ne_zero {d : Dec} {y : BitVec 64} (hy : y.toNat = dpd d) : mantDpd64 y ≠ 0 ↔ d.coef ≠ 0 := by
  have hm := mantDpd64_dpd hy
  rw [Ne, ← BitVec.toNat_inj, hm]
  change ¬ _ = 0 ↔ _
  refine not_congr ⟨fun h => ?_, fun h => by rw [h]; rfl⟩
  have hval := decletsVal_declets 5 d.coef
  rw [show declets 5 d.coef = 0 by omega] at hval
  change 0 = d.coef % 10 ^ 15 at hval
  omega

section Write
variable {d : Dec} {x : Decimal64} {y : BitVec 64} (hx : x.toNat = bid d) (hy : y.toNat = dpd d) (h0 : 0 < d.biased)
  {bsz : ℕ}

theorem bcd64tostr_reencode (m : BitVec 64) (e s : ℤ) {bsz : ℕ} (h : (writes ⟨reencode 16 m 0, e, s⟩).length ≤ bsz) :
    bcd64tostr bsz ⟨reencode 16 m 0, e, s⟩ = numText (decide (s ≠ 0)) (m.toNat % 10 ^ 16) e := by
  rw [bcd64tostr_eq, foldl_cap _ _ (Nat.zero_le _), List.length_nil, Nat.sub_zero, List.take_of_length_le h,
    List.append_nil, writes_reverse]

/-- The sign written: naughts have none. -/
def writtenSign (d : Dec) : ℤ := if d.coef ≠ 0 then (if d.neg then -1 else 0) else 0

include h0

include hx in
theorem bid64tostr_bid : bid64tostr bsz x =
    bcd64tostr bsz ⟨reencode 16 (BitVec.ofNat 64 d.coef) 0, d.expo, writtenSign d⟩ := by
  have hm : mantBid64 x = BitVec.ofNat 64 d.coef := by
    rw [← BitVec.toNat_inj, mantBid64_bid hx, BitVec.toNat_ofNat, Nat.mod_eq_of_lt (d.coef_lt.trans (by decide))]
  have hne : mantBid64 x ≠ 0 ↔ d.coef ≠ 0 := by
    rw [Ne, ← BitVec.toNat_inj, mantBid64_bid hx]
    rfl
  rw [bid64tostr, quantexpbid64_bid hx h0, signBid64_bid hx, writtenSign]
  simp only [hne]
  rw [hm]

include hy in
theorem dpd64tostr_dpd : dpd64tostr bsz y =
    bcd64tostr bsz ⟨reencode 16 (BitVec.ofNat 64 d.coef) 0, readExpo d, writtenSign d⟩ := by
  have htop : d.coef / 10 ^ 15 < 10 := Nat.div_lt_of_lt_mul d.coef_lt
  have hm := mantDpd64_dpd hy
  rw [dpd64tostr, quantexpdpd64_dpd hy h0, signDpd64_dpd hy, writtenSign, readExpo]
  by_cases hz : d.coef ≠ 0
  · have hshr : (mantDpd64 y >>> 50).toNat = d.coef / 10 ^ 15 := by
      have hds := declets_lt 5 d.coef
      rw [BitVec.toNat_ushiftRight, Nat.shiftRight_eq_div_pow, hm]
      omega
    have hword : [40, 30, 20, 10, 0].foldl (pushDeclet (mantDpd64 y)) (mantDpd64 y >>> 50) =
        reencode 16 (BitVec.ofNat 64 d.coef) 0 := by
      rw [← BitVec.toNat_inj, toNat_pushFive hm (by omega), hshr, toNat_reencode_coef, recode_top d.coef_lt]
    rw [if_pos hz, if_pos ((mantDpd64_ne_zero hy).mpr hz), hword]
  · have hc : d.coef = 0 := not_not.mp hz
    have hm0 : mantDpd64 y = 0 := not_not.mp (mt (mantDpd64_ne_zero hy).mp hz)
    rw [if_neg hz, if_neg (not_not.mpr hm0), hm0, hc]
    rfl

end Write

theorem not_point_of_isdigit {c : UInt8} (h : isdigit c = true) : decide (c ≠ ch '.') = true := by
  apply decide_eq_true
  rintro rfl
  exact absurd h (by decide)

theorem dropWhile_body (m : ℕ) (e : ℤ) : (body m e).dropWhile (fun c => decide (c ≠ ch '.')) =
    if e < 0 then ch '.' :: fixedDigits (-e).toNat m else [] := by
  unfold body
  split_ifs
  · rw [List.dropWhile_append_of_pos fun c hc => not_point_of_isdigit (isdigit_of_mem_decimal hc)]
    rfl
  · rw [List.dropWhile_append_of_pos fun c hc => not_point_of_isdigit (isdigit_of_mem_decimal hc),
      List.dropWhile_eq_nil_iff]
    intro c hc
    rw [List.eq_of_mem_replicate hc]
    decide

/-- **A text has one exponent.** -/
theorem numText_expo {neg : Bool} {m : ℕ} {e e' : ℤ} (h : numText neg m e = numText neg m e') : e = e' := by
  rw [numText_eq, numText_eq] at h
  have h := List.append_cancel_left h
  have hfrac := congrArg (fun l => (l.dropWhile fun c => decide (c ≠ ch '.')).length) h
  simp only [dropWhile_body] at hfrac
  by_cases he : e < 0 <;> by_cases he' : e' < 0
  · rw [if_pos he, if_pos he', List.length_cons, List.length_cons, length_fixedDigits, length_fixedDigits] at hfrac
    omega
  · rw [if_pos he, if_neg he'] at hfrac
    exact absurd hfrac (by simp)
  · rw [if_neg he, if_pos he'] at hfrac
    exact absurd hfrac (by simp)
  · have hlen := congrArg List.length h
    rw [body, body, if_neg he, if_neg he', List.length_append, List.length_append, List.length_replicate,
      List.length_replicate] at hlen
    omega

/-- The exponent is read as it is: the first digit is at most seven, or the two high bits of the exponent are
at most one and bit seven is there in two places. -/
def ExpoKept (d : Dec) : Prop :=
  d.coef < 8 * 10 ^ 15 ∨ d.biased < 512 ∧ (d.coef < 9 * 10 ^ 15 ∨ d.biased / 128 % 2 = 1)

instance : DecidablePred ExpoKept := fun _ => inferInstanceAs (Decidable (_ ∨ _))

theorem readExpo_eq_iff (d : Dec) : readExpo d = d.expo ↔ ExpoKept d := by
  have hsub := d.biased_sub
  have hb := d.biased_lt
  have hc := d.coef_lt
  rw [readExpo, ExpoKept, ← hsub]
  unfold readBiased
  split_ifs <;> omega

/-- **When the texts are the same.** -/
theorem texts_agree_iff {d : Dec} {x : Decimal64} {y : BitVec 64} (hx : x.toNat = bid d) (hy : y.toNat = dpd d)
    (h0 : 0 < d.biased) :
    (∃ n, ∀ bsz, n ≤ bsz → bid64tostr bsz x = dpd64tostr bsz y) ↔ ExpoKept d := by
  rw [← readExpo_eq_iff]
  constructor
  · rintro ⟨n, h⟩
    let n' := max n (max (writes ⟨reencode 16 (BitVec.ofNat 64 d.coef) 0, d.expo, writtenSign d⟩).length
      (writes ⟨reencode 16 (BitVec.ofNat 64 d.coef) 0, readExpo d, writtenSign d⟩).length)
    have heq := h n' (le_max_left _ _)
    rw [bid64tostr_bid hx h0, dpd64tostr_dpd hy h0,
      bcd64tostr_reencode _ _ _ ((le_max_left _ _).trans (le_max_right _ _)),
      bcd64tostr_reencode _ _ _ ((le_max_right _ _).trans (le_max_right _ _))] at heq
    exact (numText_expo heq).symm
  · intro h
    refine ⟨0, fun bsz _ => ?_⟩
    rw [bid64tostr_bid hx h0, dpd64tostr_dpd hy h0, h]

/-! ## Rounding to a quantum -/

theorem readExpo_gap (d : Dec) :
    readExpo d = d.expo ∨ readExpo d + 128 ≤ d.expo ∨ d.expo + 128 ≤ readExpo d := by
  have hsub := d.biased_sub
  have hb := d.biased_lt
  have hc := d.coef_lt
  rw [readExpo, ← hsub]
  unfold readBiased
  split_ifs <;> omega

/-- **Fifteen digits, one exponent**: the same number of digits goes, or zeros, or all of them. -/
theorem dropped_eq_iff {c k j : ℕ} (hc : c < 10 ^ 15) (hgap : j = 0 ∨ k = 0 ∨ 128 ≤ j) :
    dropDigits k c * 10 ^ k = dropDigits (k + j) c * 10 ^ (k + j) ↔
      j = 0 ∨ k = 0 ∧ 10 ^ j ∣ c ∨ 9 * c < 4 * 10 ^ k + 5 := by
  rw [dropDigits_mul_eq_add_iff, ← dropDigits_eq_zero_iff]
  by_cases hj : j = 0
  · rw [hj, pow_zero]
    exact iff_of_true (one_dvd _) (.inl rfl)
  by_cases hk : k = 0
  · rw [hk, dropDigits_zero]
    constructor
    · exact fun h => .inr (.inl ⟨rfl, h⟩)
    · rintro (h | h | h)
      · exact absurd h hj
      · exact h.2
      · rw [h]
        exact dvd_zero _
  · have hlt : dropDigits k c < 10 ^ j :=
      (dropDigits_le k c).trans_lt (hc.trans_le (Nat.pow_le_pow_right (by decide) (by omega)))
    constructor
    · exact fun h => .inr (.inr (Nat.eq_zero_of_dvd_of_lt h hlt))
    · rintro (h | h | h)
      · exact absurd h hj
      · exact absurd h.1 hk
      · rw [h]
        exact dvd_zero _

/-- Two gaps that are equal, or of which one is gone, or which are far apart. -/
def GapsApart (k k' : ℕ) : Prop := k = k' ∨ k = 0 ∨ k' = 0 ∨ k + 128 ≤ k' ∨ k' + 128 ≤ k

/-- Sixteen digits of which one build has lost the first: nothing is left of either. -/
theorem lost_digit {c k k' : ℕ} (hc : 10 ^ 15 ≤ c) (hc' : c < 10 ^ 16)
    (hgap : GapsApart k k') (h0 : dropDigits k c ≠ 0) (h0' : dropDigits k' (c % 10 ^ 15) ≠ 0) :
    dropDigits k' (c % 10 ^ 15) * 10 ^ k' < dropDigits k c * 10 ^ k := by
  have hmod : c % 10 ^ 15 < 10 ^ 15 := Nat.mod_lt _ (by decide)
  have hlarge := dropDigits_large hc hc' h0
  obtain ⟨hk16, -⟩ := dropDigits_small hc' h0
  obtain ⟨hk15, hsmall⟩ := dropDigits_small hmod h0'
  by_contra hlt
  by_cases hz' : k' = 0
  · rw [hz', pow_zero, mul_one, dropDigits_zero] at hlt
    omega
  by_cases hz : k = 0
  · rw [hz, pow_zero, mul_one, dropDigits_zero] at hlt
    have hzero : c % 10 ^ 15 = 0 := by omega
    rw [hzero, dropDigits_zero_right] at h0'
    exact h0' rfl
  obtain rfl : k = k' := by
    unfold GapsApart at hgap
    omega
  -- the first digit stays where it is
  have hsplit : dropDigits k c = c / 10 ^ 15 * 10 ^ (15 - k) + dropDigits k (c % 10 ^ 15) := by
    have hpow : c / 10 ^ 15 * 10 ^ 15 = c / 10 ^ 15 * 10 ^ (15 - k) * 10 ^ k := by
      rw [mul_assoc, ← pow_add, Nat.sub_add_cancel hk15]
    conv_lhs => rw [← Nat.div_add_mod' c (10 ^ 15), hpow, dropDigits_split]
  have hfirst : 1 ≤ c / 10 ^ 15 * 10 ^ (15 - k) := Nat.mul_pos (by omega) (by positivity)
  have hpos : 0 < 10 ^ k := by positivity
  rw [hsplit] at hlt
  exact hlt ((Nat.mul_lt_mul_right hpos).mpr (by omega))

/-- When the same value is left of `d` with the quantum of `r`. -/
def QuantizesAlike (d r : Dec) : Prop :=
  let k := (r.expo - d.expo).toNat
  let k' := (readExpo r - readExpo d).toNat
  if d.coef < 10 ^ 15 then
    k = k' ∨ min k k' = 0 ∧ 10 ^ max k k' ∣ d.coef ∨ 9 * d.coef < 4 * 10 ^ min k k' + 5
  else 9 * d.coef < 4 * 10 ^ k + 5 ∧ 9 * (d.coef % 10 ^ 15) < 4 * 10 ^ k' + 5

theorem quantum_val_eq (c : ℕ) (ex er : ℤ) : ((quantum c ex er).1 : ℚ) * 10 ^ (quantum c ex er).2 =
    (dropDigits (er - ex).toNat c * 10 ^ (er - ex).toNat : ℕ) * 10 ^ ex := by
  have hmax : max ex er = ((er - ex).toNat : ℤ) + ex := by omega
  rw [quantum_val, hmax, zpow_add₀ (by norm_num), zpow_natCast]
  push_cast
  ring

/-- Far apart: the larger exponent wins. -/
theorem scaled_lt {a b : ℕ} {e e' : ℤ} (ha : a ≤ 10 ^ 17) (hb : 0 < b) (he : e + 128 ≤ e') :
    (a : ℚ) * 10 ^ e < b * 10 ^ e' := by
  have ha' : (a : ℚ) ≤ 10 ^ 17 := by exact_mod_cast ha
  have hb' : (1 : ℚ) ≤ b := by exact_mod_cast hb
  have hpos : (0 : ℚ) < 10 ^ e := zpow_pos (by norm_num) _
  have hpow : (10 : ℚ) ^ (17 : ℤ) * 10 ^ e < 10 ^ e' := by
    rw [← zpow_add₀ (by norm_num)]
    exact zpow_lt_zpow_right₀ (by norm_num) (by omega)
  calc (a : ℚ) * 10 ^ e ≤ 10 ^ 17 * 10 ^ e := mul_le_mul_of_nonneg_right ha' hpos.le
    _ < 10 ^ e' := by exact_mod_cast hpow
    _ ≤ b * 10 ^ e' := le_mul_of_one_le_left (zpow_pos (by norm_num) _).le hb'

theorem gaps_apart (d r : Dec) (h : readExpo d = d.expo) :
    GapsApart (r.expo - d.expo).toNat (readExpo r - readExpo d).toNat := by
  have hgap := readExpo_gap r
  unfold GapsApart
  omega

theorem dropped_small_iff {c k k' : ℕ} (hc : c < 10 ^ 15) (hgap : GapsApart k k') :
    dropDigits k c * 10 ^ k = dropDigits k' c * 10 ^ k' ↔
      k = k' ∨ min k k' = 0 ∧ 10 ^ max k k' ∣ c ∨ 9 * c < 4 * 10 ^ min k k' + 5 := by
  unfold GapsApart at hgap
  rcases Nat.le_total k k' with hle | hle
  · obtain ⟨j, rfl⟩ := Nat.exists_eq_add_of_le hle
    rw [dropped_eq_iff hc (by omega), Nat.min_eq_left hle, Nat.max_eq_right hle]
    refine or_congr (by omega) (or_congr (and_congr_right fun hk => ?_) Iff.rfl)
    rw [hk, Nat.zero_add]
  · obtain ⟨j, rfl⟩ := Nat.exists_eq_add_of_le hle
    rw [eq_comm, dropped_eq_iff hc (by omega), Nat.min_eq_right hle, Nat.max_eq_left hle]
    refine or_congr (by omega) (or_congr (and_congr_right fun hk => ?_) Iff.rfl)
    rw [hk, Nat.zero_add]

theorem scaled_eq_zero {a j : ℕ} {e : ℤ} : ((a * 10 ^ j : ℕ) : ℚ) * 10 ^ e = 0 ↔ a = 0 := by
  rw [mul_eq_zero, or_iff_left (zpow_ne_zero _ (by norm_num)), Nat.cast_eq_zero, mul_eq_zero,
    or_iff_left (by positivity)]

/-- A coefficient whose first digit is lost: nothing may be left of it. -/
theorem dropped_large_iff {c k k' : ℕ} {e e' : ℤ} (hc : 10 ^ 15 ≤ c) (hc' : c < 10 ^ 16)
    (hgap : e' = e ∨ e' + 128 ≤ e ∨ e + 128 ≤ e') (hfar : e' = e → GapsApart k k') :
    ((dropDigits k c * 10 ^ k : ℕ) : ℚ) * 10 ^ e = (dropDigits k' (c % 10 ^ 15) * 10 ^ k' : ℕ) * 10 ^ e' ↔
      dropDigits k c = 0 ∧ dropDigits k' (c % 10 ^ 15) = 0 := by
  constructor
  · intro h
    by_cases hA : dropDigits k c = 0
    · rw [hA, Nat.zero_mul, Nat.cast_zero, zero_mul, eq_comm, scaled_eq_zero] at h
      exact ⟨hA, h⟩
    by_cases hB : dropDigits k' (c % 10 ^ 15) = 0
    · rw [hB, Nat.zero_mul, Nat.cast_zero, zero_mul, scaled_eq_zero] at h
      exact ⟨h, hB⟩
    have hle := (dropDigits_small hc' hA).2
    have hle' := (dropDigits_small (Nat.mod_lt c (show 0 < 10 ^ 15 by decide)) hB).2
    exfalso
    rcases hgap with heq | hlow | hhigh
    · rw [heq, mul_left_inj' (zpow_ne_zero _ (by norm_num)), Nat.cast_inj] at h
      exact (lost_digit hc hc' (hfar heq) hA hB).ne h.symm
    · exact (scaled_lt (by omega) (Nat.mul_pos (Nat.pos_of_ne_zero hA) (by positivity)) hlow).ne h.symm
    · exact (scaled_lt (by omega) (Nat.mul_pos (Nat.pos_of_ne_zero hB) (by positivity)) hhigh).ne h
  · rintro ⟨h1, h2⟩
    rw [h1, h2, Nat.zero_mul, Nat.zero_mul]
    simp

/-- **When the values left are equal.** -/
theorem dropped_agree_iff (d r : Dec) :
    ((dropDigits (r.expo - d.expo).toNat d.coef * 10 ^ (r.expo - d.expo).toNat : ℕ) : ℚ) * 10 ^ d.expo =
      (dropDigits (readExpo r - readExpo d).toNat (d.coef % 10 ^ 15) * 10 ^ (readExpo r - readExpo d).toNat : ℕ) *
        10 ^ readExpo d ↔ QuantizesAlike d r := by
  rw [QuantizesAlike]
  by_cases hsmall : d.coef < 10 ^ 15
  · have hread : readExpo d = d.expo := (readExpo_eq_iff d).mpr (.inl (by omega))
    have hpos : (10 : ℚ) ^ d.expo ≠ 0 := zpow_ne_zero _ (by norm_num)
    have hfar := gaps_apart d r hread
    rw [if_pos hsmall, hread, mul_left_inj' hpos, Nat.cast_inj, Nat.mod_eq_of_lt hsmall]
    rw [hread] at hfar
    exact dropped_small_iff hsmall hfar
  · rw [if_neg hsmall, ← dropDigits_eq_zero_iff, ← dropDigits_eq_zero_iff]
    exact dropped_large_iff (Nat.not_lt.mp hsmall) d.coef_lt (readExpo_gap d) (gaps_apart d r)

/-- **When the two builds leave the same value.** -/
theorem quantized_agree_iff {d r : Dec} {x y : Decimal64} {x' y' : BitVec 64} (hx : x.toNat = bid d)
    (hy : y.toNat = bid r) (hx' : x'.toNat = dpd d) (hy' : y'.toNat = dpd r) (hd : 0 < d.biased) (hr : 0 < r.biased) :
    ∃ w, quantizedpd64 x' y' = .ok w ∧
      ((bidRead (quantizebid64 x y).toNat).val = (dpdRead w.toNat).val ↔ QuantizesAlike d r) := by
  obtain ⟨u, hu, huneg, hucoef⟩ := quantizebid64_bid hx hy hd hr
  obtain ⟨w, v, hw, hv, hvneg, hvcoef⟩ := quantizedpd64_dpd hx' hy' hd hr
  have hu1 : u.coef = (quantum d.coef d.expo r.expo).1 := congrArg Prod.fst hucoef
  have hu2 : u.expo = (quantum d.coef d.expo r.expo).2 := congrArg Prod.snd hucoef
  have hv1 : v.coef = (quantum (d.coef % 10 ^ 15) (readExpo d) (readExpo r)).1 := congrArg Prod.fst hvcoef
  have hv2 : v.expo = (quantum (d.coef % 10 ^ 15) (readExpo d) (readExpo r)).2 := congrArg Prod.snd hvcoef
  have hsign : (if d.neg then -1 else 1 : ℚ) ≠ 0 := by split_ifs <;> norm_num
  refine ⟨w, hw, ?_⟩
  rw [hu, hv, bidRead_bid, dpdRead_dpd, Dec.val_denoted, Dec.val_denoted, Option.some.injEq, Dec.val, Dec.val, huneg, hvneg,
    hu1, hu2, hv1, hv2, mul_assoc, mul_assoc, mul_right_inj' hsign, quantum_val_eq, quantum_val_eq]
  exact dropped_agree_iff d r

/-! ## Both builds -/

/-- A decimal in the one encoding and in the other. -/
def bid64 (d : Dec) : Decimal64 := BitVec.ofNat 64 (bid d)

def dpd64 (d : Dec) : BitVec 64 := BitVec.ofNat 64 (dpd d)

theorem toNat_bid64 (d : Dec) : (bid64 d).toNat = bid d := by
  rw [bid64, BitVec.toNat_ofNat, Nat.mod_eq_of_lt (bid_lt d)]

theorem toNat_dpd64 (d : Dec) : (dpd64 d).toNat = dpd d := by
  rw [dpd64, BitVec.toNat_ofNat, Nat.mod_eq_of_lt (dpd_lt d)]

theorem biased_pos {d : Dec} (h : -383 ≤ d.expo) : 0 < d.biased := by
  have hsub := d.biased_sub
  omega

instance (d r : Dec) : Decidable (QuantizesAlike d r) := inferInstanceAs (Decidable (ite _ _ _))

/-- **The two builds**: when they parse the same number, print the same text and leave the same value. -/
theorem builds_agree {fuel : ℕ} {p : Ptr} {x : Decimal64} {on : Ptr} (hp : numEnd p ≠ [])
    (hx : strtobid64At fuel p = .ok (x, on)) {d r : Dec} (hd : -383 ≤ d.expo) (hr : -383 ≤ r.expo) :
    (∃ y, strtodpd64At fuel p = .ok (y, on) ∧ (bidRead x.toNat = dpdRead y.toNat ↔ ParsesAlike p)) ∧
    ((∃ n, ∀ bsz, n ≤ bsz → bid64tostr bsz (bid64 d) = dpd64tostr bsz (dpd64 d)) ↔ ExpoKept d) ∧
    ∃ w, quantizedpd64 (dpd64 d) (dpd64 r) = .ok w ∧
      ((bidRead (quantizebid64 (bid64 d) (bid64 r)).toNat).val = (dpdRead w.toNat).val ↔ QuantizesAlike d r) := by
  refine ⟨?_, texts_agree_iff (toNat_bid64 d) (toNat_dpd64 d) (biased_pos hd),
    quantized_agree_iff (toNat_bid64 d) (toNat_bid64 r) (toNat_dpd64 d) (toNat_dpd64 r) (biased_pos hd) (biased_pos hr)⟩
  obtain ⟨b, hb, hx'⟩ := bind_ok.mp hx
  have hon := (Prod.mk.inj (Except.ok.inj hx')).2
  have hy : strtodpd64At fuel p = .ok (bcd64todpd b.1, on) := by
    rw [strtodpd64At, hb, ← hon]
    rfl
  exact ⟨_, hy, parsers_agree_iff hp hx hy⟩

/-- Sixteen digits, fifteen of them nines. -/
def ninesText : Ptr := List.replicate 15 (ch '9') ++ [ch '5', 0]

/-- One, and nine, to fifteen places. -/
def oneDec : Dec := ⟨false, 10 ^ 15, -15, by decide, by decide, by decide⟩

def nineDec : Dec := ⟨false, 9 * 10 ^ 15, -15, by decide, by decide, by decide⟩

/-- Numbers on which they do and do not. -/
theorem builds_agree_one :
    (∃ y, strtodpd64At 17 (bytes ['1', '.', '5', '\n']) = .ok (y, bytes ['\n']) ∧
      (bidRead (0x31a000000000000f : Decimal64).toNat = dpdRead y.toNat ↔ ParsesAlike (bytes ['1', '.', '5', '\n']))) ∧
    ((∃ n, ∀ bsz, n ≤ bsz → bid64tostr bsz (bid64 oneDec) = dpd64tostr bsz (dpd64 oneDec)) ↔ ExpoKept oneDec) ∧
    ∃ w, quantizedpd64 (dpd64 oneDec) (dpd64 nineDec) = .ok w ∧
      ((bidRead (quantizebid64 (bid64 oneDec) (bid64 nineDec)).toNat).val = (dpdRead w.toNat).val ↔
        QuantizesAlike oneDec nineDec) :=
  builds_agree (show numEnd (bytes ['1', '.', '5', '\n']) ≠ [] by decide)
    (show strtobid64At 17 _ = .ok (0x31a000000000000f, _) by decide +kernel) (by decide) (by decide)

/-- **The builds differ** in what they parse, print and round. -/
theorem builds_differ :
    (∃ x y on, strtobid64At 17 ninesText = .ok (x, on) ∧ strtodpd64At 17 ninesText = .ok (y, on) ∧
      bidRead x.toNat = .fin false 0 1 ∧ dpdRead y.toNat = .fin false (10 ^ 15) 1) ∧
    (¬ ∃ n, ∀ bsz, n ≤ bsz → bid64tostr bsz (bid64 nineDec) = dpd64tostr bsz (dpd64 nineDec)) ∧
    ¬ ∃ w, quantizedpd64 (dpd64 oneDec) (dpd64 oneDec) = .ok w ∧
      (bidRead (quantizebid64 (bid64 oneDec) (bid64 oneDec)).toNat).val = (dpdRead w.toNat).val := by
  refine ⟨⟨0x31e0000000000000, 0x263c000000000000, [0], by decide +kernel, by decide +kernel, by decide +kernel,
    by decide +kernel⟩, ?_, ?_⟩
  · rw [texts_agree_iff (toNat_bid64 nineDec) (toNat_dpd64 nineDec) (by decide)]
    decide
  · rintro ⟨w, hw, heq⟩
    obtain ⟨w', hw', hiff⟩ := quantized_agree_iff (toNat_bid64 oneDec) (toNat_bid64 oneDec) (toNat_dpd64 oneDec)
      (toNat_dpd64 oneDec) (by decide) (by decide)
    obtain rfl := Except.ok.inj (hw.symm.trans hw')
    exact absurd (hiff.mp heq) (by decide)

end Unserlob
