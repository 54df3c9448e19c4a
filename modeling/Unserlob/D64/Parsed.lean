import Unserlob.D64.Value

/-!
# The number parsed and the number denoted (`strtod64`)

* `RoundsTo`: a number is what a text should be rounded to; **`roundsTo_iff`** says which multiple of the unit
  that is;
* `flip`: the text with the opposite sign;
* `UpRight`: the texts that are rightly rounded up; **`strtobid64_rounds`**: which texts are rightly rounded,
  and which with either sign.
-/

namespace Unserlob

open Ascii Cursor Decimal

/-- The first digit dropped is five or more. -/
def DropsHigh (p : Ptr) : Prop := isRound ((dropped (signEnd p)).headD 0) = true

instance : DecidablePred DropsHigh := fun _ => inferInstanceAs (Decidable (_ = _))

/-- The number `r` is the text rounded to the unit of the last digit kept. -/
structure RoundsTo (p : Ptr) (r : ℚ) : Prop where
  near : |r - textVal p| ≤ 10 ^ expoOf (signEnd p) / 2
  away : DropsHigh p → |textVal p| ≤ |r|
  exact : (∀ c ∈ dropped (signEnd p), c = ch '0') → r = textVal p

/-! ## The digits that are dropped -/

theorem isRound_iff {c : UInt8} (h : isdigit c = true) : isRound c = true ↔ 5 ≤ c.toNat - 48 := by
  have hd := (isdigit_iff c).mp h
  rw [isRound, Bool.and_eq_true, decide_eq_true_iff, decide_eq_true_iff, UInt8.le_iff_toNat_le, UInt8.le_iff_toNat_le,
    show (ch '5').toNat = 53 from rfl, show (ch '9').toNat = 57 from rfl]
  omega

theorem dropsHigh_iff (p : Ptr) :
    DropsHigh p ↔ 10 ^ (dropped (signEnd p)).length ≤ 2 * numVal (dropped (signEnd p)) := by
  have hdigit : ∀ c ∈ dropped (signEnd p), isdigit c = true := fun c hc => isdigit_of_mem_dropped hc
  unfold DropsHigh
  cases hd : dropped (signEnd p) with
  | nil => decide
  | cons c t =>
      rw [hd] at hdigit
      have hc := hdigit c List.mem_cons_self
      have ht := numVal_lt fun b hb => hdigit b (List.mem_cons_of_mem _ hb)
      rw [List.headD_cons, isRound_iff hc, List.length_cons, ← List.singleton_append, numVal_append, numVal_singleton,
        pow_succ]
      constructor
      · intro h5
        have hmul := Nat.mul_le_mul_right (10 ^ t.length) h5
        omega
      · intro hhalf
        by_contra h5
        have hmul := Nat.mul_le_mul_right (10 ^ t.length) (show c.toNat - 48 ≤ 4 by omega)
        omega

/-! ## The multiple of the unit -/

/-- The fraction of the unit that goes. -/
def fracOf (p : Ptr) : ℚ := numVal (dropped (signEnd p)) / 10 ^ (dropped (signEnd p)).length

theorem fracOf_nonneg (p : Ptr) : 0 ≤ fracOf p := by
  unfold fracOf
  positivity

theorem fracOf_lt_one (p : Ptr) : fracOf p < 1 := by
  have hlt := numVal_lt fun c (hc : c ∈ dropped (signEnd p)) => isdigit_of_mem_dropped hc
  rw [fracOf, div_lt_one (by positivity)]
  exact_mod_cast hlt

theorem half_le_fracOf_iff (p : Ptr) : 1 / 2 ≤ fracOf p ↔ DropsHigh p := by
  rw [dropsHigh_iff, fracOf, le_div_iff₀ (by positivity), ← Nat.cast_le (α := ℚ)]
  push_cast
  constructor <;> intro h <;> linarith

/-- **The multiple of the unit** that a text is rounded to. -/
theorem roundsTo_iff {p : Ptr} {d : Dec} (hneg : d.neg = isNeg p) (hexpo : d.expo = expoOf (signEnd p)) :
    RoundsTo p d.val ↔ d.coef = numVal (kept (signEnd p)) + if DropsHigh p then 1 else 0 := by
  have hunit : (0 : ℚ) < 10 ^ expoOf (signEnd p) := by positivity
  have htext : textVal p = (if isNeg p then -1 else 1) * (numVal (kept (signEnd p)) + fracOf p) *
      10 ^ expoOf (signEnd p) := textVal_eq p
  have hsign : |(if isNeg p then -1 else 1 : ℚ)| = 1 := by cases isNeg p <;> simp
  have hpos : (0 : ℚ) ≤ numVal (kept (signEnd p)) + fracOf p := add_nonneg (Nat.cast_nonneg _) (fracOf_nonneg p)
  have hfar : |d.val - textVal p| = |(d.coef : ℚ) - (numVal (kept (signEnd p)) + fracOf p)| * 10 ^ expoOf (signEnd p) := by
    rw [htext, Dec.val, hneg, hexpo, ← sub_mul, ← mul_sub, abs_mul, abs_mul, hsign, one_mul, abs_of_pos hunit]
  have habs : |textVal p| = (numVal (kept (signEnd p)) + fracOf p) * 10 ^ expoOf (signEnd p) := by
    rw [htext, abs_mul, abs_mul, hsign, one_mul, abs_of_pos hunit, abs_of_nonneg hpos]
  have hnear : |d.val - textVal p| ≤ 10 ^ expoOf (signEnd p) / 2 ↔
      |(d.coef : ℚ) - (numVal (kept (signEnd p)) + fracOf p)| ≤ 1 / 2 := by
    rw [hfar, div_eq_inv_mul, mul_le_mul_iff_left₀ hunit, one_div]
  have haway : |textVal p| ≤ |d.val| ↔ numVal (kept (signEnd p)) + fracOf p ≤ d.coef := by
    rw [habs, d.abs_val, hexpo, mul_le_mul_iff_left₀ hunit]
  have hiff := near_away_iff (c := d.coef) (n := numVal (kept (signEnd p))) (fracOf_nonneg p) (fracOf_lt_one p)
  simp only [half_le_fracOf_iff] at hiff
  rw [← hiff]
  constructor
  · exact fun h => ⟨hnear.mp h.near, fun hd => haway.mp (h.away hd)⟩
  · rintro ⟨hn, ha⟩
    refine ⟨hnear.mpr hn, fun hd => haway.mpr (ha hd), fun hz => ?_⟩
    have h0 := numVal_dropped_zeros hz
    have hcoef := hiff.mp ⟨hn, ha⟩
    rw [if_neg (by rw [dropsHigh_iff, h0]; exact Nat.not_le.mpr (by positivity))] at hcoef
    rw [htext, Dec.val, hneg, hexpo, hcoef, fracOf, h0]
    simp

/-! ## The parser -/

/-- The text with the opposite sign. -/
def flip (p : Ptr) : Ptr := (if isNeg p then ch '+' else ch '-') :: signEnd p

theorem flip_spec (p : Ptr) : signEnd (flip p) = signEnd p ∧ isNeg (flip p) = !isNeg p ∧ numEnd (flip p) = numEnd p := by
  have hsign : signEnd (flip p) = signEnd p := by
    unfold flip
    cases isNeg p <;> rfl
  refine ⟨hsign, ?_, by rw [numEnd, hsign, numEnd]⟩
  unfold flip
  cases isNeg p <;> rfl

/-- **The decimal parsed.** -/
theorem strtobid64At_dec {fuel : ℕ} {p : Ptr} {x : Decimal64} {on : Ptr} (h : numEnd p ≠ [])
    (hint : (intDigits (signEnd p)).length ≤ 384) (hx : strtobid64At fuel p = .ok (x, on)) :
    on = numEnd p ∧ ∃ (d : Dec) (c : ℕ), x.toNat = bid d ∧ d.neg = isNeg p ∧ d.expo = expoOf (signEnd p) ∧
      d.coef = c % 10 ^ 15 ∧ Left p c := by
  obtain ⟨b, hb, hx⟩ := bind_ok.mp hx
  obtain ⟨hx, hon⟩ := Prod.mk.inj (Except.ok.inj hx)
  obtain ⟨hexpo, hsign, hend, c, hleft, hmant⟩ := strtobcd64At_val h hb
  have hbounds := expoOf_bounds hint
  obtain ⟨d, hd, hneg, hcoef, he⟩ := bcd64tobid_dec hmant hsign (by rw [hexpo]; omega) (by rw [hexpo]; exact hbounds.2)
  exact ⟨hon.symm.trans hend, d, c, by rw [← hx]; exact hd, hneg, he.trans hexpo, hcoef, hleft⟩

/-- A number that is rightly rounded up: not negative, and one more than what is kept has no more than eight
digits before its trailing zeros. -/
def UpRight (p : Ptr) : Prop :=
  isNeg p = false ∧ roundsUp (signEnd p) = true ∧ numVal (kept (signEnd p)) + 1 < 10 ^ 15 ∧
    ∃ k < 15, 10 ^ k ∣ numVal (kept (signEnd p)) + 1 ∧ numVal (kept (signEnd p)) + 1 ≤ 10 ^ (k + 8)

instance : DecidablePred UpRight := fun _ => inferInstanceAs (Decidable (_ ∧ _))

theorem StopsAt.succ_eq {k n : ℕ} (h : StopsAt false k n) : n + 1 = (n / 10 ^ k + 1) * 10 ^ k := by
  have hover := h.passed
  clear h
  induction k with
  | zero => rw [pow_zero, Nat.div_one, Nat.mul_one]
  | succ k ih =>
      have h9 : n / 10 ^ k % 10 = 9 := hover k (Nat.lt_succ_self k)
      have hdiv : n / 10 ^ k + 1 = (n / 10 ^ (k + 1) + 1) * 10 := by
        rw [pow_succ, ← Nat.div_div_eq_div_mul]
        omega
      rw [ih fun i hi => hover i (hi.trans (Nat.lt_succ_self k)), hdiv, pow_succ']
      ring

/-- **Where a carry is right.** -/
theorem StopsAt.up_iff {k n : ℕ} (h : StopsAt false k n) (hn : n < 10 ^ 15) :
    roundedAt false k n % 10 ^ 15 = n + 1 ↔ n + 1 < 10 ^ 15 ∧ ∃ k < 15, 10 ^ k ∣ n + 1 ∧ n + 1 ≤ 10 ^ (k + 8) := by
  have hsucc := h.succ_eq
  have hpos : 0 < 10 ^ k := by positivity
  have h9 : n / 10 ^ k % 10 ≠ 9 := h.stop
  have hround : roundedAt false k n = n + 1 ↔ n / 10 ^ k < 10 ^ 8 := by
    rw [hsucc]
    change (n / 10 ^ k % 10 ^ 8 + 1) * 10 ^ k = _ ↔ _
    rw [Nat.mul_left_inj hpos.ne']
    generalize n / 10 ^ k = a
    omega
  have hle8 : n + 1 ≤ 10 ^ (k + 8) ↔ n / 10 ^ k < 10 ^ 8 := by
    conv_lhs => rw [hsucc, pow_add, mul_comm (10 ^ k) (10 ^ 8)]
    rw [mul_le_mul_iff_left₀ hpos, Nat.succ_le_iff]
  have hlt15 : n + 1 < 10 ^ 15 → k < 15 ∧ roundedAt false k n % 10 ^ 15 = roundedAt false k n := by
    intro hlt
    have hk : k ≠ 15 := by
      rintro rfl
      rw [hsucc] at hlt
      exact absurd hlt (Nat.not_lt.mpr (Nat.le_mul_of_pos_left _ (Nat.succ_pos _)))
    exact ⟨lt_of_le_of_ne (h.le hn).1 hk, Nat.mod_eq_of_lt ((h.rounded_lt_iff hn).mpr fun hc => hk hc.2)⟩
  constructor
  · intro heq
    have hlt : n + 1 < 10 ^ 15 := heq ▸ Nat.mod_lt _ (by decide)
    obtain ⟨hk, hmod⟩ := hlt15 hlt
    exact ⟨hlt, k, hk, ⟨_, hsucc.trans (mul_comm _ _)⟩, hle8.mpr (hround.mp (hmod.symm.trans heq))⟩
  · rintro ⟨hlt, j, -, hdvd, hle⟩
    have hjk : j ≤ k := by
      by_contra hjk
      have hten : 10 ^ k * 10 ∣ 10 ^ k * (n / 10 ^ k + 1) := by
        rw [← pow_succ, mul_comm (10 ^ k), ← hsucc]
        exact (pow_dvd_pow 10 (by omega)).trans hdvd
      have := Nat.dvd_of_mul_dvd_mul_left hpos hten
      omega
    rw [(hlt15 hlt).2, hround, ← hle8]
    exact hle.trans (Nat.pow_le_pow_right (by decide) (by omega))

section Parse
variable {fuel : ℕ} {p : Ptr} {x : Decimal64} {on : Ptr} (h : numEnd p ≠ [])
  (hint : (intDigits (signEnd p)).length ≤ 384)
include h hint

/-- **The number parsed is the number rounded** where nothing is rounded up, or rightly. -/
theorem roundsTo_parsed_iff (hx : strtobid64At fuel p = .ok (x, on)) :
    RoundsTo p x.val ↔ ¬ DropsHigh p ∨ UpRight p := by
  obtain ⟨-, d, c, hd, hneg, hexpo, hcoef, hleft⟩ := strtobid64At_dec h hint hx
  have hn := numVal_kept_lt (signEnd p)
  rw [val_bid hd, roundsTo_iff hneg hexpo, hcoef]
  rcases hleft with ⟨hup, rfl⟩ | ⟨hup, k, hstop, rfl⟩
  · -- as it is kept
    have hnot : ¬ UpRight p := fun hr => by
      rw [hr.2.1] at hup
      cases hup
    rw [Nat.mod_eq_of_lt hn, or_iff_left hnot]
    split_ifs with hhigh
    · exact iff_of_false (by omega) (not_not.mpr hhigh)
    · exact iff_of_true rfl hhigh
  · have hhigh : DropsHigh p := isRound_of_roundsUp hup
    rw [if_pos hhigh, or_iff_right (not_not.mpr hhigh), UpRight, and_iff_right hup]
    cases hsign : isNeg p with
    | true =>
        -- a negative number comes nearer to zero
        have hle : roundedAt true k (numVal (kept (signEnd p))) ≤ numVal (kept (signEnd p)) := roundedAt_le true k _
        refine iff_of_false (fun heq => ?_) fun hc => by cases hc.1
        have hmod := Nat.mod_le (roundedAt true k (numVal (kept (signEnd p)))) (10 ^ 15)
        omega
    | false =>
        rw [hsign] at hstop
        rw [hstop.up_iff hn, and_iff_right rfl]

/-- **Texts rounded rightly**: a number whose first digit dropped is below five, or one that is `UpRight`; with
either sign, the first kind only. The scanner stops at the end of the number. -/
theorem strtobid64_rounds (hx : strtobid64At fuel p = .ok (x, on)) :
    on = numEnd p ∧ (RoundsTo p x.val ↔ ¬ DropsHigh p ∨ UpRight p) ∧
      (RoundsTo p x.val ∧ (∃ fuel' y, strtobid64At fuel' (flip p) = .ok (y, on) ∧ y.val = -x.val) ↔ ¬ DropsHigh p) := by
  have hround := roundsTo_parsed_iff h hint hx
  obtain ⟨hon, d, c, hd, hneg, hexpo, hcoef, hleft⟩ := strtobid64At_dec h hint hx
  obtain ⟨hfs, hfn, hfe⟩ := flip_spec p
  have hfh : numEnd (flip p) ≠ [] := by rwa [hfe]
  have hfint : (intDigits (signEnd (flip p))).length ≤ 384 := by rwa [hfs]
  refine ⟨hon, hround, ?_⟩
  constructor
  · rintro ⟨hrto, fuel', y, hy, hval⟩ hhigh
    have hur := (hround.mp hrto).resolve_left (not_not.mpr hhigh)
    rw [val_bid hd, roundsTo_iff hneg hexpo, if_pos hhigh] at hrto
    -- the negative one comes nearer to zero
    obtain ⟨-, d', c', hd', hneg', hexpo', hcoef', hleft'⟩ := strtobid64At_dec hfh hfint hy
    rw [Left, hfs, hfn, hur.1, hur.2.1] at hleft'
    obtain ⟨k, -, rfl⟩ := (hleft'.resolve_left fun hc => by cases hc.1).2
    have hle : roundedAt true k (numVal (kept (signEnd p))) ≤ numVal (kept (signEnd p)) := roundedAt_le true k _
    have hmod := Nat.mod_le (roundedAt true k (numVal (kept (signEnd p)))) (10 ^ 15)
    have hsame : d'.coef = d.coef := by
      have hunit : (10 : ℚ) ^ expoOf (signEnd p) ≠ 0 := by positivity
      have habs := congrArg abs hval
      rw [abs_neg, val_bid hd, val_bid hd', d.abs_val, d'.abs_val, hexpo, hexpo', hfs, mul_left_inj' hunit] at habs
      exact_mod_cast habs
    have hcoef'' : d'.coef = roundedAt true k (numVal (kept (signEnd p))) % 10 ^ 15 := hcoef'
    omega
  · intro hlow
    have hup : roundsUp (signEnd p) = false := by
      by_contra hc
      exact hlow (isRound_of_roundsUp (Bool.not_eq_false _ ▸ hc))
    obtain ⟨y, d', hy, hd', hneg', hcoef', hexpo'⟩ := strtod64_exact hfh (by rwa [hfs]) hfint
    refine ⟨hround.mpr (.inl hlow), 17, y, ?_, ?_⟩
    · rw [hon, ← hfe]
      exact hy
    · have hcoefs : d.coef = numVal (kept (signEnd p)) := by
        have hc := (hleft.resolve_right fun hc => by rw [hup] at hc; cases hc.1).2
        rw [hcoef, hc, Nat.mod_eq_of_lt (numVal_kept_lt _)]
      rw [val_bid hd, val_bid hd', Dec.val, Dec.val, hneg, hneg', hcoefs, hcoef', hexpo, hexpo', hfs, hfn]
      cases isNeg p <;> simp

end Parse

/-- One and a half is not rounded. -/
theorem strtobid64_rounds_half :
    bytes ['\n'] = numEnd (bytes ['1', '.', '5', '\n']) ∧
      (RoundsTo (bytes ['1', '.', '5', '\n']) (Decimal64.val 0x31a000000000000f) ↔
        ¬ DropsHigh (bytes ['1', '.', '5', '\n']) ∨ UpRight (bytes ['1', '.', '5', '\n'])) ∧
      (RoundsTo (bytes ['1', '.', '5', '\n']) (Decimal64.val 0x31a000000000000f) ∧
        (∃ fuel' y, strtobid64At fuel' (flip (bytes ['1', '.', '5', '\n'])) = .ok (y, bytes ['\n']) ∧
          y.val = -Decimal64.val 0x31a000000000000f) ↔ ¬ DropsHigh (bytes ['1', '.', '5', '\n'])) :=
  strtobid64_rounds (show numEnd (bytes ['1', '.', '5', '\n']) ≠ [] by decide) (by decide)
    (show strtobid64At 17 (bytes ['1', '.', '5', '\n']) = .ok (0x31a000000000000f, bytes ['\n']) by decide +kernel)

/-- Sixteen digits, six of them behind the point. -/
def sixteenText : Ptr :=
  bytes ['1', '2', '3', '4', '5', '6', '7', '8', '9', '0', '.', '1', '2', '3', '4', '5', '6', '\n']

/-- **Rounded up, the first seven digits are gone.** -/
theorem strtobid64_sixteen : ¬ ∀ (fuel : ℕ) (p : Ptr) (x : Decimal64) (on : Ptr), numEnd p ≠ [] →
    (intDigits (signEnd p)).length ≤ 384 → strtobid64At fuel p = .ok (x, on) →
    on = numEnd p ∧ RoundsTo p x.val ∧
      ∃ fuel' y, strtobid64At fuel' (flip p) = .ok (y, on) ∧ y.val = -x.val := by
  intro h
  have hend : numEnd sixteenText ≠ [] := by decide
  have hint : (intDigits (signEnd sixteenText)).length ≤ 384 := by decide
  have hparse : strtobid64At 17 sixteenText = .ok (0x31200000054e387a, bytes ['\n']) := by decide +kernel
  have hrounds := (h 17 sixteenText _ _ hend hint hparse).2.1
  rw [roundsTo_parsed_iff hend hint hparse] at hrounds
  exact absurd hrounds (by decide +kernel)

end Unserlob
