import Unserlob.D64.Agree
import Unserlob.D64.Nearest

/-!
# Texts and values

* `bcd64tobid_dec`, `val_bid`: the word of a parsed number, and its value;
* **`strtod64_exact`**: nothing is rounded where the first digit dropped is below five;
* `strtod64_zeros`: whole numbers with zeros behind them;
* **`strtod64_d64Bytes`**: what is printed is parsed again.
-/

namespace Unserlob

open Ascii Cursor Decimal

/-! ## What the parser returns -/

/-- **The word** of a number with a sign, digits and an exponent in range. -/
theorem bcd64tobid_dec {b : Bcd64} {c : ℕ} (hm : b.mant.toNat = Radix.recode 10 16 16 c) {neg : Bool}
    (hs : b.sign = if neg then 1 else 0) (he : -398 ≤ b.expo) (he' : b.expo ≤ 369) :
    ∃ d : Dec, (bcd64tobid b).toNat = bid d ∧ d.neg = neg ∧ d.coef = c % 10 ^ 15 ∧ d.expo = b.expo := by
  have hlt : c % 10 ^ 15 < 10 ^ 15 := Nat.mod_lt _ (by decide)
  refine ⟨⟨neg, c % 10 ^ 15, b.expo, hlt.trans (by decide), he, he'⟩, ?_, rfl, rfl, rfl⟩
  have hsign := signBit_lt neg
  have hmod : ((b.expo + 398) % 2048).toNat = (b.expo + 398).toNat := by omega
  rw [toNat_bcd64tobid hm hs, bid, if_pos (hlt.trans (by decide)), Dec.biased, hmod]
  dsimp only
  omega

/-- **The value** of the word of a decimal. -/
theorem val_bid {d : Dec} {x : Decimal64} (hx : x.toNat = bid d) : x.val = d.val := by
  have hcoef : x.coef = d.coef := by
    rw [Decimal64.coef, mantBid64_bid hx, if_pos d.coef_lt]
  rw [Decimal64.val, Dec.val, hcoef, signBid64_bid hx]
  rcases coef_zero_or_quantexp hx with h0 | hexp
  · rw [h0]
    simp
  · rw [hexp]
    cases d.neg <;> rfl

/-- **Nothing is rounded** where the first digit dropped is below five. -/
theorem strtod64_exact {p : Ptr} (h : numEnd p ≠ []) (hr : roundsUp (signEnd p) = false)
    (hint : (intDigits (signEnd p)).length ≤ 384) :
    ∃ (x : Decimal64) (d : Dec), strtod64 p = .ok (x, numEnd p) ∧ x.toNat = bid d ∧ d.neg = isNeg p ∧
      d.coef = numVal (kept (signEnd p)) ∧ d.expo = expoOf (signEnd p) := by
  have hbounds := expoOf_bounds hint
  have hparse := strtobcd64At_eq 17 h
  rw [hr, if_neg Bool.false_ne_true, strtobcd64_at] at hparse
  obtain ⟨d, hd, hneg, hcoef, hexpo⟩ := bcd64tobid_dec
    (b := ⟨keptWord (signEnd p), expoOf (signEnd p), if isNeg p then 1 else 0⟩) (toNat_keptWord _) rfl
    (by dsimp only; omega) hbounds.2
  rw [Nat.mod_eq_of_lt (numVal_kept_lt _)] at hcoef
  refine ⟨_, d, ?_, hd, hneg, hcoef, hexpo⟩
  rw [strtod64, hparse]
  rfl

/-! ## Whole numbers and what is behind them -/

section Whole
variable {w : List UInt8} {c : UInt8} (r : Ptr)

variable (hw : ∀ d ∈ w, isdigit d = true) (hc : stops c)
include hw hc

theorem intDigits_whole : intDigits (w ++ c :: r) = w.dropWhile (· == ch '0') := by
  have hc0 : (c == ch '0') = false := by
    by_contra h
    rw [Bool.not_eq_false, beq_iff_eq] at h
    subst h
    exact absurd hc.1 (by decide)
  have hdigits : ∀ d ∈ w.dropWhile (· == ch '0'), isdigit d = true := fun d hd =>
    hw d ((List.dropWhile_sublist _).subset hd)
  rw [intDigits, dropWhile_append_stop (f := (· == ch '0')) w hc0, List.takeWhile_append_of_pos hdigits,
    List.takeWhile_cons_of_neg (by simp [hc.1]), List.append_nil]

theorem dropWhile_whole : (w ++ c :: r).dropWhile isdigit = c :: r := by
  rw [List.dropWhile_append_of_pos hw, List.dropWhile_cons_of_neg (by simp [hc.1])]

theorem fracDigits_whole : fracDigits (w ++ c :: r) = [] := by
  unfold fracDigits
  rw [dropWhile_whole r hw hc]
  exact if_neg hc.2

theorem dropped_whole : dropped (w ++ c :: r) = (w.dropWhile (· == ch '0')).drop 15 := by
  rw [dropped, intDigits_whole r hw hc, fracDigits_whole r hw hc, List.drop_nil, List.append_nil]

theorem roundsUp_whole : roundsUp (w ++ c :: r) = isRound ((dropped (w ++ c :: r)).headD 0) := by
  rw [roundsUp, dropped_whole r hw hc, intDigits_whole r hw hc, fracDigits_whole r hw hc, List.drop_nil]
  change (_ || (_ && isRound 0)) = _
  rw [show isRound 0 = false by decide, Bool.and_false, Bool.or_false]

/-- **The end of a whole number**, a sign before it. -/
theorem numEnd_whole (neg : Bool) (hne : w ≠ []) : signEnd ((if neg then [ch '-'] else []) ++ (w ++ c :: r)) = w ++ c :: r ∧
    isNeg ((if neg then [ch '-'] else []) ++ (w ++ c :: r)) = neg ∧
    numEnd ((if neg then [ch '-'] else []) ++ (w ++ c :: r)) = c :: r := by
  have hsign : signEnd ((if neg then [ch '-'] else []) ++ (w ++ c :: r)) = w ++ c :: r ∧
      isNeg ((if neg then [ch '-'] else []) ++ (w ++ c :: r)) = neg := by
    cases neg with
    | true => exact ⟨rfl, rfl⟩
    | false =>
        obtain ⟨d, t, rfl⟩ := List.exists_cons_of_ne_nil hne
        have hd := hw d List.mem_cons_self
        have h1 : d ≠ ch '-' := by
          rintro rfl
          exact absurd hd (by decide)
        have h2 : d ≠ ch '+' := by
          rintro rfl
          exact absurd hd (by decide)
        exact ⟨if_neg (not_or.mpr ⟨h1, h2⟩), decide_eq_false fun h => h1 (Option.some.inj h)⟩
  refine ⟨hsign.1, hsign.2, ?_⟩
  rw [numEnd, hsign.1, dropWhile_whole r hw hc]
  exact if_neg hc.2

end Whole

/-! ## What is printed is parsed again -/

/-- **Trailing zeros** beyond the fifteen digits kept are counted in the exponent. -/
theorem strtod64_zeros {m n : ℕ} (hm : m < 10 ^ 15) (hn : n ≤ 15) {c : UInt8} (hc : stops c) (neg : Bool) (r : Ptr) :
    ∃ (y : Decimal64) (d : Dec), strtod64 (numText neg m n ++ c :: r) = .ok (y, c :: r) ∧ y.toNat = bid d ∧
      d.neg = neg ∧ (d.coef : ℚ) * 10 ^ d.expo = m * 10 ^ n := by
  set w := decimal m ++ List.replicate n (ch '0') with hwdef
  have hw : ∀ d ∈ w, isdigit d = true := by
    intro d hd
    rcases List.mem_append.mp hd with hd | hd
    · exact isdigit_of_mem_decimal hd
    · rw [List.eq_of_mem_replicate hd]
      decide
  have hne : w ≠ [] := fun h => decimal_ne_nil m (List.append_eq_nil_iff.mp h).1
  have htext : numText neg m n ++ c :: r = (if neg then [ch '-'] else []) ++ (w ++ c :: r) := by
    rw [numText_eq, body, if_neg (show ¬ (n : ℤ) < 0 by omega), Int.toNat_natCast, List.append_assoc]
  obtain ⟨hsign, hneg, hend⟩ := numEnd_whole r hw hc neg hne
  -- zeros only are dropped
  have hlen : (w.dropWhile (· == ch '0')).length ≤ 15 + n := by
    refine (List.dropWhile_suffix _).length_le.trans ?_
    rw [hwdef, List.length_append, List.length_replicate]
    exact Nat.add_le_add_right (length_decimal_le (by decide) hm) n
  obtain ⟨k, hk⟩ : ∃ k, dropped (w ++ c :: r) = List.replicate k (ch '0') := by
    rw [dropped_whole r hw hc]
    have hsuffix := (List.drop_suffix 15 _).trans (List.dropWhile_suffix (l := w) (· == ch '0'))
    have hzeros := List.suffix_of_suffix_length_le hsuffix (List.suffix_append _ (List.replicate n (ch '0'))) (by
      rw [List.length_drop, List.length_replicate]
      omega)
    exact ⟨_, List.eq_replicate_of_mem fun d hd => List.eq_of_mem_replicate (hzeros.subset hd)⟩
  have hround : roundsUp (w ++ c :: r) = false := by
    rw [roundsUp_whole r hw hc, hk]
    cases k <;> rfl
  have hint : (intDigits (w ++ c :: r)).length ≤ 384 := by
    rw [intDigits_whole r hw hc]
    omega
  rw [← hsign] at hround hint
  obtain ⟨y, d, hy, hd, hdn, hcoef, hexpo⟩ := strtod64_exact (by rw [hend]; exact List.cons_ne_nil _ _) hround hint
  rw [hend, ← htext] at hy
  rw [hneg] at hdn
  rw [hsign] at hcoef hexpo
  refine ⟨y, d, hy, hd, hdn, ?_⟩
  have hval : numVal (kept (w ++ c :: r)) * 10 ^ k = m * 10 ^ n := by
    have happ := congrArg numVal (kept_append_dropped (w ++ c :: r))
    rw [hk, fracDigits_whole r hw hc, List.append_nil, intDigits_whole r hw hc, numVal_dropWhile, numVal_append,
      numVal_zeros, hwdef, numVal_append, numVal_zeros, numVal_decimal, List.length_replicate, List.length_replicate] at happ
    exact happ
  rw [hcoef, hexpo, expoOf_eq, hk, fracDigits_whole r hw hc, List.length_replicate, List.length_nil, Nat.cast_zero,
    sub_zero, zpow_natCast]
  exact_mod_cast hval

theorem length_numText_lt {m : ℕ} (hm : m < 10 ^ 15) {e : ℤ} (h : -15 ≤ e) (h' : e ≤ 15) (neg : Bool) :
    (numText neg m e).length < 40 := by
  have hdec : ∀ q ≤ m, (decimal q).length ≤ 15 := fun q hq => length_decimal_le (by decide) (hq.trans_lt hm)
  have hsign : (if neg then [ch '-'] else []).length ≤ 1 := by cases neg <;> decide
  have hbody : (body m e).length ≤ 31 := by
    unfold body
    split_ifs
    · have := hdec _ (Nat.div_le_self m (10 ^ (-e).toNat))
      rw [List.length_append, List.length_cons, length_fixedDigits]
      omega
    · have := hdec m le_rfl
      rw [List.length_append, List.length_replicate]
      omega
  rw [numText_eq, List.length_append]
  omega

theorem val_printed {x : Decimal64} {d : Dec} (hm : (mantBid64 x).toNat < 10 ^ 15) (hneg : d.neg = printedSign x)
    (hval : (d.coef : ℚ) * 10 ^ d.expo = (mantBid64 x).toNat * 10 ^ quantexpbid64 x) : d.val = x.val := by
  by_cases h0 : mantBid64 x = 0
  · rw [Decimal64.val_of_mant h0, Dec.val, mul_assoc, hval, h0]
    simp
  · have hsign : (if d.neg then -1 else 1 : ℚ) = if signBid64 x ≠ 0 then -1 else 1 := by
      rw [hneg, printedSign]
      simp only [h0, ne_eq, not_false_eq_true, true_and, decide_eq_true_eq]
    rw [Dec.val, Decimal64.val, mul_assoc, mul_assoc, hsign, hval, Decimal64.coef, if_pos (hm.trans (by decide))]

/-- **What is printed is parsed again**, up to the end of the text: the same number, and up to the exponent zero
the same word, negative zeros and the all-zero word apart. -/
theorem strtod64_d64Bytes {x : Decimal64} (hfin : x.finite) (hm : (mantBid64 x).toNat < 10 ^ 15)
    (h : -15 ≤ quantexpbid64 x) (h' : quantexpbid64 x ≤ 15) {bsz : ℕ} (hb : 40 ≤ bsz) {c : UInt8} (hc : stops c)
    (r : Ptr) :
    ∃ y : Decimal64, strtod64 ((d64Bytes x bsz).1.take (d64Bytes x bsz).2 ++ c :: r) = .ok (y, c :: r) ∧
      y.num = x.num ∧
      (quantexpbid64 x ≤ 0 → x ≠ 0 → ¬ (mantBid64 x = 0 ∧ signBid64 x ≠ 0) → y = x) := by
  have htext := d64Text_of_finite hfin hm
  have hlen := length_numText_lt hm h h' (printedSign x)
  obtain ⟨hsz, e, hbytes, -⟩ := d64Bytes_fit (x := x) (r := bsz) (by rw [htext]; omega)
  have hprinted : (d64Bytes x bsz).1.take (d64Bytes x bsz).2 = d64Text x := by
    rw [hsz, hbytes, List.take_left']
    rfl
  rw [hprinted]
  rcases le_or_gt (quantexpbid64 x) 0 with h0 | h0
  · have hwire : x.wire := ⟨hfin, hm, h, h0⟩
    obtain ⟨y, hy, hyw, hval⟩ := strtod64_d64Text hwire hc r
    refine ⟨y, hy, ?_, ?_⟩
    · rw [Decimal64.num_of_finite hyw.finite, Decimal64.num_of_finite hfin, hval]
    · intro _ hne hzero
      have hparse := strtod64_numText hm h h0 hc (printedSign x) r
      rw [← htext, hy, assembled_of_ne hwire hne fun hm0 => by_contra fun hs => hzero ⟨hm0, hs⟩] at hparse
      exact (Prod.mk.inj (Except.ok.inj hparse)).1
  · have hexp : quantexpbid64 x = ((quantexpbid64 x).toNat : ℤ) := by omega
    obtain ⟨y, d, hy, hd, hneg, hval⟩ := strtod64_zeros hm (n := (quantexpbid64 x).toNat) (by omega) hc (printedSign x) r
    rw [← hexp, ← htext] at hy
    rw [← zpow_natCast, ← hexp] at hval
    refine ⟨y, hy, ?_, fun hle => absurd hle (by omega)⟩
    rw [Decimal64.num_of_finite (finite_bid hd), Decimal64.num_of_finite hfin, val_bid hd, val_printed hm hneg hval]

/-- Minus twenty-five tens. -/
theorem strtod64_d64Bytes_tens :
    ∃ y : Decimal64, strtod64 ((d64Bytes 0xb1e0000000000019 40).1.take (d64Bytes 0xb1e0000000000019 40).2 ++
        ch '\n' :: []) = .ok (y, ch '\n' :: []) ∧
      y.num = Decimal64.num 0xb1e0000000000019 ∧
      (quantexpbid64 0xb1e0000000000019 ≤ 0 → (0xb1e0000000000019 : Decimal64) ≠ 0 →
        ¬ (mantBid64 0xb1e0000000000019 = 0 ∧ signBid64 0xb1e0000000000019 ≠ 0) → y = 0xb1e0000000000019) :=
  strtod64_d64Bytes (by decide) (by decide) (by decide) (by decide) le_rfl (by decide) []

end Unserlob
