import Unserlob.D64.Text

/-!
# Decimals survive the wire

* `Decimal64.wire`: the decimals that print with at most fifteen digits and no trailing zeros;
* `strtod64_numText`: what the parser makes of such a text;
* **`strtod64_d64Text`**: parsing the text of a wire decimal gives the decimal back, up to the sign
  and exponent of zero, and stops where the text ends;
* `strtod64_stop`: a column that does not start a number is left alone, as `nan` is.
-/

namespace Unserlob

open Ascii Cursor

/-- Coefficient below `10 ^ 15` and exponent between `-15` and `0`. -/
structure Decimal64.wire (x : Decimal64) : Prop where
  finite : x.finite
  mant : (mantBid64 x).toNat < 10 ^ 15
  expo_ge : -15 ≤ quantexpbid64 x
  expo_le : quantexpbid64 x ≤ 0

theorem Decimal64.wire.not_special {x : Decimal64} (h : x.wire) : ¬ special x := fun hs => by
  have hm := h.mant
  rw [toNat_mantBid64_special hs] at hm
  omega

/-! ## Assembled zeros -/

section Zero

variable {e : ℤ}

theorem toNat_ofInt_expo (h : -15 ≤ e) (h0 : e ≤ 0) :
    (BitVec.ofInt 64 (e + 398)).toNat = (e + 398).toNat := by
  rw [BitVec.toNat_ofInt]; omega

/-- The word assembled from a coefficient, an exponent and a sign. -/
def assembled (m : ℕ) (e : ℤ) (neg : Bool) : Decimal64 :=
  assembleBid (BitVec.ofNat 64 m) (BitVec.ofInt 64 (e + 398)) (BitVec.ofInt 64 (if neg then 1 else 0))

variable {m : ℕ} (hm : m < 10 ^ 15) (h : -15 ≤ e) (h0 : e ≤ 0) (neg : Bool)

include hm h h0

theorem toNat_assembled : (assembled m e neg).toNat =
    (if neg then 1 else 0) * 2 ^ 63 + (e + 398).toNat * 2 ^ 53 + m := by
  have hmn : (BitVec.ofNat 64 m).toNat = m := by
    rw [BitVec.toNat_ofNat, Nat.mod_eq_of_lt (by omega)]
  have hs : (BitVec.ofInt 64 (if neg then 1 else 0)).toNat % 2 = if neg then 1 else 0 := by
    cases neg <;> rfl
  rw [assembled, toNat_assembleBid (by omega) (by rw [toNat_ofInt_expo h h0]; omega), hmn, hs,
    toNat_ofInt_expo h h0]

theorem not_special_assembled : ¬ special (assembled m e neg) := by
  rw [special_iff, toNat_assembled hm h h0]
  cases neg <;> simp <;> omega

theorem mant_assembled : (mantBid64 (assembled m e neg)).toNat = m := by
  rw [toNat_mantBid64_plain (not_special_assembled hm h h0 neg), toNat_assembled hm h h0]
  cases neg <;> simp <;> omega

theorem quantexp_assembled : quantexpbid64 (assembled m e neg) = e := by
  have hne : assembled m e neg ≠ 0 := fun hc => by
    have hz := congrArg BitVec.toNat hc
    rw [toNat_assembled hm h h0] at hz
    change _ = 0 at hz
    omega
  rw [quantexpbid64_plain (not_special_assembled hm h h0 neg) hne, toNat_assembled hm h h0]
  cases neg <;> simp <;> omega

theorem wire_assembled : (assembled m e neg).wire where
  finite := finite_of_not_special (not_special_assembled hm h h0 neg)
  mant := by rw [mant_assembled hm h h0]; exact hm
  expo_ge := by rw [quantexp_assembled hm h h0]; exact h
  expo_le := by rw [quantexp_assembled hm h h0]; exact h0

end Zero

/-! ## Parsing a text -/

/-- The unsigned part of a text. -/
def body (m : ℕ) (e : ℤ) : List UInt8 :=
  if e < 0 then decimal (m / 10 ^ (-e).toNat) ++ ch '.' :: fixedDigits (-e).toNat m
  else decimal m ++ List.replicate e.toNat (ch '0')

theorem numText_eq (neg : Bool) (m : ℕ) (e : ℤ) :
    numText neg m e = (if neg then [ch '-'] else []) ++ body m e := rfl

theorem body_cons (m : ℕ) (e : ℤ) : ∃ c t, body m e = c :: t ∧ isdigit c = true := by
  have h : ∀ q (t : List UInt8), ∃ c t', decimal q ++ t = c :: t' ∧ isdigit c = true := by
    intro q t
    cases hd : decimal q with
    | nil => exact absurd hd (decimal_ne_nil q)
    | cons c ds =>
        exact ⟨c, ds ++ t, rfl, isdigit_of_mem_decimal (n := q) (by rw [hd]; exact List.mem_cons_self)⟩
  unfold body
  split_ifs
  · exact h _ _
  · exact h _ _

section Parse

variable {m : ℕ} {e : ℤ} {c : UInt8}

theorem digits64_body (hm : m < 10 ^ 15) (h : -15 ≤ e) (h0 : e ≤ 0) (hc : stops c) (r : Ptr) :
    ∃ mant, digits64 (body m e ++ c :: r) = .ok ((mant, false, e), c :: r) ∧
      mant.toNat = bcd m := by
  by_cases he : e < 0
  · obtain ⟨mant, hd, hv⟩ := digits64_fixed hm (n := (-e).toNat) (by omega) (by omega) hc r
    refine ⟨mant, ?_, hv⟩
    rw [body, if_pos he, List.append_assoc, List.cons_append, hd]
    rw [show (-((-e).toNat : ℤ)) = e by omega]
  · have h00 : e = 0 := by omega
    subst h00
    obtain ⟨mant, hd, hv⟩ := digits64_decimal hm hc r
    refine ⟨mant, ?_, hv⟩
    rw [body, if_neg he]
    simpa using hd

/-- **Parsing a text.** -/
theorem strtod64_numText (hm : m < 10 ^ 15) (h : -15 ≤ e) (h0 : e ≤ 0) (hc : stops c) (neg : Bool)
    (r : Ptr) : strtod64 (numText neg m e ++ c :: r) = .ok (assembled m e neg, c :: r) := by
  obtain ⟨mant, hd, hv⟩ := digits64_body hm h h0 hc r
  have hs : signOf (numText neg m e ++ c :: r) = .ok (neg, body m e ++ c :: r) := by
    rw [numText_eq]
    cases neg
    · obtain ⟨d, t, hb, hdig⟩ := body_cons m e
      rw [hb]
      exact signOf_digits hdig
    · rfl
  have hb := bcd64tobid_eq hm hv e (if neg then 1 else 0)
  simp only [strtod64, strtobcd64, bind, Except.bind, hs, hd, Bool.false_eq_true, if_false, pure,
    Except.pure]
  rw [hb, assembled]

/-- The sign printed: zeros have none. -/
def printedSign (x : Decimal64) : Bool := mantBid64 x ≠ 0 ∧ signBid64 x ≠ 0

theorem d64Text_of_finite {x : Decimal64} (hx : x.finite) (hm : (mantBid64 x).toNat < 10 ^ 15) :
    d64Text x = numText (printedSign x) (mantBid64 x).toNat (quantexpbid64 x) := by
  rw [d64Text, if_neg hx.1, if_neg hx.2, finText, Nat.mod_eq_of_lt (hm.trans (by decide)), printedSign]

theorem d64Text_of_wire {x : Decimal64} (hx : x.wire) :
    d64Text x = numText (printedSign x) (mantBid64 x).toNat (quantexpbid64 x) := d64Text_of_finite hx.finite hx.mant

theorem assembled_of_ne {x : Decimal64} (hx : x.wire) (hne : x ≠ 0) (h0 : mantBid64 x = 0 → signBid64 x = 0) :
    assembled (mantBid64 x).toNat (quantexpbid64 x) (printedSign x) = x := by
  have hsp := hx.not_special
  have hsign : printedSign x = decide (2 ^ 63 ≤ x.toNat) := by
    rw [signBid64_eq] at h0
    rw [printedSign, decide_eq_decide, signBid64_eq]
    by_cases hs : 2 ^ 63 ≤ x.toNat
    · rw [if_pos hs] at h0 ⊢
      exact ⟨fun _ => hs, fun _ => ⟨fun hm => absurd (h0 hm) (by decide), by decide⟩⟩
    · rw [if_neg hs]
      exact ⟨fun hn => absurd rfl hn.2, fun hp => absurd hp hs⟩
  have hx64 := x.isLt
  have hmt := toNat_mantBid64_plain hsp
  have het := quantexpbid64_plain hsp hne
  rw [← BitVec.toNat_inj, toNat_assembled hx.mant hx.expo_ge hx.expo_le, hsign]
  by_cases hs : 2 ^ 63 ≤ x.toNat
  · simp only [hs, decide_true, if_true]
    omega
  · simp only [hs, decide_false, Bool.false_eq_true, if_false]
    omega

theorem assembled_of_wire {x : Decimal64} (hx : x.wire) (hm : mantBid64 x ≠ 0) :
    assembled (mantBid64 x).toNat (quantexpbid64 x) (printedSign x) = x :=
  assembled_of_ne hx (fun hc => hm (by rw [hc]; rfl)) fun h => absurd h hm

/-- **The text of a wire decimal parses to the decimal.** -/
theorem strtod64_d64Text {x : Decimal64} (hx : x.wire) (hc : stops c) (r : Ptr) :
    ∃ y : Decimal64, strtod64 (d64Text x ++ c :: r) = .ok (y, c :: r) ∧ y.wire ∧
      y.val = x.val := by
  refine ⟨assembled (mantBid64 x).toNat (quantexpbid64 x) (printedSign x), ?_,
    wire_assembled hx.mant hx.expo_ge hx.expo_le _, ?_⟩
  · rw [d64Text_of_wire hx]
    exact strtod64_numText hx.mant hx.expo_ge hx.expo_le hc _ r
  · by_cases h0 : mantBid64 x = 0
    · rw [Decimal64.val_of_mant h0]
      apply Decimal64.val_of_mant
      rw [← BitVec.toNat_inj, mant_assembled hx.mant hx.expo_ge hx.expo_le, h0]
    · rw [assembled_of_wire hx h0]

end Parse

/-- **A column that is no number is left alone.** -/
theorem strtod64_stop {c : UInt8} (hc : stops c) (h1 : c ≠ ch '-') (h2 : c ≠ ch '+') (r : Ptr) :
    ∃ y, strtod64 (c :: r) = .ok (y, c :: r) := by
  have h0 : skipWhile (· == ch '0') (c :: r) = .ok (0, c :: r) := by
    refine skipWhile_append (w := []) (by simp) ?_ r
    by_contra h
    rw [Bool.not_eq_false, beq_iff_eq] at h
    subst h
    exact absurd hc.1 (by decide)
  have hds : ∀ d ∈ ([] : List ℕ), d < 10 := by simp
  have hp : pick 15 0 (c :: r) = .ok ((15, 0), c :: r) :=
    pick_append hds (Nat.zero_le _) 0 (Or.inl hc.1) r
  refine ⟨bcd64tobid ⟨0, 0, 0⟩, ?_⟩
  simp only [strtod64, strtobcd64, signOf, digits64, fraction, bind, Except.bind, deref, if_neg h1,
    if_neg h2, pure, Except.pure, h0, hp, skip_of_stop hc.1, isRound_of_not_isdigit hc.1, hc.2,
    false_and, if_false, Bool.false_eq_true]
  rfl

end Unserlob
