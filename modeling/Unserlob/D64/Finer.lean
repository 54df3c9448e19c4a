import Unserlob.D64.Nearest

/-!
# A finer quantum (`quantized64`)

* `quantum_fits`: what comes of a coefficient fits into a word again;
* `quantizebid64_down`: zeros are brought in without a change of the number;
* `quantizebid64_again`: quantising twice;
* **`quantizebid64_finer`**: both together.
-/

namespace Unserlob

open Decimal

theorem quantum_fits {c : ℕ} (hc : c < 2 ^ 53 + 2 ^ 51) (ex er : ℤ) : (quantum c ex er).1 < 2 ^ 53 + 2 ^ 51 :=
  quantum_lt_of (by decide) hc ex er

theorem quantum_zero (ex er : ℤ) : quantum 0 ex er = (0, er) := by
  have hval := quantum_val 0 ex er
  rw [dropDigits_zero_right, Nat.cast_zero, zero_mul, mul_eq_zero, or_iff_left (by positivity), Nat.cast_eq_zero] at hval
  refine Prod.ext hval (le_antisymm ?_ (quantum_ge 0 ex er))
  by_contra h
  have hfull := quantum_full (not_le.mp h)
  rw [hval] at hfull
  exact absurd hfull (by decide)

/-- **Zeros are brought in** down to the quantum, while there is room. -/
theorem quantizebid64_down {d : Dec} {x r : Decimal64} (hx : x.toNat = bid d) (hr : r.finite)
    (hlt : quantexpbid64 r < quantexpbid64 x) :
    ∃ u : Dec, (quantizebid64 x r).toNat = bid u ∧ u.val = d.val ∧ u.neg = d.neg ∧ quantexpbid64 r ≤ u.expo ∧
      u.expo ≤ quantexpbid64 x ∧ (quantexpbid64 r < u.expo → 10 ^ 14 ≤ u.coef) := by
  have hxr := quantexpbid64_range (finite_bid hx)
  have hrr := quantexpbid64_range hr
  obtain ⟨u, hu, hneg, hq⟩ := quantizebid64_dec hx hxr.1 hxr.2 hrr.1 hrr.2
  have hcoef : u.coef = (quantum d.coef (quantexpbid64 x) (quantexpbid64 r)).1 := congrArg Prod.fst hq
  have hexpo : u.expo = (quantum d.coef (quantexpbid64 x) (quantexpbid64 r)).2 := congrArg Prod.snd hq
  have hval := quantum_val d.coef (quantexpbid64 x) (quantexpbid64 r)
  have hbounds := quantum_bounds d.coef (quantexpbid64 x) (quantexpbid64 r)
  rw [show (quantexpbid64 r - quantexpbid64 x).toNat = 0 by omega, dropDigits_zero, max_eq_left hlt.le, ← hcoef,
    ← hexpo] at hval
  refine ⟨u, hu, ?_, hneg, ?_, ?_, ?_⟩
  · -- the number of an all-zero word does not depend on its exponent
    have hd : (d.coef : ℚ) * 10 ^ quantexpbid64 x = d.coef * 10 ^ d.expo := by
      rcases coef_zero_or_quantexp hx with h0 | he
      · rw [h0, Nat.cast_zero, zero_mul, zero_mul]
      · rw [he]
    rw [Dec.val, Dec.val, hneg, mul_assoc, mul_assoc, hval, hd]
  · rw [hexpo]
    exact quantum_ge _ _ _
  · rw [hexpo]
    exact hbounds.2.trans_eq (max_eq_left hlt.le)
  · rw [hexpo, hcoef]
    exact quantum_full

theorem quantizebid64_zero {r : Decimal64} (hr : quantexpbid64 r = -398) : quantizebid64 0 r = 0 := by
  obtain ⟨m, hm, hz⟩ := quantizebid64_eq 0 r
  rw [show (mantBid64 0).toNat = 0 by decide, hr, quantum_zero] at hm hz
  rw [hz, BitVec.eq_of_toNat_eq (y := 0) hm]
  decide

/-- **A word that has the quantum, or is full**, is assembled from its parts. -/
theorem quantizebid64_assembled {m : BitVec 64} {e s : ℤ} {r : Decimal64} (hm : m.toNat < 2 ^ 53 + 2 ^ 51)
    (he : -398 ≤ e) (he' : e ≤ 369) (hs : s = 0 ∨ s = -1) (hge : quantexpbid64 r ≤ e)
    (hfull : quantexpbid64 r < e → 10 ^ 14 ≤ m.toNat)
    (h0 : assembleBid m (BitVec.ofInt 64 (e + 398)) (BitVec.ofInt 64 s) ≠ 0) :
    quantizebid64 (assembleBid m (BitVec.ofInt 64 (e + 398)) (BitVec.ofInt 64 s)) r =
      assembleBid m (BitVec.ofInt 64 (e + 398)) (BitVec.ofInt 64 s) := by
  have hbiased : (BitVec.ofInt 64 (e + 398)).toNat = (e + 398).toNat := by
    rw [BitVec.toNat_ofInt]
    omega
  have hlt : (BitVec.ofInt 64 (e + 398)).toNat < 768 := by omega
  obtain ⟨m', hm', hz⟩ := quantizebid64_eq (assembleBid m (BitVec.ofInt 64 (e + 398)) (BitVec.ofInt 64 s)) r
  have hexp := quantexpbid64_assembleBid (BitVec.ofInt 64 s) hm hlt h0
  rw [hbiased, show ((e + 398).toNat : ℤ) - 398 = e by omega] at hexp
  have hsign : signBid64 (assembleBid m (BitVec.ofInt 64 (e + 398)) (BitVec.ofInt 64 s)) = s := by
    rw [signBid64_assembleBid _ hm hlt]
    rcases hs with rfl | rfl <;> rfl
  rw [mantBid64_assembleBid _ hm hlt, hexp, quantum_of_full hge hfull] at hm' hz
  rw [hz, hsign, BitVec.eq_of_toNat_eq hm']

/-- **Quantising again** changes no bit, whether the coefficient is canonical or not. -/
theorem quantizebid64_again {x r : Decimal64} (hx : x.finite) (hr : r.finite) :
    quantizebid64 (quantizebid64 x r) r = quantizebid64 x r := by
  have hxr := quantexpbid64_range hx
  have hrr := quantexpbid64_range hr
  obtain ⟨m, hm, hz⟩ := quantizebid64_eq x r
  have hge := quantum_ge (mantBid64 x).toNat (quantexpbid64 x) (quantexpbid64 r)
  have hbounds := quantum_bounds (mantBid64 x).toNat (quantexpbid64 x) (quantexpbid64 r)
  have hfull : quantexpbid64 r < (quantum (mantBid64 x).toNat (quantexpbid64 x) (quantexpbid64 r)).2 →
    10 ^ 14 ≤ (quantum (mantBid64 x).toNat (quantexpbid64 x) (quantexpbid64 r)).1 := quantum_full
  have hfit := quantum_fits (mantBid64_lt x) (quantexpbid64 x) (quantexpbid64 r)
  rw [← hm] at hfull hfit
  generalize (quantum (mantBid64 x).toNat (quantexpbid64 x) (quantexpbid64 r)).2 = e at *
  by_cases h0 : quantizebid64 x r = 0
  · have hbiased : (BitVec.ofInt 64 (e + 398)).toNat = (e + 398).toNat := by
      rw [BitVec.toNat_ofInt]
      omega
    have hparts := (assembleBid_eq_zero_iff _ hfit (by omega)).mp (hz.symm.trans h0)
    have hexp := congrArg BitVec.toNat hparts.2.1
    rw [hbiased, show (0 : BitVec 64).toNat = 0 from rfl] at hexp
    rw [h0]
    exact quantizebid64_zero (by omega)
  · have hs : signBid64 x = 0 ∨ signBid64 x = -1 := by
      rw [signBid64_eq]
      split_ifs <;> simp
    rw [hz] at h0 ⊢
    exact quantizebid64_assembled hfit (by omega) (by omega) hs hge hfull h0

/-- **Quantising to a finer quantum** keeps the number and its sign, and stops above the quantum only where the
coefficient is full; quantising twice to any quantum is quantising once. The exponent is the one that is read,
unless the word is all zeros. -/
theorem quantizebid64_finer :
    (∀ (d : Dec) (x r : Decimal64), x.toNat = bid d → r.finite → quantexpbid64 r < quantexpbid64 x →
      ∃ u : Dec, (quantizebid64 x r).toNat = bid u ∧ u.val = d.val ∧ u.neg = d.neg ∧
        quantexpbid64 r ≤ u.expo ∧ u.expo ≤ quantexpbid64 x ∧ (quantexpbid64 r < u.expo → 10 ^ 14 ≤ u.coef) ∧
        (quantizebid64 x r ≠ 0 → quantexpbid64 (quantizebid64 x r) = u.expo)) ∧
    ∀ x r : Decimal64, x.finite → r.finite → quantizebid64 (quantizebid64 x r) r = quantizebid64 x r := by
  refine ⟨fun d x r hx hr hlt => ?_, fun x r hx hr => quantizebid64_again hx hr⟩
  obtain ⟨u, hu, hval, hneg, hge, hle, hfull⟩ := quantizebid64_down hx hr hlt
  exact ⟨u, hu, hval, hneg, hge, hle, hfull, quantexpbid64_of_ne hu⟩

/-- Twenty, and the same with two digits behind the point. -/
theorem quantizebid64_finer_twenty :
    (∃ u : Dec, (quantizebid64 0x31e0000000000002 0x3180000000000001).toNat = bid u ∧
      u.val = Dec.val ⟨false, 2, 1, by decide, by decide, by decide⟩ ∧ u.neg = false ∧
      quantexpbid64 0x3180000000000001 ≤ u.expo ∧ u.expo ≤ quantexpbid64 0x31e0000000000002 ∧
      (quantexpbid64 0x3180000000000001 < u.expo → 10 ^ 14 ≤ u.coef) ∧
      (quantizebid64 0x31e0000000000002 0x3180000000000001 ≠ 0 →
        quantexpbid64 (quantizebid64 0x31e0000000000002 0x3180000000000001) = u.expo)) ∧
    quantizebid64 (quantizebid64 0x31e0000000000002 0x3180000000000001) 0x3180000000000001 =
      quantizebid64 0x31e0000000000002 0x3180000000000001 :=
  ⟨quantizebid64_finer.1 ⟨false, 2, 1, by decide, by decide, by decide⟩ _ _ (by decide) (by decide) (by decide),
    quantizebid64_finer.2 _ _ (by decide) (by decide)⟩

end Unserlob
