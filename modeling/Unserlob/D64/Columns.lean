import Mathlib.Data.List.TakeWhile
import Unserlob.D64.Scan

/-!
# Where numbers end

What the number scanner does on any bytes: where it stops, and when its rounding never ends.

* `carry_error_iff`, **`carry_loop`**: a carry loop that has not ended after all nibbles never ends;
* `numEnd`: the sign, digits, a point and digits, each of them optional;
* `Stuck`: a negative number that is rounded with all kept digits zero;
* **`strtod64_spec`**: the scanner stops at `numEnd`, or never.
-/

namespace Unserlob

open Ascii Cursor

/-! ## The carry loop -/

/-- The carry goes on over the nibble `n`. -/
def Carries (roff : BitVec 64) (n : ℕ) : Prop := BitVec.ofNat 64 n + roff > 9

instance (roff : BitVec 64) (n : ℕ) : Decidable (Carries roff n) := inferInstanceAs (Decidable (_ > _))

theorem carry_error_iff (roff : BitVec 64) : ∀ (fuel : ℕ) (mant : BitVec 64) (sh : ℕ),
    carry roff fuel mant sh = .error .loop ↔
      ∀ i < fuel, Carries roff (mant.toNat / 16 ^ i % 16) := by
  intro fuel
  induction fuel with
  | zero => exact fun mant sh => ⟨fun _ i hi => absurd hi (Nat.not_lt_zero i), fun _ => rfl⟩
  | succ fuel ih =>
      intro mant sh
      have hnib : mant &&& 0xf = BitVec.ofNat 64 (mant.toNat / 16 ^ 0 % 16) := by
        rw [pow_zero, Nat.div_one, ← BitVec.toNat_inj, Word.toNat_nibble, BitVec.toNat_ofNat]
        exact (Nat.mod_eq_of_lt (by omega)).symm
      have hshr : ∀ i, (mant >>> 4).toNat / 16 ^ i = mant.toNat / 16 ^ (i + 1) := fun i => by
        rw [Word.toNat_shr, Nat.div_div_eq_div_mul, pow_succ']
      rw [carry, hnib]
      by_cases hx : Carries roff (mant.toNat / 16 ^ 0 % 16)
      · rw [if_pos (show _ > _ from hx), ih]
        refine ⟨fun h i hi => ?_, fun h i hi => by rw [hshr]; exact h (i + 1) (by omega)⟩
        cases i with
        | zero => exact hx
        | succ i =>
            rw [← hshr]
            exact h i (by omega)
      · rw [if_neg (show ¬ _ > _ from hx)]
        exact ⟨fun h => (nomatch h), fun h => absurd (h 0 (by omega)) hx⟩

theorem carry_error {roff : BitVec 64} {fuel : ℕ} {mant : BitVec 64} {sh : ℕ} {e : Fault}
    (h : carry roff fuel mant sh = .error e) : e = .loop := by
  induction fuel generalizing mant sh with
  | zero => exact (Except.error.inj h).symm
  | succ fuel ih =>
      rw [carry] at h
      split_ifs at h
      exact ih h

/-- **A loop that has not ended after seventeen turns never ends**: all nibbles are gone by then. -/
theorem carry_loop {roff mant : BitVec 64} {sh : ℕ} (h : carry roff 17 mant sh = .error .loop)
    (fuel : ℕ) : carry roff fuel mant sh = .error .loop := by
  rw [carry_error_iff] at h ⊢
  have hz : ∀ i, 16 ≤ i → mant.toNat / 16 ^ i = 0 := fun i hi =>
    Nat.div_eq_of_lt (mant.isLt.trans_le (Nat.pow_le_pow_right (by decide) hi : 16 ^ 16 ≤ 16 ^ i))
  intro i _
  by_cases hi : i < 17
  · exact h i hi
  · rw [hz i (by omega), ← hz 16 le_rfl]
    exact h 16 (by omega)

/-- A word of at most `j` decimal digits, one in a nibble. -/
structure Packed (j : ℕ) (w : BitVec 64) : Prop where
  lt : w.toNat < 16 ^ j
  digit : ∀ i, w.toNat / 16 ^ i % 16 ≤ 9

theorem Packed.push {j d : ℕ} {w : BitVec 64} (h : Packed j w) (hj : j < 15) (hd : d < 10) :
    Packed (j + 1) (w <<< 4 ||| BitVec.ofNat 64 d) ∧
      (w <<< 4 ||| BitVec.ofNat 64 d = 0 ↔ w = 0 ∧ d = 0) := by
  have hp : (16 : ℕ) ^ j ≤ 2 ^ 60 :=
    (Nat.pow_le_pow_right (by decide) (show j ≤ 15 by omega)).trans (by decide)
  have hdn : (BitVec.ofNat 64 d).toNat = d := by
    rw [BitVec.toNat_ofNat, Nat.mod_eq_of_lt (by omega)]
  have hw := h.lt
  have hn : (w <<< 4 ||| BitVec.ofNat 64 d).toNat = w.toNat * 16 + d := by
    rw [Word.toNat_shl_or (hw.trans_le hp) (by rw [hdn]; omega), hdn]
  refine ⟨⟨by rw [hn, pow_succ]; omega, fun i => ?_⟩, ?_⟩
  · rw [hn]
    cases i with
    | zero => omega
    | succ i =>
        rw [pow_succ', ← Nat.div_div_eq_div_mul, show (w.toNat * 16 + d) / 16 = w.toNat by omega]
        exact h.digit i
  · rw [← BitVec.toNat_inj, ← BitVec.toNat_inj, hn]
    change w.toNat * 16 + d = 0 ↔ w.toNat = 0 ∧ d = 0
    omega

/-- **Rounding never ends when all digits are zero and one is taken off.** -/
theorem roundBcd64_spec {j : ℕ} {mant : BitVec 64} (h : Packed j mant) (neg : Bool) :
    (neg = true ∧ mant = 0 → roundBcd64 mant (if neg then -1 else 1) = .error .loop) ∧
    (¬ (neg = true ∧ mant = 0) → ∃ x, roundBcd64 mant (if neg then -1 else 1) = .ok x) := by
  have hiff := carry_error_iff (BitVec.ofInt 64 (if neg then -1 else 1)) 17 mant 0
  constructor
  · rintro ⟨rfl, rfl⟩
    rw [roundBcd64, hiff.mpr fun i _ => by rw [show (0 : BitVec 64).toNat = 0 from rfl, Nat.zero_div]; decide]
    rfl
  · intro hn
    cases hc : carry (BitVec.ofInt 64 (if neg then -1 else 1)) 17 mant 0 with
    | ok r =>
        rw [roundBcd64, hc]
        exact ⟨_, rfl⟩
    | error e =>
        rw [carry_error hc] at hc
        have hall := hiff.mp hc
        exfalso
        cases neg with
        | false =>
            -- the nibble behind the last is zero and takes the carry
            have h16 := hall 16 (by omega)
            rw [Nat.div_eq_of_lt (show mant.toNat < 16 ^ 16 from mant.isLt)] at h16
            exact absurd h16 (by decide)
        | true =>
            -- every digit is zero
            refine hn ⟨rfl, ?_⟩
            have hz : ∀ i < 16, mant.toNat / 16 ^ i % 16 = 0 := fun i hi => by
              have h9 := h.digit i
              have hi := hall i (by omega)
              generalize mant.toNat / 16 ^ i % 16 = n at h9 hi
              unfold Carries at hi
              interval_cases n
              · rfl
              all_goals exact absurd hi (by decide)
            have hnum : Radix.numeral 16 16 mant.toNat = Radix.numeral 16 16 0 := by
              apply List.ext_getElem?
              intro k
              by_cases hk : k < 16
              · rw [Radix.getElem?_numeral hk, Radix.getElem?_numeral hk, hz k hk, Nat.zero_div]
              · rw [List.getElem?_eq_none (by simp; omega), List.getElem?_eq_none (by simp; omega)]
            have hofd := congrArg (Nat.ofDigits 16) hnum
            rw [Radix.ofDigits_numeral_of_lt (show mant.toNat < 16 ^ 16 from mant.isLt),
              Radix.ofDigits_numeral_of_lt (by decide)] at hofd
            exact BitVec.eq_of_toNat_eq hofd

/-! ## Picking up digits -/

/-- What `pick` comes to with room for `nd` digits: it takes `k`, and stops where there is no more room
or no more digit. -/
structure Picked (nd j : ℕ) (mant : BitVec 64) (p : Ptr) (k : ℕ) (mant' : BitVec 64) : Prop where
  eq : pick nd mant p = .ok ((nd - k, mant'), p.drop k)
  le : k ≤ nd
  digits : ∀ c ∈ p.take k, isdigit c = true
  packed : Packed (j + k) mant'
  zero : mant' = 0 ↔ mant = 0 ∧ ∀ c ∈ p.take k, c = ch '0'
  stop : k = nd ∨ ∃ c t, p.drop k = c :: t ∧ isdigit c = false

theorem pick_spec {s : UInt8} (hs : isdigit s = false) : ∀ (p : Ptr) (nd j : ℕ) (mant : BitVec 64),
    s ∈ p → Packed j mant → j + nd ≤ 15 → ∃ k mant', Picked nd j mant p k mant' := by
  intro p
  induction p with
  | nil => exact fun nd j mant h => absurd h List.not_mem_nil
  | cons c p ih =>
      intro nd j mant hp hm hj
      by_cases hc : isdigit c = true ∧ 0 < nd
      · obtain ⟨hd, hv⟩ := eq_digitByte hc.1
        generalize c.toNat - 48 = d at hd hv
        obtain ⟨hpush, hzero⟩ := hm.push (by omega) hd
        have hsp : s ∈ p := by
          rcases List.mem_cons.mp hp with rfl | h
          · rw [hc.1] at hs
            cases hs
          · exact h
        obtain ⟨k, mant', h⟩ := ih (nd - 1) (j + 1) _ hsp hpush (by omega)
        have hle := h.le
        refine ⟨k + 1, mant', ?_, by omega, ?_, ?_, ?_, ?_⟩
        · rw [pick, if_pos (by simpa using hc), hv, U_digitByte hd, h.eq]
          rw [show nd - 1 - k = nd - (k + 1) by omega]
          rfl
        · intro x hx
          rcases List.mem_cons.mp hx with rfl | hx
          · exact hc.1
          · exact h.digits x hx
        · have := h.packed
          rwa [Nat.add_assoc, Nat.add_comm 1] at this
        · rw [h.zero, hzero, List.take_succ_cons, List.forall_mem_cons, hv, digitByte_eq_zero hd, and_assoc]
        · exact h.stop.imp (fun h => by omega) id
      · refine ⟨0, mant, ?_, Nat.zero_le _, by simp, hm, by simp, ?_⟩
        · rw [pick, if_neg (by simpa using hc)]
          rfl
        · by_cases h0 : nd = 0
          · exact Or.inl h0.symm
          · refine Or.inr ⟨c, p, rfl, ?_⟩
            by_contra hd
            exact hc ⟨by simpa using hd, by omega⟩

theorem Packed.zero : Packed 0 0 := ⟨by decide, fun i => by simp⟩

theorem Picked.mem {nd j k : ℕ} {mant mant' : BitVec 64} {p : Ptr} (h : Picked nd j mant p k mant')
    {s : UInt8} (hs : isdigit s = false) (hp : s ∈ p) : s ∈ p.drop k := by
  rw [← List.take_append_drop k p] at hp
  rcases List.mem_append.mp hp with hm | hm
  · have := h.digits s hm
    rw [hs] at this
    cases this
  · exact hm

theorem Picked.dropWhile {nd j k : ℕ} {mant mant' : BitVec 64} {p : Ptr} (h : Picked nd j mant p k mant') :
    (p.drop k).dropWhile isdigit = p.dropWhile isdigit := by
  conv_rhs => rw [← List.take_append_drop k p]
  exact (List.dropWhile_append_of_pos h.digits).symm

/-! ## The end of a number -/

/-- Behind the fraction, if there is one. -/
def fracEnd : Ptr → Ptr
  | [] => []
  | c :: t => if c = ch '.' then t.dropWhile isdigit else c :: t

/-- Behind the number. -/
def numEnd (p : Ptr) : Ptr := fracEnd ((signEnd p).dropWhile isdigit)

/-- The digits of a number that is rounded and all of whose kept digits are zero. -/
def ZeroRound (p : Ptr) : Prop :=
  ∃ z d t, p = z ++ ch '.' :: (List.replicate 15 (ch '0') ++ d :: t) ∧ (∀ c ∈ z, c = ch '0') ∧
    isRound d = true

/-- A fraction that rounds up with all kept digits zero. -/
def ZeroFrac (q : Ptr) : Prop :=
  ∃ d t, q = ch '.' :: (List.replicate 15 (ch '0') ++ d :: t) ∧ isRound d = true

/-- A negative number of that kind. -/
def Stuck (p : Ptr) : Prop := ∃ t, p = ch '-' :: t ∧ ZeroRound t

theorem dropWhile_zeros (p : Ptr) :
    (p.dropWhile (· == ch '0')).dropWhile isdigit = p.dropWhile isdigit := by
  conv_rhs => rw [← List.takeWhile_append_dropWhile (p := (· == ch '0')) (l := p)]
  refine (List.dropWhile_append_of_pos fun c hc => ?_).symm
  have h0 := List.mem_takeWhile_imp hc
  rw [beq_iff_eq] at h0
  rw [h0]
  rfl

theorem ne_zero_of_dropWhile {p : Ptr} {c : UInt8} {t : List UInt8} (h : p.dropWhile (· == ch '0') = c :: t) :
    c ≠ ch '0' := by
  have hnot := List.head?_dropWhile_not (· == ch '0') p
  rw [h] at hnot
  simpa using hnot

theorem zeroRound_iff_zeroFrac (p : Ptr) : ZeroRound p ↔ ZeroFrac (p.dropWhile (· == ch '0')) := by
  constructor
  · rintro ⟨z, d, t, rfl, hz, hr⟩
    rw [List.dropWhile_append_of_pos fun c hc => beq_iff_eq.mpr (hz c hc)]
    exact ⟨d, t, rfl, hr⟩
  · rintro ⟨d, t, he, hr⟩
    refine ⟨p.takeWhile (· == ch '0'), d, t, ?_, fun c hc => ?_, hr⟩
    · rw [← he, List.takeWhile_append_dropWhile]
    · have h0 := List.mem_takeWhile_imp hc
      rwa [beq_iff_eq] at h0

theorem Picked.zeroFrac_iff {mant : BitVec 64} {t u : Ptr} {k : ℕ} {d : UInt8} (hk : Picked 15 0 0 t k mant)
    (hd : t.drop k = d :: u) : isRound d = true ∧ mant = 0 ↔ ZeroFrac (ch '.' :: t) := by
  rw [hk.zero]
  constructor
  · rintro ⟨hr, -, hz⟩
    -- the digit that rounds is the sixteenth
    have h15 : k = 15 := by
      refine hk.stop.resolve_right ?_
      rintro ⟨c, v, hc, hf⟩
      rw [hd] at hc
      cases hc
      rw [isdigit_of_isRound hr] at hf
      cases hf
    have hlen : (t.take k).length = 15 := by
      have hl := congrArg List.length hd
      rw [List.length_drop, List.length_cons] at hl
      rw [List.length_take]
      omega
    refine ⟨d, u, ?_, hr⟩
    rw [← hd, ← List.eq_replicate_iff.mpr ⟨hlen, hz⟩, List.take_append_drop]
  · rintro ⟨d', t', he, hr⟩
    obtain ⟨-, rfl⟩ := List.cons.inj he
    -- all fifteen zeros are taken
    have h15 : k = 15 := by
      have hle := hk.le
      rcases hk.stop with h | ⟨c, v, hcv, hf⟩
      · exact h
      · by_contra hne
        rw [List.drop_append_of_le_length (by rw [List.length_replicate]; omega), List.drop_replicate] at hcv
        obtain ⟨m, hm⟩ : ∃ m, 15 - k = m + 1 := ⟨15 - k - 1, by omega⟩
        rw [hm, List.replicate_succ, List.cons_append] at hcv
        cases hcv
        cases hf
    subst h15
    rw [List.drop_left' (by simp)] at hd
    cases hd
    refine ⟨hr, rfl, fun c hc => ?_⟩
    rw [List.take_left' (by simp)] at hc
    exact List.eq_of_mem_replicate hc

/-- A byte that is in no number. -/
def Plain (s : UInt8) : Prop := isdigit s = false ∧ s ≠ ch '.' ∧ s ≠ ch '-' ∧ s ≠ ch '+'

instance : DecidablePred Plain := fun _ => inferInstanceAs (Decidable (_ ∧ _))

theorem mem_dropWhile {f : UInt8 → Bool} {s : UInt8} (hs : f s = false) {p : Ptr} (h : s ∈ p) :
    s ∈ p.dropWhile f := by
  rw [← List.takeWhile_append_dropWhile (p := f) (l := p)] at h
  rcases List.mem_append.mp h with hm | hm
  · have := List.mem_takeWhile_imp hm
    rw [hs] at this
    cases this
  · exact hm

theorem mem_fracEnd {s : UInt8} (hs : Plain s) {p : Ptr} (h : s ∈ p) : s ∈ fracEnd p := by
  cases p with
  | nil => exact h
  | cons c t =>
      rw [fracEnd]
      split_ifs with hc
      · rcases List.mem_cons.mp h with rfl | h
        · exact absurd hc hs.2.1
        · exact mem_dropWhile hs.1 h
      · exact h

theorem mem_signEnd {s : UInt8} (hs : Plain s) {p : Ptr} (h : s ∈ p) : s ∈ signEnd p := by
  cases p with
  | nil => exact h
  | cons c t =>
      rw [signEnd]
      split_ifs with hc
      · rcases List.mem_cons.mp h with rfl | h
        · exact (hc.elim hs.2.2.1 hs.2.2.2).elim
        · exact h
      · exact h

theorem mem_numEnd {s : UInt8} (hs : Plain s) {p : Ptr} (h : s ∈ p) : s ∈ numEnd p :=
  mem_fracEnd hs (mem_dropWhile hs.1 (mem_signEnd hs h))

theorem fracEnd_suffix (p : Ptr) : fracEnd p <:+ p := by
  cases p with
  | nil => exact List.suffix_rfl
  | cons c t =>
      rw [fracEnd]
      split_ifs
      · exact (List.dropWhile_suffix _).trans (List.suffix_cons c t)
      · exact List.suffix_rfl

theorem numEnd_suffix (p : Ptr) : numEnd p <:+ p :=
  (fracEnd_suffix _).trans ((List.dropWhile_suffix _).trans (signEnd_suffix p))

/-! ## The scanner -/

theorem skip_of_mem {f : UInt8 → Bool} {p : Ptr} {s : UInt8} (hs : f s = false) (hp : s ∈ p) :
    ∃ n, skipWhile f p = .ok (n, p.dropWhile f) := ⟨_, skipWhile_of_mem hp hs⟩

theorem fraction_spec {s : UInt8} (hs : Plain s) {q : Ptr} (hq : s ∈ q) {nd j : ℕ} {mant : BitVec 64}
    (hm : Packed j mant) (hj : j + nd ≤ 15) (roff : Bool) (expo : ℤ) :
    ∃ mant' roff' expo' j', fraction nd mant roff expo q = .ok ((mant', roff', expo'), fracEnd q) ∧
      Packed j' mant' ∧ (mant' = 0 → mant = 0) ∧
      (nd = 15 → mant = 0 → roff = false → (roff' = true ∧ mant' = 0 ↔ ZeroFrac q)) := by
  obtain ⟨c, t, rfl⟩ := List.exists_cons_of_ne_nil (List.ne_nil_of_mem hq)
  by_cases hc : c = ch '.'
  · subst hc
    have ht : s ∈ t := (List.mem_cons.mp hq).resolve_left hs.2.1
    have hend : fracEnd (ch '.' :: t) = t.dropWhile isdigit := by
      rw [fracEnd, if_pos rfl]
    by_cases hnd : 0 < nd
    · obtain ⟨k, mant', hk⟩ := pick_spec hs.1 t nd j mant ht hm hj
      obtain ⟨d, u, hd⟩ := List.exists_cons_of_ne_nil (List.ne_nil_of_mem (hk.mem hs.1 ht))
      obtain ⟨n, hn⟩ := skip_of_mem hs.1 (hk.mem hs.1 ht)
      rw [hk.dropWhile, hd] at hn
      have heq := hk.eq
      rw [hd] at heq
      refine ⟨mant', roff || isRound d, expo - (nd - (nd - k) : ℕ), j + k, ?_, hk.packed,
        fun h => (hk.zero.mp h).1, ?_⟩
      · simp only [fraction, deref, bind, Except.bind, true_and, if_pos hnd, List.tail_cons, heq, hn, hend]
        rfl
      · rintro rfl rfl rfl
        obtain rfl : j = 0 := by omega
        rw [Bool.false_or]
        exact hk.zeroFrac_iff hd
    · obtain ⟨n, hn⟩ := skip_of_mem hs.1 ht
      refine ⟨mant, roff || isRound (ch '.'), expo, j, ?_, hm, id, fun h => by omega⟩
      simp only [fraction, deref, bind, Except.bind, true_and, if_neg hnd, if_true, List.tail_cons, hn, hend]
      rfl
  · refine ⟨mant, roff, expo, j, ?_, hm, id, ?_⟩
    · simp only [fraction, deref, bind, Except.bind, hc, false_and, if_false, fracEnd]
      rfl
    · rintro rfl rfl rfl
      refine iff_of_false (fun h => Bool.false_ne_true h.1) ?_
      rintro ⟨d, u, he, -⟩
      exact hc (List.cons.inj he).1

/-- **The digits of any column.** -/
theorem digits64_spec {s : UInt8} (hs : Plain s) {p : Ptr} (hp : s ∈ p) :
    ∃ mant roff expo j, digits64 p = .ok ((mant, roff, expo), fracEnd (p.dropWhile isdigit)) ∧
      Packed j mant ∧ (roff = true ∧ mant = 0 ↔ ZeroRound p) := by
  have hs0 : (s == ch '0') = false := by
    rw [beq_eq_false_iff_ne]
    rintro rfl
    exact absurd hs.1 (by decide)
  have hp1 := mem_dropWhile (f := (· == ch '0')) hs0 hp
  obtain ⟨z, hz⟩ := skip_of_mem (f := (· == ch '0')) hs0 hp
  have hdrop := dropWhile_zeros p
  have hzr := zeroRound_iff_zeroFrac p
  have hhead : ∀ c t, p.dropWhile (· == ch '0') = c :: t → c ≠ ch '0' := fun c t => ne_zero_of_dropWhile
  generalize p.dropWhile (· == ch '0') = p1 at *
  obtain ⟨k, mant, hk⟩ := pick_spec hs.1 p1 15 0 0 hp1 Packed.zero le_rfl
  have hp2 := hk.mem hs.1 hp1
  obtain ⟨c, t, hc⟩ := List.exists_cons_of_ne_nil (List.ne_nil_of_mem hp2)
  obtain ⟨n, hn⟩ := skip_of_mem hs.1 hp2
  rw [hk.dropWhile, hdrop, hc] at hn
  have hle := hk.le
  have hroom : 0 + k + (15 - k) ≤ 15 := by omega
  obtain ⟨mant', roff', expo', j', hf, hpk, hz', hfrac⟩ := fraction_spec hs
    (mem_dropWhile hs.1 hp) hk.packed hroom (isRound c) n
  have heq := hk.eq
  rw [hc] at heq
  refine ⟨mant', roff', expo', j', ?_, hpk, ?_⟩
  · simp only [digits64, hz, heq, bind, Except.bind, deref, hn, hf]
  · rw [hzr]
    by_cases hk0 : k = 0
    · subst hk0
      rw [List.drop_zero] at hc
      have hcd : isdigit c = false := by
        rcases hk.stop with h | ⟨c', t', he, hf⟩
        · cases h
        · rw [List.drop_zero, hc] at he
          cases he
          exact hf
      have hq : p.dropWhile isdigit = p1 := by
        rw [← hdrop, hc, List.dropWhile_cons_of_neg (by rw [hcd]; exact Bool.false_ne_true)]
      rw [hfrac rfl (hk.zero.mpr ⟨rfl, by simp⟩) (isRound_of_not_isdigit hcd), hq]
    · -- the first digit is not zero
      obtain ⟨c', t', he⟩ := List.exists_cons_of_ne_nil (List.ne_nil_of_mem hp1)
      obtain ⟨k', rfl⟩ : ∃ k', k = k' + 1 := ⟨k - 1, by omega⟩
      have hm : c' ∈ p1.take (k' + 1) := by
        rw [he, List.take_succ_cons]
        exact List.mem_cons_self
      constructor
      · rintro ⟨-, h0⟩
        exact absurd ((hk.zero.mp (hz' h0)).2 c' hm) (hhead c' t' he)
      · rintro ⟨d, u, hdu, -⟩
        rw [he] at hdu
        have := hk.digits c' hm
        rw [(List.cons.inj hdu).1] at this
        cases this

/-- **A number column**: the scanner stops at its end, or never. -/
theorem strtod64_spec {s : UInt8} (hs : Plain s) {p : Ptr} (hp : s ∈ p) :
    (Stuck p → strtod64 p = .error .loop) ∧ (¬ Stuck p → ∃ x, strtod64 p = .ok (x, numEnd p)) := by
  obtain ⟨c, t, rfl⟩ := List.exists_cons_of_ne_nil (List.ne_nil_of_mem hp)
  obtain ⟨neg, hsign, hneg⟩ : ∃ neg, signOf (c :: t) = .ok (neg, signEnd (c :: t)) ∧
      (neg = true ↔ c = ch '-') := ⟨_, signOf_cons c t, decide_eq_true_iff⟩
  obtain ⟨mant, roff, expo, j, hd, hpk, hzero⟩ := digits64_spec hs (mem_signEnd hs hp)
  have hstuck : Stuck (c :: t) ↔ roff = true ∧ neg = true ∧ mant = 0 := by
    rw [and_left_comm, hzero, hneg]
    constructor
    · rintro ⟨t', he, hz⟩
      cases he
      exact ⟨rfl, by rw [signEnd, if_pos (Or.inl rfl)]; exact hz⟩
    · rintro ⟨rfl, hz⟩
      rw [signEnd, if_pos (Or.inl rfl)] at hz
      exact ⟨t, rfl, hz⟩
  obtain ⟨hbad, hgood⟩ := roundBcd64_spec hpk neg
  rw [hstuck]
  constructor
  · rintro ⟨hr, hn⟩
    simp only [strtod64, strtobcd64, hsign, hd, bind, Except.bind, hr, if_true, hbad hn]
  · intro hn
    by_cases hr : roff = true
    · obtain ⟨x, hx⟩ := hgood fun h => hn ⟨hr, h⟩
      simp only [strtod64, strtobcd64, hsign, hd, bind, Except.bind, hr, if_true, hx]
      exact ⟨_, rfl⟩
    · simp only [strtod64, strtobcd64, hsign, hd, bind, Except.bind, hr]
      exact ⟨_, rfl⟩

/-! ## Longer memory -/

section Append

variable {s : UInt8} (hs : Plain s) {u : Ptr} (hu : s ∈ u) (r : Ptr)

theorem dropWhile_append_of_mem {f : UInt8 → Bool} (hf : f s = false) (hu : s ∈ u) :
    (u ++ r).dropWhile f = u.dropWhile f ++ r := by
  rw [List.dropWhile_append, if_neg]
  rw [List.isEmpty_iff]
  exact List.ne_nil_of_mem (mem_dropWhile hf hu)

include hs hu

theorem numEnd_append : numEnd (u ++ r) = numEnd u ++ r := by
  obtain ⟨c, t, rfl⟩ := List.exists_cons_of_ne_nil (List.ne_nil_of_mem hu)
  have hsign : signEnd (c :: t ++ r) = signEnd (c :: t) ++ r := by
    rw [List.cons_append, signEnd, signEnd]
    split_ifs <;> rfl
  have hm := mem_dropWhile hs.1 (mem_signEnd hs hu)
  rw [numEnd, numEnd, hsign, dropWhile_append_of_mem r hs.1 (mem_signEnd hs hu)]
  obtain ⟨d, v, hd⟩ := List.exists_cons_of_ne_nil (List.ne_nil_of_mem hm)
  rw [hd] at hm ⊢
  rw [List.cons_append, fracEnd, fracEnd]
  split_ifs with hp
  · exact dropWhile_append_of_mem r hs.1 ((List.mem_cons.mp hm).resolve_left fun h => hs.2.1 (h.trans hp))
  · rfl

theorem zeroRound_append : ZeroRound (u ++ r) ↔ ZeroRound u := by
  constructor
  · rintro ⟨z, d, t, he, hz, hr⟩
    have hsplit : u ++ r = (z ++ ch '.' :: (List.replicate 15 (ch '0') ++ [d])) ++ t := by
      rw [he]
      simp
    rcases List.append_eq_append_iff.mp hsplit with ⟨a, ha, -⟩ | ⟨c, hc, -⟩
    · -- none of these bytes is `s`
      exfalso
      have hm : s ∈ z ++ ch '.' :: (List.replicate 15 (ch '0') ++ [d]) := by
        rw [ha]
        exact List.mem_append_left a hu
      have h0 : s ≠ ch '0' := fun h => absurd hs.1 (by rw [h]; decide)
      rcases List.mem_append.mp hm with hm | hm
      · exact h0 (hz s hm)
      · rcases List.mem_cons.mp hm with hm | hm
        · exact hs.2.1 hm
        · rcases List.mem_append.mp hm with hm | hm
          · exact h0 (List.eq_of_mem_replicate hm)
          · rw [← List.mem_singleton.mp hm, isRound_of_not_isdigit hs.1] at hr
            cases hr
    · exact ⟨z, d, c, by rw [hc]; simp, hz, hr⟩
  · rintro ⟨z, d, t, he, hz, hr⟩
    exact ⟨z, d, t ++ r, by rw [he]; simp, hz, hr⟩

theorem stuck_append : Stuck (u ++ r) ↔ Stuck u := by
  obtain ⟨c, t, rfl⟩ := List.exists_cons_of_ne_nil (List.ne_nil_of_mem hu)
  have ht : c = ch '-' → s ∈ t := fun h =>
    (List.mem_cons.mp hu).resolve_left fun h' => hs.2.2.1 (h'.trans h)
  constructor
  · rintro ⟨t', he, hz⟩
    obtain ⟨rfl, rfl⟩ := List.cons.inj he
    exact ⟨t, rfl, (zeroRound_append hs (ht rfl) r).mp hz⟩
  · rintro ⟨t', he, hz⟩
    obtain ⟨rfl, rfl⟩ := List.cons.inj he
    exact ⟨t ++ r, rfl, (zeroRound_append hs (ht rfl) r).mpr hz⟩

/-- **A number column with anything behind the line.** -/
theorem strtod64_append : (Stuck u → strtod64 (u ++ r) = .error .loop) ∧
    (¬ Stuck u → ∃ x, strtod64 (u ++ r) = .ok (x, numEnd u ++ r)) := by
  have h := strtod64_spec hs (p := u ++ r) (List.mem_append_left r hu)
  rwa [stuck_append hs hu, numEnd_append hs hu] at h

end Append

section Grows

variable {r : Ptr}

theorem grows_pick (p : Ptr) : ∀ nd mant, Grows r (pick nd mant p) (pick nd mant (p ++ r)) := by
  induction p with
  | nil => exact fun nd mant h => absurd rfl h
  | cons c p ih =>
      intro nd mant
      rw [List.cons_append, pick, pick]
      exact Grows.ite (ih _ _) (Grows.ok _ _)

theorem grows_fraction (nd : ℕ) (mant : BitVec 64) (roff : Bool) (expo : ℤ) (p : Ptr) :
    Grows r (fraction nd mant roff expo p) (fraction nd mant roff expo (p ++ r)) := by
  refine Grows.deref fun c q hp => ?_
  subst hp
  refine Grows.ite ((grows_pick q _ _).bind fun _ q _ => Grows.deref fun d _ _ =>
    (grows_skipWhile isdigit q).bind fun _ q _ => Grows.ok _ _) ?_
  exact Grows.ite ((grows_skipWhile isdigit q).bind fun _ q _ => Grows.ok _ _) (Grows.ok _ _)

theorem grows_digits64 (p : Ptr) : Grows r (digits64 p) (digits64 (p ++ r)) :=
  (grows_skipWhile _ p).bind fun _ q _ => (grows_pick q _ _).bind fun _ q _ => Grows.deref fun _ _ _ =>
    (grows_skipWhile isdigit q).bind fun _ q _ => grows_fraction _ _ _ _ q

theorem grows_strtod64 (p : Ptr) : Grows r (strtod64 p) (strtod64 (p ++ r)) := by
  refine Grows.bind ((grows_signOf p).bind fun sign q _ => (grows_digits64 q).bind fun md q _ => ?_)
    fun b q _ => Grows.ok _ _
  obtain ⟨mant, roff, expo⟩ := md
  exact Grows.ite (Grows.const (roundBcd64 mant _) _ q) (Grows.const (pure mant) _ q)

end Grows

/-! ## Where a scan stops -/

theorem dropWhile_append_stop {f : UInt8 → Bool} (w : List UInt8) {c : UInt8} (hc : f c = false) (r : Ptr) :
    (w ++ c :: r).dropWhile f = w.dropWhile f ++ c :: r := by
  rw [List.dropWhile_append, List.dropWhile_cons_of_neg (by simp [hc])]
  split_ifs with h
  · rw [List.isEmpty_iff.mp h, List.nil_append]
  · rfl

theorem numEnd_snoc {c : UInt8} (hc : Plain c) (p : Ptr) : numEnd (p ++ [c]) = numEnd p ++ [c] := by
  have hsign : signEnd (p ++ [c]) = signEnd p ++ [c] := by
    cases p with
    | nil => exact if_neg (not_or.mpr ⟨hc.2.2.1, hc.2.2.2⟩)
    | cons d t =>
        rw [List.cons_append, signEnd, signEnd]
        split_ifs <;> rfl
  rw [numEnd, hsign, dropWhile_append_stop _ hc.1, numEnd]
  cases (signEnd p).dropWhile isdigit with
  | nil => exact if_neg hc.2.1
  | cons d t =>
      rw [List.cons_append, fracEnd, fracEnd]
      split_ifs
      · exact dropWhile_append_stop _ hc.1 _
      · rfl

/-- **The scanner stops at the end of the number**, whatever the memory. -/
theorem strtod64_end {p : Ptr} {x : Decimal64} {on : Ptr} (h : strtod64 p = .ok (x, on)) : on = numEnd p := by
  have hplain : Plain (ch '\n') := by decide
  have hlong := grows_strtod64 (r := [ch '\n']) p (by rw [h]; exact nofun)
  rw [h] at hlong
  obtain ⟨hstuck, hends⟩ := strtod64_spec hplain (p := p ++ [ch '\n']) (List.mem_append_right _ List.mem_cons_self)
  have hnot : ¬ Stuck (p ++ [ch '\n']) := fun hs => by
    rw [hstuck hs] at hlong
    cases hlong
  obtain ⟨y, hy⟩ := hends hnot
  rw [hy, numEnd_snoc hplain] at hlong
  exact (List.append_cancel_right (Prod.mk.inj (Except.ok.inj hlong)).2).symm

end Unserlob
