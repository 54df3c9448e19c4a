import Unserlob.Lib.Strtoul
import Unserlob.D64.Word

/-!
# Reading decimals (`strtobcd64`, `bcd64tobid`, `strtod64`)

The scanner keeps up to fifteen digits in a packed decimal word, counts the digits it drops, and
rounds; the conversion mirrors the packed word and multiplies it out.

* `roundBcd64`, `strtobcd64`, `bcd64tobid`, `strtod64`: the source's functions, on pointers;
* `pick_append`, `toNat_packAll`: the digit scanner on a known digit string;
* `mirror_bit`, **`toNat_unpack`**: the mirrored word is multiplied out to the number whose
  decimal digits are the nibbles;
* `bcd64tobid_eq`: the word assembled from a packed number.
-/

namespace Unserlob

open Ascii Cursor

/-- `bcd64_t` -/
structure Bcd64 where
  mant : BitVec 64
  expo : ℤ
  sign : ℤ
  deriving DecidableEq

/-- `U(x)` -/
def U (c : UInt8) : BitVec 64 := BitVec.ofNat 64 (c - ch '0').toNat

/-- The rounding digit is `5` or more. -/
def isRound (c : UInt8) : Bool := ch '5' ≤ c && c ≤ ch '9'

/-- The carry loop of `round_bcd64`: at most `fuel` turns, counting the bits shifted out. -/
def carry (roff : BitVec 64) : ℕ → BitVec 64 → ℕ → Res (BitVec 64 × BitVec 64 × ℕ)
  | 0, _, _ => .error .loop
  | fuel + 1, mant, sh =>
    let x := (mant &&& 0xf) + roff
    if x > 9 then carry roff fuel (mant >>> 4) (sh + 4) else .ok (mant, x, sh)

/-- `round_bcd64`. A word has sixteen nibbles, so the loop has ended after seventeen turns or it
never ends (`carry_loop`). The mask `~0b1111U` is thirty-two bits wide. -/
def roundBcd64 (mant : BitVec 64) (roff : ℤ) : Res (BitVec 64) := do
  let (mant, x, sh) ← carry (BitVec.ofInt 64 roff) 17 mant 0
  pure (((mant &&& 0xfffffff0) ^^^ x) <<< sh)

/-- `for (; isdigit(*sp) && nd > 0; sp++, nd--) { mant <<= 4U; mant |= U(*sp); }` -/
def pick : ℕ → BitVec 64 → Ptr → Res ((ℕ × BitVec 64) × Ptr)
  | _, _, [] => .error .read
  | nd, mant, c :: p =>
    if isdigit c && 0 < nd then pick (nd - 1) (mant <<< 4 ||| U c) p else .ok ((nd, mant), c :: p)

/-- What follows the integer digits: the fraction, if there is one. -/
def fraction (nd : ℕ) (mant : BitVec 64) (roff : Bool) (expo : ℤ) (sp : Ptr) :
    Res ((BitVec 64 × Bool × ℤ) × Ptr) := do
  let c ← deref sp
  if c = ch '.' ∧ 0 < nd then
    -- less than 15 digits, read more from the right side
    let ((nd', mant), sp) ← pick nd mant sp.tail
    let c ← deref sp
    let (_, sp) ← skipWhile isdigit sp
    pure ((mant, roff || isRound c, expo - (nd - nd' : ℕ)), sp)
  else if c = ch '.' then
    -- the byte tested here is still the point
    let (_, sp) ← skipWhile isdigit sp.tail
    pure ((mant, roff || isRound c, expo), sp)
  else pure ((mant, roff, expo), sp)

/-- The digits and the point of `strtobcd64`, before rounding. -/
def digits64 (sp : Ptr) : Res ((BitVec 64 × Bool × ℤ) × Ptr) := do
  -- skip leading zeros innit?
  let (_, sp) ← skipWhile (· == ch '0') sp
  -- pick up some digits, not more than 15 though
  let ((nd, mant), sp) ← pick 15 0 sp
  -- just pick up digits, the first one determines the round off
  let c ← deref sp
  let (expo, sp) ← skipWhile isdigit sp
  fraction nd mant (isRound c) expo sp

/-- `strtobcd64` -/
def strtobcd64 (src : Ptr) : Res (Bcd64 × Ptr) := do
  let (sign, sp) ← signOf src
  let ((mant, roff, expo), sp) ← digits64 sp
  let mant ← if roff then roundBcd64 mant (if sign then -1 else 1) else pure mant
  pure ({ mant, expo, sign := if sign then 1 else 0 }, sp)

/-- The first half of `bcd64tobid`: the most significant nibble becomes the lowest. -/
def mirror (w : BitVec 64) : BitVec 64 :=
  let w := (w &&& 0xffffffff00000000) >>> 32 ^^^ (w &&& 0x00000000ffffffff) <<< 32
  let w := (w &&& 0xffff0000ffff0000) >>> 16 ^^^ (w &&& 0x0000ffff0000ffff) <<< 16
  let w := (w &&& 0xff00ff00ff00ff00) >>> 8 ^^^ (w &&& 0x00ff00ff00ff00ff) <<< 8
  (w &&& 0xf0f0f0f0f0f0f0f0) >>> 4 ^^^ (w &&& 0x0f0f0f0f0f0f0f0f) <<< 4

/-- `for (i; i > 0U; b.mant >>= 4U, i--) { m *= 10U; m += b.mant & 0b1111ULL; }` -/
def unpack : ℕ → BitVec 64 → BitVec 64 → BitVec 64
  | 0, _, m => m
  | i + 1, w, m => unpack i (w >>> 4) (m * 10 + (w &&& 0xf))

/-- `bcd64tobid` -/
def bcd64tobid (b : Bcd64) : Decimal64 :=
  assembleBid (unpack 15 (mirror b.mant >>> 4) 0) (BitVec.ofInt 64 (b.expo + 398))
    (BitVec.ofInt 64 b.sign)

/-- `strtod64`, which is `strtobid64` in this build. -/
def strtod64 (src : Ptr) : Res (Decimal64 × Ptr) := do
  let (b, on) ← strtobcd64 src
  pure (bcd64tobid b, on)

/-! ## The mirrored word -/

theorem swap_bit {hi lo : BitVec 64} {k : ℕ}
    (hm : ∀ i < 64, (hi.getLsbD (i + k) = true ∧ i ^^^ k = i + k ∧
        (k ≤ i → lo.getLsbD (i - k) = false)) ∨
      (hi.getLsbD (i + k) = false ∧ k ≤ i ∧ lo.getLsbD (i - k) = true ∧ i ^^^ k = i - k))
    (w : BitVec 64) {i : ℕ} (hi64 : i < 64) :
    ((w &&& hi) >>> k ^^^ (w &&& lo) <<< k).getLsbD i = w.getLsbD (i ^^^ k) := by
  rw [BitVec.getLsbD_xor, BitVec.getLsbD_ushiftRight, BitVec.getLsbD_shiftLeft,
    BitVec.getLsbD_and, BitVec.getLsbD_and, Nat.add_comm k i]
  rcases hm i hi64 with ⟨h1, h2, h3⟩ | ⟨h1, h2, h3, h4⟩
  · rw [h1, h2]
    by_cases hk : i < k
    · simp [hk]
    · simp [h3 (by omega)]
  · rw [h1, h3, h4]
    simp [hi64, h2]

/-- **The mirror exchanges nibble `i` with nibble `15 - i`.** -/
theorem mirror_bit (w : BitVec 64) {i : ℕ} (h : i < 64) :
    (mirror w).getLsbD i = w.getLsbD (i ^^^ 60) := by
  have hlt : ∀ {i k : ℕ}, i < 64 → k < 64 → i ^^^ k < 64 := fun hi hk =>
    Nat.xor_lt_two_pow (n := 6) hi hk
  unfold mirror
  rw [swap_bit (by decide) _ h, swap_bit (by decide) _ (hlt h (by decide)),
    swap_bit (by decide) _ (hlt (hlt h (by decide)) (by decide)),
    swap_bit (by decide) _ (hlt (hlt (hlt h (by decide)) (by decide)) (by decide))]
  rw [Nat.xor_assoc, Nat.xor_assoc, Nat.xor_assoc]
  rfl

theorem mirror_nibble (w : BitVec 64) {k : ℕ} (hk : k < 16) :
    (mirror w).toNat / 16 ^ k % 16 = w.toNat / 16 ^ (15 - k) % 16 := by
  have hidx : ∀ k < 16, ∀ j < 4, (4 * k + j) ^^^ 60 = 4 * (15 - k) + j := by decide
  apply Nat.eq_of_testBit_eq
  intro j
  rw [show (16 : ℕ) = 2 ^ 4 from rfl, ← pow_mul, ← pow_mul, Nat.testBit_mod_two_pow,
    Nat.testBit_mod_two_pow, Nat.testBit_div_two_pow, Nat.testBit_div_two_pow]
  by_cases hj : j < 4
  · have h := mirror_bit w (i := 4 * k + j) (by omega)
    rw [hidx k hk j hj] at h
    rw [BitVec.getLsbD, BitVec.getLsbD] at h
    rw [Nat.add_comm j, Nat.add_comm j, h]
  · simp [hj]

theorem numeral_mirror (w : BitVec 64) :
    Radix.numeral 16 16 (mirror w).toNat = (Radix.numeral 16 16 w.toNat).reverse := by
  apply List.ext_getElem?
  intro k
  by_cases hk : k < 16
  · rw [Radix.getElem?_numeral hk, List.getElem?_reverse (by simpa using hk),
      Radix.length_numeral, Radix.getElem?_numeral (by omega), mirror_nibble w hk]
  · rw [List.getElem?_eq_none (by simp; omega), List.getElem?_eq_none (by simp; omega)]

theorem toNat_unpack (n : ℕ) : ∀ (j : ℕ) (w m : BitVec 64), n + j ≤ 15 →
    9 * m.toNat + 15 ≤ 15 * 10 ^ j →
    (unpack n w m).toNat =
      (Radix.numeral 16 n w.toNat).foldl (fun a d => a * 10 + d) m.toNat := by
  induction n with
  | zero => intro j w m _ _; rfl
  | succ n ih =>
      intro j w m hj hm
      have hp : (10 : ℕ) ^ j ≤ 10 ^ 14 := Nat.pow_le_pow_right (by decide) (by omega)
      have hd := Word.toNat_nibble w
      have hstep : (m * 10 + (w &&& 0xf)).toNat = m.toNat * 10 + w.toNat % 16 := by
        rw [BitVec.toNat_add, BitVec.toNat_mul, hd, show (10 : BitVec 64).toNat = 10 from rfl]
        omega
      rw [unpack, ih (j + 1) _ _ (by omega) (by rw [hstep, pow_succ]; omega), hstep,
        Word.toNat_shr, Radix.numeral, List.foldl_cons]

/-- **The mirrored word is multiplied out to the packed number.** -/
theorem toNat_unpack_mirror (w : BitVec 64) :
    (unpack 15 (mirror w >>> 4) 0).toNat = Radix.recode 16 10 15 w.toNat := by
  have h : (Radix.numeral 16 15 (mirror w >>> 4).toNat).reverse =
      Radix.numeral 16 15 w.toNat := by
    have hm := numeral_mirror w
    rw [Radix.numeral_add 15 1 w.toNat, List.reverse_append] at hm
    rw [Word.toNat_shr, List.reverse_eq_iff]
    exact congrArg List.tail hm
  rw [toNat_unpack 15 0 _ _ (by omega) (by decide), Radix.foldl_horner, h]
  simp [Radix.recode]

/-- The packed decimal word of `m`. -/
def bcd (m : ℕ) : ℕ := Radix.recode 10 16 15 m

/-- **A packed number is assembled as it is.** -/
theorem bcd64tobid_eq {m : ℕ} (hm : m < 10 ^ 15) {mant : BitVec 64} (h : mant.toNat = bcd m)
    (e s : ℤ) :
    bcd64tobid ⟨mant, e, s⟩ =
      assembleBid (BitVec.ofNat 64 m) (BitVec.ofInt 64 (e + 398)) (BitVec.ofInt 64 s) := by
  have hu : unpack 15 (mirror mant >>> 4) 0 = BitVec.ofNat 64 m := by
    rw [← BitVec.toNat_inj, toNat_unpack_mirror, h, bcd,
      Radix.recode_recode (by decide) (by decide) hm, BitVec.toNat_ofNat, Nat.mod_eq_of_lt (by omega)]
  rw [bcd64tobid, hu]

/-! ## Known digit strings -/

/-- Digits pushed one after the other. -/
def packAll (mant : BitVec 64) (ds : List ℕ) : BitVec 64 :=
  ds.foldl (fun w d => w <<< 4 ||| BitVec.ofNat 64 d) mant

theorem U_digitByte {d : ℕ} (h : d < 10) : U (digitByte d) = BitVec.ofNat 64 d := by
  have hle : ch '0' ≤ digitByte d := by
    rw [UInt8.le_iff_toNat_le, toNat_digitByte h]
    exact Nat.le_add_right 48 d
  rw [U, UInt8.toNat_sub_of_le _ _ hle, toNat_digitByte h]
  change BitVec.ofNat 64 (48 + d - 48) = _
  rw [Nat.add_sub_cancel_left]

/-- **The digit scanner on a digit string it has room for.** -/
theorem pick_append {ds : List ℕ} (hds : ∀ d ∈ ds, d < 10) {nd : ℕ} (hn : ds.length ≤ nd)
    (mant : BitVec 64) {c : UInt8} (hc : isdigit c = false ∨ ds.length = nd) (r : Ptr) :
    pick nd mant (ds.map digitByte ++ c :: r) =
      .ok ((nd - ds.length, packAll mant ds), c :: r) := by
  induction ds generalizing nd mant with
  | nil =>
      rw [List.map_nil, List.nil_append, pick, if_neg]
      · rfl
      · rcases hc with hc | hc
        · simp [hc]
        · simp [← hc]
  | cons d ds ih =>
      rw [List.length_cons] at hn hc
      have hd : d < 10 := hds d List.mem_cons_self
      rw [List.map_cons, List.cons_append, pick, if_pos (by simp [isdigit_digitByte hd]; omega),
        ih (fun x hx => hds x (List.mem_cons_of_mem _ hx)) (by omega) _
          (hc.imp_right fun h => by omega), U_digitByte hd, List.length_cons]
      rw [show nd - 1 - ds.length = nd - (ds.length + 1) by omega]
      rfl

theorem toNat_packAll {ds : List ℕ} (hds : ∀ d ∈ ds, d < 10) {j : ℕ} {mant : BitVec 64}
    (hm : mant.toNat < 16 ^ j) (hj : j + ds.length ≤ 15) :
    (packAll mant ds).toNat = mant.toNat * 16 ^ ds.length + Nat.ofDigits 16 ds.reverse := by
  rw [← Radix.foldl_horner]
  induction ds generalizing j mant with
  | nil => rfl
  | cons d ds ih =>
      rw [List.length_cons] at hj
      have hd : d < 10 := hds d List.mem_cons_self
      have hdn : (BitVec.ofNat 64 d).toNat = d := by
        rw [BitVec.toNat_ofNat, Nat.mod_eq_of_lt (by omega)]
      have hp : (16 : ℕ) ^ j ≤ 2 ^ 60 :=
        (Nat.pow_le_pow_right (by decide) (show j ≤ 15 by omega)).trans (by decide)
      have hstep : (mant <<< 4 ||| BitVec.ofNat 64 d).toNat = mant.toNat * 16 + d := by
        rw [Word.toNat_shl_or (hm.trans_le hp) (by rw [hdn]; omega), hdn]
      rw [packAll, List.foldl_cons, ← packAll, List.foldl_cons,
        ih (fun x hx => hds x (List.mem_cons_of_mem _ hx)) (j := j + 1)
          (by rw [hstep, pow_succ]; omega) (by omega), hstep]

/-- The integer part: leading zeros, then digits. -/
theorem intDigits_decimal {q k : ℕ} (hq : q < 10 ^ k) (hk : k ≤ 15) {c : UInt8}
    (hc : isdigit c = false) (r : Ptr) :
    ∃ z p nd mant, skipWhile (· == ch '0') (decimal q ++ c :: r) = .ok (z, p) ∧
      pick 15 0 p = .ok ((nd, mant), c :: r) ∧ 15 - k ≤ nd ∧ (0 < nd ∨ q ≠ 0) ∧
      mant.toNat = Radix.recode 10 16 k q := by
  have hc0 : (c == ch '0') = false := by
    by_contra h
    rw [Bool.not_eq_false, beq_iff_eq] at h
    subst h
    exact absurd hc (by decide)
  by_cases h0 : q = 0
  · subst h0
    refine ⟨1, c :: r, 15, 0, ?_, ?_, by omega, Or.inl (by omega), ?_⟩
    · rw [decimal_zero, List.singleton_append, skipWhile, if_pos (by decide), skipWhile, if_neg]
      · rfl
      · simpa using hc0
    · have hds : ∀ d ∈ ([] : List ℕ), d < 10 := by simp
      exact pick_append hds (Nat.zero_le _) 0 (Or.inl hc) r
    · rw [Radix.recode_zero]; rfl
  · obtain ⟨d, ds, hds, hd0, hd⟩ := digits_reverse_cons h0
    have hall : ∀ x ∈ (Nat.digits 10 q).reverse, x < 10 := fun x hx => lt_of_mem_digits hx
    have hlen : (Nat.digits 10 q).reverse.length ≤ k := by
      rw [List.length_reverse, Nat.digits_length_le_iff (by decide)]; exact hq
    have hval : Nat.ofDigits 16 (Nat.digits 10 q) = Radix.recode 10 16 k q := by
      rw [Radix.recode, Radix.numeral_eq_digits (by decide) hq, Nat.ofDigits_append_replicate_zero]
    refine ⟨0, decimal q ++ c :: r, 15 - (Nat.digits 10 q).reverse.length,
      packAll 0 (Nat.digits 10 q).reverse, ?_, ?_, by omega, Or.inr h0, ?_⟩
    · rw [decimal_eq_map h0, hds, List.map_cons, List.cons_append, skipWhile, if_neg]
      rw [beq_iff_eq, digitByte_eq_zero hd]
      exact hd0
    · rw [decimal_eq_map h0]
      exact pick_append hall (by omega) 0 (Or.inl hc) r
    · rw [toNat_packAll hall (j := 0) (by decide) (by omega), List.reverse_reverse, hval]
      simp

/-- A byte that ends a number. -/
def stops (c : UInt8) : Prop := isdigit c = false ∧ c ≠ ch '.'

instance : DecidablePred stops := fun _ => inferInstanceAs (Decidable (_ ∧ _))

theorem isdigit_of_isRound {c : UInt8} (h : isRound c = true) : isdigit c = true := by
  rw [isRound, Bool.and_eq_true, decide_eq_true_iff, decide_eq_true_iff] at h
  rw [isdigit, Bool.and_eq_true, decide_eq_true_iff, decide_eq_true_iff]
  exact ⟨UInt8.le_trans (by decide : ch '0' ≤ ch '5') h.1, h.2⟩

theorem isRound_of_not_isdigit {c : UInt8} (h : isdigit c = false) : isRound c = false := by
  by_contra hr
  rw [Bool.not_eq_false] at hr
  rw [isdigit_of_isRound hr] at h
  cases h

theorem skip_of_stop {c : UInt8} (hc : isdigit c = false) (r : Ptr) :
    skipWhile isdigit (c :: r) = .ok (0, c :: r) :=
  skipWhile_append (w := []) (by simp) hc r

/-- **Scanning a whole number.** -/
theorem digits64_decimal {m : ℕ} (hm : m < 10 ^ 15) {c : UInt8} (hc : stops c) (r : Ptr) :
    ∃ mant, digits64 (decimal m ++ c :: r) = .ok ((mant, false, 0), c :: r) ∧
      mant.toNat = bcd m := by
  obtain ⟨z, p, nd, mant, hs, hp, _, _, hv⟩ := intDigits_decimal hm le_rfl hc.1 r
  refine ⟨mant, ?_, hv⟩
  simp only [digits64, fraction, hs, hp, bind, Except.bind, deref, skip_of_stop hc.1,
    isRound_of_not_isdigit hc.1, hc.2, false_and, if_false]
  rfl

/-- **Scanning a number with a fraction of `n` digits.** -/
theorem digits64_fixed {m n : ℕ} (hm : m < 10 ^ 15) (hn : 0 < n) (hn15 : n ≤ 15) {c : UInt8}
    (hc : stops c) (r : Ptr) :
    ∃ mant, digits64 (decimal (m / 10 ^ n) ++ ch '.' :: (fixedDigits n m ++ c :: r)) =
        .ok ((mant, false, -n), c :: r) ∧ mant.toNat = bcd m := by
  have hq : m / 10 ^ n < 10 ^ (15 - n) := by
    apply Nat.div_lt_of_lt_mul
    rwa [← pow_add, show n + (15 - n) = 15 by omega]
  obtain ⟨z, p, nd, mant, hs, hp, hnd, _, hv⟩ := intDigits_decimal hq (by omega) (c := ch '.')
    (by decide) (fixedDigits n m ++ c :: r)
  have hall : ∀ x ∈ (Radix.numeral 10 n m).reverse, x < 10 := fun x hx => lt_of_mem_numeral hx
  have hlen : (Radix.numeral 10 n m).reverse.length ≤ nd := by
    simp
    omega
  have hpick := pick_append hall hlen mant (Or.inl hc.1) r
  have hpos : 0 < nd := by omega
  refine ⟨packAll mant (Radix.numeral 10 n m).reverse, ?_, ?_⟩
  · simp only [digits64, fraction, hs, hp, bind, Except.bind, deref, List.tail_cons,
      skip_of_stop (c := ch '.') (by decide), hpos, and_self, if_true]
    rw [← fixedDigits] at hpick
    simp only [hpick, skip_of_stop hc.1, isRound_of_not_isdigit hc.1]
    simp only [List.length_reverse, Radix.length_numeral, pure, Except.pure]
    rw [show nd - (nd - n) = n by omega, Nat.cast_zero, zero_sub]
    rfl
  · have hlt : mant.toNat < 16 ^ (15 - n) := by
      rw [hv]; exact Radix.recode_lt (by decide) (by decide) (by decide) _ _
    rw [toNat_packAll hall hlt (by simp; omega), hv, List.reverse_reverse, List.length_reverse,
      Radix.length_numeral, bcd]
    have h := Radix.recode_add (b := 10) (c := 16) n (15 - n) m
    rw [show n + (15 - n) = 15 by omega] at h
    rw [h, Radix.recode, Radix.recode]
    ring

end Unserlob
