import Unserlob.D64.Scan
import Unserlob.Lib.Writer

/-!
# Writing decimals (`bcd64tostr`, `bid64tostr`)

The text is written from its last byte to its first into what is left of a buffer and then turned
round; here each byte is put in front of those written before it. Every store is guarded by the
room, so a text that does not fit loses its head.

* `bcd64tostr`, `bid64tostr`: the source's functions, returning the bytes they leave in the buffer;
* `numText`, `d64Text`: the text a decimal has when there is room;
* **`bid64tostr_eq`**: what is written is the tail of the text that fits.
-/

namespace Unserlob

open Ascii Cursor

/-- `*bp++ = c`, if `bp < ep`. -/
def cap (bsz : ℕ) (out : List UInt8) (c : UInt8) : List UInt8 :=
  if out.length < bsz then c :: out else out

/-- `C(x)` of the lowest nibble. -/
def C (mant : BitVec 64) : UInt8 := UInt8.ofNat ((mant &&& 0xf).toNat + (ch '0').toNat)

/-- `for (; b.expo < 0 && bp < ep; b.expo++, b.mant >>= 4U)`, for `n` below the point. -/
def rightOf (bsz : ℕ) : ℕ → BitVec 64 → List UInt8 → BitVec 64 × List UInt8
  | 0, mant, out => (mant, out)
  | n + 1, mant, out =>
    if out.length < bsz then rightOf bsz n (mant >>> 4) (C mant :: out) else (mant, out)

/-- `for (; b.expo > 0 && bp < ep; b.expo--)` -/
def trailing (bsz : ℕ) : ℕ → List UInt8 → List UInt8
  | 0, out => out
  | n + 1, out => if out.length < bsz then trailing bsz n (ch '0' :: out) else out

/-- `for (; b.mant && bp < ep; b.mant >>= 4U)`; sixteen nibbles at most. -/
def leftOf (bsz : ℕ) : ℕ → BitVec 64 → List UInt8 → List UInt8
  | 0, _, out => out
  | n + 1, mant, out =>
    if mant ≠ 0 ∧ out.length < bsz then leftOf bsz n (mant >>> 4) (C mant :: out) else out

/-- `bcd64tostr` -/
def bcd64tostr (bsz : ℕ) (b : Bcd64) : List UInt8 :=
  -- write the right-of-point side first
  let (mant, out) := rightOf bsz (-b.expo).toNat b.mant []
  -- write point now
  let out := if out ≠ [] then cap bsz out (ch '.') else out
  -- write trailing 0s for left-of-point side
  let out := trailing bsz b.expo.toNat out
  -- now write the rest of the mantissa
  let out := if mant ≠ 0 then leftOf bsz 16 mant out else cap bsz out (ch '0')
  if b.sign ≠ 0 then cap bsz out (ch '-') else out

/-- `m` reencoded as bcd: `for (i = 0; i < 16U; i++) { bcdm >>= 4U; … bcdm ^= digit << 60U; }` -/
def reencode : ℕ → BitVec 64 → BitVec 64 → BitVec 64
  | 0, _, bcdm => bcdm
  | i + 1, m, bcdm => reencode i (m / 10) ((bcdm >>> 4) ^^^ ((m % 10) <<< 60))

/-- `bid64tostr` -/
def bid64tostr (bsz : ℕ) (x : Decimal64) : List UInt8 :=
  let e := quantexpbid64 x
  let m := mantBid64 x
  -- no stinking signed naughts
  let s := if m ≠ 0 then signBid64 x else 0
  bcd64tostr bsz ⟨reencode 16 m 0, e, s⟩

/-! ## The text of a decimal -/

/-- The text of `± m · 10 ^ e`. -/
def numText (neg : Bool) (m : ℕ) (e : ℤ) : List UInt8 :=
  (if neg then [ch '-'] else []) ++
    if e < 0 then decimal (m / 10 ^ (-e).toNat) ++ ch '.' :: fixedDigits (-e).toNat m
    else decimal m ++ List.replicate e.toNat (ch '0')

/-- The text of a finite word; the coefficient is printed with sixteen digits at most. -/
def finText (x : Decimal64) : List UInt8 :=
  numText (mantBid64 x ≠ 0 ∧ signBid64 x ≠ 0) ((mantBid64 x).toNat % 10 ^ 16) (quantexpbid64 x)

/-- **The text of a word.** -/
def d64Text (x : Decimal64) : List UInt8 :=
  if isnand64 x then [ch 'n', ch 'a', ch 'n']
  else if isinfd64 x then
    (if signBid64 x ≠ 0 then [ch '-'] else []) ++ [ch 'i', ch 'n', ch 'f']
  else finText x

/-! ## Capped writing -/

variable {bsz : ℕ}

theorem foldl_cap (cs out : List UInt8) (h : out.length ≤ bsz) :
    cs.foldl (cap bsz) out = (cs.take (bsz - out.length)).reverse ++ out := by
  induction cs generalizing out with
  | nil => simp
  | cons c cs ih =>
      rw [List.foldl_cons, cap]
      by_cases hlt : out.length < bsz
      · rw [if_pos hlt, ih _ (by simpa using hlt), List.length_cons,
          show bsz - out.length = bsz - (out.length + 1) + 1 by omega, List.take_succ_cons,
          List.reverse_cons, List.append_assoc, List.singleton_append]
      · rw [if_neg hlt, ih _ h, show bsz - out.length = 0 by omega]
        rfl

theorem foldl_cap_full {cs out : List UInt8} (h : ¬ out.length < bsz) :
    cs.foldl (cap bsz) out = out := by
  induction cs with
  | nil => rfl
  | cons c cs ih => rw [List.foldl_cons, cap, if_neg h, ih]

/-- The bytes of the `n` lowest nibbles, lowest first. -/
def nibbles : ℕ → BitVec 64 → List UInt8
  | 0, _ => []
  | n + 1, mant => C mant :: nibbles n (mant >>> 4)

/-- The bytes of the nibbles up to the highest that is not zero, lowest first. -/
def nibbles0 : ℕ → BitVec 64 → List UInt8
  | 0, _ => []
  | n + 1, mant => if mant ≠ 0 then C mant :: nibbles0 n (mant >>> 4) else []

variable (bsz) in
theorem rightOf_eq (n : ℕ) (mant : BitVec 64) (out : List UInt8) :
    (rightOf bsz n mant out).2 = (nibbles n mant).foldl (cap bsz) out ∧
      ((rightOf bsz n mant out).2.length < bsz →
        (rightOf bsz n mant out).1 = mant >>> (4 * n)) := by
  induction n generalizing mant out with
  | zero => exact ⟨rfl, fun _ => (BitVec.ushiftRight_zero mant).symm⟩
  | succ n ih =>
      rw [rightOf]
      by_cases h : out.length < bsz
      · rw [if_pos h, nibbles, List.foldl_cons, cap, if_pos h, Nat.mul_succ, Nat.add_comm,
          BitVec.shiftRight_add]
        exact ih _ _
      · rw [if_neg h]
        exact ⟨(foldl_cap_full h).symm, fun hlt => absurd hlt h⟩

theorem trailing_eq (n : ℕ) (out : List UInt8) :
    trailing bsz n out = (List.replicate n (ch '0')).foldl (cap bsz) out := by
  induction n generalizing out with
  | zero => rfl
  | succ n ih =>
      rw [trailing, List.replicate_succ, List.foldl_cons, cap]
      by_cases h : out.length < bsz
      · rw [if_pos h, if_pos h, ih]
      · rw [if_neg h, if_neg h, foldl_cap_full h]

theorem leftOf_eq (n : ℕ) (mant : BitVec 64) (out : List UInt8) :
    leftOf bsz n mant out = (nibbles0 n mant).foldl (cap bsz) out := by
  induction n generalizing mant out with
  | zero => rfl
  | succ n ih =>
      rw [leftOf, nibbles0]
      by_cases hm : mant ≠ 0
      · rw [if_pos hm, List.foldl_cons, cap]
        by_cases h : out.length < bsz
        · rw [if_pos ⟨hm, h⟩, if_pos h, ih]
        · rw [if_neg fun hc => h hc.2, if_neg h, foldl_cap_full h]
      · rw [if_neg fun hc => hm hc.1, if_neg hm]
        rfl

/-- The bytes in the order they are written. -/
def writes (b : Bcd64) : List UInt8 :=
  let n := (-b.expo).toNat
  let mant := b.mant >>> (4 * n)
  nibbles n b.mant ++ (if n ≠ 0 then [ch '.'] else []) ++
    List.replicate b.expo.toNat (ch '0') ++
    (if mant ≠ 0 then nibbles0 16 mant else [ch '0']) ++ (if b.sign ≠ 0 then [ch '-'] else [])

theorem foldl_cap_ite (p : Prop) [Decidable p] (cs ds out : List UInt8) :
    (if p then cs.foldl (cap bsz) out else ds.foldl (cap bsz) out) =
      (if p then cs else ds).foldl (cap bsz) out := by
  split_ifs <;> rfl

/-- **Only the guard on the room is left of the phases.** -/
theorem bcd64tostr_eq (b : Bcd64) : bcd64tostr bsz b = (writes b).foldl (cap bsz) [] := by
  obtain ⟨h1, h2⟩ := rightOf_eq bsz (-b.expo).toNat b.mant []
  have hpoint : ∀ out : List UInt8, (rightOf bsz (-b.expo).toNat b.mant []).2 = out →
      (if out ≠ [] then cap bsz out (ch '.') else out) =
        (if (-b.expo).toNat ≠ 0 then [ch '.'] else []).foldl (cap bsz) out := by
    rintro out rfl
    rcases Nat.eq_zero_or_pos (-b.expo).toNat with h0 | hpos
    · simp [h0, rightOf]
    · rcases Nat.eq_zero_or_pos bsz with rfl | hb
      · rw [if_pos (by omega : (-b.expo).toNat ≠ 0)]
        simp [cap]
      · have hne : (rightOf bsz (-b.expo).toNat b.mant []).2 ≠ [] := by
          rw [h1, foldl_cap _ _ (Nat.zero_le _)]
          obtain ⟨n, hn⟩ : ∃ n, (-b.expo).toNat = n + 1 := ⟨_, (Nat.succ_pred_eq_of_pos hpos).symm⟩
          obtain ⟨k, rfl⟩ : ∃ k, bsz = k + 1 := ⟨bsz - 1, by omega⟩
          rw [hn, nibbles]
          simp
        rw [if_pos hne, if_pos (by omega : (-b.expo).toNat ≠ 0)]
        rfl
  simp only [writes, List.foldl_append, bcd64tostr]
  rw [hpoint _ rfl, ← h1, trailing_eq]
  set out := (List.replicate b.expo.toNat (ch '0')).foldl (cap bsz)
    ((if (-b.expo).toNat ≠ 0 then [ch '.'] else []).foldl (cap bsz)
      (rightOf bsz (-b.expo).toNat b.mant []).2) with hout
  have hmid : (if (rightOf bsz (-b.expo).toNat b.mant []).1 ≠ 0 then
      leftOf bsz 16 (rightOf bsz (-b.expo).toNat b.mant []).1 out else cap bsz out (ch '0')) =
      (if b.mant >>> (4 * (-b.expo).toNat) ≠ 0 then
        nibbles0 16 (b.mant >>> (4 * (-b.expo).toNat))
        else [ch '0']).foldl (cap bsz) out := by
    by_cases hfull : out.length < bsz
    · have hshort : (rightOf bsz (-b.expo).toNat b.mant []).2.length < bsz := by
        by_contra hc
        rw [foldl_cap_full hc, foldl_cap_full hc] at hout
        exact hc (hout ▸ hfull)
      rw [h2 hshort, leftOf_eq, ← foldl_cap_ite]
      rfl
    · rw [foldl_cap_full hfull, leftOf_eq, foldl_cap_full hfull, cap, if_neg hfull, ite_self]
  rw [hmid]
  by_cases hs : b.sign ≠ 0
  · rw [if_pos hs, if_pos hs]; rfl
  · rw [if_neg hs, if_neg hs]; rfl

/-! ## The reencoded coefficient -/

theorem toNat_reencode (i : ℕ) : ∀ (m acc : BitVec 64), i ≤ 16 →
    (reencode i m acc).toNat =
      acc.toNat / 16 ^ i + 16 ^ (16 - i) * Radix.recode 10 16 i m.toNat := by
  induction i with
  | zero => intro m acc _; simp [reencode, Radix.recode, Radix.numeral]
  | succ i ih =>
      intro m acc hi
      have hacc := acc.isLt
      have hdiv : (m / 10).toNat = m.toNat / 10 := BitVec.toNat_udiv
      have hmod : (m % 10).toNat = m.toNat % 10 := BitVec.toNat_umod
      have hstep : ((acc >>> 4) ^^^ ((m % 10) <<< 60)).toNat =
          acc.toNat / 16 + m.toNat % 10 * (16 ^ (15 - i) * 16 ^ i) := by
        rw [BitVec.toNat_xor, Word.toNat_shr, BitVec.toNat_shiftLeft, hmod, Nat.shiftLeft_eq,
          Nat.mod_eq_of_lt (by omega), Nat.xor_comm, Word.xor_of_lt _ (by omega), ← pow_add,
          show 15 - i + i = 15 by omega, Nat.add_comm]
        rfl
      rw [reencode, ih _ _ (by omega), hstep, hdiv, ← Nat.mul_assoc,
        Nat.add_mul_div_right _ _ (pow_pos (by decide) i), Nat.div_div_eq_div_mul, ← pow_succ',
        Radix.recode_succ, show 16 - i = 15 - i + 1 by omega, show 16 - (i + 1) = 15 - i by omega,
        pow_succ]
      ring

/-- **The packed coefficient holds its sixteen lowest digits.** -/
theorem toNat_reencode_eq (m : BitVec 64) :
    (reencode 16 m 0).toNat = Radix.recode 10 16 16 (m.toNat % 10 ^ 16) := by
  rw [toNat_reencode 16 m 0 le_rfl, Radix.recode, Radix.recode, Radix.numeral_mod le_rfl]
  simp

theorem C_eq (mant : BitVec 64) : C mant = digitByte (mant.toNat % 16) := by
  rw [C, Word.toNat_nibble, Nat.add_comm]
  rfl

theorem nibbles_eq (n : ℕ) (mant : BitVec 64) :
    nibbles n mant = (Radix.numeral 16 n mant.toNat).map digitByte := by
  induction n generalizing mant with
  | zero => rfl
  | succ n ih => rw [nibbles, ih, C_eq, Word.toNat_shr, Radix.numeral, List.map_cons]

theorem nibbles0_eq (n : ℕ) (mant : BitVec 64) (h : mant.toNat < 16 ^ n) :
    nibbles0 n mant = (Nat.digits 16 mant.toNat).map digitByte := by
  induction n generalizing mant with
  | zero =>
      have h0 : mant.toNat = 0 := by simpa using h
      rw [h0]; rfl
  | succ n ih =>
      rw [nibbles0]
      by_cases hm : mant = 0
      · simp [hm]
      · have hpos : 0 < mant.toNat :=
          Nat.pos_of_ne_zero fun h0 => hm (BitVec.eq_of_toNat_eq h0)
        rw [if_pos hm, ih _ (by rw [Word.toNat_shr]; exact Nat.div_lt_of_lt_mul (by rwa [← pow_succ'])),
          C_eq, Word.toNat_shr, Nat.digits_def' (by decide) hpos, List.map_cons]

section Reencode

variable (m : BitVec 64) (n : ℕ)

theorem coef_lt : m.toNat % 10 ^ 16 < 10 ^ 16 := Nat.mod_lt _ (by decide)

theorem coef_div_lt : m.toNat % 10 ^ 16 / 10 ^ n < 10 ^ 16 :=
  (Nat.div_le_self _ _).trans_lt (coef_lt m)

theorem nibbles_reencode :
    (nibbles n (reencode 16 m 0)).reverse = fixedDigits n (m.toNat % 10 ^ 16) := by
  rw [nibbles_eq, toNat_reencode_eq, Radix.numeral_recode_of_lt (by decide) (by decide) (coef_lt m),
    fixedDigits, List.map_reverse]

theorem toNat_shr_reencode : ((reencode 16 m 0) >>> (4 * n)).toNat =
    Radix.recode 10 16 16 (m.toNat % 10 ^ 16 / 10 ^ n) := by
  rw [BitVec.toNat_ushiftRight, Nat.shiftRight_eq_div_pow, pow_mul, toNat_reencode_eq]
  exact Radix.recode_div (by decide) (by decide) (by decide) (coef_lt m) n

theorem digits_shr_reencode : Nat.digits 16 ((reencode 16 m 0) >>> (4 * n)).toNat =
    Nat.digits 10 (m.toNat % 10 ^ 16 / 10 ^ n) := by
  rw [toNat_shr_reencode]
  exact Radix.digits_recode (by decide) (by decide) (coef_div_lt m n)

theorem left_reencode : (if (reencode 16 m 0) >>> (4 * n) ≠ 0 then
      nibbles0 16 ((reencode 16 m 0) >>> (4 * n)) else [ch '0']).reverse =
    decimal (m.toNat % 10 ^ 16 / 10 ^ n) := by
  have hdig := digits_shr_reencode m n
  by_cases h0 : (reencode 16 m 0) >>> (4 * n) = 0
  · have hz : m.toNat % 10 ^ 16 / 10 ^ n = 0 := by
      rw [h0] at hdig
      exact Nat.digits_eq_nil_iff_eq_zero.mp hdig.symm
    rw [if_neg (not_not.mpr h0), hz, decimal_zero, List.reverse_singleton]
  · have hz : m.toNat % 10 ^ 16 / 10 ^ n ≠ 0 := by
      intro hz
      rw [hz, Nat.digits_zero, Nat.digits_eq_nil_iff_eq_zero] at hdig
      exact h0 (BitVec.eq_of_toNat_eq hdig)
    rw [if_pos h0, nibbles0_eq 16 _ (BitVec.isLt _), hdig, decimal_eq_map hz, List.map_reverse]

end Reencode

/-- **Turned round, the bytes written are the text.** -/
theorem writes_reverse (m : BitVec 64) (e s : ℤ) :
    (writes ⟨reencode 16 m 0, e, s⟩).reverse =
      numText (decide (s ≠ 0)) (m.toNat % 10 ^ 16) e := by
  have hsign : (if s ≠ 0 then [ch '-'] else []).reverse =
      if decide (s ≠ 0) = true then [ch '-'] else [] := by
    by_cases hs : s = 0 <;> simp [hs]
  simp only [writes, List.reverse_append, left_reencode, nibbles_reencode, hsign, numText,
    List.reverse_replicate]
  by_cases he : e < 0
  · simp only [if_pos he, if_pos (show (-e).toNat ≠ 0 by omega), show e.toNat = 0 by omega,
      List.replicate_zero, List.reverse_singleton, List.nil_append, List.singleton_append]
  · simp only [if_neg he, show (-e).toNat = 0 by omega, ne_eq, not_true_eq_false, if_false,
      List.reverse_nil, fixedDigits, Radix.numeral, List.map_nil, List.append_nil, pow_zero,
      Nat.div_one]

/-- **What is written is the tail of the text that fits.** -/
theorem bid64tostr_eq (x : Decimal64) :
    bid64tostr bsz x = (finText x).drop ((finText x).length - bsz) := by
  have hneg : decide ((if mantBid64 x ≠ 0 then signBid64 x else 0) ≠ 0) =
      decide (mantBid64 x ≠ 0 ∧ signBid64 x ≠ 0) := by
    by_cases hm : mantBid64 x = 0 <;> simp [hm]
  rw [bid64tostr, bcd64tostr_eq, foldl_cap _ _ (Nat.zero_le _), List.append_nil,
    List.length_nil, Nat.sub_zero, List.reverse_take, finText]
  rw [writes_reverse, hneg, ← List.length_reverse, writes_reverse, hneg]

theorem bid64tostr_of_le {x : Decimal64} (h : (finText x).length ≤ bsz) :
    bid64tostr bsz x = finText x := by
  rw [bid64tostr_eq, Nat.sub_eq_zero_of_le h, List.drop_zero]

theorem length_bid64tostr (x : Decimal64) :
    (bid64tostr bsz x).length = min bsz (finText x).length := by
  rw [bid64tostr_eq, List.length_drop]; omega

/-! ## Into a buffer -/

/-- The three letters of a word that is no finite number. -/
def nanText : List UInt8 := [ch 'n', ch 'a', ch 'n']

/-- The string literal for infinity, with its terminator. -/
def infLit : List UInt8 := [ch 'i', ch 'n', ch 'f', 0]

/-- What `d64tostr` stores with `room` bytes of room, and the number it returns. -/
def d64Bytes (x : Decimal64) (room : ℕ) : List UInt8 × ℕ :=
  if isnand64 x then
    let z := min 3 room
    (nanText.take z, z)
  else if isinfd64 x then
    -- the minus is stored without looking at the room; it stays in front of a negative infinity
    -- only, for which the terminator is copied too
    let z := min (3 + if signBid64 x ≠ 0 then 1 else 0) room
    if signBid64 x ≠ 0 ∨ z = 0 then (ch '-' :: infLit.take z, z) else (infLit.take z, z)
  else
    let t := bid64tostr room x
    (t ++ if t.length < room then [0] else [], t.length)

/-- `len += d64tostr(buf + len, bsz - len, x)` -/
def d64tostr (bsz : ℕ) (x : Decimal64) : Writer.Put := fun s =>
  let r := d64Bytes x (Writer.subSz bsz s.len)
  Writer.store r.1 r.2 s

/-- What is stored where the text fits: the text, and a terminator at most. -/
theorem d64Bytes_of_le {x : Decimal64} {r : ℕ} (h : (d64Text x).length ≤ r) :
    (d64Bytes x r).2 = (d64Text x).length ∧ ∃ e, (d64Bytes x r).1 = d64Text x ++ e ∧ (e = [] ∨ e = [0]) := by
  unfold d64Text at h ⊢
  unfold d64Bytes
  by_cases hn : isnand64 x
  · simp only [if_pos hn] at h ⊢
    rw [Nat.min_eq_left (show 3 ≤ r from h)]
    exact ⟨rfl, [], rfl, Or.inl rfl⟩
  by_cases hi : isinfd64 x
  · simp only [if_neg hn, if_pos hi] at h ⊢
    by_cases hs : signBid64 x ≠ 0
    · simp only [if_pos hs] at h ⊢
      rw [Nat.min_eq_left (show 3 + 1 ≤ r from h), if_pos (Or.inl hs)]
      exact ⟨rfl, [0], rfl, Or.inr rfl⟩
    · simp only [if_neg hs] at h ⊢
      rw [Nat.min_eq_left (show 3 + 0 ≤ r from h), if_neg (by simp [not_not.mp hs])]
      exact ⟨rfl, [], rfl, Or.inl rfl⟩
  · simp only [if_neg hn, if_neg hi] at h ⊢
    rw [bid64tostr_of_le h]
    refine ⟨rfl, _, rfl, ?_⟩
    split_ifs
    · exact Or.inr rfl
    · exact Or.inl rfl

theorem d64Bytes_fit {x : Decimal64} {r : ℕ} (h : (d64Text x).length < r) :
    (d64Bytes x r).2 = (d64Text x).length ∧ ∃ e, (d64Bytes x r).1 = d64Text x ++ e ∧ e.length ≤ 1 := by
  obtain ⟨hlen, e, he, hend⟩ := d64Bytes_of_le (Nat.le_of_lt h)
  refine ⟨hlen, e, he, ?_⟩
  rcases hend with rfl | rfl
  · exact Nat.zero_le 1
  · exact le_rfl

theorem d64Bytes_over {x : Decimal64} {r : ℕ} (h : r ≤ (d64Text x).length) : r ≤ (d64Bytes x r).2 := by
  unfold d64Text at h
  unfold d64Bytes
  by_cases hn : isnand64 x
  · simp only [if_pos hn] at h ⊢
    exact le_min h le_rfl
  by_cases hi : isinfd64 x
  · simp only [if_neg hn, if_pos hi] at h ⊢
    rw [apply_ite Prod.snd, ite_self]
    refine le_min (h.trans ?_) le_rfl
    by_cases hs : signBid64 x ≠ 0 <;> simp [hs]
  · simp only [if_neg hn, if_neg hi] at h ⊢
    rw [length_bid64tostr]
    exact le_min le_rfl h

/-- **`d64tostr` writes the text of the word.** -/
theorem prints_d64tostr (bsz : ℕ) (x : Decimal64) :
    Writer.Prints bsz (d64tostr bsz x) (d64Text x) :=
  Writer.Prints.store (f := fun r => (d64Bytes x r).1) (n := fun r => (d64Bytes x r).2)
    (fun _ => d64Bytes_fit) fun _ => d64Bytes_over

end Unserlob
