import Unserlob.D64.Columns

/-!
# What the number scanner keeps

The scanner keeps fifteen digits of a column, drops the rest, and looks at the first digit dropped.

* `intDigits`, `fracDigits`: the digits before and behind the point;
* `kept`, `roundsUp`, `expoOf`: what the scanner makes of them;
* **`digits64_eq`**, `strtobcd64At_eq`: the scanner on any column that ends;
* `strtobcd64At`: the scanner with a carry loop of so many turns; **`strtobcd64_returns_iff`**: it
  returns, with any number of turns, just when the column is not `Stuck`.
-/

namespace Unserlob

open Ascii Cursor

/-- The digits before the point, leading zeros left out. -/
def intDigits (p : Ptr) : List UInt8 := (p.dropWhile (· == ch '0')).takeWhile isdigit

/-- The digits behind the point, if what follows the integer digits is one. -/
def fracDigits (p : Ptr) : List UInt8 :=
  match p.dropWhile isdigit with
  | [] => []
  | c :: t => if c = ch '.' then t.takeWhile isdigit else []

/-- The room that the integer digits leave. -/
def fracRoom (p : Ptr) : ℕ := 15 - (intDigits p).length

/-- The digits kept. -/
def kept (p : Ptr) : List UInt8 := (intDigits p).take 15 ++ (fracDigits p).take (fracRoom p)

/-- The first digit dropped is `5` or more; behind fifteen integer digits the fraction is not looked
at. -/
def roundsUp (p : Ptr) : Bool :=
  isRound (((intDigits p).drop 15).headD 0) ||
    (decide (0 < fracRoom p) && isRound (((fracDigits p).drop (fracRoom p)).headD 0))

/-- The exponent that goes with the digits kept. -/
def expoOf (p : Ptr) : ℤ :=
  ((intDigits p).drop 15).length - ((fracDigits p).take (fracRoom p)).length

/-- The values of digit bytes. -/
def digitVals (w : List UInt8) : List ℕ := w.map fun c => c.toNat - 48

/-! ## Digit bytes -/

theorem digitVals_spec {w : List UInt8} (h : ∀ c ∈ w, isdigit c = true) :
    (digitVals w).map digitByte = w ∧ ∀ d ∈ digitVals w, d < 10 := by
  constructor
  · rw [digitVals, List.map_map]
    conv_rhs => rw [← List.map_id w]
    exact List.map_congr_left fun c hc => (eq_digitByte (h c hc)).2.symm
  · intro d hd
    obtain ⟨c, hc, rfl⟩ := List.mem_map.mp hd
    exact (eq_digitByte (h c hc)).1

theorem length_digitVals (w : List UInt8) : (digitVals w).length = w.length := List.length_map _

theorem digitVals_append (w v : List UInt8) : digitVals (w ++ v) = digitVals w ++ digitVals v :=
  List.map_append

theorem packAll_append (mant : BitVec 64) (ds es : List ℕ) :
    packAll mant (ds ++ es) = packAll (packAll mant ds) es := List.foldl_append

theorem isdigit_of_mem_takeWhile {p w : List UInt8} (hw : w <:+: p.takeWhile isdigit) {c : UInt8}
    (h : c ∈ w) : isdigit c = true := List.mem_takeWhile_imp (hw.subset h)

theorem drop_digits {p : Ptr} {k : ℕ} (hk : k ≤ (p.takeWhile isdigit).length) :
    p.drop k = (p.takeWhile isdigit).drop k ++ p.dropWhile isdigit := by
  conv_lhs => rw [← List.takeWhile_append_dropWhile (p := isdigit) (l := p)]
  exact List.drop_append_of_le_length hk

theorem isRound_head {p : Ptr} {k : ℕ} {c : UInt8} {r : Ptr} (h : p.drop k = c :: r)
    (hk : k ≤ (p.takeWhile isdigit).length) :
    isRound c = isRound (((p.takeWhile isdigit).drop k).headD 0) := by
  have hp := drop_digits hk
  cases hd : (p.takeWhile isdigit).drop k with
  | cons d u =>
      rw [hp, hd] at h
      cases h
      rfl
  | nil =>
      rw [hp, hd, List.nil_append] at h
      have hnot := List.head?_dropWhile_not isdigit p
      rw [h] at hnot
      exact isRound_of_not_isdigit (by simpa using hnot)

/-- **The digit scanner on any digit string.** -/
theorem pick_takeWhile (nd : ℕ) (mant : BitVec 64) {p : Ptr} (h : p.dropWhile isdigit ≠ []) :
    ∃ c r, p.drop (min nd (p.takeWhile isdigit).length) = c :: r ∧
      isRound c = isRound (((p.takeWhile isdigit).drop nd).headD 0) ∧
      pick nd mant p = .ok ((nd - (p.takeWhile isdigit).length,
        packAll mant (digitVals ((p.takeWhile isdigit).take nd))), c :: r) := by
  set w := p.takeWhile isdigit with hw
  have hp : p = w ++ p.dropWhile isdigit := List.takeWhile_append_dropWhile.symm
  have hne : p.drop (min nd w.length) ≠ [] := by
    have hlen := congrArg List.length hp
    rw [List.length_append] at hlen
    have := List.length_pos_iff.mpr h
    rw [Ne, List.drop_eq_nil_iff]
    omega
  obtain ⟨c, r, hc⟩ := List.exists_cons_of_ne_nil hne
  have htake : p.take (min nd w.length) = w.take nd := by
    conv_lhs => rw [hp]
    rw [List.take_append_of_le_length (Nat.min_le_right _ _), ← List.take_take, List.take_length]
  have hsplit : p = w.take nd ++ c :: r := by
    rw [← htake, ← hc, List.take_append_drop]
  have hall : ∀ x ∈ w.take nd, isdigit x = true := fun x hx =>
    isdigit_of_mem_takeWhile (List.take_prefix _ _).isInfix hx
  obtain ⟨hmap, hlt⟩ := digitVals_spec hall
  have hlen : (digitVals (w.take nd)).length = min nd w.length := by
    rw [length_digitVals, List.length_take]
  have hround := isRound_head hc (Nat.min_le_right _ _)
  rw [← hw] at hround
  have hdrop : w.drop (min nd w.length) = w.drop nd := by
    rcases Nat.le_total nd w.length with hle | hle
    · rw [Nat.min_eq_left hle]
    · rw [Nat.min_eq_right hle, List.drop_length, List.drop_eq_nil_of_le hle]
  rw [hdrop] at hround
  refine ⟨c, r, hc, hround, ?_⟩
  have hstop : isdigit c = false ∨ (digitVals (w.take nd)).length = nd := by
    rcases Nat.lt_or_ge w.length nd with hlt' | hge
    · left
      rw [Nat.min_eq_right hlt'.le] at hc
      have hcd : p.dropWhile isdigit = c :: r := by
        rw [← hc]
        conv_rhs => rw [hp]
        exact (List.drop_left' rfl).symm
      have hnot := List.head?_dropWhile_not isdigit p
      rw [hcd] at hnot
      simpa using hnot
    · right
      rw [hlen]
      omega
  have hpick := pick_append hlt (hlen.trans_le (Nat.min_le_left _ _)) mant hstop r
  rw [hmap, ← hsplit, hlen] at hpick
  rw [hpick, show nd - min nd w.length = nd - w.length by omega]

/-! ## The scanner -/

theorem skip_takeWhile {f : UInt8 → Bool} {p : Ptr} (h : p.dropWhile f ≠ []) :
    skipWhile f p = .ok ((p.takeWhile f).length, p.dropWhile f) := by
  obtain ⟨c, r, hc⟩ := List.exists_cons_of_ne_nil h
  have hnot := List.head?_dropWhile_not f p
  rw [hc] at hnot
  have hp : p = p.takeWhile f ++ c :: r := by rw [← hc, List.takeWhile_append_dropWhile]
  conv_lhs => rw [hp]
  rw [skipWhile_append (fun _ => List.mem_takeWhile_imp) (by simpa using hnot) r, hc]

theorem skip_drop {p : Ptr} {k : ℕ} (hk : k ≤ (p.takeWhile isdigit).length) {c : UInt8} {r : Ptr}
    (hc : p.drop k = c :: r) (h : p.dropWhile isdigit ≠ []) :
    skipWhile isdigit (c :: r) = .ok (((p.takeWhile isdigit).drop k).length, p.dropWhile isdigit) := by
  have hp := drop_digits hk
  obtain ⟨d, u, hd⟩ := List.exists_cons_of_ne_nil h
  have hnot := List.head?_dropWhile_not isdigit p
  rw [hd] at hnot
  rw [← hc, hp, hd]
  refine skipWhile_append (fun x hx => ?_) (by simpa using hnot) u
  exact isdigit_of_mem_takeWhile (List.drop_suffix _ _).isInfix hx

theorem fraction_eq {q : Ptr} (h : fracEnd q ≠ []) (nd : ℕ) (mant : BitVec 64) (roff : Bool) (expo : ℤ) :
    let F := match q with
      | [] => []
      | c :: t => if c = ch '.' then t.takeWhile isdigit else []
    fraction nd mant roff expo q = .ok ((packAll mant (digitVals (F.take nd)),
      roff || (decide (0 < nd) && isRound ((F.drop nd).headD 0)), expo - (F.take nd).length), fracEnd q) := by
  cases q with
  | nil => exact absurd rfl h
  | cons c t =>
      by_cases hc : c = ch '.'
      · subst hc
        rw [fracEnd, if_pos rfl] at h
        simp only [if_true, fracEnd]
        by_cases hnd : 0 < nd
        · obtain ⟨d, r, hd, hround, hpick⟩ := pick_takeWhile nd mant h
          have hskip := skip_drop (Nat.min_le_right _ _) hd h
          simp only [fraction, deref, bind, Except.bind, true_and, if_true, List.tail_cons, hpick, hskip,
            hround, decide_true, Bool.true_and, hnd, pure, Except.pure, List.length_take]
          rw [show nd - (nd - (t.takeWhile isdigit).length) = min nd (t.takeWhile isdigit).length by omega]
        · obtain rfl : nd = 0 := by omega
          simp only [fraction, deref, bind, Except.bind, lt_irrefl, and_false, if_false, if_true,
            List.tail_cons, skip_takeWhile h, pure, Except.pure, decide_false, Bool.false_and,
            List.take_zero, List.length_nil, Nat.cast_zero, sub_zero]
          rw [show isRound (ch '.') = false by decide]
          rfl
      · simp only [fraction, deref, bind, Except.bind, hc, false_and, if_false, pure, Except.pure, fracEnd,
          List.take_nil, List.drop_nil, List.length_nil, Nat.cast_zero, sub_zero]
        rw [show isRound (List.headD [] 0) = false by decide, Bool.and_false, Bool.or_false]
        rfl

/-- **The digits of any column that ends.** -/
theorem digits64_eq {p : Ptr} (h : fracEnd (p.dropWhile isdigit) ≠ []) :
    digits64 p = .ok ((packAll 0 (digitVals (kept p)), roundsUp p, expoOf p),
      fracEnd (p.dropWhile isdigit)) := by
  have hq : p.dropWhile isdigit ≠ [] := fun he => h (by rw [he]; rfl)
  have hp1 : (p.dropWhile (· == ch '0')).dropWhile isdigit ≠ [] := by rwa [dropWhile_zeros]
  have hz : p.dropWhile (· == ch '0') ≠ [] := fun he => hp1 (by rw [he]; rfl)
  obtain ⟨c, r, hc, hround, hpick⟩ := pick_takeWhile 15 0 hp1
  have hskip := skip_drop (Nat.min_le_right _ _) hc hp1
  rw [dropWhile_zeros] at hskip
  have hfrac := fraction_eq h (fracRoom p) (packAll 0 (digitVals ((intDigits p).take 15)))
    (isRound (((intDigits p).drop 15).headD 0)) ((intDigits p).drop (min 15 (intDigits p).length)).length
  simp only [digits64, skip_takeWhile hz, bind, Except.bind, hpick, deref, hskip, hround]
  rw [← intDigits, ← fracRoom, hfrac]
  have hdrop : ((intDigits p).drop (min 15 (intDigits p).length)).length =
      ((intDigits p).drop 15).length := by
    rw [List.length_drop, List.length_drop]
    omega
  rw [hdrop, ← packAll_append, ← digitVals_append]
  rfl

/-- A carry loop of at most `fuel` turns. -/
def roundBcd64At (fuel : ℕ) (mant : BitVec 64) (roff : ℤ) : Res (BitVec 64) := do
  let (mant, x, sh) ← carry (BitVec.ofInt 64 roff) fuel mant 0
  pure (((mant &&& 0xfffffff0) ^^^ x) <<< sh)

/-- `strtobcd64`, with a carry loop of at most `fuel` turns. -/
def strtobcd64At (fuel : ℕ) (src : Ptr) : Res (Bcd64 × Ptr) := do
  let (sign, sp) ← signOf src
  let ((mant, roff, expo), sp) ← digits64 sp
  let mant ← if roff then roundBcd64At fuel mant (if sign then -1 else 1) else pure mant
  pure ({ mant, expo, sign := if sign then 1 else 0 }, sp)

theorem strtobcd64_at (src : Ptr) : strtobcd64At 17 src = strtobcd64 src := rfl

/-- The number starts with a minus. -/
def isNeg (p : Ptr) : Bool := decide (p.head? = some (ch '-'))

/-- The packed digits kept. -/
def keptWord (p : Ptr) : BitVec 64 := packAll 0 (digitVals (kept p))

/-- **The parser on any column that ends.** -/
theorem strtobcd64At_eq (fuel : ℕ) {p : Ptr} (h : numEnd p ≠ []) :
    strtobcd64At fuel p = (if roundsUp (signEnd p) then
        roundBcd64At fuel (keptWord (signEnd p)) (if isNeg p then -1 else 1)
      else .ok (keptWord (signEnd p))).map fun mant =>
        (⟨mant, expoOf (signEnd p), if isNeg p then 1 else 0⟩, numEnd p) := by
  cases p with
  | nil => exact absurd rfl h
  | cons c t =>
      have hneg : isNeg (c :: t) = decide (c = ch '-') := decide_eq_decide.mpr Option.some_inj
      simp only [strtobcd64At, signOf_cons, bind, Except.bind, digits64_eq h]
      rw [← hneg, numEnd, keptWord]
      cases roundsUp (signEnd (c :: t)) with
      | false => rfl
      | true =>
          simp only [if_true]
          cases roundBcd64At fuel (packAll 0 (digitVals (kept (signEnd (c :: t)))))
            (if isNeg (c :: t) = true then -1 else 1) <;> rfl

/-! ## Numbers that are never parsed -/

theorem packed_packAll {ds : List ℕ} (hds : ∀ d ∈ ds, d < 10) : ∀ {j : ℕ} {mant : BitVec 64},
    Packed j mant → j + ds.length ≤ 15 → Packed (j + ds.length) (packAll mant ds) ∧
      (packAll mant ds = 0 ↔ mant = 0 ∧ ∀ d ∈ ds, d = 0) := by
  induction ds with
  | nil => exact fun h _ => ⟨h, by simp [packAll]⟩
  | cons d ds ih =>
      intro j mant h hj
      rw [List.length_cons] at hj
      obtain ⟨hp, hz⟩ := h.push (by omega) (hds d List.mem_cons_self)
      have := ih (fun x hx => hds x (List.mem_cons_of_mem _ hx)) hp (by omega)
      rw [packAll, List.foldl_cons, ← packAll, this.2, hz, List.forall_mem_cons, and_assoc,
        List.length_cons, show j + (ds.length + 1) = j + 1 + ds.length by omega]
      exact ⟨this.1, Iff.rfl⟩

theorem isdigit_of_mem_number {p : Ptr} {c : UInt8} (h : c ∈ intDigits p ++ fracDigits p) : isdigit c = true := by
  rcases List.mem_append.mp h with h | h
  · exact isdigit_of_mem_takeWhile List.infix_rfl h
  · unfold fracDigits at h
    split at h
    · exact absurd h List.not_mem_nil
    · split_ifs at h
      · exact List.mem_takeWhile_imp h
      · exact absurd h List.not_mem_nil

theorem isdigit_of_mem_kept {p : Ptr} {c : UInt8} (h : c ∈ kept p) : isdigit c = true :=
  isdigit_of_mem_number (List.append_subset.mpr ⟨List.subset_append_of_subset_left _ (List.take_subset _ _),
    List.subset_append_of_subset_right _ (List.take_subset _ _)⟩ h)

theorem length_kept_le (p : Ptr) : (kept p).length ≤ 15 := by
  rw [kept, List.length_append, List.length_take, List.length_take, fracRoom]
  omega

/-- **The word kept**: at most fifteen digits, and zero just when all of them are. -/
theorem packed_keptWord (p : Ptr) : Packed (kept p).length (keptWord p) ∧
    (keptWord p = 0 ↔ ∀ c ∈ kept p, c = ch '0') := by
  obtain ⟨hmap, hlt⟩ := digitVals_spec fun c hc => isdigit_of_mem_kept (p := p) hc
  have h := packed_packAll hlt Packed.zero (by rw [length_digitVals, Nat.zero_add]; exact length_kept_le p)
  rw [length_digitVals, Nat.zero_add] at h
  refine ⟨h.1, h.2.trans ?_⟩
  rw [and_iff_right rfl, digitVals, List.forall_mem_map]
  refine forall₂_congr fun c hc => ?_
  obtain ⟨hd, hv⟩ := eq_digitByte (isdigit_of_mem_kept hc)
  conv_rhs => rw [hv, digitByte_eq_zero hd]

theorem intDigits_head {p : Ptr} {c : UInt8} {w : List UInt8} (h : intDigits p = c :: w) : c ≠ ch '0' := by
  rw [intDigits] at h
  cases hq : p.dropWhile (· == ch '0') with
  | nil =>
      rw [hq] at h
      cases h
  | cons d t =>
      rw [hq, List.takeWhile_cons] at h
      split_ifs at h
      cases h
      exact ne_zero_of_dropWhile hq

theorem fracRoom_of_nil {p : Ptr} (h : intDigits p = []) : fracRoom p = 15 := by
  rw [fracRoom, h]
  rfl

/-- If all digits kept are zeros there are no integer digits: one kept would be the first, which is
not zero. -/
theorem intDigits_of_zeros {p : Ptr} (hz : ∀ c ∈ kept p, c = ch '0') : intDigits p = [] := by
  cases hi : intDigits p with
  | nil => rfl
  | cons c w =>
      have hc : c ∈ kept p := by
        rw [kept, hi]
        exact List.mem_append_left _ List.mem_cons_self
      exact absurd (hz c hc) (intDigits_head hi)

theorem digits_of_zeroFrac {p : Ptr} {d : UInt8} {t : Ptr} (hr : isRound d = true)
    (h : p.dropWhile (· == ch '0') = ch '.' :: (List.replicate 15 (ch '0') ++ d :: t)) :
    intDigits p = [] ∧ fracDigits p = List.replicate 15 (ch '0') ++ d :: t.takeWhile isdigit := by
  have hzeros : ∀ c ∈ List.replicate 15 (ch '0'), isdigit c = true := fun c hc => by
    rw [List.eq_of_mem_replicate hc]
    rfl
  constructor
  · rw [intDigits, h]
    rfl
  · rw [fracDigits, ← dropWhile_zeros, h, List.dropWhile_cons_of_neg (by decide)]
    dsimp only
    rw [if_pos rfl, List.takeWhile_append_of_pos hzeros, List.takeWhile_cons_of_pos (isdigit_of_isRound hr)]

/-- **A column rounds up on zeros** just when it has no integer digits but zeros, fifteen zeros behind
the point and then a digit from `5` on. -/
theorem zeroRound_iff (p : Ptr) :
    ZeroRound p ↔ roundsUp p = true ∧ ∀ c ∈ kept p, c = ch '0' := by
  rw [zeroRound_iff_zeroFrac]
  constructor
  · rintro ⟨d, t, h, hr⟩
    obtain ⟨hint, hfrac⟩ := digits_of_zeroFrac hr h
    have hroom := fracRoom_of_nil hint
    constructor
    · rw [roundsUp, hroom, hfrac, List.drop_left' (by simp), List.headD_cons, hr]
      simp
    · rw [kept, hint, hroom, hfrac, List.take_left' (by simp), List.take_nil, List.nil_append]
      exact fun c hc => List.eq_of_mem_replicate hc
  · rintro ⟨hr, hz⟩
    have hint := intDigits_of_zeros hz
    have hroom := fracRoom_of_nil hint
    have hnil : isRound (List.headD [] 0) = false := by decide
    rw [roundsUp, hint, hroom, List.drop_nil, hnil] at hr
    rw [kept, hint, hroom, List.take_nil, List.nil_append] at hz
    have hr : isRound (((fracDigits p).drop 15).headD 0) = true := by simpa using hr
    cases hd : (fracDigits p).drop 15 with
    | nil =>
        rw [hd, hnil] at hr
        cases hr
    | cons d u =>
        rw [hd, List.headD_cons] at hr
        have hlen : ((fracDigits p).take 15).length = 15 := by
          have hl := congrArg List.length hd
          rw [List.length_drop, List.length_cons] at hl
          rw [List.length_take]
          omega
        have hF : fracDigits p = List.replicate 15 (ch '0') ++ d :: u := by
          rw [← hd, ← List.eq_replicate_iff.mpr ⟨hlen, hz⟩, List.take_append_drop]
        have hq : p.dropWhile (· == ch '0') = p.dropWhile isdigit := by
          rw [← dropWhile_zeros]
          conv_lhs => rw [← List.takeWhile_append_dropWhile (p := isdigit) (l := p.dropWhile (· == ch '0'))]
          rw [← intDigits, hint, List.nil_append]
        rw [hq]
        unfold fracDigits at hF
        split at hF
        · simp at hF
        · rename_i c t he
          split_ifs at hF with hc
          · subst hc
            have ht : t = List.replicate 15 (ch '0') ++ d :: (u ++ t.dropWhile isdigit) := by
              conv_lhs => rw [← List.takeWhile_append_dropWhile (p := isdigit) (l := t), hF]
              simp
            exact ⟨d, u ++ t.dropWhile isdigit, he.trans (congrArg _ ht), hr⟩
          · simp at hF

theorem stuck_iff (p : Ptr) : Stuck p ↔
    isNeg p = true ∧ roundsUp (signEnd p) = true ∧ ∀ c ∈ kept (signEnd p), c = ch '0' := by
  rw [← zeroRound_iff, isNeg, decide_eq_true_iff]
  constructor
  · rintro ⟨t, rfl, ht⟩
    exact ⟨rfl, ht⟩
  · rintro ⟨hh, ht⟩
    cases p with
    | nil => cases hh
    | cons c t =>
        cases hh
        exact ⟨t, rfl, ht⟩

/-- **A stuck column is never parsed**, whatever the number of turns. -/
theorem strtobcd64At_stuck {p : Ptr} (h : numEnd p ≠ []) (hs : Stuck p) (fuel : ℕ) :
    strtobcd64At fuel p = .error .loop := by
  obtain ⟨hneg, hr, hz⟩ := (stuck_iff p).mp hs
  have hbad := (roundBcd64_spec (packed_keptWord (signEnd p)).1 true).1
    ⟨rfl, (packed_keptWord (signEnd p)).2.mpr hz⟩
  have hc : carry (BitVec.ofInt 64 (-1)) 17 (keptWord (signEnd p)) 0 = .error .loop := by
    cases hc : carry (BitVec.ofInt 64 (-1)) 17 (keptWord (signEnd p)) 0 with
    | ok r =>
        rw [roundBcd64, if_pos rfl, hc] at hbad
        cases hbad
    | error e => rw [carry_error hc]
  rw [strtobcd64At_eq fuel h, if_pos hr, hneg]
  simp only [if_true, roundBcd64At, carry_loop hc fuel]
  rfl

/-- **The parser returns**, with enough turns for its carry loop, just from the columns that are not
stuck. -/
theorem strtobcd64_returns_iff {p : Ptr} (h : numEnd p ≠ []) :
    (∃ fuel r, strtobcd64At fuel p = .ok r) ↔ ¬ Stuck p := by
  constructor
  · rintro ⟨fuel, r, hr⟩ hs
    rw [strtobcd64At_stuck h hs] at hr
    cases hr
  · intro hs
    rw [stuck_iff, ← (packed_keptWord (signEnd p)).2] at hs
    refine ⟨17, ?_⟩
    rw [strtobcd64At_eq _ h]
    cases hr : roundsUp (signEnd p) with
    | false => exact ⟨_, rfl⟩
    | true =>
        obtain ⟨x, hx⟩ := (roundBcd64_spec (packed_keptWord (signEnd p)).1 (isNeg p)).2 fun hn =>
          hs ⟨hn.1, hr, hn.2⟩
        exact ⟨_, map_ok.mpr ⟨x, hx, rfl⟩⟩

/-- A number that is rounded. -/
theorem strtobcd64_returns_nines :
    numEnd (bytes ['-', '0', '.', '9', '9', '\n']) ≠ [] ∧
      ∃ fuel r, strtobcd64At fuel (bytes ['-', '0', '.', '9', '9', '\n']) = .ok r :=
  ⟨by decide, (strtobcd64_returns_iff (by decide)).mpr <| by
    rintro ⟨t, ht, z, d, u, rfl, hz, hr⟩
    have hlen := congrArg List.length ht
    simp at hlen
    omega⟩

/-- Minus five in the sixteenth place. -/
def stuckColumn : Ptr :=
  bytes ['-', '0', '.'] ++ (List.replicate 15 (ch '0') ++ bytes ['5', '\n'])

/-- **The carry loop runs for ever.** -/
theorem stuckColumn_never : numEnd stuckColumn ≠ [] ∧ ¬ ∃ fuel r, strtobcd64At fuel stuckColumn = .ok r := by
  have hs : Stuck stuckColumn := ⟨_, rfl, bytes ['0'], ch '5', bytes ['\n'], rfl,
    List.forall_mem_singleton.mpr rfl, by decide⟩
  refine ⟨by decide, ?_⟩
  rintro ⟨fuel, r, hr⟩
  rw [strtobcd64At_stuck (by decide) hs] at hr
  cases hr

end Unserlob
