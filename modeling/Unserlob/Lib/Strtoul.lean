import Mathlib.Data.List.TakeWhile
import Unserlob.Lib.Ascii
import Unserlob.Lib.Cursor

/-!
# Reading unsigned numbers

`strtoul` and `strtoull` with base `0`, which on this platform are one function: white space (the
newline included), a sign, a base prefix and digits. A number too large is clamped and a minus is
taken modulo `2 ^ 64`; when there are no digits the pointer is handed back as it was.

* `signOf`, `basePrefix`, `scanDigits`, `strtou`;
* **`strtou_decimal`**: the numeral of a word is read back, behind any white space;
* `signEnd`, `ulEnd`, **`strtou_spec`**: where the number on a line ends, if the line is not blank;
* `grows_strtou`: longer memory makes no difference to what is found in the shorter.
-/

namespace Cursor

open Ascii

/-- The sign, if there is one. -/
def signOf (src : Ptr) : Res (Bool × Ptr) := do
  let c ← deref src
  if c = ch '-' then pure (true, src.tail)
  else if c = ch '+' then pure (false, src.tail)
  else pure (false, src)

/-- The value of a digit. -/
def digitVal (c : UInt8) : ℕ :=
  if isdigit c then c.toNat - 48
  else if ch 'a' ≤ c ∧ c ≤ ch 'f' then c.toNat - 87
  else if ch 'A' ≤ c ∧ c ≤ ch 'F' then c.toNat - 55
  else 16

/-- Base `0`: the base and where the digits start. -/
def basePrefix (p : Ptr) : Res (ℕ × Ptr) := do
  let c ← deref p
  if c = ch '0' then
    let x ← deref p.tail
    if x = ch 'x' ∨ x = ch 'X' then
      let d ← deref p.tail.tail
      pure (if digitVal d < 16 then (16, p.tail.tail) else (8, p))
    else pure (8, p)
  else pure (10, p)

/-- The digits, with their number and value. -/
def scanDigits (base : ℕ) : ℕ → ℕ → Ptr → Res ((ℕ × ℕ) × Ptr)
  | _, _, [] => .error .read
  | k, v, c :: p =>
    if digitVal c < base then scanDigits base (k + 1) (v * base + digitVal c) p
    else .ok ((k, v), c :: p)

/-- A clamped and signed word. -/
def clamp (neg : Bool) (v : ℕ) : BitVec 64 :=
  if v < 2 ^ 64 then if neg then -BitVec.ofNat 64 v else BitVec.ofNat 64 v else -1

/-- `strtoull(p, &p, 0)` -/
def strtou (p : Ptr) : Res (BitVec 64 × Ptr) := do
  let (_, q) ← skipWhile isspace p
  let (neg, q) ← signOf q
  let (base, q) ← basePrefix q
  let ((k, v), q) ← scanDigits base 0 0 q
  if k = 0 then pure (0, p) else pure (clamp neg v, q)

/-! ## Numerals -/

theorem digitVal_digitByte {d : ℕ} (h : d < 10) : digitVal (digitByte d) = d := by
  rw [digitVal, if_pos (isdigit_digitByte h), toNat_digitByte h, Nat.add_sub_cancel_left]

theorem digitVal_of_not_isdigit {c : UInt8} (h : isdigit c = false) : 10 ≤ digitVal c := by
  rw [digitVal, if_neg (by rw [h]; exact Bool.false_ne_true)]
  split_ifs with h1 h2
  · have := UInt8.le_iff_toNat_le.mp h1.1
    change 97 ≤ c.toNat at this
    omega
  · have := UInt8.le_iff_toNat_le.mp h2.1
    change 65 ≤ c.toNat at this
    omega
  · decide

theorem scanDigits_append {base : ℕ} {ds : List ℕ} (hds : ∀ d ∈ ds, d < 10 ∧ d < base) (k v : ℕ)
    {c : UInt8} (hc : base ≤ digitVal c) (r : Ptr) :
    scanDigits base k v (ds.map digitByte ++ c :: r) =
      .ok ((k + ds.length, ds.foldl (fun a d => a * base + d) v), c :: r) := by
  induction ds generalizing k v with
  | nil => rw [List.map_nil, List.nil_append, scanDigits, if_neg (not_lt.mpr hc)]; rfl
  | cons d ds ih =>
      have hd := hds d List.mem_cons_self
      rw [List.map_cons, List.cons_append, scanDigits, digitVal_digitByte hd.1, if_pos hd.2,
        ih fun x hx => hds x (List.mem_cons_of_mem _ hx), List.length_cons, List.foldl_cons,
        Nat.add_assoc, Nat.add_comm 1]

theorem signOf_digits {p : Ptr} {c : UInt8} (hc : isdigit c = true) :
    signOf (c :: p) = .ok (false, c :: p) := by
  have h1 : c ≠ ch '-' := by rintro rfl; exact absurd hc (by decide)
  have h2 : c ≠ ch '+' := by rintro rfl; exact absurd hc (by decide)
  simp only [signOf, bind, Except.bind, deref, if_neg h1, if_neg h2]
  rfl

/-- A byte that ends a numeral. -/
def ends (c : UInt8) : Prop := isdigit c = false ∧ c ≠ ch 'x' ∧ c ≠ ch 'X'

instance : DecidablePred ends := fun _ => inferInstanceAs (Decidable (_ ∧ _))

theorem isspace_digit {c : UInt8} (h : isdigit c = true) : isspace c = false := by
  obtain ⟨hd, hc⟩ := eq_digitByte h
  rw [hc]
  generalize c.toNat - 48 = d at hd
  interval_cases d <;> rfl

theorem basePrefix_decimal {n : ℕ} {c : UInt8} (hc : ends c) (r : Ptr) :
    basePrefix (decimal n ++ c :: r) = .ok (if n = 0 then 8 else 10, decimal n ++ c :: r) := by
  by_cases h0 : n = 0
  · subst h0
    rw [decimal_zero]
    simp [basePrefix, bind, Except.bind, deref, hc.2.1, hc.2.2, pure, Except.pure]
  · obtain ⟨d, ds, hds, hd0, hd⟩ := digits_reverse_cons h0
    have hne : digitByte d ≠ ch '0' := fun h => hd0 ((digitByte_eq_zero hd).mp h)
    rw [decimal_eq_map h0, hds, List.map_cons, List.cons_append, basePrefix]
    simp only [bind, Except.bind, deref, if_neg hne, if_neg h0]
    rfl

theorem scanDigits_decimal {n : ℕ} {c : UInt8} (hc : isdigit c = false) (r : Ptr) :
    ∃ k, scanDigits (if n = 0 then 8 else 10) 0 0 (decimal n ++ c :: r) = .ok ((k + 1, n), c :: r) := by
  have hv := digitVal_of_not_isdigit hc
  by_cases h0 : n = 0
  · subst h0
    refine ⟨0, ?_⟩
    have hds : ∀ d ∈ [0], d < 10 ∧ d < 8 := by simp
    exact scanDigits_append hds 0 0 (by omega) r
  · obtain ⟨d, ds, hds, -, -⟩ := digits_reverse_cons h0
    have hall : ∀ x ∈ (Nat.digits 10 n).reverse, x < 10 ∧ x < 10 := fun x hx =>
      ⟨lt_of_mem_digits hx, lt_of_mem_digits hx⟩
    refine ⟨ds.length, ?_⟩
    rw [if_neg h0, decimal_eq_map h0, scanDigits_append hall 0 0 hv, Radix.foldl_horner,
      List.reverse_reverse, Nat.ofDigits_digits, hds, List.length_cons]
    simp

/-- **A numeral behind white space is read back.** -/
theorem strtou_decimal {w : List UInt8} (hw : ∀ x ∈ w, isspace x = true) {n : ℕ} (hn : n < 2 ^ 64)
    {c : UInt8} (hc : ends c) (r : Ptr) :
    strtou (w ++ (decimal n ++ c :: r)) = .ok (BitVec.ofNat 64 n, c :: r) := by
  obtain ⟨d, t, hd⟩ : ∃ d t, decimal n = d :: t := List.exists_cons_of_ne_nil (decimal_ne_nil n)
  have hdig : isdigit d = true :=
    isdigit_of_mem_decimal (n := n) (by rw [hd]; exact List.mem_cons_self)
  obtain ⟨k, hk⟩ := scanDigits_decimal (n := n) hc.1 r
  have hb := basePrefix_decimal (n := n) hc r
  have hskip : skipWhile isspace (w ++ (decimal n ++ c :: r)) =
      .ok (w.length, decimal n ++ c :: r) := by
    rw [hd]
    exact skipWhile_append hw (isspace_digit hdig) _
  have hsign : signOf (decimal n ++ c :: r) = .ok (false, decimal n ++ c :: r) := by
    rw [hd]
    exact signOf_digits hdig
  simp only [strtou, bind, Except.bind, hskip, hsign, hb, hk, clamp, if_pos hn]
  rfl

/-! ## Numbers on a line -/

/-- A newline is the last byte. -/
def Ends (p : Ptr) : Prop := p.getLast? = some (ch '\n')

/-- There is a byte that is not white space. -/
def Marked (p : Ptr) : Prop := ∃ c ∈ p, isspace c = false

/-- Behind the sign, if there is one. -/
def signEnd : Ptr → Ptr
  | [] => []
  | c :: t => if c = ch '-' ∨ c = ch '+' then t else c :: t

/-- The base and where the digits start. -/
def baseEnd : Ptr → ℕ × Ptr
  | c :: x :: t =>
    if c ≠ ch '0' then (10, c :: x :: t)
    else if (x = ch 'x' ∨ x = ch 'X') ∧ digitVal (t.headD 0) < 16 then (16, t)
    else (8, c :: x :: t)
  | p => (10, p)

/-- Behind the number; where there is no digit, the pointer itself. -/
def ulEnd (p : Ptr) : Ptr :=
  let b := baseEnd (signEnd (p.dropWhile isspace))
  if digitVal (b.2.headD 0) < b.1 then b.2.dropWhile fun c => decide (digitVal c < b.1) else p

theorem Ends.mem {p : Ptr} (h : Ends p) : ch '\n' ∈ p := List.mem_of_getLast? h

theorem Ends.suffix {p q : Ptr} (h : Ends p) (hq : q <:+ p) (hne : q ≠ []) : Ends q := by
  obtain ⟨t, rfl⟩ := hq
  obtain ⟨c, hc⟩ := Option.ne_none_iff_exists'.mp fun hn => hne (List.getLast?_eq_none_iff.mp hn)
  rwa [Ends, List.getLast?_append, hc, Option.some_or, ← hc] at h

theorem Ends.ne_nil {p : Ptr} (h : Ends p) : p ≠ [] := List.ne_nil_of_mem h.mem

theorem Ends.tail {c : UInt8} {t : Ptr} (h : Ends (c :: t)) (hc : c ≠ ch '\n') : Ends t := by
  refine h.suffix (List.suffix_cons c t) ?_
  rintro rfl
  exact hc (Option.some.inj h)

theorem Ends.cons {t : Ptr} (h : Ends t) (c : UInt8) : Ends (c :: t) := by
  rw [Ends, List.getLast?_cons, show t.getLast? = _ from h]
  rfl

theorem signOf_cons (c : UInt8) (t : Ptr) :
    signOf (c :: t) = .ok (decide (c = ch '-'), signEnd (c :: t)) := by
  by_cases h1 : c = ch '-'
  · simp [signOf, signEnd, deref, bind, Except.bind, h1, pure, Except.pure]
  · by_cases h2 : c = ch '+'
    · subst h2
      rfl
    · simp [signOf, signEnd, deref, bind, Except.bind, h1, h2, pure, Except.pure]

theorem signEnd_suffix (p : Ptr) : signEnd p <:+ p := by
  cases p with
  | nil => exact List.suffix_rfl
  | cons c t =>
      rw [signEnd]
      split_ifs
      · exact List.suffix_cons c t
      · exact List.suffix_rfl

theorem baseEnd_suffix (p : Ptr) : (baseEnd p).2 <:+ p := by
  unfold baseEnd
  split
  · split_ifs
    · exact List.suffix_rfl
    · exact (List.suffix_cons _ _).trans (List.suffix_cons _ _)
    · exact List.suffix_rfl
  · exact List.suffix_rfl

theorem baseEnd_le (p : Ptr) : (baseEnd p).1 ≤ 16 := by
  unfold baseEnd
  split
  · split_ifs
    · exact Nat.le_of_ble_eq_true rfl
    · exact le_rfl
    · exact Nat.le_of_ble_eq_true rfl
  · exact Nat.le_of_ble_eq_true rfl

theorem ulEnd_suffix (p : Ptr) : ulEnd p <:+ p := by
  simp only [ulEnd]
  split_ifs
  · exact (List.dropWhile_suffix _).trans ((baseEnd_suffix _).trans
      ((signEnd_suffix _).trans (List.dropWhile_suffix _)))
  · exact List.suffix_rfl

theorem Ends.ulEnd {p : Ptr} (h : Ends p) : Ends (ulEnd p) := by
  refine h.suffix (ulEnd_suffix p) ?_
  simp only [Cursor.ulEnd]
  split_ifs with hd
  · have hb : Ends (baseEnd (signEnd (p.dropWhile isspace))).2 := by
      refine h.suffix ((baseEnd_suffix _).trans ((signEnd_suffix _).trans (List.dropWhile_suffix _))) ?_
      intro hn
      rw [hn] at hd
      exact absurd (hd.trans_le (baseEnd_le _)) (by decide)
    intro hn
    have hall := List.dropWhile_eq_nil_iff.mp hn _ hb.mem
    exact absurd ((of_decide_eq_true hall).trans_le (baseEnd_le _)) (by decide)
  · exact h.ne_nil

theorem basePrefix_ends {p : Ptr} (h : Ends p) : basePrefix p = .ok (baseEnd p) ∧ Ends (baseEnd p).2 := by
  have hne : (baseEnd p).2 ≠ [] ∧ basePrefix p = .ok (baseEnd p) := by
    rcases p with - | ⟨c, - | ⟨x, t⟩⟩
    · cases h
    · rw [Ends, List.getLast?_singleton] at h
      cases h
      exact ⟨by decide, rfl⟩
    · by_cases hc : c = ch '0'
      · by_cases hx : x = ch 'x' ∨ x = ch 'X'
        · -- the newline is still to come
          obtain ⟨d, t, rfl⟩ : ∃ d t', t = d :: t' := by
            refine List.exists_cons_of_ne_nil ?_
            rintro rfl
            cases h
            exact absurd hx (by decide)
          by_cases hd : digitVal d < 16
          · simp [basePrefix, baseEnd, deref, bind, Except.bind, pure, Except.pure, hc, hx, hd]
          · simp [basePrefix, baseEnd, deref, bind, Except.bind, pure, Except.pure, hc, hx, hd]
        · simp [basePrefix, baseEnd, deref, bind, Except.bind, pure, Except.pure, hc, hx]
      · simp [basePrefix, baseEnd, deref, bind, Except.bind, pure, Except.pure, hc]
  exact ⟨hne.2, h.suffix (baseEnd_suffix p) hne.1⟩

theorem scanDigits_of_mem {base : ℕ} {s : UInt8} (hs : base ≤ digitVal s) {p : Ptr} (hp : s ∈ p)
    (k v : ℕ) : ∃ n w, scanDigits base k v p = .ok ((k + n, w), p.dropWhile fun c => decide (digitVal c < base)) ∧
      (n = 0 ↔ ¬ digitVal (p.headD 0) < base) := by
  induction p generalizing k v with
  | nil => cases hp
  | cons c p ih =>
      by_cases hc : digitVal c < base
      · have hm : s ∈ p := (List.mem_cons.mp hp).resolve_left fun he => by
          rw [he] at hs
          omega
        obtain ⟨n, w, he, -⟩ := ih hm (k + 1) (v * base + digitVal c)
        refine ⟨n + 1, w, ?_, by simpa using hc⟩
        rw [scanDigits, if_pos hc, he, List.dropWhile_cons_of_pos (by simpa using hc), Nat.add_right_comm,
          Nat.add_assoc]
      · refine ⟨0, v, ?_, by simpa using hc⟩
        rw [scanDigits, if_neg hc, List.dropWhile_cons_of_neg (by simpa using hc)]
        rfl

/-- **A number is read from a line that is not blank**, and past the end of one that is. -/
theorem strtou_spec {p : Ptr} (h : Ends p) :
    (Marked p → ∃ v, strtou p = .ok (v, ulEnd p)) ∧ (¬ Marked p → strtou p = .error .read) := by
  constructor
  · rintro ⟨s, hs, hf⟩
    obtain ⟨n, hskip⟩ : ∃ n, skipWhile isspace p = .ok (n, p.dropWhile isspace) :=
      ⟨_, skipWhile_of_mem hs hf⟩
    obtain ⟨c, t, hq⟩ : ∃ c t, p.dropWhile isspace = c :: t := by
      refine List.exists_cons_of_ne_nil fun hn => ?_
      have hall := List.dropWhile_eq_nil_iff.mp hn s hs
      rw [hf] at hall
      cases hall
    have hq' : Ends (c :: t) := hq ▸ h.suffix (List.dropWhile_suffix _) (by rw [hq]; simp)
    have hsign : Ends (signEnd (c :: t)) := by
      refine hq'.suffix (signEnd_suffix _) fun hn => ?_
      rw [signEnd] at hn
      split_ifs at hn with hc
      subst hn
      cases hq'
      exact absurd hc (by decide)
    obtain ⟨hbase, hb⟩ := basePrefix_ends hsign
    have hle := baseEnd_le (signEnd (c :: t))
    obtain ⟨k, v, hscan, hk⟩ := scanDigits_of_mem (s := ch '\n') hle hb.mem 0 0
    simp only [strtou, ulEnd, hskip, hq, signOf_cons, hbase, hscan, bind, Except.bind, Nat.zero_add]
    by_cases hd : digitVal ((baseEnd (signEnd (c :: t))).2.headD 0) < (baseEnd (signEnd (c :: t))).1
    · rw [if_neg (fun h0 => hk.mp h0 hd), if_pos hd]
      exact ⟨_, rfl⟩
    · rw [if_pos (hk.mpr hd), if_neg hd]
      exact ⟨_, rfl⟩
  · intro hb
    have hskip : skipWhile isspace p = .error .read := by
      have hall : ∀ c ∈ p, isspace c = true := fun c hc => by
        by_contra hn
        exact hb ⟨c, hc, by simpa using hn⟩
      clear h hb
      induction p with
      | nil => rfl
      | cons c p ih =>
          rw [skipWhile, if_pos (hall c List.mem_cons_self),
            ih fun d hd => hall d (List.mem_cons_of_mem _ hd)]
          rfl
    rw [strtou, hskip]
    rfl

/-! ## Longer memory -/

section Grows

variable {r : Ptr}

theorem grows_signOf (p : Ptr) : Grows r (signOf p) (signOf (p ++ r)) := by
  refine Grows.deref fun c q hp => ?_
  subst hp
  exact Grows.ite (Grows.ok _ _) (Grows.ite (Grows.ok _ _) (Grows.ok _ _))

theorem grows_basePrefix (p : Ptr) : Grows r (basePrefix p) (basePrefix (p ++ r)) := by
  refine Grows.deref fun c q hp => ?_
  subst hp
  refine Grows.ite (Grows.deref fun x q' hq => ?_) (Grows.ok _ _)
  rw [List.tail_cons] at hq
  subst hq
  refine Grows.ite (Grows.deref fun d q'' hq => ?_) (Grows.ok _ _)
  change Grows r (.ok _) (.ok _)
  by_cases hd : digitVal d < 16
  · rw [if_pos hd, if_pos hd]
    exact Grows.ok _ _
  · rw [if_neg hd, if_neg hd]
    exact Grows.ok _ _

theorem grows_scanDigits (base : ℕ) (p : Ptr) : ∀ k v,
    Grows r (scanDigits base k v p) (scanDigits base k v (p ++ r)) := by
  induction p with
  | nil => exact fun k v h => absurd rfl h
  | cons c p ih =>
      intro k v
      rw [List.cons_append, scanDigits, scanDigits]
      exact Grows.ite (ih _ _) (Grows.ok _ _)

theorem grows_strtou (p : Ptr) : Grows r (strtou p) (strtou (p ++ r)) := by
  refine (grows_skipWhile isspace p).bind fun _ q _ => (grows_signOf q).bind fun neg q _ =>
    (grows_basePrefix q).bind fun base q _ => (grows_scanDigits base q 0 0).bind fun kv q _ => ?_
  exact Grows.ite (Grows.ok _ _) (Grows.ok _ _)

end Grows

end Cursor
