import Mathlib.Algebra.BigOperators.Intervals
import Mathlib.Tactic.Linarith
import Mathlib.Tactic.Positivity
import Mathlib.Tactic.Ring
import Unserlob.Bots.Exact
import Unserlob.Bots.Makers

/-!
# The position limit of pyrabot (`_maxq`)

The levels of the pyramid share the room up to the limit. Where the limit cuts through a level, what
is left of the room should go to its displayed part first.

* `offer`, `offers`, `total`: the parts of one level, of all, and their sum on the wire;
* `CutRight`, `LimitMet`, **`total_iff`**: when the sum is the room, or all levels;
* `offered`, `Offers`, **`Pyrabot.offered_pyramid`**: the orders of a side;
* **`Pyrabot.within_limit`**: when a heartbeat keeps to the limit on both sides.
-/

namespace Unserlob

open Ascii Cursor Table
open Exact (num)

/-! ## Room -/

section Room

variable (d h : ℚ)

/-- What is offered where there is so much room: `_maxq` on numbers. -/
def offer : WithTop ℚ → ℚ × ℚ
  | none => (d, h)
  | some x => if x < d + h then if x ≤ 0 then (0, 0) else if d < x then (d, h - x) else (x, 0) else (d, h)

/-- Level by level, each with the room that is left. -/
def offers : ℕ → WithTop ℚ → List (ℚ × ℚ)
  | 0, _ => []
  | n + 1, R => offer d h R :: offers n (R + (-((offer d h R).1 + (offer d h R).2) : ℚ))

/-- The sum of all parts that are not negative. -/
def total (n : ℕ) (R : WithTop ℚ) : ℚ := ((offers d h n R).map fun a => a.1 + max a.2 0).sum

theorem total_zero (R : WithTop ℚ) : total d h 0 R = 0 := rfl

theorem total_succ (n : ℕ) (R : WithTop ℚ) : total d h (n + 1) R =
    (offer d h R).1 + max (offer d h R).2 0 + total d h n (R + (-((offer d h R).1 + (offer d h R).2) : ℚ)) := rfl

variable {d h}

theorem offer_some {x a b : ℚ} (he : offer d h x = (a, b)) (n : ℕ) :
    total d h (n + 1) x = a + max b 0 + total d h n ((x - (a + b) : ℚ) : WithTop ℚ) := by
  rw [total_succ, he, sub_eq_add_neg, WithTop.coe_add]

theorem total_full (hh : 0 ≤ h) {x : ℚ} (hx : d + h ≤ x) (n : ℕ) :
    total d h (n + 1) x = d + h + total d h n ((x - (d + h) : ℚ) : WithTop ℚ) := by
  have he : offer d h x = (d, h) := if_neg (not_lt.mpr hx)
  rw [offer_some he, max_eq_left hh]

theorem total_none (hT : 0 < d + h) {x : ℚ} (hx : x ≤ 0) (n : ℕ) : total d h n x = 0 := by
  have he : offer d h x = (0, 0) := (if_pos (hx.trans_lt hT)).trans (if_pos hx)
  induction n with
  | zero => rfl
  | succ n ih => rw [offer_some he, max_self, add_zero, sub_zero, zero_add, ih]

theorem total_dis (hT : 0 < d + h) {x : ℚ} (h0 : 0 < x) (hx : x ≤ d) (hlt : x < d + h) (n : ℕ) :
    total d h (n + 1) x = x := by
  have he : offer d h x = (x, 0) := ((if_pos hlt).trans (if_neg (not_le.mpr h0))).trans (if_neg (not_lt.mpr hx))
  rw [offer_some he, max_self, add_zero, sub_self, total_none hT le_rfl, add_zero]

/-- **The cut goes through the hidden part**: its other side is offered. -/
theorem total_cut (hd : 0 ≤ d) {x : ℚ} (hx : d < x) (hlt : x < d + h) (n : ℕ) :
    total d h (n + 1) x = d + max (h - x) 0 + total d h n ((2 * x - (d + h) : ℚ) : WithTop ℚ) := by
  have he : offer d h x = (d, h - x) := ((if_pos hlt).trans (if_neg (not_le.mpr (hd.trans_lt hx)))).trans (if_pos hx)
  rw [offer_some he, show x - (d + (h - x)) = 2 * x - (d + h) by ring]

theorem total_top (hh : 0 ≤ h) (n : ℕ) : total d h n ⊤ = n * (d + h) := by
  induction n with
  | zero => rw [total_zero, Nat.cast_zero, zero_mul]
  | succ n ih =>
      have he : offer d h ⊤ = (d, h) := rfl
      rw [total_succ, he, max_eq_left hh, WithTop.top_add, ih, Nat.cast_succ]
      ring

/-! ## Where the limit cuts through a level -/

variable (d h) in
/-- The sum at a level for which `g` is missing, in terms of `g`, with `r` levels to go. -/
def missing (r : ℕ) (g : ℚ) : ℚ := total d h r ((d + h - g : ℚ) : WithTop ℚ)

section Missing

variable (hd : 0 ≤ d) (hh : 0 ≤ h) (hT : 0 < d + h)

include hT

theorem missing_dis {g : ℚ} (hg : 0 < g) (hle : h ≤ g) (r : ℕ) : missing d h (r + 1) g = max (d + h - g) 0 := by
  rw [missing]
  rcases le_or_gt (d + h - g) 0 with hx | hx
  · rw [total_none hT hx, max_eq_right hx]
  · rw [total_dis hT hx (by linarith) (by linarith), max_eq_left hx.le]

include hd

omit hT in
/-- **What is missing doubles** from level to level. -/
theorem missing_hid {g : ℚ} (hg : 0 < g) (hlt : g < h) (r : ℕ) :
    missing d h (r + 1) g = max g d + missing d h r (2 * g) := by
  rw [missing, total_cut hd (by linarith) (by linarith), missing]
  have hmax : d + max (h - (d + h - g)) 0 = max g d := by
    rw [← max_add_add_left, add_zero]
    congr 1
    ring
  rw [hmax, show 2 * (d + h - g) - (d + h) = d + h - 2 * g by ring]

omit hT in
theorem missing_short {r : ℕ} {g : ℚ} (hg : 0 < g) (hall : ∀ i < r, 2 ^ i * g < h) :
    missing d h r g = ∑ i ∈ Finset.range r, max (2 ^ i * g) d := by
  induction r generalizing g with
  | zero => rfl
  | succ r ih =>
      have h0 : g < h := by simpa using hall 0 (Nat.succ_pos r)
      have hstep : ∀ i, 2 ^ i * (2 * g) = 2 ^ (i + 1) * g := fun i => by ring
      have ih := ih (g := 2 * g) (by linarith) fun i hi => by
        rw [hstep]
        exact hall (i + 1) (Nat.succ_lt_succ hi)
      rw [missing_hid hd hg h0, ih, Finset.sum_range_succ', pow_zero, one_mul, add_comm]
      simp only [hstep]

/-- It does grow to the hidden part: then the sum is too large, or the displayed part is small and the doubling ends
within a level. -/
theorem missing_long {r : ℕ} {g : ℚ} (hg : 0 < g) (hex : ∃ m < r, h ≤ 2 ^ m * g) :
    d + h - g ≤ missing d h r g ∧ (missing d h r g = d + h - g ↔
      (h ≤ g ∧ g ≤ d + h) ∨ (d ≤ g ∧ ∃ m < r, h ≤ 2 ^ m * g ∧ 2 ^ m * g ≤ d + h)) := by
  induction r generalizing g with
  | zero =>
      obtain ⟨m, hm, -⟩ := hex
      exact absurd hm (Nat.not_lt_zero m)
  | succ r ih =>
      have hstep : ∀ i, 2 ^ i * (2 * g) = 2 ^ (i + 1) * g := fun i => by ring
      rcases le_or_gt h g with hle | hlt
      · rw [missing_dis hT hg hle]
        refine ⟨le_max_left _ _, fun he => .inl ⟨hle, ?_⟩, ?_⟩
        · linarith [max_eq_left_iff.mp he]
        · rintro (⟨-, hgT⟩ | ⟨-, m, -, -, hm⟩)
          · exact max_eq_left (by linarith)
          · have hone : g ≤ 2 ^ m * g := le_mul_of_one_le_left hg.le (one_le_pow₀ one_le_two)
            exact max_eq_left (by linarith)
      · have hex' : ∃ m < r, h ≤ 2 ^ m * (2 * g) := by
          obtain ⟨m, hm, hle⟩ := hex
          cases m with
          | zero => exact absurd hle (by simpa using hlt)
          | succ m => exact ⟨m, Nat.lt_of_succ_lt_succ hm, by rw [hstep]; exact hle⟩
        obtain ⟨hge, hiff⟩ := ih (g := 2 * g) (by linarith) hex'
        rw [missing_hid hd hg hlt]
        have hmax := le_max_left g d
        refine ⟨by linarith, fun he => ?_, ?_⟩
        · have hdg : d ≤ g := by linarith [le_max_right g d]
          refine .inr ⟨hdg, ?_⟩
          rcases hiff.mp (by linarith) with ⟨h1, h2⟩ | ⟨-, m, hm, h1, h2⟩
          · obtain ⟨m, hm, -⟩ := hex'
            exact ⟨1, by omega, by rwa [pow_one], by rwa [pow_one]⟩
          · exact ⟨m + 1, Nat.succ_lt_succ hm, by rwa [← hstep], by rwa [← hstep]⟩
        · rintro (⟨hle, -⟩ | ⟨hdg, m, hm, h1, h2⟩)
          · exact absurd hle (not_le.mpr hlt)
          · cases m with
            | zero => exact absurd h1 (by simpa using hlt)
            | succ m =>
                rw [hiff.mpr (.inr ⟨by linarith, m, Nat.lt_of_succ_lt_succ hm, by rwa [hstep], by rwa [hstep]⟩),
                  max_eq_left hdg]
                ring

variable (d h) in
/-- **The cut comes out right** with `r` levels from the cut on, the first of which is short of `g`: the cut is in the
displayed part, or the doubling ends within a level, or the levels give out at the right sum. -/
def CutRight (r : ℕ) (g : ℚ) : Prop :=
  h ≤ g ∨ (d ≤ g ∧ ∃ m < r, h ≤ 2 ^ m * g ∧ 2 ^ m * g ≤ d + h) ∨
    (∀ i < r, 2 ^ i * g < h) ∧ ∑ i ∈ Finset.range r, max (2 ^ i * g) d = d + h - g

theorem missing_iff {r : ℕ} {g : ℚ} (hr : 0 < r) (hg : 0 < g) (hgT : g ≤ d + h) :
    missing d h r g = d + h - g ↔ CutRight d h r g := by
  by_cases hex : ∃ m < r, h ≤ 2 ^ m * g
  · rw [(missing_long hd hT hg hex).2, CutRight]
    constructor
    · rintro (⟨hle, -⟩ | hlong)
      · exact .inl hle
      · exact .inr (.inl hlong)
    · rintro (hle | hlong | ⟨hshort, -⟩)
      · exact .inl ⟨hle, hgT⟩
      · exact .inr hlong
      · obtain ⟨m, hm, hle⟩ := hex
        exact absurd hle (not_le.mpr (hshort m hm))
  · have hall : ∀ i < r, 2 ^ i * g < h := fun i hi => not_le.mp fun hle => hex ⟨i, hi, hle⟩
    rw [missing_short hd hg hall, CutRight]
    constructor
    · exact fun he => .inr (.inr ⟨hall, he⟩)
    · rintro (hle | ⟨-, m, hm, hle, -⟩ | ⟨-, he⟩)
      · exact absurd hle (not_le.mpr (by simpa using hall 0 hr))
      · exact absurd hle (not_le.mpr (hall m hm))
      · exact he

end Missing

variable (d h) in
/-- **The limit is met** by `n` levels: it leaves room for all, or it cuts through one of them and that comes out right. -/
def LimitMet (n : ℕ) (lim : WithTop ℚ) : Prop :=
  ∀ x : ℚ, lim = x → ∀ k < n, k * (d + h) ≤ x → x < (k + 1) * (d + h) → CutRight d h (n - k) ((k + 1) * (d + h) - x)

theorem limitMet_coe {n : ℕ} {x : ℚ} : LimitMet d h n x ↔ ∀ k < n, (k : ℚ) * (d + h) ≤ x → x < (k + 1) * (d + h) →
    CutRight d h (n - k) ((k + 1) * (d + h) - x) :=
  ⟨fun hm => hm x rfl, fun hm _ hy => WithTop.coe_injective hy ▸ hm⟩

theorem limitMet_succ {n : ℕ} {x : ℚ} (hle : d + h ≤ x) :
    LimitMet d h n (x - (d + h) : ℚ) ↔ LimitMet d h (n + 1) x := by
  rw [limitMet_coe, limitMet_coe]
  constructor
  · intro hm k hk h1 h2
    cases k with
    | zero =>
        rw [Nat.cast_zero, zero_add, one_mul] at h2
        exact absurd hle (not_le.mpr h2)
    | succ k =>
        rw [Nat.cast_succ] at h1 h2 ⊢
        have hcut := hm k (Nat.lt_of_succ_lt_succ hk) (by linarith) (by linarith)
        rw [Nat.succ_sub_succ]
        convert hcut using 1
        ring
  · intro hm k hk h1 h2
    have hcut := hm (k + 1) (Nat.succ_lt_succ hk) (by push_cast; linarith) (by push_cast; linarith)
    rw [Nat.succ_sub_succ] at hcut
    convert hcut using 1
    push_cast
    ring

theorem limitMet_cut (hT : 0 < d + h) {n : ℕ} {x : ℚ} (h0 : 0 ≤ x) (hlt : x < d + h) :
    LimitMet d h (n + 1) x ↔ CutRight d h (n + 1) (d + h - x) := by
  rw [limitMet_coe]
  constructor
  · intro hm
    have hcut := hm 0 (Nat.succ_pos n) (by simpa using h0) (by simpa using hlt)
    rwa [Nat.cast_zero, zero_add, one_mul, Nat.sub_zero] at hcut
  · intro hcut k _ h1 _
    cases k with
    | zero =>
        rw [Nat.cast_zero, zero_add, one_mul, Nat.sub_zero]
        exact hcut
    | succ k =>
        rw [Nat.cast_succ] at h1
        have hk : 0 ≤ (k : ℚ) * (d + h) := by positivity
        exact absurd h1 (not_le.mpr (by linarith))

section Limit

variable (hd : 0 ≤ d) (hh : 0 ≤ h) (hT : 0 < d + h)

include hd hh hT

/-- **The sum is what it should be** just when the limit is met. -/
theorem total_iff (n : ℕ) {lim : WithTop ℚ} (h0 : 0 ≤ lim) :
    ((total d h n lim : ℚ) : WithTop ℚ) = min ((n * (d + h) : ℚ) : WithTop ℚ) lim ↔ LimitMet d h n lim := by
  cases lim with
  | top =>
      rw [total_top hh, min_eq_left le_top]
      exact iff_of_true rfl fun x hx => by cases hx
  | coe x =>
      have hx0 : 0 ≤ x := WithTop.coe_nonneg.mp h0
      rw [← WithTop.coe_min, WithTop.coe_inj]
      clear h0
      induction n generalizing x with
      | zero =>
          rw [total_zero, Nat.cast_zero, zero_mul, min_eq_left hx0, limitMet_coe]
          exact iff_of_true rfl fun k hk => absurd hk (Nat.not_lt_zero k)
      | succ n ih =>
          have hsucc : ((n + 1 : ℕ) : ℚ) * (d + h) = d + h + n * (d + h) := by
            rw [Nat.cast_succ]
            ring
          rcases le_or_gt (d + h) x with hle | hlt
          · have hmin : min (d + h + n * (d + h)) x = d + h + min (n * (d + h)) (x - (d + h)) := by
              rw [← min_add_add_left, add_sub_cancel]
            rw [total_full hh hle, hsucc, hmin, add_right_inj, ← limitMet_succ hle]
            exact ih (x - (d + h)) (by linarith)
          · have hmiss : total d h (n + 1) x = missing d h (n + 1) (d + h - x) := by rw [missing, sub_sub_cancel]
            have hn : 0 ≤ (n : ℚ) * (d + h) := by positivity
            have hmin : min (d + h + n * (d + h)) x = d + h - (d + h - x) := by
              rw [sub_sub_cancel]
              exact min_eq_right (by linarith)
            rw [hmiss, hsucc, hmin, limitMet_cut hT hx0 hlt]
            exact missing_iff hd hT (Nat.succ_pos n) (by linarith) (by linarith)

end Limit

end Room

/-! ## The orders of a side -/

section Orders

variable {D : Type} [Dfp D]

/-- The quantities of the orders on a side. -/
def offered (sid : ClobSide) (ms : List (Omsg D)) : List (Qty D) :=
  ms.filterMap fun m => match m.body with
    | .ord o => if o.sid = sid then some o.qty else none
    | _ => none

namespace Pyrabot

/-- One side of the pyramid, `sum` having been posted. -/
def side (q : Qty D) (lim : D) : ℕ → Qty D → List (Qty D)
  | 0, _ => []
  | n + 1, sum => maxqOf q sum lim :: side q lim n (Dfp.qtyAdd sum (maxqOf q sum lim))

variable {o : Opts D} {p : Pyrabot D}

omit [Dfp D] in
theorem offered_cans (sid : ClobSide) (cont : List UInt8) (oids : List (ClobOid D)) (ms : List (Omsg D)) :
    offered sid (oids.map (canOf cont) ++ ms) = offered sid ms := by
  induction oids with
  | nil => rfl
  | cons oid oids ih => exact ih

theorem offered_pyramid (n : ℕ) : ∀ q bq aq,
    offered clobSideAsk (pyramid o p n q bq aq) = side o.Q (o.maxq + p.acc.base) n aq ∧
    offered clobSideBid (pyramid o p n q bq aq) = side o.Q (o.maxq - p.acc.base) n bq := by
  induction n with
  | zero => exact fun _ _ _ => ⟨rfl, rfl⟩
  | succ n ih =>
      intro q bq aq
      obtain ⟨ha, hb⟩ := ih (q + Dfp.qty o.Q) (Dfp.qtyAdd bq (maxqOf o.Q bq (o.maxq - p.acc.base)))
        (Dfp.qtyAdd aq (maxqOf o.Q aq (o.maxq + p.acc.base)))
      constructor
      · rw [side, ← ha]
        rfl
      · rw [side, ← hb]
        rfl

end Pyrabot

variable [Exact D]

/-- **The sum of the orders on a side**, as they are on the wire, with no part negative. -/
def Offers (sid : ClobSide) (ms : List (Omsg D)) (t : ℚ) : Prop :=
  ∃ ts, List.Forall₂ Totals (offered sid ms) ts ∧ ts.sum = t

/-- The parts of a quantity. -/
def Shows (q : Qty D) (a : ℚ × ℚ) : Prop := num q.dis = .fin a.1 ∧ num q.hid = .fin a.2

theorem Shows.add {p q : Qty D} {a b : ℚ × ℚ} (hp : Shows p a) (hq : Shows q b) :
    Shows (Dfp.qtyAdd p q) (a.1 + b.1, a.2 + b.2) := ⟨Exact.dis hp.1 hq.1, Exact.hid hp.2 hq.2⟩

theorem Shows.qty {q : Qty D} {a : ℚ × ℚ} (h : Shows q a) : num (Dfp.qty q) = .fin (a.1 + a.2) := Exact.qty h.1 h.2

theorem Shows.totals_iff {q : Qty D} {a : ℚ × ℚ} (h : Shows q a) (ha : 0 ≤ a.1) (t : ℚ) :
    Totals q t ↔ a.1 + max a.2 0 = t := by
  rw [Unserlob.totals_iff h.1 h.2, and_iff_right ha]

theorem offers_iff {sid : ClobSide} {ms : List (Omsg D)} {as : List (ℚ × ℚ)}
    (h : List.Forall₂ Shows (offered sid ms) as) (has : ∀ a ∈ as, 0 ≤ a.1) (t : ℚ) :
    Offers sid ms t ↔ (as.map fun a => a.1 + max a.2 0).sum = t := by
  rw [Offers]
  generalize offered sid ms = qs at h
  have huniq : ∀ ts, List.Forall₂ Totals qs ts ↔ as.map (fun a => a.1 + max a.2 0) = ts := by
    induction h with
    | nil => exact fun ts => by simp [eq_comm]
    | @cons q a qs as hq _ ih =>
        intro ts
        have ih := ih fun b hb => has b (List.mem_cons_of_mem _ hb)
        have ha := hq.totals_iff (has a List.mem_cons_self)
        cases ts with
        | nil => simp
        | cons t ts => rw [List.forall₂_cons, ih, ha, List.map_cons, List.cons.injEq]
  simp only [huniq, exists_eq_left']

theorem maxqOf_shows {q sum : Qty D} {lim : D} {L : WithTop ℚ} {d h : ℚ} {s : ℚ × ℚ} (hq : Shows q (d, h))
    (hs : Shows sum s) (hl : num lim = ofTop L) :
    Shows (Pyrabot.maxqOf q sum lim) (offer d h (L + (-(s.1 + s.2) : ℚ))) := by
  have hall : num (Dfp.qty (Dfp.qtyAdd q sum)) = .fin (d + s.1 + (h + s.2)) := (hq.add hs).qty
  have hcut := Exact.lt (M := ((d + s.1 + (h + s.2) : ℚ) : WithTop ℚ)) hl hall
  have hnone := Exact.le (M := ((s.1 + s.2 : ℚ) : WithTop ℚ)) hl hs.qty
  rw [Pyrabot.maxqOf]
  cases L with
  | top =>
      rw [if_neg fun hc => not_top_lt (hcut.mp hc)]
      exact hq
  | coe x =>
      rw [WithTop.coe_lt_coe] at hcut
      rw [WithTop.coe_le_coe] at hnone
      have hx : num (lim - Dfp.qty sum) = .fin (x + -(s.1 + s.2)) := Exact.sub (L := x) hl hs.qty
      have hdis : Dfp.lt q.dis (lim - Dfp.qty sum) = true ↔ d < x + -(s.1 + s.2) := Exact.fin_lt hq.1 hx
      change Shows _ (if x + -(s.1 + s.2) < d + h then if x + -(s.1 + s.2) ≤ 0 then (0, 0)
        else if d < x + -(s.1 + s.2) then (d, h - (x + -(s.1 + s.2))) else (x + -(s.1 + s.2), 0) else (d, h))
      by_cases h1 : x + -(s.1 + s.2) < d + h
      · rw [if_pos (hcut.mpr (by linarith)), if_pos h1]
        by_cases h2 : x + -(s.1 + s.2) ≤ 0
        · rw [if_pos (hnone.mpr (by linarith)), if_pos h2]
          exact ⟨Exact.nought, Exact.nought⟩
        · rw [if_neg fun hc => h2 (by linarith [hnone.mp hc]), if_neg h2]
          by_cases h3 : d < x + -(s.1 + s.2)
          · rw [if_pos h3]
            simp only [hdis.mpr h3, if_true]
            exact ⟨hq.1, Exact.fin_sub hq.2 hx⟩
          · rw [if_neg h3]
            simp only [hdis, h3, if_false]
            exact ⟨hx, Exact.nought⟩
      · rw [if_neg fun hc => h1 (by linarith [hcut.mp hc]), if_neg h1]
        exact hq

/-- **What a side offers**, with the room that the limit leaves. -/
theorem side_shows {q : Qty D} {lim : D} {L : WithTop ℚ} {d h : ℚ} (hq : Shows q (d, h)) (hl : num lim = ofTop L)
    (n : ℕ) : ∀ {sum : Qty D} {s : ℚ × ℚ}, Shows sum s →
      List.Forall₂ Shows (Pyrabot.side q lim n sum) (offers d h n (L + (-(s.1 + s.2) : ℚ))) := by
  induction n with
  | zero => exact fun _ => .nil
  | succ n ih =>
      intro sum s hs
      have ha := maxqOf_shows hq hs hl
      refine .cons ha ?_
      have hroom : L + (-(s.1 + s.2) : ℚ) + (-((offer d h (L + (-(s.1 + s.2) : ℚ))).1 +
          (offer d h (L + (-(s.1 + s.2) : ℚ))).2) : ℚ) = L + (-((s.1 + (offer d h (L + (-(s.1 + s.2) : ℚ))).1) +
          (s.2 + (offer d h (L + (-(s.1 + s.2) : ℚ))).2)) : ℚ) := by
        rw [add_assoc, ← WithTop.coe_add]
        congr 2
        ring
      rw [hroom]
      exact ih (hs.add ha)

theorem offer_dis {d h : ℚ} (hd : 0 ≤ d) (R : WithTop ℚ) : 0 ≤ (offer d h R).1 := by
  cases R with
  | top => exact hd
  | coe x =>
      change 0 ≤ (if x < d + h then if x ≤ 0 then (0, 0) else if d < x then (d, h - x) else (x, 0) else (d, h) : ℚ × ℚ).1
      split_ifs with h1 h2 h3
      · exact le_rfl
      · exact hd
      · exact (not_le.mp h2).le
      · exact hd

theorem offers_dis {d h : ℚ} (hd : 0 ≤ d) (n : ℕ) : ∀ R, ∀ a ∈ offers d h n R, 0 ≤ a.1 := by
  induction n with
  | zero => exact fun R a ha => absurd ha List.not_mem_nil
  | succ n ih =>
      intro R a ha
      rcases List.mem_cons.mp ha with rfl | ha
      · exact offer_dis hd R
      · exact ih _ a ha

/-! ## A heartbeat -/

/-- **The orders keep to the limit** `L` at the position `b`: no part on the wire is negative, the asks add up to `n`
levels of `T` or to what may be sold, the bids to `n` levels or to what may be bought, and whatever part of them is
filled, the position stays within the limit. -/
structure InLimit (ms : List (Omsg D)) (n : ℕ) (T : ℚ) (L : WithTop ℚ) (b : ℚ) : Prop where
  asks : ∃ t : ℚ, Offers clobSideAsk ms t ∧ (t : WithTop ℚ) = min ((n * T : ℚ) : WithTop ℚ) (L + b)
  bids : ∃ t : ℚ, Offers clobSideBid ms t ∧ (t : WithTop ℚ) = min ((n * T : ℚ) : WithTop ℚ) (L + (-b : ℚ))
  base : ∀ t u x y : ℚ, Offers clobSideAsk ms t → Offers clobSideBid ms u → 0 ≤ x → x ≤ t → 0 ≤ y → y ≤ u →
    ((b - x + y : ℚ) : WithTop ℚ) ≤ L ∧ ((-(b - x + y) : ℚ) : WithTop ℚ) ≤ L

theorem le_room {L : WithTop ℚ} {b t x : ℚ} (h : (t : WithTop ℚ) ≤ L + b) (hx : x ≤ t) : ((x - b : ℚ) : WithTop ℚ) ≤ L := by
  cases L with
  | top => exact le_top
  | coe l =>
      rw [← WithTop.coe_add, WithTop.coe_le_coe] at h
      rw [WithTop.coe_le_coe]
      linarith

theorem room_nonneg {L : WithTop ℚ} {b : ℚ} (h : ((-b : ℚ) : WithTop ℚ) ≤ L) : 0 ≤ L + b := by
  cases L with
  | top => exact le_top
  | coe l =>
      rw [WithTop.coe_le_coe] at h
      rw [← WithTop.coe_add]
      exact WithTop.coe_nonneg.mpr (by linarith)

theorem inLimit_iff {ms : List (Omsg D)} {n : ℕ} {T b a c : ℚ} {L : WithTop ℚ}
    (ha : ∀ t, Offers clobSideAsk ms t ↔ a = t) (hc : ∀ t, Offers clobSideBid ms t ↔ c = t) :
    InLimit ms n T L b ↔ (a : WithTop ℚ) = min ((n * T : ℚ) : WithTop ℚ) (L + b) ∧
      (c : WithTop ℚ) = min ((n * T : ℚ) : WithTop ℚ) (L + (-b : ℚ)) := by
  constructor
  · rintro ⟨⟨t, ht, hasks⟩, ⟨u, hu, hbids⟩, -⟩
    rw [(ha t).mp ht, (hc u).mp hu]
    exact ⟨hasks, hbids⟩
  · rintro ⟨hasks, hbids⟩
    refine ⟨⟨a, (ha a).mpr rfl, hasks⟩, ⟨c, (hc c).mpr rfl, hbids⟩, fun t u x y ht hu hx hxt hy hyu => ?_⟩
    obtain rfl := (ha t).mp ht
    obtain rfl := (hc u).mp hu
    have hsold := le_room (hasks.le.trans (min_le_right _ _)) hxt
    have hbought := le_room (hbids.le.trans (min_le_right _ _)) hyu
    constructor
    · refine le_trans (WithTop.coe_le_coe.mpr ?_) hbought
      linarith
    · refine le_trans (WithTop.coe_le_coe.mpr ?_) hsold
      linarith

namespace Pyrabot

variable {o : Opts D} {p : Pyrabot D} {d h b : ℚ} {L : WithTop ℚ}

section Heartbeat

variable (hp : p.vqty.length = 2) (hd : num o.Q.dis = .fin d) (hh : num o.Q.hid = .fin h) (hd0 : 0 ≤ d)
  (hL : num o.maxq = ofTop L) (hb : num p.acc.base = .fin b)

include hp hd hh hd0 hL hb

/-- **What a heartbeat offers** on each side. -/
theorem hbeatCb_offers : ∃ r, hbeatCb o p = .ok r ∧
    (∀ t, Offers clobSideAsk r.2 t ↔ total d h o.nlvl (L + b) = t) ∧
    ∀ t, Offers clobSideBid r.2 t ↔ total d h o.nlvl (L + (-b : ℚ)) = t := by
  obtain ⟨va, vb, hv⟩ := List.length_eq_two.mp hp
  obtain ⟨p', hbeat⟩ : ∃ p', hbeatCb o p = .ok (p', (List.range p.noid).map (fun i => canOf o.cont (p.coid i)) ++
      pyramid o (reprice o va vb p) o.nlvl (Dfp.qty o.Q) Qty.nil Qty.nil) := by
    rw [hbeatCb, hv]
    exact ⟨_, rfl⟩
  have hnil : Shows (Qty.nil : Qty D) (0, 0) := ⟨Exact.nought, Exact.nought⟩
  have hQ : Shows o.Q (d, h) := ⟨hd, hh⟩
  have hroom : ∀ R : WithTop ℚ, R + (-(0 + 0) : ℚ) = R := fun R => by rw [add_zero, neg_zero, WithTop.coe_zero, add_zero]
  have hasks := side_shows hQ (Exact.add hL hb) o.nlvl hnil
  have hbids := side_shows hQ (Exact.sub hL hb) o.nlvl hnil
  rw [hroom] at hasks hbids
  obtain ⟨ha, hc⟩ := offered_pyramid (o := o) (p := reprice o va vb p) o.nlvl (Dfp.qty o.Q) Qty.nil Qty.nil
  have hcans : ∀ sid ms, offered sid ((List.range p.noid).map (fun i => canOf o.cont (p.coid i)) ++ ms) =
      offered sid ms := fun sid ms => by
    have hmap := offered_cans sid o.cont ((List.range p.noid).map p.coid) ms
    rwa [List.map_map] at hmap
  exact ⟨_, hbeat, offers_iff (by rw [hcans, ha]; exact hasks) (offers_dis hd0 _ _),
    offers_iff (by rw [hcans, hc]; exact hbids) (offers_dis hd0 _ _)⟩

/-- **A heartbeat keeps to the limit** just when it is met on both sides. -/
theorem within_limit (hh0 : 0 ≤ h) (hT : 0 < d + h) (hle : ((|b| : ℚ) : WithTop ℚ) ≤ L) : ∃ r, hbeatCb o p = .ok r ∧
    (InLimit r.2 o.nlvl (d + h) L b ↔ LimitMet d h o.nlvl (L + b) ∧ LimitMet d h o.nlvl (L + (-b : ℚ))) := by
  obtain ⟨r, hr, ha, hc⟩ := hbeatCb_offers hp hd hh hd0 hL hb
  refine ⟨r, hr, ?_⟩
  rw [inLimit_iff ha hc]
  refine and_congr (total_iff hd0 hh0 hT _ (room_nonneg ?_)) (total_iff hd0 hh0 hT _ (room_nonneg ?_))
  · exact (WithTop.coe_le_coe.mpr (neg_le_abs b)).trans hle
  · exact (WithTop.coe_le_coe.mpr ((neg_neg b).le.trans (le_abs_self b))).trans hle

end Heartbeat

end Pyrabot

end Orders

namespace Pyrabot

/-- One displayed and one hidden on each level, and so much for a limit. -/
def capped (n : ℕ) (c : ℤ) : Opts Cents where
  cont := bytes ['I']
  nlvl := n
  Q := ⟨Cents.of 100, Cents.of 100⟩
  maxq := Cents.of c

def sampleInit (n : ℕ) (c : ℤ) : Pyrabot Cents := init (capped n c) fun _ => ⟨0, 0, Cents.of 0, 0, 0⟩

/-- A limit of one cuts through the displayed part of the first level. -/
theorem within_limit_one : ∃ r, hbeatCb (capped 3 100) (sampleInit 3 100) = .ok r ∧
    (InLimit r.2 3 (1 + 1) ((1 : ℚ) : WithTop ℚ) 0 ↔ LimitMet 1 1 3 (((1 : ℚ) : WithTop ℚ) + (0 : ℚ)) ∧
      LimitMet 1 1 3 (((1 : ℚ) : WithTop ℚ) + (-0 : ℚ))) :=
  within_limit (o := capped 3 100) rfl (Cents.num_of (by norm_num)) (Cents.num_of (by norm_num)) (by norm_num)
    (Cents.num_of (by norm_num)) (Cents.num_of (by norm_num)) (by norm_num) (by norm_num)
    (WithTop.coe_le_coe.mpr (by norm_num))

/-- **A limit of one and a half** cuts through the hidden part, and one is offered. -/
theorem within_limit_half : ¬ ∀ (o : Opts Cents) (p : Pyrabot Cents) (d h b : ℚ) (L : WithTop ℚ), p.vqty.length = 2 →
    num o.Q.dis = .fin d → num o.Q.hid = .fin h → 0 ≤ d → num o.maxq = ofTop L → num p.acc.base = .fin b → 0 ≤ h →
    0 < d + h → ((|b| : ℚ) : WithTop ℚ) ≤ L → ∃ r, hbeatCb o p = .ok r ∧ InLimit r.2 o.nlvl (d + h) L b := by
  intro hall
  have hQ : num (Cents.of 100) = .fin 1 := Cents.num_of (by norm_num)
  have hL : num (Cents.of 150) = ofTop ((3 / 2 : ℚ) : WithTop ℚ) := Cents.num_of (by norm_num)
  have hb : num (Cents.of 0) = .fin 0 := Cents.num_of (by norm_num)
  obtain ⟨r, hr, hlim⟩ := hall (capped 1 150) (sampleInit 1 150) 1 1 0 ((3 / 2 : ℚ) : WithTop ℚ) rfl hQ hQ (by norm_num)
    hL hb (by norm_num) (by norm_num) (WithTop.coe_le_coe.mpr (by norm_num))
  obtain ⟨r', hr', ha, hc⟩ := hbeatCb_offers (o := capped 1 150) (p := sampleInit 1 150) rfl hQ hQ (by norm_num) hL hb
  obtain rfl := Except.ok.inj (hr.symm.trans hr')
  obtain ⟨hasks, -⟩ := (inLimit_iff ha hc).mp hlim
  have hone : total 1 1 1 ((3 / 2 : ℚ) : WithTop ℚ) = 1 := by
    rw [total_cut (by norm_num) (by norm_num) (by norm_num), total_zero]
    norm_num
  rw [← WithTop.coe_add, add_zero, ← WithTop.coe_min] at hasks
  change ((total 1 1 1 ((3 / 2 : ℚ) : WithTop ℚ) : ℚ) : WithTop ℚ) = _ at hasks
  rw [hone, WithTop.coe_inj] at hasks
  norm_num [capped] at hasks

end Pyrabot

end Unserlob
