import Mathlib.Algebra.BigOperators.Group.List.Basic
import Mathlib.Data.Nat.Size
import Mathlib.Order.Monotone.Basic
import Mathlib.Tactic.Ring

/-!
# Room that is doubled

Things of some lengths are stored one behind the other in memory that starts with `c` bytes and is doubled at most
once in front of each of them.

* `grow`, `capacity`: the room there is, turn by turn, when `S n` bytes are wanted after `n` turns;
* `room`: the least of `c`, `2 c`, `4 c`, … that is more than what is wanted;
* **`le_capacity_iff`**: what fits, by the room for what was wanted before;
* `offset`, `drop_offset_flatten`: where a thing is stored;
* `Paced`: the lengths grow slowly enough for the doubling.
-/

namespace Growth

/-- Memory that would be full is doubled once. -/
def grow (cap need : ℕ) : ℕ := if cap ≤ need then cap * 2 else cap

/-- The room after `n` turns. -/
def capacity (c : ℕ) (S : ℕ → ℕ) : ℕ → ℕ
  | 0 => c
  | n + 1 => grow (capacity c S n) (S (n + 1))

/-- The least doubling of `c` that is more than `a`. -/
def room (c a : ℕ) : ℕ := c * 2 ^ Nat.size (a / c)

theorem grow_le (cap need : ℕ) : grow cap need ≤ 2 * cap := by
  unfold grow
  split_ifs <;> omega

theorem le_room (c a : ℕ) : c ≤ room c a := Nat.le_mul_of_pos_right c (Nat.pow_pos (by decide))

section Room

variable {c : ℕ} (hc : 0 < c)
include hc

theorem room_le_iff {a k : ℕ} : room c a ≤ c * 2 ^ k ↔ a < c * 2 ^ k := by
  rw [room, Nat.mul_le_mul_left_iff hc, Nat.pow_le_pow_iff_right (by decide), Nat.size_le, Nat.div_lt_iff_lt_mul hc,
    Nat.mul_comm]

theorem lt_room (a : ℕ) : a < room c a := (room_le_iff hc).mp le_rfl

theorem room_mono {a b : ℕ} (h : a ≤ b) : room c a ≤ room c b := (room_le_iff hc).mpr (h.trans_lt (lt_room hc b))

theorem two_mul_le_room {a k : ℕ} (h : c * 2 ^ k ≤ a) : c * 2 ^ k * 2 ≤ room c a := by
  have hlt : 2 ^ k < 2 ^ Nat.size (a / c) := (Nat.mul_lt_mul_left hc).mp (h.trans_lt (lt_room hc a))
  rw [room, Nat.mul_assoc, ← pow_succ]
  exact Nat.mul_le_mul_left c (Nat.pow_le_pow_right (by decide) ((Nat.pow_lt_pow_iff_right (by decide)).mp hlt))

end Room

/-! ## Turn by turn -/

theorem capacity_eq (c : ℕ) (S : ℕ → ℕ) (n : ℕ) : ∃ k, capacity c S n = c * 2 ^ k := by
  induction n with
  | zero => exact ⟨0, by rw [capacity, pow_zero, Nat.mul_one]⟩
  | succ n ih =>
      obtain ⟨k, hk⟩ := ih
      rw [capacity, grow, hk]
      split_ifs
      · exact ⟨k + 1, by rw [pow_succ, Nat.mul_assoc]⟩
      · exact ⟨k, rfl⟩

section Turns

variable {c : ℕ} {S : ℕ → ℕ} (hc : 0 < c) (hS : Monotone S) (h0 : S 0 = 0)
include hc hS

theorem capacity_le_room (n : ℕ) : capacity c S n ≤ room c (S n) := by
  induction n with
  | zero => exact le_room c _
  | succ n ih =>
      obtain ⟨k, hk⟩ := capacity_eq c S n
      rw [capacity, grow]
      split_ifs with hfull
      · rw [hk] at hfull ⊢
        exact two_mul_le_room hc hfull
      · exact ih.trans (room_mono hc (hS (Nat.le_succ n)))

theorem capacity_le {n j : ℕ} (h : j ≤ n) : capacity c S n ≤ 2 ^ (n - j) * room c (S j) := by
  induction n, h using Nat.le_induction with
  | base =>
      rw [Nat.sub_self, pow_zero, Nat.one_mul]
      exact capacity_le_room hc hS j
  | succ n hj ih =>
      rw [Nat.succ_sub hj, pow_succ', Nat.mul_assoc]
      exact (grow_le _ _).trans (Nat.mul_le_mul_left 2 ih)

include h0

/-- The room is that of the last turn with room to spare, doubled in every turn since. -/
theorem exists_capacity_eq (n : ℕ) : ∃ j ≤ n, capacity c S n = 2 ^ (n - j) * room c (S j) := by
  induction n with
  | zero => exact ⟨0, le_rfl, by rw [h0, room, Nat.zero_div]; simp [capacity]⟩
  | succ n ih =>
      obtain ⟨j, hj, he⟩ := ih
      by_cases hfull : capacity c S n ≤ S (n + 1)
      · refine ⟨j, by omega, ?_⟩
        rw [capacity, grow, if_pos hfull, he, Nat.succ_sub hj, pow_succ]
        ring
      · -- nothing was doubled, and there is no more room than is needed
        obtain ⟨k, hk⟩ := capacity_eq c S n
        have hle : room c (S (n + 1)) ≤ capacity c S n := by
          rw [hk, room_le_iff hc, ← hk]
          omega
        have hge := (capacity_le_room hc hS n).trans (room_mono hc (hS (Nat.le_succ n)))
        refine ⟨n + 1, le_rfl, ?_⟩
        rw [capacity, grow, if_neg hfull, Nat.sub_self, pow_zero, Nat.one_mul]
        exact le_antisymm hge hle

/-- **What fits after `n` turns**, by what was wanted before. -/
theorem le_capacity_iff {n a : ℕ} : a ≤ capacity c S n ↔ ∀ j ≤ n, a ≤ 2 ^ (n - j) * room c (S j) := by
  constructor
  · exact fun h j hj => h.trans (capacity_le hc hS hj)
  · intro h
    obtain ⟨j, hj, he⟩ := exists_capacity_eq hc hS h0 n
    rw [he]
    exact h j hj

end Turns

/-! ## Things of some lengths -/

/-- Where thing `i` is stored. -/
def offset (ns : List ℕ) (i : ℕ) : ℕ := (ns.take i).sum

@[simp] theorem offset_zero (ns : List ℕ) : offset ns 0 = 0 := rfl

theorem offset_succ {ns : List ℕ} {i n : ℕ} (h : ns[i]? = some n) : offset ns (i + 1) = offset ns i + n := by
  rw [offset, offset, List.take_add_one, h, List.sum_append]
  rfl

theorem offset_mono (ns : List ℕ) : Monotone (offset ns) := by
  refine monotone_nat_of_le_succ fun i => ?_
  rw [offset, offset, List.take_add_one, List.sum_append]
  exact Nat.le_add_right _ _

theorem offset_length {α : Type} (ls : List (List α)) (i : ℕ) :
    offset (ls.map List.length) i = (ls.take i).flatten.length := by
  rw [offset, ← List.map_take, List.length_flatten]

/-- **A thing is found** behind its offset. -/
theorem drop_offset_flatten {α : Type} {ls : List (List α)} {i : ℕ} {l : List α} (h : ls[i]? = some l) :
    (ls.flatten.drop (offset (ls.map List.length) i)).take l.length = l := by
  obtain ⟨hi, hget⟩ := List.getElem?_eq_some_iff.mp h
  have hsplit : ls = ls.take i ++ l :: ls.drop (i + 1) := by
    rw [← hget, ← List.drop_eq_getElem_cons hi, List.take_append_drop]
  have hflat : ls.flatten = (ls.take i).flatten ++ (l ++ (ls.drop (i + 1)).flatten) := by
    conv_lhs => rw [hsplit]
    rw [List.flatten_append, List.flatten_cons]
  rw [hflat, offset_length, List.drop_left, List.take_left]

/-- **The lengths grow slowly enough**: what there is after `n` turns takes at most what the doubling makes of the
room for what there was after `j` turns. -/
def Paced (c : ℕ) (ns : List ℕ) : Prop :=
  ∀ n ≤ ns.length, ∀ j ≤ n, offset ns n ≤ 2 ^ (n - j) * room c (offset ns j)

theorem paced_iff {c : ℕ} (hc : 0 < c) (ns : List ℕ) :
    Paced c ns ↔ ∀ n ≤ ns.length, offset ns n ≤ capacity c (offset ns) n :=
  forall₂_congr fun _ _ => (le_capacity_iff hc (offset_mono ns) (offset_zero ns)).symm

end Growth
