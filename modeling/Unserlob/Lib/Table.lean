import Mathlib.Algebra.BigOperators.Group.Finset.Basic
import Mathlib.Algebra.BigOperators.Group.Finset.Piecewise
import Mathlib.Tactic.Ring
import Unserlob.Lib.Cursor

/-!
# Tables in allocated memory

An array that may be read and stored within its bounds and grown by `realloc`, whose new slots hold
anything; and matrices of `n` columns laid out in one, row after row.

* `getAt`, `setAt`, `realloc`: the accesses, with the faults;
* `slot_inj`: different cells have different slots;
* `colSum`: the sum of a column; **`colSum_set`**, `colSum_succ`: how stores and new rows change it.
-/

namespace Table

open Cursor

variable {α : Type}

/-- `l[i]` -/
def getAt (l : List α) (i : ℕ) : Res α :=
  match l[i]? with
  | some a => .ok a
  | none => .error .read

/-- `l[i] = a` -/
def setAt (l : List α) (i : ℕ) (a : α) : Res (List α) :=
  if i < l.length then .ok (l.set i a) else .error .store

/-- `realloc`, with what the new slots happen to hold. -/
def realloc (junk : ℕ → α) (n : ℕ) (l : List α) : List α :=
  (List.range n).map fun i => (l[i]?).getD (junk i)

variable {l : List α} {i j k n : ℕ} {a : α}

theorem getAt_ok (h : l[i]? = some a) : getAt l i = .ok a := by
  rw [getAt, h]

theorem getAt_eq (h : getAt l i = .ok a) : l[i]? = some a := by
  unfold getAt at h
  split at h
  · cases h
    assumption
  · cases h

theorem setAt_eq {l' : List α} (h : setAt l i a = .ok l') : l' = l.set i a := by
  unfold setAt at h
  split_ifs at h
  exact (Except.ok.inj h).symm

theorem setAt_lt {l' : List α} (h : setAt l i a = .ok l') : i < l.length := by
  unfold setAt at h
  split_ifs at h with hi
  exact hi

theorem setAt_ok (h : i < l.length) (a : α) : setAt l i a = .ok (l.set i a) := if_pos h

@[simp] theorem length_realloc (junk : ℕ → α) (n : ℕ) (l : List α) :
    (realloc junk n l).length = n := by
  simp [realloc]

theorem getElem?_realloc (junk : ℕ → α) (hn : l.length ≤ n) (hi : i < l.length) :
    (realloc junk n l)[i]? = l[i]? := by
  rw [realloc, List.getElem?_map, List.getElem?_range (by omega), Option.map_some,
    List.getElem?_eq_getElem hi]
  rfl

theorem take_realloc (junk : ℕ → α) (hn : l.length ≤ n) (hk : k ≤ l.length) : (realloc junk n l).take k = l.take k := by
  refine List.ext_getElem? fun i => ?_
  by_cases hi : i < k
  · rw [List.getElem?_take_of_lt hi, List.getElem?_take_of_lt hi, getElem?_realloc junk hn (by omega)]
  · rw [List.getElem?_take_eq_none (by omega), List.getElem?_take_eq_none (by omega)]

theorem getElem?_set_next {f : ℕ → Option α} (hi : i < l.length) (ha : f i = some a) (hl : ∀ j < i, l[j]? = f j) :
    ∀ j < i + 1, (l.set i a)[j]? = f j := by
  intro j hj
  rcases Nat.lt_succ_iff_lt_or_eq.mp hj with hlt | rfl
  · rw [List.getElem?_set_ne (by omega), hl j hlt]
  · rw [List.getElem?_set_self hi, ha]

theorem eq_of_pairwise {β : Type} {f : α → β} (h : l.Pairwise fun a b => f a ≠ f b)
    {a b : α} (ha : a ∈ l) (hb : b ∈ l) (he : f a = f b) : a = b := by
  by_contra hne
  have : Std.Symm fun a b => f a ≠ f b := ⟨fun _ _ h => h.symm⟩
  exact h.forall ha hb hne he

/-! ## Rows and columns -/

theorem slot_inj {i' j' : ℕ} (hj : j < n) (hj' : j' < n) (h : i * n + j = i' * n + j') :
    i = i' ∧ j = j' := by
  have hn : 0 < n := by omega
  have hi : i = i' := by
    have := congrArg (· / n) h
    simpa [Nat.mul_comm _ n, Nat.mul_add_div hn, Nat.div_eq_of_lt hj, Nat.div_eq_of_lt hj'] using this
  subst hi
  exact ⟨rfl, by omega⟩

theorem slot_lt {m : ℕ} (hi : i < m) (hj : j < n) : i * n + j < m * n := by
  calc i * n + j < i * n + n := by omega
    _ = (i + 1) * n := by ring
    _ ≤ m * n := Nat.mul_le_mul_right n hi

section Sums

variable {A : Type} [AddCommGroup A] (f : α → A)

/-- The value of the cell in row `i` and column `j`. -/
def cell (l : List α) (n i j : ℕ) : A := ((l[i * n + j]?).map f).getD 0

/-- The sum of column `j` over `m` rows. -/
def colSum (l : List α) (n m j : ℕ) : A := ∑ i ∈ Finset.range m, cell f l n i j

theorem cell_set {i' j' : ℕ} (hj : j < n) (hj' : j' < n) (hlt : i' * n + j' < l.length) (a : α) :
    cell f (l.set (i' * n + j') a) n i j =
      if i = i' ∧ j = j' then f a else cell f l n i j := by
  unfold cell
  by_cases h : i = i' ∧ j = j'
  · obtain ⟨rfl, rfl⟩ := h
    rw [if_pos ⟨rfl, rfl⟩, List.getElem?_set_self hlt]
    rfl
  · rw [if_neg h, List.getElem?_set_ne fun he => h (slot_inj hj hj' he.symm)]

/-- **Adding to one cell adds to its column.** -/
theorem colSum_set {m i' j' : ℕ} (hi' : i' < m) (hj : j < n) (hj' : j' < n)
    (hlt : i' * n + j' < l.length) {a : α} {d : A} (ha : f a = cell f l n i' j' + d) :
    colSum f (l.set (i' * n + j') a) n m j = colSum f l n m j + if j = j' then d else 0 := by
  unfold colSum
  have hcell : ∀ i ∈ Finset.range m, cell f (l.set (i' * n + j') a) n i j =
      cell f l n i j + if i = i' then (if j = j' then d else 0) else 0 := by
    intro i _
    rw [cell_set f hj hj' hlt]
    by_cases h1 : i = i'
    · subst h1
      by_cases h2 : j = j'
      · subst h2
        simp [ha]
      · simp [h2]
    · simp [h1]
  rw [Finset.sum_congr rfl hcell, Finset.sum_add_distrib, Finset.sum_ite_eq',
    if_pos (Finset.mem_range.mpr hi')]

theorem colSum_succ {l' : List α} {m : ℕ} (hrow : cell f l' n m j = 0)
    (hold : ∀ i < m, cell f l' n i j = cell f l n i j) :
    colSum f l' n (m + 1) j = colSum f l n m j := by
  unfold colSum
  rw [Finset.sum_range_succ, hrow, add_zero]
  exact Finset.sum_congr rfl fun i hi => hold i (Finset.mem_range.mp hi)

end Sums

end Table
