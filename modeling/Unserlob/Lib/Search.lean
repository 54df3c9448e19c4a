import Mathlib.Data.List.Infix

/-!
# Finding a list in a list

* **`search`**: where the first occurrence starts;
* `search_eq_some_iff`, `search_eq_none_iff`: what that means.
-/

namespace Search

variable {α : Type} [DecidableEq α] {ndl : List α}

/-- Where `ndl` starts in a list for the first time. -/
def search (ndl : List α) : List α → Option ℕ
  | [] => if ndl = [] then some 0 else none
  | c :: hay => if ndl <+: c :: hay then some 0 else (search ndl hay).map (· + 1)

theorem search_at_start {hay : List α} (h : ndl <+: hay) : search ndl hay = some 0 := by
  cases hay with
  | nil => exact if_pos (List.prefix_nil.mp h)
  | cons c hay => exact if_pos h

theorem search_cons {c : α} {hay : List α} (h : ¬ ndl <+: c :: hay) :
    search ndl (c :: hay) = (search ndl hay).map (· + 1) := if_neg h

/-- **The first occurrence.** -/
theorem search_eq_some_iff {hay : List α} {p : ℕ} : search ndl hay = some p ↔
    (∃ u v, hay = u ++ ndl ++ v ∧ u.length = p) ∧ ∀ q < p, ¬ ndl <+: hay.drop q := by
  induction hay generalizing p with
  | nil =>
      unfold search
      constructor
      · intro h
        split_ifs at h with hn
        cases h
        exact ⟨⟨[], [], by simp [hn], rfl⟩, fun q hq => absurd hq (Nat.not_lt_zero q)⟩
      · rintro ⟨⟨u, v, huv, rfl⟩, -⟩
        simp only [List.nil_eq, List.append_eq_nil_iff] at huv
        rw [if_pos huv.1.2, huv.1.1]
        rfl
  | cons c hay ih =>
      by_cases hp : ndl <+: c :: hay
      · rw [search_at_start hp]
        constructor
        · rintro ⟨⟩
          obtain ⟨v, hv⟩ := hp
          exact ⟨⟨[], v, by simp [hv], rfl⟩, fun q hq => absurd hq (Nat.not_lt_zero q)⟩
        · rintro ⟨-, hlt⟩
          cases p with
          | zero => rfl
          | succ p => exact absurd hp (hlt 0 (Nat.succ_pos p))
      · rw [search_cons hp, Option.map_eq_some_iff]
        constructor
        · rintro ⟨q, hq, rfl⟩
          obtain ⟨⟨u, v, rfl, hu⟩, hlt⟩ := ih.mp hq
          refine ⟨⟨c :: u, v, rfl, by simp [hu]⟩, fun r hr => ?_⟩
          cases r with
          | zero => exact hp
          | succ r => exact hlt r (by omega)
        · rintro ⟨⟨u, v, huv, rfl⟩, hlt⟩
          cases u with
          | nil => exact absurd ⟨v, huv.symm⟩ hp
          | cons d u =>
              obtain ⟨-, rfl⟩ := List.cons.inj huv
              exact ⟨u.length, ih.mpr ⟨⟨u, v, rfl, rfl⟩, fun q hq => hlt (q + 1) (by simpa using hq)⟩, rfl⟩

/-- **There is no occurrence.** -/
theorem search_eq_none_iff {hay : List α} : search ndl hay = none ↔ ¬ ndl <:+: hay := by
  induction hay with
  | nil =>
      rw [List.infix_nil]
      unfold search
      split_ifs with h <;> simp [h]
  | cons c hay ih =>
      rw [List.infix_cons_iff]
      by_cases hp : ndl <+: c :: hay
      · simp [search_at_start hp, hp]
      · simp [search_cons hp, hp, ih]

theorem search_eq_none_of_lt {hay : List α} (h : hay.length < ndl.length) : search ndl hay = none :=
  search_eq_none_iff.mpr fun hin => absurd hin.length_le (by omega)

end Search
