import Mathlib.Algebra.BigOperators.Group.List.Basic
import Mathlib.Algebra.GroupWithZero.Nat
import Mathlib.Algebra.Order.Group.Nat
import Mathlib.Tactic.Common

/-!
# Pages

Lines of some lengths go to pages one after the other. A page is closed in front of a line when it is fuller than
`keep`; a page that is closed may hold `full`, the last page `cap`.

* `Packs`: the lines can be cut into such pages;
* `packs_singleton`, **`packs_add`**, **`packs_page`**: whether they can, line by line;
* `packs_of_le`: short lines always can.
-/

namespace Pages

/-- Lines of these lengths fill pages: each is as full as `keep` at most before its last line, those that are
closed are fuller than that behind it, and none is too full. -/
inductive Packs (keep full cap : ℕ) : List ℕ → Prop where
  | last {g : List ℕ} : g ≠ [] → g.dropLast.sum ≤ keep → g.sum ≤ cap → Packs keep full cap g
  | page {g ns : List ℕ} : g.dropLast.sum ≤ keep → keep < g.sum → g.sum ≤ full → Packs keep full cap ns →
      Packs keep full cap (g ++ ns)

variable {keep full cap t n : ℕ} {ns : List ℕ}

theorem Packs.ne_nil (h : Packs keep full cap ns) : ns ≠ [] := by
  induction h with
  | last hne _ _ => exact hne
  | page _ _ _ _ ih => exact fun hc => ih (List.append_eq_nil_iff.mp hc).2

theorem packs_cons : Packs keep full cap (t :: ns) ↔
    ((t :: ns).dropLast.sum ≤ keep ∧ t + ns.sum ≤ cap) ∨
    ∃ g ms, ns = g ++ ms ∧ (t :: g).dropLast.sum ≤ keep ∧ keep < t + g.sum ∧ t + g.sum ≤ full ∧
      Packs keep full cap ms := by
  constructor
  · intro h
    generalize hl : t :: ns = l at h
    cases h with
    | last _ hkeep hcap =>
        subst hl
        exact Or.inl ⟨hkeep, hcap⟩
    | @page g ms hkeep hlt hfull hms =>
        cases g with
        | nil => exact absurd hlt (Nat.not_lt_zero _)
        | cons a g =>
            obtain ⟨rfl, rfl⟩ := List.cons.inj hl
            exact Or.inr ⟨g, ms, rfl, hkeep, hlt, hfull, hms⟩
  · rintro (⟨hkeep, hcap⟩ | ⟨g, ms, rfl, hkeep, hlt, hfull, hms⟩)
    · exact .last (List.cons_ne_nil _ _) hkeep hcap
    · exact Packs.page (g := t :: g) hkeep hlt hfull hms

theorem packs_singleton : Packs keep full cap [t] ↔ t ≤ cap := by
  rw [packs_cons]
  constructor
  · rintro (⟨-, hcap⟩ | ⟨g, ms, hnil, -, -, -, hms⟩)
    · exact hcap
    · exact absurd (List.append_eq_nil_iff.mp hnil.symm).2 hms.ne_nil
  · exact fun h => Or.inl ⟨Nat.zero_le _, h⟩

theorem sum_dropLast_cons_cons (t n : ℕ) (g : List ℕ) : (t :: n :: g).dropLast.sum = t + (n :: g).dropLast.sum := rfl

theorem dropLast_add (h : t ≤ keep) (g : List ℕ) : (t :: n :: g).dropLast.sum ≤ keep ↔ ((t + n) :: g).dropLast.sum ≤ keep := by
  cases g with
  | nil => exact iff_of_true h (Nat.zero_le _)
  | cons m g =>
      rw [sum_dropLast_cons_cons, sum_dropLast_cons_cons, sum_dropLast_cons_cons, Nat.add_assoc]

/-- **A line goes to a page** that is not fuller than `keep`. -/
theorem packs_add (h : t ≤ keep) : Packs keep full cap (t :: n :: ns) ↔ Packs keep full cap ((t + n) :: ns) := by
  rw [packs_cons, packs_cons, dropLast_add h, List.sum_cons, Nat.add_assoc]
  refine or_congr_right ⟨?_, ?_⟩
  · rintro ⟨g, ms, hns, hkeep, hlt, hfull, hms⟩
    cases g with
    | nil => exact absurd hlt (not_lt.mpr h)
    | cons m g =>
        obtain ⟨rfl, rfl⟩ := List.cons.inj hns
        rw [List.sum_cons, ← Nat.add_assoc] at hlt hfull
        exact ⟨g, ms, rfl, (dropLast_add h g).mp hkeep, hlt, hfull, hms⟩
  · rintro ⟨g, ms, rfl, hkeep, hlt, hfull, hms⟩
    rw [Nat.add_assoc, ← List.sum_cons] at hlt hfull
    exact ⟨n :: g, ms, rfl, (dropLast_add h g).mpr hkeep, hlt, hfull, hms⟩

/-- **A page is closed** in front of a line. -/
theorem packs_page (h : keep < t) : Packs keep full cap (t :: n :: ns) ↔ t ≤ full ∧ Packs keep full cap (n :: ns) := by
  have hover : ∀ g : List ℕ, ¬ (t :: n :: g).dropLast.sum ≤ keep := fun g => by
    rw [sum_dropLast_cons_cons]
    omega
  rw [packs_cons]
  constructor
  · rintro (⟨hkeep, -⟩ | ⟨g, ms, hns, hkeep, -, hfull, hms⟩)
    · exact absurd hkeep (hover ns)
    · cases g with
      | nil =>
          rw [hns]
          exact ⟨hfull, hms⟩
      | cons m g =>
          obtain ⟨rfl, -⟩ := List.cons.inj hns
          exact absurd hkeep (hover g)
  · rintro ⟨hfull, hms⟩
    exact Or.inr ⟨[], n :: ns, rfl, Nat.zero_le _, h, hfull, hms⟩

theorem not_packs (hk : keep < t) (hf : full < t) (hc : cap < t) : ¬ Packs keep full cap (t :: ns) := by
  cases ns with
  | nil => exact fun h => absurd (packs_singleton.mp h) (by omega)
  | cons n ns => exact fun h => absurd ((packs_page hk).mp h).1 (by omega)

/-- **Short lines** fill pages. -/
theorem packs_of_le (room : ℕ) (hf : keep + room ≤ full) (hc : keep + room ≤ cap) (hns : ∀ n ∈ ns, n ≤ room)
    (ht : t ≤ keep + room) : Packs keep full cap (t :: ns) := by
  induction ns generalizing t with
  | nil => exact packs_singleton.mpr (by omega)
  | cons n ns ih =>
      obtain ⟨hn, hns⟩ := List.forall_mem_cons.mp hns
      by_cases h : t ≤ keep
      · exact (packs_add h).mpr (ih hns (by omega))
      · exact (packs_page (by omega)).mpr ⟨by omega, ih hns (by omega)⟩

end Pages
