import Unserlob.Lib.Table

/-!
# Counting loops

`for (i = 0; i < n; i++) f(i)` over a state, where a turn may fault, and such loops that store into a
table.

* `forRange`; **`forRange_spec`**, `forRange_inv`: the invariant rules; `forRange_error`: faults;
* `fill`: a loop that stores; **`fill_spec`**: what it stores and what it leaves alone.
-/

namespace ForLoop

open Cursor Table

variable {S : Type}

/-- `for (i = 0; i < n; i++) f(i)` -/
def forRange (f : ℕ → S → Res S) : ℕ → S → Res S
  | 0, s => .ok s
  | n + 1, s => do
    let s ← forRange f n s
    f n s

/-- **Invariants of a loop.** -/
theorem forRange_spec {f : ℕ → S → Res S} {I : ℕ → S → Prop} {n : ℕ} {s : S} (h0 : I 0 s)
    (hstep : ∀ i < n, ∀ s, I i s → ∃ s', f i s = .ok s' ∧ I (i + 1) s') :
    ∃ s', forRange f n s = .ok s' ∧ I n s' := by
  induction n with
  | zero => exact ⟨s, rfl, h0⟩
  | succ n ih =>
      obtain ⟨s₁, h₁, hI⟩ := ih fun i hi => hstep i (by omega)
      obtain ⟨s₂, h₂, hI'⟩ := hstep n (Nat.lt_succ_self n) s₁ hI
      exact ⟨s₂, bind_ok.mpr ⟨s₁, h₁, h₂⟩, hI'⟩

theorem forRange_inv {f : ℕ → S → Res S} {I : ℕ → S → Prop} {n : ℕ} {s s' : S} (h : forRange f n s = .ok s')
    (h0 : I 0 s) (hstep : ∀ i < n, ∀ s s', I i s → f i s = .ok s' → I (i + 1) s') : I n s' := by
  induction n generalizing s' with
  | zero =>
      cases h
      exact h0
  | succ n ih =>
      obtain ⟨s₁, h₁, h₂⟩ := bind_ok.mp h
      exact hstep n (Nat.lt_succ_self n) s₁ s' (ih h₁ fun i hi => hstep i (by omega)) h₂

theorem forRange_error {f : ℕ → S → Res S} {i n : ℕ} {s s' : S} {e : Fault} (h : forRange f i s = .ok s')
    (he : f i s' = .error e) (hn : i < n) : forRange f n s = .error e := by
  induction n, hn using Nat.le_induction with
  | base =>
      rw [forRange, h]
      exact he
  | succ n hn ih =>
      rw [forRange, ih]
      rfl

/-! ## Loops that store -/

variable {α : Type}

/-- `for (i = 0; i < n; i++) l[slot(i)] = a` -/
def fill (slot : ℕ → ℕ) (a : α) (n : ℕ) (l : List α) : Res (List α) :=
  forRange (fun i l => setAt l (slot i) a) n l

/-- **A loop that stores** into different slots inside the table. -/
theorem fill_spec {f : ℕ → ℕ} {a : α} {n : ℕ} {l : List α} (hlt : ∀ i < n, f i < l.length) :
    ∃ l', fill f a n l = .ok l' ∧ l'.length = l.length ∧ (∀ i < n, l'[f i]? = some a) ∧
      ∀ j, (∀ i < n, j ≠ f i) → l'[j]? = l[j]? := by
  refine forRange_spec (I := fun i l' => l'.length = l.length ∧ (∀ j < i, l'[f j]? = some a) ∧
    ∀ j, (∀ m < i, j ≠ f m) → l'[j]? = l[j]?) ⟨rfl, fun j hj => absurd hj (Nat.not_lt_zero j),
      fun j _ => rfl⟩ ?_
  rintro i hi l₁ ⟨hlen, hin, hout⟩
  have hs : f i < l₁.length := (hlt i hi).trans_eq hlen.symm
  refine ⟨l₁.set (f i) a, setAt_ok hs a, (List.length_set).trans hlen, fun j hj => ?_, fun j hj => ?_⟩
  · by_cases he : f i = f j
    · rw [← he]
      exact List.getElem?_set_self hs
    · rw [List.getElem?_set_ne he]
      refine hin j ?_
      have : j ≠ i := by
        rintro rfl
        exact he rfl
      omega
  · rw [List.getElem?_set_ne (Ne.symm (hj i (Nat.lt_succ_self i)))]
    exact hout j fun m hm => hj m (by omega)

end ForLoop
