import Unserlob.Lib.Cursor

/-!
# Transducers

A step takes an input and a state and gives a state and outputs, or faults.

* `run`: the state and the outputs after a list of inputs; `run_cons_ignored`;
* `Ignores`: an input that changes nothing and puts nothing out in any state;
* **`run_filter`**, **`run_eq_of_filter_eq`**: ignored inputs can be left out, and histories that differ in
  ignored inputs only cannot be told apart.
-/

namespace Transducer

open Cursor

variable {S I O : Type} (step : I → S → Res (S × List O))

/-- The state and the outputs after the inputs. -/
def run : List I → S → Res (S × List O)
  | [], s => .ok (s, [])
  | i :: is, s => do
    let a ← step i s
    let b ← run is a.1
    pure (b.1, a.2 ++ b.2)

/-- The input leaves no trace. -/
def Ignores (i : I) : Prop := ∀ s, step i s = .ok (s, [])

variable {step}

theorem run_cons_ignored {i : I} (h : Ignores step i) (is : List I) (s : S) :
    run step (i :: is) s = run step is s := by
  rw [run, h s]
  simp only [bind, Except.bind, List.nil_append]
  cases run step is s <;> rfl

theorem run_cons_congr (i : I) {is js : List I} (h : ∀ s, run step is s = run step js s) (s : S) :
    run step (i :: is) s = run step (i :: js) s := by
  simp only [run, h]

/-- **Inputs that are ignored can be left out.** -/
theorem run_filter {heard : I → Bool} {is : List I} (h : ∀ i ∈ is, heard i = false → Ignores step i) :
    ∀ s, run step is s = run step (is.filter heard) s := by
  induction is with
  | nil => exact fun s => rfl
  | cons i is ih =>
      have ih := ih fun j hj => h j (List.mem_cons_of_mem i hj)
      intro s
      cases hi : heard i with
      | true =>
          rw [List.filter_cons_of_pos hi]
          exact run_cons_congr i ih s
      | false =>
          rw [List.filter_cons_of_neg (Bool.eq_false_iff.mp hi), run_cons_ignored (h i List.mem_cons_self hi)]
          exact ih s

/-- **Histories that differ in ignored inputs only** cannot be told apart. -/
theorem run_eq_of_filter_eq {heard : I → Bool} {is js : List I}
    (hi : ∀ i ∈ is, heard i = false → Ignores step i) (hj : ∀ j ∈ js, heard j = false → Ignores step j)
    (he : is.filter heard = js.filter heard) (s : S) : run step is s = run step js s := by
  rw [run_filter hi, run_filter hj, he]

end Transducer
