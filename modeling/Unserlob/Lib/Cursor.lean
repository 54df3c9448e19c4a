import Mathlib.Tactic.Common
import Mathlib.Data.List.Basic

/-!
# Reading through a pointer

A pointer is the list of bytes from where it points to the end of the memory that may be read.
Reading past that end is a fault, not a value; a scan that never ends is another.

* `deref`, `memchr`, `memcmp`, `skipWhile`: the C idioms, byte by byte and left to right;
* `memchr_append`, `skipWhile_append`, …: their results when the memory is known up to the byte
  at which they stop;
* **`Grows`**: what a reader that did not run off the memory found is what it finds when the memory
  is longer, closed under sequencing (`Grows.bind`).
-/

namespace Cursor

/-- What can go wrong in a run. -/
inductive Fault where
  /-- a read outside the memory -/
  | read
  /-- a store outside the memory -/
  | store
  /-- a loop that does not end -/
  | loop
  /-- an assertion that does not hold -/
  | assert
  deriving DecidableEq, Repr

abbrev Ptr := List UInt8

abbrev Res (α : Type) := Except Fault α

/-- **Peeling a computation apart.** -/
theorem bind_ok {α β : Type} {x : Res α} {f : α → Res β} {b : β} :
    (x >>= f) = .ok b ↔ ∃ a, x = .ok a ∧ f a = .ok b := by
  cases x with
  | error e => exact ⟨fun h => (nomatch h), fun ⟨_, h, _⟩ => (nomatch h)⟩
  | ok a => exact ⟨fun h => ⟨a, rfl, h⟩, fun ⟨_, h, hf⟩ => by cases h; exact hf⟩

theorem map_ok {α β : Type} {x : Res α} {f : α → β} {b : β} :
    x.map f = .ok b ↔ ∃ a, x = .ok a ∧ f a = b := by
  cases x with
  | error e => exact ⟨fun h => (nomatch h), fun ⟨_, h, _⟩ => (nomatch h)⟩
  | ok a => exact ⟨fun h => ⟨a, rfl, Except.ok.inj h⟩, fun ⟨_, h, hf⟩ => by cases h; exact congrArg _ hf⟩

theorem returns_map {α β : Type} {x : Res α} (f : α → β) :
    (∃ b, f <$> x = .ok b) ↔ ∃ a, x = .ok a := by
  cases x with
  | error e => exact ⟨fun ⟨_, h⟩ => (nomatch h), fun ⟨_, h⟩ => (nomatch h)⟩
  | ok a => exact ⟨fun _ => ⟨a, rfl⟩, fun _ => ⟨f a, rfl⟩⟩

theorem returns_bind {α β : Type} {x : Res α} {f : α → Res β} (hf : ∀ a, ∃ b, f a = .ok b) :
    (∃ b, x >>= f = .ok b) ↔ ∃ a, x = .ok a := by
  cases x with
  | error e => exact ⟨fun ⟨_, h⟩ => (nomatch h), fun ⟨_, h⟩ => (nomatch h)⟩
  | ok a => exact ⟨fun _ => ⟨a, rfl⟩, fun _ => hf a⟩

/-- `*p` -/
def deref : Ptr → Res UInt8
  | [] => .error .read
  | c :: _ => .ok c

/-- `memchr(p, c, n)`, as an offset; bytes are looked at from the left and only up to the match. -/
def memchr (c : UInt8) : Ptr → ℕ → Res (Option ℕ)
  | _, 0 => .ok none
  | [], _ + 1 => .error .read
  | x :: p, n + 1 => if x = c then .ok (some 0) else (memchr c p n).map (Option.map (· + 1))

/-- `!memcmp(p, w, n)` for `n` the length of `w`; bytes are compared up to the first difference. -/
def memcmp : Ptr → List UInt8 → Res Bool
  | _, [] => .ok true
  | [], _ :: _ => .error .read
  | x :: p, y :: w => if x = y then memcmp p w else .ok false

/-- `for (; f(*p); p++)`, with the number of bytes passed. -/
def skipWhile (f : UInt8 → Bool) : Ptr → Res (ℕ × Ptr)
  | [] => .error .read
  | c :: p => if f c then (skipWhile f p).map fun r => (r.1 + 1, r.2) else .ok (0, c :: p)

/-! ## Memory known up to where a reader stops -/

theorem not_cons {c d : UInt8} {p : Ptr} (h : c ≠ d) : ¬ ∃ q, c :: p = d :: q := by
  rintro ⟨q, he⟩
  exact h (List.cons.inj he).1

theorem forall_cons {c : UInt8} {p : Ptr} {P : Ptr → Prop} : (∀ q, c :: p = c :: q → P q) ↔ P p := by
  refine ⟨fun h => h p rfl, fun h q he => ?_⟩
  rwa [← (List.cons.inj he).2]

theorem deref_ok {p : Ptr} {c : UInt8} : deref p = .ok c ↔ p.head? = some c := by
  cases p with
  | nil => exact ⟨nofun, nofun⟩
  | cons d t => exact ⟨fun h => congrArg some (Except.ok.inj h), fun h => congrArg Except.ok (Option.some.inj h)⟩

theorem deref_cons (c : UInt8) (p : Ptr) : deref (c :: p) = .ok c := rfl

theorem memchr_append {c : UInt8} {w : List UInt8} (hw : c ∉ w) (r : Ptr) {n : ℕ}
    (hn : w.length < n) : memchr c (w ++ c :: r) n = .ok (some w.length) := by
  induction w generalizing n with
  | nil =>
      obtain ⟨n, rfl⟩ : ∃ k, n = k + 1 := ⟨n - 1, by simp at hn; omega⟩
      simp [memchr]
  | cons x w ih =>
      rw [List.length_cons] at hn
      obtain ⟨n, rfl⟩ : ∃ k, n = k + 1 := ⟨n - 1, by omega⟩
      rw [List.mem_cons, not_or] at hw
      rw [List.cons_append, memchr, if_neg (Ne.symm hw.1), ih hw.2 (by omega)]
      rfl

theorem memchr_none {c : UInt8} {w : List UInt8} (hw : c ∉ w) (r : Ptr) :
    memchr c (w ++ r) w.length = .ok none := by
  induction w with
  | nil => cases r <;> rfl
  | cons x w ih =>
      rw [List.mem_cons, not_or] at hw
      rw [List.length_cons, List.cons_append, memchr, if_neg (Ne.symm hw.1), ih hw.2]
      rfl

theorem memchr_bounds {c : UInt8} {p : Ptr} {n i : ℕ} (h : memchr c p n = .ok (some i)) :
    i < p.length ∧ i < n := by
  induction n generalizing p i with
  | zero => cases p <;> cases h
  | succ n ih =>
      cases p with
      | nil => cases h
      | cons x p =>
          rw [memchr] at h
          split_ifs at h
          · cases h
            exact ⟨Nat.succ_pos _, Nat.succ_pos _⟩
          · obtain ⟨o, ho, he⟩ := map_ok.mp h
            obtain ⟨j, rfl, rfl⟩ := Option.map_eq_some_iff.mp he
            exact (ih ho).imp Nat.succ_lt_succ Nat.succ_lt_succ

theorem lt_of_memchr {c : UInt8} {p : Ptr} {n i : ℕ} (h : memchr c p n = .ok (some i)) : i < p.length :=
  (memchr_bounds h).1

theorem memchr_lt {c : UInt8} {p : Ptr} {n i : ℕ} (h : memchr c p n = .ok (some i)) : i < n := (memchr_bounds h).2

theorem le_of_memchr_none {c : UInt8} {p : Ptr} {n : ℕ} (h : memchr c p n = .ok none) : n ≤ p.length := by
  induction n generalizing p with
  | zero => exact Nat.zero_le _
  | succ n ih =>
      cases p with
      | nil => cases h
      | cons x p =>
          rw [memchr] at h
          split_ifs at h
          · cases h
          · obtain ⟨o, ho, he⟩ := map_ok.mp h
            rw [Option.map_eq_none_iff.mp he] at ho
            exact Nat.succ_le_succ (ih ho)

theorem memcmp_append (w : List UInt8) (r : Ptr) : memcmp (w ++ r) w = .ok true := by
  induction w with
  | nil => cases r <;> rfl
  | cons x w ih => rw [List.cons_append, memcmp, if_pos rfl, ih]

theorem memcmp_eq {p : Ptr} {w : List UInt8} (h : w.length ≤ p.length) :
    memcmp p w = .ok (decide (p.take w.length = w)) := by
  induction w generalizing p with
  | nil => cases p <;> rfl
  | cons y w ih =>
      obtain ⟨x, p, rfl⟩ := List.exists_cons_of_length_pos (l := p) (by simp at h; omega)
      rw [memcmp, List.length_cons, List.take_succ_cons]
      by_cases hxy : x = y
      · rw [if_pos hxy, ih (by simpa using h)]
        simp [hxy]
      · rw [if_neg hxy]
        simp [hxy]

theorem memcmp_true {p : Ptr} {w : List UInt8} (h : memcmp p w = .ok true) : ∃ r, p = w ++ r := by
  induction w generalizing p with
  | nil => exact ⟨p, rfl⟩
  | cons y w ih =>
      cases p with
      | nil => cases h
      | cons x p =>
          rw [memcmp] at h
          split_ifs at h with hxy
          · obtain ⟨r, rfl⟩ := ih h
            exact ⟨r, by rw [hxy]; rfl⟩
          · cases h

theorem memcmp_of_mem {s : UInt8} {p : Ptr} {w : List UInt8} (hp : s ∈ p) (hw : s ∉ w) :
    memcmp p w = .ok (w.isPrefixOf p) := by
  induction w generalizing p with
  | nil => cases p <;> rfl
  | cons y w ih =>
      obtain ⟨x, p, rfl⟩ := List.exists_cons_of_ne_nil (List.ne_nil_of_mem hp)
      rw [memcmp, List.isPrefixOf_cons_cons]
      split_ifs with hxy
      · have hm : s ∈ p := (List.mem_cons.mp hp).resolve_left fun he =>
          hw (by rw [he, hxy]; exact List.mem_cons_self)
        rw [ih hm fun h => hw (List.mem_cons_of_mem _ h), hxy, beq_self_eq_true, Bool.true_and]
      · rw [beq_false_of_ne (Ne.symm hxy), Bool.false_and]

theorem skipWhile_append {f : UInt8 → Bool} {w : List UInt8} (hw : ∀ x ∈ w, f x = true)
    {c : UInt8} (hc : f c = false) (r : Ptr) :
    skipWhile f (w ++ c :: r) = .ok (w.length, c :: r) := by
  induction w with
  | nil => simp [skipWhile, hc]
  | cons x w ih =>
      rw [List.cons_append, skipWhile, if_pos (hw x List.mem_cons_self),
        ih fun y hy => hw y (List.mem_cons_of_mem _ hy)]
      rfl

theorem skipWhile_of_mem {f : UInt8 → Bool} {p : Ptr} {s : UInt8} (hs : s ∈ p) (hf : f s = false) :
    skipWhile f p = .ok ((p.takeWhile f).length, p.dropWhile f) := by
  induction p with
  | nil => cases hs
  | cons c p ih =>
      by_cases hc : f c = true
      · have hsp : s ∈ p := by
          rcases List.mem_cons.mp hs with rfl | h
          · rw [hc] at hf; cases hf
          · exact h
        rw [skipWhile, if_pos hc, ih hsp, List.takeWhile_cons_of_pos hc, List.dropWhile_cons_of_pos hc]
        rfl
      · rw [skipWhile, if_neg hc, List.takeWhile_cons_of_neg hc, List.dropWhile_cons_of_neg hc]
        rfl

/-! ## Longer memory -/

/-- `y` finds with `r` more bytes of memory what `x` found without, unless `x` ran off the end. -/
def Grows {α : Type} (r : Ptr) (x y : Res (α × Ptr)) : Prop :=
  x ≠ .error .read → y = x.map fun z => (z.1, z.2 ++ r)

section Grows

variable {α β : Type} {r : Ptr}

theorem Grows.ok (a : α) (p : Ptr) : Grows r (.ok (a, p)) (.ok (a, p ++ r)) := fun _ => rfl

theorem Grows.error (e : Fault) : Grows (α := α) r (.error e) (.error e) := fun _ => rfl

theorem Grows.bind {x y : Res (α × Ptr)} {f g : α × Ptr → Res (β × Ptr)} (h : Grows r x y)
    (hf : ∀ a p, x = .ok (a, p) → Grows r (f (a, p)) (g (a, p ++ r))) :
    Grows r (x >>= f) (y >>= g) := by
  intro hne
  rcases x with e | ⟨a, p⟩
  · rw [h fun he => hne (by rw [he]; rfl)]
    rfl
  · rw [h (by simp)]
    exact hf a p rfl hne

theorem Grows.const (x : Res β) (f : β → α) (p : Ptr) :
    Grows r (x >>= fun b => .ok (f b, p)) (x >>= fun b => .ok (f b, p ++ r)) := by
  cases x with
  | error e => exact Grows.error e
  | ok b => exact Grows.ok _ _

theorem Grows.ite {c : Prop} [Decidable c] {x x' y y' : Res (α × Ptr)} (h : Grows r x y)
    (h' : Grows r x' y') : Grows r (if c then x else x') (if c then y else y') := by
  split_ifs
  · exact h
  · exact h'

theorem Grows.deref {p : Ptr} {f g : UInt8 → Res (β × Ptr)}
    (hf : ∀ c q, p = c :: q → Grows r (f c) (g c)) :
    Grows r (Cursor.deref p >>= f) (Cursor.deref (p ++ r) >>= g) := by
  cases p with
  | nil => intro h; exact absurd rfl h
  | cons c q => exact hf c q rfl

theorem grows_skipWhile (f : UInt8 → Bool) (p : Ptr) :
    Grows r (skipWhile f p) (skipWhile f (p ++ r)) := by
  induction p with
  | nil => intro h; exact absurd rfl h
  | cons c p ih =>
      intro hne
      rw [List.cons_append, skipWhile, skipWhile]
      by_cases hc : f c = true
      · rw [skipWhile, if_pos hc] at hne
        rw [if_pos hc, if_pos hc, ih fun he => hne (by rw [he]; rfl)]
        cases skipWhile f p <;> rfl
      · rw [if_neg hc, if_neg hc]
        rfl

theorem Grows.drop {f : Ptr → Res (α × Ptr)} (h0 : f [] = .error .read)
    (hf : ∀ p, Grows r (f p) (f (p ++ r))) (p : Ptr) (k : ℕ) : Grows r (f (p.drop k)) (f ((p ++ r).drop k)) := by
  by_cases hk : k ≤ p.length
  · rw [List.drop_append_of_le_length hk]
    exact hf _
  · rw [List.drop_of_length_le (by omega), h0]
    exact fun h => absurd rfl h

end Grows

/-- The same for results that hold no pointer. -/
def Stays {α : Type} (x y : Res α) : Prop := x ≠ .error .read → y = x

section Stays

variable {α β : Type} {r : Ptr}

theorem Stays.refl (x : Res α) : Stays x x := fun _ => rfl

theorem Stays.bind {x y : Res α} {f g : α → Res β} (h : Stays x y) (hf : ∀ a, Stays (f a) (g a)) :
    Stays (x >>= f) (y >>= g) := by
  intro hne
  cases x with
  | error e =>
      rw [h fun he => hne (by rw [he]; rfl)]
      rfl
  | ok a =>
      rw [h (by simp)]
      exact hf a hne

theorem Stays.map {x y : Res α} (f : α → β) (h : Stays x y) : Stays (f <$> x) (f <$> y) := by
  intro hne
  rw [h fun he => hne (by rw [he]; rfl)]

theorem Grows.stays {x y : Res (α × Ptr)} {f g : α × Ptr → Res β} (h : Grows r x y)
    (hf : ∀ a p, Stays (f (a, p)) (g (a, p ++ r))) : Stays (x >>= f) (y >>= g) := by
  intro hne
  rcases x with e | ⟨a, p⟩
  · rw [h fun he => hne (by rw [he]; rfl)]
    rfl
  · rw [h (by simp)]
    exact hf a p hne

theorem Stays.ite {c : Prop} [Decidable c] {x x' y y' : Res α} (h : Stays x y) (h' : Stays x' y') :
    Stays (if c then x else x') (if c then y else y') := by
  split_ifs
  · exact h
  · exact h'

theorem Stays.deref {p : Ptr} {f g : UInt8 → Res β} (hf : ∀ c q, p = c :: q → Stays (f c) (g c)) :
    Stays (Cursor.deref p >>= f) (Cursor.deref (p ++ r) >>= g) := by
  cases p with
  | nil => intro h; exact absurd rfl h
  | cons c q => exact hf c q rfl

theorem stays_deref_drop (p : Ptr) (k : ℕ) :
    Stays (Cursor.deref (p.drop k)) (Cursor.deref ((p ++ r).drop k)) := by
  by_cases hk : k < p.length
  · rw [List.drop_append_of_le_length (by omega), List.drop_eq_getElem_cons hk]
    exact Stays.refl _
  · rw [List.drop_of_length_le (by omega)]
    exact fun h => absurd rfl h

theorem stays_memchr (c : UInt8) (p : Ptr) (n : ℕ) : Stays (memchr c p n) (memchr c (p ++ r) n) := by
  have hz : ∀ q : Ptr, memchr c q 0 = .ok none := fun q => by cases q <;> rfl
  induction n generalizing p with
  | zero =>
      rw [hz, hz]
      exact Stays.refl _
  | succ n ih =>
      cases p with
      | nil => exact fun h => absurd rfl h
      | cons x p =>
          rw [List.cons_append, memchr, memchr]
          refine Stays.ite (Stays.refl _) fun hne => ?_
          rw [ih p fun he => hne (by rw [he]; rfl)]

theorem stays_memcmp (p : Ptr) (w : List UInt8) : Stays (memcmp p w) (memcmp (p ++ r) w) := by
  have hz : ∀ q : Ptr, memcmp q [] = .ok true := fun q => by cases q <;> rfl
  induction w generalizing p with
  | nil =>
      rw [hz, hz]
      exact Stays.refl _
  | cons y w ih =>
      cases p with
      | nil => exact fun h => absurd rfl h
      | cons x p =>
          rw [List.cons_append, memcmp, memcmp]
          exact Stays.ite (ih p) (Stays.refl _)

theorem Stays.onMatch {p : Ptr} {w : List UInt8} {x x' y y' : Res α} (h : Stays x x') (h' : Stays y y') :
    Stays (memcmp p w >>= fun b => if b = true then x else y)
      (memcmp (p ++ r) w >>= fun b => if b = true then x' else y') :=
  Stays.bind (stays_memcmp p w) fun _ => Stays.ite h h'

end Stays

end Cursor
