import Unserlob.Lib.Cursor
import Mathlib.Tactic.Linarith

/-!
# Writing into a buffer

An encoder writes into `buf[0 … bsz)` and counts the bytes in `len`. The memory behind `buf` may be
longer or shorter than `bsz`; a store outside it is a fault.

* `putc`, `puts`, `poke`, `snprintf`: the C idioms, each with the arithmetic it does on `bsz - len`;
* `Takes bsz T w T'`: with the text `T` written, `w` makes it `T'` if that fits and faults in a
  memory of at most `bsz` bytes if it does not fit there;
* `Emits`: the writers that append; **`Takes.seq`**, `Emits.seq`: both compose;
* `Prints.seq`: a bounded writer followed by an unbounded one appends;
* `entry`, `Fails`: texts out of a table, and writers that cannot come to an end.
-/

namespace Writer

open Cursor

/-- The memory and the number of bytes counted. -/
structure Buf where
  mem : List UInt8
  len : ℕ
  deriving DecidableEq

/-- An encoder in the middle of a buffer. -/
abbrev Put := StateT Buf (Except Fault) Unit

/-- `a - b` in a `size_t`. -/
def subSz (a b : ℕ) : ℕ := if b ≤ a then a - b else a + 2 ^ 64 - b

/-- `memcpy(mem + i, w, |w|)` -/
def splice (mem : List UInt8) (i : ℕ) (w : List UInt8) : Res (List UInt8) :=
  if w = [] ∨ i + w.length ≤ mem.length then
    .ok (mem.take i ++ w ++ mem.drop (i + w.length))
  else .error .store

/-- `memmove(mem + d, mem + s, n)` -/
def memmove (mem : List UInt8) (d s n : ℕ) : Res (List UInt8) :=
  if s + n ≤ mem.length then splice mem d ((mem.drop s).take n) else .error .read

/-- The memory with `w` stored at offset `i`. -/
def putAt (i : ℕ) (w mem : List UInt8) : List UInt8 := mem.take i ++ w ++ mem.drop (i + w.length)

/-- The `n` bytes from offset `i` on. -/
def slice (mem : List UInt8) (i n : ℕ) : List UInt8 := (mem.drop i).take n

/-- Store `w` from `buf + len` on and count `adv` bytes. -/
def store (w : List UInt8) (adv : ℕ) : Put := fun s =>
  (splice s.mem s.len w).map fun mem => ((), ⟨mem, s.len + adv⟩)

/-- `buf[len++] = c` -/
def putc (c : UInt8) : Put := store [c] 1

/-- `len += (memcpy(buf + len, w, |w|), |w|)` -/
def puts (w : List UInt8) : Put := store w w.length

/-- `memcpy(buf + i, w, |w|)`, behind the count. -/
def poke (i : ℕ) (w : List UInt8) : Put := fun s =>
  (splice s.mem i w).map fun mem => ((), ⟨mem, s.len⟩)

/-- `buf[len - 1] = c` -/
def patch (c : UInt8) : Put := fun s => poke (s.len - 1) [c] s

/-- `len += snprintf(buf + len, bsz - len, …)` for an output of `w`: what there is room for is
stored, zero-terminated, and the whole length is counted. -/
def snprintf (bsz : ℕ) (w : List UInt8) : Put := fun s =>
  let room := subSz bsz s.len
  store (if 0 < room then w.take (room - 1) ++ [0] else []) w.length s

/-! ## Texts -/

/-- `T` is what has been written. -/
structure Buf.Holds (s : Buf) (T : List UInt8) : Prop where
  len : s.len = T.length
  take : s.mem.take s.len = T

/-- With `T` written, `w` leaves `T'` written, if there is room; it faults if there is not. -/
structure Takes (bsz : ℕ) (T : List UInt8) (w : Put) (T' : List UInt8) : Prop where
  fit : ∀ s : Buf, s.Holds T → T'.length ≤ bsz → T'.length ≤ s.mem.length →
    ∃ s', w s = .ok ((), s') ∧ s'.Holds T' ∧ s'.mem.length = s.mem.length
  spill : ∀ s : Buf, s.Holds T → s.mem.length ≤ bsz → s.mem.length < T'.length → w s = .error .store

/-- `w` appends `t`. -/
def Emits (bsz : ℕ) (w : Put) (t : List UInt8) : Prop := ∀ T, Takes bsz T w (T ++ t)

/-- `w` appends `t` if there is room for it and one byte more; if not, it faults or fills the
buffer. -/
structure Prints (bsz : ℕ) (w : Put) (t : List UInt8) : Prop where
  fit : ∀ (T : List UInt8) (s : Buf), s.Holds T → T.length + t.length < bsz →
    T.length + t.length < s.mem.length →
    ∃ s', w s = .ok ((), s') ∧ s'.Holds (T ++ t) ∧ s'.mem.length = s.mem.length
  spill : ∀ (T : List UInt8) (s : Buf), s.Holds T → s.mem.length ≤ bsz →
    s.mem.length ≤ T.length + t.length → w s = .error .store ∨
      ∃ s', w s = .ok ((), s') ∧ s'.mem.length = s.mem.length ∧ s.mem.length ≤ s'.len

variable {bsz : ℕ} {T T' t u : List UInt8} {s : Buf} {w v : Put}

theorem Buf.Holds.le (h : s.Holds T) : T.length ≤ s.mem.length := by
  have := congrArg List.length h.take
  rw [List.length_take] at this
  omega

theorem splice_ok {mem : List UInt8} {i : ℕ} (h : i + t.length ≤ mem.length) :
    splice mem i t = .ok (mem.take i ++ t ++ mem.drop (i + t.length)) := if_pos (Or.inr h)

theorem splice_fault {mem : List UInt8} {i : ℕ} (ht : t ≠ []) (h : mem.length < i + t.length) :
    splice mem i t = .error .store :=
  if_neg fun hc => hc.elim ht fun hle => absurd hle (by omega)

theorem length_splice {mem : List UInt8} {i : ℕ} (h : i + t.length ≤ mem.length) :
    (mem.take i ++ t ++ mem.drop (i + t.length)).length = mem.length := by
  rw [List.length_append, List.length_append, List.length_take, List.length_drop]
  omega

theorem splice_length {mem mem' : List UInt8} {i : ℕ} (h : splice mem i t = .ok mem') :
    mem'.length = mem.length := by
  rw [splice] at h
  split_ifs at h with hc
  cases h
  rcases hc with rfl | hle
  · simp
  · exact length_splice hle

theorem slice_putAt {mem : List UInt8} {i : ℕ} (h : i + t.length ≤ mem.length) :
    slice (putAt i t mem) i t.length = t := by
  rw [slice, putAt, List.append_assoc, List.drop_left' (List.length_take_of_le (by omega)),
    List.take_left]

theorem putAt_slice {mem : List UInt8} {i : ℕ} (h : slice mem i t.length = t) : putAt i t mem = mem := by
  have hd := List.take_append_drop t.length (mem.drop i)
  rw [List.drop_drop] at hd
  change (mem.drop i).take t.length = t at h
  rw [h] at hd
  rw [putAt, List.append_assoc, hd, List.take_append_drop]

theorem slice_putAt_of_disjoint {mem : List UInt8} {i a n : ℕ} (h : i + t.length ≤ mem.length)
    (hd : a + n ≤ i ∨ i + t.length ≤ a) : slice (putAt i t mem) a n = slice mem a n := by
  have hl : (mem.take i).length = i := List.length_take_of_le (by omega)
  unfold slice putAt
  rcases hd with hd | hd
  · rw [List.append_assoc, List.drop_append_of_le_length (by omega),
      List.take_append_of_le_length (by rw [List.length_drop]; omega), List.drop_take, List.take_take,
      min_eq_left (by omega)]
  · obtain ⟨k, rfl⟩ := Nat.exists_eq_add_of_le hd
    rw [← List.drop_drop, List.drop_left' (by rw [List.length_append, hl]), List.drop_drop]

theorem slice_of_take {mem mem' : List UInt8} {k a n : ℕ} (h : mem'.take k = mem.take k) (hk : a + n ≤ k) :
    slice mem' a n = slice mem a n := by
  have hs : ∀ m : List UInt8, slice m a n = slice (m.take k) a n := fun m => by
    rw [slice, slice, List.drop_take, List.take_take, min_eq_left (by omega)]
  rw [hs mem', h, ← hs]

theorem splice_error {mem : List UInt8} {i : ℕ} {e : Fault} (h : splice mem i t = .error e) :
    e = .store := by
  rw [splice] at h
  split_ifs at h
  exact (Except.error.inj h).symm

theorem store_ok {e : List UInt8} (h : s.Holds T) (hle : T.length + (t ++ e).length ≤ s.mem.length) :
    ∃ s', store (t ++ e) t.length s = .ok ((), s') ∧ s'.Holds (T ++ t) ∧
      s'.mem.length = s.mem.length := by
  have hs : s.len + (t ++ e).length ≤ s.mem.length := by rw [h.len]; exact hle
  refine ⟨⟨_, s.len + t.length⟩, ?_, ⟨?_, ?_⟩, length_splice hs⟩
  · rw [store, splice_ok hs]; rfl
  · change s.len + t.length = _
    rw [h.len, List.length_append]
  · change List.take (s.len + t.length) (s.mem.take s.len ++ (t ++ e) ++ _) = _
    rw [h.take, ← List.append_assoc, List.append_assoc _ e, List.take_left' ?_]
    rw [List.length_append, h.len]

theorem store_fault {n : ℕ} (ht : t ≠ []) (h : s.mem.length < s.len + t.length) :
    store t n s = .error .store := by
  rw [store, splice_fault ht h]; rfl

theorem subSz_of_le {a b : ℕ} (h : b ≤ a) : subSz a b = a - b := if_pos h

/-! ## The idioms -/

theorem Emits.puts (bsz : ℕ) (t : List UInt8) : Emits bsz (puts t) t := fun T => by
  constructor
  · intro s h _ hm
    rw [List.length_append] at hm
    have := store_ok (t := t) (e := []) h (by simpa using hm)
    rwa [List.append_nil] at this
  · intro s h hb hlt
    rw [List.length_append] at hlt
    have hle := h.le
    refine store_fault ?_ (by rw [h.len]; omega)
    rintro rfl
    rw [List.length_nil] at hlt
    omega

theorem Emits.putc (bsz : ℕ) (c : UInt8) : Emits bsz (putc c) [c] := Emits.puts bsz [c]

theorem Prints.store {f : ℕ → List UInt8} {n : ℕ → ℕ}
    (hfit : ∀ r, t.length < r → n r = t.length ∧ ∃ e, f r = t ++ e ∧ e.length ≤ 1)
    (hover : ∀ r, r ≤ t.length → r ≤ n r) :
    Prints bsz (fun s => store (f (subSz bsz s.len)) (n (subSz bsz s.len)) s) t where
  fit T s h hb hm := by
    have hroom : subSz bsz s.len = bsz - s.len := subSz_of_le (by rw [h.len]; omega)
    obtain ⟨hn, e, he, hle⟩ := hfit (bsz - s.len) (by rw [h.len]; omega)
    rw [hroom, hn, he]
    exact store_ok h (by rw [List.length_append]; omega)
  spill T s h hm hle := by
    have hTb := h.le
    have hlen := h.len
    rw [subSz_of_le (by omega)]
    have hn : s.mem.length ≤ s.len + n (bsz - s.len) := by
      by_cases hr : bsz - s.len ≤ t.length
      · have := hover _ hr
        omega
      · rw [(hfit (bsz - s.len) (by omega)).1]
        omega
    rw [Writer.store]
    cases hs : splice s.mem s.len (f (bsz - s.len)) with
    | error e => exact Or.inl (by rw [splice_error hs]; rfl)
    | ok mem => exact Or.inr ⟨⟨mem, _⟩, rfl, splice_length hs, hn⟩

theorem Prints.snprintf (bsz : ℕ) (t : List UInt8) : Prints bsz (snprintf bsz t) t := by
  refine Prints.store (f := fun r => if 0 < r then t.take (r - 1) ++ [0] else [])
    (n := fun _ => t.length) (fun r hr => ⟨rfl, [0], ?_, le_rfl⟩) fun r hr => hr
  rw [if_pos (by omega), List.take_of_length_le (by omega)]

/-! ## Sequencing -/

/-- **Writers compose.** -/
theorem Takes.seq {R : List UInt8} (h : Takes bsz T w T') (h' : Takes bsz T' v R)
    (hle : T'.length ≤ R.length) : Takes bsz T (w >>= fun _ => v) R where
  fit s hs hb hm := by
    obtain ⟨s₁, h₁, hs₁, hm₁⟩ := h.fit s hs (hle.trans hb) (hle.trans hm)
    obtain ⟨s₂, h₂, hs₂, hm₂⟩ := h'.fit s₁ hs₁ hb (by rw [hm₁]; exact hm)
    refine ⟨s₂, ?_, hs₂, hm₂.trans hm₁⟩
    change (w s >>= fun r => v r.2) = _
    rw [h₁]
    exact h₂
  spill s hs hm hlt := by
    change (w s >>= fun r => v r.2) = _
    by_cases hT : s.mem.length < T'.length
    · rw [h.spill s hs hm hT]; rfl
    · obtain ⟨s₁, h₁, hs₁, hm₁⟩ := h.fit s hs (by omega) (by omega)
      rw [h₁]
      exact h'.spill s₁ hs₁ (hm₁.trans_le hm) (by rw [hm₁]; exact hlt)

theorem Takes.emits (h : Takes bsz T w T') (h' : Emits bsz v u) :
    Takes bsz T (w >>= fun _ => v) (T' ++ u) :=
  h.seq (h' T') (by rw [List.length_append]; omega)

theorem Emits.seq (h : Emits bsz w t) (h' : Emits bsz v u) :
    Emits bsz (w >>= fun _ => v) (t ++ u) := fun T => by
  rw [← List.append_assoc]
  exact (h T).emits h'

theorem Emits.pure (bsz : ℕ) : Emits bsz (Pure.pure ()) [] := fun T => by
  rw [List.append_nil]
  refine ⟨fun s hs _ _ => ⟨s, rfl, hs, rfl⟩, fun s hs hm hlt => ?_⟩
  have := hs.le
  omega

/-- **A bounded writer and the byte that ends it.** -/
theorem Prints.putc (h : Prints bsz w t) (c : UInt8) :
    Emits bsz (w >>= fun _ => putc c) (t ++ [c]) := fun T => by
  rw [← List.append_assoc]
  constructor
  · intro s hs hb hm
    rw [List.length_append, List.length_append, List.length_singleton] at hb hm
    obtain ⟨s₁, h₁, hs₁, hm₁⟩ := h.fit T s hs (by omega) (by omega)
    obtain ⟨s₂, h₂, hs₂, hm₂⟩ := (Emits.putc bsz c (T ++ t)).fit s₁ hs₁
      (by simp only [List.length_append, List.length_singleton]; omega)
      (by simp only [List.length_append, List.length_singleton]; omega)
    refine ⟨s₂, ?_, hs₂, hm₂.trans hm₁⟩
    change (w s >>= fun r => Writer.putc c r.2) = _
    rw [h₁]
    exact h₂
  · intro s hs hm hlt
    rw [List.length_append, List.length_append, List.length_singleton] at hlt
    change (w s >>= fun r => Writer.putc c r.2) = _
    rcases h.spill T s hs hm (by omega) with h₁ | ⟨s₁, h₁, hm₁, hl₁⟩
    · rw [h₁]; rfl
    · rw [h₁]
      exact store_fault (by simp) (show s₁.mem.length < s₁.len + 1 by omega)

theorem Takes.poke {A M B M' : List UInt8} (hM : M.length = M'.length) :
    Takes bsz (A ++ M ++ B) (poke A.length M') (A ++ M' ++ B) where
  fit s hs _ hm := by
    have hle : A.length + M'.length ≤ s.mem.length := by
      rw [List.length_append, List.length_append] at hm; omega
    have hmem := hs.take
    rw [hs.len] at hmem
    refine ⟨⟨_, s.len⟩, ?_, ⟨?_, ?_⟩, length_splice hle⟩
    · rw [Writer.poke, splice_ok hle]; rfl
    · rw [hs.len]; simp [hM]
    · obtain ⟨e, he⟩ : ∃ e, s.mem = A ++ (M ++ (B ++ e)) := by
        refine ⟨s.mem.drop (A ++ M ++ B).length, ?_⟩
        rw [← List.append_assoc, ← List.append_assoc]
        exact (List.take_append_drop (A ++ M ++ B).length s.mem).symm.trans (by rw [hmem])
      rw [he, hs.len, List.take_left, ← hM, ← List.append_assoc A M, ← List.length_append,
        List.drop_left, ← List.append_assoc (A ++ M') B, List.take_left' (by simp [hM])]
  spill s hs hm hlt := by
    have hle := hs.le
    rw [List.length_append, List.length_append] at hle hlt
    omega

theorem Takes.patch {A : List UInt8} (c d : UInt8) :
    Takes bsz (A ++ [c]) (patch d) (A ++ [d]) := by
  have h : Takes bsz (A ++ [c] ++ []) (Writer.poke A.length [d]) (A ++ [d] ++ []) := Takes.poke rfl
  rw [List.append_nil, List.append_nil] at h
  have hp : ∀ s : Buf, s.Holds (A ++ [c]) → Writer.patch d s = Writer.poke A.length [d] s := by
    intro s hs
    have hl : s.len - 1 = A.length := by
      rw [hs.len, List.length_append, List.length_singleton, Nat.add_sub_cancel]
    rw [Writer.patch, hl]
  exact ⟨fun s hs => by rw [hp s hs]; exact h.fit s hs, fun s hs => by rw [hp s hs]; exact h.spill s hs⟩

theorem Prints.seq (h : Prints bsz w t) (c : UInt8) (h' : Emits bsz v u) :
    Emits bsz (w >>= fun _ => Writer.putc c >>= fun _ => v) (t ++ c :: u) := by
  have := (h.putc c).seq h'
  rwa [bind_assoc, List.append_assoc] at this

/-! ## Tables of texts -/

/-- `tab[i]`, unchecked. -/
def entry (tab : List (List UInt8)) (i : ℕ) : Res (List UInt8) :=
  match tab[i]? with
  | some w => .ok w
  | none => .error .read

/-- The text in a table, nothing outside it. -/
def text (tab : List (List UInt8)) (i : ℕ) : List UInt8 := (tab[i]?).getD []

/-- `w` never comes to an end. -/
def Fails {α : Type} (w : StateT Buf (Except Fault) α) : Prop := ∀ s, ∃ e, w s = .error e

section Entry

variable {α : Type} {tab : List (List UInt8)} {i : ℕ} {f : List UInt8 → StateT Buf (Except Fault) α}

theorem entry_bind (h : i < tab.length) : (liftM (entry tab i) >>= f) = f (text tab i) := by
  rw [entry, text, List.getElem?_eq_getElem h]
  rfl

theorem Fails.entry (h : ¬ i < tab.length) : Fails (liftM (entry tab i) >>= f) := fun s => by
  rw [Writer.entry, List.getElem?_eq_none (not_lt.mp h)]
  exact ⟨.read, rfl⟩

theorem Fails.bind {β : Type} {g : β → StateT Buf (Except Fault) α} (w : StateT Buf (Except Fault) β)
    (h : ∀ b, Fails (g b)) : Fails (w >>= g) := fun s => by
  change ∃ e, (w s >>= fun r => g r.1 r.2) = .error e
  cases w s with
  | error e => exact ⟨e, rfl⟩
  | ok r => exact h r.1 r.2

end Entry

end Writer
