import Unserlob.Lib.Growth
import Unserlob.Lib.Loop
import Unserlob.Lib.Writer
import Unserlob.Exchange.Routing

/-!
# The table of instruments (`main`)

Both exchanges copy the names on the command line one behind the other to `instr` and keep their offsets in `instz`
and their hashes in `insth`, in the same lines.

* `addName`: one turn of the loop; `insTable`: all of it;
* `Filled`: the invariant of the loop; `Filled.add`: a turn whose name fits;
* `insTable_paced`: the table that is built;
* **`tableRight_iff`**: every name fits and is found just where the names grow slowly enough.
-/

namespace Unserlob

open Cursor Table Writer ForLoop Growth

/-- What fresh memory happens to hold, for `instr` at its `k`-th allocation. -/
structure Fresh where
  instr : ℕ → ℕ → UInt8
  instz : ℕ → ℕ
  insth : ℕ → BitVec 32

/-- `instr`, `instz`, `insth` -/
structure InsTable where
  instr : List UInt8
  instz : List ℕ
  insth : List (BitVec 32)

/-- The table while it is built. -/
structure Building extends InsTable where
  zinstr : ℕ
  insoff : ℕ

/-- `if (UNLIKELY(insoff + z >= zinstr))` -/
def Building.grow (junk : ℕ → UInt8) (z : ℕ) (s : Building) : Building :=
  if s.insoff + z ≥ s.zinstr then
    { s with zinstr := s.zinstr * 2, instr := realloc junk (s.zinstr * 2) s.instr }
  else s

variable (F : Fresh) (args : List (List UInt8))

/-- The body of the loop; an argument is the bytes in front of its zero. -/
def addName (i : ℕ) (s : Building) : Res Building := do
  let arg ← getAt args i
  let z := arg.length
  let s := s.grow (F.instr (i + 1)) z
  let instr ← splice s.instr s.insoff arg
  let instz ← setAt s.instz i s.insoff
  let insth ← setAt s.insth i (hash arg)
  pure { s with instr := instr, instz := instz, insth := insth, insoff := s.insoff + z }

/-- The table in front of the loop. -/
def Building.start (ninstr : ℕ) : Building where
  instr := realloc (F.instr 0) 64 []
  instz := realloc F.instz (ninstr + 1) []
  insth := realloc F.insth ninstr []
  zinstr := 64
  insoff := 0

/-- What `main` makes of the names; without any, of one that is empty. -/
def insTable : Res InsTable :=
  if args.length ≠ 0 then do
    let s ← forRange (addName F args) args.length (Building.start F args.length)
    let instz ← setAt s.instz args.length s.insoff
    pure { s.toInsTable with instz := instz }
  else pure ⟨[0], [0, 0], []⟩

/-- Entry `i` is that of the name. -/
def InsTable.Names (T : InsTable) (i : ℕ) (nm : List UInt8) : Prop :=
  ∃ a, T.instz[i]? = some a ∧ T.instz[i + 1]? = some (a + nm.length) ∧ slice T.instr a nm.length = nm ∧
    T.insth[i]? = some (hash nm)

/-- **What is wanted**: in every turn the name fits the allocation, and all names are found in the table. -/
structure TableRight : Prop where
  fits : ∀ i nm, args[i]? = some nm → ∃ s, forRange (addName F args) i (Building.start F args.length) = .ok s ∧
    s.insoff + nm.length ≤ (s.grow (F.instr (i + 1)) nm.length).zinstr
  names : ∃ T, insTable F args = .ok T ∧ ∀ i nm, args[i]? = some nm → T.Names i nm

/-! ## One turn -/

variable {F args}

/-- The first `n` names fit what is allocated after `n` turns. -/
def Fits (args : List (List UInt8)) (n : ℕ) : Prop :=
  offset (args.map List.length) n ≤ capacity 64 (offset (args.map List.length)) n

theorem paced_iff_fits : Paced 64 (args.map List.length) ↔ ∀ n ≤ args.length, Fits args n := by
  rw [paced_iff (by decide), List.length_map]
  rfl

/-- The names before turn `i` are in the table. -/
structure Filled (args : List (List UInt8)) (i : ℕ) (s : Building) : Prop where
  zinstr_eq : s.zinstr = capacity 64 (offset (args.map List.length)) i
  length_instr : s.instr.length = s.zinstr
  holds : Buf.Holds ⟨s.instr, s.insoff⟩ (args.take i).flatten
  length_instz : s.instz.length = args.length + 1
  instz_eq : ∀ j < i, s.instz[j]? = some (offset (args.map List.length) j)
  length_insth : s.insth.length = args.length
  insth_eq : ∀ j < i, s.insth[j]? = (args.map hash)[j]?

section Turn

variable {i : ℕ} {s : Building} {nm : List UInt8}

theorem Filled.insoff_eq (h : Filled args i s) : s.insoff = offset (args.map List.length) i := by
  rw [offset_length]
  exact h.holds.len

theorem offset_args (hnm : args[i]? = some nm) :
    offset (args.map List.length) (i + 1) = offset (args.map List.length) i + nm.length :=
  offset_succ (by rw [List.getElem?_map, hnm]; rfl)

theorem filled_start (F : Fresh) (args : List (List UInt8)) : Filled args 0 (Building.start F args.length) where
  zinstr_eq := rfl
  length_instr := length_realloc _ _ _
  holds := ⟨rfl, rfl⟩
  length_instz := length_realloc _ _ _
  instz_eq _ hj := absurd hj (Nat.not_lt_zero _)
  length_insth := length_realloc _ _ _
  insth_eq _ hj := absurd hj (Nat.not_lt_zero _)

theorem Building.grow_zinstr (junk : ℕ → UInt8) (z : ℕ) (s : Building) :
    (s.grow junk z).zinstr = Growth.grow s.zinstr (s.insoff + z) := by
  unfold Building.grow Growth.grow
  split_ifs <;> rfl

@[simp] theorem Building.grow_insoff (junk : ℕ → UInt8) (z : ℕ) (s : Building) :
    (s.grow junk z).insoff = s.insoff := by
  unfold Building.grow
  split_ifs <;> rfl

@[simp] theorem Building.grow_instz (junk : ℕ → UInt8) (z : ℕ) (s : Building) :
    (s.grow junk z).instz = s.instz := by
  unfold Building.grow
  split_ifs <;> rfl

@[simp] theorem Building.grow_insth (junk : ℕ → UInt8) (z : ℕ) (s : Building) :
    (s.grow junk z).insth = s.insth := by
  unfold Building.grow
  split_ifs <;> rfl

theorem Filled.length_grow (h : Filled args i s) (junk : ℕ → UInt8) (z : ℕ) :
    (s.grow junk z).instr.length = (s.grow junk z).zinstr := by
  unfold Building.grow
  split_ifs
  · exact length_realloc _ _ _
  · exact h.length_instr

theorem Filled.holds_grow (h : Filled args i s) (junk : ℕ → UInt8) (z : ℕ) :
    Buf.Holds ⟨(s.grow junk z).instr, s.insoff⟩ (args.take i).flatten := by
  refine ⟨h.holds.len, ?_⟩
  have hle : s.insoff ≤ s.instr.length := h.holds.len.trans_le h.holds.le
  unfold Building.grow
  split_ifs
  · exact (take_realloc junk (by rw [h.length_instr]; omega) hle).trans h.holds.take
  · exact h.holds.take

theorem Filled.zinstr_grow (h : Filled args i s) (hnm : args[i]? = some nm) (junk : ℕ → UInt8) :
    (s.grow junk nm.length).zinstr = capacity 64 (offset (args.map List.length)) (i + 1) := by
  rw [Building.grow_zinstr, capacity, offset_args hnm, h.zinstr_eq, h.insoff_eq]

theorem Filled.splice_ok (h : Filled args i s) (hnm : args[i]? = some nm) (junk : ℕ → UInt8)
    (hfit : Fits args (i + 1)) : ∃ mem, splice (s.grow junk nm.length).instr s.insoff nm = .ok mem ∧
    mem.length = (s.grow junk nm.length).zinstr ∧
    Buf.Holds ⟨mem, s.insoff + nm.length⟩ (args.take (i + 1)).flatten := by
  have hlen := h.length_grow junk nm.length
  have hroom : (args.take i).flatten.length + nm.length ≤ (s.grow junk nm.length).instr.length := by
    rw [hlen, h.zinstr_grow hnm, ← offset_length, ← offset_args hnm]
    exact hfit
  obtain ⟨b, hb, hholds, hb'⟩ := store_ok (t := nm) (e := []) (h.holds_grow junk nm.length) (by simpa using hroom)
  rw [store, List.append_nil] at hb
  obtain ⟨mem, hmem, he⟩ := map_ok.mp hb
  obtain ⟨-, rfl⟩ := Prod.mk.inj he
  have hflat : (args.take (i + 1)).flatten = (args.take i).flatten ++ nm := by
    rw [List.take_add_one, hnm, List.flatten_append]
    exact congrArg _ (List.append_nil nm)
  exact ⟨mem, hmem, hb'.trans hlen, hflat ▸ hholds⟩

theorem Filled.add (h : Filled args i s) (hnm : args[i]? = some nm) (hfit : Fits args (i + 1)) :
    ∃ s', addName F args i s = .ok s' ∧ Filled args (i + 1) s' := by
  have hi : i < args.length := (List.getElem?_eq_some_iff.mp hnm).1
  have hz : i < s.instz.length := by rw [h.length_instz]; omega
  have hh : i < s.insth.length := by rw [h.length_insth]; exact hi
  obtain ⟨mem, hmem, hlen, hholds⟩ := h.splice_ok hnm (F.instr (i + 1)) hfit
  refine ⟨⟨⟨mem, s.instz.set i s.insoff, s.insth.set i (hash nm)⟩,
    (s.grow (F.instr (i + 1)) nm.length).zinstr, s.insoff + nm.length⟩, ?_, ?_⟩
  · simp only [addName, getAt_ok hnm, bind, Except.bind, Building.grow_insoff, Building.grow_instz,
      Building.grow_insth, hmem, setAt_ok hz, setAt_ok hh]
    rfl
  · refine ⟨h.zinstr_grow hnm _, hlen, hholds, ?_, ?_, ?_, ?_⟩
    · exact List.length_set.trans h.length_instz
    · exact getElem?_set_next (f := fun j => some (offset (args.map List.length) j)) hz
        (congrArg some h.insoff_eq.symm) h.instz_eq
    · exact List.length_set.trans h.length_insth
    · exact getElem?_set_next (f := fun j => (args.map hash)[j]?) hh (by rw [List.getElem?_map, hnm]; rfl)
        h.insth_eq

end Turn

/-! ## All turns -/

section Turns

theorem filled_run {n : ℕ} (hn : n ≤ args.length) (hfit : ∀ m ≤ n, Fits args m) :
    ∃ s, forRange (addName F args) n (Building.start F args.length) = .ok s ∧ Filled args n s := by
  refine forRange_spec (I := Filled args) (filled_start F args) fun i hi s hs => ?_
  exact hs.add (List.getElem?_eq_getElem (by omega)) (hfit (i + 1) hi)

theorem Filled.names {s : Building} (h : Filled args args.length s) {i : ℕ} {nm : List UInt8}
    (hnm : args[i]? = some nm) :
    InsTable.Names ⟨s.instr, s.instz.set args.length s.insoff, s.insth⟩ i nm := by
  have hi : i < args.length := (List.getElem?_eq_some_iff.mp hnm).1
  have hall := getElem?_set_next (f := fun j => some (offset (args.map List.length) j))
    (by rw [h.length_instz]; omega) (congrArg some h.insoff_eq.symm) h.instz_eq
  refine ⟨_, hall i (by omega), (hall (i + 1) (by omega)).trans ?_, ?_, ?_⟩
  · exact congrArg some (offset_args hnm)
  · -- the bytes in front of the last offset are the names
    have htake : s.instr.take args.flatten.length = args.flatten.take args.flatten.length := by
      have ht := h.holds.take
      rw [h.holds.len, List.take_length] at ht
      rw [ht, List.take_length]
    have hle := offset_mono (args.map List.length) (show i + 1 ≤ args.length by omega)
    rw [offset_args hnm, offset_length _ args.length, List.take_length] at hle
    rw [slice_of_take htake hle]
    exact drop_offset_flatten hnm
  · rw [h.insth_eq i hi, List.getElem?_map, hnm]
    rfl

theorem insTable_paced (F : Fresh) (h : Paced 64 (args.map List.length)) :
    ∃ T, insTable F args = .ok T ∧ (∀ i nm, args[i]? = some nm → T.Names i nm) ∧
      T.insth.length = args.length ∧ ∀ j, args.length ≤ j → T.instz.getD (j + 1) 0 = 0 := by
  have hfit := paced_iff_fits.mp h
  by_cases h0 : args.length = 0
  · obtain rfl := List.length_eq_zero_iff.mp h0
    refine ⟨⟨[0], [0, 0], []⟩, rfl, fun i nm hnm => ?_, rfl, fun j _ => ?_⟩
    · cases hnm
    · cases j <;> rfl
  · obtain ⟨s, hs, hall⟩ := filled_run (F := F) le_rfl hfit
    have hz : args.length < s.instz.length := by rw [hall.length_instz]; omega
    refine ⟨⟨s.instr, s.instz.set args.length s.insoff, s.insth⟩, ?_, fun i nm => hall.names, hall.length_insth,
      fun j hj => ?_⟩
    · simp only [insTable, ne_eq, h0, not_false_eq_true, if_true, hs, bind, Except.bind, setAt_ok hz]
      rfl
    · refine List.getD_eq_default _ _ ?_
      change (s.instz.set args.length s.insoff).length ≤ j + 1
      rw [List.length_set, hall.length_instz]
      omega

end Turns

/-! ## The table -/

theorem tableRight_of_paced (F : Fresh) (h : Paced 64 (args.map List.length)) : TableRight F args := by
  have hfit := paced_iff_fits.mp h
  obtain ⟨T, hT, hnames, -⟩ := insTable_paced F h
  refine ⟨fun i nm hnm => ?_, T, hT, hnames⟩
  have hi : i < args.length := (List.getElem?_eq_some_iff.mp hnm).1
  obtain ⟨s, hs, hfilled⟩ := filled_run (F := F) hi.le fun m hm => hfit m (by omega)
  refine ⟨s, hs, ?_⟩
  rw [hfilled.zinstr_grow hnm, hfilled.insoff_eq, ← offset_args hnm]
  exact hfit (i + 1) hi

theorem paced_of_tableRight (h : TableRight F args) : Paced 64 (args.map List.length) := by
  rw [paced_iff_fits]
  intro n
  induction n using Nat.strong_induction_on with
  | _ n ih =>
      intro hn
      cases n with
      | zero => exact Nat.zero_le _
      | succ n =>
          -- the turn starts from what the names before it have left
          have hnm := List.getElem?_eq_getElem (l := args) (i := n) (by omega)
          obtain ⟨s, hs, hfilled⟩ := filled_run (F := F) (show n ≤ args.length by omega) fun m hm =>
            ih m (by omega) (by omega)
          obtain ⟨s', hs', hfit⟩ := h.fits n _ hnm
          obtain rfl := Except.ok.inj (hs.symm.trans hs')
          rwa [hfilled.zinstr_grow hnm, hfilled.insoff_eq, ← offset_args hnm] at hfit

/-- **The table is right** just where the names grow slowly enough: any first of them take at most `2 ^ (n - j)` times
the least of 64, 128, 256, … bytes that is more than the first `j` of them take. -/
theorem tableRight_iff (F : Fresh) (args : List (List UInt8)) :
    TableRight F args ↔ Paced 64 (args.map List.length) :=
  ⟨paced_of_tableRight, tableRight_of_paced F⟩

/-! ## One long name -/

/-- A name of 129 bytes. -/
def longName : List UInt8 := List.replicate 129 65

/-- Memory that is all zeros. -/
def Fresh.zeros : Fresh := ⟨fun _ _ => 0, fun _ => 0, fun _ => 0⟩

/-- **It does not fit** the allocation that is doubled once. -/
theorem longName_overruns : ¬ ∀ (F : Fresh) (args : List (List UInt8)), args ≠ [] → TableRight F args := by
  intro h
  obtain ⟨s, hs, hle⟩ := (h Fresh.zeros [longName] (List.cons_ne_nil _ _)).fits 0 longName rfl
  obtain rfl := Except.ok.inj hs
  rw [Building.grow_zinstr, show longName.length = 129 from List.length_replicate] at hle
  exact absurd hle (by decide)

end Unserlob
