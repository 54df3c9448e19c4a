import Unserlob.Lib.Streams
import Unserlob.Lib.Writer
import Unserlob.Lol.Recv

/-!
# The reading loops (`data_cb`, `_qch_cb`, `_och_cb`, `beef_cb`)

All of them read behind what is left in their buffer, hand its lines to a decoder and move the
left-overs to the front, which two of them do in one way and three in another.

* `leftSub`, `leftCmp`: the two ways;
* `readLines`: the loop, with the lines it hands out also when a handler faults;
* `Reads`: what it finds; **`readLines_eq`**, `readLines_ok`: what it comes to;
* `Leftover`: what a buffer holds between two reads; **`Leftover.read`**: a loop that leaves its buffer alone.
-/

namespace Unserlob

open Ascii Cursor Writer Lines

variable {W : Type}

/-- `if (bof - npr) memmove(buf, buf + npr, bof - npr); bof -= npr;` -/
def leftSub (start : ℕ) (mem : List UInt8) (bof npr : ℕ) : Res (List UInt8 × ℕ) := do
  let left := subSz bof npr
  let mem ← if left ≠ 0 then memmove mem start (start + npr) left else pure mem
  pure (mem, left)

/-- `if (bof > npr) { memmove(buf, buf + npr, bof - npr); bof -= npr; } else bof = 0;` -/
def leftCmp (start : ℕ) (mem : List UInt8) (bof npr : ℕ) : Res (List UInt8 × ℕ) := do
  if npr < bof then
    let mem ← memmove mem start (start + npr) (bof - npr)
    pure (mem, bof - npr)
  else pure (mem, 0)

/-- A handler gets a line and may change the memory and the world. -/
abbrev Handler (W : Type) := Ptr → ℕ → List UInt8 × W → Res (List UInt8 × W)

/-- The buffer that starts `start` bytes into the memory. -/
def buffer (start : ℕ) (s : List UInt8 × W) : Ptr := s.1.drop start

/-- What a loop does when `chunk` has been read to `buf + bof`: the slices handed to `line`, and the
memory, `bof` and the world afterwards. -/
def readLines (start : ℕ) (left : ℕ → List UInt8 → ℕ → ℕ → Res (List UInt8 × ℕ)) (line : Handler W)
    (chunk mem : List UInt8) (bof : ℕ) (w : W) : List (List UInt8) × Res (List UInt8 × ℕ × W) :=
  match splice mem (start + bof) chunk with
  | .error e => ([], .error e)
  | .ok mem =>
    -- up the bof
    let bof := bof + chunk.length
    let r := scan (buffer start) line (ch '\n') bof (bof + 1) 0 (mem, w)
    (r.1, do
      let (npr, mem, w) ← r.2
      -- move left-overs
      let (mem, bof) ← left start mem bof npr
      pure (mem, bof, w))

/-- The memory with `chunk` behind the `bof` bytes there. -/
abbrev putChunk (start bof : ℕ) (chunk mem : List UInt8) : List UInt8 := putAt (start + bof) chunk mem

/-- The buffer starts with `t`. -/
def Front (start : ℕ) (t : List UInt8) (s : List UInt8 × W) : Prop :=
  slice s.1 start t.length = t

/-! ## The two ways to move left-overs -/

section Left

variable {start : ℕ} {T R : List UInt8} {mem : List UInt8}

theorem memmove_front (hT : slice mem start T.length = T) (hs : R <:+ T)
    (hm : start + T.length ≤ mem.length) :
    memmove mem start (start + (T.length - R.length)) R.length = .ok (putAt start R mem) := by
  have hle := hs.length_le
  have hR : (mem.drop (start + (T.length - R.length))).take R.length = R := by
    obtain ⟨P, rfl⟩ := hs
    rw [List.length_append, Nat.add_sub_cancel, ← List.drop_drop]
    have h := congrArg (List.drop P.length) hT
    rw [slice, List.drop_take, List.drop_left, List.length_append, Nat.add_sub_cancel_left] at h
    exact h
  rw [memmove, if_pos (by omega), hR, splice_ok (by omega)]
  rfl

theorem left_eq {left : ℕ → List UInt8 → ℕ → ℕ → Res (List UInt8 × ℕ)}
    (hleft : left = leftSub ∨ left = leftCmp) (hT : slice mem start T.length = T)
    (hs : R <:+ T) (hm : start + T.length ≤ mem.length) :
    left start mem T.length (T.length - R.length) = .ok (putAt start R mem, R.length) := by
  have hle := hs.length_le
  have hsub : T.length - (T.length - R.length) = R.length := by omega
  have hnil : R = [] → putAt start R mem = mem := by
    rintro rfl
    simp [putAt]
  rcases hleft with rfl | rfl
  · rw [leftSub, subSz_of_le (by omega), hsub]
    by_cases h0 : R.length = 0
    · rw [if_neg (not_not.mpr h0), hnil (List.length_eq_zero_iff.mp h0)]
      rfl
    · rw [if_pos h0, memmove_front hT hs hm]
      rfl
  · rw [leftCmp]
    by_cases h0 : R.length = 0
    · rw [if_neg (by omega), hnil (List.length_eq_zero_iff.mp h0), h0]
      rfl
    · rw [if_pos (by omega), hsub, memmove_front hT hs hm]
      rfl

end Left

/-! ## The loop -/

section Loop

variable {start : ℕ} {left : ℕ → List UInt8 → ℕ → ℕ → Res (List UInt8 × ℕ)} {line : Handler W}
  {chunk tail mem : List UInt8} {w : W}

theorem front_putChunk (w : W) (hmem : slice mem start tail.length = tail)
    (hroom : start + tail.length + chunk.length ≤ mem.length) :
    Front start (tail ++ chunk) (putChunk start tail.length chunk mem, w) := by
  have hsplit : mem.take (start + tail.length) = mem.take start ++ tail := by
    rw [List.take_add]
    exact congrArg (List.take start mem ++ ·) hmem
  have hlen : (mem.take start).length = start := List.length_take_of_le (by omega)
  change slice (mem.take (start + tail.length) ++ chunk ++ _) start _ = _
  rw [slice, hsplit, List.append_assoc, List.append_assoc, List.drop_left' hlen, ← List.append_assoc,
    List.take_left]

/-- What a call finds, with an invariant that the handlers keep and that keeps the buffer. -/
structure Reads (start : ℕ) (line : Handler W) (chunk tail mem : List UInt8) (w : W)
    (J : List UInt8 × W → Prop) : Prop where
  left : slice mem start tail.length = tail
  room : start + tail.length + chunk.length ≤ mem.length
  init : J (putChunk start tail.length chunk mem, w)
  keeps : ∀ p n s s', J s → line p n s = .ok s' → J s'
  front : ∀ s, J s → Front start (tail ++ chunk) s ∧ s.1.length = mem.length

variable {J : List UInt8 × W → Prop} (hleft : left = leftSub ∨ left = leftCmp)
  (h : Reads start line chunk tail mem w J)

include hleft h

/-- **One call hands the lines of the left-overs and the chunk to the decoder**, one after the other,
and leaves what follows the last at the front. -/
theorem readLines_eq : readLines start left line chunk mem tail.length w =
    let c := cut (ch '\n') (tail ++ chunk)
    let r := handAll (buffer start) line c.1 0 (putChunk start tail.length chunk mem, w)
    (r.1, r.2.map fun s => (putAt start c.2 s.1, c.2.length, s.2)) := by
  have hfront : ∀ s, J s → (buffer start s).take (tail ++ chunk).length = tail ++ chunk :=
    fun s hs => (h.front s hs).1
  have hscan := scan_eq (ch '\n') hfront h.keeps ((tail ++ chunk).length + 1) []
    (tail ++ chunk) _ rfl (Nat.lt_succ_self _) h.init
  rw [List.length_nil] at hscan
  have hput : splice mem (start + tail.length) chunk = .ok (putChunk start tail.length chunk mem) :=
    splice_ok h.room
  simp only [readLines, hput, ← List.length_append, hscan]
  refine Prod.ext rfl ?_
  cases hr : (handAll (buffer start) line (cut (ch '\n') (tail ++ chunk)).1 0
    (putChunk start tail.length chunk mem, w)).2 with
  | error e => rfl
  | ok s =>
      obtain ⟨hf, hlen⟩ := h.front s (handAll_inv h.keeps h.init hr)
      have hroom := h.room
      have hl := left_eq (T := tail ++ chunk) hleft hf ⟨_, cut_flatten (ch '\n') _⟩
        (by rw [hlen, List.length_append]; omega)
      simp only [Except.map, bind, Except.bind, hl]
      rfl

theorem readLines_ok_iff : (∃ y, (readLines start left line chunk mem tail.length w).2 = .ok y) ↔
    Handles (buffer start) line (cut (ch '\n') (tail ++ chunk)).1 0
      (putChunk start tail.length chunk mem, w) := by
  rw [readLines_eq hleft h, handles_iff]
  simp only [map_ok]
  exact ⟨fun ⟨_, s, hs, _⟩ => ⟨s, hs⟩, fun ⟨s, hs⟩ => ⟨_, s, hs, rfl⟩⟩

theorem readLines_ok {mem' : List UInt8} {bof' : ℕ} {w' : W}
    (hs : (readLines start left line chunk mem tail.length w).2 = .ok (mem', bof', w')) :
    (readLines start left line chunk mem tail.length w).1 = (cut (ch '\n') (tail ++ chunk)).1 ∧
      bof' = (cut (ch '\n') (tail ++ chunk)).2.length ∧
      slice mem' start bof' = (cut (ch '\n') (tail ++ chunk)).2 ∧
      ∃ m, J (m, w') ∧ mem' = putAt start (cut (ch '\n') (tail ++ chunk)).2 m := by
  rw [readLines_eq hleft h] at hs ⊢
  obtain ⟨s, hr, he⟩ := map_ok.mp hs
  cases he
  have hJ := handAll_inv h.keeps h.init hr
  have hle := length_cut_le (ch '\n') (tail ++ chunk)
  have hroom := h.room
  rw [List.length_append] at hle
  refine ⟨handAll_all hr, rfl, slice_putAt ?_, s.1, hJ, rfl⟩
  rw [(h.front s hJ).2]
  omega

end Loop

/-! ## Loops that leave their buffer alone -/

/-- A buffer of `n` bytes holds what is left over of a stream. -/
structure Leftover (n : ℕ) (got mem : List UInt8) (bof : ℕ) : Prop where
  length : mem.length = n
  size : bof = (cut (ch '\n') got).2.length
  tail : slice mem 0 bof = (cut (ch '\n') got).2

theorem Leftover.empty {n : ℕ} {mem : List UInt8} (h : mem.length = n) : Leftover n [] mem 0 := ⟨h, rfl, rfl⟩

/-- **A read** leaves what is left over then, and the lines that end in it are handled one after the other. -/
theorem Leftover.read {n bof bof' : ℕ} {got mem mem' chunk : List UInt8} {w w' : W} (h : Leftover n got mem bof)
    {left : ℕ → List UInt8 → ℕ → ℕ → Res (List UInt8 × ℕ)} (hleft : left = leftSub ∨ left = leftCmp)
    {line : Handler W} (hline : ∀ p k s s', line p k s = .ok s' → s'.1 = s.1) (hroom : bof + chunk.length ≤ n)
    (hr : (readLines 0 left line chunk mem bof w).2 = .ok (mem', bof', w')) :
    Leftover n (got ++ chunk) mem' bof' ∧ Chain (fun l w w' => ∃ r m, line (l ++ r) l.length (m, w) = .ok (m, w'))
      (cut (ch '\n') ((cut (ch '\n') got).2 ++ chunk)).1 w w' := by
  obtain ⟨hlen, rfl, htail⟩ := h
  have happ : cut (ch '\n') (got ++ chunk) = _ := cut_append got chunk
  generalize (cut (ch '\n') got).2 = tail at *
  have hmem : 0 + tail.length + chunk.length ≤ mem.length := by omega
  have hreads : Reads 0 line chunk tail mem w fun x => Front 0 (tail ++ chunk) x ∧ x.1.length = mem.length := by
    refine ⟨htail, hmem, ⟨front_putChunk w htail hmem, length_splice hmem⟩, ?_, fun _ h => h⟩
    intro p k s s' hs hl
    rw [Front, hline p k s s' hl]
    exact hs
  constructor
  · obtain ⟨-, hbof, hsl, m, hm, hput⟩ := readLines_ok hleft hreads hr
    have hle := length_cut_le (ch '\n') (tail ++ chunk)
    rw [List.length_append] at hle
    refine ⟨?_, ?_, ?_⟩
    · rw [hput]
      exact (length_splice (by rw [hm.2]; omega)).trans (hm.2.trans hlen)
    · rw [hbof, happ]
    · rw [hsl, happ]
  · rw [readLines_eq hleft hreads] at hr
    obtain ⟨y, hy, he⟩ := map_ok.mp hr
    cases he
    have hchain : Chain (fun l (x x' : List UInt8 × W) => ∃ r, line (l ++ r) l.length x = .ok x')
        (cut (ch '\n') (tail ++ chunk)).1 (putChunk 0 tail.length chunk mem, w) y := by
      refine handAll_chain (p := []) (T := tail ++ chunk) (t := (cut (ch '\n') (tail ++ chunk)).2)
        (fun z hz => (hreads.front z hz).1) hreads.keeps ?_ ?_ hreads.init hy
      · exact fun l _ r z z' _ hl => ⟨r, hl⟩
      · rw [List.nil_append, cut_flatten]
    refine Chain.image (f := id) (g := Prod.snd) ?_ (by rwa [List.map_id])
    rintro l - ⟨m, x⟩ ⟨m', x'⟩ ⟨r, hl⟩
    cases hline _ _ _ _ hl
    exact ⟨r, m, hl⟩

end Unserlob
