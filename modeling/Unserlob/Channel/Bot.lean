import Unserlob.Lol.Send

/-!
# The buffers of a bot (`add_omsg`, `bot_send`)

One block holds the quote buffer, the buffer of the order channel and the outgoing messages, one
behind the other. Their starts and sizes are macros of their own.

* `Layout`: the offset of `buf` in the block and the macros;
* `addOmsg`, `botSend`: the source's functions;
* **`addOmsg_fit`**, **`addOmsg_over`**: a message that fits the block is put behind those there, one
  that does not is written past its end.
-/

namespace Unserlob

open Ascii Cursor Writer

def BOTSIZ : ℕ := 8192

/-- `BUFOFF`, which is less than a quarter of the block. -/
structure Layout where
  BUFOFF : ℕ
  small : BUFOFF < BOTSIZ / 4

namespace Layout

variable (L : Layout)

def QBOF0 (_ : Layout) : ℕ := 0

def QBOFZ : ℕ := BOTSIZ / 4 - L.BUFOFF

def OBOF0 : ℕ := BOTSIZ / 4 - L.BUFOFF

def OBOFZ : ℕ := BOTSIZ - L.OBOF0

def MBOF0 : ℕ := BOTSIZ / 2 - L.BUFOFF

def MBOFZ : ℕ := BOTSIZ - L.MBOF0

/-- The bytes of the block from `buf` on. -/
def bytes : ℕ := BOTSIZ - L.BUFOFF

/-- The bytes between the start of the outgoing messages and the end of the block. -/
def MROOM (_ : Layout) : ℕ := BOTSIZ / 2

end Layout

/-- `buf` and `mbof` of `struct _bot_s`. -/
structure Bot where
  mem : List UInt8
  mbof : ℕ
  deriving DecidableEq

section Source

variable (L : Layout)

/-- `add_omsg` -/
def addOmsg (m : Omsg Decimal64) (b : Bot) : Res (ℤ × Bot) := do
  -- try and serialise
  let (nwr, buf) ← sendOmsg (subSz L.MBOFZ b.mbof) m ⟨b.mem.drop (L.MBOF0 + b.mbof), 0⟩
  let mem := b.mem.take (L.MBOF0 + b.mbof) ++ buf.mem
  if nwr ≤ 0 then pure (-1, ⟨mem, b.mbof⟩) else pure (0, ⟨mem, b.mbof + nwr.toNat⟩)

/-- `bot_send`, with the bytes given to `send`. -/
def botSend (b : Bot) : Res (List UInt8 × Bot) :=
  if b.mbof = 0 then .ok ([], b)
  else if L.MBOF0 + b.mbof ≤ b.mem.length then
    .ok (slice b.mem L.MBOF0 b.mbof, ⟨b.mem, 0⟩)
  else .error .read

/-- The messages waiting to be sent. -/
def Bot.out (b : Bot) : List UInt8 := slice b.mem L.MBOF0 b.mbof

/-- What every call finds: the block and messages that end inside it. -/
structure Bot.Ok (b : Bot) : Prop where
  length : b.mem.length = L.bytes
  mbof : b.mbof ≤ L.MROOM

/-- The message is one that can be written, and there is room for it in the block. -/
def Bot.Fits (m : Omsg Decimal64) (b : Bot) : Prop :=
  m.body.valid ∧ b.mbof + (omsgText m).length ≤ L.MROOM

instance (m : Omsg Decimal64) (b : Bot) : Decidable (b.Fits L m) :=
  inferInstanceAs (Decidable (_ ∧ _))

end Source

/-! ## Adding a message -/

variable {L : Layout} {m : Omsg Decimal64} {b b' : Bot}

theorem Layout.bounds (L : Layout) : L.BUFOFF < 2048 ∧ L.OBOF0 = 2048 - L.BUFOFF ∧
    L.MBOF0 = 4096 - L.BUFOFF ∧ L.MBOFZ = 4096 + L.BUFOFF ∧ L.bytes = 8192 - L.BUFOFF ∧
    L.MROOM = 4096 := by
  have h : L.BUFOFF < 2048 := L.small
  refine ⟨h, rfl, rfl, ?_, rfl, rfl⟩
  change 8192 - (4096 - L.BUFOFF) = 4096 + L.BUFOFF
  omega

theorem Bot.Ok.room (h : b.Ok L) : L.MBOF0 + b.mbof ≤ b.mem.length ∧
    (b.mem.drop (L.MBOF0 + b.mbof)).length = L.MROOM - b.mbof ∧
    subSz L.MBOFZ b.mbof = L.MBOFZ - b.mbof ∧ L.MROOM ≤ L.MBOFZ := by
  obtain ⟨h1, -, h3, h4, h5, h6⟩ := L.bounds
  have hl := h.length
  have hm := h.mbof
  refine ⟨by omega, ?_, subSz_of_le (by omega), by omega⟩
  rw [List.length_drop]
  omega

/-- What adding a message leaves as it was. -/
structure Bot.Frame (L : Layout) (b b' : Bot) : Prop where
  front : b'.mem.take L.MBOF0 = b.mem.take L.MBOF0
  length : b'.mem.length = b.mem.length

theorem Bot.Ok.put (h : b.Ok L) {buf : List UInt8} (hl : buf.length = (b.mem.drop (L.MBOF0 + b.mbof)).length)
    {n : ℕ} (hn : n ≤ L.MROOM) :
    let b' : Bot := ⟨b.mem.take (L.MBOF0 + b.mbof) ++ buf, n⟩
    b.Frame L b' ∧ b'.Ok L ∧ (b.mbof ≤ n → b'.out L = b.out L ++ buf.take (n - b.mbof)) := by
  obtain ⟨hroom, -, -, -⟩ := h.room
  have hlen : (b.mem.take (L.MBOF0 + b.mbof) ++ buf).length = b.mem.length := by
    rw [List.length_append, hl, List.length_take, List.length_drop]
    omega
  refine ⟨⟨?_, hlen⟩, ⟨hlen.trans h.length, hn⟩, fun hle => ?_⟩
  · rw [List.take_append_of_le_length (by rw [List.length_take]; omega), List.take_take,
      min_eq_left (by omega)]
  · have hb : ((b.mem.take (L.MBOF0 + b.mbof)).drop L.MBOF0).length = b.mbof := by
      rw [List.length_drop, List.length_take]
      omega
    change slice (b.mem.take (L.MBOF0 + b.mbof) ++ buf) L.MBOF0 n = _
    rw [slice, List.drop_append_of_le_length (by rw [List.length_take]; omega), List.take_append, hb,
      List.take_of_length_le (by omega), List.drop_take, Nat.add_sub_cancel_left]
    rfl

theorem addOmsg_fit (h : b.Ok L) (hf : b.Fits L m) :
    ∃ b', addOmsg L m b = .ok (if m.body = .unk then -1 else 0, b') ∧ b.Frame L b' ∧ b'.Ok L ∧
      b'.mbof = b.mbof + (if m.body = .unk then 0 else (omsgText m).length) ∧
      b'.out L = b.out L ++ (if m.body = .unk then [] else omsgText m) := by
  obtain ⟨-, hdrop, hsub, hle⟩ := h.room
  have hfit := hf.2
  have hb : (omsgText m).length ≤ L.MBOFZ - b.mbof := by omega
  have hm : (omsgText m).length ≤ (b.mem.drop (L.MBOF0 + b.mbof)).length := by omega
  obtain ⟨buf, hs, hh, hl⟩ := sendOmsg_fit hf.1 hb hm
  rw [addOmsg, hsub, hs, sentLen]
  by_cases hu : m.body = .unk
  · obtain ⟨hfr, hok, hout⟩ := h.put hl h.mbof
    simp only [if_pos hu]
    refine ⟨_, rfl, hfr, hok, rfl, ?_⟩
    have := hout le_rfl
    rwa [Nat.sub_self, List.take_zero] at this
  · have hpos : ¬ ((omsgText m).length : ℤ) ≤ 0 := by
      have : (omsgText m).length ≠ 0 := by simp [omsgText]
      omega
    obtain ⟨hfr, hok, hout⟩ := h.put hl (n := b.mbof + (omsgText m).length) hfit
    simp only [if_neg hu]
    refine ⟨_, ?_, hfr, hok, rfl, ?_⟩
    · simp only [bind, Except.bind, if_neg hpos, Int.toNat_natCast]
      rfl
    · have ht := hh.take
      rw [hh.len] at ht
      rw [hout (Nat.le_add_right _ _), Nat.add_sub_cancel_left, ht]

/-- **A message that does not fit runs over the end of the block.** -/
theorem addOmsg_over (h : b.Ok L) (hf : ¬ b.Fits L m) : ∃ e, addOmsg L m b = .error e := by
  obtain ⟨hroom, hdrop, hsub, hle⟩ := h.room
  by_cases hv : m.body.valid
  · have hlt : L.MROOM < b.mbof + (omsgText m).length := by
      by_contra hc
      exact hf ⟨hv, not_lt.mp hc⟩
    have hm := h.mbof
    refine ⟨.store, ?_⟩
    rw [addOmsg, sendOmsg_over hv (by rw [hdrop, hsub]; omega) (by rw [hdrop]; omega)]
    rfl
  · obtain ⟨e, he⟩ := sendOmsg_invalid (subSz L.MBOFZ b.mbof) hv
      ⟨b.mem.drop (L.MBOF0 + b.mbof), 0⟩
    refine ⟨e, ?_⟩
    rw [addOmsg, he]
    rfl

/-! ## Sending -/

theorem botSend_eq (h : b.Ok L) : botSend L b = .ok (b.out L, ⟨b.mem, 0⟩) := by
  rw [botSend]
  by_cases h0 : b.mbof = 0
  · rw [if_pos h0, Bot.out, h0, slice, List.take_zero]
    obtain ⟨mem, mbof⟩ := b
    cases h0
    rfl
  · rw [if_neg h0, if_pos h.room.1]
    rfl

end Unserlob
