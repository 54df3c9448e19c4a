import Unserlob.Channel.Bot
import Unserlob.Channel.Readers
import Unserlob.Lib.Run

/-!
# A bot between its two channels

The order channel and the quote channel are read into the block that also holds the outgoing messages,
and the callbacks add to these while a buffer is being scanned.

* `Prog`: a callback, which calls `add_omsg` and `bot_send` in any order; `Prog.run`, `Prog.Fits`;
* `Tap`, `tapMachine`: a bot taking chunks from both channels and ticks of its timer;
* `Tap.Isolated`: what is wanted of a step; `Tidy`: the condition;
* `recv_spec`: the step lemma of both channels;
* **`isolated_iff`**: the buffers are isolated just when what is read and added stays in its part of
  the block.
-/

namespace Unserlob

open Ascii Cursor Writer Lines

variable {U : Type}

/-! ## Callbacks -/

/-- A callback: it ends with a new state of its own, adds a message and goes on with what `add_omsg`
returns, or sends and goes on. The system's answer to a `send` can be any, so the callback here is what
it does after the one it gets. -/
inductive Prog (U : Type) where
  | done (u : U)
  | add (m : Omsg Decimal64) (k : ℤ → Prog U)
  | send (k : Prog U)

/-- The callbacks' own state and `mbof`; the texts added since the last `bot_send` and, for every one,
what it gave to `send` and what had been added. -/
structure Pend (U : Type) where
  user : U
  mbof : ℕ
  added : List UInt8
  sends : List (List UInt8 × List UInt8)

variable (L : Layout)

/-- A callback at work on the block. -/
def Prog.run : Prog U → List UInt8 × Pend U → Res (List UInt8 × Pend U)
  | .done u, (mem, w) => .ok (mem, { w with user := u })
  | .add m k, (mem, w) => do
      let (r, b) ← addOmsg L m ⟨mem, w.mbof⟩
      (k r).run (b.mem, ⟨w.user, b.mbof, if r = 0 then w.added ++ omsgText m else w.added, w.sends⟩)
  | .send k, (mem, w) => do
      let (out, b) ← botSend L ⟨mem, w.mbof⟩
      k.run (b.mem, ⟨w.user, b.mbof, [], w.sends ++ [(out, w.added)]⟩)

/-- The block has room for every message the callback adds when there are `n` bytes waiting. -/
def Prog.Fits : Prog U → ℕ → Prop
  | .done _, _ => True
  | .add m k, n => m.body.valid ∧ n + (omsgText m).length ≤ L.MROOM ∧
      if m.body = .unk then (k (-1)).Fits n else (k 0).Fits (n + (omsgText m).length)
  | .send k, _ => k.Fits 0

/-- `ochan_cb`, `qchan_cb` and `timer_cb`, and the stack the decoder finds. -/
structure Callbacks (U : Type) where
  stack : U → Locals
  ochan : Omsg Decimal64 → U → Prog U
  qchan : Qmsg Decimal64 → U → Prog U
  timer : U → Prog U

/-- The body of the loop in `_och_cb`. -/
def Callbacks.oline (C : Callbacks U) : Handler (Pend U) := fun p n s => do
  let m ← recvOmsg (C.stack s.2.user) p n
  (C.ochan m s.2.user).run L s

/-- The body of the loop in `_qch_cb`. -/
def Callbacks.qline (C : Callbacks U) : Handler (Pend U) := fun p n s => do
  let m ← recvQmsg p n
  (C.qchan m s.2.user).run L s

/-! ## The machine -/

/-- A channel: its offset, the bytes read so far and the slices handed to the decoder. -/
structure Inbox where
  bof : ℕ
  got : List UInt8
  seen : List (List UInt8)

/-- A bot between two events. -/
structure Tap (U : Type) where
  mem : List UInt8
  och : Inbox
  qch : Inbox
  w : Pend U

inductive TapEvent where
  | och (chunk : List UInt8)
  | qch (chunk : List UInt8)
  | timer

/-- `_och_cb` and `_qch_cb`: `chunk` is read into the buffer at `start`. -/
def recvLines (start : ℕ) (line : Handler (Pend U)) (chunk mem : List UInt8) (x : Inbox) (w : Pend U) :
    Res (List UInt8 × Inbox × Pend U) :=
  let r := readLines start leftCmp line chunk mem x.bof w
  r.2.map fun y => (y.1, ⟨y.2.1, x.got ++ chunk, x.seen ++ r.1⟩, y.2.2)

/-- `_och_cb`, `_qch_cb` and `_tim_cb`. -/
def TapEvent.step (C : Callbacks U) : TapEvent → Tap U → Res (Tap U)
  | .och chunk, s =>
      (recvLines L.OBOF0 (C.oline L) chunk s.mem s.och s.w).map fun y => ⟨y.1, y.2.1, s.qch, y.2.2⟩
  | .qch chunk, s =>
      (recvLines L.QBOF0 (C.qline L) chunk s.mem s.qch s.w).map fun y => ⟨y.1, s.och, y.2.1, y.2.2⟩
  | .timer, s => ((C.timer s.w.user).run L (s.mem, s.w)).map fun y => ⟨y.1, s.och, s.qch, y.2⟩

/-- A read brings something and at most what it asks for. -/
def TapEvent.allowed : TapEvent → Tap U → Prop
  | .och chunk, s => chunk ≠ [] ∧ chunk.length ≤ L.OBOFZ - s.och.bof
  | .qch chunk, s => chunk ≠ [] ∧ chunk.length ≤ L.QBOFZ - s.qch.bof
  | .timer, _ => True

instance TapEvent.decAllowed (e : TapEvent) (s : Tap U) : Decidable (e.allowed L s) := by
  cases e <;> unfold TapEvent.allowed <;> infer_instance

/-- A bot as `make_bot` leaves it, with callbacks on both channels. -/
def tapMachine (C : Callbacks U) : Run.Machine (Tap U) TapEvent where
  init s := s.mem.length = L.bytes ∧ s.och = ⟨0, [], []⟩ ∧ s.qch = ⟨0, [], []⟩ ∧ s.w.mbof = 0 ∧
    s.w.added = [] ∧ s.w.sends = []
  allowed s e := e.allowed L s
  step e s := e.step L C s

instance tapMachine.decAllowed (C : Callbacks U) (s : Tap U) (e : TapEvent) :
    Decidable ((tapMachine L C).allowed s e) :=
  inferInstanceAs (Decidable (e.allowed L s))

/-! ## What is wanted -/

/-- The lines of a channel are those of its stream and its buffer holds the rest. -/
structure Inbox.Framed (start : ℕ) (mem : List UInt8) (x : Inbox) : Prop where
  seen : x.seen = (cut (ch '\n') x.got).1
  tail : slice mem start x.bof = (cut (ch '\n') x.got).2
  bof : x.bof = (cut (ch '\n') x.got).2.length

/-- The bytes of the block a read stores to. -/
def TapEvent.stores (e : TapEvent) (s : Tap U) (i : ℕ) : Prop :=
  match e with
  | .och chunk => L.OBOF0 + s.och.bof ≤ i ∧ i < L.OBOF0 + s.och.bof + chunk.length
  | .qch chunk => L.QBOF0 + s.qch.bof ≤ i ∧ i < L.QBOF0 + s.qch.bof + chunk.length
  | .timer => False

/-- The bytes of the block that are the channel's. -/
def TapEvent.owns (e : TapEvent) (i : ℕ) : Prop :=
  match e with
  | .och _ => L.OBOF0 ≤ i ∧ i < L.MBOF0
  | .qch _ => L.QBOF0 ≤ i ∧ i < L.OBOF0
  | .timer => False

/-- **What is wanted of a step**: no read stores to bytes that are not its channel's, the lines of both
channels are handed on as they came, and what is sent is what has been added. -/
structure Tap.Isolated (s : Tap U) (e : TapEvent) (s' : Tap U) : Prop where
  own : ∀ i, e.stores L s i → e.owns L i
  och : s'.och.Framed L.OBOF0 s'.mem
  qch : s'.qch.Framed L.QBOF0 s'.mem
  sends : ∀ x ∈ s'.w.sends, x.1 = x.2

/-- The decoder of the order channel comes back from a line and what its callback adds fits. -/
def Callbacks.OFits (C : Callbacks U) (p : Ptr) (n : ℕ) (s : List UInt8 × Pend U) : Prop :=
  ∃ m, recvOmsg (C.stack s.2.user) p n = .ok m ∧ (C.ochan m s.2.user).Fits L s.2.mbof

/-- The same for the quote channel. -/
def Callbacks.QFits (C : Callbacks U) (p : Ptr) (n : ℕ) (s : List UInt8 × Pend U) : Prop :=
  ∃ m, recvQmsg p n = .ok m ∧ (C.qchan m s.2.user).Fits L s.2.mbof

/-- The condition: a chunk of the order channel ends before the outgoing messages start, the block has
room for what the callbacks add, and the decoder comes back from every line. -/
def Tidy (C : Callbacks U) (s : Tap U) : TapEvent → Prop
  | .och chunk => s.och.bof + chunk.length ≤ BOTSIZ / 4 ∧
      Each (buffer L.OBOF0) (C.oline L) (C.OFits L)
        (cut (ch '\n') (slice s.mem L.OBOF0 s.och.bof ++ chunk)).1 0
        (putChunk L.OBOF0 s.och.bof chunk s.mem, s.w)
  | .qch chunk =>
      Each (buffer L.QBOF0) (C.qline L) (C.QFits L)
        (cut (ch '\n') (slice s.mem L.QBOF0 s.qch.bof ++ chunk)).1 0
        (putChunk L.QBOF0 s.qch.bof chunk s.mem, s.w)
  | .timer => (C.timer s.w.user).Fits L s.w.mbof

/-! ## A callback -/

variable {L}

/-- What every callback finds. -/
structure Pend.Ok (L : Layout) (s : List UInt8 × Pend U) : Prop where
  bot : Bot.Ok L ⟨s.1, s.2.mbof⟩
  added : s.2.added = Bot.out L ⟨s.1, s.2.mbof⟩
  sends : ∀ x ∈ s.2.sends, x.1 = x.2

/-- What a callback leaves alone. -/
structure Pend.Keeps (L : Layout) (s s' : List UInt8 × Pend U) : Prop where
  ok : Pend.Ok L s'
  front : s'.1.take L.MBOF0 = s.1.take L.MBOF0
  length : s'.1.length = s.1.length

theorem Pend.Keeps.trans {s s' s'' : List UInt8 × Pend U} (h : Pend.Keeps L s s')
    (h' : Pend.Keeps L s' s'') : Pend.Keeps L s s'' :=
  ⟨h'.ok, h'.front.trans h.front, h'.length.trans h.length⟩

theorem Prog.run_add {m : Omsg Decimal64} {k : ℤ → Prog U} {mem : List UInt8} {w : Pend U} (h : Pend.Ok L (mem, w))
    (hf : Bot.Fits L m ⟨mem, w.mbof⟩) : ∃ r s', (Prog.add m k).run L (mem, w) = (k r).run L s' ∧
      Pend.Keeps L (mem, w) s' ∧ ((Prog.add m k).Fits L w.mbof ↔ (k r).Fits L s'.2.mbof) := by
  obtain ⟨b, hs, hfr, hok, hn, hout⟩ := addOmsg_fit h.bot hf
  have hadd : w.added = Bot.out L ⟨mem, w.mbof⟩ := h.added
  rw [← hadd] at hout
  have hkeeps : ∀ added, added = b.out L →
      Pend.Keeps L (mem, w) (b.mem, ⟨w.user, b.mbof, added, w.sends⟩) := fun added ha =>
    ⟨⟨hok, ha, h.sends⟩, hfr.front, hfr.length⟩
  by_cases hu : m.body = .unk
  · simp only [if_pos hu, List.append_nil, Nat.add_zero] at hs hn hout
    refine ⟨-1, (b.mem, ⟨w.user, b.mbof, w.added, w.sends⟩), ?_, hkeeps _ hout.symm, ?_⟩
    · rw [Prog.run, hs]
      rfl
    · rw [Prog.Fits, if_pos hu, hn]
      exact ⟨fun h => h.2.2, fun h => ⟨hf.1, hf.2, h⟩⟩
  · simp only [if_neg hu] at hs hn hout
    refine ⟨0, (b.mem, ⟨w.user, b.mbof, w.added ++ omsgText m, w.sends⟩), ?_, hkeeps _ hout.symm, ?_⟩
    · rw [Prog.run, hs]
      rfl
    · rw [Prog.Fits, if_neg hu, hn]
      exact ⟨fun h => h.2.2, fun h => ⟨hf.1, hf.2, h⟩⟩

theorem Prog.run_send {k : Prog U} {mem : List UInt8} {w : Pend U} (h : Pend.Ok L (mem, w)) :
    ∃ s', (Prog.send k).run L (mem, w) = k.run L s' ∧ Pend.Keeps L (mem, w) s' ∧ s'.2.mbof = 0 := by
  refine ⟨(mem, ⟨w.user, 0, [], w.sends ++ [(Bot.out L ⟨mem, w.mbof⟩, w.added)]⟩), ?_, ⟨?_, rfl, rfl⟩, rfl⟩
  · rw [Prog.run, botSend_eq h.bot]
    rfl
  · refine ⟨⟨h.bot.length, Nat.zero_le _⟩, rfl, fun x hx => ?_⟩
    rcases List.mem_append.mp hx with hx | hx
    · exact h.sends x hx
    · rw [List.mem_singleton.mp hx]
      exact h.added.symm

/-- **A callback runs to its end just when what it adds fits**, and then it leaves the buffers of the
channels alone. -/
theorem Prog.run_spec (P : Prog U) : ∀ s : List UInt8 × Pend U, Pend.Ok L s →
    (P.Fits L s.2.mbof → ∃ s', P.run L s = .ok s' ∧ Pend.Keeps L s s') ∧
    (¬ P.Fits L s.2.mbof → ∃ e, P.run L s = .error e) := by
  induction P with
  | done u =>
      rintro ⟨mem, w⟩ h
      exact ⟨fun _ => ⟨_, rfl, ⟨h.bot, h.added, h.sends⟩, rfl, rfl⟩, fun hn => absurd trivial hn⟩
  | add m k ih =>
      rintro ⟨mem, w⟩ h
      by_cases hf : Bot.Fits L m ⟨mem, w.mbof⟩
      · obtain ⟨r, s', hrun, hkeeps, hfits⟩ := Prog.run_add (k := k) h hf
        obtain ⟨hgood, hbad⟩ := ih r s' hkeeps.ok
        rw [hrun, hfits]
        refine ⟨fun hP => ?_, hbad⟩
        obtain ⟨s'', hs, hk⟩ := hgood hP
        exact ⟨s'', hs, hkeeps.trans hk⟩
      · obtain ⟨e, he⟩ := addOmsg_over h.bot hf
        refine ⟨fun hP => absurd ⟨hP.1, hP.2.1⟩ hf, fun _ => ⟨e, ?_⟩⟩
        rw [Prog.run, he]
        rfl
  | send k ih =>
      rintro ⟨mem, w⟩ h
      obtain ⟨s', hrun, hkeeps, hn⟩ := Prog.run_send (k := k) h
      obtain ⟨hgood, hbad⟩ := ih s' hkeeps.ok
      rw [hrun, Prog.Fits, ← hn]
      refine ⟨fun hP => ?_, hbad⟩
      obtain ⟨s'', hs, hk⟩ := hgood hP
      exact ⟨s'', hs, hkeeps.trans hk⟩

theorem Prog.run_ok_iff {P : Prog U} {s : List UInt8 × Pend U} (h : Pend.Ok L s) :
    P.Fits L s.2.mbof ↔ ∃ s', P.run L s = .ok s' := by
  obtain ⟨hgood, hbad⟩ := P.run_spec s h
  refine ⟨fun hP => ?_, fun ⟨s', hs⟩ => ?_⟩
  · obtain ⟨s', hs, -⟩ := hgood hP
    exact ⟨s', hs⟩
  · by_contra hP
    obtain ⟨e, he⟩ := hbad hP
    rw [he] at hs
    cases hs

theorem Prog.run_keeps {P : Prog U} {s s' : List UInt8 × Pend U} (h : Pend.Ok L s)
    (hs : P.run L s = .ok s') : Pend.Keeps L s s' := by
  obtain ⟨s₁, h₁, hk⟩ := (P.run_spec s h).1 ((Prog.run_ok_iff h).mpr ⟨s', hs⟩)
  rw [hs] at h₁
  cases h₁
  exact hk

/-! ## A read -/

/-- A handler that decodes a line and runs a callback. -/
structure Runs (L : Layout) (line : Handler (Pend U)) (F : Ptr → ℕ → List UInt8 × Pend U → Prop) :
    Prop where
  keeps : ∀ p n s s', Pend.Ok L s → line p n s = .ok s' → Pend.Keeps L s s'
  fits : ∀ p n s, Pend.Ok L s → (F p n s ↔ ∃ s', line p n s = .ok s')

theorem oline_runs (C : Callbacks U) : Runs L (C.oline L) (C.OFits L) where
  keeps p n s s' h hs := by
    obtain ⟨m, -, hr⟩ := bind_ok.mp hs
    exact Prog.run_keeps h hr
  fits p n s h := by
    unfold Callbacks.OFits Callbacks.oline
    simp only [bind_ok, Prog.run_ok_iff h]
    exact ⟨fun ⟨m, hm, s', hs⟩ => ⟨s', m, hm, hs⟩, fun ⟨s', m, hm, hs⟩ => ⟨m, hm, s', hs⟩⟩

theorem qline_runs (C : Callbacks U) : Runs L (C.qline L) (C.QFits L) where
  keeps p n s s' h hs := by
    obtain ⟨m, -, hr⟩ := bind_ok.mp hs
    exact Prog.run_keeps h hr
  fits p n s h := by
    unfold Callbacks.QFits Callbacks.qline
    simp only [bind_ok, Prog.run_ok_iff h]
    exact ⟨fun ⟨m, hm, s', hs⟩ => ⟨s', m, hm, hs⟩, fun ⟨s', m, hm, hs⟩ => ⟨m, hm, s', hs⟩⟩

section Recv

variable {start : ℕ} {line : Handler (Pend U)} {F : Ptr → ℕ → List UInt8 × Pend U → Prop}
  {chunk tail mem : List UInt8} {x : Inbox} {w : Pend U}

/-- What the loop of a channel finds: its handlers leave the front of the block alone. -/
theorem recv_reads (hr : Runs L line F) (ht : slice mem start tail.length = tail)
    (hw : Pend.Ok L (mem, w)) (hroom : start + tail.length + chunk.length ≤ L.MBOF0) :
    Reads start line chunk tail mem w fun s => Pend.Ok L s ∧
      s.1.take L.MBOF0 = (putChunk start tail.length chunk mem).take L.MBOF0 ∧
      s.1.length = mem.length := by
  obtain ⟨-, -, h3, -, h5, -⟩ := L.bounds
  have hlen : mem.length = L.bytes := hw.bot.length
  have hle : start + tail.length + chunk.length ≤ mem.length := by omega
  have hout : slice (putChunk start tail.length chunk mem) L.MBOF0 w.mbof = slice mem L.MBOF0 w.mbof :=
    slice_putAt_of_disjoint hle (Or.inr hroom)
  refine ⟨ht, hle, ?_, ?_, ?_⟩
  · refine ⟨⟨⟨(length_splice hle).trans hlen, hw.bot.mbof⟩, ?_, hw.sends⟩, rfl, length_splice hle⟩
    exact hw.added.trans hout.symm
  · rintro p n s s' ⟨hok, hfr, hl⟩ hs
    have hk := hr.keeps p n s s' hok hs
    exact ⟨hk.ok, hk.front.trans hfr, hk.length.trans hl⟩
  · rintro s ⟨-, hfr, hl⟩
    refine ⟨?_, hl⟩
    have hf := front_putChunk w ht hle
    exact (slice_of_take hfr (by rw [List.length_append]; omega)).trans hf

theorem Inbox.Framed.left (hx : x.Framed start mem) : ∃ tail, x.bof = tail.length ∧
    slice mem start tail.length = tail ∧ slice mem start x.bof = tail := by
  have hb : x.bof = (slice mem start x.bof).length := by rw [hx.tail, ← hx.bof]
  exact ⟨slice mem start x.bof, hb, by rw [← hb], rfl⟩

/-- **A read into the channel's part of the block** succeeds just when every line is decoded and what
the callbacks add fits. -/
theorem recv_ok_iff (hr : Runs L line F) (hx : x.Framed start mem) (hw : Pend.Ok L (mem, w))
    (hroom : start + x.bof + chunk.length ≤ L.MBOF0) :
    (∃ y, recvLines start line chunk mem x w = .ok y) ↔
      Each (buffer start) line F (cut (ch '\n') (slice mem start x.bof ++ chunk)).1 0
        (putChunk start x.bof chunk mem, w) := by
  obtain ⟨tail, hb, ht, hs⟩ := hx.left
  rw [hb] at hroom
  have hreads := recv_reads hr ht hw hroom
  rw [recvLines, hs, hb, each_iff (fun p n s hs => hr.fits p n s hs.1) hreads.keeps hreads.init,
    ← readLines_ok_iff (Or.inr rfl) hreads]
  simp only [map_ok]
  exact ⟨fun ⟨_, y, hy, _⟩ => ⟨y, hy⟩, fun ⟨y, hy⟩ => ⟨_, y, hy, rfl⟩⟩

/-- **What it leaves**: the channel is framed again and the rest of the front of the block is as it
was. -/
theorem recv_spec (hr : Runs L line F) (hx : x.Framed start mem) (hw : Pend.Ok L (mem, w))
    (hroom : start + x.bof + chunk.length ≤ L.MBOF0) {y : List UInt8 × Inbox × Pend U}
    (hy : recvLines start line chunk mem x w = .ok y) :
    y.2.1.Framed start y.1 ∧ y.2.1.bof ≤ x.bof + chunk.length ∧ Pend.Ok L (y.1, y.2.2) ∧
      ∀ a n, a + n ≤ L.MBOF0 → (a + n ≤ start ∨ start + x.bof + chunk.length ≤ a) →
        slice y.1 a n = slice mem a n := by
  obtain ⟨tail, hb, ht, hsl⟩ := hx.left
  have hgot : cut (ch '\n') (x.got ++ chunk) =
      (x.seen ++ (cut (ch '\n') (tail ++ chunk)).1, (cut (ch '\n') (tail ++ chunk)).2) := by
    rw [cut_append, ← hx.seen, ← hx.tail, hsl]
  have hcut := length_cut_le (ch '\n') (tail ++ chunk)
  have hlen : mem.length = L.bytes := hw.bot.length
  obtain ⟨-, -, h3, -, h5, -⟩ := L.bounds
  rw [List.length_append] at hcut
  rw [recvLines, hb] at hy
  rw [hb] at hroom ⊢
  obtain ⟨z, hz, he⟩ := map_ok.mp hy
  obtain ⟨hseen, hbof, htail, m, ⟨hok, hfr, hml⟩, hput⟩ :=
    readLines_ok (Or.inr rfl) (recv_reads hr ht hw hroom) hz
  subst he
  have hml : m.length = mem.length := hml
  have hfit : start + (cut (ch '\n') (tail ++ chunk)).2.length ≤ m.length := by omega
  refine ⟨⟨?_, ?_, ?_⟩, hbof.le.trans hcut, ?_, ?_⟩
  · change x.seen ++ _ = (cut (ch '\n') (x.got ++ chunk)).1
    rw [hseen, hgot]
  · rw [hgot]
    exact htail
  · rw [hgot]
    exact hbof
  · have hm : slice z.1 L.MBOF0 z.2.2.mbof = slice m L.MBOF0 z.2.2.mbof := by
      rw [hput]
      exact slice_putAt_of_disjoint hfit (Or.inr (by omega))
    refine ⟨⟨?_, hok.bot.mbof⟩, hok.added.trans hm.symm, hok.sends⟩
    change z.1.length = _
    rw [hput]
    exact (length_splice hfit).trans (hml.trans hlen)
  · intro a n han hd
    rw [hput, slice_putAt_of_disjoint hfit (by omega), slice_of_take hfr han]
    exact slice_putAt_of_disjoint (by omega) (hd.imp_left fun h => h.trans (Nat.le_add_right _ _))

end Recv

/-! ## Runs -/

/-- What holds between two events. -/
structure Tap.Inv (L : Layout) (s : Tap U) : Prop where
  och : s.och.Framed L.OBOF0 s.mem
  qch : s.qch.Framed L.QBOF0 s.mem
  obof : s.och.bof ≤ BOTSIZ / 4
  qbof : s.qch.bof ≤ L.QBOFZ
  pend : Pend.Ok L (s.mem, s.w)

variable {C : Callbacks U} {s s' : Tap U} {e : TapEvent}

theorem start_tap (h : (tapMachine L C).init s) : s.Inv L := by
  obtain ⟨hl, ho, hq, hm, ha, hs⟩ := h
  have hframed : ∀ start mem, Inbox.Framed start mem ⟨0, [], []⟩ := fun start mem =>
    ⟨rfl, List.take_zero .., rfl⟩
  refine ⟨by rw [ho]; exact hframed _ _, by rw [hq]; exact hframed _ _, by rw [ho]; exact Nat.zero_le _,
    by rw [hq]; exact Nat.zero_le _, ⟨hl, by rw [hm]; exact Nat.zero_le _⟩, ?_, by simp [hs]⟩
  rw [ha, hm]
  rfl

theorem qch_fits (h : s.Inv L) {chunk : List UInt8} (ha : (TapEvent.qch chunk).allowed L s) :
    s.qch.bof + chunk.length ≤ L.QBOFZ ∧ L.QBOF0 + s.qch.bof + chunk.length ≤ L.MBOF0 := by
  obtain ⟨h1, h2, h3, -, -, -⟩ := L.bounds
  have hQ : L.QBOFZ = 2048 - L.BUFOFF := rfl
  have h0 : L.QBOF0 = 0 := rfl
  have h4 : BOTSIZ / 4 = 2048 := rfl
  have hqb := h.qbof
  have hlt := ha.2
  have hpos := List.length_pos_iff.mpr ha.1
  exact ⟨by omega, by omega⟩

theorem tidy_step (h : s.Inv L) (ha : e.allowed L s) (hC : Tidy L C s e) :
    ∃ s', e.step L C s = .ok s' ∧ s.Isolated L e s' ∧ s'.Inv L := by
  obtain ⟨h1, h2, h3, -, -, -⟩ := L.bounds
  have hQ : L.QBOFZ = 2048 - L.BUFOFF := rfl
  have h0 : L.QBOF0 = 0 := rfl
  have h4 : BOTSIZ / 4 = 2048 := rfl
  have hob := h.obof
  have hqb := h.qbof
  cases e with
  | och chunk =>
      obtain ⟨hfit, hlines⟩ := hC
      have hroom : L.OBOF0 + s.och.bof + chunk.length ≤ L.MBOF0 := by omega
      obtain ⟨y, hy⟩ := (recv_ok_iff (oline_runs C) h.och h.pend hroom).mpr hlines
      obtain ⟨hf, hbof, hp, hsl⟩ := recv_spec (oline_runs C) h.och h.pend hroom hy
      have hq : s.qch.Framed L.QBOF0 y.1 :=
        ⟨h.qch.seen, (hsl _ _ (by omega) (Or.inl (by omega))).trans h.qch.tail, h.qch.bof⟩
      refine ⟨⟨y.1, y.2.1, s.qch, y.2.2⟩, by rw [TapEvent.step, hy]; rfl, ⟨?_, hf, hq, hp.sends⟩,
        ⟨hf, hq, hbof.trans hfit, h.qbof, hp⟩⟩
      rintro i ⟨hi, hi'⟩
      exact ⟨by omega, by omega⟩
  | qch chunk =>
      obtain ⟨hle, hroom⟩ := qch_fits h ha
      obtain ⟨y, hy⟩ := (recv_ok_iff (qline_runs C) h.qch h.pend hroom).mpr hC
      obtain ⟨hf, hbof, hp, hsl⟩ := recv_spec (qline_runs C) h.qch h.pend hroom hy
      have ho : s.och.Framed L.OBOF0 y.1 :=
        ⟨h.och.seen, (hsl _ _ (by omega) (Or.inr (by omega))).trans h.och.tail, h.och.bof⟩
      refine ⟨⟨y.1, s.och, y.2.1, y.2.2⟩, by rw [TapEvent.step, hy]; rfl, ⟨?_, ho, hf, hp.sends⟩,
        ⟨ho, hf, h.obof, hbof.trans hle, hp⟩⟩
      rintro i ⟨hi, hi'⟩
      exact ⟨by omega, by omega⟩
  | timer =>
      obtain ⟨y, hy, hk⟩ := ((C.timer s.w.user).run_spec (s.mem, s.w) h.pend).1 hC
      have ho : s.och.Framed L.OBOF0 y.1 :=
        ⟨h.och.seen, (slice_of_take hk.front (by omega)).trans h.och.tail, h.och.bof⟩
      have hq : s.qch.Framed L.QBOF0 y.1 :=
        ⟨h.qch.seen, (slice_of_take hk.front (by omega)).trans h.qch.tail, h.qch.bof⟩
      exact ⟨⟨y.1, s.och, s.qch, y.2⟩, by rw [TapEvent.step, hy]; rfl,
        ⟨fun i hi => hi.elim, ho, hq, hk.ok.sends⟩, ⟨ho, hq, h.obof, h.qbof, hk.ok⟩⟩

/-- **A step outside the condition** faults or stores to bytes that are not the channel's. -/
theorem untidy_step (h : s.Inv L) (ha : e.allowed L s) (hC : ¬ Tidy L C s e)
    (hs : e.step L C s = .ok s') : ¬ s.Isolated L e s' := by
  obtain ⟨h1, h2, h3, -, -, -⟩ := L.bounds
  have h4 : BOTSIZ / 4 = 2048 := rfl
  have hob := h.obof
  intro hI
  cases e with
  | och chunk =>
      have hpos := List.length_pos_iff.mpr ha.1
      obtain ⟨y, hy, -⟩ := map_ok.mp hs
      -- the last byte stored is the channel's
      have hlast := (hI.own (L.OBOF0 + s.och.bof + chunk.length - 1) ⟨by omega, by omega⟩).2
      have hroom : L.OBOF0 + s.och.bof + chunk.length ≤ L.MBOF0 := by omega
      exact hC ⟨by omega, (recv_ok_iff (oline_runs C) h.och h.pend hroom).mp ⟨y, hy⟩⟩
  | qch chunk =>
      obtain ⟨y, hy, -⟩ := map_ok.mp hs
      exact hC ((recv_ok_iff (qline_runs C) h.qch h.pend (qch_fits h ha).2).mp ⟨y, hy⟩)
  | timer =>
      obtain ⟨y, hy, -⟩ := map_ok.mp hs
      exact hC ((Prog.run_ok_iff h.pend).mpr ⟨y, hy⟩)

/-- **The buffers of a bot are isolated in a run just when every step meets the condition.** -/
theorem isolated_iff (L : Layout) (C : Callbacks U) (es : List TapEvent) (s : Tap U) :
    (tapMachine L C).Always (Tap.Isolated L) es s ↔ ((tapMachine L C).restrict (Tidy L C)).Runs es s :=
  Run.Machine.always_iff_of_spec (I := fun s => s.Inv L) (fun _ => start_tap)
    (fun _ _ h ha hC => tidy_step h ha hC) fun _ _ _ h ha hC hs => untidy_step h ha hC hs

/-- A bot that adds an order on the first tick and sends on the next. -/
def sampleCallbacks : Callbacks Bool where
  stack _ := ⟨0, nilOid⟩
  ochan _ u := .done u
  qchan _ u := .done u
  timer u :=
    if u then .send (.done u)
    else .add ⟨[ch 'I'], .ord ⟨clobTypeMkt, clobSideBid, ⟨zerodd, zerodd⟩, NAND64, 0, 0⟩⟩ fun _ => .done true

def sampleLayout : Layout := ⟨512, by decide⟩

def sampleTap : Tap Bool := ⟨List.replicate 7680 0, ⟨0, [], []⟩, ⟨0, [], []⟩, ⟨false, 0, [], []⟩⟩

/-- Between the two ticks the exchange sends more than a quarter of the block. -/
def spillEvents : List TapEvent := [.timer, .och (List.replicate 2100 (ch 'x'))] ++ [.timer]

theorem sampleTap_init : (tapMachine sampleLayout sampleCallbacks).init sampleTap :=
  ⟨List.length_replicate, rfl, rfl, rfl, rfl, rfl⟩

/-- What is sent is not what was added. -/
theorem spillEvents_spill : ∃ s, (tapMachine sampleLayout sampleCallbacks).Runs spillEvents s ∧
    (∃ x ∈ s.w.sends, x.1 ≠ x.2) ∧
    ¬ (tapMachine sampleLayout sampleCallbacks).Always (Tap.Isolated sampleLayout) spillEvents s := by
  have hexec : ((tapMachine sampleLayout sampleCallbacks).exec spillEvents sampleTap).any
      (fun s => s.w.sends.any fun x => x.1 != x.2) = true := by
    decide +kernel
  obtain ⟨s, hr, hx⟩ := Run.Machine.runs_of_any _ sampleTap_init hexec
  obtain ⟨x, hm, hne⟩ := List.any_eq_true.mp hx
  have hne := bne_iff_ne.mp hne
  refine ⟨s, hr, ⟨x, hm, hne⟩, fun ha => ?_⟩
  obtain ⟨s₁, -, hi⟩ := ha.last
  exact hne (hi.sends x hm)

end Unserlob
