import Unserlob.Channel.Bot
import Unserlob.Channel.Readers
import Unserlob.Lib.Run
import Unserlob.Lol.Local

/-!
# Framing

Four loops read lines from a stream that arrives in chunks: those of the two exchanges, the quote
channel of the bots and the candle maker.

* `Exch.line`, `QuoteBot.line`, `Candle.line`: what becomes of a line;
* `Loop`: the four; `Reading`, `Loop.machine`: a loop reading chunk after chunk;
* `Reading.Framed`: the lines handed out are those of the stream and the buffer holds the rest;
* `Loop.OnLine`, `returns_of_onLine`: lines whose columns the decoder comes back from;
* `call_inv`, `call_ok_iff`: the step lemmas;
* **`framed_iff`**: the stream is framed as long as every line is decoded, however it is cut.
-/

namespace Unserlob

open Ascii Cursor Writer Lines

variable {W : Type}

/-! ## What becomes of a line -/

/-- `hins`: the number of an instrument, `-1` for an unknown one. -/
def hins (hash : List UInt8 → BitVec 32) (insth : List (BitVec 32)) (ins : List UInt8) : ℕ :=
  if ins = [] then 0
  else
    match insth.findIdx? (· == hash ins) with
    | some j => j
    | none => 2 ^ 64 - 1

/-- An exchange: the offset of `buf` in `struct uclo_s`, its instruments, the stack the decoder finds
and what is done with orders and cancellations. -/
structure Exch (W : Type) where
  bufoff : ℕ
  hash : List UInt8 → BitVec 32
  insth : List (BitVec 32)
  stack : W → Locals
  addOrd : ℕ → ClobOrd Decimal64 → W → Res W
  delOid : ℕ → ClobOid Decimal64 → W → Res W

/-- The body of the loop in `data_cb`. -/
def Exch.line (E : Exch W) : Handler W := fun p n s => do
  let m ← recvOmsg (E.stack s.2) p n
  let ins := hins E.hash E.insth m.ins
  if E.insth.length < ins then pure s
  else
    match m.body with
    | .ord o => return (s.1, ← E.addOrd ins o s.2)
    | .can o => return (s.1, ← E.delOid ins o s.2)
    | _ => pure s

/-- A bot with a callback for quotes. Its memory goes on behind the quote buffer, where the callback
may write but not in the buffer. -/
structure QuoteBot (W : Type) extends Layout where
  qchan : Qmsg Decimal64 → List UInt8 × W → Res (List UInt8 × W)
  keeps : ∀ m s s', qchan m s = .ok s' →
    s'.1.take toLayout.QBOFZ = s.1.take toLayout.QBOFZ ∧ s'.1.length = s.1.length

/-- The body of the loop in `_qch_cb`. -/
def QuoteBot.line (B : QuoteBot W) : Handler W := fun p n s => do
  let m ← recvQmsg p n
  B.qchan m s

/-- The candle maker: `SIDE_DEL`, the flavour its stack holds and what it does with a quote. -/
structure Candle (W : Type) where
  sideDel : Side
  flavour : W → BitVec 32
  onQuo : Xquo → W → Res W

/-- The body of the loop in the `beef_cb` of `lobcch.c`. -/
def Candle.line (C : Candle W) : Handler W := fun p n s => do
  match ← recvXquo C.sideDel (C.flavour s.2) p n with
  | none => pure s
  | some q => return (s.1, ← C.onQuo q s.2)

/-! ## The four loops -/

/-- `_qch_cb` is hooked in only for a bot that has a callback. -/
inductive Loop (W : Type) where
  | lobot (E : Exch W)
  | cabot (E : Exch W)
  | qch (B : QuoteBot W)
  | beef (C : Candle W)

namespace Loop

/-- `UBSZ`, `QBOFZ` and `sizeof(buf)` -/
def size : Loop W → ℕ
  | lobot E => 4096 - E.bufoff
  | cabot E => 4096 - E.bufoff
  | qch B => B.QBOFZ
  | beef _ => 4096

/-- The memory from the buffer on. -/
def total : Loop W → ℕ
  | qch B => B.bytes
  | p => p.size

def left : Loop W → ℕ → List UInt8 → ℕ → ℕ → Res (List UInt8 × ℕ)
  | lobot _ => leftSub
  | cabot _ => leftSub
  | qch _ => leftCmp
  | beef _ => leftCmp

def line : Loop W → Handler W
  | lobot E => E.line
  | cabot E => E.line
  | qch B => B.line
  | beef C => C.line

end Loop

/-- A loop between two reads: its buffer and what there is of the world, the bytes read so far and the
slices handed to the decoder so far. -/
structure Reading (W : Type) where
  mem : List UInt8
  bof : ℕ
  w : W
  got : List UInt8
  seen : List (List UInt8)

/-- What is left in the buffer. -/
def Reading.tail (s : Reading W) : List UInt8 := s.mem.take s.bof

/-- **What is wanted**: the slices are the terminated segments of the stream, and the buffer holds the
unterminated rest. -/
structure Reading.Framed (s : Reading W) : Prop where
  seen : s.seen = (cut (ch '\n') s.got).1
  tail : s.tail = (cut (ch '\n') s.got).2
  bof : s.bof = (cut (ch '\n') s.got).2.length

/-- A read of `chunk`, with the slices it hands to the decoder. -/
def Loop.call (p : Loop W) (chunk : List UInt8) (s : Reading W) :
    List (List UInt8) × Res (Reading W) :=
  let r := readLines 0 p.left p.line chunk s.mem s.bof s.w
  (r.1, r.2.map fun x => ⟨x.1, x.2.1, x.2.2, s.got ++ chunk, s.seen ++ r.1⟩)

/-- A read brings something and at most what there is room for. -/
def Loop.machine (p : Loop W) : Run.Machine (Reading W) (List UInt8) where
  init s := s.mem.length = p.total ∧ s.bof = 0 ∧ s.got = [] ∧ s.seen = []
  allowed s chunk := chunk ≠ [] ∧ chunk.length ≤ p.size - s.bof
  step chunk s := (p.call chunk s).2

instance Loop.decAllowed (p : Loop W) (s : Reading W) (chunk : List UInt8) :
    Decidable (p.machine.allowed s chunk) :=
  inferInstanceAs (Decidable (_ ∧ _))

/-- The condition: the decoder comes back from every line that is in the buffer now, and so does what
is done with its message. -/
def Loop.Returns (p : Loop W) (s : Reading W) (chunk : List UInt8) : Prop :=
  Handles (buffer 0) p.line (cut (ch '\n') (s.tail ++ chunk)).1 0 (putChunk 0 s.bof chunk s.mem, s.w)

/-- The decoder comes back. -/
def Loop.Decodes (p : Loop W) (q : Ptr) (n : ℕ) (x : List UInt8 × W) : Prop :=
  match p with
  | lobot E => ∃ m, recvOmsg (E.stack x.2) q n = .ok m
  | cabot E => ∃ m, recvOmsg (E.stack x.2) q n = .ok m
  | qch _ => ∃ m, recvQmsg q n = .ok m
  | beef C => ∃ m, recvXquo C.sideDel (C.flavour x.2) q n = .ok m

/-- The columns are found on the line, and none of them stops the scanner. -/
def Loop.OnLine (p : Loop W) (line : List UInt8) : Prop :=
  match p with
  | lobot _ => OmsgLocal line
  | cabot _ => OmsgLocal line
  | qch _ => QmsgLocal line
  | beef _ => XquoLocal line

/-- What is done with the messages of the lines behind `chunk` comes back, line by line. -/
def Loop.Responds (p : Loop W) (s : Reading W) (chunk : List UInt8) : Prop :=
  Each (buffer 0) p.line (fun q n x => p.Decodes q n x → ∃ x', p.line q n x = .ok x')
    (cut (ch '\n') (s.tail ++ chunk)).1 0 (putChunk 0 s.bof chunk s.mem, s.w)

/-! ## One read -/

theorem Loop.left_or (p : Loop W) : p.left = leftSub ∨ p.left = leftCmp := by
  cases p with
  | lobot E => exact Or.inl rfl
  | cabot E => exact Or.inl rfl
  | qch B => exact Or.inr rfl
  | beef C => exact Or.inr rfl

theorem Loop.size_le (p : Loop W) : p.size ≤ p.total := by
  cases p with
  | lobot E => exact le_rfl
  | cabot E => exact le_rfl
  | qch B => exact Nat.sub_le_sub_right (by decide) B.BUFOFF
  | beef C => exact le_rfl

theorem Exch.line_fst (E : Exch W) {p : Ptr} {n : ℕ} {s s' : List UInt8 × W}
    (h : E.line p n s = .ok s') : s'.1 = s.1 := by
  obtain ⟨m, -, hb⟩ := bind_ok.mp h
  simp only at hb
  split_ifs at hb with hi
  · cases hb
    rfl
  · split at hb
    · obtain ⟨w, -, hw⟩ := bind_ok.mp hb
      cases hw
      rfl
    · obtain ⟨w, -, hw⟩ := bind_ok.mp hb
      cases hw
      rfl
    · cases hb
      rfl

theorem Candle.line_fst (C : Candle W) {p : Ptr} {n : ℕ} {s s' : List UInt8 × W}
    (h : C.line p n s = .ok s') : s'.1 = s.1 := by
  obtain ⟨m, -, hb⟩ := bind_ok.mp h
  cases m with
  | none => cases hb; rfl
  | some q =>
      obtain ⟨w, -, hw⟩ := bind_ok.mp hb
      cases hw
      rfl

theorem QuoteBot.line_keeps (B : QuoteBot W) {p : Ptr} {n : ℕ} {s s' : List UInt8 × W}
    (h : B.line p n s = .ok s') :
    s'.1.take B.QBOFZ = s.1.take B.QBOFZ ∧ s'.1.length = s.1.length := by
  obtain ⟨m, -, hm⟩ := bind_ok.mp h
  exact B.keeps m s s' hm

theorem Loop.line_keeps (p : Loop W) {t : List UInt8} (ht : t.length ≤ p.size) {q : Ptr} {n : ℕ}
    {s s' : List UInt8 × W} (hf : Front 0 t s) (h : p.line q n s = .ok s') :
    Front 0 t s' ∧ s'.1.length = s.1.length := by
  cases p with
  | lobot E => rw [Front, E.line_fst h]; exact ⟨hf, rfl⟩
  | cabot E => rw [Front, E.line_fst h]; exact ⟨hf, rfl⟩
  | beef C => rw [Front, C.line_fst h]; exact ⟨hf, rfl⟩
  | qch B =>
      obtain ⟨hk, hl⟩ := B.line_keeps h
      refine ⟨?_, hl⟩
      have hk' := congrArg (List.take t.length) hk
      rw [List.take_take, List.take_take, min_eq_left (show t.length ≤ B.QBOFZ from ht)] at hk'
      exact hk'.trans hf

/-- What holds between two reads. -/
structure Reading.Inv (p : Loop W) (s : Reading W) : Prop where
  framed : s.Framed
  length : s.mem.length = p.total

variable {p : Loop W} {s s' : Reading W} {chunk : List UInt8}

theorem Reading.Inv.got (h : s.Inv p) : cut (ch '\n') (s.got ++ chunk) =
    (s.seen ++ (cut (ch '\n') (s.tail ++ chunk)).1, (cut (ch '\n') (s.tail ++ chunk)).2) := by
  rw [cut_append, ← h.framed.seen, ← h.framed.tail]

theorem Reading.Inv.reads (h : s.Inv p) (hc : p.machine.allowed s chunk) :
    s.bof = s.tail.length ∧ Reads 0 p.line chunk s.tail s.mem s.w fun x =>
      Front 0 (s.tail ++ chunk) x ∧ x.1.length = s.mem.length := by
  have hbof : s.bof = s.tail.length := by rw [h.framed.bof, h.framed.tail]
  have hsize := p.size_le
  have hpos := List.length_pos_iff.mpr hc.1
  have hle := hc.2
  have htail : slice s.mem 0 s.tail.length = s.tail := by
    rw [slice, List.drop_zero, ← hbof]
    rfl
  have hroom : 0 + s.tail.length + chunk.length ≤ s.mem.length := by
    rw [h.length]
    omega
  refine ⟨hbof, htail, hroom, ⟨front_putChunk s.w htail hroom, length_splice hroom⟩, ?_, fun _ h => h⟩
  intro q n x x' hx hl
  obtain ⟨hf, hlen⟩ := p.line_keeps (by rw [List.length_append]; omega) hx.1 hl
  exact ⟨hf, hlen.trans hx.2⟩

theorem call_ok_iff (h : s.Inv p) (hc : p.machine.allowed s chunk) :
    (∃ s', (p.call chunk s).2 = .ok s') ↔ p.Returns s chunk := by
  obtain ⟨hbof, hr⟩ := h.reads hc
  rw [Loop.Returns, hbof, ← readLines_ok_iff p.left_or hr, Loop.call, hbof]
  simp only [map_ok]
  exact ⟨fun ⟨_, y, hy, _⟩ => ⟨y, hy⟩, fun ⟨y, hy⟩ => ⟨_, y, hy, rfl⟩⟩

theorem call_inv (h : s.Inv p) (hc : p.machine.allowed s chunk) (hs : (p.call chunk s).2 = .ok s') :
    s'.Inv p ∧ s'.got = s.got ++ chunk := by
  obtain ⟨hbof, hr⟩ := h.reads hc
  rw [Loop.call, hbof] at hs
  obtain ⟨x, hx, he⟩ := map_ok.mp hs
  obtain ⟨hseen, hbof', htail, m, hm, hput⟩ := readLines_ok p.left_or hr hx
  cases he
  have hlen : x.1.length = s.mem.length := by
    have hle := length_cut_le (ch '\n') (s.tail ++ chunk)
    have hroom := hr.room
    rw [List.length_append] at hle
    rw [hput, ← hm.2]
    exact length_splice (by rw [hm.2]; omega)
  refine ⟨⟨⟨?_, ?_, ?_⟩, hlen.trans h.length⟩, rfl⟩
  · change s.seen ++ _ = (cut (ch '\n') (s.got ++ chunk)).1
    rw [hseen, h.got]
  · change x.1.take x.2.1 = (cut (ch '\n') (s.got ++ chunk)).2
    rw [h.got]
    exact htail
  · change x.2.1 = (cut (ch '\n') (s.got ++ chunk)).2.length
    rw [hbof', h.got]

theorem call_initial (h : s.Inv p) (hc : p.machine.allowed s chunk) :
    s.seen ++ (p.call chunk s).1 <+: (cut (ch '\n') (s.got ++ chunk)).1 := by
  obtain ⟨hbof, hr⟩ := h.reads hc
  rw [h.got, Loop.call, hbof, readLines_eq p.left_or hr]
  exact (List.prefix_append_right_inj s.seen).mpr (handAll_initial _ _ _)

theorem decodes_of_onLine {l : List UInt8} (hl : Ends l) (h : p.OnLine l) (r : Ptr) (x : List UInt8 × W) :
    p.Decodes (l ++ r) l.length x := by
  have homsg : ∀ st : Locals, OmsgLocal l → ∃ m, recvOmsg st (l ++ r) l.length = .ok m := by
    intro st hloc
    obtain ⟨m, hm⟩ := (recvOmsg_returns st hl).mpr hloc
    exact ⟨m, (recvOmsg_stays st r l l.length (by rw [hm]; nofun)).trans hm⟩
  cases p with
  | lobot E => exact homsg _ h
  | cabot E => exact homsg _ h
  | qch B =>
      obtain ⟨m, hm⟩ := (recvQmsg_returns hl).mpr h
      exact ⟨m, (recvQmsg_stays r l l.length (by rw [hm]; nofun)).trans hm⟩
  | beef C =>
      obtain ⟨m, hm⟩ := recvXquo_returns C.sideDel (C.flavour x.2) hl h
      exact ⟨m, (recvXquo_stays r C.sideDel (C.flavour x.2) l l.length (by rw [hm]; nofun)).trans hm⟩

/-- **Lines on which their columns are found** are all decoded. -/
theorem returns_of_onLine (h : s.Inv p) (hc : p.machine.allowed s chunk)
    (hl : ∀ l ∈ (cut (ch '\n') (s.tail ++ chunk)).1, p.OnLine l) (hr : p.Responds s chunk) : p.Returns s chunk := by
  obtain ⟨hbof, hreads⟩ := h.reads hc
  rw [Loop.Returns, hbof]
  rw [Loop.Responds, hbof] at hr
  refine handles_of_each (p := []) (T := s.tail ++ chunk) (t := (cut (ch '\n') (s.tail ++ chunk)).2)
    (fun z hz => (hreads.front z hz).1) hreads.keeps (fun l hm r x hx => ?_) ?_ hreads.init hr
  · exact hx (decodes_of_onLine (isSegment_cut _ l hm).last (hl l hm) r x)
  · rw [List.nil_append, cut_flatten]

/-! ## Runs -/

theorem start_inv (hs : p.machine.init s) : s.Inv p := by
  obtain ⟨hl, hb, hg, hn⟩ := hs
  refine ⟨⟨?_, ?_, ?_⟩, hl⟩
  · rw [hn, hg]; rfl
  · rw [Reading.tail, hb, hg]; rfl
  · rw [hb, hg]; rfl

theorem runs_inv {es : List (List UInt8)} (h : p.machine.Runs es s) : s.Inv p ∧ s.got = es.flatten := by
  refine h.inv_events (P := fun es s => s.Inv p ∧ s.got = es.flatten)
    (fun s hs => ⟨start_inv hs, hs.2.2.1⟩) ?_
  intro es s c s' hP hc hs
  obtain ⟨hI, hg⟩ := call_inv hP.1 hc hs
  exact ⟨hI, by rw [hg, hP.2, List.flatten_append, List.flatten_singleton]⟩

/-- **Framing.** Every read goes through and leaves the stream framed just when the decoder comes back from
every line it is handed; what it is handed are the lines in order in any case, and how the stream was cut
makes no difference. The decoder comes back from lines whose columns are found on them. -/
theorem framed_iff (p : Loop W) :
    (∀ es s, p.machine.init s →
      (p.machine.Deals (fun _ _ s' => s'.Framed) es s ↔ p.machine.Meets p.Returns es s)) ∧
    (∀ es s, p.machine.Runs es s → s.got = es.flatten ∧ s.Framed ∧
      ∀ c, p.machine.allowed s c → (s.seen ++ (p.call c s).1 <+: (cut (ch '\n') (s.got ++ c)).1 ∧
        ((∃ s', p.machine.step c s = .ok s') ↔ p.Returns s c) ∧
        ((∀ l ∈ (cut (ch '\n') (s.tail ++ c)).1, p.OnLine l) → p.Responds s c → p.Returns s c))) ∧
    (∀ es s es' s', p.machine.Runs es s → p.machine.Runs es' s' → es.flatten = es'.flatten →
      s.seen = s'.seen ∧ s.tail = s'.tail ∧ s.bof = s'.bof) := by
  refine ⟨fun es s h0 => ?_, fun es s h => ?_, fun es s es' s' h h' he => ?_⟩
  · refine Run.Machine.deals_iff_meets (I := fun s => s.Inv p) ?_ ?_ es (start_inv h0)
    · intro s c hI hc hC
      obtain ⟨s', hs⟩ := (call_ok_iff hI hc).mpr hC
      obtain ⟨hI', -⟩ := call_inv hI hc hs
      exact ⟨s', hs, hI'.framed, hI'⟩
    · exact fun s c s' hI hc hs _ => (call_ok_iff hI hc).mp ⟨s', hs⟩
  · obtain ⟨hI, hg⟩ := runs_inv h
    exact ⟨hg, hI.framed, fun c hc => ⟨call_initial hI hc, call_ok_iff hI hc, returns_of_onLine hI hc⟩⟩
  · obtain ⟨hI, hg⟩ := runs_inv h
    obtain ⟨hI', hg'⟩ := runs_inv h'
    rw [← hg, ← hg'] at he
    refine ⟨?_, ?_, ?_⟩
    · rw [hI.framed.seen, hI'.framed.seen, he]
    · rw [hI.framed.tail, hI'.framed.tail, he]
    · rw [hI.framed.bof, hI'.framed.bof, he]

/-- An exchange without instruments. -/
def sampleLoop : Loop Unit :=
  .lobot ⟨64, fun _ => 0, [], fun _ => ⟨0, nilOid⟩, fun _ _ w => .ok w, fun _ _ w => .ok w⟩

def sampleStart : Reading Unit := ⟨List.replicate 4032 0, 0, (), [], []⟩

def sampleLine : List UInt8 := bytes ['B', 'U', 'Y', '\t', 'I', '\t', '1', '\n']

/-- The same bytes cut in two ways. -/
theorem sampleLoop_framed : ∃ s s', sampleLoop.machine.Runs [sampleLine, sampleLine] s ∧
    sampleLoop.machine.Runs [sampleLine.take 3, sampleLine.drop 3 ++ sampleLine] s' ∧
    s.Framed ∧ s.seen = s'.seen := by
  obtain ⟨s, -, hs⟩ := Run.Machine.runs_of_exec sampleLoop.machine sampleStart
    [sampleLine, sampleLine] ⟨by decide +kernel, rfl, rfl, rfl⟩ (by decide +kernel)
  obtain ⟨s', -, hs'⟩ := Run.Machine.runs_of_exec sampleLoop.machine sampleStart
    [sampleLine.take 3, sampleLine.drop 3 ++ sampleLine] ⟨by decide +kernel, rfl, rfl, rfl⟩
    (by decide +kernel)
  obtain ⟨-, hf, hc⟩ := framed_iff sampleLoop
  exact ⟨s, s', hs, hs', (hf _ _ hs).2.1, (hc _ _ _ _ hs hs' (by decide)).1⟩

/-- A quantity whose rounding never ends. -/
def stuckLine : List UInt8 :=
  bytes (['B', 'U', 'Y', '\t', 'I', '\t', '-', '0', '.'] ++ List.replicate 15 '0' ++ ['5', '\n'])

/-- The line behind it is never handed to the decoder. -/
theorem stuckLine_lost : sampleLoop.machine.init sampleStart ∧
    sampleLoop.machine.allowed sampleStart (stuckLine ++ sampleLine) ∧
    (cut (ch '\n') (stuckLine ++ sampleLine)).1 = [stuckLine, sampleLine] ∧
    (sampleLoop.call (stuckLine ++ sampleLine) sampleStart).1 = [stuckLine] ∧
    ¬ ∃ s', sampleLoop.machine.step (stuckLine ++ sampleLine) sampleStart = .ok s' := by
  refine ⟨⟨by decide +kernel, rfl, rfl, rfl⟩, by decide +kernel, by decide +kernel,
    by decide +kernel, ?_⟩
  rintro ⟨s', hs⟩
  have h : (sampleLoop.machine.step (stuckLine ++ sampleLine) sampleStart).toBool = false := by
    decide +kernel
  rw [hs] at h
  cases h

end Unserlob
