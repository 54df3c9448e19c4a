import Unserlob.Channel.Framing
import Unserlob.Channel.Isolation
import Unserlob.Channel.Overrun
import Unserlob.Exchange.Routing
import Unserlob.Lol.Local
import Unserlob.Lol.Segments

/-!
# Bots and an exchange (`add_omsg`, `bot_send`, `data_cb`)

Any number of bots add messages and send them, and an exchange reads from them what has come so far, in
any order and however the bytes are cut.

* `Act`, `Exch.act`, `Exch.perform`: what a message asks of an exchange; `line_act`: what its line does;
* `Floor`, `Trading`, `floorMachine`: the exchange, its bots and the bytes between them;
* `Does`, `does_log`: what the lines of a bot come to; `call_does`: one read;
* `Trading.Inv`: the invariant; `add_inv`, `send_inv`, `read_inv`: the step lemmas;
* **`orders_serial`**: the exchange does what the bots asked for, one message after the other, those of
  each bot in the order they were added; none is lost, doubled or made up.
-/

namespace Unserlob

open Ascii Cursor Writer Lines

variable {W κ : Type}

/-! ## What a message asks for -/

/-- An order for the book of an instrument, or a cancellation. -/
inductive Act where
  | ord (ins : ℕ) (o : ClobOrd Decimal64)
  | can (ins : ℕ) (o : ClobOid Decimal64)

/-- What is asked for. -/
def Act.said : Act → ℕ × OSaid
  | .ord ins o => (ins, (OBody.ord o).said)
  | .can ins o => (ins, (OBody.can o).said)

/-- The test and the `switch` in `data_cb`. -/
def Exch.act (E : Exch W) (m : Omsg Decimal64) : Option Act :=
  if E.insth.length < hins E.hash E.insth m.ins then none
  else
    match m.body with
    | .ord o => some (.ord (hins E.hash E.insth m.ins) o)
    | .can o => some (.can (hins E.hash E.insth m.ins) o)
    | _ => none

/-- `omsg_add_ord` or `omsg_del_oid` -/
def Exch.perform (E : Exch W) : Act → W → Res W
  | .ord ins o, w => E.addOrd ins o w
  | .can ins o, w => E.delOid ins o w

/-- What a message asks of an exchange, if anything. -/
def Exch.asks (E : Exch W) (m : Omsg Decimal64) : Option (ℕ × OSaid) := (E.act m).map Act.said

theorem Exch.asks_congr (E : Exch W) {m m' : Omsg Decimal64} (h : m'.said = m.said) : E.asks m' = E.asks m := by
  obtain ⟨ins, b⟩ := m
  obtain ⟨ins', b'⟩ := m'
  obtain ⟨rfl, hb⟩ := Prod.mk.inj h
  unfold Exch.asks Exch.act
  split_ifs with hi
  · rfl
  · change b'.said = b.said at hb
    cases b <;> cases b' <;> simp only [OBody.said] at hb <;>
      first | rfl | exact congrArg some (Prod.ext rfl hb) | cases hb

/-- **The line of a message** does what the message asks for. -/
theorem line_act (E : Exch W) {p : Ptr} {n : ℕ} {s s' : List UInt8 × W} (h : E.line p n s = .ok s') :
    ∃ m, recvOmsg (E.stack s.2) p n = .ok m ∧ match E.act m with
      | none => s'.2 = s.2
      | some a => E.perform a s.2 = .ok s'.2 := by
  obtain ⟨m, hm, hb⟩ := bind_ok.mp h
  refine ⟨m, hm, ?_⟩
  unfold Exch.act
  simp only at hb
  split_ifs at hb ⊢ with hi
  · cases hb
    rfl
  · cases hbody : m.body <;> rw [hbody] at hb
    case ord o =>
      obtain ⟨w, hw, he⟩ := bind_ok.mp hb
      cases he
      exact hw
    case can o =>
      obtain ⟨w, hw, he⟩ := bind_ok.mp hb
      cases he
      exact hw
    all_goals
      cases hb
      rfl

/-! ## The floor -/

/-- The exchange as each of its clients meets it, the clients' buffers, and what there is of the world at
first. -/
structure Floor (κ W : Type) where
  exch : κ → Exch W
  layout : κ → Layout
  start : W

/-- What each bot has waiting, the bytes on their way, what the exchange has read from each, and the
world. -/
structure Trading (κ W : Type) where
  bots : κ → Bot
  wire : κ → List UInt8
  ends : κ → Reading W
  w : W

inductive FloorEvent (κ : Type) where
  | add (i : κ) (m : Omsg Decimal64)
  | send (i : κ)
  | read (i : κ) (n : ℕ)

/-- The loop that reads from a client. -/
def Floor.loop (F : Floor κ W) (i : κ) : Loop W := .lobot (F.exch i)

/-- What a bot has added. -/
def FloorEvent.added [DecidableEq κ] (i : κ) : FloorEvent κ → Option (Omsg Decimal64)
  | .add j m => if j = i then some m else none
  | _ => none

variable [DecidableEq κ]

/-- `add_omsg`, `bot_send` and `data_cb`, when it gets the next `n` bytes. -/
def FloorEvent.step (F : Floor κ W) : FloorEvent κ → Trading κ W → Res (Trading κ W)
  | .add i m, s => do
    let (_, b) ← addOmsg (F.layout i) m (s.bots i)
    pure { s with bots := Function.update s.bots i b }
  | .send i, s => do
    let (out, b) ← botSend (F.layout i) (s.bots i)
    pure { s with bots := Function.update s.bots i b, wire := Function.update s.wire i (s.wire i ++ out) }
  | .read i n, s => do
    let r ← ((F.loop i).call ((s.wire i).take n) { s.ends i with w := s.w }).2
    pure { s with
      wire := Function.update s.wire i ((s.wire i).drop n)
      ends := Function.update s.ends i r
      w := r.w }

/-- A message that may be sent, without a newline in it, for which there is room; and some of the bytes that
have come, at most what there is room for. -/
def FloorEvent.allowed (F : Floor κ W) (s : Trading κ W) : FloorEvent κ → Prop
  | .add i m => m.wire ∧ ch '\n' ∉ m.ins ∧ (s.bots i).Fits (F.layout i) m
  | .send _ => True
  | .read i n => 0 < n ∧ n ≤ (s.wire i).length ∧ n ≤ (F.loop i).size - (s.ends i).bof

/-- Nothing has been added, sent or read. -/
structure Trading.Fresh (F : Floor κ W) (s : Trading κ W) : Prop where
  bots : ∀ i, (s.bots i).mem.length = (F.layout i).bytes ∧ (s.bots i).mbof = 0
  wire : ∀ i, s.wire i = []
  ends : ∀ i, (F.loop i).machine.init (s.ends i)
  w : s.w = F.start

/-- The runs: the events of all clients in any order. -/
def floorMachine (F : Floor κ W) : Run.Machine (Trading κ W) (FloorEvent κ) where
  init s := s.Fresh F
  allowed s e := e.allowed F s
  step e s := e.step F s

/-- The messages a bot has added. -/
def added (i : κ) (es : List (FloorEvent κ)) : List (Omsg Decimal64) := es.filterMap (FloorEvent.added i)

/-- What the exchange has done, by whose order, and what each asked for. -/
abbrev Log (κ : Type) := List (κ × Act)

/-- What has been done for a client. -/
def Log.of (i : κ) (log : Log κ) : List (ℕ × OSaid) := (log.filter fun a => a.1 = i).map fun a => a.2.said

/-- The exchange has done what is in the log, one after the other. -/
def Floor.Done (F : Floor κ W) (log : Log κ) (w w' : W) : Prop :=
  Chain (fun a w w' => (F.exch a.1).perform a.2 w = .ok w') log w w'

/-! ## What the lines of a bot come to -/

/-- What a message does to the world. -/
def Does (E : Exch W) (m : Omsg Decimal64) (w w' : W) : Prop :=
  ∃ m', m'.said = m.said ∧ match E.act m' with
    | none => w' = w
    | some a => E.perform a w = .ok w'

/-- **What a list of messages does** is done one after the other, as asked. -/
theorem does_log {F : Floor κ W} {i : κ} {ms : List (Omsg Decimal64)} {w w' : W}
    (h : Chain (Does (F.exch i)) ms w w') : ∃ log : Log κ, F.Done log w w' ∧
      (∀ a ∈ log, a.1 = i) ∧ log.of i = ms.filterMap (F.exch i).asks := by
  induction ms generalizing w with
  | nil => exact ⟨[], h, nofun, rfl⟩
  | cons m ms ih =>
      obtain ⟨v, ⟨m', hsaid, hd⟩, h⟩ := h
      obtain ⟨log, hlog, hall, hof⟩ := ih h
      have hasks := (F.exch i).asks_congr hsaid
      cases ha : (F.exch i).act m' with
      | none =>
          rw [ha] at hd
          subst hd
          rw [Exch.asks, ha] at hasks
          exact ⟨log, hlog, hall, by rw [List.filterMap_cons_none hasks.symm, hof]⟩
      | some a =>
          rw [ha] at hd
          rw [Exch.asks, ha] at hasks
          refine ⟨(i, a) :: log, ⟨v, hd, hlog⟩, ?_, ?_⟩
          · exact List.forall_mem_cons.mpr ⟨rfl, hall⟩
          · rw [List.filterMap_cons_some hasks.symm, ← hof]
            simp [Log.of]

theorem line_stays (E : Exch W) {p : Ptr} {n : ℕ} {mem : List UInt8} {w : W} {x : List UInt8 × W}
    (h : E.line p n (mem, w) = .ok x) (r : Ptr) (mem' : List UInt8) :
    E.line (p ++ r) n (mem', w) = .ok (mem', x.2) := by
  obtain ⟨m, hm, hb⟩ := bind_ok.mp h
  have hm' : recvOmsg (E.stack w) (p ++ r) n = .ok m := (recvOmsg_stays (E.stack w) r p n (by rw [hm]; nofun)).trans hm
  refine bind_ok.mpr ⟨m, hm', ?_⟩
  simp only at hb ⊢
  split_ifs at hb ⊢ with hi
  · cases hb
    rfl
  · cases hbody : m.body <;> rw [hbody] at hb
    case ord o =>
      obtain ⟨w', hw, he⟩ := bind_ok.mp hb
      cases he
      exact bind_ok.mpr ⟨w', hw, rfl⟩
    case can o =>
      obtain ⟨w', hw, he⟩ := bind_ok.mp hb
      cases he
      exact bind_ok.mpr ⟨w', hw, rfl⟩
    all_goals
      cases hb
      rfl

/-- **The exchange gets through the messages**: their lines are dealt with one after the other, whatever lies behind
them, and what they ask for faults in none of the worlds that they meet. -/
def Exch.Serves (E : Exch W) : List (Omsg Decimal64) → W → Prop
  | [], _ => True
  | m :: ms, w => ∀ r mem, ∃ w', E.line (omsgText m ++ r) (omsgText m).length (mem, w) = .ok (mem, w') ∧ E.Serves ms w'

section Call

variable {E : Exch W} {s s' : Reading W} {chunk : List UInt8} {ms : List (Omsg Decimal64)}

theorem line_does {m : Omsg Decimal64} (hm : m.wire) {r : Ptr} {x x' : List UInt8 × W}
    (h : E.line (omsgText m ++ r) (omsgText m).length x = .ok x') : Does E m x.2 x'.2 := by
  obtain ⟨m', hr, hd⟩ := line_act E h
  obtain ⟨m₁, hr₁, hsaid⟩ := recvOmsg_omsgText (E.stack x.2) hm r
  rw [hr] at hr₁
  cases hr₁
  exact ⟨m', hsaid, hd⟩

variable (h : s.Inv (.lobot E)) (hc : (Loop.lobot E).machine.allowed s chunk)
  (hms : (cut (ch '\n') (s.tail ++ chunk)).1 = ms.map omsgText) (hw : ∀ m ∈ ms, m.wire)

include h hc hms hw

/-- **What a read does to the world** is what the messages on its lines do. -/
theorem call_does (hs : ((Loop.lobot E).call chunk s).2 = .ok s') : Chain (Does E) ms s.w s'.w := by
  obtain ⟨hbof, hr⟩ := h.reads hc
  rw [Loop.call, hbof, readLines_eq (Loop.left_or _) hr] at hs
  obtain ⟨x, hx, he⟩ := map_ok.mp hs
  obtain ⟨y, hy, hxy⟩ := map_ok.mp hx
  subst he hxy
  have hchain : Chain (fun l (x x' : List UInt8 × W) => ∀ m, m.wire → l = omsgText m → Does E m x.2 x'.2)
      (ms.map omsgText) (putChunk 0 s.tail.length chunk s.mem, s.w) y := ?_
  · exact hchain.image (R := Does E) (g := Prod.snd) fun m hm x x' hq => hq m (hw m hm) rfl
  rw [← hms]
  refine handAll_chain (p := []) (T := s.tail ++ chunk) (t := (cut (ch '\n') (s.tail ++ chunk)).2)
    (fun z hz => (hr.front z hz).1) hr.keeps ?_ ?_ hr.init hy
  · intro l _ r z z' _ hl m hm he
    subst he
    exact line_does hm hl
  · rw [List.nil_append, cut_flatten]

omit hw in
/-- **A read goes through** if the exchange gets through the messages on its lines, and then it gets through those
behind them. -/
theorem call_serves {rest : List (Omsg Decimal64)} (hE : E.Serves (ms ++ rest) s.w) :
    ∃ s', ((Loop.lobot E).call chunk s).2 = .ok s' ∧ E.Serves rest s'.w := by
  obtain ⟨hbof, hr⟩ := h.reads hc
  have hG : ∀ (l : List UInt8) (ls : List (List UInt8)) (r : Ptr) (x : List UInt8 × W),
      (∃ ms' : List (Omsg Decimal64), l :: ls = ms'.map omsgText ∧ E.Serves (ms' ++ rest) x.2) →
      ∃ x', E.line (l ++ r) l.length x = .ok x' ∧
        ∃ ms' : List (Omsg Decimal64), ls = ms'.map omsgText ∧ E.Serves (ms' ++ rest) x'.2 := by
    rintro l ls r x ⟨ms', he, hserves⟩
    obtain ⟨m, ms', rfl, rfl, rfl⟩ := List.map_eq_cons_iff.mp he.symm
    obtain ⟨w', hl, hserves⟩ := hserves r x.1
    exact ⟨(x.1, w'), hl, ms', rfl, hserves⟩
  obtain ⟨y, hy, ms', hnil, hrest⟩ := handAll_goes (p := []) (T := s.tail ++ chunk)
    (t := (cut (ch '\n') (s.tail ++ chunk)).2)
    (G := fun ls x => ∃ ms' : List (Omsg Decimal64), ls = ms'.map omsgText ∧ E.Serves (ms' ++ rest) x.2)
    (fun z hz => (hr.front z hz).1) hr.keeps (fun l ls r x _ => hG l ls r x)
    (by rw [List.nil_append, cut_flatten]) hr.init ⟨ms, hms, hE⟩
  rw [List.map_eq_nil_iff.mp hnil.symm, List.nil_append] at hrest
  rw [Loop.call, hbof, readLines_eq (Loop.left_or _) hr]
  exact ⟨_, map_ok.mpr ⟨_, map_ok.mpr ⟨y, hy, rfl⟩, rfl⟩, hrest⟩

end Call

/-! ## The steps -/

variable {F : Floor κ W} {es : List (FloorEvent κ)} {s s' : Trading κ W} {i : κ}

/-- What holds between two events. -/
structure Trading.Inv (F : Floor κ W) (es : List (FloorEvent κ)) (s : Trading κ W) : Prop where
  bot : ∀ i, (s.bots i).Ok (F.layout i)
  ends : ∀ i, (s.ends i).Inv (F.loop i)
  stream : ∀ i, (s.ends i).got ++ (s.wire i ++ (s.bots i).out (F.layout i)) =
    ((added i es).map omsgText).flatten
  sound : ∀ i, ∀ m ∈ added i es, m.wire ∧ ch '\n' ∉ m.ins
  done : ∃ log : Log κ, F.Done log F.start s.w ∧
    ∀ i, log.of i = ((added i es).take (s.ends i).seen.length).filterMap (F.exch i).asks

theorem isSegment_wire {m : Omsg Decimal64} (h : m.wire ∧ ch '\n' ∉ m.ins) :
    IsSegment (ch '\n') (omsgText m) :=
  isSegment_omsgText h.2 fun hu => by
    have hb := h.1.body
    rw [hu] at hb
    exact hb

theorem added_concat (i : κ) (es : List (FloorEvent κ)) (e : FloorEvent κ) :
    added i (es ++ [e]) = added i es ++ (e.added i).toList := by
  rw [added, List.filterMap_append, List.filterMap_cons, List.filterMap_nil]
  cases e.added i <;> rfl

theorem Trading.Inv.segments (h : s.Inv F es) (i : κ) :
    ∀ l ∈ (added i es).map omsgText, IsSegment (ch '\n') l := by
  intro l hl
  obtain ⟨m, hm, rfl⟩ := List.mem_map.mp hl
  exact isSegment_wire (h.sound i m hm)

/-- **What the exchange has of a bot's messages**: the first of them, and a part of the next. -/
theorem Trading.Inv.received (h : s.Inv F es) (i : κ) : ∃ front rest, added i es = front ++ rest ∧
    (s.ends i).seen = front.map omsgText ∧
    (s.ends i).tail ++ (s.wire i ++ (s.bots i).out (F.layout i)) = (rest.map omsgText).flatten ∧
    ∀ m ∈ rest.head?, (s.ends i).tail.length < (omsgText m).length := by
  obtain ⟨front, rest, hsplit, hcut, hrest, hhead⟩ := cut_received (h.segments i) (h.stream i)
  obtain ⟨ms, ms', he, rfl, rfl⟩ := List.map_eq_append_iff.mp hsplit
  rw [← (h.ends i).framed.tail] at hrest hhead
  refine ⟨ms, ms', he, ?_, hrest, fun m hm => hhead _ ?_⟩
  · rw [(h.ends i).framed.seen, hcut]
  · rw [List.head?_map, hm]
    rfl

theorem fresh_inv (h : s.Fresh F) : s.Inv F [] where
  bot i := ⟨(h.bots i).1, by rw [(h.bots i).2]; exact Nat.zero_le _⟩
  ends i := start_inv (h.ends i)
  stream i := by
    rw [(h.ends i).2.2.1, h.wire i, Bot.out, (h.bots i).2, slice, List.take_zero]
    rfl
  sound i := nofun
  done := ⟨[], h.w, fun i => by rw [added, List.filterMap_nil, List.take_nil]; rfl⟩

theorem add_inv (h : s.Inv F es) {m : Omsg Decimal64} (ha : (FloorEvent.add i m).allowed F s)
    (hs : (FloorEvent.add i m).step F s = .ok s') : s'.Inv F (es ++ [.add i m]) := by
  obtain ⟨hw, hnl, hfit⟩ := ha
  have hu : m.body ≠ .unk := fun hu => by
    have hb := hw.body
    rw [hu] at hb
    exact hb
  obtain ⟨b, hb, -, hok, -, hout⟩ := addOmsg_fit (h.bot i) hfit
  rw [if_neg hu] at hout
  simp only [FloorEvent.step, hb, bind, Except.bind] at hs
  cases hs
  have hadd : ∀ j, added j (es ++ [.add i m]) = added j es ++ if i = j then [m] else [] := by
    intro j
    rw [added_concat, FloorEvent.added]
    split_ifs <;> rfl
  refine ⟨fun j => ?_, h.ends, fun j => ?_, fun j m' hm => ?_, ?_⟩
  · exact (Function.forall_update_iff s.bots fun j b => b.Ok (F.layout j)).mpr ⟨hok, fun j _ => h.bot j⟩ j
  · rw [hadd]
    dsimp only
    by_cases hj : j = i
    · subst hj
      rw [Function.update_self, hout, if_pos rfl, List.map_append, List.flatten_append, ← h.stream j]
      simp
    · rw [Function.update_of_ne hj, if_neg (Ne.symm hj), List.append_nil]
      exact h.stream j
  · rw [hadd, List.mem_append] at hm
    rcases hm with hm | hm
    · exact h.sound j m' hm
    · split_ifs at hm
      · rw [List.mem_singleton.mp hm]
        exact ⟨hw, hnl⟩
      · cases hm
  · obtain ⟨log, hlog, hof⟩ := h.done
    refine ⟨log, hlog, fun j => ?_⟩
    -- what has been seen is among what had been added before
    obtain ⟨front, rest, he, hseen, -⟩ := h.received j
    dsimp only
    rw [hof, hadd, he, hseen, List.length_map, List.append_assoc, List.take_left, List.take_left]

theorem send_inv (h : s.Inv F es) (hs : (FloorEvent.send i).step F s = .ok s') :
    s'.Inv F (es ++ [.send i]) := by
  have hb := botSend_eq (h.bot i)
  have hok : Bot.Ok (F.layout i) ⟨(s.bots i).mem, 0⟩ := ⟨(h.bot i).length, Nat.zero_le _⟩
  simp only [FloorEvent.step, hb, bind, Except.bind] at hs
  cases hs
  have hadd : ∀ j, added j (es ++ [.send i]) = added j es := fun j => by
    rw [added_concat]
    exact List.append_nil _
  refine ⟨fun j => ?_, h.ends, fun j => ?_, fun j m hm => h.sound j m (hadd j ▸ hm), ?_⟩
  · exact (Function.forall_update_iff s.bots fun j b => b.Ok (F.layout j)).mpr
      ⟨hok, fun j _ => h.bot j⟩ j
  · rw [hadd]
    dsimp only
    by_cases hj : j = i
    · subst hj
      rw [Function.update_self, Function.update_self, ← h.stream j]
      simp [Bot.out, slice]
    · rw [Function.update_of_ne hj, Function.update_of_ne hj]
      exact h.stream j
  · obtain ⟨log, hlog, hof⟩ := h.done
    exact ⟨log, hlog, fun j => by rw [hof, hadd]⟩

section Read

variable {n : ℕ}

theorem Trading.Inv.end_inv (h : s.Inv F es) (i : κ) :
    Reading.Inv (F.loop i) { s.ends i with w := s.w } :=
  ⟨⟨(h.ends i).framed.seen, (h.ends i).framed.tail, (h.ends i).framed.bof⟩, (h.ends i).length⟩

omit [DecidableEq κ] in
theorem read_allowed (ha : (FloorEvent.read i n).allowed F s) :
    (F.loop i).machine.allowed { s.ends i with w := s.w } ((s.wire i).take n) := by
  obtain ⟨hpos, hle, hroom⟩ := ha
  have hlen : ((s.wire i).take n).length = n := List.length_take_of_le hle
  exact ⟨List.length_pos_iff.mp (hlen.trans_gt hpos), hlen.trans_le hroom⟩

/-- **The lines that end in a read** are the next messages of the bot. -/
theorem Trading.Inv.next (h : s.Inv F es) (i : κ) (n : ℕ) : ∃ front mid rest,
    added i es = front ++ (mid ++ rest) ∧ (s.ends i).seen = front.map omsgText ∧
    (cut (ch '\n') ((s.ends i).tail ++ (s.wire i).take n)).1 = mid.map omsgText ∧
    (∀ m ∈ mid, m.wire) := by
  have hcat : (s.ends i).got ++ (s.wire i).take n ++ ((s.wire i).drop n ++ (s.bots i).out (F.layout i)) =
      ((added i es).map omsgText).flatten := by
    rw [← h.stream i, List.append_assoc, ← List.append_assoc (List.take n _), List.take_append_drop]
  obtain ⟨ls, ls', hsplit, hcut⟩ := cut_next (h.segments i) hcat
  obtain ⟨front, more, he, hfront, hmore⟩ := List.map_eq_append_iff.mp hsplit
  obtain ⟨mid, rest, rfl, hmid, rfl⟩ := List.map_eq_append_iff.mp hmore
  refine ⟨front, mid, rest, he, ?_, ?_, fun m hm => (h.sound i m ?_).1⟩
  · rw [hfront, (h.ends i).framed.seen]
  · rw [(h.ends i).framed.tail, hcut, hmid]
  · rw [he]
    exact List.mem_append_right front (List.mem_append_left rest hm)

theorem read_inv (h : s.Inv F es) (ha : (FloorEvent.read i n).allowed F s)
    (hs : (FloorEvent.read i n).step F s = .ok s') : s'.Inv F (es ++ [.read i n]) := by
  obtain ⟨r, hr, he⟩ := bind_ok.mp hs
  cases he
  have hal := read_allowed ha
  obtain ⟨hI, hgot⟩ := call_inv (h.end_inv i) hal hr
  obtain ⟨front, mid, rest, hsplit, hseen, hcut, hmid⟩ := h.next i n
  have hseen' : r.seen = (front ++ mid).map omsgText := by
    rw [hI.framed.seen, hgot, (h.end_inv i).got, List.map_append]
    exact congrArg₂ _ hseen hcut
  have hadd : ∀ j, added j (es ++ [.read i n]) = added j es := fun j => by
    rw [added_concat]
    exact List.append_nil _
  refine ⟨h.bot, fun j => ?_, fun j => ?_, fun j m hm => h.sound j m (hadd j ▸ hm), ?_⟩
  · exact (Function.forall_update_iff s.ends fun j x => x.Inv (F.loop j)).mpr ⟨hI, fun j _ => h.ends j⟩ j
  · rw [hadd, ← h.stream j]
    dsimp only
    by_cases hj : j = i
    · subst hj
      rw [Function.update_self, Function.update_self, hgot, List.append_assoc, ← List.append_assoc (List.take n _),
        List.take_append_drop]
    · rw [Function.update_of_ne hj, Function.update_of_ne hj]
  · obtain ⟨log, hlog, hof⟩ := h.done
    obtain ⟨more, hmore, hall, hofm⟩ := does_log (call_does (h.end_inv i) hal hcut hmid hr)
    refine ⟨log ++ more, chain_append.mpr ⟨s.w, hlog, hmore⟩, fun j => ?_⟩
    have happ : (log ++ more).of j = log.of j ++ more.of j := by
      simp [Log.of, List.filter_append]
    rw [hadd, happ, hof]
    dsimp only
    by_cases hj : j = i
    · subst hj
      rw [Function.update_self, hofm, hseen', hseen, hsplit, ← List.append_assoc, List.length_map,
        List.length_map, List.take_left, List.append_assoc, List.take_left, List.filterMap_append]
    · have hnone : more.of j = [] := by
        rw [Log.of, List.filter_eq_nil_iff.mpr fun a ha => ?_]
        · rfl
        · rw [hall a ha, decide_eq_true_iff]
          exact Ne.symm hj
      rw [Function.update_of_ne hj, hnone, List.append_nil]

end Read

/-! ## Runs -/

theorem floor_inv (h : (floorMachine F).Runs es s) : s.Inv F es := by
  refine h.inv_events (P := fun es s => s.Inv F es) (fun s hs => fresh_inv hs) ?_
  intro es s e s' hI ha hs
  cases e with
  | add i m => exact add_inv hI ha hs
  | send i => exact send_inv hI hs
  | read i n => exact read_inv hI ha hs

/-- Nothing of the bot's is waiting or on its way. -/
def Trading.Idle (s : Trading κ W) (i : κ) : Prop := (s.bots i).mbof = 0 ∧ s.wire i = []

theorem Trading.Inv.idle (h : s.Inv F es) (hi : s.Idle i) : (s.ends i).seen = (added i es).map omsgText ∧
    (s.ends i).bof = 0 := by
  obtain ⟨front, rest, he, hseen, hrest, hhead⟩ := h.received i
  rw [Bot.out, hi.1, hi.2, slice, List.take_zero, List.append_nil, List.append_nil] at hrest
  cases rest with
  | nil =>
      refine ⟨by rw [he, List.append_nil, hseen], ?_⟩
      rw [(h.ends i).framed.bof, ← (h.ends i).framed.tail, hrest]
      rfl
  | cons m rest =>
      -- a part of a message that is not all of it
      have hlt := hhead m rfl
      rw [hrest, List.map_cons, List.flatten_cons, List.length_append] at hlt
      omega

/-! ## Progress -/

section Progress

theorem add_goes (h : s.Inv F es) {m : Omsg Decimal64} (ha : (FloorEvent.add i m).allowed F s) :
    ∃ s', (FloorEvent.add i m).step F s = .ok s' := by
  obtain ⟨b, hb, -⟩ := addOmsg_fit (h.bot i) ha.2.2
  exact ⟨{ s with bots := Function.update s.bots i b }, by simp only [FloorEvent.step, hb]; rfl⟩

theorem send_goes (h : s.Inv F es) (i : κ) : ∃ s', (FloorEvent.send i).step F s = .ok s' ∧
    (s'.bots i).mbof = 0 ∧ s'.ends = s.ends ∧ s'.w = s.w := by
  refine ⟨{ s with
    bots := Function.update s.bots i ⟨(s.bots i).mem, 0⟩
    wire := Function.update s.wire i (s.wire i ++ (s.bots i).out (F.layout i)) }, ?_, ?_, rfl, rfl⟩
  · simp only [FloorEvent.step, botSend_eq (h.bot i)]
    rfl
  · dsimp only
    rw [Function.update_self]

/-- The messages of a bot of which the exchange has not seen the whole line yet. -/
def Trading.pending (s : Trading κ W) (i : κ) (es : List (FloorEvent κ)) : List (Omsg Decimal64) :=
  (added i es).drop (s.ends i).seen.length

theorem added_send (i j : κ) (es : List (FloorEvent κ)) : added j (es ++ [.send i]) = added j es := by
  rw [added_concat]
  exact List.append_nil _

theorem added_read (i j : κ) (n : ℕ) (es : List (FloorEvent κ)) : added j (es ++ [.read i n]) = added j es := by
  rw [added_concat]
  exact List.append_nil _

/-- **There is room for the next byte**, and it is read. -/
theorem read_goes (h : s.Inv F es) (hne : s.wire i ≠ []) (hE : (F.exch i).Serves (s.pending i es) s.w)
    (hfit : ∀ m ∈ added i es, (omsgText m).length ≤ (F.loop i).size) : (FloorEvent.read i 1).allowed F s ∧
    ∃ s', (FloorEvent.read i 1).step F s = .ok s' ∧ s'.wire i = (s.wire i).drop 1 ∧ s'.bots = s.bots ∧
      (F.exch i).Serves (s'.pending i (es ++ [.read i 1])) s'.w := by
  obtain ⟨front, rest, he, -, hrest, hhead⟩ := h.received i
  have hpos := List.length_pos_iff.mpr hne
  have hbof : (s.ends i).bof = (s.ends i).tail.length := by
    rw [(h.ends i).framed.bof, (h.ends i).framed.tail]
  have hroom : (s.ends i).bof < (F.loop i).size := by
    cases rest with
    | nil =>
        have hlen := congrArg List.length hrest
        rw [List.length_append, List.length_append, List.map_nil, List.flatten_nil, List.length_nil] at hlen
        omega
    | cons m rest =>
        have hlt := hhead m rfl
        have hle := hfit m (by rw [he]; exact List.mem_append_right front List.mem_cons_self)
        omega
  have ha : (FloorEvent.read i 1).allowed F s := ⟨Nat.one_pos, hpos, by omega⟩
  obtain ⟨front, mid, rest, hsplit, hseen, hcut, hmid⟩ := h.next i 1
  have hpending : s.pending i es = mid ++ rest := by
    rw [Trading.pending, hsplit, hseen, List.length_map, List.drop_left]
  rw [hpending] at hE
  have hal := read_allowed ha
  obtain ⟨r, hr, hserves⟩ := call_serves (h.end_inv i) hal hcut hE
  have hr : ((F.loop i).call ((s.wire i).take 1) { s.ends i with w := s.w }).2 = .ok r := hr
  refine ⟨ha, { s with
    wire := Function.update s.wire i ((s.wire i).drop 1)
    ends := Function.update s.ends i r
    w := r.w }, ?_, ?_, rfl, ?_⟩
  · simp only [FloorEvent.step, hr]
    rfl
  · dsimp only
    rw [Function.update_self]
  · obtain ⟨hI, hgot⟩ := call_inv (h.end_inv i) hal hr
    have hseen' : r.seen = (front ++ mid).map omsgText := by
      rw [hI.framed.seen, hgot, (h.end_inv i).got, List.map_append]
      exact congrArg₂ _ hseen hcut
    rw [Trading.pending, added_read]
    dsimp only
    rw [Function.update_self, hseen', List.length_map, hsplit, ← List.append_assoc, List.drop_left]
    exact hserves

theorem wire_drains {n : ℕ} (hn : (s.wire i).length = n) (hb : (s.bots i).mbof = 0)
    (hE : (F.exch i).Serves (s.pending i es) s.w) (hfit : ∀ m ∈ added i es, (omsgText m).length ≤ (F.loop i).size)
    (h : (floorMachine F).Runs es s) : ∃ es' s', (floorMachine F).Runs (es ++ es') s' ∧
      (∀ j, added j es' = []) ∧ s'.Idle i := by
  induction n generalizing es s with
  | zero => exact ⟨[], s, by rwa [List.append_nil], fun _ => rfl, hb, List.length_eq_zero_iff.mp hn⟩
  | succ n ih =>
      have hne : s.wire i ≠ [] := fun he => by
        rw [he] at hn
        cases hn
      obtain ⟨ha, s₁, hs, hw, hbots, hE₁⟩ := read_goes (floor_inv h) hne hE hfit
      have hr₁ : (floorMachine F).Runs (es ++ [.read i 1]) s₁ := h.next ha hs
      obtain ⟨es', s', hr, hnone, hi⟩ := ih (by rw [hw, List.length_drop, hn, Nat.add_sub_cancel])
        (by rw [hbots]; exact hb) hE₁ (by rw [added_read]; exact hfit) hr₁
      rw [List.append_assoc] at hr
      exact ⟨_, s', hr, fun j => hnone j, hi⟩

end Progress

/-! ## A sample -/

/-- One of the exchanges, with an empty book. -/
def sampleExch : Exch (Books (List (ClobOrd Decimal64))) :=
  Daemon.lobot.exch listClob sampleInstruments (sampleClient [])

def sampleFloor : Floor Bool (Books (List (ClobOrd Decimal64))) :=
  ⟨fun _ => sampleExch, fun _ => sampleLayout, ⟨[[]], []⟩⟩

def freshTrading : Trading Bool (Books (List (ClobOrd Decimal64))) :=
  ⟨fun _ => ⟨List.replicate 7680 0, 0⟩, fun _ => [], fun _ => ⟨List.replicate 4032 0, 0, ⟨[[]], []⟩, [], []⟩, ⟨[[]], []⟩⟩

theorem freshTrading_fresh : freshTrading.Fresh sampleFloor where
  bots _ := ⟨List.length_replicate, rfl⟩
  wire _ := rfl
  ends _ := ⟨List.length_replicate, rfl, rfl, rfl⟩
  w := rfl

theorem sampleFloor_runs : ∃ s, (floorMachine sampleFloor).Runs [.add true sampleOrder, .add false sampleOrder] s ∧
    (s.ends true).seen = [] ∧ s.w = ⟨[[]], []⟩ := by
  have h : (floorMachine sampleFloor).Runs [] freshTrading := .start freshTrading_fresh
  have hfit : Bot.Fits sampleLayout sampleOrder ⟨List.replicate 7680 0, 0⟩ := by decide +kernel
  have ha : (FloorEvent.add true sampleOrder).allowed sampleFloor freshTrading :=
    ⟨sampleOrder_wire, by decide, hfit⟩
  obtain ⟨s, hs⟩ := add_goes (floor_inv h) ha
  obtain ⟨x, -, he⟩ := bind_ok.mp hs
  have ha' : (FloorEvent.add false sampleOrder).allowed sampleFloor s := by
    cases he
    exact ⟨sampleOrder_wire, by decide, hfit⟩
  have h' : (floorMachine sampleFloor).Runs [.add true sampleOrder] s := h.next ha hs
  obtain ⟨s', hs'⟩ := add_goes (floor_inv h') ha'
  obtain ⟨x', -, he'⟩ := bind_ok.mp hs'
  refine ⟨s', h'.next ha' hs', ?_⟩
  cases he'
  cases he
  exact ⟨rfl, rfl⟩

/-! ## Orders -/

/-- **Nothing is stuck.** Wherever the run is, without anything being added a bot's messages may all be done, if
they are no longer than the exchange's buffer and it gets through those of which it has not seen the whole line yet. -/
theorem orders_drain (hE : (F.exch i).Serves (s.pending i es) s.w)
    (hfit : ∀ m ∈ added i es, (omsgText m).length ≤ (F.loop i).size) (h : (floorMachine F).Runs es s) :
    ∃ es' s', (floorMachine F).Runs (es ++ es') s' ∧ (∀ j, added j es' = []) ∧
      ∃ log : Log κ, F.Done log F.start s'.w ∧ log.of i = (added i es).filterMap (F.exch i).asks := by
  obtain ⟨s₁, hs, hb, hends, hw⟩ := send_goes (floor_inv h) i
  have hr₁ : (floorMachine F).Runs (es ++ [.send i]) s₁ :=
    h.next (show FloorEvent.allowed F s (.send i) from trivial) hs
  have hE₁ : (F.exch i).Serves (s₁.pending i (es ++ [.send i])) s₁.w := by
    rw [Trading.pending, added_send, hends, hw]
    exact hE
  obtain ⟨es', s', hr, hnone, hi⟩ := wire_drains rfl hb hE₁ (by rw [added_send]; exact hfit) hr₁
  have hI := floor_inv hr
  obtain ⟨log, hlog, hof⟩ := hI.done
  have hall : added i (es ++ [.send i] ++ es') = added i es := by
    rw [added, List.filterMap_append]
    change added i (es ++ [.send i]) ++ added i es' = _
    rw [added_send, hnone, List.append_nil]
  rw [List.append_assoc] at hr
  refine ⟨_, s', hr, fun j => hnone j, log, hlog, ?_⟩
  rw [hof, (hI.idle hi).1, hall, List.length_map, List.take_length]

theorem sampleExch_serves : sampleExch.Serves [sampleOrder] ⟨[[]], []⟩ := by
  have hline :
      (sampleExch.line (omsgText sampleOrder) (omsgText sampleOrder).length ([], ⟨[[]], []⟩)).toBool = true := by
    decide +kernel
  intro r mem
  cases hl : sampleExch.line (omsgText sampleOrder) (omsgText sampleOrder).length ([], ⟨[[]], []⟩) with
  | error e =>
      rw [hl] at hline
      cases hline
  | ok x => exact ⟨x.2, line_stays sampleExch hl r mem, trivial⟩

/-- The order of one of the two may be done. -/
theorem orders_drain_one : ∃ s, (floorMachine sampleFloor).Runs [.add true sampleOrder, .add false sampleOrder] s ∧
    ∃ es s', (floorMachine sampleFloor).Runs ([.add true sampleOrder, .add false sampleOrder] ++ es) s' ∧
      (∀ j, added j es = []) ∧ ∃ log : Log Bool, sampleFloor.Done log ⟨[[]], []⟩ s'.w ∧
        log.of true = [sampleOrder].filterMap sampleExch.asks := by
  obtain ⟨s, hs, hseen, hw⟩ := sampleFloor_runs
  have hE : sampleExch.Serves (s.pending true [.add true sampleOrder, .add false sampleOrder]) s.w := by
    rw [Trading.pending, hseen, hw]
    exact sampleExch_serves
  exact ⟨s, hs, orders_drain (i := true) hE (by decide +kernel) hs⟩

end Unserlob
