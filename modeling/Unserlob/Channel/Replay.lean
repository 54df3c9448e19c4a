import Unserlob.Channel.Isolation
import Unserlob.Lol.Segments

/-!
# What a bot hears and says (`bot.c`)

A bot that keeps to its buffers does what its callbacks do with the messages alone: how the lines of the
two channels are cut into chunks, and in which order its buffers fill, makes no difference.

* `Prog.last`, `Prog.adds`: what a callback comes to, without buffers; **`run_plain`**;
* `Input`, `Callbacks.play`: the callbacks on messages; `play_append`;
* `Pend.said`: the bytes a bot has sent or has waiting; `Omsg.Reads`, `Heard`: what a line comes to;
* `recv_chain`, `recv_heard`: one read; `Tap.Played`: what is kept; `event_played`, `runs_played`;
* **`tap_played`**: in every run there is a list of messages and ticks that the bot has dealt with.
-/

namespace Unserlob

open Ascii Cursor Writer Lines

variable {U : Type} {L : Layout}

/-! ## Callbacks without buffers -/

/-- The state a callback ends with. -/
def Prog.last : Prog U → U
  | .done u => u
  | .add m k => (k (if m.body = .unk then -1 else 0)).last
  | .send k => k.last

/-- The messages a callback adds. -/
def Prog.adds : Prog U → List (Omsg Decimal64)
  | .done _ => []
  | .add m k => if m.body = .unk then (k (-1)).adds else m :: (k 0).adds
  | .send k => k.adds

/-- The bytes given to `send` and those waiting. -/
def Pend.said (w : Pend U) : List UInt8 := (w.sends.map Prod.fst).flatten ++ w.added

/-- The texts of messages, one behind the other. -/
def textOf (ms : List (Omsg Decimal64)) : List UInt8 := (ms.map omsgText).flatten

theorem textOf_append (ms ms' : List (Omsg Decimal64)) : textOf (ms ++ ms') = textOf ms ++ textOf ms' := by
  rw [textOf, List.map_append, List.flatten_append]
  rfl

/-- **A callback on the block** ends with the same state as without, and puts the texts of its messages
behind what has been said. -/
theorem run_plain (P : Prog U) : ∀ s s' : List UInt8 × Pend U, Pend.Ok L s → P.run L s = .ok s' →
    s'.2.user = P.last ∧ s'.2.said = s.2.said ++ textOf P.adds := by
  induction P with
  | done u =>
      rintro ⟨mem, w⟩ s' h hs
      cases hs
      exact ⟨rfl, (List.append_nil _).symm⟩
  | add m k ih =>
      rintro ⟨mem, w⟩ s' h hs
      have hfit : Bot.Fits L m ⟨mem, w.mbof⟩ := by
        obtain ⟨hv, hn, -⟩ := (Prog.run_ok_iff h).mpr ⟨s', hs⟩
        exact ⟨hv, hn⟩
      obtain ⟨b, hb, hfr, hok, hn, hout⟩ := addOmsg_fit h.bot hfit
      have hadd : w.added = Bot.out L ⟨mem, w.mbof⟩ := h.added
      rw [← hadd] at hout
      rw [Prog.run, hb] at hs
      by_cases hu : m.body = .unk
      · simp only [if_pos hu, bind, Except.bind] at hs hout
        rw [List.append_nil] at hout
        change (k (-1)).run L (b.mem, ⟨w.user, b.mbof, w.added, w.sends⟩) = .ok s' at hs
        obtain ⟨hlast, hsaid⟩ := ih (-1) (b.mem, ⟨w.user, b.mbof, w.added, w.sends⟩) s' ⟨hok, hout.symm, h.sends⟩ hs
        rw [Prog.last, Prog.adds, if_pos hu, if_pos hu]
        exact ⟨hlast, hsaid⟩
      · simp only [if_neg hu, bind, Except.bind] at hs hout
        change (k 0).run L (b.mem, ⟨w.user, b.mbof, w.added ++ omsgText m, w.sends⟩) = .ok s' at hs
        obtain ⟨hlast, hsaid⟩ := ih 0 (b.mem, ⟨w.user, b.mbof, w.added ++ omsgText m, w.sends⟩) s'
          ⟨hok, hout.symm, h.sends⟩ hs
        rw [Prog.last, Prog.adds, if_neg hu, if_neg hu]
        refine ⟨hlast, hsaid.trans ?_⟩
        simp [Pend.said, textOf]
  | send k ih =>
      rintro ⟨mem, w⟩ s' h hs
      rw [Prog.run, botSend_eq h.bot] at hs
      simp only [bind, Except.bind] at hs
      have hadd : w.added = Bot.out L ⟨mem, w.mbof⟩ := h.added
      have hok : Pend.Ok L (mem, ⟨w.user, 0, [], w.sends ++ [(Bot.out L ⟨mem, w.mbof⟩, w.added)]⟩) := by
        refine ⟨⟨h.bot.length, Nat.zero_le _⟩, rfl, fun x hx => ?_⟩
        rcases List.mem_append.mp hx with hx | hx
        · exact h.sends x hx
        · rw [List.mem_singleton.mp hx]
          exact hadd.symm
      obtain ⟨hlast, hsaid⟩ := ih _ s' hok hs
      refine ⟨hlast, hsaid.trans ?_⟩
      simp [Pend.said, Prog.adds, hadd]

/-! ## Messages and ticks -/

/-- What a bot hears. -/
inductive Input where
  | och (m : Omsg Decimal64)
  | qch (m : Qmsg Decimal64)
  | timer

/-- The callback for it. -/
def Callbacks.prog (C : Callbacks U) : Input → U → Prog U
  | .och m, u => C.ochan m u
  | .qch m, u => C.qchan m u
  | .timer, u => C.timer u

/-- **What a bot does with what it hears**, one after the other: its state and its messages. -/
def Callbacks.play (C : Callbacks U) : List Input → U → U × List (Omsg Decimal64)
  | [], u => (u, [])
  | x :: xs, u =>
    let r := C.play xs (C.prog x u).last
    (r.1, (C.prog x u).adds ++ r.2)

theorem play_append (C : Callbacks U) (xs ys : List Input) (u : U) : C.play (xs ++ ys) u =
    ((C.play ys (C.play xs u).1).1, (C.play xs u).2 ++ (C.play ys (C.play xs u).1).2) := by
  induction xs generalizing u with
  | nil => rfl
  | cons x xs ih =>
      rw [List.cons_append, Callbacks.play, ih, Callbacks.play]
      simp only [List.append_assoc]

/-- What has come on the order channel. -/
def Input.omsg : Input → Option (Omsg Decimal64)
  | .och m => some m
  | _ => none

/-- What has come on the quote channel. -/
def Input.saidQ : Input → Option (List UInt8 × QSaid)
  | .qch m => some m.said
  | _ => none

/-- The bytes an event brings on the order channel. -/
def TapEvent.ochBytes : TapEvent → List UInt8
  | .och chunk => chunk
  | _ => []

/-- The bytes an event brings on the quote channel. -/
def TapEvent.qchBytes : TapEvent → List UInt8
  | .qch chunk => chunk
  | _ => []

/-- An event makes a bot hear messages of its channel only; a tick is heard once. -/
def TapEvent.Hears : TapEvent → List Input → Prop
  | .och _, xs => ∃ ms : List (Omsg Decimal64), xs = ms.map .och
  | .qch _, xs => ∃ ms : List (Qmsg Decimal64), xs = ms.map .qch
  | .timer, xs => xs = [.timer]

/-! ## Steps -/

variable {C : Callbacks U}

/-- What a line comes to: a message that may be read of it is heard. -/
def Heard {M : Type} (C : Callbacks U) (input : M → Input) (R : M → M → Prop) (m : M) (w w' : Pend U) : Prop :=
  ∃ m', R m m' ∧ w'.user = (C.prog (input m') w.user).last ∧
    w'.said = w.said ++ textOf (C.prog (input m') w.user).adds

/-- A fill of an order without a number, which is sent without an order id. -/
def OBody.bare : OBody Decimal64 → Prop
  | .fil fid exe _ => fid.qid = 0 ∧ exe.qty.wire ∧ exe.prc.wire
  | _ => False

/-- An order message that comes as it was sent, but for the order id of a fill that is sent without one. -/
structure OmsgLine (m : Omsg Decimal64) : Prop where
  tab : ch '\t' ∉ m.ins
  newline : ch '\n' ∉ m.ins
  body : m.body.wire ∨ m.body.bare

/-- **What may be read of an order message**: one that says the same, or any order id for a fill that is sent
without one. -/
inductive Omsg.Reads : Omsg Decimal64 → Omsg Decimal64 → Prop where
  | said {m m' : Omsg Decimal64} (h : m'.said = m.said) : Omsg.Reads m m'
  | bare {ins : List UInt8} {fid fid' : ClobOid Decimal64} {exe exe' : UnxsExe Decimal64} {con : Uid}
      (hqid : fid.qid = 0) (hqty : exe'.qty.num = exe.qty.num) (hprc : exe'.prc.num = exe.prc.num) :
      Omsg.Reads ⟨ins, .fil fid exe con⟩ ⟨ins, .fil fid' exe' con⟩

/-- Quote messages are read as they are. -/
def Qmsg.Reads (m m' : Qmsg Decimal64) : Prop := m'.said = m.said

/-- A quote message that comes as it was sent. -/
structure QmsgLine (m : Qmsg Decimal64) : Prop where
  tab : ch '\t' ∉ m.ins
  newline : ch '\n' ∉ m.ins
  sent : m.body.sent
  said : m.wire ∨ m.empty

theorem OmsgLine.isSegment {m : Omsg Decimal64} (h : OmsgLine m) : IsSegment (ch '\n') (omsgText m) :=
  isSegment_omsgText h.newline fun hu => by
    have hb := h.body
    rw [hu] at hb
    exact hb.elim id id

theorem recvFil_bare (l : Locals) {fid : ClobOid Decimal64} {exe : UnxsExe Decimal64} {con : Uid}
    (h : (OBody.fil fid exe con).bare) (r : Ptr) : ∃ exe', recvFil l ((OBody.fil fid exe con).tail ++ r) =
      .ok (.fil l.fid exe' con) ∧ exe'.qty.num = exe.qty.num ∧ exe'.prc.num = exe.prc.num := by
  obtain ⟨hq, hqty, hprc⟩ := h
  have ht : (OBody.fil fid exe con).tail ++ r = d64Text exe.qty ++ ch '\t' :: (d64Text exe.prc ++
      ch '\t' :: (decimal con.toNat ++ ch '\n' :: r)) := by
    simp only [OBody.tail, exeText, if_neg (not_not.mpr hq), List.append_assoc, List.cons_append, List.nil_append]
  obtain ⟨qty, h1, -, h1n⟩ := strtod64_num (d64Text exe.prc ++ ch '\t' :: (decimal con.toNat ++ ch '\n' :: r)) hqty
    (c := ch '\t') (by decide)
  obtain ⟨prc, h2, -, h2n⟩ := strtod64_num (decimal con.toNat ++ ch '\n' :: r) hprc (c := ch '\t') (by decide)
  have hu : con.toNat < 2 ^ 64 := con.isLt.trans (Nat.pow_lt_pow_right Nat.one_lt_two (by omega))
  -- the tab in front of the contra is white space to `strtoul`
  have hw : ∀ x ∈ [ch '\t'], isspace x = true := fun x hx => by
    rw [List.mem_singleton.mp hx]
    rfl
  have h3 := strtou_decimal hw hu (c := ch '\n') (by decide) r
  rw [List.singleton_append] at h3
  have hcon : (BitVec.ofNat 64 con.toNat).setWidth 32 = con := by
    rw [← BitVec.toNat_inj, BitVec.toNat_setWidth, BitVec.toNat_ofNat, Nat.mod_eq_of_lt hu, Nat.mod_eq_of_lt con.isLt]
  have hnl : ¬ ch '\n' = ch '\t' := by decide
  refine ⟨⟨qty, prc⟩, ?_, h1n, h2n⟩
  rw [ht]
  simp only [recvFil, bind, Except.bind, h1, deref, ne_eq, not_true_eq_false, if_false, List.tail_cons, h2, h3, hcon,
    if_neg hnl]
  rfl

theorem OmsgLine.read {m : Omsg Decimal64} (h : OmsgLine m) (l : Locals) (r : Ptr) :
    ∃ m', recvOmsg l (omsgText m ++ r) (omsgText m).length = .ok m' ∧ m.Reads m' := by
  rcases h.body with hb | hb
  · obtain ⟨m', hr, hsaid⟩ := recvOmsg_omsgText l ⟨h.tab, hb⟩ r
    exact ⟨m', hr, .said hsaid⟩
  · obtain ⟨ins, body⟩ := m
    cases body with
    | fil fid exe con =>
        obtain ⟨exe', hf, hqty, hprc⟩ := recvFil_bare l hb r
        refine ⟨⟨ins, .fil l.fid exe' con⟩, ?_, .bare hb.1 hqty hprc⟩
        have hline := recvOmsg_eq l (h := (OBody.fil fid exe con).head) rfl h.tab (OBody.fil fid exe con).tail r
          (b := .fil l.fid exe' con) nofun ((recvBody_head l (w := text omsgTyps 2) rfl _ _).trans hf)
        simpa only [omsgText, List.append_assoc, List.cons_append] using hline
    | _ => exact hb.elim

theorem oline_heard {m : Omsg Decimal64} (hm : OmsgLine m) {r : Ptr} {x x' : List UInt8 × Pend U} (hx : Pend.Ok L x)
    (h : C.oline L (omsgText m ++ r) (omsgText m).length x = .ok x') : Heard C Input.och Omsg.Reads m x.2 x'.2 := by
  obtain ⟨m', hr, hrun⟩ := bind_ok.mp h
  obtain ⟨m₁, hr₁, hread⟩ := hm.read (C.stack x.2.user) r
  rw [hr] at hr₁
  cases hr₁
  exact ⟨m', hread, run_plain _ x x' hx hrun⟩

theorem qline_heard {m : Qmsg Decimal64} (hm : QmsgLine m) {r : Ptr} {x x' : List UInt8 × Pend U} (hx : Pend.Ok L x)
    (h : C.qline L (qmsgText m ++ r) (qmsgText m).length x = .ok x') : Heard C Input.qch Qmsg.Reads m x.2 x'.2 := by
  obtain ⟨m', hr, hrun⟩ := bind_ok.mp h
  obtain ⟨m₁, hr₁, hsaid⟩ := (readsBack hm.tab hm.sent 0 0 r).said hm.said
  rw [hr] at hr₁
  cases hr₁
  exact ⟨m', hsaid, run_plain _ x x' hx hrun⟩

section Recv

variable {start : ℕ} {line : Handler (Pend U)} {F : Ptr → ℕ → List UInt8 × Pend U → Prop}
  {chunk mem : List UInt8} {x : Inbox} {w : Pend U}

/-- **A read does what the messages on its lines do**, one after the other. -/
theorem recv_chain {M : Type} {text : M → List UInt8} {R : M → Pend U → Pend U → Prop} {ms : List M}
    (hr : Runs L line F) (hx : x.Framed start mem) (hw : Pend.Ok L (mem, w))
    (hroom : start + x.bof + chunk.length ≤ L.MBOF0)
    (hms : (cut (ch '\n') ((cut (ch '\n') x.got).2 ++ chunk)).1 = ms.map text)
    (hR : ∀ m ∈ ms, ∀ r s s', Pend.Ok L s → line (text m ++ r) (text m).length s = .ok s' → R m s.2 s'.2)
    {y : List UInt8 × Inbox × Pend U} (hy : recvLines start line chunk mem x w = .ok y) :
    Chain R ms w y.2.2 ∧ y.2.1.got = x.got ++ chunk := by
  obtain ⟨tail, hb, ht, hsl⟩ := hx.left
  have htail : (cut (ch '\n') x.got).2 = tail := by rw [← hx.tail, hsl]
  rw [hb] at hroom
  have hreads := recv_reads hr ht hw hroom
  rw [recvLines, hb, readLines_eq (Or.inr rfl) hreads] at hy
  obtain ⟨z, hz, he⟩ := map_ok.mp hy
  obtain ⟨v, hv, hzv⟩ := map_ok.mp hz
  subst he hzv
  refine ⟨?_, rfl⟩
  rw [htail] at hms
  have hchain : Chain (fun l (s s' : List UInt8 × Pend U) => ∀ m ∈ ms, l = text m → R m s.2 s'.2)
      (ms.map text) (putChunk start tail.length chunk mem, w) v := by
    rw [← hms]
    refine handAll_chain (p := []) (T := tail ++ chunk) (t := (cut (ch '\n') (tail ++ chunk)).2)
      (fun s hs => (hreads.front s hs).1) hreads.keeps ?_ ?_ hreads.init hv
    · intro l _ r s s' hs hl m hm he
      subst he
      exact hR m hm r s s' hs.1 hl
    · rw [List.nil_append, cut_flatten]
  exact hchain.image (R := R) (g := Prod.snd) fun m hm s s' hq => hq m hm rfl

end Recv

/-- **What a list of lines comes to**: messages that may be read of them are heard one after the other. -/
theorem heard_play {M : Type} {input : M → Input} {R : M → M → Prop} {ms : List M} {w w' : Pend U}
    (h : Chain (Heard C input R) ms w w') : ∃ ms' : List M, List.Forall₂ R ms ms' ∧
      w'.user = (C.play (ms'.map input) w.user).1 ∧
      w'.said = w.said ++ textOf (C.play (ms'.map input) w.user).2 := by
  induction ms generalizing w with
  | nil =>
      cases h
      exact ⟨[], .nil, rfl, (List.append_nil _).symm⟩
  | cons m ms ih =>
      obtain ⟨v, ⟨m', hread, hu, ht⟩, h⟩ := h
      obtain ⟨ms', hms, hlast, hout⟩ := ih h
      rw [hu] at hlast hout
      refine ⟨m' :: ms', .cons hread hms, hlast, ?_⟩
      rw [hout, ht, List.map_cons, Callbacks.play, textOf_append, List.append_assoc]

/-- **A read makes a bot hear** the messages whose lines it ends. -/
theorem recv_heard {start : ℕ} {line : Handler (Pend U)} {F : Ptr → ℕ → List UInt8 × Pend U → Prop}
    {chunk u mem : List UInt8} {x : Inbox} {w : Pend U} {M : Type} {text : M → List UInt8} (input : M → Input)
    (R : M → M → Prop) {all : List M} (hr : Runs L line F) (hx : x.Framed start mem) (hw : Pend.Ok L (mem, w))
    (hroom : start + x.bof + chunk.length ≤ L.MBOF0) (hseg : ∀ m ∈ all, IsSegment (ch '\n') (text m))
    (ht : x.got ++ chunk ++ u = (all.map text).flatten)
    (hR : ∀ m ∈ all, ∀ r s s', Pend.Ok L s → line (text m ++ r) (text m).length s = .ok s' →
      Heard C input R m s.2 s'.2)
    {y : List UInt8 × Inbox × Pend U} (hy : recvLines start line chunk mem x w = .ok y) :
    ∃ ms : List M, y.2.2.user = (C.play (ms.map input) w.user).1 ∧
      y.2.2.said = w.said ++ textOf (C.play (ms.map input) w.user).2 ∧
      ∃ mid, all.take y.2.1.seen.length = all.take x.seen.length ++ mid ∧ List.Forall₂ R mid ms := by
  have hlines : ∀ l ∈ all.map text, IsSegment (ch '\n') l := by
    intro l hl
    obtain ⟨m, hm, rfl⟩ := List.mem_map.mp hl
    exact hseg m hm
  obtain ⟨ls, ls', hsplit, hcut⟩ := cut_next hlines ht
  obtain ⟨front, more, rfl, hfront, hmore⟩ := List.map_eq_append_iff.mp hsplit
  obtain ⟨mid, rest, rfl, rfl, rfl⟩ := List.map_eq_append_iff.mp hmore
  obtain ⟨hchain, hgot⟩ := recv_chain (R := Heard C input R) hr hx hw hroom hcut
    (fun m hm r s s' hs hl => hR m (by simp [hm]) r s s' hs hl) hy
  obtain ⟨hf, -⟩ := recv_spec hr hx hw hroom hy
  have hseen : y.2.1.seen.length = (front ++ mid).length := by
    rw [hf.seen, hgot, cut_append, hcut, ← hfront, ← List.map_append, List.length_map]
  have hbefore : x.seen.length = front.length := by rw [hx.seen, ← hfront, List.length_map]
  obtain ⟨ms, hms, hu, hsaid⟩ := heard_play hchain
  refine ⟨ms, hu, hsaid, mid, ?_, hms⟩
  rw [hseen, hbefore, List.take_left, ← List.append_assoc, List.take_left]

/-! ## Runs -/

/-- A bot that keeps to its buffers, whose callbacks start in state `u₀`. -/
def tapFrom (L : Layout) (C : Callbacks U) (u₀ : U) : Run.Machine (Tap U) TapEvent :=
  { (tapMachine L C).restrict (Tidy L C) with init := fun s => (tapMachine L C).init s ∧ s.w.user = u₀ }

theorem tapFrom_next {u₀ : U} {es : List TapEvent} {e : TapEvent} {s s' : Tap U} (h : (tapFrom L C u₀).Runs es s)
    (ha : e.allowed L s) (hC : Tidy L C s e) (hs : e.step L C s = .ok s') : (tapFrom L C u₀).Runs (es ++ [e]) s' :=
  h.next ⟨ha, hC⟩ hs

/-- What the bot has dealt with, event by event: messages that may be read of the first ones of either channel. -/
structure Tap.Played (C : Callbacks U) (u₀ : U) (oms : List (Omsg Decimal64)) (qms : List (Qmsg Decimal64))
    (s : Tap U) (log : List Input) : Prop where
  user : s.w.user = (C.play log u₀).1
  said : s.w.said = textOf (C.play log u₀).2
  och : List.Forall₂ Omsg.Reads (oms.take s.och.seen.length) (log.filterMap Input.omsg)
  qch : log.filterMap Input.saidQ = (qms.take s.qch.seen.length).map Qmsg.said

section Played

variable {u₀ : U} {oms : List (Omsg Decimal64)} {qms : List (Qmsg Decimal64)} {s s' : Tap U} {log : List Input}

theorem omsg_och (ms : List (Omsg Decimal64)) : (ms.map Input.och).filterMap Input.omsg = ms := by
  rw [List.filterMap_map]
  exact List.filterMap_some

theorem saidQ_qch (ms : List (Qmsg Decimal64)) : (ms.map Input.qch).filterMap Input.saidQ = ms.map Qmsg.said := by
  rw [List.filterMap_map, ← List.filterMap_eq_map]
  rfl

theorem omsg_qch (ms : List (Qmsg Decimal64)) : (ms.map Input.qch).filterMap Input.omsg = [] := by
  rw [List.filterMap_map]
  exact List.filterMap_eq_nil_iff.mpr fun m _ => rfl

theorem reads_said {ms ms' : List (Qmsg Decimal64)} (h : List.Forall₂ Qmsg.Reads ms ms') :
    ms'.map Qmsg.said = ms.map Qmsg.said := by
  induction h with
  | nil => rfl
  | cons hm _ ih => rw [List.map_cons, List.map_cons, ih, hm]

theorem saidQ_och (ms : List (Omsg Decimal64)) : (ms.map Input.och).filterMap Input.saidQ = [] := by
  rw [List.filterMap_map]
  exact List.filterMap_eq_nil_iff.mpr fun m _ => rfl

theorem Tap.Played.append (h : s.Played C u₀ oms qms log) {more : List Input} {w : Pend U} {och qch : Inbox}
    {mem : List UInt8} (hu : w.user = (C.play more s.w.user).1)
    (hw : w.said = s.w.said ++ textOf (C.play more s.w.user).2)
    (ho : ∃ mid, oms.take och.seen.length = oms.take s.och.seen.length ++ mid ∧
      List.Forall₂ Omsg.Reads mid (more.filterMap Input.omsg))
    (hq : (qms.take s.qch.seen.length).map Qmsg.said ++ more.filterMap Input.saidQ =
      (qms.take qch.seen.length).map Qmsg.said) :
    Tap.Played C u₀ oms qms ⟨mem, och, qch, w⟩ (log ++ more) where
  user := by rw [play_append, ← h.user]; exact hu
  said := by rw [play_append, textOf_append, ← h.said, ← h.user]; exact hw
  och := by
    obtain ⟨mid, hmid, hread⟩ := ho
    rw [List.filterMap_append, hmid]
    exact List.rel_append h.och hread
  qch := by rw [List.filterMap_append, h.qch, hq]

theorem event_got {e : TapEvent} (hs : e.step L C s = .ok s') : s'.och.got = s.och.got ++ e.ochBytes ∧
    s'.qch.got = s.qch.got ++ e.qchBytes := by
  cases e with
  | och chunk =>
      obtain ⟨y, hy, rfl⟩ := map_ok.mp hs
      obtain ⟨z, -, rfl⟩ := map_ok.mp hy
      exact ⟨rfl, (List.append_nil _).symm⟩
  | qch chunk =>
      obtain ⟨y, hy, rfl⟩ := map_ok.mp hs
      obtain ⟨z, -, rfl⟩ := map_ok.mp hy
      exact ⟨(List.append_nil _).symm, rfl⟩
  | timer =>
      obtain ⟨y, -, rfl⟩ := map_ok.mp hs
      exact ⟨(List.append_nil _).symm, (List.append_nil _).symm⟩

/-- **One event**: more is heard. -/
theorem event_played (h : s.Played C u₀ oms qms log) (hi : s.Inv L) {e : TapEvent} {uo uq : List UInt8}
    (homs : ∀ m ∈ oms, OmsgLine m) (hqms : ∀ m ∈ qms, QmsgLine m)
    (ho : s.och.got ++ e.ochBytes ++ uo = textOf oms) (hq : s.qch.got ++ e.qchBytes ++ uq = (qms.map qmsgText).flatten)
    (ha : e.allowed L s) (hC : Tidy L C s e) (hs : e.step L C s = .ok s') :
    ∃ more, e.Hears more ∧ s'.Played C u₀ oms qms (log ++ more) := by
  obtain ⟨h1, h2, h3, -, -, -⟩ := L.bounds
  have h4 : BOTSIZ / 4 = 2048 := rfl
  cases e with
  | och chunk =>
      obtain ⟨y, hy, rfl⟩ := map_ok.mp hs
      have hfit := hC.1
      have hroom : L.OBOF0 + s.och.bof + chunk.length ≤ L.MBOF0 := by omega
      obtain ⟨ms, hu, hw, hms⟩ := recv_heard Input.och Omsg.Reads (oline_runs C)
        hi.och hi.pend hroom (fun m hm => (homs m hm).isSegment) ho
        (fun m hm r x x' hx hl => oline_heard (homs m hm) hx hl) hy
      refine ⟨ms.map .och, ⟨ms, rfl⟩, h.append hu hw ?_ ?_⟩
      · rw [omsg_och]
        exact hms
      · rw [saidQ_och, List.append_nil]
  | qch chunk =>
      obtain ⟨y, hy, rfl⟩ := map_ok.mp hs
      obtain ⟨ms, hu, hw, mid, hmid, hms⟩ := recv_heard Input.qch Qmsg.Reads (qline_runs C)
        hi.qch hi.pend (qch_fits hi ha).2 (fun m hm => isSegment_qmsgText (hqms m hm).newline) hq
        (fun m hm r x x' hx hl => qline_heard (hqms m hm) hx hl) hy
      refine ⟨ms.map .qch, ⟨ms, rfl⟩, h.append hu hw ?_ ?_⟩
      · exact ⟨[], (List.append_nil _).symm, by rw [omsg_qch]; exact .nil⟩
      · rw [saidQ_qch, hmid, List.map_append, reads_said hms]
  | timer =>
      obtain ⟨y, hy, rfl⟩ := map_ok.mp hs
      obtain ⟨hu, hw⟩ := run_plain _ _ y hi.pend hy
      refine ⟨[.timer], rfl, h.append hu ?_ ⟨[], (List.append_nil _).symm, .nil⟩ (List.append_nil _)⟩
      rw [hw, Callbacks.play, Callbacks.play, List.append_nil]
      rfl

end Played

theorem runs_played {u₀ : U} {oms : List (Omsg Decimal64)} {qms : List (Qmsg Decimal64)}
    (homs : ∀ m ∈ oms, OmsgLine m) (hqms : ∀ m ∈ qms, QmsgLine m) {es : List TapEvent} {s : Tap U}
    (h : (tapFrom L C u₀).Runs es s) : s.Inv L ∧ s.och.got = es.flatMap TapEvent.ochBytes ∧
      s.qch.got = es.flatMap TapEvent.qchBytes ∧ (s.och.got <+: textOf oms →
        s.qch.got <+: (qms.map qmsgText).flatten →
          ∃ parts, List.Forall₂ TapEvent.Hears es parts ∧ s.Played C u₀ oms qms parts.flatten) := by
  refine h.inv_events (P := fun es s => s.Inv L ∧ s.och.got = es.flatMap TapEvent.ochBytes ∧
    s.qch.got = es.flatMap TapEvent.qchBytes ∧ (s.och.got <+: textOf oms →
      s.qch.got <+: (qms.map qmsgText).flatten →
        ∃ parts, List.Forall₂ TapEvent.Hears es parts ∧ s.Played C u₀ oms qms parts.flatten)) ?_ ?_
  · rintro s ⟨hi, hu⟩
    obtain ⟨-, ho, hq, -, ha, hs⟩ := id hi
    refine ⟨start_tap hi, by rw [ho]; rfl, by rw [hq]; rfl, fun _ _ => ⟨[], .nil, hu, ?_, ?_, ?_⟩⟩
    · rw [Pend.said, hs, ha]
      rfl
    · rw [ho]
      exact .nil
    · rw [hq]
      rfl
  · rintro es s e s' ⟨hi, hog, hqg, hP⟩ ⟨ha, hC⟩ hs
    obtain ⟨s₁, hs₁, -, hi'⟩ := tidy_step hi ha hC
    rw [show e.step L C s = .ok s' from hs] at hs₁
    cases hs₁
    obtain ⟨hgo, hgq⟩ := event_got hs
    refine ⟨hi', by rw [hgo, hog, List.flatMap_append, List.flatMap_singleton],
      by rw [hgq, hqg, List.flatMap_append, List.flatMap_singleton], ?_⟩
    rw [hgo, hgq]
    rintro ⟨uo, huo⟩ ⟨uq, huq⟩
    obtain ⟨parts, hall, hp⟩ := hP ⟨e.ochBytes ++ uo, by rw [← huo, List.append_assoc]⟩
      ⟨e.qchBytes ++ uq, by rw [← huq, List.append_assoc]⟩
    obtain ⟨more, hmore, hp'⟩ := event_played hp hi homs hqms huo huq ha hC hs
    refine ⟨parts ++ [more], List.rel_append hall (.cons hmore .nil), ?_⟩
    rw [List.flatten_append, List.flatten_singleton]
    exact hp'

theorem och_all {s : Tap U} (hi : s.Inv L) {oms : List (Omsg Decimal64)} (homs : ∀ m ∈ oms, OmsgLine m)
    (he : s.och.got = textOf oms) : s.och.seen.length = oms.length := by
  have hseg : ∀ l ∈ oms.map omsgText, IsSegment (ch '\n') l := by
    intro l hl
    obtain ⟨m, hm, rfl⟩ := List.mem_map.mp hl
    exact (homs m hm).isSegment
  rw [hi.och.seen, he, textOf, cut_received_all hseg, List.length_map]

theorem qch_all {s : Tap U} (hi : s.Inv L) {qms : List (Qmsg Decimal64)} (hqms : ∀ m ∈ qms, QmsgLine m)
    (he : s.qch.got = (qms.map qmsgText).flatten) : s.qch.seen.length = qms.length := by
  have hseg : ∀ l ∈ qms.map qmsgText, IsSegment (ch '\n') l := by
    intro l hl
    obtain ⟨m, hm, rfl⟩ := List.mem_map.mp hl
    exact isSegment_qmsgText (hqms m hm).newline
  rw [hi.qch.seen, he, cut_received_all hseg, List.length_map]

/-- **A bot does what its callbacks do with what it hears.** However the bytes of the two channels are cut and
whenever they come, as long as the bot keeps to its buffers there is a list of messages and ticks, those of each
event behind those of the events before it, that may be read of what has been sent on the channel, and that leave
the callbacks in the state they are in; and the bytes sent and waiting are the texts of what the callbacks add. -/
theorem tap_played (L : Layout) (C : Callbacks U) (u₀ : U) {oms : List (Omsg Decimal64)} {qms : List (Qmsg Decimal64)}
    (homs : ∀ m ∈ oms, OmsgLine m) (hqms : ∀ m ∈ qms, QmsgLine m) {es : List TapEvent} {s : Tap U}
    (h : (tapFrom L C u₀).Runs es s) (ho : es.flatMap TapEvent.ochBytes <+: textOf oms)
    (hq : es.flatMap TapEvent.qchBytes <+: (qms.map qmsgText).flatten) :
    ∃ parts, List.Forall₂ TapEvent.Hears es parts ∧ s.Played C u₀ oms qms parts.flatten ∧
      (es.flatMap TapEvent.ochBytes = textOf oms → s.och.seen.length = oms.length) ∧
      (es.flatMap TapEvent.qchBytes = (qms.map qmsgText).flatten → s.qch.seen.length = qms.length) := by
  obtain ⟨hi, hog, hqg, hP⟩ := runs_played homs hqms h
  rw [← hog] at ho ⊢
  rw [← hqg] at hq ⊢
  obtain ⟨parts, hall, hp⟩ := hP ho hq
  exact ⟨parts, hall, hp, och_all hi homs, qch_all hi hqms⟩

/-- Lines that all are fine on their own are so one after the other. -/
theorem each_lines {start : ℕ} {line : Handler (Pend U)} {F : Ptr → ℕ → List UInt8 × Pend U → Prop} {x : Inbox}
    {mem chunk : List UInt8} {w : Pend U} (hr : Runs L line F) (hx : x.Framed start mem) (hw : Pend.Ok L (mem, w))
    (hroom : start + x.bof + chunk.length ≤ L.MBOF0)
    (hF : ∀ l ∈ (cut (ch '\n') (slice mem start x.bof ++ chunk)).1, ∀ r s, Pend.Ok L s → F (l ++ r) l.length s) :
    Each (buffer start) line F (cut (ch '\n') (slice mem start x.bof ++ chunk)).1 0
      (putChunk start x.bof chunk mem, w) := by
  obtain ⟨tail, hb, ht, hsl⟩ := hx.left
  rw [hb] at hroom
  have hreads := recv_reads hr ht hw hroom
  rw [hsl] at hF ⊢
  rw [hb, each_iff (fun p n s hs => hr.fits p n s hs.1) hreads.keeps hreads.init]
  refine handAll_returns (p := []) (T := tail ++ chunk) (t := (cut (ch '\n') (tail ++ chunk)).2)
    (fun s hs => (hreads.front s hs).1) hreads.keeps ?_ ?_ hreads.init
  · exact fun l hl r s hs => (hr.fits _ _ _ hs.1).mp (hF l hl r s hs.1)
  · rw [List.nil_append, cut_flatten]

theorem tidy_och {s : Tap U} (hi : s.Inv L) {chunk : List UInt8} (hroom : s.och.bof + chunk.length ≤ BOTSIZ / 4)
    (hlines : ∀ l ∈ (cut (ch '\n') (slice s.mem L.OBOF0 s.och.bof ++ chunk)).1, ∃ m, OmsgLine m ∧ l = omsgText m)
    (hC : ∀ m u n, (C.ochan m u).Fits L n) : Tidy L C s (.och chunk) := by
  obtain ⟨h1, h2, h3, -, -, -⟩ := L.bounds
  have h4 : BOTSIZ / 4 = 2048 := rfl
  refine ⟨hroom, each_lines (oline_runs C) hi.och hi.pend (by omega) fun l hl r x _ => ?_⟩
  obtain ⟨m, hm, rfl⟩ := hlines l hl
  obtain ⟨m', hr, -⟩ := hm.read (C.stack x.2.user) r
  exact ⟨m', hr, hC m' x.2.user x.2.mbof⟩

theorem tidy_qch {s : Tap U} (hi : s.Inv L) {chunk : List UInt8} (ha : (TapEvent.qch chunk).allowed L s)
    (hlines : ∀ l ∈ (cut (ch '\n') (slice s.mem L.QBOF0 s.qch.bof ++ chunk)).1, ∃ m, QmsgLine m ∧ l = qmsgText m)
    (hC : ∀ m u n, (C.qchan m u).Fits L n) : Tidy L C s (.qch chunk) := by
  refine each_lines (qline_runs C) hi.qch hi.pend (qch_fits hi ha).2 fun l hl r x _ => ?_
  obtain ⟨m, hm, rfl⟩ := hlines l hl
  obtain ⟨m', hr, -⟩ := (readsBack hm.tab hm.sent 0 0 r).said hm.said
  exact ⟨m', hr, hC m' x.2.user x.2.mbof⟩

theorem sampleOrder_line : OmsgLine sampleOrder := ⟨sampleOrder_wire.ins, by decide, .inl sampleOrder_wire.body⟩

theorem sampleQuote_line : QmsgLine sampleQuote :=
  ⟨by decide, by decide, Or.inr rfl, Or.inl ⟨wire_of (by decide), wire_of (by decide)⟩⟩

/-- A line on the order channel. -/
theorem tap_played_line : ∃ s, (tapFrom sampleLayout sampleCallbacks false).Runs [.och (omsgText sampleOrder)] s ∧
    ∃ parts, List.Forall₂ TapEvent.Hears [.och (omsgText sampleOrder)] parts ∧
      s.Played sampleCallbacks false [sampleOrder] [sampleQuote] parts.flatten ∧
      ([TapEvent.och (omsgText sampleOrder)].flatMap TapEvent.ochBytes = textOf [sampleOrder] →
        s.och.seen.length = 1) ∧
      ([TapEvent.och (omsgText sampleOrder)].flatMap TapEvent.qchBytes = ([sampleQuote].map qmsgText).flatten →
        s.qch.seen.length = 1) := by
  have h0 : (tapFrom sampleLayout sampleCallbacks false).Runs [] sampleTap := .start ⟨sampleTap_init, rfl⟩
  have ha : (TapEvent.och (omsgText sampleOrder)).allowed sampleLayout sampleTap := by decide +kernel
  have hT : Tidy sampleLayout sampleCallbacks sampleTap (.och (omsgText sampleOrder)) := by
    refine tidy_och (start_tap sampleTap_init) (by decide +kernel) (fun l hl => ⟨sampleOrder, sampleOrder_line, ?_⟩)
      fun m u n => trivial
    have hcut := sampleOrder_line.isSegment.cut []
    rw [List.append_nil] at hcut
    rw [show slice sampleTap.mem sampleLayout.OBOF0 sampleTap.och.bof = [] from rfl, List.nil_append, hcut] at hl
    exact List.mem_singleton.mp hl
  obtain ⟨s, hs, -, -⟩ := tidy_step (start_tap sampleTap_init) ha hT
  have h : (tapFrom sampleLayout sampleCallbacks false).Runs [.och (omsgText sampleOrder)] s :=
    tapFrom_next h0 ha hT hs
  refine ⟨s, h, tap_played sampleLayout sampleCallbacks false ?_ ?_ h ?_ ?_⟩
  · exact fun m hm => List.mem_singleton.mp hm ▸ sampleOrder_line
  · exact fun m hm => List.mem_singleton.mp hm ▸ sampleQuote_line
  · exact ⟨[], by simp [textOf, TapEvent.ochBytes]⟩
  · exact List.nil_prefix

end Unserlob
