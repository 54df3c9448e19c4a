import Unserlob.Lol.OrderTrip

/-!
# Quote messages survive the wire

One encoder and two decoders. What either makes of a line is what it makes of the two numbers at its
end; the rest is decided by the header, for any numbers.

* `QBody.reread`, **`recvQmsg_qmsgText`**: the message a line is decoded to;
* `QBody.side`, **`recvXquo_qmsgText`**: the quote the candle maker reads;
* `Qmsg.wire`, `Qmsg.empty`: numbers in range, and the line of an empty side;
* **`recvQmsg_sendQmsg`**: the round trip for both.
-/

namespace Unserlob

open Ascii Cursor Writer

/-- The body with its two numbers read again. -/
def QBody.reread (b : QBody Decimal64) (p : Option (Decimal64 × Decimal64)) : QBody Decimal64 :=
  let x := (p.getD (NAND64, zerodd)).1
  let y := (p.getD (NAND64, zerodd)).2
  match b with
  | .unk => .unk
  | .top q => .top ⟨q.sid, x, y⟩
  | .lvl q => .lvl ⟨q.sid, x, y⟩
  | .tra _ => .tra ⟨nclobSides, x, y⟩
  | .auc _ => .auc ⟨x, y, zerodd⟩
  | .imb _ => .imb ⟨x, zerodd, y⟩

/-- The candle maker's side of a message, if it is one for it. -/
def QBody.side (del : Side) : QBody Decimal64 → Option Side
  | .top q | .lvl q => some (if q.sid = clobSideAsk then sideAsk else sideBid)
  | .tra _ => some del
  | _ => none

/-- The candle maker's flavour of a message; a trade has none of its own. -/
def QBody.flavour (f : BitVec 32) : QBody Decimal64 → BitVec 32
  | .top _ => 1
  | .lvl _ => 2
  | _ => f

/-! ## Lines -/

theorem recvQuo_eq (c : UInt8) (msg quo : Ptr) : recvQuo (c :: msg) quo = (fun p =>
    ⟨sideOf c, (p.getD (NAND64, zerodd)).1, (p.getD (NAND64, zerodd)).2⟩) <$> recvPair quo := by
  simp only [recvQuo, bind, Except.bind, deref]
  rcases recvPair quo with e | (_ | ⟨x, y⟩) <;> rfl

theorem recvTra_eq (msg : Ptr) : recvTra msg = (fun p =>
    ⟨nclobSides, (p.getD (NAND64, zerodd)).1, (p.getD (NAND64, zerodd)).2⟩) <$> recvPair msg := by
  simp only [recvTra, bind, Except.bind]
  rcases recvPair msg with e | (_ | ⟨x, y⟩) <;> rfl

theorem recvAuc_eq (msg : Ptr) : recvAuc msg = (fun p =>
    ⟨(p.getD (NAND64, zerodd)).1, (p.getD (NAND64, zerodd)).2, zerodd⟩) <$> recvPair msg := by
  simp only [recvAuc, bind, Except.bind]
  rcases recvPair msg with e | (_ | ⟨x, y⟩) <;> rfl

theorem recvImb_eq (msg : Ptr) : recvImb msg = (fun p =>
    ⟨(p.getD (NAND64, zerodd)).1, zerodd, (p.getD (NAND64, zerodd)).2⟩) <$> recvPair msg := by
  simp only [recvImb, bind, Except.bind]
  rcases recvPair msg with e | (_ | ⟨x, y⟩) <;> rfl

theorem recvPq_eq (s : Side) (f : BitVec 32) (ins : List UInt8) (on : Ptr) :
    recvPq s f ins on = (Option.map fun p => ⟨s, f, p.1, p.2, ins⟩) <$> recvPair on := by
  simp only [recvPq, bind, Except.bind]
  rcases recvPair on with e | (_ | ⟨x, y⟩) <;> rfl

/-- The header of a level line. -/
def levelHead (sid : ClobSide) (t : Char) : List UInt8 :=
  bytes [if sid = clobSideAsk then 'A' else 'B', t, '\t']

section Lines

variable {ins : List UInt8} (hins : ch '\t' ∉ ins) (on r : Ptr)

include hins

theorem recvCols_text {h : List UInt8} (hh : h.length = 4) (f : Ptr → Res (QBody Decimal64)) :
    recvCols (h ++ (ins ++ ch '\t' :: (on ++ r))) (h ++ (ins ++ ch '\t' :: on)).length f =
      (fun b => ⟨ins, b⟩) <$> f (on ++ r) := by
  have hs := snarf_text (h := h) hins on r
  rw [hh] at hs
  simp only [recvCols, hs, bind, Except.bind]
  cases f (on ++ r) <;> rfl

theorem recvLevel_text {s t : UInt8} {g : QuosMsg Decimal64 → QBody Decimal64}
    (ht : t = ch '1' ∧ g = .top ∨ t = ch '2' ∧ g = .lvl) :
    recvLevel ([s, t, ch '\t'] ++ (ins ++ ch '\t' :: (on ++ r)))
        ([s, t, ch '\t'] ++ (ins ++ ch '\t' :: on)).length =
      (fun p => ⟨ins, g ⟨sideOf s, (p.getD (NAND64, zerodd)).1, (p.getD (NAND64, zerodd)).2⟩⟩) <$>
        recvPair (on ++ r) := by
  have hs := snarf_text (h := [s, t, ch '\t']) hins on r
  simp only [List.length_cons, List.length_nil, Nat.zero_add] at hs
  simp only [recvLevel, List.cons_append, List.nil_append, List.drop_succ_cons, List.drop_zero,
    bind, Except.bind, deref, ne_eq, not_true_eq_false, if_false, List.length_cons] at hs ⊢
  rw [hs]
  simp only [recvQuo_eq]
  rcases ht with ⟨rfl, rfl⟩ | ⟨rfl, rfl⟩
  · simp only [if_true]
    cases recvPair (on ++ r) <;> rfl
  · rw [if_neg (by decide), if_pos rfl]
    cases recvPair (on ++ r) <;> rfl

theorem recvXlevel_text (s t : UInt8) :
    recvXlevel ([s, t, ch '\t'] ++ (ins ++ ch '\t' :: (on ++ r)))
        ([s, t, ch '\t'] ++ (ins ++ ch '\t' :: on)).length =
      (Option.map fun p => ⟨xorByte s (ch '@'), xorByte t (ch '0'), p.1, p.2, ins⟩) <$>
        recvPair (on ++ r) := by
  have hs := snarf_text (h := [s, t, ch '\t']) hins on r
  simp only [List.length_cons, List.length_nil, Nat.zero_add] at hs
  simp only [recvXlevel, List.cons_append, List.nil_append, List.drop_succ_cons, List.drop_zero,
    bind, Except.bind, deref, ne_eq, not_true_eq_false, if_false, List.length_cons] at hs ⊢
  rw [hs]
  exact recvPq_eq _ _ _ _

end Lines

/-! ## Headers -/

section Heads

variable (p : Ptr) (n : ℕ) {sid : ClobSide} {t : Char}

theorem sideOf_level (h : sid = clobSideAsk ∨ sid = clobSideBid) :
    sideOf (ch (if sid = clobSideAsk then 'A' else 'B')) = sid := by
  rcases h with rfl | rfl <;> rfl

theorem xorByte_level : xorByte (ch (if sid = clobSideAsk then 'A' else 'B')) (ch '@') =
    if sid = clobSideAsk then sideAsk else sideBid := by
  split_ifs <;> rfl

theorem recvQmsg_level (h : sid = clobSideAsk ∨ sid = clobSideBid) (ht : ch t ≠ ch 'U') :
    recvQmsg (levelHead sid t ++ p) n = recvLevel (levelHead sid t ++ p) n := by
  rcases h with rfl | rfl
  · simp [levelHead, recvQmsg, bind, Except.bind, deref, memcmp, ht]
  · simp +decide [levelHead, recvQmsg, bind, Except.bind, deref]

theorem recvQmsg_tra : recvQmsg (bytes ['T', 'R', 'A', '\t'] ++ p) n =
    recvCols (bytes ['T', 'R', 'A', '\t'] ++ p) n fun on => QBody.tra <$> recvTra on := by
  simp +decide [recvQmsg, bind, Except.bind, deref, memcmp]

theorem recvQmsg_auc : recvQmsg (bytes ['A', 'U', 'C', '\t'] ++ p) n =
    recvCols (bytes ['A', 'U', 'C', '\t'] ++ p) n fun on => QBody.auc <$> recvAuc on := by
  simp +decide [recvQmsg, bind, Except.bind, deref, memcmp]

theorem recvQmsg_imb : recvQmsg (bytes ['I', 'M', 'B', '\t'] ++ p) n =
    recvCols (bytes ['I', 'M', 'B', '\t'] ++ p) n fun on => QBody.imb <$> recvImb on := by
  simp +decide [recvQmsg, bind, Except.bind, deref, memcmp]

variable (del : Side) (f : BitVec 32)

theorem recvXquo_level (h : sid = clobSideAsk ∨ sid = clobSideBid) (ht : ch t ≠ ch 'U') :
    recvXquo del f (levelHead sid t ++ p) n = recvXlevel (levelHead sid t ++ p) n := by
  rcases h with rfl | rfl
  · simp [levelHead, recvXquo, bind, Except.bind, deref, memcmp, ht]
  · simp +decide [levelHead, recvXquo, bind, Except.bind, deref]

theorem recvXquo_auc : recvXquo del f (bytes ['A', 'U', 'C', '\t'] ++ p) n = .ok none := by
  simp +decide [recvXquo, bind, Except.bind, deref, memcmp, pure, Except.pure]

theorem recvXquo_imb : recvXquo del f (bytes ['I', 'M', 'B', '\t'] ++ p) n = .ok none := by
  simp +decide [recvXquo, bind, Except.bind, deref, pure, Except.pure]

end Heads

theorem qmsgText_append (m : Qmsg Decimal64) (r : Ptr) : qmsgText m ++ r =
    m.body.head ++ (m.ins ++ ch '\t' :: (pairText m.body.cols.1 m.body.cols.2 ++ r)) := by
  simp [qmsgText]

/-- **The message a line is decoded to**, given its two numbers. -/
theorem recvQmsg_qmsgText {m : Qmsg Decimal64} (hins : ch '\t' ∉ m.ins) (h : m.body.sent) (r : Ptr) :
    recvQmsg (qmsgText m ++ r) (qmsgText m).length = (fun p => ⟨m.ins, m.body.reread p⟩) <$>
      recvPair (pairText m.body.cols.1 m.body.cols.2 ++ r) := by
  obtain ⟨ins, b⟩ := m
  rw [qmsgText_append]
  cases b with
  | unk => exact h.elim
  | top q =>
      refine (recvQmsg_level _ _ h (t := '1') (by decide)).trans ?_
      refine (recvLevel_text hins _ r (Or.inl ⟨rfl, rfl⟩)).trans ?_
      rw [sideOf_level h]
      rfl
  | lvl q =>
      refine (recvQmsg_level _ _ h (t := '2') (by decide)).trans ?_
      refine (recvLevel_text hins _ r (Or.inr ⟨rfl, rfl⟩)).trans ?_
      rw [sideOf_level h]
      rfl
  | tra q =>
      refine (recvQmsg_tra _ _).trans ?_
      refine (recvCols_text hins _ r rfl _).trans ?_
      rw [recvTra_eq, Functor.map_map, Functor.map_map]
      rfl
  | auc a =>
      refine (recvQmsg_auc _ _).trans ?_
      refine (recvCols_text hins _ r rfl _).trans ?_
      rw [recvAuc_eq, Functor.map_map, Functor.map_map]
      rfl
  | imb a =>
      refine (recvQmsg_imb _ _).trans ?_
      refine (recvCols_text hins _ r rfl _).trans ?_
      rw [recvImb_eq, Functor.map_map, Functor.map_map]
      rfl

/-- **The quote the candle maker reads**, given the two numbers of a line that is for it. -/
theorem recvXquo_qmsgText {m : Qmsg Decimal64} (hins : ch '\t' ∉ m.ins) (h : m.body.sent)
    (del : Side) (f : BitVec 32) (r : Ptr) :
    recvXquo del f (qmsgText m ++ r) (qmsgText m).length =
      match m.body.side del with
      | none => .ok none
      | some s => (Option.map fun p => ⟨s, m.body.flavour f, p.1, p.2, m.ins⟩) <$>
          recvPair (pairText m.body.cols.1 m.body.cols.2 ++ r) := by
  obtain ⟨ins, b⟩ := m
  rw [qmsgText_append]
  cases b with
  | unk => exact h.elim
  | top q =>
      refine (recvXquo_level _ _ del f h (t := '1') (by decide)).trans ?_
      refine (recvXlevel_text hins _ r _ _).trans ?_
      rw [xorByte_level]
      rfl
  | lvl q =>
      refine (recvXquo_level _ _ del f h (t := '2') (by decide)).trans ?_
      refine (recvXlevel_text hins _ r _ _).trans ?_
      rw [xorByte_level]
      rfl
  | tra q =>
      have hs := snarf_text (h := bytes ['T', 'R', 'A', '\t']) hins (pairText q.prc q.new) r
      refine Eq.trans ?_ (recvPq_eq del f ins (pairText q.prc q.new ++ r))
      change recvXquo del f (bytes ['T', 'R', 'A', '\t'] ++ _)
        (bytes ['T', 'R', 'A', '\t'] ++ (ins ++ ch '\t' :: pairText q.prc q.new)).length = _
      simp only [List.map_cons, List.map_nil, List.cons_append, List.nil_append, List.length_cons,
        List.length_nil, Nat.zero_add] at hs ⊢
      simp +decide only [recvXquo, bind, Except.bind, deref, List.drop_succ_cons, List.drop_zero,
        if_false, QBody.cols]
      rw [hs]
      rfl
  | auc a => exact recvXquo_auc _ _ _ _
  | imb a => exact recvXquo_imb _ _ _ _

/-! ## Round trips -/

/-- The two numbers are in range. -/
def Qmsg.wire (m : Qmsg Decimal64) : Prop := m.body.cols.1.wire ∧ m.body.cols.2.wire

/-- The line of an empty side: not a number and zero. -/
def Qmsg.empty (m : Qmsg Decimal64) : Prop :=
  m.body.cols.1.num = .nan ∧ m.body.cols.2.num = .fin 0 ∧ ∀ q, m.body ≠ .tra q

theorem recvPair_nan {x : Decimal64} (hx : x.num = .nan) (y : Decimal64) (r : Ptr) :
    recvPair (pairText x y ++ r) = .ok none := by
  have hn : isnand64 x = true := by
    unfold Decimal64.num at hx
    split_ifs at hx with hn
    exact hn
  have ht : d64Text x = ch 'n' :: bytes ['a', 'n'] := by
    rw [d64Text, if_pos hn]; rfl
  obtain ⟨z, hz⟩ := strtod64_stop (c := ch 'n') (by decide) (by decide) (by decide)
    (bytes ['a', 'n'] ++ ch '\t' :: (d64Text y ++ [ch '\n']) ++ r)
  rw [pairText, ht]
  simp only [List.cons_append] at hz ⊢
  simp +decide only [recvPair, hz, bind, Except.bind, deref]
  rfl

theorem reread_said {b : QBody Decimal64} {x y : Decimal64} (hx : x.num = b.cols.1.num)
    (hy : y.num = b.cols.2.num) : (b.reread (some (x, y))).said = b.said := by
  cases b <;> simp only [QBody.reread, QBody.said, Option.getD_some, hx, hy, QBody.cols]

theorem num_NAND64 : NAND64.num = .nan := by decide

theorem reread_none {m : Qmsg Decimal64} (h : m.empty) : (m.body.reread none).said = m.body.said := by
  obtain ⟨h1, h2, h3⟩ := h
  obtain ⟨ins, b⟩ := m
  have hx := num_NAND64.trans h1.symm
  have hy := num_zerodd.trans h2.symm
  cases b with
  | tra q => exact absurd rfl (h3 q)
  | _ => exact reread_said hx hy

theorem reread_typ (b : QBody Decimal64) (p : Option (Decimal64 × Decimal64)) :
    (b.reread p).typ = b.typ := by
  cases b <;> rfl

theorem qmsgText_newline (m : Qmsg Decimal64) : (qmsgText m).getLast? = some (ch '\n') := by
  have h : qmsgText m = m.body.head ++ (m.ins ++ ch '\t' ::
      (d64Text m.body.cols.1 ++ ch '\t' :: d64Text m.body.cols.2)) ++ [ch '\n'] := by
    simp [qmsgText, pairText]
  rw [h, List.getLast?_concat]

/-- What the two decoders make of the line of a message. -/
structure ReadsBack (m : Qmsg Decimal64) (del : Side) (f : BitVec 32) (line : Ptr) (n : ℕ) : Prop where
  said : m.wire ∨ m.empty → ∃ m', recvQmsg line n = .ok m' ∧ m'.said = m.said
  candle : m.wire → ∀ s, m.body.side del = some s → ∃ x, recvXquo del f line n = .ok (some x) ∧
    x.s = s ∧ x.ins = m.ins ∧ x.p.num = m.body.cols.1.num ∧ x.q.num = m.body.cols.2.num
  typ : ∀ m', recvQmsg line n = .ok m' → m'.body.typ = m.body.typ
  side : ∀ x, recvXquo del f line n = .ok (some x) →
    m.body.side del = some x.s ∧ x.f = m.body.flavour f

theorem readsBack {m : Qmsg Decimal64} (hins : ch '\t' ∉ m.ins) (h : m.body.sent) (del : Side)
    (f : BitVec 32) (r : Ptr) : ReadsBack m del f (qmsgText m ++ r) (qmsgText m).length where
  said hm := by
    rw [recvQmsg_qmsgText hins h]
    rcases hm with ⟨h1, h2⟩ | hm
    · obtain ⟨x, y, hp, hx, hy⟩ := recvPair_text r h1 h2
      rw [hp]
      exact ⟨_, rfl, congrArg (Prod.mk m.ins) (reread_said hx hy)⟩
    · rw [recvPair_nan hm.1]
      exact ⟨_, rfl, congrArg (Prod.mk m.ins) (reread_none hm)⟩
  candle hm s hs := by
    obtain ⟨x, y, hp, hx, hy⟩ := recvPair_text r hm.1 hm.2
    rw [recvXquo_qmsgText hins h, hs]
    simp only [hp]
    exact ⟨_, rfl, rfl, rfl, hx, hy⟩
  typ m' hm := by
    rw [recvQmsg_qmsgText hins h] at hm
    cases hp : recvPair (pairText m.body.cols.1 m.body.cols.2 ++ r) with
    | error e => rw [hp] at hm; cases hm
    | ok p =>
        rw [hp] at hm
        cases hm
        exact reread_typ m.body p
  side x hx := by
    rw [recvXquo_qmsgText hins h] at hx
    cases hs : m.body.side del with
    | none => simp [hs] at hx
    | some s =>
        simp only [hs] at hx
        cases hp : recvPair (pairText m.body.cols.1 m.body.cols.2 ++ r) with
        | error e => rw [hp] at hx; cases hx
        | ok p =>
            rw [hp] at hx
            cases p with
            | none => cases hx
            | some p => cases hx; exact ⟨rfl, rfl⟩

/-- **The round trip of a quote message**: what `send_qmsg` writes into a buffer large enough ends in
a newline and is read back by both decoders, whatever follows; nothing is written of other
messages. -/
theorem recvQmsg_sendQmsg {m : Qmsg Decimal64} (hins : ch '\t' ∉ m.ins) {bsz : ℕ}
    {mem : List UInt8} (hb : (qmsgText m).length ≤ bsz) (hm : bsz ≤ mem.length) (del : Side)
    (f : BitVec 32) (r : Ptr) :
    (m.body.sent → ∃ n : ℕ, ∃ s : Buf, sendQmsg bsz m ⟨mem, 0⟩ = .ok (n, s) ∧
      (s.mem.take n).getLast? = some (ch '\n') ∧ ReadsBack m del f (s.mem.take n ++ r) n) ∧
    (¬ m.body.sent → sendQmsg bsz m ⟨mem, 0⟩ = .ok (0, ⟨mem, 0⟩)) := by
  refine ⟨fun h => ?_, fun h => sendQmsg_unsent h _⟩
  obtain ⟨s, hs, hh, -⟩ := sendQmsg_fit h hb (hb.trans hm)
  have ht : s.mem.take (qmsgText m).length = qmsgText m := by rw [← hh.len, hh.take]
  refine ⟨(qmsgText m).length, s, hs, ?_, ?_⟩
  · rw [ht, qmsgText_newline]
  · rw [ht]
    exact readsBack hins h del f r

/-- A bid for one share of `X` at `2.5`. -/
def sampleQuote : Qmsg Decimal64 :=
  ⟨bytes ['X'], .top ⟨clobSideBid, 0x31a0000000000019, 0x31c0000000000001⟩⟩

theorem sampleQuote_trip :
    (sampleQuote.body.sent → ∃ n : ℕ, ∃ s : Buf,
      sendQmsg 64 sampleQuote ⟨List.replicate 64 0, 0⟩ = .ok (n, s) ∧
        (s.mem.take n).getLast? = some (ch '\n') ∧ ReadsBack sampleQuote 3 0 (s.mem.take n ++ []) n) ∧
    (¬ sampleQuote.body.sent → sendQmsg 64 sampleQuote ⟨List.replicate 64 0, 0⟩ =
      .ok (0, ⟨List.replicate 64 0, 0⟩)) :=
  recvQmsg_sendQmsg (by decide) (by decide +kernel) (by decide) 3 0 []

end Unserlob
