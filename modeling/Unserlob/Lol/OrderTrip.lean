import Unserlob.Lol.Send
import Unserlob.Lol.Recv

/-!
# Order messages survive the wire

* `Omsg.wire`: the messages that may be sent, with their decimals, sides and types in range;
* `recvOid_text`, `recvOrd_text`, `recvPair_text`, `recvFil_text`: the columns read back;
* **`recvOmsg_omsgText`**: the text of a message is decoded to a message that says the same;
* **`recvOmsg_sendOmsg`**: the round trip.
-/

namespace Unserlob

open Ascii Cursor Writer

/-- An order id with enumerators and a price in range. -/
structure ClobOid.wire (o : ClobOid Decimal64) : Prop where
  typ : o.typ = clobTypeLmt ∨ o.typ = clobTypeMkt
  sid : o.sid = clobSideAsk ∨ o.sid = clobSideBid
  prc : o.prc.wire

/-- An order with enumerators and numbers in range and no negative hidden quantity. -/
structure ClobOrd.wire (o : ClobOrd Decimal64) : Prop where
  typ : o.typ = clobTypeLmt ∨ o.typ = clobTypeMkt
  sid : o.sid = clobSideAsk ∨ o.sid = clobSideBid
  dis : o.qty.dis.wire
  hid : o.qty.hid.wire
  hid_nonneg : 0 ≤ o.qty.hid.val
  lmt : o.typ = clobTypeLmt → o.lmt.wire

/-- The bodies that may be sent. -/
def OBody.wire : OBody Decimal64 → Prop
  | .unk => False
  | .acc a => a.base.wire ∧ a.term.wire
  | .fil fid exe _ => fid.qid ≠ 0 ∧ fid.wire ∧ exe.qty.wire ∧ exe.prc.wire
  | .kil o | .nok o | .oid o | .can o => o.wire
  | .ord o => o.wire

/-- A message whose instrument has no tab. -/
structure Omsg.wire (m : Omsg Decimal64) : Prop where
  ins : ch '\t' ∉ m.ins
  body : m.body.wire

/-! ## Columns -/

section Columns

variable {c : UInt8} {x y : Decimal64} (r : Ptr)

theorem strtod64_num (hx : x.wire) (hc : stops c) :
    ∃ x' : Decimal64, strtod64 (d64Text x ++ c :: r) = .ok (x', c :: r) ∧ x'.wire ∧ x'.num = x.num := by
  obtain ⟨x', h, hw, hv⟩ := strtod64_d64Text hx hc r
  refine ⟨x', h, hw, ?_⟩
  rw [Decimal64.num_of_finite hw.finite, Decimal64.num_of_finite hx.finite, hv]

theorem recvPair_text (hx : x.wire) (hy : y.wire) :
    ∃ x' y' : Decimal64, recvPair (pairText x y ++ r) = .ok (some (x', y')) ∧ x'.num = x.num ∧
      y'.num = y.num := by
  obtain ⟨x', hx', -, hxn⟩ := strtod64_num (d64Text y ++ ch '\n' :: r) hx (c := ch '\t') (by decide)
  obtain ⟨y', hy', -, hyn⟩ := strtod64_num r hy (c := ch '\n') (by decide)
  refine ⟨x', y', ?_, hxn, hyn⟩
  have ht : pairText x y ++ r = d64Text x ++ ch '\t' :: (d64Text y ++ ch '\n' :: r) := by
    simp [pairText]
  simp only [recvPair, ht, hx', bind, Except.bind, deref, ne_eq, not_true_eq_false, if_false,
    List.tail_cons, hy']
  rfl

theorem oidText_append {o : ClobOid Decimal64} (h : o.wire) : ∃ t a b d s e f g,
    oidText o ++ r = t :: a :: b :: d :: s :: e :: f :: g ::
      (d64Text o.prc ++ ch ' ' :: (decimal o.qid.toNat ++ ch '\n' :: r)) ∧
    (t = ch 'L' ∨ t = ch 'M') ∧ (if t = ch 'L' then clobTypeLmt else clobTypeMkt) = o.typ ∧
    sideOf s = o.sid := by
  have ht : oidText o ++ r = text oidTyps o.typ.toNat ++ (text oidSids o.sid.toNat ++
      (d64Text o.prc ++ ch ' ' :: (decimal o.qid.toNat ++ ch '\n' :: r))) := by simp [oidText]
  rw [ht]
  rcases h.typ with h1 | h1 <;> rcases h.sid with h2 | h2 <;> rw [h1, h2]
  · exact ⟨_, _, _, _, _, _, _, _, rfl, Or.inl rfl, rfl, rfl⟩
  · exact ⟨_, _, _, _, _, _, _, _, rfl, Or.inl rfl, rfl, rfl⟩
  · exact ⟨_, _, _, _, _, _, _, _, rfl, Or.inr rfl, rfl, rfl⟩
  · exact ⟨_, _, _, _, _, _, _, _, rfl, Or.inr rfl, rfl, rfl⟩

theorem recvOid_text (l : Locals) {o : ClobOid Decimal64} (h : o.wire) :
    ∃ o', recvOid l (oidText o ++ r) = .ok o' ∧ o'.said = o.said := by
  obtain ⟨prc, hp, -, hpn⟩ := strtod64_num (decimal o.qid.toNat ++ ch '\n' :: r) h.prc
    (c := ch ' ') (by decide)
  have hq := strtou_decimal (w := []) (by simp) (n := o.qid.toNat) o.qid.isLt (c := ch '\n')
    (by decide) r
  rw [List.nil_append, BitVec.ofNat_toNat, BitVec.setWidth_eq] at hq
  obtain ⟨t, a, b, d, s, e, f, g, hm, hL, ht, hs⟩ := oidText_append r h
  refine ⟨⟨o.typ, o.sid, prc, o.qid, l.usr⟩, ?_, by rw [ClobOid.said, ClobOid.said, hpn]⟩
  rw [hm]
  simp only [recvOid, bind, Except.bind, deref, if_pos hL, List.drop_succ_cons, List.drop_zero, hp,
    ne_eq, not_true_eq_false, if_false, List.tail_cons, hq, ht, hs]
  rfl

theorem lmtText_append (o : ClobOrd Decimal64) : ∃ c p, lmtText o ++ r = c :: p ∧ stops c ∧
    c ≠ ch '+' ∧ (o.typ = clobTypeLmt → c = ch '\t' ∧ p = d64Text o.lmt ++ ch '\n' :: r) ∧
    (o.typ ≠ clobTypeLmt → c ≠ ch '\t') := by
  rw [lmtText]
  by_cases hl : o.typ = clobTypeLmt
  · rw [if_pos hl]
    exact ⟨ch '\t', d64Text o.lmt ++ ch '\n' :: r, by simp, by decide, by decide,
      fun _ => ⟨rfl, rfl⟩, fun hn => absurd hl hn⟩
  · rw [if_neg hl]
    exact ⟨ch '\n', r, rfl, by decide, by decide, fun hp => absurd hp hl, fun _ => by decide⟩

theorem gtZero_wire (hx : x.wire) : gtZero x = decide (0 < x.val) := by
  rw [gtZero, Decimal64.num_of_finite hx.finite]

theorem num_zerodd : zerodd.num = .fin 0 := by
  have h : mantBid64 zerodd = 0 := by decide
  rw [Decimal64.num_of_finite (by decide), Decimal64.val_of_mant h]

theorem recvHid_text {o : ClobOrd Decimal64} (h : o.wire) : ∃ dis hid : Decimal64, ∃ p,
    strtod64 (ordText o ++ r) = .ok (dis, p) ∧ recvHid p = .ok (hid, lmtText o ++ r) ∧
    dis.num = o.qty.dis.num ∧ hid.num = o.qty.hid.num := by
  obtain ⟨c, q, hl, hc, hplus, -, -⟩ := lmtText_append r o
  unfold ordText
  by_cases hh : gtZero o.qty.hid = true
  · obtain ⟨dis, hd, -, hdn⟩ := strtod64_num (d64Text o.qty.hid ++ c :: q) h.dis (c := ch '+')
      (by decide)
    obtain ⟨hid, hi, -, hin⟩ := strtod64_num q h.hid hc
    refine ⟨dis, hid, ch '+' :: (d64Text o.qty.hid ++ c :: q), ?_, ?_, hdn, hin⟩
    · rw [if_pos hh, List.append_assoc, List.cons_append, List.append_assoc, hl, hd]
    · simp only [recvHid, bind, Except.bind, deref, if_true, List.tail_cons, hi, hl]
  · obtain ⟨dis, hd, -, hdn⟩ := strtod64_num q h.dis hc
    refine ⟨dis, zerodd, c :: q, ?_, ?_, hdn, ?_⟩
    · rw [if_neg hh, List.append_assoc, hl, hd]
    · simp only [recvHid, bind, Except.bind, deref, if_neg hplus, hl]
      rfl
    · -- nothing is hidden when the column is left out
      rw [gtZero_wire h.hid, decide_eq_true_iff, not_lt] at hh
      rw [num_zerodd, Decimal64.num_of_finite h.hid.finite, le_antisymm hh h.hid_nonneg]

theorem recvOrd_text {o : ClobOrd Decimal64} (h : o.wire) {b : UInt8}
    (hb : (if b = ch 'B' then clobSideBid else clobSideAsk) = o.sid) (msg : Ptr) :
    ∃ o', recvOrd (b :: msg) (ordText o ++ r) = .ok o' ∧
      (OBody.ord o').said = (OBody.ord o).said := by
  obtain ⟨dis, hid, p, hd, hi, hdn, hin⟩ := recvHid_text r h
  obtain ⟨c, q, hl, -, -, hpos, hneg⟩ := lmtText_append r o
  by_cases ht : o.typ = clobTypeLmt
  · obtain ⟨rfl, rfl⟩ := hpos ht
    obtain ⟨lmt, hm, -, hmn⟩ := strtod64_num r (h.lmt ht) (c := ch '\n') (by decide)
    refine ⟨⟨clobTypeLmt, o.sid, ⟨dis, hid⟩, lmt, 0, 0⟩, ?_, ?_⟩
    · simp only [recvOrd, bind, Except.bind, deref, hd, hi, hl, if_true, List.tail_cons, hm, hb]
      rfl
    · simp only [OBody.said, ht, hdn, hin, hmn]
  · refine ⟨⟨clobTypeMkt, o.sid, ⟨dis, hid⟩, 0, NAND64, 0⟩, ?_, ?_⟩
    · simp only [recvOrd, bind, Except.bind, deref, hd, hi, hl, if_neg (hneg ht), hb]
      rfl
    · simp only [OBody.said, if_neg ht, hdn, hin]
      rfl

theorem recvFil_text (l : Locals) {fid : ClobOid Decimal64} {exe : UnxsExe Decimal64} {con : Uid}
    (h : (OBody.fil fid exe con).wire) : ∃ b, recvFil l ((OBody.fil fid exe con).tail ++ r) = .ok b ∧
      b.said = (OBody.fil fid exe con).said ∧ b ≠ .unk := by
  obtain ⟨hq, hf, hqty, hprc⟩ := h
  have ht : (OBody.fil fid exe con).tail ++ r = d64Text exe.qty ++ ch '\t' :: (d64Text exe.prc ++
      ch '\t' :: (decimal con.toNat ++ ch '\t' :: (oidText fid ++ r))) := by
    simp only [OBody.tail, exeText, if_pos hq, List.append_assoc, List.cons_append]
  obtain ⟨qty, h1, -, h1n⟩ := strtod64_num (d64Text exe.prc ++
    ch '\t' :: (decimal con.toNat ++ ch '\t' :: (oidText fid ++ r))) hqty (c := ch '\t') (by decide)
  obtain ⟨prc, h2, -, h2n⟩ := strtod64_num (decimal con.toNat ++ ch '\t' :: (oidText fid ++ r)) hprc
    (c := ch '\t') (by decide)
  have hu : con.toNat < 2 ^ 64 := con.isLt.trans (Nat.pow_lt_pow_right Nat.one_lt_two (by omega))
  -- the tab in front of the contra is white space to `strtoul`
  have hw : ∀ x ∈ [ch '\t'], isspace x = true := fun x hx => by
    rw [List.mem_singleton.mp hx]
    rfl
  have h3 := strtou_decimal hw hu (c := ch '\t') (by decide) (oidText fid ++ r)
  rw [List.singleton_append] at h3
  obtain ⟨o', h4, h4n⟩ := recvOid_text r l hf
  refine ⟨.fil o' ⟨qty, prc⟩ con, ?_, by simp only [OBody.said, h4n, h1n, h2n], by simp⟩
  have hcon : (BitVec.ofNat 64 con.toNat).setWidth 32 = con := by
    rw [← BitVec.toNat_inj, BitVec.toNat_setWidth, BitVec.toNat_ofNat,
      Nat.mod_eq_of_lt hu, Nat.mod_eq_of_lt con.isLt]
  rw [ht]
  simp only [recvFil, bind, Except.bind, h1, deref, ne_eq, not_true_eq_false, if_false,
    List.tail_cons, h2, h3, if_true, h4, hcon]
  rfl

end Columns

/-! ## Lines -/

theorem recvOmsg_eq (l : Locals) {h ins : List UInt8} (hh : h.length = 4) (hins : ch '\t' ∉ ins)
    (on r : Ptr) {b : OBody Decimal64} (hne : b ≠ .unk)
    (hb : recvBody l (h ++ (ins ++ ch '\t' :: (on ++ r))) (on ++ r) = .ok b) :
    recvOmsg l (h ++ (ins ++ ch '\t' :: (on ++ r))) (h ++ (ins ++ ch '\t' :: on)).length =
      .ok ⟨ins, b⟩ := by
  rw [recvOmsg_cols l hh hins, hb]
  exact congrArg (fun n => Except.ok (Omsg.mk n b)) (if_neg hne)

theorem recvOmsg_line {l : Locals} {ins r w : List UInt8} {b b' : OBody Decimal64} (hins : ch '\t' ∉ ins)
    (hw : w.length = 4) (hb : b.head = w) (hs : b'.said = b.said) (hne : b' ≠ .unk)
    (hr : recvBody l (w ++ (ins ++ ch '\t' :: (b.tail ++ r))) (b.tail ++ r) = .ok b') :
    ∃ m', recvOmsg l (omsgText ⟨ins, b⟩ ++ r) (omsgText ⟨ins, b⟩).length = .ok m' ∧
      m'.said = Omsg.said ⟨ins, b⟩ := by
  subst hb
  refine ⟨⟨ins, b'⟩, ?_, by rw [Omsg.said, Omsg.said, hs]⟩
  have h := recvOmsg_eq l hw hins b.tail r hne hr
  simpa only [omsgText, List.append_assoc, List.cons_append] using h

theorem recvOmsg_oidLine {l : Locals} {ins r : List UInt8} {o : ClobOid Decimal64} (hins : ch '\t' ∉ ins)
    (f : ClobOid Decimal64 → OBody Decimal64) (ht : (f o).tail = oidText o)
    (hw : (f o).head.length = 4)
    (hf : ∀ o', o'.said = o.said → (f o').said = (f o).said ∧ f o' ≠ .unk) (ho : o.wire)
    (hr : ∀ p on, recvBody l ((f o).head ++ p) on = f <$> recvOid l on) :
    ∃ m', recvOmsg l (omsgText ⟨ins, f o⟩ ++ r) (omsgText ⟨ins, f o⟩).length = .ok m' ∧
      m'.said = Omsg.said ⟨ins, f o⟩ := by
  obtain ⟨o', h1, h2⟩ := recvOid_text r l ho
  refine recvOmsg_line hins hw rfl (hf o' h2).1 (hf o' h2).2 ?_
  rw [hr, ht, h1]
  rfl

/-- **The text of a message is decoded to a message that says the same.** -/
theorem recvOmsg_omsgText (l : Locals) {m : Omsg Decimal64} (h : m.wire) (r : Ptr) :
    ∃ m', recvOmsg l (omsgText m ++ r) (omsgText m).length = .ok m' ∧ m'.said = m.said := by
  obtain ⟨ins, b⟩ := m
  obtain ⟨hins, hb⟩ := h
  cases b with
  | unk => exact hb.elim
  | acc a =>
      obtain ⟨x, y, hp, hx, hy⟩ := recvPair_text r hb.1 hb.2
      have hs : (OBody.acc ⟨x, y⟩ : OBody Decimal64).said = (OBody.acc a).said := by simp only [OBody.said, hx, hy]
      refine recvOmsg_line hins rfl rfl hs (by simp) ?_
      refine (recvBody_head l (w := text omsgTyps 1) rfl _ _).trans ?_
      change OBody.acc <$> recvExa (pairText a.base a.term ++ r) = _
      simp only [recvExa, hp]
      rfl
  | fil fid exe con =>
      obtain ⟨b', hf, hs, hne⟩ := recvFil_text r l hb
      refine recvOmsg_line hins rfl rfl hs hne ?_
      exact (recvBody_head l (w := text omsgTyps 2) rfl _ _).trans hf
  | kil o =>
      exact recvOmsg_oidLine hins .kil rfl rfl (fun o' h => ⟨congrArg OSaid.kil h, by simp⟩) hb
        (recvBody_head l (w := text omsgTyps 3) rfl)
  | nok o =>
      exact recvOmsg_oidLine hins .nok rfl rfl (fun o' h => ⟨congrArg OSaid.nok h, by simp⟩) hb
        (recvBody_head l (w := text omsgTyps 4) rfl)
  | oid o =>
      exact recvOmsg_oidLine hins .oid rfl rfl (fun o' h => ⟨congrArg OSaid.oid h, by simp⟩) hb
        (recvBody_head l (w := text omsgTyps 5) rfl)
  | can o =>
      exact recvOmsg_oidLine hins .can rfl rfl (fun o' h => ⟨congrArg OSaid.can h, by simp⟩) hb
        (recvBody_head l (w := text omsgTyps 6) rfl)
  | ord o =>
      have ho : o.wire := hb
      obtain ⟨w, b, t, hw, hwc, hw4, hb', hrec⟩ : ∃ w b t, (OBody.ord o).head = w ∧ w = b :: t ∧
          w.length = 4 ∧ (if b = ch 'B' then clobSideBid else clobSideAsk) = o.sid ∧
          ∀ p on, recvBody l (w ++ p) on = OBody.ord <$> recvOrd (w ++ p) on := by
        rcases ho.sid with hs | hs
        · exact ⟨text ordSids 0, _, _, by rw [OBody.head, hs]; rfl, rfl, rfl, hs.symm,
            recvBody_head l rfl⟩
        · exact ⟨text ordSids 1, _, _, by rw [OBody.head, hs]; rfl, rfl, rfl, hs.symm,
            recvBody_head l rfl⟩
      obtain ⟨o', h1, h2⟩ := recvOrd_text r ho hb' (t ++ (ins ++ ch '\t' :: ((OBody.ord o).tail ++ r)))
      refine recvOmsg_line hins hw4 hw h2 (by simp) ?_
      rw [hrec, hwc, List.cons_append]
      exact congrArg (OBody.ord <$> ·) h1

theorem tail_newline {b : OBody Decimal64} (h : b ≠ .unk) : ∃ t, b.tail = t ++ [ch '\n'] := by
  have oid : ∀ o : ClobOid Decimal64, ∃ t, oidText o = t ++ [ch '\n'] := fun o => by
    refine ⟨text oidTyps o.typ.toNat ++ (text oidSids o.sid.toNat ++ (d64Text o.prc ++
      ch ' ' :: decimal o.qid.toNat)), ?_⟩
    simp [oidText]
  have lmt : ∀ o : ClobOrd Decimal64, ∃ t, lmtText o = t ++ [ch '\n'] := fun o => by
    unfold lmtText
    split_ifs
    · exact ⟨ch '\t' :: d64Text o.lmt, rfl⟩
    · exact ⟨[], rfl⟩
  cases b with
  | unk => exact absurd rfl h
  | acc a => exact ⟨d64Text a.base ++ ch '\t' :: d64Text a.term, by simp [OBody.tail, pairText]⟩
  | fil fid exe con =>
      obtain ⟨t, ht⟩ := oid fid
      simp only [OBody.tail]
      split_ifs
      · exact ⟨exeText exe con ++ ch '\t' :: t, by rw [ht]; simp⟩
      · exact ⟨exeText exe con, rfl⟩
  | kil o => exact oid o
  | nok o => exact oid o
  | oid o => exact oid o
  | can o => exact oid o
  | ord o =>
      obtain ⟨t, ht⟩ := lmt o
      change ∃ t, ordText o = _
      unfold ordText
      rw [ht]
      split_ifs
      · exact ⟨d64Text o.qty.dis ++ ch '+' :: (d64Text o.qty.hid ++ t), by simp⟩
      · exact ⟨d64Text o.qty.dis ++ t, by simp⟩

theorem omsgText_newline {m : Omsg Decimal64} (h : m.body ≠ .unk) :
    (omsgText m).getLast? = some (ch '\n') := by
  obtain ⟨t, ht⟩ := tail_newline h
  rw [omsgText, ht, ← List.cons_append, ← List.append_assoc, ← List.append_assoc,
    List.getLast?_append]
  rfl

theorem ClobOid.wire.valid {o : ClobOid Decimal64} (h : o.wire) : o.valid := by
  constructor
  · rcases h.typ with h1 | h1 <;> rw [h1] <;> decide
  · rcases h.sid with h1 | h1 <;> rw [h1] <;> decide

theorem OBody.wire.valid {b : OBody Decimal64} (h : b.wire) : b.valid := by
  cases b with
  | unk => exact trivial
  | acc a => exact trivial
  | fil fid exe con => exact fun _ => h.2.1.valid
  | kil o => exact ClobOid.wire.valid h
  | nok o => exact ClobOid.wire.valid h
  | oid o => exact ClobOid.wire.valid h
  | can o => exact ClobOid.wire.valid h
  | ord o =>
      have ho : o.wire := h
      change o.sid.toNat < 2
      rcases ho.sid with h1 | h1 <;> rw [h1] <;> decide

/-- **The round trip of an order message**: what `send_omsg` writes into a buffer large enough ends
in a newline, and `recv_omsg` reads from it a message that says the same, whatever follows. -/
theorem recvOmsg_sendOmsg {m : Omsg Decimal64} (h : m.wire) {bsz : ℕ} {mem : List UInt8}
    (hb : (omsgText m).length ≤ bsz) (hm : bsz ≤ mem.length) (l : Locals) (r : Ptr) :
    ∃ n : ℕ, ∃ s : Buf, sendOmsg bsz m ⟨mem, 0⟩ = .ok (n, s) ∧
      (s.mem.take n).getLast? = some (ch '\n') ∧
      ∃ m', recvOmsg l (s.mem.take n ++ r) n = .ok m' ∧ m'.said = m.said := by
  have hne : m.body ≠ .unk := fun hu => by
    have := h.body
    rw [hu] at this
    exact this
  obtain ⟨s, hs, hh, -⟩ := sendOmsg_fit h.body.valid hb (hb.trans hm)
  have ht : s.mem.take (omsgText m).length = omsgText m := by rw [← hh.len, hh.take]
  refine ⟨(omsgText m).length, s, ?_, ?_, ?_⟩
  · rw [hs, sentLen, if_neg hne]
  · rw [ht, omsgText_newline hne]
  · rw [ht]
    exact recvOmsg_omsgText l h r

/-- One share of `X` at `2.5`, half of it hidden. -/
def sampleOrder : Omsg Decimal64 :=
  ⟨bytes ['X'], .ord ⟨clobTypeLmt, clobSideBid, ⟨0x31a0000000000005, 0x31a0000000000005⟩,
    0x31a0000000000019, 0, 0⟩⟩

theorem wire_of {x : Decimal64} (h : x.finite ∧ (mantBid64 x).toNat < 10 ^ 15 ∧
    -15 ≤ quantexpbid64 x ∧ quantexpbid64 x ≤ 0) : x.wire := ⟨h.1, h.2.1, h.2.2.1, h.2.2.2⟩

theorem sampleOrder_wire : sampleOrder.wire where
  ins := by decide
  body := by
    refine ⟨Or.inl rfl, Or.inr rfl, wire_of (by decide), wire_of (by decide), ?_,
      fun _ => wire_of (by decide)⟩
    exact Decimal64.val_nonneg (by decide)

theorem sampleOrder_trip : ∃ n : ℕ, ∃ s : Buf,
    sendOmsg 64 sampleOrder ⟨List.replicate 64 0, 0⟩ = .ok (n, s) ∧
      (s.mem.take n).getLast? = some (ch '\n') ∧
      ∃ m', recvOmsg ⟨0, nilOid⟩ (s.mem.take n ++ []) n = .ok m' ∧ m'.said = sampleOrder.said :=
  recvOmsg_sendOmsg sampleOrder_wire (by decide +kernel) (by decide) ⟨0, nilOid⟩ []

end Unserlob
