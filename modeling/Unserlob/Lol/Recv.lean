import Unserlob.Lol.Types
import Unserlob.Lib.Writer

/-!
# Reading messages (`recv_omsg`, `recv_qmsg`)

The decoders of `lol.c`, on a pointer to the line and the line's length. The length only goes into
`memchr`; what follows the instrument is read until some byte stops the reader.

* `recvOid`, `recvOrd`, `recvExa`, `recvFil`, `recvTra`, `recvAuc`, `recvImb`, `recvQuo`;
* **`recvOmsg`**, **`recvQmsg`**; `recvOmsg_cols`, `recvOmsg_unk`: lines with and without instrument;
* `Xquo`, **`recvXquo`**: the quotes of the candle maker and its decoder of the same lines.
-/

namespace Unserlob

open Ascii Cursor Writer

/-- The stack where a decoder returns locals it has not set. -/
structure Locals where
  /-- `r.usr` in `_recv_oid` -/
  usr : BitVec 64
  /-- `o` in `_recv_fil` -/
  fid : ClobOid Decimal64

/-- `*p - 'A'` as an enumerator; characters are signed. -/
def sideOf (c : UInt8) : ClobSide := BitVec.ofInt 32 (c.toInt8.toInt - 65)

def nilOid : ClobOid Decimal64 := ⟨0, 0, 0, 0, 0⟩

/-- `_recv_oid` -/
def recvOid (l : Locals) (msg : Ptr) : Res (ClobOid Decimal64) := do
  let c ← deref msg
  if c = ch 'L' ∨ c = ch 'M' then
    let s ← deref (msg.drop 4)
    let (prc, on) ← strtod64 (msg.drop 8)
    let b ← deref on
    if b ≠ ch ' ' then pure nilOid
    else
      -- and lastly read the qid
      let (qid, _) ← strtou on.tail
      pure ⟨if c = ch 'L' then clobTypeLmt else clobTypeMkt, sideOf s, prc, qid, l.usr⟩
  else pure nilOid

/-- The hidden part of a quantity, if there is one. -/
def recvHid (on : Ptr) : Res (Decimal64 × Ptr) := do
  let c ← deref on
  if c = ch '+' then strtod64 on.tail else pure (zerodd, on)

/-- `_recv_ord` -/
def recvOrd (msg ord : Ptr) : Res (ClobOrd Decimal64) := do
  let b ← deref msg
  -- the order starts out zeroed, which is the side of a sale
  let sid := if b = ch 'B' then clobSideBid else clobSideAsk
  -- read quantity
  let (dis, on) ← strtod64 ord
  let (hid, on) ← recvHid on
  let c ← deref on
  if c = ch '\t' then
    -- got limit prices as well
    let (lmt, _) ← strtod64 on.tail
    pure ⟨clobTypeLmt, sid, ⟨dis, hid⟩, lmt, 0, 0⟩
  else pure ⟨clobTypeMkt, sid, ⟨dis, hid⟩, 0, NAND64, 0⟩

/-- A number, a tab and a number, as five of the readers do it. -/
def recvPair (msg : Ptr) : Res (Option (Decimal64 × Decimal64)) := do
  let (x, on) ← strtod64 msg
  let c ← deref on
  if c ≠ ch '\t' then pure none
  else
    let (y, _) ← strtod64 on.tail
    pure (some (x, y))

/-- `_recv_exa` -/
def recvExa (msg : Ptr) : Res (UnxsExa Decimal64) := do
  match ← recvPair msg with
  | some (base, term) => pure ⟨base, term⟩
  | none => pure ⟨0, 0⟩

/-- `_recv_fil` -/
def recvFil (l : Locals) (msg : Ptr) : Res (OBody Decimal64) := do
  let (qty, on) ← strtod64 msg
  let c ← deref on
  if c ≠ ch '\t' then pure (.fil nilOid ⟨zerodd, NAND64⟩ 0)
  else
    let (prc, on) ← strtod64 on.tail
    let (u, on) ← strtou on
    -- there's possibly an order id coming now
    let c ← deref on
    let fid ← if c = ch '\t' then recvOid l on.tail else pure l.fid
    pure (.fil fid ⟨qty, prc⟩ (u.setWidth 32))

/-- `_recv_tra` -/
def recvTra (msg : Ptr) : Res (QuosMsg Decimal64) := do
  match ← recvPair msg with
  | some (prc, new) => pure ⟨nclobSides, prc, new⟩
  | none => pure ⟨nclobSides, NAND64, zerodd⟩

/-- `_recv_auc` -/
def recvAuc (msg : Ptr) : Res (MmodAuc Decimal64) := do
  match ← recvPair msg with
  | some (prc, qty) => pure ⟨prc, qty, zerodd⟩
  | none => pure ⟨NAND64, zerodd, zerodd⟩

/-- `_recv_imb` -/
def recvImb (msg : Ptr) : Res (MmodAuc Decimal64) := do
  match ← recvPair msg with
  | some (prc, imb) => pure ⟨prc, zerodd, imb⟩
  | none => pure ⟨NAND64, zerodd, zerodd⟩

/-- `_recv_quo` -/
def recvQuo (msg quo : Ptr) : Res (QuosMsg Decimal64) := do
  let c ← deref msg
  match ← recvPair quo with
  | some (prc, new) => pure ⟨sideOf c, prc, new⟩
  | none => pure ⟨sideOf c, NAND64, zerodd⟩

/-- The columns of an order message after the instrument, by the message's first four bytes. -/
def recvBody (l : Locals) (msg on : Ptr) : Res (OBody Decimal64) := do
  if ← memcmp msg (bytes ['O', 'I', 'D', '\t']) then return .oid (← recvOid l on)
  else if ← memcmp msg (bytes ['A', 'C', 'C', '\t']) then return .acc (← recvExa on)
  else if ← memcmp msg (bytes ['F', 'I', 'L', '\t']) then recvFil l on
  else if ← memcmp msg (bytes ['K', 'I', 'L', '\t']) then return .kil (← recvOid l on)
  else if ← memcmp msg (bytes ['N', 'O', 'K', '\t']) then return .nok (← recvOid l on)
  else if ← memcmp msg (bytes ['B', 'U', 'Y', '\t']) then return .ord (← recvOrd msg on)
  else if ← memcmp msg (bytes ['S', 'E', 'L', '\t']) then return .ord (← recvOrd msg on)
  else if ← memcmp msg (bytes ['C', 'A', 'N', '\t']) then return .can (← recvOid l on)
  else return .unk

/-- The instrument that starts `k` bytes into the line and what follows its tab. -/
def snarf (msg : Ptr) (msz k : ℕ) : Res (Option (List UInt8 × Ptr)) := do
  let ins := msg.drop k
  match ← memchr (ch '\t') ins (subSz msz k) with
  | none => pure none
  | some eoi => pure (some (ins.take eoi, ins.drop (eoi + 1)))

/-- `recv_omsg`; an unknown message comes without its instrument. -/
def recvOmsg (l : Locals) (msg : Ptr) (msz : ℕ) : Res (Omsg Decimal64) := do
  match ← snarf msg msz 4 with
  | none => pure ⟨[], .unk⟩
  | some (ins, on) =>
    match ← recvBody l msg on with
    | .unk => pure ⟨[], .unk⟩
    | b => pure ⟨ins, b⟩

/-- The lines that start with `A` or `B`. -/
def recvLevel (msg : Ptr) (msz : ℕ) : Res (Qmsg Decimal64) := do
  let c ← deref (msg.drop 2)
  if c ≠ ch '\t' then pure ⟨[], .unk⟩
  else
    match ← snarf msg msz 3 with
    | none => pure ⟨[], .unk⟩
    | some (ins, on) =>
      let t ← deref (msg.drop 1)
      if t = ch '1' then return ⟨ins, .top (← recvQuo msg on)⟩
      else if t = ch '2' then return ⟨ins, .lvl (← recvQuo msg on)⟩
      else pure ⟨[], .unk⟩

/-- The lines that start with four known bytes. -/
def recvCols (msg : Ptr) (msz : ℕ) (f : Ptr → Res (QBody Decimal64)) : Res (Qmsg Decimal64) := do
  match ← snarf msg msz 4 with
  | none => pure ⟨[], .unk⟩
  | some (ins, on) => return ⟨ins, ← f on⟩

/-- `recv_qmsg` -/
def recvQmsg (msg : Ptr) (msz : ℕ) : Res (Qmsg Decimal64) := do
  let c ← deref msg
  if c = ch 'A' then
    if ← memcmp msg (bytes ['A', 'U', 'C', '\t']) then
      recvCols msg msz fun on => QBody.auc <$> recvAuc on
    else recvLevel msg msz
  else if c = ch 'B' then recvLevel msg msz
  else if c = ch 'I' then
    if ← memcmp msg (bytes ['I', 'M', 'B', '\t']) then
      recvCols msg msz fun on => QBody.imb <$> recvImb on
    else pure ⟨[], .unk⟩
  else if c = ch 'T' then
    if ← memcmp msg (bytes ['T', 'R', 'A', '\t']) then
      recvCols msg msz fun on => QBody.tra <$> recvTra on
    else pure ⟨[], .unk⟩
  else pure ⟨[], .unk⟩

/-- **The instrument is found where it was written.** -/
theorem snarf_text {h ins : List UInt8} (hins : ch '\t' ∉ ins) (on r : Ptr) :
    snarf (h ++ (ins ++ ch '\t' :: (on ++ r))) (h ++ (ins ++ ch '\t' :: on)).length h.length =
      .ok (some (ins, on ++ r)) := by
  have hn : ins.length < subSz (h ++ (ins ++ ch '\t' :: on)).length h.length := by
    rw [subSz_of_le (by rw [List.length_append]; omega)]
    simp only [List.length_append, List.length_cons]
    omega
  have hon : (ins ++ ch '\t' :: (on ++ r)).drop (ins.length + 1) = on ++ r := by
    rw [← List.drop_drop, List.drop_left]; rfl
  simp only [snarf, List.drop_left, memchr_append hins _ hn, bind, Except.bind, hon, List.take_left]
  rfl

theorem snarf_none (h : List UInt8) {t : List UInt8} (ht : ch '\t' ∉ t) (r : Ptr) :
    snarf (h ++ (t ++ r)) (h ++ t).length h.length = .ok none := by
  have hn : subSz (h ++ t).length h.length = t.length := by
    rw [List.length_append, subSz_of_le (by omega), Nat.add_sub_cancel_left]
  simp only [snarf, List.drop_left, hn, memchr_none ht, bind, Except.bind]
  rfl

theorem recvOid_side (l : Locals) {c s : UInt8} {t : Ptr} (hc : c = ch 'L' ∨ c = ch 'M')
    (hs : deref ((c :: t).drop 4) = .ok s) : recvOid l (c :: t) = (do
      let (prc, on) ← strtod64 ((c :: t).drop 8)
      let b ← deref on
      if b ≠ ch ' ' then pure nilOid
      else
        let (qid, _) ← strtou on.tail
        pure ⟨if c = ch 'L' then clobTypeLmt else clobTypeMkt, sideOf s, prc, qid, l.usr⟩) := by
  simp only [recvOid, deref_cons, hs, bind, Except.bind, if_pos hc]

theorem recvQuo_cons (c : UInt8) (msg quo : Ptr) : recvQuo (c :: msg) quo =
    recvPair quo >>= fun o => match o with
      | some (prc, new) => pure ⟨sideOf c, prc, new⟩
      | none => pure ⟨sideOf c, NAND64, zerodd⟩ := rfl

theorem recvLevel_tab (c d : UInt8) (t : Ptr) (n : ℕ) : recvLevel ([c, d, ch '\t'] ++ t) n =
    snarf ([c, d, ch '\t'] ++ t) n 3 >>= fun o => match o with
      | none => pure ⟨[], .unk⟩
      | some (ins, on) =>
        if d = ch '1' then recvQuo ([c, d, ch '\t'] ++ t) on >>= fun q => pure ⟨ins, .top q⟩
        else if d = ch '2' then recvQuo ([c, d, ch '\t'] ++ t) on >>= fun q => pure ⟨ins, .lvl q⟩
        else pure ⟨[], .unk⟩ := rfl

/-! ## Lines of order messages -/

theorem memcmp_head {w v : List UInt8} (h : w.length = v.length) (r : Ptr) :
    memcmp (w ++ r) v = .ok (decide (w = v)) := by
  rw [memcmp_eq (by rw [List.length_append]; omega), ← h, List.take_left]

theorem recvBody_head (l : Locals) {w : List UInt8} (hw : w.length = 4) (r on : Ptr) :
    recvBody l (w ++ r) on =
      if w = bytes ['O', 'I', 'D', '\t'] then OBody.oid <$> recvOid l on
      else if w = bytes ['A', 'C', 'C', '\t'] then OBody.acc <$> recvExa on
      else if w = bytes ['F', 'I', 'L', '\t'] then recvFil l on
      else if w = bytes ['K', 'I', 'L', '\t'] then OBody.kil <$> recvOid l on
      else if w = bytes ['N', 'O', 'K', '\t'] then OBody.nok <$> recvOid l on
      else if w = bytes ['B', 'U', 'Y', '\t'] then OBody.ord <$> recvOrd (w ++ r) on
      else if w = bytes ['S', 'E', 'L', '\t'] then OBody.ord <$> recvOrd (w ++ r) on
      else if w = bytes ['C', 'A', 'N', '\t'] then OBody.can <$> recvOid l on
      else .ok .unk := by
  have hm : ∀ a b c d : Char, memcmp (w ++ r) (bytes [a, b, c, d]) =
      .ok (decide (w = bytes [a, b, c, d])) := fun a b c d => memcmp_head hw r
  simp only [recvBody, hm, bind, Except.bind, decide_eq_true_eq, pure, Except.pure]
  rfl

theorem select {α : Type} {w : List UInt8} {msg : Ptr} {x y : Res α} {a : α}
    (h : (do if ← memcmp msg w then x else y) = .ok a) : (w <+: msg ∧ x = .ok a) ∨ y = .ok a := by
  obtain ⟨b, hb, h⟩ := bind_ok.mp h
  cases b with
  | true =>
      obtain ⟨r, hr⟩ := memcmp_true hb
      exact .inl ⟨⟨r, hr.symm⟩, h⟩
  | false => exact .inr h

theorem recvFil_fil {l : Locals} {on : Ptr} {b : OBody Decimal64} (h : recvFil l on = .ok b) :
    ∃ fid exe con, b = .fil fid exe con := by
  obtain ⟨⟨qty, p⟩, -, h⟩ := bind_ok.mp h
  obtain ⟨c, -, h⟩ := bind_ok.mp h
  split_ifs at h
  · exact ⟨_, _, _, (Except.ok.inj h).symm⟩
  · obtain ⟨⟨prc, q⟩, -, h⟩ := bind_ok.mp h
    obtain ⟨⟨u, v⟩, -, h⟩ := bind_ok.mp h
    obtain ⟨d, -, h⟩ := bind_ok.mp h
    simp only at h
    split_ifs at h
    · obtain ⟨o, -, h⟩ := bind_ok.mp h
      exact ⟨_, _, _, (Except.ok.inj h).symm⟩
    · exact ⟨_, _, _, (Except.ok.inj h).symm⟩

/-- **What is read from the columns**, by the first four bytes. -/
inductive ReadBody (l : Locals) (msg on : Ptr) : OBody Decimal64 → Prop
  | oid {o : ClobOid Decimal64} (hw : bytes ['O', 'I', 'D', '\t'] <+: msg) (ho : recvOid l on = .ok o) : ReadBody l msg on (.oid o)
  | acc {a : UnxsExa Decimal64} (hw : bytes ['A', 'C', 'C', '\t'] <+: msg) (ha : recvExa on = .ok a) : ReadBody l msg on (.acc a)
  | fil {b : OBody Decimal64} (hw : bytes ['F', 'I', 'L', '\t'] <+: msg) (hb : recvFil l on = .ok b) : ReadBody l msg on b
  | kil {o : ClobOid Decimal64} (hw : bytes ['K', 'I', 'L', '\t'] <+: msg) (ho : recvOid l on = .ok o) : ReadBody l msg on (.kil o)
  | nok {o : ClobOid Decimal64} (hw : bytes ['N', 'O', 'K', '\t'] <+: msg) (ho : recvOid l on = .ok o) : ReadBody l msg on (.nok o)
  | buy {o : ClobOrd Decimal64} (hw : bytes ['B', 'U', 'Y', '\t'] <+: msg) (ho : recvOrd msg on = .ok o) : ReadBody l msg on (.ord o)
  | sel {o : ClobOrd Decimal64} (hw : bytes ['S', 'E', 'L', '\t'] <+: msg) (ho : recvOrd msg on = .ok o) : ReadBody l msg on (.ord o)
  | can {o : ClobOid Decimal64} (hw : bytes ['C', 'A', 'N', '\t'] <+: msg) (ho : recvOid l on = .ok o) : ReadBody l msg on (.can o)
  | unk : ReadBody l msg on .unk

theorem recvBody_cases {l : Locals} {msg on : Ptr} {b : OBody Decimal64} (h : recvBody l msg on = .ok b) :
    ReadBody l msg on b := by
  have hread : ∀ {α : Type} {x : Res α} {f : α → OBody Decimal64}, (x >>= fun a => pure (f a)) = .ok b →
      ∃ a, x = .ok a ∧ b = f a := by
    intro α x f h
    obtain ⟨a, ha, h⟩ := bind_ok.mp h
    exact ⟨a, ha, (Except.ok.inj h).symm⟩
  unfold recvBody at h
  rcases select h with ⟨hw, h⟩ | h
  · obtain ⟨o, ho, rfl⟩ := hread h
    exact .oid hw ho
  rcases select h with ⟨hw, h⟩ | h
  · obtain ⟨a, ha, rfl⟩ := hread h
    exact .acc hw ha
  rcases select h with ⟨hw, h⟩ | h
  · exact .fil hw h
  rcases select h with ⟨hw, h⟩ | h
  · obtain ⟨o, ho, rfl⟩ := hread h
    exact .kil hw ho
  rcases select h with ⟨hw, h⟩ | h
  · obtain ⟨o, ho, rfl⟩ := hread h
    exact .nok hw ho
  rcases select h with ⟨hw, h⟩ | h
  · obtain ⟨o, ho, rfl⟩ := hread h
    exact .buy hw ho
  rcases select h with ⟨hw, h⟩ | h
  · obtain ⟨o, ho, rfl⟩ := hread h
    exact .sel hw ho
  rcases select h with ⟨hw, h⟩ | h
  · obtain ⟨o, ho, rfl⟩ := hread h
    exact .can hw ho
  · rw [← Except.ok.inj h]
    exact .unk

/-- What follows the instrument; there is one in a message that is known. -/
theorem recvOmsg_body {l : Locals} {msg : Ptr} {n : ℕ} {m : Omsg Decimal64} (h : recvOmsg l msg n = .ok m) :
    (m.body = .unk ∧ snarf msg n 4 = .ok none) ∨
      ∃ ins on, snarf msg n 4 = .ok (some (ins, on)) ∧ recvBody l msg on = .ok m.body := by
  obtain ⟨x, hs, h⟩ := bind_ok.mp h
  cases x with
  | none => exact .inl ⟨by rw [← Except.ok.inj h], hs⟩
  | some p =>
      obtain ⟨b, hb, h⟩ := bind_ok.mp h
      refine .inr ⟨p.1, p.2, hs, ?_⟩
      rw [hb]
      cases b <;> exact congrArg (fun m => Except.ok (Omsg.body m)) (Except.ok.inj h)

theorem recvOmsg_cols (l : Locals) {h ins : List UInt8} (hh : h.length = 4) (hins : ch '\t' ∉ ins)
    (on r : Ptr) :
    recvOmsg l (h ++ (ins ++ ch '\t' :: (on ++ r))) (h ++ (ins ++ ch '\t' :: on)).length =
      (recvBody l (h ++ (ins ++ ch '\t' :: (on ++ r))) (on ++ r)).map fun b =>
        ⟨if b = .unk then [] else ins, b⟩ := by
  have hs := snarf_text (h := h) hins on r
  rw [hh] at hs
  simp only [recvOmsg, hs, bind, Except.bind]
  cases recvBody l (h ++ (ins ++ ch '\t' :: (on ++ r))) (on ++ r) with
  | error e => rfl
  | ok b => cases b <;> rfl

theorem recvOmsg_unk (l : Locals) {h t : List UInt8} (hh : h.length = 4) (ht : ch '\t' ∉ t) (r : Ptr) :
    recvOmsg l (h ++ (t ++ r)) (h ++ t).length = .ok ⟨[], .unk⟩ := by
  have hs := snarf_none h ht r
  rw [hh] at hs
  simp only [recvOmsg, hs, bind, Except.bind]
  rfl

/-! ## The candle maker (`lobcch.c`) -/

/-- `side_t` of the quote books. -/
abbrev Side := BitVec 32

def sideAsk : Side := 1

def sideBid : Side := 2

/-- `xquo_t`: side, flavour, price, quantity and instrument. -/
structure Xquo where
  s : Side
  f : BitVec 32
  p : Decimal64
  q : Decimal64
  ins : List UInt8
  deriving DecidableEq

/-- `c ^ k` as an enumerator. -/
def xorByte (c k : UInt8) : BitVec 32 := BitVec.ofInt 32 ((c ^^^ k).toInt8.toInt)

/-- The label `pq` of `recv_quo`: price, tab and quantity. -/
def recvPq (s : Side) (f : BitVec 32) (ins : List UInt8) (on : Ptr) : Res (Option Xquo) := do
  match ← recvPair on with
  | some (p, q) => pure (some ⟨s, f, p, q, ins⟩)
  | none => pure none

/-- The `A` and `B` lines of `recv_quo`. -/
def recvXlevel (msg : Ptr) (msz : ℕ) : Res (Option Xquo) := do
  let c ← deref (msg.drop 2)
  if c ≠ ch '\t' then pure none
  else
    match ← snarf msg msz 3 with
    | none => pure none
    | some (ins, on) =>
      let s ← deref msg
      let f ← deref (msg.drop 1)
      recvPq (xorByte s (ch '@')) (xorByte f (ch '0')) ins on

/-- `recv_quo`, with `none` for `NOT_A_XQUO`; `sideDel` is the books' `SIDE_DEL` and `f` the flavour
the stack holds, which a trade leaves as it is. -/
def recvXquo (sideDel : Side) (f : BitVec 32) (msg : Ptr) (msz : ℕ) : Res (Option Xquo) := do
  let c ← deref msg
  if c = ch 'A' then
    if ← memcmp msg (bytes ['A', 'U', 'C', '\t']) then pure none
    else recvXlevel msg msz
  else if c = ch 'B' then recvXlevel msg msz
  else if c = ch 'T' then
    let t ← deref (msg.drop 3)
    if t ≠ ch '\t' then pure none
    else
      match ← snarf msg msz 4 with
      | none => pure none
      | some (ins, on) => recvPq sideDel f ins on
  else pure none

end Unserlob
