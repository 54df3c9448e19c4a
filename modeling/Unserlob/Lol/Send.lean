import Unserlob.Lol.Types

/-!
# Writing messages (`send_omsg`, `send_qmsg`)

The encoders of `lol.c`. A sub-encoder gets `buf + len` and `bsz - len` in the source and its result
is added to `len`; here it goes on in the same buffer, which comes to the same stores and sizes.

* `sendOmsg`, `sendQmsg`: the source's functions;
* `omsgText`, `qmsgText`: the text of a message;
* **`sendOmsg_fit`**, **`sendOmsg_over`**, `sendOmsg_invalid`: a message with enumerators in their
  range is written completely when its text fits and overruns the buffer when it does not;
* **`sendQmsg_fit`**, **`sendQmsg_over`**: the same for quotes.
-/

namespace Unserlob

open Ascii Cursor Writer

/-- `typs` -/
def oidTyps : List (List UInt8) := [bytes ['L', 'M', 'T', ' '], bytes ['M', 'K', 'T', ' ']]

/-- `sids` -/
def oidSids : List (List UInt8) := [bytes ['A', 'S', 'K', ' '], bytes ['B', 'I', 'D', ' ']]

/-- `_send_oid` -/
def sendOid (bsz : ℕ) (oid : ClobOid Decimal64) : Put := do
  puts (← entry oidTyps oid.typ.toNat)
  puts (← entry oidSids oid.sid.toNat)
  d64tostr bsz oid.prc
  putc (ch ' ')
  snprintf bsz (decimal oid.qid.toNat)
  putc (ch '\n')

/-- `_send_ord` -/
def sendOrd (bsz : ℕ) (ord : ClobOrd Decimal64) : Put := do
  d64tostr bsz ord.qty.dis
  if gtZero ord.qty.hid then
    putc (ch '+')
    d64tostr bsz ord.qty.hid
  if ord.typ = clobTypeLmt then
    putc (ch '\t')
    d64tostr bsz ord.lmt
  putc (ch '\n')

/-- `_send_exa` -/
def sendExa (bsz : ℕ) (a : UnxsExa Decimal64) : Put := do
  d64tostr bsz a.base
  putc (ch '\t')
  d64tostr bsz a.term
  putc (ch '\n')

/-- `_send_exe` -/
def sendExe (bsz : ℕ) (x : UnxsExe Decimal64) (u : Uid) : Put := do
  d64tostr bsz x.qty
  putc (ch '\t')
  d64tostr bsz x.prc
  putc (ch '\t')
  snprintf bsz (decimal u.toNat)
  putc (ch '\n')

/-- `typ`, four bytes a row -/
def omsgTyps : List (List UInt8) :=
  [bytes ['U', 'N', 'K', '\t'], bytes ['A', 'C', 'C', '\t'], bytes ['F', 'I', 'L', '\t'],
    bytes ['K', 'I', 'L', '\t'], bytes ['N', 'O', 'K', '\t'], bytes ['O', 'I', 'D', '\t'],
    bytes ['C', 'A', 'N', '\t'], bytes ['O', 'R', 'D', '\t']]

/-- `sid`, four bytes a row -/
def ordSids : List (List UInt8) := [bytes ['S', 'E', 'L', '\t'], bytes ['B', 'U', 'Y', '\t']]

/-- What `send_omsg` stores after the instrument. -/
def sendBody (bsz : ℕ) : OBody Decimal64 → Put
  | .ord o => do
      poke 0 (← entry ordSids o.sid.toNat)
      sendOrd bsz o
  | .can o => sendOid bsz o
  | .acc a => sendExa bsz a
  | .fil fid exe con => do
      sendExe bsz exe con
      -- possibly sending the order id as well
      if fid.qid ≠ 0 then
        patch (ch '\t')
        sendOid bsz fid
  | .kil o => sendOid bsz o
  | .nok o => sendOid bsz o
  | .oid o => sendOid bsz o
  | .unk => pure ()

/-- The stores of `send_omsg`. -/
def putOmsg (bsz : ℕ) (m : Omsg Decimal64) : Put := do
  puts (← entry omsgTyps m.body.typ)
  puts m.ins
  putc (ch '\t')
  sendBody bsz m.body

/-- `send_omsg`, which returns the length, or `-1` for the types that are not sent. -/
def sendOmsg (bsz : ℕ) (m : Omsg Decimal64) : StateT Buf (Except Fault) ℤ := do
  putOmsg bsz m
  if m.body = .unk then pure (-1) else return (← get).len

/-- `ins \t prc \t qty \n`, written three times in `send_qmsg`. -/
def sendPair (bsz : ℕ) (ins : List UInt8) (prc qty : Decimal64) : Put := do
  puts ins
  putc (ch '\t')
  d64tostr bsz prc
  putc (ch '\t')
  d64tostr bsz qty
  putc (ch '\n')

/-- The `TOP` and `LVL` cases of `send_qmsg`. -/
def sendLevel (bsz : ℕ) (ins : List UInt8) (typ : ℕ) (quo : QuosMsg Decimal64) : Put := do
  putc (UInt8.ofNat (quo.sid.toNat + (ch 'A').toNat))
  putc (UInt8.ofNat (typ ^^^ (ch '0').toNat))
  putc (ch '\t')
  sendPair bsz ins quo.prc quo.new

/-- The message types `send_qmsg` writes; anything else returns `0` at once. -/
def QBody.sent : QBody Decimal64 → Prop
  | .unk => False
  | .top q | .lvl q => q.sid = clobSideAsk ∨ q.sid = clobSideBid
  | _ => True

instance : DecidablePred QBody.sent := fun b => by
  cases b <;> unfold QBody.sent <;> infer_instance

/-- The stores of `send_qmsg`. -/
def putQmsg (bsz : ℕ) (m : Qmsg Decimal64) : Put :=
  match m.body with
  | .top q => sendLevel bsz m.ins m.body.typ q
  | .lvl q => sendLevel bsz m.ins m.body.typ q
  | .tra q => do
      puts (bytes ['T', 'R', 'A', '\t'])
      sendPair bsz m.ins q.prc q.new
  | .auc a => do
      puts (bytes ['A', 'U', 'C', '\t'])
      sendPair bsz m.ins a.prc a.qty
  | .imb a => do
      puts (bytes ['I', 'M', 'B', '\t'])
      sendPair bsz m.ins a.prc a.imb
  | .unk => pure ()

/-- `send_qmsg` -/
def sendQmsg (bsz : ℕ) (m : Qmsg Decimal64) : StateT Buf (Except Fault) ℤ := do
  if m.body.sent then
    putQmsg bsz m
    return (← get).len
  else pure 0

/-! ## The texts -/

/-- `LMT ASK 1.5 42` -/
def oidText (o : ClobOid Decimal64) : List UInt8 :=
  text oidTyps o.typ.toNat ++ (text oidSids o.sid.toNat ++
    (d64Text o.prc ++ ch ' ' :: (decimal o.qid.toNat ++ [ch '\n'])))

/-- The price column of an order, with the newline. -/
def lmtText (o : ClobOrd Decimal64) : List UInt8 :=
  if o.typ = clobTypeLmt then ch '\t' :: (d64Text o.lmt ++ [ch '\n']) else [ch '\n']

/-- `Q[+H][\t P]` -/
def ordText (o : ClobOrd Decimal64) : List UInt8 :=
  d64Text o.qty.dis ++
    if gtZero o.qty.hid then ch '+' :: (d64Text o.qty.hid ++ lmtText o) else lmtText o

/-- Two columns. -/
def pairText (x y : Decimal64) : List UInt8 := d64Text x ++ ch '\t' :: (d64Text y ++ [ch '\n'])

/-- `Q \t P \t U`, without the newline. -/
def exeText (x : UnxsExe Decimal64) (u : Uid) : List UInt8 :=
  d64Text x.qty ++ ch '\t' :: (d64Text x.prc ++ ch '\t' :: decimal u.toNat)

/-- The first four bytes; an order shows its side instead of its type. -/
def OBody.head : OBody Decimal64 → List UInt8
  | .ord o => text ordSids o.sid.toNat
  | b => text omsgTyps b.typ

/-- What comes after the instrument. -/
def OBody.tail : OBody Decimal64 → List UInt8
  | .unk => []
  | .acc a => pairText a.base a.term
  | .fil fid exe con =>
      exeText exe con ++ if fid.qid ≠ 0 then ch '\t' :: oidText fid else [ch '\n']
  | .kil o => oidText o
  | .nok o => oidText o
  | .oid o => oidText o
  | .can o => oidText o
  | .ord o => ordText o

/-- **The text of an order message.** -/
def omsgText (m : Omsg Decimal64) : List UInt8 := m.body.head ++ (m.ins ++ ch '\t' :: m.body.tail)

/-- The first column of a quote message, with its tab. -/
def QBody.head : QBody Decimal64 → List UInt8
  | .top q => bytes [if q.sid = clobSideAsk then 'A' else 'B', '1', '\t']
  | .lvl q => bytes [if q.sid = clobSideAsk then 'A' else 'B', '2', '\t']
  | .tra _ => bytes ['T', 'R', 'A', '\t']
  | .auc _ => bytes ['A', 'U', 'C', '\t']
  | .imb _ => bytes ['I', 'M', 'B', '\t']
  | .unk => []

/-- The two numbers of a quote message. -/
def QBody.cols : QBody Decimal64 → Decimal64 × Decimal64
  | .top q | .lvl q | .tra q => (q.prc, q.new)
  | .auc a => (a.prc, a.qty)
  | .imb a => (a.prc, a.imb)
  | .unk => (NAND64, NAND64)

/-- **The text of a quote message.** -/
def qmsgText (m : Qmsg Decimal64) : List UInt8 :=
  m.body.head ++ (m.ins ++ ch '\t' :: pairText m.body.cols.1 m.body.cols.2)

/-! ## Order messages -/

/-- The enumerators index the tables of texts. -/
def ClobOid.valid (o : ClobOid Decimal64) : Prop := o.typ.toNat < 2 ∧ o.sid.toNat < 2

instance : DecidablePred ClobOid.valid := fun _ => inferInstanceAs (Decidable (_ ∧ _))

/-- The enumerators that are sent index the tables of texts. -/
def OBody.valid : OBody Decimal64 → Prop
  | .unk => True
  | .acc _ => True
  | .fil fid _ _ => fid.qid ≠ 0 → fid.valid
  | .kil o | .nok o | .oid o | .can o => o.valid
  | .ord o => o.sid.toNat < 2

instance : DecidablePred OBody.valid := fun b => by
  cases b <;> unfold OBody.valid <;> infer_instance

variable {bsz : ℕ}

theorem emits_sendOid {o : ClobOid Decimal64} (h : o.valid) : Emits bsz (sendOid bsz o) (oidText o) := by
  rw [sendOid, entry_bind h.1, entry_bind h.2]
  exact (Emits.puts bsz _).seq ((Emits.puts bsz _).seq
    ((prints_d64tostr bsz _).seq _ ((Prints.snprintf bsz _).putc _)))

theorem fails_sendOid {o : ClobOid Decimal64} (h : ¬ o.valid) : Fails (sendOid bsz o) := by
  rw [sendOid]
  by_cases ht : o.typ.toNat < oidTyps.length
  · rw [entry_bind ht]
    exact Fails.bind _ fun _ => Fails.entry fun hs => h ⟨ht, hs⟩
  · exact Fails.entry ht

theorem emits_sendExa (a : UnxsExa Decimal64) :
    Emits bsz (sendExa bsz a) (pairText a.base a.term) :=
  (prints_d64tostr bsz _).seq _ ((prints_d64tostr bsz _).putc _)

variable (bsz) in
theorem emits_sendExe (x : UnxsExe Decimal64) (u : Uid) :
    Emits bsz (sendExe bsz x u) (exeText x u ++ [ch '\n']) := by
  have h := (prints_d64tostr bsz x.qty).seq (ch '\t') ((prints_d64tostr bsz x.prc).seq (ch '\t')
    ((Prints.snprintf bsz (decimal u.toNat)).putc (ch '\n')))
  have ht : exeText x u ++ [ch '\n'] = d64Text x.qty ++ ch '\t' :: (d64Text x.prc ++
      ch '\t' :: (decimal u.toNat ++ [ch '\n'])) := by
    simp only [exeText, List.append_assoc, List.cons_append]
  rw [ht]
  exact h

theorem emits_sendLmt {w : Put} {t : List UInt8} (h : Prints bsz w t) (o : ClobOrd Decimal64) :
    Emits bsz (w >>= fun _ => do
      if o.typ = clobTypeLmt then
        putc (ch '\t')
        d64tostr bsz o.lmt
      putc (ch '\n')) (t ++ lmtText o) := by
  rw [lmtText]
  by_cases hl : o.typ = clobTypeLmt
  · simp only [if_pos hl]
    exact h.seq _ ((prints_d64tostr bsz _).putc _)
  · simp only [if_neg hl]
    exact h.putc _

theorem emits_sendOrd (o : ClobOrd Decimal64) : Emits bsz (sendOrd bsz o) (ordText o) := by
  rw [sendOrd, ordText]
  by_cases hh : gtZero o.qty.hid = true
  · simp only [if_pos hh]
    exact (prints_d64tostr bsz _).seq _ (emits_sendLmt (prints_d64tostr bsz _) o)
  · simp only [if_neg hh]
    exact emits_sendLmt (prints_d64tostr bsz _) o

theorem typ_lt (b : OBody Decimal64) : b.typ < omsgTyps.length := by
  have h : b.typ < 8 := by cases b <;> simp [OBody.typ]
  exact h

theorem takes_header {m : Omsg Decimal64} {R : List UInt8}
    (h : Takes bsz (text omsgTyps m.body.typ ++ (m.ins ++ [ch '\t'])) (sendBody bsz m.body) R)
    (hle : (text omsgTyps m.body.typ ++ (m.ins ++ [ch '\t'])).length ≤ R.length) :
    Takes bsz [] (putOmsg bsz m) R := by
  have hh : Emits bsz (puts (text omsgTyps m.body.typ) >>= fun _ => puts m.ins >>= fun _ =>
      putc (ch '\t')) (text omsgTyps m.body.typ ++ (m.ins ++ [ch '\t'])) :=
    (Emits.puts bsz _).seq ((Emits.puts bsz _).seq (Emits.putc bsz _))
  have hs := (hh []).seq h hle
  rw [bind_assoc] at hs
  simp only [bind_assoc] at hs
  rw [putOmsg, entry_bind (typ_lt m.body)]
  exact hs

theorem omsgText_of_head {m : Omsg Decimal64} (h : m.body.head = text omsgTyps m.body.typ) :
    omsgText m = text omsgTyps m.body.typ ++ (m.ins ++ [ch '\t']) ++ m.body.tail := by
  rw [omsgText, h]
  simp

theorem emits_fil {fid : ClobOid Decimal64} (exe : UnxsExe Decimal64) (con : Uid)
    (h : fid.qid ≠ 0 → fid.valid) :
    Emits bsz (sendBody bsz (.fil fid exe con)) (OBody.tail (.fil fid exe con)) := by
  rw [sendBody, OBody.tail]
  by_cases hq : fid.qid ≠ 0
  · simp only [if_pos hq]
    intro T
    have h1 := emits_sendExe bsz exe con T
    rw [← List.append_assoc] at h1
    have h2 : Takes bsz (T ++ exeText exe con ++ [ch '\n']) (patch (ch '\t'))
      (T ++ exeText exe con ++ [ch '\t']) := Takes.patch _ _
    have h3 := h1.seq (h2.emits (emits_sendOid (h hq))) (by simp)
    simpa using h3
  · simp only [if_neg hq]
    have h1 := emits_sendExe bsz exe con
    simpa using h1

variable (bsz) in
/-- **The stores of `send_omsg` amount to the text of the message.** -/
theorem takes_putOmsg {m : Omsg Decimal64} (h : m.body.valid) :
    Takes bsz [] (putOmsg bsz m) (omsgText m) := by
  obtain ⟨ins, b⟩ := m
  have plain : ∀ {b : OBody Decimal64}, b.head = text omsgTyps b.typ →
      Emits bsz (sendBody bsz b) b.tail → Takes bsz [] (putOmsg bsz ⟨ins, b⟩) (omsgText ⟨ins, b⟩) := by
    intro b hb he
    rw [omsgText_of_head (m := ⟨ins, b⟩) hb]
    exact takes_header (he _) (by simp)
  cases b with
  | unk => exact plain rfl (Emits.pure bsz)
  | acc a => exact plain rfl (emits_sendExa a)
  | fil fid exe con => exact plain rfl (emits_fil exe con h)
  | kil o => exact plain rfl (emits_sendOid h)
  | nok o => exact plain rfl (emits_sendOid h)
  | oid o => exact plain rfl (emits_sendOid h)
  | can o => exact plain rfl (emits_sendOid h)
  | ord o =>
      have hlen : (text omsgTyps (OBody.ord o).typ).length = (text ordSids o.sid.toNat).length := by
        have h2 : o.sid.toNat < 2 := h
        interval_cases o.sid.toNat <;> rfl
      -- the side is stored over the type
      have hp : Takes bsz (text omsgTyps (OBody.ord o).typ ++ (ins ++ [ch '\t']))
          (poke 0 (text ordSids o.sid.toNat))
          (text ordSids o.sid.toNat ++ (ins ++ [ch '\t'])) :=
        Takes.poke (A := []) (B := ins ++ [ch '\t']) hlen
      have ht : omsgText ⟨ins, .ord o⟩ =
          text ordSids o.sid.toNat ++ (ins ++ [ch '\t']) ++ ordText o := by
        simp [omsgText, OBody.head, OBody.tail]
      refine takes_header ?_ ?_
      · rw [sendBody, entry_bind h, ht]
        exact hp.emits (emits_sendOrd o)
      · simp only [ht, List.length_append, hlen]
        exact Nat.le_add_right _ _

variable (bsz) in
theorem fails_putOmsg {m : Omsg Decimal64} (h : ¬ m.body.valid) : Fails (putOmsg bsz m) := by
  refine Fails.bind _ fun _ => Fails.bind _ fun _ => Fails.bind _ fun _ => Fails.bind _ fun _ => ?_
  obtain ⟨ins, b⟩ := m
  cases b with
  | unk => exact absurd trivial h
  | acc a => exact absurd trivial h
  | fil fid exe con =>
      have hq : fid.qid ≠ 0 ∧ ¬ fid.valid := Classical.not_imp.mp h
      refine Fails.bind _ fun _ => ?_
      rw [if_pos hq.1]
      exact Fails.bind _ fun _ => fails_sendOid hq.2
  | kil o => exact fails_sendOid h
  | nok o => exact fails_sendOid h
  | oid o => exact fails_sendOid h
  | can o => exact fails_sendOid h
  | ord o => exact Fails.entry h

/-- What `send_omsg` returns. -/
def sentLen (m : Omsg Decimal64) : ℤ := if m.body = .unk then -1 else (omsgText m).length

theorem sendOmsg_eq (m : Omsg Decimal64) (s : Buf) : sendOmsg bsz m s =
    (putOmsg bsz m s).map fun r => (if m.body = .unk then -1 else (r.2.len : ℤ), r.2) := by
  change (putOmsg bsz m s >>= _) = _
  cases putOmsg bsz m s with
  | error e => rfl
  | ok r =>
      change (if m.body = .unk then _ else _ : StateT Buf (Except Fault) ℤ) r.2 = _
      by_cases hu : m.body = .unk
      · rw [if_pos hu]
        exact congrArg (fun n => Except.ok (n, r.2)) (if_pos hu).symm
      · rw [if_neg hu]
        exact congrArg (fun n => Except.ok (n, r.2)) (if_neg hu).symm

theorem sendOmsg_fit {m : Omsg Decimal64} (h : m.body.valid) {mem : List UInt8}
    (hb : (omsgText m).length ≤ bsz) (hm : (omsgText m).length ≤ mem.length) :
    ∃ s', sendOmsg bsz m ⟨mem, 0⟩ = .ok (sentLen m, s') ∧ s'.Holds (omsgText m) ∧
      s'.mem.length = mem.length := by
  obtain ⟨s', hs, hh, hl⟩ := (takes_putOmsg bsz h).fit ⟨mem, 0⟩ ⟨rfl, rfl⟩ hb hm
  refine ⟨s', ?_, hh, hl⟩
  rw [sendOmsg_eq, hs, sentLen, ← hh.len]
  rfl

/-- **A message whose text does not fit is written past the end of the buffer.** -/
theorem sendOmsg_over {m : Omsg Decimal64} (h : m.body.valid) {mem : List UInt8}
    (hm : mem.length ≤ bsz) (hb : mem.length < (omsgText m).length) :
    sendOmsg bsz m ⟨mem, 0⟩ = .error .store := by
  rw [sendOmsg_eq, (takes_putOmsg bsz h).spill ⟨mem, 0⟩ ⟨rfl, rfl⟩ hm hb]
  rfl

variable (bsz) in
theorem sendOmsg_invalid {m : Omsg Decimal64} (h : ¬ m.body.valid) (s : Buf) :
    ∃ e, sendOmsg bsz m s = .error e := by
  obtain ⟨e, he⟩ := fails_putOmsg bsz h s
  exact ⟨e, by rw [sendOmsg_eq, he]; rfl⟩

/-! ## Quote messages -/

theorem emits_sendPair (ins : List UInt8) (x y : Decimal64) :
    Emits bsz (sendPair bsz ins x y) (ins ++ ch '\t' :: pairText x y) :=
  (Emits.puts bsz ins).seq ((Emits.putc bsz _).seq
    ((prints_d64tostr bsz x).seq _ ((prints_d64tostr bsz y).putc _)))

variable (bsz) in
theorem emits_sendLevel (ins : List UInt8) (typ : ℕ) (q : QuosMsg Decimal64) :
    Emits bsz (sendLevel bsz ins typ q) ([UInt8.ofNat (q.sid.toNat + (ch 'A').toNat),
      UInt8.ofNat (typ ^^^ (ch '0').toNat), ch '\t'] ++ (ins ++ ch '\t' :: pairText q.prc q.new)) :=
  (Emits.putc bsz _).seq ((Emits.putc bsz _).seq ((Emits.putc bsz _).seq (emits_sendPair _ _ _)))

theorem sideByte {s : ClobSide} (h : s = clobSideAsk ∨ s = clobSideBid) :
    UInt8.ofNat (s.toNat + (ch 'A').toNat) = ch (if s = clobSideAsk then 'A' else 'B') := by
  rcases h with rfl | rfl <;> rfl

variable (bsz) in
/-- **The stores of `send_qmsg` amount to the text of the message.** -/
theorem emits_putQmsg {m : Qmsg Decimal64} (h : m.body.sent) :
    Emits bsz (putQmsg bsz m) (qmsgText m) := by
  obtain ⟨ins, b⟩ := m
  cases b with
  | unk => exact h.elim
  | top q =>
      have he := emits_sendLevel bsz ins 1 q
      rw [sideByte h] at he
      exact he
  | lvl q =>
      have he := emits_sendLevel bsz ins 2 q
      rw [sideByte h] at he
      exact he
  | tra q => exact (Emits.puts bsz _).seq (emits_sendPair _ _ _)
  | auc a => exact (Emits.puts bsz _).seq (emits_sendPair _ _ _)
  | imb a => exact (Emits.puts bsz _).seq (emits_sendPair _ _ _)

theorem sendQmsg_eq {m : Qmsg Decimal64} (h : m.body.sent) (s : Buf) :
    sendQmsg bsz m s = (putQmsg bsz m s).map fun r => ((r.2.len : ℤ), r.2) := by
  rw [sendQmsg, if_pos h]
  change (putQmsg bsz m s >>= _) = _
  cases putQmsg bsz m s <;> rfl

theorem sendQmsg_unsent {m : Qmsg Decimal64} (h : ¬ m.body.sent) (s : Buf) :
    sendQmsg bsz m s = .ok (0, s) := by
  rw [sendQmsg, if_neg h]; rfl

theorem sendQmsg_fit {m : Qmsg Decimal64} (h : m.body.sent) {mem : List UInt8}
    (hb : (qmsgText m).length ≤ bsz) (hm : (qmsgText m).length ≤ mem.length) :
    ∃ s', sendQmsg bsz m ⟨mem, 0⟩ = .ok (((qmsgText m).length : ℤ), s') ∧ s'.Holds (qmsgText m) ∧
      s'.mem.length = mem.length := by
  obtain ⟨s', hs, hh, hl⟩ := (emits_putQmsg bsz h []).fit ⟨mem, 0⟩ ⟨rfl, rfl⟩ hb hm
  refine ⟨s', ?_, hh, hl⟩
  rw [sendQmsg_eq h, hs]
  simp only [Except.map, hh.len, List.nil_append]

/-- **A message whose text does not fit is written past the end of the buffer.** -/
theorem sendQmsg_over {m : Qmsg Decimal64} (h : m.body.sent) {mem : List UInt8}
    (hm : mem.length ≤ bsz) (hb : mem.length < (qmsgText m).length) :
    sendQmsg bsz m ⟨mem, 0⟩ = .error .store := by
  rw [sendQmsg_eq h, (emits_putQmsg bsz h []).spill ⟨mem, 0⟩ ⟨rfl, rfl⟩ hm hb]
  rfl

end Unserlob
