import Unserlob.Channel.Framing
import Unserlob.Channel.Overrun
import Unserlob.Lib.Table
import Unserlob.Lol.OrderLines

/-!
# Orders in the books (`lobot.c`)

Lines from any number of clients, and heartbeats, in any order.

* `Clob`, `Clob.Lawful`: the library of books, and what is relied on;
* `omsgAddOrd`, `omsgDelOid`, `chckBook`: what the exchange does with orders, and its checks;
* `bookMachine`: the runs; `Books.Sound`: no resting order and no price level has a negative part;
* `Fair`: the condition on an order; `addOrd_sound`, `step_sound`: the step lemmas;
* **`books_sound`**: the books are sound as long as orders are fair, and not beyond.
-/

namespace Unserlob

open Ascii Cursor Writer Table

/-- A price level, as `clob_aggiter_t` shows it. -/
structure Level where
  p : Decimal64
  q : Qty Decimal64

/-- The library of books. `orders` are the orders that rest in a book, `aggiter` the price levels of one
type and side. -/
structure Clob (B : Type) where
  makeClob : B
  unxsOrder : B → ClobOrd Decimal64 → Decimal64 → ClobOrd Decimal64 × B
  clobAdd : B → ClobOrd Decimal64 → ClobOid Decimal64 × B
  clobDel : B → ClobOid Decimal64 → ℤ × B
  orders : B → List (ClobOrd Decimal64)
  aggiter : B → ClobType → ClobSide → List Level

variable {B : Type}

/-- A part that was not negative still is not. -/
def Qty.Keeps (q q' : Qty Decimal64) : Prop :=
  (geZero q.dis → geZero q'.dis) ∧ (geZero q.hid → geZero q'.hid)

/-- No part is negative. -/
def Qty.NonNeg (q : Qty Decimal64) : Prop := geZero q.dis ∧ geZero q.hid

instance : DecidablePred Qty.NonNeg := fun _ => inferInstanceAs (Decidable (_ ∧ _))

/-- There is no order on the other side. -/
def Clob.Alone (C : Clob B) (b : B) (o : ClobOrd Decimal64) : Prop := ∀ r ∈ C.orders b, r.sid = o.sid

/-- **What is relied on.** An order that finds nothing on the other side comes back unchanged; matching
makes no part negative; orders are stored as given and deleted as they are; the quantities of a level
are sums of those of its orders. -/
structure Clob.Lawful (C : Clob B) : Prop where
  make : C.orders C.makeClob = []
  alone : ∀ b o px, C.Alone b o → C.unxsOrder b o px = (o, b)
  taker : ∀ b (o : ClobOrd Decimal64) px, o.qty.Keeps (C.unxsOrder b o px).1.qty
  maker : ∀ b o px, ∀ r ∈ C.orders (C.unxsOrder b o px).2, ∃ r₀ ∈ C.orders b, r₀.qty.Keeps r.qty
  add : ∀ b o r, r ∈ C.orders (C.clobAdd b o).2 ↔ r = o ∨ r ∈ C.orders b
  del : ∀ b i, ∀ r ∈ C.orders (C.clobDel b i).2, r ∈ C.orders b
  level : ∀ b typ sid, ∀ l ∈ C.aggiter b typ sid,
    (¬ geZero l.q.dis → ∃ r ∈ C.orders b, r.typ = typ ∧ r.sid = sid ∧ ¬ geZero r.qty.dis) ∧
    (¬ geZero l.q.hid → ∃ r ∈ C.orders b, r.typ = typ ∧ r.sid = sid ∧ ¬ geZero r.qty.hid)

/-! ## The exchange -/

/-- The books, and what has been sent to the clients. -/
structure Books (B : Type) where
  clob : List B
  sent : List (ℤ × List UInt8)

section Exchange

variable (C : Clob B) (name : ℕ → List UInt8)

/-- `SEND_OMSG`, to a client. -/
def sendTo (junk : List UInt8) (fd : ℤ) (m : Omsg Decimal64) (s : Books B) : Res (Books B) := do
  let t ← reply junk m
  pure { s with sent := s.sent ++ [(fd, t)] }

/-- `omsg_add_ord` -/
def omsgAddOrd (junk : List UInt8) (fd : ℤ) (u : Uid) (i : ℕ) (o : ClobOrd Decimal64) (s : Books B) :
    Res (Books B) := do
  if ¬ (o.typ = clobTypeMkt ∨ o.typ = clobTypeLmt) then pure s
  else
    -- stick uid into orderbook
    let b ← getAt s.clob i
    let (o, b) := C.unxsOrder b { o with usr := u.setWidth 64 } NAND64
    let s := { s with clob := s.clob.set i b }
    if sumGtZero o.qty.dis o.qty.hid then
      let (oi, b) := C.clobAdd b o
      sendTo junk fd ⟨name i, .oid oi⟩ { s with clob := s.clob.set i b }
    else pure s

/-- `omsg_del_oid` -/
def omsgDelOid (junk : List UInt8) (fd : ℤ) (i : ℕ) (o : ClobOid Decimal64) (s : Books B) :
    Res (Books B) := do
  let b ← getAt s.clob i
  let (rc, b) := C.clobDel b o
  sendTo junk fd ⟨name i, if ¬ rc < 0 then .kil o else .nok o⟩ { s with clob := s.clob.set i b }

/-- `assert(c)` -/
def assert (c : Bool) : Res Unit := if c then .ok () else .error .assert

/-- The asserted sign of every level. -/
def chckLevels : List Level → Res Unit
  | [] => .ok ()
  | l :: ls => do
    assert (geZero l.q.dis)
    assert (geZero l.q.hid)
    chckLevels ls

/-- Market orders on one side leave no limit orders on the other. -/
def chckMkt (b : B) (sid contra : ClobSide) : Res Unit :=
  match C.aggiter b clobTypeMkt sid with
  | [] => .ok ()
  | l :: _ =>
    if sumGtZero l.q.dis l.q.hid then assert (C.aggiter b clobTypeLmt contra).isEmpty else .ok ()

/-- `chck_book`, book by book. -/
def chckBook : List B → Res Unit
  | [] => .ok ()
  | b :: bs => do
    chckMkt C b clobSideBid clobSideAsk
    chckMkt C b clobSideAsk clobSideBid
    chckLevels (C.aggiter b clobTypeLmt clobSideAsk)
    chckLevels (C.aggiter b clobTypeLmt clobSideBid)
    chckBook bs

end Exchange

/-! ## Runs -/

/-- A client's line, with what lies behind it in the client's buffer, and the stack it finds. -/
structure ClientLine where
  fd : ℤ
  uid : Uid
  line : List UInt8
  rest : Ptr
  stack : Locals
  junk : List UInt8

/-- `insth` and `hash`, the names and where the buffers are. -/
structure Instruments where
  bufoff : ℕ
  hash : List UInt8 → BitVec 32
  insth : List (BitVec 32)
  name : ℕ → List UInt8

inductive BookEvent where
  | line (c : ClientLine)
  | beat

/-- The message on the line. -/
def ClientLine.msg (c : ClientLine) : Res (Omsg Decimal64) := recvOmsg c.stack (c.line ++ c.rest) c.line.length

/-- The exchange as this client meets it. -/
def ClientLine.exch (C : Clob B) (I : Instruments) (c : ClientLine) : Exch (Books B) where
  bufoff := I.bufoff
  hash := I.hash
  insth := I.insth
  stack _ := c.stack
  addOrd := omsgAddOrd C I.name c.junk c.fd c.uid
  delOid := omsgDelOid C I.name c.junk c.fd

/-- The body of the loop in `data_cb`, and `hbeat_cb`. -/
def BookEvent.step (C : Clob B) (I : Instruments) : BookEvent → Books B → Res (Books B)
  | .line c, s => ((c.exch C I).line (c.line ++ c.rest) c.line.length (c.line ++ c.rest, s)).map Prod.snd
  | .beat, s => do
    chckBook C s.clob
    pure s

/-- `NINSTR` -/
def Instruments.NINSTR (I : Instruments) : ℕ := if I.insth = [] then 1 else I.insth.length

/-- Lines end in a newline; the buffer of a reply is 256 bytes on the stack. -/
def bookMachine (C : Clob B) (I : Instruments) : Run.Machine (Books B) BookEvent where
  init s := s = ⟨List.replicate I.NINSTR C.makeClob, []⟩
  allowed _ e := ∀ c, e = .line c → Ends c.line ∧ c.junk.length = 256
  step e s := e.step C I s

/-- **What is wanted**: no resting order has a negative part, and the assertions on the levels hold. -/
structure Books.Sound (C : Clob B) (s : Books B) : Prop where
  orders : ∀ b ∈ s.clob, ∀ r ∈ C.orders b, r.qty.NonNeg
  levels : ∀ b ∈ s.clob, ∀ sid, chckLevels (C.aggiter b clobTypeLmt sid) = .ok ()

/-- The condition on an order: no part is negative, or the order finds nothing on the other side and its
parts are together not positive. -/
def Fair (C : Clob B) (b : B) (o : ClobOrd Decimal64) : Prop :=
  o.qty.NonNeg ∨ C.Alone b o ∧ ¬ sumGtZero o.qty.dis o.qty.hid

/-- The order on the line and the book it is for. -/
def ClientLine.Enters (I : Instruments) (s : Books B) (c : ClientLine) (b : B) (o : ClobOrd Decimal64) : Prop :=
  ∃ ins, c.msg = .ok ⟨ins, .ord o⟩ ∧ hins I.hash I.insth ins ≤ I.insth.length ∧
    s.clob[hins I.hash I.insth ins]? = some b

/-- The condition: orders that are entered are fair. -/
def FairEvent (C : Clob B) (I : Instruments) (s : Books B) (e : BookEvent) : Prop :=
  ∀ c, e = .line c → ∀ b o, c.Enters I s b o → Fair C b o

/-! ## Steps -/

section Steps

variable {C : Clob B} (hC : C.Lawful) {I : Instruments} {s s' : Books B}

include hC

theorem chckLevels_ok {b : B} (hb : ∀ r ∈ C.orders b, r.qty.NonNeg) (typ : ClobType) (sid : ClobSide) :
    chckLevels (C.aggiter b typ sid) = .ok () := by
  have hall : ∀ l ∈ C.aggiter b typ sid, l.q.NonNeg := by
    intro l hl
    obtain ⟨hdis, hhid⟩ := hC.level b typ sid l hl
    refine ⟨?_, ?_⟩
    · by_contra hn
      obtain ⟨r, hr, -, -, hneg⟩ := hdis hn
      exact hneg (hb r hr).1
    · by_contra hn
      obtain ⟨r, hr, -, -, hneg⟩ := hhid hn
      exact hneg (hb r hr).2
  generalize C.aggiter b typ sid = ls at hall
  induction ls with
  | nil => rfl
  | cons l ls ih =>
      obtain ⟨hdis, hhid⟩ := hall l List.mem_cons_self
      rw [chckLevels, assert, assert, if_pos hdis, if_pos hhid]
      exact ih fun l' hl' => hall l' (List.mem_cons_of_mem _ hl')

/-- The assertions hold because of the orders. -/
theorem sound_of_orders (h : ∀ b ∈ s.clob, ∀ r ∈ C.orders b, r.qty.NonNeg) : s.Sound C :=
  ⟨h, fun b hb sid => chckLevels_ok hC (h b hb) clobTypeLmt sid⟩

theorem Books.Sound.set (h : s.Sound C) {i : ℕ} {b : B} (hs : s'.clob = s.clob.set i b)
    (hb : ∀ r ∈ C.orders b, r.qty.NonNeg) : s'.Sound C := by
  refine sound_of_orders hC fun b' hb' => ?_
  rw [hs] at hb'
  rcases List.mem_or_eq_of_mem_set hb' with hm | rfl
  · exact h.orders b' hm
  · exact hb

omit hC in
theorem sendTo_clob {junk : List UInt8} {fd : ℤ} {m : Omsg Decimal64} (h : sendTo junk fd m s = .ok s') :
    s'.clob = s.clob := by
  obtain ⟨t, -, ht⟩ := bind_ok.mp h
  cases ht
  rfl

omit hC in
theorem omsgAddOrd_cases {name : ℕ → List UInt8} {junk : List UInt8} {fd : ℤ} {u : Uid} {i : ℕ}
    {o : ClobOrd Decimal64} (htyp : o.typ = clobTypeMkt ∨ o.typ = clobTypeLmt)
    (h : omsgAddOrd C name junk fd u i o s = .ok s') : ∃ b o' b', s.clob[i]? = some b ∧
      C.unxsOrder b { o with usr := u.setWidth 64 } NAND64 = (o', b') ∧
      s'.clob = s.clob.set i (if sumGtZero o'.qty.dis o'.qty.hid then (C.clobAdd b' o').2 else b') := by
  unfold omsgAddOrd at h
  rw [if_neg (not_not.mpr htyp)] at h
  obtain ⟨b, hb, h⟩ := bind_ok.mp h
  rcases hx : C.unxsOrder b { o with usr := u.setWidth 64 } NAND64 with ⟨o', b'⟩
  refine ⟨b, o', b', getAt_eq hb, hx, ?_⟩
  simp only [hx] at h
  split_ifs at h ⊢
  · rw [sendTo_clob h, List.set_set]
  · cases h
    rfl

theorem addOrd_sound {name : ℕ → List UInt8} {junk : List UInt8} {fd : ℤ} {u : Uid} {i : ℕ}
    {o : ClobOrd Decimal64} (htyp : o.typ = clobTypeMkt ∨ o.typ = clobTypeLmt) (hs : s.Sound C)
    (hf : ∀ b, s.clob[i]? = some b → Fair C b o) (h : omsgAddOrd C name junk fd u i o s = .ok s') :
    s'.Sound C := by
  obtain ⟨b, o', b', hb, hx, hset⟩ := omsgAddOrd_cases htyp h
  have hrest := hs.orders b (List.mem_of_getElem? hb)
  refine hs.set hC hset ?_
  rcases hf b hb with hq | ⟨ha, hn⟩
  · obtain ⟨hdis, hhid⟩ := hC.taker b { o with usr := u.setWidth 64 } NAND64
    have hmaker := hC.maker b { o with usr := u.setWidth 64 } NAND64
    rw [hx] at hdis hhid hmaker
    replace hmaker : ∀ r ∈ C.orders b', r.qty.NonNeg := by
      intro r hr
      obtain ⟨r₀, hr₀, hd, hh⟩ := hmaker r hr
      exact ⟨hd (hrest r₀ hr₀).1, hh (hrest r₀ hr₀).2⟩
    split_ifs
    · intro r hr
      rcases (hC.add _ _ r).mp hr with rfl | hr
      · exact ⟨hdis hq.1, hhid hq.2⟩
      · exact hmaker r hr
    · exact hmaker
  · obtain ⟨rfl, rfl⟩ := Prod.mk.inj ((hC.alone b { o with usr := u.setWidth 64 } NAND64 ha).symm.trans hx)
    rw [if_neg hn]
    exact hrest

theorem addOrd_unsound {name : ℕ → List UInt8} {junk : List UInt8} {fd : ℤ} {u : Uid} {i : ℕ}
    {o : ClobOrd Decimal64} (htyp : o.typ = clobTypeMkt ∨ o.typ = clobTypeLmt) {b : B}
    (hb : s.clob[i]? = some b) (ha : C.Alone b o) (hf : ¬ Fair C b o)
    (h : omsgAddOrd C name junk fd u i o s = .ok s') : ¬ s'.Sound C := by
  obtain ⟨b₁, o', b', hb₁, hx, hset⟩ := omsgAddOrd_cases htyp h
  obtain rfl : b = b₁ := Option.some.inj (hb.symm.trans hb₁)
  have hpos : sumGtZero o.qty.dis o.qty.hid := by
    by_contra hn
    exact hf (Or.inr ⟨ha, hn⟩)
  obtain ⟨rfl, rfl⟩ := Prod.mk.inj ((hC.alone b { o with usr := u.setWidth 64 } NAND64 ha).symm.trans hx)
  rw [if_pos hpos] at hset
  intro hs
  obtain ⟨hi, -⟩ := List.getElem?_eq_some_iff.mp hb
  have hmem : (C.clobAdd b { o with usr := u.setWidth 64 }).2 ∈ s'.clob := by
    rw [hset]
    exact List.mem_set hi _
  have hq := hs.orders _ hmem _ ((hC.add b { o with usr := u.setWidth 64 } _).mpr (Or.inl rfl))
  exact hf (Or.inl hq)

theorem delOid_sound {name : ℕ → List UInt8} {junk : List UInt8} {fd : ℤ} {i : ℕ}
    {o : ClobOid Decimal64} (hs : s.Sound C) (h : omsgDelOid C name junk fd i o s = .ok s') :
    s'.Sound C := by
  obtain ⟨b, hb, h⟩ := bind_ok.mp h
  refine hs.set hC (sendTo_clob h) fun r hr => ?_
  exact hs.orders b (List.mem_of_getElem? (getAt_eq hb)) r (hC.del b o r hr)

omit hC in
theorem line_cases {c : ClientLine} (h : (BookEvent.line c).step C I s = .ok s') :
    s' = s ∨
    (∃ i o, omsgDelOid C I.name c.junk c.fd i o s = .ok s') ∨
    ∃ ins o, c.msg = .ok ⟨ins, .ord o⟩ ∧ hins I.hash I.insth ins ≤ I.insth.length ∧
      omsgAddOrd C I.name c.junk c.fd c.uid (hins I.hash I.insth ins) o s = .ok s' := by
  obtain ⟨x, hx, rfl⟩ := map_ok.mp h
  obtain ⟨⟨ins, body⟩, hm, hx⟩ := bind_ok.mp hx
  change (if I.insth.length < hins I.hash I.insth ins then _ else _) = _ at hx
  split_ifs at hx with hi
  · cases hx
    exact Or.inl rfl
  · cases body with
    | ord o =>
        obtain ⟨w, hw, he⟩ := bind_ok.mp hx
        cases he
        exact Or.inr (Or.inr ⟨ins, o, hm, not_lt.mp hi, hw⟩)
    | can o =>
        obtain ⟨w, hw, he⟩ := bind_ok.mp hx
        cases he
        exact Or.inr (Or.inl ⟨_, o, hw⟩)
    | _ =>
        cases hx
        exact Or.inl rfl

theorem step_sound {e : BookEvent} (hs : s.Sound C) (hf : FairEvent C I s e) (h : e.step C I s = .ok s') :
    s'.Sound C := by
  cases e with
  | beat =>
      obtain ⟨u, -, h⟩ := bind_ok.mp h
      cases h
      exact hs
  | line c =>
      rcases line_cases h with rfl | ⟨i, o, h⟩ | ⟨ins, o, hm, hi, h⟩
      · exact hs
      · exact delOid_sound hC hs h
      · exact addOrd_sound hC (recvOmsg_ord_typ hm) hs (fun b hb => hf c rfl b o ⟨ins, hm, hi, hb⟩) h

theorem enters_unsound {c : ClientLine} {b : B} {o : ClobOrd Decimal64} (he : c.Enters I s b o)
    (ha : C.Alone b o) (hf : ¬ Fair C b o) (h : (BookEvent.line c).step C I s = .ok s') : ¬ s'.Sound C := by
  obtain ⟨ins, hm, hi, hb⟩ := he
  obtain ⟨x, hx, rfl⟩ := map_ok.mp h
  obtain ⟨m, hm', hx⟩ := bind_ok.mp hx
  obtain rfl : m = ⟨ins, .ord o⟩ := Except.ok.inj (hm'.symm.trans hm)
  change (if I.insth.length < hins I.hash I.insth ins then _ else _) = _ at hx
  rw [if_neg (not_lt.mpr hi)] at hx
  obtain ⟨w, hw, he⟩ := bind_ok.mp hx
  cases he
  exact addOrd_unsound hC (recvOmsg_ord_typ hm) hb ha hf hw

end Steps

/-! ## Runs of the exchange -/

/-- **The books stay sound** in every run whose orders are fair, and an order that finds nothing on the
other side leaves them sound only if it is. -/
theorem books_sound {C : Clob B} (hC : C.Lawful) (I : Instruments) :
    (∀ es s, ((bookMachine C I).restrict (FairEvent C I)).Runs es s → s.Sound C) ∧
    (∀ es s, ((bookMachine C I).restrict (FairEvent C I)).Runs es s → ∀ c b o s', c.Enters I s b o →
      C.Alone b o → (bookMachine C I).step (.line c) s = .ok s' → (s'.Sound C ↔ Fair C b o)) := by
  have hruns : ∀ es s, ((bookMachine C I).restrict (FairEvent C I)).Runs es s → s.Sound C := by
    intro es s h
    refine h.inv (P := fun s => s.Sound C) ?_ ?_
    · intro s hs
      refine sound_of_orders hC fun b hb r hr => ?_
      rw [hs] at hb
      rw [List.eq_of_mem_replicate hb, hC.make] at hr
      cases hr
    · exact fun s e s' hs ha he => step_sound hC hs ha.2 he
  refine ⟨hruns, fun es s h c b o s' he ha hs => ⟨fun hsound => ?_, fun hf => ?_⟩⟩
  · by_contra hf
    exact enters_unsound hC he ha hf hs hsound
  · refine step_sound hC (I := I) (e := .line c) (hruns es s h) (fun c' hc b' o' he' => ?_) hs
    cases hc
    obtain ⟨ins, hm, -, hb⟩ := he
    obtain ⟨ins', hm', -, hb'⟩ := he'
    cases hm.symm.trans hm'
    cases hb.symm.trans hb'
    exact hf

/-! ## Two orders -/

/-- Books that keep orders in a list and match none. -/
def listClob : Clob (List (ClobOrd Decimal64)) where
  makeClob := []
  unxsOrder b o _ := (o, b)
  clobAdd b o := (⟨o.typ, o.sid, o.lmt, 1, o.usr⟩, b ++ [o])
  clobDel b _ := (-1, b)
  orders b := b
  aggiter b typ sid := (b.filter fun o => o.typ = typ ∧ o.sid = sid).map fun o => ⟨o.lmt, o.qty⟩

theorem listClob_lawful : listClob.Lawful where
  make := rfl
  alone _ _ _ _ := rfl
  taker _ _ _ := ⟨id, id⟩
  maker _ _ _ r hr := ⟨r, hr, id, id⟩
  add b o r := by
    change r ∈ b ++ [o] ↔ r = o ∨ r ∈ b
    rw [List.mem_append, List.mem_singleton, or_comm]
  del _ _ _ hr := hr
  level b typ sid l hl := by
    obtain ⟨o, ho, rfl⟩ := List.mem_map.mp hl
    obtain ⟨hb, hts⟩ := List.mem_filter.mp ho
    obtain ⟨ht, hs⟩ := of_decide_eq_true hts
    exact ⟨fun h => ⟨o, hb, ht, hs, h⟩, fun h => ⟨o, hb, ht, hs, h⟩⟩

/-- An exchange with the instrument `I`. -/
def sampleInstruments : Instruments := ⟨64, fun _ => 0, [0], fun _ => [ch 'I']⟩

def sampleClient (line : List UInt8) : ClientLine := ⟨5, 1, line, [], ⟨0, nilOid⟩, List.replicate 256 0⟩

instance (e : BookEvent) (s : Books (List (ClobOrd Decimal64))) :
    Decidable ((bookMachine listClob sampleInstruments).allowed s e) :=
  match e with
  | .beat => isTrue fun _ h => nomatch h
  | .line c => decidable_of_iff (c.line.getLast? = some (ch '\n') ∧ c.junk.length = 256)
      ⟨fun h _ he => by cases he; exact h, fun h => h c rfl⟩

/-- A displayed quantity of `-5` and a hidden one of `10`. -/
def negativeLine : List UInt8 :=
  bytes ['B', 'U', 'Y', '\t', 'I', '\t', '-', '5', '+', '1', '0', '\t', '1', '0', '0', '\n']

/-- **The order rests**, and at the next heartbeat an assertion fails. -/
theorem negativeLine_rests : ∃ s, (bookMachine listClob sampleInstruments).Runs
    [.line (sampleClient negativeLine)] s ∧ ¬ s.Sound listClob ∧
    (bookMachine listClob sampleInstruments).step .beat s = .error .assert := by
  have h : (((bookMachine listClob sampleInstruments).exec [.line (sampleClient negativeLine)]
      ⟨[[]], []⟩).any fun s => decide (∃ b ∈ s.clob, ∃ r ∈ b, ¬ r.qty.NonNeg) &&
        match chckBook listClob s.clob with
        | .error .assert => true
        | _ => false) = true := by
    decide +kernel
  obtain ⟨s, hr, hs⟩ := Run.Machine.runs_of_any _ rfl h
  obtain ⟨hneg, hbeat⟩ := Bool.and_eq_true_iff.mp hs
  obtain ⟨b, hb, r, hrb, hn⟩ := of_decide_eq_true hneg
  refine ⟨s, hr, fun hsound => hn (hsound.orders b hb r hrb), ?_⟩
  change (chckBook listClob s.clob >>= fun _ => pure s) = _
  split at hbeat
  · next he => rw [he]; rfl
  · cases hbeat

/-- A quantity of 5 displayed and 10 hidden. -/
def positiveLine : List UInt8 :=
  bytes ['B', 'U', 'Y', '\t', 'I', '\t', '5', '+', '1', '0', '\t', '1', '0', '0', '\n']

/-- The order on it. -/
def positiveOrder : ClobOrd Decimal64 :=
  ⟨clobTypeLmt, clobSideBid, ⟨0x31c0000000000005, 0x31c000000000000a⟩, 0x31c0000000000064, 0, 0⟩

/-- It rests in a sound book. -/
theorem positiveLine_sound : ∃ s, ((bookMachine listClob sampleInstruments).restrict
      (FairEvent listClob sampleInstruments)).Runs [.line (sampleClient positiveLine)] s ∧
    s.sent ≠ [] ∧ s.Sound listClob := by
  have hstep : ((bookMachine listClob sampleInstruments).step (.line (sampleClient positiveLine))
      ⟨[[]], []⟩).toOption.any (fun s => decide (s.sent ≠ [])) = true := by
    decide +kernel
  have hmsg : (sampleClient positiveLine).msg.toOption = some ⟨[ch 'I'], .ord positiveOrder⟩ := by
    decide +kernel
  have hfair : FairEvent listClob sampleInstruments ⟨[[]], []⟩ (.line (sampleClient positiveLine)) := by
    rintro c he b o ⟨ins, hm, -, -⟩
    cases he
    rw [hm] at hmsg
    cases hmsg
    exact Or.inl (by decide +kernel)
  cases hs : (bookMachine listClob sampleInstruments).step (.line (sampleClient positiveLine)) ⟨[[]], []⟩ with
  | error e => rw [hs] at hstep; cases hstep
  | ok s =>
      rw [hs] at hstep
      have hrun := Run.Machine.Runs.next (M := (bookMachine listClob sampleInstruments).restrict
        (FairEvent listClob sampleInstruments)) (.start rfl) ⟨by decide +kernel, hfair⟩ hs
      exact ⟨s, hrun, of_decide_eq_true hstep, (books_sound listClob_lawful sampleInstruments).1 _ s hrun⟩

end Unserlob
