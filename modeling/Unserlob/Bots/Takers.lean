import Unserlob.Bots.Callbacks

/-!
# Traders (`trendbot.c`, `techbot.c`, `clampbot.c`)

They watch the market and send market orders.

* `Trendbot`: bets on or against the trend of the average price;
* `Techbot`: bets when two moving averages cross;
* `Clampbot`: bets on the spread between two contracts.
-/

namespace Unserlob

open Cursor Table

variable {D : Type}

/-! ## `trendbot.c` -/

/-- The static variables, those of `trend_cb` and `contr_cb` too: only one of them is called. -/
structure Trendbot (D : Type) where
  acc : UnxsExa D
  vol : D
  vpr : D
  nlong : ℕ
  nshort : ℕ
  old : D

namespace Trendbot

/-- The options. -/
structure Opts (D : Type) [Dfp D] where
  cont : List UInt8
  maxq : D := Dfp.inf
  basq : D := Dfp.dd 1000 0
  contrarian : Bool := false

variable [Dfp D]

/-- The static variables at the start. -/
def init : Trendbot D where
  acc := ⟨Dfp.nought, Dfp.nought⟩
  vol := Dfp.nought
  vpr := Dfp.nought
  nlong := 0
  nshort := 0
  old := Dfp.nan

/-- `qchan_cb` -/
def qchanCb (o : Opts D) (m : Qmsg D) (t : Trendbot D) : Res (Trendbot D × List (Omsg D)) :=
  match m.body with
  | .tra quo =>
    -- not our quote
    if ¬ ours o.cont m then .ok (t, [])
    else .ok ({ t with vol := t.vol + quo.new, vpr := t.vpr + quo.new * quo.prc }, [])
  | _ => .ok (t, [])

/-- `ochan_cb` -/
def ochanCb (m : Omsg D) (t : Trendbot D) : Res (Trendbot D × List (Omsg D)) :=
  match m.body with
  | .acc exa => .ok ({ t with acc := exa }, [])
  | _ => .ok (t, [])

/-- The order on a side. -/
def bet (o : Opts D) (sid : ClobSide) (t : Trendbot D) : Omsg D :=
  mktOf o.cont sid
    (Dfp.min (if sid = clobSideBid then o.maxq - t.acc.base else o.maxq + t.acc.base) o.basq)

/-- `trend_cb` and `contr_cb`, with the side of an uptrend and that of a downtrend. -/
def followCb (o : Opts D) (up down : ClobSide) (t : Trendbot D) : Res (Trendbot D × List (Omsg D)) :=
  let new := t.vpr / t.vol
  let big := Dfp.le o.basq t.vol
  let rise := Dfp.lt t.old new && big
  let fall := Dfp.lt new t.old && big
  -- the counters go up with every look at them
  let t₁ := if rise then { t with nlong := t.nlong + 1 } else t
  let a :=
    if rise ∧ t.nlong < 10 then ({ t₁ with nshort := 0 }, [bet o up t])
    else
      let t₂ := if fall then { t₁ with nshort := t₁.nshort + 1 } else t₁
      if fall ∧ t₁.nshort < 10 then ({ t₂ with nlong := 0 }, [bet o down t]) else (t₂, [])
  -- reset counters
  .ok ({ a.1 with vol := Dfp.nought, vpr := Dfp.nought, old := new }, a.2)

/-- `trend_cb` -/
def trendCb (o : Opts D) : Trendbot D → Res (Trendbot D × List (Omsg D)) := followCb o clobSideBid clobSideAsk

/-- `contr_cb` -/
def contrCb (o : Opts D) : Trendbot D → Res (Trendbot D × List (Omsg D)) := followCb o clobSideAsk clobSideBid

def cbs (o : Opts D) : BotCbs (Trendbot D) D where
  timerCb := if o.contrarian then contrCb o else trendCb o
  ochanCb := ochanCb
  qchanCb m _ := qchanCb o m

end Trendbot

/-! ## `techbot.c` -/

/-- The static variables. -/
structure Techbot (D : Type) where
  acc : UnxsExa D
  last : D
  k1 : ℕ
  k2 : ℕ
  p1 : List D
  p2 : List D
  spos : BitVec 32

namespace Techbot

/-- The options. -/
structure Opts (D : Type) [Dfp D] where
  cont : List UInt8
  maxq : D := Dfp.inf
  basq : D := Dfp.dd 100 0
  contrarianp : BitVec 32 := 0

variable [Dfp D]

/-- The static variables at the start. -/
def init : Techbot D where
  acc := ⟨Dfp.nought, Dfp.nought⟩
  last := Dfp.nan
  k1 := 0
  k2 := 0
  p1 := List.replicate 16 Dfp.zero
  p2 := List.replicate 64 Dfp.zero
  spos := 0

/-- `qchan_cb` -/
def qchanCb (o : Opts D) (m : Qmsg D) (t : Techbot D) : Res (Techbot D × List (Omsg D)) :=
  match m.body with
  | .tra quo =>
    -- not our quote
    if ¬ ours o.cont m then .ok (t, []) else .ok ({ t with last := quo.prc }, [])
  | _ => .ok (t, [])

/-- `ochan_cb` -/
def ochanCb (m : Omsg D) (t : Techbot D) : Res (Techbot D × List (Omsg D)) :=
  match m.body with
  | .acc exa => .ok ({ t with acc := exa }, [])
  | _ => .ok (t, [])

/-- `hbeat_cb` -/
def hbeatCb (o : Opts D) (t : Techbot D) : Res (Techbot D × List (Omsg D)) := do
  let p1 ← setAt t.p1 t.k1 t.last
  let p2 ← setAt t.p2 t.k2 t.last
  let t := { t with p1, p2, k1 := (t.k1 + 1) % 16, k2 := (t.k2 + 1) % 64 }
  let s1 := t.p1.foldl (· + ·) Dfp.nought
  let s2 := t.p2.foldl (· + ·) Dfp.nought
  let s := Dfp.signbit ((s1 * Dfp.dd 4 0 - s2) / Dfp.dd 64 0)
  if t.spos ^^^ s ≠ 0 then
    let x := if s ^^^ o.contrarianp ≠ 0 then clobSideAsk else clobSideBid
    let q := Dfp.abs t.acc.base
    pure ({ t with spos := s }, [mktOf o.cont x (Dfp.min (o.maxq - q) (q + o.basq))])
  else pure (t, [])

def cbs (o : Opts D) : BotCbs (Techbot D) D where
  timerCb := hbeatCb o
  ochanCb := ochanCb
  qchanCb m _ := qchanCb o m

end Techbot

/-! ## `clampbot.c` -/

/-- `cquo`, the quotes of the first contract before those of the second. -/
structure Clampbot (D : Type) where
  cquo : List (QuosMsg D)

namespace Clampbot

/-- The options. -/
structure Opts (D : Type) [Dfp D] where
  cont0 : List UInt8
  cont1 : List UInt8
  Q : D := Dfp.dd 400 0
  dif : D := Dfp.nan
  quo : D := Dfp.nan

variable [Dfp D]

/-- The static variables at the start. -/
def init : Clampbot D where
  cquo := List.replicate 4 ⟨0, Dfp.nan, Dfp.zero⟩

/-- `cquo[k][sid]` -/
def slot (k : ℕ) (sid : ClobSide) : ℕ := k * 2 + sid.toNat

/-- The spread, if there is enough size. -/
def spread (o : Opts D) (sid0 sid1 : ClobSide) (x y : QuosMsg D) : List (Omsg D) :=
  let q := Dfp.min o.Q (Dfp.min x.new y.new)
  -- not enough size
  if Dfp.le q Dfp.nought then [] else [mktOf o.cont0 sid0 q, mktOf o.cont1 sid1 q]

/-- The second half of `qchan_cb`. -/
def check (o : Opts D) (c : Clampbot D) : Res (Clampbot D × List (Omsg D)) := do
  let a0 ← getAt c.cquo (slot 0 clobSideAsk)
  let b0 ← getAt c.cquo (slot 0 clobSideBid)
  let a1 ← getAt c.cquo (slot 1 clobSideAsk)
  let b1 ← getAt c.cquo (slot 1 clobSideBid)
  -- check opportunities
  if Dfp.lt (a0.prc - b1.prc) o.dif || Dfp.lt (a0.prc / b1.prc) o.quo then
    -- go long C0/C1-spread
    pure (c, spread o clobSideBid clobSideAsk a0 b1)
  else if Dfp.lt o.dif (b0.prc - a1.prc) || Dfp.lt o.quo (b0.prc / a1.prc) then
    -- go short C0/C1-spread
    pure (c, spread o clobSideAsk clobSideBid b0 a1)
  -- nope, no opportunities today
  else pure (c, [])

/-- The contract whose name the memory at `m.ins` starts with. -/
def contractOf (o : Opts D) (m : Qmsg D) (behind : Ptr) : Res (Option ℕ) := do
  if ← memcmp (m.ins ++ behind) o.cont0 then pure (some 0)
  else if ← memcmp (m.ins ++ behind) o.cont1 then pure (some 1)
  else pure none

/-- `qchan_cb` -/
def qchanCb (o : Opts D) (m : Qmsg D) (behind : Ptr) (c : Clampbot D) : Res (Clampbot D × List (Omsg D)) :=
  match m.body with
  | .top quo => do
    match ← contractOf o m behind with
    | none => pure (c, [])
    | some k =>
      let cquo ← setAt c.cquo (slot k quo.sid) quo
      check o ⟨cquo⟩
  | .auc auc =>
    -- don't track NANs; in the union the price of a quote is where the quantity of an auction is
    if Dfp.isnan auc.qty then check o c
    else do
      match ← contractOf o m behind with
      | none => pure (c, [])
      | some k =>
        let q : QuosMsg D := ⟨nclobSides, auc.prc, auc.qty⟩
        let cquo ← setAt c.cquo (slot k clobSideBid) q
        let cquo ← setAt cquo (slot k clobSideAsk) q
        check o ⟨cquo⟩
  | _ => .ok (c, [])

def cbs (o : Opts D) : BotCbs (Clampbot D) D where
  timerCb := BotCbs.none
  ochanCb _ := BotCbs.none
  qchanCb := qchanCb o

end Clampbot

end Unserlob
