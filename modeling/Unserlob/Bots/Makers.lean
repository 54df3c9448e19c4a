import Unserlob.Bots.Callbacks

/-!
# Market makers (`dasbot.c`, `egobot.c`, `pyrabot.c`)

Every heartbeat takes back what has been posted before, as far as its ids are known, and posts anew.

* `Dasbot`: a price that learns from trades; `Egobot`: a price that follows the market with noise;
* `Pyrabot`: a pyramid of `nlvl` levels around the price at which it has traded.
-/

namespace Unserlob

open Cursor Table

variable {D R G : Type}

/-! ## `dasbot.c` -/

/-- `struct quo_s` -/
structure Quo (D : Type) where
  b : D
  a : D

/-- The static variables. -/
structure Dasbot (D R : Type) where
  mu : R
  sg : R
  coid : List (ClobOid D)
  quo : Quo D
  acc : UnxsExa D
  tra : BitVec 32

namespace Dasbot

/-- The static variables that never change. -/
structure Opts (D R : Type) [Dfp D] [Dbl R] where
  cont : List UInt8
  noise : R := Dbl.lit 70710678118654752440 20
  posCor : R := Dbl.lit 1 0
  minTick : D := Dfp.dd 1 2
  quoSize : D := Dfp.dd 500 0
  maxPos : D := Dfp.dd 1000000 0

section Source

section Double

variable [Dbl R]

/-- `gauss_cdf` -/
def gaussCdf (x : R) : R :=
  Dbl.lit 5 1 * (Dbl.lit 1 0 + Dbl.erf (Dbl.lit 70710678118654752440 20 * x))

/-- `gauss_pdf` -/
def gaussPdf (x : R) : R := Dbl.lit 3989422804014327 16 * Dbl.exp (Dbl.lit (-5) 1 * x * x)

/-- `alpha2` -/
def alpha2 (x q : R) : R :=
  let one : R := Dbl.lit 1 0
  let n := gaussPdf q
  let phi := gaussCdf q
  let f := x * n * (n - q * (one - phi))
  one - f / ((one + x) * (one - phi) * (one - phi))

/-- `beta2` -/
def beta2 (x q : R) : R :=
  let one : R := Dbl.lit 1 0
  let two : R := Dbl.lit 2 0
  let n := gaussPdf q
  let phi := gaussCdf q
  one - two * x * q * n / ((one + x) * (two * phi - one))

/-- `calc_qt_zp` -/
def calcQtZp (r2 : R) : R :=
  let one : R := Dbl.lit 1 0
  (fun q => r2 / (one + r2) * gaussPdf q / (one - gaussCdf q))^[10] (Dbl.lit 0 0)

end Double

variable [Dfp D] [Dbl R] [Cvt R D]

/-- `mm` -/
def mm (o : Opts D R) (s : ℤ) (d : Dasbot D R) : Quo D × Dasbot D R :=
  let one : R := Dbl.lit 1 0
  let two : R := Dbl.lit 2 0
  let rho := d.sg * o.posCor / o.noise
  let r2 := rho * rho
  let qt := calcQtZp r2
  let n := gaussPdf qt
  let phi := gaussCdf qt
  let ak : R × R :=
    -- handle long and short
    if s ≠ 0 then
      (Dbl.sqrt (alpha2 r2 qt),
        Dbl.sqrt (r2 / (one + r2)) * n / (one - phi) * if 0 < s then one else Dbl.lit (-1) 0)
    -- only calc beta and name it alpha
    else (Dbl.sqrt (beta2 r2 qt), Dbl.lit 0 0)
  let w := qt * o.noise / Dbl.sqrt (one + r2)
  let d :=
    -- don't update
    if Dbl.lt w (Cvt.toDbl o.minTick) then d
    -- update beliefs
    else { d with mu := d.mu + ak.2 * d.sg, sg := d.sg * ak.1 }
  -- position spread according to base
  let db := (Dbl.asinh (Cvt.toDbl d.acc.base / Cvt.toDbl o.maxPos) + one) * Dbl.lit 5 1
  let da := one - db
  let b := Dfp.quantize (Cvt.ofDbl (d.mu - db * (two * w)) : D) o.minTick
  let a := Dfp.quantize (Cvt.ofDbl (d.mu + da * (two * w)) : D) o.minTick
  if Dfp.lt (a - b) o.minTick then
    (⟨Dfp.floor (b / o.minTick) * o.minTick, Dfp.floor (a / o.minTick) * o.minTick + o.minTick⟩, d)
  else (⟨b, a⟩, d)

/-- The static variables at the start. -/
def init : Dasbot D R where
  mu := Dbl.lit 0 0
  sg := Dbl.lit 1 0
  coid := List.replicate 2 ⟨0, 0, Dfp.zero, 0, 0⟩
  quo := ⟨Dfp.nought - Dfp.dd 1 0, Dfp.dd 1 0⟩
  acc := ⟨Dfp.nought, Dfp.nought⟩
  tra := 0

/-- `ochan_cb` -/
def ochanCb (o : Opts D R) (m : Omsg D) (d : Dasbot D R) : Res (Dasbot D R × List (Omsg D)) :=
  match m.body with
  | .oid oid => do
    let coid ← setAt d.coid oid.sid.toNat oid
    pure ({ d with coid }, [])
  | .acc exa =>
    let requote (dir : ℤ) (d : Dasbot D R) : Dasbot D R :=
      -- calc new quote
      if dir ≠ 0 then { (mm o dir d).2 with quo := (mm o dir d).1 } else d
    if Dfp.lt d.acc.base exa.base then
      let dir := if d.tra &&& 0b01 ≠ 0 then 0 else -1
      .ok (requote dir { d with tra := d.tra ||| 0b01, acc := { d.acc with base := exa.base } }, [])
    else if Dfp.lt exa.base d.acc.base then
      let dir := if d.tra &&& 0b10 ≠ 0 then 0 else 1
      .ok (requote dir { d with tra := d.tra ||| 0b10, acc := { d.acc with base := exa.base } }, [])
    else .ok (d, [])
  | _ => .ok (d, [])

/-- `hbeat_cb` -/
def hbeatCb (o : Opts D R) (d : Dasbot D R) : Res (Dasbot D R × List (Omsg D)) := do
  -- cancel old guys
  let cb ← getAt d.coid clobSideBid.toNat
  let ca ← getAt d.coid clobSideAsk.toNat
  -- recalc quo if there hasn't been a trade
  let d := if d.tra = 0 then { (mm o 0 d).2 with quo := (mm o 0 d).1 } else d
  pure ({ d with tra := 0 },
    [canOf o.cont cb, canOf o.cont ca, lmtOf o.cont clobSideBid ⟨o.quoSize, Dfp.nought⟩ d.quo.b,
      lmtOf o.cont clobSideAsk ⟨o.quoSize, Dfp.nought⟩ d.quo.a])

def cbs (o : Opts D R) : BotCbs (Dasbot D R) D where
  timerCb := hbeatCb o
  ochanCb := ochanCb o
  qchanCb _ _ := BotCbs.none

end Source

end Dasbot

/-! ## `egobot.c` -/

/-- The static variables; `G` is the state of the generator and `r` and `i` what is left of its numbers. -/
structure Egobot (D R G : Type) where
  rstr : G
  r : ℕ → R
  i : ℕ
  truv : R
  mktv : R
  coid : List (ClobOid D)
  cquo : List (QuosMsg D)
  acc : UnxsExa D

namespace Egobot

/-- The options, and the generator: 512 numbers at a time. -/
structure Opts (D R G : Type) [Dfp D] [Dbl R] where
  cont : List UInt8
  alpha : R := Dbl.lit 1 0
  sigma : R := Dbl.lit 1 0
  sprd : D := Dfp.dd 2 2
  maxq : D := Dfp.inf
  Q : Qty D := ⟨Dfp.dd 500 0, Dfp.dd 500 0⟩
  vdRngGaussian : G → R → (ℕ → R) × G

section Source

variable [Dfp D] [Dbl R] [Cvt R D]

/-- `rnorm` -/
def rnorm (o : Opts D R G) (mean : R) (e : Egobot D R G) : R × Egobot D R G :=
  let e :=
    -- get some more
    if 512 ≤ e.i then
      { e with r := (o.vdRngGaussian e.rstr o.sigma).1, rstr := (o.vdRngGaussian e.rstr o.sigma).2, i := 0 }
    else e
  (e.r e.i + mean, { e with i := e.i + 1 })

/-- `truv` -/
def truvOf (o : Opts D R G) (e : Egobot D R G) : R × Egobot D R G :=
  if Dbl.isnan e.mktv then (e.truv, e)
  else
    let x := rnorm o (o.alpha * (e.mktv - e.truv)) e
    (x.2.truv + x.1, { x.2 with truv := x.2.truv + x.1 })

/-- `minq` -/
def minq (q : Qty D) (sum : D) : Qty D :=
  -- prefer less hidden
  if Dfp.lt sum (q.dis + q.hid) then if Dfp.lt sum q.dis then ⟨sum, Dfp.nought⟩ else ⟨q.dis, sum - q.dis⟩
  else q

/-- The static variables at the start, with the generator seeded. -/
def init (rstr : G) (r : ℕ → R) : Egobot D R G where
  rstr := rstr
  r := r
  i := 512
  truv := Dbl.lit 0 0
  mktv := Dbl.lit 0 0
  coid := List.replicate 2 ⟨0, 0, Dfp.zero, 0, 0⟩
  cquo := List.replicate 2 ⟨0, Dfp.zero, Dfp.zero⟩
  acc := ⟨Dfp.nought, Dfp.nought⟩

/-- `qchan_cb` -/
def qchanCb (o : Opts D R G) (m : Qmsg D) (e : Egobot D R G) : Res (Egobot D R G × List (Omsg D)) :=
  match m.body with
  | .top quo =>
    -- not our quote
    if ¬ ours o.cont m then .ok (e, [])
    else do
      let cquo ← setAt e.cquo quo.sid.toNat quo
      -- calc mktv as well
      let qa ← getAt cquo clobSideAsk.toNat
      let qb ← getAt cquo clobSideBid.toNat
      pure ({ e with cquo, mktv := Cvt.toDbl ((qa.prc + qb.prc) / Dfp.dd 2 0) }, [])
  | .auc auc => .ok (if Dfp.isnan auc.prc then e else { e with mktv := Cvt.toDbl auc.prc }, [])
  | _ => .ok (e, [])

/-- `ochan_cb` -/
def ochanCb (m : Omsg D) (e : Egobot D R G) : Res (Egobot D R G × List (Omsg D)) :=
  match m.body with
  | .oid oid => do
    let coid ← setAt e.coid oid.sid.toNat oid
    pure ({ e with coid }, [])
  | .acc exa => .ok ({ e with acc := exa }, [])
  | _ => .ok (e, [])

/-- `hbeat_cb` -/
def hbeatCb (o : Opts D R G) (e : Egobot D R G) : Res (Egobot D R G × List (Omsg D)) := do
  -- cancel old guys
  let cb ← getAt e.coid clobSideBid.toNat
  let ca ← getAt e.coid clobSideAsk.toNat
  let t := truvOf o e
  let v := Dfp.quantize (Cvt.ofDbl t.1) o.sprd
  let ql := minq o.Q (o.maxq - e.acc.base)
  let qs := minq o.Q (o.maxq + e.acc.base)
  pure (t.2, [canOf o.cont cb, canOf o.cont ca] ++
    (if Dfp.lt Dfp.nought (Dfp.qty ql) then [lmtOf o.cont clobSideBid ql (v - o.sprd / Dfp.dd 2 0)] else []) ++
    if Dfp.lt Dfp.nought (Dfp.qty qs) then [lmtOf o.cont clobSideAsk qs (v + o.sprd / Dfp.dd 2 0)] else [])

def cbs (o : Opts D R G) : BotCbs (Egobot D R G) D where
  timerCb := hbeatCb o
  ochanCb := ochanCb
  qchanCb m _ := qchanCb o m

end Source

end Egobot

/-! ## `pyrabot.c` -/

/-- The static variables; `coid` is the memory from the table of ids on. -/
structure Pyrabot (D : Type) where
  bb : D
  bs : D
  acc : UnxsExa D
  coid : ℕ → ClobOid D
  noid : ℕ
  vprc : D
  vqty : List D
  cauc : ℕ

namespace Pyrabot

/-- The options. -/
structure Opts (D : Type) [Dfp D] where
  cont : List UInt8
  nlvl : ℕ := 1
  Q : Qty D := ⟨Dfp.dd 500 0, Dfp.dd 500 0⟩
  maxq : D := Dfp.inf
  maxs : D := Dfp.dd 1 0
  mint : D := Dfp.dd 1 2
  nauc : ℕ := 0

variable [Dfp D]

/-- `mins` -/
def Opts.mins (o : Opts D) : D := o.mint / Dfp.qty o.Q

/-- `_maxq` -/
def maxqOf (q sum : Qty D) (lim : D) : Qty D :=
  if Dfp.lt lim (Dfp.qty (Dfp.qtyAdd q sum)) then
    if Dfp.le lim (Dfp.qty sum) then Qty.nil
    else
      -- otherwise Q = LIM - SUM mimicking qty_exe()
      let x := lim - Dfp.qty sum
      if Dfp.lt q.dis x then ⟨q.dis, q.hid - x⟩ else ⟨x, Dfp.nought⟩
  -- otherwise just post it
  else q

/-- The static variables at the start, with what is in the memory. -/
def init (o : Opts D) (mem : ℕ → ClobOid D) : Pyrabot D where
  bb := Dfp.nought
  bs := o.mint
  acc := ⟨Dfp.nought, Dfp.nought⟩
  coid := mem
  noid := 0
  vprc := Dfp.zero
  vqty := List.replicate 2 Dfp.zero
  cauc := 0

/-- `ochan_cb` -/
def ochanCb (m : Omsg D) (p : Pyrabot D) : Res (Pyrabot D × List (Omsg D)) :=
  match m.body with
  | .oid oid => .ok ({ p with coid := fun i => if i = p.noid then oid else p.coid i, noid := p.noid + 1 }, [])
  | .fil fid exe _ => do
    let v ← getAt p.vqty fid.sid.toNat
    let vqty ← setAt p.vqty fid.sid.toNat (v + exe.qty)
    pure ({ p with vprc := p.vprc + exe.prc * exe.qty, vqty }, [])
  | .acc exa => .ok ({ p with acc := exa }, [])
  | _ => .ok (p, [])

/-- The loop over the levels, with `n` to go. -/
def pyramid (o : Opts D) (p : Pyrabot D) : ℕ → D → Qty D → Qty D → List (Omsg D)
  | 0, _, _, _ => []
  | n + 1, q, bq, aq =>
    let sq := Dfp.max (p.bs * q) (o.mint / Dfp.dd 2 0)
    -- calculate renormalised spread
    let rs := sq / (Dfp.abs p.bb + sq)
    -- solve reno-spread equation for sq
    let sq := if Dfp.lt o.maxs rs then o.maxs * (Dfp.abs p.bb + sq) else sq
    let a := maxqOf o.Q aq (o.maxq + p.acc.base)
    let b := maxqOf o.Q bq (o.maxq - p.acc.base)
    lmtOf o.cont clobSideAsk a (Dfp.quantize (p.bb + sq) o.mint) ::
      lmtOf o.cont clobSideBid b (Dfp.quantize (p.bb - sq) o.mint) ::
        pyramid o p n (q + Dfp.qty o.Q) (Dfp.qtyAdd bq b) (Dfp.qtyAdd aq a)

/-- The mid point and the spread in `hbeat_cb`. -/
def reprice (o : Opts D) (va vb : D) (p : Pyrabot D) : Pyrabot D :=
  -- update mid point
  let vwap := p.vprc / (va + vb)
  -- update spread
  let maxvqty := Dfp.max va vb
  { p with
    bb := if Dfp.isnan vwap then p.bb else vwap
    bs := if Dfp.eq maxvqty Dfp.nought then Dfp.max (p.bs / Dfp.dd 2 0) o.mins
      else p.bs * Dfp.ceil ((maxvqty + Dfp.dd 1 0) / Dfp.qty o.Q) }

/-- `hbeat_cb` -/
def hbeatCb (o : Opts D) (p : Pyrabot D) : Res (Pyrabot D × List (Omsg D)) := do
  -- cancel everything
  let cans := (List.range p.noid).map fun i => canOf o.cont (p.coid i)
  let va ← getAt p.vqty 0
  let vb ← getAt p.vqty 1
  let p := reprice o va vb p
  -- reset oid counter and vsum counter
  pure ({ p with noid := 0, vprc := Dfp.nought, vqty := [Dfp.nought, Dfp.nought] },
    cans ++ pyramid o p o.nlvl (Dfp.qty o.Q) Qty.nil Qty.nil)

/-- `qchan_cb` -/
def qchanCb (o : Opts D) (m : Qmsg D) (p : Pyrabot D) : Res (Pyrabot D × List (Omsg D)) :=
  match m.body with
  | .auc _ =>
    -- not our auction
    if ¬ ours o.cont m then .ok (p, [])
    else
      let p' := { p with cauc := p.cauc + 1 }
      if p.cauc % o.nauc = 0 then hbeatCb o p' else .ok (p', [])
  | _ => .ok (p, [])

/-- Heartbeats are either the timer's or those of the auctions. -/
def cbs (o : Opts D) : BotCbs (Pyrabot D) D where
  timerCb := if o.nauc = 0 then hbeatCb o else BotCbs.none
  ochanCb := ochanCb
  qchanCb m _ := if o.nauc = 0 then BotCbs.none else qchanCb o m

end Pyrabot

end Unserlob
