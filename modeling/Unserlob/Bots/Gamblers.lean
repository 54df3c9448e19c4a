import Unserlob.Bots.Exact

/-!
# Gamblers (`roulbot.c`, `monkey.c`)

They do not look at the market.

* `Roulbot`: an order to take the profit and another to double up, around every position;
* `Pcg32`: the generator (`pcg_basic.c`); `Monkey`: the sum of coin tosses, if the position allows it.
-/

namespace Unserlob

open Cursor Table

variable {D : Type}

/-! ## `roulbot.c` -/

/-- The static variables. -/
structure Roulbot (D : Type) where
  dir : ClobSide
  coid : List (ClobOid D)
  acc : UnxsExa D
  pnl : D

namespace Roulbot

/-- The options. -/
structure Opts (D : Type) [Dfp D] where
  cont : List UInt8
  Q : Qty D := ⟨Dfp.dd 1 0, Dfp.nought⟩
  target : D
  pingpongp : Bool := false

variable [Signed D]

/-- `tabs` -/
def Opts.tabs (o : Opts D) : D := Dfp.abs o.target

/-- The static variables at the start. -/
def init (o : Opts D) : Roulbot D where
  dir := if Dfp.lt o.target Dfp.nought then clobSideAsk else clobSideBid
  coid := List.replicate 2 ⟨0, 0, Dfp.zero, 0, 0⟩
  acc := ⟨Dfp.nought, Dfp.nought⟩
  pnl := Dfp.nought

/-- `{CLOB_TYPE_MKT, dir, Q}` -/
def spin (o : Opts D) (dir : ClobSide) : Omsg D := ⟨o.cont, .ord ⟨clobTypeMkt, dir, o.Q, Dfp.zero, Dfp.zero, 0⟩⟩

/-- `mean` -/
def mean (pnl : D) (acc : UnxsExa D) : D := Dfp.quantize ((pnl - acc.term) / acc.base) acc.term

/-- `tak` -/
def tak (o : Opts D) (pnl : D) (acc : UnxsExa D) : ClobOrd D where
  typ := clobTypeLmt
  sid := if Dfp.lt acc.base Dfp.nought then 1 else 0
  qty := ⟨o.Q.dis, Dfp.abs acc.base + o.Q.hid - o.Q.dis⟩
  lmt := mean pnl acc + Signed.copysign o.tabs acc.base
  slp := Dfp.zero
  usr := 0

/-- `mor` -/
def mor (o : Opts D) (pnl : D) (acc : UnxsExa D) : ClobOrd D where
  typ := clobTypeLmt
  sid := if Dfp.lt Dfp.nought acc.base then 1 else 0
  qty := ⟨o.Q.dis, Dfp.abs acc.base + o.Q.hid⟩
  lmt := mean pnl acc - Signed.copysign o.tabs acc.base
  slp := Dfp.zero
  usr := 0

/-- We're flat. -/
def flat (exa : UnxsExa D) : Bool := Dfp.eq exa.base Dfp.nought

/-- `ochan_cb` -/
def ochanCb (o : Opts D) (m : Omsg D) (s : Roulbot D) : Res (Roulbot D × List (Omsg D)) :=
  match m.body with
  | .acc exa => do
    let s := { s with acc := exa }
    -- cancel any outstanding orders
    let cb ← getAt s.coid clobSideBid.toNat
    let ca ← getAt s.coid clobSideAsk.toNat
    let cans := [canOf o.cont cb, canOf o.cont ca]
    -- store pnl if we're flat
    if flat exa then
      let s := { s with pnl := exa.term }
      -- just keep on going, opposite direction now
      if o.pingpongp then pure ({ s with dir := s.dir ^^^ 1 }, cans ++ [spin o (s.dir ^^^ 1)]) else pure (s, cans)
    -- put bracket order
    else pure (s, cans ++ [⟨o.cont, .ord (tak o s.pnl exa)⟩, ⟨o.cont, .ord (mor o s.pnl exa)⟩])
  | .oid oid => do
    let coid ← setAt s.coid oid.sid.toNat oid
    pure ({ s with coid }, [])
  | _ => .ok (s, [])

/-- `hbeat_cb` -/
def hbeatCb (o : Opts D) (s : Roulbot D) : Res (Roulbot D × List (Omsg D)) :=
  -- there should be a bracket out there already
  if ¬ flat s.acc then .ok (s, []) else .ok (s, [spin o s.dir])

def cbs (o : Opts D) : BotCbs (Roulbot D) D where
  timerCb := hbeatCb o
  ochanCb := ochanCb o
  qchanCb _ _ := BotCbs.none

end Roulbot

/-! ## `pcg_basic.c` -/

/-- `pcg32_random_t` -/
structure Pcg32 where
  state : BitVec 64
  inc : BitVec 64

/-- `pcg32_random_r` -/
def Pcg32.random (rng : Pcg32) : BitVec 32 × Pcg32 :=
  let xorshifted : BitVec 32 := (((rng.state >>> 18) ^^^ rng.state) >>> 27).setWidth 32
  let rot : BitVec 32 := (rng.state >>> 59).setWidth 32
  ((xorshifted >>> rot.toNat) ||| (xorshifted <<< (-rot &&& 31).toNat),
    { rng with state := rng.state * 6364136223846793005 + rng.inc })

/-! ## `monkey.c` -/

/-- The static variables, and the generator's. -/
structure Monkey (D : Type) where
  acc : UnxsExa D
  rng : Pcg32

namespace Monkey

/-- The options. -/
structure Opts (D : Type) [Dfp D] where
  cont : List UInt8
  maxq : D := Dfp.inf
  basq : D := Dfp.dd 100 0
  N : ℕ := 5

variable [Signed D]

/-- The static variables at the start. -/
def init (rng : Pcg32) : Monkey D := ⟨⟨Dfp.nought, Dfp.nought⟩, rng⟩

/-- `ochan_cb` -/
def ochanCb (m : Omsg D) (k : Monkey D) : Res (Monkey D × List (Omsg D)) :=
  match m.body with
  | .acc exa => .ok ({ k with acc := exa }, [])
  | _ => .ok (k, [])

/-- The coins of one number, with `n` to go. -/
def toss (basq : D) : ℕ → BitVec 32 → D → D
  | 0, _, q => q
  | n + 1, x, q => toss basq n (x >>> 1) (q + if x &&& 1 ≠ 0 then basq else -basq)

/-- The loop over the numbers; those after the first have no coins left. -/
def draw (o : Opts D) (rng : Pcg32) : D × Pcg32 :=
  (List.range ((o.N + 31) / 32)).foldl
    (fun a i => (toss o.basq (Nat.min 32 o.N - 32 * i) a.2.random.1 a.1, a.2.random.2)) (Dfp.nought, rng)

/-- `hbeat_cb` -/
def hbeatCb (o : Opts D) (k : Monkey D) : Res (Monkey D × List (Omsg D)) :=
  let q := (draw o k.rng).1
  let k' := { k with rng := (draw o k.rng).2 }
  if Dfp.lt Dfp.nought q && Dfp.le (k.acc.base + q) o.maxq then .ok (k', [mktOf o.cont clobSideBid q])
  else if Dfp.lt q Dfp.nought && Dfp.le (-k.acc.base - q) o.maxq then .ok (k', [mktOf o.cont clobSideAsk (-q)])
  -- not today then
  else .ok (k', [])

def cbs (o : Opts D) : BotCbs (Monkey D) D where
  timerCb := hbeatCb o
  ochanCb := ochanCb
  qchanCb _ _ := BotCbs.none

end Monkey

end Unserlob
