import Unserlob.D64.RoundTrip

/-!
# Messages (`lol.h`)

The order and quote messages, over any type `D` of decimals. `clob`'s enumerations are words,
because the decoders make them out of arbitrary bytes.

* `Omsg`, `Qmsg`: the two kinds of message;
* `Omsg.said`, `Qmsg.said`: what a message of the wire says, with decimals as the numbers they
  denote; fields that do not travel (`usr`, `slp`) are left out.
-/

namespace Unserlob

/-- `clob_side_t` -/
abbrev ClobSide := BitVec 32

def clobSideAsk : ClobSide := 0

def clobSideBid : ClobSide := 1

def nclobSides : ClobSide := 2

/-- `clob_type_t` -/
abbrev ClobType := BitVec 32

def clobTypeLmt : ClobType := 0

def clobTypeMkt : ClobType := 1

/-- `uid_t` -/
abbrev Uid := BitVec 32

variable {D : Type}

/-- `clob_oid_t` -/
structure ClobOid (D : Type) where
  typ : ClobType
  sid : ClobSide
  prc : D
  qid : BitVec 64
  usr : BitVec 64
  deriving DecidableEq

/-- The quantity of a `clob_ord_t`. -/
structure Qty (D : Type) where
  dis : D
  hid : D
  deriving DecidableEq

/-- `clob_ord_t` -/
structure ClobOrd (D : Type) where
  typ : ClobType
  sid : ClobSide
  qty : Qty D
  lmt : D
  slp : D
  usr : BitVec 64
  deriving DecidableEq

/-- `unxs_exa_t` -/
structure UnxsExa (D : Type) where
  base : D
  term : D
  deriving DecidableEq

/-- `unxs_exe_t` -/
structure UnxsExe (D : Type) where
  qty : D
  prc : D
  deriving DecidableEq

/-- `quos_msg_t` -/
structure QuosMsg (D : Type) where
  sid : ClobSide
  prc : D
  new : D
  deriving DecidableEq

/-- `mmod_auc_t` -/
structure MmodAuc (D : Type) where
  prc : D
  qty : D
  imb : D
  deriving DecidableEq

/-- The `typ` of an `omsg_t` and the members that go with it. -/
inductive OBody (D : Type) where
  | unk
  | acc (exa : UnxsExa D)
  | fil (fid : ClobOid D) (exe : UnxsExe D) (con : Uid)
  | kil (oid : ClobOid D)
  | nok (oid : ClobOid D)
  | oid (oid : ClobOid D)
  | can (oid : ClobOid D)
  | ord (ord : ClobOrd D)
  deriving DecidableEq

/-- `omsg_t` -/
structure Omsg (D : Type) where
  ins : List UInt8
  body : OBody D
  deriving DecidableEq

/-- The `typ` of a `qmsg_t` and the member that goes with it. -/
inductive QBody (D : Type) where
  | unk
  | top (quo : QuosMsg D)
  | lvl (quo : QuosMsg D)
  | tra (quo : QuosMsg D)
  | auc (auc : MmodAuc D)
  | imb (auc : MmodAuc D)
  deriving DecidableEq

/-- `qmsg_t` -/
structure Qmsg (D : Type) where
  ins : List UInt8
  body : QBody D
  deriving DecidableEq

/-- The enumerator of a message type. -/
def OBody.typ : OBody D → ℕ
  | .unk => 0
  | .acc _ => 1
  | .fil _ _ _ => 2
  | .kil _ => 3
  | .nok _ => 4
  | .oid _ => 5
  | .can _ => 6
  | .ord _ => 7

/-- The enumerator of a message type. -/
def QBody.typ : QBody D → ℕ
  | .unk => 0
  | .top _ => 1
  | .lvl _ => 2
  | .tra _ => 3
  | .auc _ => 4
  | .imb _ => 5

/-! ## What messages say -/

/-- What an order id says. -/
structure SaidOid where
  typ : ClobType
  sid : ClobSide
  prc : Decimal64.Num
  qid : BitVec 64
  deriving DecidableEq

/-- What the body of an order message says. -/
inductive OSaid where
  | unk
  | acc (base term : Decimal64.Num)
  | fil (fid : SaidOid) (qty prc : Decimal64.Num) (con : Uid)
  | kil (oid : SaidOid)
  | nok (oid : SaidOid)
  | oid (oid : SaidOid)
  | can (oid : SaidOid)
  /-- limit orders are those that name a price -/
  | ord (sid : ClobSide) (dis hid : Decimal64.Num) (lmt : Option Decimal64.Num)
  deriving DecidableEq

def ClobOid.said (o : ClobOid Decimal64) : SaidOid := ⟨o.typ, o.sid, o.prc.num, o.qid⟩

def OBody.said : OBody Decimal64 → OSaid
  | .unk => .unk
  | .acc a => .acc a.base.num a.term.num
  | .fil o x u => .fil o.said x.qty.num x.prc.num u
  | .kil o => .kil o.said
  | .nok o => .nok o.said
  | .oid o => .oid o.said
  | .can o => .can o.said
  | .ord o => .ord o.sid o.qty.dis.num o.qty.hid.num
      (if o.typ = clobTypeLmt then some o.lmt.num else none)

/-- **What an order message says**: the instrument and the body. -/
def Omsg.said (m : Omsg Decimal64) : List UInt8 × OSaid := (m.ins, m.body.said)

/-- What the body of a quote message says: of an auction message the column that travels. -/
inductive QSaid where
  | unk
  | top (sid : ClobSide) (prc new : Decimal64.Num)
  | lvl (sid : ClobSide) (prc new : Decimal64.Num)
  | tra (prc new : Decimal64.Num)
  | auc (prc qty : Decimal64.Num)
  | imb (prc imb : Decimal64.Num)
  deriving DecidableEq

def QBody.said : QBody Decimal64 → QSaid
  | .unk => .unk
  | .top q => .top q.sid q.prc.num q.new.num
  | .lvl q => .lvl q.sid q.prc.num q.new.num
  | .tra q => .tra q.prc.num q.new.num
  | .auc a => .auc a.prc.num a.qty.num
  | .imb a => .imb a.prc.num a.imb.num

/-- **What a quote message says**: the instrument and the body. -/
def Qmsg.said (m : Qmsg Decimal64) : List UInt8 × QSaid := (m.ins, m.body.said)

end Unserlob
