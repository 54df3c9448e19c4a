import Mathlib.Algebra.Order.Group.Unbundled.Int
import Unserlob.Lib.Transducer
import Unserlob.Lib.Table
import Unserlob.Lol.Types

/-!
# Bots (`bot.h`)

A bot is its callbacks. They are called with the messages of the two channels and by the timer, and
what they add to the message buffer they send.

* `Dfp`, `Dbl`, `Cvt`: decimals and doubles, whose arithmetic is that of the compiler and of libraries;
* `Cents`: decimals to try the bots on;
* `BotCbs`: the callbacks; one that is not installed is `BotCbs.none`;
* `BotEvent`, `BotCbs.step`: what calls them;
* `ours`: the test by which most of them tell their instrument from others.
-/

namespace Unserlob

open Cursor

/-- Decimals (`dfp754.h`) and quantities made of them (`clob_val.h`). -/
class Dfp (D : Type) extends Add D, Sub D, Mul D, Div D where
  /-- all bits clear -/
  zero : D
  /-- the literal `c·10⁻ᵏ` -/
  dd : ℕ → ℕ → D
  inf : D
  nan : D
  lt : D → D → Bool
  le : D → D → Bool
  eq : D → D → Bool
  abs : D → D
  ceil : D → D
  floor : D → D
  quantize : D → D → D
  isnan : D → Bool
  signbit : D → BitVec 32
  qty : Qty D → D
  qtyAdd : Qty D → Qty D → Qty D

/-- Doubles (`math.h`). -/
class Dbl (R : Type) extends Add R, Sub R, Mul R, Div R where
  /-- the literal `c·10⁻ᵏ` -/
  lit : ℤ → ℕ → R
  lt : R → R → Bool
  isnan : R → Bool
  sqrt : R → R
  exp : R → R
  erf : R → R
  asinh : R → R

/-- Conversions between the two. -/
class Cvt (R D : Type) where
  toDbl : D → R
  ofDbl : R → D

section Decimals

variable {D : Type} [Dfp D]

/-- `min` -/
def Dfp.min (x y : D) : D := if Dfp.le x y then x else y

/-- `max` -/
def Dfp.max (x y : D) : D := if Dfp.le y x then x else y

/-- `0.dd` -/
def Dfp.nought : D := Dfp.dd 0 0

/-- `qty0` -/
def Qty.nil : Qty D := ⟨Dfp.nought, Dfp.nought⟩

/-- `(omsg_t){OMSG_CAN, INS, .oid = o}` -/
def canOf (cont : List UInt8) (o : ClobOid D) : Omsg D := ⟨cont, .can o⟩

/-- `(clob_ord_t){CLOB_TYPE_LMT, sid, .qty = q, .lmt = p}` -/
def lmtOf (cont : List UInt8) (sid : ClobSide) (q : Qty D) (p : D) : Omsg D :=
  ⟨cont, .ord ⟨clobTypeLmt, sid, q, p, Dfp.zero, 0⟩⟩

/-- `(clob_ord_t){CLOB_TYPE_MKT, sid, {q, 0.dd}}` -/
def mktOf (cont : List UInt8) (sid : ClobSide) (q : D) : Omsg D :=
  ⟨cont, .ord ⟨clobTypeMkt, sid, ⟨q, Dfp.nought⟩, Dfp.zero, Dfp.zero, 0⟩⟩

end Decimals

/-- Decimals with two places, or no number; to try the bots on. -/
def Cents := Option ℤ
  deriving DecidableEq

namespace Cents

def lift (f : ℤ → ℤ → ℤ) (x y : Cents) : Cents := Option.map₂ f x y

/-- Nothing compares to what is not a number. -/
def test (f : ℤ → ℤ → Bool) (x y : Cents) : Bool := (Option.map₂ f x y).getD false

instance : Dfp Cents where
  add := lift (· + ·)
  sub := lift (· - ·)
  mul := lift fun a b => a * b / 100
  div x y := Option.bind y fun b => if b = 0 then none else Option.map (fun a => a * 100 / b) x
  zero := some 0
  dd c k := some ((c * 100 / 10 ^ k : ℕ) : ℤ)
  inf := some (10 ^ 30)
  nan := none
  lt := test fun a b => a < b
  le := test fun a b => a ≤ b
  eq := test fun a b => a = b
  abs := Option.map fun a => |a|
  ceil := Option.map fun a => (a + 99) / 100 * 100
  floor := Option.map fun a => a / 100 * 100
  quantize x _ := x
  isnan := Option.isNone
  signbit x := if test (fun a b => a < b) x (some 0) then 1 else 0
  qty q := lift (· + ·) q.dis q.hid
  qtyAdd p q := ⟨lift (· + ·) p.dis q.dis, lift (· + ·) p.hid q.hid⟩

instance : Dbl Cents where
  lit c k := some (c * 100 / 10 ^ k)
  lt := test fun a b => a < b
  isnan := Option.isNone
  sqrt := id
  exp := id
  erf := id
  asinh := id

instance : Cvt Cents Cents := ⟨id, id⟩

end Cents

/-- What the callbacks do to the static variables and what they send. A quote message comes with the
memory behind its instrument. -/
structure BotCbs (S D : Type) where
  timerCb : S → Res (S × List (Omsg D))
  ochanCb : Omsg D → S → Res (S × List (Omsg D))
  qchanCb : Qmsg D → Ptr → S → Res (S × List (Omsg D))

inductive BotEvent (D : Type) where
  | timer
  | ochan (m : Omsg D)
  | qchan (m : Qmsg D) (behind : Ptr)

variable {S D : Type}

/-- No callback. -/
def BotCbs.none (s : S) : Res (S × List (Omsg D)) := .ok (s, [])

def BotCbs.step (b : BotCbs S D) : BotEvent D → S → Res (S × List (Omsg D))
  | .timer, s => b.timerCb s
  | .ochan m, s => b.ochanCb m s
  | .qchan m behind, s => b.qchanCb m behind s

/-- `!(m.inz < conz || memcmp(m.ins, cont, conz))` -/
def ours (cont : List UInt8) (m : Qmsg D) : Bool := cont.isPrefixOf m.ins

end Unserlob
