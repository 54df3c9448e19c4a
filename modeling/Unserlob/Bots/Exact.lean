import Mathlib.Algebra.Order.Field.Basic
import Mathlib.Algebra.Order.Monoid.Unbundled.WithTop
import Unserlob.Bots.Callbacks
import Unserlob.Lol.OrderTrip

/-!
# Exact decimals

Bots count quantities; here are decimals with which they count right, and what is left of a quantity
when an order is sent.

* `Signed`: decimals whose sign can be changed;
* `Exact`, `ExactSigned`: decimals that are not rounded, with the numbers they denote; `Cents` are;
* `wired`, `Totals`: the parts of a quantity on the wire, and their sum;
* **`Written.decoded`**: they are what is decoded from the line of the order.
-/

namespace Unserlob

open Ascii Cursor

/-- Decimals whose sign can be changed. -/
class Signed (D : Type) extends Dfp D, Neg D where
  copysign : D → D → D

/-- A number, or plus infinity. -/
def ofTop : WithTop ℚ → Decimal64.Num
  | none => .inf false
  | some q => .fin q

/-- **Decimals that are not rounded** in what is counted with them, and the numbers they denote. -/
class Exact (D : Type) [Dfp D] where
  num : D → Decimal64.Num
  nought : num Dfp.nought = .fin 0
  add {x y : D} {L : WithTop ℚ} {b : ℚ} : num x = ofTop L → num y = .fin b → num (x + y) = ofTop (L + b)
  sub {x y : D} {L : WithTop ℚ} {b : ℚ} : num x = ofTop L → num y = .fin b → num (x - y) = ofTop (L + (-b : ℚ))
  abs {x : D} {a : ℚ} : num x = .fin a → num (Dfp.abs x) = .fin |a|
  lt {x y : D} {L M : WithTop ℚ} : num x = ofTop L → num y = ofTop M → (Dfp.lt x y = true ↔ L < M)
  le {x y : D} {L M : WithTop ℚ} : num x = ofTop L → num y = ofTop M → (Dfp.le x y = true ↔ L ≤ M)
  eq {x y : D} {a b : ℚ} : num x = .fin a → num y = .fin b → (Dfp.eq x y = true ↔ a = b)
  qty {q : Qty D} {a b : ℚ} : num q.dis = .fin a → num q.hid = .fin b → num (Dfp.qty q) = .fin (a + b)
  dis {p q : Qty D} {a b : ℚ} : num p.dis = .fin a → num q.dis = .fin b → num (Dfp.qtyAdd p q).dis = .fin (a + b)
  hid {p q : Qty D} {a b : ℚ} : num p.hid = .fin a → num q.hid = .fin b → num (Dfp.qtyAdd p q).hid = .fin (a + b)

/-- So is the sign changed. -/
class ExactSigned (D : Type) [Signed D] extends Exact D where
  neg {x : D} {a : ℚ} : num x = .fin a → num (-x) = .fin (-a)

namespace Exact

variable {D : Type} [Dfp D] [Exact D] {x y : D} {a b : ℚ}

theorem fin_add (hx : num x = .fin a) (hy : num y = .fin b) : num (x + y) = .fin (a + b) := add (L := a) hx hy

theorem fin_sub (hx : num x = .fin a) (hy : num y = .fin b) : num (x - y) = .fin (a - b) := by
  rw [sub_eq_add_neg]
  exact sub (L := a) hx hy

theorem fin_lt (hx : num x = .fin a) (hy : num y = .fin b) : Dfp.lt x y = true ↔ a < b :=
  (lt (L := a) (M := b) hx hy).trans WithTop.coe_lt_coe

theorem min {L M : WithTop ℚ} (hx : num x = ofTop L) (hy : num y = ofTop M) : num (Dfp.min x y) = ofTop (L ⊓ M) := by
  unfold Dfp.min
  by_cases h : L ≤ M
  · rw [if_pos ((le hx hy).mpr h), inf_eq_left.mpr h, hx]
  · rw [if_neg fun hle => h ((le hx hy).mp hle), inf_eq_right.mpr (le_of_not_ge h), hy]

end Exact

/-! ## Cents -/

namespace Cents

def num : Cents → Decimal64.Num
  | none => .nan
  | some c => .fin (c / 100)

theorem num_fin {x : Cents} {L : WithTop ℚ} (h : num x = ofTop L) : ∃ c : ℤ, x = some c ∧ L = ((c / 100 : ℚ) : WithTop ℚ) := by
  cases x with
  | none => cases L <;> cases h
  | some c =>
      cases L with
      | top => cases h
      | coe q => exact ⟨c, rfl, congrArg _ (Decimal64.Num.fin.inj h).symm⟩

theorem num_fin' {x : Cents} {a : ℚ} (h : num x = .fin a) : ∃ c : ℤ, x = some c ∧ a = c / 100 := by
  obtain ⟨c, hc, ha⟩ := num_fin (L := a) h
  exact ⟨c, hc, WithTop.coe_injective ha⟩

theorem div_lt (c d : ℤ) : (c / 100 : ℚ) < d / 100 ↔ c < d := by
  rw [div_lt_div_iff_of_pos_right (by norm_num), Int.cast_lt]

theorem div_le (c d : ℤ) : (c / 100 : ℚ) ≤ d / 100 ↔ c ≤ d := by
  rw [div_le_div_iff_of_pos_right (by norm_num), Int.cast_le]

theorem num_add {x y : Cents} {a b : ℚ} (hx : num x = .fin a) (hy : num y = .fin b) :
    num (lift (· + ·) x y) = .fin (a + b) := by
  obtain ⟨c, rfl, rfl⟩ := num_fin' hx
  obtain ⟨d, rfl, rfl⟩ := num_fin' hy
  rw [← add_div, ← Int.cast_add]
  rfl

instance : Exact Cents where
  num := num
  nought := congrArg Decimal64.Num.fin (by norm_num)
  add hx hy := by
    obtain ⟨c, -, rfl⟩ := num_fin hx
    exact num_add hx hy
  sub hx hy := by
    obtain ⟨c, rfl, rfl⟩ := num_fin hx
    obtain ⟨d, rfl, rfl⟩ := num_fin' hy
    refine congrArg Decimal64.Num.fin ?_
    rw [Int.cast_sub, sub_div, sub_eq_add_neg]
  abs hx := by
    obtain ⟨c, rfl, rfl⟩ := num_fin' hx
    refine congrArg Decimal64.Num.fin ?_
    rw [abs_div, Int.cast_abs, abs_of_pos (a := (100 : ℚ)) (by norm_num)]
  lt hx hy := by
    obtain ⟨c, rfl, rfl⟩ := num_fin hx
    obtain ⟨d, rfl, rfl⟩ := num_fin hy
    rw [WithTop.coe_lt_coe, div_lt]
    exact decide_eq_true_iff
  le hx hy := by
    obtain ⟨c, rfl, rfl⟩ := num_fin hx
    obtain ⟨d, rfl, rfl⟩ := num_fin hy
    rw [WithTop.coe_le_coe, div_le]
    exact decide_eq_true_iff
  eq hx hy := by
    obtain ⟨c, rfl, rfl⟩ := num_fin' hx
    obtain ⟨d, rfl, rfl⟩ := num_fin' hy
    rw [div_left_inj' (by norm_num), Int.cast_inj]
    exact decide_eq_true_iff
  qty := num_add
  dis := num_add
  hid := num_add

instance : Signed Cents where
  neg := Option.map fun a => -a
  copysign x y := if test (fun a b => a < b) y (some 0) then Option.map (fun a => -|a|) x else Option.map (fun a => |a|) x

/-- So many cents. -/
def of (c : ℤ) : Cents := some c

theorem num_of {c : ℤ} {a : ℚ} (h : (c / 100 : ℚ) = a) : Exact.num (of c) = .fin a := congrArg Decimal64.Num.fin h

instance : ExactSigned Cents where
  neg hx := by
    obtain ⟨c, rfl, rfl⟩ := num_fin' hx
    refine congrArg Decimal64.Num.fin ?_
    rw [Int.cast_neg, neg_div]

end Cents

/-! ## On the wire -/

section Wire

variable {D : Type} [Dfp D] [Exact D]

open Exact (num)

/-- **The parts of a quantity on the wire**, where a hidden part is left out unless it is positive. -/
def wired (q : Qty D) : Qty Decimal64.Num := ⟨num q.dis, if Dfp.lt Dfp.nought q.hid then num q.hid else .fin 0⟩

/-- The parts on the wire are not negative and add up to a number. -/
def Totals (q : Qty D) (t : ℚ) : Prop := ∃ x y, wired q = ⟨.fin x, .fin y⟩ ∧ 0 ≤ x ∧ 0 ≤ y ∧ x + y = t

theorem wired_fin {q : Qty D} {a b : ℚ} (hd : num q.dis = .fin a) (hh : num q.hid = .fin b) :
    wired q = ⟨.fin a, .fin (max b 0)⟩ := by
  have hpos : Dfp.lt Dfp.nought q.hid = true ↔ 0 < b := Exact.fin_lt Exact.nought hh
  rw [wired, hd]
  by_cases h : 0 < b
  · rw [if_pos (hpos.mpr h), hh, max_eq_left h.le]
  · rw [if_neg fun hl => h (hpos.mp hl), max_eq_right (not_lt.mp h)]

theorem totals_iff {q : Qty D} {a b t : ℚ} (hd : num q.dis = .fin a) (hh : num q.hid = .fin b) :
    Totals q t ↔ 0 ≤ a ∧ a + max b 0 = t := by
  rw [Totals, wired_fin hd hh]
  constructor
  · rintro ⟨x, y, h, hx, -, rfl⟩
    cases h
    exact ⟨hx, rfl⟩
  · rintro ⟨ha, rfl⟩
    exact ⟨a, max b 0, rfl, ha, le_max_right _ _, rfl⟩

/-- **The order as it is sent**, in words that the wire keeps. -/
structure Written (w : ClobOrd Decimal64) (o : ClobOrd D) : Prop where
  typ : w.typ = o.typ
  sid : w.sid = o.sid
  side : o.sid = clobSideAsk ∨ o.sid = clobSideBid
  limit : o.typ = clobTypeLmt
  dis : w.qty.dis.num = num o.qty.dis
  hid : w.qty.hid.num = num o.qty.hid
  wire : w.qty.dis.wire ∧ w.qty.hid.wire ∧ w.lmt.wire

theorem omsgText_zero (ins : List UInt8) {w : ClobOrd Decimal64} (h : gtZero w.qty.hid = false) :
    omsgText ⟨ins, .ord w⟩ = omsgText ⟨ins, .ord { w with qty := ⟨w.qty.dis, zerodd⟩ }⟩ := by
  have h0 : gtZero zerodd = false := by simp [gtZero, num_zerodd]
  simp only [omsgText, OBody.head, OBody.tail, ordText, lmtText, h, h0, Bool.false_eq_true, if_false]

theorem recvOmsg_limit {w : ClobOrd Decimal64} (hw : w.wire) (ht : w.typ = clobTypeLmt) {ins : List UInt8}
    (hins : ch '\t' ∉ ins) (l : Locals) (r : Ptr) :
    ∃ o', recvOmsg l (omsgText ⟨ins, .ord w⟩ ++ r) (omsgText ⟨ins, .ord w⟩).length = .ok ⟨ins, .ord o'⟩ ∧
      o'.typ = clobTypeLmt ∧ o'.sid = w.sid ∧ o'.qty.dis.num = w.qty.dis.num ∧ o'.qty.hid.num = w.qty.hid.num := by
  obtain ⟨⟨ins', b⟩, hm, hsaid⟩ := recvOmsg_omsgText l (m := ⟨ins, .ord w⟩) ⟨hins, hw⟩ r
  obtain ⟨rfl, hb⟩ := Prod.mk.inj hsaid
  cases b with
  | ord o' =>
      obtain ⟨hs, hd, hh, hl⟩ := OSaid.ord.inj hb
      refine ⟨o', hm, ?_, hs, hd, hh⟩
      rw [if_pos ht] at hl
      by_contra hn
      rw [if_neg hn] at hl
      cases hl
  | unk => cases hb
  | acc a => cases hb
  | fil o x u => cases hb
  | kil o => cases hb
  | nok o => cases hb
  | oid o => cases hb
  | can o => cases hb

/-- **What is decoded** from the line of an order: its type, its side, and its parts on the wire. -/
theorem Written.decoded {w : ClobOrd Decimal64} {o : ClobOrd D} (h : Written w o) {ins : List UInt8}
    (hins : ch '\t' ∉ ins) (l : Locals) (r : Ptr) :
    ∃ o', recvOmsg l (omsgText ⟨ins, .ord w⟩ ++ r) (omsgText ⟨ins, .ord w⟩).length = .ok ⟨ins, .ord o'⟩ ∧
      o'.typ = o.typ ∧ o'.sid = o.sid ∧ (⟨o'.qty.dis.num, o'.qty.hid.num⟩ : Qty Decimal64.Num) = wired o.qty := by
  obtain ⟨hd, hh, hl⟩ := h.wire
  have hsid : w.sid = clobSideAsk ∨ w.sid = clobSideBid := by rw [h.sid]; exact h.side
  have hval : num o.qty.hid = .fin w.qty.hid.val := by rw [← h.hid, Decimal64.num_of_finite hh.finite]
  have hpos : Dfp.lt Dfp.nought o.qty.hid = gtZero w.qty.hid := by
    rw [gtZero_wire hh, Bool.eq_iff_iff, Exact.fin_lt Exact.nought hval, decide_eq_true_iff]
  rw [wired, hpos, ← h.typ, ← h.sid, ← h.dis, ← h.hid]
  have htyp := h.typ.trans h.limit
  by_cases hg : gtZero w.qty.hid = true
  · have hnonneg : 0 ≤ w.qty.hid.val := by
      rw [gtZero_wire hh, decide_eq_true_iff] at hg
      exact hg.le
    obtain ⟨o', hread, h1, h2, h3, h4⟩ := recvOmsg_limit ⟨.inl htyp, hsid, hd, hh, hnonneg, fun _ => hl⟩ htyp hins l r
    exact ⟨o', hread, by rw [h1, htyp], h2, by rw [h3, h4, if_pos hg]⟩
  · rw [Bool.not_eq_true] at hg
    have hz : zerodd.wire := wire_of (by decide)
    have hnonneg : 0 ≤ zerodd.val := Decimal64.val_nonneg (by decide)
    rw [omsgText_zero ins hg]
    obtain ⟨o', hread, h1, h2, h3, h4⟩ := recvOmsg_limit (w := { w with qty := ⟨w.qty.dis, zerodd⟩ })
      ⟨.inl htyp, hsid, hd, hz, hnonneg, fun _ => hl⟩ htyp hins l r
    exact ⟨o', hread, by rw [h1, htyp], h2, by rw [h3, h4, num_zerodd, hg]; rfl⟩

end Wire

end Unserlob
