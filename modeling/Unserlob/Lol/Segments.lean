import Unserlob.Lib.Streams
import Unserlob.Lol.OrderTrip
import Unserlob.Lol.QuoteTrip

/-!
# Messages are lines

* `mem_d64Text`: the bytes of a number;
* **`isSegment_omsgText`**, **`isSegment_qmsgText`**: the text of a message has a newline at its end and
  nowhere else, if its instrument has none.
-/

namespace Unserlob

open Ascii Writer Lines

/-! ## Numbers -/

theorem mem_numText {neg : Bool} {m : ℕ} {e : ℤ} {c : UInt8} (h : c ∈ numText neg m e) :
    isdigit c = true ∨ c = ch '-' ∨ c = ch '.' := by
  rw [numText, List.mem_append] at h
  rcases h with h | h
  · cases neg with
    | false => cases h
    | true => exact Or.inr (Or.inl (List.mem_singleton.mp h))
  · split_ifs at h with he
    · rcases List.mem_append.mp h with h | h
      · exact Or.inl (isdigit_of_mem_decimal h)
      · rcases List.mem_cons.mp h with rfl | h
        · exact Or.inr (Or.inr rfl)
        · exact Or.inl (isdigit_of_mem_fixedDigits h)
    · rcases List.mem_append.mp h with h | h
      · exact Or.inl (isdigit_of_mem_decimal h)
      · rw [List.eq_of_mem_replicate h]
        exact Or.inl rfl

theorem mem_letters {w : List UInt8} (hw : (w.all fun c => c ∈ bytes ['-', '.', 'n', 'a', 'i', 'f']) = true) {c : UInt8}
    (h : c ∈ w) : c ∈ bytes ['-', '.', 'n', 'a', 'i', 'f'] := of_decide_eq_true (List.all_eq_true.mp hw c h)

/-- **The bytes of a number** are digits, a sign, a point and the letters of the two words. -/
theorem mem_d64Text {x : Decimal64} {c : UInt8} (h : c ∈ d64Text x) :
    isdigit c = true ∨ c ∈ bytes ['-', '.', 'n', 'a', 'i', 'f'] := by
  unfold d64Text at h
  split_ifs at h with hn hi hs
  · exact Or.inr (mem_letters (by decide) h)
  · exact Or.inr (mem_letters (by decide) h)
  · exact Or.inr (mem_letters (by decide) h)
  · rcases mem_numText h with h | rfl | rfl
    · exact Or.inl h
    · exact Or.inr (by decide)
    · exact Or.inr (by decide)

theorem newline_notMem_d64Text (x : Decimal64) : ch '\n' ∉ d64Text x := fun h =>
  (mem_d64Text h).elim (by decide) (by decide)

theorem newline_notMem_decimal (n : ℕ) : ch '\n' ∉ decimal n := fun h =>
  absurd (isdigit_of_mem_decimal h) (by decide)

theorem newline_notMem_text {tab : List (List UInt8)} (h : ∀ w ∈ tab, ch '\n' ∉ w) (i : ℕ) :
    ch '\n' ∉ text tab i := by
  unfold text
  cases hi : tab[i]? with
  | none => exact List.not_mem_nil
  | some w => exact h w (List.mem_of_getElem? hi)

/-! ## Lines -/

theorem isSegment_oidText (o : ClobOid Decimal64) : IsSegment (ch '\n') (oidText o) := by
  refine IsSegment.append (IsSegment.append (IsSegment.append (IsSegment.cons (IsSegment.append
    (isSegment_singleton _) ?_) (by decide)) ?_) ?_) ?_
  · exact newline_notMem_decimal _
  · exact newline_notMem_d64Text _
  · exact newline_notMem_text (by decide) _
  · exact newline_notMem_text (by decide) _

theorem isSegment_pairText (x y : Decimal64) : IsSegment (ch '\n') (pairText x y) :=
  (((isSegment_singleton _).append (newline_notMem_d64Text y)).cons (by decide)).append
    (newline_notMem_d64Text x)

theorem isSegment_ordText (o : ClobOrd Decimal64) : IsSegment (ch '\n') (ordText o) := by
  have lmt : IsSegment (ch '\n') (lmtText o) := by
    unfold lmtText
    split_ifs
    · exact ((isSegment_singleton _).append (newline_notMem_d64Text o.lmt)).cons (by decide)
    · exact (isSegment_singleton _)
  refine IsSegment.append ?_ (newline_notMem_d64Text o.qty.dis)
  split_ifs
  · exact (lmt.append (newline_notMem_d64Text o.qty.hid)).cons (by decide)
  · exact lmt

theorem newline_notMem_exeText (x : UnxsExe Decimal64) (u : Uid) : ch '\n' ∉ exeText x u := by
  simp only [exeText, List.mem_append, List.mem_cons, not_or]
  exact ⟨newline_notMem_d64Text _, by decide, newline_notMem_d64Text _, by decide,
    newline_notMem_decimal _⟩

theorem isSegment_tail {b : OBody Decimal64} (h : b ≠ .unk) : IsSegment (ch '\n') b.tail := by
  cases b with
  | unk => exact absurd rfl h
  | acc a => exact isSegment_pairText _ _
  | fil fid exe con =>
      refine IsSegment.append ?_ (newline_notMem_exeText exe con)
      split_ifs
      · exact (isSegment_oidText fid).cons (by decide)
      · exact (isSegment_singleton _)
  | kil o => exact isSegment_oidText o
  | nok o => exact isSegment_oidText o
  | oid o => exact isSegment_oidText o
  | can o => exact isSegment_oidText o
  | ord o => exact isSegment_ordText o

/-- **An order message is a line.** -/
theorem isSegment_omsgText {m : Omsg Decimal64} (hins : ch '\n' ∉ m.ins) (h : m.body ≠ .unk) :
    IsSegment (ch '\n') (omsgText m) := by
  refine ((isSegment_tail h).cons (by decide)).append hins |>.append ?_
  cases m.body with
  | ord o => exact newline_notMem_text (by decide) _
  | _ => exact newline_notMem_text (by decide) _

/-- **A quote message is a line.** -/
theorem isSegment_qmsgText {m : Qmsg Decimal64} (hins : ch '\n' ∉ m.ins) : IsSegment (ch '\n') (qmsgText m) := by
  refine ((isSegment_pairText _ _).cons (by decide)).append hins |>.append ?_
  cases m.body with
  | top q => simp only [QBody.head]; split_ifs <;> decide
  | lvl q => simp only [QBody.head]; split_ifs <;> decide
  | tra q => exact (show ch '\n' ∉ bytes ['T', 'R', 'A', '\t'] by decide)
  | auc a => exact (show ch '\n' ∉ bytes ['A', 'U', 'C', '\t'] by decide)
  | imb a => exact (show ch '\n' ∉ bytes ['I', 'M', 'B', '\t'] by decide)
  | unk => exact List.not_mem_nil

end Unserlob
