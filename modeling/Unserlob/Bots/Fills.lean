import Unserlob.Bots.Makers
import Unserlob.Lol.Local
import Unserlob.Lol.OidLines
import Unserlob.Lol.OrderTrip

/-!
# Fills without an order id (`_recv_fil`, `ochan_cb` of pyrabot)

An order filled before it is in the book has no order id, and its fills have no column for one.

* `OidCol`, `oidCol_absent`: the column, and that a fill without number is sent without it;
* `recvFil_absent`: what is read without the column is the stack's, or nil if the line breaks off;
* `FillRead`: what is wanted of such a line;
* **`recvOmsg_fil`**: it is had of lines that break off behind the quantity, and of no fill that is sent.
-/

namespace Unserlob

open Ascii Cursor Writer Table

/-! ## The column -/

/-- Behind quantity, price and contra is the column of an order id. -/
def OidCol (u : Ptr) : Prop := ∃ t x, numEnd u = ch '\t' :: t ∧ ulEnd (numEnd t) = ch '\t' :: x

/-- The quantity can be read, and no tab follows it. -/
def BreaksOff (u : Ptr) : Prop := ¬ Stuck u ∧ ¬ ∃ t, numEnd u = ch '\t' :: t

/-- **What is read without the column**: nothing at all, or what is on the stack for an order id. -/
theorem recvFil_absent {u : Ptr} (hu : Ends u) (hno : ¬ OidCol u) :
    (BreaksOff u ∧ ∀ l, recvFil l u = .ok (.fil nilOid ⟨zerodd, NAND64⟩ 0)) ∨
      ¬ BreaksOff u ∧ ((∃ e, ∀ l, recvFil l u = .error e) ∨
        ∃ exe con, ∀ l, recvFil l u = .ok (.fil l.fid exe con)) := by
  rcases recvFil_cases hu with ⟨hn, he⟩ | ⟨hok, htab, hread⟩ | ⟨t, b, x, exe, con, ht, hx, -, -, hread⟩
  · refine .inr ⟨fun h => hn ⟨⟨h.1, fun t ht => absurd ⟨t, ht⟩ h.2⟩, fun t ht => absurd ⟨t, ht⟩ h.2⟩, .inl he⟩
  · exact .inl ⟨⟨hok.1.1, htab⟩, hread⟩
  · have hb : b ≠ ch '\t' := by
      rintro rfl
      exact hno ⟨t, x, ht, hx⟩
    refine .inr ⟨fun h => h.2 ⟨t, ht⟩, .inr ⟨exe, con, fun l => ?_⟩⟩
    rw [hread, if_neg hb]
    rfl

/-! ## Lines -/

/-- The line of a fill. -/
def filLine (ins u : List UInt8) : List UInt8 := bytes ['F', 'I', 'L', '\t'] ++ (ins ++ ch '\t' :: u)

theorem recvOmsg_filLine (l : Locals) {ins : List UInt8} (hins : ch '\t' ∉ ins) (u : List UInt8) :
    recvOmsg l (filLine ins u) (filLine ins u).length =
      (recvFil l u).map fun b => ⟨if b = .unk then [] else ins, b⟩ := by
  have h := recvOmsg_cols l (h := bytes ['F', 'I', 'L', '\t']) rfl hins u []
  rw [List.append_nil, recvBody_fil] at h
  exact h

theorem recvOmsg_behind {l : Locals} {line : List UInt8} {m : Omsg Decimal64} (h : recvOmsg l line line.length = .ok m)
    (r : Ptr) : recvOmsg l (line ++ r) line.length = .ok m := by
  rw [recvOmsg_stays l r line line.length (by rw [h]; simp), h]

/-- **What is wanted**: whatever the stack and the memory are, quantity, price and contra, and an order id that has
no number and has a side. -/
def FillRead (line : List UInt8) (exe : UnxsExe Decimal64) (con : Uid) : Prop :=
  ∃ ins fid, (∀ l r, recvOmsg l (line ++ r) line.length = .ok ⟨ins, .fil fid exe con⟩) ∧ fid.qid = 0 ∧
    (fid.sid = clobSideAsk ∨ fid.sid = clobSideBid)

section Line

variable {ins u : List UInt8} (hins : ch '\t' ∉ ins) (hu : Ends u) (hno : ¬ OidCol u)

include hins hu hno

/-- **A line that breaks off** is read as nothing, and any other as the stack has it or not at all. -/
theorem recvOmsg_absent :
    (BreaksOff u ∧ ∀ l, recvOmsg l (filLine ins u) (filLine ins u).length = .ok ⟨ins, .fil nilOid ⟨zerodd, NAND64⟩ 0⟩) ∨
      ¬ BreaksOff u ∧ ((∃ e, ∀ l, recvOmsg l (filLine ins u) (filLine ins u).length = .error e) ∨
        ∃ exe con, ∀ l, recvOmsg l (filLine ins u) (filLine ins u).length = .ok ⟨ins, .fil l.fid exe con⟩) := by
  have hline := fun l => recvOmsg_filLine l hins u
  rcases recvFil_absent hu hno with ⟨hb, hread⟩ | ⟨hb, ⟨e, he⟩ | ⟨exe, con, hread⟩⟩
  · refine .inl ⟨hb, fun l => ?_⟩
    rw [hline, hread]
    rfl
  · refine .inr ⟨hb, .inl ⟨e, fun l => ?_⟩⟩
    rw [hline, he]
    rfl
  · refine .inr ⟨hb, .inr ⟨exe, con, fun l => ?_⟩⟩
    rw [hline, hread]
    rfl

theorem fillRead_iff : (∃ exe con, FillRead (filLine ins u) exe con) ↔ BreaksOff u := by
  rcases recvOmsg_absent hins hu hno with ⟨hb, hread⟩ | ⟨hb, hread⟩
  · exact iff_of_true ⟨_, _, ins, nilOid, fun l r => recvOmsg_behind (hread l) r, rfl, .inl rfl⟩ hb
  · refine iff_of_false ?_ hb
    rintro ⟨exe, con, ins', fid, h, hqid, -⟩
    have hl : ∀ l, recvOmsg l (filLine ins u) (filLine ins u).length = .ok ⟨ins', .fil fid exe con⟩ := fun l => by
      rw [← h l [], List.append_nil]
    rcases hread with ⟨e, he⟩ | ⟨exe', con', hread⟩
    · have h0 := hl ⟨0, nilOid⟩
      rw [he] at h0
      cases h0
    · -- the number is on the stack
      have h1 := hl ⟨0, { nilOid with qid := 1 }⟩
      rw [hread] at h1
      cases h1
      cases hqid

end Line

/-! ## Fills that are sent -/

theorem isNumber_numText (neg : Bool) (m : ℕ) (e : ℤ) : IsNumber (numText neg m e) := by
  have hsgn : (if neg then [ch '-'] else []) = [] ∨ (if neg then [ch '-'] else []) = [ch '+'] ∨
      (if neg then [ch '-'] else []) = [ch '-'] := by
    cases neg
    · exact .inl rfl
    · exact .inr (.inr rfl)
  by_cases he : e < 0
  · refine ⟨_, decimal (m / 10 ^ (-e).toNat), ch '.' :: fixedDigits (-e).toNat m, ?_, hsgn, ⟨decimal_ne_nil _, ?_⟩,
      .inr ⟨_, rfl, ?_, ?_⟩⟩
    · rw [numText, if_pos he]
    · exact fun c hc => isdigit_of_mem_decimal hc
    · refine List.ne_nil_of_length_pos ?_
      rw [length_fixedDigits]
      omega
    · exact fun c hc => isdigit_of_mem_fixedDigits hc
  · refine ⟨_, decimal m ++ List.replicate e.toNat (ch '0'), [], ?_, hsgn, ⟨?_, fun c hc => ?_⟩, .inl rfl⟩
    · rw [numText, if_neg he, List.append_nil]
    · exact List.append_ne_nil_of_left_ne_nil (decimal_ne_nil m) _
    · rcases List.mem_append.mp hc with hc | hc
      · exact isdigit_of_mem_decimal hc
      · rw [List.eq_of_mem_replicate hc]
        rfl

/-- **A number is printed, or a word**, which is not scanned. -/
theorem d64Text_cases (x : Decimal64) : (x.finite ∧ IsNumber (d64Text x)) ∨
    ¬ x.finite ∧ ∀ r, ∃ c t, numEnd (d64Text x ++ r) = c :: t ∧ (c = ch 'n' ∨ c = ch 'i') := by
  by_cases hn : isnand64 x = true
  · refine .inr ⟨fun h => absurd hn h.1, fun r => ⟨ch 'n', bytes ['a', 'n'] ++ r, ?_, .inl rfl⟩⟩
    rw [d64Text, if_pos hn]
    rfl
  by_cases hi : isinfd64 x = true
  · refine .inr ⟨fun h => absurd hi h.2, fun r => ⟨ch 'i', bytes ['n', 'f'] ++ r, ?_, .inr rfl⟩⟩
    rw [d64Text, if_neg hn, if_pos hi]
    split_ifs <;> rfl
  · refine .inl ⟨⟨hn, hi⟩, ?_⟩
    rw [d64Text, if_neg hn, if_neg hi]
    exact isNumber_numText _ _ _

theorem ulEnd_word {c : UInt8} (hc : c = ch 'n' ∨ c = ch 'i') (t : Ptr) : ulEnd (c :: t) = c :: t := by
  rcases hc with rfl | rfl <;> cases t <;> rfl

theorem ulEnd_contra (con : Uid) : ulEnd (ch '\t' :: (decimal con.toNat ++ [ch '\n'])) = [ch '\n'] := by
  have hw : ∀ x ∈ [ch '\t'], isspace x = true := fun x hx => by
    rw [List.mem_singleton.mp hx]
    decide
  have hcon : con.toNat < 2 ^ 64 := con.isLt.trans (by decide)
  have hread := strtou_decimal hw hcon (c := ch '\n') (by decide) []
  have hends : Ends (ch '\t' :: (decimal con.toNat ++ [ch '\n'])) := Ends.cons List.getLast?_concat _
  have hmark : Marked (ch '\t' :: (decimal con.toNat ++ [ch '\n'])) := by
    obtain ⟨d, t, hd⟩ := List.exists_cons_of_ne_nil (decimal_ne_nil con.toNat)
    have hdig : isdigit d = true := isdigit_of_mem_decimal (n := con.toNat) (by rw [hd]; exact List.mem_cons_self)
    exact ⟨d, by rw [hd]; simp, isspace_digit hdig⟩
  obtain ⟨v, hv⟩ := (strtou_spec hends).1 hmark
  rw [List.singleton_append, hv] at hread
  exact (Prod.mk.inj (Except.ok.inj hread)).2

/-- The columns of a fill without number. -/
def exeLine (exe : UnxsExe Decimal64) (con : Uid) : List UInt8 := exeText exe con ++ [ch '\n']

theorem omsgText_fil (ins : List UInt8) {fid : ClobOid Decimal64} (hfid : fid.qid = 0) (exe : UnxsExe Decimal64)
    (con : Uid) : omsgText ⟨ins, .fil fid exe con⟩ = filLine ins (exeLine exe con) := by
  rw [omsgText, OBody.tail, if_neg (not_not.mpr hfid)]
  rfl

theorem exeLine_eq (exe : UnxsExe Decimal64) (con : Uid) : exeLine exe con =
    d64Text exe.qty ++ ch '\t' :: (d64Text exe.prc ++ ch '\t' :: (decimal con.toNat ++ [ch '\n'])) := by
  simp only [exeLine, exeText, List.append_assoc, List.cons_append]

theorem ends_exeLine (exe : UnxsExe Decimal64) (con : Uid) : Ends (exeLine exe con) := List.getLast?_concat

/-- **A fill without number is sent without the column.** -/
theorem oidCol_absent (exe : UnxsExe Decimal64) (con : Uid) : ¬ OidCol (exeLine exe con) := by
  rintro ⟨t, x, ht, hx⟩
  rw [exeLine_eq] at ht
  rcases d64Text_cases exe.qty with ⟨-, hq⟩ | ⟨-, hq⟩
  · rw [numEnd_number hq (by decide) (by decide)] at ht
    obtain rfl := (List.cons.inj ht).2
    rcases d64Text_cases exe.prc with ⟨-, hp⟩ | ⟨-, hp⟩
    · rw [numEnd_number hp (by decide) (by decide), ulEnd_contra] at hx
      exact absurd (List.cons.inj hx).1 (by decide)
    · obtain ⟨c, t, hc, hword⟩ := hp (ch '\t' :: (decimal con.toNat ++ [ch '\n']))
      rw [hc, ulEnd_word hword] at hx
      rw [(List.cons.inj hx).1] at hword
      exact absurd hword (by decide)
  · obtain ⟨c, t', hc, hword⟩ := hq (ch '\t' :: (d64Text exe.prc ++ ch '\t' :: (decimal con.toNat ++ [ch '\n'])))
    rw [hc] at ht
    rw [(List.cons.inj ht).1] at hword
    exact absurd hword (by decide)

theorem breaksOff_exeLine {exe : UnxsExe Decimal64} {con : Uid} (h : BreaksOff (exeLine exe con)) : ¬ exe.qty.finite := by
  intro hfin
  rcases d64Text_cases exe.qty with ⟨-, hq⟩ | ⟨hn, -⟩
  · exact h.2 ⟨_, by rw [exeLine_eq, numEnd_number hq (by decide) (by decide)]⟩
  · exact hn hfin

theorem fillRead_sent {ins : List UInt8} (hins : ch '\t' ∉ ins) {fid : ClobOid Decimal64} (hfid : fid.qid = 0)
    {exe exe' : UnxsExe Decimal64} {con con' : Uid} (h : FillRead (omsgText ⟨ins, .fil fid exe con⟩) exe' con') :
    exe'.qty.num ≠ exe.qty.num := by
  rw [omsgText_fil ins hfid] at h
  rcases recvOmsg_absent hins (ends_exeLine exe con) (oidCol_absent exe con) with ⟨hb, hread⟩ | ⟨hb, -⟩
  · obtain ⟨ins', fid', hl, -⟩ := h
    have hsame := (recvOmsg_behind (hread ⟨0, nilOid⟩) []).symm.trans (hl ⟨0, nilOid⟩ [])
    cases hsame
    have hzero : Decimal64.num zerodd = .fin 0 := num_zerodd
    have hfin := breaksOff_exeLine hb
    intro heq
    rw [hzero, Decimal64.num] at heq
    split_ifs at heq with hn hi
    exact hfin ⟨hn, hi⟩
  · exact absurd ((fillRead_iff hins (ends_exeLine exe con) (oidCol_absent exe con)).mp ⟨_, _, h⟩) hb

/-! ## The fills of pyrabot -/

theorem Pyrabot.ochanCb_fil {D : Type} [Dfp D] {p : Pyrabot D} (hp : p.vqty.length = 2) (ins : List UInt8)
    (fid : ClobOid D) (exe : UnxsExe D) (con : Uid) :
    (∃ s, Pyrabot.ochanCb ⟨ins, .fil fid exe con⟩ p = .ok s) ↔ fid.sid.toNat < 2 := by
  constructor
  · rintro ⟨s, h⟩
    obtain ⟨v, -, h⟩ := bind_ok.mp h
    obtain ⟨w, hw, -⟩ := bind_ok.mp h
    exact hp ▸ setAt_lt hw
  · intro h
    rw [← hp] at h
    have hv := getAt_ok (List.getElem?_eq_getElem h)
    exact ⟨_, bind_ok.mpr ⟨_, hv, bind_ok.mpr ⟨_, setAt_ok h _, rfl⟩⟩⟩

/-- **Fills without an order id.** A line without the column is read the same on every stack, without number and with
a side, just when it breaks off behind a quantity; just then pyrabot finds the side in its table, on every stack. What
is sent for an order without number does not break off, unless its quantity is none, and that does not come back. -/
theorem recvOmsg_fil {ins u : List UInt8} (hins : ch '\t' ∉ ins) (hu : Ends u) (hno : ¬ OidCol u) :
    ((∃ exe con, FillRead (filLine ins u) exe con) ↔ BreaksOff u) ∧
    (∀ (_ : Dfp Decimal64) (p : Pyrabot Decimal64), p.vqty.length = 2 →
      ((∀ l r, ∃ m s, recvOmsg l (filLine ins u ++ r) (filLine ins u).length = .ok m ∧
        Pyrabot.ochanCb m p = .ok s) ↔ BreaksOff u)) ∧
    ∀ (fid : ClobOid Decimal64) (exe exe' : UnxsExe Decimal64) (con con' : Uid), fid.qid = 0 →
      FillRead (omsgText ⟨ins, .fil fid exe con⟩) exe' con' → exe'.qty.num ≠ exe.qty.num := by
  refine ⟨fillRead_iff hins hu hno, fun _ p hp => ?_, fun fid exe exe' con con' hfid h => fillRead_sent hins hfid h⟩
  rcases recvOmsg_absent hins hu hno with ⟨hb, hread⟩ | ⟨hb, hread⟩
  · refine iff_of_true (fun l r => ?_) hb
    obtain ⟨s, hs⟩ := (Pyrabot.ochanCb_fil hp ins nilOid ⟨zerodd, NAND64⟩ 0).mpr (by decide)
    exact ⟨_, s, recvOmsg_behind (hread l) r, hs⟩
  · refine iff_of_false (fun h => ?_) hb
    -- the side is on the stack
    obtain ⟨m, s, hm, hs⟩ := h ⟨0, { nilOid with sid := 2 }⟩ []
    rw [List.append_nil] at hm
    rcases hread with ⟨e, he⟩ | ⟨exe, con, hread⟩
    · rw [he] at hm
      cases hm
    · rw [hread] at hm
      cases hm
      exact absurd ((Pyrabot.ochanCb_fil hp ins _ exe con).mp ⟨s, hs⟩) (by decide)

/-- Five at four, from the first user. -/
def fiveAtFour : UnxsExe Decimal64 := ⟨0x31c0000000000005, 0x31c0000000000004⟩

/-- A fill with all its columns, and none for an order id. -/
theorem recvOmsg_fil_five :
    ((∃ exe con, FillRead (filLine (bytes ['I']) (bytes ['5', '\t', '4', '\t', '1', '\n'])) exe con) ↔
      BreaksOff (bytes ['5', '\t', '4', '\t', '1', '\n'])) ∧
    (∀ (_ : Dfp Decimal64) (p : Pyrabot Decimal64), p.vqty.length = 2 →
      ((∀ l r, ∃ m s, recvOmsg l (filLine (bytes ['I']) (bytes ['5', '\t', '4', '\t', '1', '\n']) ++ r)
        (filLine (bytes ['I']) (bytes ['5', '\t', '4', '\t', '1', '\n'])).length = .ok m ∧
        Pyrabot.ochanCb m p = .ok s) ↔ BreaksOff (bytes ['5', '\t', '4', '\t', '1', '\n']))) ∧
    ∀ (fid : ClobOid Decimal64) (exe exe' : UnxsExe Decimal64) (con con' : Uid), fid.qid = 0 →
      FillRead (omsgText ⟨bytes ['I'], .fil fid exe con⟩) exe' con' → exe'.qty.num ≠ exe.qty.num := by
  refine recvOmsg_fil (by decide) rfl ?_
  rintro ⟨t, x, ht, hx⟩
  cases ht
  cases hx

/-- **The order id of a fill without one** is what the stack holds. -/
theorem recvOmsg_fil_stack : ¬ ∀ (ins : List UInt8) (fid : ClobOid Decimal64) (exe : UnxsExe Decimal64) (con : Uid),
    ch '\t' ∉ ins → fid.qid = 0 → ∃ exe', FillRead (omsgText ⟨ins, .fil fid exe con⟩) exe' con ∧
      exe'.qty.num = exe.qty.num ∧ exe'.prc.num = exe.prc.num := by
  intro h
  obtain ⟨exe', ⟨ins', fid', hl, hqid, -⟩, -, -⟩ := h (bytes ['I']) nilOid fiveAtFour 1 (by decide) rfl
  have hread : recvOmsg ⟨0, { nilOid with qid := 1, sid := 2 }⟩ (omsgText ⟨bytes ['I'], .fil nilOid fiveAtFour 1⟩ ++ [])
      (omsgText ⟨bytes ['I'], .fil nilOid fiveAtFour 1⟩).length =
      .ok ⟨bytes ['I'], .fil { nilOid with qid := 1, sid := 2 } fiveAtFour 1⟩ := by
    decide +kernel
  have hsame := hread.symm.trans (hl _ _)
  cases hsame
  cases hqid

end Unserlob
