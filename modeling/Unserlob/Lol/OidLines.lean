import Unserlob.D64.Columns
import Unserlob.Lol.Send
import Unserlob.Lol.Recv

/-!
# Lines with order ids (`_recv_oid`)

An order id is read by its first byte, the byte in the place of the side, and what follows the price.

* `OidColumn`: where the order id of a line is read;
* `OidRight`: what an order id read from a column should be;
* `NilColumn`, `Words`, `ZeroColumn`: columns without an order id, with literal words, and others that come
  to the same; **`oidRight_iff`**;
* `sideOf_lt_iff`, **`indexes_iff`**: when type and side are indices of the encoder's tables;
* **`OidColumn.read`**, `exists_oidColumn`: lines with the column and messages with an order id.
-/

namespace Unserlob

open Ascii Cursor Writer

/-! ## The side -/

theorem sideOf_lt_iff (c : UInt8) : (sideOf c).toNat < 2 ↔ c = ch 'A' ∨ c = ch 'B' := by
  have hall : ∀ n < 256, (sideOf (UInt8.ofNat n)).toNat < 2 ↔ UInt8.ofNat n = ch 'A' ∨ UInt8.ofNat n = ch 'B' := by
    decide +kernel
  have h := hall c.toNat c.toNat_lt
  rwa [UInt8.ofNat_toNat] at h

theorem sideOf_ask_iff (c : UInt8) : sideOf c = clobSideAsk ↔ c = ch 'A' := by
  constructor
  · intro h
    have hlt := (sideOf_lt_iff c).mp (by rw [h]; decide)
    rcases hlt with rfl | rfl
    · rfl
    · exact absurd h (by decide)
  · rintro rfl
    rfl

/-! ## The columns -/

/-- No order id is read: the first byte is not that of a type, or no blank follows the price. -/
def NilColumn (p : Ptr) : Prop :=
  (p.head? ≠ some (ch 'L') ∧ p.head? ≠ some (ch 'M')) ∨ (numEnd (p.drop 8)).head? ≠ some (ch ' ')

instance : DecidablePred NilColumn := fun _ => inferInstanceAs (Decidable (_ ∨ _))

/-- `LMT ` or `MKT `, then `ASK ` or `BID `. -/
def Words (p : Ptr) : Prop :=
  (bytes ['L', 'M', 'T', ' '] <+: p ∨ bytes ['M', 'K', 'T', ' '] <+: p) ∧
    (bytes ['A', 'S', 'K', ' '] <+: p.drop 4 ∨ bytes ['B', 'I', 'D', ' '] <+: p.drop 4)

instance : DecidablePred Words := fun _ => inferInstanceAs (Decidable (_ ∧ _))

/-- An `L`, an `A` in the place of the side, and zero for a number. -/
def ZeroColumn (p : Ptr) : Prop :=
  p.head? = some (ch 'L') ∧ p[4]? = some (ch 'A') ∧ (strtou (numEnd (p.drop 8)).tail).map Prod.fst = .ok 0

instance : DecidablePred ZeroColumn := fun _ => inferInstanceAs (Decidable (_ ∧ _))

/-- **What is wanted of an order id**: it is nil, or has the type and the side that are written. -/
def OidRight (p : Ptr) (o : ClobOid Decimal64) : Prop :=
  (o.qid = 0 ∧ o.typ = 0 ∧ o.sid = 0) ∨
    ((o.typ = clobTypeLmt ∧ bytes ['L', 'M', 'T', ' '] <+: p ∨ o.typ = clobTypeMkt ∧ bytes ['M', 'K', 'T', ' '] <+: p) ∧
      (o.sid = clobSideAsk ∧ bytes ['A', 'S', 'K', ' '] <+: p.drop 4 ∨
        o.sid = clobSideBid ∧ bytes ['B', 'I', 'D', ' '] <+: p.drop 4))

instance (p : Ptr) (o : ClobOid Decimal64) : Decidable (OidRight p o) := inferInstanceAs (Decidable (_ ∨ _))

/-- **What is read**: nothing, or type, side, price and number. -/
theorem recvOid_ok {l : Locals} {p : Ptr} {o : ClobOid Decimal64} (h : recvOid l p = .ok o) :
    (NilColumn p ∧ o = nilOid) ∨ (¬ NilColumn p ∧ ∃ c s, p.head? = some c ∧ (c = ch 'L' ∨ c = ch 'M') ∧
      p[4]? = some s ∧ o.typ = (if c = ch 'L' then clobTypeLmt else clobTypeMkt) ∧ o.sid = sideOf s ∧
      (strtou (numEnd (p.drop 8)).tail).map Prod.fst = .ok o.qid) := by
  obtain ⟨c, hc, h⟩ := bind_ok.mp h
  rw [deref_ok] at hc
  have hhead : ∀ d, p.head? = some d ↔ c = d := fun d => by rw [hc, Option.some_inj]
  by_cases hty : c = ch 'L' ∨ c = ch 'M'
  · rw [if_pos hty] at h
    obtain ⟨s, hs, h⟩ := bind_ok.mp h
    obtain ⟨⟨prc, on⟩, hprc, h⟩ := bind_ok.mp h
    obtain ⟨b, hb, h⟩ := bind_ok.mp h
    obtain rfl := strtod64_end hprc
    rw [deref_ok, List.head?_drop] at hs
    rw [deref_ok] at hb
    by_cases hblank : b = ch ' '
    · right
      rw [if_neg (not_not.mpr hblank)] at h
      obtain ⟨⟨qid, q⟩, hq, h⟩ := bind_ok.mp h
      obtain rfl := Except.ok.inj h
      refine ⟨?_, c, s, hc, hty, hs, rfl, rfl, by rw [hq]; rfl⟩
      rintro (hn | hn)
      · exact hty.elim (fun e => hn.1 ((hhead _).mpr e)) fun e => hn.2 ((hhead _).mpr e)
      · exact hn (by rw [hb, hblank])
    · left
      rw [if_pos hblank] at h
      refine ⟨.inr fun he => hblank ?_, (Except.ok.inj h).symm⟩
      rw [hb] at he
      exact Option.some.inj he
  · left
    rw [if_neg hty] at h
    rw [not_or, ← hhead, ← hhead] at hty
    exact ⟨.inl hty, (Except.ok.inj h).symm⟩

theorem head_of_begins {c : UInt8} {w p : List UInt8} (h : (c :: w) <+: p) : p.head? = some c := by
  obtain ⟨t, rfl⟩ := h
  rfl

/-- **The columns that are read rightly.** -/
theorem oidRight_iff {l : Locals} {p : Ptr} {o : ClobOid Decimal64} (h : recvOid l p = .ok o) :
    OidRight p o ↔ NilColumn p ∨ Words p ∨ ZeroColumn p := by
  rcases recvOid_ok h with ⟨hnil, rfl⟩ | ⟨hnil, c, s, hc, hty, hs, htyp, hsid, hqid⟩
  · exact iff_of_true (.inl ⟨rfl, rfl, rfl⟩) (.inl hnil)
  have hs' : (p.drop 4).head? = some s := by rw [List.head?_drop, hs]
  rw [or_iff_right hnil]
  constructor
  · rintro (⟨hq, ht, hsd⟩ | ⟨htw, hsw⟩)
    · right
      refine ⟨?_, ?_, by rw [hqid, hq]⟩
      · rcases hty with rfl | rfl
        · exact hc
        · rw [ht] at htyp
          exact absurd htyp (by decide)
      · rw [hs, (sideOf_ask_iff s).mp (hsid.symm.trans hsd)]
    · exact .inl ⟨htw.imp And.right And.right, hsw.imp And.right And.right⟩
  · rintro (⟨htw, hsw⟩ | ⟨hL, hA, h0⟩)
    · right
      constructor
      · refine htw.imp (fun hw => ⟨?_, hw⟩) fun hw => ⟨?_, hw⟩
        · have hcl := Option.some.inj (hc.symm.trans (head_of_begins hw))
          rw [htyp, if_pos hcl]
        · have hcm := Option.some.inj (hc.symm.trans (head_of_begins hw))
          rw [htyp, if_neg (by rw [hcm]; decide)]
      · refine hsw.imp (fun hw => ⟨?_, hw⟩) fun hw => ⟨?_, hw⟩
        · rw [hsid, Option.some.inj (hs'.symm.trans (head_of_begins hw))]
          rfl
        · rw [hsid, Option.some.inj (hs'.symm.trans (head_of_begins hw))]
          rfl
    · left
      refine ⟨Except.ok.inj (hqid.symm.trans h0), ?_, ?_⟩
      · rw [htyp, if_pos (Option.some.inj (hc.symm.trans hL))]
        rfl
      · rw [hsid, Option.some.inj (hs.symm.trans hA)]
        rfl

/-- Type and side are indices of `typs` and `sids`. -/
def Indexes (o : ClobOid Decimal64) : Prop :=
  (∃ t, entry oidTyps o.typ.toNat = .ok t) ∧ ∃ t, entry oidSids o.sid.toNat = .ok t

theorem entry_ok_iff (tab : List (List UInt8)) (i : ℕ) : (∃ t, entry tab i = .ok t) ↔ i < tab.length := by
  unfold entry
  cases h : tab[i]? with
  | none =>
      refine iff_of_false ?_ (not_lt.mpr (List.getElem?_eq_none_iff.mp h))
      rintro ⟨t, ht⟩
      cases ht
  | some t => exact iff_of_true ⟨t, rfl⟩ (List.getElem?_eq_some_iff.mp h).1

theorem indexes_iff_valid (o : ClobOid Decimal64) : Indexes o ↔ o.valid :=
  and_congr (entry_ok_iff _ _) (entry_ok_iff _ _)

/-- **The columns whose type and side are indices.** -/
theorem indexes_iff {l : Locals} {p : Ptr} {o : ClobOid Decimal64} (h : recvOid l p = .ok o) :
    Indexes o ↔ NilColumn p ∨ p[4]? = some (ch 'A') ∨ p[4]? = some (ch 'B') := by
  rw [indexes_iff_valid]
  rcases recvOid_ok h with ⟨hnil, rfl⟩ | ⟨hnil, c, s, -, -, hs, htyp, hsid, -⟩
  · exact iff_of_true (by decide) (.inl hnil)
  · have ht : o.typ.toNat < 2 := by
      rw [htyp]
      split_ifs <;> decide
    rw [or_iff_right hnil, hs, Option.some_inj, Option.some_inj, ← sideOf_lt_iff, ← hsid]
    exact and_iff_right ht

/-! ## The lines -/

/-- The first four bytes of the messages that are an order id. -/
def oidHeads : List (List UInt8 × (ClobOid Decimal64 → OBody Decimal64)) :=
  [(bytes ['O', 'I', 'D', '\t'], .oid), (bytes ['K', 'I', 'L', '\t'], .kil), (bytes ['N', 'O', 'K', '\t'], .nok),
    (bytes ['C', 'A', 'N', '\t'], .can)]

/-- The order id of a message that is about an order. -/
def oidOf : OBody Decimal64 → Option (ClobOid Decimal64)
  | .kil o | .nok o | .oid o | .can o => some o
  | .fil fid _ _ => some fid
  | _ => none

/-- **Where the order id of a line is read**: behind the instrument, or behind the counterparty of a fill. -/
inductive OidColumn (msg : Ptr) (n : ℕ) : Ptr → Prop
  | oid {w : List UInt8} {f : ClobOid Decimal64 → OBody Decimal64} {ins : List UInt8} {p : Ptr} (hw : (w, f) ∈ oidHeads)
      (hmsg : w <+: msg) (hins : snarf msg n 4 = .ok (some (ins, p))) : OidColumn msg n p
  | fil {ins : List UInt8} {on a b p : Ptr} {qty prc : Decimal64} {u : BitVec 64}
      (hmsg : bytes ['F', 'I', 'L', '\t'] <+: msg) (hins : snarf msg n 4 = .ok (some (ins, on)))
      (hqty : strtod64 on = .ok (qty, ch '\t' :: a)) (hprc : strtod64 a = .ok (prc, b))
      (hcon : strtou b = .ok (u, ch '\t' :: p)) : OidColumn msg n p

theorem recvFil_column {l : Locals} {on a b p : Ptr} {qty prc : Decimal64} {u : BitVec 64} {m : OBody Decimal64}
    (hqty : strtod64 on = .ok (qty, ch '\t' :: a)) (hprc : strtod64 a = .ok (prc, b))
    (hcon : strtou b = .ok (u, ch '\t' :: p)) (h : recvFil l on = .ok m) :
    ∃ o, m = .fil o ⟨qty, prc⟩ (u.setWidth 32) ∧ recvOid l p = .ok o := by
  have heq : recvFil l on = recvOid l p >>= fun o => pure (.fil o ⟨qty, prc⟩ (u.setWidth 32)) := by
    rw [recvFil, hqty]
    change (strtod64 a >>= _) = _
    rw [hprc]
    change (strtou b >>= _) = _
    rw [hcon]
    rfl
  rw [heq] at h
  obtain ⟨o, ho, h⟩ := bind_ok.mp h
  exact ⟨o, (Except.ok.inj h).symm, ho⟩

theorem snarf_unique {msg p q : Ptr} {n : ℕ} {ins ins' : List UInt8} (h : snarf msg n 4 = .ok (some (ins, p)))
    (h' : snarf msg n 4 = .ok (some (ins', q))) : p = q := by
  rw [h] at h'
  exact (Prod.mk.inj (Option.some.inj (Except.ok.inj h'))).2

theorem recvBody_oid (l : Locals) {w : List UInt8} {f : ClobOid Decimal64 → OBody Decimal64} (h : (w, f) ∈ oidHeads)
    (r on : Ptr) : recvBody l (w ++ r) on = f <$> recvOid l on := by
  unfold oidHeads at h
  simp only [List.mem_cons, List.not_mem_nil, or_false, Prod.mk.injEq] at h
  rcases h with ⟨rfl, rfl⟩ | ⟨rfl, rfl⟩ | ⟨rfl, rfl⟩ | ⟨rfl, rfl⟩
  all_goals
    rw [recvBody_head l rfl r on]
    rfl

theorem recvBody_fil (l : Locals) (r on : Ptr) : recvBody l (bytes ['F', 'I', 'L', '\t'] ++ r) on = recvFil l on := by
  rw [recvBody_head l rfl r on]
  rfl

theorem oidOf_head {w : List UInt8} {f : ClobOid Decimal64 → OBody Decimal64} (h : (w, f) ∈ oidHeads)
    (o : ClobOid Decimal64) : oidOf (f o) = some o := by
  unfold oidHeads at h
  simp only [List.mem_cons, List.not_mem_nil, or_false, Prod.mk.injEq] at h
  rcases h with ⟨-, rfl⟩ | ⟨-, rfl⟩ | ⟨-, rfl⟩ | ⟨-, rfl⟩ <;> rfl

/-- **An order id is read from the line's column** if there is one. -/
theorem OidColumn.read {msg p : Ptr} {n : ℕ} (hp : OidColumn msg n p) {l : Locals} {m : Omsg Decimal64}
    (h : recvOmsg l msg n = .ok m) : ∃ o, oidOf m.body = some o ∧ recvOid l p = .ok o := by
  rcases recvOmsg_body h with ⟨-, hnone⟩ | ⟨ins', on', hs, hb⟩
  · cases hp with
    | oid _ _ hins => rw [hnone] at hins; cases hins
    | fil _ hins => rw [hnone] at hins; cases hins
  · cases hp with
    | oid hw hmsg hins =>
        obtain ⟨r, rfl⟩ := hmsg
        obtain rfl := snarf_unique hins hs
        rw [recvBody_oid l hw] at hb
        obtain ⟨o, ho, hm⟩ := map_ok.mp hb
        exact ⟨o, by rw [← hm, oidOf_head hw], ho⟩
    | fil hmsg hins hqty hprc hcon =>
        obtain ⟨r, rfl⟩ := hmsg
        obtain rfl := snarf_unique hins hs
        rw [recvBody_fil] at hb
        obtain ⟨o, hm, ho⟩ := recvFil_column hqty hprc hcon hb
        exact ⟨o, by rw [hm]; rfl, ho⟩

/-- **Messages that are an order id** come from lines with the column. -/
theorem exists_oidColumn {l : Locals} {msg : Ptr} {n : ℕ} {m : Omsg Decimal64} (h : recvOmsg l msg n = .ok m)
    {o : ClobOid Decimal64} (ho : m.body = .oid o ∨ m.body = .kil o ∨ m.body = .nok o ∨ m.body = .can o) :
    ∃ p, OidColumn msg n p := by
  rcases recvOmsg_body h with ⟨hunk, -⟩ | ⟨ins, on, hs, hb⟩
  · rw [hunk] at ho
    rcases ho with ho | ho | ho | ho <;> cases ho
  · have hread := recvBody_cases hb
    generalize m.body = b at ho hread
    cases hread with
    | oid hw _ => exact ⟨on, .oid List.mem_cons_self hw hs⟩
    | kil hw _ => exact ⟨on, .oid (List.mem_cons_of_mem _ List.mem_cons_self) hw hs⟩
    | nok hw _ => exact ⟨on, .oid (List.mem_cons_of_mem _ (List.mem_cons_of_mem _ List.mem_cons_self)) hw hs⟩
    | can hw _ =>
        exact ⟨on, .oid (List.mem_cons_of_mem _ (List.mem_cons_of_mem _ (List.mem_cons_of_mem _ List.mem_cons_self))) hw hs⟩
    | fil _ hb =>
        obtain ⟨fid, exe, con, rfl⟩ := recvFil_fil hb
        rcases ho with ho | ho | ho | ho <;> cases ho
    | acc _ _ => rcases ho with ho | ho | ho | ho <;> cases ho
    | buy _ _ => rcases ho with ho | ho | ho | ho <;> cases ho
    | sel _ _ => rcases ho with ho | ho | ho | ho <;> cases ho
    | unk => rcases ho with ho | ho | ho | ho <;> cases ho

end Unserlob
