import Unserlob.D64.Columns
import Unserlob.Lib.Lines
import Unserlob.Lol.Recv

/-!
# Lines that become orders

The grammar of order lines, against what `recv_omsg` makes of any line.

* `IsNumber`, `OrdCols`, `OrdLine`: the grammar;
* `quantEnd`, `StuckCols`: where the quantity ends, and columns on which the scanner never ends;
* `recvOrd_spec`: an order is read from any columns that do not stop the scanner;
* **`ordersRight_iff`**: the lines for which orders are read just from well-formed lines.
-/

namespace Unserlob

open Ascii Cursor Writer

/-! ## The grammar -/

/-- `[sign]digits[.digits]` -/
def IsNumber (w : List UInt8) : Prop :=
  ∃ sgn ip fp, w = sgn ++ (ip ++ fp) ∧ (sgn = [] ∨ sgn = [ch '+'] ∨ sgn = [ch '-']) ∧
    (ip ≠ [] ∧ ∀ c ∈ ip, isdigit c = true) ∧
    (fp = [] ∨ ∃ ds, fp = ch '.' :: ds ∧ ds ≠ [] ∧ ∀ c ∈ ds, isdigit c = true)

/-- `Q[+H][\t P]\n`, with the price column or without. -/
def OrdCols (lmt : Bool) (u : List UInt8) : Prop :=
  ∃ q h p, u = q ++ (h ++ (p ++ [ch '\n'])) ∧ IsNumber q ∧
    (h = [] ∨ ∃ n, h = ch '+' :: n ∧ IsNumber n) ∧
    if lmt then ∃ n, p = ch '\t' :: n ∧ IsNumber n else p = []

/-- `BUY` or `SEL`, with the tab. -/
def OrdHead (h : List UInt8) : Prop :=
  h = bytes ['B', 'U', 'Y', '\t'] ∨ h = bytes ['S', 'E', 'L', '\t']

/-- `(BUY|SEL)\t INS\t Q[+H][\t P]\n` -/
def OrdLine (lmt : Bool) (line : List UInt8) : Prop :=
  ∃ h ins u, OrdHead h ∧ ch '\t' ∉ ins ∧ line = h ++ (ins ++ ch '\t' :: u) ∧ OrdCols lmt u

/-! ## The reader -/

/-- Behind the hidden part, if there is one. -/
def hidEnd : Ptr → Ptr
  | [] => []
  | c :: t => if c = ch '+' then numEnd t else c :: t

/-- Behind the quantity, hidden part included. -/
def quantEnd (u : Ptr) : Ptr := hidEnd (numEnd u)

/-- The scanner never ends on one of the columns that are read. -/
def StuckCols (u : Ptr) : Prop :=
  Stuck u ∨ (∃ t, numEnd u = ch '+' :: t ∧ Stuck t) ∨ ∃ t, quantEnd u = ch '\t' :: t ∧ Stuck t

theorem plain_newline : Plain (ch '\n') := by decide

section Reader

variable {u : Ptr} (r : Ptr)

theorem recvHid_spec {v : Ptr} (hv : ch '\n' ∈ v) :
    ((∃ t, v = ch '+' :: t ∧ Stuck t) → recvHid (v ++ r) = .error .loop) ∧
    ((¬ ∃ t, v = ch '+' :: t ∧ Stuck t) → ∃ x, recvHid (v ++ r) = .ok (x, hidEnd v ++ r)) := by
  obtain ⟨c, t, rfl⟩ := List.exists_cons_of_ne_nil (List.ne_nil_of_mem hv)
  by_cases hc : c = ch '+'
  · subst hc
    have ht : ch '\n' ∈ t := (List.mem_cons.mp hv).resolve_left (by decide)
    obtain ⟨hbad, hgood⟩ := strtod64_append plain_newline ht r
    simp only [recvHid, hidEnd, List.cons_append, deref, bind, Except.bind, if_true, List.tail_cons]
    constructor
    · rintro ⟨t', he, hst⟩
      cases he
      exact hbad hst
    · intro hn
      exact hgood fun hst => hn ⟨t, rfl, hst⟩
  · simp only [recvHid, hidEnd, List.cons_append, deref, bind, Except.bind, if_neg hc]
    refine ⟨fun h => ?_, fun _ => ⟨zerodd, rfl⟩⟩
    obtain ⟨t', he, -⟩ := h
    exact absurd ⟨t', he⟩ (not_cons hc)

theorem mem_quantEnd (hu : ch '\n' ∈ u) : ch '\n' ∈ quantEnd u := by
  have hm := mem_numEnd plain_newline hu
  obtain ⟨c, t, hc⟩ := List.exists_cons_of_ne_nil (List.ne_nil_of_mem hm)
  rw [quantEnd, hc, hidEnd]
  rw [hc] at hm
  split_ifs with h
  · refine mem_numEnd plain_newline ((List.mem_cons.mp hm).resolve_left ?_)
    rw [h]
    decide
  · exact hm

/-- **An order is read from any columns** that do not stop the scanner; it has a limit just when a tab
follows the quantity. -/
theorem recvOrd_spec {msg : Ptr} (hmsg : msg ≠ []) (hu : ch '\n' ∈ u) :
    (StuckCols u → recvOrd msg (u ++ r) = .error .loop) ∧
    (¬ StuckCols u → ∃ o, recvOrd msg (u ++ r) = .ok o ∧
      (o.typ = clobTypeLmt ∧ (∃ t, quantEnd u = ch '\t' :: t) ∨
        o.typ = clobTypeMkt ∧ ¬ ∃ t, quantEnd u = ch '\t' :: t)) := by
  obtain ⟨b, msg, rfl⟩ := List.exists_cons_of_ne_nil hmsg
  obtain ⟨hbad, hgood⟩ := strtod64_append plain_newline hu r
  by_cases h1 : Stuck u
  · refine ⟨fun _ => ?_, fun h => absurd (Or.inl h1) h⟩
    simp only [recvOrd, deref, bind, Except.bind, hbad h1]
  obtain ⟨dis, hdis⟩ := hgood h1
  obtain ⟨hbad, hgood⟩ := recvHid_spec r (mem_numEnd plain_newline hu)
  by_cases h2 : ∃ t, numEnd u = ch '+' :: t ∧ Stuck t
  · refine ⟨fun _ => ?_, fun h => absurd (Or.inr (Or.inl h2)) h⟩
    simp only [recvOrd, deref, bind, Except.bind, hdis, hbad h2]
  obtain ⟨hid, hhid⟩ := hgood h2
  have hq := mem_quantEnd hu
  change recvHid (numEnd u ++ r) = .ok (hid, quantEnd u ++ r) at hhid
  rw [StuckCols, or_iff_right h1, or_iff_right h2]
  obtain ⟨c, t, hc⟩ := List.exists_cons_of_ne_nil (List.ne_nil_of_mem hq)
  rw [hc] at hhid hq ⊢
  by_cases hct : c = ch '\t'
  · subst hct
    have ht : ch '\n' ∈ t := (List.mem_cons.mp hq).resolve_left (by decide)
    obtain ⟨hbad, hgood⟩ := strtod64_append plain_newline ht r
    simp only [recvOrd, deref, bind, Except.bind, hdis, hhid, List.cons_append, if_true, List.tail_cons]
    constructor
    · rintro ⟨t', he, hst⟩
      cases he
      rw [hbad hst]
    · intro hn
      obtain ⟨x, hx⟩ := hgood fun hst => hn ⟨t, rfl, hst⟩
      rw [hx]
      exact ⟨_, rfl, Or.inl ⟨rfl, t, rfl⟩⟩
  · refine ⟨fun h => ?_, fun _ => ?_⟩
    · obtain ⟨t', he, -⟩ := h
      exact absurd ⟨t', he⟩ (not_cons hct)
    · simp only [recvOrd, deref, bind, Except.bind, hdis, hhid, List.cons_append, if_neg hct]
      exact ⟨_, rfl, Or.inr ⟨rfl, not_cons hct⟩⟩

end Reader

/-! ## Well-formed columns -/

theorem numEnd_number {w : List UInt8} (h : IsNumber w) {c : UInt8} (hd : isdigit c = false)
    (hp : c ≠ ch '.') (t : Ptr) : numEnd (w ++ c :: t) = c :: t := by
  obtain ⟨sgn, ip, fp, rfl, hsgn, ⟨hne, hip⟩, hfp⟩ := h
  obtain ⟨d, ip', rfl⟩ := List.exists_cons_of_ne_nil hne
  have hdd : isdigit d = true := hip d List.mem_cons_self
  have hsign : signEnd (sgn ++ (d :: ip' ++ fp) ++ c :: t) = d :: ip' ++ (fp ++ c :: t) := by
    have h1 : ¬ (d = ch '-' ∨ d = ch '+') := by
      rintro (rfl | rfl) <;> exact absurd hdd (by decide)
    rcases hsgn with rfl | rfl | rfl
    · rw [List.nil_append, List.cons_append, List.cons_append, signEnd, if_neg h1]
      simp
    · simp [signEnd]
    · simp [signEnd]
  rw [numEnd, hsign, List.dropWhile_append_of_pos hip]
  rcases hfp with rfl | ⟨ds, rfl, -, hds⟩
  · rw [List.nil_append, List.dropWhile_cons_of_neg (by rw [hd]; exact Bool.false_ne_true), fracEnd,
      if_neg hp]
  · rw [List.cons_append, List.dropWhile_cons_of_neg (by decide), fracEnd, if_pos rfl,
      List.dropWhile_append_of_pos hds, List.dropWhile_cons_of_neg (by rw [hd]; exact Bool.false_ne_true)]

theorem quantEnd_ordCols {lmt : Bool} {u : List UInt8} (h : OrdCols lmt u) :
    ∃ t, quantEnd u = (if lmt then ch '\t' else ch '\n') :: t := by
  obtain ⟨q, h, p, rfl, hq, hh, hp⟩ := h
  obtain ⟨t, ht⟩ : ∃ t, p ++ [ch '\n'] = (if lmt then ch '\t' else ch '\n') :: t := by
    cases lmt with
    | true =>
        obtain ⟨n, rfl, -⟩ := hp
        exact ⟨_, rfl⟩
    | false =>
        rw [if_neg Bool.false_ne_true] at hp
        exact ⟨[], by rw [hp]; rfl⟩
  have hd : isdigit (if lmt then ch '\t' else ch '\n') = false := by cases lmt <;> rfl
  have hdot : (if lmt then ch '\t' else ch '\n') ≠ ch '.' := by cases lmt <;> decide
  have hplus : (if lmt then ch '\t' else ch '\n') ≠ ch '+' := by cases lmt <;> decide
  refine ⟨t, ?_⟩
  rw [quantEnd, ht]
  rcases hh with rfl | ⟨n, rfl, hn⟩
  · rw [List.nil_append, numEnd_number hq hd hdot, hidEnd, if_neg hplus]
  · rw [List.cons_append, numEnd_number hq (by decide) (by decide), hidEnd, if_pos rfl,
      numEnd_number hn hd hdot]

theorem OrdCols.lmt_iff {lmt : Bool} {u : List UInt8} (h : OrdCols lmt u) :
    lmt = true ↔ ∃ t, quantEnd u = ch '\t' :: t := by
  obtain ⟨t, ht⟩ := quantEnd_ordCols h
  rw [ht]
  cases lmt with
  | true => exact iff_of_true rfl ⟨t, rfl⟩
  | false => exact iff_of_false Bool.false_ne_true (not_cons (by decide))

/-! ## Lines -/

/-- The line starts with `BUY` or `SEL` and has an instrument; `u` is what follows. -/
def HasCols (line u : List UInt8) : Prop :=
  ∃ h ins, OrdHead h ∧ ch '\t' ∉ ins ∧ line = h ++ (ins ++ ch '\t' :: u)

theorem OrdHead.length {h : List UInt8} (hh : OrdHead h) : h.length = 4 := by
  rcases hh with rfl | rfl <;> rfl

theorem tab_inj {a b u v : List UInt8} (ha : ch '\t' ∉ a) (hb : ch '\t' ∉ b)
    (h : a ++ ch '\t' :: u = b ++ ch '\t' :: v) : a = b ∧ u = v := by
  induction a generalizing b with
  | nil =>
      cases b with
      | nil => exact ⟨rfl, (List.cons.inj h).2⟩
      | cons y b => exact absurd (List.cons.inj h).1.symm fun he => hb (he ▸ List.mem_cons_self)
  | cons x a ih =>
      cases b with
      | nil => exact absurd (List.cons.inj h).1 fun he => ha (he ▸ List.mem_cons_self)
      | cons y b =>
          obtain ⟨rfl, ht⟩ := List.cons.inj h
          obtain ⟨rfl, rfl⟩ := ih (fun hm => ha (List.mem_cons_of_mem _ hm))
            (fun hm => hb (List.mem_cons_of_mem _ hm)) ht
          exact ⟨rfl, rfl⟩

theorem HasCols.inj {line u v : List UInt8} (h : HasCols line u) (h' : HasCols line v) : u = v := by
  obtain ⟨a, i, ha, hi, rfl⟩ := h
  obtain ⟨b, j, hb, hj, he⟩ := h'
  obtain ⟨-, ht⟩ := List.append_inj he (by rw [ha.length, hb.length])
  exact (tab_inj hi hj ht).2

theorem recvBody_ord {l : Locals} {msg on : Ptr} {o : ClobOrd Decimal64}
    (h : recvBody l msg on = .ok (.ord o)) :
    (∃ hd r, OrdHead hd ∧ msg = hd ++ r) ∧ recvOrd msg on = .ok o := by
  cases recvBody_cases h with
  | fil _ hb =>
      obtain ⟨fid, exe, con, hb⟩ := recvFil_fil hb
      cases hb
  | buy hw ho =>
      obtain ⟨r, rfl⟩ := hw
      exact ⟨⟨_, r, .inl rfl, rfl⟩, ho⟩
  | sel hw ho =>
      obtain ⟨r, rfl⟩ := hw
      exact ⟨⟨_, r, .inr rfl, rfl⟩, ho⟩

theorem recvOmsg_ord {l : Locals} {msg : Ptr} {n : ℕ} {ins : List UInt8} {o : ClobOrd Decimal64}
    (h : recvOmsg l msg n = .ok ⟨ins, .ord o⟩) : ∃ on, recvBody l msg on = .ok (.ord o) := by
  rcases recvOmsg_body h with ⟨hu, -⟩ | ⟨-, on, -, hb⟩
  · cases hu
  · exact ⟨on, hb⟩

theorem recvOmsg_ord_typ {l : Locals} {msg : Ptr} {n : ℕ} {ins : List UInt8} {o : ClobOrd Decimal64}
    (h : recvOmsg l msg n = .ok ⟨ins, .ord o⟩) : o.typ = clobTypeMkt ∨ o.typ = clobTypeLmt := by
  obtain ⟨on, hb⟩ := recvOmsg_ord h
  obtain ⟨b, -, h⟩ := bind_ok.mp (recvBody_ord hb).2
  generalize (if b = ch 'B' then clobSideBid else clobSideAsk) = sid at h
  obtain ⟨dis, -, h⟩ := bind_ok.mp h
  obtain ⟨hid, -, h⟩ := bind_ok.mp h
  obtain ⟨c, -, h⟩ := bind_ok.mp h
  simp only at h
  split_ifs at h
  · obtain ⟨lmt, -, h⟩ := bind_ok.mp h
    cases h
    exact Or.inr rfl
  · cases h
    exact Or.inl rfl

section Line

variable (l : Locals) {line u : List UInt8} (rest : Ptr)

/-- **A line with order columns.** -/
theorem recvOmsg_hasCols (h : HasCols line u) (hu : ch '\n' ∈ u) :
    (StuckCols u → recvOmsg l (line ++ rest) line.length = .error .loop) ∧
    (¬ StuckCols u → ∃ ins o, recvOmsg l (line ++ rest) line.length = .ok ⟨ins, .ord o⟩ ∧
      (o.typ = clobTypeLmt ∧ (∃ t, quantEnd u = ch '\t' :: t) ∨
        o.typ = clobTypeMkt ∧ ¬ ∃ t, quantEnd u = ch '\t' :: t)) := by
  obtain ⟨h, ins, hh, hins, rfl⟩ := h
  have hcols := recvOmsg_cols l hh.length hins u rest
  have hbody := recvBody_head l hh.length (ins ++ ch '\t' :: (u ++ rest)) (u ++ rest)
  have hord : recvBody l (h ++ (ins ++ ch '\t' :: (u ++ rest))) (u ++ rest) =
      OBody.ord <$> recvOrd (h ++ (ins ++ ch '\t' :: (u ++ rest))) (u ++ rest) := by
    rw [hbody]
    rcases hh with rfl | rfl <;> rfl
  rw [hord] at hcols
  have hne : h ++ (ins ++ ch '\t' :: (u ++ rest)) ≠ [] := by simp
  obtain ⟨hbad, hgood⟩ := recvOrd_spec rest hne hu
  rw [List.append_assoc, List.append_assoc, List.cons_append, hcols]
  constructor
  · intro hst
    rw [hbad hst]
    rfl
  · intro hn
    obtain ⟨o, ho, ht⟩ := hgood hn
    rw [ho]
    exact ⟨ins, o, rfl, ht⟩

theorem hasCols_of_ord {w : List UInt8} {ins : List UInt8} {o : ClobOrd Decimal64}
    (h : recvOmsg l (w ++ [ch '\n'] ++ rest) (w ++ [ch '\n']).length = .ok ⟨ins, .ord o⟩) :
    ∃ u, HasCols (w ++ [ch '\n']) u := by
  obtain ⟨on, hb⟩ := recvOmsg_ord h
  obtain ⟨⟨hd, r, hhd, he⟩, -⟩ := recvBody_ord hb
  -- the four bytes are in the line, which does not end before them
  obtain ⟨t, ht⟩ : ∃ t, w ++ [ch '\n'] = hd ++ t := by
    rcases List.append_eq_append_iff.mp he with ⟨a, ha, -⟩ | ⟨c, hc, -⟩
    · exfalso
      have hm : ch '\n' ∈ hd := by
        rw [ha]
        simp
      rcases hhd with rfl | rfl <;> exact absurd hm (by decide)
    · exact ⟨c, hc⟩
  rw [ht] at h ⊢
  rcases Lines.notMem_or_split (ch '\t') t with hno | ⟨ins', u, rfl, hins⟩
  · rw [List.append_assoc, recvOmsg_unk l hhd.length hno] at h
    cases h
  · exact ⟨u, hd, ins', hhd, hins, rfl⟩

theorem HasCols.newline {w : List UInt8} (h : HasCols (w ++ [ch '\n']) u) : ch '\n' ∈ u := by
  obtain ⟨h, ins, -, -, he⟩ := h
  have hl := congrArg List.getLast? he
  rw [← List.append_assoc, List.getLast?_append, List.getLast?_append] at hl
  have hm : ch '\n' ∈ ch '\t' :: u := by
    rw [List.getLast?_singleton, Option.some_or, List.getLast?_cons] at hl
    rw [Option.some_or] at hl
    rw [Option.some.inj hl]
    cases hu : u.getLast? with
    | none => exact List.mem_cons_self
    | some c => exact List.mem_cons_of_mem _ (List.mem_of_getLast? hu)
  exact (List.mem_cons.mp hm).resolve_left (by decide)

/-- What is wanted of a line: it becomes an order with a limit just when it is an order line with a
price, and one without just when it is one without. -/
def OrdersRight (line : List UInt8) : Prop := ∀ lmt : Bool,
  (∃ ins o, recvOmsg l (line ++ rest) line.length = .ok ⟨ins, .ord o⟩ ∧
    o.typ = if lmt then clobTypeLmt else clobTypeMkt) ↔ OrdLine lmt line

theorem ordLine_iff (h : HasCols line u) (lmt : Bool) : OrdLine lmt line ↔ OrdCols lmt u := by
  constructor
  · rintro ⟨a, ins, v, ha, hins, hline, hv⟩
    rwa [h.inj ⟨a, ins, ha, hins, hline⟩]
  · obtain ⟨a, ins, ha, hins, hline⟩ := h
    exact fun hu => ⟨a, ins, u, ha, hins, hline, hu⟩

theorem ordersRight_of_cols (h : HasCols line u) (hu : ch '\n' ∈ u) :
    OrdersRight l rest line ↔ ((∃ lmt, OrdCols lmt u) ↔ ¬ StuckCols u) := by
  obtain ⟨hbad, hgood⟩ := recvOmsg_hasCols l rest h hu
  by_cases hst : StuckCols u
  · -- nothing is returned
    constructor
    · intro hr
      refine iff_of_false (fun ⟨lmt, hc⟩ => ?_) (not_not.mpr hst)
      obtain ⟨ins, o, ho, -⟩ := (hr lmt).mpr ((ordLine_iff h lmt).mpr hc)
      rw [hbad hst] at ho
      cases ho
    · intro hr lmt
      refine iff_of_false (fun ⟨ins, o, ho, _⟩ => ?_) fun hc => ?_
      · rw [hbad hst] at ho
        cases ho
      · exact hr.mp ⟨lmt, (ordLine_iff h lmt).mp hc⟩ hst
  · obtain ⟨ins, o, ho, ht⟩ := hgood hst
    have hret : ∀ lmt : Bool, (∃ ins o, recvOmsg l (line ++ rest) line.length = .ok ⟨ins, .ord o⟩ ∧
        o.typ = if lmt then clobTypeLmt else clobTypeMkt) ↔
        (lmt = true ↔ ∃ t, quantEnd u = ch '\t' :: t) := by
      intro lmt
      have htyp : (o.typ = if lmt then clobTypeLmt else clobTypeMkt) ↔
          (lmt = true ↔ ∃ t, quantEnd u = ch '\t' :: t) := by
        have hne : clobTypeLmt ≠ clobTypeMkt := by decide
        rcases ht with ⟨ht, htab⟩ | ⟨ht, htab⟩ <;> cases lmt <;> simp [ht, htab, hne, hne.symm]
      rw [← htyp]
      refine ⟨fun ⟨ins', o', ho', ht'⟩ => ?_, fun ht' => ⟨ins, o, ho, ht'⟩⟩
      rw [ho] at ho'
      cases ho'
      exact ht'
    constructor
    · intro hr
      refine iff_of_true ?_ hst
      by_cases htab : ∃ t, quantEnd u = ch '\t' :: t
      · exact ⟨true, (ordLine_iff h _).mp ((hr true).mp ((hret true).mpr (iff_of_true rfl htab)))⟩
      · exact ⟨false, (ordLine_iff h _).mp ((hr false).mp ((hret false).mpr
          (iff_of_false Bool.false_ne_true htab)))⟩
    · intro hr lmt
      obtain ⟨lmt', hc⟩ := hr.mpr hst
      rw [hret, ordLine_iff h]
      refine ⟨fun hl => ?_, OrdCols.lmt_iff⟩
      -- both say whether a tab follows the quantity
      have hb : (lmt = true ↔ lmt' = true) := hl.trans hc.lmt_iff.symm
      rwa [Bool.eq_iff_iff.mpr hb]

/-- **Orders are read just from well-formed lines** for the lines that have no order columns, or whose
columns are well-formed and do not stop the scanner, or are malformed and do. -/
theorem ordersRight_iff (w : List UInt8) : OrdersRight l rest (w ++ [ch '\n']) ↔
    ∀ u, HasCols (w ++ [ch '\n']) u → ((∃ lmt, OrdCols lmt u) ↔ ¬ StuckCols u) := by
  by_cases hex : ∃ u, HasCols (w ++ [ch '\n']) u
  · obtain ⟨u, hu⟩ := hex
    rw [ordersRight_of_cols l rest hu hu.newline]
    refine ⟨fun h v hv => ?_, fun h => h u hu⟩
    rwa [← hu.inj hv]
  · refine iff_of_true (fun lmt => iff_of_false ?_ ?_) fun u hu => absurd ⟨u, hu⟩ hex
    · exact fun ⟨ins, o, ho, _⟩ => hex (hasCols_of_ord l rest ho)
    · exact fun ⟨a, ins, u, ha, hins, he, _⟩ => hex ⟨u, a, ins, ha, hins, he⟩

end Line

/-- A quantity with a blank behind it. -/
def blankCols : List UInt8 := bytes ['1', '0', '0', ' ', '\t', '9', '9', '\n']

/-- The order is taken for one without a price. -/
theorem blankCols_market :
    ¬ OrdersRight ⟨0, nilOid⟩ [] (bytes ['B', 'U', 'Y', '\t', 'I', '\t'] ++ blankCols) := by
  have hcols : HasCols (bytes ['B', 'U', 'Y', '\t', 'I', '\t'] ++ blankCols) blankCols :=
    ⟨bytes ['B', 'U', 'Y', '\t'], [ch 'I'], Or.inl rfl, by decide, rfl⟩
  have hend : quantEnd blankCols = bytes [' ', '\t', '9', '9', '\n'] := by decide
  rw [ordersRight_of_cols _ _ hcols (by decide)]
  intro h
  have hst : ¬ StuckCols blankCols := by
    rintro (⟨t, ht, -⟩ | ⟨t, ht, -⟩ | ⟨t, ht, -⟩)
    · exact absurd (List.cons.inj ht).1 (by decide)
    · have hn : numEnd blankCols = bytes [' ', '\t', '9', '9', '\n'] := by decide
      rw [hn] at ht
      exact absurd (List.cons.inj ht).1 (by decide)
    · rw [hend] at ht
      exact absurd (List.cons.inj ht).1 (by decide)
  obtain ⟨lmt, hc⟩ := h.mpr hst
  obtain ⟨t, ht⟩ := quantEnd_ordCols hc
  rw [hend] at ht
  cases lmt <;> exact absurd (List.cons.inj ht).1 (by decide)

end Unserlob
