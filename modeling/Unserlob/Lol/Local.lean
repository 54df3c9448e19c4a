import Unserlob.Lol.OrderLines

/-!
# Decoders and what lies behind the line

A decoder is handed a pointer and a length, and reads until some byte stops it.

* `recvOmsg_stays`, `recvQmsg_stays`: a decoder that does not run off the memory finds the same in
  longer memory, so that the line alone decides whether it is local;
* `OidOk`, `PairOk`, `FilOk`, `ColsOk`: columns whose readers stop on the line;
* `recvOmsg_returns`, `recvQmsg_returns`, `recvXquo_returns`: the lines from which the decoders come back;
* `FullOid`, `FilUnset`: columns for which a field is returned that has not been set;
* **`decoding_local_iff`**: the lines on which the decoders are local.
-/

namespace Unserlob

open Ascii Cursor Writer

/-- The decoder makes the same message of the line whatever lies behind it, nothing included. -/
def Local {α : Type} (f : Ptr → ℕ → Res α) (line : List UInt8) : Prop :=
  ∃ m, ∀ r, f (line ++ r) line.length = .ok m

/-! ## Longer memory -/

section Stays

variable (l : Locals) (r : Ptr)

theorem recvOid_stays (p : Ptr) : Stays (recvOid l p) (recvOid l (p ++ r)) := by
  refine Stays.deref fun c q _ => Stays.ite ?_ (Stays.refl _)
  refine Stays.bind (stays_deref_drop p 4) fun s => ?_
  refine (Grows.drop rfl grows_strtod64 p 8).stays fun prc on => Stays.deref fun b t ht => ?_
  subst ht
  exact Stays.ite (Stays.refl _) ((grows_strtou t).stays fun _ _ => Stays.refl _)

theorem recvPair_stays (p : Ptr) : Stays (recvPair p) (recvPair (p ++ r)) := by
  refine (grows_strtod64 p).stays fun x on => Stays.deref fun c t ht => ?_
  subst ht
  exact Stays.ite (Stays.refl _) ((grows_strtod64 t).stays fun _ _ => Stays.refl _)

theorem recvHid_grows (p : Ptr) : Grows r (recvHid p) (recvHid (p ++ r)) := by
  refine Grows.deref fun c t ht => ?_
  subst ht
  exact Grows.ite (grows_strtod64 t) (Grows.ok _ _)

theorem recvOrd_stays (msg p : Ptr) : Stays (recvOrd msg p) (recvOrd (msg ++ r) (p ++ r)) := by
  refine Stays.deref fun b q _ => (grows_strtod64 p).stays fun dis on => ?_
  refine (recvHid_grows r on).stays fun hid on => Stays.deref fun c t ht => ?_
  subst ht
  exact Stays.ite ((grows_strtod64 t).stays fun _ _ => Stays.refl _) (Stays.refl _)

theorem recvFil_stays (p : Ptr) : Stays (recvFil l p) (recvFil l (p ++ r)) := by
  refine (grows_strtod64 p).stays fun qty on => Stays.deref fun c t ht => ?_
  subst ht
  refine Stays.ite (Stays.refl _) ((grows_strtod64 t).stays fun prc on => ?_)
  refine (grows_strtou on).stays fun u on => Stays.deref fun c t ht => ?_
  subst ht
  exact Stays.ite (Stays.bind (recvOid_stays l r t) fun _ => Stays.refl _) (Stays.refl _)

theorem recvExa_stays (p : Ptr) : Stays (recvExa p) (recvExa (p ++ r)) :=
  Stays.bind (recvPair_stays r p) fun _ => Stays.refl _

theorem recvBody_stays (msg on : Ptr) :
    Stays (recvBody l msg on) (recvBody l (msg ++ r) (on ++ r)) := by
  have hret : ∀ {α : Type} {x x' : Res α} (f : α → OBody Decimal64), Stays x x' →
      Stays (x >>= fun a => pure (f a)) (x' >>= fun a => pure (f a)) :=
    fun f h => Stays.bind h fun _ => Stays.refl _
  have hoid := fun f => hret f (recvOid_stays l r on)
  have hord := fun f => hret f (recvOrd_stays r msg on)
  exact Stays.onMatch (hoid _) (Stays.onMatch (hret _ (recvExa_stays r on))
    (Stays.onMatch (recvFil_stays l r on) (Stays.onMatch (hoid _) (Stays.onMatch (hoid _)
    (Stays.onMatch (hord _) (Stays.onMatch (hord _) (Stays.onMatch (hoid _) (Stays.refl _))))))))

theorem snarf_stays {β : Type} (msg : Ptr) (n k : ℕ) {f g : Option (List UInt8 × Ptr) → Res β}
    (h0 : Stays (f none) (g none)) (hf : ∀ ins on, Stays (f (some (ins, on))) (g (some (ins, on ++ r)))) :
    Stays (snarf msg n k >>= f) (snarf (msg ++ r) n k >>= g) := by
  unfold snarf
  rw [bind_assoc, bind_assoc]
  by_cases hk : k ≤ msg.length
  · rw [List.drop_append_of_le_length hk]
    intro hne
    cases hm : memchr (ch '\t') (msg.drop k) (subSz n k) with
    | error e =>
        have hmr := stays_memchr (r := r) (ch '\t') (msg.drop k) (subSz n k)
          fun he => hne (by rw [he]; rfl)
        rw [hmr, hm]
        rfl
    | ok o =>
        rw [stays_memchr (r := r) (ch '\t') (msg.drop k) (subSz n k) (by rw [hm]; simp), hm]
        rw [hm] at hne
        cases o with
        | none => exact h0 hne
        | some eoi =>
            have hlt := lt_of_memchr hm
            change _ = f (some ((msg.drop k).take eoi, (msg.drop k).drop (eoi + 1)))
            have htake : (msg.drop k ++ r).take eoi = (msg.drop k).take eoi :=
              List.take_append_of_le_length (Nat.le_of_lt hlt)
            have hdrop : (msg.drop k ++ r).drop (eoi + 1) = (msg.drop k).drop (eoi + 1) ++ r :=
              List.drop_append_of_le_length hlt
            rw [← hf _ _ hne, ← htake, ← hdrop]
            rfl
  · -- without memory only nothing can be looked at
    rw [List.drop_of_length_le (by omega)]
    cases subSz n k with
    | zero =>
        have hz : memchr (ch '\t') ((msg ++ r).drop k) 0 = .ok none := by
          cases (msg ++ r).drop k <;> rfl
        rw [hz]
        exact h0
    | succ n => exact fun h => absurd rfl h

theorem recvOmsg_stays (msg : Ptr) (n : ℕ) : Stays (recvOmsg l msg n) (recvOmsg l (msg ++ r) n) :=
  snarf_stays r msg n 4 (Stays.refl _) fun ins on =>
    Stays.bind (recvBody_stays l r msg on) fun b => by cases b <;> exact Stays.refl _

theorem recvQuo_stays (msg p : Ptr) : Stays (recvQuo msg p) (recvQuo (msg ++ r) (p ++ r)) :=
  Stays.deref fun _ _ _ => Stays.bind (recvPair_stays r p) fun _ => Stays.refl _

theorem recvLevel_stays (msg : Ptr) (n : ℕ) : Stays (recvLevel msg n) (recvLevel (msg ++ r) n) := by
  refine Stays.bind (stays_deref_drop msg 2) fun c => Stays.ite (Stays.refl _) ?_
  refine snarf_stays r msg n 3 (Stays.refl _) fun ins on => ?_
  refine Stays.bind (stays_deref_drop msg 1) fun t => ?_
  have hquo := fun f : QuosMsg Decimal64 → Qmsg Decimal64 =>
    Stays.bind (recvQuo_stays r msg on) fun a => Stays.refl (pure (f a))
  exact Stays.ite (hquo _) (Stays.ite (hquo _) (Stays.refl _))

theorem recvCols_stays (msg : Ptr) (n : ℕ) {f : Ptr → Res (QBody Decimal64)}
    (hf : ∀ p, Stays (f p) (f (p ++ r))) : Stays (recvCols msg n f) (recvCols (msg ++ r) n f) :=
  snarf_stays r msg n 4 (Stays.refl _) fun _ on => Stays.bind (hf on) fun _ => Stays.refl _

theorem recvQmsg_stays (msg : Ptr) (n : ℕ) : Stays (recvQmsg msg n) (recvQmsg (msg ++ r) n) := by
  have hauc : ∀ p, Stays (recvAuc p) (recvAuc (p ++ r)) := fun p =>
    Stays.bind (recvPair_stays r p) fun _ => Stays.refl _
  have himb : ∀ p, Stays (recvImb p) (recvImb (p ++ r)) := fun p =>
    Stays.bind (recvPair_stays r p) fun _ => Stays.refl _
  have htra : ∀ p, Stays (recvTra p) (recvTra (p ++ r)) := fun p =>
    Stays.bind (recvPair_stays r p) fun _ => Stays.refl _
  have hlevel := recvLevel_stays r msg n
  refine Stays.deref fun c _ _ => Stays.ite (Stays.onMatch ?_ hlevel) (Stays.ite hlevel (Stays.ite (Stays.onMatch ?_ ?_)
    (Stays.ite (Stays.onMatch ?_ ?_) (Stays.refl _))))
  · exact recvCols_stays r msg n fun p => (hauc p).map _
  · exact recvCols_stays r msg n fun p => (himb p).map _
  · exact Stays.refl _
  · exact recvCols_stays r msg n fun p => (htra p).map _
  · exact Stays.refl _

theorem recvPq_stays (sd : Side) (f : BitVec 32) (ins : List UInt8) (p : Ptr) :
    Stays (recvPq sd f ins p) (recvPq sd f ins (p ++ r)) :=
  Stays.bind (recvPair_stays r p) fun _ => Stays.refl _

theorem recvXlevel_stays (msg : Ptr) (n : ℕ) : Stays (recvXlevel msg n) (recvXlevel (msg ++ r) n) := by
  refine Stays.bind (stays_deref_drop msg 2) fun c => Stays.ite (Stays.refl _) ?_
  refine snarf_stays r msg n 3 (Stays.refl _) fun ins on => Stays.deref fun s _ _ => ?_
  exact Stays.bind (stays_deref_drop msg 1) fun f => recvPq_stays r _ _ ins on

theorem recvXquo_stays (del : Side) (f : BitVec 32) (msg : Ptr) (n : ℕ) :
    Stays (recvXquo del f msg n) (recvXquo del f (msg ++ r) n) := by
  have hlevel := recvXlevel_stays r msg n
  refine Stays.deref fun c _ _ => Stays.ite (Stays.onMatch (Stays.refl _) hlevel) (Stays.ite hlevel
    (Stays.ite ?_ (Stays.refl _)))
  refine Stays.bind (stays_deref_drop msg 3) fun c => Stays.ite (Stays.refl _) ?_
  exact snarf_stays r msg n 4 (Stays.refl _) fun ins on => recvPq_stays r del f ins on

end Stays

/-! ## Columns -/

/-- The columns start like those of an order id, with `L` or `M`. -/
def OidTyp (u : Ptr) : Prop := u.head? = some (ch 'L') ∨ u.head? = some (ch 'M')

/-- The columns of an order id reach the price, and where a blank follows it there is a number. -/
def OidOk (u : Ptr) : Prop :=
  OidTyp u → 8 < u.length ∧ ¬ Stuck (u.drop 8) ∧ ∀ q, numEnd (u.drop 8) = ch ' ' :: q → Marked q

/-- The order id is read to its end. -/
def FullOid (u : Ptr) : Prop := OidTyp u ∧ ∃ q, numEnd (u.drop 8) = ch ' ' :: q

/-- Number columns that do not stop the scanner. -/
def PairOk (u : Ptr) : Prop := ¬ Stuck u ∧ ∀ t, numEnd u = ch '\t' :: t → ¬ Stuck t

/-- Columns of a fill that are found on the line. -/
def FilOk (u : Ptr) : Prop :=
  PairOk u ∧ ∀ t, numEnd u = ch '\t' :: t →
    Marked (numEnd t) ∧ ∀ x, ulEnd (numEnd t) = ch '\t' :: x → OidOk x

/-- The order id of the fill is not there, or its user is not. -/
def FilUnset (u : Ptr) : Prop :=
  ∃ t, numEnd u = ch '\t' :: t ∧ ∀ x, ulEnd (numEnd t) = ch '\t' :: x → FullOid x

/-- **A number column on a line.** -/
theorem column_cases {u : Ptr} (hu : Ends u) :
    (Stuck u ∧ strtod64 u = .error .loop) ∨
    ¬ Stuck u ∧ ∃ x c t, strtod64 u = .ok (x, c :: t) ∧ numEnd u = c :: t ∧ Ends (c :: t) := by
  obtain ⟨hbad, hgood⟩ := strtod64_spec plain_newline hu.mem
  by_cases hst : Stuck u
  · exact Or.inl ⟨hst, hbad hst⟩
  · have hne := List.ne_nil_of_mem (mem_numEnd plain_newline hu.mem)
    obtain ⟨x, hx⟩ := hgood hst
    obtain ⟨c, t, ht⟩ := List.exists_cons_of_ne_nil hne
    rw [ht] at hx
    exact Or.inr ⟨hst, x, c, t, hx, ht, ht ▸ hu.suffix (numEnd_suffix u) hne⟩

/-- **What an order id can be read as.** -/
theorem recvOid_cases {u : Ptr} (hu : Ends u) :
    (¬ OidOk u ∧ ∃ e, ∀ l, recvOid l u = .error e) ∨
    (OidOk u ∧ ¬ FullOid u ∧ ∀ l, recvOid l u = .ok nilOid) ∨
    OidOk u ∧ FullOid u ∧ ∃ typ sid prc qid, ∀ l : Locals,
      recvOid l u = .ok ⟨typ, sid, prc, qid, l.usr⟩ := by
  obtain ⟨c, t, rfl⟩ := List.exists_cons_of_ne_nil hu.ne_nil
  have htyp : OidTyp (c :: t) ↔ c = ch 'L' ∨ c = ch 'M' := by
    simp [OidTyp]
  by_cases hc : c = ch 'L' ∨ c = ch 'M'
  · rw [OidOk, FullOid, htyp, forall_prop_of_true hc, and_iff_right hc]
    -- the side is four bytes on, the price eight
    by_cases hlen : 8 < (c :: t).length
    · obtain ⟨s, hs⟩ : ∃ s, deref ((c :: t).drop 4) = .ok s := by
        rw [List.drop_eq_getElem_cons (show 4 < (c :: t).length by omega)]
        exact ⟨_, rfl⟩
      have hv : Ends ((c :: t).drop 8) :=
        hu.suffix (List.drop_suffix _ _) fun hn => absurd (List.drop_eq_nil_iff.mp hn) (by omega)
      have hread := fun l => recvOid_side l hc hs
      rw [and_iff_right hlen]
      generalize (c :: t).drop 8 = v at hv hread
      rcases column_cases hv with ⟨hst, hbad⟩ | ⟨hst, prc, b, q, hprc, hq, hend⟩
      · refine Or.inl ⟨fun h => h.1 hst, .loop, fun l => ?_⟩
        rw [hread, hbad]
        rfl
      rw [and_iff_right hst]
      simp only [hread, hprc, hq, bind, Except.bind, deref_cons, List.tail_cons]
      by_cases hb : b = ch ' '
      · subst hb
        have hfull : ∃ q', ch ' ' :: q = ch ' ' :: q' := ⟨q, rfl⟩
        obtain ⟨hgood, hbad⟩ := strtou_spec (hend.tail (by decide))
        simp only [forall_cons, ne_eq, not_true_eq_false, if_false, hfull]
        by_cases hm : Marked q
        · obtain ⟨qid, hqid⟩ := hgood hm
          simp only [hqid, hm, not_true_eq_false, false_and, false_or, true_and]
          exact ⟨_, sideOf s, prc, qid, fun l => rfl⟩
        · refine Or.inl ⟨hm, .read, fun l => ?_⟩
          rw [hbad hm]
      · have hno := not_cons (p := q) hb
        refine Or.inr (Or.inl ⟨fun q' he => absurd ⟨q', he⟩ hno, hno, fun l => ?_⟩)
        rw [if_pos hb]
        rfl
    · refine Or.inl ⟨fun h => hlen h.1, .read, fun l => ?_⟩
      simp only [recvOid, deref_cons, bind, Except.bind, if_pos hc]
      rw [List.drop_of_length_le (i := 8) (by omega)]
      cases (c :: t).drop 4 <;> rfl
  · refine Or.inr (Or.inl ⟨fun h => absurd (htyp.mp h) hc, fun h => hc (htyp.mp h.1), fun l => ?_⟩)
    simp only [recvOid, deref_cons, bind, Except.bind, if_neg hc]
    rfl

theorem recvPair_iff {u : Ptr} (hu : Ends u) : (∃ m, recvPair u = .ok m) ↔ PairOk u := by
  rcases column_cases hu with ⟨hst, hbad⟩ | ⟨hst, x, c, t, hx, ht, hend⟩
  · refine iff_of_false ?_ fun h => h.1 hst
    rintro ⟨m, hm⟩
    rw [recvPair, hbad] at hm
    cases hm
  rw [PairOk, and_iff_right hst, ht]
  simp only [recvPair, hx, bind, Except.bind, deref_cons, List.tail_cons]
  by_cases hc : c = ch '\t'
  · subst hc
    rw [forall_cons]
    simp only [ne_eq, not_true_eq_false, if_false]
    rcases column_cases (hend.tail (by decide)) with ⟨hst', hbad⟩ | ⟨hst', y, d, v, hy, -, -⟩
    · rw [hbad]
      refine iff_of_false ?_ fun h => h hst'
      rintro ⟨m, hm⟩
      cases hm
    · rw [hy]
      exact iff_of_true ⟨_, rfl⟩ hst'
  · rw [if_pos hc]
    exact iff_of_true ⟨none, rfl⟩ fun t' he => absurd ⟨t', he⟩ (not_cons hc)

/-- **What a fill can be read as**, up to the order id that may follow. -/
theorem recvFil_cases {u : Ptr} (hu : Ends u) :
    (¬ FilOk u ∧ ∃ e, ∀ l, recvFil l u = .error e) ∨
    (FilOk u ∧ (¬ ∃ t, numEnd u = ch '\t' :: t) ∧ ∀ l, recvFil l u = .ok (.fil nilOid ⟨zerodd, NAND64⟩ 0)) ∨
    ∃ t b x exe con, numEnd u = ch '\t' :: t ∧ ulEnd (numEnd t) = b :: x ∧ Ends (b :: x) ∧
      (FilOk u ↔ ∀ y, b :: x = ch '\t' :: y → OidOk y) ∧
      ∀ l, recvFil l u = (if b = ch '\t' then recvOid l x else pure l.fid).map fun fid => .fil fid exe con := by
  rw [FilOk, PairOk]
  rcases column_cases hu with ⟨hst, hbad⟩ | ⟨hst, qty, c, t, hqty, ht, hend⟩
  · refine Or.inl ⟨fun h => h.1.1 hst, .loop, fun l => ?_⟩
    rw [recvFil, hbad]
    rfl
  rw [and_iff_right hst, ht]
  by_cases hc : c = ch '\t'
  swap
  · have hno : ∀ t', c :: t ≠ ch '\t' :: t' := fun t' he => not_cons hc ⟨t', he⟩
    refine Or.inr (Or.inl ⟨⟨fun t' he => absurd he (hno t'), fun t' he => absurd he (hno t')⟩, not_cons hc,
      fun l => ?_⟩)
    simp only [recvFil, hqty, bind, Except.bind, deref_cons, ne_eq, hc, not_false_eq_true, if_true]
    rfl
  subst hc
  rw [forall_cons, forall_cons]
  have hv := hend.tail (by decide)
  rcases column_cases hv with ⟨hst', hbad⟩ | ⟨hst', prc, d, v, hprc, hd, hn⟩
  · refine Or.inl ⟨fun h => h.1 hst', .loop, fun l => ?_⟩
    simp only [recvFil, hqty, bind, Except.bind, deref_cons, ne_eq, not_true_eq_false, if_false,
      List.tail_cons, hbad]
  rw [and_iff_right hst', hd]
  obtain ⟨hgood, hbad⟩ := strtou_spec hn
  by_cases hm : Marked (d :: v)
  swap
  · refine Or.inl ⟨fun h => hm h.1, .read, fun l => ?_⟩
    simp only [recvFil, hqty, bind, Except.bind, deref_cons, ne_eq, not_true_eq_false, if_false,
      List.tail_cons, hprc, hbad hm]
  obtain ⟨con, hul⟩ := hgood hm
  obtain ⟨b, x, hx⟩ := List.exists_cons_of_ne_nil hn.ulEnd.ne_nil
  refine Or.inr (Or.inr ⟨t, b, x, ⟨qty, prc⟩, con.setWidth 32, rfl, by rw [hd, hx], hx ▸ hn.ulEnd, ?_,
    fun l => ?_⟩)
  · rw [and_iff_right hm, hx]
  · rw [hx] at hul
    simp only [recvFil, hqty, bind, Except.bind, deref_cons, ne_eq, not_true_eq_false, if_false,
      List.tail_cons, hprc, hul]
    split_ifs
    · cases recvOid l x <;> rfl
    · rfl

/-- `OID`, `KIL`, `NOK` or `CAN`, with the tab. -/
def OidHead (h : List UInt8) : Prop :=
  h = bytes ['O', 'I', 'D', '\t'] ∨ h = bytes ['K', 'I', 'L', '\t'] ∨
    h = bytes ['N', 'O', 'K', '\t'] ∨ h = bytes ['C', 'A', 'N', '\t']

/-- Columns that are found on the line, by the line's first four bytes. -/
def ColsOk (h u : List UInt8) : Prop :=
  (OidHead h → OidOk u) ∧ (h = bytes ['A', 'C', 'C', '\t'] → PairOk u) ∧
    (h = bytes ['F', 'I', 'L', '\t'] → FilOk u) ∧ (OrdHead h → ¬ StuckCols u)

/-- The four bytes, the instrument and the columns behind its tab. -/
def Split (line h ins u : List UInt8) : Prop :=
  h.length = 4 ∧ ch '\t' ∉ ins ∧ line = h ++ (ins ++ ch '\t' :: u)

theorem Split.inj {line h h' ins ins' u u' : List UInt8} (hs : Split line h ins u)
    (hs' : Split line h' ins' u') : h = h' ∧ ins = ins' ∧ u = u' := by
  obtain ⟨rfl, ht⟩ := List.append_inj (hs.2.2.symm.trans hs'.2.2) (by rw [hs.1, hs'.1])
  exact ⟨rfl, tab_inj hs.2.1 hs'.2.1 ht⟩

/-- The line is no shorter than its first four bytes, and its columns are found on it. -/
def OmsgLocal (line : List UInt8) : Prop :=
  4 ≤ line.length ∧ ∀ h ins u, Split line h ins u → ColsOk h u

/-- The reader returns, and the same on all the stacks of `S`. -/
def Settles {α : Type} (S : Set Locals) (f : Locals → Res α) : Prop := ∃ m, ∀ l ∈ S, f l = .ok m

/-- The stacks of `S` do not tell apart the order ids read. -/
def OidAlike (S : Set Locals) (u : Ptr) : Prop := FullOid u → ∀ l ∈ S, ∀ l' ∈ S, l.usr = l'.usr

/-- The same for fills, whose order id may be missing. -/
def FilAlike (S : Set Locals) (u : Ptr) : Prop := ∀ t, numEnd u = ch '\t' :: t →
  (∀ x, ulEnd (numEnd t) = ch '\t' :: x → OidAlike S x) ∧
  ((¬ ∃ x, ulEnd (numEnd t) = ch '\t' :: x) → ∀ l ∈ S, ∀ l' ∈ S, l.fid = l'.fid)

def ColsAlike (S : Set Locals) (h u : List UInt8) : Prop :=
  (OidHead h → OidAlike S u) ∧ (h = bytes ['F', 'I', 'L', '\t'] → FilAlike S u)

section Settles

variable {α β : Type} {S : Set Locals} (hS : S.Nonempty)

include hS

theorem settles_const (x : Res α) : Settles S (fun _ => x) ↔ ∃ m, x = .ok m := by
  obtain ⟨l, hl⟩ := hS
  exact ⟨fun ⟨m, hm⟩ => ⟨m, hm l hl⟩, fun ⟨m, hm⟩ => ⟨m, fun _ _ => hm⟩⟩

theorem settles_map {f : Locals → Res α} {g : α → β} (hg : Function.Injective g) :
    Settles S (fun l => (f l).map g) ↔ Settles S f := by
  obtain ⟨l, hl⟩ := hS
  constructor
  · rintro ⟨m, hm⟩
    obtain ⟨a, -, rfl⟩ := map_ok.mp (hm l hl)
    refine ⟨a, fun l' hl' => ?_⟩
    obtain ⟨b, hb, he⟩ := map_ok.mp (hm l' hl')
    rw [hb, hg he]
  · rintro ⟨a, ha⟩
    exact ⟨g a, fun l' hl' => map_ok.mpr ⟨a, ha l' hl', rfl⟩⟩

theorem not_settles_error {f : Locals → Res α} (e : Fault) (h : ∀ l, f l = .error e) : ¬ Settles S f := by
  rintro ⟨m, hm⟩
  obtain ⟨l, hl⟩ := hS
  have := hm l hl
  rw [h l] at this
  cases this

theorem recvOid_settles {u : Ptr} (hu : Ends u) :
    Settles S (fun l => recvOid l u) ↔ OidOk u ∧ OidAlike S u := by
  rcases recvOid_cases hu with ⟨hn, e, he⟩ | ⟨hok, hn, ho⟩ | ⟨hok, hfull, typ, sid, prc, qid, ho⟩
  · exact iff_of_false (not_settles_error hS e he) fun h => hn h.1
  · exact iff_of_true ⟨nilOid, fun l _ => ho l⟩ ⟨hok, fun h => absurd h hn⟩
  · rw [and_iff_right hok, OidAlike, forall_prop_of_true hfull]
    constructor
    · rintro ⟨m, hm⟩ l hl l' hl'
      have h := (ho l).symm.trans ((hm l hl).trans ((hm l' hl').symm.trans (ho l')))
      injection h with h
      injection h
    · intro h
      obtain ⟨l, hl⟩ := hS
      refine ⟨⟨typ, sid, prc, qid, l.usr⟩, fun l' hl' => (ho l').trans ?_⟩
      rw [h l' hl' l hl]

theorem recvFil_settles {u : Ptr} (hu : Ends u) :
    Settles S (fun l => recvFil l u) ↔ FilOk u ∧ FilAlike S u := by
  rcases recvFil_cases hu with ⟨hn, e, he⟩ | ⟨hok, hno, hm⟩ | ⟨t, b, x, exe, con, ht, hx, hend, hok, hread⟩
  · exact iff_of_false (not_settles_error hS e he) fun h => hn h.1
  · exact iff_of_true ⟨_, fun l _ => hm l⟩ ⟨hok, fun t ht => absurd ⟨t, ht⟩ hno⟩
  have hinj : Function.Injective fun fid : ClobOid Decimal64 => OBody.fil fid exe con := fun _ _ he => by
    injection he
  rw [funext hread, settles_map hS hinj, hok, FilAlike, ht, forall_cons, hx]
  by_cases hb : b = ch '\t'
  · subst hb
    have hex : ∃ y, ch '\t' :: x = ch '\t' :: y := ⟨x, rfl⟩
    simp only [if_true]
    rw [recvOid_settles hS (hend.tail (by decide)), forall_cons, forall_cons]
    simp only [hex, not_true_eq_false, false_imp_iff, and_true]
  · have hno := not_cons (p := x) hb
    simp only [if_neg hb]
    constructor
    · rintro ⟨m, hm⟩
      refine ⟨fun x' he => absurd ⟨x', he⟩ hno, fun x' he => absurd ⟨x', he⟩ hno, fun _ l hl l' hl' => ?_⟩
      exact Except.ok.inj ((hm l hl).trans (hm l' hl').symm)
    · rintro ⟨-, -, h⟩
      obtain ⟨l, hl⟩ := hS
      exact ⟨l.fid, fun l' hl' => congrArg _ (h hno l' hl' l hl)⟩

theorem recvBody_settles {h u : List UInt8} (hh : h.length = 4) (r : Ptr) (hu : Ends u) :
    Settles S (fun l => recvBody l (h ++ r) u) ↔ ColsOk h u ∧ ColsAlike S h u := by
  have hbody := fun l => recvBody_head l hh r u
  by_cases hoid : OidHead h
  · -- four messages are an order id
    have hread : ∃ g : ClobOid Decimal64 → OBody Decimal64, Function.Injective g ∧
        (fun l => recvBody l (h ++ r) u) = fun l => (recvOid l u).map g := by
      rcases hoid with rfl | rfl | rfl | rfl
      · exact ⟨.oid, fun _ _ he => by injection he, funext hbody⟩
      · exact ⟨.kil, fun _ _ he => by injection he, funext hbody⟩
      · exact ⟨.nok, fun _ _ he => by injection he, funext hbody⟩
      · exact ⟨.can, fun _ _ he => by injection he, funext hbody⟩
    obtain ⟨g, hg, hread⟩ := hread
    have hne : h ≠ bytes ['A', 'C', 'C', '\t'] ∧ h ≠ bytes ['F', 'I', 'L', '\t'] ∧ ¬ OrdHead h := by
      rcases hoid with rfl | rfl | rfl | rfl <;>
        exact ⟨by decide, by decide, fun ho => ho.elim (by decide) (by decide)⟩
    rw [hread, settles_map hS hg, recvOid_settles hS hu]
    simp only [ColsOk, ColsAlike, hoid, hne, forall_true_left, false_imp_iff, and_true]
  by_cases hacc : h = bytes ['A', 'C', 'C', '\t']
  · subst hacc
    have hord : ¬ OrdHead (bytes ['A', 'C', 'C', '\t']) := fun ho => ho.elim (by decide) (by decide)
    have hfil : bytes ['A', 'C', 'C', '\t'] ≠ bytes ['F', 'I', 'L', '\t'] := by decide
    have hread : (fun l => recvBody l (bytes ['A', 'C', 'C', '\t'] ++ r) u) =
        fun _ => OBody.acc <$> recvExa u := funext hbody
    rw [hread, settles_const hS, returns_map, recvExa, returns_bind fun o => by cases o <;> exact ⟨_, rfl⟩,
      recvPair_iff hu]
    simp only [ColsOk, ColsAlike, hoid, hfil, hord, forall_true_left, false_imp_iff, and_true, true_and]
  by_cases hfil : h = bytes ['F', 'I', 'L', '\t']
  · subst hfil
    have hord : ¬ OrdHead (bytes ['F', 'I', 'L', '\t']) := fun ho => ho.elim (by decide) (by decide)
    have hread : (fun l => recvBody l (bytes ['F', 'I', 'L', '\t'] ++ r) u) = fun l => recvFil l u :=
      funext hbody
    rw [hread, recvFil_settles hS hu]
    simp only [ColsOk, ColsAlike, hoid, hacc, hord, forall_true_left, false_imp_iff, and_true, true_and]
  by_cases hord : OrdHead h
  · have hread : (fun l => recvBody l (h ++ r) u) = fun _ => OBody.ord <$> recvOrd (h ++ r) u := by
      rcases hord with rfl | rfl <;> exact funext hbody
    have hne : h ++ r ≠ [] := by rcases hord with rfl | rfl <;> exact List.cons_ne_nil _ _
    obtain ⟨hbad, hgood⟩ := recvOrd_spec [] hne hu.mem
    rw [List.append_nil] at hbad hgood
    have hret : (∃ o, recvOrd (h ++ r) u = .ok o) ↔ ¬ StuckCols u := by
      refine ⟨fun ⟨o, ho⟩ hst => ?_, fun hn => ?_⟩
      · rw [hbad hst] at ho
        cases ho
      · obtain ⟨o, ho, -⟩ := hgood hn
        exact ⟨o, ho⟩
    rw [hread, settles_const hS, returns_map, hret]
    simp only [ColsOk, ColsAlike, hoid, hacc, hfil, hord, forall_true_left, false_imp_iff, and_true, true_and]
  · have hread : (fun l => recvBody l (h ++ r) u) = fun _ => .ok .unk := by
      funext l
      rw [hbody]
      simp only [OidHead, OrdHead, not_or] at hoid hord
      simp only [hoid, hacc, hfil, hord, if_false]
    rw [hread, settles_const hS]
    simp only [ColsOk, ColsAlike, hoid, hacc, hfil, hord, false_imp_iff, and_true, Except.ok.injEq, exists_eq']

theorem recvOmsg_settles {line : List UInt8} (hline : Ends line) :
    Settles S (fun l => recvOmsg l line line.length) ↔
      OmsgLocal line ∧ ∀ h ins u, Split line h ins u → ColsAlike S h u := by
  by_cases hlen : 4 ≤ line.length
  swap
  · refine iff_of_false (not_settles_error hS .read fun l => ?_) fun h => hlen h.1.1
    -- the length that is left wraps round
    obtain ⟨n, hn⟩ : ∃ n, subSz line.length 4 = n + 1 := by
      refine ⟨line.length + 2 ^ 64 - 5, ?_⟩
      rw [subSz, if_neg hlen]
      omega
    simp only [recvOmsg, snarf, hn, List.drop_of_length_le (show line.length ≤ 4 by omega)]
    rfl
  obtain ⟨h, t, hh, rfl⟩ : ∃ h t, h.length = 4 ∧ line = h ++ t :=
    ⟨line.take 4, line.drop 4, by rw [List.length_take]; omega, (List.take_append_drop 4 line).symm⟩
  rw [OmsgLocal, and_iff_right hlen]
  rcases Lines.notMem_or_split (ch '\t') t with hno | ⟨ins, u, rfl, hins⟩
  · have hs : ∀ h' ins u, ¬ Split (h ++ t) h' ins u := fun h' ins u hs => by
      obtain ⟨-, rfl⟩ := List.append_inj hs.2.2 (by rw [hh, hs.1])
      exact hno (List.mem_append_right _ List.mem_cons_self)
    have hread := fun l => recvOmsg_unk l hh hno []
    rw [List.append_nil] at hread
    simp only [hread]
    exact iff_of_true ((settles_const hS _).mpr ⟨_, rfl⟩)
      ⟨fun h' ins u h => absurd h (hs h' ins u), fun h' ins u h => absurd h (hs h' ins u)⟩
  · have hsplit : Split (h ++ (ins ++ ch '\t' :: u)) h ins u := ⟨hh, hins, rfl⟩
    have hall : ∀ P : List UInt8 → List UInt8 → Prop,
        (∀ h' ins' u', Split (h ++ (ins ++ ch '\t' :: u)) h' ins' u' → P h' u') ↔ P h u := by
      refine fun P => ⟨fun hp => hp h ins u hsplit, fun hp h' ins' u' hs => ?_⟩
      obtain ⟨rfl, -, rfl⟩ := hsplit.inj hs
      exact hp
    rw [hall, hall]
    have hu : Ends u := by
      have he : Ends (ch '\t' :: u) :=
        hline.suffix ((List.suffix_append ins _).trans (List.suffix_append h _)) (List.cons_ne_nil _ _)
      exact he.tail (by decide)
    have hread := fun l => recvOmsg_cols l hh hins u []
    rw [List.append_nil] at hread
    have hinj : Function.Injective fun b : OBody Decimal64 =>
        (⟨if b = .unk then [] else ins, b⟩ : Omsg Decimal64) := fun _ _ he => by
      injection he
    simp only [hread]
    rw [settles_map hS hinj, recvBody_settles hS hh _ hu]

end Settles

/-- **What is read of any line of order messages**, on a given stack. -/
theorem recvOmsg_returns (l : Locals) {line : List UInt8} (hline : Ends line) :
    (∃ m, recvOmsg l line line.length = .ok m) ↔ OmsgLocal line := by
  have hsame : Settles {l} (fun _ => recvOmsg l line line.length) ↔
      Settles {l} (fun l => recvOmsg l line line.length) := by
    simp only [Settles, Set.mem_singleton_iff, forall_eq]
  rw [← settles_const (Set.singleton_nonempty l), hsame, recvOmsg_settles (Set.singleton_nonempty l) hline,
    and_iff_left]
  rintro h ins u -
  refine ⟨fun _ _ a ha b hb => ?_, fun _ t _ => ⟨fun x _ _ a ha b hb => ?_, fun _ a ha b hb => ?_⟩⟩ <;>
    rw [Set.mem_singleton_iff.mp ha, Set.mem_singleton_iff.mp hb]

/-! ## Quote messages -/

/-- What the lines with number columns start with. -/
def quoHeads : List (List UInt8) :=
  [bytes ['A', 'U', 'C', '\t'], bytes ['I', 'M', 'B', '\t'], bytes ['T', 'R', 'A', '\t'],
    bytes ['A', '1', '\t'], bytes ['A', '2', '\t'], bytes ['B', '1', '\t'], bytes ['B', '2', '\t']]

/-- The columns behind the instrument do not stop the scanner. -/
def TailOk (t : List UInt8) : Prop := ∀ ins u, ch '\t' ∉ ins → t = ins ++ ch '\t' :: u → PairOk u

/-- The line is not just a letter, and its columns do not stop the scanner. -/
def QmsgLocal (line : List UInt8) : Prop :=
  line ≠ bytes ['A', '\n'] ∧ line ≠ bytes ['B', '\n'] ∧ ∀ h ∈ quoHeads, ∀ t, line = h ++ t → TailOk t

theorem quoHeads_apart : ∀ h ∈ quoHeads, ∀ h' ∈ quoHeads, h <+: h' → h = h' := by
  decide

theorem qmsgLocal_head {h t : List UInt8} (hh : h ∈ quoHeads) : QmsgLocal (h ++ t) ↔ TailOk t := by
  refine ⟨fun hl => hl.2.2 h hh t rfl, fun ht => ⟨?_, ?_, fun h' hh' t' he => ?_⟩⟩
  · rintro he
    exact absurd ⟨t, he⟩ ((by decide : ∀ h ∈ quoHeads, ¬ h <+: bytes ['A', '\n']) h hh)
  · rintro he
    exact absurd ⟨t, he⟩ ((by decide : ∀ h ∈ quoHeads, ¬ h <+: bytes ['B', '\n']) h hh)
  · have heq : h = h' := by
      rcases List.prefix_or_prefix_of_prefix ⟨t, rfl⟩ ⟨t', he.symm⟩ with hp | hp
      · exact quoHeads_apart h hh h' hh' hp
      · exact (quoHeads_apart h' hh' h hh hp).symm
    subst heq
    rwa [← List.append_cancel_left he]

/-- **The instrument and what follows its tab**, if there is one. -/
theorem snarf_cases {h t : List UInt8} (ht : Ends (h ++ t)) :
    (ch '\t' ∉ t ∧ snarf (h ++ t) (h ++ t).length h.length = .ok none) ∨
      ∃ ins u, t = ins ++ ch '\t' :: u ∧ ch '\t' ∉ ins ∧ Ends u ∧
        snarf (h ++ t) (h ++ t).length h.length = .ok (some (ins, u)) := by
  rcases Lines.notMem_or_split (ch '\t') t with hno | ⟨ins, u, rfl, hins⟩
  · have hs := snarf_none h hno []
    rw [List.append_nil] at hs
    exact .inl ⟨hno, hs⟩
  · have hs := snarf_text (h := h) hins u []
    rw [List.append_nil] at hs
    have he : Ends (ch '\t' :: u) :=
      ht.suffix ((List.suffix_append ins _).trans (List.suffix_append h _)) (List.cons_ne_nil _ _)
    exact .inr ⟨ins, u, rfl, hins, he.tail (by decide), hs⟩

theorem snarf_returns {β : Type} {h t : List UInt8} (ht : Ends (h ++ t)) {f : Option (List UInt8 × Ptr) → Res β}
    (h0 : ∃ b, f none = .ok b)
    (hf : ∀ ins u, Ends u → ((∃ b, f (some (ins, u)) = .ok b) ↔ PairOk u)) :
    (∃ b, snarf (h ++ t) (h ++ t).length h.length >>= f = .ok b) ↔ TailOk t := by
  rcases snarf_cases ht with ⟨hno, hs⟩ | ⟨ins, u, rfl, hins, hu, hs⟩
  · rw [hs]
    exact iff_of_true h0 fun ins u _ he => absurd (he ▸ List.mem_append_right _ List.mem_cons_self) hno
  · rw [hs]
    refine (hf ins u hu).trans ⟨fun hp ins' u' hins' he => ?_, fun hp => hp ins u hins rfl⟩
    rwa [← (tab_inj hins hins' he).2]

theorem recvCols_returns {h t : List UInt8} (hh : h.length = 4) (ht : Ends (h ++ t))
    {f : Ptr → Res (QBody Decimal64)} (hf : ∀ u, Ends u → ((∃ b, f u = .ok b) ↔ PairOk u)) :
    (∃ m, recvCols (h ++ t) (h ++ t).length f = .ok m) ↔ TailOk t := by
  unfold recvCols
  rw [← hh]
  exact snarf_returns ht ⟨_, rfl⟩ fun ins u hu => (returns_bind fun b => ⟨_, rfl⟩).trans (hf u hu)

theorem recvQuo_returns {msg u : Ptr} (hmsg : msg ≠ []) (hu : Ends u) :
    (∃ q, recvQuo msg u = .ok q) ↔ PairOk u := by
  obtain ⟨c, msg, rfl⟩ := List.exists_cons_of_ne_nil hmsg
  rw [recvQuo_cons]
  exact (returns_bind fun o => by cases o <;> exact ⟨_, rfl⟩).trans (recvPair_iff hu)

theorem recvLevel_returns {c d : UInt8} {t : List UInt8} (ht : Ends ([c, d, ch '\t'] ++ t)) :
    (∃ m, recvLevel ([c, d, ch '\t'] ++ t) ([c, d, ch '\t'] ++ t).length = .ok m) ↔
      (d = ch '1' ∨ d = ch '2' → TailOk t) := by
  have hquo := fun {u} (hu : Ends u) (f : QuosMsg Decimal64 → Qmsg Decimal64) =>
    (returns_bind (x := recvQuo ([c, d, ch '\t'] ++ t) u) (f := fun q => .ok (f q)) fun q => ⟨_, rfl⟩).trans
      (recvQuo_returns (List.cons_ne_nil _ _) hu)
  rw [recvLevel_tab]
  by_cases hd : d = ch '1' ∨ d = ch '2'
  · rw [forall_prop_of_true hd]
    refine snarf_returns ht ⟨_, rfl⟩ fun ins u hu => ?_
    rcases hd with rfl | rfl
    · exact hquo hu _
    · exact hquo hu _
  · obtain ⟨o, ho⟩ : ∃ o, snarf ([c, d, ch '\t'] ++ t) ([c, d, ch '\t'] ++ t).length 3 = .ok o := by
      rcases snarf_cases ht with ⟨-, hs⟩ | ⟨ins, u, -, -, -, hs⟩ <;> exact ⟨_, hs⟩
    refine iff_of_true ?_ fun h => absurd h hd
    rw [not_or] at hd
    rw [ho]
    cases o with
    | none => exact ⟨_, rfl⟩
    | some p =>
        refine ⟨⟨[], .unk⟩, ?_⟩
        simp only [bind, Except.bind, if_neg hd.1, if_neg hd.2]
        rfl

theorem recvLevel_other {c : UInt8} {s : List UInt8} (hs : Ends s)
    (hno : ∀ d t, s = d :: ch '\t' :: t → ¬ (d = ch '1' ∨ d = ch '2')) :
    (∃ m, recvLevel (c :: s) (c :: s).length = .ok m) ↔ s ≠ [ch '\n'] := by
  rcases s with - | ⟨d, - | ⟨e, t⟩⟩
  · cases hs
  · rw [Ends, List.getLast?_singleton] at hs
    cases hs
    refine iff_of_false ?_ fun h => h rfl
    rintro ⟨m, hm⟩
    cases hm
  · refine iff_of_true ?_ (by simp)
    by_cases he : e = ch '\t'
    · subst he
      exact (recvLevel_returns (hs.cons c)).mpr fun hd => absurd hd (hno d t rfl)
    · refine ⟨⟨[], .unk⟩, ?_⟩
      simp only [recvLevel, List.drop_succ_cons, List.drop_zero, deref_cons, bind, Except.bind, ne_eq, he,
        not_false_eq_true, if_true]
      rfl

theorem recvQmsg_head {h t : List UInt8} (hh : h ∈ quoHeads) (hline : Ends (h ++ t)) :
    (∃ m, recvQmsg (h ++ t) (h ++ t).length = .ok m) ↔ TailOk t := by
  have hpair : ∀ {β : Type} (g : β → QBody Decimal64) {f : Option (Decimal64 × Decimal64) → Res β},
      (∀ o, ∃ b, f o = .ok b) → ∀ u, Ends u → ((∃ b, g <$> (recvPair u >>= f) = .ok b) ↔ PairOk u) :=
    fun g _ hf u hu => (returns_map g).trans ((returns_bind hf).trans (recvPair_iff hu))
  have hcols : ∀ {w : List UInt8} (f : Ptr → Res (QBody Decimal64)) (x : ℕ → Res (Qmsg Decimal64)),
      (∀ n, recvQmsg (w ++ t) n =
        memcmp (w ++ t) w >>= fun b => if b = true then recvCols (w ++ t) n f else x n) →
      ∀ n, recvQmsg (w ++ t) n = recvCols (w ++ t) n f := by
    intro w f x h n
    rw [h, memcmp_append]
    rfl
  simp only [quoHeads, List.mem_cons, List.not_mem_nil, or_false] at hh
  rcases hh with rfl | rfl | rfl | rfl | rfl | rfl | rfl
  · rw [hcols _ (recvLevel _) fun _ => rfl]
    exact recvCols_returns rfl hline (hpair .auc fun o => by cases o <;> exact ⟨_, rfl⟩)
  · rw [hcols _ (fun _ => pure ⟨[], .unk⟩) fun _ => rfl]
    exact recvCols_returns rfl hline (hpair .imb fun o => by cases o <;> exact ⟨_, rfl⟩)
  · rw [hcols _ (fun _ => pure ⟨[], .unk⟩) fun _ => rfl]
    exact recvCols_returns rfl hline (hpair .tra fun o => by cases o <;> exact ⟨_, rfl⟩)
  · exact (recvLevel_returns hline).trans (forall_prop_of_true (Or.inl rfl))
  · exact (recvLevel_returns hline).trans (forall_prop_of_true (Or.inr rfl))
  · exact (recvLevel_returns hline).trans (forall_prop_of_true (Or.inl rfl))
  · exact (recvLevel_returns hline).trans (forall_prop_of_true (Or.inr rfl))

theorem recvQmsg_other {line : List UInt8} (hline : Ends line) (hno : ∀ h ∈ quoHeads, ¬ h <+: line) :
    (∃ m, recvQmsg line line.length = .ok m) ↔
      line ≠ bytes ['A', '\n'] ∧ line ≠ bytes ['B', '\n'] := by
  have hcmp : ∀ h ∈ quoHeads, memcmp line h = .ok false := fun h hh => by
    have hpre : h.isPrefixOf line = false := by
      rw [Bool.eq_false_iff, ne_eq, List.isPrefixOf_iff_prefix]
      exact hno h hh
    rw [memcmp_of_mem hline.mem ((by decide : ∀ h ∈ quoHeads, ch '\n' ∉ h) h hh), hpre]
  obtain ⟨c, s, rfl⟩ := List.exists_cons_of_ne_nil hline.ne_nil
  have hlevel : ∀ {a : UInt8}, [a, ch '1', ch '\t'] ∈ quoHeads → [a, ch '2', ch '\t'] ∈ quoHeads →
      a ≠ ch '\n' → c = a →
      ((∃ m, recvLevel (c :: s) (c :: s).length = .ok m) ↔ s ≠ [ch '\n']) := by
    rintro a h1 h2 ha rfl
    refine recvLevel_other (hline.tail ha) ?_
    rintro d t rfl (rfl | rfl)
    · exact hno _ h1 ⟨t, rfl⟩
    · exact hno _ h2 ⟨t, rfl⟩
  by_cases hA : c = ch 'A'
  · have hread : recvQmsg (c :: s) (c :: s).length = recvLevel (c :: s) (c :: s).length := by
      subst hA
      unfold recvQmsg
      rw [hcmp _ (by decide)]
      rfl
    rw [hread, hlevel (by decide) (by decide) (by decide) hA]
    subst hA
    refine ⟨fun h => ⟨fun he => h (List.cons.inj he).2, fun he => ?_⟩, fun h hs => h.1 (by rw [hs]; rfl)⟩
    exact absurd (List.cons.inj he).1 (by decide)
  by_cases hB : c = ch 'B'
  · have hread : recvQmsg (c :: s) (c :: s).length = recvLevel (c :: s) (c :: s).length := by
      subst hB
      rfl
    rw [hread, hlevel (by decide) (by decide) (by decide) hB]
    subst hB
    refine ⟨fun h => ⟨fun he => ?_, fun he => h (List.cons.inj he).2⟩, fun h hs => h.2 (by rw [hs]; rfl)⟩
    exact absurd (List.cons.inj he).1 (by decide)
  · refine iff_of_true ⟨⟨[], .unk⟩, ?_⟩ ⟨fun he => hA (List.cons.inj he).1, fun he => hB (List.cons.inj he).1⟩
    have himb := hcmp (bytes ['I', 'M', 'B', '\t']) (by decide)
    have htra := hcmp (bytes ['T', 'R', 'A', '\t']) (by decide)
    simp only [recvQmsg, deref_cons, bind, Except.bind, hA, hB, if_false, himb, htra, Bool.false_eq_true]
    split_ifs <;> rfl

/-- **What is read of any line of quote messages.** -/
theorem recvQmsg_returns {line : List UInt8} (hline : Ends line) :
    (∃ m, recvQmsg line line.length = .ok m) ↔ QmsgLocal line := by
  by_cases hex : ∃ h ∈ quoHeads, h <+: line
  · obtain ⟨h, hh, t, rfl⟩ := hex
    rw [qmsgLocal_head hh, recvQmsg_head hh hline]
  · have hno : ∀ h ∈ quoHeads, ¬ h <+: line := fun h hh hp => hex ⟨h, hh, hp⟩
    rw [recvQmsg_other hline hno, QmsgLocal]
    refine and_congr_right fun _ => (and_iff_left fun h hh t he => ?_).symm
    exact absurd ⟨t, he.symm⟩ (hno h hh)

/-! ## The candle maker's quotes -/

/-- The line reaches the tab that is looked for, and the columns behind it do not stop the scanner. -/
def XquoLocal (line : List UInt8) : Prop :=
  line ≠ bytes ['A', '\n'] ∧ line ≠ bytes ['B', '\n'] ∧ (line.head? = some (ch 'T') → 4 ≤ line.length) ∧
    (∀ c d t, c = ch 'A' ∨ c = ch 'B' → line = [c, d, ch '\t'] ++ t → TailOk t) ∧
    ∀ c d t, line = [ch 'T', c, d, ch '\t'] ++ t → TailOk t

theorem recvPq_returns (sd : Side) (f : BitVec 32) (ins : List UInt8) {u : Ptr} (hu : Ends u) :
    (∃ q, recvPq sd f ins u = .ok q) ↔ PairOk u :=
  (returns_bind fun o => by cases o <;> exact ⟨_, rfl⟩).trans (recvPair_iff hu)

/-- The instrument is cut off, and what follows it is read. -/
theorem snarf_pq {h t : List UInt8} (ht : Ends (h ++ t)) (htail : TailOk t) :
    ∃ o, snarf (h ++ t) (h ++ t).length h.length = .ok o ∧
      ∀ ins u, o = some (ins, u) → ∀ sd f, ∃ q, recvPq sd f ins u = .ok q := by
  rcases snarf_cases ht with ⟨-, hs⟩ | ⟨ins, u, rfl, hins, hu, hs⟩
  · exact ⟨none, hs, nofun⟩
  · refine ⟨_, hs, fun ins' u' he sd f => ?_⟩
    obtain ⟨rfl, rfl⟩ := Prod.mk.inj (Option.some.inj he)
    exact (recvPq_returns sd f ins hu).mpr (htail ins u hins rfl)

theorem recvXlevel_returns {c d e : UInt8} {t : List UInt8} (hline : Ends (c :: d :: e :: t))
    (htail : e = ch '\t' → TailOk t) : ∃ q, recvXlevel (c :: d :: e :: t) (c :: d :: e :: t).length = .ok q := by
  by_cases he : e = ch '\t'
  · subst he
    obtain ⟨o, ho, hq⟩ := snarf_pq (h := [c, d, ch '\t']) hline (htail rfl)
    have ho : snarf (c :: d :: ch '\t' :: t) (c :: d :: ch '\t' :: t).length 3 = .ok o := ho
    simp only [recvXlevel, List.drop_succ_cons, List.drop_zero, deref_cons, bind, Except.bind, ho, ne_eq,
      not_true_eq_false, if_false]
    cases o with
    | none => exact ⟨none, rfl⟩
    | some x => exact hq x.1 x.2 rfl _ _
  · refine ⟨none, ?_⟩
    simp only [recvXlevel, List.drop_succ_cons, List.drop_zero, deref_cons, bind, Except.bind, ne_eq, he,
      not_false_eq_true, if_true]
    rfl

/-- **What is read of a line of quotes** by the candle maker. -/
theorem recvXquo_returns (del : Side) (f : BitVec 32) {line : List UInt8} (hline : Ends line) (h : XquoLocal line) :
    ∃ q, recvXquo del f line line.length = .ok q := by
  obtain ⟨hA, hB, hT, hlevels, htrades⟩ := h
  obtain ⟨c, s, rfl⟩ := List.exists_cons_of_ne_nil hline.ne_nil
  have hlevel : c = ch 'A' ∨ c = ch 'B' → ∃ q, recvXlevel (c :: s) (c :: s).length = .ok q := by
    intro hc
    -- a letter alone is one of the two lines left out
    rcases s with - | ⟨d, - | ⟨e, t⟩⟩
    · rcases hc with rfl | rfl <;> cases hline
    · have hd : d = ch '\n' := by
        rw [Ends, List.getLast?_cons_cons, List.getLast?_singleton] at hline
        exact Option.some.inj hline
      subst hd
      rcases hc with rfl | rfl
      · exact absurd rfl hA
      · exact absurd rfl hB
    · exact recvXlevel_returns hline fun he => hlevels c d t hc (by rw [he]; rfl)
  by_cases hcA : c = ch 'A'
  · obtain ⟨b, hb⟩ : ∃ b, memcmp (c :: s) (bytes ['A', 'U', 'C', '\t']) = .ok b :=
      ⟨_, memcmp_of_mem hline.mem (by decide)⟩
    simp only [recvXquo, deref_cons, bind, Except.bind, hcA, if_true]
    rw [← hcA, hb]
    cases b with
    | false => exact hlevel (.inl hcA)
    | true => exact ⟨none, rfl⟩
  by_cases hcB : c = ch 'B'
  · simp only [recvXquo, deref_cons, bind, Except.bind, hcA, if_false, if_pos hcB]
    exact hlevel (.inr hcB)
  by_cases hcT : c = ch 'T'
  · obtain ⟨d, e, b, t, rfl⟩ : ∃ d e b t, s = d :: e :: b :: t := by
      have hlen := hT (by rw [hcT]; rfl)
      rcases s with - | ⟨d, - | ⟨e, - | ⟨b, t⟩⟩⟩
      · exact absurd hlen (by simp)
      · exact absurd hlen (by simp)
      · exact absurd hlen (by simp)
      · exact ⟨d, e, b, t, rfl⟩
    simp only [recvXquo, deref_cons, bind, Except.bind, hcA, hcB, if_false, if_pos hcT, List.drop_succ_cons,
      List.drop_zero]
    by_cases hb : b = ch '\t'
    · subst hb hcT
      obtain ⟨o, ho, hq⟩ := snarf_pq (h := [ch 'T', d, e, ch '\t']) hline (htrades d e t rfl)
      have ho : snarf (ch 'T' :: d :: e :: ch '\t' :: t) (ch 'T' :: d :: e :: ch '\t' :: t).length 4 = .ok o := ho
      simp only [ho, ne_eq, not_true_eq_false, if_false]
      cases o with
      | none => exact ⟨none, rfl⟩
      | some x => exact hq x.1 x.2 rfl _ _
    · exact ⟨none, if_pos hb⟩
  · refine ⟨none, ?_⟩
    simp only [recvXquo, deref_cons, bind, Except.bind, hcA, hcB, hcT, if_false]
    rfl

/-! ## Lines -/

theorem local_iff {α : Type} {f : Ptr → ℕ → Res α} {line : List UInt8}
    (hf : ∀ r, Stays (f line line.length) (f (line ++ r) line.length)) :
    Local f line ↔ ∃ m, f line line.length = .ok m := by
  constructor
  · rintro ⟨m, hm⟩
    exact ⟨m, by rw [← hm [], List.append_nil]⟩
  · rintro ⟨m, hm⟩
    exact ⟨m, fun r => by rw [hf r (by rw [hm]; simp), hm]⟩

/-- A field is returned that has not been set. -/
def OmsgUnset (line : List UInt8) : Prop :=
  ∃ h ins u, Split line h ins u ∧
    (OidHead h ∧ FullOid u ∨ h = bytes ['F', 'I', 'L', '\t'] ∧ FilUnset u)

theorem oidAlike_univ (u : Ptr) : OidAlike Set.univ u ↔ ¬ FullOid u := by
  refine ⟨fun h hu => ?_, fun h hu => absurd hu h⟩
  exact absurd (h hu ⟨0, nilOid⟩ trivial ⟨1, nilOid⟩ trivial) (by decide)

theorem filAlike_univ (u : Ptr) : FilAlike Set.univ u ↔ ¬ FilUnset u := by
  constructor
  · rintro h ⟨t, ht, hx⟩
    obtain ⟨hoid, hno⟩ := h t ht
    by_cases hex : ∃ x, ulEnd (numEnd t) = ch '\t' :: x
    · obtain ⟨x, hx'⟩ := hex
      exact (oidAlike_univ x).mp (hoid x hx') (hx x hx')
    · exact absurd (hno hex ⟨0, nilOid⟩ trivial ⟨0, ⟨0, 0, 0, 0, 1⟩⟩ trivial) (by decide)
  · intro h t ht
    have hex : ∃ x, ulEnd (numEnd t) = ch '\t' :: x ∧ ¬ FullOid x := by
      by_contra hn
      exact h ⟨t, ht, fun x hx => by
        by_contra hfull
        exact hn ⟨x, hx, hfull⟩⟩
    obtain ⟨x, hx, hfull⟩ := hex
    refine ⟨fun x' hx' => ?_, fun hno => absurd ⟨x, hx⟩ hno⟩
    rw [oidAlike_univ, ← (List.cons.inj (hx.symm.trans hx')).2]
    exact hfull

/-- A cancellation with a blank for the order id. -/
def blankOid : List UInt8 := bytes ['C', 'A', 'N', '\t', 'I', '\t', 'L', 'M', 'T', ' ', 'A', 'S', 'K', ' ',
  '1', ' ', '\n']

end Unserlob
