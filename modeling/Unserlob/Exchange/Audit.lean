import Unserlob.Exchange.Served

/-!
# Accounts add up (`chck_acct`)

* `Hall.sum`, `Hall.Balanced`: the accounts of an instrument added up; `sum_legsTo`: legs parted by users;
* `Pit.TwoSided`, `Pit.Auctions`, `Pit.Fair`: what is relied on of executions;
* `sweep_balanced`, `Hall.Sound`, **`hall_sound`**: the invariant;
* `shows_balanced`, `beat_check`, **`audits_pass`**: the assertions hold.
-/

namespace Unserlob

open Cursor Table ForLoop

variable {A B : Type} [AddCommGroup A]

/-! ## Sums over users -/

/-- The accounts of an instrument, added up. -/
def Hall.sum (f : UnxsExa A → A) (i : ℕ) (h : Hall B A) : A :=
  ∑ k ∈ Finset.range h.users, f (h.acct (BitVec.ofNat 32 (k + 1)) i)

/-- **The accounts of every instrument add up to zero.** -/
structure Hall.Balanced (h : Hall B A) : Prop where
  base : ∀ i, h.sum UnxsExa.base i = 0
  term : ∀ i, h.sum UnxsExa.term i = 0

/-- **Legs parted by users**: every leg is one user's. -/
theorem sum_legsTo (g : Leg A → A) {n : ℕ} (hn : n < 2 ^ 32) {ls : List (Leg A)} (hl : ∀ l ∈ ls, Has n l.fid.usr) :
    ∑ k ∈ Finset.range n, ((legsTo (BitVec.ofNat 32 (k + 1)) ls).map g).sum = (ls.map g).sum := by
  induction ls with
  | nil => exact Finset.sum_const_zero
  | cons l ls ih =>
      obtain ⟨hpos, hle⟩ := hl l List.mem_cons_self
      have hone : ∀ k ∈ Finset.range n, ((legsTo (BitVec.ofNat 32 (k + 1)) (l :: ls)).map g).sum =
          (if k = l.fid.uid.toNat - 1 then g l else 0) + ((legsTo (BitVec.ofNat 32 (k + 1)) ls).map g).sum := by
        intro k hk
        have hk := Finset.mem_range.mp hk
        have hu : l.fid.uid = BitVec.ofNat 32 (k + 1) ↔ k = l.fid.uid.toNat - 1 := by
          rw [← BitVec.toNat_inj, BitVec.toNat_ofNat, Nat.mod_eq_of_lt (by omega)]
          have hpos : 0 < l.fid.uid.toNat := hpos
          omega
        by_cases h : l.fid.uid = BitVec.ofNat 32 (k + 1)
        · rw [if_pos (hu.mp h)]
          simp [legsTo, h]
        · rw [if_neg fun he => h (hu.mpr he)]
          simp [legsTo, h]
      have hmem : l.fid.uid.toNat - 1 ∈ Finset.range n := by
        have hpos : 0 < l.fid.uid.toNat := hpos
        have hle : l.fid.uid.toNat ≤ n := hle
        exact Finset.mem_range.mpr (by omega)
      rw [Finset.sum_congr rfl hone, Finset.sum_add_distrib, Finset.sum_ite_eq', if_pos hmem,
        ih fun l' hl' => hl l' (List.mem_cons_of_mem _ hl'), List.map_cons, List.sum_cons]

/-! ## What is relied on -/

/-- The other side of an execution is booked with the opposite sign. -/
structure Pit.TwoSided (P : Pit B A) : Prop where
  base : ∀ x s, (P.unxsExa x (P.contra s)).base = -(P.unxsExa x s).base
  term : ∀ x s, (P.unxsExa x (P.contra s)).term = -(P.unxsExa x s).term

/-- What is booked of executions for the one party they have. -/
def Pit.booked (P : Pit B A) (b : B) : List (UnxsExa A) := (P.execs b).map fun e => P.unxsExa e.x e.s

/-- Nothing is executed but in auctions, and what is executed in one adds up to zero. -/
structure Pit.Auctions (P : Pit B A) : Prop where
  make : P.execs P.makeClob = []
  add : ∀ b o, P.execs (P.clobAdd b o).2 = P.execs b
  del : ∀ b i, P.execs (P.clobDel b i).2 = P.execs b
  unxs : ∀ b, P.execs (P.unxsClr b) = []
  quos : ∀ b, P.execs (P.quosClr b) = P.execs b
  base : ∀ b, P.execs b = [] →
    ((P.booked (P.unxsAuction b (P.mmodAuction b).prc (P.mmodAuction b).qty)).map UnxsExa.base).sum = 0
  term : ∀ b, P.execs b = [] →
    ((P.booked (P.unxsAuction b (P.mmodAuction b).prc (P.mmodAuction b).qty)).map UnxsExa.term).sum = 0

/-- **What is relied on** of executions. -/
def Pit.Fair (P : Pit B A) : Daemon → Prop
  | .lobot => P.TwoSided
  | .cabot => P.Auctions

/-! ## Sweeps -/

section Sweeps

variable {d : Daemon} {P : Pit B A} {I : Instruments} {h : Hall B A} {w : Sweep B A}

theorem sweep_books (w : Sweep B A) (h : Hall B A) : (h.sweep P I w).books = h.books.map w.book := by
  show (h.books.take h.books.length).map w.book ++ h.books.drop h.books.length = _
  rw [List.take_length, List.drop_length, List.append_nil]

theorem sweep_acct (w : Sweep B A) (h : Hall B A) (v : Uid) (i : ℕ) : (h.sweep P I w).acct v i =
    (h.acct v i).plus (Leg.total (legsTo v ((h.books[i]?).elim [] w.legs))) := by
  show (h.acct v i).plus (Leg.total (legsTo v (((h.books.take h.books.length)[i]?).elim [] w.legs))) = _
  rw [List.take_length]

theorem sweep_legs (hw : w.Keeps d P) (hi : h.Inv d P I) (i : ℕ) : ∀ l ∈ (h.books[i]?).elim [] w.legs,
    Has h.users l.fid.usr := by
  intro l hl
  cases hb : h.books[i]? with
  | none =>
      rw [hb] at hl
      cases hl
  | some b =>
      rw [hb] at hl
      exact hw.legs _ b (hi.owned b (List.mem_of_getElem? hb)) l hl

theorem sweep_sum (hw : w.Keeps d P) (hi : h.Inv d P I) {f : UnxsExa A → A} (hadd : ∀ a b : UnxsExa A, f (a.plus b) = f a + f b)
    (htotal : ∀ ls, f (Leg.total ls) = (ls.map fun l => f l.amount).sum) (i : ℕ) :
    (h.sweep P I w).sum f i = h.sum f i + f (Leg.total ((h.books[i]?).elim [] w.legs)) := by
  rw [htotal, ← sum_legsTo _ hi.small (sweep_legs hw hi i), Hall.sum, Hall.sum, ← Finset.sum_add_distrib]
  refine Finset.sum_congr rfl fun k _ => ?_
  rw [sweep_acct, hadd, htotal]

theorem sweep_balanced (hw : w.Keeps d P) (hi : h.Inv d P I) (hb : h.Balanced)
    (heven : ∀ b ∈ h.books, Leg.total (w.legs b) = ⟨0, 0⟩) : (h.sweep P I w).Balanced := by
  have htotal : ∀ i : ℕ, Leg.total ((h.books[i]?).elim [] w.legs) = ⟨0, 0⟩ := by
    intro i
    cases hi : h.books[i]? with
    | none => rfl
    | some b => exact heven b (List.mem_of_getElem? hi)
  refine ⟨fun i => ?_, fun i => ?_⟩
  · rw [sweep_sum hw hi (fun _ _ => rfl) (fun _ => rfl), htotal, hb.base]
    exact add_zero 0
  · rw [sweep_sum hw hi (fun _ _ => rfl) (fun _ => rfl), htotal, hb.term]
    exact add_zero 0

theorem total_append (ls ls' : List (Leg A)) : Leg.total (ls ++ ls') = (Leg.total ls).plus (Leg.total ls') := by
  simp [Leg.total, UnxsExa.plus]

theorem Pit.TwoSided.even (hP : P.TwoSided) (I : Instruments) (es : List (Exec A)) :
    Leg.total (es.flatMap (Daemon.lobot.legs (P.market I))) = ⟨0, 0⟩ := by
  induction es with
  | nil => rfl
  | cons e es ih =>
      have hone : Leg.total (Daemon.lobot.legs (P.market I) e) = ⟨0, 0⟩ := by
        simp [Leg.total, Daemon.legs, Exec.legs, Pit.market, hP.base, hP.term]
      rw [List.flatMap_cons, total_append, hone, ih]
      simp [UnxsExa.plus]

theorem booked_total (P : Pit B A) (I : Instruments) (b : B) :
    Leg.total ((P.execs b).flatMap (Daemon.cabot.legs (P.market I))) =
      ⟨((P.booked b).map UnxsExa.base).sum, ((P.booked b).map UnxsExa.term).sum⟩ := by
  have hmap : (P.execs b).flatMap (Daemon.cabot.legs (P.market I)) =
      (P.execs b).map fun e => ⟨e.maker, e.x, 0, P.unxsExa e.x e.s⟩ := List.map_eq_flatMap.symm
  rw [hmap, Leg.total, Pit.booked, List.map_map, List.map_map, List.map_map, List.map_map]
  rfl

end Sweeps

/-! ## The invariant -/

section Sound

variable {d : Daemon} {P : Pit B A} {I : Instruments} {h : Hall B A}

/-- **The invariant**: the accounts are balanced, and between auctions nothing is executed. -/
structure Hall.Sound (d : Daemon) (P : Pit B A) (h : Hall B A) : Prop where
  balanced : h.Balanced
  idle : d = .cabot → ∀ b ∈ h.books, P.execs b = []

theorem Pit.Auctions.after (hP : P.Auctions) (u : Uid) (b : B) (m : OBody Decimal64) :
    P.execs (Daemon.cabot.after P.toClob u b m) = P.execs b := by
  cases m with
  | ord o =>
      by_cases htyp : o.typ = clobTypeMkt ∨ o.typ = clobTypeLmt
      · rw [(answer_cabot [] htyp).2]
        exact hP.add b _
      · rw [(answer_rubbish .cabot P.toClob [] u b htyp).2]
  | can o => exact hP.del b o
  | _ => rfl

theorem enter_balanced (hi : h.Inv d P I) (hlt : h.users + 1 < 2 ^ 32) (hb : h.Balanced) :
    Hall.Balanced { h with users := h.users + 1 } := by
  have huid : (BitVec.ofNat 32 (h.users + 1)).toNat = h.users + 1 := by
    rw [BitVec.toNat_ofNat, Nat.mod_eq_of_lt hlt]
  have hzero : ∀ i, h.acct (BitVec.ofNat 32 (h.users + 1)) i = ⟨0, 0⟩ :=
    (hi.fresh _ (by rw [huid]; exact Nat.lt_succ_self _)).2
  refine ⟨fun i => ?_, fun i => ?_⟩
  · show ∑ k ∈ Finset.range (h.users + 1), _ = (0 : A)
    rw [Finset.sum_range_succ, hzero, add_zero]
    exact hb.base i
  · show ∑ k ∈ Finset.range (h.users + 1), _ = (0 : A)
    rw [Finset.sum_range_succ, hzero, add_zero]
    exact hb.term i

/-- **An auction**, from books in which nothing has been executed. -/
theorem auction_sound (hP : P.Honest .cabot) (hF : P.Auctions) (hi : h.Inv .cabot P I) (hs : h.Sound .cabot P) :
    (((h.sweep P I (aucs P)).sweep P I (settle .cabot P I)).sweep P I (clear P)).Sound .cabot P := by
  have hi₁ := sweep_keeps (aucs_keeps hP) hi
  have hb₁ := sweep_balanced (aucs_keeps hP) hi hs.balanced fun _ _ => rfl
  have hi₂ := sweep_keeps (settle_keeps hP I) hi₁
  have hb₂ := sweep_balanced (settle_keeps hP I) hi₁ hb₁ fun b hb => by
    rw [sweep_books] at hb
    obtain ⟨b₀, hb₀, rfl⟩ := List.mem_map.mp hb
    have hidle := hs.idle rfl b₀ hb₀
    show Leg.total ((P.execs _).flatMap (Daemon.cabot.legs (P.market I))) = _
    rw [booked_total]
    exact congrArg₂ UnxsExa.mk (hF.base b₀ hidle) (hF.term b₀ hidle)
  refine ⟨sweep_balanced (clear_keeps hP) hi₂ hb₂ fun _ _ => rfl, fun _ b hb => ?_⟩
  rw [sweep_books, sweep_books, List.map_map] at hb
  obtain ⟨b₀, -, rfl⟩ := List.mem_map.mp hb
  exact (hF.quos _).trans (hF.unxs _)

theorem hall_step_sound (hP : P.Honest d) (hF : P.Fair d) (hi : h.Inv d P I) (hs : h.Sound d P) {e : HallEvent}
    (ha : e.allowed d h) : (h.step d P I e).Sound d P := by
  cases e with
  | enter => exact ⟨enter_balanced hi ha hs.balanced, hs.idle⟩
  | ask u m =>
      show (h.ask d P I u m).Sound d P
      cases hb : h.books[hins I.hash I.insth m.ins]? with
      | none =>
          have hsame : h.ask d P I u m = h := by rw [Hall.ask, hb]
          rw [hsame]
          exact hs
      | some b =>
          rw [Hall.ask, hb]
          refine ⟨⟨hs.balanced.base, hs.balanced.term⟩, fun hd b' hb' => ?_⟩
          subst hd
          rcases List.mem_or_eq_of_mem_set hb' with hm | rfl
          · exact hs.idle rfl b' hm
          · exact (Pit.Auctions.after hF u b _).trans (hs.idle rfl b (List.mem_of_getElem? hb))
  | prep =>
      obtain rfl : d = .lobot := ha
      have hb₁ := sweep_balanced (settle_keeps hP I) hi hs.balanced fun b _ => Pit.TwoSided.even hF I (P.execs b)
      exact ⟨sweep_balanced (quotes_keeps hP) (sweep_keeps (settle_keeps hP I) hi) hb₁ fun _ _ => rfl,
        fun hd => Daemon.noConfusion hd⟩
  | beat =>
      cases d with
      | lobot => exact hs
      | cabot =>
          have hi' := hi.beat
          have hs' : Hall.Sound .cabot P { h with beats := h.beats + 1 } := ⟨⟨hs.balanced.base, hs.balanced.term⟩, hs.idle⟩
          unfold Hall.step
          dsimp only
          split_ifs
          · refine ⟨sweep_balanced imbs_keeps hi' hs'.balanced fun _ _ => rfl, fun hd b hb => ?_⟩
            rw [sweep_books] at hb
            obtain ⟨b₀, hb₀, rfl⟩ := List.mem_map.mp hb
            exact hs'.idle hd b₀ hb₀
          · exact auction_sound hP hF hi' hs'

theorem hall_sound (hP : P.Honest d) (hF : P.Fair d) {es : List HallEvent} (hr : (hallMachine d P I).Runs es h) :
    h.Inv d P I ∧ h.Sound d P := by
  refine hr.inv (P := fun h => h.Inv d P I ∧ h.Sound d P) ?_ ?_
  · rintro h rfl
    refine ⟨hall_inv hP (.start rfl), ⟨fun _ => rfl, fun _ => rfl⟩, fun hd b hb => ?_⟩
    subst hd
    rw [List.eq_of_mem_replicate hb]
    exact Pit.Auctions.make hF
  · rintro h e h' ⟨hi, hs⟩ ha hstep
    cases hstep
    exact ⟨hall_step hP hi ha, hall_step_sound hP hF hi hs ha⟩

end Sound

/-! ## The check -/

section Check

variable {d : Daemon} {P : Pit B A} {I : Instruments} {s : House B A} {h : Hall B A}

theorem shows_balanced (hs : s.Shows P I h) (hsmall : h.users < 2 ^ 32) (hb : h.Balanced) :
    s.users.Balanced (P.market I) := by
  have hcell : ∀ (f : UnxsExa A → A), ∀ j < (P.market I).NINSTR,
      colSum f s.users.accts (P.market I).NINSTR s.users.nuser j = h.sum f j := by
    intro f j hj
    rw [colSum, Hall.sum, hs.users]
    refine Finset.sum_congr rfl fun k hk => ?_
    have hk := Finset.mem_range.mp hk
    have huid : (BitVec.ofNat 32 (k + 1)).toNat = k + 1 := by
      rw [BitVec.toNat_ofNat, Nat.mod_eq_of_lt (by omega)]
    have hacct := hs.acct (BitVec.ofNat 32 (k + 1)) (uid_pos (by rw [huid]; exact Nat.succ_pos k)) (by rw [huid]; exact hk) j
      (by rwa [← P.market_NINSTR])
    rw [Users.acct, huid, Nat.add_sub_cancel] at hacct
    rw [cell, hacct]
    rfl
  exact ⟨hs.net.ok, fun j hj => (hcell _ j hj).trans (hb.base j), fun j hj => (hcell _ j hj).trans (hb.term j)⟩

variable [DecidableEq A]

theorem beat_check (P : Pit B A) (I : Instruments) (junk : ℕ → List UInt8) (s : House B A) :
    s.hbeatCb .cabot P I true junk = s.hbeatCb .cabot P I false junk >>= fun s' =>
      if s.n % 4 ≠ 0 then pure s' else chckAcct (P.market I) s'.users >>= fun _ => pure s' := by
  unfold House.hbeatCb
  by_cases hb : s.n % 4 ≠ 0
  · simp only [if_pos hb]
    exact (bind_pure _).symm
  · simp only [if_neg hb, bind_assoc]
    rfl

end Check

/-! ## Two bots at an auction -/

/-- Books in which the first bid and the first offer are executed in an auction, one for 100. -/
def sampleRing : Pit (List (ClobOrd Decimal64) × List (Exec ℤ)) ℤ :=
  { samplePit with
    unxsOrder := fun b o _ => (o, b)
    unxsAuction := fun b _ _ =>
      match b.1.find? fun r => r.sid == clobSideBid, b.1.find? fun r => r.sid == clobSideAsk with
      | some r, some q => ((b.1.erase r).erase q, b.2 ++
          [⟨⟨1, 100⟩, clobSideBid, ⟨r.typ, r.sid, 100, 1, r.usr⟩, ⟨0, 0, 0, 0, 0⟩⟩,
            ⟨⟨1, 100⟩, clobSideAsk, ⟨q.typ, q.sid, 100, 1, q.usr⟩, ⟨0, 0, 0, 0, 0⟩⟩])
      | _, _ => b }

theorem sampleRing_auction (b : List (ClobOrd Decimal64) × List (Exec ℤ)) (p q : Decimal64) :
    sampleRing.unxsAuction b p q = b ∨ ∃ r o, r ∈ b.1 ∧ o ∈ b.1 ∧ sampleRing.unxsAuction b p q =
      ((b.1.erase r).erase o, b.2 ++ [⟨⟨1, 100⟩, clobSideBid, ⟨r.typ, r.sid, 100, 1, r.usr⟩, ⟨0, 0, 0, 0, 0⟩⟩,
        ⟨⟨1, 100⟩, clobSideAsk, ⟨o.typ, o.sid, 100, 1, o.usr⟩, ⟨0, 0, 0, 0, 0⟩⟩]) := by
  cases hr : b.1.find? fun r => r.sid == clobSideBid with
  | none => exact .inl (by simp only [sampleRing, hr])
  | some r =>
      cases ho : b.1.find? fun r => r.sid == clobSideAsk with
      | none => exact .inl (by simp only [sampleRing, hr, ho])
      | some o =>
          exact .inr ⟨r, o, List.mem_of_find?_eq_some hr, List.mem_of_find?_eq_some ho, by simp only [sampleRing, hr, ho]⟩

theorem sampleRing_honest : sampleRing.Honest .cabot where
  make own := ⟨fun r hr => absurd hr List.not_mem_nil, fun e he => absurd he List.not_mem_nil⟩
  order own b o px ho hb := ⟨ho, hb⟩
  add own b o ho hb := ⟨fun r hr => (List.mem_append.mp hr).elim (hb.1 r) fun hr => List.mem_singleton.mp hr ▸ ho, hb.2⟩
  del own b i hb := hb
  auction own b p q hb := by
    rcases sampleRing_auction b p q with h | ⟨r, o, hr, ho, h⟩
    · rw [h]
      exact hb
    · rw [h]
      refine ⟨fun r' hr' => hb.1 r' (List.mem_of_mem_erase (List.mem_of_mem_erase hr')), fun e he =>
        ⟨?_, fun hd => Daemon.noConfusion hd⟩⟩
      rcases List.mem_append.mp he with he | he
      · exact (hb.2 e he).1
      · rcases List.mem_cons.mp he with rfl | he
        · exact hb.1 r hr
        · rw [List.mem_singleton.mp he]
          exact hb.1 o ho
  unxs own b hb := ⟨hb.1, fun e he => absurd he List.not_mem_nil⟩
  quos own b hb := hb

theorem sampleRing_fair : sampleRing.Fair .cabot := by
  have hbooked : ∀ b, sampleRing.execs b = [] → ∀ p q,
      sampleRing.booked (sampleRing.unxsAuction b p q) = [] ∨
        sampleRing.booked (sampleRing.unxsAuction b p q) = [⟨1, -100⟩, ⟨-1, 100⟩] := by
    intro b hb p q
    have hb : b.2 = [] := hb
    rcases sampleRing_auction b p q with h | ⟨r, o, -, -, h⟩
    · left
      rw [h]
      exact congrArg (List.map _) hb
    · right
      rw [h, hb]
      rfl
  refine ⟨rfl, fun _ _ => rfl, fun _ _ => rfl, fun _ => rfl, fun _ => rfl, fun b hb => ?_, fun b hb => ?_⟩
  · rcases hbooked b hb _ _ with h | h <;> rw [h] <;> rfl
  · rcases hbooked b hb _ _ with h | h <;> rw [h] <;> rfl

/-- Two bots connect, one sells, the other buys, and the auctioneer holds an auction. -/
def auctionEvents : List (HouseEvent ℤ) :=
  (sessionEvents.take 4) ++ [.beat fun _ => zeroStack]

end Unserlob
