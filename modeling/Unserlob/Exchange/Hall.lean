import Unserlob.Exchange.Batch

/-!
# What an exchange is for

Users ask for orders and have accounts; now and then something is done to all books at once. There are no tables
here, no buffers, no sockets and no loops.

* `Hall`: users, books, accounts, what users are told and what is published; `Sweep`, `Hall.sweep`: what is done to
  all books;
* `settle`, `quotes`, `imbs`, `aucs`, `clear`: the sweeps; `Hall.ask`, `Hall.step`, `hallMachine`: what happens;
* `Hall.turn`, `sweepTo_succ`, **`sweep_inv`**: a sweep is one turn after the other;
* `Pit.Owned`, `Pit.Honest`: what is relied on; `Knows`: who has been told an account;
* `Hall.Inv`, `turn_inv`, `ask_inv`, **`hall_inv`**: the invariant.
-/

namespace Unserlob

open Ascii Cursor Table

variable {A B : Type}

/-- What is done to every book: what is left of it, what is booked, and what is published under its name. -/
structure Sweep (B A : Type) where
  book : B → B
  legs : B → List (Leg A)
  news : List UInt8 → B → List (Qmsg Decimal64)

/-- An exchange: how many users there have been, the books, the accounts, what every user is told, what is published,
and how many heartbeats there have been. -/
@[ext]
structure Hall (B A : Type) where
  users : ℕ
  books : List B
  acct : Uid → ℕ → UnxsExa A
  told : Uid → List (Omsg Decimal64)
  pub : List (Qmsg Decimal64)
  beats : ℕ

/-! ## What happens -/

/-- A fill, and the account after it. -/
def notice (word : A → Decimal64) (nm : List UInt8) (y : Leg A × UnxsExa A) : List (Omsg Decimal64) :=
  [⟨nm, .fil (y.1.fid.map word) (y.1.x.map word) y.1.con⟩, ⟨nm, .acc (y.2.map word)⟩]

/-- What a user is told of legs that are booked on account `b`. -/
def notices [AddCommGroup A] (word : A → Decimal64) (nm : List UInt8) (b : UnxsExa A) (ls : List (Leg A)) :
    List (Omsg Decimal64) := (balances b ls).flatMap (notice word nm)

/-- What an order or a cancellation leaves of book `b`. -/
def Daemon.after (d : Daemon) (C : Clob B) (u : Uid) (b : B) : OBody Decimal64 → B
  | .ord o =>
    if ¬ (o.typ = clobTypeMkt ∨ o.typ = clobTypeLmt) then b
    else
      match d with
      | .lobot =>
        let (o, b) := C.unxsOrder b { o with usr := u.setWidth 64 } NAND64
        if sumGtZero o.qty.dis o.qty.hid then (C.clobAdd b o).2 else b
      | .cabot => (C.clobAdd b { o with usr := u.setWidth 64 }).2
  | .can o => (C.clobDel b o).2
  | _ => b

section Answers

variable {C : Clob B} {nm : List UInt8} {u : Uid} {b : B} {o : ClobOrd Decimal64}

theorem answer_rubbish (d : Daemon) (C : Clob B) (nm : List UInt8) (u : Uid) (b : B)
    (htyp : ¬ (o.typ = clobTypeMkt ∨ o.typ = clobTypeLmt)) :
    d.answer C nm u b (.ord o) = [] ∧ d.after C u b (.ord o) = b := ⟨if_pos htyp, if_pos htyp⟩

variable (nm) in
theorem answer_lobot {b' : B} {o' : ClobOrd Decimal64} (htyp : o.typ = clobTypeMkt ∨ o.typ = clobTypeLmt)
    (hx : C.unxsOrder b { o with usr := u.setWidth 64 } NAND64 = (o', b')) :
    (Daemon.lobot.answer C nm u b (.ord o) =
      if sumGtZero o'.qty.dis o'.qty.hid then [⟨nm, .oid (C.clobAdd b' o').1⟩] else []) ∧
    Daemon.lobot.after C u b (.ord o) = if sumGtZero o'.qty.dis o'.qty.hid then (C.clobAdd b' o').2 else b' := by
  rw [Daemon.answer, Daemon.after, if_neg (not_not.mpr htyp), if_neg (not_not.mpr htyp)]
  simp only [hx]
  exact ⟨trivial, trivial⟩

variable (nm) in
theorem answer_cabot (htyp : o.typ = clobTypeMkt ∨ o.typ = clobTypeLmt) : (Daemon.cabot.answer C nm u b (.ord o) =
      if (C.clobAdd b { o with usr := u.setWidth 64 }).1.qid ≠ 0 then
        [⟨nm, .oid (C.clobAdd b { o with usr := u.setWidth 64 }).1⟩] else []) ∧
    Daemon.cabot.after C u b (.ord o) = (C.clobAdd b { o with usr := u.setWidth 64 }).2 :=
  ⟨if_neg (not_not.mpr htyp), if_neg (not_not.mpr htyp)⟩

theorem answer_about {d : Daemon} {body : OBody Decimal64} {m : Omsg Decimal64} (h : m ∈ d.answer C nm u b body) :
    ∃ o, m.body = .oid o ∨ m.body = .kil o ∨ m.body = .nok o := by
  cases body with
  | ord o =>
      by_cases htyp : o.typ = clobTypeMkt ∨ o.typ = clobTypeLmt
      · cases d with
        | lobot =>
            rw [(answer_lobot nm htyp rfl).1] at h
            split_ifs at h
            · rw [List.mem_singleton.mp h]
              exact ⟨_, .inl rfl⟩
            · cases h
        | cabot =>
            rw [(answer_cabot nm htyp).1] at h
            split_ifs at h
            · rw [List.mem_singleton.mp h]
              exact ⟨_, .inl rfl⟩
            · cases h
      · rw [(answer_rubbish d C nm u b htyp).1] at h
        cases h
  | can o =>
      rw [List.mem_singleton.mp h]
      refine ⟨o, ?_⟩
      dsimp only
      split_ifs
      · exact .inr (.inr rfl)
      · exact .inr (.inl rfl)
  | _ => cases h

end Answers

section Hall

variable (d : Daemon) (P : Pit B A) (I : Instruments)

/-- Executions are booked and published as trades. -/
def settle : Sweep B A where
  book := P.unxsClr
  legs b := (P.execs b).flatMap (d.legs (P.market I))
  news nm b := (P.exe b).map fun x => ⟨nm, .tra ⟨nclobSides, x.prc, x.qty⟩⟩

/-- Quotes are published. -/
def quotes : Sweep B A := ⟨P.quosClr, fun _ => [], P.quotes⟩

/-- Quotes are dropped. -/
def clear : Sweep B A := ⟨P.quosClr, fun _ => [], fun _ _ => []⟩

/-- What an auction would come to is published. -/
def imbs : Sweep B A := ⟨id, fun _ => [], fun nm b => [⟨nm, .imb (P.mmodAuction b)⟩]⟩

/-- Auctions are held and published. -/
def aucs : Sweep B A where
  book b := P.unxsAuction b (P.mmodAuction b).prc (P.mmodAuction b).qty
  legs _ := []
  news nm b := [⟨nm, .auc (P.mmodAuction b)⟩]

/-- An order or a cancellation. -/
def Hall.ask (u : Uid) (m : Omsg Decimal64) (h : Hall B A) : Hall B A :=
  let i := hins I.hash I.insth m.ins
  match h.books[i]? with
  | none => h
  | some b =>
    { h with
      books := h.books.set i (d.after P.toClob u b m.body)
      told := fun v => if v = u then h.told v ++ d.answer P.toClob (I.name i) u b m.body else h.told v }

variable [AddCommGroup A]

/-- **The first `n` books, all at once.** Who has been booked on is told, with the account as it was before and all
legs up to the one that is told. -/
def Hall.sweepTo (w : Sweep B A) (n : ℕ) (h : Hall B A) : Hall B A where
  users := h.users
  books := (h.books.take n).map w.book ++ h.books.drop n
  acct v i := (h.acct v i).plus (Leg.total (legsTo v (((h.books.take n)[i]?).elim [] w.legs)))
  told v := h.told v ++ ((h.books.take n).mapIdx fun i b =>
    notices P.word (I.name i) (h.acct v i) (legsTo v (w.legs b))).flatten
  pub := h.pub ++ ((h.books.take n).mapIdx fun i b => w.news (I.name i) b).flatten
  beats := h.beats

/-- All books. -/
def Hall.sweep (w : Sweep B A) (h : Hall B A) : Hall B A := h.sweepTo P I w h.books.length

/-- A new user, an order or a cancellation, the end of a turn of the event loop, a heartbeat. -/
inductive HallEvent where
  | enter
  | ask (u : Uid) (m : Omsg Decimal64)
  | prep
  | beat

/-- The continuous exchange settles and publishes in front of every wait. The auctioneer says on three of four heartbeats
what an auction would come to, and on the other holds it. -/
def Hall.step : HallEvent → Hall B A → Hall B A
  | .enter, h => { h with users := h.users + 1 }
  | .ask u m, h => h.ask d P I u m
  | .prep, h => (h.sweep P I (settle .lobot P I)).sweep P I (quotes P)
  | .beat, h =>
    match d with
    | .lobot => h
    | .cabot =>
      let h' := { h with beats := h.beats + 1 }
      if h.beats % 4 ≠ 0 then h'.sweep P I (imbs P)
      else ((h'.sweep P I (aucs P)).sweep P I (settle .cabot P I)).sweep P I (clear P)

/-- There are at most as many users as uids, and who asks is one; only the continuous exchange has the watcher. -/
def HallEvent.allowed (h : Hall B A) : HallEvent → Prop
  | .enter => h.users + 1 < 2 ^ 32
  | .ask u _ => 0 < u.toNat ∧ u.toNat ≤ h.users
  | .prep => d = .lobot
  | .beat => True

def hallMachine : Run.Machine (Hall B A) HallEvent where
  init h := h = ⟨0, List.replicate I.NINSTR P.makeClob, fun _ _ => ⟨0, 0⟩, fun _ => [], [], 0⟩
  allowed h e := e.allowed d h
  step e h := .ok (h.step d P I e)

/-! ## One turn after the other -/

/-- One book. -/
def Hall.turn (w : Sweep B A) (i : ℕ) (b : B) (h : Hall B A) : Hall B A :=
  { h with
    books := h.books.set i (w.book b)
    acct := fun v j => if j = i then (h.acct v j).plus (Leg.total (legsTo v (w.legs b))) else h.acct v j
    told := fun v => h.told v ++ notices P.word (I.name i) (h.acct v i) (legsTo v (w.legs b))
    pub := h.pub ++ w.news (I.name i) b }

end Hall

section Turns

variable [AddCommGroup A] {P : Pit B A} {I : Instruments} {w : Sweep B A} {h : Hall B A} {n : ℕ} {b : B}

theorem sweepTo_zero (w : Sweep B A) (h : Hall B A) : h.sweepTo P I w 0 = h := by
  refine Hall.ext rfl rfl ?_ ?_ (List.append_nil _) rfl
  · funext v i
    exact plus_total_nil _
  · funext v
    exact List.append_nil _

theorem sweepTo_book (hb : h.books[n]? = some b) : (h.sweepTo P I w n).books[n]? = some b := by
  obtain ⟨hn, -⟩ := List.getElem?_eq_some_iff.mp hb
  have hlen : ((h.books.take n).map w.book).length = n := by
    rw [List.length_map, List.length_take, Nat.min_eq_left hn.le]
  show ((h.books.take n).map w.book ++ h.books.drop n)[n]? = some b
  rw [List.getElem?_append_right hlen.le, hlen, Nat.sub_self, List.getElem?_drop]
  exact hb

theorem sweepTo_succ (hb : h.books[n]? = some b) : h.sweepTo P I w (n + 1) = (h.sweepTo P I w n).turn P I w n b := by
  obtain ⟨hn, hget⟩ := List.getElem?_eq_some_iff.mp hb
  have hlen : (h.books.take n).length = n := by rw [List.length_take, Nat.min_eq_left hn.le]
  have htake : h.books.take (n + 1) = h.books.take n ++ [b] := by rw [List.take_add_one, hb]; rfl
  have hdrop : h.books.drop n = b :: h.books.drop (n + 1) := by rw [List.drop_eq_getElem_cons hn, hget]
  have hnone : (h.books.take n)[n]? = none := List.getElem?_eq_none hlen.le
  refine Hall.ext rfl ?_ ?_ ?_ ?_ rfl
  · show (h.books.take (n + 1)).map w.book ++ h.books.drop (n + 1) =
      ((h.books.take n).map w.book ++ h.books.drop n).set n (w.book b)
    rw [htake, hdrop, List.map_append, List.append_assoc, List.set_append_right _ _ (by rw [List.length_map, hlen]),
      List.length_map, hlen, Nat.sub_self]
    rfl
  · funext v j
    show (h.acct v j).plus (Leg.total (legsTo v (((h.books.take (n + 1))[j]?).elim [] w.legs))) =
      if j = n then ((h.acct v j).plus (Leg.total (legsTo v (((h.books.take n)[j]?).elim [] w.legs)))).plus
        (Leg.total (legsTo v (w.legs b)))
      else (h.acct v j).plus (Leg.total (legsTo v (((h.books.take n)[j]?).elim [] w.legs)))
    rw [htake]
    by_cases hj : j = n
    · subst hj
      have hempty : legsTo v ([] : List (Leg A)) = [] := rfl
      rw [if_pos rfl, hnone, Option.elim_none, hempty, plus_total_nil, List.getElem?_append_right hlen.le, hlen,
        Nat.sub_self]
      rfl
    · rw [if_neg hj]
      rcases Nat.lt_or_gt_of_ne hj with hlt | hgt
      · rw [List.getElem?_append_left (by rw [hlen]; exact hlt)]
      · rw [List.getElem?_eq_none (by rw [List.length_append, hlen]; exact hgt),
          List.getElem?_eq_none (by rw [hlen]; exact hgt.le)]
  · funext v
    have hacct : (h.sweepTo P I w n).acct v n = h.acct v n := by
      show (h.acct v n).plus (Leg.total (legsTo v (((h.books.take n)[n]?).elim [] w.legs))) = _
      rw [hnone]
      exact plus_total_nil _
    show h.told v ++ _ = h.told v ++ _ ++ notices P.word (I.name n) ((h.sweepTo P I w n).acct v n) _
    rw [hacct, htake, List.mapIdx_concat, List.flatten_append, List.flatten_singleton, hlen, List.append_assoc]
  · show h.pub ++ _ = h.pub ++ _ ++ _
    rw [htake, List.mapIdx_concat, List.flatten_append, List.flatten_singleton, hlen, List.append_assoc]

theorem sweep_inv {Q : Hall B A → Prop} (h0 : Q h)
    (hturn : ∀ i b h, Q h → h.books[i]? = some b → Q (h.turn P I w i b)) : Q (h.sweep P I w) := by
  have hall : ∀ n ≤ h.books.length, Q (h.sweepTo P I w n) := by
    intro n
    induction n with
    | zero =>
        intro _
        rw [sweepTo_zero]
        exact h0
    | succ n ih =>
        intro hn
        have hb := List.getElem?_eq_getElem (l := h.books) (show n < h.books.length from hn)
        rw [sweepTo_succ hb]
        exact hturn n _ _ (ih (by omega)) (sweepTo_book hb)
  exact hall _ le_rfl

end Turns

/-! ## What is relied on -/

/-- The user of an order is one of the first `n`. -/
def Has (n : ℕ) (usr : BitVec 64) : Prop := 0 < (usr.setWidth 32 : Uid).toNat ∧ (usr.setWidth 32 : Uid).toNat ≤ n

/-- What rests in a book and what has been executed is of users `own`. -/
def Pit.Owned (P : Pit B A) (d : Daemon) (own : BitVec 64 → Prop) (b : B) : Prop :=
  (∀ r ∈ P.orders b, own r.usr) ∧ ∀ e ∈ P.execs b, own e.maker.usr ∧ (d = .lobot → own e.taker.usr)

/-- **What is relied on.** Orders and executions are of nobody but those who have placed orders. -/
structure Pit.Honest (P : Pit B A) (d : Daemon) : Prop where
  make : ∀ own, P.Owned d own P.makeClob
  order : ∀ own b o px, own o.usr → P.Owned d own b →
    own (P.unxsOrder b o px).1.usr ∧ P.Owned d own (P.unxsOrder b o px).2
  add : ∀ own b o, own o.usr → P.Owned d own b → P.Owned d own (P.clobAdd b o).2
  del : ∀ own b i, P.Owned d own b → P.Owned d own (P.clobDel b i).2
  auction : ∀ own b p q, P.Owned d own b → P.Owned d own (P.unxsAuction b p q)
  unxs : ∀ own b, P.Owned d own b → P.Owned d own (P.unxsClr b)
  quos : ∀ own b, P.Owned d own b → P.Owned d own (P.quosClr b)

theorem Pit.Owned.mono {P : Pit B A} {d : Daemon} {own own' : BitVec 64 → Prop} {b : B} (h : P.Owned d own b)
    (ho : ∀ usr, own usr → own' usr) : P.Owned d own' b :=
  ⟨fun r hr => ho _ (h.1 r hr), fun e he => ⟨ho _ (h.2 e he).1, fun hd => ho _ ((h.2 e he).2 hd)⟩⟩

theorem Pit.Owned.legs {P : Pit B A} {d : Daemon} {own : BitVec 64 → Prop} {b : B} (h : P.Owned d own b) (M : Market A) :
    ∀ l ∈ (P.execs b).flatMap (d.legs M), own l.fid.usr := by
  intro l hl
  obtain ⟨e, he, hl⟩ := List.mem_flatMap.mp hl
  obtain ⟨hm, ht⟩ := h.2 e he
  cases d with
  | lobot =>
      rcases List.mem_cons.mp hl with rfl | hl
      · exact hm
      · rw [List.mem_singleton.mp hl]
        exact ht rfl
  | cabot =>
      rw [List.mem_singleton.mp hl]
      exact hm

section Honest

variable {d : Daemon} {P : Pit B A}

/-- **An order or a cancellation** leaves nothing of others. -/
theorem Pit.Honest.after (hP : P.Honest d) {own : BitVec 64 → Prop} {u : Uid} (hu : own (u.setWidth 64)) {b : B}
    (hb : P.Owned d own b) (m : OBody Decimal64) : P.Owned d own (d.after P.toClob u b m) := by
  cases m with
  | ord o =>
      by_cases htyp : o.typ = clobTypeMkt ∨ o.typ = clobTypeLmt
      · cases d with
        | lobot =>
            obtain ⟨ho, hb'⟩ := hP.order own b { o with usr := u.setWidth 64 } NAND64 hu hb
            rw [(answer_lobot [] htyp rfl).2]
            split_ifs
            · exact hP.add own _ _ ho hb'
            · exact hb'
        | cabot =>
            rw [(answer_cabot [] htyp).2]
            exact hP.add own b _ hu hb
      · rw [(answer_rubbish d P.toClob [] u b htyp).2]
        exact hb
  | can o => exact hP.del own b o hb
  | _ => exact hb

/-- A sweep leaves nothing of others, and books on nobody else. -/
structure Sweep.Keeps (w : Sweep B A) (d : Daemon) (P : Pit B A) : Prop where
  book : ∀ own b, P.Owned d own b → P.Owned d own (w.book b)
  legs : ∀ own b, P.Owned d own b → ∀ l ∈ w.legs b, own l.fid.usr

theorem settle_keeps (hP : P.Honest d) (I : Instruments) : (settle d P I).Keeps d P :=
  ⟨hP.unxs, fun _ _ hb => hb.legs _⟩

theorem quotes_keeps (hP : P.Honest d) : (quotes P).Keeps d P := ⟨hP.quos, nofun⟩

theorem clear_keeps (hP : P.Honest d) : (clear P).Keeps d P := ⟨hP.quos, nofun⟩

theorem imbs_keeps : (imbs P).Keeps d P := ⟨fun _ _ hb => hb, nofun⟩

theorem aucs_keeps (hP : P.Honest d) : (aucs P).Keeps d P := ⟨fun own b hb => hP.auction own b _ _ hb, nofun⟩

end Honest

/-! ## The invariant -/

/-- The account of an instrument that a message tells. -/
def accountTold (nm : List UInt8) (m : Omsg Decimal64) : Option (UnxsExa Decimal64) :=
  match m.body with
  | .acc a => if m.ins = nm then some a else none
  | _ => none

/-- **Who has been told these messages knows the account**: it is what was told last, or nothing was and it is empty. -/
def Knows [AddCommGroup A] (word : A → Decimal64) (nm : List UInt8) (ms : List (Omsg Decimal64)) (a : UnxsExa A) : Prop :=
  (ms.filterMap (accountTold nm)).getLast? = some (a.map word) ∨ ms.filterMap (accountTold nm) = [] ∧ a = ⟨0, 0⟩

theorem answer_account (d : Daemon) (C : Clob B) (nm : List UInt8) (u : Uid) (b : B) (body : OBody Decimal64)
    (nm' : List UInt8) : (d.answer C nm u b body).filterMap (accountTold nm') = [] := by
  refine List.filterMap_eq_nil_iff.mpr fun m hm => ?_
  obtain ⟨o, ho | ho | ho⟩ := answer_about hm
  all_goals
    rw [accountTold, ho]

section Invariant

variable [AddCommGroup A]

theorem Knows.append {word : A → Decimal64} {nm : List UInt8} {ms more : List (Omsg Decimal64)} {a : UnxsExa A}
    (h : Knows word nm ms a) (accs : List (UnxsExa A))
    (hmore : more.filterMap (accountTold nm) = accs.map (UnxsExa.map word)) :
    Knows word nm (ms ++ more) (accs.getLast?.getD a) := by
  unfold Knows at h ⊢
  rw [List.filterMap_append, hmore, List.getLast?_append, List.getLast?_map]
  rcases List.eq_nil_or_concat' accs with rfl | ⟨front, x, rfl⟩
  · simpa using h
  · simp

theorem balances_getLast (b : UnxsExa A) (ls : List (Leg A)) :
    ((balances b ls).map Prod.snd).getLast?.getD b = b.plus (Leg.total ls) := by
  rcases List.eq_nil_or_concat' ls with rfl | ⟨front, l, rfl⟩
  · exact (plus_total_nil b).symm
  · rw [balances_append, balances_singleton, List.map_append, List.map_singleton, List.getLast?_concat, plus_total_append,
      plus_total_singleton]
    rfl

theorem notices_account (word : A → Decimal64) (nm nm' : List UInt8) (b : UnxsExa A) (ls : List (Leg A)) :
    (notices word nm b ls).filterMap (accountTold nm') =
      if nm = nm' then ((balances b ls).map Prod.snd).map (UnxsExa.map word) else [] := by
  unfold notices
  induction balances b ls with
  | nil => exact (ite_self _).symm
  | cons y ys ih =>
      rw [List.flatMap_cons, List.filterMap_append, ih, notice, List.filterMap_cons_none rfl]
      by_cases h : nm = nm'
      · rw [if_pos h, if_pos h, List.filterMap_cons_some (show accountTold nm' ⟨nm, .acc (y.2.map word)⟩ = _ from if_pos h)]
        rfl
      · rw [if_neg h, if_neg h, List.filterMap_cons_none (show accountTold nm' ⟨nm, .acc (y.2.map word)⟩ = _ from if_neg h)]
        rfl

/-- **The invariant**: orders are of users, nothing is told to anybody else, and who has been told everything knows the
accounts. -/
structure Hall.Inv (d : Daemon) (P : Pit B A) (I : Instruments) (h : Hall B A) : Prop where
  small : h.users < 2 ^ 32
  length : h.books.length = I.NINSTR
  owned : ∀ b ∈ h.books, P.Owned d (Has h.users) b
  fresh : ∀ v : Uid, h.users < v.toNat → h.told v = [] ∧ ∀ i, h.acct v i = ⟨0, 0⟩
  knows : ∀ v, ∀ i < I.NINSTR, I.Once i → Knows P.word (I.name i) (h.told v) (h.acct v i)

variable {d : Daemon} {P : Pit B A} {I : Instruments} {h : Hall B A}

theorem Hall.Inv.beat (hi : h.Inv d P I) : Hall.Inv d P I { h with beats := h.beats + 1 } :=
  ⟨hi.small, hi.length, hi.owned, hi.fresh, hi.knows⟩

omit [AddCommGroup A] in
theorem legsTo_fresh {ls : List (Leg A)} {n : ℕ} (hl : ∀ l ∈ ls, Has n l.fid.usr) {v : Uid} (hv : n < v.toNat) :
    legsTo v ls = [] := by
  refine List.filter_eq_nil_iff.mpr fun l hm he => ?_
  have hle : l.fid.uid.toNat ≤ n := (hl l hm).2
  rw [of_decide_eq_true he] at hle
  omega

theorem turn_inv {w : Sweep B A} (hw : w.Keeps d P) (hi : h.Inv d P I) {i : ℕ} {b : B} (hb : h.books[i]? = some b) :
    (h.turn P I w i b).Inv d P I := by
  have hown := hi.owned b (List.mem_of_getElem? hb)
  have hlt : i < I.NINSTR := by
    rw [← hi.length]
    exact (List.getElem?_eq_some_iff.mp hb).1
  refine ⟨hi.small, (List.length_set).trans hi.length, fun b' hb' => ?_, fun v hv => ?_, fun v j hj hone => ?_⟩
  · rcases List.mem_or_eq_of_mem_set hb' with hm | rfl
    · exact hi.owned b' hm
    · exact hw.book _ b hown
  · obtain ⟨ht, ha⟩ := hi.fresh v hv
    have hnone := legsTo_fresh (hw.legs _ b hown) hv
    refine ⟨?_, fun j => ?_⟩
    · show h.told v ++ notices P.word (I.name i) (h.acct v i) (legsTo v (w.legs b)) = []
      rw [ht, hnone]
      rfl
    · show (if j = i then (h.acct v j).plus (Leg.total (legsTo v (w.legs b))) else h.acct v j) = _
      rw [hnone, plus_total_nil, ite_self]
      exact ha j
  · have hk := hi.knows v j hj hone
    show Knows P.word (I.name j) (h.told v ++ notices P.word (I.name i) (h.acct v i) (legsTo v (w.legs b)))
      (if j = i then (h.acct v j).plus (Leg.total (legsTo v (w.legs b))) else h.acct v j)
    by_cases hji : j = i
    · subst hji
      rw [if_pos rfl, ← balances_getLast]
      refine hk.append _ ?_
      rw [notices_account, if_pos rfl]
    · rw [if_neg hji]
      refine hk.append [] ?_
      rw [notices_account, if_neg fun he => hji (hone i hlt he).symm]
      rfl

theorem sweep_keeps {w : Sweep B A} (hw : w.Keeps d P) (hi : h.Inv d P I) : (h.sweep P I w).Inv d P I :=
  sweep_inv hi fun _ _ _ hi hb => turn_inv hw hi hb

theorem ask_inv (hP : P.Honest d) (hi : h.Inv d P I) {u : Uid} (hpos : 0 < u.toNat) (hle : u.toNat ≤ h.users)
    (m : Omsg Decimal64) : (h.ask d P I u m).Inv d P I := by
  cases hb : h.books[hins I.hash I.insth m.ins]? with
  | none =>
      have hsame : h.ask d P I u m = h := by rw [Hall.ask, hb]
      rw [hsame]
      exact hi
  | some b =>
      have hown : Has h.users (u.setWidth 64) := by
        have hw : ((u.setWidth 64).setWidth 32 : Uid) = u := by
          rw [BitVec.setWidth_setWidth_of_le _ (by decide), BitVec.setWidth_eq]
        unfold Has
        rw [hw]
        exact ⟨hpos, hle⟩
      rw [Hall.ask, hb]
      refine ⟨hi.small, (List.length_set).trans hi.length, fun b' hb' => ?_, fun v hv => ?_, fun v j hj hone => ?_⟩
      · rcases List.mem_or_eq_of_mem_set hb' with hm | rfl
        · exact hi.owned b' hm
        · exact hP.after hown (hi.owned b (List.mem_of_getElem? hb)) _
      · obtain ⟨ht, ha⟩ := hi.fresh v hv
        have hne : v ≠ u := by
          rintro rfl
          exact absurd hle (Nat.not_le.mpr hv)
        exact ⟨(if_neg hne).trans ht, ha⟩
      · have hk := hi.knows v j hj hone
        dsimp only
        split_ifs
        · exact hk.append [] (answer_account d P.toClob _ u b _ _)
        · exact hk

theorem hall_step (hP : P.Honest d) (hi : h.Inv d P I) {e : HallEvent} (ha : e.allowed d h) :
    (h.step d P I e).Inv d P I := by
  cases e with
  | enter =>
      exact ⟨ha, hi.length, fun b hb => (hi.owned b hb).mono fun usr hu => ⟨hu.1, hu.2.trans (Nat.le_succ _)⟩,
        fun v hv => hi.fresh v ((Nat.lt_succ_self _).trans hv), hi.knows⟩
  | ask u m => exact ask_inv hP hi ha.1 ha.2 m
  | prep =>
      obtain rfl : d = .lobot := ha
      exact sweep_keeps (quotes_keeps hP) (sweep_keeps (settle_keeps hP I) hi)
  | beat =>
      cases d with
      | lobot => exact hi
      | cabot =>
          have hi' := hi.beat
          unfold Hall.step
          dsimp only
          split_ifs
          · exact sweep_keeps imbs_keeps hi'
          · exact sweep_keeps (clear_keeps hP) (sweep_keeps (settle_keeps hP I) (sweep_keeps (aucs_keeps hP) hi'))

theorem hall_inv (hP : P.Honest d) {es : List HallEvent} (hr : (hallMachine d P I).Runs es h) : h.Inv d P I := by
  refine hr.inv (P := fun h => h.Inv d P I) ?_ ?_
  · rintro h rfl
    exact ⟨Nat.two_pow_pos 32, List.length_replicate, fun b hb => by rw [List.eq_of_mem_replicate hb]; exact hP.make _,
      fun _ _ => ⟨rfl, fun _ => rfl⟩, fun _ _ _ _ => .inr ⟨rfl, rfl⟩⟩
  · rintro h e h' hi ha hs
    cases hs
    exact hall_step hP hi ha

end Invariant

end Unserlob
