import Unserlob.Exchange.Accounts

/-!
# Statements of account (`diss_exe`, `add_acct`)

With every fill goes the account it has been booked on. Both accounts of an execution are booked
before either party is told, and a party may be both.

* `Leg`, `Exec.legs`, `legsOf`: what a batch of executions books, and what of it is a user's;
* `Leg.total`, `balances`: amounts added up, and the balances after every leg; `balances_append`;
* `sentTo`: the lines a batch sends to a user;
* `Booked`, `addAcct_booked`: one leg; `Stated`: what is wanted of a batch; **`dissOne_stated`**;
* **`diss_stated`**: every line tells the balance before the batch and the legs up to it; `runs_ok`.
-/

namespace Unserlob

open Cursor Table

variable {A : Type}

/-! ## Legs -/

/-- One side of an execution: its order, the other party, and what is booked. -/
structure Leg (A : Type) where
  fid : ClobOid A
  x : UnxsExe A
  con : Uid
  amount : UnxsExa A

/-- What an execution books: the maker's leg, then the taker's. -/
def Exec.legs (M : Market A) (e : Exec A) : List (Leg A) :=
  [⟨e.maker, e.x, e.taker.uid, M.unxsExa e.x e.s⟩, ⟨e.taker, e.x, e.maker.uid, M.unxsExa e.x (M.contra e.s)⟩]

/-- The legs of a user in a batch, in the order of the executions. -/
def legsOf (M : Market A) (v : Uid) (es : List (Exec A)) : List (Leg A) :=
  (es.flatMap (Exec.legs M)).filter fun l => l.fid.uid = v

theorem legsOf_singleton (M : Market A) (v : Uid) (e : Exec A) : legsOf M v [e] =
    (if e.maker.uid = v then [⟨e.maker, e.x, e.taker.uid, M.unxsExa e.x e.s⟩] else []) ++
      if e.taker.uid = v then [⟨e.taker, e.x, e.maker.uid, M.unxsExa e.x (M.contra e.s)⟩] else [] := by
  by_cases hm : e.maker.uid = v <;> by_cases ht : e.taker.uid = v <;>
    simp [legsOf, Exec.legs, hm, ht]

theorem legsOf_cons (M : Market A) (v : Uid) (e : Exec A) (es : List (Exec A)) :
    legsOf M v (e :: es) = legsOf M v [e] ++ legsOf M v es := by
  simp only [legsOf, List.flatMap_cons, List.flatMap_nil, List.append_nil, List.filter_append]

/-- The account of a user in an instrument. -/
def Users.acct (M : Market A) (u : Users A) (v : Uid) (ins : ℕ) : Option (UnxsExa A) :=
  u.accts[(v.toNat - 1) * M.NINSTR + ins]?

/-- The parties of an execution are users, or nobody. -/
def Exec.Known (e : Exec A) (u : Users A) : Prop :=
  e.maker.uid.toNat ≤ u.nuser ∧ e.taker.uid.toNat ≤ u.nuser

instance (e : Exec A) (u : Users A) : Decidable (e.Known u) :=
  inferInstanceAs (Decidable (_ ∧ _))

/-! ## Balances -/

section Balances

variable [AddCommGroup A]

/-- The amounts of the legs, added up. -/
def Leg.total (ls : List (Leg A)) : UnxsExa A :=
  ⟨(ls.map fun l => l.amount.base).sum, (ls.map fun l => l.amount.term).sum⟩

/-- Every leg with the balance after it: the balance before all of them and the amounts up to it. -/
def balances (b : UnxsExa A) (ls : List (Leg A)) : List (Leg A × UnxsExa A) :=
  ls.mapIdx fun k l => (l, b.plus (Leg.total (ls.take (k + 1))))

variable (b : UnxsExa A) (l : Leg A) (ls ls' : List (Leg A))

@[simp] theorem plus_total_nil : b.plus (Leg.total []) = b := by
  simp [Leg.total, UnxsExa.plus]

theorem plus_total_append : b.plus (Leg.total (ls ++ ls')) = (b.plus (Leg.total ls)).plus (Leg.total ls') := by
  simp [Leg.total, UnxsExa.plus, add_assoc]

@[simp] theorem plus_total_singleton : b.plus (Leg.total [l]) = b.plus l.amount := by
  simp [Leg.total, UnxsExa.plus]

@[simp] theorem balances_singleton : balances b [l] = [(l, b.plus l.amount)] := by
  simp [balances]

theorem balances_append : balances b (ls ++ ls') = balances b ls ++ balances (b.plus (Leg.total ls)) ls' := by
  rw [balances, List.mapIdx_append]
  refine congrArg₂ _ ?_ ?_
  · refine List.mapIdx_eq_mapIdx_iff.mpr fun k hk => ?_
    rw [List.take_append_of_le_length hk]
  · refine List.mapIdx_eq_mapIdx_iff.mpr fun k _ => ?_
    have hk : k + ls.length + 1 = ls.length + (k + 1) := by omega
    rw [hk, List.take_length_add_append, plus_total_append]

theorem balances_last {x : Leg A × UnxsExa A} (hx : x ∈ (balances b ls).getLast?) : x.2 = b.plus (Leg.total ls) := by
  rcases List.eq_nil_or_concat' ls with rfl | ⟨front, l, rfl⟩
  · cases hx
  · rw [balances_append, balances_singleton, List.getLast?_concat] at hx
    cases hx
    rw [plus_total_append, plus_total_singleton]

end Balances

/-! ## What is sent -/

/-- The lines given to `send` for a user, with their socket. -/
def Out.sentTo (v : Uid) : Out A → List (ℤ × Omsg A)
  | .fill fd usr fil acc => if usr = v then [(fd, fil), (fd, acc)] else []
  | _ => []

/-- The lines a batch sends to a user. -/
def sentTo (v : Uid) (o : List (Out A)) : List (ℤ × Omsg A) := o.flatMap (Out.sentTo v)

/-- A fill and, right behind it, the account it has been booked on. -/
def statement (M : Market A) (ins : ℕ) (fd : ℤ) (y : Leg A × UnxsExa A) : List (ℤ × Omsg A) :=
  [(fd, ⟨M.name ins, .fil y.1.fid y.1.x y.1.con⟩), (fd, ⟨M.name ins, .acc y.2⟩)]

variable {M : Market A} {ins : ℕ} {u u' : Users A}

theorem sentTo_append (v : Uid) (o o' : List (Out A)) : sentTo v (o ++ o') = sentTo v o ++ sentTo v o' :=
  List.flatMap_append

theorem sentTo_trades (v : Uid) (es : List (Exec A)) : sentTo v (trades M ins es) = [] := by
  induction es with
  | nil => rfl
  | cons e es ih => exact ih

theorem tell_stated (h : u.Ok M) (ins : ℕ) (l : Leg A) (hl : l.fid.uid.toNat ≤ u.nuser) (a : UnxsExa A) :
    ∃ o, tell M ins u l.fid l.x l.con a = .ok o ∧ ∀ v fd, u.socks[v.toNat - 1]? = some fd → v ≠ 0 →
      sentTo v o = if l.fid.uid = v then statement M ins fd (l, a) else [] := by
  obtain ⟨fd₀, hs, hsock⟩ : ∃ fd, userSock u l.fid.uid = .ok fd ∧
      (l.fid.uid ≠ 0 → u.socks[l.fid.uid.toNat - 1]? = some fd) := by
    by_cases h0 : l.fid.uid = 0
    · exact ⟨-1, if_pos h0, fun hne => absurd h0 hne⟩
    · have hpos : 0 < l.fid.uid.toNat := Nat.pos_of_ne_zero fun hz => h0 (BitVec.eq_of_toNat_eq hz)
      obtain ⟨fd, hfd, hu⟩ := userSock_spec h hpos hl
      exact ⟨fd, hu, fun _ => hfd⟩
  refine ⟨_, by rw [tell, hs]; rfl, fun v fd hfd hv => ?_⟩
  change (if l.fid.uid = v then _ else []) ++ [] = _
  rw [List.append_nil]
  split_ifs with hlv
  · subst hlv
    rw [hsock hv] at hfd
    cases hfd
    rfl
  · rfl

variable [AddCommGroup A]

/-- `u'` is `u` but for the account of `uid`, which has grown by `a` and is returned. -/
structure Booked (M : Market A) (ins : ℕ) (uid : Uid) (a : UnxsExa A) (u : Users A) (r : UnxsExa A)
    (u' : Users A) : Prop where
  ok : u'.Ok M
  nuser : u'.nuser = u.nuser
  socks : u'.socks = u.socks
  acct : ∀ v b, v ≠ 0 → u.acct M v ins = some b →
    u'.acct M v ins = some (if uid = v then b.plus a else b) ∧ (uid = v → r = b.plus a)

/-- **`add_acct` books one leg**, and nothing for nobody. -/
theorem addAcct_booked (h : u.Ok M) (hi : ins < M.NINSTR) {uid : Uid} (hn : uid.toNat ≤ u.nuser)
    (a : UnxsExa A) : ∃ r u', addAcct M uid ins a u = .ok (r, u') ∧ Booked M ins uid a u r u' := by
  by_cases h0 : uid = 0
  · refine ⟨⟨0, 0⟩, u, if_pos h0, h, rfl, rfl, fun v b hv hb => ?_⟩
    have hne : uid ≠ v := fun he => hv (he.symm.trans h0)
    exact ⟨by rw [if_neg hne, hb], fun he => absurd he hne⟩
  · have hpos : 0 < uid.toNat := Nat.pos_of_ne_zero fun hz => h0 (BitVec.eq_of_toNat_eq hz)
    obtain ⟨hlt, c, hc, hadd⟩ := addAcct_spec h hpos hn hi a
    refine ⟨_, _, hadd, ⟨h.room, h.socks, (List.length_set).trans h.accts⟩, rfl, rfl, fun v b hv hb => ?_⟩
    by_cases he : uid = v
    · subst he
      obtain rfl : c = b := Option.some.inj (hc.symm.trans hb)
      rw [if_pos rfl]
      exact ⟨List.getElem?_set_self hlt, fun _ => rfl⟩
    · have hslot : (uid.toNat - 1) * M.NINSTR + ins ≠ (v.toNat - 1) * M.NINSTR + ins := fun hs => by
        have hrow := (slot_inj hi hi hs).1
        have hvpos : 0 < v.toNat := Nat.pos_of_ne_zero fun hz => hv (BitVec.eq_of_toNat_eq hz)
        exact he (BitVec.eq_of_toNat_eq (by omega))
      rw [if_neg he]
      exact ⟨(List.getElem?_set_ne hslot).trans hb, fun hv => absurd hv he⟩

/-- **What is wanted of a batch**: a user is told every leg of theirs, one after the other, with the
balance after it, and the balance after the last of them is stored. -/
structure Stated (M : Market A) (ins : ℕ) (es : List (Exec A)) (u : Users A) (o : List (Out A))
    (u' : Users A) : Prop where
  ok : u'.Ok M
  nuser : u'.nuser = u.nuser
  socks : u'.socks = u.socks
  acct : ∀ v b, v ≠ 0 → u.acct M v ins = some b →
    u'.acct M v ins = some (b.plus (Leg.total (legsOf M v es)))
  sent : ∀ v fd b, v ≠ 0 → u.socks[v.toNat - 1]? = some fd → u.acct M v ins = some b →
    sentTo v o = (balances b (legsOf M v es)).flatMap (statement M ins fd)

/-- **One execution**, whose parties may be the same user. -/
theorem dissOne_stated (h : u.Ok M) (hi : ins < M.NINSTR) {e : Exec A} (he : e.Known u) :
    ∃ o u', dissOne M ins e u = .ok (o, u') ∧ Stated M ins [e] u o u' := by
  obtain ⟨sa, w, hw, hm⟩ := addAcct_booked h hi he.1 (M.unxsExa e.x e.s)
  obtain ⟨ca, u', hu, ht⟩ := addAcct_booked hm.ok hi (by rw [hm.nuser]; exact he.2)
    (M.unxsExa e.x (M.contra e.s))
  have hn : u'.nuser = u.nuser := ht.nuser.trans hm.nuser
  have hsk : u'.socks = u.socks := ht.socks.trans hm.socks
  obtain ⟨so, hso, hst⟩ := tell_stated ht.ok ins ⟨e.maker, e.x, e.taker.uid, M.unxsExa e.x e.s⟩
    (by rw [hn]; exact he.1) sa
  obtain ⟨co, hco, hct⟩ := tell_stated ht.ok ins ⟨e.taker, e.x, e.maker.uid, M.unxsExa e.x (M.contra e.s)⟩
    (by rw [hn]; exact he.2) ca
  refine ⟨so ++ co, u', ?_, ht.ok, hn, hsk, fun v b hv hb => ?_, fun v fd b hv hfd hb => ?_⟩
  · simp only [dissOne, hw, hu, hso, hco, bind, Except.bind]
    rfl
  · obtain ⟨hb₁, -⟩ := hm.acct v b hv hb
    obtain ⟨hb₂, -⟩ := ht.acct v _ hv hb₁
    rw [hb₂, legsOf_singleton, plus_total_append]
    split_ifs <;> simp
  · obtain ⟨hb₁, hsa⟩ := hm.acct v b hv hb
    obtain ⟨-, hca⟩ := ht.acct v _ hv hb₁
    have hfd' : u'.socks[v.toNat - 1]? = some fd := by rw [hsk, hfd]
    rw [sentTo_append, hst v fd hfd' hv, hct v fd hfd' hv, legsOf_singleton, balances_append,
      List.flatMap_append]
    refine congrArg₂ _ ?_ ?_
    · split_ifs with hmv
      · rw [hsa hmv, balances_singleton, List.flatMap_singleton]
      · rfl
    · split_ifs with htv hmv hmv
      · rw [hca htv, if_pos hmv, plus_total_singleton, balances_singleton, List.flatMap_singleton]
      · rw [hca htv, if_neg hmv, plus_total_nil, balances_singleton, List.flatMap_singleton]
      · rfl
      · rfl

theorem Stated.nil (h : u.Ok M) : Stated M ins [] u [] u where
  ok := h
  nuser := rfl
  socks := rfl
  acct v b _ hb := by
    change _ = some (b.plus (Leg.total []))
    rw [plus_total_nil, hb]
  sent _ _ _ _ _ _ := rfl

theorem Stated.cons {e : Exec A} {es : List (Exec A)} {o os : List (Out A)} {w : Users A}
    (h : Stated M ins [e] u o w) (hs : Stated M ins es w os u') : Stated M ins (e :: es) u (o ++ os) u' where
  ok := hs.ok
  nuser := hs.nuser.trans h.nuser
  socks := hs.socks.trans h.socks
  acct v b hv hb := by
    rw [legsOf_cons, plus_total_append]
    exact hs.acct v _ hv (h.acct v b hv hb)
  sent v fd b hv hfd hb := by
    have hw : w.socks[v.toNat - 1]? = some fd := by rw [h.socks, hfd]
    rw [legsOf_cons, balances_append, List.flatMap_append, sentTo_append, h.sent v fd b hv hfd hb,
      hs.sent v fd _ hv hw (h.acct v b hv hb)]

theorem dissAll_stated (hi : ins < M.NINSTR) {es : List (Exec A)} : ∀ {u : Users A}, u.Ok M →
    (∀ e ∈ es, e.Known u) → ∃ o u', dissAll (dissOne M ins) es u = .ok (o, u') ∧ Stated M ins es u o u' := by
  induction es with
  | nil => exact fun h _ => ⟨[], _, rfl, Stated.nil h⟩
  | cons e es ih =>
      intro u h he
      obtain ⟨o, w, hw, ht⟩ := dissOne_stated h hi (he e List.mem_cons_self)
      obtain ⟨os, u', hu, hts⟩ := ih ht.ok fun e' he' => by
        unfold Exec.Known
        rw [ht.nuser]
        exact he e' (List.mem_cons_of_mem _ he')
      refine ⟨o ++ os, u', ?_, ht.cons hts⟩
      simp only [dissAll, hw, hu, bind, Except.bind]
      rfl

theorem Users.Ok.acct (h : u.Ok M) (hi : ins < M.NINSTR) {v : Uid} (hv : v ≠ 0) (hn : v.toNat ≤ u.nuser) :
    ∃ fd b, u.socks[v.toNat - 1]? = some fd ∧ u.acct M v ins = some b := by
  have hpos : 0 < v.toNat := Nat.pos_of_ne_zero fun hz => hv (BitVec.eq_of_toNat_eq hz)
  obtain ⟨fd, hfd, -⟩ := userSock_spec h hpos hn
  obtain ⟨-, b, hb, -⟩ := addAcct_spec h hpos hn hi ⟨0, 0⟩
  exact ⟨fd, b, hfd, hb⟩

/-- **Statements of account are true.** Whatever the batch, a user is told of every leg of theirs in the
order of the executions, the maker's before the taker's: the fill and, right behind it, the balance
before the batch with all the legs up to that one. The last balance told is the one stored, and who
has no leg is told nothing. -/
theorem diss_stated (h : u.Ok M) (hi : ins < M.NINSTR) {es : List (Exec A)} (he : ∀ e ∈ es, e.Known u) :
    ∃ o u', dissExe M ins es u = .ok (o, u') ∧ ∀ v : Uid, v ≠ 0 → v.toNat ≤ u.nuser →
      ∃ fd b, u.socks[v.toNat - 1]? = some fd ∧ u.acct M v ins = some b ∧
        sentTo v o = (balances b (legsOf M v es)).flatMap (statement M ins fd) ∧
        u'.acct M v ins = some (b.plus (Leg.total (legsOf M v es))) ∧
        (∀ y ∈ (balances b (legsOf M v es)).getLast?, u'.acct M v ins = some y.2) ∧
        (legsOf M v es = [] → sentTo v o = []) := by
  obtain ⟨o, u', hu, ht⟩ := dissAll_stated hi h he
  refine ⟨o ++ trades M ins es, u', ?_, fun v hv hn => ?_⟩
  · simp only [dissExe, hu, bind, Except.bind]
    rfl
  · obtain ⟨fd, b, hfd, hb⟩ := h.acct hi hv hn
    have hacct := ht.acct v b hv hb
    have hsent := ht.sent v fd b hv hfd hb
    rw [sentTo_append, sentTo_trades, List.append_nil]
    refine ⟨fd, b, hfd, hb, hsent, hacct, fun y hy => ?_, fun hnil => ?_⟩
    · rw [hacct, balances_last b _ hy]
    · rw [hsent, hnil]
      rfl

theorem runs_ok {evs : List (AcctEvent A)} (h : (acctMachine M).Runs evs u) : u.Ok M := by
  refine h.inv ?_ fun u e u' hu ha hs => ?_
  · rintro u rfl
    exact Users.none_ok M
  · change e.step M u = .ok u' at hs
    cases e with
    | add s junkS junkA =>
        obtain ⟨v, hv, hj⟩ := addUser_spec hu s junkS junkA
        rw [AcctEvent.step, hv] at hs
        cases hs
        exact hj.ok
    | kill uid =>
        by_cases h0 : uid = 0
        · rw [AcctEvent.step, killUser, if_pos h0] at hs
          cases hs
          exact hu
        · rw [AcctEvent.step, killUser_spec hu h0 ha] at hs
          cases hs
          exact ⟨hu.room, (List.length_set).trans hu.socks, hu.accts⟩
    | diss ins es =>
        obtain ⟨o, v, hv, ht⟩ := dissAll_stated ha.1 hu fun e he => ⟨(ha.2 e he).maker_le, (ha.2 e he).taker_le⟩
        rw [AcctEvent.step, dissExe, hv] at hs
        cases hs
        exact ht.ok

/-- A user who trades with another and then with themselves. -/
def sampleBatch : List (Exec ℚ) :=
  [sampleExec, ⟨⟨5, 1⟩, clobSideAsk, ⟨clobTypeLmt, clobSideAsk, 2, 9, 2⟩, ⟨clobTypeLmt, clobSideBid, 2, 10, 2⟩⟩]

def sampleTables : Users ℚ := ⟨2, 2, [5, 6], [⟨0, 0⟩, ⟨10, -4⟩]⟩

/-- They are told three fills and three balances. -/
theorem sampleBatch_stated : ∃ o u', dissExe sampleMarket 0 sampleBatch sampleTables = .ok (o, u') ∧
    sentTo 2 o = (balances ⟨10, -4⟩ (legsOf sampleMarket 2 sampleBatch)).flatMap (statement sampleMarket 0 6) ∧
    (legsOf sampleMarket 2 sampleBatch).map (fun l => l.fid.qid) = [8, 9, 10] ∧
    (balances ⟨10, -4⟩ (legsOf sampleMarket 2 sampleBatch)).map Prod.snd = [⟨7, 2⟩, ⟨2, 7⟩, ⟨7, 2⟩] ∧
    u'.acct sampleMarket 2 0 = some ⟨7, 2⟩ := by
  have hok : sampleTables.Ok sampleMarket := ⟨le_rfl, rfl, rfl⟩
  have hknown : ∀ e ∈ sampleBatch, e.Known sampleTables := by decide
  have hi : 0 < sampleMarket.NINSTR := by decide
  obtain ⟨o, u', hu, hv⟩ := diss_stated hok hi hknown
  obtain ⟨fd, b, hfd, hb, hsent, hacct, -, -⟩ := hv 2 (by decide) (by decide)
  cases hfd
  cases hb
  have hbal : (balances ⟨10, -4⟩ (legsOf sampleMarket 2 sampleBatch)).map Prod.snd =
      [⟨7, 2⟩, ⟨2, 7⟩, ⟨7, 2⟩] := by decide +kernel
  refine ⟨o, u', hu, hsent, by decide +kernel, hbal, hacct.trans ?_⟩
  decide +kernel

end Unserlob
