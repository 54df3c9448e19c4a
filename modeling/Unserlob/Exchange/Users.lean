import Unserlob.Lib.Table
import Unserlob.Lol.Types

/-!
# Users and fills (`lobot.c`, `cabot.c`)

The tables of sockets and accounts, the functions that keep them, and the dissemination of a batch
of executions. Amounts are of any type `A` with addition; sending is recorded.

* `Users`, `addUser`, `userSock`, `addAcct`, `killUser`, `chckAcct`;
* `dissExe`, `dissExeSc`: the continuous exchange, whose executions have a maker and a taker, and
  the auctioneer, whose executions have one party;
* `Users.Ok`: the tables have the sizes the indices rely on;
* **`addUser_spec`**, **`killUser_spec`**, **`addAcct_spec`**: what each does to the tables.
-/

namespace Unserlob

open Cursor Table

variable {A : Type}

/-- `nuser`, `zuser`, `socks` and `accts`. -/
structure Users (A : Type) where
  nuser : ℕ
  zuser : ℕ
  socks : List ℤ
  accts : List (UnxsExa A)

/-- What the exchange is configured with and what it is linked to: `clob`'s account entry for one
side of an execution, and the other side. -/
structure Market (A : Type) where
  ninstr : ℕ
  name : ℕ → List UInt8
  unxsExa : UnxsExe A → ClobSide → UnxsExa A
  contra : ClobSide → ClobSide

/-- `NINSTR` -/
def Market.NINSTR (M : Market A) : ℕ := if M.ninstr = 0 then 1 else M.ninstr

theorem Market.NINSTR_pos (M : Market A) : 0 < M.NINSTR := by
  unfold NINSTR
  split_ifs <;> omega

theorem Market.NINSTR_eq (M : Market A) (h : M.ninstr ≠ 0) : M.NINSTR = M.ninstr := if_neg h

/-- An execution and its parties. -/
structure Exec (A : Type) where
  x : UnxsExe A
  s : ClobSide
  maker : ClobOid A
  taker : ClobOid A

/-- What is sent: a client's fill and account, their copy for the execution channel, a trade. -/
inductive Out (A : Type) where
  | fill (fd : ℤ) (usr : Uid) (fil acc : Omsg A)
  | copy (usr : Uid) (fil acc : Omsg A)
  | trade (q : Qmsg A)

/-- `usr`, when it is passed as a `uid_t` -/
def ClobOid.uid (o : ClobOid A) : Uid := o.usr.setWidth 32

section Functions

variable [AddCommGroup A] (M : Market A)

/-- The slots allocated when the tables are full. -/
def nextZuser (z : ℕ) : ℕ := if z * 2 ≠ 0 then z * 2 else 64

/-- The reallocation in `add_user`; the new slots hold `junk`. -/
def grow (junkS : ℕ → ℤ) (junkA : ℕ → UnxsExa A) (u : Users A) : Users A :=
  if u.zuser ≤ u.nuser then
    { u with
      zuser := nextZuser u.zuser
      socks := realloc junkS (nextZuser u.zuser) u.socks
      accts := realloc junkA (nextZuser u.zuser * M.NINSTR) u.accts }
  else u

/-- `for (size_t i = 1U; i < ninstr; i++) accts[nuser * ninstr + i] = …`, from `i` on. -/
def zeroRow (n i : ℕ) : ℕ → List (UnxsExa A) → Res (List (UnxsExa A))
  | 0, accts => .ok accts
  | k + 1, accts => do
    let accts ← setAt accts (n * M.ninstr + i) ⟨0, 0⟩
    zeroRow n (i + 1) k accts

/-- `add_user` -/
def addUser (s : ℤ) (junkS : ℕ → ℤ) (junkA : ℕ → UnxsExa A) (u : Users A) : Res (Uid × Users A) := do
  let u := grow M junkS junkA u
  let socks ← setAt u.socks u.nuser s
  let accts ← setAt u.accts (u.nuser * M.NINSTR) ⟨0, 0⟩
  let accts ← zeroRow M u.nuser 1 (M.ninstr - 1) accts
  pure (BitVec.ofNat 32 (u.nuser + 1), { u with nuser := u.nuser + 1, socks, accts })

/-- `user_sock` -/
def userSock (u : Users A) (uid : Uid) : Res ℤ :=
  if uid = 0 then .ok (-1) else getAt u.socks (uid.toNat - 1)

/-- `b.base += a.base; b.term += a.term` -/
def UnxsExa.plus (b a : UnxsExa A) : UnxsExa A := ⟨b.base + a.base, b.term + a.term⟩

/-- `add_acct` -/
def addAcct (uid : Uid) (i : ℕ) (a : UnxsExa A) (u : Users A) : Res (UnxsExa A × Users A) :=
  if uid = 0 then .ok (⟨0, 0⟩, u)
  else do
    let slot := (uid.toNat - 1) * M.NINSTR + i
    let b ← getAt u.accts slot
    let accts ← setAt u.accts slot (b.plus a)
    pure (b.plus a, { u with accts })

/-- `kill_user` -/
def killUser (uid : Uid) (u : Users A) : Res (Users A) :=
  if uid = 0 then .ok u
  else do
    let socks ← setAt u.socks (uid.toNat - 1) (-1)
    pure { u with socks }

/-- The sums of instrument `j` over the first `n` users, added up in order. -/
def sumAccts (u : Users A) (j : ℕ) : ℕ → Res (UnxsExa A)
  | 0 => .ok ⟨0, 0⟩
  | n + 1 => do
    let s ← sumAccts u j n
    let a ← getAt u.accts (n * M.NINSTR + j)
    pure ⟨s.base + a.base, s.term + a.term⟩

/-- `chck_acct`, over the first `n` instruments. -/
def chckAccts [DecidableEq A] (u : Users A) : ℕ → Res Unit
  | 0 => .ok ()
  | j + 1 => do
    chckAccts u j
    let s ← sumAccts M u j u.nuser
    if s.base = 0 ∧ s.term = 0 then pure () else .error .assert

/-- `chck_acct` -/
def chckAcct [DecidableEq A] (u : Users A) : Res Unit := chckAccts M u M.NINSTR

/-- The messages for one party of an execution. -/
def tell (ins : ℕ) (u : Users A) (fid : ClobOid A) (x : UnxsExe A) (con : Uid) (a : UnxsExa A) :
    Res (List (Out A)) := do
  let fil : Omsg A := ⟨M.name ins, .fil fid x con⟩
  let acc : Omsg A := ⟨M.name ins, .acc a⟩
  let fd ← userSock u fid.uid
  pure [.fill fd fid.uid fil acc, .copy fid.uid fil acc]

/-- One turn of the first loop of `diss_exe` in `lobot.c`. -/
def dissOne (ins : ℕ) (e : Exec A) (u : Users A) : Res (List (Out A) × Users A) := do
  let (sa, u) ← addAcct M e.maker.uid ins (M.unxsExa e.x e.s) u
  let (ca, u) ← addAcct M e.taker.uid ins (M.unxsExa e.x (M.contra e.s)) u
  let so ← tell M ins u e.maker e.x e.taker.uid sa
  let co ← tell M ins u e.taker e.x e.maker.uid ca
  pure (so ++ co, u)

/-- One turn of the first loop of `diss_exe` in `cabot.c`, where `e.maker` is the party and the
contra is left at zero. -/
def dissOneSc (ins : ℕ) (e : Exec A) (u : Users A) : Res (List (Out A) × Users A) := do
  let (a, u) ← addAcct M e.maker.uid ins (M.unxsExa e.x e.s) u
  let o ← tell M ins u e.maker e.x 0 a
  pure (o, u)

/-- The first loop of `diss_exe`. -/
def dissAll (one : Exec A → Users A → Res (List (Out A) × Users A)) :
    List (Exec A) → Users A → Res (List (Out A) × Users A)
  | [], u => .ok ([], u)
  | e :: es, u => do
    let (o, u) ← one e u
    let (os, u) ← dissAll one es u
    pure (o ++ os, u)

/-- The second loop of `diss_exe`. -/
def trades (ins : ℕ) (es : List (Exec A)) : List (Out A) :=
  es.map fun e => .trade ⟨M.name ins, .tra ⟨nclobSides, e.x.prc, e.x.qty⟩⟩

/-- `diss_exe` of `lobot.c` -/
def dissExe (ins : ℕ) (es : List (Exec A)) (u : Users A) : Res (List (Out A) × Users A) := do
  let (o, u) ← dissAll (dissOne M ins) es u
  pure (o ++ trades M ins es, u)

/-- `diss_exe` of `cabot.c` -/
def dissExeSc (ins : ℕ) (es : List (Exec A)) (u : Users A) : Res (List (Out A) × Users A) := do
  let (o, u) ← dissAll (dissOneSc M ins) es u
  pure (o ++ trades M ins es, u)

end Functions

/-! ## The tables -/

/-- **The tables are as long as the indices need them.** -/
structure Users.Ok (M : Market A) (u : Users A) : Prop where
  room : u.nuser ≤ u.zuser
  socks : u.socks.length = u.zuser
  accts : u.accts.length = u.zuser * M.NINSTR

/-- The tables at the start of the program. -/
def Users.none : Users A := ⟨0, 0, [], []⟩

theorem Users.none_ok (M : Market A) : (Users.none : Users A).Ok M :=
  ⟨le_rfl, rfl, (Nat.zero_mul _).symm⟩

section Spec

variable {M : Market A} {u : Users A}

theorem nextZuser_gt (z : ℕ) : z < nextZuser z := by
  unfold nextZuser
  split_ifs <;> omega

theorem grow_spec (h : u.Ok M) (junkS : ℕ → ℤ) (junkA : ℕ → UnxsExa A) :
    (grow M junkS junkA u).Ok M ∧ (grow M junkS junkA u).nuser = u.nuser ∧
      u.nuser < (grow M junkS junkA u).zuser ∧
      (∀ i < u.zuser, (grow M junkS junkA u).socks[i]? = u.socks[i]?) ∧
      ∀ i < u.zuser * M.NINSTR, (grow M junkS junkA u).accts[i]? = u.accts[i]? := by
  have hgt := nextZuser_gt u.zuser
  have hroom := h.room
  unfold grow
  split_ifs with hz
  · refine ⟨⟨?_, length_realloc _ _ _, length_realloc _ _ _⟩, rfl, ?_, ?_, ?_⟩
    · change u.nuser ≤ nextZuser u.zuser
      omega
    · change u.nuser < nextZuser u.zuser
      omega
    · intro i hi
      exact getElem?_realloc _ (by rw [h.socks]; omega) (by rw [h.socks]; exact hi)
    · intro i hi
      refine getElem?_realloc _ ?_ (by rw [h.accts]; exact hi)
      rw [h.accts]
      exact Nat.mul_le_mul_right _ hgt.le
  · exact ⟨h, rfl, by omega, fun _ _ => rfl, fun _ _ => rfl⟩

theorem uid_pos {uid : Uid} (h : 0 < uid.toNat) : uid ≠ 0 := by
  rintro rfl
  exact absurd h (by decide)

theorem killUser_spec (h : u.Ok M) {uid : Uid} (h0 : uid ≠ 0) (hz : uid.toNat ≤ u.zuser) :
    killUser uid u = .ok { u with socks := u.socks.set (uid.toNat - 1) (-1) } := by
  have hpos : 0 < uid.toNat := Nat.pos_of_ne_zero fun h => h0 (BitVec.eq_of_toNat_eq h)
  simp only [killUser, if_neg h0, setAt_ok (show uid.toNat - 1 < u.socks.length by
    rw [h.socks]; omega), bind, Except.bind]
  rfl

theorem userSock_spec (h : u.Ok M) {uid : Uid} (hpos : 0 < uid.toNat) (hn : uid.toNat ≤ u.nuser) :
    ∃ fd, u.socks[uid.toNat - 1]? = some fd ∧ userSock u uid = .ok fd := by
  have hroom := h.room
  have hlt : uid.toNat - 1 < u.socks.length := by rw [h.socks]; omega
  refine ⟨_, List.getElem?_eq_getElem hlt, ?_⟩
  rw [userSock, if_neg (uid_pos hpos), getAt_ok (List.getElem?_eq_getElem hlt)]

variable [AddCommGroup A]

theorem zeroRow_spec (n : ℕ) (k : ℕ) : ∀ (i : ℕ) (accts : List (UnxsExa A)),
    n * M.ninstr + i + k ≤ accts.length → ∃ accts', zeroRow M n i k accts = .ok accts' ∧
      accts'.length = accts.length ∧
      (∀ j, i ≤ j → j < i + k → accts'[n * M.ninstr + j]? = some ⟨0, 0⟩) ∧
      ∀ m, (∀ j, i ≤ j → j < i + k → m ≠ n * M.ninstr + j) → accts'[m]? = accts[m]? := by
  induction k with
  | zero => exact fun i accts _ => ⟨accts, rfl, rfl, fun j h1 h2 => by omega, fun m _ => rfl⟩
  | succ k ih =>
      intro i accts hlen
      have hi : n * M.ninstr + i < accts.length := by omega
      obtain ⟨accts', hz, hl, hrow, hold⟩ :=
        ih (i + 1) (accts.set (n * M.ninstr + i) ⟨0, 0⟩) (by rw [List.length_set]; omega)
      refine ⟨accts', ?_, by rw [hl, List.length_set], ?_, ?_⟩
      · simp only [zeroRow, setAt_ok hi, bind, Except.bind, hz]
      · intro j h1 h2
        rcases Nat.eq_or_lt_of_le h1 with rfl | h1
        · rw [hold _ fun j _ _ => by omega, List.getElem?_set_self hi]
        · exact hrow j h1 (by omega)
      · intro m hm
        have hne := hm i le_rfl (by omega)
        rw [hold m fun j h1 h2 => hm j (by omega) (by omega), List.getElem?_set_ne (Ne.symm hne)]

/-- `u'` is `u` with one more user, on socket `s` and with empty accounts. -/
structure Users.Joined (M : Market A) (s : ℤ) (u u' : Users A) : Prop where
  ok : u'.Ok M
  nuser : u'.nuser = u.nuser + 1
  sock : u'.socks[u.nuser]? = some s
  socks : ∀ i < u.nuser, u'.socks[i]? = u.socks[i]?
  row : ∀ j < M.NINSTR, u'.accts[u.nuser * M.NINSTR + j]? = some ⟨0, 0⟩
  rows : ∀ k < u.nuser * M.NINSTR, u'.accts[k]? = u.accts[k]?

omit [AddCommGroup A] in
theorem Market.row_le (M : Market A) (n : ℕ) :
    n * M.ninstr + 1 + (M.ninstr - 1) ≤ n * M.NINSTR + M.NINSTR := by
  have hle : n * M.ninstr ≤ n * M.NINSTR := by
    refine Nat.mul_le_mul_left _ ?_
    unfold Market.NINSTR
    split_ifs <;> omega
  have hone : 1 + (M.ninstr - 1) ≤ M.NINSTR := by
    unfold Market.NINSTR
    split_ifs <;> omega
  omega

/-- **`add_user` stays inside the tables it has grown and touches no other user.** -/
theorem addUser_spec (h : u.Ok M) (s : ℤ) (junkS : ℕ → ℤ) (junkA : ℕ → UnxsExa A) :
    ∃ u', addUser M s junkS junkA u = .ok (BitVec.ofNat 32 (u.nuser + 1), u') ∧ u.Joined M s u' := by
  obtain ⟨hok, hn, hlt, hsocks, haccts⟩ := grow_spec h junkS junkA
  set g := grow M junkS junkA u with hg
  have hroom := h.room
  have hN := M.NINSTR_pos
  have hslot : u.nuser * M.NINSTR + M.NINSTR ≤ g.accts.length := by
    rw [hok.accts, ← Nat.succ_mul]
    exact Nat.mul_le_mul_right _ hlt
  have hs : u.nuser < g.socks.length := by rw [hok.socks]; exact hlt
  have ha : u.nuser * M.NINSTR < g.accts.length := by omega
  have hrest : u.nuser * M.ninstr + 1 + (M.ninstr - 1) ≤
      (g.accts.set (u.nuser * M.NINSTR) ⟨0, 0⟩).length := by
    rw [List.length_set]
    exact (M.row_le u.nuser).trans hslot
  obtain ⟨accts, hz, hl, hrow, hold⟩ := zeroRow_spec u.nuser (M.ninstr - 1) 1 _ hrest
  have hrun : addUser M s junkS junkA u = .ok (BitVec.ofNat 32 (u.nuser + 1),
      { g with nuser := u.nuser + 1, socks := g.socks.set u.nuser s, accts }) := by
    simp only [addUser, ← hg, hn, setAt_ok hs, setAt_ok ha, bind, Except.bind, hz]
    rfl
  refine ⟨_, hrun, ⟨hlt, ?_, ?_⟩, rfl, ?_, ?_, ?_, ?_⟩
  · exact (List.length_set).trans hok.socks
  · change accts.length = _
    rw [hl, List.length_set, hok.accts]
  · exact List.getElem?_set_self hs
  · intro i hi
    change (g.socks.set u.nuser s)[i]? = _
    rw [List.getElem?_set_ne (by omega), hsocks i (by omega)]
  · intro j hj
    change accts[_]? = _
    rcases Nat.eq_zero_or_pos j with rfl | hpos
    · rw [Nat.add_zero, hold _ fun j h1 h2 => ?_, List.getElem?_set_self ha]
      rw [M.NINSTR_eq (by omega)]
      omega
    · have hN1 : M.ninstr ≠ 0 := fun h0 => by
        rw [Market.NINSTR, if_pos h0] at hj
        omega
      rw [M.NINSTR_eq hN1] at hj ⊢
      exact hrow j hpos (by omega)
  · intro k hk
    change accts[_]? = _
    rw [hold _ fun j h1 h2 => ?_, List.getElem?_set_ne (by omega), haccts k ?_]
    · exact hk.trans_le (Nat.mul_le_mul_right _ hroom)
    · rw [M.NINSTR_eq (by omega)] at hk
      omega

/-- **`add_acct` stays inside the table and adds to one account.** -/
theorem addAcct_spec (h : u.Ok M) {uid : Uid} (hpos : 0 < uid.toNat) (hn : uid.toNat ≤ u.nuser) {i : ℕ}
    (hi : i < M.NINSTR) (a : UnxsExa A) : (uid.toNat - 1) * M.NINSTR + i < u.accts.length ∧
    ∃ b, u.accts[(uid.toNat - 1) * M.NINSTR + i]? = some b ∧ addAcct M uid i a u = .ok (b.plus a,
      { u with accts := u.accts.set ((uid.toNat - 1) * M.NINSTR + i) (b.plus a) }) := by
  have hroom := h.room
  have hlt : (uid.toNat - 1) * M.NINSTR + i < u.accts.length := by
    rw [h.accts]
    exact slot_lt (by omega) hi
  refine ⟨hlt, _, List.getElem?_eq_getElem hlt, ?_⟩
  simp only [addAcct, if_neg (uid_pos hpos), getAt_ok (List.getElem?_eq_getElem hlt), setAt_ok hlt,
    bind, Except.bind]
  rfl

end Spec

end Unserlob
