import Unserlob.Exchange.Fills
import Unserlob.Lib.Run

/-!
# Accounts add up to zero (`lobot.c`)

* `AcctEvent`, `acctMachine`: users joining, leaving and trading, in any order;
* `Market.ZeroSum`: the two sides of an execution are booked with opposite signs;
* `Users.Balanced`: the invariant; `Joined.balanced`, `dissOne_balanced`: its step lemmas;
* **`runs_balanced`**: it holds in every state reached;
* **`accounts_sound`**: sums, slots, assertions and frames in every state reached.
-/

namespace Unserlob

open Cursor Table

variable {A : Type} [AddCommGroup A]

/-- The other side of an execution is booked with the opposite sign. -/
structure Market.ZeroSum (M : Market A) : Prop where
  base : ∀ x s, (M.unxsExa x (M.contra s)).base = -(M.unxsExa x s).base
  term : ∀ x s, (M.unxsExa x (M.contra s)).term = -(M.unxsExa x s).term

/-- A user joins on a socket, leaves, or a batch of executions is disseminated. -/
inductive AcctEvent (A : Type) where
  | add (s : ℤ) (junkS : ℕ → ℤ) (junkA : ℕ → UnxsExa A)
  | kill (uid : Uid)
  | diss (ins : ℕ) (es : List (Exec A))

/-- Uids are in the table and executions name users. -/
def AcctEvent.allowed (M : Market A) (u : Users A) : AcctEvent A → Prop
  | .add _ _ _ => True
  | .kill uid => uid.toNat ≤ u.zuser
  | .diss ins es => ins < M.NINSTR ∧ ∀ e ∈ es, e.Named u

instance AcctEvent.decAllowed (M : Market A) (u : Users A) (e : AcctEvent A) :
    Decidable (e.allowed M u) := by
  cases e <;> unfold AcctEvent.allowed <;> infer_instance

def AcctEvent.step (M : Market A) : AcctEvent A → Users A → Res (Users A)
  | .add s junkS junkA, u => Prod.snd <$> addUser M s junkS junkA u
  | .kill uid, u => killUser uid u
  | .diss ins es, u => Prod.snd <$> dissExe M ins es u

def acctMachine (M : Market A) : Run.Machine (Users A) (AcctEvent A) where
  init u := u = Users.none
  allowed u e := e.allowed M u
  step e u := e.step M u

instance acctMachine.decAllowed (M : Market A) (u : Users A) (e : AcctEvent A) :
    Decidable ((acctMachine M).allowed u e) :=
  inferInstanceAs (Decidable (e.allowed M u))

/-- **The accounts of every instrument add up to zero.** -/
structure Users.Balanced (M : Market A) (u : Users A) : Prop where
  ok : u.Ok M
  base : ∀ j < M.NINSTR, colSum UnxsExa.base u.accts M.NINSTR u.nuser j = 0
  term : ∀ j < M.NINSTR, colSum UnxsExa.term u.accts M.NINSTR u.nuser j = 0

variable {M : Market A} {u : Users A}

theorem Users.none_balanced (M : Market A) : (Users.none : Users A).Balanced M :=
  ⟨Users.none_ok M, fun _ _ => rfl, fun _ _ => rfl⟩

/-! ## Joining -/

theorem Users.Joined.colSum {s : ℤ} {u' : Users A} (h : u.Joined M s u') (f : UnxsExa A → A)
    (hf : f ⟨0, 0⟩ = 0) {j : ℕ} (hj : j < M.NINSTR) :
    colSum f u'.accts M.NINSTR u'.nuser j = colSum f u.accts M.NINSTR u.nuser j := by
  rw [h.nuser]
  refine colSum_succ f ?_ fun i hi => ?_
  · rw [cell, h.row j hj]
    exact hf
  · rw [cell, cell, h.rows _ (slot_lt hi hj)]

theorem Users.Joined.balanced {s : ℤ} {u' : Users A} (h : u.Joined M s u') (hb : u.Balanced M) :
    u'.Balanced M where
  ok := h.ok
  base j hj := (h.colSum UnxsExa.base rfl hj).trans (hb.base j hj)
  term j hj := (h.colSum UnxsExa.term rfl hj).trans (hb.term j hj)

/-! ## Trading -/

/-- `u'` is `u` but for the accounts of the parties of `e` in instrument `ins`. -/
structure Users.Traded (M : Market A) (ins : ℕ) (e : Exec A) (u u' : Users A) : Prop where
  nuser : u'.nuser = u.nuser
  zuser : u'.zuser = u.zuser
  socks : u'.socks = u.socks
  frame : ∀ i j, j < M.NINSTR →
    ¬ (j = ins ∧ (i + 1 = e.maker.uid.toNat ∨ i + 1 = e.taker.uid.toNat)) →
    u'.accts[i * M.NINSTR + j]? = u.accts[i * M.NINSTR + j]?

/-- **One execution**: it is booked within the tables, on its two parties, and the sums stay. -/
theorem dissOne_balanced (hM : M.ZeroSum) (h : u.Balanced M) {ins : ℕ} (hi : ins < M.NINSTR)
    {e : Exec A} (he : e.Named u) :
    ∃ o u', dissOne M ins e u = .ok (o, u') ∧ u'.Balanced M ∧ u.Traded M ins e u' := by
  obtain ⟨o, v, w, hd, cv, cw, -⟩ := dissOne_spec h.ok hi he
  have sum : ∀ f : UnxsExa A → A, (∀ b a : UnxsExa A, f (b.plus a) = f b + f a) →
      f (M.unxsExa e.x (M.contra e.s)) = -f (M.unxsExa e.x e.s) → ∀ j < M.NINSTR,
      colSum f w.accts M.NINSTR w.nuser j = colSum f u.accts M.NINSTR u.nuser j := by
    intro f hf hneg j hj
    have h1 := cv.sum f (fun b => hf b _) j hj
    have h2 := cw.sum f (fun b => hf b _) j hj
    rw [cw.nuser, h2, cv.nuser, h1, hneg, add_assoc]
    split_ifs
    · rw [add_neg_cancel, add_zero]
    · rw [add_zero, add_zero]
  refine ⟨o, w, hd, ⟨cw.ok, ?_, ?_⟩, cw.nuser.trans cv.nuser, cw.zuser.trans cv.zuser,
    cw.socks.trans cv.socks, ?_⟩
  · intro j hj
    rw [sum UnxsExa.base (fun _ _ => rfl) (hM.base _ _) j hj, h.base j hj]
  · intro j hj
    rw [sum UnxsExa.term (fun _ _ => rfl) (hM.term _ _) j hj, h.term j hj]
  · intro i j hj hne
    rw [cw.frame i j hj fun hc => hne ⟨hc.2, Or.inr hc.1⟩,
      cv.frame i j hj fun hc => hne ⟨hc.2, Or.inl hc.1⟩]

theorem dissAll_balanced (hM : M.ZeroSum) {ins : ℕ} (hi : ins < M.NINSTR) {es : List (Exec A)}
    (h : u.Balanced M) (he : ∀ e ∈ es, e.Named u) :
    ∃ o u', dissAll (dissOne M ins) es u = .ok (o, u') ∧ u'.Balanced M := by
  obtain ⟨o, u', hu, hP, -⟩ := dissAll_spec (dissOne M ins) (Q := fun _ => True)
    (P := fun v => v.Balanced M ∧ v.nuser = u.nuser) (fun e hm v hv => by
      obtain ⟨o, w, hd, hb, ht⟩ := dissOne_balanced hM hv.1 hi ((he e hm).mono hv.2)
      exact ⟨o, w, hd, ⟨hb, ht.nuser.trans hv.2⟩, fun _ _ => trivial⟩) u ⟨h, rfl⟩
  exact ⟨o, u', hu, hP.1⟩

/-! ## Runs -/

/-- **A step that is allowed goes through and keeps the balance.** -/
theorem step_balanced (hM : M.ZeroSum) (h : u.Balanced M) {e : AcctEvent A} (he : e.allowed M u) :
    ∃ u', e.step M u = .ok u' ∧ u'.Balanced M := by
  cases e with
  | add s junkS junkA =>
      obtain ⟨u', hu, hj⟩ := addUser_spec h.ok s junkS junkA
      refine ⟨u', ?_, hj.balanced h⟩
      simp only [AcctEvent.step, hu]
      rfl
  | kill uid =>
      by_cases h0 : uid = 0
      · exact ⟨u, if_pos h0, h⟩
      · refine ⟨_, killUser_spec h.ok h0 he, ⟨h.ok.room, ?_, h.ok.accts⟩, h.base, h.term⟩
        exact (List.length_set).trans h.ok.socks
  | diss ins es =>
      obtain ⟨o, u', hu, hb⟩ := dissAll_balanced hM he.1 h he.2
      refine ⟨u', ?_, hb⟩
      simp only [AcctEvent.step, dissExe, hu, bind, Except.bind]
      rfl

/-- **The accounts are balanced in every state reached.** -/
theorem runs_balanced (hM : M.ZeroSum) {es : List (AcctEvent A)} (h : (acctMachine M).Runs es u) :
    u.Balanced M := by
  refine h.inv ?_ ?_
  · rintro s rfl
    exact Users.none_balanced M
  · intro s e s' hs ha he
    obtain ⟨s'', h1, h2⟩ := step_balanced hM hs ha
    rw [show e.step M s = .ok s' from he] at h1
    cases h1
    exact h2

/-! ## The check -/

theorem sumAccts_eq (h : u.Ok M) {j : ℕ} (hj : j < M.NINSTR) {n : ℕ} (hn : n ≤ u.nuser) :
    sumAccts M u j n = .ok ⟨colSum UnxsExa.base u.accts M.NINSTR n j,
      colSum UnxsExa.term u.accts M.NINSTR n j⟩ := by
  induction n with
  | zero => rfl
  | succ n ih =>
      have hroom := h.room
      have hlt : n * M.NINSTR + j < u.accts.length := by
        rw [h.accts]
        exact slot_lt (by omega) hj
      have hget := List.getElem?_eq_getElem hlt
      simp only [sumAccts, ih (by omega), getAt_ok hget, bind, Except.bind, colSum,
        Finset.sum_range_succ, cell, hget]
      rfl

theorem chckAccts_ok [DecidableEq A] (h : u.Balanced M) {k : ℕ} (hk : k ≤ M.NINSTR) :
    chckAccts M u k = .ok () := by
  induction k with
  | zero => rfl
  | succ j ih =>
      have hj : j < M.NINSTR := by omega
      simp only [chckAccts, ih (by omega), sumAccts_eq h.ok hj le_rfl, h.base j hj, h.term j hj,
        bind, Except.bind, and_self, if_true]
      rfl

/-- What is promised of a state. -/
structure Users.Sound [DecidableEq A] (M : Market A) (u : Users A) : Prop where
  /-- the sums are zero -/
  base : ∀ j < M.NINSTR, colSum UnxsExa.base u.accts M.NINSTR u.nuser j = 0
  term : ∀ j < M.NINSTR, colSum UnxsExa.term u.accts M.NINSTR u.nuser j = 0
  /-- the assertions hold -/
  check : chckAcct M u = .ok ()
  /-- no step faults: every slot used is one of the slots there are -/
  slots : u.accts.length = u.zuser * M.NINSTR
  step : ∀ e : AcctEvent A, e.allowed M u → ∃ u', e.step M u = .ok u'
  /-- an execution changes the accounts of its parties in its instrument only -/
  frame : ∀ ins < M.NINSTR, ∀ e : Exec A, e.Named u →
    ∃ o u', dissOne M ins e u = .ok (o, u') ∧ u.Traded M ins e u'

/-- **Accounts are sound in every state reached.** -/
theorem accounts_sound [DecidableEq A] (hM : M.ZeroSum) {es : List (AcctEvent A)}
    (h : (acctMachine M).Runs es u) : u.Sound M := by
  have hb := runs_balanced hM h
  refine ⟨hb.base, hb.term, chckAccts_ok hb le_rfl, hb.ok.accts, fun e he => ?_, fun ins hi e he => ?_⟩
  · obtain ⟨u', h1, -⟩ := step_balanced hM hb he
    exact ⟨u', h1⟩
  · obtain ⟨o, u', h1, -, h3⟩ := dissOne_balanced hM hb hi he
    exact ⟨o, u', h1, h3⟩

theorem sampleMarket_zeroSum : sampleMarket.ZeroSum := by
  constructor <;> intro x s <;> by_cases h : s = clobSideBid <;>
    simp +decide [sampleMarket, h]

/-- Two users join and trade twice. -/
def sampleEvents : List (AcctEvent ℚ) :=
  [.add 5 (fun _ => 9) fun _ => ⟨1, 1⟩, .add 6 (fun _ => 9) fun _ => ⟨1, 1⟩,
    .diss 0 [sampleExec, sampleExec]]

theorem sampleEvents_sound : ∃ u, (acctMachine sampleMarket).Runs sampleEvents u ∧
    u.Sound sampleMarket := by
  obtain ⟨u, -, h⟩ := Run.Machine.runs_of_exec (acctMachine sampleMarket) Users.none
    sampleEvents rfl (by decide +kernel)
  exact ⟨u, h, accounts_sound sampleMarket_zeroSum h⟩

end Unserlob
