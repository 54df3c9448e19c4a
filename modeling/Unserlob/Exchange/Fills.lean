import Unserlob.Exchange.Users

/-!
# Booking and telling

What one execution does: its parties' accounts are credited, one after the other, and each party is
told on the socket the table holds for it.

* `Exec.Named`: the parties of an execution are users;
* `Users.Credited`, `addAcct_credited`: a table but for one account;
* `Out.Addressed`: a fill that goes to the socket of its user;
* **`dissOne_spec`**, **`dissOneSc_spec`**: one turn of the loop in the two exchanges;
* **`dissAll_spec`**: what every turn keeps, the loop keeps.
-/

namespace Unserlob

open Cursor Table

variable {A : Type}

/-- The parties of an execution are users. -/
structure Exec.Named (e : Exec A) (u : Users A) : Prop where
  maker_pos : 0 < e.maker.uid.toNat
  maker_le : e.maker.uid.toNat ≤ u.nuser
  taker_pos : 0 < e.taker.uid.toNat
  taker_le : e.taker.uid.toNat ≤ u.nuser

instance (e : Exec A) (u : Users A) : Decidable (e.Named u) :=
  decidable_of_iff (0 < e.maker.uid.toNat ∧ e.maker.uid.toNat ≤ u.nuser ∧ 0 < e.taker.uid.toNat ∧
    e.taker.uid.toNat ≤ u.nuser) ⟨fun h => ⟨h.1, h.2.1, h.2.2.1, h.2.2.2⟩,
      fun h => ⟨h.maker_pos, h.maker_le, h.taker_pos, h.taker_le⟩⟩

theorem Exec.Named.mono {e : Exec A} {u' : Users A} (h : e.Named u) (hn : u'.nuser = u.nuser) :
    e.Named u' :=
  ⟨h.maker_pos, hn ▸ h.maker_le, h.taker_pos, hn ▸ h.taker_le⟩

/-- A fill is sent on the socket of its user. -/
def Out.Addressed (u : Users A) : Out A → Prop
  | .fill fd usr _ _ => 0 < usr.toNat ∧ usr.toNat ≤ u.nuser ∧ u.socks[usr.toNat - 1]? = some fd
  | _ => True

variable {M : Market A} {u : Users A}

theorem tell_spec (h : u.Ok M) (ins : ℕ) {fid : ClobOid A} (hpos : 0 < fid.uid.toNat)
    (hn : fid.uid.toNat ≤ u.nuser) (x : UnxsExe A) (con : Uid) (a : UnxsExa A) :
    ∃ o, tell M ins u fid x con a = .ok o ∧ ∀ y ∈ o, y.Addressed u := by
  obtain ⟨fd, hs, hfd⟩ := userSock_spec h hpos hn
  refine ⟨[.fill fd fid.uid ⟨M.name ins, .fil fid x con⟩ ⟨M.name ins, .acc a⟩,
    .copy fid.uid ⟨M.name ins, .fil fid x con⟩ ⟨M.name ins, .acc a⟩], ?_, ?_⟩
  · simp only [tell, hfd, bind, Except.bind]
    rfl
  · intro y hy
    rcases List.mem_cons.mp hy with rfl | hy
    · exact ⟨hpos, hn, hs⟩
    · rw [List.mem_singleton.mp hy]
      exact trivial

theorem Out.Addressed.of_credited {u' : Users A} (hn : u'.nuser = u.nuser) (hs : u'.socks = u.socks)
    {o : Out A} (h : o.Addressed u') : o.Addressed u := by
  cases o with
  | fill fd usr fil acc =>
      unfold Addressed at h ⊢
      rwa [hn, hs] at h
  | copy usr fil acc => exact trivial
  | trade q => exact trivial

theorem dissAll_spec (one : Exec A → Users A → Res (List (Out A) × Users A)) {P : Users A → Prop}
    {Q : Out A → Prop} {es : List (Exec A)}
    (hone : ∀ e ∈ es, ∀ u, P u → ∃ o u', one e u = .ok (o, u') ∧ P u' ∧ ∀ y ∈ o, Q y) :
    ∀ u, P u → ∃ o u', dissAll one es u = .ok (o, u') ∧ P u' ∧ ∀ y ∈ o, Q y := by
  induction es with
  | nil => exact fun u h => ⟨_, _, rfl, h, by simp⟩
  | cons e es ih =>
      intro u h
      obtain ⟨o, v, hv, hP, hQ⟩ := hone e List.mem_cons_self u h
      obtain ⟨os, w, hw, hPw, hQw⟩ := ih (fun e' he' => hone e' (List.mem_cons_of_mem _ he')) v hP
      refine ⟨o ++ os, w, ?_, hPw, fun y hy => ?_⟩
      · simp only [dissAll, hv, hw, bind, Except.bind]
        rfl
      · rcases List.mem_append.mp hy with hy | hy
        · exact hQ y hy
        · exact hQw y hy

variable [AddCommGroup A]

/-- `u'` is `u` but for the account of `uid` in instrument `ins`, which has grown by `a`. -/
structure Users.Credited (M : Market A) (uid : Uid) (ins : ℕ) (a : UnxsExa A) (u u' : Users A) : Prop where
  ok : u'.Ok M
  nuser : u'.nuser = u.nuser
  zuser : u'.zuser = u.zuser
  socks : u'.socks = u.socks
  frame : ∀ i j, j < M.NINSTR → ¬ (i + 1 = uid.toNat ∧ j = ins) →
    u'.accts[i * M.NINSTR + j]? = u.accts[i * M.NINSTR + j]?
  sum : ∀ f : UnxsExa A → A, (∀ b, f (b.plus a) = f b + f a) → ∀ j < M.NINSTR,
    colSum f u'.accts M.NINSTR u.nuser j =
      colSum f u.accts M.NINSTR u.nuser j + if j = ins then f a else 0

theorem addAcct_credited (h : u.Ok M) {uid : Uid} (hpos : 0 < uid.toNat) (hn : uid.toNat ≤ u.nuser)
    {ins : ℕ} (hi : ins < M.NINSTR) (a : UnxsExa A) :
    ∃ b u', addAcct M uid ins a u = .ok (b, u') ∧ u.Credited M uid ins a u' := by
  obtain ⟨hlt, b, hb, hadd⟩ := addAcct_spec h hpos hn hi a
  refine ⟨_, _, hadd, ⟨h.room, h.socks, ?_⟩, rfl, rfl, rfl, ?_, ?_⟩
  · exact (List.length_set).trans h.accts
  · intro i j hj hne
    refine List.getElem?_set_ne fun he => hne ?_
    obtain ⟨h1, h2⟩ := slot_inj hi hj he
    exact ⟨by omega, h2.symm⟩
  · intro f hf j hj
    refine colSum_set f (by omega) hj hi hlt ?_
    rw [hf, cell, hb]
    rfl

theorem dissOne_spec (h : u.Ok M) {ins : ℕ} (hi : ins < M.NINSTR) {e : Exec A} (he : e.Named u) :
    ∃ o v w, dissOne M ins e u = .ok (o, w) ∧
      u.Credited M e.maker.uid ins (M.unxsExa e.x e.s) v ∧
      v.Credited M e.taker.uid ins (M.unxsExa e.x (M.contra e.s)) w ∧ ∀ y ∈ o, y.Addressed u := by
  obtain ⟨sa, v, hv, cv⟩ := addAcct_credited h he.maker_pos he.maker_le hi (M.unxsExa e.x e.s)
  obtain ⟨ca, w, hw, cw⟩ := addAcct_credited cv.ok he.taker_pos (by rw [cv.nuser]; exact he.taker_le) hi
    (M.unxsExa e.x (M.contra e.s))
  have hn : w.nuser = u.nuser := cw.nuser.trans cv.nuser
  obtain ⟨so, hso, aso⟩ := tell_spec cw.ok ins he.maker_pos
    (by rw [hn]; exact he.maker_le) e.x e.taker.uid sa
  obtain ⟨co, hco, aco⟩ := tell_spec cw.ok ins he.taker_pos
    (by rw [hn]; exact he.taker_le) e.x e.maker.uid ca
  refine ⟨so ++ co, v, w, ?_, cv, cw, fun y hy => ?_⟩
  · simp only [dissOne, hv, hw, hso, hco, bind, Except.bind]
    rfl
  · refine Out.Addressed.of_credited hn (cw.socks.trans cv.socks) ?_
    rcases List.mem_append.mp hy with hy | hy
    · exact aso y hy
    · exact aco y hy

theorem dissOneSc_spec (h : u.Ok M) {ins : ℕ} (hi : ins < M.NINSTR) {e : Exec A}
    (hpos : 0 < e.maker.uid.toNat) (hle : e.maker.uid.toNat ≤ u.nuser) :
    ∃ o v, dissOneSc M ins e u = .ok (o, v) ∧
      u.Credited M e.maker.uid ins (M.unxsExa e.x e.s) v ∧ ∀ y ∈ o, y.Addressed u := by
  obtain ⟨a, v, hv, cv⟩ := addAcct_credited h hpos hle hi (M.unxsExa e.x e.s)
  obtain ⟨o, ho, ao⟩ := tell_spec cv.ok ins hpos (by rw [cv.nuser]; exact hle) e.x 0 a
  refine ⟨o, v, ?_, cv, fun y hy => Out.Addressed.of_credited cv.nuser cv.socks (ao y hy)⟩
  simp only [dissOneSc, hv, ho, bind, Except.bind]
  rfl

/-! ## A sample -/

/-- One instrument; a bid adds the quantity to the base and takes its worth from the terms. -/
def sampleMarket : Market ℚ where
  ninstr := 1
  name _ := []
  unxsExa x s := if s = clobSideBid then ⟨x.qty, -(x.qty * x.prc)⟩ else ⟨-x.qty, x.qty * x.prc⟩
  contra s := if s = clobSideBid then clobSideAsk else clobSideBid

/-- An execution between users `1` and `2`. -/
def sampleExec : Exec ℚ :=
  ⟨⟨3, 2⟩, clobSideBid, ⟨clobTypeLmt, clobSideBid, 2, 7, 1⟩, ⟨clobTypeLmt, clobSideAsk, 2, 8, 2⟩⟩

end Unserlob
