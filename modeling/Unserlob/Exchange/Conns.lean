import Unserlob.Exchange.Fills
import Unserlob.Lib.Run

/-!
# Connections and their owners (`beef_cb`, `data_cb`)

A connection is accepted, entered into the user tables and served until a read fails; the word the
close path takes the uid from is never set, so it is whatever the allocation holds.

* `Daemon`, `Net`, `NetEvent`, `netMachine`: both exchanges, with accepts, client data, closes and
  disseminations in any order and descriptors that are used again;
* `Net.Private`: what is wanted of a step; `Told`: the word holds the uid of the connection;
* `Net.Inv`: the invariant; `accept_inv`, `close_inv`, `dissExe_spec`: its step lemmas;
* **`fills_private_iff`**: runs in which fills only reach their owner.
-/

namespace Unserlob

open Cursor Table

variable {A : Type}

inductive Daemon where
  | lobot
  | cabot

/-- An accepted connection: `w.fd`, `uid` and the word at `w.data`, which no one sets. -/
structure Conn where
  fd : ℤ
  uid : Uid
  data : BitVec 64
  deriving DecidableEq

/-- The tables, the open connections and what the last step sent. -/
structure Net (A : Type) where
  users : Users A
  conns : List Conn
  outs : List (Out A)

/-- What can happen: a connection on descriptor `fd`, in memory that holds `word`; bytes from a client;
a read that fails; a batch of executions. -/
inductive NetEvent (A : Type) where
  | accept (fd : ℤ) (word : BitVec 64) (junkS : ℕ → ℤ) (junkA : ℕ → UnxsExa A)
  | data (fd : ℤ)
  | close (fd : ℤ)
  | diss (ins : ℕ) (es : List (Exec A))

/-- The parties of an execution are users. -/
def Daemon.named (d : Daemon) (e : Exec A) (u : Users A) : Prop :=
  match d with
  | .lobot => e.Named u
  | .cabot => 0 < e.maker.uid.toNat ∧ e.maker.uid.toNat ≤ u.nuser

instance (d : Daemon) (e : Exec A) (u : Users A) : Decidable (d.named e u) := by
  cases d <;> unfold Daemon.named <;> infer_instance

/-- The system hands out descriptors that are not open; orders were placed by users. -/
def NetEvent.allowed (d : Daemon) (M : Market A) (s : Net A) : NetEvent A → Prop
  | .accept fd _ _ _ => 0 ≤ fd ∧ ∀ c ∈ s.conns, c.fd ≠ fd
  | .data fd => ∃ c ∈ s.conns, c.fd = fd
  | .close fd => ∃ c ∈ s.conns, c.fd = fd
  | .diss ins es => ins < M.NINSTR ∧ ∀ e ∈ es, d.named e s.users

instance NetEvent.decAllowed (d : Daemon) (M : Market A) (s : Net A) (e : NetEvent A) :
    Decidable (e.allowed d M s) := by
  cases e <;> unfold NetEvent.allowed <;> infer_instance

section Step

variable [AddCommGroup A] (d : Daemon) (M : Market A)

/-- `diss_exe` -/
def Daemon.dissExe (ins : ℕ) (es : List (Exec A)) (u : Users A) : Res (List (Out A) × Users A) :=
  match d with
  | .lobot => Unserlob.dissExe M ins es u
  | .cabot => dissExeSc M ins es u

/-- `beef_cb`, `data_cb` with and without bytes read, and `diss_exe`. What a client sends goes to its
buffer and to the books. -/
def NetEvent.step : NetEvent A → Net A → Res (Net A)
  | .accept fd word junkS junkA, s => do
    let (uid, users) ← addUser M fd junkS junkA s.users
    pure ⟨users, ⟨fd, uid, word⟩ :: s.conns, []⟩
  | .data _, s => .ok { s with outs := [] }
  | .close fd, s =>
    match s.conns.find? fun c => c.fd == fd with
    | none => .ok { s with outs := [] }
    | some c => do
      let users ← killUser (c.data.setWidth 32) s.users
      pure ⟨users, s.conns.filter fun c => c.fd != fd, []⟩
  | .diss ins es, s => do
    let (outs, users) ← d.dissExe M ins es s.users
    pure ⟨users, s.conns, outs⟩

def netMachine : Run.Machine (Net A) (NetEvent A) where
  init s := s = ⟨Users.none, [], []⟩
  allowed s e := e.allowed d M s
  step e s := e.step d M s

instance netMachine.decAllowed (s : Net A) (e : NetEvent A) :
    Decidable ((netMachine d M).allowed s e) :=
  inferInstanceAs (Decidable (e.allowed d M s))

end Step

/-- **What is wanted of a step**: an open connection is found under its uid, a uid without one is
on no socket, nobody is sent another's fills, and a close touches its own user only. -/
structure Net.Private (s : Net A) (e : NetEvent A) (s' : Net A) : Prop where
  isOpen : ∀ c ∈ s'.conns, 0 < c.uid.toNat ∧ s'.users.socks[c.uid.toNat - 1]? = some c.fd
  isClosed : ∀ i < s'.users.nuser, (∀ c ∈ s'.conns, c.uid.toNat ≠ i + 1) →
    s'.users.socks[i]? = some (-1)
  fills : ∀ fd usr fil acc, Out.fill fd usr fil acc ∈ s'.outs → ∀ c ∈ s'.conns, c.fd = fd → c.uid = usr
  frame : ∀ fd, e = .close fd → ∀ c ∈ s.conns, c.fd = fd → ∀ i, i + 1 ≠ c.uid.toNat →
    s'.users.socks[i]? = s.users.socks[i]?

/-- The condition: uids have not run out when a connection is accepted, and when one is closed its
data word holds its uid. -/
def Told (s : Net A) : NetEvent A → Prop
  | .accept _ _ _ _ => s.users.nuser + 1 < 2 ^ 32
  | .close fd => ∀ c ∈ s.conns, c.fd = fd → c.data.setWidth 32 = c.uid
  | _ => True

/-! ## The invariant -/

/-- Uids and descriptors tell connections apart, and the table agrees with them. -/
structure Net.Inv (M : Market A) (s : Net A) : Prop where
  ok : s.users.Ok M
  small : s.users.nuser < 2 ^ 32
  uids : s.conns.Pairwise fun c c' => c.uid ≠ c'.uid
  fds : s.conns.Pairwise fun c c' => c.fd ≠ c'.fd
  conn : ∀ c ∈ s.conns, 0 ≤ c.fd ∧ 0 < c.uid.toNat ∧ c.uid.toNat ≤ s.users.nuser ∧
    s.users.socks[c.uid.toNat - 1]? = some c.fd
  gone : ∀ i < s.users.nuser, (∀ c ∈ s.conns, c.uid.toNat ≠ i + 1) → s.users.socks[i]? = some (-1)

variable {M : Market A} {s s' : Net A}

theorem none_inv (M : Market A) : (⟨Users.none, [], []⟩ : Net A).Inv M :=
  ⟨Users.none_ok M, Nat.two_pow_pos 32, .nil, .nil, by simp,
    fun i hi => absurd hi (Nat.not_lt_zero i)⟩

theorem Net.Inv.isPrivate {e : NetEvent A} (h : s'.Inv M)
    (hfills : ∀ y ∈ s'.outs, y.Addressed s'.users)
    (hframe : ∀ fd, e = .close fd → ∀ c ∈ s.conns, c.fd = fd → ∀ i, i + 1 ≠ c.uid.toNat →
      s'.users.socks[i]? = s.users.socks[i]?) : s.Private e s' where
  isOpen c hc := ⟨(h.conn c hc).2.1, (h.conn c hc).2.2.2⟩
  isClosed := h.gone
  frame := hframe
  fills fd usr fil acc hy c hc hfd := by
    obtain ⟨hpos, hle, hsock⟩ := hfills _ hy
    obtain ⟨h0, -, -, hcs⟩ := h.conn c hc
    by_cases hu : ∃ c' ∈ s'.conns, c'.uid.toNat = usr.toNat
    · -- the user is connected: that connection and `c` share the descriptor
      obtain ⟨c', hc', he⟩ := hu
      have hs := (h.conn c' hc').2.2.2
      rw [he, hsock] at hs
      have hcc : c = c' := eq_of_pairwise h.fds hc hc' (hfd.trans (Option.some.inj hs))
      rw [hcc]
      exact BitVec.eq_of_toNat_eq he
    · -- the user is gone: nothing is sent
      push Not at hu
      have hs := h.gone (usr.toNat - 1) (by omega) fun c' hc' he => hu c' hc' (by omega)
      rw [hsock] at hs
      have := Option.some.inj hs
      omega

theorem accept_inv [AddCommGroup A] (h : s.Inv M) {fd : ℤ} (h0 : 0 ≤ fd) (hnew : ∀ c ∈ s.conns, c.fd ≠ fd)
    (hlt : s.users.nuser + 1 < 2 ^ 32) (word : BitVec 64) {users : Users A}
    (hj : s.users.Joined M fd users) :
    (⟨users, ⟨fd, BitVec.ofNat 32 (s.users.nuser + 1), word⟩ :: s.conns, []⟩ : Net A).Inv M := by
  have huid : (BitVec.ofNat 32 (s.users.nuser + 1)).toNat = s.users.nuser + 1 := by
    rw [BitVec.toNat_ofNat, Nat.mod_eq_of_lt hlt]
  refine ⟨hj.ok, by rw [hj.nuser]; exact hlt, ?_, ?_, ?_, ?_⟩
  · refine List.Pairwise.cons (fun c hc he => ?_) h.uids
    have h1 := (h.conn c hc).2.2.1
    have h2 := congrArg BitVec.toNat he
    rw [huid] at h2
    omega
  · exact List.Pairwise.cons (fun c hc he => hnew c hc he.symm) h.fds
  · intro c hc
    rcases List.mem_cons.mp hc with rfl | hc
    · refine ⟨h0, ?_, ?_, ?_⟩
      · rw [huid]
        omega
      · change BitVec.toNat _ ≤ users.nuser
        rw [huid, hj.nuser]
      · change users.socks[BitVec.toNat _ - 1]? = some fd
        rw [huid]
        exact hj.sock
    · obtain ⟨h1, h2, h3, h4⟩ := h.conn c hc
      refine ⟨h1, h2, ?_, ?_⟩
      · change _ ≤ users.nuser
        rw [hj.nuser]
        omega
      · exact (hj.socks _ (by omega)).trans h4
  · intro i hi hne
    change i < users.nuser at hi
    rw [hj.nuser] at hi
    have hi' : i ≠ s.users.nuser := fun he =>
      hne _ List.mem_cons_self (by rw [huid, he])
    refine (hj.socks i (by omega)).trans (h.gone i (by omega) fun c hc => ?_)
    exact hne c (List.mem_cons_of_mem _ hc)

theorem Net.Inv.slot_ne (h : s.Inv M) {c c' : Conn} (hc : c ∈ s.conns) (hc' : c' ∈ s.conns)
    (hne : c'.fd ≠ c.fd) : c'.uid.toNat ≠ c.uid.toNat := fun he =>
  hne (by rw [eq_of_pairwise h.uids hc' hc (BitVec.eq_of_toNat_eq he)])

theorem close_inv (h : s.Inv M) {c : Conn} (hc : c ∈ s.conns) :
    (⟨{ s.users with socks := s.users.socks.set (c.uid.toNat - 1) (-1) },
      s.conns.filter fun c' => c'.fd != c.fd, []⟩ : Net A).Inv M := by
  obtain ⟨-, hpos, hle, -⟩ := h.conn c hc
  have hroom := h.ok.room
  refine ⟨⟨h.ok.room, List.length_set.trans h.ok.socks, h.ok.accts⟩, h.small, h.uids.filter _,
    h.fds.filter _, ?_, ?_⟩
  · intro c' hc'
    obtain ⟨hm, hne⟩ := List.mem_filter.mp hc'
    obtain ⟨h1, h2, h3, h4⟩ := h.conn c' hm
    have hsl := h.slot_ne hc hm (by simpa using hne)
    exact ⟨h1, h2, h3, (List.getElem?_set_ne (by omega)).trans h4⟩
  · intro i hi hne
    change (s.users.socks.set _ _)[i]? = _
    by_cases hic : i + 1 = c.uid.toNat
    · rw [show c.uid.toNat - 1 = i by omega]
      exact List.getElem?_set_self (by rw [h.ok.socks]; exact lt_of_lt_of_le hi hroom)
    · rw [List.getElem?_set_ne (by omega)]
      refine h.gone i hi fun c' hc' => ?_
      by_cases hfd : c'.fd = c.fd
      · rw [eq_of_pairwise h.fds hc' hc hfd]
        omega
      · exact hne c' (List.mem_filter.mpr ⟨hc', by simpa using hfd⟩)

theorem Out.addressed_trade {u : Users A} {ins : ℕ} {es : List (Exec A)} {y : Out A}
    (h : y ∈ trades M ins es) : y.Addressed u := by
  obtain ⟨e, -, rfl⟩ := List.mem_map.mp h
  exact trivial

section Steps

variable [AddCommGroup A]

/-- **A batch of executions** goes through and leaves the sockets alone. -/
theorem dissExe_spec (d : Daemon) {u : Users A} (h : u.Ok M) {ins : ℕ} (hi : ins < M.NINSTR)
    {es : List (Exec A)} (he : ∀ e ∈ es, d.named e u) :
    ∃ o u', d.dissExe M ins es u = .ok (o, u') ∧ u'.Ok M ∧ u'.nuser = u.nuser ∧ u'.socks = u.socks ∧
      ∀ y ∈ o, y.Addressed u := by
  have loop : ∀ one : Exec A → Users A → Res (List (Out A) × Users A),
      (∀ e, d.named e u → ∀ v : Users A, v.Ok M → v.nuser = u.nuser → v.socks = u.socks →
        ∃ o w, one e v = .ok (o, w) ∧ w.Ok M ∧ w.nuser = v.nuser ∧ w.socks = v.socks ∧
          ∀ y ∈ o, y.Addressed v) →
      ∃ o u', (do
        let (o, u) ← dissAll one es u
        pure (o ++ trades M ins es, u)) = (.ok (o, u') : Res _) ∧ u'.Ok M ∧ u'.nuser = u.nuser ∧
          u'.socks = u.socks ∧ ∀ y ∈ o, y.Addressed u := by
    intro one hone
    obtain ⟨o, u', hd, ⟨hk, hn, hs⟩, hq⟩ := dissAll_spec one (Q := Out.Addressed u)
      (P := fun v => v.Ok M ∧ v.nuser = u.nuser ∧ v.socks = u.socks) (fun e hm v hv => by
        obtain ⟨o, w, h1, h2, h3, h4, h5⟩ := hone e (he e hm) v hv.1 hv.2.1 hv.2.2
        exact ⟨o, w, h1, ⟨h2, h3.trans hv.2.1, h4.trans hv.2.2⟩,
          fun y hy => Out.Addressed.of_credited hv.2.1 hv.2.2 (h5 y hy)⟩) u ⟨h, rfl, rfl⟩
    refine ⟨o ++ trades M ins es, u', ?_, hk, hn, hs, fun y hy => ?_⟩
    · simp only [hd, bind, Except.bind]
      rfl
    · rcases List.mem_append.mp hy with hy | hy
      · exact hq y hy
      · exact Out.addressed_trade hy
  cases d with
  | lobot =>
      refine loop (dissOne M ins) fun e hn v hv hvn hvs => ?_
      obtain ⟨o, v', w, h1, cv, cw, h4⟩ := dissOne_spec hv hi (Exec.Named.mono hn hvn)
      exact ⟨o, w, h1, cw.ok, cw.nuser.trans cv.nuser, cw.socks.trans cv.socks, h4⟩
  | cabot =>
      refine loop (dissOneSc M ins) fun e hn v hv hvn hvs => ?_
      obtain ⟨o, w, h1, cw, h4⟩ := dissOneSc_spec hv hi hn.1 (hvn ▸ hn.2)
      exact ⟨o, w, h1, cw.ok, cw.nuser, cw.socks, h4⟩

variable {d : Daemon}

theorem find_conn {l : List Conn} {fd : ℤ} (h : ∃ c ∈ l, c.fd = fd) :
    ∃ c ∈ l, c.fd = fd ∧ l.find? (fun c => c.fd == fd) = some c := by
  cases hf : l.find? (fun c => c.fd == fd) with
  | none =>
      obtain ⟨c, hc, he⟩ := h
      have := List.find?_eq_none.mp hf c hc
      simp [he] at this
  | some c => exact ⟨c, List.mem_of_find?_eq_some hf, by simpa using List.find?_some hf, rfl⟩

theorem close_step (h : s.Inv M) {c : Conn} (hc : c ∈ s.conns)
    (hf : s.conns.find? (fun c' => c'.fd == c.fd) = some c) (ht : c.data.setWidth 32 = c.uid) :
    (NetEvent.close c.fd).step d M s = .ok ⟨{ s.users with
      socks := s.users.socks.set (c.uid.toNat - 1) (-1) }, s.conns.filter fun c' => c'.fd != c.fd, []⟩ := by
  obtain ⟨-, hpos, hle, -⟩ := h.conn c hc
  have hk := killUser_spec h.ok (uid_pos hpos) (hle.trans h.ok.room)
  simp only [NetEvent.step, hf, ht, hk, bind, Except.bind]
  rfl

theorem close_misses (h : s.Inv M) {c : Conn} (hc : c ∈ s.conns)
    (hf : s.conns.find? (fun c' => c'.fd == c.fd) = some c) (hne : c.data.setWidth 32 ≠ c.uid)
    (he : (NetEvent.close c.fd).step d M s = .ok s') : ∃ users : Users A, users.nuser = s.users.nuser ∧
      users.socks[c.uid.toNat - 1]? = some c.fd ∧ s' = ⟨users, s.conns.filter fun c' => c'.fd != c.fd, []⟩ := by
  obtain ⟨-, hpos, -, hsock⟩ := h.conn c hc
  simp only [NetEvent.step, hf, bind, Except.bind] at he
  by_cases hz : c.data.setWidth 32 = (0 : Uid)
  · rw [killUser, if_pos hz] at he
    cases he
    exact ⟨_, rfl, hsock, rfl⟩
  · rw [killUser, if_neg hz] at he
    by_cases hlt : ((c.data.setWidth 32 : Uid).toNat - 1) < s.users.socks.length
    · simp only [setAt_ok hlt, bind, Except.bind] at he
      cases he
      refine ⟨{ s.users with socks := s.users.socks.set _ (-1) }, rfl, ?_, rfl⟩
      refine (List.getElem?_set_ne fun heq => hne (BitVec.eq_of_toNat_eq ?_)).trans hsock
      have hnz : (c.data.setWidth 32 : Uid).toNat ≠ 0 := fun h0 => hz (BitVec.eq_of_toNat_eq h0)
      omega
    · simp only [setAt, if_neg hlt, bind, Except.bind] at he
      cases he

/-- **A step that meets the condition keeps the invariant and is private.** -/
theorem step_private (h : s.Inv M) {e : NetEvent A} (ha : e.allowed d M s) (ht : Told s e)
    (he : e.step d M s = .ok s') : s'.Inv M ∧ s.Private e s' := by
  cases e with
  | accept fd word junkS junkA =>
      obtain ⟨users, hu, hj⟩ := addUser_spec h.ok fd junkS junkA
      simp only [NetEvent.step, hu, bind, Except.bind] at he
      cases he
      have hinv := accept_inv h ha.1 ha.2 ht word hj
      exact ⟨hinv, hinv.isPrivate (fun y hy => absurd hy List.not_mem_nil) (by simp)⟩
  | data fd =>
      cases he
      have hinv : (⟨s.users, s.conns, []⟩ : Net A).Inv M :=
        ⟨h.ok, h.small, h.uids, h.fds, h.conn, h.gone⟩
      exact ⟨hinv, hinv.isPrivate (fun y hy => absurd hy List.not_mem_nil) (by simp)⟩
  | close fd =>
      obtain ⟨c, hc, rfl, hf⟩ := find_conn ha
      rw [close_step h hc hf (ht c hc rfl)] at he
      cases he
      have hinv := close_inv h hc
      refine ⟨hinv, hinv.isPrivate (fun y hy => absurd hy List.not_mem_nil) ?_⟩
      rintro fd' hfd c' hc' hfd' i hi
      cases hfd
      rw [eq_of_pairwise h.fds hc' hc hfd'] at hi
      have hpos := (h.conn c hc).2.1
      exact List.getElem?_set_ne (by omega)
  | diss ins es =>
      obtain ⟨o, u', hd, hk, hn, hs, ho⟩ := dissExe_spec d h.ok ha.1 ha.2
      simp only [NetEvent.step, hd, bind, Except.bind] at he
      cases he
      have hinv : (⟨u', s.conns, o⟩ : Net A).Inv M :=
        ⟨hk, by rw [hn]; exact h.small, h.uids, h.fds, by rw [hn, hs]; exact h.conn,
          by rw [hn, hs]; exact h.gone⟩
      refine ⟨hinv, hinv.isPrivate (fun y hy => ?_) (by simp)⟩
      exact (ho y hy).of_credited hn.symm hs.symm

/-- **A step that does not meet the condition is not private.** -/
theorem step_not_private (h : s.Inv M) {e : NetEvent A} (ha : e.allowed d M s) (ht : ¬ Told s e)
    (he : e.step d M s = .ok s') : ¬ s.Private e s' := by
  intro hp
  cases e with
  | accept fd word junkS junkA =>
      obtain ⟨users, hu, hj⟩ := addUser_spec h.ok fd junkS junkA
      simp only [NetEvent.step, hu, bind, Except.bind] at he
      cases he
      -- the uids have run out: this one is zero
      have hmax : s.users.nuser + 1 = 2 ^ 32 := by
        have := h.small
        have : ¬ s.users.nuser + 1 < 2 ^ 32 := ht
        omega
      have := (hp.isOpen _ List.mem_cons_self).1
      change 0 < (BitVec.ofNat 32 (s.users.nuser + 1)).toNat at this
      rw [hmax, BitVec.toNat_ofNat] at this
      exact absurd this (by decide)
  | data fd => exact ht trivial
  | close fd =>
      obtain ⟨c, hc, rfl, hf⟩ := find_conn ha
      obtain ⟨h0, hpos, hle, -⟩ := h.conn c hc
      have hne : c.data.setWidth 32 ≠ c.uid := fun heq => ht fun c' hc' hfd' => by
        rw [eq_of_pairwise h.fds hc' hc hfd', heq]
      obtain ⟨users, hn, hs, rfl⟩ := close_misses h hc hf hne he
      have hgone := hp.isClosed (c.uid.toNat - 1) (by rw [hn]; omega) fun c' hc' huid => by
        obtain ⟨hm, hfd⟩ := List.mem_filter.mp hc'
        have := h.slot_ne hc hm (by simpa using hfd)
        omega
      rw [hs] at hgone
      have := Option.some.inj hgone
      omega
  | diss ins es => exact ht trivial

variable (d M)

/-- **Fills only reach their owner** just in the runs in which every connection that is closed finds
its uid in the word nobody has set, and the uids have not run out. -/
theorem fills_private_iff {es : List (NetEvent A)} {s : Net A} :
    (netMachine d M).Always Net.Private es s ↔ ((netMachine d M).restrict Told).Runs es s := by
  refine Run.Machine.always_iff_restrict (I := fun s => s.Inv M) ?_ ?_ ?_
  · rintro s rfl
    exact none_inv M
  · exact fun s e s' h ha ht he => step_private h ha ht he
  · exact fun s e s' h ha ht he => step_not_private h ha ht he

end Steps

/-- A fill has gone to another user's connection. -/
def Net.leaks (s : Net A) : Bool :=
  s.outs.any fun o =>
    match o with
    | .fill fd usr _ _ => s.conns.any fun c => c.fd == fd && c.uid != usr
    | _ => false

theorem Net.Private.not_leaks {e : NetEvent A} (h : s.Private e s') : s'.leaks = false := by
  by_contra hl
  rw [Bool.not_eq_false, leaks, List.any_eq_true] at hl
  obtain ⟨o, ho, hm⟩ := hl
  cases o with
  | fill fd usr fil acc =>
      obtain ⟨c, hc, he⟩ := List.any_eq_true.mp hm
      rw [Bool.and_eq_true, beq_iff_eq, bne_iff_ne] at he
      exact he.2 (h.fills fd usr fil acc ho c hc he.1)
  | copy usr fil acc => cases hm
  | trade q => cases hm

/-- User `1` comes and goes, user `2` is given its descriptor, a resting order of user `1` trades. -/
def leakEvents : List (NetEvent ℚ) :=
  [.accept 5 0 (fun _ => 9) fun _ => ⟨1, 1⟩, .close 5, .accept 5 0 (fun _ => 9) fun _ => ⟨1, 1⟩] ++
    [.diss 0 [sampleExec]]

theorem leakEvents_leak : ∃ s, (netMachine .lobot sampleMarket).Runs leakEvents s ∧ s.leaks = true ∧
    ¬ (netMachine .lobot sampleMarket).Always Net.Private leakEvents s := by
  have hexec : ((netMachine .lobot sampleMarket).exec leakEvents ⟨Users.none, [], []⟩).any Net.leaks = true := by
    decide +kernel
  obtain ⟨s, hr, hl⟩ := Run.Machine.runs_of_any _ rfl hexec
  refine ⟨s, hr, hl, fun ha => ?_⟩
  obtain ⟨s₁, -, hp⟩ := ha.last
  rw [hp.not_leaks] at hl
  cases hl

end Unserlob
