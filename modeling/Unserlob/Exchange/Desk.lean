import Unserlob.Exchange.Served

/-!
# What exchanges read (`data_cb`)

Bytes come on the connections, cut anywhere. The lines that end in a read are dealt with one after the other, and
what is left over stays in the buffer of the connection.

* `House.serve`: the body of the loop; `Desk`, `DeskEvent`, `deskMachine`: the exchange with its buffers;
* `readOf`, `linesOf`, `asksOf`: what has been read of a user, the lines dealt with, and what was asked;
* `serve_lines`: one read; `Desk.Inv`: the invariant; **`desk_house`**: a run is one that is given the lines;
* **`desk_refines`**: a run is one of a hall.
-/

namespace Unserlob

open Ascii Cursor Writer Lines Table

variable {A B : Type}

/-! ## The source -/

/-- What a turn of the loop finds on the stack. -/
structure Turn where
  stack : Locals
  junk : Stack256

/-- The body of the loop in `data_cb`, for a connection. -/
def House.serve (d : Daemon) (P : Pit B A) (I : Instruments) (c : Conn) : Handler ((ℕ → Turn) × House B A) :=
  fun p n s => do
    let t := s.2.1 0
    let house ← s.2.2.line d P I ⟨c.fd, c.uid, p.take n, p.drop n, t.stack, t.junk.1⟩
    pure (s.1, fun k => s.2.1 (k + 1), house)

/-- An exchange with `buf` and `bof` of the connection of every user. -/
structure Desk (B A : Type) where
  house : House B A
  bufs : Uid → List UInt8 × ℕ

/-- What can happen: a connection, in memory that holds `word` and `mem`; a read on the connection of a user; one that
fails; the watcher; the timer. -/
inductive DeskEvent (A : Type) where
  | accept (fd : ℤ) (word : BitVec 64) (junkS : ℕ → ℤ) (junkA : ℕ → UnxsExa A) (mem : List UInt8)
  | read (u : Uid) (chunk : List UInt8) (turns : ℕ → Turn)
  | close (fd : ℤ)
  | prep (junk : ℕ → Stack256)
  | beat (junk : ℕ → Stack256)

/-- `UBSZ` -/
def Instruments.UBSZ (I : Instruments) : ℕ := 4096 - I.bufoff

section Machine

variable [AddCommGroup A] [DecidableEq A] (d : Daemon) (P : Pit B A) (I : Instruments) (info : Bool)

/-- `beef_cb`, `data_cb`, `prep_cb` and `hbeat_cb` -/
def DeskEvent.step : DeskEvent A → Desk B A → Res (Desk B A)
  | .accept fd word junkS junkA mem, s => do
    let (uid, users) ← addUser (P.market I) fd junkS junkA s.house.users
    pure ⟨{ s.house with users, conns := ⟨fd, uid, word⟩ :: s.house.conns }, Function.update s.bufs uid (mem, 0)⟩
  | .read u chunk turns, s =>
    match s.house.conns.find? fun c => c.uid == u with
    | none => .ok s
    | some c => do
      let (mem, bof, _, house) ←
        (readLines 0 leftSub (House.serve d P I c) chunk (s.bufs u).1 (s.bufs u).2 (turns, s.house)).2
      pure ⟨house, Function.update s.bufs u (mem, bof)⟩
  | .close fd, s => do
    let house ← (HouseEvent.close fd).step d P I info s.house
    pure { s with house }
  | .prep junk, s => do
    let house ← (HouseEvent.prep junk).step d P I info s.house
    pure { s with house }
  | .beat junk, s => do
    let house ← (HouseEvent.beat junk).step d P I info s.house
    pure { s with house }

/-- As for a `House`; a read brings something, and at most what there is room for. -/
def DeskEvent.allowed (s : Desk B A) : DeskEvent A → Prop
  | .accept fd _ _ _ mem => (0 ≤ fd ∧ ∀ c ∈ s.house.conns, c.fd ≠ fd) ∧ mem.length = I.UBSZ
  | .read u chunk _ => (∃ c ∈ s.house.conns, c.uid = u) ∧ chunk ≠ [] ∧ chunk.length ≤ I.UBSZ - (s.bufs u).2
  | .close fd => ∃ c ∈ s.house.conns, c.fd = fd
  | .prep _ => d = .lobot
  | .beat _ => True

/-- The condition of `HouseTold`. -/
def DeskTold (s : Desk B A) : DeskEvent A → Prop
  | .accept _ _ _ _ _ => s.house.users.nuser + 1 < 2 ^ 32
  | .close fd => ∀ c ∈ s.house.conns, c.fd = fd → c.data.setWidth 32 = c.uid
  | _ => True

/-- The exchange from its start, as long as connections are closed for their own users. -/
def deskMachine : Run.Machine (Desk B A) (DeskEvent A) where
  init s := s.house = ⟨Users.none, [], List.replicate I.NINSTR P.makeClob, [], [], 0⟩
  allowed s e := e.allowed d I s ∧ DeskTold s e
  step e s := e.step d P I info s

end Machine

/-! ## What is read, and what is asked -/

def DeskEvent.bytes (u : Uid) : DeskEvent A → List UInt8
  | .read v chunk _ => if v = u then chunk else []
  | _ => []

/-- What has been read of a user. -/
def readOf (u : Uid) (es : List (DeskEvent A)) : List UInt8 := es.flatMap (DeskEvent.bytes u)

def HouseEvent.lineOf (u : Uid) : HouseEvent A → Option (List UInt8)
  | .line c => if c.uid = u then some c.line else none
  | _ => none

/-- The lines of a user that have been dealt with. -/
def linesOf (u : Uid) (hs : List (HouseEvent A)) : List (List UInt8) := hs.filterMap (HouseEvent.lineOf u)

def HallEvent.askOf (u : Uid) : HallEvent → Option (Omsg Decimal64)
  | .ask v m => if v = u then some m else none
  | _ => none

/-- What a user has asked. -/
def asksOf (u : Uid) (ts : List HallEvent) : List (Omsg Decimal64) := ts.filterMap (HallEvent.askOf u)

/-- A message that may be decoded from a line, whatever lies behind it and is on the stack. -/
def Decoded (l : List UInt8) (m : Omsg Decimal64) : Prop := ∃ stack rest, recvOmsg stack (l ++ rest) l.length = .ok m

/-- What becomes of an event: the lines of a user for what was read of them. -/
def DeskEvent.Does : DeskEvent A → List (HouseEvent A) → Prop
  | .accept fd word junkS junkA _, xs => xs = [.accept fd word junkS junkA]
  | .read u _ _, xs => ∃ cs : List ClientLine, xs = cs.map .line ∧ ∀ c ∈ cs, c.uid = u
  | .close fd, xs => xs = [.close fd]
  | .prep junk, xs => xs = [.prep junk]
  | .beat junk, xs => xs = [.beat junk]

/-- What becomes of it in a hall. -/
def DeskEvent.InHall : DeskEvent A → List HallEvent → Prop
  | .accept _ _ _ _ _, xs => xs = [.enter]
  | .read u _ _, xs => ∃ ms : List (Omsg Decimal64), xs = ms.map (.ask u)
  | .close _, xs => xs = []
  | .prep _, xs => xs = [.prep]
  | .beat _, xs => xs = [.beat]

section Lists

variable {u : Uid} {es : List (DeskEvent A)} {hs xs : List (HouseEvent A)}

theorem readOf_concat (u : Uid) (es : List (DeskEvent A)) (e : DeskEvent A) :
    readOf u (es ++ [e]) = readOf u es ++ e.bytes u := by
  rw [readOf, List.flatMap_append, List.flatMap_singleton]
  rfl

theorem linesOf_append (u : Uid) (hs xs : List (HouseEvent A)) : linesOf u (hs ++ xs) = linesOf u hs ++ linesOf u xs :=
  List.filterMap_append

theorem linesOf_lines {cs : List ClientLine} {v : Uid} (h : ∀ c ∈ cs, c.uid = v) (u : Uid) :
    linesOf u (cs.map (HouseEvent.line : ClientLine → HouseEvent A)) =
      if v = u then cs.map ClientLine.line else [] := by
  rw [linesOf, List.filterMap_map]
  split_ifs with huv
  · rw [← List.filterMap_eq_map]
    exact List.filterMap_congr fun c hc => if_pos ((h c hc).trans huv)
  · exact List.filterMap_eq_nil_iff.mpr fun c hc => if_neg fun he => huv ((h c hc).symm.trans he)

end Lists

/-! ## One read -/

section Read

variable {d : Daemon} {P : Pit B A} {I : Instruments}

theorem line_conns {c : ClientLine} {s s' : House B A} (h : s.line d P I c = .ok s') :
    s'.conns = s.conns ∧ s'.users = s.users := by
  obtain ⟨r, -, h⟩ := bind_ok.mp h
  cases h
  unfold House.post
  split
  · exact ⟨rfl, rfl⟩
  · exact ⟨rfl, rfl⟩

theorem line_msg {c : ClientLine} {s s' : House B A} (h : s.line d P I c = .ok s') : ∃ m, c.msg = .ok m := by
  obtain ⟨r, hr, -⟩ := bind_ok.mp h
  obtain ⟨x, hx, -⟩ := map_ok.mp hr
  obtain ⟨m, hm, -⟩ := bind_ok.mp hx
  exact ⟨m, hm⟩

theorem serve_fst {c : Conn} {p : Ptr} {n : ℕ} {s s' : List UInt8 × (ℕ → Turn) × House B A}
    (h : House.serve d P I c p n s = .ok s') : s'.1 = s.1 := by
  obtain ⟨x, -, h⟩ := bind_ok.mp h
  cases h
  rfl

variable [AddCommGroup A] [DecidableEq A] {info : Bool}

theorem serve_lines {c : Conn} {ls : List (List UInt8)} (hls : ∀ l ∈ ls, Ends l) {hs : List (HouseEvent A)}
    {w w' : (ℕ → Turn) × House B A} (hr : (toldMachine d P I info).Runs hs w.2) (hc : c ∈ w.2.conns)
    (h : Chain (fun l w w' => ∃ r m, House.serve d P I c (l ++ r) l.length (m, w) = .ok (m, w')) ls w w') :
    ∃ cs : List ClientLine, cs.map ClientLine.line = ls ∧ (∀ x ∈ cs, x.uid = c.uid) ∧
      (toldMachine d P I info).Runs (hs ++ cs.map .line) w'.2 ∧ w'.2.conns = w.2.conns ∧ w'.2.users = w.2.users := by
  induction ls generalizing hs w with
  | nil =>
      cases h
      exact ⟨[], rfl, List.forall_mem_nil _, by rwa [List.map_nil, List.append_nil], rfl, rfl⟩
  | cons l ls ih =>
      obtain ⟨v, ⟨r, m, hl⟩, h⟩ := h
      obtain ⟨hend, hls⟩ := List.forall_mem_cons.mp hls
      obtain ⟨house, hline, he⟩ := bind_ok.mp hl
      cases he
      rw [List.take_left, List.drop_left] at hline
      obtain ⟨hconns, husers⟩ := line_conns hline
      have hnext : (toldMachine d P I info).Runs
          (hs ++ [.line ⟨c.fd, c.uid, l, r, (w.1 0).stack, (w.1 0).junk.1⟩]) house :=
        hr.next ⟨⟨⟨hend, (w.1 0).junk.2⟩, c, hc, rfl, rfl⟩, trivial⟩ hline
      obtain ⟨cs, hcs, huid, hruns, hconns', husers'⟩ := ih hls hnext (hconns.symm ▸ hc) h
      refine ⟨⟨c.fd, c.uid, l, r, (w.1 0).stack, (w.1 0).junk.1⟩ :: cs, by rw [List.map_cons, hcs],
        List.forall_mem_cons.mpr ⟨rfl, huid⟩, ?_, hconns'.trans hconns, husers'.trans husers⟩
      rwa [List.map_cons, List.append_cons]

end Read

/-! ## The invariant -/

/-- The buffer of every user holds what is left over of what has been read; who is not there yet has not been read. -/
structure Desk.Inv (I : Instruments) (es : List (DeskEvent A)) (s : Desk B A) : Prop where
  bufs : ∀ u : Uid, 0 < u.toNat → u.toNat ≤ s.house.users.nuser →
    Leftover I.UBSZ (readOf u es) (s.bufs u).1 (s.bufs u).2
  fresh : ∀ u : Uid, s.house.users.nuser < u.toNat → readOf u es = []

theorem Leftover.update {n : ℕ} {bufs : Uid → List UInt8 × ℕ} {g : Uid → List UInt8} {u v : Uid}
    {x : List UInt8 × ℕ} (hu : Leftover n (g u) x.1 x.2) (hv : v ≠ u → Leftover n (g v) (bufs v).1 (bufs v).2) :
    Leftover n (g v) (Function.update bufs u x v).1 (Function.update bufs u x v).2 := by
  by_cases h : v = u
  · subst h
    rw [Function.update_self]
    exact hu
  · rw [Function.update_of_ne h]
    exact hv h

theorem Desk.Inv.quiet {I : Instruments} {es : List (DeskEvent A)} {s s' : Desk B A} (h : s.Inv I es) {e : DeskEvent A}
    (he : ∀ u, e.bytes u = []) (hn : s'.house.users.nuser = s.house.users.nuser) (hb : s'.bufs = s.bufs) :
    s'.Inv I (es ++ [e]) := by
  have hread : ∀ u, readOf u (es ++ [e]) = readOf u es := fun u => by rw [readOf_concat, he, List.append_nil]
  refine ⟨fun u hpos hle => ?_, fun u hlt => ?_⟩
  · rw [hread, hb]
    exact h.bufs u hpos (hn ▸ hle)
  · rw [hread]
    exact h.fresh u (hn ▸ hlt)

section Steps

variable [AddCommGroup A] [DecidableEq A] {d : Daemon} {P : Pit B A} {I : Instruments} {info : Bool}
  {es : List (DeskEvent A)} {hs : List (HouseEvent A)} {s s' : Desk B A}

theorem desk_accept (hP : P.Honest d) (hr : (toldMachine d P I info).Runs hs s.house) (hi : s.Inv I es) {fd : ℤ}
    {word : BitVec 64} {junkS : ℕ → ℤ} {junkA : ℕ → UnxsExa A} {mem : List UInt8}
    (ha : (deskMachine d P I info).allowed s (.accept fd word junkS junkA mem))
    (hstep : (DeskEvent.accept fd word junkS junkA mem).step d P I info s = .ok s') :
    (toldMachine d P I info).Runs (hs ++ [.accept fd word junkS junkA]) s'.house ∧
      s'.Inv I (es ++ [.accept fd word junkS junkA mem]) := by
  obtain ⟨⟨hfd, hmem⟩, ht⟩ := ha
  have ht : s.house.users.nuser + 1 < 2 ^ 32 := ht
  obtain ⟨h, -, hshow⟩ := house_shows hP hr
  obtain ⟨users, hu, hj⟩ := addUser_spec hshow.net.ok fd junkS junkA
  obtain ⟨⟨uid, users'⟩, hu', hstep⟩ := bind_ok.mp hstep
  cases hu'.symm.trans hu
  cases hstep
  have huid : (BitVec.ofNat 32 (s.house.users.nuser + 1)).toNat = s.house.users.nuser + 1 := by
    rw [BitVec.toNat_ofNat, Nat.mod_eq_of_lt ht]
  have hread : ∀ u, readOf u (es ++ [.accept fd word junkS junkA mem]) = readOf u es := fun u => by
    rw [readOf_concat]
    exact List.append_nil _
  have hn : users.nuser = s.house.users.nuser + 1 := hj.nuser
  refine ⟨hr.next ⟨hfd, ht⟩ ?_, fun u hpos hle => ?_, fun u hlt => ?_⟩
  · show (HouseEvent.accept fd word junkS junkA).step d P I info s.house = _
    simp only [HouseEvent.step, hu', bind, Except.bind]
    rfl
  · have hle : u.toNat ≤ users.nuser := hle
    refine Leftover.update (g := fun v => readOf v (es ++ [.accept fd word junkS junkA mem])) ?_ fun hu => ?_
    · show Leftover I.UBSZ (readOf (BitVec.ofNat 32 (s.house.users.nuser + 1)) _) mem 0
      rw [hread, hi.fresh _ (by rw [huid]; exact Nat.lt_succ_self _)]
      exact Leftover.empty hmem
    · have hu : u ≠ BitVec.ofNat 32 (s.house.users.nuser + 1) := hu
      have hne : u.toNat ≠ s.house.users.nuser + 1 := fun he => hu (BitVec.eq_of_toNat_eq (he.trans huid.symm))
      rw [hread]
      exact hi.bufs u hpos (by omega)
  · have hlt : users.nuser < u.toNat := hlt
    rw [hread]
    exact hi.fresh u (by omega)

theorem desk_read (hP : P.Honest d) (hr : (toldMachine d P I info).Runs hs s.house) (hi : s.Inv I es) {u : Uid}
    {chunk : List UInt8} {turns : ℕ → Turn} (ha : (deskMachine d P I info).allowed s (.read u chunk turns))
    (hstep : (DeskEvent.read u chunk turns).step d P I info s = .ok s') :
    ∃ cs : List ClientLine, (∀ c ∈ cs, c.uid = u) ∧
      cs.map ClientLine.line = (cut (ch '\n') ((cut (ch '\n') (readOf u es)).2 ++ chunk)).1 ∧
      (toldMachine d P I info).Runs (hs ++ cs.map .line) s'.house ∧ s'.Inv I (es ++ [.read u chunk turns]) := by
  obtain ⟨⟨⟨c, hc, hu⟩, hne, hroom⟩, -⟩ := ha
  obtain ⟨h, -, hshow⟩ := house_shows hP hr
  have hlen := List.length_pos_iff.mpr hne
  have hread : ∀ v, readOf v (es ++ [.read u chunk turns]) = readOf v es ++ if u = v then chunk else [] := fun v =>
    readOf_concat v es _
  cases hf : s.house.conns.find? fun c => c.uid == u with
  | none => exact absurd (List.find?_eq_none.mp hf c hc) (by simp [hu])
  | some c' =>
      have hc' : c' ∈ s.house.conns := List.mem_of_find?_eq_some hf
      have hu' : c'.uid = u := by simpa using List.find?_some hf
      obtain ⟨-, hpos, hle, -⟩ := hshow.net.conn c' hc'
      rw [hu'] at hpos hle
      simp only [DeskEvent.step, hf] at hstep
      obtain ⟨⟨mem, bof, turns', house⟩, hlines, hstep⟩ := bind_ok.mp hstep
      cases hstep
      obtain ⟨hleft, hchain⟩ := (hi.bufs u hpos hle).read (.inl rfl) (fun _ _ _ _ => serve_fst) (by omega) hlines
      obtain ⟨cs, hcs, huid, hruns, -, husers⟩ :=
        serve_lines (fun l hl => (isSegment_cut _ l hl).last) (w := (turns, s.house)) hr hc' hchain
      have husers : house.users = s.house.users := husers
      refine ⟨cs, fun x hx => (huid x hx).trans hu', hcs, hruns, fun v hv hvle => ?_, fun v hlt => ?_⟩
      · refine Leftover.update (g := fun v => readOf v (es ++ [.read u chunk turns])) ?_ fun huv => ?_
        · dsimp only
          rw [hread, if_pos rfl]
          exact hleft
        · rw [hread, if_neg (Ne.symm huv), List.append_nil]
          exact hi.bufs v hv (husers ▸ hvle)
      · have hlt : s.house.users.nuser < v.toNat := husers ▸ hlt
        have hle : u.toNat ≤ s.house.users.nuser := hle
        rw [hread, if_neg, List.append_nil]
        · exact hi.fresh v hlt
        · rintro rfl
          omega

theorem wait_users (hP : P.Honest d) (hr : (toldMachine d P I info).Runs hs s.house) {house : House B A}
    {junk : ℕ → Stack256} (hstep : d = .lobot ∧ (HouseEvent.prep junk).step d P I info s.house = .ok house ∨
      (HouseEvent.beat junk).step d P I info s.house = .ok house) : house.users.nuser = s.house.users.nuser := by
  obtain ⟨h, hruns, hshow⟩ := house_shows hP hr
  rw [hshow.users]
  rcases hstep with ⟨rfl, hstep⟩ | hstep
  · exact (prep_shows (fun k => (junk k).2) hP (hall_inv hP hruns) hshow hstep).users
  · refine (beat_shows (fun k => (junk k).2) hP (hall_inv hP hruns) hshow hstep).users.trans ?_
    cases d with
    | lobot => rfl
    | cabot =>
        unfold Hall.step
        dsimp only
        split_ifs
        · rfl
        · rfl

theorem close_users (hP : P.Honest d) (hr : (toldMachine d P I info).Runs hs s.house) {fd : ℤ} {house : House B A}
    (ha : (toldMachine d P I info).allowed s.house (.close fd))
    (hstep : (HouseEvent.close fd).step d P I info s.house = .ok house) :
    house.users.nuser = s.house.users.nuser := by
  obtain ⟨h, -, hshow⟩ := house_shows hP hr
  obtain ⟨c, hc, rfl, hf⟩ := find_conn ha.1
  obtain ⟨-, hpos, hle, -⟩ := hshow.net.conn c hc
  have hword : c.data.setWidth 32 = c.uid := ha.2 c hc rfl
  simp only [HouseEvent.step, hf, hword] at hstep
  obtain ⟨users, hu, hstep⟩ := bind_ok.mp hstep
  cases hu.symm.trans (killUser_spec hshow.net.ok (uid_pos hpos) (hle.trans hshow.net.ok.room))
  cases hstep
  rfl

/-- **A run is one of an exchange that is given the lines** which end in its reads. -/
theorem desk_house (hP : P.Honest d) (h : (deskMachine d P I info).Runs es s) : ∃ parts : List (List (HouseEvent A)),
    List.Forall₂ DeskEvent.Does es parts ∧ (toldMachine d P I info).Runs parts.flatten s.house ∧ s.Inv I es ∧
      ∀ u, linesOf u parts.flatten = (cut (ch '\n') (readOf u es)).1 := by
  suffices hs : ∃ hs house, (toldMachine d P I info).Runs hs house ∧ house = s.house ∧ s.Inv I es ∧
      (∃ parts, List.Forall₂ DeskEvent.Does es parts ∧ hs = parts.flatten) ∧
      ∀ u, linesOf u hs = (cut (ch '\n') (readOf u es)).1 by
    obtain ⟨_, _, hruns, rfl, hi, ⟨parts, hall, rfl⟩, hlines⟩ := hs
    exact ⟨parts, hall, hruns, hi, hlines⟩
  refine h.refines (Q := fun es s hs house => house = s.house ∧ s.Inv I es ∧
      (∃ parts, List.Forall₂ DeskEvent.Does es parts ∧ hs = parts.flatten) ∧
      ∀ u, linesOf u hs = (cut (ch '\n') (readOf u es)).1) ?_ ?_
  · intro s hs
    refine ⟨s.house, hs, rfl, ⟨fun u hpos hle => ?_, fun u _ => rfl⟩, ⟨[], .nil, rfl⟩, fun u => rfl⟩
    rw [hs] at hle
    exact absurd hpos (Nat.not_lt.mpr hle)
  · rintro es s e s' hs house hr ⟨rfl, hi, ⟨parts, hall, rfl⟩, hlines⟩ ha hstep
    have hone : ∀ xs, e.Does xs → ∃ parts', List.Forall₂ DeskEvent.Does (es ++ [e]) parts' ∧
        parts.flatten ++ xs = parts'.flatten := fun xs hx =>
      ⟨parts ++ [xs], List.rel_append hall (.cons hx .nil), by rw [List.flatten_append, List.flatten_singleton]⟩
    -- events that bring no bytes and no lines
    have hquiet : ∀ x : HouseEvent A, (∀ u, e.bytes u = []) → (∀ u, x.lineOf u = none) → ∀ u,
        linesOf u (parts.flatten ++ [x]) = (cut (ch '\n') (readOf u (es ++ [e]))).1 := fun x he hx u => by
      rw [linesOf_append, hlines, readOf_concat, he, List.append_nil, linesOf, List.filterMap_cons_none (hx u)]
      exact List.append_nil _
    have hstep : e.step d P I info s = .ok s' := hstep
    cases e with
    | accept fd word junkS junkA mem =>
        obtain ⟨hruns, hi'⟩ := desk_accept hP hr hi ha hstep
        exact ⟨_, _, hruns, rfl, hi', hone _ rfl, hquiet _ (fun _ => rfl) fun _ => rfl⟩
    | read u chunk turns =>
        obtain ⟨cs, huid, hcs, hruns, hi'⟩ := desk_read hP hr hi ha hstep
        refine ⟨_, _, hruns, rfl, hi', hone _ ⟨cs, rfl, huid⟩, fun v => ?_⟩
        rw [linesOf_append, hlines, linesOf_lines huid, readOf_concat]
        by_cases huv : u = v
        · subst huv
          rw [if_pos rfl, hcs, DeskEvent.bytes, if_pos rfl, cut_append (readOf u es)]
        · rw [if_neg huv, List.append_nil, DeskEvent.bytes, if_neg huv, List.append_nil]
    | close fd =>
        obtain ⟨house, hclose, hstep⟩ := bind_ok.mp hstep
        cases hstep
        have hnext := hr.next (show (toldMachine d P I info).allowed s.house (.close fd) from ha) hclose
        have hn := close_users hP hr ha hclose
        exact ⟨_, _, hnext, rfl, hi.quiet (fun _ => rfl) hn rfl, hone _ rfl, hquiet _ (fun _ => rfl) fun _ => rfl⟩
    | prep junk =>
        obtain ⟨house, hprep, hstep⟩ := bind_ok.mp hstep
        cases hstep
        have hnext := hr.next (show (toldMachine d P I info).allowed s.house (.prep junk) from ha) hprep
        have hn := wait_users hP hr (.inl ⟨ha.1, hprep⟩)
        exact ⟨_, _, hnext, rfl, hi.quiet (fun _ => rfl) hn rfl, hone _ rfl, hquiet _ (fun _ => rfl) fun _ => rfl⟩
    | beat junk =>
        obtain ⟨house, hbeat, hstep⟩ := bind_ok.mp hstep
        cases hstep
        have hnext := hr.next (show (toldMachine d P I info).allowed s.house (.beat junk) from ⟨trivial, trivial⟩) hbeat
        have hn := wait_users hP hr (.inr hbeat)
        exact ⟨_, _, hnext, rfl, hi.quiet (fun _ => rfl) hn rfl, hone _ rfl, hquiet _ (fun _ => rfl) fun _ => rfl⟩

theorem asks_decoded {s : House B A} (h : (toldMachine d P I info).Runs hs s) (u : Uid) :
    List.Forall₂ Decoded (linesOf u hs) (asksOf u (hs.flatMap HouseEvent.inHall)) := by
  induction h with
  | start _ => exact .nil
  | @next hs s s' e _ _ hstep ih =>
      have hsplit : asksOf u ((hs ++ [e]).flatMap HouseEvent.inHall) =
          asksOf u (hs.flatMap HouseEvent.inHall) ++ asksOf u e.inHall := by
        rw [List.flatMap_append, List.flatMap_singleton, asksOf, List.filterMap_append]
        rfl
      rw [linesOf_append, hsplit]
      refine List.rel_append ih ?_
      cases e with
      | line c =>
          obtain ⟨m, hm⟩ := line_msg (show s.line d P I c = .ok s' from hstep)
          have hev : (HouseEvent.line c : HouseEvent A).inHall = [.ask c.uid m] := line_inHall hm
          rw [hev]
          by_cases hu : c.uid = u
          · simp only [linesOf, asksOf, HouseEvent.lineOf, HallEvent.askOf, List.filterMap_cons, List.filterMap_nil,
              if_pos hu]
            exact .cons ⟨_, _, hm⟩ .nil
          · simp only [linesOf, asksOf, HouseEvent.lineOf, HallEvent.askOf, List.filterMap_cons, List.filterMap_nil,
              if_neg hu]
            exact .nil
      | _ => exact .nil

omit [AddCommGroup A] [DecidableEq A] in
theorem does_inHall {e : DeskEvent A} {xs : List (HouseEvent A)} (h : e.Does xs) :
    e.InHall (xs.flatMap HouseEvent.inHall) := by
  cases e with
  | read u chunk turns =>
      obtain ⟨cs, rfl, huid⟩ := h
      show ∃ ms : List (Omsg Decimal64), _ = ms.map (HallEvent.ask u)
      induction cs with
      | nil => exact ⟨[], rfl⟩
      | cons c cs ih =>
          obtain ⟨rfl, huid⟩ := List.forall_mem_cons.mp huid
          obtain ⟨ms, hms⟩ := ih huid
          rw [List.map_cons, List.flatMap_cons, hms]
          cases hm : c.msg with
          | ok m => exact ⟨m :: ms, by rw [line_inHall hm]; rfl⟩
          | error f => exact ⟨ms, by rw [rubbish_inHall hm]; rfl⟩
  | _ =>
      cases h
      rfl

omit [AddCommGroup A] [DecidableEq A] in
theorem doing_inHall {parts : List (List (HouseEvent A))} (h : List.Forall₂ DeskEvent.Does es parts) :
    List.Forall₂ DeskEvent.InHall es (parts.map fun xs => xs.flatMap HouseEvent.inHall) ∧
      (parts.map fun xs => xs.flatMap HouseEvent.inHall).flatten = parts.flatten.flatMap HouseEvent.inHall := by
  induction h with
  | nil => exact ⟨.nil, rfl⟩
  | @cons e xs es parts hx _ ih =>
      rw [List.map_cons, List.flatten_cons, List.flatten_cons, List.flatMap_append, ih.2]
      exact ⟨.cons (does_inHall hx) ih.1, rfl⟩

theorem desk_shows (hP : P.Honest d) (hr : (deskMachine d P I info).Runs es s) : ∃ (parts : List (List HallEvent))
    (h : Hall B A), List.Forall₂ DeskEvent.InHall es parts ∧ (hallMachine d P I).Runs parts.flatten h ∧
      s.house.Shows P I h ∧ s.Inv I es ∧
      ∀ u, List.Forall₂ Decoded (cut (ch '\n') (readOf u es)).1 (asksOf u parts.flatten) := by
  obtain ⟨parts, hall, hruns, hi, hlines⟩ := desk_house hP hr
  obtain ⟨h, hh, hshow⟩ := house_shows hP hruns
  obtain ⟨hin, hflat⟩ := doing_inHall hall
  refine ⟨_, h, hin, hflat ▸ hh, hshow, hi, fun u => ?_⟩
  rw [hflat, ← hlines]
  exact asks_decoded hruns u

/-- **An exchange that reads bytes is a hall that is asked messages.** However the bytes of all connections are cut and
mixed with each other, with new connections, with ends of connections and with the watcher and the timer: there is a
hall in which the same happens event by event, a read being the messages on the lines that end in it. What a user has
asked there is decoded from the complete lines of what has been read of the user, in order, and the buffer of an open
connection holds the rest. Books and accounts are the same, the bytes sent on an open connection spell what its user is
told, and the datagrams what is published. -/
theorem desk_refines (hP : P.Honest d) (hr : (deskMachine d P I info).Runs es s) : ∃ (parts : List (List HallEvent))
    (h : Hall B A), List.Forall₂ DeskEvent.InHall es parts ∧ (hallMachine d P I).Runs parts.flatten h ∧
      (∀ u, List.Forall₂ Decoded (cut (ch '\n') (readOf u es)).1 (asksOf u parts.flatten)) ∧
      s.house.clob = h.books ∧ s.house.users.nuser = h.users ∧
      (∀ v : Uid, v ≠ 0 → v.toNat ≤ h.users → ∀ i < I.NINSTR, s.house.users.acct (P.market I) v i = some (h.acct v i)) ∧
      (∀ c ∈ s.house.conns, streamTo c.uid s.house.sent = textOf (h.told c.uid) ∧
        (s.bufs c.uid).1.take (s.bufs c.uid).2 = (cut (ch '\n') (readOf c.uid es)).2) ∧
      s.house.pub.map Prod.snd = (h.pub.filter fun m => m.body.sent).map qmsgText := by
  obtain ⟨parts, h, hin, hruns, hs, hi, hasks⟩ := desk_shows hP hr
  refine ⟨parts, h, hin, hruns, hasks, hs.books, hs.users, hs.acct, fun c hc => ⟨?_, ?_⟩, ?_⟩
  · rw [streamTo_eq c.uid hs.text, hs.told c hc]
  · obtain ⟨-, hpos, hle, -⟩ := hs.net.conn c hc
    exact (hi.bufs c.uid hpos hle).tail
  · rw [hs.pub, datagrams_sheet]

end Steps

/-! ## Two bots -/

instance DeskEvent.decAllowed (d : Daemon) (I : Instruments) (s : Desk B A) (e : DeskEvent A) :
    Decidable (e.allowed d I s) := by
  cases e <;> unfold DeskEvent.allowed <;> infer_instance

instance DeskTold.dec (s : Desk B A) (e : DeskEvent A) : Decidable (DeskTold s e) := by
  cases e <;> unfold DeskTold <;> infer_instance

instance deskMachine.decAllowed [AddCommGroup A] [DecidableEq A] (d : Daemon) (P : Pit B A) (I : Instruments)
    (info : Bool) (s : Desk B A) (e : DeskEvent A) : Decidable ((deskMachine d P I info).allowed s e) :=
  inferInstanceAs (Decidable (e.allowed d I s ∧ DeskTold s e))

def zeroTurn : Turn := ⟨⟨0, nilOid⟩, zeroStack⟩

/-- Two bots connect, and the order of the first comes in two pieces, with the order of the second in between. -/
def splitEvents : List (DeskEvent ℤ) :=
  [.accept 5 0 (fun _ => 9) (fun _ => ⟨1, 1⟩) (List.replicate 4032 0),
    .accept 6 0 (fun _ => 9) (fun _ => ⟨1, 1⟩) (List.replicate 4032 0),
    .read 1 (bytes ['S', 'E', 'L', '\t', 'I', '\t', '1']) fun _ => zeroTurn,
    .read 2 (bytes ['B', 'U', 'Y', '\t', 'I', '\t', '1', '\t', '1', '0', '0', '\n']) fun _ => zeroTurn,
    .read 1 (bytes ['\t', '1', '0', '0', '\n']) fun _ => zeroTurn, .prep fun _ => zeroStack]

theorem splitEvents_runs : ∃ s, (deskMachine .lobot samplePit sampleInstruments true).Runs splitEvents s ∧
    (∃ c ∈ s.house.conns, c.uid = 1) := by
  have h : ((deskMachine .lobot samplePit sampleInstruments true).exec splitEvents
      ⟨⟨Users.none, [], [([], [])], [], [], 0⟩, fun _ => ([], 0)⟩).any (fun s =>
        decide (∃ c ∈ s.house.conns, c.uid = 1)) = true := by
    decide +kernel
  obtain ⟨s, hr, hs⟩ := Run.Machine.runs_of_any _ rfl h
  exact ⟨s, hr, of_decide_eq_true hs⟩

/-- The first has asked one order in the hall. -/
theorem desk_refines_two : ∃ s parts h, (deskMachine .lobot samplePit sampleInstruments true).Runs splitEvents s ∧
    List.Forall₂ DeskEvent.InHall splitEvents parts ∧
    (hallMachine .lobot samplePit sampleInstruments).Runs parts.flatten h ∧
    s.house.clob = h.books ∧ ∃ m, asksOf 1 parts.flatten = [m] ∧
      Decoded (bytes ['S', 'E', 'L', '\t', 'I', '\t', '1', '\t', '1', '0', '0', '\n']) m := by
  obtain ⟨s, hs, -⟩ := splitEvents_runs
  obtain ⟨parts, h, hin, hruns, hasks, hbooks, -⟩ := desk_refines samplePit_honest hs
  have hone := hasks 1
  rw [show cut (ch '\n') (readOf 1 splitEvents) =
    ([bytes ['S', 'E', 'L', '\t', 'I', '\t', '1', '\t', '1', '0', '0', '\n']], []) by decide +kernel] at hone
  cases hm : asksOf 1 parts.flatten with
  | nil =>
      rw [hm] at hone
      cases hone
  | cons m ms =>
      rw [hm] at hone
      obtain ⟨hd, hnil⟩ := List.forall₂_cons.mp hone
      cases hnil
      exact ⟨s, parts, h, hs, hin, hruns, hbooks, m, hm, hd⟩

end Unserlob
