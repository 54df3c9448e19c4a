import Unserlob.Exchange.Quotes
import Unserlob.Exchange.Routing
import Unserlob.Exchange.Statements

/-!
# The exchanges as a whole (`lobot.c`, `cabot.c`)

Connections, users and accounts, books, what is sent to each connection and what is published, and all
callbacks that `main` installs, in any order.

* `Omsg.map`, `Qmsg.map`: messages over the words of amounts;
* `Pit`: the library of books with the parties of its executions and its auctions;
* `House`, `House.prepCb`, `House.hbeatCb`: the state and the callbacks;
* `HouseEvent`, `houseMachine`: the runs; `HouseTold`, `toldMachine`: those in which connections are closed for their
  own user.
-/

namespace Unserlob

open Ascii Cursor Writer Table ForLoop

variable {A B : Type}

/-! ## Words of amounts -/

section Words

variable {D E : Type} (f : D → E)

def ClobOid.map (o : ClobOid D) : ClobOid E := ⟨o.typ, o.sid, f o.prc, o.qid, o.usr⟩

def UnxsExe.map (x : UnxsExe D) : UnxsExe E := ⟨f x.qty, f x.prc⟩

def UnxsExa.map (a : UnxsExa D) : UnxsExa E := ⟨f a.base, f a.term⟩

def QuosMsg.map (q : QuosMsg D) : QuosMsg E := ⟨q.sid, f q.prc, f q.new⟩

def MmodAuc.map (a : MmodAuc D) : MmodAuc E := ⟨f a.prc, f a.qty, f a.imb⟩

def ClobOrd.map (o : ClobOrd D) : ClobOrd E := ⟨o.typ, o.sid, ⟨f o.qty.dis, f o.qty.hid⟩, f o.lmt, f o.slp, o.usr⟩

def OBody.map : OBody D → OBody E
  | .unk => .unk
  | .acc a => .acc (a.map f)
  | .fil o x u => .fil (o.map f) (x.map f) u
  | .kil o => .kil (o.map f)
  | .nok o => .nok (o.map f)
  | .oid o => .oid (o.map f)
  | .can o => .can (o.map f)
  | .ord o => .ord (o.map f)

/-- An order message, with other decimals. -/
def Omsg.map (m : Omsg D) : Omsg E := ⟨m.ins, m.body.map f⟩

def QBody.map : QBody D → QBody E
  | .unk => .unk
  | .top q => .top (q.map f)
  | .lvl q => .lvl (q.map f)
  | .tra q => .tra (q.map f)
  | .auc a => .auc (a.map f)
  | .imb a => .imb (a.map f)

/-- A quote message, with other decimals. -/
def Qmsg.map (m : Qmsg D) : Qmsg E := ⟨m.ins, m.body.map f⟩

end Words

/-! ## The source -/

/-- The library of books with the parties of its executions and its auctions. Amounts are exact, and `word` is how
one is kept. -/
structure Pit (B A : Type) extends Feed B where
  execs : B → List (Exec A)
  unxsExa : UnxsExe A → ClobSide → UnxsExa A
  contra : ClobSide → ClobSide
  mmodAuction : B → MmodAuc Decimal64
  unxsAuction : B → Decimal64 → Decimal64 → B
  word : A → Decimal64
  exe_execs : ∀ b, exe b = (execs b).map fun e => e.x.map word

/-- What users and fills are configured with. -/
def Pit.market (P : Pit B A) (I : Instruments) : Market A := ⟨I.insth.length, I.name, P.unxsExa, P.contra⟩

/-- What has been sent: on whose connection, the messages, and the bytes. -/
abbrev Sent := List (Uid × List (Omsg Decimal64) × List UInt8)

/-- An exchange: users, connections, books, what has been sent and published; `n` is the auctioneer's count of
heartbeats. -/
structure House (B A : Type) where
  users : Users A
  conns : List Conn
  clob : List B
  sent : Sent
  pub : Published
  n : BitVec 32

section Source

/-- `send`, on the connection that has the descriptor, if any. -/
def House.post (fd : ℤ) (ms : List (Omsg Decimal64)) (t : List UInt8) (s : House B A) : House B A :=
  match s.conns.find? fun c => c.fd == fd with
  | none => s
  | some c => { s with sent := s.sent ++ [(c.uid, ms, t)] }

/-- The copy for the execution channel, in the buffer that still holds the messages of the party: its user goes behind
the account, and both may run over the end. -/
def execCopy (junk : List UInt8) (usr : Uid) (fil acc : Omsg Decimal64) : Res (List UInt8) := do
  let t ← replies junk fil acc
  if t = [] then pure []
  else
    let append : Put := do
      patch (ch '\t')
      snprintf 256 (decimal usr.toNat)
      putc (ch '\n')
    let y ← append ⟨t ++ junk.drop t.length, t.length⟩
    pure (y.2.mem.take y.2.len)

variable (d : Daemon) (P : Pit B A) (I : Instruments)

/-- What `diss_exe` sends and publishes. The copies for the execution channel are made and not kept. -/
def House.emit (junk : ℕ → List UInt8) : List (Out A) → House B A → Res (House B A)
  | [], s => .ok s
  | .fill fd _ fil acc :: os, s => do
    let t ← replies (junk s.sent.length) (fil.map P.word) (acc.map P.word)
    House.emit junk os (s.post fd [fil.map P.word, acc.map P.word] t)
  | .copy usr fil acc :: os, s => do
    let _ ← execCopy (junk s.sent.length) usr (fil.map P.word) (acc.map P.word)
    House.emit junk os s
  | .trade q :: os, s => do
    let pub ← sendQuo junk (q.map P.word) s.pub
    House.emit junk os { s with pub }

/-- What an order or a cancellation for book `b` is answered. -/
def Daemon.answer (C : Clob B) (nm : List UInt8) (u : Uid) (b : B) : OBody Decimal64 → List (Omsg Decimal64)
  | .ord o =>
    if ¬ (o.typ = clobTypeMkt ∨ o.typ = clobTypeLmt) then []
    else
      match d with
      | .lobot =>
        let (o, b) := C.unxsOrder b { o with usr := u.setWidth 64 } NAND64
        if sumGtZero o.qty.dis o.qty.hid then [⟨nm, .oid (C.clobAdd b o).1⟩] else []
      | .cabot =>
        let oi := (C.clobAdd b { o with usr := u.setWidth 64 }).1
        if oi.qid ≠ 0 then [⟨nm, .oid oi⟩] else []
  | .can o => [⟨nm, if ¬ (C.clobDel b o).1 < 0 then .kil o else .nok o⟩]
  | _ => []

/-- What a line is answered. -/
def Daemon.answers (C : Clob B) (c : ClientLine) (clob : List B) : List (Omsg Decimal64) :=
  match c.msg with
  | .error _ => []
  | .ok m =>
    let i := hins I.hash I.insth m.ins
    if I.insth.length < i then []
    else
      match clob[i]? with
      | none => []
      | some b => d.answer C (I.name i) c.uid b m.body

/-- A turn of the loop in `data_cb`, and what is sent on the connection. -/
def House.line (c : ClientLine) (s : House B A) : Res (House B A) := do
  let r ← d.line P.toClob I c ⟨s.clob, []⟩
  pure ({ s with clob := r.clob }.post c.fd (d.answers I P.toClob c s.clob) (r.sent.map Prod.snd).flatten)

variable [AddCommGroup A]

/-- `diss_exe` -/
def House.dissExe (junk : ℕ → List UInt8) (i : ℕ) (s : House B A) : Res (House B A) := do
  let b ← getAt s.clob i
  let (os, users) ← d.dissExe (P.market I) i (P.execs b) s.users
  let s ← House.emit P junk os { s with users }
  let clob ← setAt s.clob i (P.unxsClr b)
  pure { s with clob }

/-- `prep_cb` of `lobot.c` -/
def House.prepCb (junk : ℕ → List UInt8) (s : House B A) : Res (House B A) := do
  let s ← forRange (House.dissExe .lobot P I junk) I.NINSTR s
  let (clob, pub) ← forRange (onBook (dissQuo P.toFeed I.name junk)) I.NINSTR (s.clob, s.pub)
  pure { s with clob, pub }

/-- `mmod_auction` and `diss_imb` -/
def House.imb (junk : ℕ → List UInt8) (i : ℕ) (s : House B A) : Res (House B A) := do
  let b ← getAt s.clob i
  let pub ← sendQuo junk ⟨I.name i, .imb (P.mmodAuction b)⟩ s.pub
  pure { s with pub }

/-- `mmod_auction`, `unxs_auction` and `diss_auc` -/
def House.auc (junk : ℕ → List UInt8) (i : ℕ) (s : House B A) : Res (House B A) := do
  let b ← getAt s.clob i
  let auc := P.mmodAuction b
  let clob ← setAt s.clob i (P.unxsAuction b auc.prc auc.qty)
  let pub ← sendQuo junk ⟨I.name i, .auc auc⟩ s.pub
  pure { s with clob, pub }

/-- `quos_clr` -/
def House.quosClr (i : ℕ) (s : House B A) : Res (House B A) := do
  let b ← getAt s.clob i
  let clob ← setAt s.clob i (P.quosClr b)
  pure { s with clob }

variable [DecidableEq A]

/-- `hbeat_cb`, less the reports; `info` says that there is a channel for them. -/
def House.hbeatCb (info : Bool) (junk : ℕ → List UInt8) (s : House B A) : Res (House B A) :=
  match d with
  | .lobot => do
    if info then
      chckBook P.toClob s.clob
      chckAcct (P.market I) s.users
    pure s
  | .cabot => do
    -- perform auction on even ticks
    let n := s.n
    let s := { s with n := n + 1 }
    if n % 4 ≠ 0 then forRange (House.imb P I junk) I.NINSTR s
    else
      -- otherwise really do it
      let s ← forRange (House.auc P I junk) I.NINSTR s
      let s ← forRange (House.dissExe .cabot P I junk) I.NINSTR s
      -- not interested in quotes
      let s ← forRange (House.quosClr P) I.NINSTR s
      -- check accounts
      if info then chckAcct (P.market I) s.users
      pure s

end Source

/-! ## Runs -/

/-- What is in a buffer on the stack before anything is stored. -/
abbrev Stack256 := { l : List UInt8 // l.length = 256 }

/-- What can happen: a connection on descriptor `fd`, in memory that holds `word`; a line of a client; a read that
fails; the watcher in front of the event loop's wait; the timer. -/
inductive HouseEvent (A : Type) where
  | accept (fd : ℤ) (word : BitVec 64) (junkS : ℕ → ℤ) (junkA : ℕ → UnxsExa A)
  | line (c : ClientLine)
  | close (fd : ℤ)
  | prep (junk : ℕ → Stack256)
  | beat (junk : ℕ → Stack256)

section Machine

variable [AddCommGroup A] [DecidableEq A] (d : Daemon) (P : Pit B A) (I : Instruments) (info : Bool)

def HouseEvent.step : HouseEvent A → House B A → Res (House B A)
  | .accept fd word junkS junkA, s => do
    let (uid, users) ← addUser (P.market I) fd junkS junkA s.users
    pure { s with users, conns := ⟨fd, uid, word⟩ :: s.conns }
  | .line c, s => s.line d P I c
  | .close fd, s =>
    match s.conns.find? fun c => c.fd == fd with
    | none => .ok s
    | some c => do
      let users ← killUser (c.data.setWidth 32) s.users
      pure { s with users, conns := s.conns.filter fun c => c.fd != fd }
  | .prep junk, s => s.prepCb P I fun k => (junk k).1
  | .beat junk, s => s.hbeatCb d P I info fun k => (junk k).1

/-- The system hands out descriptors that are not open; lines come on open connections and end in a newline; only
`lobot` has the watcher. -/
def HouseEvent.allowed (s : House B A) : HouseEvent A → Prop
  | .accept fd _ _ _ => 0 ≤ fd ∧ ∀ c ∈ s.conns, c.fd ≠ fd
  | .line c => (Ends c.line ∧ c.junk.length = 256) ∧ ∃ k ∈ s.conns, k.fd = c.fd ∧ k.uid = c.uid
  | .close fd => ∃ c ∈ s.conns, c.fd = fd
  | .prep _ => d = .lobot
  | .beat _ => True

/-- The exchange, from its start. -/
def houseMachine : Run.Machine (House B A) (HouseEvent A) where
  init s := s = ⟨Users.none, [], List.replicate I.NINSTR P.makeClob, [], [], 0⟩
  allowed s e := e.allowed d s
  step e s := e.step d P I info s

/-- The condition: uids have not run out when a connection is accepted, and when one is closed its data word
holds its uid. -/
def HouseTold (s : House B A) : HouseEvent A → Prop
  | .accept _ _ _ _ => s.users.nuser + 1 < 2 ^ 32
  | .close fd => ∀ c ∈ s.conns, c.fd = fd → c.data.setWidth 32 = c.uid
  | _ => True

/-- The runs that meet it. -/
def toldMachine : Run.Machine (House B A) (HouseEvent A) := (houseMachine d P I info).restrict HouseTold

end Machine

end Unserlob
