import Unserlob.Channel.Replay
import Unserlob.Exchange.Books
import Unserlob.Lib.Loop

/-!
# What is published (`prep_cb`)

The books queue executions and quotes. Before the exchange waits for events again it publishes both, and the
best levels of every book that has queued quotes.

* `Feed`: the library of books with its queues; `Feed.Lawful`: what is relied on;
* `sendQuo`, `dissTra`, `dissQuo`, `prepCb`: the source's functions; `tickerMachine`: lines, heartbeats and
  publications in any order;
* `Mirror`, `bookHeard`, `lastTop`: the books that can be made out from messages; `Feed.depth`, `Feed.best`: the books;
* `sendQuo_eq`, `prep_spec`: what is published; `Mirrored`, `book_mirrored`, `runs_mirrored`: the invariant and what
  keeps it;
* **`books_mirrored`**: a bot that keeps up with the quotes has the books.
-/

namespace Unserlob

open Ascii Cursor Writer Table ForLoop Lines

/-- The library of books with the queues `exe` and `quo`. -/
structure Feed (B : Type) extends Clob B where
  exe : B → List (UnxsExe Decimal64)
  quo : B → List (QuosMsg Decimal64)
  unxsClr : B → B
  quosClr : B → B

variable {B : Type}

/-! ## The source -/

section Source

variable (F : Feed B) (name : ℕ → List UInt8) (junk : ℕ → List UInt8)

/-- What is sent on `quot_chan`: messages, and the datagrams they are sent in. -/
abbrev Published := List (Qmsg Decimal64 × List UInt8)

/-- `SEND_QMSG`, where the buffer of the next message holds `junk` at first. -/
def sendQuo (m : Qmsg Decimal64) (pub : Published) : Res Published := do
  let (n, buf) ← sendQmsg 256 m ⟨junk pub.length, 0⟩
  if 0 < n then pure (pub ++ [(m, buf.mem.take n.toNat)]) else pure pub

/-- One `SEND_QMSG` after the other. -/
def sendQuos : List (Qmsg Decimal64) → Published → Res Published
  | [], pub => .ok pub
  | m :: ms, pub => do
    let pub ← sendQuo junk m pub
    sendQuos ms pub

/-- The second loop of `diss_exe`, and `unxs_clr`. -/
def dissTra (ins : ℕ) (b : B) (pub : Published) : Res (B × Published) := do
  let pub ← sendQuos junk ((F.exe b).map fun x => ⟨name ins, .tra ⟨nclobSides, x.prc, x.qty⟩⟩) pub
  pure (F.unxsClr b, pub)

/-- The first limit level of a side, or none. -/
def Feed.first (b : B) (sid : ClobSide) : QuosMsg Decimal64 :=
  match F.aggiter b clobTypeLmt sid with
  | i :: _ => ⟨sid, i.p, i.q.dis⟩
  | [] => ⟨sid, NAND64, zerodd⟩

/-- `diss_quo` -/
def dissQuo (ins : ℕ) (b : B) (pub : Published) : Res (B × Published) := do
  let pub ← sendQuos junk ((F.quo b).map fun q => ⟨name ins, .lvl q⟩) pub
  let pub ← if F.quo b ≠ [] then do
      let pub ← sendQuo junk ⟨name ins, .top (F.first b clobSideAsk)⟩ pub
      sendQuo junk ⟨name ins, .top (F.first b clobSideBid)⟩ pub
    else pure pub
  -- clear them quotes
  pure (F.quosClr b, pub)

/-- A turn of a loop in `prep_cb`. -/
def onBook (f : ℕ → B → Published → Res (B × Published)) (i : ℕ) (r : List B × Published) :
    Res (List B × Published) := do
  let b ← getAt r.1 i
  let (b, pub) ← f i b r.2
  let clob ← setAt r.1 i b
  pure (clob, pub)

/-- `prep_cb` -/
def prepCb (n : ℕ) (r : List B × Published) : Res (List B × Published) := do
  let r ← forRange (onBook (dissTra F name junk)) n r
  forRange (onBook (dissQuo F name junk)) n r

end Source

/-- The exchange, and what it has published. -/
structure Ticker (B : Type) where
  books : Books B
  pub : Published

inductive TickerEvent where
  | book (e : BookEvent)
  | prep (junk : ℕ → List UInt8)

def TickerEvent.step (F : Feed B) (I : Instruments) : TickerEvent → Ticker B → Res (Ticker B)
  | .book e, s => do
    let books ← e.step F.toClob I s.books
    pure { s with books }
  | .prep junk, s => do
    let (clob, pub) ← prepCb F I.name junk I.NINSTR (s.books.clob, s.pub)
    pure ⟨{ s.books with clob }, pub⟩

/-- Lines end in a newline; buffers on the stack have 256 bytes. -/
def TickerEvent.allowed : TickerEvent → Prop
  | .book e => ∀ c, e = .line c → Ends c.line ∧ c.junk.length = 256
  | .prep junk => ∀ k, (junk k).length = 256

/-- The runs: clients' lines, heartbeats and publications in any order. -/
def tickerMachine (F : Feed B) (I : Instruments) : Run.Machine (Ticker B) TickerEvent where
  init s := s = ⟨⟨List.replicate I.NINSTR F.makeClob, []⟩, []⟩
  allowed _ e := e.allowed
  step e s := e.step F I s

/-! ## Books -/

/-- The quantity that is shown at every price of either side. -/
abbrev Mirror := ClobSide → Decimal64.Num → Decimal64.Num

/-- Nothing is shown. -/
def Mirror.empty : Mirror := fun _ _ => .fin 0

/-- The quantity at a price is now another. -/
def Mirror.quote (d : Mirror) (sid : ClobSide) (p q : Decimal64.Num) : Mirror :=
  fun sid' p' => if sid' = sid ∧ p' = p then q else d sid' p'

/-- What a level line makes of the book of an instrument. -/
def Mirror.hear (ins : List UInt8) (d : Mirror) (m : List UInt8 × QSaid) : Mirror :=
  match m.2 with
  | .lvl sid p q => if m.1 = ins then d.quote sid p q else d
  | _ => d

/-- **The book of an instrument** that can be made out from messages. -/
def bookHeard (ins : List UInt8) (ms : List (List UInt8 × QSaid)) : Mirror := ms.foldl (Mirror.hear ins) .empty

/-- The best level of an instrument that a message tells. -/
def topSaid (ins : List UInt8) (sid : ClobSide) (m : List UInt8 × QSaid) : Option (Decimal64.Num × Decimal64.Num) :=
  match m.2 with
  | .top sid' p q => if m.1 = ins ∧ sid' = sid then some (p, q) else none
  | _ => none

/-- The best level that was told last. -/
def lastTop (ins : List UInt8) (sid : ClobSide) (ms : List (List UInt8 × QSaid)) :
    Option (Decimal64.Num × Decimal64.Num) := (ms.filterMap (topSaid ins sid)).getLast?

/-- The quantity that a book shows at a price. -/
def Feed.depth (F : Feed B) (b : B) : Mirror := fun sid p =>
  (((F.aggiter b clobTypeLmt sid).find? fun l => l.p.num = p).map fun l => l.q.dis.num).getD (.fin 0)

/-- The best level of a side, or not a number and zero. -/
def Feed.best (F : Feed B) (b : B) (sid : ClobSide) : Decimal64.Num × Decimal64.Num :=
  ((F.first b sid).prc.num, (F.first b sid).new.num)

theorem Feed.first_sid (F : Feed B) (b : B) (sid : ClobSide) : (F.first b sid).sid = sid := by
  unfold Feed.first
  split <;> rfl

/-- A quote that is waiting. -/
def Mirror.queued (d : Mirror) (q : QuosMsg Decimal64) : Mirror := d.quote q.sid q.prc.num q.new.num

/-- **The quantity at a price is now another**: the quotes put behind those that are queued tell what has become of
the quantities shown. -/
def Feed.Tells (F : Feed B) (b b' : B) : Prop :=
  ∃ qs, F.quo b' = F.quo b ++ qs ∧ (∀ q ∈ qs, q.sid = clobSideAsk ∨ q.sid = clobSideBid) ∧
    F.depth b' = qs.foldl Mirror.queued (F.depth b)

/-- **What is relied on.** Orders and cancellations queue quotes for the levels they change, and clearing the queues
changes nothing else. -/
structure Feed.Lawful (F : Feed B) : Prop where
  make : F.quo F.makeClob = [] ∧ F.depth F.makeClob = .empty
  order : ∀ b o px, F.Tells b (F.unxsOrder b o px).2
  add : ∀ b o, F.Tells b (F.clobAdd b o).2
  del : ∀ b i, F.Tells b (F.clobDel b i).2
  unxs : ∀ b, F.quo (F.unxsClr b) = F.quo b ∧ F.aggiter (F.unxsClr b) = F.aggiter b
  quos : ∀ b, F.quo (F.quosClr b) = [] ∧ F.aggiter (F.quosClr b) = F.aggiter b

theorem Feed.Tells.trans {F : Feed B} {b b' b'' : B} (h : F.Tells b b') (h' : F.Tells b' b'') : F.Tells b b'' := by
  obtain ⟨qs, hq, hs, hd⟩ := h
  obtain ⟨qs', hq', hs', hd'⟩ := h'
  refine ⟨qs ++ qs', by rw [hq', hq, List.append_assoc], fun q hm => ?_, by rw [hd', hd, List.foldl_append]⟩
  exact (List.mem_append.mp hm).elim (hs q) (hs' q)

/-! ## What is heard of a publication -/

section Heard

variable {nm : List UInt8} {d : Mirror}

/-- What the datagrams say. -/
def said (pub : Published) : List (List UInt8 × QSaid) := pub.map fun p => p.1.said

/-- The messages that are sent, with their datagrams. -/
def sheet (ms : List (Qmsg Decimal64)) : Published :=
  (ms.filter fun m => m.body.sent).map fun m => (m, qmsgText m)

theorem sheet_append (ms ms' : List (Qmsg Decimal64)) : sheet (ms ++ ms') = sheet ms ++ sheet ms' := by
  rw [sheet, List.filter_append, List.map_append]
  rfl

theorem messages_sheet (ms : List (Qmsg Decimal64)) : (sheet ms).map Prod.fst = ms.filter fun m => m.body.sent := by
  rw [sheet, List.map_map]
  exact List.map_id _

theorem datagrams_sheet (ms : List (Qmsg Decimal64)) :
    (sheet ms).map Prod.snd = (ms.filter fun m => m.body.sent).map qmsgText := by
  rw [sheet, List.map_map]
  rfl

theorem said_sheet (ms : List (Qmsg Decimal64)) : said (sheet ms) = (ms.filter fun m => m.body.sent).map Qmsg.said := by
  rw [said, sheet, List.map_map]
  rfl

theorem hear_other {ms : List (List UInt8 × QSaid)} (h : ∀ m ∈ ms, m.1 = nm → ∀ sid p q, m.2 ≠ .lvl sid p q) :
    ms.foldl (Mirror.hear nm) d = d := by
  induction ms generalizing d with
  | nil => rfl
  | cons m ms ih =>
      have hm : d.hear nm m = d := by
        unfold Mirror.hear
        split
        · next sid p q he => exact if_neg fun hn => h m List.mem_cons_self hn sid p q he
        · rfl
      rw [List.foldl_cons, hm]
      exact ih fun m' hm' => h m' (List.mem_cons_of_mem _ hm')

theorem hear_levels (qs : List (QuosMsg Decimal64)) :
    ((qs.map fun q => (⟨nm, .lvl q⟩ : Qmsg Decimal64)).map Qmsg.said).foldl (Mirror.hear nm) d =
      qs.foldl Mirror.queued d := by
  induction qs generalizing d with
  | nil => rfl
  | cons q qs ih =>
      have hq : d.hear nm (Qmsg.said ⟨nm, .lvl q⟩) = d.queued q := if_pos rfl
      rw [List.map_cons, List.map_cons, List.foldl_cons, hq, ih]
      rfl

theorem bookHeard_append (ms ms' : List (List UInt8 × QSaid)) :
    bookHeard nm (ms ++ ms') = ms'.foldl (Mirror.hear nm) (bookHeard nm ms) := List.foldl_append

theorem lastTop_other {sid : ClobSide} {ms ms' : List (List UInt8 × QSaid)} (h : ∀ m ∈ ms', m.1 ≠ nm) :
    lastTop nm sid (ms ++ ms') = lastTop nm sid ms := by
  have hnil : ms'.filterMap (topSaid nm sid) = [] := by
    refine List.filterMap_eq_nil_iff.mpr fun m hm => ?_
    unfold topSaid
    split
    · exact if_neg fun hc => h m hm hc.1
    · rfl
  rw [lastTop, List.filterMap_append, hnil, List.append_nil]
  rfl

end Heard

/-! ## Sending -/

section Send

variable {junk : ℕ → List UInt8} (hj : ∀ k, (junk k).length = 256)

include hj

/-- **`SEND_QMSG`**: a message that is sent goes out in a datagram of its own, or does not fit the buffer. -/
theorem sendQuo_eq (m : Qmsg Decimal64) (pub : Published) : sendQuo junk m pub =
    if m.body.sent then if (qmsgText m).length ≤ 256 then .ok (pub ++ [(m, qmsgText m)]) else .error .store
    else .ok pub := by
  by_cases hv : m.body.sent
  · rw [if_pos hv]
    by_cases hle : (qmsgText m).length ≤ 256
    · obtain ⟨s, hs, hh, -⟩ := sendQmsg_fit hv hle (show _ ≤ (junk pub.length).length by rw [hj]; exact hle)
      have hpos : (0 : ℤ) < (qmsgText m).length := by
        have : (qmsgText m).length ≠ 0 := by simp [qmsgText]
        omega
      have ht := hh.take
      rw [hh.len] at ht
      rw [if_pos hle, sendQuo, hs]
      simp only [bind, Except.bind, if_pos hpos, Int.toNat_natCast, ht]
      rfl
    · rw [if_neg hle, sendQuo, sendQmsg_over hv (hj _).le (by rw [hj]; omega)]
      rfl
  · rw [if_neg hv, sendQuo, sendQmsg_unsent hv]
    rfl

theorem sendQuo_ok {m : Qmsg Decimal64} {pub pub' : Published} (h : sendQuo junk m pub = .ok pub') :
    pub' = pub ++ sheet [m] := by
  rw [sendQuo_eq hj] at h
  split_ifs at h with hv <;> cases h
  · simp [sheet, hv]
  · simp [sheet, hv]

theorem sendQuos_ok {ms : List (Qmsg Decimal64)} {pub pub' : Published} (h : sendQuos junk ms pub = .ok pub') :
    pub' = pub ++ sheet ms := by
  induction ms generalizing pub with
  | nil =>
      cases h
      exact (List.append_nil _).symm
  | cons m ms ih =>
      obtain ⟨pub₁, h₁, h⟩ := bind_ok.mp h
      rw [ih h, sendQuo_ok hj h₁, List.append_assoc, ← sheet_append]
      rfl

variable {F : Feed B} {name : ℕ → List UInt8} {i : ℕ} {b : B} {pub : Published} {r : B × Published}

theorem dissTra_ok (h : dissTra F name junk i b pub = .ok r) : r.1 = F.unxsClr b ∧
    r.2 = pub ++ sheet ((F.exe b).map fun x => ⟨name i, .tra ⟨nclobSides, x.prc, x.qty⟩⟩) := by
  obtain ⟨pub₁, h₁, h⟩ := bind_ok.mp h
  cases h
  exact ⟨rfl, sendQuos_ok hj h₁⟩

/-- What `diss_quo` sends: the quotes, and if there are any the best levels. -/
def Feed.quotes (F : Feed B) (nm : List UInt8) (b : B) : List (Qmsg Decimal64) :=
  (F.quo b).map (fun q => ⟨nm, .lvl q⟩) ++
    if F.quo b ≠ [] then [⟨nm, .top (F.first b clobSideAsk)⟩, ⟨nm, .top (F.first b clobSideBid)⟩] else []

theorem dissQuo_ok (h : dissQuo F name junk i b pub = .ok r) :
    r.1 = F.quosClr b ∧ r.2 = pub ++ sheet (F.quotes (name i) b) := by
  obtain ⟨pub₁, h₁, h⟩ := bind_ok.mp h
  rw [Feed.quotes, sheet_append, ← List.append_assoc, ← sendQuos_ok hj h₁]
  by_cases hq : F.quo b ≠ []
  · simp only [if_pos hq] at h
    obtain ⟨pub₂, h₂, h⟩ := bind_ok.mp h
    obtain ⟨pub₃, h₃, h⟩ := bind_ok.mp h
    cases h
    rw [if_pos hq, sendQuo_ok hj h₃, sendQuo_ok hj h₂, List.append_assoc, ← sheet_append]
    exact ⟨rfl, rfl⟩
  · simp only [if_neg hq] at h
    cases h
    rw [if_neg hq]
    exact ⟨rfl, (List.append_nil _).symm⟩

end Send

/-! ## The invariant -/

/-- No other instrument has this name. -/
def Instruments.Once (I : Instruments) (i : ℕ) : Prop := ∀ j < I.NINSTR, I.name j = I.name i → j = i

/-- **What is heard, with the quotes that are still queued, is the book**, of every instrument. -/
structure Mirrored (F : Feed B) (I : Instruments) (clob : List B) (pub : Published) : Prop where
  length : clob.length = I.NINSTR
  text : ∀ p ∈ pub, p.2 = qmsgText p.1
  sided : ∀ b ∈ clob, ∀ q ∈ F.quo b, q.sid = clobSideAsk ∨ q.sid = clobSideBid
  depth : ∀ i b, clob[i]? = some b → I.Once i →
    (F.quo b).foldl Mirror.queued (bookHeard (I.name i) (said pub)) = F.depth b

section Steps

variable {F : Feed B} {I : Instruments} {clob : List B} {pub : Published} {i : ℕ} {b : B}

theorem text_sheet {ms : List (Qmsg Decimal64)} (h : ∀ p ∈ pub, p.2 = qmsgText p.1) :
    ∀ p ∈ pub ++ sheet ms, p.2 = qmsgText p.1 := by
  intro p hp
  rcases List.mem_append.mp hp with hp | hp
  · exact h p hp
  · obtain ⟨m, -, rfl⟩ := List.mem_map.mp hp
    rfl

theorem Mirrored.set (h : Mirrored F I clob pub) (hb : clob[i]? = some b) (b' : B) (ms : List (Qmsg Decimal64))
    (hins : ∀ m ∈ ms, m.ins = I.name i) (hsided : ∀ q ∈ F.quo b', q.sid = clobSideAsk ∨ q.sid = clobSideBid)
    (hdepth : ∀ d, (F.quo b).foldl Mirror.queued d = F.depth b →
      (F.quo b').foldl Mirror.queued ((said (sheet ms)).foldl (Mirror.hear (I.name i)) d) = F.depth b') :
    Mirrored F I (clob.set i b') (pub ++ sheet ms) := by
  obtain ⟨hi, -⟩ := List.getElem?_eq_some_iff.mp hb
  refine ⟨(List.length_set).trans h.length, text_sheet h.text, fun c hc => ?_, fun k c hc hk => ?_⟩
  · rcases List.mem_or_eq_of_mem_set hc with hc | rfl
    · exact h.sided c hc
    · exact hsided
  · have hsaid : said (pub ++ sheet ms) = said pub ++ said (sheet ms) := List.map_append
    rw [hsaid, bookHeard_append]
    by_cases hki : k = i
    · subst hki
      rw [List.getElem?_set_self hi] at hc
      cases hc
      exact hdepth _ (h.depth k b hb hk)
    · rw [List.getElem?_set_ne (Ne.symm hki)] at hc
      rw [hear_other]
      · exact h.depth k c hc hk
      · intro m hm hname
        rw [said_sheet] at hm
        obtain ⟨m', hm', rfl⟩ := List.mem_map.mp hm
        have hin : m'.ins = I.name i := hins m' (List.mem_filter.mp hm').1
        exact absurd (hk i (by rw [← h.length]; exact hi) (hin.symm.trans hname)).symm hki

theorem Mirrored.tells (h : Mirrored F I clob pub) (hb : clob[i]? = some b) {b' : B} (ht : F.Tells b b') :
    Mirrored F I (clob.set i b') pub := by
  obtain ⟨qs, hq, hs, hd⟩ := ht
  have hset := h.set hb b' [] (fun m hm => absurd hm List.not_mem_nil) (fun q hm => ?_) fun d hdep => ?_
  · rwa [show sheet [] = ([] : Published) from rfl, List.append_nil] at hset
  · rw [hq] at hm
    exact (List.mem_append.mp hm).elim (h.sided b (List.mem_of_getElem? hb) q) (hs q)
  · rw [hq, List.foldl_append, hd]
    exact congrArg (fun d => qs.foldl Mirror.queued d) hdep

theorem depth_congr {b' : B} (h : F.aggiter b' = F.aggiter b) : F.depth b' = F.depth b := by
  funext sid p
  rw [Feed.depth, h]
  rfl

theorem quotes_ins {nm : List UInt8} {m : Qmsg Decimal64} (h : m ∈ F.quotes nm b) : m.ins = nm := by
  rcases List.mem_append.mp h with hm | hm
  · obtain ⟨q, -, rfl⟩ := List.mem_map.mp hm
    rfl
  · split_ifs at hm
    · rcases List.mem_cons.mp hm with rfl | hm
      · rfl
      · cases List.mem_singleton.mp hm
        rfl
    · cases hm

theorem said_quotes (hs : ∀ q ∈ F.quo b, q.sid = clobSideAsk ∨ q.sid = clobSideBid) (nm : List UInt8) :
    said (sheet (F.quotes nm b)) = (F.quotes nm b).map Qmsg.said := by
  have hsent : ∀ m ∈ F.quotes nm b, m.body.sent := by
    intro m hm
    rcases List.mem_append.mp hm with hm | hm
    · obtain ⟨q, hq, rfl⟩ := List.mem_map.mp hm
      exact hs q hq
    · split_ifs at hm with hq
      · rcases List.mem_cons.mp hm with rfl | hm
        · exact .inl (F.first_sid b _)
        · cases List.mem_singleton.mp hm
          exact .inr (F.first_sid b _)
      · cases hm
  rw [said_sheet, List.filter_eq_self.mpr fun m hm => by simpa using hsent m hm]

section Lawful

variable (hF : F.Lawful)

include hF

theorem book_mirrored {e : BookEvent} {s s' : Books B} (h : Mirrored F I s.clob pub)
    (hs : e.step F.toClob I s = .ok s') : Mirrored F I s'.clob pub := by
  cases e with
  | line c =>
      rcases line_cases hs with rfl | ⟨i, o, hd⟩ | ⟨ins, o, -, -, ha⟩
      · exact h
      · obtain ⟨b, hb, hd⟩ := bind_ok.mp hd
        rw [sendTo_clob hd]
        exact h.tells (getAt_eq hb) (hF.del b o)
      · by_cases htyp : o.typ = clobTypeMkt ∨ o.typ = clobTypeLmt
        · obtain ⟨b, o', b', hb, hx, hset⟩ := omsgAddOrd_cases htyp ha
          rw [hset]
          refine h.tells hb ?_
          have horder := hF.order b { o with usr := c.uid.setWidth 64 } NAND64
          rw [hx] at horder
          split_ifs
          · exact horder.trans (hF.add b' o')
          · exact horder
        · rw [omsgAddOrd, if_pos htyp] at ha
          cases ha
          exact h
  | beat =>
      obtain ⟨_, -, hs⟩ := bind_ok.mp hs
      cases hs
      exact h

/-- **Trades** are no quotes. -/
theorem dissTra_mirrored (h : Mirrored F I clob pub) (hb : clob[i]? = some b) (xs : List (UnxsExe Decimal64)) :
    Mirrored F I (clob.set i (F.unxsClr b))
      (pub ++ sheet (xs.map fun x => ⟨I.name i, .tra ⟨nclobSides, x.prc, x.qty⟩⟩)) := by
  obtain ⟨hq, hagg⟩ := hF.unxs b
  refine h.set hb _ _ (fun m hm => ?_) (fun q hm => ?_) fun d hd => ?_
  · obtain ⟨x, -, rfl⟩ := List.mem_map.mp hm
    rfl
  · rw [hq] at hm
    exact h.sided b (List.mem_of_getElem? hb) q hm
  · rw [hq, depth_congr hagg, hear_other]
    · exact hd
    · intro m hm _ sid p q hl
      rw [said_sheet] at hm
      obtain ⟨m', hm', rfl⟩ := List.mem_map.mp hm
      obtain ⟨x, -, rfl⟩ := List.mem_map.mp (List.mem_filter.mp hm').1
      cases hl

/-- **Quotes** are heard, and then none are queued. -/
theorem dissQuo_mirrored (h : Mirrored F I clob pub) (hb : clob[i]? = some b) :
    Mirrored F I (clob.set i (F.quosClr b)) (pub ++ sheet (F.quotes (I.name i) b)) := by
  obtain ⟨hq, hagg⟩ := hF.quos b
  refine h.set hb _ _ (fun m hm => quotes_ins hm) (fun q hm => ?_) fun d hd => ?_
  · rw [hq] at hm
    cases hm
  · rw [hq, depth_congr hagg, said_quotes (h.sided b (List.mem_of_getElem? hb)), Feed.quotes, List.map_append,
      List.foldl_append, hear_levels, hd]
    refine hear_other fun m hm _ sid p q hl => ?_
    obtain ⟨m', hm', rfl⟩ := List.mem_map.mp hm
    split_ifs at hm'
    · rcases List.mem_cons.mp hm' with rfl | hm'
      · cases hl
      · cases List.mem_singleton.mp hm'
        cases hl
    · cases hm'

variable {junk : ℕ → List UInt8} (hj : ∀ k, (junk k).length = 256)

include hj

/-- **The first loop of `prep_cb`**: quotes and levels stay as they are. -/
theorem tras_mirrored (h : Mirrored F I clob pub) {n : ℕ} {r : List B × Published}
    (hr : forRange (onBook (dissTra F I.name junk)) n (clob, pub) = .ok r) : Mirrored F I r.1 r.2 ∧
      ∀ (k : ℕ) (b : B), clob[k]? = some b → ∃ b', r.1[k]? = some b' ∧ F.quo b' = F.quo b ∧ F.aggiter b' = F.aggiter b := by
  refine forRange_inv (I := fun _ (r : List B × Published) => Mirrored F I r.1 r.2 ∧
      ∀ (k : ℕ) (b : B), clob[k]? = some b → ∃ b', r.1[k]? = some b' ∧ F.quo b' = F.quo b ∧ F.aggiter b' = F.aggiter b) hr
    ⟨h, fun k b hb => ⟨b, hb, rfl, rfl⟩⟩ ?_
  rintro i - ⟨bs, p⟩ r' ⟨hm, hold⟩ hturn
  obtain ⟨b, hb, hturn⟩ := bind_ok.mp hturn
  obtain ⟨⟨b', p'⟩, hd, hturn⟩ := bind_ok.mp hturn
  obtain ⟨bs', hset, hturn⟩ := bind_ok.mp hturn
  cases hturn
  obtain ⟨rfl, rfl⟩ := dissTra_ok hj hd
  have hb : bs[i]? = some b := getAt_eq hb
  rw [setAt_eq hset]
  refine ⟨dissTra_mirrored hF hm hb _, fun k b₀ hb₀ => ?_⟩
  obtain ⟨b₁, hb₁, hq, hagg⟩ := hold k b₀ hb₀
  by_cases hk : i = k
  · subst hk
    cases hb.symm.trans hb₁
    obtain ⟨hq', hagg'⟩ := hF.unxs b
    exact ⟨_, List.getElem?_set_self (setAt_lt hset), hq'.trans hq, hagg'.trans hagg⟩
  · exact ⟨b₁, by rw [List.getElem?_set_ne hk]; exact hb₁, hq, hagg⟩

omit hF hj in
theorem lastTop_quotes (hs : ∀ q ∈ F.quo b, q.sid = clobSideAsk ∨ q.sid = clobSideBid) (hq : F.quo b ≠ [])
    (nm : List UInt8) (ms : List (List UInt8 × QSaid)) {sid : ClobSide} (hsid : sid = clobSideAsk ∨ sid = clobSideBid) :
    lastTop nm sid (ms ++ said (sheet (F.quotes nm b))) = some (F.best b sid) := by
  have htop : ∀ sid', topSaid nm sid (Qmsg.said ⟨nm, .top (F.first b sid')⟩) =
      if sid' = sid then some (F.best b sid') else none := by
    intro sid'
    show (if nm = nm ∧ (F.first b sid').sid = sid then _ else _) = _
    rw [F.first_sid b sid']
    simp [Feed.best]
  rw [said_quotes hs, Feed.quotes, if_pos hq, lastTop, List.map_append, ← List.append_assoc, List.filterMap_append]
  rcases hsid with rfl | rfl
  · rw [List.map_cons, List.map_singleton, List.filterMap_cons_some (by rw [htop, if_pos rfl]),
      List.filterMap_cons_none (by rw [htop, if_neg (by decide)])]
    exact List.getLast?_concat
  · rw [List.map_cons, List.map_singleton, List.filterMap_cons_none (by rw [htop, if_neg (by decide)]),
      List.filterMap_cons_some (by rw [htop, if_pos rfl])]
    exact List.getLast?_concat

/-- **The second loop**: all queues are empty, and the best levels of every book that had queued quotes are told. -/
theorem quos_mirrored (h : Mirrored F I clob pub) {r : List B × Published}
    (hr : forRange (onBook (dissQuo F I.name junk)) I.NINSTR (clob, pub) = .ok r) : Mirrored F I r.1 r.2 ∧
      (∀ b ∈ r.1, F.quo b = []) ∧
      ∀ k b, clob[k]? = some b → F.quo b ≠ [] → I.Once k → ∀ sid, sid = clobSideAsk ∨ sid = clobSideBid →
        lastTop (I.name k) sid (said r.2) = some (F.best b sid) := by
  obtain ⟨hm, -, hdone, htops⟩ := forRange_inv (I := fun j (r : List B × Published) => Mirrored F I r.1 r.2 ∧
      (∀ k, j ≤ k → r.1[k]? = clob[k]?) ∧ (∀ k b, k < j → r.1[k]? = some b → F.quo b = []) ∧
      ∀ k b, k < j → clob[k]? = some b → F.quo b ≠ [] → I.Once k → ∀ sid, sid = clobSideAsk ∨ sid = clobSideBid →
        lastTop (I.name k) sid (said r.2) = some (F.best b sid)) hr
    ⟨h, fun k _ => rfl, fun k b hk => absurd hk (Nat.not_lt_zero k), fun k b hk => absurd hk (Nat.not_lt_zero k)⟩ (by
      rintro i hi ⟨bs, p⟩ r' ⟨hm, hold, hdone, htops⟩ hturn
      obtain ⟨b, hb, hturn⟩ := bind_ok.mp hturn
      obtain ⟨⟨b', p'⟩, hd, hturn⟩ := bind_ok.mp hturn
      obtain ⟨bs', hset, hturn⟩ := bind_ok.mp hturn
      cases hturn
      obtain ⟨rfl, rfl⟩ := dissQuo_ok hj hd
      have hb : bs[i]? = some b := getAt_eq hb
      have hlt : i < bs.length := setAt_lt hset
      have hsided := hm.sided b (List.mem_of_getElem? hb)
      have hsaid : said (p ++ sheet (F.quotes (I.name i) b)) = said p ++ said (sheet (F.quotes (I.name i) b)) :=
        List.map_append
      rw [setAt_eq hset]
      refine ⟨dissQuo_mirrored hF hm hb, fun k hk => ?_, fun k b₀ hk hb₀ => ?_, fun k b₀ hk hb₀ hq hone sid hsid => ?_⟩
      · rw [List.getElem?_set_ne (by omega)]
        exact hold k (by omega)
      · by_cases hki : i = k
        · subst hki
          rw [List.getElem?_set_self hlt] at hb₀
          cases hb₀
          exact (hF.quos b).1
        · rw [List.getElem?_set_ne hki] at hb₀
          exact hdone k b₀ (by omega) hb₀
      · show lastTop (I.name k) sid (said (p ++ sheet (F.quotes (I.name i) b))) = _
        rw [hsaid]
        by_cases hki : i = k
        · subst hki
          have hold := hold i le_rfl
          rw [show (bs, p).1[i]? = some b from hb, hb₀] at hold
          cases hold
          exact lastTop_quotes hsided hq _ _ hsid
        · rw [lastTop_other]
          · exact htops k b₀ (by omega) hb₀ hq hone sid hsid
          · intro m hmem hname
            rw [said_quotes hsided] at hmem
            obtain ⟨m', hm', rfl⟩ := List.mem_map.mp hmem
            exact hki (hone i hi ((quotes_ins hm').symm.trans hname)))
  refine ⟨hm, fun b hb => ?_, fun k b hb => htops k b ?_ hb⟩
  · obtain ⟨k, hk⟩ := List.mem_iff_getElem?.mp hb
    refine hdone k b ?_ hk
    rw [← hm.length]
    exact (List.getElem?_eq_some_iff.mp hk).1
  · rw [← h.length]
    exact (List.getElem?_eq_some_iff.mp hb).1

theorem prep_spec (h : Mirrored F I clob pub) {r : List B × Published}
    (hr : prepCb F I.name junk I.NINSTR (clob, pub) = .ok r) : Mirrored F I r.1 r.2 ∧ (∀ b ∈ r.1, F.quo b = []) ∧
      ∀ k b, clob[k]? = some b → F.quo b ≠ [] → I.Once k → ∀ sid, sid = clobSideAsk ∨ sid = clobSideBid →
        lastTop (I.name k) sid (said r.2) = some (F.best b sid) := by
  obtain ⟨⟨c, p⟩, h₁, h₂⟩ := bind_ok.mp hr
  obtain ⟨hm, hold⟩ := tras_mirrored hF hj h h₁
  obtain ⟨hm', hempty, htops⟩ := quos_mirrored hF hj hm h₂
  refine ⟨hm', hempty, fun k b hb hq hone sid hsid => ?_⟩
  obtain ⟨b', hb', hq', hagg⟩ := hold k b hb
  have hbest : F.best b sid = F.best b' sid := by
    unfold Feed.best Feed.first
    rw [hagg]
  rw [hbest]
  exact htops k b' hb' (by rw [hq']; exact hq) hone sid hsid

end Lawful

end Steps

/-! ## Runs -/

section Runs

variable {F : Feed B} (hF : F.Lawful) {I : Instruments} {es : List TickerEvent} {s s' : Ticker B}

include hF

/-- **In every state of every run** what is heard, with the quotes that are still queued, is the book. -/
theorem runs_mirrored (h : (tickerMachine F I).Runs es s) : Mirrored F I s.books.clob s.pub := by
  refine h.inv (P := fun s => Mirrored F I s.books.clob s.pub) ?_ ?_
  · rintro s rfl
    have hmake : ∀ b ∈ List.replicate I.NINSTR F.makeClob, F.quo b = [] ∧ F.depth b = .empty := fun b hb => by
      rw [List.eq_of_mem_replicate hb]
      exact hF.make
    refine ⟨List.length_replicate, nofun, fun b hb q hq => ?_, fun i b hb _ => ?_⟩
    · rw [(hmake b hb).1] at hq
      cases hq
    · obtain ⟨hq, hd⟩ := hmake b (List.mem_of_getElem? hb)
      rw [hq, hd]
      rfl
  · intro s e s' hi ha hs
    have hs : e.step F I s = .ok s' := hs
    cases e with
    | book e =>
        obtain ⟨books, hb, hs⟩ := bind_ok.mp hs
        cases hs
        exact book_mirrored hF hi hb
    | prep junk =>
        obtain ⟨r, hr, hs⟩ := bind_ok.mp hs
        cases hs
        exact (prep_spec hF ha hi hr).1

/-- **A bot that keeps up with the quotes has the books.** After every publication in every run, whatever it does and
whatever it hears on its order channel and however the datagrams are cut, a bot that has got all of them has heard
messages from which the quantity at every price of every book can be made out, and the best levels of every book
that had queued quotes. -/
theorem books_mirrored (h : (tickerMachine F I).Runs es s) {junk : ℕ → List UInt8}
    (hj : (tickerMachine F I).allowed s (.prep junk)) (hs : (tickerMachine F I).step (.prep junk) s = .ok s')
    (hlines : ∀ p ∈ s'.pub, QmsgLine p.1) {U : Type} (L : Layout) (C : Callbacks U) (u₀ : U)
    {oms : List (Omsg Decimal64)} (homs : ∀ m ∈ oms, OmsgLine m) {fs : List TapEvent} {t : Tap U}
    (ht : (tapFrom L C u₀).Runs fs t) (ho : fs.flatMap TapEvent.ochBytes <+: textOf oms)
    (hq : fs.flatMap TapEvent.qchBytes = (s'.pub.map Prod.snd).flatten) :
    ∃ parts, List.Forall₂ TapEvent.Hears fs parts ∧ t.w.user = (C.play parts.flatten u₀).1 ∧
      ∀ i, I.Once i →
        (∀ b, s'.books.clob[i]? = some b →
          bookHeard (I.name i) (parts.flatten.filterMap Input.saidQ) = F.depth b) ∧
        ∀ b, s.books.clob[i]? = some b → F.quo b ≠ [] → ∀ sid, sid = clobSideAsk ∨ sid = clobSideBid →
          lastTop (I.name i) sid (parts.flatten.filterMap Input.saidQ) = some (F.best b sid) := by
  obtain ⟨r, hr, he⟩ := bind_ok.mp (show (TickerEvent.prep junk).step F I s = .ok s' from hs)
  cases he
  obtain ⟨hm, hempty, htops⟩ := prep_spec hF hj (runs_mirrored hF h) hr
  have hbytes : (r.2.map Prod.snd).flatten = ((r.2.map Prod.fst).map qmsgText).flatten := by
    rw [List.map_map]
    exact congrArg List.flatten (List.map_congr_left fun p hp => hm.text p hp)
  have hqms : ∀ m ∈ r.2.map Prod.fst, QmsgLine m := by
    intro m hmem
    obtain ⟨p, hp, rfl⟩ := List.mem_map.mp hmem
    exact hlines p hp
  have hq : fs.flatMap TapEvent.qchBytes = ((r.2.map Prod.fst).map qmsgText).flatten := hq.trans hbytes
  obtain ⟨hi, hog, hqg, hP⟩ := runs_played homs hqms ht
  rw [← hog] at ho
  rw [← hqg] at hq
  obtain ⟨parts, hears, hplayed⟩ := hP ho (hq ▸ List.prefix_rfl)
  have hheard : parts.flatten.filterMap Input.saidQ = said r.2 := by
    rw [hplayed.qch, qch_all hi hqms hq, List.take_length, List.map_map]
    rfl
  refine ⟨parts, hears, hplayed.user, fun i hone => ⟨fun b hb => ?_, fun b hb hne sid hsid => ?_⟩⟩
  · rw [hheard, ← hm.depth i b hb hone, hempty b (List.mem_of_getElem? hb)]
    rfl
  · rw [hheard]
    exact htops i b hb hne hone sid hsid

end Runs

/-! ## A sample -/

/-- Books that keep the levels as they are told, the latest first, and the quotes that are queued. -/
def sampleFeed : Feed (List (QuosMsg Decimal64) × List (QuosMsg Decimal64)) where
  makeClob := ([], [])
  unxsOrder b o _ := (o, b)
  clobAdd b o := (⟨o.typ, o.sid, o.lmt, 1, o.usr⟩,
    if o.typ = clobTypeLmt ∧ (o.sid = clobSideAsk ∨ o.sid = clobSideBid) then
      (⟨o.sid, o.lmt, o.qty.dis⟩ :: b.1, b.2 ++ [⟨o.sid, o.lmt, o.qty.dis⟩])
    else b)
  clobDel b _ := (-1, b)
  orders _ := []
  aggiter b typ sid :=
    if typ = clobTypeLmt then (b.1.filter fun q => q.sid = sid).map fun q => ⟨q.prc, ⟨q.new, zerodd⟩⟩ else []
  exe _ := []
  quo b := b.2
  unxsClr b := b
  quosClr b := (b.1, [])

theorem sampleFeed_refl (b : List (QuosMsg Decimal64) × List (QuosMsg Decimal64)) : sampleFeed.Tells b b :=
  ⟨[], (List.append_nil _).symm, nofun, rfl⟩

theorem sampleFeed_lawful : sampleFeed.Lawful where
  make := ⟨rfl, rfl⟩
  order b _ _ := sampleFeed_refl b
  del b _ := sampleFeed_refl b
  unxs _ := ⟨rfl, rfl⟩
  quos _ := ⟨rfl, rfl⟩
  add b o := by
    by_cases ho : o.typ = clobTypeLmt ∧ (o.sid = clobSideAsk ∨ o.sid = clobSideBid)
    · have hadd : (sampleFeed.clobAdd b o).2 =
          (⟨o.sid, o.lmt, o.qty.dis⟩ :: b.1, b.2 ++ [⟨o.sid, o.lmt, o.qty.dis⟩]) := if_pos ho
      rw [hadd]
      refine ⟨[⟨o.sid, o.lmt, o.qty.dis⟩], rfl, fun q hq => ?_, ?_⟩
      · cases List.mem_singleton.mp hq
        exact ho.2
      · funext sid p
        simp only [Feed.depth, sampleFeed, if_true, List.foldl_cons, List.foldl_nil, Mirror.queued, Mirror.quote]
        by_cases hs : sid = o.sid
        · subst hs
          by_cases hp : p = o.lmt.num
          · subst hp
            simp
          · simp [hp, Ne.symm hp]
        · simp [hs, Ne.symm hs]
    · have hadd : (sampleFeed.clobAdd b o).2 = b := if_neg ho
      rw [hadd]
      exact sampleFeed_refl b

/-- What is published of a bid for 5 at 100. -/
def samplePublished : List (Qmsg Decimal64) :=
  [⟨[ch 'I'], .lvl ⟨clobSideBid, 0x31c0000000000064, 0x31c0000000000005⟩⟩, ⟨[ch 'I'], .top ⟨clobSideAsk, NAND64, zerodd⟩⟩,
    ⟨[ch 'I'], .top ⟨clobSideBid, 0x31c0000000000064, 0x31c0000000000005⟩⟩]

theorem samplePublished_line : ∀ m ∈ samplePublished, QmsgLine m := by
  intro m hm
  have hwire : (0x31c0000000000064 : Decimal64).wire ∧ (0x31c0000000000005 : Decimal64).wire :=
    ⟨wire_of (by decide), wire_of (by decide)⟩
  simp only [samplePublished, List.mem_cons, List.not_mem_nil, or_false] at hm
  rcases hm with rfl | rfl | rfl
  · exact ⟨by decide, by decide, .inr rfl, .inl hwire⟩
  · exact ⟨by decide, by decide, .inl rfl, .inr ⟨num_NAND64, num_zerodd, nofun⟩⟩
  · exact ⟨by decide, by decide, .inr rfl, .inl hwire⟩

theorem sampleFeed_publishes : ∃ s s', (tickerMachine sampleFeed sampleInstruments).Runs
      [.book (.line (sampleClient positiveLine))] s ∧
    (tickerMachine sampleFeed sampleInstruments).step (.prep fun _ => List.replicate 256 0) s = .ok s' ∧
    s'.pub.map Prod.fst = samplePublished := by
  have h : (((tickerMachine sampleFeed sampleInstruments).step (.book (.line (sampleClient positiveLine)))
      ⟨⟨[sampleFeed.makeClob], []⟩, []⟩).toOption.bind fun s =>
        ((tickerMachine sampleFeed sampleInstruments).step (.prep fun _ => List.replicate 256 0) s).toOption.map
          fun s' => s'.pub.map Prod.fst) = some samplePublished := by decide +kernel
  cases hs : (tickerMachine sampleFeed sampleInstruments).step (.book (.line (sampleClient positiveLine)))
      ⟨⟨[sampleFeed.makeClob], []⟩, []⟩ with
  | error e => rw [hs] at h; cases h
  | ok s =>
      rw [hs] at h
      have hrun : (tickerMachine sampleFeed sampleInstruments).Runs ([] ++ [.book (.line (sampleClient positiveLine))]) s :=
        .next (.start rfl) (by rintro c ⟨⟩; exact ⟨rfl, List.length_replicate⟩) hs
      cases hs' : (tickerMachine sampleFeed sampleInstruments).step (.prep fun _ => List.replicate 256 0) s with
      | error e =>
          simp only [Except.toOption, Option.bind_some, hs'] at h
          cases h
      | ok s' =>
          simp only [Except.toOption, Option.bind_some, hs'] at h
          exact ⟨s, s', hrun, hs', Option.some.inj h⟩

/-- A bot that gets the datagrams has the book. -/
theorem books_mirrored_bid : ∃ s s' b t parts, (tickerMachine sampleFeed sampleInstruments).Runs
      [.book (.line (sampleClient positiveLine))] s ∧
    (tickerMachine sampleFeed sampleInstruments).step (.prep fun _ => List.replicate 256 0) s = .ok s' ∧
    (tapFrom sampleLayout sampleCallbacks false).Runs [.qch (s'.pub.map Prod.snd).flatten] t ∧
    List.Forall₂ TapEvent.Hears [.qch (s'.pub.map Prod.snd).flatten] parts ∧ s'.books.clob[0]? = some b ∧
    bookHeard [ch 'I'] (parts.flatten.filterMap Input.saidQ) = sampleFeed.depth b := by
  obtain ⟨s, s', hrun, hs, hpub⟩ := sampleFeed_publishes
  have hj : (tickerMachine sampleFeed sampleInstruments).allowed s (.prep fun _ => List.replicate 256 0) :=
    fun _ => List.length_replicate
  have hm := runs_mirrored sampleFeed_lawful (hrun.next hj hs)
  have hbytes : (s'.pub.map Prod.snd).flatten = (samplePublished.map qmsgText).flatten := by
    rw [← hpub, List.map_map]
    exact congrArg List.flatten (List.map_congr_left fun p hp => hm.text p hp)
  have hlines : ∀ p ∈ s'.pub, QmsgLine p.1 := fun p hp =>
    samplePublished_line _ (by rw [← hpub]; exact List.mem_map_of_mem hp)
  -- the bot
  have h₀ : (tapFrom sampleLayout sampleCallbacks false).Runs [] sampleTap := .start ⟨sampleTap_init, rfl⟩
  have ha : (TapEvent.qch (s'.pub.map Prod.snd).flatten).allowed sampleLayout sampleTap := by
    rw [hbytes]
    decide +kernel
  have hseg : ∀ l ∈ samplePublished.map qmsgText, IsSegment (ch '\n') l := by
    intro l hl
    obtain ⟨m, hmem, rfl⟩ := List.mem_map.mp hl
    exact isSegment_qmsgText (samplePublished_line m hmem).newline
  have hT : Tidy sampleLayout sampleCallbacks sampleTap (.qch (s'.pub.map Prod.snd).flatten) := by
    refine tidy_qch (start_tap sampleTap_init) ha (fun l hl => ?_) fun m u n => trivial
    rw [show slice sampleTap.mem sampleLayout.QBOF0 sampleTap.qch.bof = [] from rfl, List.nil_append, hbytes,
      cut_received_all hseg] at hl
    obtain ⟨m, hmem, rfl⟩ := List.mem_map.mp hl
    exact ⟨m, samplePublished_line m hmem, rfl⟩
  obtain ⟨t, ht, -, -⟩ := tidy_step (start_tap sampleTap_init) ha hT
  have hbot : (tapFrom sampleLayout sampleCallbacks false).Runs [.qch (s'.pub.map Prod.snd).flatten] t :=
    tapFrom_next h₀ ha hT ht
  have hlt : 0 < s'.books.clob.length := by
    rw [hm.length]
    decide
  have hnone : [TapEvent.qch (s'.pub.map Prod.snd).flatten].flatMap TapEvent.ochBytes <+: textOf [] := ⟨[], rfl⟩
  obtain ⟨parts, hears, -, hall⟩ := books_mirrored sampleFeed_lawful hrun hj hs hlines sampleLayout sampleCallbacks
    false (fun m hm => absurd hm List.not_mem_nil) hbot hnone (List.append_nil _)
  have honce : sampleInstruments.Once 0 := fun j hj _ => Nat.lt_one_iff.mp hj
  exact ⟨s, s', s'.books.clob[0], t, parts, hrun, hs, hbot, hears, List.getElem?_eq_getElem hlt,
    (hall 0 honce).1 _ (List.getElem?_eq_getElem hlt)⟩

end Unserlob
