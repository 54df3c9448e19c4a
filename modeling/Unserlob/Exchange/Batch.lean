import Unserlob.Exchange.House

/-!
# What a batch of executions books, tells and sends (`diss_exe`)

* `Batch`: what is booked and told; `dissOne_batch`, `dissOneSc_batch`, **`batch_spec`**: both exchanges;
* `told`, `streamTo`: the messages and the bytes sent on a connection;
* `conn_of_fill`: a descriptor is that of its user's connection;
* `House.Sends`, `post_sends`, **`emit_spec`**: what is sent, on which connection.
-/

namespace Unserlob

open Ascii Cursor Writer Table

variable {A B : Type}

/-- The legs of user `v`. -/
def legsTo (v : Uid) (ls : List (Leg A)) : List (Leg A) := ls.filter fun l => l.fid.uid = v

/-- What an execution books. -/
def Daemon.legs (d : Daemon) (M : Market A) (e : Exec A) : List (Leg A) :=
  match d with
  | .lobot => e.legs M
  | .cabot => [⟨e.maker, e.x, 0, M.unxsExa e.x e.s⟩]

theorem legsTo_append (v : Uid) (ls ls' : List (Leg A)) : legsTo v (ls ++ ls') = legsTo v ls ++ legsTo v ls' :=
  List.filter_append ..

/-- A fill and the account behind it are of the instrument. -/
def Out.OfIns (M : Market A) (ins : ℕ) : Out A → Prop
  | .fill _ _ fil acc => (∃ fid x con, fil = ⟨M.name ins, .fil fid x con⟩) ∧ ∃ a, acc = ⟨M.name ins, .acc a⟩
  | _ => True

/-- What is published of a batch. -/
def Out.published (word : A → Decimal64) : Out A → Option (Qmsg Decimal64)
  | .trade q => some (q.map word)
  | _ => none

/-- What is told to a party is not published. -/
def Out.Quiet (M : Market A) (ins : ℕ) (y : Out A) : Prop := y.OfIns M ins ∧ ∀ q, y ≠ .trade q

/-- **What a batch comes to**: the legs `ls` are booked on accounts of one instrument, and every user is told of
theirs, each with the balance after it. -/
structure Batch [AddCommGroup A] (M : Market A) (ins : ℕ) (ls : List (Leg A)) (u : Users A) (o : List (Out A))
    (u' : Users A) : Prop where
  ok : u'.Ok M
  nuser : u'.nuser = u.nuser
  socks : u'.socks = u.socks
  frame : ∀ v j, j < M.NINSTR → j ≠ ins → u'.acct M v j = u.acct M v j
  acct : ∀ v b, v ≠ 0 → u.acct M v ins = some b → u'.acct M v ins = some (b.plus (Leg.total (legsTo v ls)))
  told : ∀ v fd b, v ≠ 0 → u.socks[v.toNat - 1]? = some fd → u.acct M v ins = some b →
    sentTo v o = (balances b (legsTo v ls)).flatMap (statement M ins fd)
  addressed : ∀ y ∈ o, y.Addressed u
  quiet : ∀ y ∈ o, y.Quiet M ins

section Batch

variable {M : Market A} {ins : ℕ} {u u' w : Users A} {o o' : List (Out A)}

theorem tell_quiet {fid : ClobOid A} {x : UnxsExe A} {con : Uid} {a : UnxsExa A} (h : tell M ins u fid x con a = .ok o) :
    ∀ y ∈ o, y.Quiet M ins := by
  obtain ⟨fd, -, h⟩ := bind_ok.mp h
  cases h
  intro y hy
  rcases List.mem_cons.mp hy with rfl | hy
  · exact ⟨⟨⟨_, _, _, rfl⟩, _, rfl⟩, nofun⟩
  · rw [List.mem_singleton.mp hy]
    exact ⟨trivial, nofun⟩

variable [AddCommGroup A] {ls ls' : List (Leg A)}

theorem Batch.nil (h : u.Ok M) : Batch M ins [] u [] u where
  ok := h
  nuser := rfl
  socks := rfl
  frame _ _ _ _ := rfl
  acct v b _ hb := by
    rw [hb]
    exact congrArg some (plus_total_nil b).symm
  told _ _ _ _ _ _ := rfl
  addressed := nofun
  quiet := nofun

theorem Batch.append (h : Batch M ins ls u o w) (h' : Batch M ins ls' w o' u') :
    Batch M ins (ls ++ ls') u (o ++ o') u' where
  ok := h'.ok
  nuser := h'.nuser.trans h.nuser
  socks := h'.socks.trans h.socks
  frame v j hj hne := (h'.frame v j hj hne).trans (h.frame v j hj hne)
  acct v b hv hb := by
    rw [legsTo_append, plus_total_append]
    exact h'.acct v _ hv (h.acct v b hv hb)
  told v fd b hv hfd hb := by
    rw [legsTo_append, balances_append, List.flatMap_append, sentTo_append, h.told v fd b hv hfd hb,
      h'.told v fd _ hv (by rw [h.socks, hfd]) (h.acct v b hv hb)]
  addressed y hy := by
    rcases List.mem_append.mp hy with hy | hy
    · exact h.addressed y hy
    · exact Out.Addressed.of_credited h.nuser h.socks (h'.addressed y hy)
  quiet y hy := (List.mem_append.mp hy).elim (h.quiet y) (h'.quiet y)

/-- **One execution with two parties**, which may be the same. -/
theorem dissOne_batch (h : u.Ok M) (hi : ins < M.NINSTR) {e : Exec A} (he : e.Named u) :
    ∃ o u', dissOne M ins e u = .ok (o, u') ∧ Batch M ins (e.legs M) u o u' := by
  obtain ⟨o, v, u', hd, hm, ht, ha⟩ := dissOne_spec h hi he
  obtain ⟨o', w, hd', hs⟩ := dissOne_stated h hi ⟨he.maker_le, he.taker_le⟩
  cases hd.symm.trans hd'
  refine ⟨o, u', hd, hs.ok, hs.nuser, hs.socks, fun v j hj hne => ?_, fun v b hv hb => ?_, fun v fd b hv hfd hb => ?_,
    ha, fun y hy => ?_⟩
  · exact (ht.frame _ j hj fun hc => hne hc.2).trans (hm.frame _ j hj fun hc => hne hc.2)
  · rw [hs.acct v b hv hb, legsOf, List.flatMap_singleton]
    rfl
  · rw [hs.sent v fd b hv hfd hb, legsOf, List.flatMap_singleton]
    rfl
  · obtain ⟨⟨sa, u₁⟩, -, hd⟩ := bind_ok.mp hd
    obtain ⟨⟨ca, u₂⟩, -, hd⟩ := bind_ok.mp hd
    obtain ⟨so, hso, hd⟩ := bind_ok.mp hd
    obtain ⟨co, hco, hd⟩ := bind_ok.mp hd
    cases hd
    exact (List.mem_append.mp hy).elim (tell_quiet hso y) (tell_quiet hco y)

theorem dissOneSc_batch (h : u.Ok M) (hi : ins < M.NINSTR) {e : Exec A} (hpos : 0 < e.maker.uid.toNat)
    (hle : e.maker.uid.toNat ≤ u.nuser) :
    ∃ o u', dissOneSc M ins e u = .ok (o, u') ∧ Batch M ins [⟨e.maker, e.x, 0, M.unxsExa e.x e.s⟩] u o u' := by
  obtain ⟨o, u', hd, hm, ha⟩ := dissOneSc_spec h hi hpos hle
  obtain ⟨a, w, hadd, hb⟩ := addAcct_booked h hi hle (M.unxsExa e.x e.s)
  obtain ⟨o', ho, hst⟩ := tell_stated hb.ok ins ⟨e.maker, e.x, 0, M.unxsExa e.x e.s⟩ (by rw [hb.nuser]; exact hle) a
  have hd' : dissOneSc M ins e u = .ok (o', w) := by
    simp only [dissOneSc, hadd, ho, bind, Except.bind]
    rfl
  cases hd.symm.trans hd'
  refine ⟨o, u', hd, hb.ok, hb.nuser, hb.socks, fun v j hj hne => hm.frame _ j hj fun hc => hne hc.2,
    fun v b hv hb' => ?_, fun v fd b hv hfd hb' => ?_, ha, tell_quiet ho⟩
  · obtain ⟨hacct, -⟩ := hb.acct v b hv hb'
    rw [hacct, legsTo, List.filter_singleton]
    by_cases hu : e.maker.uid = v <;> simp [hu]
  · obtain ⟨-, hret⟩ := hb.acct v b hv hb'
    rw [hst v fd (by rw [hb.socks, hfd]) hv, legsTo, List.filter_singleton]
    by_cases hu : e.maker.uid = v
    · simp [hu, hret hu]
    · simp [hu, balances]

omit [AddCommGroup A] in
theorem Daemon.named_mono {d : Daemon} {e : Exec A} (h : d.named e u) (hn : u'.nuser = u.nuser) : d.named e u' := by
  cases d with
  | lobot => exact Exec.Named.mono h hn
  | cabot => exact ⟨h.1, hn ▸ h.2⟩

/-- A turn of the loop. -/
def Daemon.dissOne (d : Daemon) (M : Market A) (ins : ℕ) (e : Exec A) (u : Users A) : Res (List (Out A) × Users A) :=
  match d with
  | .lobot => Unserlob.dissOne M ins e u
  | .cabot => dissOneSc M ins e u

theorem Daemon.dissExe_eq (d : Daemon) (M : Market A) (ins : ℕ) (es : List (Exec A)) (u : Users A) :
    d.dissExe M ins es u = (do
      let (o, u) ← dissAll (d.dissOne M ins) es u
      pure (o ++ trades M ins es, u)) := by
  cases d <;> rfl

theorem Daemon.dissOne_batch (d : Daemon) (h : u.Ok M) (hi : ins < M.NINSTR) {e : Exec A} (he : d.named e u) :
    ∃ o u', d.dissOne M ins e u = .ok (o, u') ∧ Batch M ins (d.legs M e) u o u' := by
  cases d with
  | lobot => exact Unserlob.dissOne_batch h hi he
  | cabot => exact dissOneSc_batch h hi he.1 he.2

theorem batch_spec (d : Daemon) (hi : ins < M.NINSTR) {es : List (Exec A)} : ∀ {u : Users A}, u.Ok M →
    (∀ e ∈ es, d.named e u) → ∃ o u', dissAll (d.dissOne M ins) es u = .ok (o, u') ∧
      Batch M ins (es.flatMap (d.legs M)) u o u' := by
  induction es with
  | nil => exact fun h _ => ⟨[], _, rfl, Batch.nil h⟩
  | cons e es ih =>
      intro u h he
      obtain ⟨o, w, hw, hb⟩ := d.dissOne_batch h hi (he e List.mem_cons_self)
      obtain ⟨o', u', hu, hb'⟩ := ih hb.ok fun e' he' => d.named_mono (he e' (List.mem_cons_of_mem _ he')) hb.nuser
      refine ⟨o ++ o', u', ?_, hb.append hb'⟩
      simp only [dissAll, hw, hu, bind, Except.bind]
      rfl

theorem Batch.net (h : Batch M ins ls u o u') {conns : List Conn} (hn : (⟨u, conns, []⟩ : Net A).Inv M) :
    (⟨u', conns, []⟩ : Net A).Inv M where
  ok := h.ok
  small := by
    rw [h.nuser]
    exact hn.small
  uids := hn.uids
  fds := hn.fds
  conn := by
    rw [h.nuser, h.socks]
    exact hn.conn
  gone := by
    rw [h.nuser, h.socks]
    exact hn.gone

theorem Batch.outs (h : Batch M ins ls u o u') (es : List (Exec A)) :
    ∀ y ∈ o ++ trades M ins es, y.Addressed u' ∧ y.OfIns M ins := by
  intro y hy
  rcases List.mem_append.mp hy with hy | hy
  · exact ⟨(h.addressed y hy).of_credited h.nuser.symm h.socks.symm, (h.quiet y hy).1⟩
  · refine ⟨Out.addressed_trade hy, ?_⟩
    obtain ⟨e, -, rfl⟩ := List.mem_map.mp hy
    exact trivial

end Batch

/-! ## What has been sent -/

/-- The messages sent on the connection of a user. -/
def told (u : Uid) (sent : Sent) : List (Omsg Decimal64) := (sent.filter fun p => p.1 = u).flatMap fun p => p.2.1

/-- The bytes sent on it. -/
def streamTo (u : Uid) (sent : Sent) : List UInt8 := (sent.filter fun p => p.1 = u).flatMap fun p => p.2.2

theorem told_append (u : Uid) (sent more : Sent) : told u (sent ++ more) = told u sent ++ told u more := by
  rw [told, List.filter_append, List.flatMap_append]
  rfl

theorem told_singleton (u v : Uid) (ms : List (Omsg Decimal64)) (t : List UInt8) :
    told u [(v, ms, t)] = if v = u then ms else [] := by
  by_cases h : v = u <;> simp [told, h]

theorem streamTo_eq (u : Uid) {sent : Sent} (h : ∀ p ∈ sent, p.2.2 = textOf p.2.1) :
    streamTo u sent = textOf (told u sent) := by
  induction sent with
  | nil => rfl
  | cons p sent ih =>
      have ih := ih fun q hq => h q (List.mem_cons_of_mem _ hq)
      have hp := h p List.mem_cons_self
      unfold streamTo told at ih ⊢
      by_cases hu : p.1 = u
      · rw [List.filter_cons_of_pos (by simpa using hu), List.flatMap_cons, List.flatMap_cons, textOf_append, ih, hp]
      · rw [List.filter_cons_of_neg (by simpa using hu), ih]

/-- Users and connections. -/
def House.net (s : House B A) : Net A := ⟨s.users, s.conns, []⟩

/-- **A descriptor is that of its user's connection.** -/
theorem conn_of_fill {M : Market A} {s : Net A} (h : s.Inv M) {fd : ℤ} {usr : Uid} {fil acc : Omsg A}
    (ha : (Out.fill fd usr fil acc).Addressed s.users) : ∀ c ∈ s.conns, c.fd = fd ↔ c.uid = usr := by
  have h' : (⟨s.users, s.conns, [.fill fd usr fil acc]⟩ : Net A).Inv M := ⟨h.ok, h.small, h.uids, h.fds, h.conn, h.gone⟩
  have hp := h'.isPrivate (s := s) (e := .data fd) (fun y hy => by rw [List.mem_singleton.mp hy]; exact ha) (by simp)
  refine fun c hc => ⟨hp.fills fd usr fil acc List.mem_cons_self c hc, fun hu => ?_⟩
  obtain ⟨-, -, -, hsock⟩ := h.conn c hc
  obtain ⟨-, -, hs⟩ := ha
  rw [hu, hs] at hsock
  exact (Option.some.inj hsock).symm

theorem post_cases (fd : ℤ) (ms : List (Omsg Decimal64)) (t : List UInt8) (s : House B A) :
    ((∀ c ∈ s.conns, c.fd ≠ fd) ∧ s.post fd ms t = s) ∨
      ∃ c ∈ s.conns, c.fd = fd ∧ s.post fd ms t = { s with sent := s.sent ++ [(c.uid, ms, t)] } := by
  cases hf : s.conns.find? (fun c => c.fd == fd) with
  | none =>
      refine .inl ⟨fun c hc he => ?_, ?_⟩
      · have := List.find?_eq_none.mp hf c hc
        simp [he] at this
      · rw [House.post, hf]
  | some c => exact .inr ⟨c, List.mem_of_find?_eq_some hf, by simpa using List.find?_some hf, by rw [House.post, hf]⟩

/-- What is sent changes nothing else, and is what it says. -/
structure House.Sends (s s' : House B A) (more : Sent) : Prop where
  users : s'.users = s.users
  conns : s'.conns = s.conns
  clob : s'.clob = s.clob
  n : s'.n = s.n
  sent : s'.sent = s.sent ++ more
  known : ∀ p ∈ more, p.1.toNat ≤ s.users.nuser
  text : ∀ p ∈ more, p.2.2 = textOf p.2.1

theorem post_sends {M : Market A} {s : House B A} (h : s.net.Inv M) {fd : ℤ} {usr : Uid}
    (hfd : ∀ c ∈ s.conns, c.fd = fd ↔ c.uid = usr) (ms : List (Omsg Decimal64)) {t : List UInt8} (ht : t = textOf ms) :
    ∃ more, s.Sends (s.post fd ms t) more ∧ (s.post fd ms t).pub = s.pub ∧
      ∀ c ∈ s.conns, told c.uid more = if usr = c.uid then ms else [] := by
  rcases post_cases fd ms t s with ⟨hnone, he⟩ | ⟨c, hc, hcfd, he⟩
  · rw [he]
    refine ⟨[], ⟨rfl, rfl, rfl, rfl, (List.append_nil _).symm, nofun, nofun⟩, rfl, fun c hc => ?_⟩
    rw [if_neg fun hu => hnone c hc ((hfd c hc).mpr hu.symm)]
    rfl
  · rw [he]
    refine ⟨[(c.uid, ms, t)], ⟨rfl, rfl, rfl, rfl, rfl, fun p hp => ?_, fun p hp => ?_⟩, rfl, fun c' _ => ?_⟩
    · rw [List.mem_singleton.mp hp]
      exact (h.conn c hc).2.2.1
    · rw [List.mem_singleton.mp hp]
      exact ht
    · rw [told_singleton, ← (hfd c hc).mp hcfd]

section Emit

variable {P : Pit B A} {M : Market A} {ins : ℕ} {junk : ℕ → List UInt8} (hj : ∀ k, (junk k).length = 256)

include hj

/-- **What a batch sends**: to every connection its fills and accounts, and to all the trades. -/
theorem emit_spec {os : List (Out A)} : ∀ {s s' : House B A}, s.net.Inv M → (∀ y ∈ os, y.Addressed s.users) →
    (∀ y ∈ os, y.OfIns M ins) → House.emit P junk os s = .ok s' → ∃ more, s.Sends s' more ∧
      s'.pub = s.pub ++ sheet (os.filterMap (Out.published P.word)) ∧
        ∀ c ∈ s.conns, told c.uid more = (sentTo c.uid os).map fun p => p.2.map P.word := by
  induction os with
  | nil =>
      intro s s' _ _ _ h
      cases h
      exact ⟨[], ⟨rfl, rfl, rfl, rfl, (List.append_nil _).symm, nofun, nofun⟩, (List.append_nil _).symm, fun _ _ => rfl⟩
  | cons y os ih =>
      intro s s' hn ha ho h
      have hao : ∀ y ∈ os, y.Addressed s.users := fun y hy => ha y (List.mem_cons_of_mem _ hy)
      have hoo : ∀ y ∈ os, y.OfIns M ins := fun y hy => ho y (List.mem_cons_of_mem _ hy)
      cases y with
      | fill fd usr fil acc =>
          obtain ⟨t, ht, h⟩ := bind_ok.mp h
          obtain ⟨⟨fid, x, con, rfl⟩, a, rfl⟩ := ho _ List.mem_cons_self
          have hfd := conn_of_fill hn (ha _ List.mem_cons_self)
          have htext := (replies_ok (hj _) ht).trans (show _ = textOf [⟨M.name ins, (OBody.fil fid x con).map P.word⟩,
            ⟨M.name ins, (OBody.acc a).map P.word⟩] by simp [textOf, OBody.map])
          obtain ⟨m₁, h₁, hp₁, ht₁⟩ := post_sends hn hfd _ htext
          have hn₁ : (s.post fd [⟨M.name ins, (OBody.fil fid x con).map P.word⟩,
              ⟨M.name ins, (OBody.acc a).map P.word⟩] t).net.Inv M := by
            unfold House.net
            rw [h₁.users, h₁.conns]
            exact hn
          obtain ⟨m₂, h₂, hp₂, ht₂⟩ := ih hn₁ (by rw [h₁.users]; exact hao) hoo h
          refine ⟨m₁ ++ m₂, ⟨h₂.users.trans h₁.users, h₂.conns.trans h₁.conns, h₂.clob.trans h₁.clob, h₂.n.trans h₁.n,
            by rw [h₂.sent, h₁.sent, List.append_assoc], fun p hp => ?_, fun p hp => ?_⟩, by rw [hp₂, hp₁]; rfl, ?_⟩
          · rcases List.mem_append.mp hp with hp | hp
            · exact h₁.known p hp
            · rw [← h₁.users]
              exact h₂.known p hp
          · exact (List.mem_append.mp hp).elim (h₁.text p) (h₂.text p)
          · intro c hc
            have hcons : ∀ y, sentTo c.uid (y :: os) = y.sentTo c.uid ++ sentTo c.uid os := fun y => List.flatMap_cons
            rw [told_append, ht₁ c hc, ht₂ c (by rw [h₁.conns]; exact hc), hcons, List.map_append]
            refine congrArg (· ++ _) ?_
            by_cases hu : usr = c.uid <;> simp [Out.sentTo, hu, Omsg.map]
      | copy usr fil acc =>
          -- the connections are not told
          obtain ⟨_, -, h⟩ := bind_ok.mp h
          obtain ⟨more, h₁, hp, ht⟩ := ih hn hao hoo h
          exact ⟨more, h₁, hp, ht⟩
      | trade q =>
          obtain ⟨pub, hq, h⟩ := bind_ok.mp h
          obtain ⟨more, h₁, hp, ht⟩ := ih (s := { s with pub }) hn hao hoo h
          refine ⟨more, ⟨h₁.users, h₁.conns, h₁.clob, h₁.n, h₁.sent, h₁.known, h₁.text⟩, ?_, ht⟩
          rw [hp, sendQuo_ok hj hq, List.append_assoc, ← sheet_append]
          rfl

end Emit

end Unserlob
