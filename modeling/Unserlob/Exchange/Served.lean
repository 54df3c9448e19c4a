import Unserlob.Exchange.Hall

/-!
# What the callbacks come to (`lobot.c`, `cabot.c`)

* `apply_answer`, `line_spec`: what a line leaves of a book and is answered;
* `House.Shows`: the tables, the books and what has been sent are those of a hall;
* `accept_shows`, `close_shows`, `line_shows`: connections and lines; `loop_sweep`, `settle_turn`, `quotes_turn`,
  `imb_turn`, `auc_turn`, `clear_turn`: the loops; `prep_shows`, `beat_shows`;
* `HouseEvent.inHall`, **`house_shows`**: every run is one of a hall.
-/

namespace Unserlob

open Ascii Cursor Writer Table ForLoop

variable {A B : Type}

/-! ## Lines -/

section Line

variable {d : Daemon} {C : Clob B} {I : Instruments} {c : ClientLine} {s s' : Books B}

theorem sendTo_ok {junk : List UInt8} {fd : ℤ} {m : Omsg Decimal64} (hj : junk.length = 256)
    (h : sendTo junk fd m s = .ok s') (hu : m.body ≠ .unk) : s' = { s with sent := s.sent ++ [(fd, omsgText m)] } := by
  obtain ⟨t, ht, h⟩ := bind_ok.mp h
  have htext := reply_ok hj ht
  rw [if_neg hu] at htext
  rw [← htext]
  exact (Except.ok.inj h).symm

theorem apply_rubbish {i : ℕ} {o : ClobOrd Decimal64} (htyp : ¬ (o.typ = clobTypeMkt ∨ o.typ = clobTypeLmt))
    (h : d.apply C I c i (.ord o) s = .ok s') : s' = s := by
  cases d with
  | lobot =>
      change omsgAddOrd C I.name c.junk c.fd c.uid i o s = .ok s' at h
      rw [omsgAddOrd, if_pos htyp] at h
      exact (Except.ok.inj h).symm
  | cabot =>
      change omsgAddOrdSc C I.name c.junk c.fd c.uid i o s = .ok s' at h
      rw [omsgAddOrdSc, if_pos htyp] at h
      exact (Except.ok.inj h).symm

/-- **An order or a cancellation** changes one book and is answered. -/
theorem apply_answer (hj : c.junk.length = 256) {i : ℕ} {m : OBody Decimal64} (h : d.apply C I c i m s = .ok s')
    {b : B} (hb : s.clob[i]? = some b) : s'.clob = s.clob.set i (d.after C c.uid b m) ∧
      s'.sent = s.sent ++ (d.answer C (I.name i) c.uid b m).map fun m => (c.fd, omsgText m) := by
  have hsame : ∀ {b' : B}, s.clob[i]? = some b' → s.clob = s.clob.set i b' := fun hb' => by
    obtain ⟨hi, rfl⟩ := List.getElem?_eq_some_iff.mp hb'
    exact (List.set_getElem_self hi).symm
  cases m with
  | ord o =>
      by_cases htyp : o.typ = clobTypeMkt ∨ o.typ = clobTypeLmt
      · cases d with
        | lobot =>
            change omsgAddOrd C I.name c.junk c.fd c.uid i o s = .ok s' at h
            rw [omsgAddOrd, if_neg (not_not.mpr htyp)] at h
            obtain ⟨b₀, hb₀, h⟩ := bind_ok.mp h
            cases (getAt_eq hb₀).symm.trans hb
            rcases hx : C.unxsOrder b { o with usr := c.uid.setWidth 64 } NAND64 with ⟨o', b'⟩
            obtain ⟨hanswer, hafter⟩ := answer_lobot (I.name i) htyp hx
            rw [hanswer, hafter]
            simp only [hx] at h
            split_ifs at h ⊢ with hq
            · refine ⟨?_, ?_⟩
              · rw [sendTo_clob h, List.set_set]
              · rw [sendTo_ok hj h (by simp)]
                rfl
            · cases h
              exact ⟨rfl, (List.append_nil _).symm⟩
        | cabot =>
            change omsgAddOrdSc C I.name c.junk c.fd c.uid i o s = .ok s' at h
            rw [omsgAddOrdSc, if_neg (not_not.mpr htyp)] at h
            obtain ⟨b₀, hb₀, h⟩ := bind_ok.mp h
            cases (getAt_eq hb₀).symm.trans hb
            obtain ⟨hanswer, hafter⟩ := answer_cabot (C := C) (I.name i) (u := c.uid) (b := b) htyp
            rw [hanswer, hafter]
            dsimp only at h
            split_ifs at h ⊢ with hq
            · refine ⟨?_, ?_⟩
              · rw [sendTo_clob h]
              · rw [sendTo_ok hj h (by simp)]
                rfl
            · cases h
              exact ⟨rfl, (List.append_nil _).symm⟩
      · obtain ⟨hanswer, hafter⟩ := answer_rubbish d C (I.name i) c.uid b htyp
        rw [hanswer, hafter, apply_rubbish htyp h]
        exact ⟨hsame hb, (List.append_nil _).symm⟩
  | can o =>
      obtain ⟨b₀, hb₀, h⟩ := bind_ok.mp (show omsgDelOid C I.name c.junk c.fd i o s = .ok s' from h)
      cases (getAt_eq hb₀).symm.trans hb
      dsimp only at h
      refine ⟨sendTo_clob h, ?_⟩
      rw [sendTo_ok hj h (by split_ifs <;> simp)]
      rfl
  | _ =>
      cases h
      exact ⟨hsame hb, (List.append_nil _).symm⟩

theorem apply_none {i : ℕ} {m : OBody Decimal64} (h : d.apply C I c i m s = .ok s') (hb : s.clob[i]? = none) :
    s' = s := by
  have hget : ∀ {b : B}, getAt s.clob i ≠ .ok b := fun hg => by
    cases (getAt_eq hg).symm.trans hb
  cases m with
  | ord o =>
      by_cases htyp : o.typ = clobTypeMkt ∨ o.typ = clobTypeLmt
      · cases d with
        | lobot =>
            change omsgAddOrd C I.name c.junk c.fd c.uid i o s = .ok s' at h
            rw [omsgAddOrd, if_neg (not_not.mpr htyp)] at h
            obtain ⟨b, hg, -⟩ := bind_ok.mp h
            exact absurd hg hget
        | cabot =>
            change omsgAddOrdSc C I.name c.junk c.fd c.uid i o s = .ok s' at h
            rw [omsgAddOrdSc, if_neg (not_not.mpr htyp)] at h
            obtain ⟨b, hg, -⟩ := bind_ok.mp h
            exact absurd hg hget
      · exact apply_rubbish htyp h
  | can o =>
      obtain ⟨b, hg, -⟩ := bind_ok.mp (show omsgDelOid C I.name c.junk c.fd i o s = .ok s' from h)
      exact absurd hg hget
  | _ =>
      cases h
      rfl

theorem no_book {i : ℕ} (hlen : s.clob.length = I.NINSTR) (hi : I.insth.length < i) : s.clob[i]? = none := by
  refine List.getElem?_eq_none ?_
  rw [hlen]
  unfold Instruments.NINSTR
  split_ifs with hn
  · omega
  · omega

/-- **A line** is decoded, and changes the book it is for and is answered, or there is no such book. -/
theorem line_spec (hj : c.junk.length = 256) (hlen : s.clob.length = I.NINSTR) (h : d.line C I c s = .ok s') :
    ∃ m, c.msg = .ok m ∧ s'.sent = s.sent ++ (d.answers I C c s.clob).map (fun m => (c.fd, omsgText m)) ∧
      ((s.clob[hins I.hash I.insth m.ins]? = none ∧ s'.clob = s.clob ∧ d.answers I C c s.clob = []) ∨
        ∃ b, s.clob[hins I.hash I.insth m.ins]? = some b ∧
          s'.clob = s.clob.set (hins I.hash I.insth m.ins) (d.after C c.uid b m.body) ∧
          d.answers I C c s.clob = d.answer C (I.name (hins I.hash I.insth m.ins)) c.uid b m.body) := by
  cases hm : c.msg with
  | error e =>
      obtain ⟨x, hx, -⟩ := map_ok.mp h
      obtain ⟨m, hm', -⟩ := bind_ok.mp hx
      cases (show c.msg = .ok m from hm').symm.trans hm
  | ok m =>
      refine ⟨m, rfl, ?_⟩
      rw [line_eq d C I c s hm] at h
      by_cases hi : I.insth.length < hins I.hash I.insth m.ins
      · have hanswers : d.answers I C c s.clob = [] := by
          unfold Daemon.answers
          rw [hm]
          exact if_pos hi
        rw [if_pos hi] at h
        cases h
        rw [hanswers]
        exact ⟨(List.append_nil _).symm, .inl ⟨no_book hlen hi, rfl, rfl⟩⟩
      · rw [if_neg hi] at h
        cases hb : s.clob[hins I.hash I.insth m.ins]? with
        | none =>
            have hanswers : d.answers I C c s.clob = [] := by
              unfold Daemon.answers
              rw [hm]
              dsimp only
              rw [if_neg hi, hb]
            cases apply_none h hb
            rw [hanswers]
            exact ⟨(List.append_nil _).symm, .inl ⟨rfl, rfl, rfl⟩⟩
        | some b =>
            have hanswers : d.answers I C c s.clob = d.answer C (I.name (hins I.hash I.insth m.ins)) c.uid b m.body := by
              unfold Daemon.answers
              rw [hm]
              dsimp only
              rw [if_neg hi, hb]
            obtain ⟨hclob, hsent⟩ := apply_answer hj h hb
            rw [hanswers]
            exact ⟨hsent, .inr ⟨b, rfl, hclob, rfl⟩⟩

end Line

/-! ## Tables, books and what has been sent -/

section Shows

/-- **The exchange shows a hall**: its tables hold the accounts, and what has been sent on the open connections and
published is what users have been told and what has been published, word for word. -/
structure House.Shows (P : Pit B A) (I : Instruments) (s : House B A) (h : Hall B A) : Prop where
  net : s.net.Inv (P.market I)
  users : s.users.nuser = h.users
  books : s.clob = h.books
  acct : ∀ v : Uid, v ≠ 0 → v.toNat ≤ h.users → ∀ i < I.NINSTR, s.users.acct (P.market I) v i = some (h.acct v i)
  told : ∀ c ∈ s.conns, told c.uid s.sent = h.told c.uid
  known : ∀ p ∈ s.sent, p.1.toNat ≤ h.users
  text : ∀ p ∈ s.sent, p.2.2 = textOf p.2.1
  pub : s.pub = sheet h.pub
  n : s.n = BitVec.ofNat 32 h.beats

variable {d : Daemon} {P : Pit B A} {I : Instruments} {s s' : House B A} {h : Hall B A}

theorem Pit.market_NINSTR (P : Pit B A) (I : Instruments) : (P.market I).NINSTR = I.NINSTR := by
  unfold Market.NINSTR Instruments.NINSTR
  by_cases h : I.insth = []
  · rw [if_pos h]
    exact if_pos (by rw [market, h]; rfl)
  · rw [if_neg h]
    exact if_neg (by simpa [market] using h)

theorem Net.Inv.uid_ne {M : Market A} {n : Net A} (h : n.Inv M) {c : Conn} (hc : c ∈ n.conns) : c.uid ≠ 0 :=
  uid_pos (h.conn c hc).2.1

theorem House.Shows.news (hs : s.Shows P I h) (i : ℕ) (b : B) (more : List (Qmsg Decimal64)) :
    House.Shows P I { s with clob := s.clob.set i b, pub := s.pub ++ sheet more }
      { h with books := h.books.set i b, pub := h.pub ++ more } where
  net := hs.net
  users := hs.users
  books := congrArg (List.set · i b) hs.books
  acct := hs.acct
  told := hs.told
  known := hs.known
  text := hs.text
  pub := by rw [sheet_append, ← hs.pub]
  n := hs.n

theorem House.Shows.sends (hs : s.Shows P I h) {more : Sent} (hsend : s.Sends s' more) (hpub : s'.pub = s.pub)
    {tell : Uid → List (Omsg Decimal64)} (htell : ∀ c ∈ s.conns, Unserlob.told c.uid more = tell c.uid) :
    s'.Shows P I { h with told := fun v => h.told v ++ tell v } where
  net := by
    unfold House.net
    rw [hsend.users, hsend.conns]
    exact hs.net
  users := by rw [hsend.users, hs.users]
  books := hsend.clob.trans hs.books
  acct := by
    rw [hsend.users]
    exact hs.acct
  told c hc := by
    rw [hsend.conns] at hc
    rw [hsend.sent, told_append, hs.told c hc, htell c hc]
  known p hp := by
    rw [hsend.sent] at hp
    exact (List.mem_append.mp hp).elim (hs.known p) fun hp => hs.users ▸ hsend.known p hp
  text p hp := by
    rw [hsend.sent] at hp
    exact (List.mem_append.mp hp).elim (hs.text p) (hsend.text p)
  pub := hpub.trans hs.pub
  n := hsend.n.trans hs.n

/-! ## Connections and lines -/

/-- **A read that fails**, on a connection that is closed for its user. -/
theorem close_shows (hs : s.Shows P I h) {c : Conn} (hc : c ∈ s.conns) :
    House.Shows P I { s with
      users := { s.users with socks := s.users.socks.set (c.uid.toNat - 1) (-1) },
      conns := s.conns.filter fun c' => c'.fd != c.fd } h :=
  ⟨close_inv hs.net hc, hs.users, hs.books, hs.acct, fun c' hc' => hs.told c' (List.mem_filter.mp hc').1, hs.known,
    hs.text, hs.pub, hs.n⟩

variable [AddCommGroup A]

theorem accept_shows (hi : h.Inv d P I) (hs : s.Shows P I h) {fd : ℤ} (h0 : 0 ≤ fd) (hnew : ∀ c ∈ s.conns, c.fd ≠ fd)
    (hlt : s.users.nuser + 1 < 2 ^ 32) (word : BitVec 64) {users : Users A} (hj : s.users.Joined (P.market I) fd users) :
    House.Shows P I { s with users, conns := ⟨fd, BitVec.ofNat 32 (s.users.nuser + 1), word⟩ :: s.conns }
      { h with users := h.users + 1 } := by
  have huid : (BitVec.ofNat 32 (s.users.nuser + 1)).toNat = s.users.nuser + 1 := by
    rw [BitVec.toNat_ofNat, Nat.mod_eq_of_lt hlt]
  refine ⟨accept_inv hs.net h0 hnew hlt word hj, by rw [hj.nuser, hs.users], hs.books, fun v hv hn i hlt => ?_,
    fun c hc => ?_, fun p hp => (hs.known p hp).trans (Nat.le_succ _), hs.text, hs.pub, hs.n⟩
  · have hpos : 0 < v.toNat := Nat.pos_of_ne_zero fun hz => hv (BitVec.eq_of_toNat_eq hz)
    have hi' : i < (P.market I).NINSTR := by rwa [P.market_NINSTR]
    have hn : v.toNat ≤ h.users + 1 := hn
    rcases Nat.lt_or_ge h.users v.toNat with hnew | hold
    · have hrow : v.toNat - 1 = s.users.nuser := by
        rw [hs.users]
        exact Nat.le_antisymm (by omega) (by omega)
      rw [(hi.fresh v hnew).2 i, Users.acct, hrow]
      exact hj.row i hi'
    · rw [← hs.acct v hv hold i hlt]
      exact hj.rows _ (Table.slot_lt (by rw [hs.users]; omega) hi')
  · rcases List.mem_cons.mp hc with rfl | hc
    · -- nothing has been sent to the user before
      have hfilter : (s.sent.filter fun p => p.1 = BitVec.ofNat 32 (s.users.nuser + 1)) = [] := by
        refine List.filter_eq_nil_iff.mpr fun p hp hu => ?_
        have hle := hs.known p hp
        rw [of_decide_eq_true hu, huid, hs.users] at hle
        omega
      have hfresh := (hi.fresh (BitVec.ofNat 32 (s.users.nuser + 1)) (by rw [huid, hs.users]; exact Nat.lt_succ_self _)).1
      show told (BitVec.ofNat 32 (s.users.nuser + 1)) s.sent = h.told (BitVec.ofNat 32 (s.users.nuser + 1))
      rw [hfresh, told, hfilter]
      rfl
    · exact hs.told c hc

theorem line_shows (hi : h.Inv d P I) (hs : s.Shows P I h) {c : ClientLine} (hj : c.junk.length = 256) {k : Conn}
    (hk : k ∈ s.conns) (hfd : k.fd = c.fd) (hu : k.uid = c.uid) (hstep : s.line d P I c = .ok s') :
    ∃ m, c.msg = .ok m ∧ s'.Shows P I (h.ask d P I c.uid m) := by
  obtain ⟨r, hr, hstep⟩ := bind_ok.mp hstep
  cases hstep
  obtain ⟨m, hm, hsent, hcase⟩ := line_spec hj (show s.clob.length = _ by rw [hs.books, hi.length]) hr
  refine ⟨m, hm, ?_⟩
  have hconn : ∀ c' ∈ s.conns, c'.fd = c.fd ↔ c'.uid = c.uid := fun c' hc' =>
    ⟨fun he => by rw [eq_of_pairwise hs.net.fds hc' hk (he.trans hfd.symm), hu],
      fun he => by rw [eq_of_pairwise hs.net.uids hc' hk (he.trans hu.symm), hfd]⟩
  have htext : (r.sent.map Prod.snd).flatten = textOf (d.answers I P.toClob c s.clob) := by
    rw [hsent, List.nil_append, List.map_map]
    rfl
  have hnet : House.net { s with clob := r.clob } |>.Inv (P.market I) := hs.net
  obtain ⟨more, hsends, hpub, htold⟩ := post_sends hnet hconn (d.answers I P.toClob c s.clob) htext
  rcases hcase with ⟨hnone, hclob, hanswer⟩ | ⟨b, hb, hclob, hanswer⟩
  · have hask : h.ask d P I c.uid m = { h with told := fun v => h.told v ++ [] } := by
      rw [hs.books] at hnone
      simp only [Hall.ask, hnone, List.append_nil]
    rw [hask]
    refine House.Shows.sends (s := { s with clob := r.clob }) ?_ hsends hpub fun c' hc' => ?_
    · rw [hclob]
      exact hs
    · rw [htold c' hc', hanswer, ite_self]
  · have hask : h.ask d P I c.uid m = { h with
        books := h.books.set (hins I.hash I.insth m.ins) (d.after P.toClob c.uid b m.body)
        told := fun v => h.told v ++ if c.uid = v then d.answers I P.toClob c s.clob else [] } := by
      rw [hs.books] at hb
      rw [hanswer]
      simp only [Hall.ask, hb]
      congr 1
      funext v
      by_cases hv : v = c.uid
      · rw [if_pos hv, if_pos hv.symm]
      · rw [if_neg hv, if_neg (Ne.symm hv), List.append_nil]
    rw [hask]
    refine House.Shows.sends (s := { s with clob := r.clob })
      (h := { h with books := h.books.set (hins I.hash I.insth m.ins) (d.after P.toClob c.uid b m.body) }) ?_ hsends hpub htold
    rw [hclob]
    have hnews := hs.news (hins I.hash I.insth m.ins) (d.after P.toClob c.uid b m.body) []
    rwa [show sheet [] = ([] : Published) from rfl, List.append_nil, List.append_nil] at hnews

/-! ## Loops over the books -/

theorem loop_sweep {S : Type} {f : ℕ → S → Res S} {R : S → Hall B A → Prop} {w : Sweep B A} (hw : w.Keeps d P)
    (hturn : ∀ i b x x' h, h.Inv d P I → R x h → h.books[i]? = some b → f i x = .ok x' → R x' (h.turn P I w i b))
    {x x' : S} (hi : h.Inv d P I) (hx : R x h) (hloop : forRange f I.NINSTR x = .ok x') :
    (h.sweep P I w).Inv d P I ∧ R x' (h.sweep P I w) := by
  rw [← hi.length] at hloop
  refine forRange_inv (I := fun n x => (h.sweepTo P I w n).Inv d P I ∧ R x (h.sweepTo P I w n)) hloop ?_ ?_
  · rw [sweepTo_zero]
    exact ⟨hi, hx⟩
  · intro n hn y y' ⟨hin, hy⟩ hstep
    have hb := List.getElem?_eq_getElem hn
    rw [sweepTo_succ hb]
    exact ⟨turn_inv hw hin (sweepTo_book hb), hturn n _ y y' _ hin hy (sweepTo_book hb) hstep⟩

theorem statement_notices (word : A → Decimal64) (M : Market A) (ins : ℕ) (fd : ℤ) (b : UnxsExa A) (ls : List (Leg A)) :
    ((balances b ls).flatMap (statement M ins fd)).map (fun p => p.2.map word) = notices word (M.name ins) b ls := by
  rw [List.map_flatMap]
  rfl

omit [AddCommGroup A] in
/-- What is published of a batch: its trades. -/
theorem published_batch {M : Market A} {ins : ℕ} {o : List (Out A)} (ho : ∀ y ∈ o, y.Quiet M ins) (word : A → Decimal64)
    (es : List (Exec A)) : (o ++ trades M ins es).filterMap (Out.published word) =
      (es.map fun e => e.x.map word).map fun x => ⟨M.name ins, .tra ⟨nclobSides, x.prc, x.qty⟩⟩ := by
  have hquiet : o.filterMap (Out.published word) = [] := by
    refine List.filterMap_eq_nil_iff.mpr fun y hy => ?_
    cases y with
    | trade q => exact absurd rfl ((ho _ hy).2 q)
    | fill fd usr fil acc => rfl
    | copy usr fil acc => rfl
  rw [List.filterMap_append, hquiet, List.nil_append, trades, List.filterMap_map, List.map_map, ← List.filterMap_eq_map]
  rfl

theorem execs_named (hi : h.Inv d P I) (hs : s.Shows P I h) {i : ℕ} {b : B} (hb : h.books[i]? = some b) :
    ∀ e ∈ P.execs b, d.named e s.users := by
  intro e hm
  obtain ⟨hmaker, htaker⟩ := (hi.owned b (List.mem_of_getElem? hb)).2 e hm
  rw [← hs.users] at hmaker htaker
  cases d with
  | lobot => exact ⟨hmaker.1, hmaker.2, (htaker rfl).1, (htaker rfl).2⟩
  | cabot => exact hmaker

section Turns

variable {junk : ℕ → List UInt8} (hj : ∀ k, (junk k).length = 256) {i : ℕ} {b : B}

include hj

theorem settle_turn (hi : h.Inv d P I) (hs : s.Shows P I h) (hb : h.books[i]? = some b)
    (hstep : s.dissExe d P I junk i = .ok s') : s'.Shows P I (h.turn P I (settle d P I) i b) := by
  obtain ⟨b₀, hb₀, hstep⟩ := bind_ok.mp hstep
  obtain ⟨⟨os, users⟩, hd, hstep⟩ := bind_ok.mp hstep
  obtain ⟨s₂, he, hstep⟩ := bind_ok.mp hstep
  obtain ⟨clob, hset, hstep⟩ := bind_ok.mp hstep
  cases hstep
  have hclob : s.clob[i]? = some b := by rw [hs.books, hb]
  cases (getAt_eq hb₀).symm.trans hclob
  have hlt : i < I.NINSTR := by
    rw [← hi.length]
    exact (List.getElem?_eq_some_iff.mp hb).1
  obtain ⟨o, u', hall, hbatch⟩ := batch_spec d (show i < (P.market I).NINSTR by rwa [P.market_NINSTR]) hs.net.ok
    (execs_named hi hs hb)
  rw [d.dissExe_eq, show s.users = s.net.users from rfl, hall] at hd
  cases hd
  have hnet := hbatch.net hs.net
  have houts := hbatch.outs (P.execs b)
  obtain ⟨more, hsends, hpub, htold⟩ := emit_spec hj (s := { s with users }) hnet
    (fun y hy => (houts y hy).1) (fun y hy => (houts y hy).2) he
  have hn : users.nuser = h.users := hbatch.nuser.trans hs.users
  rw [hsends.clob] at hset
  refine ⟨?_, ?_, ?_, fun v hv hle j hjlt => ?_, fun c hc => ?_, fun p hp => ?_, fun p hp => ?_, ?_, hsends.n.trans hs.n⟩
  · unfold House.net
    rw [hsends.users, hsends.conns]
    exact hnet
  · rw [hsends.users, hn]
    rfl
  · rw [setAt_eq hset]
    exact congrArg (List.set · i _) hs.books
  · rw [hsends.users]
    show users.acct (P.market I) v j = some (if j = i then (h.acct v j).plus _ else h.acct v j)
    have hacct := hs.acct v hv hle j hjlt
    by_cases hji : j = i
    · subst hji
      rw [if_pos rfl, hbatch.acct v _ hv hacct]
      rfl
    · rw [if_neg hji, hbatch.frame v j (by rw [P.market_NINSTR]; exact hjlt) hji]
      exact hacct
  · rw [hsends.conns] at hc
    obtain ⟨-, hpos, hle, hsock⟩ := hs.net.conn c hc
    have hne := hs.net.uid_ne hc
    have hacct := hs.acct c.uid hne (hs.users ▸ hle) i hlt
    rw [hsends.sent, told_append, hs.told c hc, htold c hc, sentTo_append, sentTo_trades, List.append_nil,
      hbatch.told c.uid c.fd _ hne hsock hacct, statement_notices]
    rfl
  · rw [hsends.sent] at hp
    refine (List.mem_append.mp hp).elim (hs.known p) fun hp => ?_
    exact hn ▸ hsends.known p hp
  · rw [hsends.sent] at hp
    exact (List.mem_append.mp hp).elim (hs.text p) (hsends.text p)
  · show s₂.pub = sheet (h.pub ++ (P.exe b).map fun x => ⟨I.name i, .tra ⟨nclobSides, x.prc, x.qty⟩⟩)
    rw [hpub, published_batch hbatch.quiet, sheet_append, P.exe_execs, ← hs.pub]
    rfl

omit hj in
theorem turn_quiet {w : Sweep B A} (hw : w.legs b = []) (i : ℕ) (h : Hall B A) : h.turn P I w i b =
    { h with books := h.books.set i (w.book b), pub := h.pub ++ w.news (I.name i) b } := by
  refine Hall.ext rfl rfl ?_ ?_ rfl rfl
  · funext v j
    show (if j = i then (h.acct v j).plus (Leg.total (legsTo v (w.legs b))) else h.acct v j) = h.acct v j
    rw [hw, show legsTo v ([] : List (Leg A)) = [] from rfl, plus_total_nil, ite_self]
  · funext v
    show h.told v ++ notices P.word (I.name i) (h.acct v i) (legsTo v (w.legs b)) = h.told v
    rw [hw]
    exact List.append_nil _

theorem quotes_turn {r r' : List B × Published} (hs : House.Shows P I { s with clob := r.1, pub := r.2 } h)
    (hb : h.books[i]? = some b) (hstep : onBook (dissQuo P.toFeed I.name junk) i r = .ok r') :
    House.Shows P I { s with clob := r'.1, pub := r'.2 } (h.turn P I (quotes P) i b) := by
  obtain ⟨b₀, hb₀, hstep⟩ := bind_ok.mp hstep
  obtain ⟨⟨b', pub⟩, hd, hstep⟩ := bind_ok.mp hstep
  obtain ⟨clob, hset, hstep⟩ := bind_ok.mp hstep
  cases hstep
  have hclob : r.1[i]? = some b := by rw [show r.1 = h.books from hs.books, hb]
  cases (getAt_eq hb₀).symm.trans hclob
  obtain ⟨hbook, hpub⟩ := dissQuo_ok hj hd
  dsimp only at hbook hpub
  rw [turn_quiet (w := quotes P) rfl, setAt_eq hset, hbook, hpub]
  exact hs.news _ _ _

theorem imb_turn (hs : s.Shows P I h) (hb : h.books[i]? = some b) (hstep : s.imb P I junk i = .ok s') :
    s'.Shows P I (h.turn P I (imbs P) i b) := by
  obtain ⟨b₀, hb₀, hstep⟩ := bind_ok.mp hstep
  obtain ⟨pub, hpub, hstep⟩ := bind_ok.mp hstep
  cases hstep
  have hclob : s.clob[i]? = some b := by rw [hs.books, hb]
  cases (getAt_eq hb₀).symm.trans hclob
  have hsame : s.clob.set i b = s.clob := by
    obtain ⟨hi, rfl⟩ := List.getElem?_eq_some_iff.mp hclob
    exact List.set_getElem_self hi
  rw [turn_quiet (w := imbs P) rfl, sendQuo_ok hj hpub]
  have hnews := hs.news i b [⟨I.name i, .imb (P.mmodAuction b)⟩]
  rwa [hsame] at hnews

theorem auc_turn (hs : s.Shows P I h) (hb : h.books[i]? = some b) (hstep : s.auc P I junk i = .ok s') :
    s'.Shows P I (h.turn P I (aucs P) i b) := by
  obtain ⟨b₀, hb₀, hstep⟩ := bind_ok.mp hstep
  obtain ⟨clob, hset, hstep⟩ := bind_ok.mp hstep
  obtain ⟨pub, hpub, hstep⟩ := bind_ok.mp hstep
  cases hstep
  have hclob : s.clob[i]? = some b := by rw [hs.books, hb]
  cases (getAt_eq hb₀).symm.trans hclob
  rw [turn_quiet (w := aucs P) rfl, setAt_eq hset, sendQuo_ok hj hpub]
  exact hs.news _ _ _

omit hj in
theorem clear_turn (hs : s.Shows P I h) (hb : h.books[i]? = some b) (hstep : s.quosClr P i = .ok s') :
    s'.Shows P I (h.turn P I (clear P) i b) := by
  obtain ⟨b₀, hb₀, hstep⟩ := bind_ok.mp hstep
  obtain ⟨clob, hset, hstep⟩ := bind_ok.mp hstep
  cases hstep
  have hclob : s.clob[i]? = some b := by rw [hs.books, hb]
  cases (getAt_eq hb₀).symm.trans hclob
  have hnews := hs.news i (P.quosClr b) []
  rw [show sheet [] = ([] : Published) from rfl, List.append_nil] at hnews
  rw [turn_quiet (w := clear P) rfl, setAt_eq hset]
  exact hnews

/-! ## The callbacks -/

theorem prep_shows (hP : P.Honest .lobot) (hi : h.Inv .lobot P I) (hs : s.Shows P I h)
    (hstep : s.prepCb P I junk = .ok s') : s'.Shows P I (h.step .lobot P I .prep) := by
  obtain ⟨s₁, h₁, hstep⟩ := bind_ok.mp hstep
  obtain ⟨⟨clob, pub⟩, h₂, hstep⟩ := bind_ok.mp hstep
  cases hstep
  obtain ⟨hi₁, hs₁⟩ := loop_sweep (R := House.Shows P I) (settle_keeps hP I)
    (fun i b _ _ _ hi hs hb hstep => settle_turn hj hi hs hb hstep) hi hs h₁
  exact (loop_sweep (R := fun r => House.Shows P I { s₁ with clob := r.1, pub := r.2 }) (quotes_keeps hP)
    (fun i b _ _ _ _ hs hb hstep => quotes_turn hj hs hb hstep) hi₁ hs₁ h₂).2

variable [DecidableEq A] {info : Bool}

theorem beat_shows (hP : P.Honest d) (hi : h.Inv d P I) (hs : s.Shows P I h)
    (hstep : s.hbeatCb d P I info junk = .ok s') : s'.Shows P I (h.step d P I .beat) := by
  cases d with
  | lobot =>
      unfold House.hbeatCb at hstep
      dsimp only at hstep
      split_ifs at hstep
      · obtain ⟨_, -, hstep⟩ := bind_ok.mp hstep
        obtain ⟨_, -, hstep⟩ := bind_ok.mp hstep
        cases hstep
        exact hs
      · cases hstep
        exact hs
  | cabot =>
      have hmod : (s.n % 4).toNat = h.beats % 4 := by
        rw [hs.n, BitVec.toNat_umod, BitVec.toNat_ofNat]
        exact Nat.mod_mod_of_dvd _ (by decide)
      have hn : s.n % 4 = 0 ↔ h.beats % 4 = 0 := by
        rw [← hmod, ← BitVec.toNat_inj]
        rfl
      have hi' := hi.beat
      have hs' : House.Shows P I { s with n := s.n + 1 } { h with beats := h.beats + 1 } :=
        ⟨hs.net, hs.users, hs.books, hs.acct, hs.told, hs.known, hs.text, hs.pub, by rw [hs.n, BitVec.ofNat_add]; rfl⟩
      unfold House.hbeatCb at hstep
      unfold Hall.step
      dsimp only at hstep ⊢
      by_cases hb : s.n % 4 ≠ 0
      · rw [if_pos hb] at hstep
        rw [if_pos fun hz => hb (hn.mpr hz)]
        exact (loop_sweep imbs_keeps (fun i b _ _ _ _ hs hb hstep => imb_turn hj hs hb hstep) hi' hs' hstep).2
      · rw [if_neg hb] at hstep
        rw [if_neg (not_not.mpr (hn.mp (not_not.mp hb)))]
        obtain ⟨s₁, h₁, hstep⟩ := bind_ok.mp hstep
        obtain ⟨s₂, h₂, hstep⟩ := bind_ok.mp hstep
        obtain ⟨s₃, h₃, hstep⟩ := bind_ok.mp hstep
        obtain ⟨hi₁, hs₁⟩ := loop_sweep (R := House.Shows P I) (aucs_keeps hP)
          (fun i b _ _ _ _ hs hb hstep => auc_turn hj hs hb hstep) hi' hs' h₁
        obtain ⟨hi₂, hs₂⟩ := loop_sweep (R := House.Shows P I) (settle_keeps hP I)
          (fun i b _ _ _ hi hs hb hstep => settle_turn hj hi hs hb hstep) hi₁ hs₁ h₂
        obtain ⟨-, hs₃⟩ := loop_sweep (R := House.Shows P I) (clear_keeps hP)
          (fun i b _ _ _ _ hs hb hstep => clear_turn hs hb hstep) hi₂ hs₂ h₃
        split_ifs at hstep
        · obtain ⟨_, -, hstep⟩ := bind_ok.mp hstep
          cases hstep
          exact hs₃
        · cases hstep
          exact hs₃

end Turns

/-! ## Runs -/

/-- What happens in a hall. -/
def HouseEvent.inHall : HouseEvent A → List HallEvent
  | .accept _ _ _ _ => [.enter]
  | .line c =>
    match c.msg with
    | .ok m => [.ask c.uid m]
    | .error _ => []
  | .close _ => []
  | .prep _ => [.prep]
  | .beat _ => [.beat]

omit [AddCommGroup A] in
theorem line_inHall {c : ClientLine} {m : Omsg Decimal64} (h : c.msg = .ok m) :
    (HouseEvent.line c : HouseEvent A).inHall = [.ask c.uid m] := by
  simp only [HouseEvent.inHall, h]

omit [AddCommGroup A] in
theorem rubbish_inHall {c : ClientLine} {f : Fault} (h : c.msg = .error f) :
    (HouseEvent.line c : HouseEvent A).inHall = [] := by
  simp only [HouseEvent.inHall, h]

variable [DecidableEq A] {info : Bool}

theorem house_shows (hP : P.Honest d) {es : List (HouseEvent A)} (hr : (toldMachine d P I info).Runs es s) :
    ∃ h, (hallMachine d P I).Runs (es.flatMap HouseEvent.inHall) h ∧ s.Shows P I h := by
  refine hr.simulates (R := House.Shows P I) ?_ ?_
  · rintro s rfl
    exact ⟨_, rfl, none_inv _, rfl, rfl, fun v hv hle => absurd (BitVec.eq_of_toNat_eq (Nat.le_zero.mp hle)) hv, nofun,
      nofun, nofun, rfl, rfl⟩
  · rintro s e s' ts h hruns hs ⟨ha, ht⟩ hstep
    have hi := hall_inv hP hruns
    cases e with
    | accept fd word junkS junkA =>
        obtain ⟨users, hu, hj⟩ := addUser_spec hs.net.ok fd junkS junkA
        obtain ⟨⟨uid, users'⟩, hu', hstep⟩ :=
          bind_ok.mp (show (HouseEvent.accept fd word junkS junkA).step d P I info s = _ from hstep)
        cases hu'.symm.trans hu
        cases hstep
        have hlt : h.users + 1 < 2 ^ 32 := by
          rw [← hs.users]
          exact ht
        show ∃ h, (hallMachine d P I).Runs (ts ++ [.enter]) h ∧ _
        exact ⟨_, hruns.next (show (hallMachine d P I).allowed h .enter from hlt) rfl, accept_shows hi hs ha.1 ha.2 ht word hj⟩
    | line c =>
        obtain ⟨⟨-, hj⟩, k, hk, hfd, hu⟩ := ha
        obtain ⟨m, hm, hshow⟩ := line_shows hi hs hj hk hfd hu hstep
        obtain ⟨-, hpos, hle, -⟩ := hs.net.conn k hk
        have hknown : (hallMachine d P I).allowed h (.ask c.uid m) := by
          rw [← hu]
          exact ⟨hpos, hs.users ▸ hle⟩
        rw [line_inHall hm]
        exact ⟨_, hruns.next hknown rfl, hshow⟩
    | close fd =>
        obtain ⟨c, hc, rfl, hf⟩ := find_conn ha
        obtain ⟨-, hpos, hle, -⟩ := hs.net.conn c hc
        have hkill := killUser_spec hs.net.ok (uid_pos hpos) (hle.trans hs.net.ok.room)
        have hstep : (HouseEvent.close c.fd).step d P I info s = .ok s' := hstep
        have hword : c.data.setWidth 32 = c.uid := ht c hc rfl
        simp only [HouseEvent.step, hf, hword] at hstep
        obtain ⟨users, hu, hstep⟩ := bind_ok.mp hstep
        cases hu.symm.trans hkill
        cases hstep
        exact ⟨h, by rwa [HouseEvent.inHall, List.append_nil], close_shows hs hc⟩
    | prep junk =>
        obtain rfl : d = .lobot := ha
        show ∃ h, (hallMachine .lobot P I).Runs (ts ++ [.prep]) h ∧ _
        exact ⟨_, hruns.next (show (hallMachine .lobot P I).allowed h .prep from rfl) rfl,
          prep_shows (fun k => (junk k).2) hP hi hs hstep⟩
    | beat junk =>
        show ∃ h, (hallMachine d P I).Runs (ts ++ [.beat]) h ∧ _
        exact ⟨_, hruns.next (show (hallMachine d P I).allowed h .beat from trivial) rfl,
          beat_shows (fun k => (junk k).2) hP hi hs hstep⟩

/-- **An exchange is a hall.** Whatever the connections that come and go, the lines and where they end, the order of the
callbacks and the loops in them: the books and the accounts are those of a hall in which the same is asked; the bytes
sent on an open connection spell what its user is told there, and the datagrams what is published there. -/
theorem exchange_refines (hP : P.Honest d) {es : List (HouseEvent A)} (hr : (toldMachine d P I info).Runs es s) :
    ∃ h, (hallMachine d P I).Runs (es.flatMap HouseEvent.inHall) h ∧ s.clob = h.books ∧ s.users.nuser = h.users ∧
      (∀ v : Uid, v ≠ 0 → v.toNat ≤ h.users → ∀ i < I.NINSTR, s.users.acct (P.market I) v i = some (h.acct v i)) ∧
      (∀ c ∈ s.conns, streamTo c.uid s.sent = textOf (h.told c.uid)) ∧
      s.pub.map Prod.snd = (h.pub.filter fun m => m.body.sent).map qmsgText := by
  obtain ⟨h, hruns, hs⟩ := house_shows hP hr
  refine ⟨h, hruns, hs.books, hs.users, hs.acct, fun c hc => ?_, ?_⟩
  · rw [streamTo_eq c.uid hs.text, hs.told c hc]
  · rw [hs.pub, sheet, List.map_map]
    rfl

end Shows

/-! ## Two bots -/

instance (d : Daemon) : Decidable (d = .lobot) :=
  match d with
  | .lobot => isTrue rfl
  | .cabot => isFalse nofun

instance (u : Ptr) : Decidable (Ends u) := inferInstanceAs (Decidable (u.getLast? = some (ch '\n')))

instance HouseEvent.decAllowed (d : Daemon) (s : House B A) (e : HouseEvent A) : Decidable (e.allowed d s) := by
  cases e <;> unfold HouseEvent.allowed <;> infer_instance

instance HouseTold.dec (s : House B A) (e : HouseEvent A) : Decidable (HouseTold s e) := by
  cases e <;> unfold HouseTold <;> infer_instance

instance toldMachine.decAllowed [AddCommGroup A] [DecidableEq A] (d : Daemon) (P : Pit B A) (I : Instruments)
    (info : Bool) (s : House B A) (e : HouseEvent A) : Decidable ((toldMachine d P I info).allowed s e) :=
  inferInstanceAs (Decidable (e.allowed d s ∧ HouseTold s e))

/-- A whole number. -/
def intWord (n : ℤ) : Decimal64 := BitVec.ofNat 64 ((if n < 0 then 2 ^ 63 else 0) + 398 * 2 ^ 53 + n.natAbs % 2 ^ 53)

/-- Books in which an order takes the first one on the other side, one for 100. -/
def samplePit : Pit (List (ClobOrd Decimal64) × List (Exec ℤ)) ℤ where
  makeClob := ([], [])
  unxsOrder b o _ :=
    match b.1.find? fun r => r.sid != o.sid with
    | none => (o, b)
    | some r => ({ o with qty := ⟨zerodd, zerodd⟩ }, (b.1.erase r, b.2 ++ [⟨⟨1, 100⟩, r.sid,
        ⟨r.typ, r.sid, 100, 1, r.usr⟩, ⟨o.typ, o.sid, 100, 0, o.usr⟩⟩]))
  clobAdd b o := (⟨o.typ, o.sid, o.lmt, 1, o.usr⟩, (b.1 ++ [o], b.2))
  clobDel b _ := (-1, b)
  orders b := b.1
  aggiter _ _ _ := []
  exe b := b.2.map fun e => e.x.map intWord
  quo _ := []
  unxsClr b := (b.1, [])
  quosClr b := b
  execs b := b.2
  unxsExa x s := if s = clobSideBid then ⟨x.qty, -(x.qty * x.prc)⟩ else ⟨-x.qty, x.qty * x.prc⟩
  contra s := if s = clobSideBid then clobSideAsk else clobSideBid
  mmodAuction _ := ⟨NAND64, zerodd, zerodd⟩
  unxsAuction b _ _ := b
  word := intWord
  exe_execs _ := rfl

theorem samplePit_honest : samplePit.Honest .lobot where
  make own := ⟨fun r hr => absurd hr List.not_mem_nil, fun e he => absurd he List.not_mem_nil⟩
  order own b o px ho hb := by
    cases hf : b.1.find? fun r => r.sid != o.sid with
    | none =>
        have hx : samplePit.unxsOrder b o px = (o, b) := by simp only [samplePit, hf]
        rw [hx]
        exact ⟨ho, hb⟩
    | some r =>
        have hx : samplePit.unxsOrder b o px = ({ o with qty := ⟨zerodd, zerodd⟩ }, (b.1.erase r, b.2 ++ [⟨⟨1, 100⟩,
            r.sid, ⟨r.typ, r.sid, 100, 1, r.usr⟩, ⟨o.typ, o.sid, 100, 0, o.usr⟩⟩])) := by
          simp only [samplePit, hf]
        rw [hx]
        refine ⟨ho, fun r' hr' => hb.1 r' (List.mem_of_mem_erase hr'), fun e he => ?_⟩
        rcases List.mem_append.mp he with he | he
        · exact hb.2 e he
        · rw [List.mem_singleton.mp he]
          exact ⟨hb.1 r (List.mem_of_find?_eq_some hf), fun _ => ho⟩
  add own b o ho hb := ⟨fun r hr => (List.mem_append.mp hr).elim (hb.1 r) fun hr => List.mem_singleton.mp hr ▸ ho, hb.2⟩
  del own b i hb := hb
  auction own b p q hb := hb
  unxs own b hb := ⟨hb.1, fun e he => absurd he List.not_mem_nil⟩
  quos own b hb := hb

/-- A buffer of zeros. -/
def zeroStack : Stack256 := ⟨List.replicate 256 0, List.length_replicate⟩

/-- Two bots connect, one sells, the other buys, and the exchange waits for more. -/
def sessionEvents : List (HouseEvent ℤ) :=
  [.accept 5 0 (fun _ => 9) fun _ => ⟨1, 1⟩, .accept 6 0 (fun _ => 9) fun _ => ⟨1, 1⟩,
    .line ⟨5, 1, bytes ['S', 'E', 'L', '\t', 'I', '\t', '1', '\t', '1', '0', '0', '\n'], [], ⟨0, nilOid⟩,
      List.replicate 256 0⟩,
    .line ⟨6, 2, bytes ['B', 'U', 'Y', '\t', 'I', '\t', '1', '\t', '1', '0', '0', '\n'], [], ⟨0, nilOid⟩,
      List.replicate 256 0⟩, .prep fun _ => zeroStack]

/-- What the second is sent: a fill without an order id, and the account. -/
def sessionTold : List (Omsg Decimal64) :=
  [⟨[ch 'I'], .fil ⟨clobTypeLmt, clobSideBid, intWord 100, 0, 2⟩ ⟨intWord 1, intWord 100⟩ 1⟩,
    ⟨[ch 'I'], .acc ⟨intWord 1, intWord (-100)⟩⟩]

theorem sessionEvents_runs : ∃ s, (toldMachine .lobot samplePit sampleInstruments true).Runs sessionEvents s ∧
    (∃ c ∈ s.conns, c.uid = 2) ∧ told 2 s.sent = sessionTold := by
  have h : ((toldMachine .lobot samplePit sampleInstruments true).exec sessionEvents
      ⟨Users.none, [], [([], [])], [], [], 0⟩).any (fun s =>
        decide ((∃ c ∈ s.conns, c.uid = 2) ∧ told 2 s.sent = sessionTold)) = true := by
    decide +kernel
  obtain ⟨s, hr, hs⟩ := Run.Machine.runs_of_any _ rfl h
  exact ⟨s, hr, of_decide_eq_true hs⟩

/-- The hall in which the second of two users is told of a fill and of the account. -/
theorem exchange_refines_two : ∃ s h, (toldMachine .lobot samplePit sampleInstruments true).Runs sessionEvents s ∧
    (hallMachine .lobot samplePit sampleInstruments).Runs (sessionEvents.flatMap HouseEvent.inHall) h ∧
    s.clob = h.books ∧ textOf (h.told 2) = textOf sessionTold := by
  obtain ⟨s, hs, ⟨c, hc, hu⟩, htold⟩ := sessionEvents_runs
  obtain ⟨h, hruns, hbooks, -, -, hstream, -⟩ := exchange_refines samplePit_honest hs
  obtain ⟨_, -, hshow⟩ := house_shows samplePit_honest hs
  refine ⟨s, h, hs, hruns, hbooks, ?_⟩
  have hbytes := hstream c hc
  rw [hu, streamTo_eq 2 hshow.text, htold] at hbytes
  exact hbytes.symm

end Unserlob
