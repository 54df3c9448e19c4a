import Unserlob.Candle.Broadcast
import Unserlob.Candle.Trades
import Unserlob.Websock.Upgrade

/-!
# The candle maker (`lobcch`)

Quotes come in on one socket, subscribers on others, and a timer takes the snapshots.

* `CchLib.bookOf`: the book that is wanted of a row; `Cch.Books`, `onQuo_books`, **`reached_books`**: it is the one
  that is kept;
* `lobcchMachine`: the program; `lobcch_tab`, `lobcch_web`: its runs are runs of the tables and of the subscribers;
* `lobcch_goes_iff`, **`candles_published`**: what goes through and what the timer sends, in any state of any run.
-/

namespace Unserlob

open Ascii Cursor Table ForLoop Json

variable {Bk A : Type}

/-! ## The books -/

/-- A line for a book. -/
def Xquo.Books (q : Xquo) : Prop := q.s = sideAsk ∨ q.s = sideBid

instance : DecidablePred Xquo.Books := fun _ => inferInstanceAs (Decidable (_ ∨ _))

/-- **The book that is wanted of a row**: that of the lines that belong there, in their order. -/
def CchLib.bookOf (L : CchLib Bk A) (args : List (List UInt8)) (seen : List (BitVec 32)) (qs : List Xquo) (k : ℕ) : Bk :=
  (qs.filter fun q => q.Books ∧ L.route args seen q = some k).foldl L.bookAdd L.makeBook

/-- The books with one line more. -/
def CchLib.enter (L : CchLib Bk A) (row : Option ℕ) (q : Xquo) (g : ℕ → Bk) : ℕ → Bk :=
  fun k => if q.Books ∧ row = some k then L.bookAdd (g k) q else g k

/-- The rows in use hold these books, and the others have none yet. -/
structure Cch.Books (L : CchLib Bk A) (s : Cch Bk A) (g : ℕ → Bk) : Prop where
  holds : ∀ k < s.nbook + s.nctch, s.book[k]? = some (g k)
  fresh : ∀ k, s.nbook + s.nctch ≤ k → g k = L.makeBook

section Books

variable {L : CchLib Bk A} {args : List (List UInt8)} {seen : List (BitVec 32)} {s : Cch Bk A} {g : ℕ → Bk}

theorem bookOf_snoc {qs : List Xquo} (h : args = [] → ∀ q ∈ qs, L.hash q.ins ∈ seen) (q : Xquo) :
    L.bookOf args (L.see args seen q) (qs ++ [q]) =
      L.enter (L.route args seen q) q (L.bookOf args seen qs) := by
  funext k
  have hold : qs.filter (fun q' => q'.Books ∧ L.route args (L.see args seen q) q' = some k) =
      qs.filter fun q' => q'.Books ∧ L.route args seen q' = some k :=
    List.filter_congr fun q' hq' => by rw [route_see fun ha => h ha q' hq']
  rw [CchLib.bookOf, List.filter_append, hold, CchLib.enter]
  by_cases hc : q.Books ∧ L.route args seen q = some k
  · rw [if_pos hc, List.filter_cons_of_pos (by simpa [route_see_self] using hc), List.filter_nil, List.foldl_append]
    rfl
  · rw [if_neg hc, List.filter_cons_of_neg (by simpa [route_see_self] using hc), List.filter_nil, List.append_nil]
    rfl

variable [NonUnitalNonAssocSemiring A]

theorem putBook_book {j : ℕ} {hx : BitVec 32} {s' : Cch Bk A} (h : putBook L j hx s = .ok s') :
    j < s.book.length ∧ s'.book = s.book.set j L.makeBook ∧ s'.nbook = s.nbook ∧ s'.nctch = s.nctch := by
  obtain ⟨conx, -, h⟩ := bind_ok.mp h
  obtain ⟨book, hb, h⟩ := bind_ok.mp h
  obtain ⟨hist, -, h⟩ := bind_ok.mp h
  obtain ⟨hisq, -, h⟩ := bind_ok.mp h
  cases h
  exact ⟨setAt_lt hb, setAt_eq hb, rfl, rfl⟩

theorem named_book (as : List (List UInt8)) : ∀ {j j' : ℕ} {s s' : Cch Bk A}, named L as j s = .ok (j', s') →
    (∀ k < j, s.book[k]? = some L.makeBook) → ∀ k < j', s'.book[k]? = some L.makeBook := by
  induction as with
  | nil =>
      intro j j' s s' h hs
      cases h
      exact hs
  | cons a as ih =>
      intro j j' s s' h hs
      rw [named] at h
      split_ifs at h
      · exact ih h hs
      · obtain ⟨s₁, h₁, h⟩ := bind_ok.mp h
        obtain ⟨hj, hbook, -⟩ := putBook_book h₁
        refine ih h fun k hk => ?_
        rw [hbook]
        by_cases hkj : k = j
        · subst hkj
          exact List.getElem?_set_self hj
        · rw [List.getElem?_set_ne (Ne.symm hkj)]
          exact hs k (by omega)

/-- **The books at the start** are empty. -/
theorem cchMain_book {m : Junk Bk A} (h : cchMain L m args = .ok s) :
    ∀ k < s.nbook + s.nctch, s.book[k]? = some L.makeBook := by
  unfold cchMain at h
  split_ifs at h with ha
  · obtain ⟨⟨j, s₁⟩, h₁, h⟩ := bind_ok.mp h
    have hrows := named_book args h₁ fun k hk => absurd hk (Nat.not_lt_zero k)
    obtain ⟨s₀, h₀, -, -, hnb, -, hnc, -⟩ := named_spec (L := L) args 0 (alloc m args.length args.length 0)
      (alloc_ok m le_rfl fun hz => absurd rfl hz) (by omega) fun k hk => absurd hk (Nat.not_lt_zero k)
    obtain ⟨rfl, rfl⟩ := Prod.mk.inj (Except.ok.inj (h₁.symm.trans h₀))
    simp only at h
    split_ifs at h with hlt
    · -- a last row for the catch-alls
      obtain ⟨s₂, h₂, h⟩ := bind_ok.mp h
      cases h
      obtain ⟨hj, hbook, hnb₂, -⟩ := putBook_book h₂
      intro k hk
      have hk : k < s₂.nbook + 1 := hk
      rw [hnb₂] at hk
      show s₂.book[k]? = _
      rw [hbook]
      by_cases hkj : k = 0 + (namedHashes L args).length
      · subst hkj
        exact List.getElem?_set_self hj
      · rw [List.getElem?_set_ne (Ne.symm hkj)]
        exact hrows k (by simp only at hk; omega)
    · cases h
      intro k hk
      rw [hnc] at hk
      exact hrows k (by simp only [alloc] at hk; omega)
  · cases h
    exact fun k hk => absurd hk (Nat.not_lt_zero k)

theorem Cch.Books.placed (h : s.Books L g) (hm : s.Mode L args) {q : Xquo} {s₁ : Cch Bk A}
    (hp : s.Placed L args q s₁) : s₁.Books L g := by
  obtain ⟨rows, hok⟩ := hm.ok
  obtain ⟨rows₁, hok₁⟩ := hp.mode.ok
  have hold : ∀ k < s.nbook + s.nctch, s₁.book[k]? = some (g k) := fun k hk => by
    rw [(hp.rows k hk).book]
    exact h.holds k hk
  by_cases hnew : args = [] ∧ L.hash q.ins ∉ s.seen
  · obtain ⟨rfl, hq⟩ := hnew
    have hnc : s.nctch = 0 := (hok.auto (hm.auto.mpr rfl)).2
    have hnb : s₁.nbook = s.nbook + 1 := by
      rw [← length_seen hok₁, ← length_seen hok, hp.seen, CchLib.see, if_pos ⟨rfl, hq⟩, List.length_append]
      rfl
    refine ⟨fun k hk => ?_, fun k hk => h.fresh k ?_⟩
    · rw [hp.nctch, hnb] at hk
      by_cases hkn : k = s.nbook
      · subst hkn
        rw [h.fresh s.nbook (by omega)]
        exact (hp.fresh rfl hq).1
      · exact hold k (by omega)
    · rw [hp.nctch, hnb] at hk
      omega
  · rw [hp.same hnew]
    exact h

theorem bookLine_book {k : ℕ} {q : Xquo} {s' : Cch Bk A} (h : bookLine L k q s = .ok s') {b : Bk}
    (hb : s.book[k]? = some b) : s'.book[k]? = some (if q.Books then L.bookAdd b q else b) := by
  unfold bookLine at h
  by_cases hq : q.Books
  · rw [if_pos (show q.s = sideAsk ∨ q.s = sideBid from hq)] at h
    obtain ⟨b', hget, h⟩ := bind_ok.mp h
    obtain ⟨book, hset, h⟩ := bind_ok.mp h
    cases h
    cases (getAt_ok hb).symm.trans hget
    rw [if_pos hq, setAt_eq hset]
    exact List.getElem?_set_self (setAt_lt hset)
  · rw [if_neg (show ¬ (q.s = sideAsk ∨ q.s = sideBid) from hq)] at h
    rw [if_neg hq, ← hb]
    split_ifs at h
    · obtain ⟨hist, -, h⟩ := bind_ok.mp h
      obtain ⟨hisq, -, h⟩ := bind_ok.mp h
      cases h
      rfl
    · cases h
      rfl

/-- **A quote** goes to the book of its row. -/
theorem onQuo_books (h : s.Books L g) (hm : s.Mode L args) {q : Xquo} {r : Option ℕ × Cch Bk A}
    (hb : s.Booked L args q r) : r.2.Books L (L.enter (L.route args s.seen q) q g) := by
  rw [← hb.route]
  cases hr : r.1 with
  | none =>
      have hsame : L.enter none q g = g := funext fun k => if_neg fun hc => nomatch hc.2
      rw [hb.ignored hr, hsame]
      exact h
  | some k₀ =>
      obtain ⟨s₁, hp, hline⟩ := hb.line k₀ hr
      have h₁ := h.placed hm hp
      obtain ⟨rows₁, hok₁⟩ := hp.mode.ok
      have hlt : k₀ < s₁.nbook + s₁.nctch := route_lt hm hp (hb.route.symm.trans hr)
      obtain ⟨s₂, h₂, -, hfr, -⟩ := bookLine_spec L hok₁ (hlt.trans_le hok₁.room) q
      cases hline.symm.trans h₂
      refine ⟨fun k hk => ?_, fun k hk => ?_⟩
      · rw [hfr.nbook, hfr.nctch] at hk
        by_cases hk₀ : k = k₀
        · subst hk₀
          rw [bookLine_book hline (h₁.holds k hk), CchLib.enter]
          simp
        · rw [(hfr.rows k hk₀).book, h₁.holds k hk, CchLib.enter, if_neg fun hc => hk₀ (Option.some.inj hc.2).symm]
      · rw [hfr.nbook, hfr.nctch] at hk
        rw [CchLib.enter, if_neg fun hc => absurd (Option.some.inj hc.2) (by omega)]
        exact h₁.fresh k hk

theorem snapCb_book {r : List (A × A) × Cch Bk A} (h : snapCb L s = .ok r) : r.2.book = s.book := by
  obtain ⟨⟨reads, s₁⟩, h₁, h⟩ := bind_ok.mp h
  obtain ⟨hist, -, h⟩ := bind_ok.mp h
  obtain ⟨hisq, -, h⟩ := bind_ok.mp h
  cases h
  show s₁.book = s.book
  refine forRange_inv (I := fun _ (r : List (A × A) × Cch Bk A) => r.2.book = s.book) h₁ rfl fun i _ r r' hr hturn => ?_
  obtain ⟨b, -, hturn⟩ := bind_ok.mp hturn
  obtain ⟨x, -, hturn⟩ := bind_ok.mp hturn
  obtain ⟨y, -, hturn⟩ := bind_ok.mp hturn
  obtain ⟨hist₁, -, hturn⟩ := bind_ok.mp hturn
  obtain ⟨hist₂, -, hturn⟩ := bind_ok.mp hturn
  obtain ⟨hist₃, -, hturn⟩ := bind_ok.mp hturn
  obtain ⟨hisq₁, -, hturn⟩ := bind_ok.mp hturn
  obtain ⟨hisq₂, -, hturn⟩ := bind_ok.mp hturn
  cases hturn
  exact hr

/-- The lines of a run. -/
def quosOf (es : List (CchEvent Bk A)) : List Xquo :=
  es.filterMap fun e => match e with
    | .quo _ _ _ q => some q
    | .snap => none

/-- **The books of every run** are those that are wanted. -/
theorem reached_books (hne : ¬ OnlyCatchall args) {es : List (CchEvent Bk A)} (h : (cchMachine L args).Runs es s) :
    s.Mode L args ∧ (args = [] → ∀ q ∈ quosOf es, L.hash q.ins ∈ s.seen) ∧
      s.Books L (L.bookOf args s.seen (quosOf es)) := by
  refine h.inv_events (P := fun es s => s.Mode L args ∧ (args = [] → ∀ q ∈ quosOf es, L.hash q.ins ∈ s.seen) ∧
    s.Books L (L.bookOf args s.seen (quosOf es))) ?_ ?_
  · rintro s ⟨m, hm⟩
    obtain ⟨s₀, h₀, hmode, -⟩ := cchMain_spec L m args
    cases hm.symm.trans h₀
    exact ⟨hmode, fun _ q hq => absurd hq List.not_mem_nil, cchMain_book hm, fun _ _ => rfl⟩
  · rintro es s e s' ⟨hmode, hmem, hbooks⟩ - hstep
    cases e with
    | quo m k hx q =>
        obtain ⟨r, hr, hb, hmode'⟩ := onQuo_spec m k hx q hmode hne
        have hstep : (onQuo L m k hx q s).map Prod.snd = .ok s' := hstep
        rw [hr] at hstep
        cases hstep
        have hq : quosOf (es ++ [CchEvent.quo m k hx q]) = quosOf es ++ [q] := List.filterMap_append
        refine ⟨hmode', fun ha q' hq' => ?_, ?_⟩
        · rw [hb.seen]
          rw [hq] at hq'
          rcases List.mem_append.mp hq' with hq' | hq'
          · exact mem_see (hmem ha q' hq') q
          · cases List.mem_singleton.mp hq'
            exact mem_see_self ha q
        · rw [hq, hb.seen, bookOf_snoc hmem]
          exact onQuo_books hbooks hmode hb
    | snap =>
        obtain ⟨r, hr, hmode', hs⟩ := snapCb_mode hmode
        obtain ⟨rows, hok⟩ := hmode.ok
        obtain ⟨s₁, h₁, -, hnb, -, hnc, -⟩ := snapCb_spec L hok
          (f := fun k => ((s.hist[slot k (3 * s.iper)]?).getD 0, (s.hisq[slot k (3 * s.iper)]?).getD 0))
          fun k hk => hok.holds (hk.trans_le hok.room)
        have hbook := snapCb_book hr
        have hstep : (snapCb L s).map Prod.snd = .ok s' := hstep
        cases hr.symm.trans h₁
        rw [hr] at hstep
        cases hstep
        have hq : quosOf (es ++ [CchEvent.snap]) = quosOf es := by
          rw [quosOf, List.filterMap_append]
          exact List.append_nil _
        rw [hq, hs]
        refine ⟨hmode', hmem, fun k hk => ?_, fun k hk => hbooks.fresh k (by rw [← hnb, ← hnc]; exact hk)⟩
        rw [hbook]
        exact hbooks.holds k (by rw [← hnb, ← hnc]; exact hk)

end Books

/-! ## The program -/

/-- The tables and the subscribers. -/
structure Lobcch (Bk A : Type) where
  tab : Cch Bk A
  web : Web

/-- A line of quotes, a new connection, bytes from one or its end, the timer. -/
inductive LobcchEvent (Bk A : Type) where
  | quo (m : Junk Bk A) (k : ℕ) (hx : BitVec 32) (q : Xquo)
  | accept (junk : ℕ → UInt8) (ns : ℤ)
  | data (junk : ℕ → ℤ) (fd : ℤ) (bs : List UInt8)
  | timer (junk : ℕ → List UInt8)

def LobcchEvent.allowed (U : UcloLayout) (s : Lobcch Bk A) : LobcchEvent Bk A → Prop
  | .quo .. => True
  | .accept junk ns => (WebEvent.accept junk ns).allowed U s.web
  | .data junk fd bs => (WebEvent.data junk fd bs).allowed U s.web
  | .timer junk => Junk256 junk

section Machine

variable [NonUnitalNonAssocSemiring A] (L : CchLib Bk A) (U : UcloLayout) (word : A → Decimal64)
  (args : List (List UInt8))

/-- `beef_cb`, `cake_cb`, `data_cb` and `snap_cb` -/
def LobcchEvent.step : LobcchEvent Bk A → Lobcch Bk A → Res (Lobcch Bk A)
  | .quo m k hx q, s => do
    let r ← onQuo L m k hx q s.tab
    pure { s with tab := r.2 }
  | .accept junk ns, s => do
    let web ← (WebEvent.accept junk ns).step U s.web
    pure { s with web }
  | .data junk fd bs, s => do
    let web ← (WebEvent.data junk fd bs).step U s.web
    pure { s with web }
  | .timer junk, s => do
    let r ← snapAll L word junk s.tab s.web
    pure ⟨r.1, r.2⟩

def lobcchMachine : Run.Machine (Lobcch Bk A) (LobcchEvent Bk A) where
  init s := (∃ m, cchMain L m args = .ok s.tab) ∧ s.web = ⟨[], 0, 0, [], []⟩
  allowed s e := e.allowed U s
  step e s := e.step L U word s

/-- What the tables see of an event. -/
def LobcchEvent.tab : LobcchEvent Bk A → Option (CchEvent Bk A)
  | .quo m k hx q => some (.quo m k hx q)
  | .timer _ => some .snap
  | _ => none

variable {L U word args} {s : Lobcch Bk A} {es : List (LobcchEvent Bk A)}

/-- **The tables of a run** are those of a run without subscribers. -/
theorem lobcch_tab (h : (lobcchMachine L U word args).Runs es s) :
    (cchMachine L args).Runs (es.filterMap LobcchEvent.tab) s.tab := by
  induction h with
  | start hi => exact .start hi.1
  | @next es s s' e _ ha hs ih =>
      rw [List.filterMap_append]
      have hs : e.step L U word s = .ok s' := hs
      cases e with
      | quo m k hx q =>
          obtain ⟨r, hr, hs⟩ := bind_ok.mp hs
          cases hs
          exact ih.next trivial (by show (onQuo L m k hx q s.tab).map Prod.snd = _; rw [hr]; rfl)
      | accept junk ns =>
          obtain ⟨web, -, hs⟩ := bind_ok.mp hs
          cases hs
          rw [show [LobcchEvent.accept junk ns].filterMap LobcchEvent.tab = ([] : List (CchEvent Bk A)) from rfl,
            List.append_nil]
          exact ih
      | data junk fd bs =>
          obtain ⟨web, -, hs⟩ := bind_ok.mp hs
          cases hs
          rw [show [LobcchEvent.data junk fd bs].filterMap LobcchEvent.tab = ([] : List (CchEvent Bk A)) from rfl,
            List.append_nil]
          exact ih
      | timer junk =>
          obtain ⟨r, hr, hs⟩ := bind_ok.mp hs
          cases hs
          have hr : snapAll L word junk s.tab s.web = .ok (r.1, r.2) := hr
          obtain ⟨reads, hsnap⟩ := snapAll_tab hr
          exact ih.next trivial (by show (snapCb L s.tab).map Prod.snd = _; rw [hsnap]; rfl)

/-- The prices that a row has after some events. -/
def pricesAfter (L : CchLib Bk A) (word : A → Decimal64) (args : List (List UInt8)) (seen : List (BitVec 32))
    (es : List (CchEvent Bk A)) (k : ℕ) : List Decimal64 :=
  rowPrices L word (L.total ((ledger L args es).2 k)) (L.bookOf args seen (quosOf es) k)

/-- The text that a row has then. -/
def rowAfter (L : CchLib Bk A) (word : A → Decimal64) (args : List (List UInt8)) (seen : List (BitVec 32))
    (es : List (CchEvent Bk A)) (k : ℕ) : List UInt8 :=
  rowCandle L word (L.total ((ledger L args es).2 k)) (L.bookOf args seen (quosOf es) k)

variable (word) in
/-- **The timer** in a state of a run of the tables. -/
theorem timer_spec (hne : ¬ OnlyCatchall args) (hunk : L.sideUnk ≠ 1 ∧ L.sideUnk ≠ 2) {t : Cch Bk A}
    {es : List (CchEvent Bk A)} (h : (cchMachine L args).Runs es t) {junk : ℕ → List UInt8} (hj : Junk256 junk)
    {w : Web} (hw : w.nsock ≤ w.sock.length) :
    ((∃ k < t.nbook + t.nctch, 242 < (rowAfter L word args t.seen es k).length) →
      snapAll L word junk t w = .error .store) ∧
    ((∀ k < t.nbook + t.nctch, (rowAfter L word args t.seen es k).length ≤ 242) → ∃ t' frames,
      snapAll L word junk t w = .ok (t', w.after frames) ∧
      List.Forall₂ FrameOf frames ((List.range (t.nbook + t.nctch)).map (rowAfter L word args t.seen es))) := by
  obtain ⟨hmode, -, hcnt⟩ := reached_counts hne h
  obtain ⟨-, -, hbooks⟩ := reached_books hne h
  obtain ⟨rows, hok⟩ := hmode.ok
  exact snapAll_spec hunk hok hj hw hcnt.holds hbooks.holds

/-- **The subscribers of a run** are those of a run that is given the frames. -/
theorem lobcch_web (hne : ¬ OnlyCatchall args) (hunk : L.sideUnk ≠ 1 ∧ L.sideUnk ≠ 2)
    (h : (lobcchMachine L U word args).Runs es s) : ∃ ws, (webMachine U).Runs ws s.web := by
  induction h with
  | start hi => exact ⟨[], .start hi.2⟩
  | @next es s s' e hr ha hs ih =>
      obtain ⟨ws, hws⟩ := ih
      have hs : e.step L U word s = .ok s' := hs
      cases e with
      | quo m k hx q =>
          obtain ⟨r, -, hs⟩ := bind_ok.mp hs
          cases hs
          exact ⟨ws, hws⟩
      | accept junk ns =>
          obtain ⟨web, hweb, hs⟩ := bind_ok.mp hs
          cases hs
          have hr : (webMachine U).Runs (ws ++ [.accept junk ns]) web := hws.next ha hweb
          exact ⟨_, hr⟩
      | data junk fd bs =>
          obtain ⟨web, hweb, hs⟩ := bind_ok.mp hs
          cases hs
          have hr : (webMachine U).Runs (ws ++ [.data junk fd bs]) web := hws.next ha hweb
          exact ⟨_, hr⟩
      | timer junk =>
          obtain ⟨r, hsnap, hs⟩ := bind_ok.mp hs
          cases hs
          have hinv := web_inv hws
          have hw : s.web.nsock ≤ s.web.sock.length := hinv.cap.2 ▸ hinv.cap.1
          obtain ⟨hspill, hfit⟩ := timer_spec word hne hunk (lobcch_tab hr) (show Junk256 junk from ha) hw
          have hall : ∀ k < s.tab.nbook + s.tab.nctch,
              (rowAfter L word args s.tab.seen (es.filterMap LobcchEvent.tab) k).length ≤ 242 := by
            by_contra hn
            simp only [not_forall, not_le] at hn
            obtain ⟨k, hk, hlt⟩ := hn
            cases hsnap.symm.trans (hspill ⟨k, hk, hlt⟩)
          obtain ⟨t', frames, hok, -⟩ := hfit hall
          cases hsnap.symm.trans hok
          have hr : (webMachine U).Runs (ws ++ [.snap frames]) (s.web.after frames) :=
            hws.next trivial (Web.broadcast_spec frames s.web hw)
          exact ⟨_, hr⟩

/-- The condition: the request that a read completes has room, and so have the texts of all rows when the timer comes. -/
def LobcchEvent.Fits (U : UcloLayout) (s : Lobcch Bk A) (row : ℕ → List UInt8) : LobcchEvent Bk A → Prop
  | .data junk fd bs => (WebEvent.data junk fd bs).Fits U s.web
  | .timer _ => ∀ k < s.tab.nbook + s.tab.nctch, (row k).length ≤ 242
  | _ => True

/-- **An event goes through** just when what it brings or sends fits. -/
theorem lobcch_goes_iff (hne : ¬ OnlyCatchall args) (hunk : L.sideUnk ≠ 1 ∧ L.sideUnk ≠ 2)
    (h : (lobcchMachine L U word args).Runs es s) {e : LobcchEvent Bk A} (ha : e.allowed U s) :
    (∃ s', e.step L U word s = .ok s') ↔
      e.Fits U s (rowAfter L word args s.tab.seen (es.filterMap LobcchEvent.tab)) := by
  obtain ⟨ws, hws⟩ := lobcch_web hne hunk h
  have hinv := web_inv hws
  cases e with
  | quo m k hx q =>
      obtain ⟨hmode, -⟩ := reached hne (lobcch_tab h)
      obtain ⟨r, hr, -⟩ := onQuo_spec m k hx q hmode hne
      exact iff_of_true ⟨{ s with tab := r.2 }, bind_ok.mpr ⟨r, hr, rfl⟩⟩ trivial
  | accept junk ns => exact iff_of_true ⟨_, rfl⟩ trivial
  | data junk fd bs =>
      refine Iff.trans ⟨?_, ?_⟩ (web_goes_iff hinv (e := .data junk fd bs) ha)
      · rintro ⟨s', hs⟩
        obtain ⟨web, hweb, -⟩ := bind_ok.mp hs
        exact ⟨web, hweb⟩
      · rintro ⟨web, hweb⟩
        exact ⟨{ s with web }, bind_ok.mpr ⟨web, hweb, rfl⟩⟩
  | timer junk =>
      obtain ⟨hspill, hfit⟩ := timer_spec word hne hunk (lobcch_tab h) (show Junk256 junk from ha)
        (hinv.cap.2 ▸ hinv.cap.1)
      constructor
      · rintro ⟨s', hs⟩ k hk
        obtain ⟨r, hr, -⟩ := bind_ok.mp hs
        by_contra hlt
        cases hr.symm.trans (hspill ⟨k, hk, not_le.mp hlt⟩)
      · intro hle
        obtain ⟨t', frames, hok, -⟩ := hfit hle
        exact ⟨⟨t', s.web.after frames⟩, bind_ok.mpr ⟨_, hok, rfl⟩⟩

end Machine

/-! ## A sample run -/

/-- The word of a whole number, and the one of `⊤`. -/
def sampleWord : WithTop ℕ → Decimal64
  | none => 0x7c00000000000000
  | some n => BitVec.ofNat 64 (398 * 2 ^ 53 + n % 2 ^ 53)

theorem canonical_sampleWord (a : WithTop ℕ) : Canonical (sampleWord a) := by
  rcases a with _ | n
  · exact fun h => absurd (show isnand64 0x7c00000000000000 by decide) h.1
  · have hlt : n % 2 ^ 53 < 2 ^ 53 := Nat.mod_lt _ (by decide)
    refine fun _ => ⟨⟨false, n % 2 ^ 53, 0, by omega, by decide, by decide⟩, ?_⟩
    show (BitVec.ofNat 64 (398 * 2 ^ 53 + n % 2 ^ 53)).toNat = _
    rw [BitVec.toNat_ofNat, Nat.mod_eq_of_lt (by omega), Decimal.bid, if_pos hlt]
    simp [Decimal.Dec.biased, Decimal.signBit]

/-- Somebody subscribes, and a contract that is on the command line is traded twice. -/
def candleEvents : List (LobcchEvent (List Xquo) (WithTop ℕ)) :=
  [.accept (fun _ => 0) 5, .data (fun _ => 0) 5 sampleHshk, .quo sampleJunk 0 0 (sampleTrade [ch 'X']),
    .quo sampleJunk 0 0 (sampleTrade [ch 'X'])]

theorem lobcch_quo [NonUnitalNonAssocSemiring A] {L : CchLib Bk A} {U : UcloLayout} {word : A → Decimal64}
    {args : List (List UInt8)} {s : Lobcch Bk A} {es : List (LobcchEvent Bk A)} (hne : ¬ OnlyCatchall args)
    (h : (lobcchMachine L U word args).Runs es s) (m : Junk Bk A) (k : ℕ) (hx : BitVec 32) (q : Xquo) :
    ∃ s', (lobcchMachine L U word args).Runs (es ++ [.quo m k hx q]) s' ∧ s'.web = s.web := by
  obtain ⟨hmode, -⟩ := reached hne (lobcch_tab h)
  obtain ⟨r, hr, -⟩ := onQuo_spec m k hx q hmode hne
  exact ⟨{ s with tab := r.2 }, h.next trivial (bind_ok.mpr ⟨r, hr, rfl⟩), rfl⟩

theorem candleEvents_runs : ∃ s, (lobcchMachine sampleCch sampleUclo sampleWord [[ch 'X']]).Runs candleEvents s ∧
    s.web.targets = [5] := by
  have hne : ¬ OnlyCatchall [[ch 'X']] := by decide
  obtain ⟨t, ht, -⟩ := cchMain_spec sampleCch sampleJunk [[ch 'X']]
  have h₀ : (lobcchMachine sampleCch sampleUclo sampleWord [[ch 'X']]).Runs [] ⟨t, ⟨[], 0, 0, [], []⟩⟩ :=
    .start ⟨⟨_, ht⟩, rfl⟩
  have h₁ : (lobcchMachine sampleCch sampleUclo sampleWord [[ch 'X']]).Runs [.accept (fun _ => 0) 5]
      ⟨t, (⟨[], 0, 0, [], []⟩ : Web).cakeCb sampleUclo (fun _ => 0) 5⟩ :=
    h₀.next (show _ ∧ _ from ⟨by decide, by decide, fun _ hc => absurd hc List.not_mem_nil⟩) rfl
  have heval : (((⟨[], 0, 0, [], []⟩ : Web).cakeCb sampleUclo (fun _ => 0) 5).dataCb (fun _ => 0) 5
      sampleHshk).toOption.map (fun w => w.targets) = some [5] := by decide +kernel
  cases hw : ((⟨[], 0, 0, [], []⟩ : Web).cakeCb sampleUclo (fun _ => 0) 5).dataCb (fun _ => 0) 5 sampleHshk with
  | error e =>
      rw [hw] at heval
      cases heval
  | ok w =>
      rw [hw] at heval
      have h₂ : (lobcchMachine sampleCch sampleUclo sampleWord [[ch 'X']]).Runs
          ([.accept (fun _ => 0) 5] ++ [.data (fun _ => 0) 5 sampleHshk]) ⟨t, w⟩ :=
        h₁.next ⟨_, List.mem_cons_self, rfl, by decide⟩ (bind_ok.mpr ⟨w, hw, rfl⟩)
      obtain ⟨s₃, h₃, hweb₃⟩ := lobcch_quo hne h₂ sampleJunk 0 0 (sampleTrade [ch 'X'])
      obtain ⟨s₄, h₄, hweb₄⟩ := lobcch_quo hne h₃ sampleJunk 0 0 (sampleTrade [ch 'X'])
      refine ⟨s₄, h₄, ?_⟩
      rw [hweb₄, hweb₃]
      exact Option.some.inj heval

theorem candleEvents_row : rowAfter sampleCch sampleWord [[ch 'X']] [sampleCch.hash [ch 'X']]
    (candleEvents.filterMap LobcchEvent.tab) 0 = ch '{' :: (memberText traKey [ch '2'] ++ ch ',' ::
      (memberText bidKey nullText ++ ch ',' :: (memberText askKey nullText ++ [ch '}']))) := by decide +kernel

end Unserlob
