import Mathlib.Tactic.Linarith
import Unserlob.Bots.Gamblers
import Unserlob.Bots.Takers
import Unserlob.Lib.Run

/-!
# Takers and their position limit

Bots that send market orders make them as small as their position requires, and so small that nothing
is left of them where the limit has been reached.

* `Taking`, `taking`: a bot whose orders are completely filled, with the account delivered before the next tick;
* `InBounds`: what is wanted of every step; `Taker`: what a bot does to that end; **`Taker.always_iff`**;
* `clamp`: an order cut down to the room below the limit;
* `Trendbot.taker`, `Techbot.taker`, `Monkey.taker`: the three bots;
* **`takers_in_bounds`**: orders are for something just in the runs that do not trade at the limit.
-/

namespace Unserlob

open Cursor Run Table
open Exact (num)

/-! ## A bot whose orders are filled -/

/-- A bot, and what it sent in the last step. -/
structure Taking (S D : Type) where
  bot : S
  out : List (Omsg D)

/-- A quote; a message about an order, accounts apart; and the timer, with the account after the fills. -/
inductive TakingEvent (D : Type) where
  | hear (m : Qmsg D) (behind : Ptr)
  | news (m : Omsg D)
  | tick (ins : List UInt8) (exa : UnxsExa D)

/-- An account. -/
def OBody.isAcc {D : Type} : OBody D → Bool
  | .acc _ => true
  | _ => false

section Steps

variable {S D : Type} {b : BotCbs S D} {s : Taking S D} {s₁ s₂ : S} {ms : List (Omsg D)}

variable (b) in
/-- A call of the bot; an account is delivered when there have been orders. -/
def Taking.step : TakingEvent D → Taking S D → Res (Taking S D)
  | .hear m behind, s => do
    let r ← b.qchanCb m behind s.bot
    pure ⟨r.1, r.2⟩
  | .news m, s => do
    let r ← b.ochanCb m s.bot
    pure ⟨r.1, r.2⟩
  | .tick ins exa, s => do
    let r ← b.timerCb s.bot
    if r.2.isEmpty then pure ⟨r.1, []⟩
    else
      let r' ← b.ochanCb ⟨ins, .acc exa⟩ r.1
      pure ⟨r'.1, r.2 ++ r'.2⟩

theorem Taking.step_hear {m : Qmsg D} {behind : Ptr} (h : b.qchanCb m behind s.bot = .ok (s₁, ms)) :
    Taking.step b (.hear m behind) s = .ok ⟨s₁, ms⟩ := by
  change (b.qchanCb m behind s.bot >>= _) = _
  rw [h]
  rfl

theorem Taking.step_news {m : Omsg D} (h : b.ochanCb m s.bot = .ok (s₁, ms)) : Taking.step b (.news m) s = .ok ⟨s₁, ms⟩ := by
  change (b.ochanCb m s.bot >>= _) = _
  rw [h]
  rfl

theorem Taking.step_rests {ins : List UInt8} {exa : UnxsExa D} (h : b.timerCb s.bot = .ok (s₁, [])) :
    Taking.step b (.tick ins exa) s = .ok ⟨s₁, []⟩ := by
  change (b.timerCb s.bot >>= _) = _
  rw [h]
  rfl

theorem Taking.step_trades {ins : List UInt8} {exa : UnxsExa D} {m : Omsg D} (h : b.timerCb s.bot = .ok (s₁, [m]))
    (hacc : b.ochanCb ⟨ins, .acc exa⟩ s₁ = .ok (s₂, [])) : Taking.step b (.tick ins exa) s = .ok ⟨s₂, [m]⟩ := by
  change (b.timerCb s.bot >>= _) = _
  rw [h]
  change (b.ochanCb ⟨ins, .acc exa⟩ s₁ >>= _) = _
  rw [hacc]
  rfl

end Steps

section Taking

variable {S D : Type} [Dfp D] [Exact D] (b : BotCbs S D) (acc : S → UnxsExa D)

/-- The position after an order is completely filled. -/
def fill (a : Decimal64.Num) (m : Omsg D) : Decimal64.Num :=
  match a, m.body with
  | .fin a, .ord o =>
    match (wired o.qty).dis, (wired o.qty).hid with
    | .fin x, .fin y => .fin (if o.sid = clobSideBid then a + (x + y) else a - (x + y))
    | _, _ => .nan
  | a, _ => a

/-- The account is that after the fills. -/
def Taking.allowed (s : Taking S D) : TakingEvent D → Prop
  | .hear _ _ => True
  | .news m => m.body.isAcc = false
  | .tick _ exa =>
    match b.timerCb s.bot with
    | .ok r => r.2.isEmpty = false → num exa.base = r.2.foldl fill (num (acc s.bot).base)
    | .error _ => True

instance : DecidableRel (Taking.allowed b acc) := fun s e => by
  unfold Taking.allowed
  cases e with
  | hear m behind => exact inferInstance
  | news m => exact inferInstance
  | tick ins exa => cases b.timerCb s.bot <;> exact inferInstance

/-- **The runs**, from the states in which the bot may start. -/
def taking (start : S → Prop) : Machine (Taking S D) (TakingEvent D) where
  init s := start s.bot ∧ s.out = []
  allowed := Taking.allowed b acc
  step := Taking.step b

instance (start : S → Prop) : DecidableRel (taking b acc start).allowed :=
  inferInstanceAs (DecidableRel (Taking.allowed b acc))

/-- **What is wanted**: orders are for something, and the position is within the limit. -/
def InBounds (L : WithTop ℚ) (s : Taking S D) : Prop :=
  (∀ m ∈ s.out, ∃ o t, m.body = .ord o ∧ Totals o.qty t ∧ 0 < t) ∧
    ∃ a, num (acc s.bot).base = .fin a ∧ ((|a| : ℚ) : WithTop ℚ) ≤ L

/-- The position after so much has been bought or sold. -/
def moved (sid : ClobSide) (a x : ℚ) : ℚ := if sid = clobSideBid then a + x else a - x

variable (L : WithTop ℚ) (ok atLimit : S → Prop)

/-- **What a tick does** in the position `a`: nothing, or it sends a market order that is within the limit, and for
nothing just where the limit has been reached. -/
inductive Ticks (s : S) (a : ℚ) : Prop
  | rests {s' : S} (h : b.timerCb s = .ok (s', [])) (hok : ok s') (hacc : acc s' = acc s) (hlim : ¬ atLimit s)
  | trades {s' : S} {cont : List UInt8} {sid : ClobSide} {q : D} {x : ℚ} (h : b.timerCb s = .ok (s', [mktOf cont sid q]))
      (hok : ok s') (hacc : acc s' = acc s) (hq : num q = .fin x) (h0 : 0 ≤ x)
      (hL : ((|moved sid a x| : ℚ) : WithTop ℚ) ≤ L) (hlim : atLimit s ↔ x = 0)

/-- **A taker**: its ticks are such, and the messages it hears do not change the account, unless it is one. -/
structure Taker : Prop where
  hear : ∀ m behind s, ok s → ∃ s', b.qchanCb m behind s = .ok (s', []) ∧ ok s' ∧ acc s' = acc s
  news : ∀ m s, ok s → m.body.isAcc = false → ∃ s', b.ochanCb m s = .ok (s', []) ∧ ok s' ∧ acc s' = acc s
  told : ∀ ins exa s, ok s → ∃ s', b.ochanCb ⟨ins, .acc exa⟩ s = .ok (s', []) ∧ ok s' ∧ acc s' = exa
  tick : ∀ s a, ok s → num (acc s).base = .fin a → ((|a| : ℚ) : WithTop ℚ) ≤ L → Ticks b acc L ok atLimit s a

/-- The limit has not been reached where there is an order for it. -/
def OffLimit (s : Taking S D) : TakingEvent D → Prop
  | .tick _ _ => ¬ atLimit s.bot
  | _ => True

variable {b acc L ok atLimit}

theorem wired_mkt {q : D} {x : ℚ} (hq : num q = .fin x) : wired (⟨q, Dfp.nought⟩ : Qty D) = ⟨.fin x, .fin 0⟩ := by
  rw [wired_fin (q := ⟨q, Dfp.nought⟩) hq Exact.nought, max_self]

theorem fill_mkt (cont : List UInt8) (sid : ClobSide) {q : D} {x : ℚ} (hq : num q = .fin x) (a : ℚ) :
    fill (.fin a) (mktOf cont sid q) = .fin (moved sid a x) := by
  have hw := wired_mkt hq
  unfold fill mktOf
  simp only [hw, add_zero]
  rfl

theorem totals_mkt {q : D} {x : ℚ} (hq : num q = .fin x) (h0 : 0 ≤ x) (t : ℚ) :
    Totals (⟨q, Dfp.nought⟩ : Qty D) t ↔ x = t := by
  rw [totals_iff (q := ⟨q, Dfp.nought⟩) hq Exact.nought, max_self, add_zero, and_iff_right h0]

/-- What a step of a taker finds. -/
def Held (acc : S → UnxsExa D) (L : WithTop ℚ) (ok : S → Prop) (s : Taking S D) : Prop :=
  ok s.bot ∧ ∃ a, num (acc s.bot).base = .fin a ∧ ((|a| : ℚ) : WithTop ℚ) ≤ L

theorem InBounds.of_held {s : Taking S D} (h : Held acc L ok s) (hout : s.out = []) : InBounds acc L s :=
  ⟨fun m hm => absurd hm (by rw [hout]; exact List.not_mem_nil), h.2⟩

theorem Held.quiet {s : Taking S D} (h : Held acc L ok s) {s' : S} (hok : ok s') (hacc : acc s' = acc s.bot) :
    InBounds acc L ⟨s', []⟩ ∧ Held acc L ok ⟨s', []⟩ := by
  have hheld : Held acc L ok (⟨s', []⟩ : Taking S D) := by
    obtain ⟨a, ha, hle⟩ := h.2
    exact ⟨hok, a, by rw [hacc, ha], hle⟩
  exact ⟨.of_held hheld rfl, hheld⟩

/-- **A step off the limit** stays in bounds. -/
theorem Taker.step_off (hb : Taker b acc L ok atLimit) {s : Taking S D} {e : TakingEvent D} (h : Held acc L ok s)
    (hal : Taking.allowed b acc s e) (hoff : OffLimit atLimit s e) :
    ∃ s', Taking.step b e s = .ok s' ∧ InBounds acc L s' ∧ Held acc L ok s' := by
  obtain ⟨hok, a, ha, hle⟩ := id h
  cases e with
  | hear m behind =>
      obtain ⟨s', hr, hok', hacc⟩ := hb.hear m behind s.bot hok
      exact ⟨⟨s', []⟩, Taking.step_hear hr, h.quiet hok' hacc⟩
  | news m =>
      obtain ⟨s', hr, hok', hacc⟩ := hb.news m s.bot hok hal
      exact ⟨⟨s', []⟩, Taking.step_news hr, h.quiet hok' hacc⟩
  | tick ins exa =>
      cases hb.tick s.bot a hok ha hle with
      | rests hr hok' hacc _ => exact ⟨⟨_, []⟩, Taking.step_rests hr, h.quiet hok' hacc⟩
      | @trades s₁ cont sid q x ht hok' _ hq hx hmove hlim =>
          obtain ⟨s', hr, hok'', hexa⟩ := hb.told ins exa s₁ hok'
          have hbase : num exa.base = .fin (moved sid a x) := by
            unfold Taking.allowed at hal
            rw [ht] at hal
            rw [hal rfl, ha]
            exact fill_mkt cont sid hq a
          have hpos : 0 < x := lt_of_le_of_ne hx fun he => hoff (hlim.mpr he.symm)
          have hheld : Held acc L ok ⟨s', [mktOf cont sid q]⟩ := ⟨hok'', _, by rw [hexa, hbase], hmove⟩
          refine ⟨⟨s', [mktOf cont sid q]⟩, Taking.step_trades ht hr, ⟨fun m hm => ?_, hheld.2⟩, hheld⟩
          rw [List.mem_singleton.mp hm]
          exact ⟨_, x, rfl, (totals_mkt hq hx x).mpr rfl, hpos⟩

/-- **A step at the limit** sends an order for nothing. -/
theorem Taker.step_on (hb : Taker b acc L ok atLimit) {s s' : Taking S D} {e : TakingEvent D} (h : Held acc L ok s)
    (hon : ¬ OffLimit atLimit s e) (hs : Taking.step b e s = .ok s') : ¬ InBounds acc L s' := by
  obtain ⟨hok, a, ha, hle⟩ := h
  rintro ⟨hout, -⟩
  cases e with
  | hear m behind => exact hon trivial
  | news m => exact hon trivial
  | tick ins exa =>
      have hlim : atLimit s.bot := not_not.mp hon
      cases hb.tick s.bot a hok ha hle with
      | rests _ _ _ hno => exact hno hlim
      | @trades s₁ cont sid q x ht hok' _ hq hx _ hiff =>
          obtain ⟨s'', hr, -, -⟩ := hb.told ins exa s₁ hok'
          have hs' : s' = ⟨s'', [mktOf cont sid q]⟩ := Except.ok.inj (hs.symm.trans (Taking.step_trades ht hr))
          obtain ⟨o, t, ho, ht, hpos⟩ := hout (mktOf cont sid q) (by rw [hs']; exact List.mem_singleton_self _)
          obtain rfl := OBody.ord.inj ho
          rw [totals_mkt hq hx, hiff.mp hlim] at ht
          exact absurd hpos (not_lt.mpr ht.ge)

/-- **A taker stays in bounds** just in the runs in which it does not trade at the limit. -/
theorem Taker.always_iff (hb : Taker b acc L ok atLimit) {start : S → Prop}
    (h0 : ∀ s, start s → ok s ∧ num (acc s).base = .fin 0) (hL : 0 ≤ L) {es : List (TakingEvent D)} {s : Taking S D} :
    (taking b acc start).Always (fun _ _ s' => InBounds acc L s') es s ↔
      ((taking b acc start).restrict (OffLimit atLimit)).Runs es s := by
  refine Machine.always_iff_of_spec (I := Held acc L ok) ?_ (fun s e h hal hoff => hb.step_off h hal hoff)
    fun s e s' h _ hon hs => hb.step_on h hon hs
  rintro s ⟨hs, -⟩
  obtain ⟨hok, hbase⟩ := h0 _ hs
  exact ⟨hok, 0, hbase, by rw [abs_zero]; exact hL⟩

end Taking

/-! ## Room below the limit -/

/-- **An order is cut down to the room** below the limit: it is not negative, it stays within the limit, and it is for
nothing just at the limit. -/
theorem clamp {L : WithTop ℚ} {a β : ℚ} (ha : ((|a| : ℚ) : WithTop ℚ) ≤ L) (hβ : 0 < β) :
    ∃ x : ℚ, (L + (-a : ℚ)) ⊓ (β : WithTop ℚ) = x ∧ 0 ≤ x ∧ ((|a + x| : ℚ) : WithTop ℚ) ≤ L ∧
      ((a : WithTop ℚ) = L ↔ x = 0) := by
  cases L with
  | top =>
      refine ⟨β, inf_eq_right.mpr le_top, hβ.le, le_top, ?_⟩
      exact iff_of_false WithTop.coe_ne_top hβ.ne'
  | coe l =>
      rw [WithTop.coe_le_coe] at ha
      obtain ⟨hneg, hpos⟩ := abs_le.mp ha
      have h0 : 0 ≤ min (l + -a) β := le_min (by linarith) hβ.le
      have hle := min_le_left (l + -a) β
      refine ⟨min (l + -a) β, ?_, h0, ?_, ?_⟩
      · rw [← WithTop.coe_add, ← WithTop.coe_min]
      · rw [WithTop.coe_le_coe, abs_le]
        constructor <;> linarith
      · rw [WithTop.coe_inj]
        constructor
        · rintro rfl
          rw [add_neg_cancel]
          exact min_eq_left hβ.le
        · intro hz
          rcases min_choice (l + -a) β with h | h <;> linarith

theorem coe_abs_le {L : WithTop ℚ} {a : ℚ} (h : (a : WithTop ℚ) ≤ L) (h' : ((-a : ℚ) : WithTop ℚ) ≤ L) :
    ((|a| : ℚ) : WithTop ℚ) ≤ L := by
  rcases abs_choice a with he | he
  · rwa [he]
  · rwa [he]

/-- The position on a side. -/
def signed (sid : ClobSide) (a : ℚ) : ℚ := if sid = clobSideBid then a else -a

theorem abs_signed (sid : ClobSide) (a : ℚ) : |signed sid a| = |a| := by
  unfold signed
  split_ifs
  · rfl
  · exact abs_neg a

theorem abs_moved (sid : ClobSide) (a x : ℚ) : |moved sid a x| = |signed sid a + x| := by
  unfold signed moved
  split_ifs
  · rfl
  · rw [← abs_neg]
    congr 1
    ring

/-! ## `trendbot.c` -/

namespace Trendbot

section

variable {D : Type} [Dfp D] (o : Opts D)

/-- There is an uptrend to bet on. -/
def betsUp (t : Trendbot D) : Prop :=
  (Dfp.lt t.old (t.vpr / t.vol) && Dfp.le o.basq t.vol) = true ∧ t.nlong < 10

/-- There is none, but a downtrend. -/
def betsDown (t : Trendbot D) : Prop :=
  ¬ betsUp o t ∧ (Dfp.lt (t.vpr / t.vol) t.old && Dfp.le o.basq t.vol) = true ∧ t.nshort < 10

/-- The sides of an uptrend and of a downtrend. -/
def sides : ClobSide × ClobSide := if o.contrarian then (clobSideAsk, clobSideBid) else (clobSideBid, clobSideAsk)

variable [Exact D] (L : WithTop ℚ)

/-- The limit has been reached on a side. -/
def Full (sid : ClobSide) (t : Trendbot D) : Prop := ∃ a, num t.acc.base = .fin a ∧ ((signed sid a : ℚ) : WithTop ℚ) = L

/-- There is a bet on a side on which the limit has been reached. -/
def AtLimit (t : Trendbot D) : Prop :=
  (betsUp o t ∧ Full L (sides o).1 t) ∨ (betsDown o t ∧ Full L (sides o).2 t)

end

variable {D : Type} [Dfp D] [Exact D] {o : Opts D} {L : WithTop ℚ} {β : ℚ}

omit [Exact D] in
theorem timerCb_eq (o : Opts D) : (cbs o).timerCb = followCb o (sides o).1 (sides o).2 := by
  funext t
  unfold cbs sides
  cases o.contrarian <;> rfl

theorem bet_spec (hL : num o.maxq = ofTop L) (hb : num o.basq = .fin β) (hβ : 0 < β) {t : Trendbot D} {a : ℚ}
    (ha : num t.acc.base = .fin a) (hle : ((|a| : ℚ) : WithTop ℚ) ≤ L) (sid : ClobSide) :
    ∃ q x, bet o sid t = mktOf o.cont sid q ∧ num q = .fin x ∧ 0 ≤ x ∧ ((|moved sid a x| : ℚ) : WithTop ℚ) ≤ L ∧
      (Full L sid t ↔ x = 0) := by
  have hroom : num (if sid = clobSideBid then o.maxq - t.acc.base else o.maxq + t.acc.base) =
      ofTop (L + (-signed sid a : ℚ)) := by
    unfold signed
    split_ifs
    · exact Exact.sub hL ha
    · rw [neg_neg]
      exact Exact.add hL ha
  obtain ⟨x, hx, h0, hmove, hfull⟩ := clamp (L := L) (a := signed sid a) (by rw [abs_signed]; exact hle) hβ
  refine ⟨_, x, rfl, ?_, h0, by rw [abs_moved]; exact hmove, ?_⟩
  · rw [Exact.min hroom (show num o.basq = ofTop β from hb), hx]
    rfl
  · rw [← hfull]
    constructor
    · rintro ⟨a', ha', he⟩
      rw [ha] at ha'
      cases ha'
      exact he
    · exact fun he => ⟨a, ha, he⟩

omit [Exact D] in
/-- **A tick**: a bet on one of the sides, or none. -/
theorem followCb_cases (o : Opts D) (up down : ClobSide) (t : Trendbot D) :
    (betsUp o t ∧ ∃ t', followCb o up down t = .ok (t', [bet o up t]) ∧ t'.acc = t.acc) ∨
    (betsDown o t ∧ ∃ t', followCb o up down t = .ok (t', [bet o down t]) ∧ t'.acc = t.acc) ∨
    ¬ betsUp o t ∧ ¬ betsDown o t ∧ ∃ t', followCb o up down t = .ok (t', []) ∧ t'.acc = t.acc := by
  unfold followCb
  dsimp only
  by_cases hup : betsUp o t
  · have hif := hup
    unfold betsUp at hif
    rw [if_pos hif]
    exact .inl ⟨hup, _, rfl, by split_ifs <;> rfl⟩
  · have hif := hup
    unfold betsUp at hif
    rw [if_neg hif]
    have hshort : (if (Dfp.lt t.old (t.vpr / t.vol) && Dfp.le o.basq t.vol) = true then { t with nlong := t.nlong + 1 }
        else t).nshort = t.nshort := by split_ifs <;> rfl
    rw [hshort]
    by_cases hdown : betsDown o t
    · rw [if_pos hdown.2]
      exact .inr (.inl ⟨hdown, _, rfl, by split_ifs <;> rfl⟩)
    · rw [if_neg fun hd => hdown ⟨hup, hd⟩]
      exact .inr (.inr ⟨hup, hdown, _, rfl, by split_ifs <;> rfl⟩)

theorem taker (hL : num o.maxq = ofTop L) (hb : num o.basq = .fin β) (hβ : 0 < β) :
    Taker (cbs o) Trendbot.acc L (fun _ => True) (AtLimit o L) where
  hear m behind t _ := by
    change ∃ t', qchanCb o m t = .ok (t', []) ∧ _
    unfold qchanCb
    cases m.body with
    | tra quo =>
        split_ifs
        · exact ⟨_, rfl, trivial, rfl⟩
        · exact ⟨_, rfl, trivial, rfl⟩
    | _ => exact ⟨_, rfl, trivial, rfl⟩
  news m t _ hm := by
    change ∃ t', ochanCb m t = .ok (t', []) ∧ _
    unfold ochanCb
    cases hbody : m.body with
    | acc exa =>
        rw [hbody] at hm
        cases hm
    | _ => exact ⟨_, rfl, trivial, rfl⟩
  told ins exa t _ := ⟨{ t with acc := exa }, rfl, trivial, rfl⟩
  tick t a _ ha hle := by
    rcases followCb_cases o (sides o).1 (sides o).2 t with ⟨hup, t', h, he⟩ | ⟨hdown, t', h, he⟩ | ⟨hup, hdown, t', h, he⟩
    · obtain ⟨q, x, hq, hx, h0, hmove, hfull⟩ := bet_spec hL hb hβ ha hle (sides o).1
      refine .trades (by rw [timerCb_eq, h, hq]) trivial he hx h0 hmove ?_
      rw [← hfull, AtLimit, and_iff_right hup]
      exact or_iff_left fun hd => hd.1.1 hup
    · obtain ⟨q, x, hq, hx, h0, hmove, hfull⟩ := bet_spec hL hb hβ ha hle (sides o).2
      refine .trades (by rw [timerCb_eq, h, hq]) trivial he hx h0 hmove ?_
      rw [← hfull, AtLimit, and_iff_right hdown]
      exact or_iff_right fun hu => hdown.1 hu.1
    · refine .rests (by rw [timerCb_eq, h]) trivial he ?_
      rintro (hu | hd)
      · exact hup hu.1
      · exact hdown hd.1

end Trendbot

/-! ## `techbot.c` -/

namespace Techbot

section

variable {D : Type} [Dfp D]

/-- The averages are tables of sixteen and of sixty-four. -/
structure Ok (t : Techbot D) : Prop where
  p1 : t.p1.length = 16
  p2 : t.p2.length = 64
  k1 : t.k1 < 16
  k2 : t.k2 < 64

/-- The sign of the difference of the averages with the last price in them. -/
def signal (t : Techbot D) : BitVec 32 :=
  Dfp.signbit (((t.p1.set t.k1 t.last).foldl (· + ·) Dfp.nought * Dfp.dd 4 0 -
    (t.p2.set t.k2 t.last).foldl (· + ·) Dfp.nought) / Dfp.dd 64 0)

/-- The averages have crossed. -/
def crosses (t : Techbot D) : Prop := t.spos ^^^ signal t ≠ 0

instance : DecidablePred (crosses (D := D)) := fun _ => inferInstanceAs (Decidable (_ ≠ _))

theorem init_ok : Ok (init : Techbot D) := 
  ⟨List.length_replicate, List.length_replicate, Nat.succ_pos 15, Nat.succ_pos 63⟩

/-- **A heartbeat**: an order when the averages have crossed. -/
theorem hbeatCb_cases (o : Opts D) {t : Techbot D} (h : Ok t) :
    (crosses t ∧ ∃ t' sid, hbeatCb o t = .ok (t', [mktOf o.cont sid (Dfp.min (o.maxq - Dfp.abs t.acc.base)
      (Dfp.abs t.acc.base + o.basq))]) ∧ Ok t' ∧ t'.acc = t.acc) ∨
    ¬ crosses t ∧ ∃ t', hbeatCb o t = .ok (t', []) ∧ Ok t' ∧ t'.acc = t.acc := by
  have h1 := setAt_ok (h.p1.symm ▸ h.k1 : t.k1 < t.p1.length) t.last
  have h2 := setAt_ok (h.p2.symm ▸ h.k2 : t.k2 < t.p2.length) t.last
  have hok : ∀ s, Ok (Techbot.mk t.acc t.last ((t.k1 + 1) % 16) ((t.k2 + 1) % 64) (t.p1.set t.k1 t.last)
      (t.p2.set t.k2 t.last) s) := fun _ =>
    ⟨List.length_set.trans h.p1, List.length_set.trans h.p2, Nat.mod_lt _ (by decide), Nat.mod_lt _ (by decide)⟩
  by_cases hc : crosses t
  · refine .inl ⟨hc, _, if signal t ^^^ o.contrarianp ≠ 0 then clobSideAsk else clobSideBid, ?_, hok (signal t), rfl⟩
    rw [hbeatCb, h1, h2]
    exact if_pos hc
  · refine .inr ⟨hc, _, ?_, hok t.spos, rfl⟩
    rw [hbeatCb, h1, h2]
    exact if_neg hc

variable [Exact D] (L : WithTop ℚ)

/-- The averages have crossed at the limit. -/
def AtLimit (t : Techbot D) : Prop := crosses t ∧ ∃ a, num t.acc.base = .fin a ∧ ((|a| : ℚ) : WithTop ℚ) = L

end

variable {D : Type} [Dfp D] [Exact D] {o : Opts D} {L : WithTop ℚ} {β : ℚ}

theorem taker (hL : num o.maxq = ofTop L) (hb : num o.basq = .fin β) (hβ : 0 < β) :
    Taker (cbs o) Techbot.acc L Ok (AtLimit L) where
  hear m behind t hok := by
    change ∃ t', qchanCb o m t = .ok (t', []) ∧ _
    unfold qchanCb
    cases m.body with
    | tra quo =>
        split_ifs
        · exact ⟨_, rfl, ⟨hok.p1, hok.p2, hok.k1, hok.k2⟩, rfl⟩
        · exact ⟨_, rfl, hok, rfl⟩
    | _ => exact ⟨_, rfl, hok, rfl⟩
  news m t hok hm := by
    change ∃ t', ochanCb m t = .ok (t', []) ∧ _
    unfold ochanCb
    cases hbody : m.body with
    | acc exa =>
        rw [hbody] at hm
        cases hm
    | _ => exact ⟨_, rfl, hok, rfl⟩
  told ins exa t hok := ⟨{ t with acc := exa }, rfl, ⟨hok.p1, hok.p2, hok.k1, hok.k2⟩, rfl⟩
  tick t a hok ha hle := by
    have habs := Exact.abs ha
    obtain ⟨x, hx, h0, hmove, hfull⟩ := clamp (L := L) (a := |a|) (β := |a| + β) (by rw [abs_abs]; exact hle)
      (add_pos_of_nonneg_of_pos (abs_nonneg a) hβ)
    rcases hbeatCb_cases o hok with ⟨hc, t', sid, h, hok', he⟩ | ⟨hc, t', h, hok', he⟩
    · refine .trades h hok' he (x := x) ?_ h0 ?_ ?_
      · rw [Exact.min (Exact.sub hL habs) (M := ((|a| + β : ℚ) : WithTop ℚ)) (Exact.fin_add habs hb), hx]
        rfl
      · refine le_trans (WithTop.coe_le_coe.mpr ?_) hmove
        rw [abs_moved, abs_of_nonneg (add_nonneg (abs_nonneg a) h0)]
        refine (abs_add_le _ _).trans ?_
        rw [abs_signed, abs_of_nonneg h0]
      · rw [← hfull, AtLimit, and_iff_right hc]
        constructor
        · rintro ⟨a', ha', hl⟩
          rw [ha] at ha'
          cases ha'
          exact hl
        · exact fun hl => ⟨a, ha, hl⟩
    · exact .rests h hok' he fun hl => hc hl.1

end Techbot

/-! ## `monkey.c` -/

namespace Monkey

variable {D : Type} [Signed D] [ExactSigned D] {o : Opts D} {L : WithTop ℚ} {β : ℚ}

theorem toss_fin {basq : D} (hb : num basq = .fin β) : ∀ (n : ℕ) (x : BitVec 32) {q : D} {c : ℚ}, num q = .fin c →
    ∃ c', num (toss basq n x q) = .fin c' := by
  intro n
  induction n with
  | zero => exact fun x q c hq => ⟨c, hq⟩
  | succ n ih =>
      intro x q c hq
      rw [toss]
      split_ifs
      · exact ih _ (Exact.fin_add hq hb)
      · exact ih _ (Exact.fin_add hq (ExactSigned.neg hb))

theorem draw_fin (hb : num o.basq = .fin β) (rng : Pcg32) : ∃ c, num (draw o rng).1 = .fin c := by
  unfold draw
  have hall : ∀ (is : List ℕ) (a : D × Pcg32), (∃ c, num a.1 = .fin c) →
      ∃ c, num (is.foldl (fun a i => (toss o.basq (Nat.min 32 o.N - 32 * i) a.2.random.1 a.1, a.2.random.2)) a).1 =
        .fin c := by
    intro is
    induction is with
    | nil => exact fun a h => h
    | cons i is ih =>
        rintro a ⟨c, hc⟩
        exact ih _ (toss_fin hb _ _ hc)
  exact hall _ _ ⟨0, Exact.nought⟩

theorem taker (hL : num o.maxq = ofTop L) (hb : num o.basq = .fin β) :
    Taker (cbs o) Monkey.acc L (fun _ => True) (fun _ => False) where
  hear m behind k _ := ⟨k, rfl, trivial, rfl⟩
  news m k _ hm := by
    change ∃ k', ochanCb m k = .ok (k', []) ∧ _
    unfold ochanCb
    cases hbody : m.body with
    | acc exa =>
        rw [hbody] at hm
        cases hm
    | _ => exact ⟨_, rfl, trivial, rfl⟩
  told ins exa k _ := ⟨{ k with acc := exa }, rfl, trivial, rfl⟩
  tick k a _ ha hle := by
    obtain ⟨c, hc⟩ := draw_fin hb k.rng
    have hup : (Dfp.lt Dfp.nought (draw o k.rng).1 && Dfp.le (k.acc.base + (draw o k.rng).1) o.maxq) = true ↔
        0 < c ∧ ((a + c : ℚ) : WithTop ℚ) ≤ L := by
      rw [Bool.and_eq_true, Exact.fin_lt Exact.nought hc, Exact.le (L := ((a + c : ℚ) : WithTop ℚ)) (Exact.fin_add ha hc) hL]
    have hneg : num (-k.acc.base - (draw o k.rng).1) = .fin (-a - c) := Exact.fin_sub (ExactSigned.neg ha) hc
    have hdown : (Dfp.lt (draw o k.rng).1 Dfp.nought && Dfp.le (-k.acc.base - (draw o k.rng).1) o.maxq) = true ↔
        c < 0 ∧ ((-a - c : ℚ) : WithTop ℚ) ≤ L := by
      rw [Bool.and_eq_true, Exact.fin_lt hc Exact.nought, Exact.le (L := ((-a - c : ℚ) : WithTop ℚ)) hneg hL]
    by_cases h1 : 0 < c ∧ ((a + c : ℚ) : WithTop ℚ) ≤ L
    · refine .trades (if_pos (hup.mpr h1)) trivial rfl hc h1.1.le ?_ (iff_of_false id h1.1.ne')
      have hneg : -(a + c) ≤ |a| := by linarith [neg_le_abs a, h1.1]
      exact coe_abs_le h1.2 ((WithTop.coe_le_coe.mpr hneg).trans hle)
    · by_cases h2 : c < 0 ∧ ((-a - c : ℚ) : WithTop ℚ) ≤ L
      · refine .trades ((if_neg fun hc => h1 (hup.mp hc)).trans (if_pos (hdown.mpr h2))) trivial rfl (ExactSigned.neg hc)
          (by linarith [h2.1]) ?_ (iff_of_false id (by linarith [h2.1]))
        have hpos : a - -c ≤ |a| := by linarith [le_abs_self a, h2.1]
        have hmove : moved clobSideAsk a (-c) = a - -c := if_neg (by decide)
        rw [hmove]
        refine coe_abs_le ((WithTop.coe_le_coe.mpr hpos).trans hle) ?_
        rw [sub_neg_eq_add, neg_add, ← sub_eq_add_neg]
        exact h2.2
      · exact .rests ((if_neg fun hc => h1 (hup.mp hc)).trans (if_neg fun hc => h2 (hdown.mp hc))) trivial rfl id

end Monkey

/-! ## All of them -/

/-- **Takers stay in bounds.** `trendbot`, with the trend or against it, and `techbot` send orders for something and keep
within the limit just in the runs in which they do not trade at the limit; `monkey` does in every run. -/
theorem takers_in_bounds {D : Type} [Signed D] [ExactSigned D] {L : WithTop ℚ} {β : ℚ} (hL : 0 < L) (hβ : 0 < β) :
    (∀ o : Trendbot.Opts D, num o.maxq = ofTop L → num o.basq = .fin β → ∀ es s,
      ((taking (Trendbot.cbs o) Trendbot.acc (· = Trendbot.init)).Always
        (fun _ _ s' => InBounds Trendbot.acc L s') es s ↔
      ((taking (Trendbot.cbs o) Trendbot.acc (· = Trendbot.init)).restrict (OffLimit (Trendbot.AtLimit o L))).Runs es s)) ∧
    (∀ o : Techbot.Opts D, num o.maxq = ofTop L → num o.basq = .fin β → ∀ es s,
      ((taking (Techbot.cbs o) Techbot.acc (· = Techbot.init)).Always
        (fun _ _ s' => InBounds Techbot.acc L s') es s ↔
      ((taking (Techbot.cbs o) Techbot.acc (· = Techbot.init)).restrict (OffLimit (Techbot.AtLimit L))).Runs es s)) ∧
    ∀ o : Monkey.Opts D, num o.maxq = ofTop L → num o.basq = .fin β → ∀ es s,
      (taking (Monkey.cbs o) Monkey.acc fun k => ∃ rng, k = Monkey.init rng).Runs es s →
      (taking (Monkey.cbs o) Monkey.acc fun k => ∃ rng, k = Monkey.init rng).Always
        (fun _ _ s' => InBounds Monkey.acc L s') es s := by
  refine ⟨fun o hmax hbas es s => ?_, fun o hmax hbas es s => ?_, fun o hmax hbas es s h => ?_⟩
  · refine (Trendbot.taker hmax hbas hβ).always_iff ?_ hL.le
    rintro t rfl
    exact ⟨trivial, Exact.nought⟩
  · refine (Techbot.taker hmax hbas hβ).always_iff ?_ hL.le
    rintro t rfl
    exact ⟨Techbot.init_ok, Exact.nought⟩
  · refine ((Monkey.taker hmax hbas).always_iff ?_ hL.le).mpr ?_
    · rintro k ⟨rng, rfl⟩
      exact ⟨trivial, Exact.nought⟩
    · have hoff : ∀ (s : Taking (Monkey D) D) e, OffLimit (fun _ => False) s e := fun s e => by
        cases e with
        | tick ins exa => exact id
        | _ => exact trivial
      exact Machine.Runs.mono (M := taking (Monkey.cbs o) Monkey.acc _)
        (N := (taking (Monkey.cbs o) Monkey.acc _).restrict (OffLimit fun _ => False)) (fun _ h0 => h0) rfl
        (fun _ _ _ _ ha => ⟨ha, hoff _ _⟩) h

/-- A limit of one. -/
theorem takers_in_bounds_one :
    (∀ o : Trendbot.Opts Cents, num o.maxq = ofTop (1 : ℚ) → num o.basq = .fin 1 → ∀ es s,
      ((taking (Trendbot.cbs o) Trendbot.acc (· = Trendbot.init)).Always
        (fun _ _ s' => InBounds Trendbot.acc (1 : ℚ) s') es s ↔
      ((taking (Trendbot.cbs o) Trendbot.acc (· = Trendbot.init)).restrict (OffLimit (Trendbot.AtLimit o (1 : ℚ)))).Runs
        es s)) ∧
    (∀ o : Techbot.Opts Cents, num o.maxq = ofTop (1 : ℚ) → num o.basq = .fin 1 → ∀ es s,
      ((taking (Techbot.cbs o) Techbot.acc (· = Techbot.init)).Always
        (fun _ _ s' => InBounds Techbot.acc (1 : ℚ) s') es s ↔
      ((taking (Techbot.cbs o) Techbot.acc (· = Techbot.init)).restrict (OffLimit (Techbot.AtLimit (1 : ℚ)))).Runs
        es s)) ∧
    ∀ o : Monkey.Opts Cents, num o.maxq = ofTop (1 : ℚ) → num o.basq = .fin 1 → ∀ es s,
      (taking (Monkey.cbs o) Monkey.acc fun k => ∃ rng, k = Monkey.init rng).Runs es s →
      (taking (Monkey.cbs o) Monkey.acc fun k => ∃ rng, k = Monkey.init rng).Always
        (fun _ _ s' => InBounds Monkey.acc (1 : ℚ) s') es s :=
  takers_in_bounds (D := Cents) (L := (1 : ℚ)) (WithTop.coe_pos.mpr one_pos) one_pos

/-- A limit of one, and one at a time. -/
def cappedTrend : Trendbot.Opts Cents where
  cont := Ascii.bytes ['I']
  maxq := Cents.of 100
  basq := Cents.of 100

/-- One has been traded at a price. -/
def tradeAt (c : ℤ) : TakingEvent Cents :=
  .hear ⟨Ascii.bytes ['I'], .tra ⟨nclobSides, Cents.of c, Cents.of 100⟩⟩ []

/-- The price rises twice, and the first bet reaches the limit. -/
def twoRises : List (TakingEvent Cents) :=
  [tradeAt 100, .tick [] ⟨Cents.of 0, Cents.of 0⟩, tradeAt 200, .tick [] ⟨Cents.of 100, Cents.of 0⟩, tradeAt 300,
    .tick [] ⟨Cents.of 100, Cents.of 0⟩]

/-- **The second bet is for nothing.** -/
theorem trendbot_nothing : ¬ ∀ (o : Trendbot.Opts Cents) (L : WithTop ℚ) (β : ℚ), 0 < L → 0 < β → num o.maxq = ofTop L →
    num o.basq = .fin β → ∀ es s, (taking (Trendbot.cbs o) Trendbot.acc (· = Trendbot.init)).Runs es s →
    (taking (Trendbot.cbs o) Trendbot.acc (· = Trendbot.init)).Always (fun _ _ s' => InBounds Trendbot.acc L s') es s := by
  intro hall
  have hone : num (Cents.of 100) = .fin 1 := Cents.num_of (by norm_num)
  have hexec : ((taking (Trendbot.cbs cappedTrend) Trendbot.acc (· = Trendbot.init)).exec twoRises
      ⟨Trendbot.init, []⟩).any (fun s => s.out = [mktOf (Ascii.bytes ['I']) clobSideBid (Cents.of 0)]) = true := by
    decide +kernel
  have hi : (taking (Trendbot.cbs cappedTrend) Trendbot.acc (· = Trendbot.init)).init ⟨Trendbot.init, []⟩ := ⟨rfl, rfl⟩
  obtain ⟨s, hr, hsent⟩ := Machine.runs_of_any _ hi hexec
  have halways := hall cappedTrend ((1 : ℚ) : WithTop ℚ) 1 (WithTop.coe_pos.mpr one_pos) one_pos hone hone _ s hr
  have hsplit : twoRises = twoRises.dropLast ++ [.tick [] ⟨Cents.of 100, Cents.of 0⟩] := rfl
  rw [hsplit] at halways
  obtain ⟨-, -, hout, -⟩ := halways.last
  rw [of_decide_eq_true hsent] at hout
  obtain ⟨o, t, ho, ht, hpos⟩ := hout _ (List.mem_singleton_self _)
  obtain rfl := OBody.ord.inj ho
  have hzero : num (Cents.of 0) = .fin 0 := Cents.num_of (by norm_num)
  rw [totals_mkt hzero le_rfl] at ht
  exact absurd hpos (not_lt.mpr ht.ge)

end Unserlob
