import Unserlob.Bots.Callbacks
import Unserlob.Lib.Run

/-!
# A bot at an exchange

The messages of a bot and those of the exchange each travel in order. The exchange answers the orders
it gets, one after the other, and may send news of fills and accounts at any time.

* `Venue`, `venue`: both, what is under way between them and what has been said, in any order of events;
* `posted`, `acked`: orders and ids among messages; `Venue.Idle`: none is under way;
* `Quiet`: heartbeats when nothing is under way;
* **`quiet_bound`**: with these, the ids heard since the last heartbeat are those of one round of orders;
* `drain_up`, `drain_down`, **`drain`**: everything under way may arrive before the next heartbeat.
-/

namespace Unserlob

open Cursor Run

variable {S D : Type}

/-- A bot, the messages to the exchange and those from it. `sent` has all messages of the bot; `before`
and `since` those that were delivered before and after it last sent any. -/
structure Venue (S D : Type) where
  bot : S
  up : List (OBody D)
  down : List (OBody D)
  sent : List (OBody D)
  before : List (OBody D)
  since : List (OBody D)

/-- The timer, a quote, an answer to the first order in the queue, news, and the delivery of a message. -/
inductive VenueEvent (D : Type) where
  | timer
  | quote (m : Qmsg D) (behind : Ptr)
  | answer (r : Option (OBody D))
  | news (m : OBody D)
  | deliver

/-- An order that rests gets an id; a cancellation succeeds or it does not. -/
def Answers (m : OBody D) (r : Option (OBody D)) : Prop :=
  match m with
  | .ord o => match r with
    | none => True
    | some (.oid oid) => oid.sid = o.sid
    | _ => False
  | .can oid => r = some (.kil oid) ∨ r = some (.nok oid)
  | _ => r = none

/-- Fills of one of the two sides, and accounts. -/
def IsNews : OBody D → Prop
  | .fil fid _ _ => fid.sid.toNat < 2
  | .acc _ => True
  | _ => False

namespace Venue

/-- The bot has been called and sends `out`. -/
def send (v : Venue S D) (s : S) (out : List (Omsg D)) : Venue S D :=
  if out = [] then { v with bot := s }
  else
    { v with
      bot := s
      up := v.up ++ out.map Omsg.body
      sent := v.sent ++ out.map Omsg.body
      before := v.before ++ v.since
      since := [] }

def allowed (v : Venue S D) : VenueEvent D → Prop
  | .timer => True
  | .quote _ _ => True
  | .answer r => ∃ m ∈ v.up.head?, Answers m r
  | .news m => IsNews m
  | .deliver => v.down ≠ []

def step (b : BotCbs S D) (cont : List UInt8) : VenueEvent D → Venue S D → Res (Venue S D)
  | .timer, v => do
    let r ← b.timerCb v.bot
    pure (v.send r.1 r.2)
  | .quote m behind, v => do
    let r ← b.qchanCb m behind v.bot
    pure (v.send r.1 r.2)
  | .answer r, v => .ok { v with up := v.up.tail, down := v.down ++ r.toList }
  | .news m, v => .ok { v with down := v.down ++ [m] }
  | .deliver, v =>
    match v.down with
    | [] => .ok v
    | m :: down => do
      let r ← b.ochanCb ⟨cont, m⟩ v.bot
      pure (Venue.send { v with down, since := v.since ++ [m] } r.1 r.2)

end Venue

/-- The runs of a bot with the exchange. -/
def venue (b : BotCbs S D) (s₀ : S) (cont : List UInt8) : Machine (Venue S D) (VenueEvent D) where
  init v := v = ⟨s₀, [], [], [], [], []⟩
  allowed v e := v.allowed e
  step e v := v.step b cont e

section Decide

variable [DecidableEq D]

instance (m : OBody D) (r : Option (OBody D)) : Decidable (Answers m r) :=
  match m with
  | .ord o => match r with
    | none => isTrue trivial
    | some (.oid oid) => inferInstanceAs (Decidable (oid.sid = o.sid))
    | some .unk | some (.acc _) | some (.fil _ _ _) | some (.kil _) | some (.nok _) | some (.can _)
    | some (.ord _) => isFalse id
  | .can oid => inferInstanceAs (Decidable (r = some (.kil oid) ∨ r = some (.nok oid)))
  | .unk | .acc _ | .fil _ _ _ | .kil _ | .nok _ | .oid _ => inferInstanceAs (Decidable (r = none))

instance (m : OBody D) : Decidable (IsNews m) :=
  match m with
  | .fil fid _ _ => inferInstanceAs (Decidable (fid.sid.toNat < 2))
  | .acc _ => isTrue trivial
  | .unk | .kil _ | .nok _ | .oid _ | .can _ | .ord _ => isFalse id

instance (b : BotCbs S D) (s₀ : S) (cont : List UInt8) (v : Venue S D) (e : VenueEvent D) :
    Decidable ((venue b s₀ cont).allowed v e) :=
  match e with
  | .timer => isTrue trivial
  | .quote _ _ => isTrue trivial
  | .answer r => inferInstanceAs (Decidable (∃ m ∈ v.up.head?, Answers m r))
  | .news m => inferInstanceAs (Decidable (IsNews m))
  | .deliver => inferInstanceAs (Decidable (v.down ≠ []))

end Decide

/-- The bot's own event in one of the system. -/
def VenueEvent.toBot : VenueEvent D → Option (BotEvent D)
  | .timer => some .timer
  | .quote m behind => some (.qchan m behind)
  | _ => none

/-! ## Orders and ids under way -/

/-- The orders on a side in `p`. -/
def isOrd (p : ClobSide → Bool) : OBody D → Bool
  | .ord o => p o.sid
  | _ => false

/-- The ids of orders on a side in `p`. -/
def isAck (p : ClobSide → Bool) : OBody D → Bool
  | .oid o => p o.sid
  | _ => false

def posted (p : ClobSide → Bool) (l : List (OBody D)) : ℕ := l.countP (isOrd p)

def acked (p : ClobSide → Bool) (l : List (OBody D)) : ℕ := l.countP (isAck p)

/-- No order waits for an answer and no id for its delivery. -/
def Venue.Idle (v : Venue S D) : Prop := posted (fun _ => true) v.up = 0 ∧ acked (fun _ => true) v.down = 0

/-- Heartbeats when nothing is under way. -/
def Quiet (beats : BotEvent D → S → Bool) (v : Venue S D) (e : VenueEvent D) : Prop :=
  ∀ be ∈ e.toBot, beats be v.bot = true → v.Idle

section Counts

variable {p : ClobSide → Bool} {l l' : List (OBody D)}

@[simp] theorem posted_append : posted p (l ++ l') = posted p l + posted p l' := List.countP_append

@[simp] theorem acked_append : acked p (l ++ l') = acked p l + acked p l' := List.countP_append

@[simp] theorem acked_nil : acked p ([] : List (OBody D)) = 0 := rfl

theorem posted_le_all (p : ClobSide → Bool) (l : List (OBody D)) : posted p l ≤ posted (fun _ => true) l :=
  List.countP_mono_left fun m _ h => by
    cases m with
    | ord o => rfl
    | _ => cases h

theorem acked_le_all (p : ClobSide → Bool) (l : List (OBody D)) : acked p l ≤ acked (fun _ => true) l :=
  List.countP_mono_left fun m _ h => by
    cases m with
    | oid o => rfl
    | _ => cases h

theorem Answers.acked_le {m : OBody D} {r : Option (OBody D)} (h : Answers m r) :
    acked p r.toList ≤ posted p [m] := by
  cases m with
  | ord o =>
      match r, h with
      | none, _ => exact Nat.zero_le _
      | some (.oid oid), h =>
          have hs : oid.sid = o.sid := h
          show List.countP _ [_] ≤ List.countP _ [_]
          rw [List.countP_singleton, List.countP_singleton, isAck, isOrd, hs]
  | can oid =>
      rcases h with rfl | rfl <;> exact Nat.zero_le _
  | _ =>
      cases h
      exact Nat.zero_le _

theorem IsNews.acked_eq {m : OBody D} (h : IsNews m) : acked p [m] = 0 := by
  cases m with
  | oid o => exact absurd h id
  | _ => rfl

end Counts

/-! ## Rounds -/

/-- The bot sends at heartbeats only, and at most `N` orders on the sides in `p` each time. -/
structure Rounds (b : BotCbs S D) (beats : BotEvent D → S → Bool) (p : ClobSide → Bool) (N : ℕ) : Prop where
  beat : ∀ be s r, b.step be s = .ok r → posted p (r.2.map Omsg.body) ≤ N
  rest : ∀ be s r, beats be s = false → b.step be s = .ok r → r.2 = []
  heard : ∀ m s r, b.ochanCb m s = .ok r → r.2 = []

variable {b : BotCbs S D} {beats : BotEvent D → S → Bool} {p : ClobSide → Bool} {N : ℕ} {s₀ : S}
  {cont : List UInt8} {v v' : Venue S D}

theorem Venue.send_nil (s : S) : v.send s [] = { v with bot := s } := if_pos rfl

theorem Venue.step_toBot {e : VenueEvent D} {be : BotEvent D} (he : e.toBot = some be)
    (h : v.step b cont e = .ok v') : ∃ r, b.step be v.bot = .ok r ∧ v' = v.send r.1 r.2 := by
  cases e with
  | timer =>
      cases he
      obtain ⟨r, hr, hv⟩ := bind_ok.mp h
      exact ⟨r, hr, (Except.ok.inj hv).symm⟩
  | quote m behind =>
      cases he
      obtain ⟨r, hr, hv⟩ := bind_ok.mp h
      exact ⟨r, hr, (Except.ok.inj hv).symm⟩
  | _ => cases he

theorem Venue.step_of_toBot {e : VenueEvent D} {be : BotEvent D} (he : e.toBot = some be)
    {r : S × List (Omsg D)} (h : b.step be v.bot = .ok r) : v.step b cont e = .ok (v.send r.1 r.2) := by
  cases e with
  | timer =>
      cases he
      exact bind_ok.mpr ⟨r, h, rfl⟩
  | quote m behind =>
      cases he
      exact bind_ok.mpr ⟨r, h, rfl⟩
  | _ => cases he

theorem Venue.allowed_of_toBot {e : VenueEvent D} {be : BotEvent D} (he : e.toBot = some be) : v.allowed e := by
  cases e with
  | timer => trivial
  | quote m behind => trivial
  | _ => cases he

@[simp] theorem Venue.send_bot (v : Venue S D) (s : S) (out : List (Omsg D)) : (v.send s out).bot = s := by
  unfold Venue.send
  split_ifs <;> rfl

@[simp] theorem Venue.send_down (v : Venue S D) (s : S) (out : List (Omsg D)) : (v.send s out).down = v.down := by
  unfold Venue.send
  split_ifs <;> rfl

@[simp] theorem Venue.send_up (v : Venue S D) (s : S) (out : List (Omsg D)) :
    (v.send s out).up = v.up ++ out.map Omsg.body := by
  unfold Venue.send
  split_ifs with h
  · subst h
    exact (List.append_nil _).symm
  · rfl

theorem Venue.step_deliver {m : OBody D} {down : List (OBody D)} (hd : v.down = m :: down)
    (h : v.step b cont .deliver = .ok v') : ∃ r, b.ochanCb ⟨cont, m⟩ v.bot = .ok r ∧
      v' = Venue.send { v with down, since := v.since ++ [m] } r.1 r.2 := by
  simp only [Venue.step, hd] at h
  obtain ⟨r, hr, hv⟩ := bind_ok.mp h
  exact ⟨r, hr, (Except.ok.inj hv).symm⟩

/-- **Heartbeats when nothing is under way** keep the ids of one round from those of the next. -/
theorem quiet_bound (h : Rounds b beats p N) {es : List (VenueEvent D)}
    (hr : ((venue b s₀ cont).restrict (Quiet beats)).Runs es v) :
    acked p v.since + acked p v.down + posted p v.up ≤ N := by
  refine hr.inv (P := fun v => acked p v.since + acked p v.down + posted p v.up ≤ N) ?_ ?_
  · rintro v rfl
    exact Nat.zero_le N
  · intro v e v' hi ⟨ha, hq⟩ hs
    have hown : ∀ be, e.toBot = some be → acked p v'.since + acked p v'.down + posted p v'.up ≤ N := by
      intro be hbe
      obtain ⟨r, hr, rfl⟩ := Venue.step_toBot hbe hs
      by_cases hout : r.2 = []
      · rw [hout, Venue.send_nil]
        exact hi
      · have hb : beats be v.bot = true := by
          by_contra hb
          exact hout (h.rest be v.bot r (Bool.eq_false_iff.mpr hb) hr)
        obtain ⟨hup, hdown⟩ := hq be hbe hb
        have hup := Nat.le_zero.mp (hup ▸ posted_le_all p v.up)
        have hdown := Nat.le_zero.mp (hdown ▸ acked_le_all p v.down)
        rw [Venue.send, if_neg hout]
        simp only [acked_nil, posted_append, hup, hdown, Nat.zero_add]
        exact h.beat be v.bot r hr
    cases e with
    | timer => exact hown .timer rfl
    | quote m behind => exact hown (.qchan m behind) rfl
    | answer r =>
        cases hs
        obtain ⟨m, hm, hans⟩ := ha
        obtain ⟨ups, hup⟩ := List.head?_eq_some_iff.mp hm
        have hle := hans.acked_le (p := p)
        have hsplit : posted p v.up = posted p [m] + posted p ups := by
          rw [hup, ← posted_append]
          rfl
        simp only [hup, List.tail_cons, acked_append] at hsplit hi ⊢
        omega
    | news m =>
        cases hs
        simp only [acked_append, (show IsNews m from ha).acked_eq, Nat.add_zero]
        exact hi
    | deliver =>
        cases hd : v.down with
        | nil => exact absurd hd ha
        | cons m down =>
            obtain ⟨r, hr, rfl⟩ := Venue.step_deliver hd hs
            rw [h.heard _ _ r hr, Venue.send_nil]
            have hsplit : acked p v.down = acked p [m] + acked p down := by
              rw [hd, ← acked_append]
              rfl
            simp only [acked_append]
            omega

/-! ## Everything may arrive -/

/-- A message the bots take. -/
def Deliverable : OBody D → Prop
  | .fil fid _ _ => fid.sid.toNat < 2
  | _ => True

theorem Answers.deliverable {m r : OBody D} {a : Option (OBody D)} (h : Answers m a) (hr : r ∈ a) :
    Deliverable r := by
  cases hr
  cases r with
  | fil fid exe con =>
      cases m with
      | ord o => exact absurd h id
      | can o => rcases h with h | h <;> cases h
      | _ => cases h
  | _ => trivial

theorem IsNews.deliverable {m : OBody D} (h : IsNews m) : Deliverable m := by
  cases m with
  | fil fid exe con => exact h
  | _ => trivial

/-- The answer that brings an id, if there can be one. -/
def fullAnswer : OBody D → Option (OBody D)
  | .ord o => some (.oid ⟨o.typ, o.sid, o.lmt, 0, 0⟩)
  | .can oid => some (.kil oid)
  | _ => none

theorem answers_full (m : OBody D) : Answers m (fullAnswer m) := by
  cases m with
  | ord o => exact rfl
  | can o => exact .inl rfl
  | _ => exact rfl

theorem acked_full (m : OBody D) : acked p (fullAnswer m).toList = posted p [m] := by
  cases m <;> rfl

theorem drain_up {es : List (VenueEvent D)} (hr : (venue b s₀ cont).Runs es v)
    (hd : ∀ m ∈ v.down, Deliverable m) : ∃ es' v', (venue b s₀ cont).Runs (es ++ es') v' ∧ v'.bot = v.bot ∧
      acked p v'.down = acked p v.down + posted p v.up ∧ ∀ m ∈ v'.down, Deliverable m := by
  obtain ⟨bot, up, down, sent, before, since⟩ := v
  induction up generalizing es down with
  | nil => exact ⟨[], _, by rwa [List.append_nil], rfl, rfl, hd⟩
  | cons m ups ih =>
      have ha : (venue b s₀ cont).allowed ⟨bot, m :: ups, down, sent, before, since⟩ (.answer (fullAnswer m)) :=
        ⟨m, rfl, answers_full m⟩
      have hr' := hr.next ha rfl
      obtain ⟨es', v', hv', hbot, hacked, hdown⟩ := ih _ hr' fun m' hm' => by
        rcases List.mem_append.mp hm' with h | h
        · exact hd m' h
        · cases m <;> simp only [fullAnswer, Option.toList, List.mem_singleton, List.not_mem_nil] at h <;>
            exact h ▸ trivial
      refine ⟨_, v', List.append_assoc .. ▸ hv', hbot, ?_, hdown⟩
      have hsplit : posted p (m :: ups) = posted p [m] + posted p ups := by
        rw [← posted_append]
        rfl
      simp only [acked_append, acked_full] at hacked
      show acked p v'.down = acked p down + posted p (m :: ups)
      omega

section Counting

variable {P : S → Prop} {f : S → ℕ} (hb : ∀ m s, P s → Deliverable m →
  ∃ s', b.ochanCb ⟨cont, m⟩ s = .ok (s', []) ∧ P s' ∧ f s' = f s + acked p [m])

include hb

theorem drain_down {es : List (VenueEvent D)} (hr : (venue b s₀ cont).Runs es v) (hP : P v.bot)
    (hd : ∀ m ∈ v.down, Deliverable m) : ∃ es' v', (venue b s₀ cont).Runs (es ++ es') v' ∧
      f v'.bot = f v.bot + acked p v.down := by
  generalize hl : v.down = down at hd
  induction down generalizing es v with
  | nil => exact ⟨[], v, by rwa [List.append_nil], rfl⟩
  | cons m down ih =>
      obtain ⟨s', hs', hP', hf'⟩ := hb m v.bot hP (hd m List.mem_cons_self)
      have ha : (venue b s₀ cont).allowed v .deliver := by
        show v.down ≠ []
        rw [hl]
        exact List.cons_ne_nil m down
      have hstep : Venue.step b cont .deliver v = .ok { v with bot := s', down, since := v.since ++ [m] } := by
        simp only [Venue.step, hl, hs', bind, Except.bind, Venue.send_nil]
        rfl
      obtain ⟨es', v', hv', hf⟩ := ih (hr.next ha hstep) hP' rfl fun m' hm' =>
        hd m' (List.mem_cons_of_mem m hm')
      refine ⟨_, v', List.append_assoc .. ▸ hv', ?_⟩
      have hsplit : acked p (m :: down) = acked p [m] + acked p down := by
        rw [← acked_append]
        rfl
      rw [hf, hf', hsplit]
      omega

/-- **Everything under way may arrive**, and a bot that counts ids then has counted them all. -/
theorem drain {es : List (VenueEvent D)} (hr : (venue b s₀ cont).Runs es v) (hP : P v.bot)
    (hd : ∀ m ∈ v.down, Deliverable m) : ∃ es' v', (venue b s₀ cont).Runs (es ++ es') v' ∧
      f v'.bot = f v.bot + acked p v.down + posted p v.up := by
  obtain ⟨es₁, v₁, hr₁, hbot, hacked, hd₁⟩ := drain_up (p := p) hr hd
  obtain ⟨es₂, v₂, hr₂, hf⟩ := drain_down hb hr₁ (hbot ▸ hP) hd₁
  refine ⟨es₁ ++ es₂, v₂, List.append_assoc .. ▸ hr₂, ?_⟩
  rw [hf, hbot, hacked]
  omega

end Counting

end Unserlob
