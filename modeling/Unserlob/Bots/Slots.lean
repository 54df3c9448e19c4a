import Unserlob.Bots.Makers
import Unserlob.Bots.Venue

/-!
# One slot a side (`dasbot.c`, `egobot.c`)

An id that arrives takes the place of the one before it on its side, and a heartbeat cancels what is in
the two slots.

* `SlotBot`: what the two have in common; `Dasbot.slotBot`, `Egobot.slotBot`: they have it;
* `InReach`: an order that is known and has not been cancelled is in its slot;
* `FreshIds`: ids are those of one order; `OneEach`: one id a side arrives between heartbeats;
* `Slots`: the invariant; **`inReach_iff`**: orders stay in reach just in these runs;
* **`orders_in_reach`**: both bots, and heartbeats when nothing is under way; `order_lost`: a run of others.
-/

namespace Unserlob

open Cursor Table Run

variable {S D R G : Type}

/-- The id in an empty slot. -/
def noOid [Dfp D] : ClobOid D := ⟨0, 0, Dfp.zero, 0, 0⟩

/-- The slots after a message. -/
def storeOid (m : OBody D) (coid : List (ClobOid D)) : List (ClobOid D) :=
  match m with
  | .oid o => coid.set o.sid.toNat o
  | _ => coid

/-- **A bot with a slot for each side.** -/
structure SlotBot (b : BotCbs S D) (coid : S → List (ClobOid D)) : Prop where
  timer : ∀ s r, b.timerCb s = .ok r → coid r.1 = coid s ∧ ∃ cb ca orders,
    (coid s)[1]? = some cb ∧ (coid s)[0]? = some ca ∧ r.2.map Omsg.body = [.can cb, .can ca] ++ orders ∧
      (∀ x, OBody.can x ∉ orders) ∧ ∀ sid : ClobSide, posted (fun t => decide (t = sid)) orders ≤ 1
  quote : ∀ m behind s r, b.qchanCb m behind s = .ok r → coid r.1 = coid s ∧ r.2 = []
  ochan : ∀ m s r, b.ochanCb m s = .ok r → coid r.1 = storeOid m.body (coid s) ∧ r.2 = []
  bound : ∀ ins o s r, b.ochanCb ⟨ins, .oid o⟩ s = .ok r → o.sid.toNat < (coid s).length

/-! ## The two bots -/

section Bots

variable [Dfp D] [Dbl R] [Cvt R D]

omit [Dfp D] [Dbl R] [Cvt R D] in
theorem posted_pair_le (sid : ClobSide) {x y : ClobOrd D} (hx : x.sid = clobSideBid) (hy : y.sid = clobSideAsk) :
    posted (fun t => decide (t = sid)) [.ord x, .ord y] ≤ 1 := by
  rw [posted, List.countP_cons, List.countP_singleton]
  by_cases hs : clobSideBid = sid
  · subst hs
    simp [isOrd, hx, hy, clobSideAsk, clobSideBid]
  · simp [isOrd, hx, hs]
    split_ifs <;> omega

theorem Dasbot.mm_coid (o : Opts D R) (s : ℤ) (d : Dasbot D R) : (mm o s d).2.coid = d.coid := by
  unfold mm
  dsimp only
  split_ifs <;> rfl

theorem Dasbot.slotBot (o : Opts D R) : SlotBot (cbs o) Dasbot.coid where
  timer d r h := by
    obtain ⟨cb, hb, h⟩ := bind_ok.mp h
    obtain ⟨ca, ha, h⟩ := bind_ok.mp h
    cases h
    refine ⟨?_, cb, ca, [.ord _, .ord _], getAt_eq hb, getAt_eq ha, rfl, ?_, fun sid => ?_⟩
    · dsimp only
      split_ifs
      · exact mm_coid o 0 d
      · rfl
    · simp
    · exact posted_pair_le sid rfl rfl
  quote m behind d r h := by
    cases h
    exact ⟨rfl, rfl⟩
  ochan m d r h := by
    obtain ⟨ins, body⟩ := m
    cases body with
    | oid oid =>
        obtain ⟨l, hl, h⟩ := bind_ok.mp h
        cases h
        exact ⟨setAt_eq hl, rfl⟩
    | acc exa =>
        have h : ochanCb o ⟨ins, .acc exa⟩ d = .ok r := h
        simp only [ochanCb] at h
        split_ifs at h <;> cases h <;> simp [storeOid, mm_coid]
    | _ =>
        cases h
        exact ⟨rfl, rfl⟩
  bound ins oid d r h := by
    obtain ⟨l, hl, -⟩ := bind_ok.mp h
    exact setAt_lt hl

omit [Cvt R D] in
theorem Egobot.rnorm_coid (o : Opts D R G) (x : R) (e : Egobot D R G) : (rnorm o x e).2.coid = e.coid := by
  unfold rnorm
  dsimp only
  split_ifs <;> rfl

omit [Cvt R D] in
theorem Egobot.truvOf_coid (o : Opts D R G) (e : Egobot D R G) : (truvOf o e).2.coid = e.coid := by
  unfold truvOf
  split_ifs
  · rfl
  · exact rnorm_coid o (o.alpha * (e.mktv - e.truv)) e

theorem Egobot.slotBot (o : Opts D R G) : SlotBot (cbs o) Egobot.coid where
  timer e r h := by
    obtain ⟨cb, hb, h⟩ := bind_ok.mp h
    obtain ⟨ca, ha, h⟩ := bind_ok.mp h
    cases h
    refine ⟨truvOf_coid o e, cb, ca, _, getAt_eq hb, getAt_eq ha, by rw [List.append_assoc, List.map_append]; rfl,
      ?_, fun sid => ?_⟩
    · split_ifs <;> simp [lmtOf]
    · split_ifs
      · exact posted_pair_le sid rfl rfl
      · exact List.countP_le_length
      · exact List.countP_le_length
      · exact Nat.zero_le 1
  quote m behind e r h := by
    obtain ⟨ins, body⟩ := m
    cases body with
    | top q =>
        have h : qchanCb o ⟨ins, .top q⟩ e = .ok r := h
        simp only [qchanCb] at h
        split_ifs at h
        rotate_left
        · cases h
          exact ⟨rfl, rfl⟩
        · obtain ⟨l, -, h⟩ := bind_ok.mp h
          obtain ⟨qa, -, h⟩ := bind_ok.mp h
          obtain ⟨qb, -, h⟩ := bind_ok.mp h
          cases h
          exact ⟨rfl, rfl⟩
    | auc a =>
        cases h
        dsimp only
        split_ifs <;> exact ⟨rfl, rfl⟩
    | _ =>
        cases h
        exact ⟨rfl, rfl⟩
  ochan m e r h := by
    obtain ⟨ins, body⟩ := m
    cases body with
    | oid oid =>
        obtain ⟨l, hl, h⟩ := bind_ok.mp h
        cases h
        exact ⟨setAt_eq hl, rfl⟩
    | _ =>
        cases h
        exact ⟨rfl, rfl⟩
  bound ins oid e r h := by
    obtain ⟨l, hl, -⟩ := bind_ok.mp h
    exact setAt_lt hl

end Bots

/-! ## In the system -/

/-- The ids among messages. -/
def ids (l : List (OBody D)) : List (ClobOid D) :=
  l.filterMap fun m => match m with
    | .oid o => some o
    | _ => none

@[simp] theorem ids_append (l l' : List (OBody D)) : ids (l ++ l') = ids l ++ ids l' := List.filterMap_append

@[simp] theorem ids_oid (o : ClobOid D) (l : List (OBody D)) : ids (.oid o :: l) = o :: ids l := rfl

theorem mem_ids {l : List (OBody D)} {o : ClobOid D} : o ∈ ids l ↔ .oid o ∈ l := by
  rw [ids, List.mem_filterMap]
  constructor
  · rintro ⟨m, hm, he⟩
    cases m <;> cases he
    exact hm
  · exact fun h => ⟨_, h, rfl⟩

variable (coid : S → List (ClobOid D))

/-- **Every order that is known and has not been cancelled** is the one in its slot. -/
def InReach (v : Venue S D) : Prop :=
  ∀ o, .oid o ∈ v.before ++ v.since → .can o ∉ v.sent → (coid v.bot)[o.sid.toNat]? = some o

/-- Ids are handed out once, and not that of an empty slot. -/
def FreshIds [Dfp D] (v : Venue S D) (e : VenueEvent D) : Prop :=
  ∀ o, e = .answer (some (.oid o)) → o ≠ noOid ∧ .oid o ∉ v.before ++ v.since ++ v.down

/-- **At most one id a side** is delivered between two heartbeats. -/
def OneEach (v : Venue S D) (e : VenueEvent D) : Prop :=
  e = .deliver → ∀ o o', v.down.head? = some (.oid o) → .oid o' ∈ v.since → o'.sid ≠ o.sid

/-- The invariant. -/
structure Slots [Dfp D] (v : Venue S D) : Prop where
  len : (coid v.bot).length = 2
  reach : InReach coid v
  slots : ∀ o ∈ coid v.bot, o = noOid ∨ .oid o ∈ v.before ++ v.since
  cans : ∀ x, .can x ∈ v.sent → x = noOid ∨ .oid x ∈ v.before
  taken : ∀ o, .oid o ∈ v.before → .can o ∈ v.sent
  nodup : (ids (v.before ++ v.since ++ v.down)).Nodup
  real : noOid ∉ ids (v.before ++ v.since ++ v.down)

variable {coid} [Dfp D] {b : BotCbs S D} {v v' : Venue S D} {cont : List UInt8} {s₀ : S}

/-- **A heartbeat** takes back all that is known. -/
theorem Slots.timer (h : Slots coid v) (hb : SlotBot b coid) {r : S × List (Omsg D)}
    (hr : b.timerCb v.bot = .ok r) : Slots coid (v.send r.1 r.2) := by
  obtain ⟨hc, cb, ca, orders, hcb, hca, hout, hno, -⟩ := hb.timer _ _ hr
  have hne : r.2 ≠ [] := by
    intro h0
    rw [h0] at hout
    cases hout
  have hcan : ∀ x, OBody.can x ∈ v.sent ++ r.2.map Omsg.body ↔ .can x ∈ v.sent ∨ x = cb ∨ x = ca := by
    intro x
    simp [hout, hno]
  have htaken : ∀ o, .oid o ∈ v.before ++ v.since → OBody.can o ∈ v.sent ++ r.2.map Omsg.body := by
    intro o ho
    rw [hcan]
    by_cases hs : .can o ∈ v.sent
    · exact .inl hs
    · have hslot := h.reach o ho hs
      have hlt := (List.getElem?_eq_some_iff.mp hslot).1
      rw [h.len] at hlt
      obtain hz | hz : o.sid.toNat = 0 ∨ o.sid.toNat = 1 := by omega
      · rw [hz, hca] at hslot
        exact .inr (.inr (Option.some.inj hslot).symm)
      · rw [hz, hcb] at hslot
        exact .inr (.inl (Option.some.inj hslot).symm)
  rw [Venue.send, if_neg hne]
  refine ⟨hc ▸ h.len, ?_, ?_, ?_, htaken, ?_, ?_⟩
  · intro o ho hno'
    exact absurd (htaken o (by simpa using ho)) hno'
  · simpa [hc] using h.slots
  · intro x hx
    rcases (hcan x).mp hx with hx | rfl | rfl
    · exact (h.cans x hx).imp id fun hx => List.mem_append_left _ hx
    · exact h.slots x (List.mem_of_getElem? hcb)
    · exact h.slots x (List.mem_of_getElem? hca)
  · simpa using h.nodup
  · simpa using h.real

omit [Dfp D] in
theorem Slots.mem_deliver {m : OBody D} {down : List (OBody D)} (hd : v.down = m :: down) :
    v.before ++ (v.since ++ [m]) ++ down = v.before ++ v.since ++ v.down := by
  rw [hd]
  simp

theorem Slots.deliver (h : Slots coid v) (hb : SlotBot b coid) {m : OBody D} {down : List (OBody D)}
    (hd : v.down = m :: down) (h1 : ∀ o, m = .oid o → ∀ o', .oid o' ∈ v.since → o'.sid ≠ o.sid)
    {r : S × List (Omsg D)} (hr : b.ochanCb ⟨cont, m⟩ v.bot = .ok r) :
    Slots coid { v with bot := r.1, down, since := v.since ++ [m] } := by
  obtain ⟨hc, -⟩ := hb.ochan _ _ _ hr
  have hsplit := Slots.mem_deliver hd
  by_cases hm : ∃ o, m = .oid o
  · obtain ⟨o, rfl⟩ := hm
    have hlt := hb.bound _ _ _ _ hr
    have hc : coid r.1 = (coid v.bot).set o.sid.toNat o := hc
    refine ⟨?_, ?_, ?_, h.cans, h.taken, hsplit ▸ h.nodup, hsplit ▸ h.real⟩
    · rw [hc, List.length_set, h.len]
    · intro o' ho' hno
      show (coid r.1)[o'.sid.toNat]? = _
      rw [hc]
      simp only [← List.append_assoc, List.mem_append, List.mem_singleton, OBody.oid.injEq] at ho'
      rcases ho' with (hb' | hs') | rfl
      · exact absurd (h.taken o' hb') hno
      · rw [List.getElem?_set_ne fun he => h1 o rfl o' hs' (BitVec.eq_of_toNat_eq he.symm)]
        exact h.reach o' (List.mem_append_right _ hs') hno
      · exact List.getElem?_set_self hlt
    · intro x hx
      rw [hc] at hx
      simp only [← List.append_assoc, List.mem_append, List.mem_singleton, OBody.oid.injEq]
      rcases List.mem_or_eq_of_mem_set hx with hx | rfl
      · exact (h.slots x hx).imp id fun hx => .inl (List.mem_append.mp hx)
      · exact .inr (.inr rfl)
  · have hne : ∀ o, m ≠ .oid o := fun o he => hm ⟨o, he⟩
    have hc : coid r.1 = coid v.bot := by
      rw [hc]
      cases m with
      | oid o => exact absurd rfl (hne o)
      | _ => rfl
    have hmem : ∀ o, OBody.oid o ∈ v.before ++ (v.since ++ [m]) ↔ .oid o ∈ v.before ++ v.since := by
      intro o
      have hom : OBody.oid o ≠ m := fun he => hne o he.symm
      simp [hom]
    refine ⟨hc ▸ h.len, ?_, ?_, h.cans, h.taken, hsplit ▸ h.nodup, hsplit ▸ h.real⟩
    · intro o ho hno
      show (coid r.1)[o.sid.toNat]? = _
      rw [hc]
      exact h.reach o ((hmem o).mp ho) hno
    · intro x hx
      rw [hc] at hx
      exact (h.slots x hx).imp id (hmem x).mpr

/-- **An id that comes too soon** puts the one before it out of reach. -/
theorem Slots.too_soon (h : Slots coid v) (hb : SlotBot b coid) {o o' : ClobOid D} {down : List (OBody D)}
    (hd : v.down = .oid o :: down) (ho' : .oid o' ∈ v.since) (hs : o'.sid = o.sid) {r : S × List (Omsg D)}
    (hr : b.ochanCb ⟨cont, .oid o⟩ v.bot = .ok r) :
    ¬ InReach coid { v with bot := r.1, down, since := v.since ++ [.oid o] } := by
  intro hreach
  have hc : coid r.1 = (coid v.bot).set o.sid.toNat o := (hb.ochan _ _ _ hr).1
  have hnd := h.nodup
  have hreal := h.real
  simp only [ids_append, hd, ids_oid] at hnd hreal
  have ho's : o' ∈ ids v.since := mem_ids.mpr ho'
  have hno : .can o' ∉ v.sent := by
    intro hcan
    rcases h.cans o' hcan with rfl | hbefore
    · exact hreal (List.mem_append_left _ (List.mem_append_right _ ho's))
    · exact (List.nodup_append.mp (List.nodup_append.mp hnd).1).2.2 o' (mem_ids.mpr hbefore) o' ho's rfl
  have hslot := hreach o' (List.mem_append_right _ (List.mem_append_left _ ho')) hno
  have hslot : (coid r.1)[o'.sid.toNat]? = some o' := hslot
  rw [hc, hs, List.getElem?_set_self (hb.bound _ _ _ _ hr)] at hslot
  cases hslot
  exact (List.nodup_append.mp hnd).2.2 o (List.mem_append_right _ ho's) o List.mem_cons_self rfl

theorem Slots.arrive (h : Slots coid v) (up : List (OBody D)) {l : List (OBody D)}
    (hnd : (ids l).Nodup) (hfresh : ∀ o ∈ ids l, o ≠ noOid ∧ .oid o ∉ v.before ++ v.since ++ v.down) :
    Slots coid { v with up, down := v.down ++ l } := by
  refine ⟨h.len, h.reach, h.slots, h.cans, h.taken, ?_, ?_⟩
  · show (ids (v.before ++ v.since ++ (v.down ++ l))).Nodup
    rw [← List.append_assoc, ids_append]
    refine List.nodup_append.mpr ⟨h.nodup, hnd, fun x hx y hy he => ?_⟩
    subst he
    exact (hfresh x hy).2 (mem_ids.mp hx)
  · show noOid ∉ ids (v.before ++ v.since ++ (v.down ++ l))
    rw [← List.append_assoc, ids_append, List.mem_append, not_or]
    exact ⟨h.real, fun hy => (hfresh _ hy).1 rfl⟩

omit [Dfp D] in
theorem ids_news {m : OBody D} (h : IsNews m) : ids [m] = [] := by
  cases m with
  | oid o => exact absurd h id
  | _ => rfl

/-- The runs whose ids are of one order each. -/
abbrev freshVenue (b : BotCbs S D) (s₀ : S) (cont : List UInt8) : Machine (Venue S D) (VenueEvent D) :=
  (venue b s₀ cont).restrict FreshIds

/-- **A step** keeps orders in reach just when it is not an id that comes too soon. -/
theorem Slots.step (h : Slots coid v) (hb : SlotBot b coid) {e : VenueEvent D}
    (ha : (freshVenue b s₀ cont).allowed v e) (h1 : OneEach v e)
    (hs : (freshVenue b s₀ cont).step e v = .ok v') : Slots coid v' := by
  have hs : v.step b cont e = .ok v' := hs
  cases e with
  | timer =>
      obtain ⟨r, hr, rfl⟩ := Venue.step_toBot (show VenueEvent.timer.toBot = some .timer from rfl) hs
      exact h.timer hb hr
  | quote m behind =>
      obtain ⟨r, hr, rfl⟩ := Venue.step_toBot
        (show (VenueEvent.quote m behind).toBot = some (.qchan m behind) from rfl) hs
      obtain ⟨hc, hout⟩ := hb.quote _ _ _ _ hr
      rw [hout, Venue.send_nil]
      refine ⟨hc ▸ h.len, fun o ho hno => ?_, hc ▸ h.slots, h.cans, h.taken, h.nodup, h.real⟩
      show (coid r.1)[o.sid.toNat]? = _
      rw [hc]
      exact h.reach o ho hno
  | answer r =>
      cases hs
      cases r with
      | none => exact h.arrive _ List.nodup_nil fun o ho => absurd ho List.not_mem_nil
      | some m =>
          refine h.arrive _ ?_ fun o ho => ha.2 o ?_
          · cases m <;> first | exact List.nodup_nil | exact List.nodup_singleton _
          · cases List.mem_singleton.mp (mem_ids.mp ho)
            rfl
  | news m =>
      cases hs
      have hids := ids_news (show IsNews m from ha.1)
      refine h.arrive v.up ?_ ?_
      · rw [hids]
        exact List.nodup_nil
      · rw [hids]
        exact fun o ho => absurd ho List.not_mem_nil
  | deliver =>
      cases hd : v.down with
      | nil => exact absurd hd ha.1
      | cons m down =>
          obtain ⟨r, hr, rfl⟩ := Venue.step_deliver hd hs
          rw [(hb.ochan _ _ _ hr).2, Venue.send_nil]
          exact h.deliver hb hd (fun o hm o' ho' => h1 rfl o o' (by rw [hd, hm]; rfl) ho') hr

/-- **Orders stay in reach** just in the runs in which ids come one at a time. -/
theorem inReach_iff (hb : SlotBot b coid) (h0 : coid s₀ = [noOid, noOid]) {es : List (VenueEvent D)} :
    (freshVenue b s₀ cont).Always (fun _ _ v' => InReach coid v') es v ↔
      ((freshVenue b s₀ cont).restrict OneEach).Runs es v := by
  refine Machine.always_iff_restrict (I := Slots coid) ?_ ?_ ?_
  · rintro v rfl
    refine ⟨congrArg List.length h0, fun _ ho => absurd ho List.not_mem_nil, fun o ho => .inl ?_,
      fun _ hx => absurd hx List.not_mem_nil, fun _ ho => absurd ho List.not_mem_nil, List.nodup_nil, List.not_mem_nil⟩
    rw [h0] at ho
    simpa using ho
  · intro v e v' hi ha h1 hs
    have hi' := hi.step hb ha h1 hs
    exact ⟨hi', hi'.reach⟩
  · intro v e v' hi ha hn hs
    simp only [OneEach, not_forall] at hn
    obtain ⟨rfl, o, o', hd, ho', hsid⟩ := hn
    obtain ⟨down, hd⟩ := List.head?_eq_some_iff.mp hd
    obtain ⟨r, hr, rfl⟩ := Venue.step_deliver hd hs
    rw [(hb.ochan _ _ _ hr).2, Venue.send_nil]
    exact hi.too_soon hb hd ho' (not_not.mp hsid) hr

/-- Heartbeats are the timer's. -/
def timerBeats : BotEvent D → S → Bool
  | .timer, _ => true
  | _, _ => false

omit [Dfp D] in
theorem SlotBot.rounds (hb : SlotBot b coid) (sid : ClobSide) :
    Rounds b timerBeats (fun t => decide (t = sid)) 1 where
  beat be s r hr := by
    cases be with
    | timer =>
        obtain ⟨-, cb, ca, orders, -, -, hout, -, hle⟩ := hb.timer _ _ hr
        rw [hout, posted_append]
        show 0 + _ ≤ 1
        rw [Nat.zero_add]
        exact hle sid
    | ochan m =>
        rw [(hb.ochan _ _ _ hr).2]
        exact Nat.zero_le 1
    | qchan m behind =>
        rw [(hb.quote _ _ _ _ hr).2]
        exact Nat.zero_le 1
  rest be s r hbe hr := by
    cases be with
    | timer => cases hbe
    | ochan m => exact (hb.ochan _ _ _ hr).2
    | qchan m behind => exact (hb.quote _ _ _ _ hr).2
  heard m s r hr := (hb.ochan _ _ _ hr).2

/-- **Heartbeats when nothing is under way** make ids come one at a time. -/
theorem quiet_oneEach (hb : SlotBot b coid) {es : List (VenueEvent D)}
    (h : ((freshVenue b s₀ cont).restrict (Quiet timerBeats)).Runs es v) :
    ((freshVenue b s₀ cont).restrict OneEach).Runs es v := by
  refine Machine.Runs.mono (M := (freshVenue b s₀ cont).restrict (Quiet timerBeats))
    (N := (freshVenue b s₀ cont).restrict OneEach) (fun _ h0 => h0) rfl ?_ h
  rintro es v e hr ha
  refine ⟨ha.1, ?_⟩
  rintro rfl o o' hd ho' hs
  have hquiet : ((venue b s₀ cont).restrict (Quiet timerBeats)).Runs es v :=
    Machine.Runs.mono (M := (freshVenue b s₀ cont).restrict (Quiet timerBeats))
      (N := (venue b s₀ cont).restrict (Quiet timerBeats)) (fun _ h0 => h0) rfl
      (fun _ _ _ _ h => ⟨h.1.1, h.2⟩) hr
  have hbound := quiet_bound (hb.rounds o.sid) hquiet
  obtain ⟨down, hd⟩ := List.head?_eq_some_iff.mp hd
  have hdown : 0 < acked (fun t => decide (t = o.sid)) v.down := by
    rw [hd]
    exact List.countP_pos_iff.mpr ⟨_, List.mem_cons_self, decide_eq_true rfl⟩
  have hsince : 0 < acked (fun t => decide (t = o.sid)) v.since :=
    List.countP_pos_iff.mpr ⟨_, ho', decide_eq_true hs⟩
  omega

/-- **When orders stay in reach**, step by step; heartbeats when nothing is under way are enough. -/
structure KeepsInReach (b : BotCbs S D) (coid : S → List (ClobOid D)) (s₀ : S) (cont : List UInt8) : Prop where
  iff_oneEach : ∀ es v, (freshVenue b s₀ cont).Always (fun _ _ v' => InReach coid v') es v ↔
    ((freshVenue b s₀ cont).restrict OneEach).Runs es v
  of_quiet : ∀ es v, ((freshVenue b s₀ cont).restrict (Quiet timerBeats)).Runs es v →
    (freshVenue b s₀ cont).Always (fun _ _ v' => InReach coid v') es v

theorem SlotBot.keepsInReach (hb : SlotBot b coid) (h0 : coid s₀ = [noOid, noOid]) :
    KeepsInReach b coid s₀ cont :=
  ⟨fun _ _ => inReach_iff hb h0, fun _ _ h => (inReach_iff hb h0).mpr (quiet_oneEach hb h)⟩

/-- **The orders of `dasbot` and `egobot`.** -/
theorem orders_in_reach [Dbl R] [Cvt R D] (das : Dasbot.Opts D R) (ego : Egobot.Opts D R G) (rstr : G)
    (r : ℕ → R) : KeepsInReach (Dasbot.cbs das) Dasbot.coid Dasbot.init das.cont ∧
      KeepsInReach (Egobot.cbs ego) Egobot.coid (Egobot.init rstr r) ego.cont :=
  ⟨(Dasbot.slotBot das).keepsInReach rfl, (Egobot.slotBot ego).keepsInReach rfl⟩

section Lost

instance [DecidableEq D] (v : Venue S D) (e : VenueEvent D) : Decidable (FreshIds v e) :=
  match e with
  | .answer (some (.oid o)) => decidable_of_iff (o ≠ noOid ∧ .oid o ∉ v.before ++ v.since ++ v.down)
      ⟨fun h _ he => by cases he; exact h, fun h => h o rfl⟩
  | .answer none | .answer (some .unk) | .answer (some (.acc _)) | .answer (some (.fil _ _ _))
  | .answer (some (.kil _)) | .answer (some (.nok _)) | .answer (some (.can _)) | .answer (some (.ord _))
  | .timer | .quote _ _ | .news _ | .deliver => isTrue fun _ he => by cases he

instance [DecidableEq D] (b : BotCbs S D) (s₀ : S) (cont : List UInt8) (v : Venue S D) (e : VenueEvent D) :
    Decidable ((freshVenue b s₀ cont).allowed v e) :=
  inferInstanceAs (Decidable (((venue b s₀ cont).allowed v e) ∧ FreshIds v e))

/-- `egobot` with a generator of zeros. -/
def zeroEgo : Egobot.Opts Cents Cents Unit :=
  { cont := [Ascii.ch 'A'], vdRngGaussian := fun _ _ => (fun _ => some 0, ()) }

def bookOid (sid : ClobSide) (qid : BitVec 64) : ClobOid Cents := ⟨clobTypeLmt, sid, some 0, qid, 0⟩

/-- Two heartbeats before the first answer, and all answers but the last. -/
def twoBeats : List (VenueEvent Cents) :=
  [.timer, .timer, .answer (some (.nok noOid)), .answer (some (.nok noOid)),
    .answer (some (.oid (bookOid clobSideBid 1))), .answer (some (.oid (bookOid clobSideAsk 2))),
    .answer (some (.nok noOid)), .answer (some (.nok noOid)), .answer (some (.oid (bookOid clobSideBid 3))),
    .answer (some (.oid (bookOid clobSideAsk 4))), .deliver, .deliver, .deliver, .deliver, .deliver, .deliver,
    .deliver]

/-- **The first purchase is out of reach**, and has not been cancelled. -/
theorem order_lost : ∃ v, (freshVenue (Egobot.cbs zeroEgo) (Egobot.init () fun _ => some 0) zeroEgo.cont).Runs
    twoBeats v ∧ ¬ InReach Egobot.coid v := by
  obtain ⟨v, hv, hr⟩ := Machine.runs_of_exec
    (freshVenue (Egobot.cbs zeroEgo) (Egobot.init () fun _ => some 0) zeroEgo.cont)
    ⟨Egobot.init () fun _ => some 0, [], [], [], [], []⟩ twoBeats rfl (by decide)
  have hmap := congrArg (Option.map fun v => (v.before ++ v.since, v.sent, v.bot.coid)) hv
  refine ⟨v, hr, fun h => ?_⟩
  have hlost : ∀ t : List (OBody Cents) × List (OBody Cents) × List (ClobOid Cents),
      some t = some (v.before ++ v.since, v.sent, v.bot.coid) → .oid (bookOid clobSideBid 1) ∈ t.1 →
      .can (bookOid clobSideBid 1) ∉ t.2.1 → t.2.2[1]? = some (bookOid clobSideBid 1) := by
    rintro t ht
    cases ht
    exact h (bookOid clobSideBid 1)
  exact absurd (hlost _ hmap (by decide) (by decide)) (by decide)

end Lost

end Unserlob
