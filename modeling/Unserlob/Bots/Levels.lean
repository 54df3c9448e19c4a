import Unserlob.Bots.Makers
import Unserlob.Bots.Venue

/-!
# The ids of a pyramid (`pyrabot.c`)

The table of ids has room for one round of orders and starts over with every heartbeat.

* `Pyrabot.beats`: what makes a heartbeat; `hbeatCb_spec`: what one does; `step_cases`: all else;
* `Pyrabot.rounds`: a round has `2·nlvl` orders; `Pyrabot.counted`: the ids counted are those since the last round;
* **`noid_bounded`**: with nothing under way at heartbeats the table is large enough, and otherwise all ids
  may still arrive; `noid_overflow`: such a run.
-/

namespace Unserlob

open Cursor Table Run

variable {D : Type} [Dfp D]

namespace Pyrabot

variable {o : Opts D} {p : Pyrabot D} {r : Pyrabot D × List (Omsg D)}

/-- The timer, or every `nauc`-th auction. -/
def beats (o : Opts D) : BotEvent D → Pyrabot D → Bool
  | .timer, _ => o.nauc = 0
  | .qchan m _, p => match m.body with
    | .auc _ => o.nauc ≠ 0 && ours o.cont m && p.cauc % o.nauc = 0
    | _ => false
  | .ochan _, _ => false

theorem posted_pyramid (o : Opts D) (p : Pyrabot D) (n : ℕ) : ∀ q bq aq,
    posted (fun _ => true) ((pyramid o p n q bq aq).map Omsg.body) = 2 * n := by
  induction n with
  | zero => exact fun _ _ _ => rfl
  | succ n ih =>
      intro q bq aq
      rw [pyramid, posted, List.map_cons, List.map_cons, List.countP_cons_of_pos rfl, List.countP_cons_of_pos rfl,
        ← posted, ih]
      omega

/-- **A heartbeat** starts the table over and posts a round. -/
theorem hbeatCb_spec (h : hbeatCb o p = .ok r) : r.1.vqty.length = 2 ∧ r.1.noid = 0 ∧
    posted (fun _ => true) (r.2.map Omsg.body) = 2 * o.nlvl ∧ (r.2 = [] → p.noid = 0) := by
  obtain ⟨va, -, h⟩ := bind_ok.mp h
  obtain ⟨vb, -, h⟩ := bind_ok.mp h
  cases h
  have hcans : posted (fun _ => true) (((List.range p.noid).map fun i => canOf o.cont (p.coid i)).map Omsg.body) = 0 := by
    rw [posted, List.countP_eq_zero]
    intro m hm
    obtain ⟨m', hm', rfl⟩ := List.mem_map.mp hm
    obtain ⟨i, -, rfl⟩ := List.mem_map.mp hm'
    exact Bool.false_ne_true
  refine ⟨rfl, rfl, ?_, fun hout => ?_⟩
  · rw [List.map_append, posted_append, hcans, posted_pyramid, Nat.zero_add]
  · have hnil := (List.append_eq_nil_iff.mp hout).1
    rwa [List.map_eq_nil_iff, List.range_eq_nil] at hnil

theorem hbeatCb_ok (hq : p.vqty.length = 2) : ∃ r, hbeatCb o p = .ok r := by
  obtain ⟨va, vb, hv⟩ := List.length_eq_two.mp hq
  rw [hbeatCb, getAt_ok (a := va) (by rw [hv]; rfl), getAt_ok (a := vb) (by rw [hv]; rfl)]
  exact ⟨_, rfl⟩

/-- **What an event does**, apart from deliveries: it makes a heartbeat, or nothing is sent. -/
theorem step_cases {be : BotEvent D} (hne : ∀ m, be ≠ .ochan m) :
    (beats o be p = true ∧ ∃ p₀, (cbs o).step be p = hbeatCb o p₀ ∧ p₀.vqty = p.vqty ∧ p₀.noid = p.noid) ∨
    (beats o be p = false ∧ ∃ p', (cbs o).step be p = .ok (p', []) ∧ p'.vqty = p.vqty ∧ p'.noid = p.noid) := by
  cases be with
  | timer =>
      by_cases hn : o.nauc = 0
      · exact .inl ⟨decide_eq_true hn, p, congrFun (if_pos hn) p, rfl, rfl⟩
      · exact .inr ⟨decide_eq_false hn, p, congrFun (if_neg hn) p, rfl, rfl⟩
  | ochan m => exact absurd rfl (hne m)
  | qchan m behind =>
      obtain ⟨ins, body⟩ := m
      by_cases hn : o.nauc = 0
      · refine .inr ⟨?_, p, congrFun (if_pos hn) p, rfl, rfl⟩
        cases body <;> simp [beats, hn]
      · have hstep : (cbs o).step (.qchan ⟨ins, body⟩ behind) p = qchanCb o ⟨ins, body⟩ p := congrFun (if_neg hn) p
        rw [hstep]
        cases body with
        | auc a =>
            cases ho : ours o.cont (⟨ins, .auc a⟩ : Qmsg D) with
            | false =>
                refine .inr ⟨by simp [beats, ho], p, ?_, rfl, rfl⟩
                exact if_pos (by rw [ho]; exact Bool.false_ne_true)
            | true =>
                have hq : qchanCb o ⟨ins, .auc a⟩ p = if p.cauc % o.nauc = 0 then
                    hbeatCb o { p with cauc := p.cauc + 1 } else .ok ({ p with cauc := p.cauc + 1 }, []) :=
                  if_neg (by rw [ho]; exact fun h => h rfl)
                rw [hq]
                by_cases hc : p.cauc % o.nauc = 0
                · exact .inl ⟨by simp [beats, ho, hn, hc], _, if_pos hc, rfl, rfl⟩
                · exact .inr ⟨by simp [beats, hc], _, if_neg hc, rfl, rfl⟩
        | _ => exact .inr ⟨rfl, p, rfl, rfl, rfl⟩

/-- **Deliveries** are counted if they are ids. -/
theorem ochanCb_spec (hq : p.vqty.length = 2) {m : OBody D} (hm : Deliverable m) (cont : List UInt8) :
    ∃ p', ochanCb ⟨cont, m⟩ p = .ok (p', []) ∧ p'.vqty.length = 2 ∧
      p'.noid = p.noid + acked (fun _ => true) [m] := by
  cases m with
  | oid oid => exact ⟨_, rfl, hq, rfl⟩
  | fil fid exe con =>
      have hlt : fid.sid.toNat < p.vqty.length := hq ▸ hm
      refine ⟨{ p with
        vprc := p.vprc + exe.prc * exe.qty
        vqty := p.vqty.set fid.sid.toNat (p.vqty[fid.sid.toNat] + exe.qty) }, ?_, (List.length_set).trans hq, rfl⟩
      simp only [ochanCb, getAt_ok (List.getElem?_eq_getElem hlt), bind, Except.bind, setAt_ok hlt]
      rfl
  | acc exa => exact ⟨_, rfl, hq, rfl⟩
  | _ => exact ⟨p, rfl, hq, rfl⟩

theorem ochanCb_out {m : Omsg D} (h : ochanCb m p = .ok r) : r.2 = [] := by
  obtain ⟨cont, m⟩ := m
  cases m with
  | fil fid exe con =>
      obtain ⟨v, -, h⟩ := bind_ok.mp h
      obtain ⟨l, -, h⟩ := bind_ok.mp h
      cases h
      rfl
  | _ =>
      cases h
      rfl

theorem rounds (o : Opts D) : Rounds (cbs o) (beats o) (fun _ => true) (2 * o.nlvl) := by
  have hcases : ∀ be p r, (cbs o).step be p = .ok r →
      (posted (fun _ => true) (r.2.map Omsg.body) ≤ 2 * o.nlvl) ∧ (beats o be p = false → r.2 = []) := by
    intro be p r hr
    by_cases hm : ∃ m, be = .ochan m
    · obtain ⟨m, rfl⟩ := hm
      have hout := ochanCb_out hr
      rw [hout]
      exact ⟨Nat.zero_le _, fun _ => rfl⟩
    · rcases step_cases fun m he => hm ⟨m, he⟩ with ⟨hb, p₀, hs, -, -⟩ | ⟨-, p', hs, -, -⟩
      · exact ⟨(hbeatCb_spec (hs.symm.trans hr)).2.2.1.le, fun hb' => absurd (hb.symm.trans hb') Bool.true_eq_false.mp⟩
      · cases hs.symm.trans hr
        exact ⟨Nat.zero_le _, fun _ => rfl⟩
  exact ⟨fun be p r hr => (hcases be p r hr).1, fun be p r hb hr => (hcases be p r hr).2 hb,
    fun m p r hr => ochanCb_out hr⟩

/-! ## In the system -/

/-- What is counted is what has been delivered since the last heartbeat. -/
structure Counted (v : Venue (Pyrabot D) D) : Prop where
  vqty : v.bot.vqty.length = 2
  noid : v.bot.noid = acked (fun _ => true) v.since
  down : ∀ m ∈ v.down, Deliverable m

variable {v v' : Venue (Pyrabot D) D}

theorem Counted.own (h : Counted v) {be : BotEvent D} (hne : ∀ m, be ≠ .ochan m)
    (hr : (cbs o).step be v.bot = .ok r) : Counted (v.send r.1 r.2) := by
  rcases step_cases (o := o) (p := v.bot) hne with ⟨-, p₀, hs, -, hn⟩ | ⟨-, p', hs, hq, hn⟩
  · obtain ⟨hq', hn', -, hout⟩ := hbeatCb_spec (hs.symm.trans hr)
    by_cases h0 : r.2 = []
    · rw [h0, Venue.send_nil]
      exact ⟨hq', (hn'.trans (hout h0).symm).trans (hn.trans h.noid), h.down⟩
    · rw [Venue.send, if_neg h0]
      exact ⟨hq', hn', h.down⟩
  · cases hs.symm.trans hr
    rw [Venue.send_nil]
    exact ⟨hq.symm ▸ h.vqty, hn.trans h.noid, h.down⟩

theorem counted {mem : ℕ → ClobOid D} {es : List (VenueEvent D)}
    (h : (venue (cbs o) (init o mem) o.cont).Runs es v) : Counted v := by
  refine h.inv ?_ ?_
  · rintro v rfl
    exact ⟨rfl, rfl, fun _ hm => absurd hm List.not_mem_nil⟩
  · intro v e v' hi ha hs
    have hown : ∀ be, (∀ m, be ≠ .ochan m) → e.toBot = some be → Counted v' := by
      intro be hne hbe
      obtain ⟨r, hr, rfl⟩ := Venue.step_toBot hbe hs
      exact hi.own hne hr
    have hput : ∀ l : List (OBody D), (∀ m ∈ l, Deliverable m) → ∀ m ∈ v.down ++ l, Deliverable m :=
      fun l hl => List.forall_mem_append.mpr ⟨hi.down, hl⟩
    cases e with
    | timer => exact hown .timer nofun rfl
    | quote m behind => exact hown (.qchan m behind) nofun rfl
    | answer r =>
        cases hs
        obtain ⟨m, -, hans⟩ := ha
        exact ⟨hi.vqty, hi.noid, hput _ fun m' hm' => hans.deliverable (Option.mem_toList.mp hm')⟩
    | news m =>
        cases hs
        exact ⟨hi.vqty, hi.noid, hput _ fun m' hm' => List.mem_singleton.mp hm' ▸ (show IsNews m from ha).deliverable⟩
    | deliver =>
        cases hd : v.down with
        | nil => exact absurd hd ha
        | cons m down =>
            obtain ⟨r, hr, rfl⟩ := Venue.step_deliver hd hs
            have hdel := hi.down
            rw [hd] at hdel
            obtain ⟨p', hp', hq, hn⟩ := ochanCb_spec hi.vqty (hdel m List.mem_cons_self) o.cont
            cases hp'.symm.trans hr
            rw [Venue.send_nil]
            refine ⟨hq, ?_, fun m' hm' => hdel m' (List.mem_cons_of_mem m hm')⟩
            rw [hn, hi.noid, acked_append]

/-- A heartbeat while something is under way: it may all arrive before the next. -/
theorem overflows {mem : ℕ → ClobOid D} {es : List (VenueEvent D)}
    (h : (venue (cbs o) (init o mem) o.cont).Runs es v) {e : VenueEvent D} (hq : ¬ Quiet (beats o) v e) :
    ∃ es' v', (venue (cbs o) (init o mem) o.cont).Runs (es ++ e :: es') v' ∧ 2 * o.nlvl < v'.bot.noid := by
  have hc := counted h
  simp only [Quiet, not_forall] at hq
  obtain ⟨be, hbe, hb, hidle⟩ := hq
  have hne : ∀ m, be ≠ .ochan m := by
    rintro m rfl
    cases hb
  rcases step_cases (o := o) (p := v.bot) hne with ⟨-, p₀, hs, hp₀, -⟩ | ⟨hb', -⟩
  · obtain ⟨r, hr⟩ := hbeatCb_ok (o := o) (hp₀ ▸ hc.vqty)
    obtain ⟨hq', hn', hpost, -⟩ := hbeatCb_spec hr
    have hstep : (venue (cbs o) (init o mem) o.cont).step e v = .ok (v.send r.1 r.2) :=
      Venue.step_of_toBot hbe (hs.trans hr)
    have ha : (venue (cbs o) (init o mem) o.cont).allowed v e := Venue.allowed_of_toBot hbe
    obtain ⟨es', v', hv', hf⟩ := drain (p := fun _ => true) (P := fun p => p.vqty.length = 2) (f := Pyrabot.noid)
      (fun m s hP hd => ochanCb_spec hP hd o.cont) (h.next ha hstep)
      ((Venue.send_bot ..).symm ▸ hq') ((Venue.send_down ..).symm ▸ hc.down)
    refine ⟨es', v', by rwa [List.append_assoc] at hv', ?_⟩
    rw [hf, Venue.send_bot, hn', Venue.send_down, Venue.send_up, posted_append, hpost]
    have : ¬ (posted (fun _ => true) v.up = 0 ∧ acked (fun _ => true) v.down = 0) := hidle
    omega
  · exact absurd (hb.symm.trans hb') Bool.true_eq_false.mp

/-- **The table of ids is large enough** when heartbeats find nothing under way, and one that does may be
followed by deliveries that overrun it. -/
theorem noid_bounded (o : Opts D) (mem : ℕ → ClobOid D) :
    (∀ es v, ((venue (cbs o) (init o mem) o.cont).restrict (Quiet (beats o))).Runs es v →
      v.bot.noid ≤ 2 * o.nlvl) ∧
    ∀ es v, (venue (cbs o) (init o mem) o.cont).Runs es v → ∀ e, ¬ Quiet (beats o) v e →
      ∃ es' v', (venue (cbs o) (init o mem) o.cont).Runs (es ++ e :: es') v' ∧ 2 * o.nlvl < v'.bot.noid := by
  refine ⟨fun es v h => ?_, fun es v h e hq => overflows h hq⟩
  have hb := quiet_bound (rounds o) h
  rw [(counted h.of_restrict).noid]
  omega

/-- `pyrabot` with one level. -/
def oneLevel : Opts Cents := { cont := [Ascii.ch 'A'] }

/-- An order in the book on a side. -/
def restOn (sid : ClobSide) : VenueEvent Cents := .answer (some (.oid ⟨clobTypeLmt, sid, some 100, 1, 0⟩))

/-- Two heartbeats before the first answer. -/
def twoRounds : List (VenueEvent Cents) :=
  [.timer, .timer, restOn clobSideAsk, restOn clobSideBid, restOn clobSideAsk, restOn clobSideBid, .deliver,
    .deliver, .deliver, .deliver]

/-- **All four ids arrive** in a table for two. -/
theorem noid_overflow : ∃ v, (venue (cbs oneLevel) (init oneLevel fun _ => ⟨0, 0, some 0, 0, 0⟩) oneLevel.cont).Runs
    twoRounds v ∧ ¬ v.bot.noid ≤ 2 * oneLevel.nlvl := by
  obtain ⟨v, hv, hr⟩ := Machine.runs_of_exec
    (venue (cbs oneLevel) (init oneLevel fun _ => ⟨0, 0, some 0, 0, 0⟩) oneLevel.cont)
    ⟨init oneLevel fun _ => ⟨0, 0, some 0, 0, 0⟩, [], [], [], [], []⟩ twoRounds rfl (by decide)
  have hmap := congrArg (Option.map fun v => v.bot.noid) hv
  have hn : some 4 = some v.bot.noid := hmap
  refine ⟨v, hr, ?_⟩
  rw [← Option.some.inj hn]
  decide

end Pyrabot

end Unserlob
