import Unserlob.Bots.Makers
import Unserlob.Bots.Takers

/-!
# What a bot hears

* `own`: events that are not quotes of other instruments; `OwnInstrument`: what is wanted of a bot;
* `Pyrabot.hears`, `Egobot.hears`, `Trendbot.hears`, `Techbot.hears`, `Clampbot.hears`: the quotes a bot
  does something about, and `ignores`, that it does nothing about the others;
* `HearsOwn`: no other instrument is heard; **`own_instrument`**: enough for all five of them;
* `instruments_leak`: it is not met by all histories.
-/

namespace Unserlob

open Cursor Table Transducer

variable {S D R G : Type}

/-- Anything but a quote message of an instrument that is none of the contracts. -/
def own (conts : List (List UInt8)) : BotEvent D → Bool
  | .qchan m _ => conts.contains m.ins
  | _ => true

/-- All that is heard in the history is the bot's business. -/
def HearsOwn (conts : List (List UInt8)) (hears : BotEvent D → Bool) (es : List (BotEvent D)) : Prop :=
  ∀ e ∈ es, hears e = true → own conts e = true

/-- **Histories that differ in other instruments' quotes only** lead to the same state and the same orders. -/
def OwnInstrument (b : BotCbs S D) (s : S) (conts : List (List UInt8)) (C : List (BotEvent D) → Prop) : Prop :=
  ∀ es es', C es → C es' → es.filter (own conts) = es'.filter (own conts) →
    run b.step es s = run b.step es' s

/-- **A bot that ignores what it does not hear** minds its own instrument, if it hears no other. -/
theorem ownInstrument_of_ignores {b : BotCbs S D} (s : S) (conts : List (List UInt8)) {hears : BotEvent D → Bool}
    (h : ∀ e, hears e = false → Ignores b.step e) : OwnInstrument b s conts (HearsOwn conts hears) := by
  have hign : ∀ {es}, HearsOwn conts hears es → ∀ e ∈ es, own conts e = false → Ignores b.step e := by
    intro es hes e he hown
    refine h e (Bool.eq_false_iff.mpr fun hh => ?_)
    rw [hes e he hh] at hown
    cases hown
  intro es es' hes hes' hf
  exact run_eq_of_filter_eq (hign hes) (hign hes') hf s

variable [Dfp D]

/-! ## The quotes that are heard -/

/-- An auction, if auctions are heartbeats. -/
def Pyrabot.hears (o : Pyrabot.Opts D) : BotEvent D → Bool
  | .qchan m _ => match m.body with
    | .auc _ => o.nauc ≠ 0 && ours o.cont m
    | _ => false
  | _ => true

/-- A new top, or the price of an auction of any instrument. -/
def Egobot.hears [Dbl R] (o : Egobot.Opts D R G) : BotEvent D → Bool
  | .qchan m _ => match m.body with
    | .top _ => ours o.cont m
    | .auc auc => !Dfp.isnan auc.prc
    | _ => false
  | _ => true

/-- A trade. -/
def hearsTrade (cont : List UInt8) : BotEvent D → Bool
  | .qchan m _ => match m.body with
    | .tra _ => ours cont m
    | _ => false
  | _ => true

def Trendbot.hears (o : Trendbot.Opts D) : BotEvent D → Bool := hearsTrade o.cont

def Techbot.hears (o : Techbot.Opts D) : BotEvent D → Bool := hearsTrade o.cont

/-- A new top, an auction, or one without a quantity of any instrument. -/
def Clampbot.hears (o : Clampbot.Opts D) : BotEvent D → Bool
  | .qchan m behind => match m.body with
    | .top _ => contractOf o m behind ≠ .ok none
    | .auc auc => Dfp.isnan auc.qty || contractOf o m behind ≠ .ok none
    | _ => false
  | _ => false

theorem Pyrabot.ignores {o : Pyrabot.Opts D} {e : BotEvent D} (h : hears o e = false) :
    Ignores (cbs o).step e := by
  intro p
  cases e with
  | timer => cases h
  | ochan m => cases h
  | qchan m behind =>
      obtain ⟨ins, body⟩ := m
      show (if o.nauc = 0 then BotCbs.none else qchanCb o ⟨ins, body⟩) p = _
      split_ifs with hn
      · rfl
      · cases body with
        | auc a =>
            have ho : ours o.cont (⟨ins, .auc a⟩ : Qmsg D) = false := by simpa [hears, hn] using h
            exact if_pos (by rw [ho]; exact Bool.false_ne_true)
        | _ => rfl

theorem Egobot.ignores [Dbl R] [Cvt R D] {o : Egobot.Opts D R G} {e : BotEvent D} (h : hears o e = false) :
    Ignores (cbs o).step e := by
  intro s
  cases e with
  | timer => cases h
  | ochan m => cases h
  | qchan m behind =>
      obtain ⟨ins, body⟩ := m
      cases body with
      | top q =>
          have ho : ours o.cont (⟨ins, .top q⟩ : Qmsg D) = false := h
          exact if_pos (by rw [ho]; exact Bool.false_ne_true)
      | auc a =>
          have hn : Dfp.isnan a.prc = true := by simpa [hears] using h
          show Except.ok (if Dfp.isnan a.prc then s else _, []) = _
          rw [if_pos hn]
      | _ => rfl

theorem Trendbot.ignores {o : Trendbot.Opts D} {e : BotEvent D} (h : hears o e = false) :
    Ignores (cbs o).step e := by
  intro s
  cases e with
  | timer => cases h
  | ochan m => cases h
  | qchan m behind =>
      obtain ⟨ins, body⟩ := m
      cases body with
      | tra q =>
          have ho : ours o.cont (⟨ins, .tra q⟩ : Qmsg D) = false := h
          exact if_pos (by rw [ho]; exact Bool.false_ne_true)
      | _ => rfl

theorem Techbot.ignores {o : Techbot.Opts D} {e : BotEvent D} (h : hears o e = false) :
    Ignores (cbs o).step e := by
  intro s
  cases e with
  | timer => cases h
  | ochan m => cases h
  | qchan m behind =>
      obtain ⟨ins, body⟩ := m
      cases body with
      | tra q =>
          have ho : ours o.cont (⟨ins, .tra q⟩ : Qmsg D) = false := h
          exact if_pos (by rw [ho]; exact Bool.false_ne_true)
      | _ => rfl

theorem Clampbot.ignores {o : Clampbot.Opts D} {e : BotEvent D} (h : hears o e = false) :
    Ignores (cbs o).step e := by
  intro s
  cases e with
  | timer => rfl
  | ochan m => rfl
  | qchan m behind =>
      obtain ⟨ins, body⟩ := m
      cases body with
      | top q =>
          have hc : contractOf o (⟨ins, .top q⟩ : Qmsg D) behind = .ok none := by simpa [hears] using h
          show (contractOf o _ behind >>= _) = _
          rw [hc]
          rfl
      | auc a =>
          have hc : Dfp.isnan a.qty = false ∧ contractOf o (⟨ins, .auc a⟩ : Qmsg D) behind = .ok none := by
            simpa [hears] using h
          show (if Dfp.isnan a.qty then _ else contractOf o _ behind >>= _) = _
          rw [hc.1, if_neg Bool.false_ne_true, hc.2]
          rfl
      | _ => rfl

/-! ## The five of them -/

/-- **Bots that hear no other instrument** react to their own only. -/
theorem own_instrument [Dbl R] [Cvt R D] (pyra : Pyrabot.Opts D) (ego : Egobot.Opts D R G)
    (trend : Trendbot.Opts D) (tech : Techbot.Opts D) (clamp : Clampbot.Opts D) :
    (∀ s, OwnInstrument (Pyrabot.cbs pyra) s [pyra.cont] (HearsOwn [pyra.cont] (Pyrabot.hears pyra))) ∧
    (∀ s, OwnInstrument (Egobot.cbs ego) s [ego.cont] (HearsOwn [ego.cont] (Egobot.hears ego))) ∧
    (∀ s, OwnInstrument (Trendbot.cbs trend) s [trend.cont] (HearsOwn [trend.cont] (Trendbot.hears trend))) ∧
    (∀ s, OwnInstrument (Techbot.cbs tech) s [tech.cont] (HearsOwn [tech.cont] (Techbot.hears tech))) ∧
    ∀ s, OwnInstrument (Clampbot.cbs clamp) s [clamp.cont0, clamp.cont1]
      (HearsOwn [clamp.cont0, clamp.cont1] (Clampbot.hears clamp)) :=
  ⟨fun s => ownInstrument_of_ignores s _ fun _ => Pyrabot.ignores,
    fun s => ownInstrument_of_ignores s _ fun _ => Egobot.ignores,
    fun s => ownInstrument_of_ignores s _ fun _ => Trendbot.ignores,
    fun s => ownInstrument_of_ignores s _ fun _ => Techbot.ignores,
    fun s => ownInstrument_of_ignores s _ fun _ => Clampbot.ignores⟩

section Leaks

open Ascii

/-- A message of some instrument, in the line that it came in. -/
def leakOf (ins : List UInt8) (body : QBody Cents) : BotEvent Cents := .qchan ⟨ins, body⟩ [ch '\t']

def leakQuo (sid : ClobSide) (prc : ℤ) : QuosMsg Cents := ⟨sid, some prc, some 100⟩

/-- The generator puts out zeros. -/
def leakEgo : Egobot.Opts Cents Cents Unit := { cont := [ch 'A'], vdRngGaussian := fun _ _ => (fun _ => some 0, ()) }

def leakPyra : Pyrabot.Opts Cents := { cont := [ch 'A'], nauc := 2 }

def leakClamp : Clampbot.Opts Cents := { cont0 := [ch 'A'], cont1 := [ch 'C'], dif := some 0 }

/-- Quotes of both contracts. -/
def leakTops : List (BotEvent Cents) :=
  [leakOf [ch 'A'] (.top (leakQuo clobSideAsk 100)), leakOf [ch 'C'] (.top (leakQuo clobSideBid 200))]

/-- **All five react to other instruments**: names are compared at the length of the contract's, or not at all. -/
theorem instruments_leak :
    ¬ OwnInstrument (Pyrabot.cbs leakPyra) (Pyrabot.init leakPyra fun _ => ⟨0, 0, some 0, 0, 0⟩) [[ch 'A']]
      (fun _ => True) ∧
    ¬ OwnInstrument (Egobot.cbs leakEgo) (Egobot.init () fun _ => some 0) [[ch 'A']] (fun _ => True) ∧
    ¬ OwnInstrument (Trendbot.cbs (D := Cents) { cont := [ch 'A'] }) Trendbot.init [[ch 'A']] (fun _ => True) ∧
    ¬ OwnInstrument (Techbot.cbs (D := Cents) { cont := [ch 'A'] }) Techbot.init [[ch 'A']] (fun _ => True) ∧
    ¬ OwnInstrument (Clampbot.cbs leakClamp) Clampbot.init [[ch 'A'], [ch 'C']] (fun _ => True) := by
  refine ⟨fun h => ?_, fun h => ?_, fun h => ?_, fun h => ?_, fun h => ?_⟩
  · have := h [leakOf (bytes ['A', 'B']) (.auc ⟨some 100, some 100, some 0⟩)] [] trivial trivial rfl
    have := congrArg (fun r => r.toOption.map fun r => r.2.length) this
    exact absurd this (by decide)
  · have := h [leakOf [ch 'B'] (.auc ⟨some 100, some 100, some 0⟩)] [] trivial trivial rfl
    have := congrArg (fun r => r.toOption.map fun r => r.1.mktv) this
    exact absurd this (by decide)
  · have := h [leakOf (bytes ['A', 'B']) (.tra (leakQuo clobSideAsk 100))] [] trivial trivial rfl
    have := congrArg (fun r => r.toOption.map fun r => r.1.vol) this
    exact absurd this (by decide)
  · have := h [leakOf (bytes ['A', 'B']) (.tra (leakQuo clobSideAsk 100))] [] trivial trivial rfl
    have := congrArg (fun r => r.toOption.map fun r => r.1.last) this
    exact absurd this (by decide)
  · have := h (leakTops ++ [leakOf [ch 'B'] (.auc ⟨some 100, none, some 0⟩)]) leakTops trivial trivial rfl
    have := congrArg (fun r => r.toOption.map fun r => r.2.length) this
    exact absurd this (by decide)

end Leaks

end Unserlob
