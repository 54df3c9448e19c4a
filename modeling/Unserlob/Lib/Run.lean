import Unserlob.Lib.Cursor

/-!
# Runs

A machine takes events. The environment may offer an event in a state (`allowed`) and the machine
then goes to another state or faults.

* `Machine`, `Machine.Runs`: the runs from an initial state, event by event;
* **`Machine.Runs.inv`**: what holds at the start and survives every step holds in every state
  reached; **`Machine.Runs.refines`**, `Machine.Runs.simulates`: what is simulated step by step is
  simulated in every run;
* `Machine.Always`, `Machine.restrict`, **`Machine.always_iff_restrict`**: properties of every step
  and conditions on every step;
* `Machine.Deals`, `Machine.Meets`, **`Machine.deals_iff_meets`**: the same where a step may also fault;
* `Machine.exec`, `Machine.runs_of_exec`, `Machine.runs_of_any`: runs that can be computed.
-/

namespace Run

open Cursor

structure Machine (S E : Type) where
  init : S → Prop
  allowed : S → E → Prop
  step : E → S → Res S

variable {S E : Type} {M : Machine S E}

/-- `M` goes through the events `es` and is then in state `s`. -/
inductive Machine.Runs (M : Machine S E) : List E → S → Prop where
  | start {s : S} : M.init s → Machine.Runs M [] s
  | next {es : List E} {s s' : S} {e : E} : Machine.Runs M es s → M.allowed s e →
      M.step e s = .ok s' → Machine.Runs M (es ++ [e]) s'

/-- **Invariants.** -/
theorem Machine.Runs.inv {P : S → Prop} (h0 : ∀ s, M.init s → P s)
    (hs : ∀ s e s', P s → M.allowed s e → M.step e s = .ok s' → P s') {es : List E} {s : S}
    (h : M.Runs es s) : P s := by
  induction h with
  | start hi => exact h0 _ hi
  | next _ ha he ih => exact hs _ _ _ ih ha he

theorem Machine.Runs.inv_events {P : List E → S → Prop} (h0 : ∀ s, M.init s → P [] s)
    (hs : ∀ es s e s', P es s → M.allowed s e → M.step e s = .ok s' → P (es ++ [e]) s') {es : List E}
    {s : S} (h : M.Runs es s) : P es s := by
  induction h with
  | start hi => exact h0 _ hi
  | next _ ha he ih => exact hs _ _ _ _ ih ha he

/-- **Refinement.** What `M` does in a step, `N` does in some steps from every state that it reaches. -/
theorem Machine.Runs.refines {T E' : Type} {N : Machine T E'} {Q : List E → S → List E' → T → Prop}
    (h0 : ∀ s, M.init s → ∃ t, N.init t ∧ Q [] s [] t)
    (hstep : ∀ es s e s' ts t, N.Runs ts t → Q es s ts t → M.allowed s e → M.step e s = .ok s' →
      ∃ more t', N.Runs (ts ++ more) t' ∧ Q (es ++ [e]) s' (ts ++ more) t') {es : List E} {s : S} (h : M.Runs es s) :
    ∃ ts t, N.Runs ts t ∧ Q es s ts t := by
  induction h with
  | start hi =>
      obtain ⟨t, ht, hq⟩ := h0 _ hi
      exact ⟨[], t, .start ht, hq⟩
  | next _ ha he ih =>
      obtain ⟨ts, t, ht, hq⟩ := ih
      obtain ⟨more, t', ht', hq'⟩ := hstep _ _ _ _ _ t ht hq ha he
      exact ⟨ts ++ more, t', ht', hq'⟩

/-- **Forward simulation**, by steps `f` that are known from the event. -/
theorem Machine.Runs.simulates {T E' : Type} {N : Machine T E'} {f : E → List E'} {R : S → T → Prop}
    (h0 : ∀ s, M.init s → ∃ t, N.init t ∧ R s t)
    (hstep : ∀ s e s' ts t, N.Runs ts t → R s t → M.allowed s e → M.step e s = .ok s' →
      ∃ t', N.Runs (ts ++ f e) t' ∧ R s' t') {es : List E} {s : S} (h : M.Runs es s) :
    ∃ t, N.Runs (es.flatMap f) t ∧ R s t := by
  obtain ⟨ts, t, ht, rfl, hr⟩ := h.refines (Q := fun es s ts t => ts = es.flatMap f ∧ R s t)
    (fun s hs => (h0 s hs).imp fun t ht => ⟨ht.1, rfl, ht.2⟩) (by
      rintro es s e s' - t ht ⟨rfl, hr⟩ ha he
      obtain ⟨t', ht', hr'⟩ := hstep s e s' _ t ht hr ha he
      exact ⟨f e, t', ht', by rw [List.flatMap_append, List.flatMap_singleton], hr'⟩)
  exact ⟨t, ht, hr⟩

/-! ## Conditions and properties of steps -/

/-- The machine whose environment also keeps to `C`. -/
def Machine.restrict (M : Machine S E) (C : S → E → Prop) : Machine S E :=
  { M with allowed := fun s e => M.allowed s e ∧ C s e }

theorem Machine.Runs.mono {N : Machine S E} (hi : ∀ s, M.init s → N.init s) (hs : N.step = M.step)
    (ha : ∀ es s e, M.Runs es s → M.allowed s e → N.allowed s e) {es : List E} {s : S} (h : M.Runs es s) :
    N.Runs es s := by
  induction h with
  | start h0 => exact .start (hi _ h0)
  | next hr hal he ih => exact ih.next (ha _ _ _ hr hal) (hs ▸ he)

theorem Machine.Runs.of_restrict {C : S → E → Prop} {es : List E} {s : S} (h : (M.restrict C).Runs es s) :
    M.Runs es s := by
  refine Machine.Runs.mono (M := M.restrict C) (N := M) (fun _ h0 => h0) rfl ?_ h
  exact fun _ _ _ _ ha => And.left ha

/-- `G` holds of every step of the run. -/
inductive Machine.Always (M : Machine S E) (G : S → E → S → Prop) : List E → S → Prop where
  | start {s : S} : M.init s → Machine.Always M G [] s
  | next {es : List E} {s s' : S} {e : E} : Machine.Always M G es s → M.allowed s e →
      M.step e s = .ok s' → G s e s' → Machine.Always M G (es ++ [e]) s'

theorem Machine.Always.last {G : S → E → S → Prop} {es : List E} {e : E} {s' : S}
    (h : M.Always G (es ++ [e]) s') : ∃ s, M.Always G es s ∧ G s e s' := by
  generalize hl : es ++ [e] = l at h
  cases h with
  | start _ => simp at hl
  | next h _ _ hG =>
      obtain ⟨rfl, he⟩ := List.append_inj' hl rfl
      cases he
      exact ⟨_, h, hG⟩

section Restrict

variable {C : S → E → Prop} {G : S → E → S → Prop} {I : S → Prop} (h0 : ∀ s, M.init s → I s)
  (hstep : ∀ s e s', I s → M.allowed s e → C s e → M.step e s = .ok s' → I s' ∧ G s e s')

include h0 hstep

theorem Machine.Runs.always_of_restrict {es : List E} {s : S} (h : (M.restrict C).Runs es s) :
    I s ∧ M.Always G es s := by
  induction h with
  | start hi => exact ⟨h0 _ hi, .start hi⟩
  | next _ ha he ih =>
      obtain ⟨hI, hG⟩ := hstep _ _ _ ih.1 ha.1 ha.2 he
      exact ⟨hI, ih.2.next ha.1 he hG⟩

/-- **A property holds of every step just when every step meets the condition**, if under an
invariant the one step follows from the other. -/
theorem Machine.always_iff_restrict
    (hbad : ∀ s e s', I s → M.allowed s e → ¬ C s e → M.step e s = .ok s' → ¬ G s e s')
    {es : List E} {s : S} : M.Always G es s ↔ (M.restrict C).Runs es s := by
  refine ⟨fun h => ?_, fun h => (Runs.always_of_restrict h0 hstep h).2⟩
  induction h with
  | start hi => exact .start hi
  | next _ ha he hG ih =>
      refine ih.next ⟨ha, ?_⟩ he
      by_contra hC
      exact hbad _ _ _ (Runs.always_of_restrict h0 hstep ih).1 ha hC he hG

end Restrict

theorem Machine.always_iff_of_spec {C : S → E → Prop} {G : S → E → S → Prop} {I : S → Prop}
    (h0 : ∀ s, M.init s → I s)
    (hgood : ∀ s e, I s → M.allowed s e → C s e → ∃ s', M.step e s = .ok s' ∧ G s e s' ∧ I s')
    (hbad : ∀ s e s', I s → M.allowed s e → ¬ C s e → M.step e s = .ok s' → ¬ G s e s') {es : List E}
    {s : S} : M.Always G es s ↔ (M.restrict C).Runs es s := by
  refine Machine.always_iff_restrict h0 (fun s e s' hs ha hC he => ?_) hbad
  obtain ⟨s₁, h₁, hG, hI⟩ := hgood s e hs ha hC
  rw [he] at h₁
  cases h₁
  exact ⟨hI, hG⟩

/-! ## Steps that may fault -/

/-- **From `s` on**, every event that the environment may bring is dealt with, and every step has the property. -/
def Machine.Deals (M : Machine S E) (G : S → E → S → Prop) : List E → S → Prop
  | [], _ => True
  | e :: es, s => M.allowed s e → ∃ s', M.step e s = .ok s' ∧ G s e s' ∧ M.Deals G es s'

/-- Every event that the environment may bring meets the condition. -/
def Machine.Meets (M : Machine S E) (C : S → E → Prop) : List E → S → Prop
  | [], _ => True
  | e :: es, s => M.allowed s e → C s e ∧ ∀ s', M.step e s = .ok s' → M.Meets C es s'

section Deals

variable {C : S → E → Prop} {G : S → E → S → Prop} {I : S → Prop}

/-- **All events are dealt with just when all meet the condition**, if under an invariant a step is made and has
the property just then. -/
theorem Machine.deals_iff_meets
    (hgood : ∀ s e, I s → M.allowed s e → C s e → ∃ s', M.step e s = .ok s' ∧ G s e s' ∧ I s')
    (hbad : ∀ s e s', I s → M.allowed s e → M.step e s = .ok s' → G s e s' → C s e) (es : List E) {s : S} (hs : I s) :
    M.Deals G es s ↔ M.Meets C es s := by
  induction es generalizing s with
  | nil => exact Iff.rfl
  | cons e es ih =>
      refine ⟨fun h ha => ?_, fun h ha => ?_⟩
      · obtain ⟨s', he, hG, hrest⟩ := h ha
        have hC := hbad s e s' hs ha he hG
        obtain ⟨s₁, h₁, -, hI⟩ := hgood s e hs ha hC
        cases he.symm.trans h₁
        refine ⟨hC, fun s₂ h₂ => ?_⟩
        cases he.symm.trans h₂
        exact (ih hI).mp hrest
      · obtain ⟨hC, hrest⟩ := h ha
        obtain ⟨s', he, hG, hI⟩ := hgood s e hs ha hC
        exact ⟨s', he, hG, (ih hI).mpr (hrest s' he)⟩

end Deals

/-! ## Executed runs -/

section Exec

variable [∀ s e, Decidable (M.allowed s e)]

/-- The state after the events, if all of them are allowed and none faults. -/
def Machine.exec (M : Machine S E) [∀ s e, Decidable (M.allowed s e)] : List E → S → Option S
  | [], s => some s
  | e :: es, s =>
    if M.allowed s e then
      match M.step e s with
      | .ok s' => M.exec es s'
      | .error _ => none
    else none

theorem Machine.Runs.exec {es : List E} : ∀ {pre : List E} {s s' : S}, M.Runs pre s →
    M.exec es s = some s' → M.Runs (pre ++ es) s' := by
  induction es with
  | nil =>
      intro pre s s' h he
      cases he
      rwa [List.append_nil]
  | cons e es ih =>
      intro pre s s' h he
      rw [Machine.exec] at he
      split_ifs at he with ha
      cases hs : M.step e s with
      | error f => rw [hs] at he; cases he
      | ok s₁ =>
          rw [hs] at he
          have := ih (h.next ha hs) he
          rwa [List.append_assoc] at this

/-- **Events that can be executed are a run.** -/
theorem Machine.runs_of_exec (M : Machine S E) [∀ s e, Decidable (M.allowed s e)] (s₀ : S)
    (es : List E) (h0 : M.init s₀)
    (h : (M.exec es s₀).isSome) : ∃ s, M.exec es s₀ = some s ∧ M.Runs es s := by
  obtain ⟨s, hs⟩ := Option.isSome_iff_exists.mp h
  exact ⟨s, hs, (Machine.Runs.start h0).exec hs⟩

theorem Machine.runs_of_any (M : Machine S E) [∀ s e, Decidable (M.allowed s e)] {s₀ : S} {es : List E}
    (h0 : M.init s₀) {p : S → Bool} (h : (M.exec es s₀).any p = true) : ∃ s, M.Runs es s ∧ p s = true := by
  obtain ⟨s, hs, hr⟩ := M.runs_of_exec s₀ es h0 (Option.isSome_of_any h)
  rw [hs] at h
  exact ⟨s, hr, h⟩

end Exec

end Run
