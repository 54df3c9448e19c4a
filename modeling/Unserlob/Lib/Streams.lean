import Unserlob.Lib.Lines

/-!
# Streams of segments

A sender puts segments one behind the other, each with a separator at its end and nowhere else. A
receiver has some of the stream.

* `IsSegment`, `isSegment_cut`; **`cut_segments`**: a stream is cut where it was put together;
* **`cut_received`**: what has been received is cut into the first segments and a part of the next;
* `cut_next`: the segments that end in the next piece;
* `Chain`: what becomes of a state when every segment does something to it; `chain_append`;
* **`handAll_chain`**, **`handAll_goes`**, `handAll_returns`: the handlers of a scan, one after the other.
-/

namespace Lines

open Cursor

variable {α : Type} [DecidableEq α] {sep : α}

/-- A text with the separator at its end and nowhere else. -/
def IsSegment (sep : α) (l : List α) : Prop := ∃ w, l = w ++ [sep] ∧ sep ∉ w

section Build

omit [DecidableEq α]

variable {w l : List α}

theorem isSegment_singleton (sep : α) : IsSegment sep [sep] := ⟨[], rfl, List.not_mem_nil⟩

theorem IsSegment.append (h : IsSegment sep l) (hw : sep ∉ w) : IsSegment sep (w ++ l) := by
  obtain ⟨v, rfl, hv⟩ := h
  exact ⟨w ++ v, (List.append_assoc w v _).symm, fun hm => (List.mem_append.mp hm).elim hw hv⟩

theorem IsSegment.cons (h : IsSegment sep l) {c : α} (hc : sep ≠ c) : IsSegment sep (c :: l) :=
  IsSegment.append (w := [c]) h fun hm => hc (List.mem_singleton.mp hm)

end Build

omit [DecidableEq α] in
theorem IsSegment.last {l : List α} (h : IsSegment sep l) : l.getLast? = some sep := by
  obtain ⟨w, rfl, -⟩ := h
  exact List.getLast?_concat

theorem isSegment_cut (t : List α) : ∀ l ∈ (cut sep t).1, IsSegment sep l := by
  induction hn : t.length using Nat.strongRecOn generalizing t with
  | ind n ih =>
      rcases notMem_or_split sep t with hno | ⟨w, t', rfl, hw⟩
      · rw [cut_of_notMem hno]
        exact fun l hl => absurd hl List.not_mem_nil
      · rw [cut_of_mem hw]
        refine List.forall_mem_cons.mpr ⟨⟨w, rfl, hw⟩, ih t'.length ?_ t' rfl⟩
        rw [← hn, List.length_append, List.length_cons]
        omega

theorem IsSegment.cut {l : List α} (h : IsSegment sep l) (t : List α) :
    cut sep (l ++ t) = (l :: (cut sep t).1, (cut sep t).2) := by
  obtain ⟨w, rfl, hw⟩ := h
  rw [List.append_assoc, List.singleton_append, cut_of_mem hw]

/-- **A stream is cut where it was put together.** -/
theorem cut_segments {ls : List (List α)} (h : ∀ l ∈ ls, IsSegment sep l) (t : List α) :
    cut sep (ls.flatten ++ t) = (ls ++ (cut sep t).1, (cut sep t).2) := by
  induction ls with
  | nil => rfl
  | cons l ls ih =>
      rw [List.flatten_cons, List.append_assoc, (h l List.mem_cons_self).cut,
        ih fun l' hl => h l' (List.mem_cons_of_mem l hl)]
      rfl

/-- **What has been received** is cut into the first segments of the stream, and what is left over is a
part of the next that is not all of it. -/
theorem cut_received {ls : List (List α)} (h : ∀ l ∈ ls, IsSegment sep l) {t u : List α}
    (ht : t ++ u = ls.flatten) : ∃ front rest, ls = front ++ rest ∧ cut sep t = (front, (cut sep t).2) ∧
      (cut sep t).2 ++ u = rest.flatten ∧ ∀ l ∈ rest.head?, (cut sep t).2.length < l.length := by
  induction ls generalizing t with
  | nil =>
      obtain ⟨rfl, rfl⟩ := List.append_eq_nil_iff.mp ht
      exact ⟨[], [], rfl, rfl, rfl, nofun⟩
  | cons l ls ih =>
      rw [List.flatten_cons] at ht
      by_cases hle : l.length ≤ t.length
      · obtain ⟨t', rfl⟩ : l <+: t :=
          List.prefix_of_prefix_length_le ⟨ls.flatten, rfl⟩ ⟨u, ht⟩ hle
        rw [List.append_assoc] at ht
        obtain ⟨front, rest, rfl, hc, hu, hr⟩ :=
          ih (fun l' hl => h l' (List.mem_cons_of_mem l hl)) (List.append_cancel_left ht)
        rw [(h l List.mem_cons_self).cut]
        exact ⟨l :: front, rest, rfl, by rw [hc], hu, hr⟩
      · -- the first segment has not come to its end
        have hno : sep ∉ t := by
          obtain ⟨w, rfl, hw⟩ := h l List.mem_cons_self
          rw [List.length_append, List.length_singleton] at hle
          have hpre : t <+: w := by
            refine List.prefix_of_prefix_length_le ⟨u, ht⟩ ⟨[sep] ++ ls.flatten, ?_⟩ (by omega)
            rw [List.append_assoc]
          exact fun hm => hw (hpre.subset hm)
        rw [cut_of_notMem hno]
        refine ⟨[], l :: ls, rfl, rfl, ht, fun l' hl => ?_⟩
        cases hl
        exact Nat.lt_of_not_le hle

theorem cut_received_all {ls : List (List α)} (h : ∀ l ∈ ls, IsSegment sep l) :
    cut sep ls.flatten = (ls, []) := by
  have hc := cut_segments h []
  rwa [List.append_nil, cut, List.append_nil] at hc

/-- **What comes next**: the segments that a further piece brings to their end. -/
theorem cut_next {ls : List (List α)} (h : ∀ l ∈ ls, IsSegment sep l) {t c u : List α}
    (ht : t ++ c ++ u = ls.flatten) : ∃ mid rest, ls = (cut sep t).1 ++ (mid ++ rest) ∧
      (cut sep ((cut sep t).2 ++ c)).1 = mid := by
  rw [List.append_assoc] at ht
  obtain ⟨front, rest, rfl, hfront, hrest, -⟩ := cut_received h ht
  rw [← List.append_assoc] at hrest
  obtain ⟨mid, rest', rfl, hmid, -⟩ :=
    cut_received (fun l hl => h l (List.mem_append_right front hl)) hrest
  exact ⟨mid, rest', by rw [hfront], by rw [hmid]⟩

/-! ## One after the other -/

section Chain

variable {β S : Type} (Q : β → S → S → Prop)

/-- What may become of a state when every one of a list does something to it. -/
def Chain : List β → S → S → Prop
  | [], s, s' => s' = s
  | b :: bs, s, s' => ∃ t, Q b s t ∧ Chain bs t s'

variable {Q}

theorem chain_append {bs cs : List β} {s s' : S} :
    Chain Q (bs ++ cs) s s' ↔ ∃ t, Chain Q bs s t ∧ Chain Q cs t s' := by
  induction bs generalizing s with
  | nil => exact ⟨fun h => ⟨s, rfl, h⟩, fun ⟨t, ht, h⟩ => ht ▸ h⟩
  | cons b bs ih =>
      constructor
      · rintro ⟨t, hb, h⟩
        obtain ⟨u, hu, hc⟩ := ih.mp h
        exact ⟨u, ⟨t, hb, hu⟩, hc⟩
      · rintro ⟨u, ⟨t, hb, hu⟩, hc⟩
        exact ⟨t, hb, ih.mpr ⟨u, hu, hc⟩⟩

theorem Chain.image {γ U : Type} {R : γ → U → U → Prop} {f : γ → β} {g : S → U} {cs : List γ}
    (hQ : ∀ c ∈ cs, ∀ s s', Q (f c) s s' → R c (g s) (g s')) {s s' : S} (h : Chain Q (cs.map f) s s') :
    Chain R cs (g s) (g s') := by
  induction cs generalizing s with
  | nil => exact congrArg g h
  | cons c cs ih =>
      obtain ⟨t, hc, h⟩ := h
      exact ⟨g t, hQ c List.mem_cons_self s t hc, ih (fun c' hc' => hQ c' (List.mem_cons_of_mem c hc')) h⟩

end Chain

section Handlers

variable {S : Type} {view : S → Ptr} {h : Ptr → ℕ → S → Res S} {I : S → Prop} {T : List UInt8}
  (hview : ∀ s, I s → (view s).take T.length = T) (hI : ∀ p n s s', I s → h p n s = .ok s' → I s')

include hview

theorem view_drop {pre w rest : List UInt8} {s : S} (hs : I s) (hT : T = pre ++ (w ++ rest)) :
    (view s).drop pre.length = w ++ (rest ++ (view s).drop T.length) := by
  have hv := List.take_append_drop T.length (view s)
  rw [hview s hs] at hv
  conv_lhs => rw [← hv]
  rw [hT, List.append_assoc, List.append_assoc, List.drop_left]

include hI

/-- **What the handlers do, one after the other.** -/
theorem handAll_chain {Q : List UInt8 → S → S → Prop} {ws : List (List UInt8)}
    (hQ : ∀ w ∈ ws, ∀ r s s', I s → h (w ++ r) w.length s = .ok s' → Q w s s') {p t : List UInt8}
    {s s' : S} (hT : T = p ++ (ws.flatten ++ t)) (hs : I s)
    (hr : (handAll view h ws p.length s).2 = .ok s') : Chain Q ws s s' := by
  induction ws generalizing p s with
  | nil =>
      cases hr
      rfl
  | cons w ws ih =>
      rw [List.flatten_cons, List.append_assoc] at hT
      rw [handAll, view_drop hview hs hT] at hr
      cases he : h (w ++ (ws.flatten ++ t ++ (view s).drop T.length)) w.length s with
      | error e =>
          rw [he] at hr
          cases hr
      | ok s₁ =>
          rw [he, ← List.length_append] at hr
          exact ⟨s₁, hQ w List.mem_cons_self _ s s₁ hs he,
            ih (fun w' hw => hQ w' (List.mem_cons_of_mem w hw)) (by rw [hT, List.append_assoc])
              (hI _ _ _ _ hs he) hr⟩

/-- **Handlers that come back from every segment**, where that may depend on what those before have left. -/
theorem handAll_goes {G : List (List UInt8) → S → Prop}
    (hG : ∀ w ws r s, I s → G (w :: ws) s → ∃ s', h (w ++ r) w.length s = .ok s' ∧ G ws s') {ws : List (List UInt8)}
    {p t : List UInt8} {s : S} (hT : T = p ++ (ws.flatten ++ t)) (hs : I s) (h0 : G ws s) :
    ∃ s', (handAll view h ws p.length s).2 = .ok s' ∧ G [] s' := by
  induction ws generalizing p s with
  | nil => exact ⟨s, rfl, h0⟩
  | cons w ws ih =>
      rw [List.flatten_cons, List.append_assoc] at hT
      rw [handAll, view_drop hview hs hT]
      obtain ⟨s₁, he, h₁⟩ := hG w ws (ws.flatten ++ t ++ (view s).drop T.length) s hs h0
      rw [he, ← List.length_append]
      exact ih (by rw [hT, List.append_assoc]) (hI _ _ _ _ hs he) h₁

theorem handAll_returns {ws : List (List UInt8)}
    (hok : ∀ w ∈ ws, ∀ r s, I s → ∃ s', h (w ++ r) w.length s = .ok s') {p t : List UInt8} {s : S}
    (hT : T = p ++ (ws.flatten ++ t)) (hs : I s) : Handles view h ws p.length s := by
  obtain ⟨s', hs', -⟩ := handAll_goes hview hI (G := fun vs _ => ∀ w ∈ vs, w ∈ ws) (fun w vs r s hs hvs => by
    obtain ⟨hw, hvs⟩ := List.forall_mem_cons.mp hvs
    obtain ⟨s', he⟩ := hok w hw r s hs
    exact ⟨s', he, hvs⟩) hT hs fun _ hw => hw
  exact handles_iff.mpr ⟨s', hs'⟩

/-- **Handlers that come back from a segment** when they meet what `P` says. -/
theorem handles_of_each {P : Ptr → ℕ → S → Prop} {ws : List (List UInt8)}
    (hok : ∀ w ∈ ws, ∀ r s, P (w ++ r) w.length s → ∃ s', h (w ++ r) w.length s = .ok s') {p t : List UInt8} {s : S}
    (hT : T = p ++ (ws.flatten ++ t)) (hs : I s) (he : Each view h P ws p.length s) : Handles view h ws p.length s := by
  induction ws generalizing p s with
  | nil => trivial
  | cons w ws ih =>
      rw [List.flatten_cons, List.append_assoc] at hT
      rw [Each, view_drop hview hs hT] at he
      obtain ⟨hP, hnext⟩ := he
      obtain ⟨s₁, h₁⟩ := hok w List.mem_cons_self _ s hP
      rw [Handles, view_drop hview hs hT]
      have hnext := hnext s₁ h₁
      rw [← List.length_append] at hnext ⊢
      exact ⟨s₁, h₁, ih (fun v hv => hok v (List.mem_cons_of_mem w hv)) (by rw [hT, List.append_assoc])
        (hI _ _ _ _ hs h₁) hnext⟩

end Handlers

end Lines
