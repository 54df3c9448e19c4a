import Unserlob.Lib.Cursor

/-!
# Cutting a stream into segments

A buffer is scanned for a separator, each segment found is handed to a handler, and what is left at
the end stays for the next read.

* `cut`: the terminated segments of a text and its unterminated rest; `cut_append`: cutting in two
  goes; `cut_of_mem`: cutting off the first segment;
* `scan`: the scanning loop, with the segments it has handed out also when a handler faults;
* `handAll`, **`scan_eq`**: the loop hands out the segments of the text one after the other, up to
  one whose handler faults; `Handles`, `Each`: when none does.
-/

namespace Lines

open Cursor

variable {α : Type} [DecidableEq α] (sep : α)

/-- The segments of a text, separators included, and what comes after the last. -/
def cut : List α → List (List α) × List α
  | [] => ([], [])
  | c :: t =>
    if c = sep then ([c] :: (cut t).1, (cut t).2)
    else
      match cut t with
      | ([], r) => ([], c :: r)
      | (l :: ls, r) => ((c :: l) :: ls, r)

variable {sep}

theorem cut_of_notMem {t : List α} (h : sep ∉ t) : cut sep t = ([], t) := by
  induction t with
  | nil => rfl
  | cons c t ih =>
      rw [List.mem_cons, not_or] at h
      rw [cut, if_neg (Ne.symm h.1), ih h.2]

theorem cut_of_mem {w t : List α} (h : sep ∉ w) :
    cut sep (w ++ sep :: t) = ((w ++ [sep]) :: (cut sep t).1, (cut sep t).2) := by
  induction w with
  | nil => rw [List.nil_append, cut, if_pos rfl]; rfl
  | cons c w ih =>
      rw [List.mem_cons, not_or] at h
      rw [List.cons_append, cut, if_neg (Ne.symm h.1), ih h.2]
      rfl

theorem notMem_or_split (sep : α) (t : List α) : sep ∉ t ∨ ∃ w t', t = w ++ sep :: t' ∧ sep ∉ w := by
  induction t with
  | nil => exact Or.inl List.not_mem_nil
  | cons c t ih =>
      by_cases hc : c = sep
      · exact Or.inr ⟨[], t, by rw [hc]; rfl, List.not_mem_nil⟩
      · rcases ih with h | ⟨w, t', rfl, hw⟩
        · exact Or.inl fun hm => (List.mem_cons.mp hm).elim (fun he => hc he.symm) h
        · exact Or.inr ⟨c :: w, t', rfl,
            fun hm => (List.mem_cons.mp hm).elim (fun he => hc he.symm) hw⟩

theorem cut_flatten (sep : α) (t : List α) : (cut sep t).1.flatten ++ (cut sep t).2 = t := by
  induction t with
  | nil => rfl
  | cons c t ih =>
      rw [cut]
      split_ifs with hc
      · simpa using ih
      · cases h : cut sep t with
        | mk ls r =>
            rw [h] at ih
            cases ls with
            | nil => simpa using ih
            | cons l ls => simpa using ih

theorem notMem_cut (t : List α) : sep ∉ (cut sep t).2 := by
  induction t with
  | nil => exact List.not_mem_nil
  | cons c t ih =>
      rw [cut]
      split_ifs with hc
      · exact ih
      · cases h : cut sep t with
        | mk ls r =>
            rw [h] at ih
            cases ls with
            | nil => exact fun hm => (List.mem_cons.mp hm).elim (fun he => hc he.symm) ih
            | cons l ls => exact ih

/-- **Cutting in two goes**: the rest of the first text goes on in the second. -/
theorem cut_append (s t : List α) : cut sep (s ++ t) =
    ((cut sep s).1 ++ (cut sep ((cut sep s).2 ++ t)).1, (cut sep ((cut sep s).2 ++ t)).2) := by
  induction s with
  | nil => simp [cut]
  | cons c s ih =>
      rw [List.cons_append, cut, cut]
      split_ifs with hc
      · rw [ih]
        rfl
      · rw [ih]
        cases h : cut sep s with
        | mk ls r =>
            cases ls with
            | nil =>
                simp only [List.nil_append, List.cons_append]
                rw [cut, if_neg hc]
            | cons l ls => rfl

theorem length_cut_le (sep : α) (t : List α) : (cut sep t).2.length ≤ t.length := by
  have h := congrArg List.length (cut_flatten sep t)
  rw [List.length_append] at h
  omega

theorem length_cut_lt {t : List α} (h : sep ∈ t) : (cut sep t).2.length < t.length := by
  rcases notMem_or_split sep t with hno | ⟨w, t', rfl, hw⟩
  · exact absurd h hno
  · have hle := length_cut_le sep t'
    rw [cut_of_mem hw]
    show (cut sep t').2.length < _
    rw [List.length_append, List.length_cons]
    omega

/-! ## The scanning loop -/

section Scan

variable {S : Type} (view : S → Ptr) (h : Ptr → ℕ → S → Res S)

/-- `for (; (x = memchr(buf + npr, sep, bof - npr)); npr = x + 1 - buf) h(buf + npr, x + 1 - (buf +
npr))`, for at most `fuel` turns, where the handler works on the state the buffer is part of: the
segments handed to it, and how far the loop gets. -/
def scan (sep : UInt8) (bof : ℕ) : ℕ → ℕ → S → List (List UInt8) × Res (ℕ × S)
  | 0, _, _ => ([], .error .loop)
  | fuel + 1, npr, s =>
    match memchr sep ((view s).drop npr) (bof - npr) with
    | .error e => ([], .error e)
    | .ok none => ([], .ok (npr, s))
    | .ok (some k) =>
      let p := (view s).drop npr
      match h p (k + 1) s with
      | .error e => ([p.take (k + 1)], .error e)
      | .ok s' =>
        let r := scan sep bof fuel (npr + (k + 1)) s'
        (p.take (k + 1) :: r.1, r.2)

/-- The segments handed out one after the other, the first of them `npr` bytes into the buffer. -/
def handAll : List (List UInt8) → ℕ → S → List (List UInt8) × Res S
  | [], _, s => ([], .ok s)
  | w :: ws, npr, s =>
    match h ((view s).drop npr) w.length s with
    | .error e => ([w], .error e)
    | .ok s' =>
      let r := handAll ws (npr + w.length) s'
      (w :: r.1, r.2)

/-- Every segment is handled. -/
def Handles : List (List UInt8) → ℕ → S → Prop
  | [], _, _ => True
  | w :: ws, npr, s => ∃ s', h ((view s).drop npr) w.length s = .ok s' ∧ Handles ws (npr + w.length) s'

/-- `P` holds of every segment when its turn comes. -/
def Each (P : Ptr → ℕ → S → Prop) : List (List UInt8) → ℕ → S → Prop
  | [], _, _ => True
  | w :: ws, npr, s => P ((view s).drop npr) w.length s ∧
      ∀ s', h ((view s).drop npr) w.length s = .ok s' → Each P ws (npr + w.length) s'

variable {view h}

/-- **The scan of a buffer that starts with `T` hands out the segments of `T`**, if a handler that is
given one of them keeps the buffer. -/
theorem scan_eq (sep : UInt8) {I : S → Prop} {T : List UInt8}
    (hview : ∀ s, I s → (view s).take T.length = T)
    (hI : ∀ p n s s', I s → h p n s = .ok s' → I s') :
    ∀ (fuel : ℕ) (pre t : List UInt8) (s : S), T = pre ++ t → t.length < fuel → I s →
      scan view h sep T.length fuel pre.length s =
        let r := handAll view h (cut sep t).1 pre.length s
        (r.1, r.2.map fun s' => (T.length - (cut sep t).2.length, s')) := by
  intro fuel
  induction fuel with
  | zero => exact fun pre t s _ hf => absurd hf (Nat.not_lt_zero _)
  | succ fuel ih =>
      intro pre t s hT hf hs
      -- what is behind the part already scanned
      have hdrop : (view s).drop pre.length = t ++ (view s).drop T.length := by
        have hv := List.take_append_drop T.length (view s)
        rw [hview s hs, hT, List.append_assoc] at hv
        conv_lhs => rw [← hv, List.drop_left]
        rw [hT]
      have hn : T.length - pre.length = t.length := by rw [hT, List.length_append]; omega
      rw [scan, hdrop, hn]
      rcases notMem_or_split sep t with hno | ⟨w, t', rfl, hw⟩
      · rw [memchr_none hno, cut_of_notMem hno, ← hn]
        have hpre : T.length - (T.length - pre.length) = pre.length := by
          rw [hT, List.length_append]; omega
        simp only [handAll, Except.map, hpre]
      · have hlen : (w ++ [sep]).length = w.length + 1 := by simp
        have hmem : memchr sep (w ++ sep :: t' ++ (view s).drop T.length) (w ++ sep :: t').length =
            .ok (some w.length) := by
          rw [List.append_assoc, List.cons_append]
          exact memchr_append hw _ (by simp)
        have htake : (w ++ sep :: t' ++ (view s).drop T.length).take (w.length + 1) = w ++ [sep] := by
          rw [← hlen]
          simp [List.take_append, List.take_of_length_le]
        rw [hmem, cut_of_mem hw]
        simp only [handAll, htake, hdrop, hlen]
        cases he : h (w ++ sep :: t' ++ (view s).drop T.length) (w.length + 1) s with
        | error e => rfl
        | ok s' =>
            have hT' : T = (pre ++ (w ++ [sep])) ++ t' := by rw [hT]; simp
            have hnext := ih (pre ++ (w ++ [sep])) t' s' hT'
              (by rw [List.length_append, List.length_cons] at hf; omega) (hI _ _ _ _ hs he)
            rw [List.length_append, hlen] at hnext
            simp only [hnext]

/-- **A scan that comes back** has looked at the whole text, so that all of it is in the memory. -/
theorem scan_bound {sep : UInt8} {I : S → Prop} {bof len : ℕ} (hlen : ∀ s, I s → (view s).length = len)
    (hI : ∀ p n s s', I s → h p n s = .ok s' → I s') {fuel npr npr' : ℕ} {s s' : S} (hn : npr ≤ bof)
    (hl : npr ≤ len) (hs : I s) (hr : (scan view h sep bof fuel npr s).2 = .ok (npr', s')) :
    I s' ∧ npr' ≤ bof ∧ bof ≤ len := by
  induction fuel generalizing npr s with
  | zero => cases hr
  | succ fuel ih =>
      have hdrop : ((view s).drop npr).length = len - npr := by rw [List.length_drop, hlen s hs]
      rw [scan] at hr
      cases hm : memchr sep ((view s).drop npr) (bof - npr) with
      | error e =>
          rw [hm] at hr
          cases hr
      | ok o =>
          rw [hm] at hr
          cases o with
          | none =>
              cases hr
              have hle := le_of_memchr_none hm
              exact ⟨hs, hn, by omega⟩
          | some k =>
              simp only at hr
              cases he : h ((view s).drop npr) (k + 1) s with
              | error e =>
                  rw [he] at hr
                  cases hr
              | ok s₁ =>
                  rw [he] at hr
                  have hk := lt_of_memchr hm
                  have hkn := memchr_lt hm
                  exact ih (by omega) (by omega) (hI _ _ _ _ hs he) hr

theorem scan_eq_nil {sep : UInt8} {t : List UInt8} {fuel : ℕ} {s : S} (ht : (view s).take t.length = t)
    (hn : (scan view h sep t.length (fuel + 1) 0 s).1 = []) : sep ∉ t := by
  rcases notMem_or_split sep t with hno | ⟨w, t', rfl, hw⟩
  · exact hno
  · have hview := List.take_append_drop (w ++ sep :: t').length (view s)
    rw [ht, List.append_assoc, List.cons_append] at hview
    have hmem : memchr sep (view s) (w ++ sep :: t').length = .ok (some w.length) := by
      rw [← hview]
      exact memchr_append hw _ (by simp)
    rw [scan, List.drop_zero, Nat.sub_zero, hmem] at hn
    simp only at hn
    cases he : h (view s) (w.length + 1) s with
    | error e =>
        rw [he] at hn
        cases hn
    | ok s₁ =>
        rw [he] at hn
        cases hn

theorem scan_of_notMem {sep : UInt8} {t : List UInt8} {fuel : ℕ} {s : S} (ht : (view s).take t.length = t)
    (hno : sep ∉ t) : scan view h sep t.length (fuel + 1) 0 s = ([], .ok (0, s)) := by
  have hview := List.take_append_drop t.length (view s)
  rw [ht] at hview
  have hmem : memchr sep (view s) t.length = .ok none := by
    rw [← hview]
    exact memchr_none hno _
  rw [scan, List.drop_zero, Nat.sub_zero, hmem]

theorem handAll_initial (ws : List (List UInt8)) (npr : ℕ) (s : S) :
    (handAll view h ws npr s).1 <+: ws := by
  induction ws generalizing npr s with
  | nil => exact List.prefix_refl _
  | cons w ws ih =>
      rw [handAll]
      cases h ((view s).drop npr) w.length s with
      | error e => exact ⟨ws, rfl⟩
      | ok s' => exact List.prefix_cons_inj w |>.mpr (ih _ _)

theorem handAll_all {ws : List (List UInt8)} {npr : ℕ} {s s' : S}
    (hr : (handAll view h ws npr s).2 = .ok s') : (handAll view h ws npr s).1 = ws := by
  induction ws generalizing npr s with
  | nil => rfl
  | cons w ws ih =>
      rw [handAll] at hr ⊢
      cases he : h ((view s).drop npr) w.length s with
      | error e => rw [he] at hr; cases hr
      | ok s₁ =>
          rw [he] at hr
          simp only at hr ⊢
          rw [ih hr]

theorem handAll_inv {I : S → Prop} (hI : ∀ p n s s', I s → h p n s = .ok s' → I s')
    {ws : List (List UInt8)} {npr : ℕ} {s s' : S} (hs : I s)
    (hr : (handAll view h ws npr s).2 = .ok s') : I s' := by
  induction ws generalizing npr s with
  | nil =>
      cases hr
      exact hs
  | cons w ws ih =>
      rw [handAll] at hr
      cases he : h ((view s).drop npr) w.length s with
      | error e => rw [he] at hr; cases hr
      | ok s₁ =>
          rw [he] at hr
          exact ih (hI _ _ _ _ hs he) hr

theorem handles_iff {ws : List (List UInt8)} {npr : ℕ} {s : S} :
    Handles view h ws npr s ↔ ∃ s', (handAll view h ws npr s).2 = .ok s' := by
  induction ws generalizing npr s with
  | nil => exact ⟨fun _ => ⟨s, rfl⟩, fun _ => trivial⟩
  | cons w ws ih =>
      rw [Handles, handAll]
      cases he : h ((view s).drop npr) w.length s with
      | error e => simp
      | ok s₁ =>
          simp only [Except.ok.injEq, exists_eq_left']
          exact ih

theorem each_iff {P : Ptr → ℕ → S → Prop} {I : S → Prop}
    (hP : ∀ p n s, I s → (P p n s ↔ ∃ s', h p n s = .ok s'))
    (hI : ∀ p n s s', I s → h p n s = .ok s' → I s') {ws : List (List UInt8)} {npr : ℕ} {s : S}
    (hs : I s) : Each view h P ws npr s ↔ Handles view h ws npr s := by
  induction ws generalizing npr s with
  | nil => exact Iff.rfl
  | cons w ws ih =>
      rw [Each, Handles, hP _ _ _ hs]
      refine ⟨fun ⟨⟨s', he⟩, hn⟩ => ?_, fun ⟨s', he, hn⟩ => ⟨⟨s', he⟩, fun s₁ h₁ => ?_⟩⟩
      · exact ⟨s', he, (ih (hI _ _ _ _ hs he)).mp (hn s' he)⟩
      · rw [he] at h₁
        cases h₁
        exact (ih (hI _ _ _ _ hs he)).mpr hn

end Scan

end Lines
