import Unserlob.Lib.Ascii
import Unserlob.Lib.Lines
import Unserlob.Lib.Writer

/-!
# The monitor (`lobmon.c`)

It repeats the lines of a datagram behind a prefix.

* `beefCb`: the source's function, from the prefix on, with what it gives to `write`;
* `repeated`: what is wanted; `Repeats`: also when the memory ends behind the datagram;
* `loop_line`, `loop_open`: one turn, for a line with its newline and for one without;
* **`repeats_iff`**: the datagram is repeated as long as its lines end, or it is one line, and the log takes them.
-/

namespace Unserlob

open Ascii Cursor Writer Lines

namespace Lobmon

/-- `memcpy(log + pre, buf + npr, len)` -/
def copyLine (log buf : List UInt8) (pre npr len : ℕ) : Res (List UInt8) :=
  if npr + len ≤ buf.length then splice log pre (slice buf npr len) else .error .read

/-- `for (size_t npr = 0U, len; npr < (size_t)nrd; npr += len)` -/
def beefLoop (buf : List UInt8) (nrd pre : ℕ) : ℕ → ℕ → List UInt8 → Res (List (List UInt8))
  | 0, _, _ => .error .loop
  | fuel + 1, npr, log =>
    if npr < nrd then do
      let eol ← memchr (ch '\n') (buf.drop npr) (nrd - npr)
      -- determine line length
      let len := eol.getD nrd
      -- move into place
      let log ← copyLine log buf pre npr len
      let log ← splice log (pre + len) [ch '\n']
      let outs ← beefLoop buf nrd pre fuel (npr + (len + 1)) log
      pure (log.take (pre + (len + 1)) :: outs)
    else pure []

/-- `beef_cb` with `nrd` bytes read to `buf` and a prefix in the log. -/
def beefCb (buf : List UInt8) (nrd : ℕ) (pfx rest : List UInt8) : Res (List (List UInt8)) :=
  beefLoop buf nrd pfx.length (nrd + 1) 0 (pfx ++ rest)

/-- Every line behind the prefix, with a newline. -/
def repeated (pfx d : List UInt8) : List (List UInt8) :=
  (cut (ch '\n') d).1.map (pfx ++ ·) ++
    if (cut (ch '\n') d).2 = [] then [] else [pfx ++ ((cut (ch '\n') d).2 ++ [ch '\n'])]

/-- **What is wanted**: the lines are repeated, and no byte behind the datagram is read. -/
def Repeats (pfx rest d junk : List UInt8) : Prop :=
  beefCb (d ++ junk) d.length pfx rest = .ok (repeated pfx d) ∧ beefCb d d.length pfx rest = .ok (repeated pfx d)

theorem repeated_of_notMem {pfx t : List UInt8} (h : ch '\n' ∉ t) (hne : t ≠ []) :
    repeated pfx t = [pfx ++ (t ++ [ch '\n'])] := by
  rw [repeated, cut_of_notMem h, if_neg hne]
  rfl

theorem repeated_line {pfx w t : List UInt8} (h : ch '\n' ∉ w) :
    repeated pfx (w ++ ch '\n' :: t) = (pfx ++ (w ++ [ch '\n'])) :: repeated pfx t := by
  rw [repeated, cut_of_mem h]
  rfl

/-! ## One line -/

variable (pfx : List UInt8) {r w t buf : List UInt8} {nrd npr : ℕ} (fuel : ℕ)

theorem splice_append (h : w.length ≤ r.length) : splice (pfx ++ r) pfx.length w = .ok (pfx ++ (w ++ r.drop w.length)) := by
  rw [splice_ok (by rw [List.length_append]; omega), List.take_left, ← List.drop_drop, List.drop_left, List.append_assoc]

theorem splice_line (h : w.length + 1 ≤ r.length) : ∃ r', r'.length = r.length ∧
    (splice (pfx ++ r) pfx.length w >>= fun log => splice log (pfx.length + w.length) [ch '\n']) = .ok (pfx ++ r') ∧
    (pfx ++ r').take (pfx.length + (w.length + 1)) = pfx ++ (w ++ [ch '\n']) := by
  have hlen : (pfx ++ (w ++ [ch '\n'])).length = pfx.length + (w.length + 1) := by simp
  refine ⟨w ++ ([ch '\n'] ++ (r.drop w.length).drop 1), ?_, ?_, ?_⟩
  · simp
    omega
  · rw [splice_append pfx (by omega)]
    show splice (pfx ++ (w ++ r.drop w.length)) _ _ = _
    rw [← List.append_assoc, ← List.length_append, splice_append _ (by simp; omega), List.append_assoc]
    rfl
  · rw [← List.append_assoc w, ← List.append_assoc pfx, List.take_left' hlen]

theorem splice_long (h : r.length < w.length + 1) :
    (splice (pfx ++ r) pfx.length w >>= fun log => splice log (pfx.length + w.length) [ch '\n']) = .error .store := by
  by_cases hw : w.length ≤ r.length
  · rw [splice_append pfx hw]
    exact splice_fault (List.cons_ne_nil _ _) (by simp; omega)
  · rw [splice_fault (List.ne_nil_of_length_pos (by omega)) (by rw [List.length_append]; omega)]
    rfl

theorem loop_turn (r : List UInt8) (hlt : npr < nrd) {eol : Option ℕ} (heol : memchr (ch '\n') (buf.drop npr) (nrd - npr) = .ok eol)
    (hw : slice buf npr (eol.getD nrd) = w) (hlen : w.length = eol.getD nrd) (hin : npr + w.length ≤ buf.length) :
    beefLoop buf nrd pfx.length (fuel + 1) npr (pfx ++ r) =
      ((splice (pfx ++ r) pfx.length w >>= fun log => splice log (pfx.length + w.length) [ch '\n']) >>= fun log =>
        beefLoop buf nrd pfx.length fuel (npr + (w.length + 1)) log >>= fun outs =>
        pure (log.take (pfx.length + (w.length + 1)) :: outs)) := by
  rw [beefLoop, if_pos hlt, heol]
  show (copyLine _ _ _ _ (eol.getD nrd) >>= _) = _
  rw [copyLine, if_pos (by rw [← hlen]; exact hin), hw, ← hlen, bind_assoc]

theorem loop_done (h : nrd ≤ npr) (log : List UInt8) : beefLoop buf nrd pfx.length (fuel + 1) npr log = .ok [] :=
  if_neg (by omega)

/-! ## The loop -/

/-- The condition on what is left of a datagram at `npr`: lines are no longer than there is room for, and a byte
without a newline behind it is in the first. -/
def Fits (room npr : ℕ) (t : List UInt8) : Prop :=
  (∀ w ∈ (cut (ch '\n') t).1, w.length ≤ room) ∧
    ((cut (ch '\n') t).2 = [] ∨ npr = 0 ∧ (cut (ch '\n') t).1 = [] ∧ (cut (ch '\n') t).2.length + 1 ≤ room)

theorem fits_line {room npr : ℕ} (h : ch '\n' ∉ w) :
    Fits room npr (w ++ ch '\n' :: t) ↔ w.length + 1 ≤ room ∧ Fits room (npr + (w.length + 1)) t := by
  rw [Fits, Fits, cut_of_mem h, List.forall_mem_cons, List.length_append, List.length_singleton, and_assoc]
  refine and_congr_right fun _ => and_congr_right fun _ => or_congr_right ?_
  exact iff_of_false (fun hc => List.cons_ne_nil _ _ hc.2.1) fun hc => absurd hc.1 (by omega)

theorem fits_open {room npr : ℕ} (h : ch '\n' ∉ t) (hne : t ≠ []) :
    Fits room npr t ↔ npr = 0 ∧ t.length + 1 ≤ room := by
  rw [Fits, cut_of_notMem h]
  refine ⟨fun hc => (hc.2.resolve_left hne).imp_right And.right, fun hc => ⟨fun w hw => ?_, Or.inr ⟨hc.1, rfl, hc.2⟩⟩⟩
  exact absurd hw List.not_mem_nil

theorem loop_line (r : List UInt8) {P junk : List UInt8} (hbuf : buf = P ++ ((w ++ ch '\n' :: t) ++ junk)) (hw : ch '\n' ∉ w)
    (hnrd : nrd = P.length + (w ++ ch '\n' :: t).length) :
    (w.length + 1 ≤ r.length → ∃ r', r'.length = r.length ∧
      beefLoop buf nrd pfx.length (fuel + 1) P.length (pfx ++ r) =
        (beefLoop buf nrd pfx.length fuel (P.length + (w.length + 1)) (pfx ++ r')).map
          ((pfx ++ (w ++ [ch '\n'])) :: ·)) ∧
    (r.length < w.length + 1 → beefLoop buf nrd pfx.length (fuel + 1) P.length (pfx ++ r) = .error .store) := by
  rw [List.length_append, List.length_cons] at hnrd
  have hdrop : buf.drop P.length = w ++ ch '\n' :: (t ++ junk) := by
    rw [hbuf, List.drop_left, List.append_assoc, List.cons_append]
  have heol : memchr (ch '\n') (buf.drop P.length) (nrd - P.length) = .ok (some w.length) := by
    rw [hdrop]
    exact memchr_append hw _ (by omega)
  have hslice : slice buf P.length w.length = w := by rw [slice, hdrop, List.take_left]
  have hin : P.length + w.length ≤ buf.length := by
    rw [hbuf, List.length_append, List.length_append, List.length_append]
    omega
  have hturn := loop_turn pfx fuel r (by omega) heol hslice rfl hin
  constructor
  · intro h
    obtain ⟨r', hr', hput, htake⟩ := splice_line pfx h
    refine ⟨r', hr', ?_⟩
    rw [hturn, hput]
    show (_ >>= fun outs => (pure ((pfx ++ r').take _ :: outs) : Res (List (List UInt8)))) = _
    rw [htake]
    cases beefLoop buf nrd pfx.length fuel (P.length + (w.length + 1)) (pfx ++ r') <;> rfl
  · intro h
    rw [hturn, splice_long pfx h]
    rfl

/-- The rest of a datagram without a newline: all that was received is counted from there on. -/
theorem loop_open {P junk : List UInt8} (hbuf : buf = P ++ (t ++ junk)) (ht : ch '\n' ∉ t) (hne : t ≠ [])
    (hnrd : nrd = P.length + t.length) (hfuel : t.length < fuel + 1) :
    beefLoop buf nrd pfx.length (fuel + 1) P.length (pfx ++ r) = .ok [pfx ++ (t ++ [ch '\n'])] ↔
      P.length = 0 ∧ t.length + 1 ≤ r.length := by
  have hdrop : buf.drop P.length = t ++ junk := by rw [hbuf, List.drop_left]
  have hpos := List.length_pos_iff.mpr hne
  have hlen : buf.length = P.length + (t.length + junk.length) := by rw [hbuf, List.length_append, List.length_append]
  have heol : memchr (ch '\n') (buf.drop P.length) (nrd - P.length) = .ok none := by
    rw [hdrop, hnrd, Nat.add_sub_cancel_left]
    exact memchr_none ht junk
  by_cases hin : P.length + nrd ≤ buf.length
  · have hw : (slice buf P.length nrd).length = nrd := by
      rw [slice, List.length_take, List.length_drop]
      omega
    have hturn := loop_turn pfx fuel r (by omega) heol rfl hw (by rw [Option.getD_none, hw]; exact hin)
    rw [Option.getD_none] at hturn
    by_cases hroom : nrd + 1 ≤ r.length
    · obtain ⟨r', hr', hput, htake⟩ := splice_line pfx ((Nat.succ_le_succ hw.le).trans hroom)
      obtain ⟨f, rfl⟩ : ∃ f, fuel = f + 1 := ⟨fuel - 1, by omega⟩
      have hout : beefLoop buf nrd pfx.length (f + 1 + 1) P.length (pfx ++ r) =
          .ok [pfx ++ (slice buf P.length nrd ++ [ch '\n'])] := by
        rw [hturn, hput]
        show (beefLoop _ _ _ _ _ _ >>= _) = _
        rw [loop_done pfx f (by omega), htake]
        rfl
      rw [hout]
      constructor
      · intro he
        have hs := congrArg (fun outs => (outs.map List.length).sum) (Except.ok.inj he)
        simp only [List.map_cons, List.map_nil, List.sum_cons, List.sum_nil, List.length_append, hw] at hs
        omega
      · rintro ⟨hP, -⟩
        rw [slice, hdrop, hnrd, hP, Nat.zero_add, List.take_left]
    · rw [hturn, splice_long pfx (by omega)]
      exact iff_of_false (fun he => by cases he) fun hc => by omega
  · have hfault : beefLoop buf nrd pfx.length (fuel + 1) P.length (pfx ++ r) = .error .read := by
      rw [beefLoop, if_pos (by omega), heol]
      show (copyLine _ _ _ _ nrd >>= _) = _
      rw [copyLine, if_neg hin]
      rfl
    rw [hfault]
    exact iff_of_false (fun he => by cases he) fun hc => by omega

theorem loop_iff (P junk : List UInt8) (hbuf : buf = P ++ (t ++ junk)) (hnrd : nrd = P.length + t.length)
    (hfuel : t.length < fuel) :
    beefLoop buf nrd pfx.length fuel P.length (pfx ++ r) = .ok (repeated pfx t) ↔ Fits r.length P.length t := by
  induction fuel generalizing P t r with
  | zero => exact absurd hfuel (Nat.not_lt_zero _)
  | succ fuel ih =>
      rcases notMem_or_split (ch '\n') t with hno | ⟨w, t', rfl, hw⟩
      · by_cases hne : t = []
        · subst hne
          exact iff_of_true (loop_done pfx fuel (by rw [hnrd]; exact le_rfl) _) ⟨nofun, Or.inl rfl⟩
        · rw [repeated_of_notMem hno hne, loop_open pfx fuel hbuf hno hne hnrd hfuel, fits_open hno hne]
      · have hlen := hnrd
        have hP : (P ++ (w ++ [ch '\n'])).length = P.length + (w.length + 1) := by simp
        rw [List.length_append, List.length_cons] at hlen hfuel
        obtain ⟨hroom, hlong⟩ := loop_line pfx fuel r hbuf hw hnrd
        rw [repeated_line hw, fits_line hw]
        by_cases h : w.length + 1 ≤ r.length
        · obtain ⟨r', hr', heq⟩ := hroom h
          have hnext := ih (P := P ++ (w ++ [ch '\n'])) (t := t') (r := r') (by rw [hbuf]; simp) (by rw [hP, hlen]; omega)
            (by omega)
          rw [hP, hr'] at hnext
          rw [heq, map_ok, and_iff_right h, ← hnext]
          refine ⟨fun ⟨outs, ho, he⟩ => by rw [ho, (List.cons.inj he).2], fun ho => ⟨_, ho, rfl⟩⟩
        · rw [hlong (by omega)]
          exact iff_of_false nofun fun hc => h hc.1

/-- **The datagram is repeated** just when the log takes every line and no byte of a second line is without a newline
behind it. -/
theorem repeats_iff {pfx rest : List UInt8} (hlog : (pfx ++ rest).length = 1536) (d junk : List UInt8) :
    Repeats pfx rest d junk ↔ (∀ w ∈ (cut (ch '\n') d).1, pfx.length + w.length ≤ 1536) ∧
      ((cut (ch '\n') d).2 = [] ∨ (cut (ch '\n') d).1 = [] ∧ pfx.length + (cut (ch '\n') d).2.length + 1 ≤ 1536) := by
  have hcb : ∀ junk : List UInt8, beefCb (d ++ junk) d.length pfx rest = .ok (repeated pfx d) ↔ Fits rest.length 0 d :=
    fun junk => loop_iff pfx _ [] junk rfl (Nat.zero_add _).symm (Nat.lt_succ_self _)
  have hmem := hcb []
  rw [List.append_nil] at hmem
  rw [Repeats, hcb junk, hmem, and_self, Fits]
  rw [List.length_append] at hlog
  refine and_congr (forall₂_congr fun w _ => ⟨fun h => by omega, fun h => by omega⟩) (or_congr_right ?_)
  rw [and_iff_right rfl]
  exact and_congr_right fun _ => ⟨fun h => by omega, fun h => by omega⟩

/-- A prefix and two lines, the second without a newline. -/
theorem repeats_iff_twoLines :
    Repeats [ch 'p'] (List.replicate 1535 0) [ch 'A', ch '\n', ch 'B'] (List.replicate 1533 0) ↔
      (∀ w ∈ (cut (ch '\n') [ch 'A', ch '\n', ch 'B']).1, [ch 'p'].length + w.length ≤ 1536) ∧
      ((cut (ch '\n') [ch 'A', ch '\n', ch 'B']).2 = [] ∨ (cut (ch '\n') [ch 'A', ch '\n', ch 'B']).1 = [] ∧
        [ch 'p'].length + (cut (ch '\n') [ch 'A', ch '\n', ch 'B']).2.length + 1 ≤ 1536) :=
  repeats_iff (by rw [List.length_append, List.length_replicate]; rfl) _ _

/-- Two bytes behind the datagram are printed with its second line. -/
theorem twoLines_junk :
    beefCb ([ch 'A', ch '\n', ch 'B'] ++ List.replicate 1533 0) 3 [ch 'p'] (List.replicate 1535 0) =
      .ok [[ch 'p', ch 'A', ch '\n'], [ch 'p', ch 'B', 0, 0, ch '\n']] ∧
    ¬ Repeats [ch 'p'] (List.replicate 1535 0) [ch 'A', ch '\n', ch 'B'] (List.replicate 1533 0) := by
  have h : beefCb ([ch 'A', ch '\n', ch 'B'] ++ List.replicate 1533 0) 3 [ch 'p'] (List.replicate 1535 0) =
      .ok [[ch 'p', ch 'A', ch '\n'], [ch 'p', ch 'B', 0, 0, ch '\n']] := by
    decide +kernel
  refine ⟨h, fun hc => ?_⟩
  exact absurd (h.symm.trans hc.1) (by decide +kernel)

end Lobmon

end Unserlob
