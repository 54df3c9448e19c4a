import Unserlob.Lib.Cursor
import Unserlob.Lib.Search

/-!
# Finding a header (`xmemmem`)

A window as long as the needle goes over the haystack, with the exclusive-or of its characters. A window
with the sum of the needle is compared, up to its last character.

* `sext`, `probe`, `rescan`, `xmemmem`;
* `charSum`, `charSum_shift`, **`eq_of_charSum`**: the sum settles the last character;
* `probe_spec`, **`rescan_spec`**: the two loops;
* `xmemmem_spec`: it is the search for the first occurrence; **`xmemmem_first`**: and returns where that ends.
-/

namespace Unserlob

open Cursor

/-- A `char` as an `unsigned int`. -/
def sext (c : UInt8) : BitVec 32 := BitVec.ofInt 32 c.toInt8.toInt

/-- The first loop: `hp`, `np`, `hsum`, `nsum` and `eqp`. -/
def probe : List UInt8 → List UInt8 → BitVec 32 → BitVec 32 → Bool →
    (List UInt8 × List UInt8) × (BitVec 32 × BitVec 32 × Bool)
  | h :: hp, n :: np, hsum, nsum, eqp => probe hp np (hsum ^^^ sext h) (nsum ^^^ sext n) (eqp && h == n)
  | hp, np, hsum, nsum, eqp => ((hp, np), (hsum, nsum, eqp))

/-- The second loop, with the place of `cand`. -/
def rescan (ndl : List UInt8) (nsum : BitVec 32) :
    List UInt8 → List UInt8 → BitVec 32 → ℕ → Res (Option ℕ)
  | c :: cand, h :: hp, hsum, i => do
    let hsum := hsum ^^^ sext c ^^^ sext h
    let found ← if hsum = nsum then memcmp cand ndl.dropLast else pure false
    if found then pure (some (i + 1 + ndl.length))
    else rescan ndl nsum cand hp hsum (i + 1)
  | _, _, _, _ => .ok none

/-- `xmemmem`, with the place behind the finding. -/
def xmemmem (hay ndl : List UInt8) : Res (Option ℕ) :=
  match ndl with
  | [] => .ok (some 0)
  | n :: np => do
    match ← memchr n hay hay.length with
    | none => pure none
    | some k =>
      let cand := hay.drop k
      let r := probe (cand.drop 1) np (sext n) (sext n) true
      if r.1.2 ≠ [] then pure none
      else if r.2.2.2 then pure (some (k + ndl.length))
      else rescan ndl r.2.2.1 cand r.1.1 r.2.1 k

theorem sext_injective {a b : UInt8} (h : sext a = sext b) : a = b := by
  have hbit : ∀ (c : UInt8) (i : ℕ), i < 8 → (sext c).getLsbD i = c.toBitVec.getLsbD i := by
    intro c i hi
    show (c.toBitVec.signExtend 32).getLsbD i = _
    rw [BitVec.getLsbD_signExtend]
    simp [hi, show i < 32 by omega]
  apply UInt8.toBitVec_inj.mp
  apply BitVec.eq_of_getLsbD_eq
  intro i hi
  rw [← hbit a i hi, h, hbit b i hi]

/-- The exclusive-or of some characters. -/
def charSum (w : List UInt8) : BitVec 32 := w.foldr (fun c x => sext c ^^^ x) 0

theorem charSum_append (u v : List UInt8) : charSum (u ++ v) = charSum u ^^^ charSum v := by
  induction u with
  | nil => exact (BitVec.zero_xor).symm
  | cons c u ih =>
      show sext c ^^^ charSum (u ++ v) = sext c ^^^ charSum u ^^^ charSum v
      rw [ih, BitVec.xor_assoc]

theorem charSum_singleton (c : UInt8) : charSum [c] = sext c := BitVec.xor_zero

theorem eq_of_charSum {w : List UInt8} {a b : UInt8} (h : charSum (w ++ [a]) = charSum (w ++ [b])) : a = b := by
  rw [charSum_append, charSum_append, charSum_singleton, charSum_singleton] at h
  apply sext_injective
  have := congrArg (charSum w ^^^ ·) h
  simpa [← BitVec.xor_assoc] using this

theorem charSum_shift (c h : UInt8) (w : List UInt8) :
    charSum (c :: w) ^^^ sext c ^^^ sext h = charSum (w ++ [h]) := by
  have hc : charSum (c :: w) ^^^ sext c = charSum w := by
    show sext c ^^^ charSum w ^^^ sext c = charSum w
    rw [BitVec.xor_comm (sext c), BitVec.xor_assoc, BitVec.xor_self, BitVec.xor_zero]
  rw [hc, charSum_append, charSum_singleton]

/-- **The first loop** compares the needle with the first window. -/
theorem probe_spec (np : List UInt8) : ∀ (hp : List UInt8) (hsum nsum : BitVec 32) (eqp : Bool),
    (np.length ≤ hp.length → probe hp np hsum nsum eqp = ((hp.drop np.length, []),
      (hsum ^^^ charSum (hp.take np.length), nsum ^^^ charSum np, eqp && decide (hp.take np.length = np)))) ∧
    (hp.length < np.length → (probe hp np hsum nsum eqp).1.2 ≠ []) := by
  induction np with
  | nil =>
      intro hp hsum nsum eqp
      refine ⟨fun _ => ?_, fun h => absurd h (Nat.not_lt_zero _)⟩
      cases hp <;> simp [probe, charSum]
  | cons n np ih =>
      intro hp hsum nsum eqp
      cases hp with
      | nil => exact ⟨fun h => absurd h (Nat.not_succ_le_zero _), fun _ => List.cons_ne_nil n np⟩
      | cons h hp =>
          obtain ⟨hle, hlt⟩ := ih hp (hsum ^^^ sext h) (nsum ^^^ sext n) (eqp && h == n)
          refine ⟨fun hl => ?_, fun hl => hlt (by simpa using hl)⟩
          rw [probe, hle (by simpa using hl)]
          simp only [List.length_cons, List.drop_succ_cons, List.take_succ_cons, BitVec.xor_assoc,
            List.cons.injEq, Bool.and_assoc, Bool.decide_and]
          rfl

theorem window_iff {ndl cand : List UInt8} (hne : ndl ≠ []) (hl : ndl.length ≤ cand.length) :
    charSum (cand.take ndl.length) = charSum ndl ∧ cand.take ndl.dropLast.length = ndl.dropLast ↔
      ndl <+: cand := by
  obtain ⟨w, b, rfl⟩ : ∃ w b, ndl = w ++ [b] := ⟨_, _, (List.dropLast_append_getLast hne).symm⟩
  rw [List.length_append, List.length_singleton] at hl
  have htake : cand.take (w ++ [b]).length = cand.take w.length ++ [cand[w.length]] := by
    rw [List.length_append, List.length_singleton, List.take_succ_eq_append_getElem (by omega)]
  rw [htake, List.dropLast_concat]
  constructor
  · rintro ⟨hs, ht⟩
    rw [ht] at hs htake
    rw [eq_of_charSum hs] at htake
    exact htake ▸ List.take_prefix _ _
  · intro hp
    have hall := (List.prefix_iff_eq_take.mp hp).symm.trans rfl
    rw [htake] at hall
    exact ⟨congrArg charSum hall, (List.append_inj' hall rfl).1⟩

theorem window_next {m : ℕ} {cand hp : List UInt8} {h : UInt8} (hd : cand.drop m = h :: hp) :
    m < cand.length ∧ cand.take (m + 1) = cand.take m ++ [h] ∧ hp = cand.drop (m + 1) := by
  have hlt : m < cand.length := by
    by_contra hge
    rw [List.drop_of_length_le (by omega)] at hd
    cases hd
  have hget := List.cons_getElem_drop_succ (h := hlt)
  rw [hd] at hget
  obtain ⟨hh, ht⟩ := List.cons.inj hget
  exact ⟨hlt, by rw [List.take_succ_eq_append_getElem hlt, hh], ht.symm⟩

/-- **The second loop** searches behind the window it starts with. -/
theorem rescan_spec {ndl : List UInt8} (hne : ndl ≠ []) (cand : List UInt8) : ∀ (i : ℕ),
    ndl.length ≤ cand.length → ¬ ndl <+: cand →
    rescan ndl (charSum ndl) cand (cand.drop ndl.length) (charSum (cand.take ndl.length)) i =
      .ok ((Search.search ndl cand).map (· + i + ndl.length)) := by
  induction cand with
  | nil =>
      intro i hl _
      exact absurd (List.length_eq_zero_iff.mp (Nat.le_zero.mp hl)) hne
  | cons c cand ih =>
      intro i hl hp
      obtain ⟨m, hm⟩ : ∃ m, ndl.length = m + 1 := ⟨ndl.length - 1, by
        have := List.length_pos_of_ne_nil hne
        omega⟩
      have hdl : ndl.dropLast.length = m := by rw [List.length_dropLast, hm, Nat.add_sub_cancel]
      rw [Search.search_cons hp, hm, List.drop_succ_cons, List.take_succ_cons]
      cases hd : cand.drop m with
      | nil =>
          -- the window was the last
          have hshort := List.drop_eq_nil_iff.mp hd
          rw [Search.search_eq_none_of_lt (show cand.length < ndl.length by omega)]
          rfl
      | cons h hp' =>
          obtain ⟨hlt, htake, hdrop⟩ := window_next hd
          rw [← hm] at htake hdrop
          have hm' := memcmp_eq (p := cand) (w := ndl.dropLast) (by omega)
          have hcond := window_iff hne (show ndl.length ≤ cand.length by omega)
          rw [rescan, charSum_shift, ← htake, hdrop]
          by_cases hn : ndl <+: cand
          · obtain ⟨hs, ht⟩ := hcond.mpr hn
            rw [if_pos hs, hm', Search.search_at_start hn, decide_eq_true ht]
            simp only [bind, Except.bind, if_pos, Option.map_some, Nat.zero_add, Nat.add_comm 1, hm]
            rfl
          · have hskip := ih (i + 1) (by omega) hn
            have hmap : ((Search.search ndl cand).map (· + 1)).map (· + i + (m + 1)) =
                (Search.search ndl cand).map (· + (i + 1) + ndl.length) := by
              rw [Option.map_map, hm]
              congr 1
              funext k
              simp only [Function.comp]
              omega
            rw [hmap, ← hskip]
            by_cases hs : charSum (cand.take ndl.length) = charSum ndl
            · rw [if_pos hs, hm', decide_eq_false fun ht => hn (hcond.mp ⟨hs, ht⟩)]
              rfl
            · rw [if_neg hs]
              rfl

theorem search_skip {n : UInt8} {np w : List UInt8} (hw : n ∉ w) (r : List UInt8) :
    Search.search (n :: np) (w ++ r) = (Search.search (n :: np) r).map (· + w.length) := by
  induction w with
  | nil => simp
  | cons c w ih =>
      rw [List.mem_cons, not_or] at hw
      have hp : ¬ n :: np <+: c :: (w ++ r) := fun h => hw.1 (List.cons_prefix_cons.mp h).1
      rw [List.cons_append, Search.search_cons hp, ih hw.2, Option.map_map]
      rfl

/-- **The first occurrence**: what is returned points behind it. -/
theorem xmemmem_spec (hay ndl : List UInt8) :
    xmemmem hay ndl = .ok ((Search.search ndl hay).map (· + ndl.length)) := by
  cases ndl with
  | nil =>
      rw [Search.search_at_start List.nil_prefix]
      rfl
  | cons n np =>
      have hne : n :: np ≠ [] := List.cons_ne_nil n np
      by_cases hn : n ∈ hay
      · obtain ⟨w, r, rfl, hw⟩ := List.eq_append_cons_of_mem hn
        have hchr : memchr n (w ++ n :: r) (w ++ n :: r).length = .ok (some w.length) :=
          memchr_append hw r (by simp)
        obtain ⟨hle, hlt⟩ := probe_spec np r (sext n) (sext n) true
        rw [xmemmem, hchr, search_skip hw]
        simp only [bind, Except.bind, List.drop_left, List.drop_succ_cons, List.drop_zero]
        by_cases hl : np.length ≤ r.length
        · simp only [hle hl, ne_eq, not_true_eq_false, if_false, Bool.true_and, decide_eq_true_eq]
          have hpre : r.take np.length = np ↔ n :: np <+: n :: r := by
            rw [List.cons_prefix_cons, List.prefix_iff_eq_take, eq_self, true_and, eq_comm]
          by_cases hp : n :: np <+: n :: r
          · rw [if_pos (hpre.mpr hp), Search.search_at_start hp, Option.map_some, Option.map_some, Nat.zero_add]
            rfl
          · rw [if_neg fun h => hp (hpre.mp h), Option.map_map]
            exact rescan_spec hne (n :: r) w.length (by simpa using hl) hp
        · have hshort : (n :: r).length < (n :: np).length := Nat.succ_lt_succ (not_le.mp hl)
          rw [if_pos (hlt (by omega)), Search.search_eq_none_of_lt hshort]
          rfl
      · have hnone : Search.search (n :: np) hay = none := by
          rw [Search.search_eq_none_iff]
          exact fun hin => hn (hin.subset List.mem_cons_self)
        have hchr := memchr_none hn []
        rw [List.append_nil] at hchr
        rw [xmemmem, hchr, hnone]
        rfl

/-- **The search stays in the two ranges**, finds something just where the needle occurs, and for a needle that is
not empty that is one past the end of its first occurrence. -/
theorem xmemmem_first (hay ndl : List UInt8) : ∃ r, xmemmem hay ndl = .ok r ∧ (r.isSome ↔ ndl <:+: hay) ∧
    ∀ p, r = some p → ndl ≠ [] →
      ∃ u v, hay = u ++ ndl ++ v ∧ p = (u ++ ndl).length ∧ ∀ q < u.length, ¬ ndl <+: hay.drop q := by
  refine ⟨_, xmemmem_spec hay ndl, ?_, ?_⟩
  · rw [Option.isSome_map, ← not_iff_not, ← Search.search_eq_none_iff, Option.not_isSome_iff_eq_none]
  · intro p hp _
    obtain ⟨i, hi, rfl⟩ := Option.map_eq_some_iff.mp hp
    obtain ⟨⟨u, v, huv, rfl⟩, hfirst⟩ := Search.search_eq_some_iff.mp hi
    exact ⟨u, v, huv, List.length_append.symm, hfirst⟩

end Unserlob
