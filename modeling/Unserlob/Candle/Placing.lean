import Mathlib.Algebra.Order.Ring.WithTop
import Unserlob.Candle.Tables
import Unserlob.Exchange.Hash
import Unserlob.Lib.Run

/-!
# The row of a quote (`beef_cb`)

Contracts are named on the command line, or collected as their quotes come in; a catch-all takes what is
not named.

* `OnlyCatchall`: the command lines that name no contract; `Cch.Mode`: what a command line fixes;
* **`CchLib.route`**: the row that a quote should use; `CchLib.see`, `seenAfter`: the known contracts;
* `cchMain_spec`: the tables at the start; `growBooks_spec`, **`place_spec`**: the row of a quote;
* `cchMachine`: quotes and snapshots in any order; **`reached`**, `runs_exists`: its states;
* `Cch.Booked`: what is wanted of a quote; **`booked_iff`**: quotes are booked as wanted just for the
  other command lines.
-/

namespace Unserlob

open Ascii Cursor Table ForLoop

variable {Bk A : Type}

/-- The hashes in `conx[0 … nbook)`. -/
def Cch.seen (s : Cch Bk A) : List (BitVec 32) := s.conx.take s.nbook

/-- The hashes of the contracts on the command line. -/
def namedHashes (L : CchLib Bk A) (args : List (List UInt8)) : List (BitVec 32) :=
  (args.filter fun a => !isCatchall a).map L.hash

/-- There is a command line, and no contract on it. -/
def OnlyCatchall (args : List (List UInt8)) : Prop := args ≠ [] ∧ ∀ a ∈ args, isCatchall a = true

instance : DecidablePred OnlyCatchall := fun _ => inferInstanceAs (Decidable (_ ∧ _))

/-- **The row of a quote**: that of its contract if there is one, else the catch-all if there is one, else
a new one without a command line. -/
def CchLib.route (L : CchLib Bk A) (args : List (List UInt8)) (seen : List (BitVec 32)) (q : Xquo) :
    Option ℕ :=
  if L.hash q.ins ∈ seen then some (seen.idxOf (L.hash q.ins))
  else if args = [] ∨ args.any isCatchall = true then some seen.length
  else none

/-- The contracts that are known after a quote. -/
def CchLib.see (L : CchLib Bk A) (args : List (List UInt8)) (seen : List (BitVec 32)) (q : Xquo) :
    List (BitVec 32) :=
  if args = [] ∧ L.hash q.ins ∉ seen then seen ++ [L.hash q.ins] else seen

/-- **What the command line fixes** for the whole run. -/
structure Cch.Mode (L : CchLib Bk A) (args : List (List UInt8)) (s : Cch Bk A) : Prop where
  ok : ∃ rows, s.Ok rows
  auto : s.zbook ≠ 0 ↔ args = []
  catchall : s.nctch ≠ 0 ↔ args.any isCatchall = true
  named : args ≠ [] → s.seen = namedHashes L args
  nodup : args = [] → s.seen.Nodup

theorem take_set_succ {α : Type} {l : List α} {j : ℕ} (h : j < l.length) (a : α) :
    (l.set j a).take (j + 1) = l.take j ++ [a] := by
  rw [List.take_add_one, List.getElem?_set_self h, List.take_set_of_le le_rfl]
  rfl

theorem length_seen {s : Cch Bk A} {rows : ℕ} (h : s.Ok rows) : s.seen.length = s.nbook := by
  have := h.room
  rw [Cch.seen, List.length_take, h.conx]
  omega

theorem namedHashes_cons (L : CchLib Bk A) (a : List UInt8) (args : List (List UInt8)) :
    namedHashes L (a :: args) =
      if isCatchall a = true then namedHashes L args else L.hash a :: namedHashes L args := by
  by_cases ha : isCatchall a = true <;> simp [namedHashes, ha]

theorem length_namedHashes (L : CchLib Bk A) (args : List (List UInt8)) :
    (namedHashes L args).length ≤ args.length ∧
      ((namedHashes L args).length < args.length ↔ args.any isCatchall = true) := by
  induction args with
  | nil => simp [namedHashes]
  | cons a args ih =>
      have hle := ih.1
      rw [namedHashes_cons, List.any_cons, List.length_cons]
      by_cases ha : isCatchall a = true
      · rw [if_pos ha, ha, Bool.true_or]
        exact ⟨by omega, fun _ => rfl, fun _ => by omega⟩
      · rw [if_neg ha, Bool.eq_false_iff.mpr ha, Bool.false_or, List.length_cons, ← ih.2]
        omega

theorem alloc_ok (m : Junk Bk A) {n nbook zbook : ℕ} (hn : nbook ≤ n) (hz : zbook ≠ 0 → zbook = n) :
    (alloc m n nbook zbook).Ok n := by
  refine ⟨hn, ?_, ?_, ?_, ?_, Nat.succ_pos 60, fun h => ⟨hz h, rfl⟩⟩ <;> simp [alloc]

section Start

variable [NonUnitalNonAssocSemiring A] {L : CchLib Bk A} {s : Cch Bk A} {rows : ℕ}

/-- **The named contracts** get the first rows. -/
theorem named_spec (args : List (List UInt8)) : ∀ (j : ℕ) (s : Cch Bk A), s.Ok rows →
    j + args.length ≤ rows → (∀ k < j, s.Empty k) →
    ∃ s', named L args j s = .ok (j + (namedHashes L args).length, s') ∧ s'.Ok rows ∧
      s'.conx.take (j + (namedHashes L args).length) = s.conx.take j ++ namedHashes L args ∧
      s'.nbook = s.nbook ∧ s'.zbook = s.zbook ∧ s'.nctch = s.nctch ∧ s'.iper = s.iper ∧
      ∀ k < j + (namedHashes L args).length, s'.Empty k := by
  induction args with
  | nil =>
      intro j s h _ he
      exact ⟨s, rfl, h, (List.append_nil _).symm, rfl, rfl, rfl, rfl, he⟩
  | cons a args ih =>
      intro j s h hj he
      rw [List.length_cons] at hj
      rw [named, namedHashes_cons]
      by_cases ha : isCatchall a = true
      · rw [if_pos ha, if_pos ha]
        exact ih j s h (by omega) he
      · obtain ⟨s₁, h₁, hok, hfr, hconx, -, hemp⟩ := putBook_spec L h (show j < rows by omega) (L.hash a)
        obtain ⟨s', hs', hok', htake, hnb, hzb, hnc, hip, hemp'⟩ := ih (j + 1) s₁ hok (by omega) fun k hk => by
          by_cases hkj : k = j
          · subst hkj
            exact hemp
          · exact (hfr.rows k hkj).empty (he k (by omega))
        have hlen : j + (namedHashes L args).length.succ = j + 1 + (namedHashes L args).length := by omega
        rw [if_neg ha, if_neg ha, List.length_cons, hlen]
        refine ⟨s', bind_ok.mpr ⟨s₁, h₁, hs'⟩, hok', ?_, hnb.trans hfr.nbook, hzb.trans hfr.zbook,
          hnc.trans hfr.nctch, hip.trans hfr.iper, hemp'⟩
        rw [htake, hconx, take_set_succ (by rw [h.conx]; omega), List.append_assoc]
        rfl

theorem cchMain_spec (L : CchLib Bk A) (m : Junk Bk A) (args : List (List UInt8)) :
    ∃ s, cchMain L m args = .ok s ∧ s.Mode L args ∧ s.seen = namedHashes L args ∧
      ∀ k < s.nbook + s.nctch, s.Empty k := by
  by_cases h0 : args = []
  · subst h0
    have hseen : (alloc m 8 0 8).seen = [] := rfl
    refine ⟨alloc m 8 0 8, rfl, ⟨⟨8, alloc_ok m (Nat.zero_le 8) fun _ => rfl⟩, ?_, ?_, ?_, ?_⟩, hseen, ?_⟩
    · exact ⟨fun _ => rfl, fun _ => Nat.succ_ne_zero 7⟩
    · simp [alloc]
    · exact fun h => absurd rfl h
    · exact fun _ => hseen ▸ List.nodup_nil
    · exact fun k hk => absurd hk (Nat.not_lt_zero k)
  · obtain ⟨hle, hany⟩ := length_namedHashes L args
    obtain ⟨s₁, h₁, hok, htake, hnb, hzb, hnc, hip, hemp⟩ := named_spec (L := L) args 0
      (alloc m args.length args.length 0) (alloc_ok m le_rfl fun h => absurd rfl h) (by omega)
      fun k hk => absurd hk (Nat.not_lt_zero k)
    rw [Nat.zero_add] at h₁ htake hemp
    rw [List.take_zero, List.nil_append] at htake
    have hnb : s₁.nbook = args.length := hnb
    have hzb : s₁.zbook = 0 := hzb
    have hnc : s₁.nctch = 0 := hnc
    have hauto : ∀ s : Cch Bk A, s.zbook = 0 → (s.zbook ≠ 0 ↔ args = []) := fun s hz =>
      ⟨fun h => absurd hz h, fun h => absurd h h0⟩
    by_cases hlt : (namedHashes L args).length < args.length
    · have hok₁ : ({ s₁ with nbook := (namedHashes L args).length } : Cch Bk A).Ok args.length :=
        ⟨(congrArg (_ + ·) hnc).trans_le hle, hok.conx, hok.book, hok.hist, hok.hisq, hok.iper,
          fun h => absurd hzb h⟩
      obtain ⟨s₂, h₂, hok₂, hfr, hconx, -, hemp₂⟩ := putBook_spec L hok₁ hlt HX_CATCHALL
      have hseen : s₂.seen = namedHashes L args := by
        rw [Cch.seen, hfr.nbook, hconx, List.take_set_of_le le_rfl, htake]
      refine ⟨{ s₂ with nctch := 1 }, ?_, ⟨⟨args.length, ?_⟩, hauto _ (hfr.zbook.trans hzb), ?_, fun _ => hseen,
        fun h => absurd h h0⟩, hseen, fun k hk => ?_⟩
      · rw [cchMain, if_pos h0, h₁]
        simp only [bind, Except.bind, hnb, if_pos hlt, h₂]
        rfl
      · exact ⟨by rw [hfr.nbook]; exact hlt, hok₂.conx, hok₂.book, hok₂.hist, hok₂.hisq, hok₂.iper,
          fun h => absurd (hfr.zbook.trans hzb) h⟩
      · exact ⟨fun _ => hany.mp hlt, fun _ => Nat.one_ne_zero⟩
      · rw [hfr.nbook] at hk
        by_cases hk' : k = (namedHashes L args).length
        · subst hk'
          exact hemp₂
        · have hk : k < (namedHashes L args).length + 1 := hk
          exact (hfr.rows k hk').empty (hemp k (by omega))
    · have hseen : s₁.seen = namedHashes L args := by
        rw [Cch.seen, hnb, show args.length = (namedHashes L args).length by omega, htake]
      refine ⟨s₁, ?_, ⟨⟨args.length, hok⟩, hauto _ hzb, ?_, fun _ => hseen, fun h => absurd h h0⟩, hseen,
        fun k hk => hemp k (by omega)⟩
      · rw [cchMain, if_pos h0, h₁]
        simp only [bind, Except.bind, hnb, if_neg hlt]
        rfl
      · exact ⟨fun h => absurd hnc h, fun h => absurd (hany.mpr h) hlt⟩

end Start

section Place

variable {L : CchLib Bk A} {args : List (List UInt8)} {s : Cch Bk A} {rows : ℕ}

/-- **Growing the tables** makes room and keeps the rows in use. -/
theorem growBooks_spec (m : Junk Bk A) (h : s.Ok rows) (hz : s.zbook ≠ 0) :
    ∃ rows', (growBooks m s).Ok rows' ∧ s.nbook < rows' ∧ (growBooks m s).nbook = s.nbook ∧
      ((growBooks m s).zbook ≠ 0) ∧ (growBooks m s).nctch = s.nctch ∧ (growBooks m s).iper = s.iper ∧
      ∀ i < s.nbook, s.SameRow (growBooks m s) i := by
  obtain ⟨hzr, hnc⟩ := h.auto hz
  have hroom := h.room
  unfold growBooks
  split_ifs with hle
  · have hpos : 0 < s.zbook := Nat.pos_of_ne_zero hz
    have hmul : 3 * nper * rows ≤ 3 * nper * (s.zbook * 2) := Nat.mul_le_mul_left _ (by omega)
    refine ⟨s.zbook * 2, ⟨?_, length_realloc .., length_realloc .., length_realloc .., length_realloc ..,
      h.iper, fun _ => ⟨rfl, hnc⟩⟩, by omega, rfl, ?_, rfl, rfl, fun i hi => ⟨?_, ?_, fun c hc => ?_, fun c hc => ?_⟩⟩
    · show s.nbook + s.nctch ≤ s.zbook * 2
      omega
    · show s.zbook * 2 ≠ 0
      omega
    · exact getElem?_realloc _ (by rw [h.conx]; omega) (by rw [h.conx]; omega)
    · exact getElem?_realloc _ (by rw [h.book]; omega) (by rw [h.book]; omega)
    · exact getElem?_realloc _ (by rw [h.hist]; exact hmul) (by rw [h.hist]; exact slot_lt (by omega) hc)
    · exact getElem?_realloc _ (by rw [h.hisq]; exact hmul) (by rw [h.hisq]; exact slot_lt (by omega) hc)
  · exact ⟨rows, h, by omega, rfl, hz, rfl, rfl, fun i _ => .refl s i⟩

theorem findBook_seen (h : s.Ok rows) (hx : BitVec 32) :
    findBook s.conx hx s.nbook 0 = .ok (if hx ∈ s.seen then some (s.seen.idxOf hx) else none) := by
  have := h.room
  rw [findBook_spec hx s.nbook 0 (by rw [h.conx]; omega), List.drop_zero, ← Cch.seen]
  congr 1
  split_ifs with hm
  · rw [List.findIdx?_eq_some_of_exists (p := (· == hx)) ⟨hx, hm, beq_self_eq_true hx⟩]
    rfl
  · rw [List.findIdx?_eq_none_iff.mpr]
    · rfl
    · intro x hxs
      rw [beq_eq_false_iff_ne]
      rintro rfl
      exact hm hxs

theorem Cch.Mode.searches (h : s.Mode L args) : s.nbook ≠ 0 ∨ s.zbook ≠ 0 ↔ ¬ OnlyCatchall args := by
  obtain ⟨rows, hok⟩ := h.ok
  by_cases ha : args = []
  · exact ⟨fun _ ho => ho.1 ha, fun _ => .inr (h.auto.mpr ha)⟩
  · have hz : ¬ s.zbook ≠ 0 := fun hz => ha (h.auto.mp hz)
    have hlen : s.nbook = (namedHashes L args).length := by rw [← length_seen hok, h.named ha]
    rw [or_iff_left hz, hlen, Ne, List.length_eq_zero_iff, namedHashes, List.map_eq_nil_iff,
      List.filter_eq_nil_iff]
    refine not_congr ⟨fun hall => ⟨ha, fun a hm => ?_⟩, fun ho a hm => ?_⟩
    · simpa using hall a hm
    · simpa using ho.2 a hm

theorem Cch.Mode.frame (h : s.Mode L args) {s' : Cch Bk A} {k : ℕ} (hok : s'.Ok rows) (hf : s.Frame s' k)
    (hc : s'.conx = s.conx) : s'.Mode L args := by
  have hseen : s'.seen = s.seen := by rw [Cch.seen, hf.nbook, hc, ← Cch.seen]
  refine ⟨⟨rows, hok⟩, ?_, ?_, ?_, ?_⟩
  · rw [hf.zbook]
    exact h.auto
  · rw [hf.nctch]
    exact h.catchall
  · rw [hseen]
    exact h.named
  · rw [hseen]
    exact h.nodup

end Place

section Spec

variable [NonUnitalNonAssocSemiring A] {L : CchLib Bk A} {s : Cch Bk A} {args : List (List UInt8)}

/-- `s₁` is `s` with a row for `q`. -/
structure Cch.Placed (L : CchLib Bk A) (args : List (List UInt8)) (s : Cch Bk A) (q : Xquo)
    (s₁ : Cch Bk A) : Prop where
  mode : s₁.Mode L args
  iper : s₁.iper = s.iper
  nctch : s₁.nctch = s.nctch
  seen : s₁.seen = L.see args s.seen q
  rows : ∀ i < s.nbook + s.nctch, s.SameRow s₁ i
  fresh : args = [] → L.hash q.ins ∉ s.seen → s₁.book[s.nbook]? = some L.makeBook ∧ s₁.Empty s.nbook
  same : ¬ (args = [] ∧ L.hash q.ins ∉ s.seen) → s₁ = s

theorem Cch.Placed.of_known (h : s.Mode L args) {q : Xquo} (hq : ¬ (args = [] ∧ L.hash q.ins ∉ s.seen)) :
    s.Placed L args q s :=
  ⟨h, rfl, rfl, (if_neg hq).symm, fun i _ => .refl s i, fun ha hn => absurd ⟨ha, hn⟩ hq, fun _ => rfl⟩

theorem placeNew_spec (m : Junk Bk A) (k : ℕ) (q : Xquo) (h : s.Mode L []) (hq : L.hash q.ins ∉ s.seen) :
    ∃ s₁, placeNew L m k (L.hash q.ins) s = .ok (some k, s₁) ∧ s.Placed L [] q s₁ := by
  obtain ⟨rows, hok⟩ := h.ok
  have hz : s.zbook ≠ 0 := h.auto.mpr rfl
  have hnc : s.nctch = 0 := (hok.auto hz).2
  have hroom := hok.room
  obtain ⟨rows', hok', hlt, hnb, hz', hnc', hip, hrows⟩ := growBooks_spec m hok hz
  obtain ⟨s₂, h₂, hok₂, hfr, hconx, hbook, hemp⟩ := putBook_spec L hok' hlt (L.hash q.ins)
  have hold : ∀ i < s.nbook, s.SameRow s₂ i := fun i hi => (hrows i hi).trans (hfr.rows i (by omega))
  have hseen : ({ s₂ with nbook := s.nbook + 1 } : Cch Bk A).seen = s.seen ++ [L.hash q.ins] := by
    have htake : (growBooks m s).conx.take s.nbook = s.conx.take s.nbook := by
      apply List.ext_getElem?
      intro i
      rw [List.getElem?_take, List.getElem?_take]
      split_ifs with hi
      · exact (hrows i hi).conx
      · rfl
    rw [Cch.seen, hconx, take_set_succ (by rw [hok'.conx]; exact hlt), htake]
    rfl
  have hz₂ : s₂.zbook ≠ 0 := by rw [hfr.zbook]; exact hz'
  have hnc₂ : s₂.nctch = s.nctch := hfr.nctch.trans hnc'
  refine ⟨{ s₂ with nbook := s.nbook + 1 }, ?_, ⟨⟨rows', ?_⟩, iff_of_true hz₂ rfl, ?_, fun h => absurd rfl h,
    fun _ => ?_⟩, hfr.iper.trans hip, hnc₂, ?_, fun i hi => ?_, fun _ _ => ⟨hbook, hemp⟩, fun hn => absurd ⟨rfl, hq⟩ hn⟩
  · rw [placeNew, if_neg (not_not.mpr hnc), if_neg hz]
    simp only [hnb, h₂, hfr.nbook, bind, Except.bind]
    rfl
  · exact ⟨by show s.nbook + 1 + s₂.nctch ≤ rows'; omega, hok₂.conx, hok₂.book, hok₂.hist, hok₂.hisq, hok₂.iper,
      fun _ => hok₂.auto hz₂⟩
  · exact ⟨fun hc => absurd (hnc₂.trans hnc) hc, fun hc => absurd hc Bool.false_ne_true⟩
  · rw [hseen]
    exact List.nodup_append'.mpr ⟨h.nodup rfl, List.nodup_singleton _, by simpa using hq⟩
  · rw [hseen, CchLib.see, if_pos ⟨rfl, hq⟩]
  · have := hold i (by omega)
    exact ⟨this.conx, this.book, this.hist, this.hisq⟩

/-- **The row of a quote** is the one wanted, unless only catch-alls are given. -/
theorem place_spec (m : Junk Bk A) (k : ℕ) (hx : BitVec 32) (q : Xquo) (h : s.Mode L args)
    (hne : ¬ OnlyCatchall args) :
    ∃ s₁, place L m k hx q s = .ok (L.route args s.seen q, s₁) ∧ s.Placed L args q s₁ := by
  obtain ⟨rows, hok⟩ := h.ok
  have hlen := length_seen hok
  rw [place, if_pos (h.searches.mpr hne)]
  simp only [findBook_seen hok, bind, Except.bind]
  by_cases hm : L.hash q.ins ∈ s.seen
  · rw [if_pos hm]
    exact ⟨s, by rw [CchLib.route, if_pos hm]; rfl, .of_known h fun hn => hn.2 hm⟩
  · rw [if_neg hm, CchLib.route, if_neg hm]
    by_cases ha : args = []
    · subst ha
      obtain ⟨s₁, h₁, hp⟩ := placeNew_spec m s.nbook q h hm
      exact ⟨s₁, by rw [if_pos (.inl rfl), hlen]; exact h₁, hp⟩
    · refine ⟨s, ?_, .of_known h fun hn => ha hn.1⟩
      show placeNew L m s.nbook (L.hash q.ins) s = _
      by_cases hc : args.any isCatchall = true
      · rw [placeNew, if_pos (h.catchall.mpr hc), if_pos (.inr hc), hlen]
      · have hz : s.zbook = 0 := by
          by_contra hz
          exact ha (h.auto.mp hz)
        rw [placeNew, if_neg fun hn => hc (h.catchall.mp hn), if_pos hz,
          if_neg fun ho => ho.elim ha hc]

theorem route_lt (h : s.Mode L args) {q : Xquo} {s₁ : Cch Bk A} (hp : s.Placed L args q s₁) {k : ℕ}
    (hk : L.route args s.seen q = some k) : k < s₁.nbook + s₁.nctch := by
  obtain ⟨rows, hok⟩ := h.ok
  obtain ⟨rows₁, hok₁⟩ := hp.mode.ok
  have hlen := length_seen hok
  have hlen₁ := length_seen hok₁
  rw [hp.seen] at hlen₁
  unfold CchLib.route at hk
  unfold CchLib.see at hlen₁
  split_ifs at hk with hm hc
  · cases hk
    have := List.idxOf_lt_length_of_mem hm
    rw [if_neg fun hn => hn.2 hm] at hlen₁
    omega
  · cases hk
    by_cases ha : args = []
    · rw [if_pos ⟨ha, hm⟩, List.length_append, List.length_singleton] at hlen₁
      omega
    · rw [if_neg fun hn => ha hn.1] at hlen₁
      have := h.catchall.mpr (hc.resolve_left ha)
      rw [hp.nctch]
      omega

/-! ## Runs -/

/-- A quote, with what the stack and new memory hold, or the timer. -/
inductive CchEvent (Bk A : Type) where
  | quo (m : Junk Bk A) (k : ℕ) (hx : BitVec 32) (q : Xquo)
  | snap

/-- `beef_cb` and `snap_cb` -/
def CchEvent.step (L : CchLib Bk A) : CchEvent Bk A → Cch Bk A → Res (Cch Bk A)
  | .quo m k hx q, s => (onQuo L m k hx q s).map Prod.snd
  | .snap, s => (snapCb L s).map Prod.snd

def cchMachine (L : CchLib Bk A) (args : List (List UInt8)) : Run.Machine (Cch Bk A) (CchEvent Bk A) where
  init s := ∃ m, cchMain L m args = .ok s
  allowed _ _ := True
  step e s := e.step L s

/-- **The known contracts** after some events: those on the command line, or those seen. -/
def seenAfter (L : CchLib Bk A) (args : List (List UInt8)) (es : List (CchEvent Bk A)) : List (BitVec 32) :=
  es.foldl (fun seen e => match e with
    | .quo _ _ _ q => L.see args seen q
    | .snap => seen) (namedHashes L args)

/-- **A quote is booked as wanted**: in the row of its contract, which is empty before if it is new, with
all other rows as they were. -/
structure Cch.Booked (L : CchLib Bk A) (args : List (List UInt8)) (s : Cch Bk A) (q : Xquo)
    (r : Option ℕ × Cch Bk A) : Prop where
  route : r.1 = L.route args s.seen q
  lt : ∀ k, r.1 = some k → k < r.2.nbook + r.2.nctch
  seen : r.2.seen = L.see args s.seen q
  ignored : r.1 = none → r.2 = s
  line : ∀ k, r.1 = some k → ∃ s₁, s.Placed L args q s₁ ∧ bookLine L k q s₁ = .ok r.2
  others : ∀ i < s.nbook + s.nctch, r.1 ≠ some i → s.SameRow r.2 i

/-- What holds of the tables in every state. -/
structure Cch.Sound (L : CchLib Bk A) (args : List (List UInt8)) (es : List (CchEvent Bk A)) (s : Cch Bk A) :
    Prop where
  seen : s.seen = seenAfter L args es
  cap : args = [] → s.nbook ≤ s.zbook
  nodup : args = [] → s.seen.Nodup

theorem onQuo_spec (m : Junk Bk A) (k : ℕ) (hx : BitVec 32) (q : Xquo) (h : s.Mode L args)
    (hne : ¬ OnlyCatchall args) :
    ∃ r, onQuo L m k hx q s = .ok r ∧ s.Booked L args q r ∧ r.2.Mode L args := by
  obtain ⟨s₁, h₁, hp⟩ := place_spec m k hx q h hne
  have hroute := fun k => route_lt (k := k) h hp
  obtain ⟨rows₁, hok₁⟩ := hp.mode.ok
  have hroom := hok₁.room
  cases hr : L.route args s.seen q with
  | none =>
      have hsame : s₁ = s := hp.same fun hn => by
        rw [CchLib.route, if_neg hn.2, if_pos (.inl hn.1)] at hr
        cases hr
      refine ⟨(none, s₁), ?_, ⟨hr.symm, fun k hk => ?_, hp.seen, fun _ => hsame, fun k hk => ?_, fun i hi _ => hp.rows i hi⟩,
        hp.mode⟩
      · rw [onQuo, h₁, hr]
        rfl
      · cases hk
      · cases hk
  | some k' =>
      obtain ⟨s₂, h₂, hok₂, hfr, hconx, -⟩ := bookLine_spec L hok₁ ((hroute k' hr).trans_le hroom) q
      refine ⟨(some k', s₂), ?_, ⟨hr.symm, fun k hk => ?_, ?_, fun hn => ?_, fun k hk => ?_, fun i hi hne => ?_⟩,
        hp.mode.frame hok₂ hfr hconx⟩
      · rw [onQuo, h₁, hr]
        simp only [bind, Except.bind, h₂]
        rfl
      · cases hk
        rw [hfr.nbook, hfr.nctch]
        exact hroute k' hr
      · rw [Cch.seen, hconx, hfr.nbook, ← Cch.seen]
        exact hp.seen
      · cases hn
      · cases hk
        exact ⟨s₁, hp, h₂⟩
      · exact (hp.rows i hi).trans (hfr.rows i fun he => hne (congrArg some he.symm))

theorem snapCb_mode (h : s.Mode L args) :
    ∃ r, snapCb L s = .ok r ∧ r.2.Mode L args ∧ r.2.seen = s.seen := by
  obtain ⟨rows, hok⟩ := h.ok
  have hroom := hok.room
  obtain ⟨s', h', hok', hnb, hzb, hnc, hcx, -⟩ := snapCb_spec L hok
    (f := fun k => ((s.hist[slot k (3 * s.iper)]?).getD 0, (s.hisq[slot k (3 * s.iper)]?).getD 0))
    fun k hk => hok.holds (by omega)
  have hseen : s'.seen = s.seen := by rw [Cch.seen, hcx, hnb, ← Cch.seen]
  refine ⟨_, h', ⟨⟨rows, hok'⟩, ?_, ?_, ?_, ?_⟩, hseen⟩
  · rw [hzb]
    exact h.auto
  · rw [hnc]
    exact h.catchall
  · rw [hseen]
    exact h.named
  · rw [hseen]
    exact h.nodup

theorem reached (hne : ¬ OnlyCatchall args) {es : List (CchEvent Bk A)} (h : (cchMachine L args).Runs es s) :
    s.Mode L args ∧ s.seen = seenAfter L args es := by
  refine h.inv_events (P := fun es s => s.Mode L args ∧ s.seen = seenAfter L args es) ?_ ?_
  · rintro s ⟨m, hm⟩
    obtain ⟨s₀, h₀, hmode, hseen, -⟩ := cchMain_spec L m args
    cases hm.symm.trans h₀
    exact ⟨hmode, hseen⟩
  · rintro es s e s' ⟨hmode, hseen⟩ - hstep
    rw [seenAfter, List.foldl_append, ← seenAfter, ← hseen]
    cases e with
    | quo m k hx q =>
        obtain ⟨r, hr, hb, hmode'⟩ := onQuo_spec m k hx q hmode hne
        have hstep : (onQuo L m k hx q s).map Prod.snd = .ok s' := hstep
        rw [hr] at hstep
        cases hstep
        exact ⟨hmode', hb.seen⟩
    | snap =>
        obtain ⟨r, hr, hmode', hs⟩ := snapCb_mode hmode
        have hstep : (snapCb L s).map Prod.snd = .ok s' := hstep
        rw [hr] at hstep
        cases hstep
        exact ⟨hmode', hs⟩

theorem runs_exists (hne : ¬ OnlyCatchall args) (m : Junk Bk A) (es : List (CchEvent Bk A)) :
    ∃ s, (cchMachine L args).Runs es s := by
  induction es using List.reverseRecOn with
  | nil =>
      obtain ⟨s, hs, -⟩ := cchMain_spec L m args
      exact ⟨s, .start ⟨m, hs⟩⟩
  | append_singleton es e ih =>
      obtain ⟨s, hs⟩ := ih
      obtain ⟨hmode, -⟩ := reached hne hs
      cases e with
      | quo m k hx q =>
          obtain ⟨r, hr, -⟩ := onQuo_spec m k hx q hmode hne
          exact ⟨r.2, hs.next trivial (by show (onQuo L m k hx q s).map Prod.snd = _; rw [hr]; rfl)⟩
      | snap =>
          obtain ⟨r, hr, -⟩ := snapCb_mode hmode
          exact ⟨r.2, hs.next trivial (by show (snapCb L s).map Prod.snd = _; rw [hr]; rfl)⟩

theorem Cch.Mode.unplaced (h : s.Mode L args) (ho : OnlyCatchall args) (m : Junk Bk A) {k : ℕ} (hk : k ≠ 0)
    (hx : BitVec 32) (q : Xquo) : ¬ ∃ r, onQuo L m k hx q s = .ok r ∧ s.Booked L args q r := by
  rintro ⟨r, hr, hb⟩
  have hnil : s.seen = [] := by
    rw [h.named ho.1, namedHashes, List.filter_eq_nil_iff.mpr fun a ha => by simp [ho.2 a ha], List.map_nil]
  have hc : s.nctch ≠ 0 := h.catchall.mpr (by
    obtain ⟨a, as, rfl⟩ := List.exists_cons_of_ne_nil ho.1
    simp [ho.2 a List.mem_cons_self])
  have hp : place L m k hx q s = .ok (some k, s) := by
    rw [place, if_neg (h.searches.not.mpr (not_not.mpr ho)), placeNew, if_pos hc]
  have hrow : r.1 = some k := by
    rw [onQuo, hp] at hr
    obtain ⟨s', -, h'⟩ := bind_ok.mp (show (bookLine L k q s >>= fun s => pure (some k, s)) = .ok r from hr)
    cases h'
    rfl
  have hroute := hrow.symm.trans hb.route
  rw [CchLib.route, hnil, if_neg List.not_mem_nil] at hroute
  split_ifs at hroute
  cases hroute
  exact hk rfl

/-- **Every quote is booked as wanted, in every run**, just if the command line is empty or names a
contract. -/
theorem booked_iff (L : CchLib Bk A) (args : List (List UInt8)) :
    (∀ es s, (cchMachine L args).Runs es s → s.Sound L args es ∧
      ∀ m k hx q, ∃ r, onQuo L m k hx q s = .ok r ∧ s.Booked L args q r) ↔ ¬ OnlyCatchall args := by
  refine ⟨fun h ho => ?_, fun hne es s hr => ?_⟩
  · let m : Junk Bk A := ⟨fun _ => 0, fun _ => L.makeBook, fun _ => 0, fun _ => 0⟩
    obtain ⟨s, hs, hmode, -⟩ := cchMain_spec L m args
    exact hmode.unplaced ho m Nat.one_ne_zero 0 ⟨0, 0, 0, 0, []⟩ ((h [] s (.start ⟨m, hs⟩)).2 m 1 0 _)
  · obtain ⟨hmode, hseen⟩ := reached hne hr
    refine ⟨⟨hseen, fun ha => ?_, hmode.nodup⟩, fun m k hx q => ?_⟩
    · obtain ⟨rows, hok⟩ := hmode.ok
      have := hok.room
      have := (hok.auto (hmode.auto.mpr ha)).1
      omega
    · obtain ⟨r, hr, hb, -⟩ := onQuo_spec m k hx q hmode hne
      exact ⟨r, hr, hb⟩

end Spec

/-! ## A sample library -/

/-- Whole numbers, with `⊤` for a number that is none, and books of at most one quote a side. -/
def sampleCch : CchLib (List Xquo) (WithTop ℕ) where
  hash := hash
  makeBook := []
  bookAdd b q := b ++ [q]
  snapTop b :=
    let amt (w : Decimal64) : WithTop ℕ := ((w.toNat % 2 ^ 53 : ℕ) : WithTop ℕ)
    let level (s : Side) : WithTop ℕ × WithTop ℕ :=
      ((b.find? (·.s = s)).map fun q => (amt q.p, amt q.q)).getD (⊤, 0)
    ⟨(level sideBid).1, (level sideAsk).1, (level sideBid).2, (level sideAsk).2⟩
  snapTra
    | some t, some (n + 1) => ((t / (n + 1) : ℕ) : WithTop ℕ)
    | _, _ => ⊤
  amt w := ((w.toNat % 2 ^ 53 : ℕ) : WithTop ℕ)
  sideUnk := 0
  sideDel := 3
  unk_lt := Nat.succ_pos 2
  del_ne := ⟨by decide, by decide⟩

def sampleJunk : Junk (List Xquo) (WithTop ℕ) := ⟨fun _ => 0, fun _ => [], fun _ => ⊤, fun _ => ⊤⟩

/-- Five at the price of two. -/
def sampleTrade (ins : List UInt8) : Xquo := ⟨3, 0, 0x31c0000000000002, 0x31c0000000000005, ins⟩

/-- Under `lobcch '*'` a trade is not booked if the stack holds a one. -/
theorem catchall_unplaced : ∃ s, (cchMachine sampleCch [[ch '*']]).Runs [] s ∧
    ¬ ∃ r, onQuo sampleCch sampleJunk 1 0 (sampleTrade [ch 'X']) s = .ok r ∧
      s.Booked sampleCch [[ch '*']] (sampleTrade [ch 'X']) r := by
  obtain ⟨s, hs, hmode, -⟩ := cchMain_spec sampleCch sampleJunk [[ch '*']]
  exact ⟨s, .start ⟨_, hs⟩, hmode.unplaced (by decide) _ Nat.one_ne_zero _ _⟩

end Unserlob
