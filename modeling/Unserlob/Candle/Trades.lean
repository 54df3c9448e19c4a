import Mathlib.Algebra.BigOperators.Group.List.Basic
import Unserlob.Candle.Placing

/-!
# Counting trades (`snap_cb`)

The aggregates of a row lie in a ring of `nper` periods. A snapshot overwrites them, with their own
average, and clears those of the period that comes next.

* `CchLib.total`: the sums over some trades; **`ledger`**: the trades of every row since the last snapshot;
* `Cch.Counts`, `onQuo_counts`, `snapCb_counts`: the invariant and what keeps it;
* `route_see`, **`ledger_eq`**: the row of a line never changes;
* **`snapshot_totals`**: what a snapshot reads.
-/

namespace Unserlob

open Ascii Cursor Table ForLoop

variable {Bk A : Type}

/-- The trades of a row, with one line more. -/
def CchLib.record (L : CchLib Bk A) (row : Option ℕ) (q : Xquo) (trades : ℕ → List Xquo) : ℕ → List Xquo :=
  fun k => if row = some k ∧ q.s = L.sideDel then trades k ++ [q] else trades k

/-- **The trades of every row since the last snapshot**, with the known contracts. -/
def ledger (L : CchLib Bk A) (args : List (List UInt8)) (es : List (CchEvent Bk A)) :
    List (BitVec 32) × (ℕ → List Xquo) :=
  es.foldl (fun σ e => match e with
    | .quo _ _ _ q => (L.see args σ.1 q, L.record (L.route args σ.1 q) q σ.2)
    | .snap => (σ.1, fun _ => [])) (namedHashes L args, fun _ => [])

/-- The lines since the last snapshot. -/
def sinceSnap (es : List (CchEvent Bk A)) : List Xquo :=
  es.foldl (fun qs e => match e with
    | .quo _ _ _ q => qs ++ [q]
    | .snap => []) []

section Rows

variable {L : CchLib Bk A} {args : List (List UInt8)} {seen : List (BitVec 32)}

theorem ledger_quo (es : List (CchEvent Bk A)) (m : Junk Bk A) (k : ℕ) (hx : BitVec 32) (q : Xquo) :
    ledger L args (es ++ [.quo m k hx q]) = (L.see args (ledger L args es).1 q,
      L.record (L.route args (ledger L args es).1 q) q (ledger L args es).2) := by
  rw [ledger, List.foldl_append, ← ledger]
  rfl

theorem ledger_snap (es : List (CchEvent Bk A)) :
    ledger L args (es ++ [.snap]) = ((ledger L args es).1, fun _ => []) := by
  rw [ledger, List.foldl_append, ← ledger]
  rfl

theorem mem_see_self (ha : args = []) (q : Xquo) : L.hash q.ins ∈ L.see args seen q := by
  unfold CchLib.see
  split_ifs with h
  · simp
  · by_contra hn
    exact h ⟨ha, hn⟩

theorem mem_see {hx : BitVec 32} (h : hx ∈ seen) (q : Xquo) : hx ∈ L.see args seen q := by
  unfold CchLib.see
  split_ifs
  · exact List.mem_append_left _ h
  · exact h

theorem route_see {q' : Xquo} (h : args = [] → L.hash q'.ins ∈ seen) (q : Xquo) :
    L.route args (L.see args seen q) q' = L.route args seen q' := by
  by_cases hnew : args = [] ∧ L.hash q.ins ∉ seen
  · have hq' := h hnew.1
    unfold CchLib.route
    rw [if_pos (mem_see hq' q), if_pos hq', CchLib.see, if_pos hnew, List.idxOf_append_of_mem hq']
  · rw [CchLib.see, if_neg hnew]

theorem route_see_self (q : Xquo) : L.route args (L.see args seen q) q = L.route args seen q := by
  by_cases hnew : args = [] ∧ L.hash q.ins ∉ seen
  · unfold CchLib.route
    rw [if_pos (mem_see_self hnew.1 q), if_neg hnew.2, if_pos (.inl hnew.1), CchLib.see, if_pos hnew,
      List.idxOf_append_of_notMem hnew.2]
    simp
  · rw [CchLib.see, if_neg hnew]

theorem record_ne {row : Option ℕ} {k : ℕ} (h : row ≠ some k) (q : Xquo) (trades : ℕ → List Xquo) :
    L.record row q trades k = trades k := if_neg fun hn => h hn.1

/-- **Every trade since the last snapshot is in the ledger once**, under its row. -/
theorem ledger_eq (L : CchLib Bk A) (args : List (List UInt8)) (es : List (CchEvent Bk A)) (k : ℕ) :
    (ledger L args es).2 k =
      (sinceSnap es).filter fun q => q.s = L.sideDel ∧ L.route args (ledger L args es).1 q = some k := by
  suffices h : (args = [] → ∀ q ∈ sinceSnap es, L.hash q.ins ∈ (ledger L args es).1) ∧
      (ledger L args es).2 k =
        (sinceSnap es).filter fun q => q.s = L.sideDel ∧ L.route args (ledger L args es).1 q = some k from h.2
  induction es using List.reverseRecOn with
  | nil => exact ⟨fun _ q hq => absurd hq List.not_mem_nil, rfl⟩
  | append_singleton es e ih =>
      cases e with
      | quo m i hx q =>
          obtain ⟨hmem, heq⟩ := ih
          have hq : sinceSnap (es ++ [CchEvent.quo m i hx q]) = sinceSnap es ++ [q] := by
            rw [sinceSnap, List.foldl_append, ← sinceSnap]
            rfl
          rw [hq, ledger_quo]
          refine ⟨fun ha q' hq' => ?_, ?_⟩
          · rcases List.mem_append.mp hq' with h | h
            · exact mem_see (hmem ha q' h) q
            · cases List.mem_singleton.mp h
              exact mem_see_self ha q
          · have hold : ((sinceSnap es).filter fun q' => q'.s = L.sideDel ∧
                L.route args (L.see args (ledger L args es).1 q) q' = some k) = (ledger L args es).2 k := by
              rw [heq]
              refine List.filter_congr fun q' hq' => ?_
              rw [route_see (fun ha => hmem ha q' hq')]
            simp only
            rw [List.filter_append, hold, CchLib.record]
            by_cases hc : L.route args (ledger L args es).1 q = some k ∧ q.s = L.sideDel
            · rw [if_pos hc, List.filter_cons_of_pos (by simpa [route_see_self] using hc.symm)]
              rfl
            · rw [if_neg hc, List.filter_cons_of_neg (by simpa [route_see_self, and_comm] using hc),
                List.filter_nil, List.append_nil]
      | snap =>
          have hq : sinceSnap (es ++ [CchEvent.snap]) = [] := by
            rw [sinceSnap, List.foldl_append]
            rfl
          rw [hq, ledger_snap]
          exact ⟨fun _ q hq => absurd hq List.not_mem_nil, rfl⟩

end Rows

section Count

variable [NonUnitalNonAssocSemiring A]

/-- The sum of price times quantity, and the sum of quantities. -/
def CchLib.total (L : CchLib Bk A) (qs : List Xquo) : A × A :=
  ((qs.map fun q => L.amt q.p * L.amt q.q).sum, (qs.map fun q => L.amt q.q).sum)

/-- **The aggregates are those of the trades**, and the rows that are not in use have none. -/
structure Cch.Counts (L : CchLib Bk A) (s : Cch Bk A) (trades : ℕ → List Xquo) : Prop where
  holds : ∀ k < s.nbook + s.nctch, s.Holds k (L.total (trades k)).1 (L.total (trades k)).2
  none : ∀ k, s.nbook + s.nctch ≤ k → trades k = []

variable {L : CchLib Bk A} {s : Cch Bk A} {args : List (List UInt8)} {trades : ℕ → List Xquo}

theorem Cch.Empty.holds {k : ℕ} (h : s.Empty k) (hlt : s.iper < nper) : s.Holds k 0 0 := h _ hlt

theorem total_record (k : ℕ) (q : Xquo) (trades : ℕ → List Xquo) :
    L.total (L.record (some k) q trades k) =
      ((L.total (trades k)).1 + (L.tra q).1, (L.total (trades k)).2 + (L.tra q).2) := by
  unfold CchLib.record CchLib.tra
  by_cases hq : q.s = L.sideDel
  · rw [if_pos ⟨rfl, hq⟩, if_pos hq]
    simp [CchLib.total]
  · rw [if_neg fun h => hq h.2, if_neg hq, add_zero, add_zero]

theorem Cch.Counts.placed (h : s.Counts L trades) (hm : s.Mode L args) {q : Xquo} {s₁ : Cch Bk A}
    (hp : s.Placed L args q s₁) : s₁.Counts L trades := by
  obtain ⟨rows, hok⟩ := hm.ok
  obtain ⟨rows₁, hok₁⟩ := hp.mode.ok
  have hold : ∀ k < s.nbook + s.nctch, s₁.Holds k (L.total (trades k)).1 (L.total (trades k)).2 :=
    fun k hk => (hp.rows k hk).holds hp.iper hok.iper (h.holds k hk)
  by_cases hnew : args = [] ∧ L.hash q.ins ∉ s.seen
  · obtain ⟨rfl, hq⟩ := hnew
    have hnc : s.nctch = 0 := (hok.auto (hm.auto.mpr rfl)).2
    have hnb : s₁.nbook = s.nbook + 1 := by
      rw [← length_seen hok₁, ← length_seen hok, hp.seen, CchLib.see, if_pos ⟨rfl, hq⟩, List.length_append]
      rfl
    refine ⟨fun k hk => ?_, fun k hk => h.none k ?_⟩
    · rw [hp.nctch, hnb] at hk
      by_cases hkn : k = s.nbook
      · subst hkn
        rw [h.none s.nbook (by omega)]
        exact (hp.fresh rfl hq).2.holds hok₁.iper
      · exact hold k (by omega)
    · rw [hp.nctch, hnb] at hk
      omega
  · rw [hp.same hnew]
    exact h

/-- **A quote** goes to the trades of its row. -/
theorem onQuo_counts (h : s.Counts L trades) (hm : s.Mode L args) {q : Xquo} {r : Option ℕ × Cch Bk A}
    (hb : s.Booked L args q r) : r.2.Counts L (L.record (L.route args s.seen q) q trades) := by
  rw [← hb.route]
  cases hr : r.1 with
  | none =>
      rw [hb.ignored hr]
      exact ⟨fun k hk => by rw [record_ne (by simp)]; exact h.holds k hk,
        fun k hk => by rw [record_ne (by simp)]; exact h.none k hk⟩
  | some k₀ =>
      obtain ⟨s₁, hp, hline⟩ := hb.line k₀ hr
      have h₁ := h.placed hm hp
      obtain ⟨rows₁, hok₁⟩ := hp.mode.ok
      have hlt : k₀ < s₁.nbook + s₁.nctch := route_lt hm hp (hb.route.symm.trans hr)
      obtain ⟨s₂, h₂, -, hfr, -, hadd⟩ := bookLine_spec L hok₁ (hlt.trans_le hok₁.room) q
      cases hline.symm.trans h₂
      refine ⟨fun k hk => ?_, fun k hk => ?_⟩
      · rw [hfr.nbook, hfr.nctch] at hk
        by_cases hk₀ : k = k₀
        · subst hk₀
          rw [total_record]
          exact hadd _ _ (h₁.holds k hk)
        · rw [record_ne (by simpa using Ne.symm hk₀)]
          exact (hfr.rows k hk₀).holds hfr.iper hok₁.iper (h₁.holds k hk)
      · rw [hfr.nbook, hfr.nctch] at hk
        rw [record_ne (by simp; omega)]
        exact h₁.none k hk

/-- **A snapshot** reads what was counted, and counting starts anew. -/
theorem snapCb_counts (h : s.Counts L trades) (hm : s.Mode L args) :
    ∃ s', snapCb L s = .ok ((List.range (s.nbook + s.nctch)).map fun k => L.total (trades k), s') ∧
      s'.Counts L fun _ => [] := by
  obtain ⟨rows, hok⟩ := hm.ok
  obtain ⟨s', h', -, hnb, -, hnc, -, hz⟩ := snapCb_spec L hok h.holds
  refine ⟨s', h', fun k hk => ?_, fun _ _ => rfl⟩
  rw [hnb, hnc] at hk
  exact hz k hk

theorem reached_counts (hne : ¬ OnlyCatchall args) {es : List (CchEvent Bk A)}
    (h : (cchMachine L args).Runs es s) :
    s.Mode L args ∧ s.seen = (ledger L args es).1 ∧ s.Counts L (ledger L args es).2 := by
  refine h.inv_events (P := fun es s => s.Mode L args ∧ s.seen = (ledger L args es).1 ∧
    s.Counts L (ledger L args es).2) ?_ ?_
  · rintro s ⟨m, hm⟩
    obtain ⟨s₀, h₀, hmode, hseen, hemp⟩ := cchMain_spec L m args
    cases hm.symm.trans h₀
    obtain ⟨rows, hok⟩ := hmode.ok
    exact ⟨hmode, hseen, fun k hk => (hemp k hk).holds hok.iper, fun _ _ => rfl⟩
  · rintro es s e s' ⟨hmode, hseen, hcnt⟩ - hstep
    cases e with
    | quo m k hx q =>
        rw [ledger_quo]
        obtain ⟨r, hr, hb, hmode'⟩ := onQuo_spec m k hx q hmode hne
        have hstep : (onQuo L m k hx q s).map Prod.snd = .ok s' := hstep
        rw [hr] at hstep
        cases hstep
        have hcnt' := onQuo_counts hcnt hmode hb
        rw [hseen] at hcnt'
        exact ⟨hmode', by rw [hb.seen, hseen], hcnt'⟩
    | snap =>
        rw [ledger_snap]
        obtain ⟨r, hr, hmode', hs⟩ := snapCb_mode hmode
        obtain ⟨s₁, h₁, hcnt'⟩ := snapCb_counts hcnt hmode
        have hstep : (snapCb L s).map Prod.snd = .ok s' := hstep
        cases hr.symm.trans h₁
        rw [hr] at hstep
        cases hstep
        exact ⟨hmode', hs.trans hseen, hcnt'⟩

/-- **Every trade is counted exactly once**: a snapshot after any run reads, of every row, the sums over
the trades that went there since the snapshot before, and these are all trades of that row's contracts. -/
theorem snapshot_totals (L : CchLib Bk A) {args : List (List UInt8)} (hne : ¬ OnlyCatchall args)
    {es : List (CchEvent Bk A)} {s : Cch Bk A} (h : (cchMachine L args).Runs es s) :
    ∃ s', snapCb L s =
      .ok ((List.range (s.nbook + s.nctch)).map fun k => L.total ((ledger L args es).2 k), s') ∧
      ∀ k, (ledger L args es).2 k =
        (sinceSnap es).filter fun q => q.s = L.sideDel ∧ L.route args s.seen q = some k := by
  obtain ⟨hmode, hseen, hcnt⟩ := reached_counts hne h
  obtain ⟨s', hs', -⟩ := snapCb_counts hcnt hmode
  exact ⟨s', hs', fun k => by rw [hseen]; exact ledger_eq L args es k⟩

/-- Two trades of a contract on the command line. -/
theorem snapshot_totals_two : ∃ s s', (cchMachine sampleCch [[ch 'X']]).Runs
    [.quo sampleJunk 0 0 (sampleTrade [ch 'X']), .quo sampleJunk 0 0 (sampleTrade [ch 'X'])] s ∧
    snapCb sampleCch s = .ok ([(20, 10)], s') := by
  have hne : ¬ OnlyCatchall [[ch 'X']] := by decide
  obtain ⟨s, hs⟩ := runs_exists (L := sampleCch) hne sampleJunk
    [.quo sampleJunk 0 0 (sampleTrade [ch 'X']), .quo sampleJunk 0 0 (sampleTrade [ch 'X'])]
  obtain ⟨s', h', hall⟩ := snapshot_totals sampleCch hne hs
  obtain ⟨hmode, -⟩ := reached hne hs
  obtain ⟨rows, hok⟩ := hmode.ok
  have hseen : s.seen = [sampleCch.hash [ch 'X']] := hmode.named (by decide)
  have hnb : s.nbook = 1 := by rw [← length_seen hok, hseen, List.length_singleton]
  have hnc : s.nctch = 0 := by
    by_contra hn
    exact absurd (hmode.catchall.mp hn) (by decide)
  have hrow : sampleCch.route [[ch 'X']] s.seen (sampleTrade [ch 'X']) = some 0 := by
    rw [hseen, CchLib.route, show (sampleTrade [ch 'X']).ins = [ch 'X'] from rfl,
      if_pos (List.mem_singleton.mpr rfl)]
    exact congrArg some List.idxOf_cons_self
  have hrows := hall 0
  rw [show sinceSnap _ = [sampleTrade [ch 'X'], sampleTrade [ch 'X']] from rfl] at hrows
  refine ⟨s, s', hs, ?_⟩
  rw [h', hnb, hnc, List.range_one, List.map_singleton, hrows]
  simp only [List.filter_cons, hrow]
  rfl

end Count

end Unserlob
