import Mathlib.Algebra.Ring.Defs
import Unserlob.Lib.Loop
import Unserlob.Lol.Recv

/-!
# The tables of the candle maker (`lobcch.c`)

A row for every contract: its hash, its book, and a ring of `nper` periods with three prices and three
quantities each. Amounts are of any type `A`; what `malloc` and `realloc` return is arbitrary where
nothing has been stored.

* `Cch`: the tables; `CchLib`: what the program is linked with;
* `initHist`, `putBook`, `cchMain`: the tables at the start, from the command line;
* `findBook`, `place`, `bookLine`, **`onQuo`**: what `beef_cb` does with a quote;
* **`snapCb`**: the periodic snapshot;
* `Cch.Ok`: the sizes that the indices rely on; `Cch.Frame`: stores into one row;
* `putBook_spec`, **`bookLine_spec`**, `findBook_spec`: the step lemmas.
-/

namespace Unserlob

open Ascii Cursor Table ForLoop

/-- `static size_t nper = 61U` -/
def nper : ℕ := 61

/-- The index of `HIST(k + c)`: the macro's argument has no parentheses of its own. -/
def slot (k c : ℕ) : ℕ := 3 * nper * k + c

def HX_CATCHALL : BitVec 32 := BitVec.allOnes 32

/-- `conx`, `book`, `hist`, `hisq` and the counters. -/
structure Cch (Bk A : Type) where
  conx : List (BitVec 32)
  book : List Bk
  hist : List A
  hisq : List A
  nbook : ℕ
  zbook : ℕ
  nctch : ℕ
  iper : ℕ

/-- `lvl_t` -/
structure Lvl (D : Type) where
  b : D
  a : D
  B : D
  A : D

/-- The books, the decimals and the hash. `SIDE_UNK` is a column of the ring and `SIDE_DEL` is no side
of a book. -/
structure CchLib (Bk A : Type) where
  hash : List UInt8 → BitVec 32
  makeBook : Bk
  bookAdd : Bk → Xquo → Bk
  snapTop : Bk → Lvl A
  snapTra : A → A → A
  amt : Decimal64 → A
  sideUnk : ℕ
  sideDel : Side
  unk_lt : sideUnk < 3
  del_ne : sideDel ≠ sideAsk ∧ sideDel ≠ sideBid

/-- What allocated memory happens to hold. -/
structure Junk (Bk A : Type) where
  conx : ℕ → BitVec 32
  book : ℕ → Bk
  hist : ℕ → A
  hisq : ℕ → A

variable {Bk A : Type}

section Source

variable [NonUnitalNonAssocSemiring A]

/-- `init_hist`, three columns a turn. -/
def initHist (n : ℕ) (s : Cch Bk A) : Res (Cch Bk A) := do
  let hist ← fill (fun i => slot n (3 * i)) 0 nper s.hist
  let hisq ← fill (fun i => slot n (3 * i)) 0 nper s.hisq
  pure { s with hist, hisq }

variable (L : CchLib Bk A)

/-- `conx[j] = hx; book[j] = make_book(); init_hist(j);` -/
def putBook (j : ℕ) (hx : BitVec 32) (s : Cch Bk A) : Res (Cch Bk A) := do
  let conx ← setAt s.conx j hx
  let book ← setAt s.book j L.makeBook
  initHist j { s with conx, book }

/-- `conz == 0U || conz == 1U && *this == '*'` -/
def isCatchall (arg : List UInt8) : Bool := arg == [] || arg == [ch '*']

/-- The loop over the arguments in `main`, from `j` on. -/
def named : List (List UInt8) → ℕ → Cch Bk A → Res (ℕ × Cch Bk A)
  | [], j, s => .ok (j, s)
  | arg :: args, j, s =>
    if isCatchall arg then named args j s
    else do
      let s ← putBook L j (L.hash arg) s
      named args (j + 1) s

/-- The tables with room for `n` books. -/
def alloc (m : Junk Bk A) (n nbook zbook : ℕ) : Cch Bk A :=
  ⟨realloc m.conx n [], realloc m.book n [], realloc m.hist (3 * nper * n) [],
    realloc m.hisq (3 * nper * n) [], nbook, zbook, 0, 0⟩

/-- The part of `main` that sets up the tables. -/
def cchMain (m : Junk Bk A) (args : List (List UInt8)) : Res (Cch Bk A) :=
  if args ≠ [] then do
    -- initialise hash array and books
    let (j, s) ← named L args 0 (alloc m args.length args.length 0)
    if j < s.nbook then
      -- oh, there's been catch-alls, shrink NBOOK and initialise last cell
      let s ← putBook L j HX_CATCHALL { s with nbook := j }
      pure { s with nctch := 1 }
    else pure s
  else
    -- allocate some 8U books
    pure (alloc m 8 0 8)

/-- `for (; k < nbook; k++) if (conx[k] == hx) goto snap;` with `n` turns to go. -/
def findBook (conx : List (BitVec 32)) (hx : BitVec 32) : ℕ → ℕ → Res (Option ℕ)
  | 0, _ => .ok none
  | n + 1, k => do
    let x ← getAt conx k
    if x = hx then pure (some k) else findBook conx hx n (k + 1)

/-- The reallocation in `beef_cb`. -/
def growBooks (m : Junk Bk A) (s : Cch Bk A) : Cch Bk A :=
  if s.zbook ≤ s.nbook then
    let z := s.zbook * 2
    { s with
      zbook := z
      conx := realloc m.conx z s.conx
      book := realloc m.book z s.book
      hist := realloc m.hist (3 * nper * z) s.hist
      hisq := realloc m.hisq (3 * nper * z) s.hisq }
  else s

/-- A quote that is in no book yet, with `k` and `hx` as they are then. -/
def placeNew (m : Junk Bk A) (k : ℕ) (hx : BitVec 32) (s : Cch Bk A) : Res (Option ℕ × Cch Bk A) :=
  if s.nctch ≠ 0 then .ok (some k, s)
  else if s.zbook = 0 then
    -- ok, it's not for us
    .ok (none, s)
  else do
    let s := growBooks m s
    -- initialise the book
    let s ← putBook L s.nbook hx s
    pure (some k, { s with nbook := s.nbook + 1 })

/-- `beef_cb` up to the label `snap`: the row of a quote. `k` and `hx` start out with what the stack
holds. -/
def place (m : Junk Bk A) (k : ℕ) (hx : BitVec 32) (q : Xquo) (s : Cch Bk A) :
    Res (Option ℕ × Cch Bk A) :=
  -- check if we've got him in our books
  if s.nbook ≠ 0 ∨ s.zbook ≠ 0 then do
    let hx := L.hash q.ins
    match ← findBook s.conx hx s.nbook 0 with
    | some k => pure (some k, s)
    | none => placeNew L m s.nbook hx s
  else placeNew L m k hx s

/-- `l[i] += a` -/
def addAt (l : List A) (i : ℕ) (a : A) : Res (List A) := do
  let x ← getAt l i
  setAt l i (x + a)

/-- The label `snap` in `beef_cb`: the `switch` on the side. -/
def bookLine (k : ℕ) (q : Xquo) (s : Cch Bk A) : Res (Cch Bk A) :=
  if q.s = sideAsk ∨ q.s = sideBid then do
    let b ← getAt s.book k
    let book ← setAt s.book k (L.bookAdd b q)
    pure { s with book }
  else if q.s = L.sideDel then do
    let hist ← addAt s.hist (slot k (3 * s.iper)) (L.amt q.p * L.amt q.q)
    let hisq ← addAt s.hisq (slot k (3 * s.iper)) (L.amt q.q)
    pure { s with hist, hisq }
  else .ok s

/-- What `beef_cb` does with a quote, and the row it uses. -/
def onQuo (m : Junk Bk A) (k : ℕ) (hx : BitVec 32) (q : Xquo) (s : Cch Bk A) :
    Res (Option ℕ × Cch Bk A) := do
  match ← place L m k hx q s with
  | (none, s) => pure (none, s)
  | (some k, s) =>
    let s ← bookLine L k q s
    pure (some k, s)

/-- A turn of the first loop in `snap_cb`, with the aggregates read so far. -/
def snapRow (i : ℕ) (r : List (A × A) × Cch Bk A) : Res (List (A × A) × Cch Bk A) := do
  let s := r.2
  let l := L.snapTop (← getAt s.book i)
  let x ← getAt s.hist (slot i (3 * s.iper))
  let y ← getAt s.hisq (slot i (3 * s.iper))
  let hist ← setAt s.hist (slot i (3 * s.iper + L.sideUnk)) (L.snapTra x y)
  let hist ← setAt hist (slot i (3 * s.iper + 2)) l.b
  let hist ← setAt hist (slot i (3 * s.iper + 1)) l.a
  let hisq ← setAt s.hisq (slot i (3 * s.iper + 2)) l.B
  let hisq ← setAt hisq (slot i (3 * s.iper + 1)) l.A
  pure (r.1 ++ [(x, y)], { s with hist, hisq })

/-- `snap_cb`, with the aggregates it has read; what it sends is left out. -/
def snapCb (s : Cch Bk A) : Res (List (A × A) × Cch Bk A) := do
  let (reads, s) ← forRange (snapRow L) (s.nbook + s.nctch) ([], s)
  -- up the iper
  let iper := (s.iper + 1) % nper
  -- reset aggregates
  let hist ← fill (fun i => slot i (3 * iper)) 0 (s.nbook + s.nctch) s.hist
  let hisq ← fill (fun i => slot i (3 * iper)) 0 (s.nbook + s.nctch) s.hisq
  pure (reads, { s with iper, hist, hisq })

end Source

/-! ## The tables -/

/-- **There is room for every row in use.** With a command line there is no further room to use, without
one there is no catch-all. -/
structure Cch.Ok (s : Cch Bk A) (rows : ℕ) : Prop where
  room : s.nbook + s.nctch ≤ rows
  conx : s.conx.length = rows
  book : s.book.length = rows
  hist : s.hist.length = 3 * nper * rows
  hisq : s.hisq.length = 3 * nper * rows
  iper : s.iper < nper
  auto : s.zbook ≠ 0 → s.zbook = rows ∧ s.nctch = 0

/-- Row `i` is the same in both. -/
structure Cch.SameRow (s s' : Cch Bk A) (i : ℕ) : Prop where
  conx : s'.conx[i]? = s.conx[i]?
  book : s'.book[i]? = s.book[i]?
  hist : ∀ c < 3 * nper, s'.hist[slot i c]? = s.hist[slot i c]?
  hisq : ∀ c < 3 * nper, s'.hisq[slot i c]? = s.hisq[slot i c]?

/-- `s'` differs from `s` in row `k` only. -/
structure Cch.Frame (s s' : Cch Bk A) (k : ℕ) : Prop where
  nbook : s'.nbook = s.nbook
  zbook : s'.zbook = s.zbook
  nctch : s'.nctch = s.nctch
  iper : s'.iper = s.iper
  rows : ∀ i, i ≠ k → s.SameRow s' i

/-- The aggregates of row `k` in the period that runs. -/
def Cch.Holds (s : Cch Bk A) (k : ℕ) (x y : A) : Prop :=
  s.hist[slot k (3 * s.iper)]? = some x ∧ s.hisq[slot k (3 * s.iper)]? = some y

variable {s : Cch Bk A} {rows : ℕ}

theorem slot_lt {k c rows : ℕ} (hk : k < rows) (hc : c < 3 * nper) : slot k c < 3 * nper * rows := by
  unfold slot nper at *
  omega

theorem slot_ne {k k' c c' : ℕ} (hk : k ≠ k') (hc : c < 3 * nper) (hc' : c' < 3 * nper) :
    slot k c ≠ slot k' c' := by
  unfold slot nper at *
  omega

theorem Cch.frame_set (s : Cch Bk A) {k : ℕ} {conx : List (BitVec 32)} {book : List Bk} {hist hisq : List A}
    (hc : ∀ i, i ≠ k → conx[i]? = s.conx[i]?) (hb : ∀ i, i ≠ k → book[i]? = s.book[i]?)
    (hh : ∀ j, (∀ c < 3 * nper, j ≠ slot k c) → hist[j]? = s.hist[j]?)
    (hq : ∀ j, (∀ c < 3 * nper, j ≠ slot k c) → hisq[j]? = s.hisq[j]?) :
    s.Frame { s with conx, book, hist, hisq } k :=
  ⟨rfl, rfl, rfl, rfl, fun i hi => ⟨hc i hi, hb i hi, fun _ hc => hh _ fun _ hc' => slot_ne hi hc hc',
    fun _ hc => hq _ fun _ hc' => slot_ne hi hc hc'⟩⟩

theorem Cch.SameRow.refl (s : Cch Bk A) (i : ℕ) : s.SameRow s i :=
  ⟨rfl, rfl, fun _ _ => rfl, fun _ _ => rfl⟩

theorem Cch.SameRow.trans {s' s'' : Cch Bk A} {i : ℕ} (h : s.SameRow s' i) (h' : s'.SameRow s'' i) :
    s.SameRow s'' i :=
  ⟨h'.conx.trans h.conx, h'.book.trans h.book, fun c hc => (h'.hist c hc).trans (h.hist c hc),
    fun c hc => (h'.hisq c hc).trans (h.hisq c hc)⟩

theorem Cch.SameRow.holds {s' : Cch Bk A} {i : ℕ} {x y : A} (h : s.SameRow s' i) (hp : s'.iper = s.iper)
    (hlt : s.iper < nper) (hs : s.Holds i x y) : s'.Holds i x y := by
  unfold Cch.Holds
  rw [hp, h.hist _ (by omega), h.hisq _ (by omega)]
  exact hs

theorem Cch.Ok.store (h : s.Ok rows) {conx : List (BitVec 32)} {book : List Bk} {hist hisq : List A}
    (hc : conx.length = s.conx.length) (hb : book.length = s.book.length)
    (hh : hist.length = s.hist.length) (hq : hisq.length = s.hisq.length) :
    ({ s with conx, book, hist, hisq } : Cch Bk A).Ok rows :=
  ⟨h.room, hc.trans h.conx, hb.trans h.book, hh.trans h.hist, hq.trans h.hisq, h.iper, h.auto⟩

theorem snapRow_spec (L : CchLib Bk A) (h : s.Ok rows) {i : ℕ} (hi : i < rows) {x y : A}
    (hxy : s.Holds i x y) (rs : List (A × A)) :
    ∃ s', snapRow L i (rs, s) = .ok (rs ++ [(x, y)], s') ∧ s'.Ok rows ∧ s.Frame s' i ∧
      s'.conx = s.conx := by
  have hper := h.iper
  have hsl : ∀ c < 3, slot i (3 * s.iper + c) < 3 * nper * rows := fun c hc => slot_lt hi (by omega)
  have hset : ∀ (l : List A), l.length = 3 * nper * rows → ∀ c < 3, ∀ a,
      setAt l (slot i (3 * s.iper + c)) a = .ok (l.set (slot i (3 * s.iper + c)) a) :=
    fun l hl c hc a => setAt_ok ((hsl c hc).trans_eq hl.symm) a
  have hout : ∀ (l : List A), ∀ c < 3, ∀ (a : A) (j : ℕ), (∀ c < 3 * nper, j ≠ slot i c) →
      (l.set (slot i (3 * s.iper + c)) a)[j]? = l[j]? := fun l c hc a j hj =>
    List.getElem?_set_ne (Ne.symm (hj _ (by omega)))
  have hbk : i < s.book.length := hi.trans_eq h.book.symm
  have hu := L.unk_lt
  let l := L.snapTop s.book[i]
  refine ⟨{ s with
      hist := ((s.hist.set (slot i (3 * s.iper + L.sideUnk)) (L.snapTra x y)).set
        (slot i (3 * s.iper + 2)) l.b).set (slot i (3 * s.iper + 1)) l.a
      hisq := (s.hisq.set (slot i (3 * s.iper + 2)) l.B).set (slot i (3 * s.iper + 1)) l.A }, ?_,
    h.store rfl rfl ?_ ?_, s.frame_set (fun _ _ => rfl) (fun _ _ => rfl) (fun j hj => ?_) (fun j hj => ?_), rfl⟩
  · simp only [snapRow, getAt_ok (List.getElem?_eq_getElem hbk), getAt_ok hxy.1, getAt_ok hxy.2, bind,
      Except.bind, hset _ h.hist _ hu]
    rw [hset _ (by rw [List.length_set, h.hist]) 2 (by omega)]
    simp only
    rw [hset _ (by rw [List.length_set, List.length_set, h.hist]) 1 (by omega)]
    simp only
    rw [hset _ h.hisq 2 (by omega)]
    simp only
    rw [hset _ (by rw [List.length_set, h.hisq]) 1 (by omega)]
    rfl
  · rw [List.length_set, List.length_set, List.length_set]
  · rw [List.length_set, List.length_set]
  · rw [hout _ 1 (by omega) _ j hj, hout _ 2 (by omega) _ j hj, hout _ _ hu _ j hj]
  · rw [hout _ 1 (by omega) _ j hj, hout _ 2 (by omega) _ j hj]

section Spec

variable [NonUnitalNonAssocSemiring A]

/-- The aggregates of row `k` are zero in every period. -/
def Cch.Empty (s : Cch Bk A) (k : ℕ) : Prop :=
  ∀ i < nper, s.hist[slot k (3 * i)]? = some 0 ∧ s.hisq[slot k (3 * i)]? = some 0

/-- What a line adds to the aggregate of prices, and to that of quantities. -/
def CchLib.tra (L : CchLib Bk A) (q : Xquo) : A × A :=
  if q.s = L.sideDel then (L.amt q.p * L.amt q.q, L.amt q.q) else (0, 0)

theorem Cch.SameRow.empty {s' : Cch Bk A} {i : ℕ} (h : s.SameRow s' i) (he : s.Empty i) : s'.Empty i := by
  intro j hj
  rw [h.hist _ (by omega), h.hisq _ (by omega)]
  exact he j hj

/-- **A new row** is filled in place and has empty aggregates in every period. -/
theorem putBook_spec (L : CchLib Bk A) (h : s.Ok rows) {j : ℕ} (hj : j < rows) (hx : BitVec 32) :
    ∃ s', putBook L j hx s = .ok s' ∧ s'.Ok rows ∧ s.Frame s' j ∧ s'.conx = s.conx.set j hx ∧
      s'.book[j]? = some L.makeBook ∧ s'.Empty j := by
  have hlt : ∀ i < nper, slot j (3 * i) < 3 * nper * rows := fun i hi => slot_lt hj (by omega)
  obtain ⟨hist, hh, hhlen, hhin, hhout⟩ := fill_spec (f := fun i => slot j (3 * i)) (a := (0 : A))
    (l := s.hist) fun i hi => (hlt i hi).trans_eq h.hist.symm
  obtain ⟨hisq, hq, hqlen, hqin, hqout⟩ := fill_spec (f := fun i => slot j (3 * i)) (a := (0 : A))
    (l := s.hisq) fun i hi => (hlt i hi).trans_eq h.hisq.symm
  have hjb : j < s.book.length := hj.trans_eq h.book.symm
  refine ⟨{ s with conx := s.conx.set j hx, book := s.book.set j L.makeBook, hist, hisq }, ?_, ?_, ?_, rfl,
    List.getElem?_set_self hjb, fun i hi => ⟨hhin i hi, hqin i hi⟩⟩
  · rw [putBook, setAt_ok (hj.trans_eq h.conx.symm), setAt_ok hjb]
    simp only [bind, Except.bind, initHist, hh, hq]
    rfl
  · exact h.store List.length_set List.length_set hhlen hqlen
  · exact s.frame_set (fun i hi => List.getElem?_set_ne (Ne.symm hi))
      (fun i hi => List.getElem?_set_ne (Ne.symm hi)) (fun m hm => hhout m fun i hi => hm _ (by omega))
      (fun m hm => hqout m fun i hi => hm _ (by omega))

theorem addAt_spec {l : List A} {i : ℕ} {x : A} (h : l[i]? = some x) (a : A) :
    addAt l i a = .ok (l.set i (x + a)) := by
  rw [addAt, getAt_ok h]
  exact setAt_ok (List.getElem?_eq_some_iff.mp h).1 _

/-- **A line goes to its row**, and to the aggregates if it is a trade. -/
theorem bookLine_spec (L : CchLib Bk A) (h : s.Ok rows) {k : ℕ} (hk : k < rows) (q : Xquo) :
    ∃ s', bookLine L k q s = .ok s' ∧ s'.Ok rows ∧ s.Frame s' k ∧ s'.conx = s.conx ∧
      ∀ x y, s.Holds k x y → s'.Holds k (x + (L.tra q).1) (y + (L.tra q).2) := by
  have hkb : k < s.book.length := hk.trans_eq h.book.symm
  have hsl : slot k (3 * s.iper) < 3 * nper * rows := slot_lt hk (by have := h.iper; omega)
  by_cases hside : q.s = sideAsk ∨ q.s = sideBid
  · have hne : q.s ≠ L.sideDel := by
      rintro he
      exact hside.elim (fun h => L.del_ne.1 (he.symm.trans h)) fun h => L.del_ne.2 (he.symm.trans h)
    refine ⟨{ s with book := s.book.set k (L.bookAdd s.book[k] q) }, ?_,
      h.store rfl List.length_set rfl rfl, s.frame_set (fun _ _ => rfl)
        (fun i hi => List.getElem?_set_ne (Ne.symm hi)) (fun _ _ => rfl) (fun _ _ => rfl), rfl, fun x y hxy => ?_⟩
    · rw [bookLine, if_pos hside, getAt_ok (List.getElem?_eq_getElem hkb)]
      simp only [bind, Except.bind, setAt_ok hkb]
      rfl
    · rw [CchLib.tra, if_neg hne, add_zero, add_zero]
      exact hxy
  · by_cases hdel : q.s = L.sideDel
    · obtain ⟨x, hx⟩ : ∃ x, s.hist[slot k (3 * s.iper)]? = some x :=
        ⟨_, List.getElem?_eq_getElem (hsl.trans_eq h.hist.symm)⟩
      obtain ⟨y, hy⟩ : ∃ y, s.hisq[slot k (3 * s.iper)]? = some y :=
        ⟨_, List.getElem?_eq_getElem (hsl.trans_eq h.hisq.symm)⟩
      have hout : ∀ (l : List A) (a : A) (j : ℕ), (∀ c < 3 * nper, j ≠ slot k c) →
          (l.set (slot k (3 * s.iper)) a)[j]? = l[j]? := fun l a j hj =>
        List.getElem?_set_ne (Ne.symm (hj _ (by have := h.iper; omega)))
      refine ⟨{ s with
          hist := s.hist.set (slot k (3 * s.iper)) (x + L.amt q.p * L.amt q.q)
          hisq := s.hisq.set (slot k (3 * s.iper)) (y + L.amt q.q) }, ?_,
        h.store rfl rfl List.length_set List.length_set,
        s.frame_set (fun _ _ => rfl) (fun _ _ => rfl) (hout _ _) (hout _ _), rfl, ?_⟩
      · rw [bookLine, if_neg hside, if_pos hdel, addAt_spec hx, addAt_spec hy]
        rfl
      · rintro x' y' ⟨hx', hy'⟩
        cases hx.symm.trans hx'
        cases hy.symm.trans hy'
        rw [CchLib.tra, if_pos hdel]
        exact ⟨List.getElem?_set_self (hsl.trans_eq h.hist.symm),
          List.getElem?_set_self (hsl.trans_eq h.hisq.symm)⟩
    · refine ⟨s, ?_, h, s.frame_set (fun _ _ => rfl) (fun _ _ => rfl) (fun _ _ => rfl) (fun _ _ => rfl), rfl,
        fun x y hxy => ?_⟩
      · rw [bookLine, if_neg hside, if_neg hdel]
      · rw [CchLib.tra, if_neg hdel, add_zero, add_zero]
        exact hxy

theorem findBook_spec {conx : List (BitVec 32)} (hx : BitVec 32) : ∀ (n k : ℕ), k + n ≤ conx.length →
    findBook conx hx n k = .ok (((conx.drop k).take n).findIdx? (· == hx) |>.map (· + k)) := by
  intro n
  induction n with
  | zero => exact fun k _ => by rw [List.take_zero]; rfl
  | succ n ih =>
      intro k hk
      have hget : conx[k]? = some conx[k] := List.getElem?_eq_getElem _
      rw [findBook, getAt_ok hget, ← List.cons_getElem_drop_succ (h := by omega), List.take_succ_cons,
        List.findIdx?_cons]
      simp only [bind, Except.bind]
      by_cases he : conx[k] = hx
      · rw [if_pos he, if_pos (beq_iff_eq.mpr he)]
        simp
        rfl
      · rw [if_neg he, if_neg (by simpa using he), ih (k + 1) (by omega), Option.map_map]
        congr 2
        funext i
        simp only [Function.comp]
        omega

theorem Cch.Ok.holds (h : s.Ok rows) {k : ℕ} (hk : k < rows) :
    s.Holds k ((s.hist[slot k (3 * s.iper)]?).getD 0) ((s.hisq[slot k (3 * s.iper)]?).getD 0) := by
  have hsl : slot k (3 * s.iper) < 3 * nper * rows := slot_lt hk (by have := h.iper; omega)
  unfold Cch.Holds
  rw [List.getElem?_eq_getElem (hsl.trans_eq h.hist.symm), List.getElem?_eq_getElem (hsl.trans_eq h.hisq.symm)]
  exact ⟨rfl, rfl⟩

/-- **A snapshot** reads the aggregates of every row and starts the next period with zeros. -/
theorem snapCb_spec (L : CchLib Bk A) (h : s.Ok rows) {f : ℕ → A × A}
    (hf : ∀ k < s.nbook + s.nctch, s.Holds k (f k).1 (f k).2) :
    ∃ s', snapCb L s = .ok ((List.range (s.nbook + s.nctch)).map f, s') ∧ s'.Ok rows ∧
      s'.nbook = s.nbook ∧ s'.zbook = s.zbook ∧ s'.nctch = s.nctch ∧ s'.conx = s.conx ∧
      ∀ k < s.nbook + s.nctch, s'.Holds k 0 0 := by
  have hroom := h.room
  obtain ⟨⟨rs, s₁⟩, h₁, rfl, hok, hnb, hzb, hnc, hcx, -⟩ := forRange_spec (f := snapRow L)
    (n := s.nbook + s.nctch) (s := ([], s))
    (I := fun j r => r.1 = (List.range j).map f ∧ r.2.Ok rows ∧ r.2.nbook = s.nbook ∧ r.2.zbook = s.zbook ∧
      r.2.nctch = s.nctch ∧ r.2.conx = s.conx ∧ ∀ k < s.nbook + s.nctch, j ≤ k →
        r.2.Holds k (f k).1 (f k).2)
    ⟨rfl, h, rfl, rfl, rfl, rfl, fun k hk _ => hf k hk⟩ (by
      rintro i hi ⟨rs, s₁⟩ ⟨rfl, hok, hnb, hzb, hnc, hcx, hrest⟩
      obtain ⟨s₂, h₂, hok₂, hfr, hcx₂⟩ := snapRow_spec L hok (show i < rows by omega) (hrest i hi le_rfl)
        ((List.range i).map f)
      refine ⟨_, h₂, ?_, hok₂, hfr.nbook.trans hnb, hfr.zbook.trans hzb, hfr.nctch.trans hnc,
        hcx₂.trans hcx, fun k hk hik => ?_⟩
      · rw [List.range_succ, List.map_append]
        rfl
      · exact (hfr.rows k (by omega)).holds hfr.iper hok.iper (hrest k hk (by omega)))
  have hlt : (s₁.iper + 1) % nper < nper := Nat.mod_lt _ (by decide)
  have hsl : ∀ i < s.nbook + s.nctch, slot i (3 * ((s₁.iper + 1) % nper)) < 3 * nper * rows :=
    fun i hi => slot_lt (by omega) (by omega)
  obtain ⟨hist, hh, hhlen, hhin, -⟩ := fill_spec (f := fun i => slot i (3 * ((s₁.iper + 1) % nper)))
    (a := (0 : A)) (l := s₁.hist) fun i hi => (hsl i hi).trans_eq hok.hist.symm
  obtain ⟨hisq, hq, hqlen, hqin, -⟩ := fill_spec (f := fun i => slot i (3 * ((s₁.iper + 1) % nper)))
    (a := (0 : A)) (l := s₁.hisq) fun i hi => (hsl i hi).trans_eq hok.hisq.symm
  refine ⟨{ s₁ with iper := (s₁.iper + 1) % nper, hist, hisq }, ?_,
    ⟨hok.room, hok.conx, hok.book, hhlen.trans hok.hist, hqlen.trans hok.hisq, hlt, hok.auto⟩, hnb, hzb, hnc,
    hcx, fun k hk => ⟨hhin k hk, hqin k hk⟩⟩
  rw [snapCb, h₁]
  have hnb : s₁.nbook = s.nbook := hnb
  have hnc : s₁.nctch = s.nctch := hnc
  simp only [bind, Except.bind, hnb, hnc, hh, hq]
  rfl

end Spec

end Unserlob
