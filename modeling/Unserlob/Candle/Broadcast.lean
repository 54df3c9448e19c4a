import Unserlob.Candle.Tables
import Unserlob.D64.Printed
import Unserlob.Lib.Json
import Unserlob.Websock.Framify
import Unserlob.Websock.Subscribers

/-!
# Candles on the wire (`snap_cb`)

A candle is put together in a buffer of 256 bytes, behind room for the header of a frame, and sent to
every subscriber.

* `putCandle`, `candle`: the text and the frame; `candleRow`, `snapAll`: all of `snap_cb`;
* `candleText`: the text that is wanted; **`candle_eq`**: the frame has it as its payload just when it fits;
* `Shown`, `readScalar_px`: the numbers that a reader of JSON gets back; **`record_candle`**;
* `snapRows_spec`, `candleRows_spec`: the two loops; **`snapAll_spec`**: what every subscriber is sent.
-/

namespace Unserlob

open Ascii Cursor Writer Json Table ForLoop

/-! ## The source -/

/-- `if (!isnanpx(p)) len += pxtostr(buf + len, sizeof(buf) - len, p); else … "null"` -/
def putPx (p : Decimal64) : Put := if ¬ isnand64 p then d64tostr 256 p else puts nullText

def traKey : List UInt8 := bytes ['t', 'r', 'a']

def bidKey : List UInt8 := bytes ['b', 'i', 'd']

def askKey : List UInt8 := bytes ['a', 's', 'k']

/-- `"key":` -/
def keyText (key : List UInt8) : List UInt8 := ch '"' :: (key ++ [ch '"', ch ':'])

/-- The candle of a row, from `buf[len++] = '{'` to `buf[len++] = '}'`. -/
def putCandle (tra bid ask : Decimal64) : Put := do
  putc (ch '{')
  puts (keyText traKey)
  putPx tra
  putc (ch ',')
  puts (keyText bidKey)
  putPx bid
  putc (ch ',')
  puts (keyText askKey)
  putPx ask
  putc (ch '}')

/-- The candle as a frame, in a buffer that holds `junk` at first: the bytes given to `send`. -/
def candle (junk : List UInt8) (tra bid ask : Decimal64) : Res (List UInt8) := do
  let y ← putCandle tra bid ask ⟨junk, 14⟩
  let (buf, len) ← wsFramify y.2.mem (subSz y.2.len 14)
  if len ≤ buf.length then pure (buf.take len) else .error .read

/-! ## The text -/

/-- A price, or `null`. -/
def pxText (p : Decimal64) : List UInt8 := if ¬ isnand64 p then d64Text p else nullText

/-- **The text of a candle.** -/
def candleText (tra bid ask : Decimal64) : List UInt8 :=
  ch '{' :: (memberText traKey (pxText tra) ++ ch ',' :: (memberText bidKey (pxText bid) ++
    ch ',' :: (memberText askKey (pxText ask) ++ [ch '}'])))

theorem putPx_putc (p : Decimal64) (c : UInt8) : Emits 256 (putPx p >>= fun _ => putc c) (pxText p ++ [c]) := by
  unfold putPx pxText
  split_ifs with h
  · exact (Emits.puts 256 nullText).seq (Emits.putc 256 c)
  · exact (prints_d64tostr 256 p).putc c

theorem emits_member (key : List UInt8) (p : Decimal64) (c : UInt8) :
    Emits 256 (puts (keyText key) >>= fun _ => putPx p >>= fun _ => putc c) (memberText key (pxText p) ++ [c]) := by
  rw [memberText, List.append_assoc]
  exact (Emits.puts 256 (keyText key)).seq (putPx_putc p c)

theorem emits_candle (tra bid ask : Decimal64) : Emits 256 (putCandle tra bid ask) (candleText tra bid ask) := by
  have h := (Emits.putc 256 (ch '{')).seq ((emits_member traKey tra (ch ',')).seq
    ((emits_member bidKey bid (ch ',')).seq (emits_member askKey ask (ch '}'))))
  simp only [bind_assoc] at h
  unfold putCandle
  simpa [candleText, List.append_assoc] using h

theorem memmove_length {mem mem' : List UInt8} {d i n : ℕ} (h : memmove mem d i n = .ok mem') :
    mem'.length = mem.length := by
  by_cases hle : i + n ≤ mem.length
  · rw [memmove, if_pos hle] at h
    exact splice_length h
  · rw [memmove, if_neg hle] at h
    cases h

theorem wsFramify_length {buf buf' : List UInt8} {bsz r : ℕ} (h : wsFramify buf bsz = .ok (buf', r)) :
    buf'.length = buf.length ∧ r = (wsfrOf bsz).2 + bsz := by
  obtain ⟨b₁, h₁, h⟩ := bind_ok.mp h
  obtain ⟨b₂, h₂, h⟩ := bind_ok.mp h
  cases h
  refine ⟨(splice_length h₂).trans ?_, rfl⟩
  exact memmove_length h₁

/-- **A candle that fits is a frame** with its text as the payload; one that does not runs over the buffer. -/
theorem candle_eq {junk : List UInt8} (hj : junk.length = 256) (tra bid ask : Decimal64) :
    ((candleText tra bid ask).length ≤ 242 → ∃ f, candle junk tra bid ask = .ok f ∧
      Frames.read f = some (⟨true, 0, 1, Frames.shortest (candleText tra bid ask).length, true,
        candleText tra bid ask⟩, [])) ∧
    (242 < (candleText tra bid ask).length → candle junk tra bid ask = .error .store) := by
  set t := candleText tra bid ask with ht
  have hgap : (junk.take 14).length = 14 := by rw [List.length_take, hj]; rfl
  have hholds : Buf.Holds ⟨junk, 14⟩ (junk.take 14) := ⟨hgap.symm, rfl⟩
  have htake := emits_candle tra bid ask (junk.take 14)
  rw [← ht] at htake
  have hlen : (junk.take 14 ++ t).length = 14 + t.length := by rw [List.length_append, hgap]
  refine ⟨fun hle => ?_, fun hlt => ?_⟩
  · obtain ⟨y, hy, hT, hm⟩ := htake.fit _ hholds (by omega) (by rw [hlen, hj]; omega)
    have hm : y.mem.length = 256 := hm.trans hj
    have hsub : subSz y.len 14 = t.length := by
      rw [hT.len, hlen, subSz_of_le (Nat.le_add_right _ _), Nat.add_sub_cancel_left]
    have hmem : y.mem = junk.take 14 ++ t ++ y.mem.drop y.len := by
      conv_lhs => rw [← List.take_append_drop y.len y.mem, hT.take]
    have hsize : (junk.take 14 ++ t ++ y.mem.drop y.len).length < 2 ^ 63 := by
      rw [← hmem, hm]
      decide
    obtain ⟨buf, r, hf, hread⟩ := wsFramify_read hgap hsize
    rw [← hmem] at hf
    obtain ⟨hbl, hr⟩ := wsFramify_length hf
    obtain ⟨-, -, -, -, hs⟩ := head_field (n := t.length) (by omega)
    have hroom : r ≤ buf.length := by omega
    refine ⟨buf.take r, ?_, hread⟩
    rw [candle, hy]
    simp only [bind, Except.bind, hsub, hf, if_pos hroom]
    rfl
  · rw [candle, htake.spill _ hholds hj.le (by rw [hlen, hj]; omega)]
    rfl

/-! ## What a reader gets back -/

theorem natVal_eq_numVal (w : List UInt8) : natVal w = numVal w := by
  induction w using List.reverseRecOn with
  | nil => rfl
  | append_singleton w c ih =>
      rw [numVal_append, numVal_singleton, ← ih, List.length_singleton, pow_one, Nat.mul_comm]
      exact List.foldl_concat _ _ _ _

/-- **The words whose text is a number or `null`**: infinities have a name of their own, and a zero with a positive
exponent is written with several zeros. -/
def Shown (x : Decimal64) : Prop := isnand64 x ∨ ¬ isinfd64 x ∧ ¬ (mantBid64 x = 0 ∧ 0 < quantexpbid64 x)

instance (x : Decimal64) : Decidable (Shown x) := inferInstanceAs (Decidable (_ ∨ _))

/-- The number of a word, if it is one. -/
def pxVal (x : Decimal64) : Option ℚ := if isnand64 x then none else some x.val

/-- A finite word is canonical. -/
def Canonical (x : Decimal64) : Prop := x.finite → ∃ d : Decimal.Dec, x.toNat = Decimal.bid d

variable {x : Decimal64} {c : UInt8}

theorem readScalar_number {p : List UInt8} (h : p.head? ≠ some (ch 'n')) :
    readScalar p = (readNumber p).map fun y => (some y.1, y.2) := by
  refine if_neg fun hpre => h ?_
  obtain ⟨t, rfl⟩ := List.isPrefixOf_iff_prefix.mp hpre
  rfl

theorem readNumber_spelling {m : ℕ} {e : ℤ} {int frac : List UInt8} (h : Spelled m e int frac)
    (hm : ¬ (m = 0 ∧ 0 < e)) (neg : Bool) (hc : Stops c) (r : List UInt8) :
    readNumber (spelling neg e int frac ++ c :: r) =
      some ((if neg then -1 else 1) * ((numVal int : ℚ) + numVal frac / 10 ^ frac.length), c :: r) := by
  have hlead : int.head? = some (ch '0') → int = [ch '0'] := fun h0 => (h.lead h0).resolve_right hm
  have hread : readUnsigned (int ++ (if e < 0 then ch '.' :: frac else []) ++ c :: r) =
      some ((numVal int : ℚ) + numVal frac / 10 ^ frac.length, c :: r) := by
    by_cases he : e < 0
    · have hne : frac ≠ [] := List.ne_nil_of_length_pos (by rw [h.length]; omega)
      rw [if_pos he, List.append_assoc, List.cons_append, readUnsigned_point hc r h.left h.ne_nil hlead h.right hne,
        natVal_eq_numVal, natVal_eq_numVal]
    · obtain rfl : frac = [] := List.eq_nil_of_length_eq_zero (by rw [h.length]; omega)
      rw [if_neg he, List.append_nil, readUnsigned_whole hc r h.left h.ne_nil hlead, natVal_eq_numVal]
      simp [show numVal [] = 0 from rfl]
  cases neg with
  | true =>
      rw [spelling, if_pos rfl, if_pos rfl, List.append_assoc, List.append_assoc, List.singleton_append, readNumber_neg,
        ← List.append_assoc, hread, Option.map_some, neg_one_mul]
  | false =>
      rw [spelling, if_neg Bool.false_ne_true, if_neg Bool.false_ne_true, List.nil_append, readNumber_pos, hread, one_mul]
      obtain ⟨d, ds, rfl⟩ := List.exists_cons_of_ne_nil h.ne_nil
      rintro ⟨⟩
      exact absurd (h.left _ List.mem_cons_self) (by decide)

theorem head_spelling {m : ℕ} {e : ℤ} {int frac : List UInt8} (h : Spelled m e int frac) (neg : Bool) (t : List UInt8) :
    (spelling neg e int frac ++ t).head? ≠ some (ch 'n') := by
  obtain ⟨d, ds, rfl⟩ := List.exists_cons_of_ne_nil h.ne_nil
  have hd := h.left d List.mem_cons_self
  cases neg with
  | true => exact fun hn => absurd (Option.some.inj hn) (by decide)
  | false =>
      rintro ⟨⟩
      exact absurd hd (by decide)

/-- **The price of a candle** is read back. -/
theorem readScalar_px (hx : Canonical x) (hs : Shown x) (hc : Stops c) (r : List UInt8) :
    readScalar (pxText x ++ c :: r) = some (pxVal x, c :: r) := by
  by_cases hnan : isnand64 x
  · rw [pxText, if_neg (not_not.mpr hnan), pxVal, if_pos hnan]
    rfl
  obtain ⟨hinf, hzero⟩ := hs.resolve_left hnan
  have hw := wanted_d64Text hx
  rw [Wanted, if_neg hnan, if_neg hinf] at hw
  obtain ⟨int, frac, hsp, htext, hval⟩ := hw
  have hm : ¬ ((mantBid64 x).toNat = 0 ∧ 0 < quantexpbid64 x) :=
    fun h => hzero ⟨BitVec.eq_of_toNat_eq h.1, h.2⟩
  rw [pxText, if_pos hnan, pxVal, if_neg hnan, htext, readScalar_number (head_spelling hsp _ _),
    readNumber_spelling hsp hm _ hc, ← hval, Option.map_some]
  congr 3
  -- the sign is the one printed
  by_cases hneg : x.val < 0
  · simp [hneg, abs_of_neg hneg]
  · simp [hneg, abs_of_nonneg (not_lt.mp hneg)]

/-- **What is not shown** is no member: nothing is read, or a digit is left over. -/
theorem readScalar_bad (hx : Canonical x) (hs : ¬ Shown x) (t : List UInt8) :
    ∀ y ∈ readScalar (pxText x ++ t), ∃ c r, y.2 = c :: r ∧ isdigit c = true := by
  obtain ⟨hnan, hs⟩ := not_or.mp hs
  have hw := wanted_d64Text hx
  rw [pxText, if_pos hnan]
  by_cases hinf : isinfd64 x
  · rw [Wanted, if_neg hnan, if_pos hinf] at hw
    -- a letter, behind the sign if there is one
    have hnone : readScalar (d64Text x ++ t) = none := by
      rw [hw]
      split_ifs
      · rw [List.singleton_append, List.cons_append, readScalar_number (by simp; decide), readNumber_neg]
        rw [show bytes ['i', 'n', 'f'] ++ t = ch 'i' :: (bytes ['n', 'f'] ++ t) from rfl, readUnsigned_letter (by decide)]
        rfl
      · rw [List.nil_append, show bytes ['i', 'n', 'f'] ++ t = ch 'i' :: (bytes ['n', 'f'] ++ t) from rfl,
          readScalar_number (by simp; decide), readNumber_pos (by simp; decide), readUnsigned_letter (by decide)]
        rfl
    rw [hnone]
    exact fun y hy => nomatch hy
  · obtain ⟨hm, he⟩ : mantBid64 x = 0 ∧ 0 < quantexpbid64 x := by
      by_contra h
      exact hs ⟨hinf, h⟩
    rw [Wanted, if_neg hnan, if_neg hinf] at hw
    obtain ⟨int, frac, hsp, htext, -⟩ := hw
    have hint := hsp.zeros (by rw [hm]; rfl) he
    have hpos : ¬ x.val < 0 := by
      rw [Decimal64.val_of_mant hm]
      exact lt_irrefl 0
    obtain ⟨k, hk⟩ : ∃ k, (quantexpbid64 x).toNat + 1 = k + 2 := ⟨(quantexpbid64 x).toNat - 1, by omega⟩
    have htext : d64Text x ++ t = ch '0' :: ch '0' :: (List.replicate k (ch '0') ++ t) := by
      rw [htext, spelling, decide_eq_false hpos, if_neg Bool.false_ne_true, if_neg (by omega), hint, hk]
      simp [List.replicate_succ]
    rw [htext, readScalar_number (by simp; decide), readNumber_pos (by simp; decide), readUnsigned_zero (by decide)]
    rintro y ⟨⟩
    exact ⟨_, _, rfl, by decide⟩

/-- **A candle is a record of three members** just when all three prices are shown, and then these are the prices. -/
theorem record_candle {tra bid ask : Decimal64} (ht : Canonical tra) (hb : Canonical bid) (ha : Canonical ask) :
    readRecord [traKey, bidKey, askKey] (candleText tra bid ask) =
      if Shown tra ∧ Shown bid ∧ Shown ask then some [pxVal tra, pxVal bid, pxVal ask] else none := by
  rw [readRecord, candleText, List.head?_cons, if_pos rfl, List.tail_cons]
  by_cases hst : Shown tra
  swap
  · rw [if_neg fun h => hst h.1]
    exact readMembers_none _ (readScalar_bad ht hst _)
  rw [readMembers_cons (by simp) (readScalar_px ht hst (Or.inl rfl) _)]
  by_cases hsb : Shown bid
  swap
  · rw [if_neg fun h => hsb h.2.1, readMembers_none _ (readScalar_bad hb hsb _)]
    rfl
  rw [readMembers_cons (by simp) (readScalar_px hb hsb (Or.inl rfl) _)]
  by_cases hsa : Shown ask
  swap
  · rw [if_neg fun h => hsa h.2.2, readMembers_none _ (readScalar_bad ha hsa _)]
    rfl
  rw [readMembers_last (readScalar_px ha hsa (Or.inr rfl) _), if_pos ⟨hst, hsb, hsa⟩]
  rfl

/-! ## The snapshot -/

variable {Bk A : Type}

section Source

variable (L : CchLib Bk A) (word : A → Decimal64)

/-- A turn of the second loop in `snap_cb`, in which `buf` holds `junk` at first. An amount is the `word` of some
decimal. -/
def candleRow (junk : ℕ → List UInt8) (s : Cch Bk A) (i : ℕ) (w : Web) : Res Web := do
  let tra ← getAt s.hist (slot i (3 * s.iper + L.sideUnk))
  let bid ← getAt s.hist (slot i (3 * s.iper + 2))
  let ask ← getAt s.hist (slot i (3 * s.iper + 1))
  let frame ← candle (junk i) (word tra) (word bid) (word ask)
  let sent ← w.sendAll frame w.sent
  pure { w with sent }

variable [NonUnitalNonAssocSemiring A]

/-- The end of `snap_cb`. -/
def nextPeriod (s : Cch Bk A) : Res (Cch Bk A) := do
  -- up the iper
  let iper := (s.iper + 1) % nper
  -- reset aggregates
  let hist ← ForLoop.fill (fun i => slot i (3 * iper)) 0 (s.nbook + s.nctch) s.hist
  let hisq ← ForLoop.fill (fun i => slot i (3 * iper)) 0 (s.nbook + s.nctch) s.hisq
  pure { s with iper, hist, hisq }

/-- `snap_cb` with what it sends. -/
def snapAll (junk : ℕ → List UInt8) (s : Cch Bk A) (w : Web) : Res (Cch Bk A × Web) := do
  let (_, s) ← forRange (snapRow L) (s.nbook + s.nctch) ([], s)
  let w ← forRange (candleRow L word junk s) (s.nbook + s.nctch) w
  let s ← nextPeriod s
  pure (s, w)

end Source

variable {L : CchLib Bk A} {word : A → Decimal64} {s : Cch Bk A} {rows : ℕ}

/-- The cells of a row after its turn. -/
structure Cch.Tops (L : CchLib Bk A) (s : Cch Bk A) (i : ℕ) (x y : A) (b : Bk) : Prop where
  tra : s.hist[slot i (3 * s.iper + L.sideUnk)]? = some (L.snapTra x y)
  bid : s.hist[slot i (3 * s.iper + 2)]? = some (L.snapTop b).b
  ask : s.hist[slot i (3 * s.iper + 1)]? = some (L.snapTop b).a

/-- **A turn of the first loop**: the cells of its row are set, books and counters are not touched. -/
theorem snapRow_tops (hunk : L.sideUnk ≠ 1 ∧ L.sideUnk ≠ 2) (h : s.Ok rows) {i : ℕ} (hi : i < rows) {x y : A}
    (hxy : s.Holds i x y) {b : Bk} (hb : s.book[i]? = some b) (rs : List (A × A)) :
    ∃ s', snapRow L i (rs, s) = .ok (rs ++ [(x, y)], s') ∧ s'.Ok rows ∧ s.Frame s' i ∧ s'.book = s.book ∧
      s'.Tops L i x y b := by
  obtain ⟨s', hs, hok, hfr, -⟩ := snapRow_spec L h hi hxy rs
  refine ⟨s', hs, hok, hfr, ?_⟩
  have hper := h.iper
  have hu := L.unk_lt
  have hlt : ∀ c < 3, slot i (3 * s.iper + c) < s.hist.length :=
    fun c hc => (slot_lt hi (by omega)).trans_eq h.hist.symm
  have hne : ∀ c c', c ≠ c' → slot i (3 * s.iper + c) ≠ slot i (3 * s.iper + c') := by
    unfold slot
    omega
  simp only [snapRow, getAt_ok hb, getAt_ok hxy.1, getAt_ok hxy.2, bind, Except.bind] at hs
  rw [setAt_ok (hlt _ hu)] at hs
  simp only at hs
  rw [setAt_ok (by rw [List.length_set]; exact hlt 2 (by omega))] at hs
  simp only at hs
  rw [setAt_ok (by rw [List.length_set, List.length_set]; exact hlt 1 (by omega))] at hs
  simp only at hs
  split at hs
  · cases hs
  split at hs <;> cases hs
  refine ⟨rfl, ?_, ?_, ?_⟩
  · show (((s.hist.set _ _).set _ _).set _ _)[slot i (3 * s.iper + L.sideUnk)]? = _
    rw [List.getElem?_set_ne (hne _ _ (Ne.symm hunk.1)), List.getElem?_set_ne (hne _ _ (Ne.symm hunk.2)),
      List.getElem?_set_self (hlt _ hu)]
  · show (((s.hist.set _ _).set _ _).set _ _)[slot i (3 * s.iper + 2)]? = _
    rw [List.getElem?_set_ne (hne _ _ (by decide)), List.getElem?_set_self]
    rw [List.length_set]
    exact hlt 2 (by omega)
  · show (((s.hist.set _ _).set _ _).set _ _)[slot i (3 * s.iper + 1)]? = _
    rw [List.getElem?_set_self]
    rw [List.length_set, List.length_set]
    exact hlt 1 (by omega)

theorem Cch.Tops.frame {s' : Cch Bk A} {i k : ℕ} {x y : A} {b : Bk} (h : s.Tops L i x y b) (hf : s.Frame s' k)
    (hne : i ≠ k) (hper : s.iper < nper) : s'.Tops L i x y b := by
  have hu := L.unk_lt
  obtain ⟨h₁, h₂, h₃⟩ := h
  have hrow := (hf.rows i hne).hist
  rw [← hrow _ (by omega)] at h₁ h₂ h₃
  exact ⟨by rw [hf.iper]; exact h₁, by rw [hf.iper]; exact h₂, by rw [hf.iper]; exact h₃⟩

theorem snapRows_spec (hunk : L.sideUnk ≠ 1 ∧ L.sideUnk ≠ 2) (h : s.Ok rows) {n : ℕ} (hn : n ≤ rows) {f : ℕ → A × A}
    {b : ℕ → Bk} (hf : ∀ k < n, s.Holds k (f k).1 (f k).2) (hb : ∀ k < n, s.book[k]? = some (b k)) :
    ∃ s', forRange (snapRow L) n ([], s) = .ok ((List.range n).map f, s') ∧ s'.Ok rows ∧
      s'.nbook = s.nbook ∧ s'.nctch = s.nctch ∧ ∀ k < n, s'.Tops L k (f k).1 (f k).2 (b k) := by
  obtain ⟨⟨rs, s'⟩, h', rfl, hok, ⟨hnb, hnc, -⟩, htops⟩ := forRange_spec (f := snapRow L) (n := n) (s := ([], s))
    (I := fun j r => r.1 = (List.range j).map f ∧ r.2.Ok rows ∧
      (r.2.nbook = s.nbook ∧ r.2.nctch = s.nctch ∧ r.2.book = s.book ∧
        ∀ k < n, j ≤ k → r.2.Holds k (f k).1 (f k).2) ∧
      ∀ k < j, r.2.Tops L k (f k).1 (f k).2 (b k))
    ⟨rfl, h, ⟨rfl, rfl, rfl, fun k hk _ => hf k hk⟩, fun k hk => absurd hk (Nat.not_lt_zero k)⟩ (by
      rintro i hi ⟨rs, s₁⟩ ⟨rfl, hok, ⟨hnb, hnc, hbook, hrest⟩, hdone⟩
      have hper : s₁.iper < nper := hok.iper
      have hbi : s₁.book[i]? = some (b i) := by
        rw [show s₁.book = s.book from hbook]
        exact hb i hi
      obtain ⟨s₂, h₂, hok₂, hfr, hbook₂, htops⟩ := snapRow_tops hunk hok (show i < rows by omega) (hrest i hi le_rfl)
        hbi ((List.range i).map f)
      refine ⟨_, h₂, ?_, hok₂, ⟨hfr.nbook.trans hnb, hfr.nctch.trans hnc, hbook₂.trans hbook, fun k hk hik => ?_⟩,
        fun k hk => ?_⟩
      · rw [List.range_succ, List.map_append]
        rfl
      · exact (hfr.rows k (by omega)).holds hfr.iper hper (hrest k hk (by omega))
      · by_cases hki : k = i
        · subst hki
          exact htops
        · exact (hdone k (by omega)).frame hfr hki hper)
  exact ⟨s', h', hok, hnb, hnc, htops⟩

/-! ## What is sent -/

/-- The prices of a row: the average of its trades and the top of its book. -/
def rowPrices (L : CchLib Bk A) (word : A → Decimal64) (x : A × A) (b : Bk) : List Decimal64 :=
  [word (L.snapTra x.1 x.2), word (L.snapTop b).b, word (L.snapTop b).a]

/-- The text of a row. -/
def rowCandle (L : CchLib Bk A) (word : A → Decimal64) (x : A × A) (b : Bk) : List UInt8 :=
  candleText (word (L.snapTra x.1 x.2)) (word (L.snapTop b).b) (word (L.snapTop b).a)

theorem record_row (hword : ∀ a, Canonical (word a)) (x : A × A) (b : Bk) :
    readRecord [traKey, bidKey, askKey] (rowCandle L word x b) =
      if ∀ p ∈ rowPrices L word x b, Shown p then some ((rowPrices L word x b).map pxVal) else none := by
  rw [rowCandle, record_candle (hword _) (hword _) (hword _)]
  simp [rowPrices]

/-- A frame that is read as this text. -/
def FrameOf (f t : List UInt8) : Prop :=
  Frames.read f = some (⟨true, 0, 1, Frames.shortest t.length, true, t⟩, [])

/-- `w` with these frames sent to every target. -/
def Web.after (w : Web) (frames : List (List UInt8)) : Web :=
  { w with sent := w.sent ++ frames.flatMap fun frame => w.targets.map fun s => (s, frame) }

section Second

variable {junk : ℕ → List UInt8} {f : ℕ → A × A} {b : ℕ → Bk} {w : Web} {n : ℕ}

/-- What `buf` holds has its length. -/
def Junk256 (junk : ℕ → List UInt8) : Prop := ∀ i, (junk i).length = 256

variable (hj : Junk256 junk) (ht : ∀ k < n, s.Tops L k (f k).1 (f k).2 (b k))

include hj ht

theorem candleRow_spec {i : ℕ} (hi : i < n) (hw : w.nsock ≤ w.sock.length) :
    ((rowCandle L word (f i) (b i)).length ≤ 242 → ∃ frame, FrameOf frame (rowCandle L word (f i) (b i)) ∧
      candleRow L word junk s i w = .ok (w.after [frame])) ∧
    (242 < (rowCandle L word (f i) (b i)).length → candleRow L word junk s i w = .error .store) := by
  obtain ⟨hfit, hspill⟩ := candle_eq (hj i) (word (L.snapTra (f i).1 (f i).2)) (word (L.snapTop (b i)).b)
    (word (L.snapTop (b i)).a)
  obtain ⟨h₁, h₂, h₃⟩ := ht i hi
  refine ⟨fun hle => ?_, fun hlt => ?_⟩
  · obtain ⟨frame, hframe, hread⟩ := hfit hle
    refine ⟨frame, hread, ?_⟩
    simp only [candleRow, getAt_ok h₁, getAt_ok h₂, getAt_ok h₃, bind, Except.bind, hframe, Web.sendAll_spec w hw]
    rw [Web.after, List.flatMap_singleton]
    rfl
  · simp only [candleRow, getAt_ok h₁, getAt_ok h₂, getAt_ok h₃, bind, Except.bind, hspill hlt]

/-- **The second loop** up to a row whose text does not fit. -/
theorem candleRows_spec {m : ℕ} (hm : m ≤ n) (hw : w.nsock ≤ w.sock.length)
    (hfit : ∀ k < m, (rowCandle L word (f k) (b k)).length ≤ 242) :
    ∃ frames, forRange (candleRow L word junk s) m w = .ok (w.after frames) ∧
      List.Forall₂ FrameOf frames ((List.range m).map fun k => rowCandle L word (f k) (b k)) := by
  obtain ⟨w', h', frames, rfl, hall⟩ := forRange_spec (f := candleRow L word junk s) (n := m) (s := w)
    (I := fun j w' => ∃ frames, w' = w.after frames ∧
      List.Forall₂ FrameOf frames ((List.range j).map fun k => rowCandle L word (f k) (b k)))
    ⟨[], by rw [Web.after, List.flatMap_nil, List.append_nil], .nil⟩ (by
      rintro i hi _ ⟨frames, rfl, hall⟩
      obtain ⟨frame, hread, hrow⟩ := (candleRow_spec hj ht (show i < n by omega)
        (show (w.after frames).nsock ≤ (w.after frames).sock.length from hw)).1 (hfit i hi)
      refine ⟨_, hrow, frames ++ [frame], ?_, ?_⟩
      · simp only [Web.after, List.flatMap_append, List.append_assoc]
        rfl
      · rw [List.range_succ, List.map_append]
        exact List.rel_append hall (.cons hread .nil))
  exact ⟨frames, h', hall⟩

end Second

variable [NonUnitalNonAssocSemiring A]

theorem snapAll_tab {junk : ℕ → List UInt8} {w w' : Web} {s' : Cch Bk A}
    (h : snapAll L word junk s w = .ok (s', w')) : ∃ reads, snapCb L s = .ok (reads, s') := by
  obtain ⟨⟨reads, s₁⟩, h₁, h⟩ := bind_ok.mp h
  obtain ⟨w₁, -, h⟩ := bind_ok.mp h
  obtain ⟨s₂, h₂, h⟩ := bind_ok.mp h
  cases h
  obtain ⟨hist, hh, h₂⟩ := bind_ok.mp h₂
  obtain ⟨hisq, hq, h₂⟩ := bind_ok.mp h₂
  cases h₂
  refine ⟨reads, ?_⟩
  rw [snapCb, h₁]
  simp only [bind, Except.bind, hh, hq]
  rfl

/-- **The snapshot** goes through just when every text fits, and then every target is sent a frame for every row. -/
theorem snapAll_spec (hunk : L.sideUnk ≠ 1 ∧ L.sideUnk ≠ 2) (h : s.Ok rows) {junk : ℕ → List UInt8}
    (hj : Junk256 junk) {w : Web} (hw : w.nsock ≤ w.sock.length) {f : ℕ → A × A} {b : ℕ → Bk}
    (hf : ∀ k < s.nbook + s.nctch, s.Holds k (f k).1 (f k).2)
    (hb : ∀ k < s.nbook + s.nctch, s.book[k]? = some (b k)) :
    ((∃ k < s.nbook + s.nctch, 242 < (rowCandle L word (f k) (b k)).length) →
      snapAll L word junk s w = .error .store) ∧
    ((∀ k < s.nbook + s.nctch, (rowCandle L word (f k) (b k)).length ≤ 242) → ∃ s' frames,
      snapAll L word junk s w = .ok (s', w.after frames) ∧
      List.Forall₂ FrameOf frames ((List.range (s.nbook + s.nctch)).map fun k => rowCandle L word (f k) (b k))) := by
  obtain ⟨s₁, h₁, hok, hnb, hnc, htops⟩ := snapRows_spec hunk h h.room hf hb
  refine ⟨fun hbig => ?_, fun hfit => ?_⟩
  · -- the first row whose text does not fit
    obtain ⟨hm, hlt⟩ := Nat.find_spec hbig
    have hbefore : ∀ k < Nat.find hbig, (rowCandle L word (f k) (b k)).length ≤ 242 := fun k hk => by
      by_contra hn
      exact Nat.find_min hbig hk ⟨hk.trans hm, not_le.mp hn⟩
    obtain ⟨frames, hframes, -⟩ := candleRows_spec hj htops hm.le hw hbefore
    have hrow := (candleRow_spec (w := w.after frames) hj htops hm hw).2 hlt
    have hloop := forRange_error hframes hrow hm
    rw [snapAll, h₁]
    simp only [bind, Except.bind, hnb, hnc, hloop]
  · obtain ⟨frames, hframes, hall⟩ := candleRows_spec hj htops le_rfl hw hfit
    have hlt : (s₁.iper + 1) % nper < nper := Nat.mod_lt _ (by decide)
    have hroom := h.room
    have hsl : ∀ i < s.nbook + s.nctch, slot i (3 * ((s₁.iper + 1) % nper)) < 3 * nper * rows :=
      fun i hi => slot_lt (by omega) (by omega)
    obtain ⟨hist, hh, -⟩ := fill_spec (f := fun i => slot i (3 * ((s₁.iper + 1) % nper))) (a := (0 : A))
      (l := s₁.hist) fun i hi => (hsl i hi).trans_eq hok.hist.symm
    obtain ⟨hisq, hq, -⟩ := fill_spec (f := fun i => slot i (3 * ((s₁.iper + 1) % nper))) (a := (0 : A))
      (l := s₁.hisq) fun i hi => (hsl i hi).trans_eq hok.hisq.symm
    refine ⟨{ s₁ with iper := (s₁.iper + 1) % nper, hist, hisq }, frames, ?_, hall⟩
    rw [snapAll, h₁]
    simp only [bind, Except.bind, hnb, hnc, hframes, nextPeriod, hh, hq]
    rfl

end Unserlob
