import Unserlob.D64.Quantize
import Unserlob.Exchange.Books
import Unserlob.Exchange.Users
import Unserlob.Lib.Pages

/-!
# Reports (`prnt_lvl2`, `prnt_acct`)

At a heartbeat the exchange writes the levels of every book and the accounts of every user, through a buffer of 4096
bytes that is flushed between two lines when it is nearly full.

* `prntLvl2`, `prntAcct`: the source's functions, with what they give to `write`;
* `lvl2Lines`, `acctLines`: the lines that are wanted; `Reported`: all of them and nothing else are written;
* `reported_turn`: one line, and the flush in front of it;
* **`reports_iff`**: reports are written as they should be just when the lines go to pages of that size.
-/

namespace Unserlob

open Ascii Cursor Writer Table Pages

variable {B : Type}

/-- `write(s, buf, len)` -/
def writeOut (s : Buf) : Res (List UInt8) := if s.len ≤ s.mem.length then .ok (s.mem.take s.len) else .error .read

/-- `if (c) { write(s, buf, len); len = 0U; }` -/
def flushIf (c : Bool) (s : Buf) : Res (List (List UInt8) × Buf) := do
  if c then
    let w ← writeOut s
    pure ([w], { s with len := 0 })
  else pure ([], s)

/-! ## `prnt_lvl2` -/

/-- `mb` and `ma`, which are overwritten level by level. -/
def mktQty (add : Decimal64 → Decimal64 → Decimal64) (ls : List Level) : Decimal64 :=
  ls.foldl (fun _ l => add l.q.dis l.q.hid) zerodd

/-- The head of the report. -/
def putHead (name : List UInt8) (mb ma : Decimal64) : Put := do
  puts name
  putc (ch '\t')
  puts (bytes ['M', 'K', 'T', '\t'])
  puts (bytes ['M', 'K', 'T', '\t'])
  d64tostr 4096 mb
  putc (ch '\t')
  d64tostr 4096 ma
  putc (ch '\n')

/-- `if (bp) len += pxtostr(buf + len, sizeof(buf) - len, …);` -/
def putCol (l : Option Level) (f : Level → Decimal64) : Put :=
  match l with
  | some l => d64tostr 4096 (f l)
  | none => pure ()

/-- A row of the report. -/
def putRow (bi ai : Option Level) : Put := do
  putc (ch '\t')
  putCol bi Level.p
  putc (ch '\t')
  putCol ai Level.p
  putc (ch '\t')
  putCol bi fun l => l.q.dis
  putc (ch '\t')
  putCol ai fun l => l.q.dis
  putc (ch '\t')
  putCol bi fun l => l.q.hid
  putc (ch '\t')
  putCol ai fun l => l.q.hid
  putc (ch '\n')

/-- `while (len < sizeof(buf))`, with the levels still to come and the last `write`. -/
def lvl2Loop : ℕ → List Level → List Level → Buf → Res (List (List UInt8))
  | 0, _, _, _ => .error .loop
  | fuel + 1, bi, ai, s =>
    if s.len < 4096 then
      if bi.head?.isNone && ai.head?.isNone then do
        let w ← writeOut s
        pure [w]
      else do
        -- intermediate flush
        let x ← flushIf (decide (4096 < s.len + 256)) s
        let y ← putRow bi.head? ai.head? x.2
        let outs ← lvl2Loop fuel bi.tail ai.tail y.2
        pure (x.1 ++ outs)
    else do
      let w ← writeOut s
      pure [w]

/-- `prnt_lvl2` -/
def prntLvl2 (C : Clob B) (add : Decimal64 → Decimal64 → Decimal64) (name : List UInt8) (b : B) (junk : List UInt8) :
    Res (List (List UInt8)) := do
  -- market orders first
  let mb := mktQty add (C.aggiter b clobTypeMkt clobSideBid)
  let ma := mktQty add (C.aggiter b clobTypeMkt clobSideAsk)
  let y ← putHead name mb ma ⟨junk, 0⟩
  -- now for limits
  let bi := C.aggiter b clobTypeLmt clobSideBid
  let ai := C.aggiter b clobTypeLmt clobSideAsk
  lvl2Loop (max bi.length ai.length + 1) bi ai y.2

/-! ## `prnt_acct` -/

section Acct

variable (neg : Decimal64 → Decimal64) (div : Decimal64 → Decimal64 → Decimal64)

/-- `op` -/
def openPrice (a : UnxsExa Decimal64) : Decimal64 := quantizebid64 (div (neg a.term) a.base) a.term

/-- A user's entry. -/
def putAcct (a : UnxsExa Decimal64) : Put := do
  d64tostr 4096 a.base
  putc (ch '/')
  d64tostr 4096 a.term
  putc (ch '(')
  d64tostr 4096 (openPrice neg div a)
  putc (ch ')')
  putc (ch ' ')

variable (M : Market Decimal64) (u : Users Decimal64) (ins : ℕ)

/-- `for (size_t i = 0U; i < nuser; i++)`, for so many users from `i` on, and what follows. -/
def acctLoop : ℕ → ℕ → Buf → Res (List (List UInt8))
  | 0, _, s => do
    let y ← putc (ch '\n') s
    let w ← writeOut y.2
    pure [w]
  | n + 1, i, s => do
    -- write interim
    let x ← flushIf (decide (4096 - 64 ≤ s.len)) s
    let a ← getAt u.accts (i * M.NINSTR + ins)
    let y ← putAcct neg div a x.2
    let outs ← acctLoop n (i + 1) y.2
    pure (x.1 ++ outs)

/-- `prnt_acct` -/
def prntAcct (junk : List UInt8) : Res (List (List UInt8)) := do
  let y ← (puts (M.name ins) >>= fun _ => putc (ch '\t')) ⟨junk, 0⟩
  acctLoop neg div M u ins u.nuser 0 y.2

end Acct

/-! ## The lines -/

/-- `I \t MKT \t MKT \t B \t A` -/
def headText (name : List UInt8) (mb ma : Decimal64) : List UInt8 :=
  name ++ ch '\t' :: (bytes ['M', 'K', 'T', '\t'] ++ (bytes ['M', 'K', 'T', '\t'] ++
    (d64Text mb ++ ch '\t' :: (d64Text ma ++ [ch '\n']))))

/-- A column, empty without a level. -/
def colText (l : Option Level) (f : Level → Decimal64) : List UInt8 := (l.map fun l => d64Text (f l)).getD []

/-- The levels of an index, side by side. -/
def rowText (r : Option Level × Option Level) : List UInt8 :=
  ch '\t' :: (colText r.1 Level.p ++ ch '\t' :: (colText r.2 Level.p ++ ch '\t' :: (colText r.1 (fun l => l.q.dis) ++
    ch '\t' :: (colText r.2 (fun l => l.q.dis) ++ ch '\t' :: (colText r.1 (fun l => l.q.hid) ++
    ch '\t' :: (colText r.2 (fun l => l.q.hid) ++ [ch '\n']))))))

/-- **One row for each index** up to the longer side. -/
def levelRows (bs as : List Level) : List (Option Level × Option Level) :=
  (List.range (max bs.length as.length)).map fun i => (bs[i]?, as[i]?)

/-- The lines of a book. -/
def lvl2Lines (C : Clob B) (add : Decimal64 → Decimal64 → Decimal64) (name : List UInt8) (b : B) : List (List UInt8) :=
  headText name (mktQty add (C.aggiter b clobTypeMkt clobSideBid)) (mktQty add (C.aggiter b clobTypeMkt clobSideAsk)) ::
    (levelRows (C.aggiter b clobTypeLmt clobSideBid) (C.aggiter b clobTypeLmt clobSideAsk)).map rowText

/-- `base/term(op) ` -/
def acctText (neg : Decimal64 → Decimal64) (div : Decimal64 → Decimal64 → Decimal64) (a : UnxsExa Decimal64) : List UInt8 :=
  d64Text a.base ++ ch '/' :: (d64Text a.term ++ ch '(' :: (d64Text (openPrice neg div a) ++ ch ')' :: [ch ' ']))

/-- The accounts of an instrument, user by user. -/
def acctCol (M : Market Decimal64) (u : Users Decimal64) (ins i n : ℕ) : List (UnxsExa Decimal64) :=
  (List.range' i n).map fun i => (u.accts[i * M.NINSTR + ins]?).getD ⟨zerodd, zerodd⟩

/-- The head and the entries of an instrument; all of them are in one line of the report. -/
def acctLines (neg : Decimal64 → Decimal64) (div : Decimal64 → Decimal64 → Decimal64) (M : Market Decimal64)
    (u : Users Decimal64) (ins : ℕ) : List (List UInt8) :=
  (M.name ins ++ [ch '\t']) :: (acctCol M u ins 0 u.nuser).map (acctText neg div)

/-- **All that is written**, one `write` after the other. -/
def Reported (r : Res (List (List UInt8))) (t : List UInt8) : Prop := ∃ outs, r = .ok outs ∧ outs.flatten = t

/-! ## The writers -/

section Emit

variable {w : Put} {t : List UInt8}

theorem emits_col (l : Option Level) (f : Level → Decimal64) (c : UInt8) (h : Emits 4096 w t) :
    Emits 4096 (putCol l f >>= fun _ => putc c >>= fun _ => w) (colText l f ++ c :: t) := by
  cases l with
  | some l => exact (prints_d64tostr 4096 (f l)).seq c h
  | none => exact (Emits.putc 4096 c).seq h

theorem emits_lastCol (l : Option Level) (f : Level → Decimal64) (c : UInt8) :
    Emits 4096 (putCol l f >>= fun _ => putc c) (colText l f ++ [c]) := by
  cases l with
  | some l => exact (prints_d64tostr 4096 (f l)).putc c
  | none => exact Emits.putc 4096 c

theorem emits_putRow (bi ai : Option Level) : Emits 4096 (putRow bi ai) (rowText (bi, ai)) :=
  (Emits.putc 4096 _).seq (emits_col _ _ _ (emits_col _ _ _ (emits_col _ _ _ (emits_col _ _ _ (emits_col _ _ _
    (emits_lastCol _ _ _))))))

theorem emits_putHead (name : List UInt8) (mb ma : Decimal64) : Emits 4096 (putHead name mb ma) (headText name mb ma) :=
  (Emits.puts 4096 _).seq ((Emits.putc 4096 _).seq ((Emits.puts 4096 _).seq ((Emits.puts 4096 _).seq
    ((prints_d64tostr 4096 _).seq _ ((prints_d64tostr 4096 _).putc _)))))

theorem emits_putAcct (neg : Decimal64 → Decimal64) (div : Decimal64 → Decimal64 → Decimal64) (a : UnxsExa Decimal64) :
    Emits 4096 (putAcct neg div a) (acctText neg div a) :=
  (prints_d64tostr 4096 _).seq _ ((prints_d64tostr 4096 _).seq _ ((prints_d64tostr 4096 _).seq _ (Emits.putc 4096 _)))

end Emit

/-! ## One line -/

theorem not_reported_error {e : Fault} {t : List UInt8} : ¬ Reported (.error e) t := by
  rintro ⟨outs, h, -⟩
  cases h

theorem reported_pure (w t : List UInt8) : Reported (.ok [w]) t ↔ w = t := by
  refine ⟨fun ⟨outs, h, ht⟩ => ?_, fun h => ⟨[w], rfl, by rw [h]; exact List.append_nil t⟩⟩
  cases h
  rw [← ht]
  exact (List.append_nil w).symm

theorem reported_append {r : Res (List (List UInt8))} {outs : List (List UInt8)} {t : List UInt8} :
    Reported (r >>= fun rest => pure (outs ++ rest)) (outs.flatten ++ t) ↔ Reported r t := by
  constructor
  · rintro ⟨all, h, ht⟩
    obtain ⟨rest, hr, hall⟩ := bind_ok.mp h
    cases hall
    rw [List.flatten_append] at ht
    exact ⟨rest, hr, List.append_cancel_left ht⟩
  · rintro ⟨rest, rfl, rfl⟩
    exact ⟨outs ++ rest, rfl, List.flatten_append⟩

variable {s : Buf} {T : List UInt8}

theorem writeOut_ok (hs : s.Holds T) : writeOut s = .ok T := by
  have hle := hs.le
  rw [writeOut, if_pos (by rw [hs.len]; exact hle), hs.take]

theorem holds_empty (mem : List UInt8) : Buf.Holds ⟨mem, 0⟩ [] := ⟨rfl, List.take_zero⟩

/-- **One line**, and a page closed in front of it if that is fuller than `keep`. -/
theorem reported_turn {keep full cap : ℕ} (hk : keep ≤ 4096) (hf : full ≤ 4096) (hcap : cap ≤ 4096) {w : Put}
    {t : List UInt8} (hw : Emits 4096 w t) {k : Buf → Res (List (List UInt8))} {R : List UInt8} {ns : List ℕ}
    (hs : s.Holds T) (hm : s.mem.length = 4096) {c : Bool} (hc : c = true ↔ keep < T.length) (hle : T.length ≤ full)
    (hnext : ∀ (T' : List UInt8) (s' : Buf), s'.Holds T' → s'.mem.length = 4096 →
      (Reported (k s') (T' ++ R) ↔ Packs keep full cap (T'.length :: ns))) :
    Reported (flushIf c s >>= fun x => w x.2 >>= fun y => k y.2 >>= fun outs => pure (x.1 ++ outs)) (T ++ (t ++ R)) ↔
      Packs keep full cap (T.length :: t.length :: ns) := by
  -- the line goes behind `T'` on the page, with `outs` written before
  have hline : ∀ (outs : List (List UInt8)) (T' : List UInt8) (s₁ : Buf), s₁.Holds T' → s₁.mem.length = 4096 →
      (Reported (w s₁ >>= fun y => k y.2 >>= fun rest => pure (outs ++ rest)) (outs.flatten ++ ((T' ++ t) ++ R)) ↔
        Packs keep full cap ((T'.length + t.length) :: ns)) := by
    intro outs T' s₁ hs₁ hm₁
    have hlen : (T' ++ t).length = T'.length + t.length := List.length_append
    by_cases hfit : (T' ++ t).length ≤ 4096
    · obtain ⟨s₂, hput, hs₂, hm₂⟩ := (hw T').fit s₁ hs₁ hfit (hfit.trans_eq hm₁.symm)
      rw [hput, ← hlen, ← hnext (T' ++ t) s₂ hs₂ (hm₂.trans hm₁)]
      exact reported_append
    · rw [(hw T').spill s₁ hs₁ hm₁.le (by omega)]
      exact iff_of_false not_reported_error (not_packs (by omega) (by omega) (by omega))
  by_cases hkeep : keep < T.length
  · have hflush : flushIf c s = .ok ([T], { s with len := 0 }) := by
      rw [flushIf, if_pos (hc.mpr hkeep), writeOut_ok hs]
      rfl
    have h := hline [T] [] ⟨s.mem, 0⟩ (holds_empty _) hm
    rw [List.flatten_singleton, List.nil_append, List.length_nil, Nat.zero_add] at h
    rw [hflush, packs_page hkeep, and_iff_right hle]
    exact h
  · have hflush : flushIf c s = .ok ([], s) := if_neg fun h => hkeep (hc.mp h)
    have h := hline [] T s hs hm
    rw [List.flatten_nil, List.nil_append, List.append_assoc] at h
    rw [hflush, packs_add (by omega)]
    exact h

/-! ## The loops -/

theorem levelRows_nil : levelRows [] [] = [] := rfl

theorem max_length_tail {bs as : List Level} (h : ¬ (bs = [] ∧ as = [])) :
    max bs.length as.length = max bs.tail.length as.tail.length + 1 := by
  rw [← List.length_eq_zero_iff, ← List.length_eq_zero_iff] at h
  rw [List.length_tail, List.length_tail]
  omega

theorem levelRows_cons {bs as : List Level} (h : ¬ (bs = [] ∧ as = [])) :
    levelRows bs as = (bs.head?, as.head?) :: levelRows bs.tail as.tail := by
  rw [levelRows, max_length_tail h, List.range_succ_eq_map, List.map_cons, List.map_map, ← List.head?_eq_getElem?,
    ← List.head?_eq_getElem?, levelRows]
  refine congrArg _ (List.map_congr_left fun i _ => ?_)
  rw [Function.comp_apply, List.getElem?_tail, List.getElem?_tail]

theorem rowText_ne_nil (r : Option Level × Option Level) : rowText r ≠ [] := List.cons_ne_nil _ _

theorem lvl2Loop_iff {fuel : ℕ} {bi ai : List Level} (hfuel : max bi.length ai.length < fuel) (hs : s.Holds T)
    (hm : s.mem.length = 4096) :
    Reported (lvl2Loop fuel bi ai s) (T ++ ((levelRows bi ai).map rowText).flatten) ↔
      Packs 3840 4095 4096 (T.length :: ((levelRows bi ai).map rowText).map List.length) := by
  induction fuel generalizing bi ai s T with
  | zero => exact absurd hfuel (Nat.not_lt_zero _)
  | succ fuel ih =>
      have hle := hs.le
      have hlen := hs.len
      have hlast : ∀ t, Reported (writeOut s >>= fun w => pure [w]) t ↔ T = t := fun t => by
        rw [writeOut_ok hs]
        exact reported_pure T t
      by_cases hnil : bi = [] ∧ ai = []
      · obtain ⟨rfl, rfl⟩ := hnil
        have hloop : lvl2Loop (fuel + 1) [] [] s = writeOut s >>= fun w => pure [w] := by
          rw [lvl2Loop]
          exact ite_self _
        rw [hloop, hlast, levelRows_nil]
        exact iff_of_true (List.append_nil T).symm (packs_singleton.mpr (by omega))
      · have hsome : (bi.head?.isNone && ai.head?.isNone) = false := by
          rw [Bool.and_eq_false_iff, Option.isNone_eq_false_iff, Option.isNone_eq_false_iff, List.isSome_head?, List.isSome_head?]
          exact not_and_or.mp hnil
        rw [levelRows_cons hnil, lvl2Loop, hsome]
        by_cases hlt : s.len < 4096
        · rw [if_pos hlt, if_neg Bool.false_ne_true, List.map_cons, List.flatten_cons, List.map_cons]
          refine reported_turn (by decide) (by decide) (by decide) (emits_putRow _ _) hs hm ?_ (by omega) fun T' s' hs' hm' => ?_
          · rw [decide_eq_true_iff]
            omega
          · rw [max_length_tail hnil] at hfuel
            exact ih (by omega) hs' hm'
        · -- the page is full to the last byte, and the loop ends before the levels do
          rw [if_neg hlt, hlast, List.map_cons, List.map_cons, packs_page (by omega)]
          refine iff_of_false (fun h => ?_) fun h => by omega
          rw [List.self_eq_append_right, List.flatten_cons, List.append_eq_nil_iff] at h
          exact rowText_ne_nil _ h.1

section Acct

variable {neg : Decimal64 → Decimal64} {div : Decimal64 → Decimal64 → Decimal64} {M : Market Decimal64}
  {u : Users Decimal64} {ins : ℕ}

theorem acctLoop_iff {n i : ℕ} (hin : ∀ j < i + n, j * M.NINSTR + ins < u.accts.length) (hs : s.Holds T)
    (hm : s.mem.length = 4096) :
    Reported (acctLoop neg div M u ins n i s)
        (T ++ (((acctCol M u ins i n).map (acctText neg div)).flatten ++ [ch '\n'])) ↔
      Packs 4031 4096 4095 (T.length :: ((acctCol M u ins i n).map (acctText neg div)).map List.length) := by
  induction n generalizing i s T with
  | zero =>
      have hle := hs.le
      have hlen : (T ++ [ch '\n']).length = T.length + 1 := List.length_append
      have hp : Packs 4031 4096 4095 [T.length] ↔ T.length ≤ 4095 := packs_singleton
      by_cases hfit : (T ++ [ch '\n']).length ≤ 4096
      · obtain ⟨s', hput, hs', -⟩ := (Emits.putc 4096 (ch '\n') T).fit s hs hfit (hfit.trans_eq hm.symm)
        rw [acctLoop, hput]
        show Reported (writeOut s' >>= fun w => pure [w]) _ ↔ _
        rw [writeOut_ok hs']
        exact iff_of_true ((reported_pure _ _).mpr rfl) (hp.mpr (by omega))
      · rw [acctLoop, (Emits.putc 4096 (ch '\n') T).spill s hs hm.le (by omega)]
        exact iff_of_false not_reported_error fun h => absurd (hp.mp h) (by omega)
  | succ n ih =>
      have hle := hs.le
      have hlen := hs.len
      obtain ⟨a, hget⟩ : ∃ a, u.accts[i * M.NINSTR + ins]? = some a :=
        ⟨_, List.getElem?_eq_getElem (hin i (by omega))⟩
      have hcol : acctCol M u ins i (n + 1) = a :: acctCol M u ins (i + 1) n := by
        rw [acctCol, List.range'_succ, List.map_cons, hget]
        rfl
      rw [hcol, List.map_cons, List.flatten_cons, List.map_cons, List.append_assoc, acctLoop]
      simp only [getAt_ok hget]
      refine reported_turn (by decide) (by decide) (by decide) (emits_putAcct neg div _) hs hm ?_ (by omega)
        fun T' s' hs' hm' => ih (fun j hj => hin j (by omega)) hs' hm'
      rw [decide_eq_true_iff]
      omega

end Acct

/-! ## The reports -/

section Report

variable {junk : List UInt8} (hj : junk.length = 4096)

include hj

theorem reported_head {w : Put} {t : List UInt8} (hw : Emits 4096 w t) {k : Buf → Res (List (List UInt8))}
    {R : List UInt8} {keep full cap : ℕ} {ns : List ℕ} (hk : keep ≤ 4096) (hf : full ≤ 4096) (hc : cap ≤ 4096)
    (hnext : ∀ s, s.Holds t → s.mem.length = 4096 → (Reported (k s) (t ++ R) ↔ Packs keep full cap (t.length :: ns))) :
    Reported (w ⟨junk, 0⟩ >>= fun y => k y.2) (t ++ R) ↔ Packs keep full cap (t.length :: ns) := by
  by_cases hfit : t.length ≤ 4096
  · obtain ⟨s, hput, hs, hm⟩ := (hw []).fit ⟨junk, 0⟩ (holds_empty _) hfit (hfit.trans_eq hj.symm)
    rw [hput]
    exact hnext s hs (hm.trans hj)
  · rw [(hw []).spill ⟨junk, 0⟩ (holds_empty _) hj.le (by rw [List.nil_append, hj]; omega)]
    exact iff_of_false not_reported_error (not_packs (by omega) (by omega) (by omega))

theorem prntLvl2_iff (C : Clob B) (add : Decimal64 → Decimal64 → Decimal64) (name : List UInt8) (b : B) :
    Reported (prntLvl2 C add name b junk) (lvl2Lines C add name b).flatten ↔
      Packs 3840 4095 4096 ((lvl2Lines C add name b).map List.length) := by
  rw [lvl2Lines, List.flatten_cons, List.map_cons]
  exact reported_head hj (emits_putHead _ _ _) (by decide) (by decide) (by decide) fun s hs hm =>
    lvl2Loop_iff (Nat.lt_succ_self _) hs hm

theorem prntAcct_iff (neg : Decimal64 → Decimal64) (div : Decimal64 → Decimal64 → Decimal64) {M : Market Decimal64}
    {u : Users Decimal64} (hu : u.Ok M) {ins : ℕ} (hins : ins < M.NINSTR) :
    Reported (prntAcct neg div M u ins junk) ((acctLines neg div M u ins).flatten ++ [ch '\n']) ↔
      Packs 4031 4096 4095 ((acctLines neg div M u ins).map List.length) := by
  have hin : ∀ j < 0 + u.nuser, j * M.NINSTR + ins < u.accts.length := fun j hlt => by
    rw [hu.accts]
    exact Table.slot_lt (by have := hu.room; omega) hins
  rw [acctLines, List.flatten_cons, List.map_cons, List.append_assoc]
  exact reported_head hj ((Emits.puts 4096 _).seq (Emits.putc 4096 _)) (by decide) (by decide) (by decide)
    fun s hs hm => acctLoop_iff hin hs hm

/-- **Lines of at most 255 bytes** are all written. -/
theorem prntLvl2_short {C : Clob B} {add : Decimal64 → Decimal64 → Decimal64} {name : List UInt8} {b : B}
    (h : ∀ l ∈ lvl2Lines C add name b, l.length ≤ 255) :
    Reported (prntLvl2 C add name b junk) (lvl2Lines C add name b).flatten := by
  obtain ⟨hhead, hrows⟩ := List.forall_mem_cons.mp h
  refine (prntLvl2_iff hj C add name b).mpr ?_
  exact packs_of_le 255 (by decide) (by decide) (List.forall_mem_map.mpr hrows) (hhead.trans (by decide))

/-- **A head and entries of at most 64 bytes** are all written. -/
theorem prntAcct_short {neg : Decimal64 → Decimal64} {div : Decimal64 → Decimal64 → Decimal64} {M : Market Decimal64}
    {u : Users Decimal64} (hu : u.Ok M) {ins : ℕ} (hins : ins < M.NINSTR)
    (h : ∀ l ∈ acctLines neg div M u ins, l.length ≤ 64) :
    Reported (prntAcct neg div M u ins junk) ((acctLines neg div M u ins).flatten ++ [ch '\n']) := by
  obtain ⟨hhead, hentries⟩ := List.forall_mem_cons.mp h
  refine (prntAcct_iff hj neg div hu hins).mpr ?_
  exact packs_of_le 64 (by decide) (by decide) (List.forall_mem_map.mpr hentries) (hhead.trans (by decide))

/-- **Reports and pages.** What is written for a book or for the accounts is what is wanted, and no byte is stored behind
the buffer, just when the lines go to pages of the buffer's size. -/
theorem reports_iff :
    (∀ {B : Type} (C : Clob B) add name b, Reported (prntLvl2 C add name b junk) (lvl2Lines C add name b).flatten ↔
      Packs 3840 4095 4096 ((lvl2Lines C add name b).map List.length)) ∧
    ∀ neg div (M : Market Decimal64) (u : Users Decimal64), u.Ok M → ∀ ins < M.NINSTR,
      (Reported (prntAcct neg div M u ins junk) ((acctLines neg div M u ins).flatten ++ [ch '\n']) ↔
        Packs 4031 4096 4095 ((acctLines neg div M u ins).map List.length)) :=
  ⟨prntLvl2_iff hj, fun neg div _ _ hu _ hins => prntAcct_iff hj neg div hu hins⟩

end Report

/-- A user without a position. -/
def oneUser : Users Decimal64 := ⟨1, 1, [5], [⟨zerodd, zerodd⟩]⟩

def oneMarket : Market Decimal64 := ⟨1, fun _ => [ch 'I'], fun _ _ => ⟨zerodd, zerodd⟩, fun s => 1 - s⟩

/-- The report of a book with one order, and that of one user. -/
theorem reports_iff_one :
    Reported (prntLvl2 listClob (fun x _ => x) [ch 'I'] [positiveOrder] (List.replicate 4096 0))
      (lvl2Lines listClob (fun x _ => x) [ch 'I'] [positiveOrder]).flatten ∧
    Reported (prntAcct id (fun x _ => x) oneMarket oneUser 0 (List.replicate 4096 0))
      ((acctLines id (fun x _ => x) oneMarket oneUser 0).flatten ++ [ch '\n']) := by
  obtain ⟨hlvl2, hacct⟩ := reports_iff (List.length_replicate (n := 4096) (a := (0 : UInt8)))
  refine ⟨(hlvl2 _ _ _ _).mpr (packs_of_le 255 ?_ ?_ ?_ ?_),
    (hacct _ _ _ _ ⟨le_rfl, rfl, rfl⟩ 0 (by decide)).mpr (packs_of_le 64 ?_ ?_ ?_ ?_)⟩ <;> decide +kernel

/-- A limit order for one, and a hidden quantity of 384 digits, at a price of 201. -/
def wideBuy (k : Char) : List UInt8 :=
  bytes ['B', 'U', 'Y', '\t', 'I', '\t', '1', '+', '1'] ++ List.replicate 383 (ch '0') ++ bytes ['\t', k] ++
    List.replicate 200 (ch '0') ++ [ch '\n']

/-- **Seven levels of wide numbers**: the seventh row goes to a page with 3572 bytes and takes 593. -/
theorem wideBuys_overrun : ∃ s, (bookMachine listClob sampleInstruments).Runs
      (['7', '6', '5', '4', '3', '2', '1'].map fun k => .line (sampleClient (wideBuy k))) s ∧
    ∃ b ∈ s.clob, ¬ Reported (prntLvl2 listClob (fun x _ => x) [ch 'I'] b (List.replicate 4096 0))
      (lvl2Lines listClob (fun x _ => x) [ch 'I'] b).flatten := by
  have h : (((bookMachine listClob sampleInstruments).exec
      (['7', '6', '5', '4', '3', '2', '1'].map fun k => .line (sampleClient (wideBuy k))) ⟨[[]], []⟩).any fun s =>
        s.clob.any fun b => (lvl2Lines listClob (fun x _ => x) [ch 'I'] b).map List.length ==
          14 :: List.replicate 7 593) = true := by
    decide +kernel
  obtain ⟨s, hr, hs⟩ := Run.Machine.runs_of_any _ rfl h
  obtain ⟨b, hb, hlen⟩ := List.any_eq_true.mp hs
  refine ⟨s, hr, b, hb, fun hrep => ?_⟩
  have hp := (prntLvl2_iff List.length_replicate _ _ _ _).mp hrep
  rw [eq_of_beq hlen] at hp
  have hpage : Packs 3840 4095 4096 [3572 + 593] := by
    simpa (disch := decide) only [List.replicate, packs_add] using hp
  exact absurd (packs_singleton.mp hpage) (by decide)

end Unserlob
