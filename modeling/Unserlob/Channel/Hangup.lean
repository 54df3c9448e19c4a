import Unserlob.Channel.Isolation

/-!
# A receive that fails (`_och_cb`, `_sig_cb`)

When the exchange hangs up the order channel raises the stop signal and then goes on behind the read,
where what `recv` returned is added to the offset of the buffer.

* `snarfLines`: what `_och_cb` does behind the read, whether it failed or not; `recvLines_eq`;
* `Wire`, `WireEvent`, `wireMachine`: a bot whose receives may fail;
* `Intact`: what is wanted of one that does;
* `hangup_wraps`, `hangup_drops`: what comes of a negative number;
* **`hangup_intact`**: the channel is left as it was just when `recv` returns zero and no line is in
  the buffer; `isolated_intact`: and none is in an isolated one.
-/

namespace Unserlob

open Ascii Cursor Writer Lines

variable {U : Type}

/-! ## The source's functions -/

/-- The channel at `start` once its buffer ends at `bof`: its lines are snarfed, its left-overs moved. -/
def snarfLines (start : ℕ) (line : Handler (Pend U)) (bof : ℕ) (mem : List UInt8) (x : Inbox) (w : Pend U) :
    Res (List UInt8 × Inbox × Pend U) :=
  let r := scan (buffer start) line (ch '\n') bof (bof + 1) 0 (mem, w)
  r.2.bind fun y => (leftCmp start y.2.1 bof y.1).map fun z => (z.1, ⟨z.2, x.got, x.seen ++ r.1⟩, y.2.2)

/-- A bot between two events, and whether its loop is to end. -/
structure Wire (U : Type) extends Tap U where
  unloop : Bool

/-- `_sig_cb` -/
def sigCb (s : Wire U) : Wire U := { s with unloop := true }

variable (L : Layout)

/-- `_och_cb` when `recv` returns `nrd` and that is not positive. -/
def hangup (C : Callbacks U) (nrd : BitVec 64) (s : Wire U) : Res (Wire U) := do
  -- exchange hung up?
  let s := sigCb s
  -- up the bof
  let bof := (BitVec.ofNat 64 s.och.bof + nrd).toNat
  let (mem, och, w) ← snarfLines L.OBOF0 (C.oline L) bof s.mem s.och s.w
  pure ⟨⟨mem, och, s.qch, w⟩, s.unloop⟩

inductive WireEvent where
  | tap (e : TapEvent)
  | och (nrd : BitVec 64)
  | qch (nrd : BitVec 64)

/-- `_och_cb`, `_qch_cb` and `_tim_cb`; on the quote channel nothing is done when nothing is read. -/
def WireEvent.step (C : Callbacks U) : WireEvent → Wire U → Res (Wire U)
  | .tap e, s => (e.step L C s.toTap).map fun t => ⟨t, s.unloop⟩
  | .och nrd, s => hangup L C nrd s
  | .qch _, s => .ok s

/-- A receive fails with zero or with a negative number. -/
def WireEvent.allowed : WireEvent → Wire U → Prop
  | .tap e, s => e.allowed L s.toTap
  | .och nrd, _ => nrd.toInt ≤ 0
  | .qch nrd, _ => nrd.toInt ≤ 0

instance WireEvent.decAllowed (e : WireEvent) (s : Wire U) : Decidable (e.allowed L s) := by
  cases e <;> unfold WireEvent.allowed <;> infer_instance

/-- A bot with callbacks on both channels, whose receives succeed and fail in any order. -/
def wireMachine (C : Callbacks U) : Run.Machine (Wire U) WireEvent where
  init s := (tapMachine L C).init s.toTap
  allowed s e := e.allowed L s
  step e s := e.step L C s

instance wireMachine.decAllowed (C : Callbacks U) (s : Wire U) (e : WireEvent) :
    Decidable ((wireMachine L C).allowed s e) :=
  inferInstanceAs (Decidable (e.allowed L s))

/-- **What is wanted of a receive that fails**: the offset and the bytes of the channel stay and no
line is handed to the decoder. -/
def Intact (C : Callbacks U) (nrd : BitVec 64) (s : Wire U) : Prop :=
  ∃ s', hangup L C nrd s = .ok s' ∧ s'.och = s.och ∧
    slice s'.mem L.OBOF0 s.och.bof = slice s.mem L.OBOF0 s.och.bof

variable {L}

/-- **A read that brings something** goes on in the same way. -/
theorem recvLines_eq (start : ℕ) (line : Handler (Pend U)) (chunk mem : List UInt8) (x : Inbox) (w : Pend U) :
    recvLines start line chunk mem x w = (splice mem (start + x.bof) chunk).bind fun m =>
      snarfLines start line (x.bof + chunk.length) m ⟨x.bof, x.got ++ chunk, x.seen⟩ w := by
  rw [recvLines, readLines]
  cases splice mem (start + x.bof) chunk with
  | error e => rfl
  | ok m =>
      simp only [snarfLines, Except.bind]
      generalize scan (buffer start) line (ch '\n') (x.bof + chunk.length) (x.bof + chunk.length + 1) 0
        (m, w) = r
      obtain ⟨lines, e | y⟩ := r
      · rfl
      · simp only [bind, Except.bind]
        cases leftCmp start y.2.1 (x.bof + chunk.length) y.1 <;> rfl

/-! ## The block -/

/-- The block of a bot and its outgoing messages, whatever has been read over them. -/
def Whole (L : Layout) (s : List UInt8 × Pend U) : Prop := Bot.Ok L ⟨s.1, s.2.mbof⟩

theorem Prog.run_whole (P : Prog U) : ∀ {s s' : List UInt8 × Pend U}, Whole L s → P.run L s = .ok s' →
    Whole L s' := by
  induction P with
  | done u =>
      rintro ⟨mem, w⟩ s' h hs
      cases hs
      exact h
  | add m k ih =>
      rintro ⟨mem, w⟩ s' h hs
      obtain ⟨⟨r, b⟩, hb, hk⟩ := bind_ok.mp hs
      apply ih r ?_ hk
      by_cases hf : Bot.Fits L m ⟨mem, w.mbof⟩
      · obtain ⟨b', hb', -, hok, -⟩ := addOmsg_fit h hf
        rw [hb'] at hb
        cases hb
        exact hok
      · obtain ⟨e, he⟩ := addOmsg_over h hf
        rw [he] at hb
        cases hb
  | send k ih =>
      rintro ⟨mem, w⟩ s' h hs
      obtain ⟨⟨out, b⟩, hb, hk⟩ := bind_ok.mp hs
      rw [botSend_eq h] at hb
      cases hb
      refine ih (s := (mem, ⟨w.user, 0, [], _⟩)) ?_ hk
      exact ⟨h.length, Nat.zero_le _⟩

/-- A handler that keeps the block. -/
def Keeps (L : Layout) (line : Handler (Pend U)) : Prop :=
  ∀ p n s s', Whole L s → line p n s = .ok s' → Whole L s'

theorem oline_keeps (C : Callbacks U) : Keeps L (C.oline L) := fun p n s s' h hs => by
  obtain ⟨m, -, hr⟩ := bind_ok.mp hs
  exact Prog.run_whole _ h hr

theorem qline_keeps (C : Callbacks U) : Keeps L (C.qline L) := fun p n s s' h hs => by
  obtain ⟨m, -, hr⟩ := bind_ok.mp hs
  exact Prog.run_whole _ h hr

theorem leftCmp_ok {start bof npr : ℕ} {mem : List UInt8} {z : List UInt8 × ℕ}
    (h : leftCmp start mem bof npr = .ok z) : z.1.length = mem.length ∧ z.2 ≤ bof := by
  rw [leftCmp] at h
  split_ifs at h with hlt
  · obtain ⟨m, hm, he⟩ := bind_ok.mp h
    cases he
    rw [memmove] at hm
    split_ifs at hm
    exact ⟨splice_length hm, Nat.sub_le _ _⟩
  · cases h
    exact ⟨rfl, Nat.zero_le _⟩

section Snarf

variable {start bof : ℕ} {line : Handler (Pend U)} {chunk mem : List UInt8} {x : Inbox} {w : Pend U}
  {y : List UInt8 × Inbox × Pend U}

theorem snarfLines_ok (hk : Keeps L line) (hw : Whole L (mem, w)) (h : snarfLines start line bof mem x w = .ok y) :
    Whole L (y.1, y.2.2) ∧ y.2.1.bof ≤ bof ∧ bof ≤ L.bytes - start ∧
      y.2.1.seen = x.seen ++ (scan (buffer start) line (ch '\n') bof (bof + 1) 0 (mem, w)).1 := by
  obtain ⟨⟨npr, m, v⟩, hs, hl⟩ := bind_ok.mp h
  obtain ⟨z, hz, he⟩ := map_ok.mp hl
  subst he
  have hlen : ∀ s : List UInt8 × Pend U, Whole L s → (buffer start s).length = L.bytes - start := fun s hs => by
    rw [buffer, List.length_drop, Bot.Ok.length hs]
  obtain ⟨hok, -, hle⟩ := scan_bound hlen hk (Nat.zero_le _) (Nat.zero_le _) hw hs
  obtain ⟨hz1, hz2⟩ := leftCmp_ok hz
  exact ⟨⟨hz1.trans hok.length, hok.mbof⟩, hz2, hle, rfl⟩

theorem recvLines_ok (hk : Keeps L line) (hw : Whole L (mem, w))
    (h : recvLines start line chunk mem x w = .ok y) :
    Whole L (y.1, y.2.2) ∧ y.2.1.bof ≤ L.bytes - start := by
  rw [recvLines_eq] at h
  obtain ⟨m, hm, hs⟩ := bind_ok.mp h
  obtain ⟨hok, hb, hle, -⟩ := snarfLines_ok hk ⟨(splice_length hm).trans hw.length, hw.mbof⟩ hs
  exact ⟨hok, hb.trans hle⟩

end Snarf

/-! ## Runs -/

/-- What holds between two events. -/
structure Wire.Inv (L : Layout) (s : Wire U) : Prop where
  whole : Whole L (s.mem, s.w)
  obof : s.och.bof ≤ L.bytes - L.OBOF0

variable {C : Callbacks U} {s s' : Wire U} {nrd : BitVec 64}

theorem hangup_ok (hs : s.Inv L) (h : hangup L C nrd s = .ok s') : s'.Inv L ∧
    s'.och.bof ≤ (BitVec.ofNat 64 s.och.bof + nrd).toNat ∧
    (BitVec.ofNat 64 s.och.bof + nrd).toNat ≤ L.bytes - L.OBOF0 := by
  obtain ⟨y, hy, he⟩ := bind_ok.mp h
  obtain ⟨hok, hb, hle, -⟩ := snarfLines_ok (oline_keeps C) hs.whole hy
  cases he
  exact ⟨⟨hok, hb.trans hle⟩, hb, hle⟩

theorem Wire.Inv.step (hs : s.Inv L) {e : WireEvent} (h : e.step L C s = .ok s') : s'.Inv L := by
  cases e with
  | tap e =>
      obtain ⟨t, ht, rfl⟩ := map_ok.mp h
      cases e with
      | och chunk =>
          obtain ⟨y, hy, rfl⟩ := map_ok.mp ht
          obtain ⟨hok, hb⟩ := recvLines_ok (oline_keeps C) hs.whole hy
          exact ⟨hok, hb⟩
      | qch chunk =>
          obtain ⟨y, hy, rfl⟩ := map_ok.mp ht
          obtain ⟨hok, -⟩ := recvLines_ok (qline_keeps C) hs.whole hy
          exact ⟨hok, hs.obof⟩
      | timer =>
          obtain ⟨y, hy, rfl⟩ := map_ok.mp ht
          exact ⟨Prog.run_whole _ hs.whole hy, hs.obof⟩
  | och nrd => exact (hangup_ok hs h).1
  | qch nrd =>
      cases h
      exact hs

theorem wire_inv {es : List WireEvent} (h : (wireMachine L C).Runs es s) : s.Inv L := by
  refine h.inv (fun s hi => ?_) fun s e s' hs _ he => hs.step he
  obtain ⟨hl, ho, -, hm, -⟩ := hi
  refine ⟨⟨hl, ?_⟩, ?_⟩
  · rw [hm]
    exact Nat.zero_le _
  · rw [ho]
    exact Nat.zero_le _

/-! ## A failed receive -/

theorem offset_toInt (nrd : BitVec 64) {b : ℕ} (hb : b < 2 ^ 62) :
    ((BitVec.ofNat 64 b + nrd).toNat : ℤ) = if 0 ≤ b + nrd.toInt then b + nrd.toInt else 2 ^ 64 + b + nrd.toInt := by
  have h := BitVec.toInt_eq_toNat_cond nrd
  have hlt := nrd.isLt
  rw [BitVec.toNat_add, BitVec.toNat_ofNat]
  split_ifs at h ⊢ <;> omega

/-- **Below the start of the buffer** the offset wraps around, and the scan runs off the block. -/
theorem hangup_wraps (hs : s.Inv L) (hn : s.och.bof + nrd.toInt < 0) : ∃ e, hangup L C nrd s = .error e := by
  cases h : hangup L C nrd s with
  | error e => exact ⟨e, rfl⟩
  | ok s' =>
      obtain ⟨-, -, hle⟩ := hangup_ok hs h
      have hob := hs.obof
      have hbytes : L.bytes ≤ 8192 := Nat.sub_le _ _
      have hoff := offset_toInt nrd (b := s.och.bof) (by omega)
      have hmin := BitVec.le_toInt nrd
      rw [if_neg (by omega)] at hoff
      omega

/-- **A negative number** above that takes bytes off the end. -/
theorem hangup_drops (hs : s.Inv L) (hn : nrd.toInt < 0) (h : hangup L C nrd s = .ok s') :
    s'.och.bof < s.och.bof := by
  obtain ⟨-, hb, hle⟩ := hangup_ok hs h
  have hob := hs.obof
  have hbytes : L.bytes ≤ 8192 := Nat.sub_le _ _
  have hoff := offset_toInt nrd (b := s.och.bof) (by omega)
  have hmin := BitVec.le_toInt nrd
  split_ifs at hoff <;> omega

theorem Wire.Inv.left (hs : s.Inv L) :
    ∃ tail, s.och.bof = tail.length ∧ slice s.mem L.OBOF0 tail.length = tail := by
  have hl : (slice s.mem L.OBOF0 s.och.bof).length = s.och.bof := by
    have hob := hs.obof
    have hlen : s.mem.length = L.bytes := hs.whole.length
    rw [slice, List.length_take, List.length_drop]
    omega
  exact ⟨slice s.mem L.OBOF0 s.och.bof, hl.symm, by rw [hl]⟩

theorem Wire.Inv.offset (hs : s.Inv L) : (BitVec.ofNat 64 s.och.bof + 0).toNat = s.och.bof := by
  have hob := hs.obof
  have hbytes : L.bytes ≤ 8192 := Nat.sub_le _ _
  change (BitVec.ofNat 64 s.och.bof + 0#64).toNat = _
  rw [BitVec.add_zero, BitVec.toNat_ofNat, Nat.mod_eq_of_lt (by omega)]

/-- **Zero** leaves a channel without a line in its buffer as it was. -/
theorem hangup_zero (hs : s.Inv L) (hno : ch '\n' ∉ slice s.mem L.OBOF0 s.och.bof) :
    hangup L C 0 s = .ok { s with unloop := true } := by
  obtain ⟨tail, hb, ht⟩ := hs.left
  rw [hb, ht] at hno
  have hoff := hs.offset
  have hfit : L.OBOF0 + tail.length ≤ s.mem.length := by
    have hlen : s.mem.length = L.bytes := hs.whole.length
    have hob := hs.obof
    obtain ⟨-, h2, -, -, h5, -⟩ := L.bounds
    omega
  have hscan : scan (buffer L.OBOF0) (C.oline L) (ch '\n') tail.length (tail.length + 1) 0 (s.mem, s.w) =
      ([], .ok (0, (s.mem, s.w))) := scan_of_notMem ht hno
  have hleft := left_eq (Or.inr rfl) ht (List.suffix_refl tail) hfit
  rw [putAt_slice ht, Nat.sub_self] at hleft
  have hsnarf : snarfLines L.OBOF0 (C.oline L) s.och.bof s.mem s.och s.w = .ok (s.mem, s.och, s.w) := by
    rw [← hb] at hleft hscan
    rw [snarfLines, hscan]
    simp only [Except.bind, hleft, Except.map, List.append_nil]
  change (snarfLines L.OBOF0 (C.oline L) (BitVec.ofNat 64 s.och.bof + 0).toNat s.mem s.och s.w).bind _ = _
  rw [hoff, hsnarf]
  rfl

theorem notMem_of_hangup (hs : s.Inv L) (h : hangup L C 0 s = .ok s') (hseen : s'.och.seen = s.och.seen) :
    ch '\n' ∉ slice s.mem L.OBOF0 s.och.bof := by
  obtain ⟨tail, hb, ht⟩ := hs.left
  obtain ⟨y, hy, he⟩ := bind_ok.mp h
  obtain ⟨-, -, -, hsn⟩ := snarfLines_ok (oline_keeps C) hs.whole hy
  cases he
  change y.2.1.seen = _ at hseen
  change y.2.1.seen = s.och.seen ++
    (scan (buffer L.OBOF0) (C.oline L) (ch '\n') (BitVec.ofNat 64 s.och.bof + 0).toNat
      ((BitVec.ofNat 64 s.och.bof + 0).toNat + 1) 0 (s.mem, s.w)).1 at hsn
  rw [hseen, hs.offset, hb] at hsn
  rw [hb, ht]
  have hview : (buffer L.OBOF0 (s.mem, s.w)).take tail.length = tail := ht
  exact scan_eq_nil hview (List.self_eq_append_right.mp hsn)

/-- **Receives that fail.** In every state a bot can reach, through receives that succeed and fail in
any order, the offset is at most the size of the buffer, and a receive that fails leaves the channel
as it was just when `recv` returns zero and no line is in the buffer. -/
theorem hangup_intact (L : Layout) (C : Callbacks U) {es : List WireEvent} {s : Wire U}
    (h : (wireMachine L C).Runs es s) : s.och.bof ≤ L.OBOFZ ∧ ∀ nrd : BitVec 64, nrd.toInt ≤ 0 →
      (Intact L C nrd s ↔ nrd = 0 ∧ ch '\n' ∉ slice s.mem L.OBOF0 s.och.bof) := by
  have hs := wire_inv h
  obtain ⟨-, h2, -, -, h5, -⟩ := L.bounds
  have hob := hs.obof
  have hz : L.OBOFZ = 8192 - L.OBOF0 := rfl
  refine ⟨by omega, fun nrd hn => ⟨?_, ?_⟩⟩
  · rintro ⟨s', hr, ho, -⟩
    have hnneg : ¬ nrd.toInt < 0 := fun hneg => by
      have hlt := hangup_drops hs hneg hr
      rw [ho] at hlt
      exact lt_irrefl _ hlt
    obtain rfl : nrd = 0 := BitVec.eq_of_toInt_eq (le_antisymm hn (not_lt.mp hnneg))
    exact ⟨rfl, notMem_of_hangup hs hr (congrArg Inbox.seen ho)⟩
  · rintro ⟨rfl, hno⟩
    exact ⟨_, hangup_zero hs hno, rfl, rfl⟩

/-- **A bot whose buffers are isolated** is left as it was whenever the exchange hangs up in order. -/
theorem isolated_intact {es : List TapEvent} {t : Tap U} (h : ((tapMachine L C).restrict (Tidy L C)).Runs es t)
    (u : Bool) : Intact L C 0 ⟨t, u⟩ := by
  have hinv : t.Inv L := by
    refine Run.Machine.Runs.inv (M := (tapMachine L C).restrict (Tidy L C)) (P := fun s => s.Inv L)
      (fun _ hi => start_tap (C := C) hi) (fun s e s' hs ha he => ?_) h
    obtain ⟨s₁, h₁, -, hI⟩ := tidy_step hs ha.1 ha.2
    cases h₁.symm.trans he
    exact hI
  obtain ⟨h1, h2, -, -, h5, -⟩ := L.bounds
  have hob : t.och.bof ≤ 2048 := hinv.obof
  have hs : Wire.Inv L ⟨t, u⟩ := ⟨hinv.pend.bot, by change t.och.bof ≤ _; omega⟩
  have hno : ch '\n' ∉ slice t.mem L.OBOF0 t.och.bof := by
    rw [hinv.och.tail]
    exact notMem_cut _
  exact ⟨_, hangup_zero hs hno, rfl, rfl⟩

/-- Half a line. -/
def cutEvents : List WireEvent := [.tap (.och [ch 'F', ch 'I'])]

theorem cutEvents_runs : ∃ s, (wireMachine sampleLayout sampleCallbacks).Runs cutEvents s ∧
    s.och.bof = 2 ∧ ch '\n' ∉ slice s.mem sampleLayout.OBOF0 s.och.bof ∧
    ∃ s', hangup sampleLayout sampleCallbacks (-1) s = .ok s' ∧ s'.och.bof = 1 := by
  have hexec : ((wireMachine sampleLayout sampleCallbacks).exec cutEvents ⟨sampleTap, false⟩).any
      (fun s => s.och.bof = 2 ∧ ch '\n' ∉ slice s.mem sampleLayout.OBOF0 s.och.bof ∧
        (hangup sampleLayout sampleCallbacks (-1) s).toOption.any fun s' => s'.och.bof = 1) = true := by
    decide +kernel
  have hi : (wireMachine sampleLayout sampleCallbacks).init ⟨sampleTap, false⟩ := sampleTap_init
  obtain ⟨s, hr, hx⟩ := Run.Machine.runs_of_any _ hi hexec
  obtain ⟨hb, hno, hx⟩ := of_decide_eq_true hx
  cases hc : hangup sampleLayout sampleCallbacks (-1) s with
  | error e =>
      rw [hc] at hx
      cases hx
  | ok s' =>
      rw [hc] at hx
      exact ⟨s, hr, hb, hno, s', hc, of_decide_eq_true hx⟩

/-- When the exchange then hangs up in order, the half is still there. -/
theorem hangup_intact_half : ∃ s, (wireMachine sampleLayout sampleCallbacks).Runs cutEvents s ∧
    s.och.bof = 2 ∧ Intact sampleLayout sampleCallbacks 0 s := by
  obtain ⟨s, hr, hb, hno, -⟩ := cutEvents_runs
  have h0 : (0 : BitVec 64).toInt ≤ 0 := by decide
  exact ⟨s, hr, hb, ((hangup_intact sampleLayout sampleCallbacks hr).2 0 h0).mpr ⟨rfl, hno⟩⟩

/-- After an error its second byte is lost. -/
theorem cutEvents_cut : ∃ s, (wireMachine sampleLayout sampleCallbacks).Runs cutEvents s ∧
    s.och.bof = 2 ∧ (-1 : BitVec 64).toInt ≤ 0 ∧
    (∃ s', hangup sampleLayout sampleCallbacks (-1) s = .ok s' ∧ s'.och.bof = 1) ∧
    ¬ Intact sampleLayout sampleCallbacks (-1) s := by
  obtain ⟨s, hr, hb, -, s', hs, hb'⟩ := cutEvents_runs
  refine ⟨s, hr, hb, by decide, ⟨s', hs, hb'⟩, ?_⟩
  rintro ⟨s₁, h₁, ho, -⟩
  rw [hs] at h₁
  cases h₁
  rw [ho, hb] at hb'
  cases hb'

end Unserlob
