import Unserlob.Channel.Bot
import Unserlob.Lib.Run
import Unserlob.Lol.Recv

/-!
# Messages and the room for them

The encoders are given a size that only some of their writers look at.

* `Complete`: a message is stored as a whole, or refused;
* `reply`, `replies`: the exchange's `SEND_OMSG` and the two lines of `diss_exe`, with their buffers of
  256 bytes;
* `outMachine`: a bot that adds and sends messages; `Kept`: what is wanted of a step;
* **`complete_iff`**: messages are stored as a whole just when they fit.
-/

namespace Unserlob

open Ascii Cursor Writer

/-- An encoder stores the text `t` and returns its length, or it returns nothing positive. -/
def Complete (bsz : ℕ) (t : List UInt8) (r : Res (ℤ × Buf)) : Prop :=
  ∃ n s, r = .ok (n, s) ∧ (n ≤ 0 ∨ (s.Holds t ∧ n = t.length ∧ t.length ≤ bsz))

/-- `SEND_OMSG`, whose buffer holds `junk` at first, with the bytes given to `send`. -/
def reply (junk : List UInt8) (m : Omsg Decimal64) : Res (List UInt8) := do
  let (n, buf) ← sendOmsg 256 m ⟨junk, 0⟩
  if 0 < n then pure (buf.mem.take n.toNat) else pure []

/-- The buffer of a party in `diss_exe`, which takes a fill and the account behind it, with the bytes
given to `send`. -/
def replies (junk : List UInt8) (fil acc : Omsg Decimal64) : Res (List UInt8) := do
  let (n, buf) ← sendOmsg 256 fil ⟨junk, 0⟩
  let len := n.toNat
  let (n, rest) ← sendOmsg (subSz 256 len) acc ⟨buf.mem.drop len, 0⟩
  pure ((buf.mem.take len ++ rest.mem).take (len + n.toNat))

/-! ## The encoders -/

theorem not_complete_error {bsz : ℕ} {t : List UInt8} {e : Fault} : ¬ Complete bsz t (.error e) := by
  rintro ⟨n, s, he, -⟩
  cases he

theorem complete_sendOmsg (m : Omsg Decimal64) (mem : List UInt8) :
    Complete mem.length (omsgText m) (sendOmsg mem.length m ⟨mem, 0⟩) ↔
      m.body.valid ∧ (omsgText m).length ≤ mem.length := by
  by_cases hv : m.body.valid
  · by_cases hle : (omsgText m).length ≤ mem.length
    · obtain ⟨s, hs, hh, -⟩ := sendOmsg_fit hv hle hle
      refine ⟨fun _ => ⟨hv, hle⟩, fun _ => ⟨sentLen m, s, hs, ?_⟩⟩
      rw [sentLen]
      by_cases hu : m.body = .unk
      · rw [if_pos hu]
        exact Or.inl (by decide)
      · rw [if_neg hu]
        exact Or.inr ⟨hh, rfl, hle⟩
    · rw [sendOmsg_over hv le_rfl (not_le.mp hle)]
      exact iff_of_false not_complete_error fun h => hle h.2
  · obtain ⟨e, he⟩ := sendOmsg_invalid mem.length hv ⟨mem, 0⟩
    rw [he]
    exact iff_of_false not_complete_error fun h => hv h.1

theorem complete_sendQmsg (m : Qmsg Decimal64) (mem : List UInt8) :
    Complete mem.length (qmsgText m) (sendQmsg mem.length m ⟨mem, 0⟩) ↔
      (m.body.sent → (qmsgText m).length ≤ mem.length) := by
  by_cases hv : m.body.sent
  · by_cases hle : (qmsgText m).length ≤ mem.length
    · obtain ⟨s, hs, hh, -⟩ := sendQmsg_fit hv hle hle
      exact ⟨fun _ _ => hle, fun _ => ⟨_, s, hs, Or.inr ⟨hh, rfl, hle⟩⟩⟩
    · rw [sendQmsg_over hv le_rfl (not_le.mp hle)]
      exact iff_of_false not_complete_error fun h => hle (h hv)
  · rw [sendQmsg_unsent hv]
    exact ⟨fun _ h => absurd h hv, fun _ => ⟨0, _, rfl, Or.inl le_rfl⟩⟩

theorem reply_iff (m : Omsg Decimal64) {junk : List UInt8} (hj : junk.length = 256) :
    reply junk m = .ok (if m.body = .unk then [] else omsgText m) ↔
      m.body.valid ∧ (omsgText m).length ≤ 256 := by
  by_cases hv : m.body.valid
  · by_cases hle : (omsgText m).length ≤ 256
    · obtain ⟨s, hs, hh, -⟩ := sendOmsg_fit hv hle (show _ ≤ junk.length by rw [hj]; exact hle)
      refine ⟨fun _ => ⟨hv, hle⟩, fun _ => ?_⟩
      rw [reply, hs, sentLen]
      by_cases hu : m.body = .unk
      · simp only [if_pos hu]
        rfl
      · have hpos : (0 : ℤ) < (omsgText m).length := by
          have : (omsgText m).length ≠ 0 := by simp [omsgText]
          omega
        have ht := hh.take
        rw [hh.len] at ht
        simp only [if_neg hu, bind, Except.bind, if_pos hpos, Int.toNat_natCast, ht]
        rfl
    · rw [reply, sendOmsg_over hv hj.le (by omega)]
      refine iff_of_false (fun he => ?_) fun h => hle h.2
      cases he
  · obtain ⟨e, he⟩ := sendOmsg_invalid 256 hv ⟨junk, 0⟩
    rw [reply, he]
    refine iff_of_false (fun he => ?_) fun h => hv h.1
    cases he

/-- **The two lines of a party** go out one behind the other just when the buffer takes both. -/
theorem replies_iff (ins : List UInt8) (fid : ClobOid Decimal64) (x : UnxsExe Decimal64) (con : Uid)
    (a : UnxsExa Decimal64) {junk : List UInt8} (hj : junk.length = 256) :
    let fil : Omsg Decimal64 := ⟨ins, .fil fid x con⟩
    let acc : Omsg Decimal64 := ⟨ins, .acc a⟩
    replies junk fil acc = .ok (omsgText fil ++ omsgText acc) ↔
      fil.body.valid ∧ (omsgText fil).length + (omsgText acc).length ≤ 256 := by
  intro fil acc
  by_cases hv : fil.body.valid
  · by_cases hle : (omsgText fil).length ≤ 256
    · obtain ⟨buf, hs, hh, hl⟩ := sendOmsg_fit hv hle (show _ ≤ junk.length by rw [hj]; exact hle)
      have hlen : sentLen fil = (omsgText fil).length := if_neg nofun
      have hlen' : sentLen acc = (omsgText acc).length := if_neg nofun
      have hroom : (buf.mem.drop (omsgText fil).length).length = 256 - (omsgText fil).length := by
        rw [List.length_drop, hl, hj]
      have htake : buf.mem.take (omsgText fil).length = omsgText fil := by
        have ht := hh.take
        rwa [hh.len] at ht
      rw [replies, hs, hlen]
      simp only [bind, Except.bind, Int.toNat_natCast, subSz_of_le hle, htake]
      by_cases hacc : (omsgText acc).length ≤ 256 - (omsgText fil).length
      · obtain ⟨rest, hs', hh', -⟩ := sendOmsg_fit (m := acc) trivial hacc (hacc.trans hroom.ge)
        have ht := hh'.take
        rw [hh'.len] at ht
        rw [hs', hlen']
        refine iff_of_true ?_ ⟨hv, by omega⟩
        simp only [Int.toNat_natCast, List.take_length_add_append, ht]
        rfl
      · rw [sendOmsg_over (m := acc) trivial hroom.le (by omega)]
        refine iff_of_false (fun he => ?_) fun h => by omega
        cases he
    · rw [replies, sendOmsg_over hv hj.le (by omega)]
      refine iff_of_false (fun he => ?_) fun h => by omega
      cases he
  · obtain ⟨e, he⟩ := sendOmsg_invalid 256 hv ⟨junk, 0⟩
    rw [replies, he]
    refine iff_of_false (fun he => ?_) fun h => hv h.1
    cases he

theorem sendOmsg_stored {m : Omsg Decimal64} {bsz : ℕ} {mem : List UInt8} {r : ℤ × Buf} (hmem : mem.length ≤ bsz)
    (h : sendOmsg bsz m ⟨mem, 0⟩ = .ok r) : m.body.valid ∧ (omsgText m).length ≤ mem.length := by
  by_cases hv : m.body.valid
  · refine ⟨hv, ?_⟩
    by_contra hlt
    rw [sendOmsg_over hv hmem (not_le.mp hlt)] at h
    cases h
  · obtain ⟨e, he⟩ := sendOmsg_invalid bsz hv ⟨mem, 0⟩
    rw [he] at h
    cases h

theorem reply_ok {m : Omsg Decimal64} {junk t : List UInt8} (hj : junk.length = 256) (h : reply junk m = .ok t) :
    t = if m.body = .unk then [] else omsgText m := by
  obtain ⟨r, hr, -⟩ := bind_ok.mp h
  obtain ⟨hv, hle⟩ := sendOmsg_stored hj.le hr
  exact Except.ok.inj (h.symm.trans ((reply_iff m hj).mpr ⟨hv, by rw [← hj]; exact hle⟩))

theorem replies_ok {ins : List UInt8} {fid : ClobOid Decimal64} {x : UnxsExe Decimal64} {con : Uid}
    {a : UnxsExa Decimal64} {junk t : List UInt8} (hj : junk.length = 256)
    (h : replies junk ⟨ins, .fil fid x con⟩ ⟨ins, .acc a⟩ = .ok t) :
    t = omsgText ⟨ins, .fil fid x con⟩ ++ omsgText ⟨ins, .acc a⟩ := by
  obtain ⟨r, hr, h'⟩ := bind_ok.mp h
  obtain ⟨hv, hle⟩ := sendOmsg_stored hj.le hr
  obtain ⟨buf, hs, -, hl⟩ := sendOmsg_fit hv (hle.trans hj.le) hle
  cases hr.symm.trans hs
  have hlen : sentLen (⟨ins, .fil fid x con⟩ : Omsg Decimal64) = (omsgText ⟨ins, .fil fid x con⟩).length := if_neg nofun
  obtain ⟨r, hr', -⟩ := bind_ok.mp h'
  rw [hlen, Int.toNat_natCast, subSz_of_le (hle.trans hj.le)] at hr'
  obtain ⟨-, hle'⟩ := sendOmsg_stored (by rw [List.length_drop, hl, hj]) hr'
  rw [List.length_drop, hl, hj] at hle'
  rw [hj] at hle
  exact Except.ok.inj (h.symm.trans ((replies_iff ins fid x con a hj).mpr ⟨hv, by omega⟩))

/-! ## The outgoing messages of a bot -/

inductive OutEvent where
  | add (m : Omsg Decimal64)
  | send

/-- A bot that calls `add_omsg` and `bot_send` in any order. -/
def outMachine (L : Layout) : Run.Machine Bot OutEvent where
  init b := b.mem.length = L.bytes ∧ b.mbof = 0
  allowed _ _ := True
  step
    | .add m, b => (addOmsg L m b).map Prod.snd
    | .send, b => (botSend L b).map Prod.snd

instance outMachine.decAllowed (L : Layout) (b : Bot) (e : OutEvent) :
    Decidable ((outMachine L).allowed b e) :=
  inferInstanceAs (Decidable True)

/-- **What is wanted of a step**: a message goes behind those there as a whole, or it is refused and
nothing changes; one that does not fit is refused. -/
def Kept (L : Layout) (b : Bot) (e : OutEvent) (b' : Bot) : Prop :=
  b'.mbof ≤ L.MBOFZ ∧
    match e with
    | .send => b'.mbof = 0 ∧ botSend L b = .ok (b.out L, b')
    | .add m =>
        (addOmsg L m b = .ok (-1, b') ∧ b'.mbof = b.mbof ∧ b'.out L = b.out L) ∨
          (addOmsg L m b = .ok (0, b') ∧ b.mbof + (omsgText m).length ≤ L.MBOFZ ∧
            b'.mbof = b.mbof + (omsgText m).length ∧ b'.out L = b.out L ++ omsgText m)

/-- The condition: the block has room for what is added. -/
def Room (L : Layout) (b : Bot) : OutEvent → Prop
  | .add m => b.Fits L m
  | .send => True

variable {L : Layout} {b b' : Bot}

theorem add_kept (h : b.Ok L) {m : Omsg Decimal64} (hf : b.Fits L m) :
    ∃ b', (addOmsg L m b).map Prod.snd = .ok b' ∧ Kept L b (.add m) b' ∧ b'.Ok L := by
  obtain ⟨b', hs, -, hok, hn, hout⟩ := addOmsg_fit h hf
  refine ⟨b', by rw [hs]; rfl, ⟨hok.mbof.trans h.room.2.2.2, ?_⟩, hok⟩
  by_cases hu : m.body = .unk
  · rw [if_pos hu] at hs hn hout
    rw [List.append_nil] at hout
    exact Or.inl ⟨hs, hn, hout⟩
  · rw [if_neg hu] at hs hn hout
    exact Or.inr ⟨hs, hf.2.trans h.room.2.2.2, hn, hout⟩

theorem send_kept (h : b.Ok L) :
    ∃ b', (botSend L b).map Prod.snd = .ok b' ∧ Kept L b .send b' ∧ b'.Ok L := by
  rw [botSend_eq h]
  exact ⟨_, rfl, ⟨Nat.zero_le _, rfl, botSend_eq h⟩, h.length, Nat.zero_le _⟩

/-- **Messages and room.** `send_omsg` and `send_qmsg` store every message as a whole or refuse it, the
exchange sends every reply and both lines of a party as they are, and whatever a bot adds and sends is dealt
with and kept, just when messages fit. -/
theorem complete_iff (L : Layout) :
    (∀ m mem, Complete mem.length (omsgText m) (sendOmsg mem.length m ⟨mem, 0⟩) ↔
      m.body.valid ∧ (omsgText m).length ≤ mem.length) ∧
    (∀ m mem, Complete mem.length (qmsgText m) (sendQmsg mem.length m ⟨mem, 0⟩) ↔
      (m.body.sent → (qmsgText m).length ≤ mem.length)) ∧
    (∀ m junk, junk.length = 256 → (reply junk m = .ok (if m.body = .unk then [] else omsgText m) ↔
      m.body.valid ∧ (omsgText m).length ≤ 256)) ∧
    (∀ ins fid x con a junk, junk.length = 256 →
      (replies junk ⟨ins, .fil fid x con⟩ ⟨ins, .acc a⟩ =
          .ok (omsgText ⟨ins, .fil fid x con⟩ ++ omsgText ⟨ins, .acc a⟩) ↔
        (OBody.fil fid x con).valid ∧
          (omsgText ⟨ins, .fil fid x con⟩).length + (omsgText ⟨ins, .acc a⟩).length ≤ 256)) ∧
    (∀ es b, (outMachine L).init b →
      ((outMachine L).Deals (Kept L) es b ↔ (outMachine L).Meets (Room L) es b)) := by
  refine ⟨complete_sendOmsg, complete_sendQmsg, fun m junk => reply_iff m,
    fun ins fid x con a junk => replies_iff ins fid x con a, fun es b h0 => ?_⟩
  refine Run.Machine.deals_iff_meets (I := fun b => b.Ok L) ?_ ?_ es ⟨h0.1, by rw [h0.2]; exact Nat.zero_le _⟩
  · intro b e h _ hC
    cases e with
    | add m => exact add_kept h hC
    | send => exact send_kept h
  · intro b e b' h _ hs _
    cases e with
    | add m =>
        by_contra hC
        obtain ⟨err, he⟩ := addOmsg_over h hC
        change (addOmsg L m b).map Prod.snd = .ok b' at hs
        rw [he] at hs
        cases hs
    | send => trivial

/-- A price of 301 digits. -/
def wideLine : List UInt8 :=
  bytes (['B', 'U', 'Y', '\t', 'I', '\t', '1', '\t', '1'] ++ List.replicate 300 '0' ++ ['\n'])

/-- The reply to an order that is entered with identifier `1`. -/
def oidReply (m : Omsg Decimal64) : Omsg Decimal64 :=
  match m.body with
  | .ord o => ⟨m.ins, .oid ⟨o.typ, o.sid, o.lmt, 1, 1⟩⟩
  | _ => ⟨m.ins, .unk⟩

/-- A line that is read as an order and whose reply is written past the end of its buffer. -/
theorem wideLine_overrun : ∃ m, recvOmsg ⟨0, nilOid⟩ wideLine wideLine.length = .ok m ∧ m.body.typ = 7 ∧
    reply (List.replicate 256 0) (oidReply m) = .error .store ∧
    ¬ Complete 256 (omsgText (oidReply m)) (sendOmsg 256 (oidReply m) ⟨List.replicate 256 0, 0⟩) := by
  have h : (recvOmsg ⟨0, nilOid⟩ wideLine wideLine.length).toOption.any (fun m =>
      decide (m.body.typ = 7 ∧ (oidReply m).body.valid ∧ 256 < (omsgText (oidReply m)).length)) = true := by
    decide +kernel
  cases hr : recvOmsg ⟨0, nilOid⟩ wideLine wideLine.length with
  | error e => rw [hr] at h; cases h
  | ok m =>
      rw [hr] at h
      obtain ⟨ht, hv, hlt⟩ := of_decide_eq_true h
      have hj : (List.replicate 256 (0 : UInt8)).length = 256 := List.length_replicate
      have ho := sendOmsg_over hv hj.le (by rw [hj]; exact hlt)
      refine ⟨m, rfl, ht, by rw [reply, ho]; rfl, ?_⟩
      rw [ho]
      exact not_complete_error

end Unserlob
