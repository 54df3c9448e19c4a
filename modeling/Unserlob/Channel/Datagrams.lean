import Unserlob.Channel.Framing

/-!
# Datagrams (`_qch_cb`, the `beef_cb` of `lobcch.c`)

A multicast receiver gets as much of a datagram as its buffer has room for, and returns when that is nothing.

* `Loop.arrivals`: such a receiver, datagram after datagram;
* `Reading.Open`: what is wanted of its buffer; `Loop.InTime`, `Loop.Good`: the condition on what arrives;
* `arrival_inv`: one datagram; `full_stays`: a full buffer is one for good;
* **`open_iff`**: there is room as long as the decoder comes back and a line ends in time.
-/

namespace Unserlob

open Ascii Cursor Writer Lines

variable {W : Type}

/-- Any datagram may arrive, an empty one too. -/
def Loop.arrivals (p : Loop W) : Run.Machine (Reading W) (List UInt8) where
  init := p.machine.init
  allowed _ _ := True
  step d s :=
    let chunk := d.take (subSz p.size s.bof)
    -- `nrd <= 0`
    if chunk = [] then .ok s else (p.call chunk s).2

/-- **What is wanted**: there is room for a byte, and lines that fit are handed to the decoder. -/
structure Reading.Open (p : Loop W) (s : Reading W) : Prop where
  room : s.bof < p.size
  lines : ∀ d, d ≠ [] → d.length ≤ p.size - s.bof → p.Returns s d →
    ∃ s', p.arrivals.step d s = .ok s' ∧ s'.seen = (cut (ch '\n') (s.got ++ d)).1

/-- A datagram that fills the buffer ends a line before it does. -/
def Loop.InTime (p : Loop W) (s : Reading W) (d : List UInt8) : Prop :=
  p.size ≤ s.bof + d.length → ch '\n' ∈ d.take (p.size - s.bof)

variable {p : Loop W} {s s' : Reading W} {d : List UInt8}

theorem arrival_nil (h : d.take (subSz p.size s.bof) = []) : p.arrivals.step d s = .ok s := if_pos h

theorem arrival_call (h : d.take (subSz p.size s.bof) ≠ []) :
    p.arrivals.step d s = (p.call (d.take (subSz p.size s.bof)) s).2 := if_neg h

/-- What holds between two datagrams. -/
structure Reading.Bounded (p : Loop W) (s : Reading W) : Prop where
  inv : s.Inv p
  bof : s.bof ≤ p.size

theorem Reading.Bounded.length_tail (h : s.Bounded p) : s.tail.length = s.bof := by
  rw [h.inv.framed.bof, h.inv.framed.tail]

/-- **A full buffer stays as it is**, whatever arrives. -/
theorem full_stays (h : s.bof = p.size) (d : List UInt8) : p.arrivals.step d s = .ok s := by
  refine arrival_nil ?_
  rw [h, subSz_of_le le_rfl, Nat.sub_self, List.take_zero]

theorem arrival_inv (h : s.Bounded p) (hs : p.arrivals.step d s = .ok s') :
    s'.Bounded p ∧ s'.bof = (cut (ch '\n') (s.tail ++ d.take (p.size - s.bof))).2.length := by
  by_cases hnil : d.take (subSz p.size s.bof) = []
  · rw [arrival_nil hnil] at hs
    cases hs
    rw [subSz_of_le h.bof] at hnil
    refine ⟨h, ?_⟩
    rw [hnil, List.append_nil, h.inv.framed.tail, cut_of_notMem (notMem_cut _), ← h.inv.framed.bof]
  · rw [arrival_call hnil] at hs
    rw [subSz_of_le h.bof] at hnil hs
    have hlen : (d.take (p.size - s.bof)).length ≤ p.size - s.bof := List.length_take_le _ _
    obtain ⟨hI, hgot⟩ := call_inv h.inv ⟨hnil, hlen⟩ hs
    have hbof : s'.bof = (cut (ch '\n') (s.tail ++ d.take (p.size - s.bof))).2.length := by
      rw [hI.framed.bof, hgot, h.inv.got]
    have hle := length_cut_le (ch '\n') (s.tail ++ d.take (p.size - s.bof))
    rw [List.length_append, h.length_tail] at hle
    have hroom := h.bof
    exact ⟨⟨hI, by omega⟩, hbof⟩

theorem arrival_room (h : s.Bounded p) (hs : p.arrivals.step d s = .ok s') : s'.bof < p.size ↔ p.InTime s d := by
  have hbof := (arrival_inv h hs).2
  have hroom := h.bof
  have hlen : (s.tail ++ d.take (p.size - s.bof)).length = s.bof + min (p.size - s.bof) d.length := by
    rw [List.length_append, h.length_tail, List.length_take]
  constructor
  · intro hlt hfull
    by_contra hno
    have htail : ch '\n' ∉ s.tail := by
      rw [h.inv.framed.tail]
      exact notMem_cut _
    rw [cut_of_notMem (fun hm => (List.mem_append.mp hm).elim htail hno), hlen] at hbof
    omega
  · intro hC
    by_cases hfull : p.size ≤ s.bof + d.length
    · have := length_cut_lt (List.mem_append_right s.tail (hC hfull))
      omega
    · have := length_cut_le (ch '\n') (s.tail ++ d.take (p.size - s.bof))
      omega

theorem open_iff_room (h : s.Bounded p) : s.Open p ↔ s.bof < p.size := by
  refine ⟨Reading.Open.room, fun hroom => ⟨hroom, fun d hd hlen hret => ?_⟩⟩
  have hsub := subSz_of_le h.bof
  have htake : d.take (subSz p.size s.bof) = d := by rw [hsub, List.take_of_length_le hlen]
  obtain ⟨s', hs⟩ := (call_ok_iff h.inv ⟨hd, hlen⟩).mpr hret
  obtain ⟨hI, hgot⟩ := call_inv h.inv ⟨hd, hlen⟩ hs
  refine ⟨s', ?_, ?_⟩
  · rw [arrival_call (by rw [htake]; exact hd), htake, hs]
  · rw [hI.framed.seen, hgot]

/-- The condition: the decoder comes back from every line that a datagram ends, and a line ends in time. -/
def Loop.Good (p : Loop W) (s : Reading W) (d : List UInt8) : Prop :=
  p.Returns s (d.take (p.size - s.bof)) ∧ p.InTime s d

theorem arrival_ok_iff (h : s.Bounded p) :
    (∃ s', p.arrivals.step d s = .ok s') ↔ p.Returns s (d.take (p.size - s.bof)) := by
  have hsub := subSz_of_le h.bof
  by_cases hnil : d.take (p.size - s.bof) = []
  · have htail : ch '\n' ∉ s.tail ++ d.take (p.size - s.bof) := by
      rw [hnil, List.append_nil, h.inv.framed.tail]
      exact notMem_cut _
    refine iff_of_true ⟨s, arrival_nil (by rw [hsub, hnil])⟩ ?_
    rw [Loop.Returns, cut_of_notMem htail]
    trivial
  · rw [arrival_call (by rw [hsub]; exact hnil), hsub]
    exact call_ok_iff h.inv ⟨hnil, List.length_take_le _ _⟩

theorem arrivals_iff (p : Loop W) (es : List (List UInt8)) {s : Reading W} (hs : p.machine.init s) :
    p.arrivals.Deals (fun _ _ s' => s'.Open p) es s ↔ p.arrivals.Meets p.Good es s := by
  refine Run.Machine.deals_iff_meets (I := fun s => s.Bounded p) ?_ ?_ es
    ⟨start_inv hs, hs.2.1.le.trans (Nat.zero_le _)⟩
  · intro s d h _ hC
    obtain ⟨s', hs⟩ := (arrival_ok_iff h).mpr hC.1
    have hb := (arrival_inv h hs).1
    exact ⟨s', hs, (open_iff_room hb).mpr ((arrival_room h hs).mpr hC.2), hb⟩
  · exact fun s d s' h _ hs hO => ⟨(arrival_ok_iff h).mp ⟨s', hs⟩, (arrival_room h hs).mp hO.room⟩

/-- **Receivers stay open** just as long as the decoder comes back and a line ends before the buffer is full. -/
theorem open_iff :
    (∀ (B : QuoteBot W) es s, (Loop.qch B).machine.init s →
      ((Loop.qch B).arrivals.Deals (fun _ _ s' => s'.Open (.qch B)) es s ↔
        (Loop.qch B).arrivals.Meets (Loop.qch B).Good es s)) ∧
    ∀ (C : Candle W) es s, (Loop.beef C).machine.init s →
      ((Loop.beef C).arrivals.Deals (fun _ _ s' => s'.Open (.beef C)) es s ↔
        (Loop.beef C).arrivals.Meets (Loop.beef C).Good es s) :=
  ⟨fun B es _ => arrivals_iff (.qch B) es, fun C es _ => arrivals_iff (.beef C) es⟩

theorem arrival_quiet (h : s.Bounded p) (hd : d ≠ []) (hlen : d.length ≤ p.size - s.bof) (hno : ch '\n' ∉ d) :
    ∃ s', p.arrivals.step d s = .ok s' ∧ s'.bof = s.bof + d.length := by
  have htail : ch '\n' ∉ s.tail ++ d := fun hm => (List.mem_append.mp hm).elim
    (by rw [h.inv.framed.tail]; exact notMem_cut _) hno
  have hret : p.Returns s d := by
    rw [Loop.Returns, cut_of_notMem htail]
    trivial
  have htake : d.take (subSz p.size s.bof) = d := by rw [subSz_of_le h.bof, List.take_of_length_le hlen]
  obtain ⟨s', hs⟩ := (call_ok_iff h.inv ⟨hd, hlen⟩).mpr hret
  have hstep : p.arrivals.step d s = .ok s' := by rw [arrival_call (by rw [htake]; exact hd), htake, hs]
  refine ⟨s', hstep, ?_⟩
  rw [(arrival_inv h hstep).2, List.take_of_length_le hlen, cut_of_notMem htail, List.length_append, h.length_tail]

/-- A candle maker that does nothing with quotes. -/
def idleBeef : Loop Unit := .beef ⟨2, fun _ => 0, fun _ w => .ok w⟩

/-- A datagram as long as the buffer. -/
def flood : List UInt8 := List.replicate 4096 (ch 'x')

/-- Nothing is read after it. -/
theorem flood_wedges : ∃ s, idleBeef.arrivals.Runs [flood] s ∧ ¬ s.Open idleBeef ∧
    ∀ d, idleBeef.arrivals.step d s = .ok s := by
  have h0 : idleBeef.arrivals.init ⟨List.replicate 4096 0, 0, (), [], []⟩ :=
    ⟨List.length_replicate, rfl, rfl, rfl⟩
  have hb : Reading.Bounded idleBeef ⟨List.replicate 4096 0, 0, (), [], []⟩ := ⟨start_inv h0, Nat.zero_le _⟩
  have hlen : flood.length = 4096 := List.length_replicate
  have hno : ch '\n' ∉ flood := fun hm => absurd (List.eq_of_mem_replicate hm) (by decide)
  obtain ⟨s, hs, hbof⟩ := arrival_quiet hb (List.ne_nil_of_length_pos (by omega)) hlen.le hno
  have hfull : s.bof = idleBeef.size := by rw [hbof, hlen, Nat.zero_add]; rfl
  exact ⟨s, Run.Machine.Runs.next (.start h0) trivial hs, fun hO => hO.room.ne hfull, full_stays hfull⟩

end Unserlob
