import Unserlob.Exchange.Conns
import Unserlob.Exchange.Books
import Unserlob.Exchange.Hash

/-!
# Orders and the instruments they name (`hins`, `data_cb`)

Both exchanges look up the instrument of a line by its hash and hand the order or the cancellation to
the book of that number.

* `omsgAddOrdSc`: the auctioneer's `omsg_add_ord`;
* `trading`: the tables `main` makes of the names; `Daemon.line`: the body of the loop in `data_cb`;
* `FirstHash`: the number of the first instrument with a hash; `hins_first`, `hins_none`;
* `apply_frame`: an order changes its own book only;
* **`routed_by_hash`**: a line reaches the first instrument with the hash of its column.
-/

namespace Unserlob

open Ascii Cursor Table

variable {B : Type}

/-- `omsg_add_ord` of `cabot.c` -/
def omsgAddOrdSc (C : Clob B) (name : ℕ → List UInt8) (junk : List UInt8) (fd : ℤ) (u : Uid) (i : ℕ)
    (o : ClobOrd Decimal64) (s : Books B) : Res (Books B) := do
  if ¬ (o.typ = clobTypeMkt ∨ o.typ = clobTypeLmt) then pure s
  else
    let b ← getAt s.clob i
    let (oi, b) := C.clobAdd b { o with usr := u.setWidth 64 }
    let s := { s with clob := s.clob.set i b }
    if oi.qid ≠ 0 then sendTo junk fd ⟨name i, .oid oi⟩ s else pure s

section Line

variable (d : Daemon) (C : Clob B)

/-- `instr`, `instz` and `insth` for the names on the command line. -/
def trading (bufoff : ℕ) (hash : List UInt8 → BitVec 32) (names : List (List UInt8)) : Instruments where
  bufoff := bufoff
  hash := hash
  insth := names.map hash
  name j := names.getD j []

/-- An exchange as a client meets it. -/
def Daemon.exch (I : Instruments) (c : ClientLine) : Exch (Books B) where
  bufoff := I.bufoff
  hash := I.hash
  insth := I.insth
  stack _ := c.stack
  addOrd :=
    match d with
    | .lobot => omsgAddOrd C I.name c.junk c.fd c.uid
    | .cabot => omsgAddOrdSc C I.name c.junk c.fd c.uid
  delOid := omsgDelOid C I.name c.junk c.fd

/-- The body of the loop in `data_cb`. -/
def Daemon.line (I : Instruments) (c : ClientLine) (s : Books B) : Res (Books B) :=
  ((d.exch C I c).line (c.line ++ c.rest) c.line.length (c.line ++ c.rest, s)).map Prod.snd

/-- What the `switch` in `data_cb` does with a message for book `i`. -/
def Daemon.apply (I : Instruments) (c : ClientLine) (i : ℕ) : OBody Decimal64 → Books B → Res (Books B)
  | .ord o, s => (d.exch C I c).addOrd i o s
  | .can o, s => (d.exch C I c).delOid i o s
  | _, s => .ok s

end Line

/-- Instrument `j` is the first whose name has the hash of `ins`. -/
def FirstHash (hash : List UInt8 → BitVec 32) (names : List (List UInt8)) (ins : List UInt8) (j : ℕ) : Prop :=
  (∃ nm, names[j]? = some nm ∧ hash nm = hash ins) ∧
    ∀ i < j, ∀ nm, names[i]? = some nm → hash nm ≠ hash ins

/-! ## The lookup -/

section Lookup

variable {hash : List UInt8 → BitVec 32} {names : List (List UInt8)} {ins : List UInt8}

theorem hins_first (hne : ins ≠ []) {j : ℕ} (h : FirstHash hash names ins j) :
    hins hash (names.map hash) ins = j := by
  obtain ⟨⟨nm, hj, he⟩, hmin⟩ := h
  have hf : (names.map hash).findIdx? (· == hash ins) = some j := by
    rw [List.findIdx?_eq_some_iff_getElem]
    obtain ⟨hlt, hget⟩ := List.getElem?_eq_some_iff.mp hj
    refine ⟨by simpa using hlt, by simp [hget, he], fun i hi => ?_⟩
    have := hmin i hi _ (List.getElem?_eq_getElem (by omega))
    simpa using this
  rw [hins, if_neg hne, hf]

theorem hins_none (hne : ins ≠ []) (h : ∀ nm ∈ names, hash nm ≠ hash ins) :
    hins hash (names.map hash) ins = 2 ^ 64 - 1 := by
  have hf : (names.map hash).findIdx? (· == hash ins) = none := by
    rw [List.findIdx?_eq_none_iff]
    intro x hx
    obtain ⟨nm, hnm, rfl⟩ := List.mem_map.mp hx
    simpa using h nm hnm
  rw [hins, if_neg hne, hf]

theorem firstHash_or (hash : List UInt8 → BitVec 32) (names : List (List UInt8)) (ins : List UInt8) :
    (∃ j, FirstHash hash names ins j) ∨ ∀ nm ∈ names, hash nm ≠ hash ins := by
  by_cases h : ∃ (j : ℕ) (nm : List UInt8), names[j]? = some nm ∧ hash nm = hash ins
  · left
    classical
    refine ⟨Nat.find h, Nat.find_spec h, fun i hi nm hnm he => ?_⟩
    exact Nat.find_min h hi ⟨nm, hnm, he⟩
  · right
    intro nm hnm he
    obtain ⟨j, hj⟩ := List.mem_iff_getElem?.mp hnm
    exact h ⟨j, nm, hj, he⟩

/-- **An index that is not rejected is that of a book.** -/
theorem hins_lt (hlen : names.length < 2 ^ 64 - 1) (bufoff : ℕ)
    (h : hins hash (names.map hash) ins ≤ names.length) :
    hins hash (names.map hash) ins < (trading bufoff hash names).NINSTR := by
  have hpos : 0 < (trading bufoff hash names).NINSTR := by
    unfold Instruments.NINSTR
    split_ifs with h0
    · exact Nat.one_pos
    · exact List.length_pos_iff.mpr h0
  by_cases hne : ins = []
  · rw [hins, if_pos hne]
    exact hpos
  · rcases firstHash_or hash names ins with ⟨j, hj⟩ | hnone
    · obtain ⟨nm, hget, -⟩ := hj.1
      have hlt := (List.getElem?_eq_some_iff.mp hget).1
      rw [hins_first hne hj]
      unfold Instruments.NINSTR
      split_ifs with h0
      · rw [List.map_eq_nil_iff.mp h0] at hlt
        exact absurd hlt (Nat.not_lt_zero j)
      · exact hlt.trans_eq (List.length_map _).symm
    · rw [hins_none hne hnone] at h
      omega

end Lookup

/-! ## Books -/

section Frame

variable {C : Clob B} {s s' : Books B}

theorem apply_frame {d : Daemon} {I : Instruments} {c : ClientLine} {i : ℕ} {b : OBody Decimal64}
    (h : d.apply C I c i b s = .ok s') : ∀ j, j ≠ i → s'.clob[j]? = s.clob[j]? := by
  have hset : ∀ {x : B} {r : Books B}, r.clob = s.clob.set i x → ∀ j, j ≠ i → r.clob[j]? = s.clob[j]? :=
    fun hr j hj => by rw [hr, List.getElem?_set_ne (Ne.symm hj)]
  have hdel : ∀ {o}, omsgDelOid C I.name c.junk c.fd i o s = .ok s' →
      ∀ j, j ≠ i → s'.clob[j]? = s.clob[j]? := by
    intro o h
    obtain ⟨x, -, h⟩ := bind_ok.mp h
    exact hset (sendTo_clob h)
  cases b with
  | ord o =>
      by_cases htyp : o.typ = clobTypeMkt ∨ o.typ = clobTypeLmt
      · cases d with
        | lobot =>
            obtain ⟨x, o', x', -, -, hs⟩ := omsgAddOrd_cases htyp h
            exact hset hs
        | cabot =>
            change omsgAddOrdSc C I.name c.junk c.fd c.uid i o s = .ok s' at h
            rw [omsgAddOrdSc, if_neg (not_not.mpr htyp)] at h
            obtain ⟨x, -, h⟩ := bind_ok.mp h
            dsimp only at h
            split_ifs at h with hq
            · exact hset (sendTo_clob h)
            · cases h
              exact hset rfl
      · have hs : s' = s := by
          cases d with
          | lobot =>
              change omsgAddOrd C I.name c.junk c.fd c.uid i o s = .ok s' at h
              rw [omsgAddOrd, if_pos htyp] at h
              exact (Except.ok.inj h).symm
          | cabot =>
              change omsgAddOrdSc C I.name c.junk c.fd c.uid i o s = .ok s' at h
              rw [omsgAddOrdSc, if_pos htyp] at h
              exact (Except.ok.inj h).symm
        exact fun j _ => by rw [hs]
  | can o => exact hdel h
  | _ =>
      cases h
      exact fun j _ => rfl

end Frame

/-! ## Lines -/

theorem line_eq (d : Daemon) (C : Clob B) (I : Instruments) (c : ClientLine) (s : Books B)
    {m : Omsg Decimal64} (hm : c.msg = .ok m) :
    d.line C I c s = if I.insth.length < hins I.hash I.insth m.ins then .ok s
      else d.apply C I c (hins I.hash I.insth m.ins) m.body s := by
  have hm' : recvOmsg ((d.exch C I c).stack s) (c.line ++ c.rest) c.line.length = .ok m := hm
  show Except.map Prod.snd ((d.exch C I c).line (c.line ++ c.rest) c.line.length (c.line ++ c.rest, s)) =
    if (d.exch C I c).insth.length < hins (d.exch C I c).hash (d.exch C I c).insth m.ins then .ok s
    else d.apply C I c (hins (d.exch C I c).hash (d.exch C I c).insth m.ins) m.body s
  unfold Exch.line
  simp only [hm', bind, Except.bind]
  split_ifs with hi
  · rfl
  · cases hb : m.body with
    | ord o =>
        simp only [Daemon.apply]
        cases (d.exch C I c).addOrd (hins (d.exch C I c).hash (d.exch C I c).insth m.ins) o s <;> rfl
    | can o =>
        simp only [Daemon.apply]
        cases (d.exch C I c).delOid (hins (d.exch C I c).hash (d.exch C I c).insth m.ins) o s <;> rfl
    | _ => rfl

/-- **A line reaches the first instrument that has the hash of its column**, and no book otherwise;
the number it reaches is that of a book, also where there are no instruments. -/
theorem routed_by_hash (d : Daemon) (C : Clob B) (bufoff : ℕ) (hash : List UInt8 → BitVec 32)
    (names : List (List UInt8)) (hlen : names.length < 2 ^ 64 - 1) :
    (∀ ins, hins hash (names.map hash) ins ≤ names.length →
      hins hash (names.map hash) ins < (trading bufoff hash names).NINSTR) ∧
    ∀ (c : ClientLine) (s : Books B) (m : Omsg Decimal64) (s' : Books B), c.msg = .ok m → m.ins ≠ [] →
      d.line C (trading bufoff hash names) c s = .ok s' →
      (∀ j : ℕ, s'.clob[j]? ≠ s.clob[j]? → FirstHash hash names m.ins j) ∧
      (∀ j, FirstHash hash names m.ins j → j < (trading bufoff hash names).NINSTR ∧
        d.apply C (trading bufoff hash names) c j m.body s = .ok s') ∧
      ((∀ nm ∈ names, hash nm ≠ hash m.ins) → s' = s) ∧
      ((∀ nm ∈ names, hash nm = hash m.ins → nm = m.ins) →
        (∀ j : ℕ, s'.clob[j]? ≠ s.clob[j]? → names[j]? = some m.ins) ∧ (m.ins ∉ names → s' = s)) := by
  refine ⟨fun ins h => hins_lt hlen bufoff h, fun c s m s' hm hne h => ?_⟩
  rw [line_eq d C _ c s hm] at h
  have hnone : (∀ nm ∈ names, hash nm ≠ hash m.ins) → s' = s := by
    intro hno
    have hidx : hins (trading bufoff hash names).hash (trading bufoff hash names).insth m.ins =
        2 ^ 64 - 1 := hins_none hne hno
    have hl : (trading bufoff hash names).insth.length = names.length := List.length_map _
    rw [if_pos (by rw [hidx, hl]; exact hlen)] at h
    exact (Except.ok.inj h).symm
  have hfirst : ∀ j, FirstHash hash names m.ins j → j < (trading bufoff hash names).NINSTR ∧
      d.apply C (trading bufoff hash names) c j m.body s = .ok s' := by
    intro j hj
    have hidx : hins hash (names.map hash) m.ins = j := hins_first hne hj
    have hlt : j < names.length := (List.getElem?_eq_some_iff.mp hj.1.choose_spec.1).1
    have hl : (trading bufoff hash names).insth.length = names.length := List.length_map _
    have hidx' : hins (trading bufoff hash names).hash (trading bufoff hash names).insth m.ins = j := hidx
    rw [hidx', if_neg (by rw [hl]; omega)] at h
    refine ⟨?_, h⟩
    have hlt' : hins hash (names.map hash) m.ins < (trading bufoff hash names).NINSTR :=
      hins_lt hlen bufoff (by rw [hidx]; omega)
    rwa [hidx] at hlt'
  have hbook : ∀ j : ℕ, s'.clob[j]? ≠ s.clob[j]? → FirstHash hash names m.ins j := by
    intro j hj
    rcases firstHash_or hash names m.ins with ⟨k, hk⟩ | hno
    · by_contra hn
      have hjk : j ≠ k := by
        rintro rfl
        exact hn hk
      exact hj (apply_frame (hfirst k hk).2 j hjk)
    · rw [hnone hno] at hj
      exact absurd rfl hj
  refine ⟨hbook, hfirst, hnone, fun hinj => ⟨fun j hj => ?_, fun hnot => hnone fun nm hnm he => ?_⟩⟩
  · obtain ⟨⟨nm, hget, he⟩, -⟩ := hbook j hj
    rw [hget, hinj nm (List.mem_of_getElem? hget) he]
  · exact hnot (hinj nm hnm he ▸ hnm)

/-! ## One instrument -/

/-- The instrument traded. -/
def xry : List UInt8 := bytes ['X', 'R', 'Y']

/-- Another name with the same hash. -/
def cnoa : List UInt8 := bytes ['C', 'N', 'O', 'A']

/-- An exchange that trades one instrument. -/
def xryMarket : Instruments := trading 64 hash [xry]

/-- A client that buys one at the market. -/
def buyOne (ins : List UInt8) : ClientLine :=
  sampleClient (bytes ['B', 'U', 'Y', '\t'] ++ ins ++ bytes ['\t', '1', '\n'])

/-- A line that is decoded and leaves one order in the one book. -/
def Daemon.Books1 (d : Daemon) (ins : List UInt8) : Bool :=
  (buyOne ins).msg.toOption.any fun m =>
    (d.line listClob xryMarket (buyOne ins) ⟨[[]], []⟩).toOption.any fun s' =>
      m.ins == ins && s'.clob.map List.length == [1]

theorem Daemon.Books1.spec {d : Daemon} {ins : List UInt8} (h : d.Books1 ins = true) :
    ∃ m s', (buyOne ins).msg = .ok m ∧ m.ins = ins ∧
      d.line listClob xryMarket (buyOne ins) ⟨[[]], []⟩ = .ok s' ∧ s'.clob[0]? ≠ some [] := by
  unfold Daemon.Books1 at h
  cases hm : (buyOne ins).msg with
  | error e => rw [hm] at h; cases h
  | ok m =>
      cases hl : d.line listClob xryMarket (buyOne ins) ⟨[[]], []⟩ with
      | error e => rw [hm, hl] at h; cases h
      | ok s' =>
          rw [hm, hl] at h
          obtain ⟨hi, hc⟩ := Bool.and_eq_true_iff.mp (show (_ && _) = true from h)
          refine ⟨m, s', rfl, beq_iff_eq.mp hi, rfl, fun h0 => ?_⟩
          have hlen := congrArg (fun l => l[0]?) (beq_iff_eq.mp hc)
          simp only [List.getElem?_map, h0] at hlen
          cases hlen

/-- **The order for the other name is put into the book**, at both exchanges. -/
theorem cnoa_booked : xry ≠ cnoa ∧ ∀ d : Daemon, ∃ m s', (buyOne cnoa).msg = .ok m ∧ m.ins = cnoa ∧
    d.line listClob xryMarket (buyOne cnoa) ⟨[[]], []⟩ = .ok s' ∧ s'.clob[0]? ≠ some [] := by
  refine ⟨by decide, fun d => Daemon.Books1.spec ?_⟩
  cases d <;> decide +kernel

/-- The order for the instrument is handed to its book. -/
theorem xry_booked : ∃ m s', (buyOne xry).msg = .ok m ∧ m.ins = xry ∧
    Daemon.lobot.line listClob xryMarket (buyOne xry) ⟨[[]], []⟩ = .ok s' ∧
    Daemon.lobot.apply listClob xryMarket (buyOne xry) 0 m.body ⟨[[]], []⟩ = .ok s' := by
  have hbooks : Daemon.lobot.Books1 xry = true := by decide +kernel
  obtain ⟨m, s', hm, hi, hl, -⟩ := Daemon.Books1.spec hbooks
  have h := (routed_by_hash .lobot listClob 64 hash [xry] (by decide)).2 (buyOne xry) ⟨[[]], []⟩ m s' hm
    (by rw [hi]; decide) hl
  refine ⟨m, s', hm, hi, hl, (h.2.1 0 ⟨⟨xry, rfl, by rw [hi]⟩, fun i hi => ?_⟩).2⟩
  exact absurd hi (Nat.not_lt_zero i)

end Unserlob
