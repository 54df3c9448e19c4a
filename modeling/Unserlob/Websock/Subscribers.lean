import Mathlib.Data.Finset.Card
import Mathlib.Order.Interval.Finset.Nat
import Mathlib.Data.Int.Interval
import Unserlob.Exchange.Users
import Unserlob.Lib.Loop
import Unserlob.Lib.Run
import Unserlob.Websock.Handshake

/-!
# Subscribers of the candle maker (`lobcch.c`)

A connection that has been upgraded has a uid, which is its place in the table of sockets and one. Places
are handed out anew, and the table grows.

* `Uclo`, `Web`: a connection, the table and what has been sent;
* `Web.addUser`, `Web.killUser`, `Web.dataCb`, `Web.cakeCb`, `Web.broadcast`: the callbacks;
* `webMachine`: connections that come, talk and go, and broadcasts, in any order;
* `Web.Inv`, `Web.upgrade_inv`, `Web.close_inv`, `Web.dataCb_inv`, `Web.cakeCb_inv`, `web_step_inv`: the invariant and
  what keeps it;
* `Web.Subscribed`, **`Web.Inv.subscribed`**: who is sent a broadcast.
-/

namespace Unserlob

open Cursor Table Writer ForLoop

/-- Where `buf` starts in `struct uclo_s`. The memory behind it has room for a response. -/
structure UcloLayout where
  bufoff : ℕ
  room : bufoff + 129 ≤ 4096

/-- `UBSZ` -/
def UcloLayout.UBSZ (L : UcloLayout) : ℕ := 4096 - L.bufoff

/-- `struct uclo_s`. `up` keeps in mind that the handshake has been answered. -/
structure Uclo where
  fd : ℤ
  uid : Uid
  bof : ℕ
  buf : List UInt8
  up : Bool

/-- `sock`, `nsock` and `zsock`, the open connections and what has been sent to whom. -/
structure Web where
  sock : List ℤ
  nsock : ℕ
  zsock : ℕ
  conns : List Uclo
  sent : List (ℤ × List UInt8)

namespace Web

/-- `for (i = 0; i < nsock; i++) if (sock[i] < 0) …` with `n` turns to go. -/
def freeSock (sock : List ℤ) : ℕ → ℕ → Res (Option ℕ)
  | 0, _ => .ok none
  | n + 1, i => do
    let s ← getAt sock i
    if s < 0 then pure (some i) else freeSock sock n (i + 1)

/-- The reallocation in `add_user`. -/
def growSock (junk : ℕ → ℤ) (w : Web) : Web :=
  if w.zsock ≤ w.nsock then
    let z := if w.zsock * 2 ≠ 0 then w.zsock * 2 else 64
    { w with zsock := z, sock := realloc junk z w.sock }
  else w

/-- `add_user` -/
def addUser (junk : ℕ → ℤ) (s : ℤ) (w : Web) : Res (Uid × Web) := do
  match ← freeSock w.sock w.nsock 0 with
  | some i =>
    let sock ← setAt w.sock i s
    pure (BitVec.ofNat 32 (i + 1), { w with sock })
  | none =>
    -- otherwise append
    let w := growSock junk w
    let sock ← setAt w.sock w.nsock s
    pure (BitVec.ofNat 32 (w.nsock + 1), { w with sock, nsock := w.nsock + 1 })

/-- `kill_user` -/
def killUser (u : Uid) (w : Web) : Res Web :=
  if u = 0 then .ok w
  else do
    -- reset socket
    let sock ← setAt w.sock (u.toNat - 1) (-1)
    pure { w with sock }

/-- The label `clo` in `data_cb`. -/
def close (u : Uclo) (w : Web) : Res Web := do
  let w ← killUser u.uid w
  pure { w with conns := w.conns.filter fun c => c.fd != u.fd }

/-- The connection on `u.fd` is now `u`. -/
def replace (u : Uclo) (w : Web) : Web :=
  { w with conns := w.conns.map fun c => if c.fd = u.fd then u else c }

/-- `data_cb`, with the bytes that have been read; none at the end or after an error. -/
def dataCb (junk : ℕ → ℤ) (fd : ℤ) (bs : List UInt8) (w : Web) : Res Web :=
  match w.conns.find? fun c => c.fd == fd with
  | none => .ok w
  | some u =>
    -- they want closing
    if bs = [] then w.close u
    else do
      let buf ← splice u.buf u.bof bs
      -- huh, they're not supposed to message us
      if u.uid ≠ 0 then pure (w.replace { u with bof := 0, buf })
      else
        let bof := u.bof + bs.length
        let r ← recvHshk buf bof
        if r.1 < 0 then w.close u
        else if r.1 = 0 then pure (w.replace { u with bof, buf := r.2 })
        else
          let a ← addUser junk fd w
          let w := { a.2 with sent := a.2.sent ++ [(fd, r.2.take r.1.toNat)] }
          pure (w.replace { u with bof, buf := r.2, uid := a.1, up := true })

/-- `cake_cb`, with what the new memory holds. -/
def cakeCb (L : UcloLayout) (junk : ℕ → UInt8) (ns : ℤ) (w : Web) : Web :=
  { w with conns := ⟨ns, 0, 0, realloc junk L.UBSZ [], false⟩ :: w.conns }

/-- The loop over the sockets in `snap_cb`. -/
def sendAll (w : Web) (frame : List UInt8) (sent : List (ℤ × List UInt8)) : Res (List (ℤ × List UInt8)) :=
  forRange (fun j sent => do
    let s ← getAt w.sock j
    if s < 0 then pure sent else pure (sent ++ [(s, frame)])) w.nsock sent

/-- The loop over the books in `snap_cb`, one frame each. -/
def broadcast : List (List UInt8) → Web → Res Web
  | [], w => .ok w
  | frame :: frames, w => do
    let sent ← sendAll w frame w.sent
    broadcast frames { w with sent }

end Web

/-- A new connection, bytes from one or its end, the timer. -/
inductive WebEvent where
  | accept (junk : ℕ → UInt8) (ns : ℤ)
  | data (junk : ℕ → ℤ) (fd : ℤ) (bs : List UInt8)
  | snap (frames : List (List UInt8))

/-- The system hands out descriptors that are not open; no more is read than asked for. -/
def WebEvent.allowed (L : UcloLayout) (w : Web) : WebEvent → Prop
  | .accept _ ns => 0 ≤ ns ∧ ns < 2 ^ 31 ∧ ∀ c ∈ w.conns, c.fd ≠ ns
  | .data _ fd bs => ∃ c ∈ w.conns, c.fd = fd ∧ bs.length ≤ L.UBSZ - c.bof
  | .snap _ => True

def WebEvent.step (L : UcloLayout) : WebEvent → Web → Res Web
  | .accept junk ns, w => .ok (w.cakeCb L junk ns)
  | .data junk fd bs, w => w.dataCb junk fd bs
  | .snap frames, w => w.broadcast frames

def webMachine (L : UcloLayout) : Run.Machine Web WebEvent where
  init w := w = ⟨[], 0, 0, [], []⟩
  allowed w e := e.allowed L w
  step e w := e.step L w

/-! ## The invariant -/

/-- Descriptors tell connections apart, a connection that is up is found under its uid and a place of
none is free. -/
structure Web.Inv (L : UcloLayout) (w : Web) : Prop where
  fds : w.conns.Pairwise fun c c' => c.fd ≠ c'.fd
  fd : ∀ c ∈ w.conns, 0 ≤ c.fd ∧ c.fd < 2 ^ 31
  buf : ∀ c ∈ w.conns, c.buf.length = L.UBSZ ∧ c.bof ≤ L.UBSZ
  cap : w.nsock ≤ w.zsock ∧ w.sock.length = w.zsock
  small : w.nsock ≤ 2 ^ 31
  up : ∀ c ∈ w.conns, c.up = true → 0 < c.uid.toNat ∧ c.uid.toNat ≤ w.nsock ∧
    w.sock[c.uid.toNat - 1]? = some c.fd
  down : ∀ c ∈ w.conns, c.up = false → c.uid = 0
  gone : ∀ i < w.nsock, (∀ c ∈ w.conns, c.uid.toNat ≠ i + 1) → w.sock[i]? = some (-1)

variable {L : UcloLayout} {w w' : Web}

theorem Web.Inv.pos_iff (h : w.Inv L) {c : Uclo} (hc : c ∈ w.conns) : c.up = true ↔ 0 < c.uid.toNat := by
  refine ⟨fun hu => (h.up c hc hu).1, fun hp => ?_⟩
  by_contra hu
  rw [h.down c hc (Bool.eq_false_iff.mpr hu)] at hp
  exact absurd hp (Nat.lt_irrefl 0)

theorem Web.Inv.at_uid (h : w.Inv L) {c : Uclo} (hc : c ∈ w.conns) {i : ℕ} (hi : c.uid.toNat = i + 1) :
    i < w.nsock ∧ w.sock[i]? = some c.fd := by
  obtain ⟨-, hle, hs⟩ := h.up c hc ((h.pos_iff hc).mpr (by omega))
  rw [hi, Nat.add_sub_cancel] at hs
  exact ⟨by omega, hs⟩

theorem Web.Inv.uid_inj (h : w.Inv L) {c c' : Uclo} (hc : c ∈ w.conns) (hc' : c' ∈ w.conns)
    (hu : c.up = true) (he : c.uid = c'.uid) : c = c' := by
  obtain ⟨hpos, -, hs⟩ := h.up c hc hu
  obtain ⟨-, -, hs'⟩ := h.up c' hc' ((h.pos_iff hc').mpr (he ▸ hpos))
  rw [← he, hs] at hs'
  exact eq_of_pairwise h.fds hc hc' (Option.some.inj hs')

theorem Web.init_inv : (⟨[], 0, 0, [], []⟩ : Web).Inv L :=
  ⟨.nil, fun _ h => absurd h List.not_mem_nil, fun _ h => absurd h List.not_mem_nil, ⟨le_rfl, rfl⟩, Nat.zero_le _,
    fun _ h => absurd h List.not_mem_nil, fun _ h => absurd h List.not_mem_nil,
    fun _ h => absurd h (Nat.not_lt_zero _)⟩

theorem Web.cakeCb_inv (h : w.Inv L) (junk : ℕ → UInt8) {ns : ℤ} (h0 : 0 ≤ ns ∧ ns < 2 ^ 31)
    (hnew : ∀ c ∈ w.conns, c.fd ≠ ns) : (w.cakeCb L junk ns).Inv L := by
  refine ⟨List.pairwise_cons.mpr ⟨fun c hc => (hnew c hc).symm, h.fds⟩, ?_, ?_, h.cap, h.small, ?_, ?_, ?_⟩
  · exact List.forall_mem_cons.mpr ⟨h0, h.fd⟩
  · exact List.forall_mem_cons.mpr ⟨⟨length_realloc .., Nat.zero_le _⟩, h.buf⟩
  · exact List.forall_mem_cons.mpr ⟨fun hu => absurd hu Bool.false_ne_true, h.up⟩
  · exact List.forall_mem_cons.mpr ⟨fun _ => rfl, h.down⟩
  · intro i hi hno
    exact h.gone i hi fun c hc => hno c (List.mem_cons_of_mem _ hc)

theorem Web.find_uclo {fd : ℤ} (h : ∃ c ∈ w.conns, c.fd = fd) :
    ∃ u ∈ w.conns, u.fd = fd ∧ w.conns.find? (fun c => c.fd == fd) = some u := by
  cases hf : w.conns.find? (fun c => c.fd == fd) with
  | none =>
      obtain ⟨c, hc, he⟩ := h
      have := List.find?_eq_none.mp hf c hc
      simp [he] at this
  | some u => exact ⟨u, List.mem_of_find?_eq_some hf, by simpa using List.find?_some hf, rfl⟩

theorem Web.mem_replace {u c : Uclo} (h : c ∈ (w.replace u).conns) : c = u ∨ c ∈ w.conns ∧ c.fd ≠ u.fd := by
  obtain ⟨c', hc', rfl⟩ := List.mem_map.mp h
  split_ifs with he
  · exact .inl rfl
  · exact .inr ⟨hc', he⟩

theorem Web.mem_replace_of_ne {u c : Uclo} (hc : c ∈ w.conns) (hne : c.fd ≠ u.fd) : c ∈ (w.replace u).conns :=
  List.mem_map.mpr ⟨c, hc, if_neg hne⟩

theorem Web.mem_replace_self {u c : Uclo} (hc : c ∈ w.conns) (he : c.fd = u.fd) : u ∈ (w.replace u).conns :=
  List.mem_map.mpr ⟨c, hc, if_pos he⟩

theorem Web.fds_replace {u : Uclo} (h : w.conns.Pairwise fun c c' => c.fd ≠ c'.fd) :
    (w.replace u).conns.Pairwise fun c c' => c.fd ≠ c'.fd := by
  have hfd : ∀ c : Uclo, (if c.fd = u.fd then u else c).fd = c.fd := by
    intro c
    split_ifs with he
    · exact he.symm
    · rfl
  refine List.pairwise_map.mpr (h.imp fun hne => ?_)
  rw [hfd, hfd]
  exact hne

theorem Web.replace_inv (h : w.Inv L) {u u' : Uclo} (hu : u ∈ w.conns) (hfd : u'.fd = u.fd) (huid : u'.uid = u.uid)
    (hup : u'.up = u.up) (hbuf : u'.buf.length = L.UBSZ) (hbof : u'.bof ≤ L.UBSZ) : (w.replace u').Inv L := by
  have hall : ∀ {P : Uclo → Prop}, P u' → (∀ c ∈ w.conns, P c) → ∀ c ∈ (w.replace u').conns, P c := by
    intro P hu' hP c hc
    rcases Web.mem_replace hc with rfl | ⟨hc, -⟩
    · exact hu'
    · exact hP c hc
  refine ⟨Web.fds_replace h.fds, hall (hfd ▸ h.fd u hu) h.fd, hall ⟨hbuf, hbof⟩ h.buf, h.cap, h.small,
    hall (fun hu' => ?_) h.up, hall (fun hu' => ?_) h.down, fun i hi hno => h.gone i hi fun c hc => ?_⟩
  · rw [huid, hfd]
    exact h.up u hu (hup.symm.trans hu')
  · rw [huid]
    exact h.down u hu (hup.symm.trans hu')
  · by_cases he : c.fd = u'.fd
    · rw [eq_of_pairwise h.fds hc hu (he.trans hfd), ← huid]
      exact hno u' (Web.mem_replace_self hc he)
    · exact hno c (Web.mem_replace_of_ne hc he)

/-- **A connection that goes** leaves its place to others. -/
theorem Web.close_inv (h : w.Inv L) {u : Uclo} (hu : u ∈ w.conns) :
    ∃ w', w.close u = .ok w' ∧ w'.Inv L ∧ w'.conns = w.conns.filter (fun c => c.fd != u.fd) ∧
      w'.sent = w.sent := by
  have hmem : ∀ c, c ∈ w.conns.filter (fun c => c.fd != u.fd) ↔ c ∈ w.conns ∧ c.fd ≠ u.fd := by
    intro c
    rw [List.mem_filter, bne_iff_ne]
  have hother : ∀ c ∈ w.conns, c.fd ≠ u.fd → c ∈ w.conns.filter (fun c => c.fd != u.fd) :=
    fun c hc hne => (hmem c).mpr ⟨hc, hne⟩
  by_cases h0 : u.uid = 0
  · refine ⟨{ w with conns := w.conns.filter fun c => c.fd != u.fd }, ?_,
      ⟨h.fds.filter _, ?_, ?_, h.cap, h.small, ?_, ?_, ?_⟩, rfl, rfl⟩
    · rw [Web.close, Web.killUser, if_pos h0]
      rfl
    · exact fun c hc => h.fd c ((hmem c).mp hc).1
    · exact fun c hc => h.buf c ((hmem c).mp hc).1
    · exact fun c hc => h.up c ((hmem c).mp hc).1
    · exact fun c hc => h.down c ((hmem c).mp hc).1
    · intro i hi hno
      refine h.gone i hi fun c hc he => ?_
      by_cases hne : c.fd = u.fd
      · rw [eq_of_pairwise h.fds hc hu hne, h0] at he
        exact absurd he (Nat.zero_ne_add_one i)
      · exact hno c (hother c hc hne) he
  · have hpos : 0 < u.uid.toNat := Nat.pos_of_ne_zero fun hz => h0 (BitVec.eq_of_toNat_eq hz)
    obtain ⟨-, hle, hs⟩ := h.up u hu ((h.pos_iff hu).mpr hpos)
    obtain ⟨hlt, -⟩ := List.getElem?_eq_some_iff.mp hs
    refine ⟨{ w with
        sock := w.sock.set (u.uid.toNat - 1) (-1)
        conns := w.conns.filter fun c => c.fd != u.fd }, ?_,
      ⟨h.fds.filter _, ?_, ?_, ⟨h.cap.1, (List.length_set).trans h.cap.2⟩, h.small, ?_, ?_, ?_⟩, rfl, rfl⟩
    · rw [Web.close, Web.killUser, if_neg h0, setAt_ok hlt]
      rfl
    · exact fun c hc => h.fd c ((hmem c).mp hc).1
    · exact fun c hc => h.buf c ((hmem c).mp hc).1
    · intro c hc hup
      obtain ⟨hcm, hne⟩ := (hmem c).mp hc
      obtain ⟨hcp, hcle, hcs⟩ := h.up c hcm hup
      refine ⟨hcp, hcle, ?_⟩
      rw [List.getElem?_set_ne, hcs]
      intro he
      exact hne (congrArg Uclo.fd (h.uid_inj hcm hu hup (BitVec.eq_of_toNat_eq (by omega))))
    · exact fun c hc => h.down c ((hmem c).mp hc).1
    · intro i hi hno
      by_cases he : u.uid.toNat - 1 = i
      · rw [he]
        exact List.getElem?_set_self (he ▸ hlt)
      · rw [List.getElem?_set_ne he]
        refine h.gone i hi fun c hc hci => ?_
        by_cases hne : c.fd = u.fd
        · rw [eq_of_pairwise h.fds hc hu hne] at hci
          omega
        · exact hno c (hother c hc hne) hci

theorem Web.freeSock_spec {l : List ℤ} (n : ℕ) : ∀ k, k + n ≤ l.length →
    (∃ i s, Web.freeSock l n k = .ok (some i) ∧ k ≤ i ∧ i < k + n ∧ l[i]? = some s ∧ s < 0) ∨
    Web.freeSock l n k = .ok none ∧ ∀ i, k ≤ i → i < k + n → ∃ s, l[i]? = some s ∧ 0 ≤ s := by
  induction n with
  | zero => exact fun k _ => .inr ⟨rfl, fun i h1 h2 => absurd h2 (by omega)⟩
  | succ n ih =>
      intro k hk
      have hget : l[k]? = some l[k] := List.getElem?_eq_getElem _
      rw [Web.freeSock, getAt_ok hget]
      simp only [bind, Except.bind]
      split_ifs with hs
      · exact .inl ⟨k, _, rfl, le_rfl, by omega, hget, hs⟩
      · rcases ih (k + 1) (by omega) with ⟨i, s, h, h1, h2, h3⟩ | ⟨h, hall⟩
        · exact .inl ⟨i, s, h, by omega, by omega, h3⟩
        · refine .inr ⟨h, fun i h1 h2 => ?_⟩
          by_cases hik : i = k
          · subst hik
            exact ⟨_, hget, Int.not_lt.mp hs⟩
          · exact hall i (by omega) (by omega)

/-- **There are fewer places than descriptors**, when all are taken and one connection is not up. -/
theorem Web.places_lt (h : w.Inv L) {u : Uclo} (hu : u ∈ w.conns) (h0 : u.up = false)
    (hall : ∀ i < w.nsock, ∃ s, w.sock[i]? = some s ∧ 0 ≤ s) : w.nsock < 2 ^ 31 := by
  have huids : (Finset.range (w.nsock + 1)) ⊆ (w.conns.map fun c => c.uid.toNat).toFinset := by
    intro i hi
    rw [List.mem_toFinset, List.mem_map]
    cases i with
    | zero => exact ⟨u, hu, by rw [h.down u hu h0]; rfl⟩
    | succ i =>
        by_contra hno
        obtain ⟨s, hs, hs0⟩ := hall i (by simpa using hi)
        have := h.gone i (by simpa using hi) fun c hc he => hno ⟨c, hc, he⟩
        rw [hs] at this
        cases this
        omega
  have hfds : (w.conns.map Uclo.fd).toFinset ⊆ Finset.Ico 0 (2 ^ 31) := by
    intro f hf
    obtain ⟨c, hc, rfl⟩ := List.mem_map.mp (List.mem_toFinset.mp hf)
    exact Finset.mem_Ico.mpr (h.fd c hc)
  have hnodup : (w.conns.map Uclo.fd).Nodup := List.pairwise_map.mpr h.fds
  have h1 := Finset.card_le_card huids
  have h2 := Finset.card_le_card hfds
  have h3 := List.toFinset_card_le (w.conns.map fun c => c.uid.toNat)
  rw [List.toFinset_card_of_nodup hnodup, Int.card_Ico, List.length_map] at h2
  rw [Finset.card_range] at h1
  rw [List.length_map] at h3
  omega

theorem Web.growSock_spec (h : w.Inv L) (junk : ℕ → ℤ) :
    (w.growSock junk).nsock = w.nsock ∧ (w.growSock junk).conns = w.conns ∧
      (w.growSock junk).sent = w.sent ∧ w.nsock < (w.growSock junk).zsock ∧
      (w.growSock junk).sock.length = (w.growSock junk).zsock ∧
      ∀ i < w.nsock, (w.growSock junk).sock[i]? = w.sock[i]? := by
  obtain ⟨hle, hlen⟩ := h.cap
  by_cases hz : w.zsock ≤ w.nsock
  · generalize hzz : (if w.zsock * 2 ≠ 0 then w.zsock * 2 else 64) = z
    have hlt : w.zsock < z := by
      rw [← hzz]
      split_ifs <;> omega
    have hg : w.growSock junk = { w with zsock := z, sock := realloc junk z w.sock } := by
      rw [Web.growSock, if_pos hz, ← hzz]
    rw [hg]
    exact ⟨rfl, rfl, rfl, hle.trans_lt hlt, length_realloc .., fun i hi =>
      getElem?_realloc _ (by omega) (by omega)⟩
  · rw [Web.growSock, if_neg hz]
    exact ⟨rfl, rfl, rfl, by omega, hlen, fun _ _ => rfl⟩

/-- **A place for a socket**: one that no connection has, now with the socket. -/
theorem Web.addUser_spec (h : w.Inv L) {u : Uclo} (hu : u ∈ w.conns) (h0 : u.up = false) (junk : ℕ → ℤ) (s : ℤ) :
    ∃ uid w', w.addUser junk s = .ok (uid, w') ∧ w'.conns = w.conns ∧ w'.sent = w.sent ∧
      w'.nsock ≤ w'.zsock ∧ w'.sock.length = w'.zsock ∧ w'.nsock ≤ 2 ^ 31 ∧ w.nsock ≤ w'.nsock ∧
      0 < uid.toNat ∧ uid.toNat ≤ w'.nsock ∧ w'.sock[uid.toNat - 1]? = some s ∧
      (∀ c ∈ w.conns, c.uid ≠ uid) ∧ ∀ i < w'.nsock, i + 1 ≠ uid.toNat → i < w.nsock ∧ w'.sock[i]? = w.sock[i]? := by
  obtain ⟨hle, hlen⟩ := h.cap
  have hsmall := h.small
  have huid : ∀ i, i < 2 ^ 31 → (BitVec.ofNat 32 (i + 1)).toNat = i + 1 := fun i hi => by
    rw [BitVec.toNat_ofNat, Nat.mod_eq_of_lt (by omega)]
  rcases Web.freeSock_spec (l := w.sock) w.nsock 0 (by omega) with ⟨i, t, hfree, -, hi, hs, ht⟩ | ⟨hfree, hall⟩
  · rw [Nat.zero_add] at hi
    have hiu := huid i (by omega)
    refine ⟨BitVec.ofNat 32 (i + 1), { w with sock := w.sock.set i s }, ?_, rfl, rfl, hle,
      List.length_set.trans hlen, hsmall, le_rfl, by omega, hiu.trans_le hi, ?_, fun c hc he => ?_, fun j hj hne => ⟨hj, ?_⟩⟩
    · rw [Web.addUser, hfree]
      simp only [bind, Except.bind, setAt_ok (show i < w.sock.length by omega)]
      rfl
    · rw [hiu, Nat.add_sub_cancel]
      exact List.getElem?_set_self (by omega)
    · -- a place with a connection is not free
      have hci : c.uid.toNat = i + 1 := by rw [he, hiu]
      have := (h.at_uid hc hci).2
      rw [hs] at this
      cases this
      have := (h.fd c hc).1
      omega
    · exact List.getElem?_set_ne (by omega)
  · obtain ⟨hnb, hcs, hst, hlt, hlen', hold⟩ := Web.growSock_spec h junk
    have hroom := Web.places_lt h hu h0 fun i hi => hall i (Nat.zero_le i) (by omega)
    have hiu := huid w.nsock hroom
    have hset := setAt_ok (show w.nsock < (w.growSock junk).sock.length by omega) s
    refine ⟨BitVec.ofNat 32 (w.nsock + 1), { w.growSock junk with
        sock := (w.growSock junk).sock.set w.nsock s
        nsock := w.nsock + 1 }, ?_, hcs, hst, hlt, List.length_set.trans hlen', by show w.nsock + 1 ≤ 2 ^ 31; omega,
      Nat.le_succ _, by omega, hiu.le, ?_, fun c hc he => ?_, fun j hj hne => ?_⟩
    · rw [Web.addUser, hfree]
      simp only [bind, Except.bind, hnb, hset]
      rfl
    · rw [hiu, Nat.add_sub_cancel]
      exact List.getElem?_set_self (by omega)
    · have hci : c.uid.toNat = w.nsock + 1 := by rw [he, hiu]
      exact absurd (h.at_uid hc hci).1 (Nat.lt_irrefl _)
    · have hj : j < w.nsock + 1 := hj
      rw [hiu] at hne
      exact ⟨by omega, (List.getElem?_set_ne (by omega)).trans (hold j (by omega))⟩

theorem Web.upgrade_inv (h : w.Inv L) {u : Uclo} (hu : u ∈ w.conns) (h0 : u.up = false) (junk : ℕ → ℤ)
    {buf : List UInt8} {bof : ℕ} (hbuf : buf.length = L.UBSZ) (hbof : bof ≤ L.UBSZ) (out : List (ℤ × List UInt8)) :
    ∃ uid w', w.addUser junk u.fd = .ok (uid, w') ∧ w'.sent = w.sent ∧ w'.conns = w.conns ∧ uid ≠ 0 ∧
      (({ w' with sent := out } : Web).replace { u with bof, buf, uid, up := true }).Inv L := by
  obtain ⟨uid, w', ha, hcs, hst, hle, hlen, hsm, hgrow, hpos, huid, hs, hnew, hold⟩ := Web.addUser_spec h hu h0 junk u.fd
  refine ⟨uid, w', ha, hst, hcs, fun hz => by rw [hz] at hpos; exact absurd hpos (Nat.lt_irrefl 0), ?_⟩
  have hall : ∀ {P : Uclo → Prop}, P { u with bof, buf, uid, up := true } →
      (∀ c ∈ w.conns, c.fd ≠ u.fd → P c) →
      ∀ c ∈ (({ w' with sent := out } : Web).replace { u with bof, buf, uid, up := true }).conns, P c := by
    intro P hu' hP c hc
    rcases Web.mem_replace hc with rfl | ⟨hc, hne⟩
    · exact hu'
    · exact hP c (hcs ▸ hc) hne
  refine ⟨Web.fds_replace (by rw [hcs]; exact h.fds), hall (h.fd u hu) fun c hc _ => h.fd c hc,
    hall ⟨hbuf, hbof⟩ fun c hc _ => h.buf c hc, ⟨hle, hlen⟩, hsm, hall (fun _ => ⟨hpos, huid, hs⟩) fun c hc hne hup => ?_,
    hall (fun hf => absurd hf Bool.true_eq_false.mp) fun c hc _ => h.down c hc, fun i hi hno => ?_⟩
  · obtain ⟨hcp, hcle, hcs'⟩ := h.up c hc hup
    have hne' : c.uid.toNat - 1 + 1 ≠ uid.toNat := fun he => hnew c hc (BitVec.eq_of_toNat_eq (by omega))
    exact ⟨hcp, hcle.trans hgrow, (hold _ (by omega) hne').2.trans hcs'⟩
  · have hself := hno _ (Web.mem_replace_self (w := { w' with sent := out }) (c := u) (by rw [hcs]; exact hu) rfl)
    obtain ⟨hi', hsi⟩ := hold i hi fun he => hself he.symm
    refine hsi.trans (h.gone i hi' fun c hc he => ?_)
    by_cases hfd : c.fd = u.fd
    · rw [eq_of_pairwise h.fds hc hu hfd, h.down u hu h0] at he
      exact absurd he (Nat.zero_ne_add_one i)
    · exact hno c (Web.mem_replace_of_ne (w := { w' with sent := out }) (by rw [hcs]; exact hc) hfd) he

theorem Web.dataCb_eq (h : w.Inv L) (junk : ℕ → ℤ) {u : Uclo} (hu : u ∈ w.conns) {bs : List UInt8}
    (hlen : bs.length ≤ L.UBSZ - u.bof) : w.dataCb junk u.fd bs =
      if bs = [] then w.close u
      else if u.up = true then .ok (w.replace { u with bof := 0, buf := putAt u.bof bs u.buf })
      else (do
        let r ← recvHshk (putAt u.bof bs u.buf) (u.bof + bs.length)
        if r.1 < 0 then w.close u
        else if r.1 = 0 then pure (w.replace { u with bof := u.bof + bs.length, buf := r.2 })
        else
          let a ← w.addUser junk u.fd
          let w := { a.2 with sent := a.2.sent ++ [(u.fd, r.2.take r.1.toNat)] }
          pure (w.replace { u with bof := u.bof + bs.length, buf := r.2, uid := a.1, up := true })) := by
  obtain ⟨u', hu', hfd, hfind⟩ := Web.find_uclo ⟨u, hu, rfl⟩
  cases eq_of_pairwise h.fds hu hu' hfd.symm
  obtain ⟨hbl, hbf⟩ := h.buf u hu
  rw [Web.dataCb, hfind]
  simp only
  by_cases hnil : bs = []
  · rw [if_pos hnil, if_pos hnil]
  · rw [if_neg hnil, if_neg hnil, splice_ok (by omega), ← putAt]
    simp only [bind, Except.bind]
    by_cases hup : u.up = true
    · have huid : u.uid ≠ 0 := fun hz => by
        have := (h.pos_iff hu).mp hup
        rw [hz] at this
        exact absurd this (Nat.lt_irrefl 0)
      rw [if_pos huid, if_pos hup]
      rfl
    · rw [if_neg (not_not.mpr (h.down u hu (Bool.eq_false_iff.mpr hup))), if_neg hup]

/-- **What `data_cb` does**: it closes the connection, drops what an upgraded one says, keeps what has
arrived of a request, or answers it. -/
theorem Web.dataCb_cases (h : w.Inv L) {junk : ℕ → ℤ} {u : Uclo} (hu : u ∈ w.conns) {bs : List UInt8}
    (hlen : bs.length ≤ L.UBSZ - u.bof) (hw : w.dataCb junk u.fd bs = .ok w') :
    w.close u = .ok w' ∨
    (u.up = true ∧ w' = w.replace { u with bof := 0, buf := putAt u.bof bs u.buf }) ∨
    (u.up = false ∧ Search.search crlf2 ((putAt u.bof bs u.buf).take (u.bof + bs.length)) = none ∧
      w' = w.replace { u with bof := u.bof + bs.length, buf := putAt u.bof bs u.buf }) ∨
    ∃ r a, u.up = false ∧ recvHshk (putAt u.bof bs u.buf) (u.bof + bs.length) = .ok r ∧
      w.addUser junk u.fd = .ok a ∧
      w' = ({ a.2 with sent := a.2.sent ++ [(u.fd, r.2.take r.1.toNat)] } : Web).replace
        { u with bof := u.bof + bs.length, buf := r.2, uid := a.1, up := true } := by
  rw [Web.dataCb_eq h junk hu hlen] at hw
  by_cases hnil : bs = []
  · rw [if_pos hnil] at hw
    exact .inl hw
  · rw [if_neg hnil] at hw
    by_cases hup : u.up = true
    · rw [if_pos hup] at hw
      cases hw
      exact .inr (.inl ⟨hup, rfl⟩)
    · rw [if_neg hup] at hw
      have hdown := Bool.eq_false_iff.mpr hup
      obtain ⟨r, hr, hw⟩ := bind_ok.mp hw
      rcases recvHshk_cases hr with ⟨hn, rfl⟩ | ⟨-, -, rfl⟩ | ⟨-, -, hpos, -⟩
      · cases hw
        exact .inr (.inr (.inl ⟨hdown, hn, rfl⟩))
      · exact .inl hw
      · rw [if_neg (by omega), if_neg (by omega)] at hw
        obtain ⟨a, ha, hw⟩ := bind_ok.mp hw
        cases hw
        exact .inr (.inr (.inr ⟨r, a, hdown, hr, ha, rfl⟩))

theorem length_putAt_buf (h : w.Inv L) {u : Uclo} (hu : u ∈ w.conns) {bs : List UInt8}
    (hlen : bs.length ≤ L.UBSZ - u.bof) :
    (putAt u.bof bs u.buf).length = L.UBSZ ∧ u.bof + bs.length ≤ L.UBSZ := by
  obtain ⟨hbl, hbf⟩ := h.buf u hu
  exact ⟨(length_splice (by omega)).trans hbl, by omega⟩

theorem Web.dataCb_inv (h : w.Inv L) {junk : ℕ → ℤ} {u : Uclo} (hu : u ∈ w.conns) {bs : List UInt8}
    (hlen : bs.length ≤ L.UBSZ - u.bof) (hw : w.dataCb junk u.fd bs = .ok w') : w'.Inv L := by
  obtain ⟨hbuf, hbof⟩ := length_putAt_buf h hu hlen
  rcases Web.dataCb_cases h hu hlen hw with hc | ⟨-, rfl⟩ | ⟨-, -, rfl⟩ | ⟨r, a, hdown, hr, ha, rfl⟩
  · obtain ⟨w₁, h₁, hinv, -⟩ := Web.close_inv h hu
    cases hc.symm.trans h₁
    exact hinv
  · exact Web.replace_inv h hu rfl rfl rfl hbuf (Nat.zero_le _)
  · exact Web.replace_inv h hu rfl rfl rfl hbuf hbof
  · obtain ⟨uid, w₁, h₁, -, -, -, hinv⟩ := Web.upgrade_inv h hu hdown junk ((recvHshk_length hr).trans hbuf)
      hbof (a.2.sent ++ [(u.fd, r.2.take r.1.toNat)])
    cases ha.symm.trans h₁
    exact hinv

/-! ## Broadcasts -/

/-- The sockets that are sent a frame. -/
def Web.targets (w : Web) : List ℤ := (w.sock.take w.nsock).filter fun s => 0 ≤ s

theorem Web.sendAll_spec (w : Web) (hle : w.nsock ≤ w.sock.length) (frame : List UInt8)
    (sent : List (ℤ × List UInt8)) :
    w.sendAll frame sent = .ok (sent ++ w.targets.map fun s => (s, frame)) := by
  obtain ⟨s', h', rfl⟩ := forRange_spec (n := w.nsock) (s := sent)
    (f := fun j sent => do
      let s ← getAt w.sock j
      if s < 0 then pure sent else pure (sent ++ [(s, frame)]))
    (I := fun j out => out = sent ++ ((w.sock.take j).filter fun s => 0 ≤ s).map fun s => (s, frame))
    (by simp) (by
      rintro j hj _ rfl
      have hget : w.sock[j]? = some w.sock[j] := List.getElem?_eq_getElem _
      rw [List.take_add_one, hget, List.filter_append]
      by_cases hs : w.sock[j] < 0
      · refine ⟨_, by rw [getAt_ok hget]; simp only [bind, Except.bind, if_pos hs]; rfl, ?_⟩
        simp [Int.not_le.mpr hs]
      · refine ⟨_, by rw [getAt_ok hget]; simp only [bind, Except.bind, if_neg hs]; rfl, ?_⟩
        simp [Int.not_lt.mp hs])
  exact h'

/-- **A broadcast** sends every frame to every target. -/
theorem Web.broadcast_spec (frames : List (List UInt8)) : ∀ w : Web, w.nsock ≤ w.sock.length →
    w.broadcast frames =
      .ok { w with sent := w.sent ++ frames.flatMap fun frame => w.targets.map fun s => (s, frame) } := by
  induction frames with
  | nil =>
      intro w _
      rw [Web.broadcast, List.flatMap_nil, List.append_nil]
  | cons frame frames ih =>
      intro w hle
      rw [Web.broadcast, Web.sendAll_spec w hle]
      simp only [bind, Except.bind]
      have hrest := ih { w with sent := w.sent ++ w.targets.map fun s => (s, frame) } hle
      rw [hrest, List.flatMap_cons, ← List.append_assoc]
      rfl

theorem Web.Inv.at_place (h : w.Inv L) {i : ℕ} (hi : i < w.nsock) {s : ℤ} (hs : w.sock[i]? = some s)
    (h0 : 0 ≤ s) : ∃ c ∈ w.conns, c.up = true ∧ c.uid.toNat = i + 1 ∧ c.fd = s := by
  by_contra hno
  have := h.gone i hi fun c hc he => hno ⟨c, hc, (h.pos_iff hc).mpr (by omega), he, by
    have := (h.at_uid hc he).2
    rw [hs] at this
    exact (Option.some.inj this).symm⟩
  rw [hs] at this
  cases this
  omega

theorem Web.Inv.targets_perm (h : w.Inv L) :
    w.targets.Perm ((w.conns.filter fun c => c.up).map Uclo.fd) := by
  have hget : ∀ {i : ℕ} {s : ℤ}, (w.sock.take w.nsock)[i]? = some s → i < w.nsock ∧ w.sock[i]? = some s := by
    intro i s hs
    rw [List.getElem?_take] at hs
    split_ifs at hs with hi
    exact ⟨hi, hs⟩
  have hnodup : w.targets.Nodup := by
    refine List.pairwise_filter.mpr (List.pairwise_iff_getElem.mpr fun i j hi hj hij h1 h2 he => ?_)
    obtain ⟨hin, hsi⟩ := hget (List.getElem?_eq_getElem hi)
    obtain ⟨hjn, hsj⟩ := hget (List.getElem?_eq_getElem hj)
    obtain ⟨c, hc, -, hci, hcf⟩ := h.at_place hin hsi (by simpa using h1)
    obtain ⟨c', hc', -, hcj, hcf'⟩ := h.at_place hjn hsj (by simpa using h2)
    rw [eq_of_pairwise h.fds hc hc' (hcf.trans (he.trans hcf'.symm)), hcj] at hci
    omega
  have hnodup' : ((w.conns.filter fun c => c.up).map Uclo.fd).Nodup :=
    List.pairwise_map.mpr (h.fds.filter _)
  refine (List.perm_ext_iff_of_nodup hnodup hnodup').mpr fun s => ?_
  rw [Web.targets, List.mem_filter, List.mem_map]
  constructor
  · rintro ⟨hs, h0⟩
    obtain ⟨i, hi⟩ := List.mem_iff_getElem?.mp hs
    obtain ⟨hin, hsi⟩ := hget hi
    obtain ⟨c, hc, hup, -, hcf⟩ := h.at_place hin hsi (by simpa using h0)
    exact ⟨c, List.mem_filter.mpr ⟨hc, hup⟩, hcf⟩
  · rintro ⟨c, hc, rfl⟩
    obtain ⟨hc, hup⟩ := List.mem_filter.mp hc
    obtain ⟨hpos, hle, hs⟩ := h.up c hc hup
    refine ⟨List.mem_iff_getElem?.mpr ⟨c.uid.toNat - 1, ?_⟩, by simpa using (h.fd c hc).1⟩
    rw [List.getElem?_take, if_pos (by omega)]
    exact hs

/-- **The subscribers**: the connections that are up are found under uids of their own, all other places
are free and a broadcast sends every frame to every one of them once, and to nobody else. -/
structure Web.Subscribed (w : Web) : Prop where
  place : ∀ c ∈ w.conns, c.up = true → 1 ≤ c.uid.toNat ∧ c.uid.toNat ≤ w.nsock ∧
    w.sock[c.uid.toNat - 1]? = some c.fd
  distinct : ∀ c ∈ w.conns, ∀ c' ∈ w.conns, c.up = true → c'.up = true → c.uid = c'.uid → c = c'
  free : ∀ i < w.nsock, (∀ c ∈ w.conns, c.up = true → c.uid.toNat ≠ i + 1) → w.sock[i]? = some (-1)
  fds : (w.conns.map Uclo.fd).Nodup
  broadcast : ∀ frames, ∃ targets : List ℤ, targets.Perm ((w.conns.filter fun c => c.up).map Uclo.fd) ∧
    w.broadcast frames =
      .ok { w with sent := w.sent ++ frames.flatMap fun frame => targets.map fun s => (s, frame) }

theorem Web.Inv.subscribed (h : w.Inv L) : w.Subscribed := by
  refine ⟨fun c hc hu => h.up c hc hu, fun c hc c' hc' hu _ he => h.uid_inj hc hc' hu he,
    fun i hi hno => h.gone i hi fun c hc he => hno c hc ((h.pos_iff hc).mpr (by omega)) he,
    List.pairwise_map.mpr h.fds, fun frames => ⟨w.targets, h.targets_perm, ?_⟩⟩
  exact Web.broadcast_spec frames w (h.cap.2 ▸ h.cap.1)

theorem web_step_inv (hi : w.Inv L) {e : WebEvent} (ha : e.allowed L w) (hs : e.step L w = .ok w') : w'.Inv L := by
  cases e with
  | accept junk ns =>
      cases hs
      exact Web.cakeCb_inv hi junk ⟨ha.1, ha.2.1⟩ ha.2.2
  | data junk fd bs =>
      obtain ⟨u, hu, rfl, hlen⟩ := ha
      exact Web.dataCb_inv hi hu hlen hs
  | snap frames =>
      have hs : w.broadcast frames = .ok w' := hs
      rw [Web.broadcast_spec frames w (hi.cap.2 ▸ hi.cap.1)] at hs
      cases hs
      exact ⟨hi.fds, hi.fd, hi.buf, hi.cap, hi.small, hi.up, hi.down, hi.gone⟩

theorem web_inv {es : List WebEvent} (h : (webMachine L).Runs es w) : w.Inv L := by
  refine h.inv ?_ ?_
  · rintro w rfl
    exact Web.init_inv
  · intro w e w' hi ha hs
    exact web_step_inv hi (show e.allowed L w from ha) hs

/-- `struct uclo_s` with 64 bytes before the buffer. -/
def sampleUclo : UcloLayout := ⟨64, by decide⟩

theorem accept_runs : (webMachine sampleUclo).Runs [.accept (fun _ => 0) 5]
    ((⟨[], 0, 0, [], []⟩ : Web).cakeCb sampleUclo (fun _ => 0) 5) :=
  .next (.start rfl) ⟨by decide, by decide, fun _ hc => absurd hc List.not_mem_nil⟩ rfl

/-- What `sampleUclo` is asked in one read. -/
def sampleHshk : List UInt8 := hshkKey ++ Ascii.bytes [' ', 'A', '\r', '\n', '\r', '\n']

end Unserlob
