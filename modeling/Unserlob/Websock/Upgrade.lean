import Unserlob.Websock.Subscribers

/-!
# Upgrading a connection

A request may arrive in any number of reads, between whatever other connections do.

* `received`: the bytes read from a descriptor since it was opened;
* `Web.Kept`, **`web_kept`**: a connection that is not up has kept them, and they are no complete request;
* `dataCb_more`, `dataCb_bad`, **`dataCb_reply`**, `dataCb_over`, `dataCb_up`: the outcomes of a read;
* `WebEvent.Fits`, `web_goes_iff`, **`subscribed_iff`**: the table of subscribers as long as requests fit;
* `IsRequest.keyOf`: the key of a request; **`upgraded`**: the handshake; `empty_key_misread`: none.
-/

namespace Unserlob

open Ascii Cursor Table Writer

/-- The bytes read from `fd` since it was opened. -/
def received (fd : ℤ) (es : List WebEvent) : List UInt8 :=
  es.foldl (fun got e => match e with
    | .accept _ ns => if ns = fd then [] else got
    | .data _ f bs => if f = fd then got ++ bs else got
    | .snap _ => got) []

theorem received_accept (fd : ℤ) (es : List WebEvent) (junk : ℕ → UInt8) (ns : ℤ) :
    received fd (es ++ [.accept junk ns]) = if ns = fd then [] else received fd es := by
  rw [received, List.foldl_append, ← received]
  rfl

theorem received_data (fd : ℤ) (es : List WebEvent) (junk : ℕ → ℤ) (f : ℤ) (bs : List UInt8) :
    received fd (es ++ [.data junk f bs]) = if f = fd then received fd es ++ bs else received fd es := by
  rw [received, List.foldl_append, ← received]
  rfl

theorem received_snap (fd : ℤ) (es : List WebEvent) (frames : List (List UInt8)) :
    received fd (es ++ [.snap frames]) = received fd es := by
  rw [received, List.foldl_append, ← received]
  rfl

/-- **What has arrived is kept**, as long as there is more to come. -/
structure Web.Kept (w : Web) (es : List WebEvent) : Prop where
  kept : ∀ c ∈ w.conns, c.up = false → c.buf.take c.bof = received c.fd es
  more : ∀ c ∈ w.conns, c.up = false → ¬ crlf2 <:+: received c.fd es

variable {L : UcloLayout} {w w' : Web}

theorem take_putAt (h : w.Inv L) {u : Uclo} (hu : u ∈ w.conns) (bs : List UInt8) :
    (putAt u.bof bs u.buf).take (u.bof + bs.length) = u.buf.take u.bof ++ bs := by
  obtain ⟨hbl, hbf⟩ := h.buf u hu
  have hl : (u.buf.take u.bof).length = u.bof := List.length_take_of_le (by omega)
  rw [putAt]
  exact List.take_left' (by rw [List.length_append, hl])

theorem Web.Kept.accept {es : List WebEvent} (hk : w.Kept es) {junk : ℕ → UInt8} {ns : ℤ}
    (hne : ∀ c ∈ w.conns, c.fd ≠ ns) : (w.cakeCb L junk ns).Kept (es ++ [.accept junk ns]) := by
  refine ⟨List.forall_mem_cons.mpr ⟨fun _ => ?_, fun c hc hup => ?_⟩,
    List.forall_mem_cons.mpr ⟨fun _ => ?_, fun c hc hup => ?_⟩⟩
  · rw [received_accept, if_pos rfl]
    exact List.take_zero
  · rw [received_accept, if_neg (hne c hc).symm]
    exact hk.kept c hc hup
  · rw [received_accept, if_pos rfl]
    decide
  · rw [received_accept, if_neg (hne c hc).symm]
    exact hk.more c hc hup

theorem Web.Kept.data {es : List WebEvent} (hi : w.Inv L) (hk : w.Kept es) {u : Uclo} (hu : u ∈ w.conns)
    {junk : ℕ → ℤ} {bs : List UInt8} (hlen : bs.length ≤ L.UBSZ - u.bof)
    (hs : w.dataCb junk u.fd bs = .ok w') : w'.Kept (es ++ [.data junk u.fd bs]) := by
  have hkeep : ∀ c ∈ w.conns, c.fd ≠ u.fd → c.up = false →
      c.buf.take c.bof = received c.fd (es ++ [.data junk u.fd bs]) ∧
        ¬ crlf2 <:+: received c.fd (es ++ [.data junk u.fd bs]) := by
    intro c hc hne hup
    rw [received_data, if_neg hne.symm]
    exact ⟨hk.kept c hc hup, hk.more c hc hup⟩
  suffices hall : ∀ c ∈ w'.conns, c.up = false →
      c.buf.take c.bof = received c.fd (es ++ [.data junk u.fd bs]) ∧
        ¬ crlf2 <:+: received c.fd (es ++ [.data junk u.fd bs]) from
    ⟨fun c hc hup => (hall c hc hup).1, fun c hc hup => (hall c hc hup).2⟩
  intro c hc hup
  rcases Web.dataCb_cases hi hu hlen hs with hcl | ⟨hu', rfl⟩ | ⟨hu', hn, rfl⟩ | ⟨r, a, hu', hr, haa, rfl⟩
  · obtain ⟨w₁, h₁, -, hcs, -⟩ := Web.close_inv hi hu
    cases hcl.symm.trans h₁
    rw [hcs, List.mem_filter, bne_iff_ne] at hc
    exact hkeep c hc.1 hc.2 hup
  · rcases Web.mem_replace hc with rfl | ⟨hc, hne⟩
    · exact absurd (hu'.symm.trans hup) Bool.true_eq_false.mp
    · exact hkeep c hc hne hup
  · rcases Web.mem_replace hc with rfl | ⟨hc, hne⟩
    · show (putAt u.bof bs u.buf).take (u.bof + bs.length) = _ ∧ _
      rw [received_data, if_pos rfl, ← hk.kept u hu hu', ← take_putAt hi hu]
      exact ⟨rfl, Search.search_eq_none_iff.mp hn⟩
    · exact hkeep c hc hne hup
  · obtain ⟨uid, w₁, h₁, -, hcs, -⟩ := Web.upgrade_inv hi hu hu' junk (length_putAt_buf hi hu hlen).1
      (length_putAt_buf hi hu hlen).2 []
    cases haa.symm.trans h₁
    rcases Web.mem_replace hc with rfl | ⟨hc, hne⟩
    · cases hup
    · exact hkeep c (hcs ▸ hc) hne hup

theorem Web.Kept.snap {es : List WebEvent} (hk : w.Kept es) (frames : List (List UInt8))
    (hc : w'.conns = w.conns) : w'.Kept (es ++ [.snap frames]) := by
  constructor
  · intro c hm hup
    rw [received_snap]
    exact hk.kept c (hc ▸ hm) hup
  · intro c hm hup
    rw [received_snap]
    exact hk.more c (hc ▸ hm) hup

theorem web_kept {es : List WebEvent} (h : (webMachine L).Runs es w) : w.Inv L ∧ w.Kept es := by
  refine h.inv_events (P := fun es w => w.Inv L ∧ w.Kept es) ?_ ?_
  · rintro w rfl
    exact ⟨Web.init_inv, fun _ h => absurd h List.not_mem_nil, fun _ h => absurd h List.not_mem_nil⟩
  · rintro es w e w' ⟨hi, hk⟩ ha hs
    cases e with
    | accept junk ns =>
        cases hs
        exact ⟨Web.cakeCb_inv hi junk ⟨ha.1, ha.2.1⟩ ha.2.2, hk.accept ha.2.2⟩
    | data junk fd bs =>
        obtain ⟨u, hu, rfl, hlen⟩ := ha
        exact ⟨Web.dataCb_inv hi hu hlen hs, hk.data hi hu hlen hs⟩
    | snap frames =>
        have hs : w.broadcast frames = .ok w' := hs
        rw [Web.broadcast_spec frames w (hi.cap.2 ▸ hi.cap.1)] at hs
        cases hs
        exact ⟨⟨hi.fds, hi.fd, hi.buf, hi.cap, hi.small, hi.up, hi.down, hi.gone⟩, hk.snap frames rfl⟩

/-! ## The outcomes of a read -/

section Outcomes

variable {u : Uclo} {bs : List UInt8}

theorem dataCb_more (h : w.Inv L) (junk : ℕ → ℤ) (hu : u ∈ w.conns) (hdown : u.up = false) (hbs : bs ≠ [])
    (hlen : bs.length ≤ L.UBSZ - u.bof) (hn : ¬ crlf2 <:+: u.buf.take u.bof ++ bs) :
    w.dataCb junk u.fd bs = .ok (w.replace { u with bof := u.bof + bs.length, buf := putAt u.bof bs u.buf }) := by
  rw [← take_putAt h hu, ← Search.search_eq_none_iff] at hn
  rw [Web.dataCb_eq h junk hu hlen, if_neg hbs, if_neg (Bool.eq_false_iff.mp hdown), recvHshk_more hn]
  rfl

theorem dataCb_bad (h : w.Inv L) (junk : ℕ → ℤ) (hu : u ∈ w.conns) (hdown : u.up = false) (hbs : bs ≠ [])
    (hlen : bs.length ≤ L.UBSZ - u.bof) (hc : crlf2 <:+: u.buf.take u.bof ++ bs)
    (hk : ¬ hshkKey <:+: u.buf.take u.bof ++ bs) : w.dataCb junk u.fd bs = w.close u := by
  rw [← take_putAt h hu] at hc hk
  rw [Web.dataCb_eq h junk hu hlen, if_neg hbs, if_neg (Bool.eq_false_iff.mp hdown),
    recvHshk_bad (fun hn => Search.search_eq_none_iff.mp hn hc) (Search.search_eq_none_iff.mpr hk)]
  rfl

theorem dataCb_up (h : w.Inv L) (junk : ℕ → ℤ) (hu : u ∈ w.conns) (hup : u.up = true) (hbs : bs ≠ [])
    (hlen : bs.length ≤ L.UBSZ - u.bof) :
    w.dataCb junk u.fd bs = .ok (w.replace { u with bof := 0, buf := putAt u.bof bs u.buf }) := by
  rw [Web.dataCb_eq h junk hu hlen, if_neg hbs, if_pos hup]

/-- **A complete request with a key** is answered and the connection goes into the table. -/
theorem dataCb_reply (h : w.Inv L) (junk : ℕ → ℤ) (hu : u ∈ w.conns) (hdown : u.up = false) (hbs : bs ≠ [])
    (hlen : bs.length ≤ L.UBSZ - u.bof) {p : ℕ} (hc : crlf2 <:+: u.buf.take u.bof ++ bs)
    (hk : Search.search hshkKey (u.buf.take u.bof ++ bs) = some p)
    (hfits : (keyOf (u.buf.take u.bof ++ bs) (p + hshkKey.length)).length + 36 ≤ L.UBSZ) :
    ∃ w', w.dataCb junk u.fd bs = .ok w' ∧ w'.Inv L ∧
      w'.sent = w.sent ++ [(u.fd, response (keyOf (u.buf.take u.bof ++ bs) (p + hshkKey.length)))] ∧
      ∃ u' ∈ w'.conns, u'.fd = u.fd ∧ u'.up = true := by
  obtain ⟨hbl, hbf⟩ := length_putAt_buf h hu hlen
  rw [← take_putAt h hu] at hc hk hfits ⊢
  have hroom := L.room
  obtain ⟨buf', hr, hl, ht⟩ := recvHshk_reply (fun hn => Search.search_eq_none_iff.mp hn hc) hk
    (by rw [hbl]; exact hbf) (by rw [hbl]; exact hfits) (by rw [hbl, UcloLayout.UBSZ]; omega)
    (by rw [hbl, UcloLayout.UBSZ]; omega)
  obtain ⟨uid, w₁, h₁, hst, hcs, -, hinv⟩ := Web.upgrade_inv h hu hdown junk (hl.trans hbl) hbf
    (w.sent ++ [(u.fd, buf'.take 129)])
  refine ⟨_, ?_, hinv, ?_, _, Web.mem_replace_self (c := u) (by rw [hcs]; exact hu) rfl, rfl, rfl⟩
  · rw [Web.dataCb_eq h junk hu hlen, if_neg hbs, if_neg (Bool.eq_false_iff.mp hdown), hr]
    simp only [bind, Except.bind, h₁, hst]
    rfl
  · show w.sent ++ [(u.fd, buf'.take 129)] = _
    rw [ht]

theorem dataCb_over (h : w.Inv L) (junk : ℕ → ℤ) (hu : u ∈ w.conns) (hdown : u.up = false) (hbs : bs ≠ [])
    (hlen : bs.length ≤ L.UBSZ - u.bof) {p : ℕ} (hc : crlf2 <:+: u.buf.take u.bof ++ bs)
    (hk : Search.search hshkKey (u.buf.take u.bof ++ bs) = some p)
    (hover : L.UBSZ < (keyOf (u.buf.take u.bof ++ bs) (p + hshkKey.length)).length + 36) :
    w.dataCb junk u.fd bs = .error .store := by
  obtain ⟨hbl, hbf⟩ := length_putAt_buf h hu hlen
  rw [← take_putAt h hu] at hc hk hover
  have hr := recvHshk_over (fun hn => Search.search_eq_none_iff.mp hn hc) hk (by rw [hbl]; exact hbf)
    (by rw [hbl]; exact hover)
  rw [Web.dataCb_eq h junk hu hlen, if_neg hbs, if_neg (Bool.eq_false_iff.mp hdown), hr]
  rfl

end Outcomes

/-! ## The table of subscribers -/

/-- The condition: behind the key of a complete request there is room for the magic bytes. -/
def WebEvent.Fits (L : UcloLayout) (w : Web) : WebEvent → Prop
  | .data _ fd bs => ∀ u ∈ w.conns, u.fd = fd → u.up = false → bs ≠ [] → crlf2 <:+: u.buf.take u.bof ++ bs →
    ∀ p, Search.search hshkKey (u.buf.take u.bof ++ bs) = some p →
      (keyOf (u.buf.take u.bof ++ bs) (p + hshkKey.length)).length + 36 ≤ L.UBSZ
  | _ => True

theorem dataCb_goes_iff (h : w.Inv L) (junk : ℕ → ℤ) {u : Uclo} (hu : u ∈ w.conns) {bs : List UInt8}
    (hlen : bs.length ≤ L.UBSZ - u.bof) :
    (∃ w', w.dataCb junk u.fd bs = .ok w') ↔ (WebEvent.data junk u.fd bs).Fits L w := by
  have hself : ∀ u' ∈ w.conns, u'.fd = u.fd → u' = u := fun u' hu' hfd => eq_of_pairwise h.fds hu' hu hfd
  obtain ⟨w₀, hclose, -⟩ := Web.close_inv h hu
  by_cases hbs : bs = []
  · refine iff_of_true ⟨w₀, ?_⟩ fun _ _ _ _ hne => absurd hbs hne
    rw [Web.dataCb_eq h junk hu hlen, if_pos hbs, hclose]
  by_cases hup : u.up = true
  · refine iff_of_true ⟨_, dataCb_up h junk hu hup hbs hlen⟩ fun u' hu' hfd hdown => ?_
    rw [hself u' hu' hfd, hup] at hdown
    cases hdown
  have hdown := Bool.eq_false_iff.mpr hup
  by_cases hc : crlf2 <:+: u.buf.take u.bof ++ bs
  · cases hk : Search.search hshkKey (u.buf.take u.bof ++ bs) with
    | none =>
        refine iff_of_true ⟨w₀, ?_⟩ fun u' hu' hfd _ _ _ p hp => ?_
        · rw [dataCb_bad h junk hu hdown hbs hlen hc (Search.search_eq_none_iff.mp hk), hclose]
        · rw [hself u' hu' hfd, hk] at hp
          cases hp
    | some p =>
        by_cases hfits : (keyOf (u.buf.take u.bof ++ bs) (p + hshkKey.length)).length + 36 ≤ L.UBSZ
        · obtain ⟨w', hw, -⟩ := dataCb_reply h junk hu hdown hbs hlen hc hk hfits
          refine iff_of_true ⟨w', hw⟩ fun u' hu' hfd _ _ _ p' hp => ?_
          rw [hself u' hu' hfd, hk] at hp
          cases hp
          rw [hself u' hu' hfd]
          exact hfits
        · refine iff_of_false (fun ⟨w', hw⟩ => ?_) fun hF => hfits (hF u hu rfl hdown hbs hc p hk)
          cases hw.symm.trans (dataCb_over h junk hu hdown hbs hlen hc hk (not_le.mp hfits))
  · refine iff_of_true ⟨_, dataCb_more h junk hu hdown hbs hlen hc⟩ fun u' hu' hfd _ _ hc' => ?_
    rw [hself u' hu' hfd] at hc'
    exact absurd hc' hc

/-- **An event goes through** just when the request that it completes fits. -/
theorem web_goes_iff (h : w.Inv L) {e : WebEvent} (ha : e.allowed L w) :
    (∃ w', e.step L w = .ok w') ↔ e.Fits L w := by
  cases e with
  | accept junk ns => exact iff_of_true ⟨_, rfl⟩ trivial
  | data junk fd bs =>
      obtain ⟨u, hu, rfl, hlen⟩ := ha
      exact dataCb_goes_iff h junk hu hlen
  | snap frames => exact iff_of_true ⟨_, Web.broadcast_spec frames w (h.cap.2 ▸ h.cap.1)⟩ trivial

/-- **The subscribers**: whatever comes is dealt with and leaves the table that of the subscribers just when every
request that is completed fits, and in every state that is reached it is theirs. -/
theorem subscribed_iff (L : UcloLayout) (es : List WebEvent) :
    ((webMachine L).Deals (fun _ _ w' => w'.Subscribed) es ⟨[], 0, 0, [], []⟩ ↔
      (webMachine L).Meets (fun w e => e.Fits L w) es ⟨[], 0, 0, [], []⟩) ∧
    ∀ w, (webMachine L).Runs es w → w.Subscribed := by
  refine ⟨Run.Machine.deals_iff_meets (I := fun w => w.Inv L) ?_ ?_ es Web.init_inv, fun w hw =>
    (web_inv hw).subscribed⟩
  · intro w e hi ha hF
    obtain ⟨w', hw⟩ := (web_goes_iff hi ha).mpr hF
    have hi' := web_step_inv hi ha hw
    exact ⟨w', hw, hi'.subscribed, hi'⟩
  · exact fun w e w' hi ha hw _ => (web_goes_iff hi ha).mp ⟨w', hw⟩

/-- A request with nothing but a key. -/
def keyRequest (K : List UInt8) : List UInt8 := hshkKey ++ (K ++ crlf2)

theorem keyRequest_key {K : List UInt8} (hK : K ≠ []) (hb : ∀ b ∈ K, isBlank b = false) :
    keyOf (keyRequest K) (0 + hshkKey.length) = K := by
  obtain ⟨k, K, rfl⟩ := List.exists_cons_of_ne_nil hK
  rw [keyOf, Nat.zero_add, keyRequest, List.drop_left, List.cons_append,
    List.dropWhile_cons_of_neg (by rw [hb k List.mem_cons_self]; exact Bool.false_ne_true), ← List.cons_append,
    List.takeWhile_append_of_pos fun b hb' => by rw [hb b hb']; rfl]
  exact (congrArg _ (List.takeWhile_cons_of_neg (by decide))).trans (List.append_nil _)

theorem keyRequest_over {K : List UInt8} (hb : ∀ b ∈ K, isBlank b = false)
    (hle : (keyRequest K).length ≤ sampleUclo.UBSZ) (hlt : sampleUclo.UBSZ < K.length + 36) :
    ∃ w, (webMachine sampleUclo).Runs [.accept (fun _ => 0) 5] w ∧
      (webMachine sampleUclo).allowed w (.data (fun _ => 0) 5 (keyRequest K)) ∧
      (webMachine sampleUclo).step (.data (fun _ => 0) 5 (keyRequest K)) w = .error .store := by
  have hsearch : Search.search hshkKey (keyRequest K) = some 0 :=
    Search.search_eq_some_iff.mpr ⟨⟨[], _, rfl, rfl⟩, fun q hq => absurd hq (Nat.not_lt_zero q)⟩
  have hc : crlf2 <:+: keyRequest K := ⟨hshkKey ++ K, [], by rw [keyRequest, List.append_nil, List.append_assoc]⟩
  have hne : keyRequest K ≠ [] := List.append_ne_nil_of_left_ne_nil (by decide) _
  have hK : K ≠ [] := by
    rintro rfl
    exact absurd hlt (by decide)
  refine ⟨_, accept_runs, ⟨_, List.mem_cons_self, rfl, hle⟩, ?_⟩
  have hgot : ∀ buf : List UInt8, buf.take 0 ++ keyRequest K = keyRequest K := fun buf => by
    rw [List.take_zero, List.nil_append]
  have hover := dataCb_over (web_inv accept_runs) (fun _ => 0)
    (u := ⟨5, 0, 0, realloc (fun _ => 0) sampleUclo.UBSZ [], false⟩) List.mem_cons_self rfl hne hle (p := 0)
    (by rw [hgot]; exact hc) (by rw [hgot]; exact hsearch) (by rw [hgot, keyRequest_key hK hb]; exact hlt)
  exact hover

/-- **A key that takes up the whole buffer**: the magic bytes are written past the end of the block. -/
theorem wideKey_over : ∃ w bs, bs.length = 4032 ∧ (webMachine sampleUclo).Runs [.accept (fun _ => 0) 5] w ∧
    (webMachine sampleUclo).allowed w (.data (fun _ => 0) 5 bs) ∧
    (webMachine sampleUclo).step (.data (fun _ => 0) 5 bs) w = .error .store := by
  have hlen : (keyRequest (List.replicate 4010 (ch 'A'))).length = 4032 := by
    rw [keyRequest, List.length_append, List.length_append, List.length_replicate]
    rfl
  obtain ⟨w, hr, ha, hs⟩ := keyRequest_over (K := List.replicate 4010 (ch 'A'))
    (fun b hb => by rw [List.eq_of_mem_replicate hb]; rfl) (by rw [hlen]; decide)
    (by rw [List.length_replicate]; decide)
  exact ⟨w, _, hlen, hr, ha, hs⟩

/-! ## The key of a request -/

theorem toInt_toInt8_of_lt {b : UInt8} (h : b.toNat < 128) : b.toInt8.toInt = b.toNat := by
  show b.toBitVec.toInt = _
  rw [BitVec.toInt_eq_toNat_of_lt (by show 2 * b.toNat < _; omega)]
  rfl

theorem isBlank_of_le {b : UInt8} (h : b ≤ 0x20) : isBlank b = true := by
  have hb : b.toNat ≤ 32 := UInt8.le_iff_toNat_le.mp h
  rw [isBlank, toInt_toInt8_of_lt (by omega)]
  simpa using hb

theorem not_isBlank {b : UInt8} (h : 0x20 < b ∧ b < 0x80) : isBlank b = false := by
  have hb : 32 < b.toNat := UInt8.lt_iff_toNat_lt.mp h.1
  rw [isBlank, toInt_toInt8_of_lt (UInt8.lt_iff_toNat_lt.mp h.2)]
  simpa using hb

/-- **A complete request** with the key `K`, that has room behind it for the magic bytes. -/
structure IsRequest (L : UcloLayout) (req pre ws K rest : List UInt8) : Prop where
  eq : req = pre ++ hshkKey ++ (ws ++ (K ++ ch '\r' :: rest))
  first : ∀ q < pre.length, ¬ hshkKey <+: req.drop q
  complete : crlf2 <:+: req
  blanks : ∀ b ∈ ws, b ≤ 0x20
  key : ∀ b ∈ K, 0x20 < b ∧ b < 0x80
  fits : req.length + 36 ≤ L.UBSZ

variable {req pre ws K rest : List UInt8}

theorem IsRequest.search (h : IsRequest L req pre ws K rest) : Search.search hshkKey req = some pre.length :=
  Search.search_eq_some_iff.mpr ⟨⟨pre, _, h.eq, rfl⟩, h.first⟩

theorem IsRequest.length_key (h : IsRequest L req pre ws K rest) : K.length ≤ req.length := by
  rw [h.eq]
  simp only [List.length_append]
  omega

/-- **The key that is found** is the key, or nothing but blanks follow. -/
theorem IsRequest.keyOf (h : IsRequest L req pre ws K rest)
    (hK : K ≠ [] ∨ ∀ b ∈ rest, isBlank b = true) : keyOf req (pre.length + hshkKey.length) = K := by
  have hws : ∀ b ∈ ws, isBlank b = true := fun b hb => isBlank_of_le (h.blanks b hb)
  have hkey : ∀ b ∈ K, isBlank b = false := fun b hb => not_isBlank (h.key b hb)
  rw [Unserlob.keyOf, h.eq, List.drop_left' (by rw [List.length_append]), List.dropWhile_append_of_pos hws]
  cases K with
  | nil =>
      have hall : ∀ b ∈ ch '\r' :: rest, isBlank b = true :=
        List.forall_mem_cons.mpr ⟨rfl, hK.resolve_left fun hn => hn rfl⟩
      rw [List.nil_append, List.dropWhile_eq_nil_iff.mpr hall]
      rfl
  | cons k K =>
      rw [List.cons_append, List.dropWhile_cons_of_neg (by rw [hkey k List.mem_cons_self]; exact Bool.false_ne_true),
        ← List.cons_append, List.takeWhile_append_of_pos fun b hb => by rw [hkey b hb]; rfl]
      rw [List.takeWhile_cons_of_neg (by decide), List.append_nil]

/-! ## The handshake -/

/-- **What is wanted of a read** from a connection that has not been answered yet. -/
structure Web.Upgrades (L : UcloLayout) (w : Web) (es : List WebEvent) (u : Uclo) (junk : ℕ → ℤ)
    (bs : List UInt8) : Prop where
  arrived : u.buf.take u.bof = received u.fd es ∧ ¬ crlf2 <:+: received u.fd es
  more : ¬ crlf2 <:+: received u.fd es ++ bs → ∃ w', w.dataCb junk u.fd bs = .ok w' ∧ w'.sent = w.sent ∧
    w'.sock = w.sock ∧ ∃ u' ∈ w'.conns, u'.fd = u.fd ∧ u'.up = false ∧
      u'.buf.take u'.bof = received u.fd es ++ bs
  refused : crlf2 <:+: received u.fd es ++ bs → ¬ hshkKey <:+: received u.fd es ++ bs →
    ∃ w', w.dataCb junk u.fd bs = .ok w' ∧ w'.sent = w.sent ∧ w'.sock = w.sock ∧
      w'.conns = w.conns.filter fun c => c.fd != u.fd
  answered : ∀ pre ws K rest, IsRequest L (received u.fd es ++ bs) pre ws K rest →
    (K ≠ [] ∨ ∀ b ∈ rest, isBlank b = true) →
    ∃ w', w.dataCb junk u.fd bs = .ok w' ∧ w'.sent = w.sent ++ [(u.fd, response K)] ∧
      w'.targets.count u.fd = 1 ∧ ∃ u' ∈ w'.conns, u'.fd = u.fd ∧ u'.up = true

theorem Web.Inv.count_targets (h : w.Inv L) {u : Uclo} (hu : u ∈ w.conns) (hup : u.up = true) :
    w.targets.count u.fd = 1 := by
  rw [h.targets_perm.count_eq, List.count_eq_one_of_mem]
  · exact List.pairwise_map.mpr (h.fds.filter _)
  · exact List.mem_map.mpr ⟨u, List.mem_filter.mpr ⟨hu, hup⟩, rfl⟩

/-- **The handshake**, in every run: nothing is sent before the request is complete, a request with a key
is answered and its connection goes into the table, once, and one without a key is closed. -/
theorem upgraded (L : UcloLayout) {es : List WebEvent} {w : Web} (h : (webMachine L).Runs es w) {u : Uclo}
    (hu : u ∈ w.conns) (junk : ℕ → ℤ) {bs : List UInt8} (hbs : bs ≠ []) (hlen : bs.length ≤ L.UBSZ - u.bof) :
    (u.up = false → w.Upgrades L es u junk bs) ∧
      (u.up = true → ∃ w', w.dataCb junk u.fd bs = .ok w' ∧ w'.sent = w.sent ∧ w'.sock = w.sock ∧
        w'.nsock = w.nsock) := by
  obtain ⟨hi, hk⟩ := web_kept h
  refine ⟨fun hdown => ?_, fun hup => ⟨_, dataCb_up hi junk hu hup hbs hlen, rfl, rfl, rfl⟩⟩
  have hkept := hk.kept u hu hdown
  refine ⟨⟨hkept, hk.more u hu hdown⟩, fun hn => ?_, fun hc hn => ?_, fun pre ws K rest hreq hK => ?_⟩
  · rw [← hkept] at hn ⊢
    exact ⟨_, dataCb_more hi junk hu hdown hbs hlen hn, rfl, rfl, _, Web.mem_replace_self hu rfl, rfl, hdown,
      take_putAt hi hu bs⟩
  · rw [← hkept] at hc hn
    refine ⟨{ w with conns := w.conns.filter fun c => c.fd != u.fd }, ?_, rfl, rfl, rfl⟩
    rw [dataCb_bad hi junk hu hdown hbs hlen hc hn, Web.close, Web.killUser, if_pos (hi.down u hu hdown)]
    rfl
  · have hsearch := hreq.search
    have hkey := hreq.keyOf hK
    have hc := hreq.complete
    have hf : K.length + 36 ≤ L.UBSZ := (Nat.add_le_add_right hreq.length_key 36).trans hreq.fits
    rw [← hkept] at hsearch hkey hc
    obtain ⟨w', hw, hinv, hsent, u', hu', hfd, hup⟩ :=
      dataCb_reply hi junk hu hdown hbs hlen hc hsearch (by rw [hkey]; exact hf)
    rw [hkey] at hsent
    exact ⟨w', hw, hsent, hfd ▸ hinv.count_targets hu' hup, u', hu', hfd, hup⟩

/-- A request in one read, with `A` for a key. -/
theorem upgraded_one : ∃ w w' : Web, (webMachine sampleUclo).Runs [.accept (fun _ => 0) 5] w ∧
    w.dataCb (fun _ => 0) 5 sampleHshk = .ok w' ∧
      w'.sent = [(5, response [ch 'A'])] := by
  obtain ⟨w', hw, hs, -⟩ := ((upgraded sampleUclo accept_runs (List.mem_cons_self) (fun _ => 0)
    (show sampleHshk ≠ [] by decide) (by decide)).1 rfl).answered
    [] [ch ' '] [ch 'A'] (bytes ['\n', '\r', '\n'])
    ⟨rfl, fun q hq => absurd hq (Nat.not_lt_zero q), by decide, List.forall_mem_singleton.mpr (by decide),
      List.forall_mem_singleton.mpr (by decide), by decide⟩ (.inl (by decide))
  exact ⟨_, w', accept_runs, hw, hs⟩

/-- An empty key is not found: the next header is taken for it. -/
theorem empty_key_misread : ∃ (w w' : Web) (u : Uclo) (bs rest : List UInt8),
    (webMachine sampleUclo).Runs [.accept (fun _ => 0) 5] w ∧ u ∈ w.conns ∧ u.up = false ∧
    IsRequest sampleUclo (received u.fd [.accept (fun _ => 0) 5] ++ bs) [] [] [] rest ∧
    w.dataCb (fun _ => 0) u.fd bs = .ok w' ∧ w'.sent ≠ w.sent ++ [(u.fd, response [])] := by
  have hinv := web_inv accept_runs
  have hreq : IsRequest sampleUclo (hshkKey ++ bytes ['\r', '\n', 'A', '\r', '\n', '\r', '\n']) [] [] []
      (bytes ['\n', 'A', '\r', '\n', '\r', '\n']) :=
    ⟨rfl, fun q hq => absurd hq (Nat.not_lt_zero q), by decide, List.forall_mem_nil _, List.forall_mem_nil _,
      by decide⟩
  obtain ⟨w', hw, -, hsent, -⟩ := dataCb_reply hinv (fun _ => 0) List.mem_cons_self rfl
    (show hshkKey ++ bytes ['\r', '\n', 'A', '\r', '\n', '\r', '\n'] ≠ [] by decide) (by decide)
    hreq.complete hreq.search (by decide)
  refine ⟨_, w', _, _, _, accept_runs, List.mem_cons_self, rfl, hreq, hw, fun he => ?_⟩
  have hr : [((5 : ℤ), response [ch 'A'])] = [((5 : ℤ), response [])] := hsent.symm.trans he
  have hne : response [ch 'A'] ≠ response [] := by
    rw [response_eq (by decide), response_eq (by decide)]
    decide +kernel
  simp only [List.cons.injEq, Prod.mk.injEq] at hr
  exact hne hr.1.2

end Unserlob
