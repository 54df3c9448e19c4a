import Unserlob.Lib.Base64
import Unserlob.Lib.Writer
import Unserlob.Websock.Memmem
import Unserlob.Websock.Sha

/-!
# The handshake (`recv_hshk`)

The key is copied to the front of the buffer that holds the request, the digest of it and the magic bytes
is taken there and the response is written over it.

* `base64`, `recvHshk`: the source;
* **`base64_eq`**: it is the base64 encoding of a digest;
* `keyOf`: the key that is found in a request; `response`: what a key is answered with;
* `recvHshk_more`, `recvHshk_bad`, **`recvHshk_reply`**, `recvHshk_over`: the outcomes.
-/

namespace Unserlob

open Ascii Cursor Writer

def trns : List UInt8 :=
  bytes ['A', 'B', 'C', 'D', 'E', 'F', 'G', 'H', 'I', 'J', 'K', 'L', 'M', 'N', 'O', 'P', 'Q', 'R', 'S', 'T', 'U',
    'V', 'W', 'X', 'Y', 'Z', 'a', 'b', 'c', 'd', 'e', 'f', 'g', 'h', 'i', 'j', 'k', 'l', 'm', 'n', 'o', 'p', 'q',
    'r', 's', 't', 'u', 'v', 'w', 'x', 'y', 'z', '0', '1', '2', '3', '4', '5', '6', '7', '8', '9', '+', '/']

/-- A turn of the loop in `base64`. -/
def base64Group (a b c : ℕ) : List UInt8 :=
  [trns.getD (a >>> 2) 0, trns.getD ((a <<< 4 ^^^ b >>> 4) &&& 0x3f) 0,
    trns.getD ((b <<< 2 ^^^ c >>> 6) &&& 0x3f) 0, trns.getD (c &&& 0x3f) 0]

/-- `base64` -/
def base64 (src : List UInt8) : List UInt8 :=
  let src (i : ℕ) : ℕ := (src.getD i 0).toNat
  ([0, 3, 6, 9, 12, 15].flatMap fun s => base64Group (src s) (src (s + 1)) (src (s + 2))) ++
    [trns.getD (src 18 >>> 2) 0, trns.getD ((src 18 <<< 4 ^^^ src 19 >>> 4) &&& 0x3f) 0,
      trns.getD ((src 19 <<< 2) &&& 0x3f) 0, ch '=']

def crlf2 : List UInt8 := bytes ['\r', '\n', '\r', '\n']

/-- `key` -/
def hshkKey : List UInt8 :=
  bytes ['S', 'e', 'c', '-', 'W', 'e', 'b', 'S', 'o', 'c', 'k', 'e', 't', '-', 'K', 'e', 'y', ':']

/-- `magic` -/
def hshkMagic : List UInt8 :=
  bytes ['2', '5', '8', 'E', 'A', 'F', 'A', '5', '-', 'E', '9', '1', '4', '-', '4', '7', 'D', 'A', '-', '9', '5',
    'C', 'A', '-', 'C', '5', 'A', 'B', '0', 'D', 'C', '8', '5', 'B', '1', '1']

/-- `rsp` -/
def hshkRsp : List UInt8 :=
  bytes ['H', 'T', 'T', 'P', '/', '1', '.', '1', ' ', '1', '0', '1', ' ', 'S', 'w', 'i', 't', 'c', 'h', 'i', 'n',
    'g', ' ', 'P', 'r', 'o', 't', 'o', 'c', 'o', 'l', 's', '\r', '\n', 'U', 'p', 'g', 'r', 'a', 'd', 'e', ':', ' ',
    'w', 'e', 'b', 's', 'o', 'c', 'k', 'e', 't', '\r', '\n', 'C', 'o', 'n', 'n', 'e', 'c', 't', 'i', 'o', 'n', ':',
    ' ', 'U', 'p', 'g', 'r', 'a', 'd', 'e', '\r', '\n', 'S', 'e', 'c', '-', 'W', 'e', 'b', 'S', 'o', 'c', 'k', 'e',
    't', '-', 'A', 'c', 'c', 'e', 'p', 't', ':', ' ']

/-- `*p <= ' '` for a signed `char`. -/
def isBlank (c : UInt8) : Bool := c.toInt8.toInt ≤ 32

/-- `recv_hshk`, with the buffer afterwards. -/
def recvHshk (buf : List UInt8) (bsz : ℕ) : Res (ℤ × List UInt8) := do
  match ← xmemmem (buf.take bsz) crlf2 with
  | none =>
    -- nope, no processing possible
    pure (0, buf)
  | some _ =>
    match ← xmemmem (buf.take bsz) hshkKey with
    | none => pure (-1, buf)
    | some sec =>
      -- overread whitespace
      let sec := sec + (((buf.take bsz).drop sec).takeWhile isBlank).length
      -- find the end of the line
      let n := (((buf.take bsz).drop sec).takeWhile fun c => !isBlank c).length
      let buf ← memmove buf 0 sec n
      let buf ← splice buf n hshkMagic
      -- calc sha
      let s := sha (buf.take (hshkMagic.length + n))
      -- prepare output
      let buf ← splice buf 0 hshkRsp
      let b := base64 s
      let buf ← splice buf hshkRsp.length b
      let buf ← splice buf (hshkRsp.length + b.length) crlf2
      pure ((hshkRsp.length + b.length + 4 : ℕ), buf)

/-! ## The digest as text -/

theorem getD_trns {n : ℕ} (h : n < 64) : trns.getD n 0 = Base64.digit n := by
  have hall : ∀ n < 64, trns.getD n 0 = Base64.digit n := by decide
  exact hall n h

theorem mid_four (a : ℕ) {b : ℕ} (hb : b < 256) : (a <<< 4 ^^^ b >>> 4) &&& 0x3f = a % 4 * 16 + b / 16 := by
  rw [Nat.shiftLeft_eq, Nat.shiftRight_eq_div_pow, Word.xor_of_lt a (by omega), show 0x3f = 2 ^ 6 - 1 from rfl,
    Word.and_low]
  omega

theorem mid_two (b : ℕ) {c : ℕ} (hc : c < 256) : (b <<< 2 ^^^ c >>> 6) &&& 0x3f = b % 16 * 4 + c / 64 := by
  rw [Nat.shiftLeft_eq, Nat.shiftRight_eq_div_pow, Word.xor_of_lt b (by omega), show 0x3f = 2 ^ 6 - 1 from rfl,
    Word.and_low]
  omega

theorem low_six (c : ℕ) : c &&& 0x3f = c % 64 := Word.and_low c 6

theorem base64Group_eq (a b c : UInt8) : base64Group a.toNat b.toNat c.toNat =
    [Base64.digit (a.toNat / 4), Base64.digit (a.toNat % 4 * 16 + b.toNat / 16),
      Base64.digit (b.toNat % 16 * 4 + c.toNat / 64), Base64.digit (c.toNat % 64)] := by
  have ha := a.toNat_lt
  have hb := b.toNat_lt
  have hc := c.toNat_lt
  rw [base64Group, mid_four _ hb, mid_two _ hc, low_six, Nat.shiftRight_eq_div_pow, getD_trns (by omega),
    getD_trns (by omega), getD_trns (by omega), getD_trns (by omega)]

/-- **Base64** of a digest. -/
theorem base64_eq {s : List UInt8} (h : s.length = 20) : base64 s = Base64.encode s := by
  match s, h with
  | [a₀, a₁, a₂, a₃, a₄, a₅, a₆, a₇, a₈, a₉, b₀, b₁, b₂, b₃, b₄, b₅, b₆, b₇, b₈, b₉], _ =>
    have h8 := b₈.toNat_lt
    have h9 := b₉.toNat_lt
    have hlast : (b₉.toNat <<< 2) &&& 0x3f = b₉.toNat % 16 * 4 := by
      rw [low_six, Nat.shiftLeft_eq]
      omega
    have hhigh : b₈.toNat >>> 2 = b₈.toNat / 4 := Nat.shiftRight_eq_div_pow _ 2
    simp only [base64, List.flatMap_cons, List.flatMap_nil, List.getD_cons_zero, List.getD_cons_succ,
      base64Group_eq, hlast, hhigh, mid_four b₈.toNat h9, Base64.encode_three, Base64.encode_two]
    rw [getD_trns (by omega), getD_trns (by omega), getD_trns (by omega)]
    rfl

/-! ## The outcomes -/

/-- The key behind the header that ends at `sec`. -/
def keyOf (req : List UInt8) (sec : ℕ) : List UInt8 :=
  ((req.drop sec).dropWhile isBlank).takeWhile fun c => !isBlank c

/-- **What a key is answered with.** -/
def response (key : List UInt8) : List UInt8 :=
  hshkRsp ++ Base64.encode (Sha1.digest (key ++ hshkMagic)) ++ crlf2

theorem response_eq {key : List UInt8} (h : (key ++ hshkMagic).length < 2 ^ 61) :
    response key = hshkRsp ++ base64 (sha (key ++ hshkMagic)) ++ crlf2 := by
  rw [response, sha_eq h, base64_eq (Sha1.length_digest _)]

theorem length_response (key : List UInt8) : (response key).length = 129 := by
  simp [response, Base64.length_encode, hshkRsp, crlf2]

theorem splice_append {u v w : List UInt8} (h : w.length ≤ v.length) :
    splice (u ++ v) u.length w = .ok (u ++ w ++ v.drop w.length) := by
  rw [splice_ok (by rw [List.length_append]; omega), List.take_left, List.drop_append]
  simp

variable {buf : List UInt8} {bsz : ℕ}

theorem recvHshk_more (h : Search.search crlf2 (buf.take bsz) = none) : recvHshk buf bsz = .ok (0, buf) := by
  simp only [recvHshk, xmemmem_spec, h, bind, Except.bind, Option.map_none]
  rfl

theorem recvHshk_bad (h : Search.search crlf2 (buf.take bsz) ≠ none)
    (hk : Search.search hshkKey (buf.take bsz) = none) : recvHshk buf bsz = .ok (-1, buf) := by
  obtain ⟨i, hi⟩ := Option.ne_none_iff_exists'.mp h
  simp only [recvHshk, xmemmem_spec, hi, hk, bind, Except.bind, Option.map_some, Option.map_none]
  rfl

theorem keyOf_eq (req : List UInt8) (q : ℕ) :
    (req.drop (q + ((req.drop q).takeWhile isBlank).length)).takeWhile (fun c => !isBlank c) = keyOf req q := by
  rw [keyOf, ← List.drop_drop]
  congr 1
  nth_rewrite 2 [← List.takeWhile_append_dropWhile (p := isBlank) (l := req.drop q)]
  exact List.drop_left

theorem write_response {buf : List UInt8} (K : List UInt8) (hK : K.length + 36 ≤ buf.length)
    (hsz : 129 ≤ buf.length) (hlt : buf.length < 2 ^ 61) :
    ∃ b₁ b₂ b₃ b₄ b₅, splice buf 0 K = .ok b₁ ∧ splice b₁ K.length hshkMagic = .ok b₂ ∧
      base64 (sha (b₂.take (hshkMagic.length + K.length))) = Base64.encode (Sha1.digest (K ++ hshkMagic)) ∧
      splice b₂ 0 hshkRsp = .ok b₃ ∧
      splice b₃ hshkRsp.length (Base64.encode (Sha1.digest (K ++ hshkMagic))) = .ok b₄ ∧
      splice b₄ (hshkRsp.length + 28) crlf2 = .ok b₅ ∧ b₅.length = buf.length ∧ b₅.take 129 = response K := by
  have hml : hshkMagic.length = 36 := rfl
  have hrl : hshkRsp.length = 97 := rfl
  have hcl : crlf2.length = 4 := rfl
  have hel : (Base64.encode (Sha1.digest (K ++ hshkMagic))).length = 28 := by
    rw [Base64.length_encode, Sha1.length_digest]
  have h₁ := splice_append (u := []) (v := buf) (w := K) (by omega)
  have h₂ := splice_append (u := K) (v := buf.drop K.length) (w := hshkMagic)
    (by rw [List.length_drop]; omega)
  generalize hb₂ : K ++ hshkMagic ++ (buf.drop K.length).drop hshkMagic.length = b₂ at h₂
  have hl₂ : b₂.length = buf.length := by
    rw [← hb₂]
    simp only [List.length_append, List.length_drop]
    omega
  have hsha : sha (b₂.take (hshkMagic.length + K.length)) = Sha1.digest (K ++ hshkMagic) := by
    rw [← hb₂, List.take_left' (by rw [List.length_append, Nat.add_comm]), sha_eq]
    rw [List.length_append]
    omega
  have h₃ := splice_append (u := []) (v := b₂) (w := hshkRsp) (by omega)
  have h₄ := splice_append (u := hshkRsp) (v := b₂.drop hshkRsp.length)
    (w := Base64.encode (Sha1.digest (K ++ hshkMagic))) (by rw [List.length_drop]; omega)
  have h₅ := splice_append (u := hshkRsp ++ Base64.encode (Sha1.digest (K ++ hshkMagic)))
    (v := (b₂.drop hshkRsp.length).drop (Base64.encode (Sha1.digest (K ++ hshkMagic))).length) (w := crlf2)
    (by rw [List.length_drop, List.length_drop]; omega)
  rw [List.length_append, hel] at h₅
  refine ⟨_, _, _, _, _, h₁, h₂, by rw [hsha, base64_eq (Sha1.length_digest _)], h₃, h₄, hel ▸ h₅, ?_, ?_⟩
  · simp only [List.length_append, List.length_drop]
    omega
  · exact List.take_left' (length_response K)

/-- **The outcomes**, whatever is in the request. -/
theorem recvHshk_cases {r : ℤ × List UInt8} (h : recvHshk buf bsz = .ok r) :
    (Search.search crlf2 (buf.take bsz) = none ∧ r = (0, buf)) ∨
    (Search.search crlf2 (buf.take bsz) ≠ none ∧ Search.search hshkKey (buf.take bsz) = none ∧ r = (-1, buf)) ∨
    (Search.search crlf2 (buf.take bsz) ≠ none ∧ Search.search hshkKey (buf.take bsz) ≠ none ∧ 0 < r.1 ∧
      r.2.length = buf.length) := by
  by_cases hn : Search.search crlf2 (buf.take bsz) = none
  · exact .inl ⟨hn, (Except.ok.inj ((recvHshk_more hn).symm.trans h)).symm⟩
  · by_cases hk : Search.search hshkKey (buf.take bsz) = none
    · exact .inr (.inl ⟨hn, hk, (Except.ok.inj ((recvHshk_bad hn hk).symm.trans h)).symm⟩)
    · refine .inr (.inr ⟨hn, hk, ?_⟩)
      obtain ⟨i, hi⟩ := Option.ne_none_iff_exists'.mp hn
      obtain ⟨p, hp⟩ := Option.ne_none_iff_exists'.mp hk
      unfold recvHshk at h
      simp only [xmemmem_spec, hi, hp, Option.map_some] at h
      obtain ⟨o, ho, h⟩ := bind_ok.mp h
      cases ho
      obtain ⟨o, ho, h⟩ := bind_ok.mp h
      cases ho
      obtain ⟨b₁, h₁, h⟩ := bind_ok.mp h
      obtain ⟨b₂, h₂, h⟩ := bind_ok.mp h
      obtain ⟨b₃, h₃, h⟩ := bind_ok.mp h
      obtain ⟨b₄, h₄, h⟩ := bind_ok.mp h
      obtain ⟨b₅, h₅, h⟩ := bind_ok.mp h
      cases h
      unfold memmove at h₁
      split_ifs at h₁
      rw [splice_length h₅, splice_length h₄, splice_length h₃, splice_length h₂, splice_length h₁]
      exact ⟨Int.natCast_pos.mpr (by omega), rfl⟩

theorem recvHshk_length {r : ℤ × List UInt8} (h : recvHshk buf bsz = .ok r) : r.2.length = buf.length := by
  rcases recvHshk_cases h with ⟨-, rfl⟩ | ⟨-, -, rfl⟩ | ⟨-, -, -, hl⟩
  · rfl
  · rfl
  · exact hl

theorem recvHshk_key (h : Search.search crlf2 (buf.take bsz) ≠ none) {p : ℕ}
    (hk : Search.search hshkKey (buf.take bsz) = some p) (hbsz : bsz ≤ buf.length) :
    recvHshk buf bsz = (do
      let K := keyOf (buf.take bsz) (p + hshkKey.length)
      let b ← splice buf 0 K
      let b ← splice b K.length hshkMagic
      let s := sha (b.take (hshkMagic.length + K.length))
      let b ← splice b 0 hshkRsp
      let b ← splice b hshkRsp.length (base64 s)
      let b ← splice b (hshkRsp.length + (base64 s).length) crlf2
      pure ((hshkRsp.length + (base64 s).length + 4 : ℕ), b)) ∧
      (keyOf (buf.take bsz) (p + hshkKey.length)).length ≤ buf.length := by
  obtain ⟨i, hi⟩ := Option.ne_none_iff_exists'.mp h
  have hpre : buf.take bsz <+: buf := List.take_prefix _ _
  have hle : (buf.take bsz).length ≤ bsz := List.length_take_le _ _
  generalize hreq : buf.take bsz = req at hi hk hpre hle ⊢
  obtain ⟨⟨u, v, huv, hu⟩, -⟩ := Search.search_eq_some_iff.mp hk
  have hp : p + hshkKey.length ≤ req.length := by
    rw [huv, ← hu, List.length_append, List.length_append]
    omega
  generalize hsec : p + hshkKey.length + ((req.drop (p + hshkKey.length)).takeWhile isBlank).length = sec
  have hkey := keyOf_eq req (p + hshkKey.length)
  rw [hsec] at hkey
  rw [← hkey]
  generalize hK : (req.drop sec).takeWhile (fun c => !isBlank c) = K
  have hKpre : K <+: req.drop sec := hK ▸ List.takeWhile_prefix _
  have hKlen := hKpre.length_le
  have hwlen := (List.takeWhile_prefix (p := isBlank) (l := req.drop (p + hshkKey.length))).length_le
  rw [List.length_drop] at hKlen hwlen
  have hmove : memmove buf 0 sec K.length = splice buf 0 K := by
    rw [memmove, if_pos (by omega), ← List.prefix_iff_eq_take.mp (hKpre.trans (hpre.drop sec))]
  refine ⟨?_, by omega⟩
  simp only [recvHshk, xmemmem_spec, hreq, hi, hk, bind, Except.bind, Option.map_some, hsec, hK, hmove]

/-- **There is a key**, and room for it with the magic bytes. -/
theorem recvHshk_reply (h : Search.search crlf2 (buf.take bsz) ≠ none) {p : ℕ}
    (hk : Search.search hshkKey (buf.take bsz) = some p) (hbsz : bsz ≤ buf.length)
    (hfit : (keyOf (buf.take bsz) (p + hshkKey.length)).length + 36 ≤ buf.length)
    (hsz : 129 ≤ buf.length) (hlt : buf.length < 2 ^ 61) :
    ∃ buf', recvHshk buf bsz = .ok (129, buf') ∧ buf'.length = buf.length ∧
      buf'.take 129 = response (keyOf (buf.take bsz) (p + hshkKey.length)) := by
  obtain ⟨hr, -⟩ := recvHshk_key h hk hbsz
  rw [hr]
  generalize keyOf (buf.take bsz) (p + hshkKey.length) = K at hfit ⊢
  obtain ⟨b₁, b₂, b₃, b₄, b₅, h₁, h₂, hsha, h₃, h₄, h₅, hl, ht⟩ := write_response K hfit hsz hlt
  have hel : (Base64.encode (Sha1.digest (K ++ hshkMagic))).length = 28 := by
    rw [Base64.length_encode, Sha1.length_digest]
  refine ⟨b₅, ?_, hl, ht⟩
  simp only [bind, Except.bind, h₁, h₂, hsha, h₃, h₄, hel, h₅]
  rfl

/-- **There is no room for the magic bytes**, and they are written past the end. -/
theorem recvHshk_over (h : Search.search crlf2 (buf.take bsz) ≠ none) {p : ℕ}
    (hk : Search.search hshkKey (buf.take bsz) = some p) (hbsz : bsz ≤ buf.length)
    (hover : buf.length < (keyOf (buf.take bsz) (p + hshkKey.length)).length + 36) :
    recvHshk buf bsz = .error .store := by
  obtain ⟨hr, hle⟩ := recvHshk_key h hk hbsz
  rw [hr]
  generalize keyOf (buf.take bsz) (p + hshkKey.length) = K at hle hover ⊢
  have h₁ : splice buf 0 K = _ := splice_ok (by omega)
  have hlen := splice_length h₁
  have h₂ := splice_fault (i := K.length) (show hshkMagic ≠ [] by decide) (hlen.trans_lt hover)
  simp only [bind, Except.bind, h₁, h₂]

end Unserlob
