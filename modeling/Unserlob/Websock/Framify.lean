import Unserlob.Lib.Frames
import Unserlob.Lib.Word
import Unserlob.Lib.Writer

/-!
# Candles as frames (`ws_framify`)

* `Wsfr`: the header as the structure has it, of which a part in front is copied;
* `wsFramify`: the source's function;
* `head_field`: what is copied for a length; `put_frame`: the payload moved, and the header in front of it;
* **`wsFramify_read`**: it is one final text frame with the payload, its length in the shortest form.
-/

namespace Unserlob

open Cursor Writer

/-- `wsfr_t`, packed; bit-fields fill a byte from its lowest bit on. -/
structure Wsfr where
  code : BitVec 4
  rsv3 : BitVec 1
  rsv2 : BitVec 1
  rsv1 : BitVec 1
  finp : BitVec 1
  plen : BitVec 7
  mask : BitVec 1
  elen : List UInt8
  mkey : List UInt8

/-- The bytes of the structure. -/
def Wsfr.bytes (fr : Wsfr) : List UInt8 :=
  UInt8.ofBitVec (fr.finp ++ fr.rsv1 ++ fr.rsv2 ++ fr.rsv3 ++ fr.code) ::
    UInt8.ofBitVec (fr.mask ++ fr.plen) :: (fr.elen ++ fr.mkey)

/-- What is not initialised by name is zero. -/
def Wsfr.init : Wsfr where
  code := 0x1
  rsv3 := 0
  rsv2 := 0
  rsv1 := 0
  finp := 1
  mask := 1
  plen := 0
  elen := List.replicate 8 0
  mkey := List.replicate 4 0

/-- `(uint8_t)(b64 >> k)` -/
def shiftedByte (b64 : BitVec 64) (k : ℕ) : UInt8 := UInt8.ofBitVec ((b64 >>> k).setWidth 8)

/-- The header and how much of it is copied: `sizeof(wsfr_t)`, or the two bytes in front of `elen`, as much of
`elen` as is used and the size of `mkey`. -/
def wsfrOf (bsz : ℕ) : Wsfr × ℕ :=
  let b64 : BitVec 64 := BitVec.ofNat 64 bsz
  if bsz ≥ 65536 then
    ({ Wsfr.init with plen := 127, elen := [56, 48, 40, 32, 24, 16, 8, 0].map (shiftedByte b64) }, 14)
  else if bsz ≥ 126 then
    ({ Wsfr.init with plen := 126, elen := (Wsfr.init.elen.set 0 (shiftedByte b64 8)).set 1 (shiftedByte b64 0) },
      2 + 2 + 4)
  else ({ Wsfr.init with plen := BitVec.ofNat 7 bsz }, 2 + 4)

/-- `ws_framify`, with the buffer afterwards. -/
def wsFramify (buf : List UInt8) (bsz : ℕ) : Res (List UInt8 × ℕ) := do
  let (fr, slen) := wsfrOf bsz
  -- .. and payload
  let buf ← memmove buf slen 14 bsz
  -- copy framing ...
  let buf ← splice buf 0 (fr.bytes.take slen)
  pure (buf, slen + bsz)

/-! ## The header -/

theorem shiftedByte_eq {n : ℕ} (h : n < 2 ^ 64) (k : ℕ) :
    shiftedByte (BitVec.ofNat 64 n) (8 * k) = UInt8.ofNat (n / 256 ^ k % 256) := by
  apply UInt8.toNat_inj.mp
  rw [UInt8.toNat_ofNat', Nat.mod_mod]
  show ((BitVec.ofNat 64 n >>> (8 * k)).setWidth 8).toNat = _
  rw [BitVec.toNat_setWidth, BitVec.toNat_ushiftRight, BitVec.toNat_ofNat, Nat.mod_eq_of_lt h,
    Nat.shiftRight_eq_div_pow, Nat.pow_mul]

theorem bigEndian_two {n : ℕ} (h : n < 2 ^ 64) :
    Frames.bigEndian 2 n = [shiftedByte (BitVec.ofNat 64 n) 8, shiftedByte (BitVec.ofNat 64 n) 0] := by
  rw [shiftedByte_eq h 1, shiftedByte_eq h 0]
  simp [Frames.bigEndian, Radix.numeral]

theorem bigEndian_eight {n : ℕ} (h : n < 2 ^ 64) :
    Frames.bigEndian 8 n = [56, 48, 40, 32, 24, 16, 8, 0].map (shiftedByte (BitVec.ofNat 64 n)) := by
  have hall : [56, 48, 40, 32, 24, 16, 8, 0].map (shiftedByte (BitVec.ofNat 64 n)) =
      [7, 6, 5, 4, 3, 2, 1, 0].map fun k => UInt8.ofNat (n / 256 ^ k % 256) := by
    rw [← List.map_congr_left (fun k _ => shiftedByte_eq h k)]
    rfl
  rw [hall]
  simp [Frames.bigEndian, Radix.numeral, Nat.div_div_eq_div_mul]

theorem toNat_plen (p : BitVec 7) : (UInt8.ofBitVec (1#1 ++ p)).toNat = 128 + p.toNat := by
  show (1#1 ++ p).toNat = _
  rw [BitVec.toNat_append, Nat.shiftLeft_eq]
  exact Word.or_of_lt 1 p.isLt

theorem init_bytes (p : BitVec 7) (elen : List UInt8) :
    ({ Wsfr.init with plen := p, elen := elen } : Wsfr).bytes =
      0x81 :: UInt8.ofBitVec (1#1 ++ p) :: (elen ++ List.replicate 4 0) := by
  have hcode : UInt8.ofBitVec (1#1 ++ 0#1 ++ 0#1 ++ 0#1 ++ 1#4) = 0x81 := by decide
  rw [← hcode]
  rfl

/-- **The header**: two bytes, as much of the length as its form takes, and a key of zeros. -/
theorem head_field {n : ℕ} (h : n < 2 ^ 64) : ∃ p : BitVec 7, p.toNat = (Frames.field n).1 ∧
    (wsfrOf n).1.bytes.take (wsfrOf n).2 =
      0x81 :: UInt8.ofBitVec (1#1 ++ p) :: ((Frames.field n).2 ++ List.replicate 4 0) ∧
    (wsfrOf n).2 = ((Frames.field n).2 ++ List.replicate 4 (0 : UInt8)).length + 2 ∧ (wsfrOf n).2 ≤ 14 := by
  rcases Frames.field_cases n with ⟨h1, -, hf⟩ | ⟨h1, h2, -, hf⟩ | ⟨h1, -, hf⟩
  · have hw : wsfrOf n = ({ Wsfr.init with plen := BitVec.ofNat 7 n, elen := List.replicate 8 0 }, 6) := by
      rw [wsfrOf, if_neg (by omega), if_neg (by omega)]
      rfl
    refine ⟨BitVec.ofNat 7 n, ?_, ?_, ?_, ?_⟩
    · rw [hf, BitVec.toNat_ofNat, Nat.mod_eq_of_lt (by omega)]
    · rw [hw, init_bytes, hf]
      rfl
    · rw [hw, hf]
      rfl
    · rw [hw]
      exact Nat.le_add_right 6 8
  · have hw : wsfrOf n = ({ Wsfr.init with plen := 126, elen := Frames.bigEndian 2 n ++ List.replicate 6 0 }, 8) := by
      rw [wsfrOf, if_neg (by omega), if_pos (by omega), bigEndian_two h]
      rfl
    refine ⟨126, ?_, ?_, ?_, ?_⟩
    · rw [hf]
      rfl
    · rw [hw, init_bytes, hf, bigEndian_two h]
      rfl
    · rw [hw, hf, List.length_append, Frames.length_bigEndian]
      rfl
    · rw [hw]
      exact Nat.le_add_right 8 6
  · have hw : wsfrOf n = ({ Wsfr.init with plen := 127, elen := Frames.bigEndian 8 n }, 14) := by
      rw [wsfrOf, if_pos (by omega), bigEndian_eight h]
    refine ⟨127, ?_, ?_, ?_, ?_⟩
    · rw [hf]
      rfl
    · rw [hw, init_bytes, hf, bigEndian_eight h]
      rfl
    · rw [hw, hf, List.length_append, Frames.length_bigEndian]
      rfl
    · rw [hw]

/-! ## The frame -/

theorem put_frame {gap : List UInt8} (payload tail : List UInt8) {hdr : List UInt8} (h : hdr.length ≤ gap.length) :
    ∃ buf', (do
        let buf ← memmove (gap ++ payload ++ tail) hdr.length gap.length payload.length
        splice buf 0 hdr) = .ok buf' ∧
      buf'.take (hdr.length + payload.length) = hdr ++ payload := by
  set mem := gap ++ payload ++ tail with hmem
  have hlen : mem.length = gap.length + payload.length + tail.length := by
    rw [hmem, List.length_append, List.length_append]
  have hsrc : (mem.drop gap.length).take payload.length = payload := by
    rw [hmem, List.append_assoc, List.drop_left, List.take_left]
  have hmove : memmove mem hdr.length gap.length payload.length =
      .ok (mem.take hdr.length ++ payload ++ mem.drop (hdr.length + payload.length)) := by
    rw [memmove, if_pos (by omega), hsrc, splice_ok (by omega)]
  have htop : (mem.take hdr.length).length = hdr.length := List.length_take_of_le (by omega)
  refine ⟨hdr ++ (payload ++ mem.drop (hdr.length + payload.length)), ?_, ?_⟩
  · rw [hmove]
    show splice _ 0 hdr = _
    rw [splice_ok (by rw [List.length_append, List.length_append]; omega), List.take_zero, List.nil_append,
      Nat.zero_add, List.append_assoc (mem.take _), List.drop_left' htop]
  · rw [← List.append_assoc, List.take_left' (List.length_append ..)]

/-- **One frame.** -/
theorem wsFramify_read {gap payload tail : List UInt8} (hgap : gap.length = 14)
    (hsize : (gap ++ payload ++ tail).length < 2 ^ 63) :
    ∃ buf' r, wsFramify (gap ++ payload ++ tail) payload.length = .ok (buf', r) ∧
      Frames.read (buf'.take r) =
        some (⟨true, 0, 1, Frames.shortest payload.length, true, payload⟩, []) := by
  have hn : payload.length < 2 ^ 63 := by
    rw [List.length_append, List.length_append] at hsize
    omega
  obtain ⟨p, hp, hbytes, hslen, hle⟩ := head_field (n := payload.length) (by omega)
  have hroom : (0x81 :: UInt8.ofBitVec (1#1 ++ p) ::
      ((Frames.field payload.length).2 ++ List.replicate 4 (0 : UInt8))).length ≤ gap.length := by
    rw [List.length_cons, List.length_cons, hgap]
    omega
  obtain ⟨buf', hput, htake⟩ := put_frame payload tail hroom
  rw [List.length_cons, List.length_cons, ← hslen] at hput htake
  refine ⟨buf', (wsfrOf payload.length).2 + payload.length, ?_, ?_⟩
  · rw [hgap] at hput
    obtain ⟨buf, hmove, hcopy⟩ := bind_ok.mp hput
    show (memmove _ (wsfrOf payload.length).2 14 payload.length >>= fun buf =>
      splice buf 0 ((wsfrOf payload.length).1.bytes.take (wsfrOf payload.length).2) >>= fun buf =>
      pure (buf, (wsfrOf payload.length).2 + payload.length)) = _
    rw [hmove, hbytes]
    show (splice buf 0 _ >>= _) = _
    rw [hcopy]
    rfl
  · have hread := Frames.read_frame 0x81 (List.replicate 4 0) hn rfl ((toNat_plen p).trans (by rw [hp])) []
    rw [Frames.mask_zero, List.append_nil] at hread
    rw [htake, List.cons_append, List.cons_append, List.append_assoc, hread]
    rfl

theorem wsFramify_read_candle : ∃ buf' r,
    wsFramify (List.replicate 14 0 ++ [0x7b, 0x7d] ++ [0]) 2 = .ok (buf', r) ∧
      Frames.read (buf'.take r) = some (⟨true, 0, 1, .short, true, [0x7b, 0x7d]⟩, []) :=
  wsFramify_read (by decide) (by decide)

end Unserlob
