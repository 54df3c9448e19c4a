import Mathlib.Data.List.Basic
import Mathlib.Tactic.Ring

/-!
# SHA-1

The secure hash standard, for messages of whole bytes.

* `f`, `K`, `schedule`, `round`, `compress`: a block of sixteen words;
* `pad`, `absorb`, **`digest`**: a message;
* `f_choose`, `f_majority`, **`schedule_far`**: other ways to compute the same;
* `length_padded`: whole blocks; `absorb_succ`: one after the other.
-/

namespace Sha1

abbrev Word := BitVec 32

structure State where
  (a b c d e : Word)
  deriving DecidableEq

def initial : State := ⟨0x67452301, 0xefcdab89, 0x98badcfe, 0x10325476, 0xc3d2e1f0⟩

/-- Ch, Parity, Maj, Parity -/
def f (t : ℕ) (b c d : Word) : Word :=
  if t < 20 then b &&& c ^^^ ~~~b &&& d
  else if t < 40 then b ^^^ c ^^^ d
  else if t < 60 then b &&& c ^^^ b &&& d ^^^ c &&& d
  else b ^^^ c ^^^ d

def K (t : ℕ) : Word :=
  if t < 20 then 0x5a827999 else if t < 40 then 0x6ed9eba1 else if t < 60 then 0x8f1bbcdc else 0xca62c1d6

/-- The message schedule of a block. -/
def schedule (M : ℕ → Word) (t : ℕ) : Word :=
  if t < 16 then M t
  else
    (schedule M (t - 3) ^^^ schedule M (t - 8) ^^^ schedule M (t - 14) ^^^ schedule M (t - 16)).rotateLeft 1
termination_by t

def round (t : ℕ) (w : Word) (s : State) : State :=
  ⟨s.a.rotateLeft 5 + f t s.b s.c s.d + s.e + K t + w, s.a, s.b.rotateLeft 30, s.c, s.d⟩

/-- The first `n` rounds. -/
def rounds (W : ℕ → Word) : ℕ → State → State
  | 0, s => s
  | n + 1, s => round n (W n) (rounds W n s)

def compress (s : State) (M : ℕ → Word) : State :=
  let r := rounds (schedule M) 80 s
  ⟨s.a + r.a, s.b + r.b, s.c + r.c, s.d + r.d, s.e + r.e⟩

/-- Four bytes, the highest first. -/
def word (a b c d : UInt8) : Word := a.toBitVec ++ b.toBitVec ++ c.toBitVec ++ d.toBitVec

/-- Word `i` of a message. -/
def wordAt (bs : List UInt8) (i : ℕ) : Word :=
  word (bs.getD (4 * i) 0) (bs.getD (4 * i + 1) 0) (bs.getD (4 * i + 2) 0) (bs.getD (4 * i + 3) 0)

/-- The lowest 64 bits of a number, the highest byte first. -/
def be64 (n : ℕ) : List UInt8 := (List.range 8).map fun i => UInt8.ofNat (n / 256 ^ (7 - i))

/-- What follows a message of `n` bytes. -/
def pad (n : ℕ) : List UInt8 := 0x80 :: List.replicate ((119 - n % 64) % 64) 0 ++ be64 (8 * n)

/-- The state after `n` blocks. -/
def absorb (bs : List UInt8) : ℕ → State
  | 0 => initial
  | n + 1 => compress (absorb bs n) fun i => wordAt bs (16 * n + i)

def Word.bytes (w : Word) : List UInt8 :=
  [UInt8.ofBitVec ((w >>> 24).setWidth 8), UInt8.ofBitVec ((w >>> 16).setWidth 8),
    UInt8.ofBitVec ((w >>> 8).setWidth 8), UInt8.ofBitVec (w.setWidth 8)]

def State.bytes (s : State) : List UInt8 := s.a.bytes ++ s.b.bytes ++ s.c.bytes ++ s.d.bytes ++ s.e.bytes

/-- **The digest of a message.** -/
def digest (bs : List UInt8) : List UInt8 :=
  let m := bs ++ pad bs.length
  (absorb m (m.length / 64)).bytes

/-! ## Sizes -/

@[simp] theorem length_be64 (n : ℕ) : (be64 n).length = 8 := by simp [be64]

theorem length_pad (n : ℕ) : (pad n).length = (119 - n % 64) % 64 + 9 := by
  simp [pad]

/-- **Whole blocks.** -/
theorem length_padded (bs : List UInt8) : (bs ++ pad bs.length).length = 64 * ((bs.length + 72) / 64) := by
  rw [List.length_append, length_pad]
  omega

@[simp] theorem length_digest (bs : List UInt8) : (digest bs).length = 20 := rfl

/-! ## Other ways -/

theorem rotateLeft_one_xor (x y : Word) : (x ^^^ y).rotateLeft 1 = x.rotateLeft 1 ^^^ y.rotateLeft 1 := by
  ext i hi
  simp only [BitVec.getElem_rotateLeft, BitVec.getElem_xor]
  split_ifs <;> rfl

theorem rotateLeft_one_one (x : Word) : (x.rotateLeft 1).rotateLeft 1 = x.rotateLeft 2 := by
  ext i hi
  simp only [BitVec.getElem_rotateLeft]
  split_ifs <;> first | omega | (congr 1 <;> omega)

theorem schedule_lt {M : ℕ → Word} {t : ℕ} (h : t < 16) : schedule M t = M t := by
  rw [schedule, if_pos h]

theorem schedule_ge {M : ℕ → Word} {t : ℕ} (h : 16 ≤ t) : schedule M t =
    (schedule M (t - 3) ^^^ schedule M (t - 8) ^^^ schedule M (t - 14) ^^^ schedule M (t - 16)).rotateLeft 1 := by
  rw [schedule, if_neg (by omega)]

theorem xor_cancel (x₁ x₂ x₃ x₄ y₁ y₂ y₃ y₄ y₅ y₆ : Word) :
    (x₁ ^^^ y₁ ^^^ y₂ ^^^ y₃) ^^^ (y₁ ^^^ x₂ ^^^ y₄ ^^^ y₅) ^^^ (y₂ ^^^ y₄ ^^^ x₃ ^^^ y₆) ^^^
      (y₃ ^^^ y₅ ^^^ y₆ ^^^ x₄) = x₁ ^^^ x₂ ^^^ x₃ ^^^ x₄ := by
  calc _ = x₁ ^^^ x₂ ^^^ x₃ ^^^ x₄ ^^^ (y₁ ^^^ y₁) ^^^ (y₂ ^^^ y₂) ^^^ (y₃ ^^^ y₃) ^^^ (y₄ ^^^ y₄) ^^^
        (y₅ ^^^ y₅) ^^^ (y₆ ^^^ y₆) := by ac_rfl
    _ = _ := by simp only [BitVec.xor_self, BitVec.xor_zero]

/-- **The schedule from further back**: twelve of the sixteen terms cancel. -/
theorem schedule_far {M : ℕ → Word} {t : ℕ} (h : 32 ≤ t) : schedule M t =
    (schedule M (t - 6) ^^^ schedule M (t - 16) ^^^ schedule M (t - 28) ^^^ schedule M (t - 32)).rotateLeft 2 := by
  have hback : ∀ k, 16 ≤ t - k → schedule M (t - k) =
      (schedule M (t - (k + 3)) ^^^ schedule M (t - (k + 8)) ^^^ schedule M (t - (k + 14)) ^^^
        schedule M (t - (k + 16))).rotateLeft 1 := fun k hk => by
    rw [schedule_ge hk]
    simp only [Nat.sub_sub]
  rw [schedule_ge (by omega), hback 3 (by omega), hback 8 (by omega), hback 14 (by omega), hback 16 (by omega),
    ← rotateLeft_one_xor, ← rotateLeft_one_xor, ← rotateLeft_one_xor, rotateLeft_one_one]
  simp only [Nat.reduceAdd, xor_cancel]

theorem schedule_congr {M M' : ℕ → Word} (h : ∀ i < 16, M i = M' i) (t : ℕ) : schedule M t = schedule M' t := by
  induction t using Nat.strongRecOn with
  | ind t ih =>
      by_cases ht : t < 16
      · rw [schedule_lt ht, schedule_lt ht, h t ht]
      · have ht : 16 ≤ t := Nat.not_lt.mp ht
        rw [schedule_ge ht, schedule_ge ht, ih (t - 3) (by omega), ih (t - 8) (by omega), ih (t - 14) (by omega),
          ih (t - 16) (by omega)]

theorem compress_congr {M M' : ℕ → Word} (h : ∀ i < 16, M i = M' i) (s : State) :
    compress s M = compress s M' := by
  have he : schedule M = schedule M' := by
    funext t
    exact schedule_congr h t
  rw [compress, he, ← compress]

theorem wordAt_block (m : List UInt8) (k : ℕ) {i : ℕ} (hi : i < 16) :
    wordAt ((m.drop (64 * k)).take 64) i = wordAt m (16 * k + i) := by
  have hget : ∀ j < 64, ((m.drop (64 * k)).take 64).getD j 0 = m.getD (64 * k + j) 0 := by
    intro j hj
    rw [List.getD_eq_getElem?_getD, List.getD_eq_getElem?_getD, List.getElem?_take_of_lt hj, List.getElem?_drop]
  unfold wordAt
  rw [hget _ (by omega), hget _ (by omega), hget _ (by omega), hget _ (by omega)]
  congr 2 <;> omega

theorem absorb_succ (m : List UInt8) (k : ℕ) :
    absorb m (k + 1) = compress (absorb m k) (wordAt ((m.drop (64 * k)).take 64)) :=
  (compress_congr (fun _ hi => wordAt_block m k hi) _).symm

theorem f_choose (x y z : Word) : z ^^^ x &&& (y ^^^ z) = x &&& y ^^^ ~~~x &&& z := by
  ext i hi
  simp only [BitVec.getElem_xor, BitVec.getElem_and, BitVec.getElem_not]
  cases x[i] <;> cases y[i] <;> cases z[i] <;> rfl

theorem f_majority (x y z : Word) : x &&& y ||| x &&& z ||| y &&& z = x &&& y ^^^ x &&& z ^^^ y &&& z := by
  ext i hi
  simp only [BitVec.getElem_xor, BitVec.getElem_and, BitVec.getElem_or]
  cases x[i] <;> cases y[i] <;> cases z[i] <;> rfl

end Sha1
