import Unserlob.Lib.Ascii

/-!
# The hash of a name (`hash.c`)

Instruments are looked up by a 32-bit hash of their name, read as little-endian words.

* `word32`, `lane`, `stripes`, `bytewise`, `wordwise`, `avalanche`: the parts of `XXH32_endian_align`;
* **`hash`**.
-/

namespace Unserlob

def PRIME32_1 : BitVec 32 := 2654435761
def PRIME32_2 : BitVec 32 := 2246822519
def PRIME32_3 : BitVec 32 := 3266489917
def PRIME32_4 : BitVec 32 := 668265263
def PRIME32_5 : BitVec 32 := 374761393

/-- `XXH_get32bits(p)` -/
def word32 (a b c d : UInt8) : BitVec 32 :=
  BitVec.ofNat 32 (a.toNat + b.toNat * 2 ^ 8 + c.toNat * 2 ^ 16 + d.toNat * 2 ^ 24)

/-- One of the four lanes: `v += w * PRIME32_2; v = XXH_rotl32(v, 13); v *= PRIME32_1;` -/
def lane (v w : BitVec 32) : BitVec 32 := (v + w * PRIME32_2).rotateLeft 13 * PRIME32_1

/-- `do … while (p <= limit)`: sixteen bytes a turn, and what is left of the input. -/
def stripes : ℕ → List UInt8 → (BitVec 32 × BitVec 32) × (BitVec 32 × BitVec 32) →
    ((BitVec 32 × BitVec 32) × (BitVec 32 × BitVec 32)) × List UInt8
  | n + 1, a₀ :: a₁ :: a₂ :: a₃ :: b₀ :: b₁ :: b₂ :: b₃ :: c₀ :: c₁ :: c₂ :: c₃ :: d₀ :: d₁ :: d₂ ::
      d₃ :: p, v =>
    stripes n p ((lane v.1.1 (word32 a₀ a₁ a₂ a₃), lane v.1.2 (word32 b₀ b₁ b₂ b₃)),
      (lane v.2.1 (word32 c₀ c₁ c₂ c₃), lane v.2.2 (word32 d₀ d₁ d₂ d₃)))
  | _, p, v => (v, p)

/-- `while (p < bEnd)` -/
def bytewise : List UInt8 → BitVec 32 → BitVec 32
  | [], h32 => h32
  | c :: p, h32 =>
    bytewise p ((h32 + BitVec.ofNat 32 c.toNat * PRIME32_5).rotateLeft 11 * PRIME32_1)

/-- `while (p + 4 <= bEnd)` and then `while (p < bEnd)`. -/
def wordwise : List UInt8 → BitVec 32 → BitVec 32
  | a :: b :: c :: d :: p, h32 =>
    wordwise p ((h32 + word32 a b c d * PRIME32_3).rotateLeft 17 * PRIME32_4)
  | p, h32 => bytewise p h32

/-- The last five lines. -/
def avalanche (h32 : BitVec 32) : BitVec 32 :=
  let h32 := (h32 ^^^ h32 >>> 15) * PRIME32_2
  let h32 := (h32 ^^^ h32 >>> 13) * PRIME32_3
  h32 ^^^ h32 >>> 16

/-- `hash` -/
def hash (input : List UInt8) : BitVec 32 :=
  let len := BitVec.ofNat 32 input.length
  if 16 ≤ input.length then
    let ((v₁, v₂), (v₃, v₄), p) :=
      let r := stripes input.length input ((PRIME32_1 + PRIME32_2, PRIME32_2), (0, -PRIME32_1))
      (r.1.1, r.1.2, r.2)
    avalanche (wordwise p (v₁.rotateLeft 1 + v₂.rotateLeft 7 + v₃.rotateLeft 12 + v₄.rotateLeft 18 + len))
  else avalanche (wordwise input (PRIME32_5 + len))

/-- The value published with the algorithm for the empty input. -/
example : hash [] = 0x02cc5d05 := by decide

end Unserlob
