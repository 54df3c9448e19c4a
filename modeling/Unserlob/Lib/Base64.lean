import Unserlob.Lib.Ascii
import Unserlob.Lib.Word

/-!
# Base64

Three bytes are four digits of six bits; an unfinished group of bytes is padded with `=`.

* `digit`, **`encode`**;
* `encode_three`, `encode_two`: the digits from the bytes; `length_encode`.
-/

namespace Base64

open Ascii

/-- The digit of a number below 64. -/
def digit (n : ℕ) : UInt8 :=
  if n < 26 then UInt8.ofNat (65 + n)
  else if n < 52 then UInt8.ofNat (97 + (n - 26))
  else if n < 62 then UInt8.ofNat (48 + (n - 52))
  else if n = 62 then ch '+' else ch '/'

/-- **The encoding of some bytes.** -/
def encode : List UInt8 → List UInt8
  | a :: b :: c :: bs =>
    let n := a.toNat * 65536 + b.toNat * 256 + c.toNat
    digit (n / 262144) :: digit (n / 4096 % 64) :: digit (n / 64 % 64) :: digit (n % 64) :: encode bs
  | [a, b] =>
    let n := a.toNat * 1024 + b.toNat * 4
    [digit (n / 4096), digit (n / 64 % 64), digit (n % 64), ch '=']
  | [a] =>
    let n := a.toNat * 16
    [digit (n / 64), digit (n % 64), ch '=', ch '=']
  | [] => []

theorem encode_three (a b c : UInt8) (bs : List UInt8) : encode (a :: b :: c :: bs) =
    digit (a.toNat / 4) :: digit (a.toNat % 4 * 16 + b.toNat / 16) :: digit (b.toNat % 16 * 4 + c.toNat / 64) ::
      digit (c.toNat % 64) :: encode bs := by
  have hb := b.toNat_lt
  have hc := c.toNat_lt
  have h1 : (a.toNat * 65536 + b.toNat * 256 + c.toNat) / 262144 = a.toNat / 4 := by omega
  have h2 : (a.toNat * 65536 + b.toNat * 256 + c.toNat) / 4096 % 64 = a.toNat % 4 * 16 + b.toNat / 16 := by omega
  have h3 : (a.toNat * 65536 + b.toNat * 256 + c.toNat) / 64 % 64 = b.toNat % 16 * 4 + c.toNat / 64 := by omega
  have h4 : (a.toNat * 65536 + b.toNat * 256 + c.toNat) % 64 = c.toNat % 64 := by omega
  rw [encode, h1, h2, h3, h4]

theorem encode_two (a b : UInt8) : encode [a, b] =
    [digit (a.toNat / 4), digit (a.toNat % 4 * 16 + b.toNat / 16), digit (b.toNat % 16 * 4), ch '='] := by
  have hb := b.toNat_lt
  have h1 : (a.toNat * 1024 + b.toNat * 4) / 4096 = a.toNat / 4 := by omega
  have h2 : (a.toNat * 1024 + b.toNat * 4) / 64 % 64 = a.toNat % 4 * 16 + b.toNat / 16 := by omega
  have h3 : (a.toNat * 1024 + b.toNat * 4) % 64 = b.toNat % 16 * 4 := by omega
  rw [encode, h1, h2, h3]

/-- **Four digits for every three bytes**, begun or not. -/
theorem length_encode (bs : List UInt8) : (encode bs).length = 4 * ((bs.length + 2) / 3) := by
  induction bs using encode.induct with
  | case1 a b c bs ih =>
      rw [encode_three]
      simp only [List.length_cons, ih]
      omega
  | case2 a b =>
      rw [encode_two]
      simp
  | case3 a =>
      rw [encode]
      simp
  | case4 => rfl

end Base64
