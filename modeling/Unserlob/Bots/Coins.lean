import Mathlib.Algebra.BigOperators.Intervals
import Mathlib.Algebra.Order.BigOperators.Group.Finset
import Mathlib.Algebra.BigOperators.Ring.Finset
import Mathlib.Data.Int.ModEq
import Unserlob.Bots.Gamblers

/-!
# The coins of `monkey`

* `sumLoop`: the loop of `hbeat_cb` over the numbers of a generator; `draw_returns`: it comes to `draw`;
* `coin`, `coins`: the coins of a stream of numbers, bit by bit;
* `fold_turn`: only the first number has coins for the code; `toss_sum`: they add up;
* **`sums_iff`**: when the quantity is the sum of all of them.
-/

namespace Unserlob

open Cursor
open Exact (num)

namespace Monkey

variable {D G : Type} [Signed D]

/-- One turn: a number is drawn, and the coins from `i` up to the smaller of 32 and `N` are counted. -/
def turn (next : G → BitVec 32 × G) (o : Opts D) (i : ℕ) (a : D × G) : D × G :=
  (toss o.basq (Nat.min 32 o.N - i) (next a.2).1 a.1, (next a.2).2)

/-- `for (size_t i = 0U; i < N; i += 32U)`, if it ends within so many turns. -/
def sumLoop (next : G → BitVec 32 × G) (o : Opts D) : ℕ → ℕ → D × G → Option (D × G)
  | 0, _, _ => none
  | fuel + 1, i, a => if i < o.N then sumLoop next o fuel ((i + 32) % 2 ^ 64) (turn next o i a) else some a

section Loop

variable {next : G → BitVec 32 × G} {o : Opts D}

theorem sumLoop_unique {f f' i : ℕ} {a r r' : D × G} (h : sumLoop next o f i a = some r)
    (h' : sumLoop next o f' i a = some r') : r = r' := by
  induction f generalizing f' i a with
  | zero => cases h
  | succ f ih =>
      cases f' with
      | zero => cases h'
      | succ f' =>
          rw [sumLoop] at h h'
          split_ifs at h h' with hi
          · exact ih h h'
          · exact Option.some.inj (h.symm.trans h')

theorem sumLoop_wraps (hN : 2 ^ 64 - 32 < o.N) (f : ℕ) {i : ℕ} (hi : i < 2 ^ 64) (h32 : 32 ∣ i) (a : D × G) :
    sumLoop next o f i a = none := by
  induction f generalizing i a with
  | zero => rfl
  | succ f ih =>
      rw [sumLoop, if_pos (by omega)]
      exact ih (Nat.mod_lt _ (by decide)) (by omega) _

theorem sumLoop_range {m k : ℕ} (hN : o.N ≤ 2 ^ 64 - 32) (hk : k + m = (o.N + 31) / 32) (a : D × G) :
    sumLoop next o (m + 1) (32 * k) a =
      some ((List.range' k m).foldl (fun a i => turn next o (32 * i) a) a) := by
  induction m generalizing k a with
  | zero => exact if_neg (by omega)
  | succ m ih =>
      have hnext : (32 * k + 32) % 2 ^ 64 = 32 * (k + 1) := by omega
      rw [sumLoop, if_pos (by omega), hnext, ih (by omega)]
      rfl

theorem sumLoop_returns (hN : o.N ≤ 2 ^ 64 - 32) (a : D × G) :
    sumLoop next o ((o.N + 31) / 32 + 1) 0 a =
      some ((List.range ((o.N + 31) / 32)).foldl (fun a i => turn next o (32 * i) a) a) := by
  rw [List.range_eq_range']
  exact sumLoop_range hN (Nat.zero_add _) a

end Loop

theorem draw_returns {o : Opts D} (hN : o.N ≤ 2 ^ 64 - 32) (rng : Pcg32) :
    sumLoop Pcg32.random o ((o.N + 31) / 32 + 1) 0 (Dfp.nought, rng) = some (draw o rng) := sumLoop_returns hN _

/-! ## Coins -/

def coin (b : Bool) : ℤ := if b then 1 else -1

/-- The coins of a stream of numbers, from the lowest bit of the first number on. -/
def coins (word : ℕ → BitVec 32) (i : ℕ) : ℤ := coin ((word (i / 32)).getLsbD (i % 32))

/-- A generator that counts what is drawn. -/
def ofStream (word : ℕ → BitVec 32) (k : ℕ) : BitVec 32 × ℕ := (word k, k + 1)

theorem abs_coin (b : Bool) : |coin b| = 1 := by cases b <;> rfl

theorem coin_modEq (b : Bool) : coin b ≡ 1 [ZMOD 2] := by cases b <;> rfl

theorem abs_sum_coins_le (word : ℕ → BitVec 32) (n : ℕ) : |∑ i ∈ Finset.range n, coins word i| ≤ n := by
  calc |∑ i ∈ Finset.range n, coins word i| ≤ ∑ i ∈ Finset.range n, |coins word i| := Finset.abs_sum_le_sum_abs _ _
    _ = n := by
        have hone : ∀ i ∈ Finset.range n, |coins word i| = 1 := fun i _ => abs_coin _
        rw [Finset.sum_congr rfl hone, Finset.sum_const, Finset.card_range, nsmul_one]

theorem sum_coins_modEq (word : ℕ → BitVec 32) (n : ℕ) : ∑ i ∈ Finset.range n, coins word i ≡ n [ZMOD 2] := by
  induction n with
  | zero => rfl
  | succ n ih =>
      rw [Finset.sum_range_succ, Nat.cast_succ]
      exact ih.add (coin_modEq _)

theorem sum_coins_split (word : ℕ → BitVec 32) (n : ℕ) : ∑ i ∈ Finset.range n, coins word i =
    ∑ i ∈ Finset.range (min 32 n), coin ((word 0).getLsbD i) + ∑ i ∈ Finset.Ico 32 n, coins word i := by
  have hfirst : ∑ i ∈ Finset.range (min 32 n), coin ((word 0).getLsbD i) =
      ∑ i ∈ Finset.range (min 32 n), coins word i := by
    refine Finset.sum_congr rfl fun i hi => ?_
    have hi' : i < 32 := (Finset.mem_range.mp hi).trans_le (min_le_left 32 n)
    rw [coins, Nat.div_eq_of_lt hi', Nat.mod_eq_of_lt hi']
  rw [hfirst]
  by_cases h : n ≤ 32
  · rw [min_eq_right h, Finset.Ico_eq_empty_of_le h, Finset.sum_empty, add_zero]
  · rw [min_eq_left (by omega), Finset.sum_range_add_sum_Ico _ (by omega)]

theorem lowest (x : BitVec 32) : x &&& 1 ≠ 0 ↔ x.getLsbD 0 = true := by
  have h := BitVec.and_one_eq_setWidth_ofBool_getLsbD (x := x)
  cases hb : x.getLsbD 0 with
  | false =>
      rw [hb] at h
      exact iff_of_false (fun hne => hne h) Bool.false_ne_true
  | true =>
      rw [hb] at h
      exact iff_of_true (h.trans_ne (by decide)) rfl

theorem fold_turn {o : Opts D} (word : ℕ → BitVec 32) (q : D) (n : ℕ) :
    (List.range (n + 1)).foldl (fun a i => turn (ofStream word) o (32 * i) a) (q, 0) =
      (toss o.basq (min 32 o.N) (word 0) q, n + 1) := by
  induction n with
  | zero => rfl
  | succ n ih =>
      have hnone : Nat.min 32 o.N - 32 * (n + 1) = 0 := Nat.sub_eq_zero_of_le ((Nat.min_le_left 32 o.N).trans (by omega))
      rw [List.range_succ, List.foldl_append, ih]
      show turn (ofStream word) o (32 * (n + 1)) _ = _
      rw [turn, hnone]
      rfl

theorem sumLoop_toss {o : Opts D} (hN : o.N ≤ 2 ^ 64 - 32) (word : ℕ → BitVec 32) :
    sumLoop (ofStream word) o ((o.N + 31) / 32 + 1) 0 (Dfp.nought, 0) =
      some (toss o.basq (min 32 o.N) (word 0) Dfp.nought, (o.N + 31) / 32) := by
  rw [sumLoop_returns hN]
  by_cases h : o.N = 0
  · rw [h]
    rfl
  · obtain ⟨n, hn⟩ : ∃ n, (o.N + 31) / 32 = n + 1 := ⟨(o.N + 31) / 32 - 1, by omega⟩
    rw [hn, fold_turn]

variable [ExactSigned D] {o : Opts D} {β : ℚ}

theorem toss_sum {basq : D} (hb : num basq = .fin β) (n : ℕ) (x : BitVec 32) {q : D} {c : ℚ} (hq : num q = .fin c) :
    num (toss basq n x q) = .fin (c + β * (∑ i ∈ Finset.range n, coin (x.getLsbD i) : ℤ)) := by
  induction n generalizing x q c with
  | zero =>
      rw [toss, hq, Finset.range_zero, Finset.sum_empty, Int.cast_zero, mul_zero, add_zero]
  | succ n ih =>
      have hterm : num (if x &&& 1 ≠ 0 then basq else -basq) = .fin (β * coin (x.getLsbD 0)) := by
        by_cases h : x.getLsbD 0 = true
        · rw [if_pos ((lowest x).mpr h), hb, h]
          simp [coin]
        · rw [if_neg fun h' => h ((lowest x).mp h'), ExactSigned.neg hb, Bool.eq_false_iff.mpr h]
          simp [coin]
      have hshift : ∀ i, (x >>> 1).getLsbD i = x.getLsbD (i + 1) := fun i => by
        rw [BitVec.getLsbD_ushiftRight, Nat.add_comm]
      rw [toss, ih _ (Exact.fin_add hq hterm), Finset.sum_range_succ', Int.cast_add, mul_add,
        Finset.sum_congr rfl fun i _ => congrArg coin (hshift i)]
      congr 1
      ring

/-- **The quantity is the sum of `N` drawings**, one for each bit of the numbers drawn. -/
def Sums (o : Opts D) (β : ℚ) (word : ℕ → BitVec 32) : Prop :=
  ∃ fuel q, sumLoop (ofStream word) o fuel 0 (Dfp.nought, 0) = some (q, (o.N + 31) / 32) ∧
    ∃ z : ℤ, num q = .fin (β * z) ∧ z = ∑ i ∈ Finset.range o.N, coins word i ∧ |β * z| ≤ o.N * β ∧ z ≡ o.N [ZMOD 2]

/-- **The sum of all of them**, just when there is one number at most, or the others' coins cancel out and the loop
ends. -/
theorem sums_iff (hb : num o.basq = .fin β) (hβ : 0 < β) (word : ℕ → BitVec 32) :
    Sums o β word ↔ o.N ≤ 32 ∨ o.N ≤ 2 ^ 64 - 32 ∧ ∑ i ∈ Finset.Ico 32 o.N, coins word i = 0 := by
  have hcond : (o.N ≤ 32 ∨ o.N ≤ 2 ^ 64 - 32 ∧ ∑ i ∈ Finset.Ico 32 o.N, coins word i = 0) ↔
      o.N ≤ 2 ^ 64 - 32 ∧ ∑ i ∈ Finset.Ico 32 o.N, coins word i = 0 := by
    refine ⟨fun h => h.elim (fun hle => ⟨by omega, ?_⟩) id, Or.inr⟩
    rw [Finset.Ico_eq_empty_of_le hle, Finset.sum_empty]
  rw [hcond]
  have hq := toss_sum hb (min 32 o.N) (word 0) Exact.nought
  have hsplit := sum_coins_split word o.N
  rw [zero_add] at hq
  constructor
  · rintro ⟨fuel, q, hloop, z, hz, rfl, -, -⟩
    have hN : o.N ≤ 2 ^ 64 - 32 := by
      by_contra hlt
      rw [sumLoop_wraps (by omega) fuel (by decide) (dvd_zero 32)] at hloop
      cases hloop
    have he := sumLoop_unique hloop (sumLoop_toss hN word)
    rw [(Prod.mk.inj he).1, hq] at hz
    have hsum := Int.cast_injective (mul_left_cancel₀ hβ.ne' (Decimal64.Num.fin.inj hz))
    exact ⟨hN, by omega⟩
  · rintro ⟨hN, hrest⟩
    rw [hrest, add_zero] at hsplit
    refine ⟨_, _, sumLoop_toss hN word, _, hq, hsplit.symm, ?_, ?_⟩
    · have habs := abs_sum_coins_le word o.N
      rw [hsplit] at habs
      rw [abs_mul, abs_of_pos hβ, mul_comm]
      refine mul_le_mul_of_nonneg_right ?_ hβ.le
      exact_mod_cast habs
    · rw [← hsplit]
      exact sum_coins_modEq word o.N

/-- Forty drawings at a cent. -/
def forty : Opts Cents where
  cont := Ascii.bytes ['I']
  basq := Cents.of 1
  N := 40

/-- Heads only. -/
def heads : ℕ → BitVec 32 := fun _ => BitVec.allOnes 32

theorem sums_iff_forty : Sums forty (1 / 100) heads ↔
    forty.N ≤ 32 ∨ forty.N ≤ 2 ^ 64 - 32 ∧ ∑ i ∈ Finset.Ico 32 forty.N, coins heads i = 0 :=
  sums_iff (Cents.num_of (by norm_num)) (by norm_num) heads

/-- Forty heads come to 32 cents. -/
theorem sums_not_forty : ¬ Sums forty (1 / 100) heads := by
  rintro ⟨fuel, q, hloop, z, hz, hsum, -⟩
  have hdone : sumLoop (ofStream heads) forty 3 0 (Dfp.nought, 0) = some (Cents.of 32, 2) := by
    decide +kernel
  have hforty : z = 40 := hsum.trans (by decide +kernel)
  rw [(Prod.mk.inj (sumLoop_unique hloop hdone)).1, hforty] at hz
  have hnum := Decimal64.Num.fin.inj hz
  norm_num at hnum

end Monkey

end Unserlob
