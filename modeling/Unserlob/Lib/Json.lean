import Mathlib.Algebra.Order.Field.Rat
import Mathlib.Tactic.Ring
import Unserlob.Lib.Ascii

/-!
# Flat records

A reader of JSON objects without blanks whose members are numbers or `null`.

* `natVal`: digits as a number; `readInt`, `readFrac`, `readExp`, **`readNumber`**: the grammar of numbers;
* `readScalar`, `readMember`, **`readRecord`**;
* `readUnsigned_whole`, `readUnsigned_point`: numbers; `readUnsigned_zero`, `readUnsigned_letter`: what is none;
* `readMembers_cons`, `readMembers_last`, `readMembers_none`: members, one after the other.
-/

namespace Json

open Ascii

/-! ## The reader -/

/-- The number of a digit string. -/
def natVal (w : List UInt8) : ℕ := w.foldl (fun n c => 10 * n + (c.toNat - 48)) 0

/-- A zero, or digits that do not start with one. -/
def readInt : List UInt8 → Option (ℕ × List UInt8)
  | [] => none
  | c :: t =>
    if c = ch '0' then some (0, t)
    else if isdigit c then some (natVal ((c :: t).takeWhile isdigit), (c :: t).dropWhile isdigit)
    else none

/-- A point with digits behind it, or nothing. -/
def readFrac (p : List UInt8) : Option (ℚ × List UInt8) :=
  if p.head? = some (ch '.') then
    let w := p.tail.takeWhile isdigit
    if w = [] then none else some (natVal w / 10 ^ w.length, p.tail.dropWhile isdigit)
  else some (0, p)

/-- A letter with a sign and digits behind it, or nothing. -/
def readExp (p : List UInt8) : Option (ℤ × List UInt8) :=
  if p.head? = some (ch 'e') ∨ p.head? = some (ch 'E') then
    let neg : Bool := p.tail.head? = some (ch '-')
    let q := if neg ∨ p.tail.head? = some (ch '+') then p.tail.tail else p.tail
    let w := q.takeWhile isdigit
    if w = [] then none else some (if neg then -natVal w else natVal w, q.dropWhile isdigit)
  else some (0, p)

/-- A number without a sign in front of it, and what follows it. -/
def readUnsigned (p : List UInt8) : Option (ℚ × List UInt8) := do
  let (n, p) ← readInt p
  let (f, p) ← readFrac p
  let (e, p) ← readExp p
  pure ((n + f) * 10 ^ e, p)

/-- A number, and what follows it. -/
def readNumber (p : List UInt8) : Option (ℚ × List UInt8) :=
  if p.head? = some (ch '-') then (readUnsigned p.tail).map fun x => (-x.1, x.2) else readUnsigned p

def nullText : List UInt8 := bytes ['n', 'u', 'l', 'l']

/-- A number or `null`. -/
def readScalar (p : List UInt8) : Option (Option ℚ × List UInt8) :=
  if nullText.isPrefixOf p then some (none, p.drop 4)
  else (readNumber p).map fun x => (some x.1, x.2)

/-- What the member of this name holds. -/
def readMember (key : List UInt8) (p : List UInt8) : Option (Option ℚ × List UInt8) :=
  let name := ch '"' :: (key ++ [ch '"', ch ':'])
  if name.isPrefixOf p then readScalar (p.drop name.length) else none

/-- The members of these names, with commas between them, up to the brace. -/
def readMembers : List (List UInt8) → List UInt8 → Option (List (Option ℚ))
  | [], _ => none
  | [key], p => do
    let (v, p) ← readMember key p
    if p = [ch '}'] then pure [v] else none
  | key :: keys, p => do
    let (v, p) ← readMember key p
    if p.head? = some (ch ',') then
      let vs ← readMembers keys p.tail
      pure (v :: vs)
    else none

/-- **A record with these members**: what they hold. -/
def readRecord (keys : List (List UInt8)) (p : List UInt8) : Option (List (Option ℚ)) :=
  if p.head? = some (ch '{') then readMembers keys p.tail else none

/-! ## Numbers -/

/-- The bytes that may follow a member. -/
def Stops (c : UInt8) : Prop := c = ch ',' ∨ c = ch '}'

theorem Stops.not_digit {c : UInt8} (h : Stops c) : isdigit c = false := by
  rcases h with rfl | rfl <;> decide

theorem takeWhile_digits {w : List UInt8} (hw : ∀ x ∈ w, isdigit x = true) {c : UInt8} (hc : isdigit c = false)
    (r : List UInt8) : (w ++ c :: r).takeWhile isdigit = w ∧ (w ++ c :: r).dropWhile isdigit = c :: r := by
  rw [List.takeWhile_append_of_pos hw, List.dropWhile_append_of_pos hw, List.takeWhile_cons_of_neg (by simp [hc]),
    List.dropWhile_cons_of_neg (by simp [hc]), List.append_nil]
  exact ⟨rfl, rfl⟩

theorem readInt_digits {w : List UInt8} (hw : ∀ x ∈ w, isdigit x = true) (hne : w ≠ [])
    (hlead : w.head? = some (ch '0') → w = [ch '0']) {c : UInt8} (hc : isdigit c = false) (r : List UInt8) :
    readInt (w ++ c :: r) = some (natVal w, c :: r) := by
  obtain ⟨ht, hd⟩ := takeWhile_digits hw hc r
  cases w with
  | nil => exact absurd rfl hne
  | cons d ds =>
      rw [List.cons_append] at ht hd ⊢
      by_cases h0 : d = ch '0'
      · subst h0
        obtain rfl : ds = [] := (List.cons.inj (hlead rfl)).2
        rfl
      · rw [readInt, if_neg h0, if_pos (hw d List.mem_cons_self), ht, hd]

section Spelled

variable {int frac : List UInt8} {c : UInt8} (hc : Stops c) (r : List UInt8)

include hc

theorem readExp_stops : readExp (c :: r) = some (0, c :: r) := by
  rcases hc with rfl | rfl <;> rfl

theorem readFrac_stops : readFrac (c :: r) = some (0, c :: r) := by
  rcases hc with rfl | rfl <;> rfl

theorem readFrac_point (hne : frac ≠ []) (hf : ∀ x ∈ frac, isdigit x = true) :
    readFrac (ch '.' :: (frac ++ c :: r)) = some ((natVal frac : ℚ) / 10 ^ frac.length, c :: r) := by
  obtain ⟨ht, hd⟩ := takeWhile_digits hf hc.not_digit r
  rw [readFrac, List.head?_cons, if_pos rfl, List.tail_cons]
  simp only [ht, hd, if_neg hne]

variable (hint : ∀ x ∈ int, isdigit x = true) (hne : int ≠ []) (hlead : int.head? = some (ch '0') → int = [ch '0'])

include hint hne hlead

theorem readUnsigned_whole : readUnsigned (int ++ c :: r) = some ((natVal int : ℚ), c :: r) := by
  rw [readUnsigned, readInt_digits hint hne hlead hc.not_digit]
  simp only [Option.bind_eq_bind, Option.bind_some, readFrac_stops hc, readExp_stops hc]
  rw [add_zero, zpow_zero, mul_one]
  rfl

theorem readUnsigned_point (hf : ∀ x ∈ frac, isdigit x = true) (hfne : frac ≠ []) :
    readUnsigned (int ++ ch '.' :: (frac ++ c :: r)) =
      some ((natVal int : ℚ) + (natVal frac : ℚ) / 10 ^ frac.length, c :: r) := by
  rw [readUnsigned, readInt_digits hint hne hlead (by decide)]
  simp only [Option.bind_eq_bind, Option.bind_some, readFrac_point hc r hfne hf, readExp_stops hc]
  rw [zpow_zero, mul_one]
  rfl

end Spelled

theorem readNumber_neg (p : List UInt8) : readNumber (ch '-' :: p) = (readUnsigned p).map fun x => (-x.1, x.2) :=
  if_pos rfl

theorem readNumber_pos {p : List UInt8} (h : p.head? ≠ some (ch '-')) : readNumber p = readUnsigned p := if_neg h

/-- **A zero is a number of its own**: what follows it is not read. -/
theorem readUnsigned_zero {c : UInt8} (hc : isdigit c = true) (r : List UInt8) :
    readUnsigned (ch '0' :: c :: r) = some (0, c :: r) := by
  have hpoint : c ≠ ch '.' := fun h => absurd hc (by rw [h]; decide)
  have he : c ≠ ch 'e' := fun h => absurd hc (by rw [h]; decide)
  have hE : c ≠ ch 'E' := fun h => absurd hc (by rw [h]; decide)
  simp [readUnsigned, readInt, readFrac, readExp, hpoint, he, hE]

theorem readUnsigned_letter {c : UInt8} (hc : isdigit c = false) (r : List UInt8) : readUnsigned (c :: r) = none := by
  have h0 : c ≠ ch '0' := fun h => absurd hc (by rw [h]; decide)
  simp [readUnsigned, readInt, h0, hc]

/-! ## Members -/

section Members

variable {key : List UInt8} {keys : List (List UInt8)} {v : Option ℚ} {w t : List UInt8}

/-- The text of a member. -/
def memberText (key w : List UInt8) : List UInt8 := ch '"' :: (key ++ [ch '"', ch ':']) ++ w

theorem readMember_text (key w t : List UInt8) : readMember key (memberText key w ++ t) = readScalar (w ++ t) := by
  rw [readMember, memberText, List.append_assoc]
  simp only [List.isPrefixOf_iff_prefix, List.prefix_append, if_true, List.drop_left]

/-- **A member with others behind it.** -/
theorem readMembers_cons (hkeys : keys ≠ []) (h : readScalar (w ++ ch ',' :: t) = some (v, ch ',' :: t)) :
    readMembers (key :: keys) (memberText key w ++ ch ',' :: t) = (readMembers keys t).map (v :: ·) := by
  cases keys with
  | nil => exact absurd rfl hkeys
  | cons k ks =>
      rw [readMembers, readMember_text, h]
      simp only [Option.bind_eq_bind, Option.bind_some, List.head?_cons, if_true, List.tail_cons]
      · cases readMembers (k :: ks) t <;> rfl
      · simp

theorem readMembers_none (keys : List (List UInt8)) (h : ∀ x ∈ readScalar (w ++ t), ∃ c r, x.2 = c :: r ∧ isdigit c = true) :
    readMembers (key :: keys) (memberText key w ++ t) = none := by
  have hcomma : ∀ c, isdigit c = true → c ≠ ch ',' := fun c hc he => absurd hc (by rw [he]; decide)
  have hbrace : ∀ c, isdigit c = true → c ≠ ch '}' := fun c hc he => absurd hc (by rw [he]; decide)
  cases keys with
  | nil =>
      rw [readMembers, readMember_text]
      cases hr : readScalar (w ++ t) with
      | none => rfl
      | some x =>
          obtain ⟨c, r, hx, hc⟩ := h x hr
          simp [hx, hbrace c hc]
  | cons k ks =>
      rw [readMembers, readMember_text]
      · cases hr : readScalar (w ++ t) with
        | none => rfl
        | some x =>
            obtain ⟨c, r, hx, hc⟩ := h x hr
            simp [hx, hcomma c hc]
      · simp

/-- **The last member.** -/
theorem readMembers_last (h : readScalar (w ++ [ch '}']) = some (v, [ch '}'])) :
    readMembers [key] (memberText key w ++ [ch '}']) = some [v] := by
  rw [readMembers, readMember_text, h]
  rfl

end Members

end Json
