import Unserlob.Exchange.Books
import Unserlob.Lol.OidLines

/-!
# Cancelling by an order id from the wire (`omsg_del_oid`)

* `omsgDelOid_error`: a cancellation with a type or side out of range is not answered;
* **`recvOmsg_oid`**: which lines' order ids are right, and which are indices when they are answered.
-/

namespace Unserlob

open Ascii Cursor Writer Table

/-- **A cancellation out of range** faults, whatever the books do. -/
theorem omsgDelOid_error {B : Type} (C : Clob B) (name : ℕ → List UInt8) (junk : List UInt8) (fd : ℤ) (i : ℕ)
    {o : ClobOid Decimal64} (h : ¬ Indexes o) (s : Books B) : ∃ e, omsgDelOid C name junk fd i o s = .error e := by
  rw [indexes_iff_valid] at h
  cases hg : getAt s.clob i with
  | error e =>
      rw [omsgDelOid, hg]
      exact ⟨e, rfl⟩
  | ok b =>
      have hinvalid : ¬ (Omsg.mk (name i) (if ¬ (C.clobDel b o).1 < 0 then .kil o else .nok o)).body.valid := by
        split_ifs
        · exact h
        · exact h
      obtain ⟨e, he⟩ := sendOmsg_invalid 256 hinvalid ⟨junk, 0⟩
      refine ⟨e, ?_⟩
      rw [omsgDelOid, hg]
      change (reply junk _ >>= _) = _
      rw [reply, he]
      rfl

/-- **The order ids of the lines.** A message that is an order id comes from a line with the column. What is read
from the column is nil or says what is written there, just when there is no order id in it, or the words, or zeros;
type and side are indices of the tables just when there is no order id in it, or an `A` or `B` in the place of the
side, and a cancellation is not answered otherwise. -/
theorem recvOmsg_oid {l : Locals} {msg : Ptr} {n : ℕ} {m : Omsg Decimal64} (h : recvOmsg l msg n = .ok m) :
    (∀ o, m.body = .oid o ∨ m.body = .kil o ∨ m.body = .nok o ∨ m.body = .can o → ∃ p, OidColumn msg n p) ∧
    ∀ p, OidColumn msg n p → ∃ o, oidOf m.body = some o ∧
      (OidRight p o ↔ NilColumn p ∨ Words p ∨ ZeroColumn p) ∧
      (Indexes o ↔ NilColumn p ∨ p[4]? = some (ch 'A') ∨ p[4]? = some (ch 'B')) ∧
      (¬ Indexes o → ∀ (B : Type) (C : Clob B) (name : ℕ → List UInt8) (junk : List UInt8) (fd : ℤ) (i : ℕ)
        (s : Books B), ∃ e, omsgDelOid C name junk fd i o s = .error e) := by
  refine ⟨fun o ho => exists_oidColumn h ho, fun p hp => ?_⟩
  obtain ⟨o, ho, hread⟩ := hp.read h
  exact ⟨o, ho, oidRight_iff hread, indexes_iff hread, fun hi B C name junk fd i s => omsgDelOid_error C name junk fd i hi s⟩

/-- The columns of a cancellation, with three letters for the side. -/
def sideCols (w : List UInt8) : Ptr := bytes ['L', 'M', 'T', ' '] ++ (w ++ bytes [' ', '1', ' ', '1', '\n'])

/-- The line of the cancellation. -/
def sideLine (w : List UInt8) : Ptr := bytes ['C', 'A', 'N', '\t', 'I', '\t'] ++ sideCols w

/-- The message on it. -/
def sideMsg (sid : ClobSide) : Omsg Decimal64 := ⟨bytes ['I'], .can ⟨clobTypeLmt, sid, 0x31c0000000000001, 1, 0⟩⟩

/-- A sale is cancelled. -/
theorem recvOmsg_oid_ask :
    (∀ o, (sideMsg clobSideAsk).body = .oid o ∨ (sideMsg clobSideAsk).body = .kil o ∨ (sideMsg clobSideAsk).body = .nok o ∨
      (sideMsg clobSideAsk).body = .can o → ∃ p, OidColumn (sideLine (bytes ['A', 'S', 'K'])) 18 p) ∧
    ∀ p, OidColumn (sideLine (bytes ['A', 'S', 'K'])) 18 p → ∃ o, oidOf (sideMsg clobSideAsk).body = some o ∧
      (OidRight p o ↔ NilColumn p ∨ Words p ∨ ZeroColumn p) ∧
      (Indexes o ↔ NilColumn p ∨ p[4]? = some (ch 'A') ∨ p[4]? = some (ch 'B')) ∧
      (¬ Indexes o → ∀ (B : Type) (C : Clob B) (name : ℕ → List UInt8) (junk : List UInt8) (fd : ℤ) (i : ℕ)
        (s : Books B), ∃ e, omsgDelOid C name junk fd i o s = .error e) :=
  recvOmsg_oid (show recvOmsg ⟨0, nilOid⟩ (sideLine (bytes ['A', 'S', 'K'])) 18 = .ok (sideMsg clobSideAsk) by
    decide +kernel)

/-- **Any letter will do for a side**, and `Z` is the twenty-sixth. -/
theorem recvOmsg_zed : ¬ ∀ (l : Locals) (msg : Ptr) (n : ℕ) (m : Omsg Decimal64), recvOmsg l msg n = .ok m →
    ∀ p, OidColumn msg n p → ∀ o, oidOf m.body = some o → OidRight p o ∧ Indexes o := by
  intro h
  have hread : recvOmsg ⟨0, nilOid⟩ (sideLine (bytes ['Z', 'Z', 'Z'])) 18 = .ok (sideMsg 25) := by decide +kernel
  have hcol : OidColumn (sideLine (bytes ['Z', 'Z', 'Z'])) 18 (sideCols (bytes ['Z', 'Z', 'Z'])) :=
    .oid (List.mem_cons_of_mem _ (List.mem_cons_of_mem _ (List.mem_cons_of_mem _ List.mem_cons_self)))
      ⟨bytes ['I', '\t'] ++ sideCols (bytes ['Z', 'Z', 'Z']), rfl⟩
      (show snarf _ 18 4 = .ok (some (bytes ['I'], _)) by decide +kernel)
  have hright := (h _ _ _ _ hread _ hcol _ rfl).1
  exact absurd hright (by decide +kernel)

end Unserlob
