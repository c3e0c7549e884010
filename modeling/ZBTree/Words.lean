import Mathlib.Order.Basic
import Mathlib.Data.BitVec

/-!
# Machine words in their unsigned order

Bit-vectors of a fixed width are linearly ordered by their unsigned value, which
is the comparison C uses on `uint64_t`.
-/

namespace ZBTree

instance instLinearOrderBitVec (w : Nat) : LinearOrder (BitVec w) where
  le_refl := BitVec.le_refl
  le_trans _ _ _ := BitVec.le_trans
  le_antisymm _ _ := BitVec.le_antisymm
  lt_iff_le_not_ge a b := by bv_omega
  le_total a b := BitVec.le_total a b
  toDecidableLE := inferInstance

/-- A 64-bit machine word: a key, a value, or the raw contents of a leaf slot. -/
abbrev Word := BitVec 64

end ZBTree
