import ZBTree.Words

/-!
# Constants and node layouts

The constants and structures of `include/zbtree.h`, for the default build (neither
`SNAP` nor `LONGVAL`). Addresses are unbounded naturals with `0` for `nullptr`;
what an address is truncated to when it is stored in a slot is said at the slot.
Arrays are functions of their index. Fields that no modelled function reads
(`D_Leaf::compact_use`, `P_Leaf::dleaf_ptr`, ...) are left out.
-/

namespace ZBTree

abbrev Addr := Nat

/-- `Key_t`. -/
abbrev Key := Word

def MAX_LEAF_KEY : Nat := 30
def SPLIT_POS : Nat := MAX_LEAF_KEY / 2 - 1
def LEFT_KEY : Nat := MAX_LEAF_KEY / 2
def RIGHT_KEY : Nat := MAX_LEAF_KEY / 2

def LOG_INSERT : BitVec 8 := 0x31
def LOG_UPDATE : BitVec 8 := 0x32

/-! ### Leaf slots -/

/-- `adaptive_slot` (`zbtree.h`), a union of `finger_array` and a 64-bit word. The bit-fields
determine the word and are determined by it, so the structure stores the fields
and `val` is the other view. -/
structure AdaptiveSlot where
  hashByte : BitVec 8
  controlBit : BitVec 6
  accessBit : BitVec 2
  ptrField : BitVec 48
deriving DecidableEq, Repr

/-- Reading the slot as `val`; the first bit-field takes the low bits. -/
def AdaptiveSlot.val (s : AdaptiveSlot) : Word :=
  s.ptrField ++ s.accessBit ++ s.controlBit ++ s.hashByte

/-- The slot after `val` has been assigned. -/
def AdaptiveSlot.ofVal (w : Word) : AdaptiveSlot where
  hashByte := w.extractLsb' 0 8
  controlBit := w.extractLsb' 8 6
  accessBit := w.extractLsb' 14 2
  ptrField := w.extractLsb' 16 48

@[simp] theorem AdaptiveSlot.val_ofVal (w : Word) : (ofVal w).val = w := by
  unfold ofVal val
  apply BitVec.eq_of_getLsbD_eq
  intro i hi
  simp only [BitVec.getLsbD_append, BitVec.getLsbD_extractLsb']
  grind

@[simp] theorem AdaptiveSlot.ofVal_val (s : AdaptiveSlot) : ofVal s.val = s := by
  cases s
  unfold ofVal val
  congr 1
  all_goals
    apply BitVec.eq_of_getLsbD_eq
    intro i hi
    simp only [BitVec.getLsbD_append, BitVec.getLsbD_extractLsb']
    grind

def AdaptiveSlot.zero : AdaptiveSlot := ⟨0, 0, 0, 0⟩

/-! ### Nodes -/

/-- `Node_entry` (`zbtree.h`): a key and a value as the split buffer holds them. -/
structure NodeEntry where
  oneKey : Key
  val : Word
deriving DecidableEq, Repr

/-- `Inner_Node` (`zbtree.h`); `nodeKey0` and `nodeKey1` are the two rows of `node_key`. -/
structure InnerNode where
  leftMostPtr : Addr
  maxSize : Nat
  versionField : BitVec 32
  nodeKey0 : Nat → Key
  nodeKey1 : Nat → Addr

/-- `D_Leaf` (`zbtree.h`). `tempInsert` is `0` when the leaf is free, `1` when a writer holds it
and `2` while it is split; `altPtr` is its `P_Leaf`, or the split buffer. -/
structure DLeaf where
  fingerPrint : Nat → AdaptiveSlot
  tempInsert : Nat
  maxUse : Nat
  altPtr : Addr
  next : Addr
  maxKey : Key

/-- `P_Leaf` (`zbtree.h`), and `Dummy_PLeaf2` (`n_alc.h`), through which the allocator reads it. -/
structure PLeaf where
  versionField : Word
  maxKey : Key
  next : Addr

/-- One step of a root-to-leaf path, as `find_insert` records it; `nodePos` is `-1`
for the left-most child. -/
structure Cursor where
  node : Addr
  nodePos : Int
  nodeMax : Nat
  nodeVersion : BitVec 32

/-! ### Fingerprints -/

def kFNVPrime64 : Word := 1099511628211

/-- One round of `hashfunc` on the octet `octet`; `hash` is an `unsigned char`. -/
def hashRound (hash : BitVec 8) (octet : Word) : BitVec 8 :=
  ((hash ^^^ octet.setWidth 8).setWidth 64 * kFNVPrime64).setWidth 8

/-- `hashfunc` (`zbtree.cpp`): eight rounds over the octets of the key, low octet first. -/
def hashfunc (val : Key) : BitVec 8 :=
  ((List.range 8).foldl
    (fun (acc : BitVec 8 × Word) _ => (hashRound acc.1 (acc.2 &&& 0xff), acc.2 >>> 8))
    (123, val)).1

end ZBTree
