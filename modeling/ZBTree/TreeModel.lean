import ZBTree.Persistent
import ZBTree.Quicksort

/-!
# The tree code

`Tree` of `zbtree.cpp` in the default build (no `LONGVAL`, no `AVX_512`), over any
persistent memory. The DRAM objects live in one map for each type, keyed by
address. `malloc` hands out increasing addresses and leaves in the object whatever
`junkInner` or `junkLeaf` says was there. Locks, fences and prefetches that no
other thread can observe are left out; the lock word `temp_insert` is kept, and so
is the cut of `insert` and `find` into the sections that other threads can see
between (`lockLeaf`, `fillSlot`, `splitFull`, `installSeparator`; `findDescend`,
`findExamine`).
-/

namespace ZBTree

open Pmem

/-- How a call can fail to return: by touching memory that is not there, by going round a
retry loop more often than it was given rounds, or by calling `abort`. -/
inductive Fault where
  | segv
  | spin
  | abort
deriving DecidableEq, Repr

abbrev Exec := Except Fault

/-- A memory access. -/
def deref {α : Type} : Option α → Exec α
  | none => .error .segv
  | some a => .ok a

/-- A loop or a recursion that was given a bound on its rounds. -/
def bounded {α : Type} : Option α → Exec α
  | none => .error .spin
  | some a => .ok a

@[simp] theorem deref_some {α : Type} (a : α) : deref (some a) = .ok a := rfl
@[simp] theorem deref_none {α : Type} : deref (none : Option α) = .error .segv := rfl

theorem deref_eq_ok {α : Type} {o : Option α} {a : α} : deref o = .ok a ↔ o = some a := by
  cases o <;> simp

theorem bounded_eq_ok {α : Type} {o : Option α} {a : α} : bounded o = .ok a ↔ o = some a := by
  cases o <;> simp [bounded]

@[simp] theorem ok_bind {α β : Type} (a : α) (f : α → Exec β) : (.ok a : Exec α) >>= f = f a := rfl
@[simp] theorem error_bind {α β : Type} (e : Fault) (f : α → Exec β) :
    (.error e : Exec α) >>= f = .error e := rfl
@[simp] theorem pure_eq_ok {α : Type} (a : α) : (pure a : Exec α) = .ok a := rfl

theorem bind_eq_ok {α β : Type} {x : Exec α} {f : α → Exec β} {b : β} :
    x >>= f = .ok b ↔ ∃ a, x = .ok a ∧ f a = .ok b := by
  cases x <;> simp

theorem exec_of_map {α β : Type} {x : Exec α} {f : α → β} {b : β}
    (h : x.toOption.map f = some b) : ∃ a, x = .ok a ∧ f a = b := by
  cases x with
  | error e => simp [Except.toOption] at h
  | ok a => exact ⟨a, rfl, by simpa [Except.toOption] using h⟩

theorem exec_reads {α β : Type} {x : Exec α} {f : α → β} {a : α} {b : β} (hx : x = .ok a)
    (h : x.toOption.map f = some b) : f a = b := by
  subst hx
  simpa [Except.toOption] using h

/-- `Tree` (`zbtree.h`) with the memory it works on. `brk` is the next address that `malloc` gives. -/
structure TreeState (P : Type) where
  innerHeap : Addr → Option InnerNode
  dleafHeap : Addr → Option DLeaf
  bufHeap : Addr → Option (Nat → NodeEntry)
  brk : Addr
  junkInner : Addr → InnerNode
  junkLeaf : Addr → DLeaf
  pm : P
  root : Addr
  tempLevel : Nat
  leafStart : Addr
  dstart : Addr

namespace TreeState

variable {P : Type}

def setInner (s : TreeState P) (a : Addr) (n : InnerNode) : TreeState P :=
  { s with innerHeap := Function.update s.innerHeap a (some n) }

def setLeaf (s : TreeState P) (a : Addr) (m : DLeaf) : TreeState P :=
  { s with dleafHeap := Function.update s.dleafHeap a (some m) }

/-- `malloc(sizeof(Inner_Node))`, with the node as the caller fills it in. -/
def mallocInner (s : TreeState P) (fill : InnerNode → InnerNode) : Addr × TreeState P :=
  (s.brk, { s with
    innerHeap := Function.update s.innerHeap s.brk (some (fill (s.junkInner s.brk)))
    brk := s.brk + 1 })

/-- `malloc(sizeof(D_Leaf))`, with the leaf as the caller fills it in. -/
def mallocLeaf (s : TreeState P) (fill : DLeaf → DLeaf) : Addr × TreeState P :=
  (s.brk, { s with
    dleafHeap := Function.update s.dleafHeap s.brk (some (fill (s.junkLeaf s.brk)))
    brk := s.brk + 1 })

/-- The stack array `dram_buffer` of a running call, at an address of its own. -/
def stackBuf (s : TreeState P) (buf : Nat → NodeEntry) : Addr × TreeState P :=
  (s.brk, { s with
    bufHeap := Function.update s.bufHeap s.brk (some buf)
    brk := s.brk + 1 })

end TreeState

open TreeState

variable {P : Type}

/-! ### Inner nodes -/

/-- The loop over the separators that `find`, `find_insert` and `update` each spell out:
the place and the child to go to, `-1` for the left-most one. `last` is `max_size - 1`. -/
def scanSeparators (nd : InnerNode) (key : Key) (last : Nat) : Nat → Nat → Option (Int × Addr)
  | 0, _ => none
  | n + 1, i =>
    if key ≤ nd.nodeKey0 i ∧ i = 0 then some (-1, nd.leftMostPtr)
    else if i = last ∨ (nd.nodeKey0 i < key ∧ key ≤ nd.nodeKey0 (i + 1)) then
      some (i, nd.nodeKey1 i)
    else scanSeparators nd key last n (i + 1)

/-- `none` for a node whose `max_size` is 0: the loop then runs zero times, and the source goes
on with the same node as if it were the child. No tree that these operations build has one;
a tree that `bulkload` has left with one faults in the model where the source descends in place. -/
def routeChild (nd : InnerNode) (key : Key) : Option (Int × Addr) :=
  scanSeparators nd key (nd.maxSize - 1) nd.maxSize 0

/-- The descent of `find_insert` (`zbtree.cpp`) through `d` levels, with the path it records. A node
without separators ends it in a fault, by `routeChild`; the source stays on such a node for one
level. -/
def findInsertFrom (s : TreeState P) (key : Key) : Nat → Addr → Exec (List Cursor × Addr)
  | 0, start => .ok ([], start)
  | d + 1, start => do
    let nd ← deref (s.innerHeap start)
    let (pos, child) ← deref (routeChild nd key)
    let (path, leaf) ← findInsertFrom s key d child
    return (⟨start, pos, nd.maxSize, nd.versionField⟩ :: path, leaf)

/-- `Tree::find_insert` (`zbtree.cpp`). The caller's `root_path` has `MAX_TREE_LEVEL` entries; the path
here has no limit, and `FillBounds` says for which trees the array is long enough. -/
def findInsert (s : TreeState P) (key : Key) : Exec (List Cursor × Addr) :=
  if s.tempLevel = 0 then .ok ([], s.root)
  else findInsertFrom s key s.tempLevel s.root

/-- The descent that `find` and `update` (`zbtree.cpp`) spell out; nothing is recorded. A node without
separators is a fault here too, where the source stays on it. -/
def descendFrom (s : TreeState P) (key : Key) : Nat → Addr → Exec Addr
  | 0, start => .ok start
  | d + 1, start => do
    let nd ← deref (s.innerHeap start)
    let (_, child) ← deref (routeChild nd key)
    descendFrom s key d child

/-! ### find -/

/-- The root-leaf case of `find`: all slots are looked at, used or not. -/
def findRoot [Pmem P] (p : P) (m : DLeaf) (key : Key) : Nat → Nat → Exec Word
  | 0, _ => .ok 0
  | n + 1, i =>
    if (m.fingerPrint i).hashByte = hashfunc key then do
      let k ← deref (logKey p (m.fingerPrint i).ptrField.toNat)
      if k = key then deref (logVal p (m.fingerPrint i).ptrField.toNat)
      else findRoot p m key n (i + 1)
    else findRoot p m key n (i + 1)

/-- The fingerprint search of `find`: the matching slot and the value read for it,
from the inline pair when the slot has one, from the log record otherwise. -/
def findSlots [Pmem P] (p : P) (m : DLeaf) (key : Key) : Nat → Nat → Exec (Option (Nat × Word))
  | 0, _ => .ok none
  | n + 1, i =>
    let slot := m.fingerPrint i
    if slot.hashByte = hashfunc key then
      if m.maxUse ≤ slot.controlBit.toNat then
        if (m.fingerPrint slot.controlBit.toNat).val = key then
          .ok (some (i, (m.fingerPrint (slot.controlBit.toNat + 1)).val))
        else findSlots p m key n (i + 1)
      else do
        let k ← deref (logKey p slot.ptrField.toNat)
        if k = key then do
          let v ← deref (logVal p slot.ptrField.toNat)
          return some (i, v)
        else findSlots p m key n (i + 1)
    else findSlots p m key n (i + 1)

/-- `if (access_bit < 3) access_bit++;` on slot `i`. -/
def DLeaf.touch (m : DLeaf) (i : Nat) : DLeaf :=
  if (m.fingerPrint i).accessBit < 3 then
    let slot := m.fingerPrint i
    { m with fingerPrint :=
        Function.update m.fingerPrint i { slot with accessBit := slot.accessBit + 1 } }
  else m

/-- The search of the split buffer. -/
def findBuffer (buf : Nat → NodeEntry) (key : Key) : Nat → Nat → Word
  | 0, _ => 0
  | n + 1, i => if (buf i).oneKey = key then (buf i).val else findBuffer buf key n (i + 1)

/-- `find` after its descent has reached `leaf`. -/
def findExamine [Pmem P] (s : TreeState P) (key : Key) (leaf : Addr) : Exec (Word × TreeState P) := do
  let m ← deref (s.dleafHeap leaf)
  if 1 < m.tempInsert then
    let cowBuffer ← deref (s.bufHeap m.altPtr)
    return (findBuffer cowBuffer key MAX_LEAF_KEY 0, s)
  else
    match ← findSlots s.pm m key m.maxUse 0 with
    | none => return (0, s)
    | some (i, v) => return (v, s.setLeaf leaf (m.touch i))

/-- `Tree::find` (`zbtree.cpp`). -/
def find [Pmem P] (s : TreeState P) (key : Key) : Exec (Word × TreeState P) :=
  if s.tempLevel = 0 then do
    let m ← deref (s.dleafHeap s.root)
    let v ← findRoot s.pm m key MAX_LEAF_KEY 0
    return (v, s)
  else do
    let leaf ← descendFrom s key s.tempLevel s.root
    findExamine s key leaf

/-! ### insert: the leaf -/

/-- The section under the shared lock: `find_insert`, then the compare-and-swap of
`temp_insert` from 0 to 1. -/
def lockLeaf (s : TreeState P) (key : Key) : Exec (Bool × Addr × TreeState P) := do
  let (_, leaf) ← findInsert s key
  let m ← deref (s.dleafHeap leaf)
  if m.tempInsert = 0 then return (true, leaf, s.setLeaf leaf { m with tempInsert := 1 })
  else return (false, leaf, s)

/-- The search for the key among the used slots before an insertion. -/
def duplicate [Pmem P] (p : P) (m : DLeaf) (key : Key) : Nat → Nat → Exec Bool
  | 0, _ => .ok false
  | n + 1, i =>
    let slot := m.fingerPrint i
    if slot.hashByte = hashfunc key then
      if m.maxUse < slot.controlBit.toNat then
        if (m.fingerPrint slot.controlBit.toNat).val = key then .ok true
        else duplicate p m key n (i + 1)
      else do
        let k ← deref (logKey p slot.ptrField.toNat)
        if k = key then return true
        else duplicate p m key n (i + 1)
    else duplicate p m key n (i + 1)

/-- The slot that `insert` writes for a record at `kvAddr`. -/
def newSlot (key : Key) (kvAddr : Addr) : AdaptiveSlot where
  hashByte := hashfunc key
  controlBit := 0
  accessBit := 0
  ptrField := BitVec.ofNat 48 kvAddr

/-- The leaf with the slot of one more record, released. -/
def DLeaf.push (m : DLeaf) (key : Key) (kvAddr : Addr) : DLeaf :=
  { m with
    maxUse := m.maxUse + 1
    maxKey := if m.maxKey < key then key else m.maxKey
    fingerPrint := Function.update m.fingerPrint m.maxUse (newSlot key kvAddr)
    tempInsert := 0 }

/-- The branch of `insert` for a leaf with room: append the record, fill the next slot,
release the leaf. -/
def fillSlot [Pmem P] (s : TreeState P) (t : Tid) (key : Key) (val : Word) (valueLen : BitVec 32)
    (leaf : Addr) : Exec (TreeState P) := do
  let m ← deref (s.dleafHeap leaf)
  let (kvAddr, pm) ← deref (appendOne s.pm t key val m.altPtr LOG_INSERT valueLen)
  return { s with pm := pm }.setLeaf leaf (m.push key kvAddr)

/-! ### insert: splitting a full leaf

The leaf is sorted by `qsort`, record by record, and each half is laid out anew: 15 slots, and in the cells behind them
the pairs of seven of these slots. -/

/-- `compact_pos` and the slots while one half of a split leaf is laid out. -/
structure HalfState where
  slots : Nat → AdaptiveSlot
  compactPos : Nat

/-- Put the pair of entry `i` in the two free slots at the cursor. -/
def HalfState.cachePair (h : HalfState) (i : Nat) (e : NodeEntry) : HalfState where
  slots :=
    let slots := Function.update h.slots h.compactPos (AdaptiveSlot.ofVal e.val)
    let slots := Function.update slots (h.compactPos - 1) (AdaptiveSlot.ofVal e.oneKey)
    Function.update slots i
      { slots i with controlBit := BitVec.ofNat 6 (h.compactPos - 1) }
  compactPos := h.compactPos - 1 - 1

/-- First pass: copy the slots over, and cache the pairs of those read more than once. -/
def hotPass (off : Nat) (dramBuffer : Nat → AdaptiveSlot) (keys : Nat → NodeEntry)
    (h : HalfState) (i : Nat) : HalfState :=
  let h := { h with slots := Function.update h.slots i (dramBuffer (i + off)) }
  if LEFT_KEY ≤ h.compactPos - 1 ∧ 1 < (h.slots i).accessBit then h.cachePair i (keys (i + off))
  else h

/-- Second pass: cache the pairs of the others while there is room. -/
def coldPass (off : Nat) (keys : Nat → NodeEntry) (h : HalfState) (i : Nat) : HalfState :=
  if LEFT_KEY ≤ h.compactPos - 1 ∧ (h.slots i).accessBit ≤ 1 then h.cachePair i (keys (i + off))
  else h

/-- One half of `split_leaf`: `off` is `0` for the old leaf and `LEFT_KEY` for the new one. -/
def fillHalf (off : Nat) (slots : Nat → AdaptiveSlot) (dramBuffer : Nat → AdaptiveSlot)
    (keys : Nat → NodeEntry) : Nat → AdaptiveSlot :=
  let h := (List.range LEFT_KEY).foldl (hotPass off dramBuffer keys) ⟨slots, MAX_LEAF_KEY - 1⟩
  let h := if LEFT_KEY ≤ h.compactPos - 1 then (List.range LEFT_KEY).foldl (coldPass off keys) h
    else h
  h.slots

/-- The leaf that is split, after `split_leaf`. -/
def DLeaf.leftHalf (old : DLeaf) (dramBuffer : Nat → AdaptiveSlot) (keys : Nat → NodeEntry)
    (newMeta : Addr) : DLeaf :=
  { old with
    fingerPrint := fillHalf 0 old.fingerPrint dramBuffer keys
    maxUse := LEFT_KEY
    next := newMeta
    maxKey := (keys (LEFT_KEY - 1)).oneKey }

/-- The new leaf, in a block that held `junk`. -/
def DLeaf.rightHalf (old junk : DLeaf) (dramBuffer : Nat → AdaptiveSlot) (keys : Nat → NodeEntry)
    (newLeaf : Addr) : DLeaf where
  fingerPrint := fillHalf LEFT_KEY junk.fingerPrint dramBuffer keys
  maxUse := RIGHT_KEY
  tempInsert := 0
  next := old.next
  altPtr := newLeaf
  maxKey := (keys (MAX_LEAF_KEY - 1)).oneKey

section Halves

variable (old junk : DLeaf) (dramBuffer : Nat → AdaptiveSlot) (keys : Nat → NodeEntry) (a : Addr)

@[simp] theorem DLeaf.leftHalf_next : (old.leftHalf dramBuffer keys a).next = a := by
  simp only [leftHalf]

@[simp] theorem DLeaf.leftHalf_maxUse : (old.leftHalf dramBuffer keys a).maxUse = LEFT_KEY := by
  simp only [leftHalf]

@[simp] theorem DLeaf.leftHalf_tempInsert :
    (old.leftHalf dramBuffer keys a).tempInsert = old.tempInsert := by
  simp only [leftHalf]

@[simp] theorem DLeaf.leftHalf_altPtr :
    (old.leftHalf dramBuffer keys a).altPtr = old.altPtr := by
  simp only [leftHalf]

@[simp] theorem DLeaf.rightHalf_next :
    (old.rightHalf junk dramBuffer keys a).next = old.next := by
  simp only [rightHalf]

@[simp] theorem DLeaf.rightHalf_maxUse :
    (old.rightHalf junk dramBuffer keys a).maxUse = RIGHT_KEY := by
  simp only [rightHalf]

@[simp] theorem DLeaf.rightHalf_tempInsert :
    (old.rightHalf junk dramBuffer keys a).tempInsert = 0 := by
  simp only [rightHalf]

@[simp] theorem DLeaf.rightHalf_altPtr :
    (old.rightHalf junk dramBuffer keys a).altPtr = a := by
  simp only [rightHalf]

end Halves

/-- The four lines of `split_leaf` on the two `P_Leaf`s. -/
def linkPleaf [Pmem P] (pm : P) (pl newLeaf : Addr) (maxKey newMaxKey : Key) : Exec P := do
  let leaf ← deref (pleaf pm pl)
  let pm ← deref (setPleaf pm newLeaf ⟨0, newMaxKey, leaf.next⟩)
  let leaf ← deref (pleaf pm pl)
  deref (setPleaf pm pl ⟨leaf.versionField + 1, maxKey, newLeaf⟩)

/-- `Tree::split_leaf` (`zbtree.cpp`); returns the new leaf. -/
def splitLeaf [Pmem P] (s : TreeState P) (t : Tid) (pl : Addr) (leaf : Addr)
    (dramBuffer : Nat → AdaptiveSlot) (keys : Nat → NodeEntry) : Exec (Addr × TreeState P) := do
  let (newLeaf, pm) ← deref (nAllocate s.pm t)
  let old ← deref (s.dleafHeap leaf)
  let (newMeta, s) := s.mallocLeaf fun junk => old.rightHalf junk dramBuffer keys newLeaf
  let s := s.setLeaf leaf (old.leftHalf dramBuffer keys newMeta)
  let pm ← linkPleaf pm pl newLeaf (keys (LEFT_KEY - 1)).oneKey (keys (MAX_LEAF_KEY - 1)).oneKey
  return (newMeta, { s with pm := pm })

/-- The record of every used slot of a full leaf, as `insert` copies them to its stack. -/
def readEntries [Pmem P] (p : P) (m : DLeaf) : Nat → Exec (Nat → NodeEntry)
  | 0 => .ok fun _ => ⟨0, 0⟩
  | n + 1 => do
    let buf ← readEntries p m n
    let k ← deref (logKey p (m.fingerPrint n).ptrField.toNat)
    let v ← deref (logVal p (m.fingerPrint n).ptrField.toNat)
    return Function.update buf n ⟨k, v⟩

/-- `finger_buffer`: the slots without their inline pairs. -/
def DLeaf.fingerBuffer (m : DLeaf) : Nat → AdaptiveSlot :=
  fun i => { m.fingerPrint i with controlBit := 0 }

/-- The branch of `insert` for a full leaf up to the return of `split_leaf`: the new leaf,
the split key and the `P_Leaf` to put back into `alt_ptr`. -/
def splitFull [Pmem P] (s : TreeState P) (t : Tid) (leaf : Addr) :
    Exec (Addr × Key × Addr × TreeState P) := do
  let m ← deref (s.dleafHeap leaf)
  let buf ← readEntries s.pm m MAX_LEAF_KEY
  let fingerBuffer := m.fingerBuffer
  let (keys, fingers) ← bounded (qsort (2 * MAX_LEAF_KEY) 0 (MAX_LEAF_KEY - 1) buf fingerBuffer)
  let (dramBuffer, s) := s.stackBuf keys
  let s := s.setLeaf leaf { m with altPtr := dramBuffer, tempInsert := m.tempInsert + 1 }
  let (leafMeta2, s) ← splitLeaf s t m.altPtr leaf fingers keys
  return (leafMeta2, (keys SPLIT_POS).oneKey, m.altPtr, s)

/-! ### insert: the inner nodes

Fifteen separators stay in a node that overflows and fifteen go to the new one; the one between goes up. Cells that
the source fills with `memset` are filled here as well, since later code reads some of them. -/

/-- `memset` of `n` words from index `lo` on to the byte `w` is made of. -/
def fillWords {α : Type} (lo n : Nat) (w : α) (a : Nat → α) : Nat → α :=
  fun i => if lo ≤ i ∧ i < lo + n then w else a i

/-- `std::copy(src + lo, src + lo + n, dst)`. -/
def copyWords {α : Type} (src : Nat → α) (lo n : Nat) (dst : Nat → α) : Nat → α :=
  fun i => if i < n then src (lo + i) else dst i

/-- The first half of a round of `splitInnerNode`: shift the entries after the cursor up
and write the new one. -/
def InnerNode.insertEntry (nd : InnerNode) (pos : Int) (key : Key) (right : Addr) : InnerNode :=
  if pos = -1 then
    { nd with
      nodeKey1 := Function.update (Arrays.shiftUp 0 nd.maxSize nd.nodeKey1) 0 right
      nodeKey0 := Function.update (Arrays.shiftUp 0 nd.maxSize nd.nodeKey0) 0 key
      maxSize := nd.maxSize + 1 }
  else if pos = nd.maxSize - 1 then
    { nd with
      nodeKey1 := Function.update nd.nodeKey1 (pos.toNat + 1) right
      nodeKey0 := Function.update nd.nodeKey0 (pos.toNat + 1) key
      maxSize := nd.maxSize + 1 }
  else
    { nd with
      nodeKey1 := Function.update
        (Arrays.shiftUp (pos.toNat + 1) nd.maxSize nd.nodeKey1) (pos.toNat + 1) right
      nodeKey0 := Function.update
        (Arrays.shiftUp (pos.toNat + 1) nd.maxSize nd.nodeKey0) (pos.toNat + 1) key
      maxSize := nd.maxSize + 1 }

/-- The right half of an overfull node, in a block that held `junk`. -/
def InnerNode.splitRight (nd junk : InnerNode) : InnerNode where
  leftMostPtr := nd.nodeKey1 (SPLIT_POS + 1)
  maxSize := RIGHT_KEY
  versionField := 0
  nodeKey0 := copyWords nd.nodeKey0 (LEFT_KEY + 1) (MAX_LEAF_KEY - LEFT_KEY)
    (fillWords RIGHT_KEY (LEFT_KEY + 1) (BitVec.allOnes 64) junk.nodeKey0)
  nodeKey1 := copyWords nd.nodeKey1 (LEFT_KEY + 1) (MAX_LEAF_KEY - LEFT_KEY) junk.nodeKey1

/-- What stays of an overfull node. -/
def InnerNode.splitLeft (nd : InnerNode) : InnerNode :=
  { nd with
    nodeKey0 := fillWords LEFT_KEY LEFT_KEY (BitVec.allOnes 64) nd.nodeKey0
    nodeKey1 := fillWords LEFT_KEY LEFT_KEY 0 nd.nodeKey1
    maxSize := LEFT_KEY
    versionField := nd.versionField + 1 }

/-- A root with one separator, in a block that held `junk`. -/
def InnerNode.newRoot (left : Addr) (key : Key) (right : Addr) (junk : InnerNode) : InnerNode where
  leftMostPtr := left
  maxSize := 1
  versionField := 0
  nodeKey0 := Function.update
    (fillWords 0 (MAX_LEAF_KEY + 1) (BitVec.allOnes 64) junk.nodeKey0) 0 key
  nodeKey1 := Function.update junk.nodeKey1 0 right

/-- One round of `splitInnerNode` without the root case: the separator and the right
pointer to carry to the level above, if the node overflowed. -/
def splitLevel (s : TreeState P) (c : Cursor) (key : Key) (right : Addr) :
    Exec (TreeState P × Option (Key × Addr)) := do
  let nd ← deref (s.innerHeap c.node)
  let nd := nd.insertEntry c.nodePos key right
  if MAX_LEAF_KEY < nd.maxSize then
    let (newNode, s) := s.mallocInner nd.splitRight
    return (s.setInner c.node nd.splitLeft, some (nd.nodeKey0 (SPLIT_POS + 1), newNode))
  else return (s.setInner c.node nd, none)

/-- Put a root with one separator above the old root. -/
def growRoot (s : TreeState P) (left : Addr) (key : Key) (right : Addr) : TreeState P :=
  let (newRoot, s) := s.mallocInner (InnerNode.newRoot left key right)
  { s with root := newRoot, tempLevel := s.tempLevel + 1 }

/-- The loop of `splitInnerNode`, on the path from the last inner node up to the root. The path is a
list, of any length; that `root_path` has `MAX_TREE_LEVEL` entries is a matter of `FillBounds`. -/
def splitInnerLoop (s : TreeState P) : List Cursor → Key → Addr → Exec (TreeState P)
  | [], _, _ => .ok s
  | c :: above, key, right => do
    match ← splitLevel s c key right with
    | (s, none) => return s
    | (s, some (upKey, upPtr)) =>
      if above.isEmpty then return growRoot s s.root upKey upPtr
      else splitInnerLoop s above upKey upPtr

/-- `Tree::splitInnerNode` (`zbtree.cpp`); its `left_ptr` is not used. -/
def splitInnerNode (s : TreeState P) (rootPath : List Cursor) (splitKey : Key) (_left right : Addr) :
    Exec (TreeState P) :=
  splitInnerLoop s rootPath.reverse splitKey right

/-- Put a new root above the leaf that was the tree, or record the new leaf in the inner
nodes on the way to the key. -/
def recordSplit (s : TreeState P) (key splitKey : Key) (leaf leaf2 : Addr) : Exec (TreeState P) :=
  if s.tempLevel = 0 then .ok (growRoot s leaf splitKey leaf2)
  else do
    let (rootPath, _) ← findInsert s key
    splitInnerNode s rootPath splitKey leaf leaf2

/-- The section under the exclusive lock: record the new leaf, then release the old one
and put its `P_Leaf` back. -/
def installSeparator (s : TreeState P) (key splitKey : Key) (leaf leaf2 insertLeaf : Addr) :
    Exec (TreeState P) := do
  let s ← recordSplit s key splitKey leaf leaf2
  let m ← deref (s.dleafHeap leaf)
  return s.setLeaf leaf { m with tempInsert := 0, altPtr := insertLeaf }

/-- `Tree::insert` (`zbtree.cpp`); the first argument bounds the number of times it goes to `restart`. -/
def insert [Pmem P] : Nat → TreeState P → Tid → Key → Word → BitVec 32 → Exec (Bool × TreeState P)
  | 0, _, _, _, _, _ => .error .spin
  | n + 1, s, t, key, val, valueLen => do
    let (lockState, leaf, s) ← lockLeaf s key
    if !lockState then insert n s t key val valueLen
    else
      let m ← deref (s.dleafHeap leaf)
      if ← duplicate s.pm m key m.maxUse 0 then return (false, s)
      else if m.maxUse < MAX_LEAF_KEY then
        let s ← fillSlot s t key val valueLen leaf
        return (true, s)
      else
        let (leaf2, splitKey, insertLeaf, s) ← splitFull s t leaf
        let s ← installSeparator s key splitKey leaf leaf2 insertLeaf
        insert n s t key val valueLen

/-! ### update -/

/-- The number of rounds of `while (search_level <= temp_level - 1)`; `temp_level` is a
`size_t`, so the bound wraps for a tree without inner nodes. -/
def updateLevels (tempLevel : Nat) : Nat := if tempLevel = 0 then 2 ^ 64 else tempLevel

/-- The slot loop of `update`, with the flag `is_updated`. A slot that has not been read
since it was filled is taken for a match on its fingerprint alone. -/
def updateSlots [Pmem P] (m : DLeaf) (t : Tid) (key : Key) (val : Word) :
    Nat → Nat → Bool → P → Exec (Bool × P)
  | 0, _, isUpdated, p => .ok (isUpdated, p)
  | n + 1, i, isUpdated, p =>
    let slot := m.fingerPrint i
    if slot.hashByte = hashfunc key then
      if slot.accessBit = 0 then do
        let (_, p) ← deref (appendOne p t key val m.altPtr LOG_UPDATE 0)
        updateSlots m t key val n (i + 1) true p
      else do
        let k ← deref (logKey p slot.ptrField.toNat)
        if k = key then do
          let p ← deref (setLogVal p slot.ptrField.toNat val)
          return (true, p)
        else updateSlots m t key val n (i + 1) isUpdated p
    else updateSlots m t key val n (i + 1) isUpdated p

/-- `update` after its descent has reached `leaf`; `none` to start again because the leaf
is being split. -/
def updateExamine [Pmem P] (s : TreeState P) (t : Tid) (key : Key) (val : Word) (leaf : Addr) :
    Exec (Option (Bool × TreeState P)) := do
  let m ← deref (s.dleafHeap leaf)
  if 1 < m.tempInsert then return none
  else
    let (isUpdated, pm) ← updateSlots m t key val m.maxUse 0 false s.pm
    return some (isUpdated, { s with pm := pm })

/-- `Tree::update` (`zbtree.cpp`); the first argument bounds the rounds on a leaf that is being split. -/
def update [Pmem P] : Nat → TreeState P → Tid → Key → Word → Exec (Bool × TreeState P)
  | 0, _, _, _, _ => .error .spin
  | n + 1, s, t, key, val => do
    let leaf ← descendFrom s key (updateLevels s.tempLevel) s.root
    match ← updateExamine s t key val leaf with
    | none => update n s t key val
    | some r => return r

/-! ### scan -/

/-- The buffer loop of `scan`: `out` are the values collected so far, and the flag says
that `scan_count` of them have been reached. -/
def scanBuffer (buf : Nat → NodeEntry) (startKey : Key) (scanCount : Nat) :
    Nat → Nat → List Word → List Word × Bool
  | 0, _, out => (out, false)
  | n + 1, i, out =>
    if startKey ≤ (buf i).oneKey then
      let out := out ++ [(buf i).val]
      if scanCount ≤ out.length then (out, true) else scanBuffer buf startKey scanCount n (i + 1) out
    else scanBuffer buf startKey scanCount n (i + 1) out

/-- The slot loop of `scan`. -/
def scanSlots [Pmem P] (p : P) (m : DLeaf) (scanCount : Nat) :
    Nat → Nat → List Word → Exec (List Word × Bool)
  | 0, _, out => .ok (out, false)
  | n + 1, i, out => do
    let v ← if m.maxUse ≤ i + LEFT_KEY + 1 ∧ i + LEFT_KEY + 1 < MAX_LEAF_KEY then
        .ok (m.fingerPrint (i + LEFT_KEY)).val
      else deref (logVal p (m.fingerPrint i).ptrField.toNat)
    let out := out ++ [v]
    if scanCount ≤ out.length then return (out, true)
    else scanSlots p m scanCount n (i + 1) out

/-- The leaf loop of `scan`; the first argument bounds the number of leaves. After a leaf
that is being split the source steps over one more leaf than it has read. -/
def scanLoop [Pmem P] (startKey : Key) (scanCount : Nat) :
    Nat → TreeState P → Addr → List Word → Exec (List Word × TreeState P)
  | 0, _, _, _ => .error .spin
  | n + 1, s, leaf, out =>
    if out.length < scanCount ∧ leaf ≠ 0 then do
      let m ← deref (s.dleafHeap leaf)
      if 1 < m.tempInsert then
        let dramBuffer ← deref (s.bufHeap m.altPtr)
        let (out, full) := scanBuffer dramBuffer startKey scanCount MAX_LEAF_KEY 0 out
        if full then return (out, s)
        else
          let sibling ← deref (s.dleafHeap m.next)
          if sibling.next = 0 then return (out, s) else scanLoop startKey scanCount n s sibling.next out
      else if m.tempInsert = 0 then
        let s := s.setLeaf leaf { m with tempInsert := 1 }
        let (out, full) ← scanSlots s.pm m scanCount m.maxUse 0 out
        let s := s.setLeaf leaf { m with tempInsert := 0 }
        if full ∨ m.next = 0 then return (out, s) else scanLoop startKey scanCount n s m.next out
      else .error .spin -- `while (1)` on a leaf that is held and never released
    else return (out, s)

/-- `Tree::scan` (`zbtree.cpp`): the values in the order in which they are written to the result. -/
def scan [Pmem P] (n : Nat) (s : TreeState P) (startKey : Key) (scanCount : Nat) :
    Exec (List Word × TreeState P) := do
  let (_, leaf) ← findInsert s startKey
  scanLoop startKey scanCount n s leaf []

/-! ### simply_remove -/

/-- The first used slot that points to a record of the key. -/
def removeSlot [Pmem P] (p : P) (m : DLeaf) (key : Key) : Nat → Nat → Exec (Option Nat)
  | 0, _ => .ok none
  | n + 1, i =>
    if (m.fingerPrint i).hashByte = hashfunc key then do
      let k ← deref (logKey p (m.fingerPrint i).ptrField.toNat)
      if k = key then return some i else removeSlot p m key n (i + 1)
    else removeSlot p m key n (i + 1)

/-- The leaf without slot `i`: the last slot takes its place. -/
def DLeaf.dropSlot (m : DLeaf) (i : Nat) : DLeaf :=
  { m with
    fingerPrint := if i = m.maxUse - 1 then m.fingerPrint
      else Function.update m.fingerPrint i (m.fingerPrint (m.maxUse - 1))
    maxUse := m.maxUse - 1 }

/-- `simply_remove` once it holds `leaf`. -/
def removeFrom [Pmem P] (s : TreeState P) (t : Tid) (key : Key) (leaf : Addr) :
    Exec (Bool × TreeState P) := do
  let m ← deref (s.dleafHeap leaf)
  match ← removeSlot s.pm m key m.maxUse 0 with
  | none => return (false, s.setLeaf leaf { m with tempInsert := 0 })
  | some i =>
    let pm ← deref (freeRecord s.pm t (m.fingerPrint i).ptrField.toNat)
    let m' := m.dropSlot i
    let pm ← if m'.maxUse = 0 then do
        let l ← deref (pleaf pm m.altPtr)
        deref (setPleaf pm m.altPtr { l with maxKey := 0, versionField := l.versionField + 1 })
      else .ok pm
    return (true, { s with pm := pm }.setLeaf leaf { m' with tempInsert := 0 })

/-- `Tree::simply_remove` (`zbtree.cpp`); the first argument bounds the tries to take the leaf. -/
def simplyRemove [Pmem P] : Nat → TreeState P → Tid → Key → Exec (Bool × TreeState P)
  | 0, _, _, _ => .error .spin
  | n + 1, s, t, key => do
    let (lockState, leaf, s) ← lockLeaf s key
    if !lockState then simplyRemove n s t key else removeFrom s t key leaf

/-! ### The constructor -/

/-- The leaf a tree starts with, in a block that held `junk`; its `next` is not set. -/
def DLeaf.first (junk : DLeaf) (newRoot : Addr) : DLeaf :=
  { junk with
    altPtr := newRoot
    maxUse := 0
    tempInsert := 0
    maxKey := 0
    fingerPrint := fillWords 0 MAX_LEAF_KEY AdaptiveSlot.zero junk.fingerPrint }

/-- `Tree::Tree` (`zbtree.cpp`), without the messages it prints. -/
def init [Pmem P] (pm : P) (t : Tid) (junkInner : Addr → InnerNode) (junkLeaf : Addr → DLeaf) :
    Exec (TreeState P) := do
  let (newRoot, pm) ← deref (nAllocate pm t)
  let l ← deref (pleaf pm newRoot)
  let pm ← deref (setPleaf pm newRoot { l with next := 0, versionField := 0 })
  let empty : TreeState P :=
    { innerHeap := fun _ => none, dleafHeap := fun _ => none, bufHeap := fun _ => none, brk := 1,
      junkInner := junkInner, junkLeaf := junkLeaf, pm := pm, root := 0, tempLevel := 0,
      leafStart := newRoot, dstart := 0 }
  let (newMeta, s) := empty.mallocLeaf fun junk => junk.first newRoot
  return { s with root := newMeta, dstart := newMeta }

end ZBTree
