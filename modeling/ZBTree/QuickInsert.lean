import ZBTree.TreeModel

/-!
# The insertion of recovery

`quick_insert` puts a record that is already in the log into the tree. It is a copy of
`insert` with three differences: it sets access bits on the way, it passes the sorted slots
through `finger_differ`, and it does not clear the `control_bit` of the slot it fills, but
that of the slot fifteen places before.
-/

namespace ZBTree

open Pmem

variable {P : Type} [Pmem P]

/-! ### finger_differ -/

/-- Two results with one fingerprint: both are marked in `temp`. -/
def differMark (array : Nat → AdaptiveSlot) (results : Nat → Nat) (i j : Nat) (temp : Nat → Bool) :
    Nat → Bool :=
  if (array (results j)).hashByte = (array (results i)).hashByte then
    Function.update (Function.update temp j true) i true
  else temp

/-- The inner loop of the first pass; it ends at the first result of the right half. -/
def differLeft (array : Nat → AdaptiveSlot) (results : Nat → Nat) (i : Nat) :
    Nat → Nat → (Nat → Bool) → (Nat → Bool)
  | 0, _, temp => temp
  | n + 1, j, temp =>
    if results j < LEFT_KEY then
      differLeft array results i n (j + 1) (differMark array results i j temp)
    else temp

/-- The inner loop of the second pass. -/
def differRight (array : Nat → AdaptiveSlot) (results : Nat → Nat) (i : Nat) :
    Nat → Nat → (Nat → Bool) → (Nat → Bool)
  | 0, _, temp => temp
  | n + 1, j, temp => differRight array results i n (j + 1) (differMark array results i j temp)

/-- The first pass over the results; it returns where the second begins. -/
def bothLeft (array : Nat → AdaptiveSlot) (results : Nat → Nat) (countResult : Nat) :
    Nat → Nat → (Nat → Bool) → Nat × (Nat → Bool)
  | 0, i, temp => (i, temp)
  | n + 1, i, temp =>
    if results i < LEFT_KEY - 1 then
      if temp i then bothLeft array results countResult n (i + 1) temp
      else bothLeft array results countResult n (i + 1)
        (differLeft array results i (countResult - (i + 1)) (i + 1) temp)
    else (i, temp)

def bothRight (array : Nat → AdaptiveSlot) (results : Nat → Nat) (countResult : Nat) :
    Nat → Nat → (Nat → Bool) → (Nat → Bool)
  | 0, _, temp => temp
  | n + 1, i, temp => bothRight array results countResult n (i + 1)
      (differRight array results i (countResult - (i + 1)) (i + 1) temp)

/-- Clear the access bit of a result that is not marked. -/
def clearFake (results : Nat → Nat) (temp : Nat → Bool) (array : Nat → AdaptiveSlot) (j : Nat) :
    Nat → AdaptiveSlot :=
  if temp j then array
  else Function.update array (results j) { array (results j) with accessBit := 0 }

/-- `finger_differ` (`zbtree.cpp`). -/
def fingerDiffer (array : Nat → AdaptiveSlot) (results : Nat → Nat) (countResult : Nat) :
    Nat → AdaptiveSlot :=
  let (i, temp) := bothLeft array results countResult (countResult - 1) 0 fun _ => false
  let temp := bothRight array results countResult (countResult - 1 - i) i temp
  (List.range countResult).foldl (clearFake results temp) array

/-- The positions whose access bit is 1, as `quick_insert` collects them. -/
def duplicateResults (fingerBuffer : Nat → AdaptiveSlot) : List Nat :=
  (List.range MAX_LEAF_KEY).filter fun i => (fingerBuffer i).accessBit = 1

/-- The sorted slots after the filter. -/
def filterDuplicates (fingerBuffer : Nat → AdaptiveSlot) : Nat → AdaptiveSlot :=
  let results := duplicateResults fingerBuffer
  if results.length ≠ 0 then fingerDiffer fingerBuffer (fun i => results.getD i 0) results.length
  else fingerBuffer

/-! ### quick_insert

`quick_insert` is the insertion of recovery: it takes the address of a record that is in the log already, and where
`insert` looks for a duplicate it filters the slots by `finger_differ`. -/

/-- The slot loop: the access bit of every other key's slot with the fingerprint is set, and
the flag says that there was one. A slot of the key itself is fatal. -/
def quickScan (p : P) (key : Key) : Nat → Nat → Bool → DLeaf → Exec (Bool × DLeaf)
  | 0, _, duplicate, m => .ok (duplicate, m)
  | n + 1, i, duplicate, m =>
    let slot := m.fingerPrint i
    if slot.hashByte = hashfunc key then do
      let k ← deref (logKey p slot.ptrField.toNat)
      if k = key then .error .abort
      else
        let m := { m with
          fingerPrint := Function.update m.fingerPrint i { slot with accessBit := 1 } }
        quickScan p key n (i + 1) true m
    else quickScan p key n (i + 1) duplicate m

/-- The leaf with one more slot, released. The new slot keeps the `control_bit` that the
cell's old word has there. -/
def DLeaf.quickFill (m : DLeaf) (key : Key) (val : Addr) (duplicate : Bool) : DLeaf :=
  let insertPos := m.maxUse
  let fingerPrint := Function.update m.fingerPrint insertPos
    { m.fingerPrint insertPos with
      hashByte := hashfunc key
      ptrField := BitVec.ofNat 48 val
      accessBit := if duplicate then 1 else 0 }
  { m with
    maxUse := m.maxUse + 1
    maxKey := if m.maxKey < key then key else m.maxKey
    fingerPrint :=
      if LEFT_KEY ≤ insertPos then
        Function.update fingerPrint (insertPos - LEFT_KEY)
          { fingerPrint (insertPos - LEFT_KEY) with controlBit := 0 }
      else fingerPrint
    tempInsert := 0 }

/-- The branch for a full leaf up to the return of `split_leaf`. -/
def quickSplit (s : TreeState P) (t : Tid) (leaf : Addr) :
    Exec (Addr × Key × Addr × TreeState P) := do
  let m ← deref (s.dleafHeap leaf)
  let buf ← readEntries s.pm m MAX_LEAF_KEY
  let fingerBuffer := m.fingerBuffer
  let (keys, fingers) ← bounded (qsort (2 * MAX_LEAF_KEY) 0 (MAX_LEAF_KEY - 1) buf fingerBuffer)
  let (dramBuffer, s) := s.stackBuf keys
  let s := s.setLeaf leaf { m with altPtr := dramBuffer, tempInsert := m.tempInsert + 1 }
  let (leafMeta2, s) ← splitLeaf s t m.altPtr leaf (filterDuplicates fingers) keys
  return (leafMeta2, (keys SPLIT_POS).oneKey, m.altPtr, s)

/-- `Tree::quick_insert` (`zbtree.cpp`) of the record whose key field is at `val`; the first argument bounds the
number of times it goes to `restart`. -/
def quickInsert : Nat → TreeState P → Tid → Key → Addr → Exec (TreeState P)
  | 0, _, _, _, _ => .error .spin
  | n + 1, s, t, key, val => do
    let (lockState, leaf, s) ← lockLeaf s key
    if !lockState then quickInsert n s t key val
    else
      let m ← deref (s.dleafHeap leaf)
      let (duplicate, m) ← quickScan s.pm key m.maxUse 0 false m
      if m.maxUse < MAX_LEAF_KEY then
        return s.setLeaf leaf (m.quickFill key val duplicate)
      else
        let (leaf2, splitKey, insertLeaf, s) ← quickSplit (s.setLeaf leaf m) t leaf
        let s ← installSeparator s key splitKey leaf leaf2 insertLeaf
        quickInsert n s t key val

/-- The root leaf that `Tree::recover` (`zbtree.cpp`) builds when it is to build the tree anew. `leaf_start` and
`dstart` are not set. -/
def recoverRoot (pm : P) (t : Tid) (junkInner : Addr → InnerNode) (junkLeaf : Addr → DLeaf)
    (leafStart dstart : Addr) : Exec (TreeState P) := do
  let empty : TreeState P :=
    { innerHeap := fun _ => none, dleafHeap := fun _ => none, bufHeap := fun _ => none, brk := 1,
      junkInner := junkInner, junkLeaf := junkLeaf, pm := pm, root := 0, tempLevel := 0,
      leafStart := leafStart, dstart := dstart }
  let (newMeta, s) := empty.mallocLeaf fun junk => { junk with maxUse := 0, tempInsert := 0, maxKey := 0 }
  let s := { s with root := newMeta }
  let m ← deref (s.dleafHeap newMeta)
  if m.altPtr = 0 then
    let (newRoot, pm) ← deref (nAllocate s.pm t)
    let l ← deref (pleaf pm newRoot)
    let pm ← deref (setPleaf pm newRoot { l with next := 0, versionField := 0 })
    return { s with pm := pm }.setLeaf newMeta { m with altPtr := newRoot }
  else return s

/-- The calls of `quick_insert` for a list of records, in order. -/
def quickRun (t : Tid) : TreeState P → List (Key × Addr) → Exec (TreeState P)
  | s, [] => .ok s
  | s, (key, val) :: rest => do
    let s ← quickInsert 2 s t key val
    quickRun t s rest

theorem quickScan_eq {p : P} {key : Key} {n i : Nat} {duplicate duplicate' : Bool} {m m' : DLeaf}
    (h : quickScan p key n i duplicate m = .ok (duplicate', m')) :
    ∃ slots, m' = { m with fingerPrint := slots } := by
  induction n generalizing i duplicate m with
  | zero =>
    cases h
    exact ⟨_, rfl⟩
  | succ n ih =>
    rw [quickScan] at h
    dsimp only at h
    split at h
    · obtain ⟨k, -, h⟩ := bind_eq_ok.mp h
      split at h
      · cases h
      · obtain ⟨slots, rfl⟩ := ih h
        exact ⟨slots, rfl⟩
    · exact ih h

end ZBTree
