import ZBTree.Layout
import Mathlib.Logic.Function.Basic

/-!
# The persistent allocator and the log segments

`N_alc` of `n_alc.cpp` and `DSeg` of `zbtree.cpp`, in the default build. A pool is cut
into blocks of `CHUNK_SIZE` bytes behind its first kilobyte, each with a `Base_Meta`
in its first 64 bytes. The headers live in one map keyed by address, since all pools
are mapped into one address space. `release_list` is left out: nothing is ever put into
it. The two directories and the two counters of each kind are functions of the kind.
-/

namespace ZBTree

def CHUNK_SIZE : Nat := 1024 * 1024 * 64
def CHUNK_SHIFT : Nat := 26

/-- `sizeof(Base_Meta)`. -/
def baseMetaSize : Nat := 64

/-- `sizeof(Log_Node)`. -/
def logNodeSize : Nat := 32

/-- The mark in the `bitmap` of a log block that has been handed out. -/
def LOG_MARK : BitVec 32 := 114514

/-- What a block is used for: `NODE_BLK` with `nfree_list` and position 0 of the counters,
`LOG_BLK` with `nlog_list` and position 1. -/
inductive BlockKind where
  | node
  | log
deriving DecidableEq, Repr

/-- The value of `block_type`. -/
def BlockKind.code : BlockKind → BitVec 2
  | node => 1
  | log => 2

theorem BlockKind.code_injective {k k' : BlockKind} (h : k.code = k'.code) : k = k' := by
  cases k <;> cases k' <;> simp_all [code]

/-- `Base_Meta` (`n_alc.h`), the header of a block. -/
structure BaseMeta where
  startAddress : Nat
  blockId : BitVec 30
  blockType : BitVec 2
  bitmap : BitVec 32
deriving DecidableEq, Repr

def BaseMeta.zero : BaseMeta := ⟨0, 0, 0, 0⟩

abbrev Headers := Nat → BaseMeta

/-- An `N_alc`. An entry of a directory that holds a null pointer is not told apart from a
missing one. -/
structure NAlc where
  list : BlockKind → BitVec 32 → Option Nat
  pageId : BlockKind → BitVec 32
  decisionId : BlockKind → BitVec 32
  startAddress : Nat
  endAddress : Nat

namespace NAlc

/-- `list[id] = header`, or `list.erase(id)` for `none`. -/
def setEntry (a : NAlc) (kind : BlockKind) (id : BitVec 32) (header : Option Nat) : NAlc :=
  { a with list := Function.update a.list kind (Function.update (a.list kind) id header) }

/-- `page_id[pos]++`. -/
def nextPage (a : NAlc) (kind : BlockKind) : NAlc :=
  { a with pageId := Function.update a.pageId kind (a.pageId kind + 1) }

/-- `decision_id[pos]++`. -/
def nextDecision (a : NAlc) (kind : BlockKind) : NAlc :=
  { a with decisionId := Function.update a.decisionId kind (a.decisionId kind + 1) }

/-- The header of a block that has just been cut. -/
def newChunk (a : NAlc) (kind : BlockKind) : BaseMeta where
  startAddress := a.endAddress + baseMetaSize
  blockId := (a.pageId kind).setWidth 30
  blockType := kind.code
  bitmap := 0

/-- One round of `get_more_chunk`. -/
def cutChunk (a : NAlc) (m : Headers) (kind : BlockKind) : NAlc × Headers :=
  ({ (a.setEntry kind (a.pageId kind) (some a.endAddress)).nextPage kind with
      endAddress := a.endAddress + CHUNK_SIZE },
    Function.update m a.endAddress (a.newChunk kind))

/-- `N_alc::get_more_chunk` (`n_alc.cpp`). -/
def getMoreChunk : Nat → NAlc → Headers → BlockKind → NAlc × Headers
  | 0, a, m, _ => (a, m)
  | n + 1, a, m, kind =>
    let (a, m) := a.cutChunk m kind
    getMoreChunk n a m kind

/-- `N_alc::get_free_block` (`n_alc.cpp`); `none` is the null pointer. -/
def getFreeBlock (a : NAlc) (m : Headers) (kind : BlockKind) : Option Nat × NAlc × Headers :=
  match a.list kind (a.decisionId kind) with
  | some header => (some header, a, m)
  | none =>
    let (a, m) := getMoreChunk 4 a m kind
    (a.list kind (a.decisionId kind), a, m)

/-- The test of `n_allocate` for a tree block without enough room, on 32-bit unsigned words. -/
def lacksRoom (header : BaseMeta) (sz : BitVec 32) : Prop :=
  CHUNK_SIZE - baseMetaSize < (header.bitmap + sz).toNat

instance (header : BaseMeta) (sz : BitVec 32) : Decidable (lacksRoom header sz) :=
  inferInstanceAs (Decidable (_ < _))

/-- `N_alc::n_allocate(sz)` (`n_alc.cpp`): a piece of a tree block. -/
def nAllocateTree (a : NAlc) (m : Headers) (sz : BitVec 32) : Option (Nat × NAlc × Headers) := do
  let freeBlock ← a.list .node (a.decisionId .node)
  let (freeBlock, a, m) ←
    if lacksRoom (m freeBlock) sz then do
      let (freeBlock, a, m) := (a.nextDecision .node).getFreeBlock m .node
      let freeBlock ← freeBlock
      some (freeBlock, a,
        Function.update m freeBlock { m freeBlock with blockType := BlockKind.node.code })
    else some (freeBlock, a, m)
  let header := m freeBlock
  return (header.startAddress + header.bitmap.toNat, a,
    Function.update m freeBlock { header with bitmap := header.bitmap + sz })

/-- `N_alc::n_allocate(sz, 1)` (`n_alc.cpp`): a whole log block, whatever `sz` is. -/
def nAllocateLog (a : NAlc) (m : Headers) (_sz : BitVec 32) : Option (Nat × NAlc × Headers) := do
  let (freeBlock, a, m) := a.getFreeBlock m .log
  let a := a.nextDecision .log
  let freeBlock ← freeBlock
  let header := m freeBlock
  return (header.startAddress + header.bitmap.toNat, a,
    Function.update m freeBlock
      { header with
        blockType := BlockKind.log.code
        blockId := (a.decisionId .log).setWidth 30
        bitmap := LOG_MARK })

/-- The header that `n_free` computes for a pointer; unsigned 64-bit arithmetic. -/
def freeAddress (a : NAlc) (ptr : Nat) : Nat :=
  (a.startAddress + 1024 +
    (ptr / 2 ^ CHUNK_SHIFT + 2 ^ 64 - (a.startAddress + 1024) / 2 ^ CHUNK_SHIFT) * CHUNK_SIZE)
      % 2 ^ 64

/-- `N_alc::n_free(ptr, 0)` (`n_alc.cpp`): list the block again under a new id. -/
def nFree (a : NAlc) (m : Headers) (ptr : Nat) : NAlc × Headers :=
  let header := a.freeAddress ptr
  let a := a.setEntry .log ((m header).blockId.setWidth 32) none
  let m := Function.update m header
    { m header with blockId := (a.pageId .log).setWidth 30, bitmap := 0 }
  ((a.setEntry .log (a.pageId .log) (some header)).nextPage .log, m)

/-- `N_alc::init` (`n_alc.cpp`), for a pool that starts at `start`. -/
def init (start : Nat) (m : Headers) : NAlc × Headers :=
  let a : NAlc :=
    { list := fun _ _ => none, pageId := fun _ => 0, decisionId := fun _ => 0,
      startAddress := start, endAddress := start + 1024 }
  let (a, m) := getMoreChunk 4 a m .node
  getMoreChunk 4 a m .log

/-! ### What the small steps leave alone -/

variable (a : NAlc) (m : Headers) (kind kind' : BlockKind) (id : BitVec 32) (h : Option Nat)

@[simp] theorem setEntry_pageId : (a.setEntry kind id h).pageId = a.pageId := rfl
@[simp] theorem setEntry_decisionId : (a.setEntry kind id h).decisionId = a.decisionId := rfl
@[simp] theorem setEntry_startAddress : (a.setEntry kind id h).startAddress = a.startAddress := rfl
@[simp] theorem setEntry_endAddress : (a.setEntry kind id h).endAddress = a.endAddress := rfl
@[simp] theorem nextPage_list : (a.nextPage kind).list = a.list := rfl
@[simp] theorem nextPage_decisionId : (a.nextPage kind).decisionId = a.decisionId := rfl
@[simp] theorem nextPage_startAddress : (a.nextPage kind).startAddress = a.startAddress := rfl
@[simp] theorem nextPage_endAddress : (a.nextPage kind).endAddress = a.endAddress := rfl
@[simp] theorem nextDecision_list : (a.nextDecision kind).list = a.list := rfl
@[simp] theorem nextDecision_pageId : (a.nextDecision kind).pageId = a.pageId := rfl
@[simp] theorem nextDecision_startAddress :
    (a.nextDecision kind).startAddress = a.startAddress := rfl
@[simp] theorem nextDecision_endAddress : (a.nextDecision kind).endAddress = a.endAddress := rfl

theorem setEntry_list : (a.setEntry kind id h).list =
    Function.update a.list kind (Function.update (a.list kind) id h) := rfl

@[simp] theorem setEntry_list_self (i : BitVec 32) :
    (a.setEntry kind id h).list kind i = if i = id then h else a.list kind i := by
  simp [setEntry_list, Function.update_apply]

theorem setEntry_list_of_ne (hne : kind' ≠ kind) :
    (a.setEntry kind id h).list kind' = a.list kind' := by
  simp [setEntry_list, hne]

@[simp] theorem nextDecision_decisionId_self :
    (a.nextDecision kind).decisionId kind = a.decisionId kind + 1 := by
  simp [nextDecision]

theorem nextDecision_decisionId_of_ne (hne : kind' ≠ kind) :
    (a.nextDecision kind).decisionId kind' = a.decisionId kind' := by
  simp [nextDecision, hne]

end NAlc

/-! ### Log segments

A thread appends to one segment at a time. `append_one` takes a new block of its allocator when the next record
would reach `log_end`; the offset then starts again at 0. -/

/-- A `DSeg` (`zbtree.h`); `logVec` is `0` before the first segment. -/
structure DSeg where
  tempOffset : Nat
  logVec : Nat
  vecStart : Nat

/-- `DSeg::log_end`. -/
def DSeg.logEnd : Nat := CHUNK_SIZE - 64

/-- A `DSeg` as its constructor leaves it. -/
def DSeg.empty : DSeg := ⟨0, 0, 0⟩

/-- The test of `append_one` for a segment that is full or missing. -/
def DSeg.needsSegment (seg : DSeg) (version : BitVec 32) : Prop :=
  logEnd ≤ seg.tempOffset + logNodeSize + version.toNat ∨ seg.logVec = 0

instance (seg : DSeg) (version : BitVec 32) : Decidable (seg.needsSegment version) :=
  inferInstanceAs (Decidable (_ ∨ _))

/-- The size `append_one` asks a segment with. -/
def segmentSize : BitVec 32 := BitVec.ofNat 32 (CHUNK_SIZE - 64 * 2)

/-- `DSeg::resize` (`zbtree.cpp`) and the two lines of `append_one` after it. -/
def DSeg.resize (a : NAlc) (m : Headers) : Option (DSeg × NAlc × Headers) := do
  let (logStart, a, m) ← a.nAllocateLog m segmentSize
  return (⟨0, logStart, logStart⟩, a, m)

/-- `DSeg::append_one` (`zbtree.cpp`) up to the stores into the record: the address of the record. -/
def DSeg.appendOne (seg : DSeg) (a : NAlc) (m : Headers) (version : BitVec 32) :
    Option (Nat × DSeg × NAlc × Headers) := do
  let (seg, a, m) ← if seg.needsSegment version then DSeg.resize a m else some (seg, a, m)
  return (seg.vecStart,
    { seg with vecStart := seg.vecStart + logNodeSize, tempOffset := seg.tempOffset + logNodeSize },
    a, m)

end ZBTree
