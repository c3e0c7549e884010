import ZBTree.Directory
import ZBTree.PmemRuns
import ZBTree.StructLayout

/-!
# Persistent memory as the allocators lay it out

`Nvm` is the persistent memory that the tree runs on: one pool, one `N_alc` and one `DSeg`
for each thread, all pools mapped behind `mmap_start`. Pools start out filled with zeros.
The block headers are kept apart from the bytes of the log records and from the `P_Leaf`s;
they never share bytes as long as the header that `n_free` computes is one.
-/

namespace ZBTree

/-- `mmap_start`. -/
def mmapStart : Nat := 0x50000000

/-- `sizeof(P_Leaf)`. -/
def pLeafSize : BitVec 32 := 32

/-- Offset of the key in a `Log_Node`. -/
def logKeyOffset : Nat := 16

namespace NAlc

/-- The header is that of a block that was cut for this kind in the pool. -/
structure Cut (a : NAlc) (m : Headers) (kind : BlockKind) (header : Nat) : Prop where
  in_row : ∃ i, header = blockAt a.startAddress i
  below : header < a.endAddress
  code : (m header).blockType = kind.code

theorem in_row_iff {start header : Nat} : (∃ i, header = blockAt start i) ↔
    start + 1024 ≤ header ∧ (header - (start + 1024)) % CHUNK_SIZE = 0 := by
  constructor
  · rintro ⟨i, rfl⟩
    unfold blockAt
    rw [Nat.add_sub_cancel_left, Nat.mul_mod_left]
    exact ⟨Nat.le_add_right _ _, rfl⟩
  · rintro ⟨hle, hmod⟩
    refine ⟨(header - (start + 1024)) / CHUNK_SIZE, ?_⟩
    rw [blockAt, Nat.div_mul_cancel (Nat.dvd_of_mod_eq_zero hmod)]
    omega

instance (a : NAlc) (m : Headers) (kind : BlockKind) (header : Nat) :
    Decidable (a.Cut m kind header) :=
  decidable_of_iff
    ((a.startAddress + 1024 ≤ header ∧ (header - (a.startAddress + 1024)) % CHUNK_SIZE = 0) ∧
      header < a.endAddress ∧ (m header).blockType = kind.code)
    ⟨fun h => ⟨in_row_iff.mpr h.1, h.2.1, h.2.2⟩, fun h => ⟨in_row_iff.mp h.in_row, h.below, h.code⟩⟩

/-- Four blocks can be cut inside the pool, and the ids that log blocks get are unused. -/
def RoomFor (a : NAlc) (poolLen : Nat) (kind : BlockKind) : Prop :=
  a.endAddress + 4 * CHUNK_SIZE ≤ a.startAddress + poolLen ∧
    (kind = .log → ∀ i, i < 4 → a.list .log (a.pageId .log + BitVec.ofNat 32 i) = none)

/-- What `get_free_block` needs. -/
def MayCut (a : NAlc) (poolLen : Nat) (kind : BlockKind) : Prop :=
  a.list kind (a.decisionId kind) = none → a.RoomFor poolLen kind

instance (a : NAlc) (poolLen : Nat) (kind : BlockKind) : Decidable (a.MayCut poolLen kind) :=
  inferInstanceAs (Decidable (_ → _ ∧ (_ → ∀ i, i < 4 → _)))

/-- What `n_allocate(sz)` needs. -/
def MayAllocate (a : NAlc) (m : Headers) (poolLen : Nat) (sz : BitVec 32) : Prop :=
  match a.list .node (a.decisionId .node) with
  | none => True
  | some freeBlock => lacksRoom (m freeBlock) sz → (a.nextDecision .node).MayCut poolLen .node

instance (a : NAlc) (m : Headers) (poolLen : Nat) (sz : BitVec 32) :
    Decidable (a.MayAllocate m poolLen sz) :=
  match h : a.list .node (a.decisionId .node) with
  | none => isTrue (by rw [MayAllocate, h]; trivial)
  | some freeBlock =>
    decidable_of_iff
      (lacksRoom (m freeBlock) sz → (a.nextDecision .node).MayCut poolLen .node)
      (by rw [MayAllocate, h])

/-- The two entries that `n_free` overwrites. -/
def Overwrites (a : NAlc) (m : Headers) (header : Nat) (id : BitVec 32) : Prop :=
  id = (m header).blockId.setWidth 32 ∨ id = a.pageId .log

instance (a : NAlc) (m : Headers) (header : Nat) (id : BitVec 32) :
    Decidable (a.Overwrites m header id) := inferInstanceAs (Decidable (_ ∨ _))

/-- The block listed under an overwritten id is the freed one, or it has another entry. -/
def Spares (a : NAlc) (m : Headers) (header : Nat) (id : BitVec 32) : Prop :=
  match a.list .log id with
  | none => True
  | some other => other = header ∨
      ∃ id', ¬ a.Overwrites m header id' ∧ a.list .log id' = some other

instance (a : NAlc) (m : Headers) (header : Nat) (id : BitVec 32) :
    Decidable (a.Spares m header id) :=
  match h : a.list .log id with
  | none => isTrue (by rw [Spares, h]; trivial)
  | some other =>
    decidable_of_iff
      (other = header ∨ ∃ id', ¬ a.Overwrites m header id' ∧ a.list .log id' = some other)
      (by rw [Spares, h])

/-- What `n_free(ptr)` needs: the header it computes is that of a log block of the pool, and
no other block is listed under the overwritten ids alone. -/
def MayFree (a : NAlc) (m : Headers) (ptr : Nat) : Prop :=
  a.Cut m .log (a.freeAddress ptr) ∧
    a.Spares m (a.freeAddress ptr) ((m (a.freeAddress ptr)).blockId.setWidth 32) ∧
    a.Spares m (a.freeAddress ptr) (a.pageId .log)

instance (a : NAlc) (m : Headers) (ptr : Nat) : Decidable (a.MayFree m ptr) :=
  inferInstanceAs (Decidable (_ ∧ _ ∧ _))

end NAlc

/-- `careful` is a ghost that says whether each call of an allocator so far met, in the state
before it, what the call needs. -/
structure Nvm where
  poolLen : Nat
  mem : Headers
  bytes : Bytes
  pleaves : Nat → PLeaf
  managers : Tid → Option NAlc
  workers : Tid → DSeg
  globalId : Nat
  careful : Bool

namespace Nvm

/-- Files that have just been allocated; `pm_pool_size` is `poolLen`. -/
def fresh (poolLen : Nat) : Nvm where
  poolLen := poolLen
  mem := fun _ => BaseMeta.zero
  bytes := fun _ => 0
  pleaves := fun _ => ⟨0, 0, 0⟩
  managers := fun _ => none
  workers := fun _ => DSeg.empty
  globalId := 0
  careful := true

/-- The `n` bytes from `a` on lie in the pools that are mapped. -/
def Mapped (p : Nvm) (a n : Nat) : Prop :=
  mmapStart ≤ a ∧ a + n ≤ mmapStart + p.poolLen * p.globalId

instance (p : Nvm) (a n : Nat) : Decidable (p.Mapped a n) := inferInstanceAs (Decidable (_ ∧ _))

/-- `mmanagers[tid]`, created when the thread first needs it. -/
def manager (p : Nvm) (t : Tid) : NAlc × Nvm :=
  match p.managers t with
  | some a => (a, p)
  | none =>
    let (a, m) := NAlc.init (mmapStart + p.poolLen * p.globalId) p.mem
    (a, { p with
      managers := Function.update p.managers t (some a)
      mem := m
      globalId := p.globalId + 1
      careful := p.careful && decide (1024 + 8 * CHUNK_SIZE ≤ p.poolLen) })

/-- The allocator of a thread and the headers after one of its calls, which needed `c`. -/
def store (p : Nvm) (t : Tid) (a : NAlc) (m : Headers) (c : Prop) [Decidable c] : Nvm :=
  { p with
    managers := Function.update p.managers t (some a)
    mem := m
    careful := p.careful && decide c }

/-- `workers[tid]->resize`. -/
def resize (p : Nvm) (t : Tid) : Option Nvm := do
  let (a, p) := p.manager t
  let (seg, a', m) ← DSeg.resize a p.mem
  return { p.store t a' m (a.MayCut p.poolLen .log) with
    workers := Function.update p.workers t seg }

/-- The first lines of `append_one`: a new segment if the old one is full or missing. -/
def openSegment (p : Nvm) (t : Tid) (version : BitVec 32) : Option Nvm :=
  if (p.workers t).needsSegment version then p.resize t else some p

/-- The stores into a `Log_Node`. -/
def writeLogNode (o : Bytes) (node : Nat) (key : Key) (val : Word) (pptr : Addr) (op : BitVec 8)
    (version : BitVec 32) : Bytes :=
  let o := o.put32 (node + 4) version
  let o := o.put64 (node + 8) (BitVec.ofNat 64 pptr)
  let o := o.put8 (node + 2) op
  let o := o.put64 (node + logKeyOffset) key
  o.put64 (node + logKeyOffset + 8) val

/-- The lines of `append_one` that write the record. -/
def appendTo (p : Nvm) (t : Tid) (key : Key) (val : Word) (pptr : Addr) (op : BitVec 8)
    (version : BitVec 32) : Option (Nat × Nvm) :=
  let seg := p.workers t
  if p.Mapped seg.vecStart logNodeSize then
    some (seg.vecStart + logKeyOffset,
      { p with
        bytes := writeLogNode p.bytes seg.vecStart key val pptr op version
        workers := Function.update p.workers t
          { seg with
            vecStart := seg.vecStart + logNodeSize
            tempOffset := seg.tempOffset + logNodeSize } })
  else none

instance : Pmem Nvm where
  appendOne p t key val pptr op version := do
    let p ← p.openSegment t version
    p.appendTo t key val pptr op version
  logKey p a := if p.Mapped a 8 then some (p.bytes.get64 a) else none
  logVal p a := if p.Mapped (a + 8) 8 then some (p.bytes.get64 (a + 8)) else none
  setLogVal p a v :=
    if p.Mapped (a + 8) 8 then some { p with bytes := p.bytes.put64 (a + 8) v } else none
  freeRecord p t kvPtr :=
    -- `(uint32_t*)kv_ptr - 16`: 64 bytes below the key
    if 64 ≤ kvPtr ∧ p.Mapped (kvPtr - 64) 4 then
      let logStart := kvPtr - 64
      let p := { p with bytes := p.bytes.put32 logStart 0 }
      let (a, p) := p.manager t
      if p.Mapped (a.freeAddress logStart) baseMetaSize then
        let (a', m) := a.nFree p.mem logStart
        some (p.store t a' m (a.MayFree p.mem logStart))
      else none
    else none
  nAllocate p t := do
    let (a, p) := p.manager t
    let (q, a', m) ← a.nAllocateTree p.mem pLeafSize
    return (q, p.store t a' m (a.MayAllocate p.mem p.poolLen pLeafSize))
  pleaf p q := if p.Mapped q 32 then some (p.pleaves q) else none
  setPleaf p q l :=
    if p.Mapped q 32 then some { p with pleaves := Function.update p.pleaves q l } else none

/-! ### What the accesses do

Every access either leaves the allocators alone or calls one of them. The lemmas name the fields that stay, so that
an invariant about the blocks need not look at the records. -/

section Accesses

open Pmem

variable {p p' : Nvm} {t : Tid} {q addr : Addr}

theorem appendOne_eq_some {key : Key} {val : Word} {pp : Addr} {op : BitVec 8} {version : BitVec 32} :
    appendOne p t key val pp op version = some (addr, p') ↔
      ∃ p₁, p.openSegment t version = some p₁ ∧ p₁.appendTo t key val pp op version = some (addr, p') :=
  Option.bind_eq_some_iff

theorem resize_eq_some {p₁ : Nvm} {a : NAlc} (hmanager : p.manager t = (a, p₁)) :
    p.resize t = some p' ↔ ∃ logStart a' m, a.nAllocateLog p₁.mem segmentSize = some (logStart, a', m) ∧
      p' = { p₁.store t a' m (a.MayCut p₁.poolLen .log) with
        workers := Function.update p₁.workers t ⟨0, logStart, logStart⟩ } := by
  unfold resize DSeg.resize
  simp only [hmanager, Option.bind_eq_bind, Option.bind_eq_some_iff, Option.pure_def, Option.some.injEq,
    Prod.exists, Prod.mk.injEq]
  constructor
  · rintro ⟨_, a', m, ⟨logStart, _, _, hlog, rfl, rfl, rfl⟩, rfl⟩
    exact ⟨logStart, _, _, hlog, rfl⟩
  · rintro ⟨logStart, a', m, hlog, rfl⟩
    exact ⟨_, a', m, ⟨logStart, a', m, hlog, rfl, rfl, rfl⟩, rfl⟩

theorem appendTo_eq_some {key : Key} {val : Word} {pp : Addr} {op : BitVec 8} {version : BitVec 32} :
    p.appendTo t key val pp op version = some (addr, p') ↔
      p.Mapped (p.workers t).vecStart logNodeSize ∧ addr = (p.workers t).vecStart + logKeyOffset ∧
        p' = { p with
          bytes := writeLogNode p.bytes (p.workers t).vecStart key val pp op version
          workers := Function.update p.workers t
            { p.workers t with
              vecStart := (p.workers t).vecStart + logNodeSize
              tempOffset := (p.workers t).tempOffset + logNodeSize } } := by
  unfold appendTo
  dsimp only
  rw [Option.ite_none_right_eq_some, Option.some.injEq, Prod.mk.injEq]
  exact and_congr_right fun _ => and_congr eq_comm eq_comm

theorem freeRecord_eq_some {p₁ : Nvm} {a : NAlc}
    (hmanager : manager { p with bytes := p.bytes.put32 (q - 64) 0 } t = (a, p₁)) :
    Pmem.freeRecord p t q = some p' ↔
      (64 ≤ q ∧ p.Mapped (q - 64) 4) ∧ p₁.Mapped (a.freeAddress (q - 64)) baseMetaSize ∧
        p' = p₁.store t (a.nFree p₁.mem (q - 64)).1 (a.nFree p₁.mem (q - 64)).2
          (a.MayFree p₁.mem (q - 64)) := by
  change (if 64 ≤ q ∧ p.Mapped (q - 64) 4 then _ else none) = some p' ↔ _
  rw [Option.ite_none_right_eq_some]
  dsimp only
  rw [hmanager, Option.ite_none_right_eq_some, Option.some.injEq]
  exact and_congr_right fun _ => and_congr_right fun _ => eq_comm

theorem nAllocate_eq_some {p₁ : Nvm} {a : NAlc} (hmanager : p.manager t = (a, p₁)) :
    nAllocate p t = some (q, p') ↔ ∃ a' m, a.nAllocateTree p₁.mem pLeafSize = some (q, a', m) ∧
      p' = p₁.store t a' m (a.MayAllocate p₁.mem p₁.poolLen pLeafSize) := by
  change ((p.manager t).1.nAllocateTree (p.manager t).2.mem pLeafSize >>= fun r =>
    some (r.1, (p.manager t).2.store t r.2.1 r.2.2
      ((p.manager t).1.MayAllocate (p.manager t).2.mem (p.manager t).2.poolLen pLeafSize))) =
    some (q, p') ↔ _
  rw [hmanager, Option.bind_eq_bind, Option.bind_eq_some_iff]
  constructor
  · rintro ⟨⟨q', a', m⟩, hcall, heq⟩
    cases heq
    exact ⟨a', m, hcall, rfl⟩
  · rintro ⟨a', m, hcall, rfl⟩
    exact ⟨(q, a', m), hcall, rfl⟩

theorem setPleaf_eq_some {l : PLeaf} : setPleaf p q l = some p' ↔
    p.Mapped q 32 ∧ p' = { p with pleaves := Function.update p.pleaves q l } := by
  change (if p.Mapped q 32 then _ else none) = some p' ↔ _
  rw [Option.ite_none_right_eq_some, Option.some.injEq]
  exact and_congr_right fun _ => eq_comm

end Accesses

end Nvm

end ZBTree
