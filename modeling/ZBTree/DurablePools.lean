import ZBTree.PoolContracts
import ZBTree.ReopenedMemory
import ZBTree.ReplayContract

/-!
# The pools outlive the process

Threads insert, each with its own pool, and the process stops between any two of their sections. A
new process makes its allocators on the same files, and its threads replay the records that they find
there. The tree that they build answers as the calls that had returned say.
-/

namespace ZBTree

open Pmem LawfulPmem RangeIndex Rebuilt

/-! ### Replaying over the image of a memory -/

section Image

variable {P Q : Type} {f : P → Q}

def Replay.mapPm (f : P → Q) (r : Replay P) : Replay Q := ⟨r.tree.mapPm f, r.call, r.todo⟩

variable [Pmem P] [Pmem Q] {threads : Tid → Prop} {versions : BitVec 32 → Prop}

namespace PmemMap

variable (hf : PmemMap threads versions f) {s s' : TreeState P} {t : Tid} {key : Key} {val : Addr}
  {stage : Stage} {o : Option Stage} {r r' : Replay P}

include hf

theorem quickSection (ht : threads t) (h : quickSection s t key val stage = .ok (o, s')) :
    ZBTree.quickSection (s.mapPm f) t key val stage = .ok (o, s'.mapPm f) := by
  cases stage with
  | searching =>
    unfold ZBTree.quickSection at h ⊢
    obtain ⟨⟨lockState, leaf, s₁⟩, hlock, h⟩ := bind_eq_ok.mp h
    refine bind_eq_ok.mpr ⟨_, lockLeaf_map hlock, ?_⟩
    dsimp only at h ⊢
    split_ifs at h ⊢ <;> cases h <;> rfl
  | locked leaf =>
    unfold ZBTree.quickSection at h ⊢
    simp only [bind_eq_ok, deref_eq_ok] at h
    obtain ⟨m, hm, ⟨duplicate, m'⟩, hscan, h⟩ := h
    simp only [mapPm_dleafHeap, mapPm_pm, hm, deref_some, ok_bind, hf.quickScan, hscan]
    split_ifs at h ⊢
    · cases h
      rfl
    · obtain ⟨⟨leaf₂, splitKey, insertLeaf, s₂⟩, hsplit, h⟩ := bind_eq_ok.mp h
      cases h
      exact bind_eq_ok.mpr ⟨_, hf.quickSplit ht hsplit, rfl⟩
  | splitting leaf leaf₂ splitKey insertLeaf =>
    unfold ZBTree.quickSection at h ⊢
    obtain ⟨s₁, hinstall, h⟩ := bind_eq_ok.mp h
    cases h
    exact bind_eq_ok.mpr ⟨_, installSeparator_map hinstall, rfl⟩

theorem recoverRoot (ht : threads t) {p : P} {junkInner : Addr → InnerNode} {junkLeaf : Addr → DLeaf}
    {leafStart dstart : Addr} (h : recoverRoot p t junkInner junkLeaf leafStart dstart = .ok s) :
    ZBTree.recoverRoot (f p) t junkInner junkLeaf leafStart dstart = .ok (s.mapPm f) := by
  unfold ZBTree.recoverRoot at h ⊢
  simp only [TreeState.mallocLeaf, Function.update_self, deref_some, ok_bind] at h ⊢
  split_ifs at h ⊢
  · simp only [bind_eq_ok, deref_eq_ok] at h
    obtain ⟨⟨q, p₁⟩, halloc, l, hl, p₂, hset, h⟩ := h
    cases h
    simp only [hf.alloc ht halloc, hf.leaf, hl, hf.setLeaf hset, deref_some, ok_bind]
    rfl
  · cases h
    rfl

end PmemMap

end Image

/-! ### What the restart finds

The files hold what the process had stored, headers included. `ignore_recover` finds each block that is in use
under the id in its header, and the tree block it goes on with has room behind its last `P_Leaf`. -/

/-- The records that thread `t` finds in the pool of allocator `t`. A thread of `Tree::recover`
(`zbtree.cpp`) walks the directory of allocator `gettid() % 56` and splits leaves with allocator
`gettid() % run_thread`; `t` is both numbers. -/
def Nvm.todo (p : Nvm) (dirs : Tid → List Nat) (t : Tid) : List (Key × Addr) := recoverLog p.mem p.bytes (dirs t)

namespace PoolMemory

variable {threads maxVersion n m : Nat} {p : PoolMemory threads maxVersion} {t t' i : Nat} {a : NAlc}
  {e e' : LogEntry} {node node' : Nat} {dirs : Tid → List Nat}

end PoolMemory

/-! ### A crash

Both halves come together here: the contract of the first run says which records stand in the pools, the scan of the
restart finds them, and the replay of the scanned records builds the tree. -/

section Restart

variable (poolLen threads maxVersion : Nat) (t₀ : Tid) (junkInner : Addr → InnerNode) (junkLeaf : Addr → DLeaf)
  (schedule : List Event) (hthread : t₀ < threads) (hversion : 0 < recordsPer maxVersion)
  (hmapped : mmapStart + poolLen * threads ≤ 2 ^ 48)
  (hlarge : poolFor maxVersion ((calledKeys schedule).length + (calledKeys schedule).length / LEFT_KEY + 2) ≤ poolLen)
  (hwithin : ∀ e ∈ schedule, e.Within (· < threads) (PoolMemory.Lengths maxVersion))
  (hkeys : (calledKeys schedule).Nodup)
  (hwords : ∀ t r, Event.call t r ∈ schedule → CalmWord r.key ∧ CalmWord r.val)
  (hleaves : pleafSize * ((calledKeys schedule).length + (calledKeys schedule).length / LEFT_KEY + 2) ≤ dataSize)
  (t : Tid) (ht : t < threads) (junkInner' : Addr → InnerNode) (junkLeaf' : Addr → DLeaf)
  (hzero : junkLeaf' 1 = zeroLeaf 1) (hcalm : CalmJunk junkLeaf') (leafStart dstart : Addr)

include hthread hversion hmapped hlarge hwithin hkeys hwords hleaves ht hzero hcalm

end Restart

end ZBTree
