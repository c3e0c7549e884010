import ZBTree.PoolRecovery
import ZBTree.StructLayout

/-!
# The leaves that recovery builds

`recover_init` and `link_ptr` build the DRAM leaves as objects of `Dummy_DLeaf2`, and the
tree reads them as `D_Leaf`. The two declarations agree up to `alt_ptr`. Behind it `D_Leaf`
has two bytes more, so what one calls `max_key` the other calls `next`, and the `max_key`
that the tree reads lies behind the end of the object.
-/

namespace ZBTree

/-! ### The two declarations -/

/-- The members of `D_Leaf`. -/
inductive DLeafMember where
  | fingerPrint
  | tempInsert
  | maxUse
  | altPtr
  | compactUse
  | compactFull
  | next
  | maxKey
deriving DecidableEq, Repr

/-- The members of `Dummy_DLeaf2` (`n_alc.h`). -/
inductive DummyMember where
  | fingerPrint
  | tempInsert
  | maxUse
  | altPtr
  | next
  | maxKey
deriving DecidableEq, Repr

def DUMMY_MAX_LEAF_KEY : Nat := 30

/-- `D_Leaf` of `zbtree.h`. -/
def dLeafDecl : StructDecl DLeafMember :=
  [(.fingerPrint, ⟨8 * MAX_LEAF_KEY, 8⟩), (.tempInsert, .byte), (.maxUse, .byte), (.altPtr, .word),
    (.compactUse, .byte), (.compactFull, .byte), (.next, .word), (.maxKey, .word)]

/-- `Dummy_DLeaf2` of `n_alc.h`. -/
def dummyDecl : StructDecl DummyMember :=
  [(.fingerPrint, ⟨8 * DUMMY_MAX_LEAF_KEY, 8⟩), (.tempInsert, .byte), (.maxUse, .byte),
    (.altPtr, .word), (.next, .word), (.maxKey, .word)]

theorem offset_agree : dummyDecl.offset .tempInsert = dLeafDecl.offset .tempInsert ∧
    dummyDecl.offset .maxUse = dLeafDecl.offset .maxUse ∧
    dummyDecl.offset .altPtr = dLeafDecl.offset .altPtr := by
  decide

theorem dummyDecl_offsets : dummyDecl.offset .tempInsert = 240 ∧ dummyDecl.offset .maxUse = 241 ∧
    dummyDecl.offset .altPtr = 248 ∧ dummyDecl.offset .next = 256 ∧
    dummyDecl.offset .maxKey = 264 ∧ dummyDecl.sizeof 8 = 272 := by
  decide

/-- `D_Leaf::next` stands where `Dummy_DLeaf2::max_key` does, and `D_Leaf::max_key` behind
the end of the object. -/
theorem offset_disagree : dLeafDecl.offset .next = dummyDecl.offset .maxKey ∧
    dLeafDecl.offset .maxKey = dummyDecl.sizeof 8 := by
  decide

/-! ### `recover_init` and `link_ptr` -/

/-- The DRAM side of recovery: the bytes of the heap, the number of `malloc` calls so far and
the hash table from `P_Leaf`s to their objects, `0` for a missing key. -/
structure Rebuilt where
  heap : Bytes
  mallocs : Nat
  clht : Nat → Nat

namespace Rebuilt

/-- `clht_put`, which leaves a key alone that is there. -/
def clhtPut (s : Rebuilt) (key value : Nat) : Rebuilt :=
  if s.clht key = 0 then { s with clht := Function.update s.clht key value } else s

/-- `sizeof(Dummy_PLeaf2)`. -/
def pleafSize : Nat := 32

/-- The `P_Leaf`s of a block, `for (int i = 0; i < bitmap; i += sizeof(Dummy_PLeaf2))`. -/
def blockLeaves (m : Headers) (header : Nat) : List Nat :=
  (List.range (((m header).bitmap.toNat + (pleafSize - 1)) / pleafSize)).map fun i =>
    header + baseMetaSize + pleafSize * i

/-- The `P_Leaf`s of an allocator, in the order in which `nfree_list` hands its ids out. -/
def nodeLeaves (m : Headers) (ids : NAlc → List (BitVec 32)) (a : NAlc) : List Nat :=
  ((ids a).filterMap (a.list .node)).flatMap (blockLeaves m)

/-- The body of the inner loop of `recover_init`; `place n` is what the `n`-th `malloc`
returns. -/
def recoverLeaf (place : Nat → Nat) (pls : Nat → PLeaf) (s : Rebuilt) (p : Nat) : Rebuilt :=
  let dleaf := place s.mallocs
  let heap := s.heap.put64 (dleaf + dummyDecl.offset .altPtr) (BitVec.ofNat 64 p)
  let heap := heap.put8 (dleaf + dummyDecl.offset .tempInsert) 0
  let heap := heap.put8 (dleaf + dummyDecl.offset .maxUse) 0
  let heap := heap.put64 (dleaf + dummyDecl.offset .maxKey) (pls p).maxKey
  { s with heap := heap, mallocs := s.mallocs + 1 }.clhtPut p dleaf

/-- The body of the inner loop of `link_ptr`. -/
def linkLeaf (pls : Nat → PLeaf) (s : Rebuilt) (p : Nat) : Rebuilt :=
  let dleaf := s.clht p
  let next := if (pls p).next ≠ 0 then s.clht (pls p).next else 0
  { s with heap := s.heap.put64 (dleaf + dummyDecl.offset .next) (BitVec.ofNat 64 next) }

/-- `N_alc::recover_init` (`n_alc.cpp`): the headers are scanned, then the leaves of the node blocks are built. -/
def recoverInit (m : Headers) (poolLen : Nat) (ids : NAlc → List (BitVec 32)) (place : Nat → Nat)
    (pls : Nat → PLeaf) (s : Rebuilt) (a : NAlc) : Rebuilt :=
  (nodeLeaves m ids (a.ignoreRecover m poolLen)).foldl (recoverLeaf place pls) s

/-- `N_alc::link_ptr` (`n_alc.cpp`) of an allocator whose headers have been scanned. -/
def linkPtr (m : Headers) (ids : NAlc → List (BitVec 32)) (pls : Nat → PLeaf) (s : Rebuilt)
    (a : NAlc) : Rebuilt :=
  (nodeLeaves m ids a).foldl (linkLeaf pls) s

/-- `recover_init` on all allocators, then `link_ptr` on all of them. -/
def recoverAll (m : Headers) (poolLen : Nat) (ids : NAlc → List (BitVec 32)) (place : Nat → Nat)
    (pls : Nat → PLeaf) (s : Rebuilt) (allocators : List NAlc) : Rebuilt :=
  (allocators.map fun a => a.ignoreRecover m poolLen).foldl (linkPtr m ids pls)
    (allocators.foldl (recoverInit m poolLen ids place pls) s)

/-- The `P_Leaf`s in the node blocks of all allocators, in the order in which they are met. -/
def allLeaves (m : Headers) (poolLen : Nat) (ids : NAlc → List (BitVec 32))
    (allocators : List NAlc) : List Nat :=
  (allocators.map fun a => a.ignoreRecover m poolLen).flatMap (nodeLeaves m ids)

theorem recoverAll_eq (m : Headers) (poolLen : Nat) (ids : NAlc → List (BitVec 32))
    (place : Nat → Nat) (pls : Nat → PLeaf) (s : Rebuilt) (allocators : List NAlc) :
    recoverAll m poolLen ids place pls s allocators =
      (allLeaves m poolLen ids allocators).foldl (linkLeaf pls)
        ((allLeaves m poolLen ids allocators).foldl (recoverLeaf place pls) s) := by
  unfold recoverAll allLeaves
  simp only [List.foldl_flatMap, List.foldl_map]
  rfl

/-! ### What the tree reads

The allocator writes through `Dummy_DLeaf2` and the tree reads through `D_Leaf`. The offsets of the members decide
which bytes the two agree on: all up to `alt_ptr`, and none of `next` and `max_key`. -/

/-- A leaf as `bulkload`, `log_insert` and `find` see it. -/
structure LeafView where
  altPtr : BitVec 64
  maxUse : BitVec 8
  tempInsert : BitVec 8
  maxKey : Key
  next : BitVec 64
deriving DecidableEq

/-- The object `clht_get(p)`, read through `D_Leaf`. -/
def view (s : Rebuilt) (p : Nat) : LeafView where
  altPtr := s.heap.get64 (s.clht p + dLeafDecl.offset .altPtr)
  maxUse := s.heap (s.clht p + dLeafDecl.offset .maxUse)
  tempInsert := s.heap (s.clht p + dLeafDecl.offset .tempInsert)
  maxKey := s.heap.get64 (s.clht p + dLeafDecl.offset .maxKey)
  next := s.heap.get64 (s.clht p + dLeafDecl.offset .next)

/-- What the tree should see of the `P_Leaf` at `p`. -/
def leafOf (s : Rebuilt) (pls : Nat → PLeaf) (p : Nat) : LeafView where
  altPtr := BitVec.ofNat 64 p
  maxUse := 0
  tempInsert := 0
  maxKey := (pls p).maxKey
  next := BitVec.ofNat 64 (if (pls p).next ≠ 0 then s.clht (pls p).next else 0)

/-- Objects of `Dummy_DLeaf2` at the addresses `place n`, none of them the null pointer. -/
structure Mallocs (place : Nat → Nat) : Prop where
  ne_zero : ∀ n, place n ≠ 0
  apart : ∀ n n', n ≠ n' → place n + dummyDecl.sizeof 8 ≤ place n' ∨
    place n' + dummyDecl.sizeof 8 ≤ place n

/-- The object that belongs to `p` when the leaves are built in the order `leaves`. -/
def objectOf (place : Nat → Nat) (leaves : List Nat) (p : Nat) : Nat :=
  if p ∈ leaves then place (leaves.idxOf p) else 0

theorem objectOf_of_mem {place : Nat → Nat} {leaves : List Nat} {p : Nat} (hp : p ∈ leaves) :
    objectOf place leaves p = place (leaves.idxOf p) := if_pos hp

theorem objectOf_concat_of_mem {place : Nat → Nat} {leaves : List Nat} {p : Nat} (q : Nat)
    (hp : p ∈ leaves) : objectOf place (leaves ++ [q]) p = objectOf place leaves p := by
  rw [objectOf_of_mem hp, objectOf_of_mem (List.mem_append_left _ hp),
    List.idxOf_append_of_mem hp]

theorem objectOf_concat_of_ne {place : Nat → Nat} {leaves : List Nat} {p q : Nat} (hne : p ≠ q) :
    objectOf place (leaves ++ [q]) p = objectOf place leaves p := by
  by_cases hp : p ∈ leaves
  · exact objectOf_concat_of_mem q hp
  · have hnot : p ∉ leaves ++ [q] := by
      intro hmem
      cases List.mem_append.mp hmem with
      | inl hp' => exact hp hp'
      | inr hq => exact hne (List.mem_singleton.mp hq)
    rw [objectOf, if_neg hnot, objectOf, if_neg hp]

theorem objectOf_concat_self {place : Nat → Nat} {leaves : List Nat} {q : Nat}
    (hq : q ∉ leaves) : objectOf place (leaves ++ [q]) q = place leaves.length := by
  rw [objectOf_of_mem (List.mem_append_right _ List.mem_cons_self),
    List.idxOf_append_of_notMem hq, List.idxOf_cons_self, Nat.add_zero]

def Written (d k : Nat) : Prop :=
  d + dummyDecl.offset .tempInsert ≤ k ∧ k < d + dummyDecl.sizeof 8

/-- The members that `recover_init` writes, as they stand in an object. -/
structure Holds (pls : Nat → PLeaf) (heap : Bytes) (d p : Nat) : Prop where
  altPtr : heap.get64 (d + dummyDecl.offset .altPtr) = BitVec.ofNat 64 p
  maxUse : heap (d + dummyDecl.offset .maxUse) = 0
  tempInsert : heap (d + dummyDecl.offset .tempInsert) = 0
  maxKey : heap.get64 (d + dummyDecl.offset .maxKey) = (pls p).maxKey

/-- The state after the leaves `done` have been built and any of them linked. -/
structure Built (place : Nat → Nat) (pls : Nat → PLeaf) (heap₀ : Bytes) (done : List Nat)
    (s : Rebuilt) : Prop where
  mallocs : s.mallocs = done.length
  clht : s.clht = objectOf place done
  holds : ∀ p ∈ done, Holds pls s.heap (objectOf place done p) p
  behind : ∀ n, s.heap.get64 (place n + dummyDecl.sizeof 8) =
    heap₀.get64 (place n + dummyDecl.sizeof 8)

variable {place : Nat → Nat} {pls : Nat → PLeaf} {heap₀ : Bytes} {done : List Nat} {s : Rebuilt}

theorem recoverLeaf_heap (p : Nat) {k : Nat} (hk : ¬ Written (place s.mallocs) k) :
    (recoverLeaf place pls s p).heap k = s.heap k := by
  obtain ⟨htemp, huse, halt, -, hmax, hsize⟩ := dummyDecl_offsets
  have hclht : ∀ (t : Rebuilt) key value, (t.clhtPut key value).heap = t.heap := by
    intro t key value
    unfold clhtPut
    split <;> rfl
  rw [Written, htemp, hsize] at hk
  unfold recoverLeaf
  rw [hclht]
  dsimp only
  rw [htemp, huse, halt, hmax, Bytes.put64_of_outside _ _ _ _ (by omega),
    Bytes.put8_of_ne _ _ _ _ (by omega), Bytes.put8_of_ne _ _ _ _ (by omega),
    Bytes.put64_of_outside _ _ _ _ (by omega)]

theorem recoverLeaf_holds (p : Nat) :
    Holds pls (recoverLeaf place pls s p).heap (place s.mallocs) p := by
  obtain ⟨htemp, huse, halt, -, hmax, -⟩ := dummyDecl_offsets
  have hclht : ∀ (t : Rebuilt) key value, (t.clhtPut key value).heap = t.heap := by
    intro t key value
    unfold clhtPut
    split <;> rfl
  unfold recoverLeaf
  rw [hclht]
  dsimp only
  constructor
  · rw [halt, huse, htemp, hmax, Bytes.get64_put64_of_ne _ _ _ _ (by omega),
      Bytes.get64_put8 _ _ _ _ (by omega), Bytes.get64_put8 _ _ _ _ (by omega),
      Bytes.get64_put64_self]
  · rw [huse, hmax, Bytes.put64_of_outside _ _ _ _ (by omega), Bytes.put8_self]
  · rw [huse, htemp, hmax, Bytes.put64_of_outside _ _ _ _ (by omega),
      Bytes.put8_of_ne _ _ _ _ (by omega), Bytes.put8_self]
  · rw [Bytes.get64_put64_self]

/-- An object that none of the written bytes belongs to holds what it held. -/
theorem Holds.congr {heap heap' : Bytes} {d p : Nat} (h : Holds pls heap d p)
    (hsame : ∀ k, Written d k → heap' k = heap k) : Holds pls heap' d p := by
  obtain ⟨htemp, huse, halt, -, hmax, hsize⟩ := dummyDecl_offsets
  have hbyte : ∀ k, d + 240 ≤ k → k < d + 272 → heap' k = heap k := by
    intro k hk hk'
    apply hsame
    rw [Written, htemp, hsize]
    exact ⟨hk, hk'⟩
  have hword : ∀ i, 240 ≤ i → i + 8 ≤ 272 → heap'.get64 (d + i) = heap.get64 (d + i) := by
    intro i hi hi'
    apply Bytes.get64_congr
    intro k hk hk'
    exact hbyte k (by omega) (by omega)
  constructor
  · rw [halt, hword 248 (by decide) (by decide), ← halt]
    exact h.altPtr
  · rw [huse, hbyte _ (by omega) (by omega), ← huse]
    exact h.maxUse
  · rw [htemp, hbyte _ (by omega) (by omega), ← htemp]
    exact h.tempInsert
  · rw [hmax, hword 264 (by decide) (by decide), ← hmax]
    exact h.maxKey

theorem Holds.put_next {heap : Bytes} {d p : Nat} (h : Holds pls heap d p) (w : BitVec 64) :
    Holds pls (heap.put64 (d + dummyDecl.offset .next) w) d p := by
  obtain ⟨htemp, huse, halt, hnext, hmax, -⟩ := dummyDecl_offsets
  constructor
  · rw [Bytes.get64_put64_of_ne _ _ _ _ (by omega)]
    exact h.altPtr
  · rw [Bytes.put64_of_outside _ _ _ _ (by omega)]
    exact h.maxUse
  · rw [Bytes.put64_of_outside _ _ _ _ (by omega)]
    exact h.tempInsert
  · rw [Bytes.get64_put64_of_ne _ _ _ _ (by omega)]
    exact h.maxKey

theorem Mallocs.written_apart (hm : Mallocs place) {n n' k : Nat} (hne : n ≠ n')
    (hk : Written (place n) k) : ¬ Written (place n') k := by
  obtain ⟨htemp, -, -, -, -, hsize⟩ := dummyDecl_offsets
  have hapart := hm.apart n n' hne
  rw [Written, htemp, hsize] at hk ⊢
  rw [hsize] at hapart
  omega

theorem Mallocs.behind_apart (hm : Mallocs place) (n n' : Nat) {k : Nat}
    (hk : place n + dummyDecl.sizeof 8 ≤ k) (hk' : k < place n + dummyDecl.sizeof 8 + 8) :
    ¬ Written (place n') k := by
  obtain ⟨htemp, -, -, -, -, hsize⟩ := dummyDecl_offsets
  rw [Written, htemp, hsize]
  rw [hsize] at hk hk'
  by_cases hne : n = n'
  · subst hne
    omega
  · have hapart := hm.apart n n' hne
    rw [hsize] at hapart
    omega

theorem recoverLeaf_clht (p : Nat) : (recoverLeaf place pls s p).clht =
    if s.clht p = 0 then Function.update s.clht p (place s.mallocs) else s.clht := by
  unfold recoverLeaf clhtPut
  dsimp only
  split <;> rfl

theorem recoverLeaf_mallocs (p : Nat) : (recoverLeaf place pls s p).mallocs = s.mallocs + 1 := by
  unfold recoverLeaf clhtPut
  dsimp only
  split <;> rfl

theorem Mallocs.objectOf_ne_zero (hm : Mallocs place) {p : Nat} (hp : p ∈ done) :
    objectOf place done p ≠ 0 := by
  rw [objectOf_of_mem hp]
  exact hm.ne_zero _

theorem Built.clht_concat (hm : Mallocs place) (h : Built place pls heap₀ done s) (p : Nat) :
    (recoverLeaf place pls s p).clht = objectOf place (done ++ [p]) := by
  rw [recoverLeaf_clht, h.clht, h.mallocs]
  funext q
  by_cases hp : p ∈ done
  · rw [if_neg (hm.objectOf_ne_zero hp)]
    by_cases hq : q = p
    · subst hq
      exact (objectOf_concat_of_mem _ hp).symm
    · exact (objectOf_concat_of_ne hq).symm
  · rw [if_pos (show objectOf place done p = 0 from if_neg hp)]
    by_cases hq : q = p
    · subst hq
      rw [Function.update_self, objectOf_concat_self hp]
    · rw [Function.update_of_ne hq, objectOf_concat_of_ne hq]

theorem Built.recoverLeaf (hm : Mallocs place) (h : Built place pls heap₀ done s) (p : Nat) :
    Built place pls heap₀ (done ++ [p]) (recoverLeaf place pls s p) where
  mallocs := by rw [recoverLeaf_mallocs, h.mallocs, List.length_append, List.length_singleton]
  clht := h.clht_concat hm p
  holds q hq := by
    by_cases hdone : q ∈ done
    · rw [objectOf_concat_of_mem p hdone]
      apply (h.holds q hdone).congr
      intro k hk
      apply recoverLeaf_heap
      rw [objectOf_of_mem hdone] at hk
      apply hm.written_apart _ hk
      rw [h.mallocs]
      exact (List.idxOf_lt_length_of_mem hdone).ne
    · have hqp : q = p := by
        cases List.mem_append.mp hq with
        | inl hq' => exact absurd hq' hdone
        | inr hq' => exact List.mem_singleton.mp hq'
      subst hqp
      rw [objectOf_concat_self hdone, ← h.mallocs]
      exact recoverLeaf_holds q
  behind n := by
    rw [← h.behind n]
    apply Bytes.get64_congr
    intro k hk hk'
    exact recoverLeaf_heap p (hm.behind_apart n _ hk hk')

/-- A link is stored between the members that `D_Leaf` reads. -/
theorem Built.linkLeaf (hm : Mallocs place) (h : Built place pls heap₀ done s) {p : Nat}
    (hp : p ∈ done) : Built place pls heap₀ done (linkLeaf pls s p) where
  mallocs := h.mallocs
  clht := h.clht
  holds q hq := by
    unfold Rebuilt.linkLeaf
    dsimp only
    rw [h.clht, objectOf_of_mem hq, objectOf_of_mem hp]
    have hq' := h.holds q hq
    rw [objectOf_of_mem hq] at hq'
    by_cases hsame : done.idxOf q = done.idxOf p
    · rw [hsame] at hq' ⊢
      exact hq'.put_next _
    · apply hq'.congr
      intro k hk
      have hnot := hm.written_apart hsame hk
      obtain ⟨htemp, -, -, hnext, -, hsize⟩ := dummyDecl_offsets
      rw [Written, htemp, hsize] at hnot
      apply Bytes.put64_of_outside
      rw [hnext]
      omega
  behind n := by
    rw [← h.behind n]
    apply Bytes.get64_congr
    intro k hk hk'
    have hnot := hm.behind_apart n (done.idxOf p) hk hk'
    obtain ⟨htemp, -, -, hnext, -, hsize⟩ := dummyDecl_offsets
    rw [Written, htemp, hsize] at hnot
    unfold Rebuilt.linkLeaf
    dsimp only
    rw [h.clht, objectOf_of_mem hp, hnext]
    apply Bytes.put64_of_outside
    omega

theorem Built.recoverLeaves (hm : Mallocs place) (h : Built place pls heap₀ done s)
    (leaves : List Nat) :
    Built place pls heap₀ (done ++ leaves) (leaves.foldl (Rebuilt.recoverLeaf place pls) s) := by
  induction leaves generalizing done s with
  | nil => simpa using h
  | cons p rest ih =>
    have hstep := ih (h.recoverLeaf hm p)
    rwa [List.append_assoc, List.singleton_append] at hstep

theorem Built.linkLeaves (hm : Mallocs place) (h : Built place pls heap₀ done s)
    (leaves : List Nat) (hsub : ∀ p ∈ leaves, p ∈ done) :
    Built place pls heap₀ done (leaves.foldl (Rebuilt.linkLeaf pls) s) := by
  induction leaves generalizing s with
  | nil => exact h
  | cons p rest ih =>
    apply ih (h.linkLeaf hm (hsub p List.mem_cons_self))
    exact fun q hq => hsub q (List.mem_cons_of_mem _ hq)

def fresh (heap : Bytes) : Rebuilt := ⟨heap, 0, fun _ => 0⟩

theorem Built.fresh (place : Nat → Nat) (pls : Nat → PLeaf) (heap : Bytes) :
    Built place pls heap [] (fresh heap) where
  mallocs := rfl
  clht := rfl
  holds p hp := by simp at hp
  behind n := rfl

theorem recoverAll_built (hm : Mallocs place) (m : Headers) (poolLen : Nat)
    (ids : NAlc → List (BitVec 32)) (pls : Nat → PLeaf) (heap : Bytes) (allocators : List NAlc) :
    Built place pls heap (allLeaves m poolLen ids allocators)
      (recoverAll m poolLen ids place pls (Rebuilt.fresh heap) allocators) := by
  rw [recoverAll_eq]
  have hbuilt := (Built.fresh place pls heap).recoverLeaves hm (allLeaves m poolLen ids allocators)
  rw [List.nil_append] at hbuilt
  exact hbuilt.linkLeaves hm _ fun p hp => hp

/-- What the tree reads of a recovered leaf: the bound of the `P_Leaf` stands where the link
is read, and what is read as the bound was never written. -/
theorem Built.view_eq (h : Built place pls heap₀ done s) {p : Nat} (hp : p ∈ done) :
    s.view p =
      { altPtr := BitVec.ofNat 64 p
        maxUse := 0
        tempInsert := 0
        maxKey := heap₀.get64 (objectOf place done p + dLeafDecl.offset .maxKey)
        next := (pls p).maxKey } := by
  obtain ⟨htemp, huse, halt⟩ := offset_agree
  obtain ⟨hnext, hmax⟩ := offset_disagree
  have hholds := h.holds p hp
  unfold view
  rw [← htemp, ← huse, ← halt, hnext, hmax, h.clht, hholds.altPtr, hholds.maxUse, hholds.tempInsert,
    hholds.maxKey, objectOf_of_mem hp, h.behind]

end Rebuilt

open Rebuilt

/-- Recovered leaves read back as the `P_Leaf`s they were built from only where the memory
behind the object happens to hold the bound and the bound happens to be the address of the
next object. `ids` gives the order in which a directory is walked. -/
theorem recovered_leaves_read_back (m : Headers) (poolLen : Nat) (ids : NAlc → List (BitVec 32))
    (place : Nat → Nat) (pls : Nat → PLeaf) (heap : Bytes) (allocators : List NAlc)
    (chain : List Nat) (hm : Mallocs place)
    (hchain : ∀ p ∈ chain, p ∈ allLeaves m poolLen ids allocators) :
    (∀ p ∈ chain,
      (recoverAll m poolLen ids place pls (fresh heap) allocators).view p =
        (recoverAll m poolLen ids place pls (fresh heap) allocators).leafOf pls p) ↔
    ∀ p ∈ chain,
      heap.get64 (objectOf place (allLeaves m poolLen ids allocators) p +
          dLeafDecl.offset .maxKey) = (pls p).maxKey ∧
      (pls p).maxKey = BitVec.ofNat 64 (if (pls p).next ≠ 0
        then objectOf place (allLeaves m poolLen ids allocators) (pls p).next else 0) := by
  have hbuilt := recoverAll_built hm m poolLen ids pls heap allocators
  apply forall₂_congr
  intro p hp
  rw [hbuilt.view_eq (hchain p hp), leafOf, hbuilt.clht, LeafView.mk.injEq]
  simp only [true_and]

/-- The headers of a pool with one tree block, of which the first `bytes` bytes are in use. -/
def oneTreeBlock (start : Nat) (bytes : BitVec 32) : Headers :=
  Function.update (fun _ => BaseMeta.zero) (blockAt start 0)
    ⟨blockAt start 0 + baseMetaSize, 0, BlockKind.node.code, bytes⟩

/-- An allocator that has just been opened. -/
def opened (start : Nat) : NAlc where
  list := fun _ _ => none
  pageId := fun _ => 0
  decisionId := fun _ => 0
  startAddress := start
  endAddress := start

def spaced (n : Nat) : Nat := 0x1000 + 288 * n

theorem spaced_mallocs : Mallocs spaced where
  ne_zero n := by unfold spaced; omega
  apart n n' hne := by
    obtain ⟨-, -, -, -, -, hsize⟩ := dummyDecl_offsets
    rw [hsize]
    unfold spaced
    omega

/-- Two `P_Leaf`s, the left with a bound that happens to be the address of the object of the right. -/
def linkedLeaves (p : Nat) : PLeaf :=
  if p = 0x50000440 then ⟨1, 0x1120, 0x50000460⟩ else ⟨0, 0, 0⟩

/-- Memory that happens to hold the bound behind the object of the left leaf. -/
def linkedHeap : Bytes := Bytes.zero.put64 (spaced 0 + dLeafDecl.offset .maxKey) 0x1120

def recoveredLinked : Rebuilt :=
  recoverAll (oneTreeBlock 0x50000000 64) (1024 + CHUNK_SIZE) (fun _ => [0]) spaced linkedLeaves
    (fresh linkedHeap) [opened 0x50000000]

theorem recovered_leaves_read_back_linked :
    recoveredLinked.view 0x50000440 = recoveredLinked.leafOf linkedLeaves 0x50000440 ∧
    recoveredLinked.view 0x50000460 = recoveredLinked.leafOf linkedLeaves 0x50000460 := by
  have hback : ∀ p ∈ [0x50000440, 0x50000460],
      recoveredLinked.view p = recoveredLinked.leafOf linkedLeaves p := by
    apply (recovered_leaves_read_back (oneTreeBlock 0x50000000 64) (1024 + CHUNK_SIZE)
      (fun _ => [0]) spaced linkedLeaves linkedHeap [opened 0x50000000] [0x50000440, 0x50000460]
      spaced_mallocs (by decide +kernel)).mpr
    decide +kernel
  exact ⟨hback _ (by simp), hback _ (by simp)⟩

/-- The persistent leaves after the first split of the keys 1 to 30. -/
def splitLeaves (p : Nat) : PLeaf :=
  if p = 0x50000440 then ⟨1, 15, 0x50000460⟩ else ⟨0, 30, 0⟩

def recoveredSplit : Rebuilt :=
  recoverAll (oneTreeBlock 0x50000000 64) (1024 + CHUNK_SIZE) (fun _ => [0]) spaced splitLeaves
    (fresh fun _ => 0) [opened 0x50000000]

/-- After the first split the left leaf is read with its bound 15 as the address of the next. -/
theorem recovered_leaf_misread :
    allLeaves (oneTreeBlock 0x50000000 64) (1024 + CHUNK_SIZE) (fun _ => [0])
      [opened 0x50000000] = [0x50000440, 0x50000460] ∧
    recoveredSplit.view 0x50000440 =
      { altPtr := 0x50000440, maxUse := 0, tempInsert := 0, maxKey := 0, next := 15 } ∧
    recoveredSplit.leafOf splitLeaves 0x50000440 =
      { altPtr := 0x50000440, maxUse := 0, tempInsert := 0, maxKey := 15, next := 0x1120 } ∧
    ¬ ∀ p ∈ [0x50000440, 0x50000460],
      recoveredSplit.view p = recoveredSplit.leafOf splitLeaves p := by
  decide +kernel

end ZBTree
