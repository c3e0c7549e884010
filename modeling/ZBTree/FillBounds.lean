import ZBTree.MapContract
import Mathlib.Algebra.Order.BigOperators.Group.Finset
import Mathlib.Algebra.Module.Defs

/-!
# How full the nodes are

Every leaf of a tree with inner nodes is at least half full, and so is every inner node but
the root. The height is therefore logarithmic in the number of insertions, and the arrays of
fixed size, `node_key` with its one spare slot and `root_path`, are never indexed past their
ends.
-/

namespace ZBTree

open MultiwayTree RangeIndex Pmem

/-- Slots of `root_path`. -/
def MAX_TREE_LEVEL : Nat := 12

/-! ### The array accesses of insert -/

/-- An access to a row of the `node_key` of some node, or to `root_path`. -/
inductive Access where
  | nodeKey (i : Nat)
  | rootPath (level : Nat)
deriving DecidableEq, Repr

/-- `memset` or `std::copy` of `n` words from index `lo` on. -/
def blockAccesses (lo n : Nat) : List Access := (List.range' lo n).map .nodeKey

/-- `scanSeparators`. -/
def scanAccesses (nd : InnerNode) (key : Key) (last : Nat) : Nat → Nat → List Access
  | 0, _ => []
  | n + 1, i =>
    .nodeKey i ::
      if key ≤ nd.nodeKey0 i ∧ i = 0 then []
      else if i = last then [.nodeKey i]
      else if nd.nodeKey0 i < key ∧ key ≤ nd.nodeKey0 (i + 1) then [.nodeKey (i + 1), .nodeKey i]
      else (if nd.nodeKey0 i < key then [.nodeKey (i + 1)] else []) ++
        scanAccesses nd key last n (i + 1)

variable {P : Type}

/-- `findInsertFrom` at `search_level`. -/
def findInsertAccesses (s : TreeState P) (key : Key) (searchLevel : Nat) :
    Nat → Addr → List Access
  | 0, _ => []
  | d + 1, start =>
    .rootPath searchLevel ::
      match s.innerHeap start with
      | none => []
      | some nd => scanAccesses nd key (nd.maxSize - 1) nd.maxSize 0 ++
        match routeChild nd key with
        | none => []
        | some (_, child) => findInsertAccesses s key (searchLevel + 1) d child

/-- `InnerNode.insertEntry`. -/
def entryAccesses (nd : InnerNode) (pos : Int) : List Access :=
  let shift lo := (List.range' lo (nd.maxSize - lo)).flatMap fun i => [.nodeKey i, .nodeKey (i + 1)]
  if pos = -1 then shift 0 ++ [.nodeKey 0]
  else if pos = nd.maxSize - 1 then [.nodeKey (pos.toNat + 1)]
  else shift (pos.toNat + 1) ++ [.nodeKey (pos.toNat + 1)]

/-- `InnerNode.splitRight` and `InnerNode.splitLeft`, after the split key has been read. -/
def halfAccesses : List Access :=
  .nodeKey (SPLIT_POS + 1) :: blockAccesses RIGHT_KEY (LEFT_KEY + 1) ++
    blockAccesses (LEFT_KEY + 1) (MAX_LEAF_KEY - LEFT_KEY) ++
    blockAccesses 0 (MAX_LEAF_KEY - LEFT_KEY) ++ blockAccesses LEFT_KEY LEFT_KEY

/-- `growRoot`. -/
def rootAccesses : List Access := blockAccesses 0 (MAX_LEAF_KEY + 1) ++ [.nodeKey 0]

/-- `splitInnerLoop`; the number of nodes above is `last_level`. -/
def splitInnerAccesses (s : TreeState P) : List Cursor → Key → Addr → List Access
  | [], _, _ => []
  | c :: above, key, right =>
    .rootPath above.length ::
      match s.innerHeap c.node with
      | none => []
      | some nd => entryAccesses nd c.nodePos ++
        match splitLevel s c key right with
        | .ok (s, some (upKey, upPtr)) => halfAccesses ++
          if above.isEmpty then rootAccesses else splitInnerAccesses s above upKey upPtr
        | _ => []

/-- `recordSplit`. -/
def recordAccesses (s : TreeState P) (key splitKey : Key) (leaf2 : Addr) : List Access :=
  if s.tempLevel = 0 then rootAccesses
  else findInsertAccesses s key 0 s.tempLevel s.root ++
    match findInsert s key with
    | .error _ => []
    | .ok (rootPath, _) => splitInnerAccesses s rootPath.reverse splitKey leaf2

/-- `insert`. -/
def insertAccesses [Pmem P] : Nat → TreeState P → Tid → Key → Word → BitVec 32 → List Access
  | 0, _, _, _, _, _ => []
  | n + 1, s, t, key, val, valueLen =>
    findInsertAccesses s key 0 s.tempLevel s.root ++
      match lockLeaf s key with
      | .error _ => []
      | .ok (false, _, s) => insertAccesses n s t key val valueLen
      | .ok (true, leaf, s) =>
        match s.dleafHeap leaf with
        | none => []
        | some m =>
          match duplicate s.pm m key m.maxUse 0 with
          | .ok false =>
            if m.maxUse < MAX_LEAF_KEY then []
            else match splitFull s t leaf with
              | .error _ => []
              | .ok (leaf2, splitKey, insertLeaf, s) =>
                recordAccesses s key splitKey leaf2 ++
                  match installSeparator s key splitKey leaf leaf2 insertLeaf with
                  | .error _ => []
                  | .ok s => insertAccesses n s t key val valueLen
          | _ => []

/-- A run of insertions. -/
def runAccesses [Pmem P] (t : Tid) : TreeState P → List (Key × Word × BitVec 32) → List Access
  | _, [] => []
  | s, (key, val, valueLen) :: entries =>
    insertAccesses 2 s t key val valueLen ++
      match insert 2 s t key val valueLen with
      | .error _ => []
      | .ok (_, s) => runAccesses t s entries

/-! ### One round of insert -/

/-- How a call of `insert` that returns goes on after its first round. -/
inductive InsertRound [Pmem P] (n : Nat) (s : TreeState P) (t : Tid) (key : Key) (val : Word)
    (valueLen : BitVec 32) (b : Bool) (s' : TreeState P) : Prop where
  | busy (leaf : Addr) (s₁ : TreeState P) (hlock : lockLeaf s key = .ok (false, leaf, s₁))
      (hrest : insert n s₁ t key val valueLen = .ok (b, s'))
  | present (leaf : Addr) (m : DLeaf) (hlock : lockLeaf s key = .ok (true, leaf, s'))
      (hm : s'.dleafHeap leaf = some m) (hdup : duplicate s'.pm m key m.maxUse 0 = .ok true)
      (hb : b = false)
  | fill (leaf : Addr) (s₁ : TreeState P) (m : DLeaf)
      (hlock : lockLeaf s key = .ok (true, leaf, s₁)) (hm : s₁.dleafHeap leaf = some m)
      (hdup : duplicate s₁.pm m key m.maxUse 0 = .ok false) (hroom : m.maxUse < MAX_LEAF_KEY)
      (hfill : fillSlot s₁ t key val valueLen leaf = .ok s') (hb : b = true)
  | split (leaf : Addr) (s₁ : TreeState P) (m : DLeaf) (leaf2 : Addr) (splitKey : Key)
      (insertLeaf : Addr) (s₂ s₃ : TreeState P)
      (hlock : lockLeaf s key = .ok (true, leaf, s₁)) (hm : s₁.dleafHeap leaf = some m)
      (hdup : duplicate s₁.pm m key m.maxUse 0 = .ok false) (hfull : ¬ m.maxUse < MAX_LEAF_KEY)
      (hsplit : splitFull s₁ t leaf = .ok (leaf2, splitKey, insertLeaf, s₂))
      (hinstall : installSeparator s₂ key splitKey leaf leaf2 insertLeaf = .ok s₃)
      (hrest : insert n s₃ t key val valueLen = .ok (b, s'))

theorem insertRound [Pmem P] {n : Nat} {s s' : TreeState P} {t : Tid} {key : Key} {val : Word}
    {valueLen : BitVec 32} {b : Bool} (h : insert (n + 1) s t key val valueLen = .ok (b, s')) :
    InsertRound n s t key val valueLen b s' := by
  unfold insert at h
  simp only [bind_eq_ok] at h
  obtain ⟨⟨lockState, leaf, s₁⟩, hlock, h⟩ := h
  cases lockState with
  | false => exact .busy leaf s₁ hlock h
  | true =>
    simp only [Bool.not_true, Bool.false_eq_true, if_false, bind_eq_ok, deref_eq_ok] at h
    obtain ⟨m, hm, dup, hdup, h⟩ := h
    cases dup with
    | true =>
      cases h
      exact .present leaf m hlock hm hdup rfl
    | false =>
      simp only [Bool.false_eq_true, if_false] at h
      split at h
      · rename_i hroom
        simp only [bind_eq_ok] at h
        obtain ⟨s₂, hfill, h⟩ := h
        cases h
        exact .fill leaf s₁ m hlock hm hdup hroom hfill rfl
      · rename_i hfull
        simp only [bind_eq_ok] at h
        obtain ⟨⟨leaf2, splitKey, insertLeaf, s₂⟩, hsplit, s₃, hinstall, h⟩ := h
        exact .split leaf s₁ m leaf2 splitKey insertLeaf s₂ s₃ hlock hm hdup hfull hsplit hinstall h

/-! ### Fill of the nodes -/

/-- The fill of every inner node and, once there are inner nodes, of every leaf. -/
structure Filled (s : TreeState P) : Prop where
  inner : ∀ a nd, s.innerHeap a = some nd →
    (1 ≤ nd.maxSize ∧ nd.maxSize ≤ MAX_LEAF_KEY) ∧ (a ≠ s.root → LEFT_KEY ≤ nd.maxSize)
  leaf : ∀ a m, s.dleafHeap a = some m →
    m.maxUse ≤ MAX_LEAF_KEY ∧ (1 ≤ s.tempLevel → LEFT_KEY ≤ m.maxUse)

/-- Objects are where `malloc` has put them, and a tree without inner nodes is one leaf. -/
structure Mapped (s : TreeState P) : Prop where
  fresh : ∀ a, s.brk ≤ a → s.dleafHeap a = none
  bare : s.tempLevel = 0 → ∀ a, s.innerHeap a = none
  single : s.tempLevel = 0 → ∀ a m, s.dleafHeap a = some m → a = s.root

def TreeState.used (s : TreeState P) : Nat :=
  ∑ a ∈ Finset.range s.brk, (s.dleafHeap a).elim 0 DLeaf.maxUse

variable {s s₁ s' : TreeState P} {a leaf : Addr} {m m' : DLeaf} {key : Key}

theorem Mapped.lt_brk (h : Mapped s) (hm : s.dleafHeap a = some m) : a < s.brk := by
  apply Nat.lt_of_not_le
  intro hle
  rw [h.fresh a hle] at hm
  cases hm

theorem Mapped.setLeaf (h : Mapped s) (hm : s.dleafHeap a = some m) (m' : DLeaf) :
    Mapped (s.setLeaf a m') where
  fresh b hb := by
    have hne : b ≠ a := fun heq => absurd (h.lt_brk hm) (Nat.not_lt.mpr (heq ▸ hb))
    exact (Function.update_of_ne hne _ _).trans (h.fresh b hb)
  bare := h.bare
  single hlevel b n hn := by
    rcases setLeaf_heap hn with ⟨rfl, -⟩ | ⟨-, hn⟩
    · exact h.single hlevel b m hm
    · exact h.single hlevel b n hn

theorem Filled.setLeaf (h : Filled s) (hm : m'.maxUse ≤ MAX_LEAF_KEY)
    (hhalf : 1 ≤ s.tempLevel → LEFT_KEY ≤ m'.maxUse) : Filled (s.setLeaf a m') where
  inner := h.inner
  leaf b n hn := by
    rcases setLeaf_heap hn with ⟨-, rfl⟩ | ⟨-, hn⟩
    · exact ⟨hm, hhalf⟩
    · exact h.leaf b n hn

theorem used_setLeaf (ha : a < s.brk) (hm : s.dleafHeap a = some m) (m' : DLeaf) :
    (s.setLeaf a m').used + m.maxUse = s.used + m'.maxUse := by
  have hmem : a ∈ Finset.range s.brk := Finset.mem_range.mpr ha
  have hold : s.used = _ := (Finset.add_sum_erase _ _ hmem).symm
  have hnew : (s.setLeaf a m').used = _ := (Finset.add_sum_erase _ _ hmem).symm
  have hrest : ∑ b ∈ (Finset.range s.brk).erase a,
      ((s.setLeaf a m').dleafHeap b).elim 0 DLeaf.maxUse =
      ∑ b ∈ (Finset.range s.brk).erase a, (s.dleafHeap b).elim 0 DLeaf.maxUse := by
    apply Finset.sum_congr rfl
    intro b hb
    have hne : b ≠ a := (Finset.mem_erase.mp hb).1
    simp only [TreeState.setLeaf, Function.update_of_ne hne]
  have hself : (s.setLeaf a m').dleafHeap a = some m' := Function.update_self ..
  rw [hrest, hself] at hnew
  rw [hold, hnew, hm, Option.elim_some, Option.elim_some, Nat.add_right_comm, Nat.add_right_comm
    m.maxUse, Nat.add_comm m.maxUse]

/-- Locking, releasing and filling a leaf. -/
structure LeafWrite (s s' : TreeState P) (a : Addr) (m m' : DLeaf) : Prop where
  leaf : s.dleafHeap a = some m
  heap : s'.dleafHeap = Function.update s.dleafHeap a (some m')
  inner : s'.innerHeap = s.innerHeap
  root : s'.root = s.root
  tempLevel : s'.tempLevel = s.tempLevel
  brk : s'.brk = s.brk

theorem LeafWrite.filled (hw : LeafWrite s s' a m m') (h : Filled s) (hm : m'.maxUse ≤ MAX_LEAF_KEY)
    (hle : m.maxUse ≤ m'.maxUse) : Filled s' := by
  have hset : Filled (s.setLeaf a m') :=
    h.setLeaf hm fun hlevel => ((h.leaf a m hw.leaf).2 hlevel).trans hle
  constructor
  · rw [hw.inner, hw.root]
    exact hset.inner
  · rw [hw.heap, hw.tempLevel]
    exact hset.leaf

theorem LeafWrite.mapped (hw : LeafWrite s s' a m m') (h : Mapped s) : Mapped s' := by
  have hset := h.setLeaf hw.leaf m'
  constructor
  · rw [hw.heap, hw.brk]
    exact hset.fresh
  · rw [hw.inner, hw.tempLevel]
    exact hset.bare
  · rw [hw.heap, hw.tempLevel, hw.root]
    exact hset.single

theorem LeafWrite.used (hw : LeafWrite s s' a m m') (h : Mapped s) :
    s'.used + m.maxUse = s.used + m'.maxUse := by
  have hsame : s'.used = (s.setLeaf a m').used := by
    rw [TreeState.used, TreeState.used, hw.heap, hw.brk]
    rfl
  rw [hsame]
  exact used_setLeaf (h.lt_brk hw.leaf) hw.leaf m'

theorem lockLeaf_write {b : Bool} (h : lockLeaf s key = .ok (b, leaf, s₁)) :
    ∃ m m', LeafWrite s s₁ leaf m m' ∧ m'.maxUse = m.maxUse := by
  unfold lockLeaf at h
  simp only [bind_eq_ok, deref_eq_ok] at h
  obtain ⟨⟨path, leaf'⟩, -, m, hm, h⟩ := h
  split at h
  · cases h
    exact ⟨m, _, ⟨hm, rfl, rfl, rfl, rfl, rfl⟩, rfl⟩
  · cases h
    exact ⟨m, m, ⟨hm, (Function.update_eq_self_iff.mpr hm.symm).symm, rfl, rfl, rfl, rfl⟩, rfl⟩

theorem fillSlot_write [Pmem P] {t : Tid} {val : Word} {valueLen : BitVec 32}
    (h : fillSlot s t key val valueLen leaf = .ok s') :
    ∃ m m', LeafWrite s s' leaf m m' ∧ m'.maxUse = m.maxUse + 1 := by
  unfold fillSlot at h
  simp only [bind_eq_ok, deref_eq_ok] at h
  obtain ⟨m, hm, ⟨kvAddr, pm⟩, -, h⟩ := h
  cases h
  exact ⟨m, _, ⟨hm, rfl, rfl, rfl, rfl, rfl⟩, rfl⟩

/-! ### Splitting a leaf -/

/-- Both halves of a leaf that has been split are half full. -/
theorem splitFull_halves [Pmem P] {t : Tid} {leaf2 insertLeaf : Addr} {splitKey : Key}
    (h : Mapped s) (hsplit : splitFull s t leaf = .ok (leaf2, splitKey, insertLeaf, s')) :
    ∃ m ml mr, s.dleafHeap leaf = some m ∧ ml.maxUse = LEFT_KEY ∧ mr.maxUse = LEFT_KEY ∧
      s'.dleafHeap = Function.update (Function.update s.dleafHeap leaf2 (some mr)) leaf (some ml) ∧
      leaf2 = s.brk + 1 ∧ s'.brk = s.brk + 2 ∧ s'.innerHeap = s.innerHeap ∧ s'.root = s.root ∧
      s'.tempLevel = s.tempLevel := by
  obtain ⟨m, buf, keys, fingers, newLeaf, pm, pm', hm, -, -, -, -, hr⟩ := splitFull_eq_ok.mp hsplit
  cases hr
  have hlt := h.lt_brk hm
  obtain ⟨hleft, hright, hoff⟩ := splitState_heap m fingers keys newLeaf pm' hlt
  obtain ⟨ml, hml, hl⟩ : ∃ ml, (splitState s leaf m fingers keys newLeaf pm').dleafHeap leaf =
      some ml ∧ ml.maxUse = LEFT_KEY := ⟨_, hleft, DLeaf.leftHalf_maxUse ..⟩
  obtain ⟨mr, hmr, hr⟩ : ∃ mr, (splitState s leaf m fingers keys newLeaf pm').dleafHeap (s.brk + 1) =
      some mr ∧ mr.maxUse = LEFT_KEY := ⟨_, hright, DLeaf.rightHalf_maxUse ..⟩
  refine ⟨m, ml, mr, hm, hl, hr, ?_, rfl, rfl, rfl, rfl, rfl⟩
  funext b
  by_cases hb : b = leaf
  · subst hb
    rw [hml, Function.update_self]
  · rw [Function.update_of_ne hb]
    by_cases hb' : b = s.brk + 1
    · subst hb'
      rw [hmr, Function.update_self]
    · rw [hoff b hb hb', Function.update_of_ne hb']

theorem used_split [Pmem P] {t : Tid} {leaf2 insertLeaf : Addr} {splitKey : Key} (h : Mapped s)
    (hm : s.dleafHeap leaf = some m) (hfull : m.maxUse = MAX_LEAF_KEY)
    (hsplit : splitFull s t leaf = .ok (leaf2, splitKey, insertLeaf, s')) : s'.used = s.used := by
  obtain ⟨m₀, ml, mr, hm₀, hl, hr, hheap, rfl, hbrk, -⟩ := splitFull_halves h hsplit
  obtain rfl : m = m₀ := Option.some.inj (hm.symm.trans hm₀)
  have hlt := h.lt_brk hm
  -- the new leaf first, then the old one
  let mid : TreeState P :=
    { s with dleafHeap := Function.update s.dleafHeap (s.brk + 1) (some mr), brk := s.brk + 2 }
  have hmid : mid.used = s.used + LEFT_KEY := by
    have hbase : ∀ b ∈ Finset.range s.brk,
        (mid.dleafHeap b).elim 0 DLeaf.maxUse = (s.dleafHeap b).elim 0 DLeaf.maxUse := by
      intro b hb
      have hne : b ≠ s.brk + 1 := by
        have := Finset.mem_range.mp hb
        omega
      rw [show mid.dleafHeap b = _ from Function.update_of_ne hne _ _]
    have hfirst : mid.dleafHeap s.brk = none := by
      rw [show mid.dleafHeap s.brk = _ from Function.update_of_ne (Nat.ne_of_lt (Nat.lt_succ_self _)) _ _]
      exact h.fresh _ (Nat.le_refl _)
    have hsecond : mid.dleafHeap (s.brk + 1) = some mr := Function.update_self ..
    rw [TreeState.used, show mid.brk = s.brk + 1 + 1 from rfl, Finset.sum_range_succ,
      Finset.sum_range_succ, Finset.sum_congr rfl hbase, hfirst, hsecond]
    exact congrArg (s.used + ·) hr
  have hold : mid.dleafHeap leaf = some m := by
    rw [show mid.dleafHeap leaf = _ from Function.update_of_ne (Nat.ne_of_lt (Nat.lt_succ_of_lt hlt)) _ _]
    exact hm
  have hset := used_setLeaf (show leaf < mid.brk from Nat.lt_add_right 2 hlt) hold ml
  have hsame : s'.used = (mid.setLeaf leaf ml).used := by
    rw [TreeState.used, TreeState.used, hheap, hbrk]
    rfl
  rw [hsame]
  rw [hmid, hl, hfull] at hset
  simp only [LEFT_KEY, MAX_LEAF_KEY] at hset ⊢
  omega

/-! ### Recording the split -/

/-- Inner nodes have been written; the leaves and the root are the same. -/
structure InnerWrite (s s' : TreeState P) : Prop where
  dleafHeap : s'.dleafHeap = s.dleafHeap
  root : s'.root = s.root
  tempLevel : s'.tempLevel = s.tempLevel
  brk_le : s.brk ≤ s'.brk

def InnerFilled (s : TreeState P) : Prop := ∀ a nd, s.innerHeap a = some nd →
  (1 ≤ nd.maxSize ∧ nd.maxSize ≤ MAX_LEAF_KEY) ∧ (a ≠ s.root → LEFT_KEY ≤ nd.maxSize)

theorem insertEntry_maxSize (nd : InnerNode) (pos : Int) (right : Addr) :
    (nd.insertEntry pos key right).maxSize = nd.maxSize + 1 := by
  unfold InnerNode.insertEntry
  split
  · rfl
  · split <;> rfl

/-- One level keeps the fill; a node that overflowed is half full afterwards. -/
theorem InnerFilled.splitLevel (h : InnerFilled s) {c : Cursor} {right : Addr}
    {carry : Option (Key × Addr)} (hrun : splitLevel s c key right = .ok (s', carry)) :
    InnerFilled s' ∧ InnerWrite s s' ∧
      (carry.isSome → ∀ nd, s'.innerHeap c.node = some nd → LEFT_KEY ≤ nd.maxSize) := by
  unfold ZBTree.splitLevel at hrun
  simp only [bind_eq_ok, deref_eq_ok] at hrun
  obtain ⟨nd, hnd, hrun⟩ := hrun
  obtain ⟨⟨hone, -⟩, hhalf⟩ := h c.node nd hnd
  have hsize : (nd.insertEntry c.nodePos key right).maxSize = nd.maxSize + 1 :=
    insertEntry_maxSize nd c.nodePos right
  have hbounds : 1 ≤ LEFT_KEY ∧ LEFT_KEY ≤ MAX_LEAF_KEY := by decide
  split at hrun
  · cases hrun
    refine ⟨fun b n hn => ?_, ⟨rfl, rfl, rfl, Nat.le_succ _⟩, fun _ n hn => ?_⟩
    · simp only [TreeState.setInner, TreeState.mallocInner] at hn
      -- an overflow: this node and the new one keep 15 separators each
      by_cases hb : b = c.node
      · rw [hb, Function.update_self, Option.some.injEq] at hn
        subst hn
        exact ⟨hbounds, fun _ => Nat.le_refl _⟩
      · rw [Function.update_of_ne hb] at hn
        by_cases hb' : b = s.brk
        · rw [hb', Function.update_self, Option.some.injEq] at hn
          subst hn
          exact ⟨hbounds, fun _ => Nat.le_refl _⟩
        · rw [Function.update_of_ne hb'] at hn
          exact h b n hn
    · simp only [TreeState.setInner, TreeState.mallocInner, Function.update_self,
        Option.some.injEq] at hn
      subst hn
      exact Nat.le_refl _
  · -- room: one separator more
    rename_i hroom
    cases hrun
    refine ⟨fun b n hn => ?_, ⟨rfl, rfl, rfl, Nat.le_refl _⟩, fun hsome => by cases hsome⟩
    simp only [TreeState.setInner] at hn
    by_cases hb : b = c.node
    · rw [hb, Function.update_self, Option.some.injEq] at hn
      subst hn
      refine ⟨⟨?_, Nat.le_of_not_lt hroom⟩, fun hne => ?_⟩
      · rw [hsize]
        exact Nat.le_add_left 1 _
      · rw [hsize]
        exact (hhalf (hb ▸ hne)).trans (Nat.le_succ _)
    · rw [Function.update_of_ne hb] at hn
      exact h b n hn

theorem InnerFilled.growRoot (h : InnerFilled s) (left right : Addr) (splitKey : Key)
    (hroot : ∀ nd, s.innerHeap s.root = some nd → LEFT_KEY ≤ nd.maxSize) :
    InnerFilled (growRoot s left splitKey right) := by
  intro b n hn
  simp only [ZBTree.growRoot, TreeState.mallocInner] at hn ⊢
  by_cases hb : b = s.brk
  · rw [hb, Function.update_self, Option.some.injEq] at hn
    subst hn
    exact ⟨⟨Nat.le_refl 1, Nat.le_add_left 1 29⟩, fun hne => absurd hb hne⟩
  · rw [Function.update_of_ne hb] at hn
    obtain ⟨hsize, hhalf⟩ := h b n hn
    refine ⟨hsize, fun _ => ?_⟩
    by_cases hbr : b = s.root
    · subst hbr
      exact hroot n hn
    · exact hhalf hbr

/-- The loop of `splitInnerNode`, whose last node is the root. -/
theorem InnerFilled.splitInnerLoop (h : InnerFilled s) {path : List Cursor} {right : Addr}
    (hlast : ∀ c ∈ path.getLast?, c.node = s.root)
    (hrun : splitInnerLoop s path key right = .ok s') :
    InnerFilled s' ∧ s'.dleafHeap = s.dleafHeap ∧ s.brk ≤ s'.brk ∧ s.tempLevel ≤ s'.tempLevel := by
  induction path generalizing s key right with
  | nil =>
    cases hrun
    exact ⟨h, rfl, Nat.le_refl _, Nat.le_refl _⟩
  | cons c above ih =>
    unfold ZBTree.splitInnerLoop at hrun
    simp only [bind_eq_ok] at hrun
    obtain ⟨⟨s₁, carry⟩, hlevel, hrun⟩ := hrun
    obtain ⟨h₁, hwrite, hcut⟩ := h.splitLevel hlevel
    cases carry with
    | none =>
      cases hrun
      exact ⟨h₁, hwrite.dleafHeap, hwrite.brk_le, Nat.le_of_eq hwrite.tempLevel.symm⟩
    | some up =>
      dsimp only at hrun
      split at hrun
      · rename_i hempty
        cases hrun
        obtain rfl : above = [] := List.isEmpty_iff.mp hempty
        have hnode : c.node = s₁.root := by
          rw [hwrite.root]
          exact hlast c (by simp)
        refine ⟨h₁.growRoot _ _ _ (hnode ▸ hcut rfl), hwrite.dleafHeap,
          hwrite.brk_le.trans (Nat.le_succ _), ?_⟩
        rw [← hwrite.tempLevel]
        exact Nat.le_succ _
      · rename_i hmore
        have hlast' : ∀ c ∈ above.getLast?, c.node = s₁.root := by
          intro c' hc'
          rw [hwrite.root]
          apply hlast
          cases above with
          | nil => exact absurd rfl hmore
          | cons c'' rest =>
            rw [List.getLast?_cons_cons]
            exact hc'
        obtain ⟨h', hheap, hbrk, hup⟩ := ih h₁ hlast' hrun
        exact ⟨h', hheap.trans hwrite.dleafHeap, hwrite.brk_le.trans hbrk,
          hwrite.tempLevel ▸ hup⟩

theorem findInsert_head {path : List Cursor} (h : findInsert s key = .ok (path, leaf)) :
    ∀ c ∈ path.head?, c.node = s.root := by
  unfold findInsert at h
  split at h
  · cases h
    intro c hc
    cases hc
  · rename_i hlevel
    obtain ⟨d, hd⟩ := Nat.exists_eq_succ_of_ne_zero hlevel
    rw [hd, findInsertFrom] at h
    simp only [bind_eq_ok, deref_eq_ok] at h
    obtain ⟨nd, -, ⟨pos, child⟩, -, ⟨rest, leaf'⟩, -, h⟩ := h
    cases h
    rintro c ⟨⟩
    rfl

theorem InnerFilled.recordSplit (h : InnerFilled s) (hbare : s.tempLevel = 0 → ∀ a, s.innerHeap a = none)
    {leaf2 : Addr} {splitKey : Key} (hrun : recordSplit s key splitKey leaf leaf2 = .ok s') :
    InnerFilled s' ∧ s'.dleafHeap = s.dleafHeap ∧ s.brk ≤ s'.brk ∧ s.tempLevel ≤ s'.tempLevel ∧
      1 ≤ s'.tempLevel := by
  unfold ZBTree.recordSplit at hrun
  split at hrun
  · rename_i hlevel
    cases hrun
    refine ⟨h.growRoot _ _ _ fun nd hnd => ?_, rfl, Nat.le_succ _, Nat.le_succ _,
      Nat.le_add_left 1 _⟩
    rw [hbare hlevel] at hnd
    cases hnd
  · rename_i hlevel
    simp only [bind_eq_ok] at hrun
    obtain ⟨⟨path, leaf'⟩, hfind, hrun⟩ := hrun
    have hhead := findInsert_head hfind
    obtain ⟨h', hheap, hbrk, hup⟩ := h.splitInnerLoop
      (by rw [List.getLast?_reverse]; exact hhead) hrun
    exact ⟨h', hheap, hbrk, hup, (Nat.pos_of_ne_zero hlevel).trans_le hup⟩

/-- A leaf is split, and the inner nodes know the new one. -/
theorem split_filled [Pmem P] {t : Tid} {leaf2 insertLeaf : Addr} {splitKey : Key} {s₂ s₃ : TreeState P}
    (h : Filled s) (hmap : Mapped s) (hm : s.dleafHeap leaf = some m)
    (hfull : ¬ m.maxUse < MAX_LEAF_KEY)
    (hsplit : splitFull s t leaf = .ok (leaf2, splitKey, insertLeaf, s₂))
    (hinstall : installSeparator s₂ key splitKey leaf leaf2 insertLeaf = .ok s₃) :
    Filled s₃ ∧ Mapped s₃ ∧ s₃.used = s.used ∧ s.tempLevel ≤ s₃.tempLevel := by
  have huse : m.maxUse = MAX_LEAF_KEY :=
    Nat.le_antisymm (h.leaf leaf m hm).1 (Nat.le_of_not_lt hfull)
  have hused := used_split hmap hm huse hsplit
  obtain ⟨m₀, ml, mr, hm₀, hl, hr, hheap, rfl, hbrk, hinner, hroot, hlevel⟩ :=
    splitFull_halves hmap hsplit
  unfold installSeparator at hinstall
  simp only [bind_eq_ok, deref_eq_ok] at hinstall
  obtain ⟨s₂', hrecord, ml', hml', hinstall⟩ := hinstall
  cases hinstall
  have hinner₂ : InnerFilled s₂ := by
    unfold InnerFilled
    rw [hinner, hroot]
    exact h.inner
  obtain ⟨hfill, hheap', hbrk', hup, hpos⟩ := hinner₂.recordSplit
    (by rw [hinner, hlevel]; exact hmap.bare) hrecord
  have hhalf : LEFT_KEY ≤ MAX_LEAF_KEY := by decide
  -- each leaf is one of the halves, or was there while there were inner nodes
  have hleaf : ∀ b n, s₂.dleafHeap b = some n → n.maxUse ≤ MAX_LEAF_KEY ∧ LEFT_KEY ≤ n.maxUse := by
    intro b n hn
    rw [hheap] at hn
    by_cases hb : b = leaf
    · rw [hb, Function.update_self, Option.some.injEq] at hn
      subst hn
      rw [hl]
      exact ⟨hhalf, Nat.le_refl _⟩
    · rw [Function.update_of_ne hb] at hn
      by_cases hb' : b = s.brk + 1
      · rw [hb', Function.update_self, Option.some.injEq] at hn
        subst hn
        rw [hr]
        exact ⟨hhalf, Nat.le_refl _⟩
      · rw [Function.update_of_ne hb'] at hn
        obtain ⟨hle, hge⟩ := h.leaf b n hn
        refine ⟨hle, hge (Nat.pos_of_ne_zero fun hzero => hb ?_)⟩
        rw [hmap.single hzero b n hn, hmap.single hzero leaf m hm]
  -- nothing is at an address that has not been handed out
  have hfresh : ∀ b, s₂'.brk ≤ b → s₂'.dleafHeap b = none := by
    intro b hb
    have hlt := hmap.lt_brk hm
    have hle : s.brk + 2 ≤ b := hbrk ▸ hbrk'.trans hb
    rw [hheap', hheap, Function.update_of_ne, Function.update_of_ne]
    · exact hmap.fresh b (Nat.le_trans (Nat.le_add_right _ 2) hle)
    · exact Nat.ne_of_gt hle
    · exact Nat.ne_of_gt (hlt.trans_le (Nat.le_trans (Nat.le_add_right _ 2) hle))
  have hne : ¬ s₂'.tempLevel = 0 := Nat.pos_iff_ne_zero.mp hpos
  have hmap₂ : Mapped s₂' := ⟨hfresh, fun hz => absurd hz hne, fun hz => absurd hz hne⟩
  have hfill₂ : Filled s₂' := by
    refine ⟨hfill, fun b n hn => ?_⟩
    rw [hheap'] at hn
    exact ⟨(hleaf b n hn).1, fun _ => (hleaf b n hn).2⟩
  let freed : DLeaf := { ml' with tempInsert := 0, altPtr := insertLeaf }
  have hwrite : LeafWrite s₂' (s₂'.setLeaf leaf freed) leaf ml' freed :=
    ⟨hml', rfl, rfl, rfl, rfl, rfl⟩
  refine ⟨hwrite.filled hfill₂ (hfill₂.leaf leaf ml' hml').1 (Nat.le_refl _),
    hwrite.mapped hmap₂, ?_, hlevel ▸ hup⟩
  -- the inner nodes hold no slots
  have hused' : s₂'.used = s₂.used := by
    have hsub : Finset.range s₂.brk ⊆ Finset.range s₂'.brk :=
      Finset.range_subset_range.mpr hbrk'
    rw [TreeState.used, TreeState.used, hheap']
    refine (Finset.sum_subset hsub fun b _ hb => ?_).symm
    have hle : s.brk + 2 ≤ b := hbrk ▸ Nat.le_of_not_lt fun hlt => hb (Finset.mem_range.mpr hlt)
    have hlt := hmap.lt_brk hm
    rw [hheap, Function.update_of_ne, Function.update_of_ne,
      hmap.fresh b (Nat.le_trans (Nat.le_add_right _ 2) hle)]
    · rfl
    · exact Nat.ne_of_gt hle
    · exact Nat.ne_of_gt (hlt.trans_le (Nat.le_trans (Nat.le_add_right _ 2) hle))
  exact (Nat.add_right_cancel (hwrite.used hmap₂)).trans (hused'.trans hused)

/-! ### insert -/

/-- A call of `insert` keeps the fill, and uses one slot more if it inserts. -/
theorem insert_filled [Pmem P] {n : Nat} {t : Tid} {val : Word} {valueLen : BitVec 32} {b : Bool}
    (h : Filled s) (hmap : Mapped s) (hrun : insert n s t key val valueLen = .ok (b, s')) :
    Filled s' ∧ Mapped s' ∧ s'.used = s.used + b.toNat ∧ s.tempLevel ≤ s'.tempLevel := by
  induction n generalizing s with
  | zero => cases hrun
  | succ n ih =>
    have hlocked : ∀ {leaf s₁ b}, lockLeaf s key = .ok (b, leaf, s₁) →
        Filled s₁ ∧ Mapped s₁ ∧ s₁.used = s.used ∧ s₁.tempLevel = s.tempLevel := by
      intro leaf s₁ b hlock
      obtain ⟨m, m', hwrite, huse⟩ := lockLeaf_write hlock
      refine ⟨hwrite.filled h ?_ (Nat.le_of_eq huse.symm), hwrite.mapped hmap, ?_, hwrite.tempLevel⟩
      · rw [huse]
        exact (h.leaf leaf m hwrite.leaf).1
      · have hused := hwrite.used hmap
        rw [huse] at hused
        exact Nat.add_right_cancel hused
    cases insertRound hrun with
    | busy leaf s₁ hlock hrest =>
      obtain ⟨h₁, hmap₁, hused, hlevel⟩ := hlocked hlock
      obtain ⟨h', hmap', hused', hlevel'⟩ := ih h₁ hmap₁ hrest
      exact ⟨h', hmap', hused ▸ hused', hlevel ▸ hlevel'⟩
    | present leaf m hlock hm hdup hb =>
      obtain ⟨h₁, hmap₁, hused, hlevel⟩ := hlocked hlock
      subst hb
      exact ⟨h₁, hmap₁, hused, Nat.le_of_eq hlevel.symm⟩
    | fill leaf s₁ m hlock hm hdup hroom hfill hb =>
      obtain ⟨h₁, hmap₁, hused, hlevel⟩ := hlocked hlock
      obtain ⟨m₀, m', hwrite, huse⟩ := fillSlot_write hfill
      obtain rfl : m₀ = m := Option.some.inj (hwrite.leaf.symm.trans hm)
      subst hb
      refine ⟨hwrite.filled h₁ (huse ▸ hroom) (huse ▸ Nat.le_succ _), hwrite.mapped hmap₁, ?_,
        Nat.le_of_eq (hwrite.tempLevel.trans hlevel).symm⟩
      have hsum := hwrite.used hmap₁
      rw [huse, ← Nat.add_assoc, Nat.add_right_comm] at hsum
      rw [Nat.add_right_cancel hsum, hused]
      rfl
    | split leaf s₁ m leaf2 splitKey insertLeaf s₂ s₃ hlock hm hdup hfull hsplit hinstall hrest =>
      obtain ⟨h₁, hmap₁, hused, hlevel⟩ := hlocked hlock
      obtain ⟨h₃, hmap₃, hused₃, hup⟩ := split_filled h₁ hmap₁ hm hfull hsplit hinstall
      obtain ⟨h', hmap', hused', hlevel'⟩ := ih h₃ hmap₃ hrest
      refine ⟨h', hmap', ?_, hlevel ▸ hup.trans hlevel'⟩
      rw [hused', hused₃, hused]

/-! ### The arrays

`node_key` has room for `MAX_LEAF_KEY + 1` separators and `root_path` for `MAX_TREE_LEVEL` cursors. An access
is a pair of an index and a bound; a call stays in its arrays if all of its accesses do. For `root_path` this
is where the limit is treated that the definitions of `TreeModel` leave out. -/

/-- The access stays in its array, `root_path` taken to have `levels` slots. -/
def Access.Within (levels : Nat) : Access → Prop
  | nodeKey i => i < MAX_LEAF_KEY + 1
  | rootPath level => level < levels

theorem Access.Within.mono {k k' : Nat} (hle : k ≤ k') {x : Access} (h : x.Within k) : x.Within k' := by
  cases x with
  | nodeKey i => exact h
  | rootPath level => exact Nat.lt_of_lt_of_le h hle

theorem blockAccesses_within {lo n : Nat} (hn : lo + n ≤ MAX_LEAF_KEY + 1) (k : Nat) :
    ∀ x ∈ blockAccesses lo n, x.Within k := by
  intro x hx
  obtain ⟨i, hi, rfl⟩ := List.mem_map.mp hx
  exact Nat.lt_of_lt_of_le (List.mem_range'_1.mp hi).2 hn

theorem halfAccesses_within (k : Nat) : ∀ x ∈ halfAccesses, x.Within k := by
  intro x hx
  simp only [halfAccesses, List.mem_append, List.mem_cons] at hx
  rcases hx with (((rfl | hx) | hx) | hx) | hx
  · exact show SPLIT_POS + 1 < MAX_LEAF_KEY + 1 by decide
  · exact blockAccesses_within (by decide) k x hx
  · exact blockAccesses_within (by decide) k x hx
  · exact blockAccesses_within (by decide) k x hx
  · exact blockAccesses_within (by decide) k x hx

theorem rootAccesses_within (k : Nat) : ∀ x ∈ rootAccesses, x.Within k := by
  intro x hx
  simp only [rootAccesses, List.mem_append, List.mem_singleton] at hx
  rcases hx with hx | rfl
  · exact blockAccesses_within (by decide) k x hx
  · exact Nat.succ_pos _

theorem scanAccesses_within (nd : InnerNode) (key : Key) (n i k : Nat) (hn : i + n = nd.maxSize)
    (hsize : nd.maxSize ≤ MAX_LEAF_KEY) :
    ∀ x ∈ scanAccesses nd key (nd.maxSize - 1) n i, x.Within k := by
  induction n generalizing i with
  | zero => exact fun x hx => absurd hx List.not_mem_nil
  | succ n ih =>
    have hi : i < MAX_LEAF_KEY + 1 := by omega
    have hnext : i + 1 < MAX_LEAF_KEY + 1 := by omega
    intro x hx
    unfold scanAccesses at hx
    rcases List.mem_cons.mp hx with rfl | hx
    · exact hi
    · split at hx
      · cases hx
      · split at hx
        · obtain rfl := List.mem_singleton.mp hx
          exact hi
        · split at hx
          · simp only [List.mem_cons, List.not_mem_nil, or_false] at hx
            rcases hx with rfl | rfl
            · exact hnext
            · exact hi
          · rcases List.mem_append.mp hx with hx | hx
            · split at hx
              · obtain rfl := List.mem_singleton.mp hx
                exact hnext
              · cases hx
            · exact ih (i + 1) (by omega) x hx

theorem findInsertAccesses_within (h : InnerFilled s) (key : Key) {searchLevel d k : Nat} (a : Addr)
    (hd : searchLevel + d ≤ k) : ∀ x ∈ findInsertAccesses s key searchLevel d a, x.Within k := by
  induction d generalizing searchLevel a with
  | zero => exact fun x hx => absurd hx List.not_mem_nil
  | succ d ih =>
    intro x hx
    unfold findInsertAccesses at hx
    rcases List.mem_cons.mp hx with rfl | hx
    · exact show searchLevel < k by omega
    · split at hx
      · cases hx
      · rename_i nd hnd
        rcases List.mem_append.mp hx with hx | hx
        · exact scanAccesses_within nd key _ 0 k (Nat.zero_add _) (h a nd hnd).1.2 x hx
        · split at hx
          · cases hx
          · exact ih _ (by omega) x hx

theorem scanSeparators_lt {nd : InnerNode} {last n i : Nat} {pos : Int} {child : Addr}
    (h : scanSeparators nd key last n i = some (pos, child)) : pos < (i + n : Nat) := by
  induction n generalizing i with
  | zero => cases h
  | succ n ih =>
    unfold scanSeparators at h
    split at h
    · cases h
      omega
    · split at h
      · cases h
        omega
      · have hlt := ih h
        omega

theorem findInsertFrom_pos (h : InnerFilled s) {d : Nat} {path : List Cursor}
    (hrun : findInsertFrom s key d a = .ok (path, leaf)) :
    path.length = d ∧ ∀ c ∈ path, c.nodePos < MAX_LEAF_KEY := by
  induction d generalizing a path with
  | zero =>
    cases hrun
    exact ⟨rfl, fun c hc => absurd hc List.not_mem_nil⟩
  | succ d ih =>
    unfold findInsertFrom at hrun
    simp only [bind_eq_ok, deref_eq_ok] at hrun
    obtain ⟨nd, hnd, ⟨pos, child⟩, hroute, ⟨rest, leaf'⟩, hrest, hrun⟩ := hrun
    cases hrun
    obtain ⟨hlen, hpos⟩ := ih hrest
    refine ⟨congrArg (· + 1) hlen, fun c hc => ?_⟩
    rcases List.mem_cons.mp hc with rfl | hc
    · have hlt := scanSeparators_lt hroute
      have hsize := (h a nd hnd).1.2
      dsimp only
      omega
    · exact hpos c hc

theorem findInsert_pos (h : InnerFilled s) {path : List Cursor}
    (hrun : findInsert s key = .ok (path, leaf)) :
    path.length = s.tempLevel ∧ ∀ c ∈ path, c.nodePos < MAX_LEAF_KEY := by
  unfold findInsert at hrun
  split at hrun
  · rename_i hlevel
    cases hrun
    exact ⟨hlevel.symm, fun c hc => absurd hc List.not_mem_nil⟩
  · exact findInsertFrom_pos h hrun

theorem entryAccesses_within (nd : InnerNode) {pos : Int} (hsize : nd.maxSize ≤ MAX_LEAF_KEY)
    (hpos : pos < MAX_LEAF_KEY) (k : Nat) : ∀ x ∈ entryAccesses nd pos, x.Within k := by
  have hshift : ∀ lo, ∀ x ∈ (List.range' lo (nd.maxSize - lo)).flatMap
      (fun i => [Access.nodeKey i, .nodeKey (i + 1)]), x.Within k := by
    intro lo x hx
    obtain ⟨i, hi, hx⟩ := List.mem_flatMap.mp hx
    have hlt := List.mem_range'_1.mp hi
    simp only [List.mem_cons, List.not_mem_nil, or_false] at hx
    rcases hx with rfl | rfl
    · exact show i < MAX_LEAF_KEY + 1 by omega
    · exact show i + 1 < MAX_LEAF_KEY + 1 by omega
  have hplace : (Access.nodeKey (pos.toNat + 1)).Within k := by
    change pos.toNat + 1 < MAX_LEAF_KEY + 1
    have hpos' : pos < 30 := hpos
    change pos.toNat + 1 < 31
    omega
  intro x hx
  unfold entryAccesses at hx
  dsimp only at hx
  split at hx
  · rcases List.mem_append.mp hx with hx | hx
    · exact hshift 0 x hx
    · obtain rfl := List.mem_singleton.mp hx
      exact Nat.succ_pos _
  · split at hx
    · obtain rfl := List.mem_singleton.mp hx
      exact hplace
    · rcases List.mem_append.mp hx with hx | hx
      · exact hshift _ x hx
      · obtain rfl := List.mem_singleton.mp hx
        exact hplace

theorem splitInnerAccesses_within (h : InnerFilled s) {path : List Cursor} {right : Addr} {k : Nat}
    (hlen : path.length ≤ k) (hpos : ∀ c ∈ path, c.nodePos < MAX_LEAF_KEY) :
    ∀ x ∈ splitInnerAccesses s path key right, x.Within k := by
  induction path generalizing s key right with
  | nil => exact fun x hx => absurd hx List.not_mem_nil
  | cons c above ih =>
    intro x hx
    unfold splitInnerAccesses at hx
    rcases List.mem_cons.mp hx with rfl | hx
    · exact hlen
    · split at hx
      · cases hx
      · rename_i nd hnd
        rcases List.mem_append.mp hx with hx | hx
        · exact entryAccesses_within nd (h c.node nd hnd).1.2 (hpos c List.mem_cons_self) k x hx
        · split at hx
          · rename_i s₁ upKey upPtr hlevel
            rcases List.mem_append.mp hx with hx | hx
            · exact halfAccesses_within k x hx
            · split at hx
              · exact rootAccesses_within k x hx
              · exact ih (h.splitLevel hlevel).1 (Nat.le_of_succ_le hlen)
                  (fun c' hc' => hpos c' (List.mem_cons_of_mem _ hc')) x hx
          · cases hx

theorem recordAccesses_within (h : InnerFilled s) (key splitKey : Key) (leaf2 : Addr) :
    ∀ x ∈ recordAccesses s key splitKey leaf2, x.Within s.tempLevel := by
  intro x hx
  unfold recordAccesses at hx
  split at hx
  · exact rootAccesses_within _ x hx
  · rcases List.mem_append.mp hx with hx | hx
    · exact findInsertAccesses_within h key s.root (Nat.le_of_eq (Nat.zero_add _)) x hx
    · split at hx
      · cases hx
      · rename_i path leaf hfind
        obtain ⟨hlen, hpos⟩ := findInsert_pos h hfind
        refine splitInnerAccesses_within h ?_ (fun c hc => hpos c (List.mem_reverse.mp hc)) x hx
        rw [List.length_reverse]
        exact Nat.le_of_eq hlen

/-- A call of `insert` stays in its arrays if `root_path` has a slot for each level of the tree
that it leaves. -/
theorem insertAccesses_within [Pmem P] {n : Nat} {t : Tid} {val : Word} {valueLen : BitVec 32}
    {b : Bool} (h : Filled s) (hmap : Mapped s)
    (hrun : insert n s t key val valueLen = .ok (b, s')) :
    ∀ x ∈ insertAccesses n s t key val valueLen, x.Within s'.tempLevel := by
  -- on the rounds: levels are only added, so a path that fits the last tree fits the ones before
  induction n generalizing s with
  | zero => cases hrun
  | succ n ih =>
    have hup := (insert_filled h hmap hrun).2.2.2
    intro x hx
    unfold insertAccesses at hx
    rcases List.mem_append.mp hx with hx | hx
    · exact (findInsertAccesses_within h.inner key s.root
        (Nat.le_of_eq (Nat.zero_add _)) x hx).mono hup
    · cases insertRound hrun with
      -- the leaf is taken, and the next round starts from the same tree
      | busy leaf s₁ hlock hrest =>
        obtain ⟨m, m', hwrite, huse⟩ := lockLeaf_write hlock
        rw [hlock] at hx
        refine ih (hwrite.filled h ?_ (Nat.le_of_eq huse.symm)) (hwrite.mapped hmap) hrest x hx
        rw [huse]
        exact (h.leaf leaf m hwrite.leaf).1
      | present leaf m hlock hm hdup hb =>
        simp only [hlock, hm, hdup] at hx
        cases hx
      | fill leaf s₁ m hlock hm hdup hroom hfill hb =>
        simp only [hlock, hm, hdup, if_pos hroom] at hx
        cases hx
      | split leaf s₁ m leaf2 splitKey insertLeaf s₂ s₃ hlock hm hdup hfull hsplit hinstall hrest =>
        obtain ⟨m₀, m', hwrite, huse⟩ := lockLeaf_write hlock
        have h₁ : Filled s₁ := by
          refine hwrite.filled h ?_ (Nat.le_of_eq huse.symm)
          rw [huse]
          exact (h.leaf leaf m₀ hwrite.leaf).1
        have hmap₁ := hwrite.mapped hmap
        obtain ⟨h₃, hmap₃, -, hup₃⟩ := split_filled h₁ hmap₁ hm hfull hsplit hinstall
        have hup' := (insert_filled h₃ hmap₃ hrest).2.2.2
        simp only [hlock, hm, hdup, if_neg hfull, hsplit, hinstall] at hx
        rcases List.mem_append.mp hx with hx | hx
        · obtain ⟨-, ml, mr, -, -, -, -, -, -, hinner, hroot, hlevel⟩ :=
            splitFull_halves hmap₁ hsplit
          have h₂ : InnerFilled s₂ := by
            unfold InnerFilled
            rw [hinner, hroot]
            exact h₁.inner
          refine (recordAccesses_within h₂ key splitKey leaf2 x hx).mono ?_
          rw [hlevel]
          exact hup₃.trans hup'
        · -- the rounds after the split
          exact ih h₃ hmap₃ hrest x hx

/-! ### Height

Every node but the root has at least 15 separators, so each level multiplies the number of leaves by 16. A
tree of height `h` holds at least `2 * 16 ^ (h - 1)` leaves, each half full. -/

/-- A tree with inner nodes has two subtrees or more, and only nodes that are half full in
them. -/
theorem Upper.pow_le_leaves (h : Upper s) (hfill : Filled s) (hlevel : 1 ≤ s.tempLevel) :
    2 * (LEFT_KEY + 1) ^ (s.tempLevel - 1) ≤ s.index.length := by
  obtain ⟨d, hd⟩ := Nat.exists_eq_succ_of_ne_zero (Nat.pos_iff_ne_zero.mp hlevel)
  have hshape := h.shape
  have hnodup := h.nodup
  rw [TreeState.innerNodes] at hnodup
  rw [TreeState.index]
  rw [hd] at hshape hnodup ⊢
  obtain ⟨c0, es, ha, hsize, hkids⟩ := hshape
  rw [inners_succ ha ⊥, Multiset.nodup_cons] at hnodup
  have hbelow : ShapeKids (innerView s.innerHeap) (LEFT_KEY ≤ ·) d (kids ⊥ c0 es) := by
    intro p hp
    apply (hkids p hp).strengthen
    intro b hb c0' es' hb'
    obtain ⟨nd, hnd, -, rfl⟩ := innerView_eq_some hb'
    rw [InnerNode.entries_length]
    apply (hfill.inner b nd hnd).2
    rintro rfl
    exact hnodup.1 (Multiset.mem_of_le (inners_le_innersKids hp) hb)
  have hmany := hbelow.pow_le_length fun n hn => hn
  rw [flat_succ ha]
  rw [kids_length] at hmany
  exact (Nat.mul_le_mul_right _ (Nat.succ_le_succ hsize.1)).trans hmany

variable {tail : Addr}

theorem Skeleton.leaves_le_used {cuts : Cuts} (h : Skeleton cuts tail s) (hfill : Filled s)
    (hlevel : 1 ≤ s.tempLevel) : s.index.length * LEFT_KEY ≤ s.used := by
  have hnodup := h.index_nodup
  have hsub : (labels s.index).toFinset ⊆ Finset.range s.brk := by
    intro a ha
    exact Finset.mem_range.mpr (h.leaf_lt a (mem_leaves_of_index (List.mem_toFinset.mp ha))).2
  have hcard : (labels s.index).toFinset.card = s.index.length := by
    rw [List.toFinset_card_of_nodup hnodup, labels, List.length_map]
  rw [← hcard, ← smul_eq_mul]
  refine le_trans ?_ (Finset.sum_le_sum_of_subset hsub)
  apply Finset.card_nsmul_le_sum
  intro a ha
  obtain ⟨m, hm⟩ := h.of_index (List.mem_toFinset.mp ha)
  rw [hm]
  exact (hfill.leaf a m hm).2 hlevel

variable [Pmem P] [LawfulPmem P]

theorem Inv.pow_le_used {cuts : Cuts} (h : Inv cuts tail s) (hfill : Filled s)
    (hlevel : 1 ≤ s.tempLevel) : 30 * 16 ^ (s.tempLevel - 1) ≤ s.used := by
  have hleaves := h.skel.upper.pow_le_leaves hfill hlevel
  have hused := h.skel.leaves_le_used hfill hlevel
  calc 30 * 16 ^ (s.tempLevel - 1)
      = 2 * (LEFT_KEY + 1) ^ (s.tempLevel - 1) * LEFT_KEY := by
        rw [Nat.mul_right_comm]
        rfl
    _ ≤ s.index.length * LEFT_KEY := Nat.mul_le_mul_right _ hleaves
    _ ≤ s.used := hused

/-! ### Runs -/

omit [LawfulPmem P] in
theorem init_filled {pm : P} {t : Tid} {junkInner : Addr → InnerNode} {junkLeaf : Addr → DLeaf}
    (hrun : init pm t junkInner junkLeaf = .ok s) : Filled s ∧ Mapped s ∧ s.used = 0 := by
  unfold init at hrun
  simp only [bind_eq_ok, deref_eq_ok] at hrun
  obtain ⟨⟨newRoot, pm₁⟩, -, l, -, pm₂, -, hrun⟩ := hrun
  cases hrun
  have hheap : ∀ b n, (Function.update (fun _ => none) 1 (some ((junkLeaf 1).first newRoot)) :
      Addr → Option DLeaf) b = some n → b = 1 ∧ n = (junkLeaf 1).first newRoot := by
    intro b n hn
    by_cases hb : b = 1
    · subst hb
      rw [Function.update_self, Option.some.injEq] at hn
      exact ⟨rfl, hn.symm⟩
    · rw [Function.update_of_ne hb] at hn
      cases hn
  refine ⟨⟨fun a nd hnd => (by cases hnd), fun b n hn => ?_⟩, ⟨fun b hb => ?_, fun _ _ => rfl,
    fun _ b n hn => (hheap b n hn).1⟩, ?_⟩
  · obtain ⟨-, rfl⟩ := hheap b n hn
    exact ⟨Nat.zero_le _, fun hz => absurd hz (Nat.not_succ_le_zero 0)⟩
  · have hne : b ≠ 1 := Nat.ne_of_gt hb
    exact Function.update_of_ne hne _ _
  · change ∑ a ∈ Finset.range 2, _ = 0
    rw [Finset.sum_range_succ, Finset.sum_range_one]
    rfl

/-- A whole run, by induction on the insertions. -/
theorem Represents.run_filled {n : Nat} {M : Key → Option Word} (t : Tid)
    (entries : List (Key × Word × BitVec 32)) (h : Represents (2 * entries.length + n) tail s M)
    (hkeys : (entries.map Prod.fst).Nodup) (hnew : ∀ k ∈ entries.map Prod.fst, M k = none)
    (hfill : Filled s) (hmap : Mapped s) :
    ∃ answers s', mapRun t s (insertOps entries) = .ok (answers, s') ∧ Inv Cuts.empty tail s' ∧
      Filled s' ∧ s'.used = s.used + entries.length ∧ s.tempLevel ≤ s'.tempLevel ∧
      ∀ x ∈ runAccesses t s entries, x.Within s'.tempLevel := by
  induction entries generalizing s M with
  | nil => exact ⟨[], s, rfl, h.inv, hfill, rfl, Nat.le_refl _, fun x hx => by cases hx⟩
  | cons e entries ih =>
    obtain ⟨key, val, valueLen⟩ := e
    rw [List.map_cons, List.nodup_cons] at hkeys
    obtain ⟨hnotin, hkeys'⟩ := hkeys
    have hroom : 2 * ((key, val, valueLen) :: entries).length + n = 2 * entries.length + n + 2 := by
      rw [List.length_cons]
      omega
    rw [hroom] at h
    obtain ⟨s₁, hrun, hrep, -⟩ := h.insert t (hnew key List.mem_cons_self) val valueLen
    obtain ⟨hfill₁, hmap₁, hused₁, hup₁⟩ := insert_filled hfill hmap hrun
    have hnew' : ∀ k ∈ entries.map Prod.fst, Function.update M key (some val) k = none := by
      intro k hk
      rw [Function.update_of_ne]
      · exact hnew k (List.mem_cons_of_mem _ hk)
      · rintro rfl
        exact hnotin hk
    obtain ⟨answers, s', hrest, hinv, hfill', hused', hup', hwithin⟩ :=
      ih hrep hkeys' hnew' hfill₁ hmap₁
    refine ⟨.inserted true :: answers, s', ?_, hinv, hfill', ?_, hup₁.trans hup', ?_⟩
    · change mapRun t s (.insert key val valueLen :: insertOps entries) = _
      simp only [mapRun, mapStep, hrun, ok_bind, pure_eq_ok, hrest]
    · rw [hused', hused₁, List.length_cons, Nat.add_assoc, Nat.add_comm entries.length]
      rfl
    · intro x hx
      unfold runAccesses at hx
      rcases List.mem_append.mp hx with hx | hx
      · exact (insertAccesses_within hfill hmap hrun x hx).mono hup'
      · rw [hrun] at hx
        exact hwithin x hx

/-- After any number of insertions of distinct keys the leaves are between half full and full,
and so are the inner nodes but the root, so that the number of entries is exponential in the
height; `node_key` is only ever indexed inside its 31 slots, and `root_path` inside its
twelve as long as there are fewer than `30 * 16 ^ 12` insertions. -/
theorem inserts_filled (pm : P) (t : Tid) (junkInner : Addr → InnerNode) (junkLeaf : Addr → DLeaf)
    (entries : List (Key × Word × BitVec 32)) (hroom : LawfulPmem.Ok (2 * entries.length + 1) pm)
    (hkeys : (entries.map Prod.fst).Nodup) :
    ∃ s₀ answers s, init pm t junkInner junkLeaf = .ok s₀ ∧
      mapRun t s₀ (insertOps entries) = .ok (answers, s) ∧ Filled s ∧
      (1 ≤ s.tempLevel → 30 * 16 ^ (s.tempLevel - 1) ≤ entries.length) ∧
      (∀ i, .nodeKey i ∈ runAccesses t s₀ entries → i < MAX_LEAF_KEY + 1) ∧
      (entries.length < 30 * 16 ^ 12 →
        ∀ level, .rootPath level ∈ runAccesses t s₀ entries → level < MAX_TREE_LEVEL) := by
  obtain ⟨s₀, hinit, hrep⟩ := represents_init (n := 2 * entries.length + 0) hroom t junkInner junkLeaf
  obtain ⟨hfill₀, hmap₀, hused₀⟩ := init_filled hinit
  obtain ⟨answers, s, hrun, hinv, hfill, hused, -, hwithin⟩ :=
    hrep.run_filled t entries hkeys (fun _ _ => rfl) hfill₀ hmap₀
  rw [hused₀, Nat.zero_add] at hused
  have hheight : 1 ≤ s.tempLevel → 30 * 16 ^ (s.tempLevel - 1) ≤ entries.length := by
    intro hlevel
    rw [← hused]
    exact hinv.pow_le_used hfill hlevel
  refine ⟨s₀, answers, s, hinit, hrun, hfill, hheight, fun i hi => hwithin _ hi, ?_⟩
  intro hfew level hlevel
  apply Nat.lt_of_lt_of_le (hwithin _ hlevel)
  by_contra hdeep
  have hpow : 16 ^ 12 ≤ 16 ^ (s.tempLevel - 1) :=
    Nat.pow_le_pow_right (by decide) (Nat.le_sub_one_of_lt (Nat.lt_of_not_le hdeep))
  have hpos : 1 ≤ s.tempLevel := Nat.succ_le_of_lt (Nat.lt_of_le_of_lt (Nat.zero_le _) (Nat.lt_of_not_le hdeep))
  exact absurd ((Nat.mul_le_mul_left 30 hpow).trans (hheight hpos)) (Nat.not_le_of_lt hfew)

theorem inserts_filled_split : ∃ s₀ answers s, init (IdealPm.roomy 100) 0 zeroInner zeroLeaf = .ok s₀ ∧
    mapRun 0 s₀ (insertOps scattered) = .ok (answers, s) ∧ s.tempLevel = 1 ∧ Filled s ∧
    ∀ level, .rootPath level ∈ runAccesses 0 s₀ scattered → level < MAX_TREE_LEVEL := by
  obtain ⟨s₀, answers, s, hinit, hrun, hfill, -, -, hpath⟩ := inserts_filled (IdealPm.roomy 100) 0
    zeroInner zeroLeaf scattered (IdealPm.roomy_lawful (by decide) (by decide)) (by decide +kernel)
  have hlevel : (init (IdealPm.roomy 100) 0 zeroInner zeroLeaf >>= fun s₀ =>
      mapRun 0 s₀ (insertOps scattered)).toOption.map (fun r => r.2.tempLevel) = some 1 := by
    decide +kernel
  rw [hinit, ok_bind, hrun] at hlevel
  exact ⟨s₀, answers, s, hinit, hrun, Option.some.inj hlevel, hfill, hpath (by decide)⟩

end ZBTree
