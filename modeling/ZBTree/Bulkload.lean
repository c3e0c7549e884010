import ZBTree.FillBounds
import ZBTree.MergeInner

/-!
# Bulk loading

`bulkload` puts the inner nodes over a chain of leaves, from left to right. It keeps the right-most node
of every level; a full one is handed on to the level above together with a new one, so that the levels
count the leaves in base 31. A right-most node that has no separator at the end has just been opened;
only the lowest of these gets one.
-/

namespace ZBTree

open RangeIndex MultiwayTree

variable {P : Type}

/-! ### bulkload -/

def InnerNode.zero : InnerNode := ⟨0, 0, 0, fun _ => 0, fun _ => 0⟩

/-- `ceiling` (`zbtree.cpp`); an overflow of the sum is undefined and ends the run here. -/
def ceiling (keyNum nodeKey : Int) : Exec Int :=
  if keyNum + nodeKey < 2 ^ 31 then .ok ((keyNum + nodeKey - 1).tdiv nodeKey) else .error .abort

/-- The loop that opens the levels, from level `i` on; it also gives `load_level`. -/
def openLevels : Nat → Nat → Int → Int → TreeState P → (Nat → Addr) → Exec (TreeState P × (Nat → Addr) × Nat)
  | 0, i, _, _, s, everyPtr => .ok (s, everyPtr, i - 1)
  | rounds + 1, i, maxNode, below, s, everyPtr =>
    if 1 < maxNode then do
      let count ← ceiling below (MAX_LEAF_KEY + 1)
      let (node, s) := s.mallocInner fun _ => InnerNode.zero
      openLevels rounds (i + 1) count count s (Function.update everyPtr i node)
    else .ok (s, everyPtr, i - 1)

/-- The loop on `j` for one leaf; `every_ptr` has no entries from `MAX_TREE_LEVEL` on. -/
def linkChild (key : Key) : Nat → Nat → TreeState P → (Nat → Addr) → Addr → Addr →
    Exec (TreeState P × (Nat → Addr))
  | 0, _, _, _, _, _ => .error .segv
  | rounds + 1, j, s, everyPtr, leftChild, rightChild => do
    let tempNode ← deref (s.innerHeap (everyPtr j))
    if tempNode.leftMostPtr = 0 then
      return (s.setInner (everyPtr j) { tempNode with
        leftMostPtr := leftChild
        nodeKey0 := Function.update tempNode.nodeKey0 0 key
        nodeKey1 := Function.update tempNode.nodeKey1 0 rightChild
        maxSize := tempNode.maxSize + 1 }, everyPtr)
    else if tempNode.maxSize = MAX_LEAF_KEY then
      let (node, s) := s.mallocInner fun _ => { InnerNode.zero with leftMostPtr := rightChild }
      linkChild key rounds (j + 1) s (Function.update everyPtr j node) (everyPtr j) node
    else
      return (s.setInner (everyPtr j) { tempNode with
        nodeKey0 := Function.update tempNode.nodeKey0 tempNode.maxSize key
        nodeKey1 := Function.update tempNode.nodeKey1 tempNode.maxSize rightChild
        maxSize := tempNode.maxSize + 1 }, everyPtr)

/-- The loop over the leaves, with the rounds that are left and the counter `i`, an `int`. -/
def loadLeaves : Nat → Nat → TreeState P → (Nat → Addr) → Addr → Exec (TreeState P × (Nat → Addr) × Addr)
  | 0, _, s, everyPtr, danchor => .ok (s, everyPtr, danchor)
  | rounds + 1, i, s, everyPtr, danchor => do
    let m ← deref (s.dleafHeap danchor)
    let (s, everyPtr) ← linkChild m.maxKey (MAX_TREE_LEVEL - 1) 1 s everyPtr danchor m.next
    let next ← deref (s.dleafHeap m.next)
    if next.next = 0 then return (s, everyPtr, m.next)
    else if i + 1 < 2 ^ 31 then loadLeaves rounds (i + 1) s everyPtr m.next
    else .error .abort

/-- The last loop: the lowest right-most node without separators gets one. -/
def closeLevels (s : TreeState P) (everyPtr : Nat → Addr) (danchor : Addr) : Nat → Nat → Exec (TreeState P)
  | 0, _ => .ok s
  | rounds + 1, i => do
    let thisNode ← deref (s.innerHeap (everyPtr i))
    if thisNode.maxSize = 0 then
      let m ← deref (s.dleafHeap danchor)
      return s.setInner (everyPtr i) { thisNode with
        nodeKey0 := Function.update thisNode.nodeKey0 0 m.maxKey
        maxSize := thisNode.maxSize + 1 }
    else closeLevels s everyPtr danchor rounds (i + 1)

/-- `Tree::bulkload` (`zbtree.cpp`); `clht_get` is a parameter, and `every_offset` is only counted and printed. -/
def bulkload (s : TreeState P) (clhtGet : Addr → Addr) (leafcount : Word) : Exec (TreeState P) := do
  let danchor := clhtGet s.leafStart
  let _ ← deref (s.dleafHeap danchor)
  let leafCount := (leafcount.setWidth 32).toInt
  let maxNode ← ceiling leafCount (MAX_LEAF_KEY + 1)
  let (s, everyPtr, loadLevel) ← openLevels (MAX_TREE_LEVEL - 1) 1 maxNode leafCount s
    (Function.update (fun _ => 0) 0 danchor)
  let s := { s with root := everyPtr loadLevel, tempLevel := loadLevel }
  let (s, everyPtr, danchor) ← loadLeaves leafcount.toNat 0 s everyPtr danchor
  closeLevels s everyPtr danchor loadLevel 1

/-! ### The levels as counters

Linking a leaf is counting: level `j` has taken in `m / 31 ^ j` children after leaf `m`, and a node that is
full is a carry to the level above. The invariant `Loading` says so for every level at once, and each of the
steps of the source (a child in the last node, a new node, a new level) keeps it. -/

/-- Node `k` of a level whose children are `child`, with the separator `sep c` before the child `c`, when
the level has taken in the children up to `p`. -/
structure LoadedNode (child : Nat → Addr) (sep : Nat → Key) (nd : InnerNode) (k p : Nat) : Prop where
  first : nd.leftMostPtr = if p = 0 then 0 else child (31 * k)
  size : nd.maxSize = min MAX_LEAF_KEY (p - 31 * k)
  entry : ∀ i < nd.maxSize, nd.nodeKey0 i = sep (31 * k + i + 1) ∧ nd.nodeKey1 i = child (31 * k + i + 1)
  unused : ∀ i, nd.maxSize ≤ i → nd.nodeKey1 i = 0

/-- Nodes `node 1` to `node levels` over the leaves `node 0` with the bounds `K`: `seen j` is the last
node of level `j` that the level above has taken in. -/
structure Loading (s : TreeState P) (everyPtr : Nat → Addr) (node : Nat → Nat → Addr) (K : Nat → Key)
    (levels : Nat) (seen : Nat → Nat) : Prop where
  right : ∀ j, j < levels → everyPtr (j + 1) = node (j + 1) (seen j / 31)
  nodes : ∀ j k, j < levels → k ≤ seen j / 31 → ∃ nd, s.innerHeap (node (j + 1) k) = some nd ∧
    LoadedNode (node j) (fun c => K (31 ^ j * c - 1)) nd k (seen j)
  distinct : ∀ j k j' k', j < levels → j' < levels → k ≤ seen j / 31 → k' ≤ seen j' / 31 →
    node (j + 1) k = node (j' + 1) k' → j = j' ∧ k = k'
  below : ∀ j k, j < levels → k ≤ seen j / 31 → 0 < node (j + 1) k ∧ node (j + 1) k < s.brk
  seen_le : ∀ j, j + 1 < levels → seen (j + 1) ≤ seen j / 31

section Levels

variable {s : TreeState P} {everyPtr : Nat → Addr} {node : Nat → Nat → Addr} {K : Nat → Key} {levels : Nat}
  {seen : Nat → Nat} {child : Nat → Addr} {sep : Nat → Key} {nd : InnerNode} {j k p : Nat}

theorem LoadedNode.later (h : LoadedNode child sep nd k p) (hfull : 31 * k + 30 ≤ p) :
    LoadedNode child sep nd k (p + 1) where
  first := by
    have hp : p ≠ 0 := by omega
    rw [h.first, if_neg hp, if_neg (Nat.succ_ne_zero p)]
  size := by
    rw [h.size, Nat.min_eq_left (by simp only [MAX_LEAF_KEY]; omega),
      Nat.min_eq_left (by simp only [MAX_LEAF_KEY]; omega)]
  entry := h.entry
  unused := h.unused

theorem LoadedNode.last_size (h : LoadedNode child sep nd (p / 31) p) : nd.maxSize = p % 31 := by
  rw [h.size, MAX_LEAF_KEY]
  omega

theorem LoadedNode.link_first (h : LoadedNode child sep nd (0 / 31) 0) :
    LoadedNode child sep { nd with
      leftMostPtr := child 0
      nodeKey0 := Function.update nd.nodeKey0 0 (sep 1)
      nodeKey1 := Function.update nd.nodeKey1 0 (child 1)
      maxSize := nd.maxSize + 1 } (1 / 31) 1 := by
  have hsize : nd.maxSize = 0 := h.last_size
  refine ⟨rfl, by rw [hsize]; rfl, fun i hi => ?_, fun i hi => ?_⟩
  · obtain rfl : i = 0 := by
      dsimp only at hi
      omega
    dsimp only
    rw [Function.update_self, Function.update_self]
    exact ⟨rfl, rfl⟩
  · dsimp only at hi ⊢
    rw [Function.update_of_ne (by omega)]
    exact h.unused i (by omega)

theorem LoadedNode.link (h : LoadedNode child sep nd (p / 31) p) (hp : p ≠ 0) (hroom : (p + 1) % 31 ≠ 0) :
    LoadedNode child sep { nd with
      nodeKey0 := Function.update nd.nodeKey0 nd.maxSize (sep (p + 1))
      nodeKey1 := Function.update nd.nodeKey1 nd.maxSize (child (p + 1))
      maxSize := nd.maxSize + 1 } ((p + 1) / 31) (p + 1) := by
  have hsize := h.last_size
  have hsame : (p + 1) / 31 = p / 31 := by omega
  have hplace : 31 * (p / 31) + nd.maxSize + 1 = p + 1 := by omega
  rw [hsame]
  refine ⟨?_, ?_, fun i hi => ?_, fun i hi => ?_⟩
  · rw [if_neg (Nat.succ_ne_zero p)]
    exact h.first.trans (if_neg hp)
  · dsimp only
    rw [MAX_LEAF_KEY]
    omega
  · dsimp only at hi ⊢
    by_cases hlast : i = nd.maxSize
    · subst hlast
      rw [Function.update_self, Function.update_self, hplace]
      exact ⟨rfl, rfl⟩
    · rw [Function.update_of_ne hlast, Function.update_of_ne hlast]
      exact h.entry i (by omega)
  · dsimp only at hi ⊢
    rw [Function.update_of_ne (by omega)]
    exact h.unused i (by omega)

/-- The level above the nodes of level `j` takes in one more of them, in its last node. -/
theorem Loading.setLast (h : Loading s everyPtr node K levels seen) (hj : j < levels)
    (hroom : (seen j + 1) % 31 ≠ 0) (hbelow : ∀ i, i + 1 = j → seen j + 1 ≤ seen i / 31)
    (hnd : LoadedNode (node j) (fun c => K (31 ^ j * c - 1)) nd ((seen j + 1) / 31) (seen j + 1)) :
    Loading (s.setInner (everyPtr (j + 1)) nd) everyPtr node K levels (Function.update seen j (seen j + 1)) := by
  -- the child goes into the node that is last already, so no last node moves
  have hsame : (seen j + 1) / 31 = seen j / 31 := by omega
  have hlast : ∀ i, Function.update seen j (seen j + 1) i / 31 = seen i / 31 := by
    intro i
    by_cases hi : i = j
    · rw [hi, Function.update_self, hsame]
    · rw [Function.update_of_ne hi]
  refine ⟨?_, ?_, ?_, ?_, ?_⟩
  · intro i hi
    rw [hlast]
    exact h.right i hi
  · intro i k hi hk
    rw [hlast] at hk
    -- only the last node of this level is written
    by_cases hhere : i = j ∧ k = seen j / 31
    · obtain ⟨rfl, rfl⟩ := hhere
      refine ⟨nd, ?_, ?_⟩
      · rw [← h.right i hi]
        exact Function.update_self ..
      · rw [Function.update_self, ← hsame]
        exact hnd
    · obtain ⟨nd', hnd', hload⟩ := h.nodes i k hi hk
      have hne : node (i + 1) k ≠ everyPtr (j + 1) := by
        rw [h.right j hj]
        exact fun heq => hhere (h.distinct i k j _ hi hj hk (Nat.le_refl _) heq)
      refine ⟨nd', (Function.update_of_ne hne ..).trans hnd', ?_⟩
      by_cases hij : i = j
      · subst hij
        rw [Function.update_self]
        apply hload.later
        have hlt : k < seen i / 31 := Nat.lt_of_le_of_ne hk fun heq => hhere ⟨rfl, heq⟩
        omega
      · rwa [Function.update_of_ne hij]
  · intro i k i' k' hi hi' hk hk'
    rw [hlast] at hk hk'
    exact h.distinct i k i' k' hi hi' hk hk'
  · intro i k hi hk
    rw [hlast] at hk
    exact h.below i k hi hk
  · intro i hi
    rw [hlast]
    by_cases hij : i + 1 = j
    · rw [hij, Function.update_self]
      exact hbelow i hij
    · rw [Function.update_of_ne hij]
      exact h.seen_le i hi

theorem LoadedNode.congr {child' : Nat → Addr} (h : LoadedNode child sep nd k p) (hk : k ≤ p / 31)
    (hsame : ∀ c, c ≤ p → child' c = child c) : LoadedNode child' sep nd k p where
  first := by
    rw [h.first, hsame (31 * k) (by omega)]
  size := h.size
  entry i hi := by
    have hsize := h.size
    rw [MAX_LEAF_KEY] at hsize
    rw [hsame (31 * k + i + 1) (by omega)]
    exact h.entry i hi
  unused := h.unused

def putNode (node : Nat → Nat → Addr) (j c : Nat) (a : Addr) : Nat → Nat → Addr :=
  fun i k => if i = j ∧ k = c then a else node i k

theorem putNode_self (node : Nat → Nat → Addr) (j c : Nat) (a : Addr) : putNode node j c a j c = a :=
  if_pos ⟨rfl, rfl⟩

theorem putNode_of_ne {i c : Nat} {a : Addr} (h : ¬ (i = j ∧ k = c)) : putNode node j c a i k = node i k :=
  if_neg h

/-- The last node of the level is full, and the child that comes next begins a new one. -/
theorem Loading.openNode (h : Loading s everyPtr node K levels seen) (hj : j < levels) (hbrk : 0 < s.brk)
    (hfull : (seen j + 1) % 31 = 0) (hbelow : ∀ i, i + 1 = j → seen j + 1 ≤ seen i / 31) :
    Loading (s.mallocInner fun _ => { InnerNode.zero with leftMostPtr := node j (seen j + 1) }).2
      (Function.update everyPtr (j + 1) s.brk) (putNode node (j + 1) ((seen j + 1) / 31) s.brk) K levels
      (Function.update seen j (seen j + 1)) := by
  have hnext : (seen j + 1) / 31 = seen j / 31 + 1 := by omega
  -- a node is the new one or one of the old
  have hcases : ∀ i k, i < levels → k ≤ Function.update seen j (seen j + 1) i / 31 →
      (i = j ∧ k = (seen j + 1) / 31 ∧ putNode node (j + 1) ((seen j + 1) / 31) s.brk (i + 1) k = s.brk) ∨
      (¬ (i = j ∧ k = (seen j + 1) / 31) ∧ k ≤ seen i / 31 ∧
        putNode node (j + 1) ((seen j + 1) / 31) s.brk (i + 1) k = node (i + 1) k) := by
    intro i k hi hk
    by_cases hnew : i = j ∧ k = (seen j + 1) / 31
    · obtain ⟨rfl, rfl⟩ := hnew
      exact Or.inl ⟨rfl, rfl, putNode_self ..⟩
    · refine Or.inr ⟨hnew, ?_, putNode_of_ne fun heq => hnew ⟨Nat.succ.inj heq.1, heq.2⟩⟩
      by_cases hij : i = j
      · subst hij
        rw [Function.update_self] at hk
        have hne : k ≠ (seen i + 1) / 31 := fun heq => hnew ⟨rfl, heq⟩
        omega
      · rwa [Function.update_of_ne hij] at hk
  refine ⟨?_, ?_, ?_, ?_, ?_⟩
  · intro i hi
    by_cases hij : i = j
    · subst hij
      rw [Function.update_self, Function.update_self, putNode_self]
    · rw [Function.update_of_ne (fun heq => hij (Nat.succ.inj heq)), Function.update_of_ne hij,
        putNode_of_ne (fun heq => hij (Nat.succ.inj heq.1))]
      exact h.right i hi
  · intro i k hi hk
    rcases hcases i k hi hk with ⟨rfl, rfl, hname⟩ | ⟨hold, hk', hname⟩
    · refine ⟨_, (congrArg _ hname).trans (Function.update_self ..), ?_, ?_, ?_, fun _ _ => rfl⟩
      · rw [Function.update_self, if_neg (Nat.succ_ne_zero _), putNode_of_ne (by omega)]
        have hplace : 31 * ((seen i + 1) / 31) = seen i + 1 := by omega
        rw [hplace]
      · rw [Function.update_self]
        show 0 = _
        omega
      · exact fun e he => absurd he (Nat.not_lt_zero e)
    · obtain ⟨nd, hnd, hload⟩ := h.nodes i k hi hk'
      -- an old node lies below `brk`, and its children keep their names
      have hne : node (i + 1) k ≠ s.brk := (h.below i k hi hk').2.ne
      refine ⟨nd, ?_, ?_⟩
      · rw [hname]
        exact (Function.update_of_ne hne ..).trans hnd
      · have hchild : ∀ c, c ≤ seen i → putNode node (j + 1) ((seen j + 1) / 31) s.brk i c = node i c := by
          intro c hc
          apply putNode_of_ne
          rintro ⟨rfl, rfl⟩
          have hle := h.seen_le j hi
          omega
        have hload' := hload.congr hk' hchild
        by_cases hij : i = j
        · subst hij
          rw [Function.update_self]
          exact hload'.later (by omega)
        · rwa [Function.update_of_ne hij]
  · intro i k i' k' hi hi' hk hk' heq
    -- the new node differs from all old ones, which lie below it
    rcases hcases i k hi hk with ⟨hij, hkc, hname⟩ | ⟨-, hkold, hname⟩ <;>
      rcases hcases i' k' hi' hk' with ⟨hij', hkc', hname'⟩ | ⟨-, hkold', hname'⟩ <;>
      rw [hname, hname'] at heq
    · exact ⟨hij.trans hij'.symm, hkc.trans hkc'.symm⟩
    · exact absurd heq.symm (h.below i' k' hi' hkold').2.ne
    · exact absurd heq (h.below i k hi hkold).2.ne
    · exact h.distinct i k i' k' hi hi' hkold hkold' heq
  · intro i k hi hk
    rcases hcases i k hi hk with ⟨-, -, hname⟩ | ⟨-, hk, hname⟩
    · rw [hname]
      exact ⟨hbrk, Nat.lt_succ_self _⟩
    · rw [hname]
      exact ⟨(h.below i k hi hk).1, (h.below i k hi hk).2.trans (Nat.lt_succ_self _)⟩
  · intro i hi
    by_cases hij : i = j
    · subst hij
      rw [Function.update_self, Function.update_of_ne (Nat.succ_ne_self i), hnext]
      exact (h.seen_le i hi).trans (Nat.le_succ _)
    · by_cases hij' : i + 1 = j
      · subst hij'
        rw [Function.update_self, Function.update_of_ne hij]
        exact hbelow i rfl
      · rw [Function.update_of_ne hij, Function.update_of_ne hij']
        exact h.seen_le i hi

theorem Loading.congr {seen' : Nat → Nat} (h : Loading s everyPtr node K levels seen)
    (hsame : ∀ i, i < levels → seen' i = seen i) : Loading s everyPtr node K levels seen' where
  right i hi := by
    rw [hsame i hi]
    exact h.right i hi
  nodes i k hi hk := by
    rw [hsame i hi] at hk ⊢
    exact h.nodes i k hi hk
  distinct i k i' k' hi hi' hk hk' := by
    rw [hsame i hi] at hk
    rw [hsame i' hi'] at hk'
    exact h.distinct i k i' k' hi hi' hk hk'
  below i k hi hk := by
    rw [hsame i hi] at hk
    exact h.below i k hi hk
  seen_le i hi := by
    rw [hsame i (Nat.lt_of_succ_lt hi), hsame (i + 1) hi]
    exact h.seen_le i hi

/-- The inner nodes change, and memory is handed out for them. -/
structure InnerStep (s s' : TreeState P) : Prop where
  same : s' = { s with innerHeap := s'.innerHeap, brk := s'.brk }
  brk_le : s.brk ≤ s'.brk
  null : s.innerHeap 0 = none → 0 < s.brk → s'.innerHeap 0 = none

theorem InnerStep.trans {s₁ s₂ : TreeState P} (h : InnerStep s s₁) (h' : InnerStep s₁ s₂) : InnerStep s s₂ where
  same := by
    have hsame := h.same
    have hsame' := h'.same
    rw [hsame] at hsame'
    exact hsame'
  brk_le := h.brk_le.trans h'.brk_le
  null hnull hbrk := h'.null (h.null hnull hbrk) (hbrk.trans_le h.brk_le)

theorem innerStep_refl (s : TreeState P) : InnerStep s s where
  same := rfl
  brk_le := Nat.le_refl _
  null hnull _ := hnull

theorem innerStep_malloc (s : TreeState P) (fill : InnerNode → InnerNode) : InnerStep s (s.mallocInner fill).2 where
  same := rfl
  brk_le := Nat.le_succ _
  null hnull hbrk := (Function.update_of_ne hbrk.ne ..).trans hnull

theorem innerStep_set (s : TreeState P) {a : Addr} (ha : 0 < a) (nd : InnerNode) : InnerStep s (s.setInner a nd) where
  same := rfl
  brk_le := Nat.le_refl _
  null hnull _ := (Function.update_of_ne ha.ne ..).trans hnull

theorem level_above (i j : Nat) : i / 31 ^ j / 31 = i / 31 ^ (j + 1) := by
  rw [Nat.div_div_eq_div_mul, Nat.pow_succ]

theorem carry_succ {m : Nat} (hcarry : 31 ^ j ∣ m + 1) : m / 31 ^ j + 1 = (m + 1) / 31 ^ j :=
  (Nat.succ_div_of_dvd hcarry).symm

theorem no_carry {m i : Nat} (hroom : ((m + 1) / 31 ^ j) % 31 ≠ 0) (hi : j < i) :
    (m + 1) / 31 ^ i = m / 31 ^ i := by
  apply Nat.succ_div_of_not_dvd
  intro hdvd
  have hnext : 31 ^ (j + 1) ∣ m + 1 := (Nat.pow_dvd_pow 31 hi).trans hdvd
  rw [Nat.pow_succ] at hnext
  exact hroom (Nat.mod_eq_zero_of_dvd (Nat.dvd_div_of_mul_dvd hnext))

/-- One more leaf: every level up to the first one that is not full takes in a node. -/
theorem Loading.linkChild {m : Nat} (hm : m + 1 < 31 ^ levels) (rounds : Nat) {j : Nat}
    (h : Loading s everyPtr node K levels seen) (hj : j < levels) (hrounds : levels ≤ j + rounds)
    (hnew : ∀ i, i < j → seen i = (m + 1) / 31 ^ i) (hold : ∀ i, j ≤ i → seen i = m / 31 ^ i)
    (hcarry : 31 ^ j ∣ m + 1) (hchild : ∀ c, c ≤ seen j → node j c ≠ 0) (hbrk : 0 < s.brk) :
    ∃ s' everyPtr' node', ZBTree.linkChild (K m) rounds (j + 1) s everyPtr (node j (seen j)) (node j (seen j + 1)) =
        .ok (s', everyPtr') ∧ Loading s' everyPtr' node' K levels (fun i => (m + 1) / 31 ^ i) ∧
      node' 0 = node 0 ∧ everyPtr' levels = everyPtr levels ∧ InnerStep s s' := by
  -- on the levels: a level that is full opens a node, which is one more child for the level above
  induction rounds generalizing j s everyPtr node seen with
  | zero => exact absurd hj (Nat.not_lt.mpr hrounds)
  | succ rounds ih =>
    have hseen : seen j = m / 31 ^ j := hold j (Nat.le_refl j)
    have hsucc : seen j + 1 = (m + 1) / 31 ^ j := hseen ▸ carry_succ hcarry
    have hsep : K (31 ^ j * (seen j + 1) - 1) = K m := by
      rw [hsucc, Nat.mul_div_cancel' hcarry, Nat.add_sub_cancel]
    have hbelow : ∀ i, i + 1 = j → seen j + 1 ≤ seen i / 31 := by
      rintro i rfl
      rw [hsucc, hnew i (Nat.lt_succ_self i), level_above]
    obtain ⟨nd, hnd, hload⟩ := h.nodes j (seen j / 31) hj (Nat.le_refl _)
    rw [← h.right j hj] at hnd
    have hptr : 0 < everyPtr (j + 1) := by
      rw [h.right j hj]
      exact (h.below j _ hj (Nat.le_refl _)).1
    -- what is left to show when the last node takes the child in
    have hdone : ∀ nd', (seen j + 1) % 31 ≠ 0 →
        LoadedNode (node j) (fun c => K (31 ^ j * c - 1)) nd' ((seen j + 1) / 31) (seen j + 1) →
        Loading (s.setInner (everyPtr (j + 1)) nd') everyPtr node K levels (fun i => (m + 1) / 31 ^ i) := by
      intro nd' hroom hnd'
      apply (h.setLast hj hroom hbelow hnd').congr
      intro i _
      rcases Nat.lt_trichotomy i j with hlt | rfl | hgt
      · rw [Function.update_of_ne hlt.ne, hnew i hlt]
      · rw [Function.update_self, hsucc]
      · rw [Function.update_of_ne hgt.ne', hold i hgt.le]
        exact no_carry (hsucc ▸ hroom) hgt
    -- the first child becomes the left-most pointer, and the second the first entry
    by_cases hzero : seen j = 0
    · have hfirst : nd.leftMostPtr = 0 := hload.first.trans (if_pos hzero)
      have hroom : (seen j + 1) % 31 ≠ 0 := by omega
      have hload' : LoadedNode (node j) (fun c => K (31 ^ j * c - 1)) nd (0 / 31) 0 := by
        rwa [hzero] at hload
      have hnode := hload'.link_first
      have hone : K (31 ^ j * 1 - 1) = K m := by
        rw [← hsep, hzero]
      rw [hone] at hnode
      have hall := hdone _ hroom (by rw [hzero]; exact hnode)
      refine ⟨_, everyPtr, node, ?_, hall, rfl, rfl, innerStep_set s hptr _⟩
      rw [ZBTree.linkChild, hnd, deref_some, ok_bind, if_pos hfirst, hzero]
      rfl
    · have hfirst : nd.leftMostPtr ≠ 0 := by
        rw [hload.first, if_neg hzero]
        exact hchild _ (by omega)
      by_cases hroom : (seen j + 1) % 31 = 0
      · -- a node with 30 entries: the carry goes on, and level `j + 1` is there by `hm`
        have hfull : nd.maxSize = MAX_LEAF_KEY := by
          rw [hload.last_size, MAX_LEAF_KEY]
          omega
        have hopen := h.openNode hj hbrk hroom hbelow
        have hdvd : 31 ^ (j + 1) ∣ m + 1 := by
          rw [Nat.pow_succ, ← Nat.mul_div_cancel' hcarry, ← hsucc]
          exact Nat.mul_dvd_mul_left _ (Nat.dvd_of_mod_eq_zero hroom)
        have hj' : j + 1 < levels :=
          (Nat.pow_lt_pow_iff_right (by decide)).mp ((Nat.le_of_dvd (Nat.succ_pos m) hdvd).trans_lt hm)
        have habove : Function.update seen j (seen j + 1) (j + 1) = seen j / 31 := by
          rw [Function.update_of_ne (Nat.succ_ne_self j), hold (j + 1) (Nat.le_succ j), hseen, level_above]
        obtain ⟨s', everyPtr', node', hrun, hloading, hleaf, htop, hstep⟩ := ih hopen hj' (by omega)
          (fun i hi => by
            rcases Nat.lt_succ_iff_lt_or_eq.mp hi with hlt | rfl
            · rw [Function.update_of_ne hlt.ne, hnew i hlt]
            · rw [Function.update_self, hsucc])
          (fun i hi => by
            have hi' : j < i := hi
            rw [Function.update_of_ne hi'.ne', hold i hi'.le])
          hdvd
          (fun c hc => by
            rw [habove] at hc
            apply Nat.ne_of_gt
            apply (hopen.below j c hj _).1
            rw [Function.update_self]
            omega)
          (Nat.succ_pos _)
        rw [habove, putNode_of_ne (by omega), show seen j / 31 + 1 = (seen j + 1) / 31 by omega, putNode_self,
          ← h.right j hj] at hrun
        refine ⟨s', everyPtr', node', ?_, hloading, ?_, ?_, (innerStep_malloc s _).trans hstep⟩
        · rw [ZBTree.linkChild, hnd, deref_some, ok_bind, if_neg hfirst, if_pos hfull]
          exact hrun
        · rw [hleaf]
          funext c
          exact putNode_of_ne fun heq => Nat.succ_ne_zero j heq.1.symm
        · rw [htop, Function.update_of_ne hj'.ne']
      · have hfree : nd.maxSize ≠ MAX_LEAF_KEY := by
          rw [hload.last_size, MAX_LEAF_KEY]
          omega
        have hnode := hload.link hzero hroom
        rw [hsep] at hnode
        refine ⟨_, everyPtr, node, ?_, hdone _ hroom hnode, rfl, rfl, innerStep_set s hptr _⟩
        rw [ZBTree.linkChild, hnd, deref_some, ok_bind, if_neg hfirst, if_neg hfree]
        rfl

/-- One more level, with a node that has no children yet. -/
theorem Loading.openLevel (h : Loading s everyPtr node K levels fun _ => 0) (hbrk : 0 < s.brk) :
    Loading (s.mallocInner fun _ => InnerNode.zero).2 (Function.update everyPtr (levels + 1) s.brk)
      (putNode node (levels + 1) 0 s.brk) K (levels + 1) fun _ => 0 := by
  have hold : ∀ j k, j < levels → putNode node (levels + 1) 0 s.brk (j + 1) k = node (j + 1) k :=
    fun j k hj => putNode_of_ne fun heq => hj.ne (Nat.succ.inj heq.1)
  refine ⟨?_, ?_, ?_, ?_, fun _ _ => Nat.zero_le _⟩
  · intro j hj
    rcases Nat.lt_succ_iff_lt_or_eq.mp hj with hlt | rfl
    · rw [Function.update_of_ne (fun heq => hlt.ne (Nat.succ.inj heq)), hold j _ hlt]
      exact h.right j hlt
    · rw [Function.update_self]
      exact (putNode_self ..).symm
  · intro j k hj hk
    rcases Nat.lt_succ_iff_lt_or_eq.mp hj with hlt | rfl
    · obtain ⟨nd, hnd, hload⟩ := h.nodes j k hlt hk
      have hne : node (j + 1) k ≠ s.brk := (h.below j k hlt hk).2.ne
      refine ⟨nd, ?_, hload.congr hk fun c _ => putNode_of_ne fun heq => absurd heq.1 (by omega)⟩
      rw [hold j k hlt]
      exact (Function.update_of_ne hne ..).trans hnd
    · obtain rfl : k = 0 := Nat.le_zero.mp hk
      refine ⟨InnerNode.zero, ?_, rfl, rfl, fun i hi => absurd hi (Nat.not_lt_zero i), fun _ _ => rfl⟩
      rw [putNode_self]
      exact Function.update_self ..
  · intro j k j' k' hj hj' hk hk' heq
    -- two nodes of old levels differ, and the new node lies above all of them
    rcases Nat.lt_succ_iff_lt_or_eq.mp hj with hlt | rfl <;>
      rcases Nat.lt_succ_iff_lt_or_eq.mp hj' with hlt' | rfl
    · rw [hold j k hlt, hold j' k' hlt'] at heq
      exact h.distinct j k j' k' hlt hlt' hk hk' heq
    · rw [hold j k hlt, Nat.le_zero.mp hk', putNode_self] at heq
      exact absurd heq (h.below j k hlt hk).2.ne
    · rw [hold j' k' hlt', Nat.le_zero.mp hk, putNode_self] at heq
      exact absurd heq.symm (h.below j' k' hlt' hk').2.ne
    · exact ⟨rfl, (Nat.le_zero.mp hk).trans (Nat.le_zero.mp hk').symm⟩
  · intro j k hj hk
    rcases Nat.lt_succ_iff_lt_or_eq.mp hj with hlt | rfl
    · rw [hold j k hlt]
      exact ⟨(h.below j k hlt hk).1, (h.below j k hlt hk).2.trans (Nat.lt_succ_self _)⟩
    · rw [Nat.le_zero.mp hk, putNode_self]
      exact ⟨hbrk, Nat.lt_succ_self _⟩

theorem ceiling_eq {b : Nat} (hb : b + 32 < 2 ^ 31) :
    ceiling ((b + 1 : Nat) : Int) (MAX_LEAF_KEY + 1) = .ok ((b / 31 + 1 : Nat) : Int) := by
  have hfit : ((b + 1 : Nat) : Int) + ((30 : Nat) + 1) < 2 ^ 31 := by omega
  have hsum : ((b + 1 : Nat) : Int) + ((30 : Nat) + 1) - 1 = ((b + 31 : Nat) : Int) := by omega
  rw [ceiling, MAX_LEAF_KEY, if_pos hfit, hsum]
  apply congrArg Except.ok
  show (((b + 31) / 31 : Nat) : Int) = _
  rw [Nat.add_div_right b (by decide)]

/-- The levels are opened until one node spans all leaves. -/
theorem Loading.openLevels {N : Nat} (hN : N + 32 < 2 ^ 31) (rounds : Nat)
    (h : Loading s everyPtr node K levels fun _ => 0) (hrounds : N < 31 ^ (levels + rounds))
    (hbrk : 0 < s.brk) :
    ∃ s' everyPtr' node' top, ZBTree.openLevels rounds (levels + 1) ((N / 31 ^ levels + 1 : Nat) : Int)
        ((N / 31 ^ levels + 1 : Nat) : Int) s everyPtr = .ok (s', everyPtr', top) ∧
      Loading s' everyPtr' node' K top (fun _ => 0) ∧ node' 0 = node 0 ∧ everyPtr' 0 = everyPtr 0 ∧
      N < 31 ^ top ∧ top ≤ levels + rounds ∧ levels ≤ top ∧ (∀ j, levels ≤ j → j < top → 31 ^ j ≤ N) ∧
      InnerStep s s' := by
  induction rounds generalizing s everyPtr node levels with
  | zero =>
    exact ⟨s, everyPtr, node, levels, rfl, h, rfl, rfl, hrounds, Nat.le_refl _, Nat.le_refl _,
      fun j hj hlt => absurd hlt (Nat.not_lt.mpr hj), innerStep_refl s⟩
  | succ rounds ih =>
    by_cases hmore : 31 ^ levels ≤ N
    · have hpos : 1 ≤ N / 31 ^ levels := Nat.div_pos hmore (Nat.pow_pos (by decide))
      have hcount : N / 31 ^ levels ≤ N := Nat.div_le_self ..
      obtain ⟨s', everyPtr', node', top, hrun, hload, hleaf, hbottom, htop, hle, hge, hleast, hstep⟩ :=
        ih (h.openLevel hbrk) (by rwa [Nat.add_assoc, Nat.add_comm 1]) (Nat.succ_pos _)
      refine ⟨s', everyPtr', node', top, ?_, hload, ?_, ?_, htop, by omega, by omega, ?_,
        (innerStep_malloc s _).trans hstep⟩
      · rw [ZBTree.openLevels, if_pos (by omega), ceiling_eq (by omega), ok_bind, level_above]
        exact hrun
      · rw [hleaf]
        funext c
        exact putNode_of_ne fun heq => Nat.succ_ne_zero levels heq.1.symm
      · rw [hbottom, Function.update_of_ne (Nat.succ_ne_zero levels).symm]
      · intro j hj hlt
        rcases Nat.eq_or_lt_of_le hj with rfl | habove
        · exact hmore
        · exact hleast j habove hlt
    · have hlt : N < 31 ^ levels := Nat.not_le.mp hmore
      refine ⟨s, everyPtr, node, levels, ?_, h, rfl, rfl, hlt, Nat.le_add_right .., Nat.le_refl _,
        fun j hj hlt => absurd hlt (Nat.not_lt.mpr hj), innerStep_refl s⟩
      rw [ZBTree.openLevels, if_neg (by rw [Nat.div_eq_of_lt hlt]; decide)]
      rfl

end Levels

/-! ### The chain of leaves -/

/-- The leaves `leaf 0` to `leaf (n - 1)` are linked in this order, and their `max_key`s `K` increase. -/
structure LeafChain (s : TreeState P) (leaf : Nat → Addr) (K : Nat → Key) (n : Nat) : Prop where
  holds : ∀ i < n, ∃ m, s.dleafHeap (leaf i) = some m ∧ m.maxKey = K i ∧
    m.next = if i + 1 < n then leaf (i + 1) else 0
  increasing : ∀ i, i + 1 < n → K i < K (i + 1)

section Chain

variable {s s' : TreeState P} {leaf : Nat → Addr} {K : Nat → Key} {n i j : Nat}

theorem LeafChain.later (h : LeafChain s leaf K n) (hstep : InnerStep s s') : LeafChain s' leaf K n := by
  refine ⟨fun i hi => ?_, h.increasing⟩
  rw [hstep.same]
  exact h.holds i hi

theorem LeafChain.leaf_ne (h : LeafChain s leaf K n) (hnull : s.dleafHeap 0 = none) (hi : i < n) : leaf i ≠ 0 := by
  intro hzero
  obtain ⟨m, hm, -⟩ := h.holds i hi
  rw [hzero, hnull] at hm
  exact absurd hm (by simp)

theorem LeafChain.key_lt (h : LeafChain s leaf K n) (hij : i < j) (hj : j < n) : K i < K j := by
  induction j with
  | zero => exact absurd hij (Nat.not_lt_zero i)
  | succ j ih =>
    have hlast := h.increasing j hj
    rcases Nat.lt_succ_iff_lt_or_eq.mp hij with hlt | rfl
    · exact lt_trans (ih hlt (Nat.lt_of_succ_lt hj)) hlast
    · exact hlast

theorem LeafChain.key_le (h : LeafChain s leaf K n) (hij : i ≤ j) (hj : j < n) : K i ≤ K j := by
  rcases Nat.lt_or_eq_of_le hij with hlt | rfl
  · exact (h.key_lt hlt hj).le
  · exact le_rfl

/-- The loop over the leaves links all of them, the last one as a child only. -/
theorem LeafChain.loadLeaves {N levels : Nat} {everyPtr : Nat → Addr} {node : Nat → Nat → Addr}
    (h : LeafChain s leaf K (N + 1)) (hnull : s.dleafHeap 0 = none) (hN : N < 31 ^ levels)
    (hlevels : levels ≤ MAX_TREE_LEVEL - 1) (hpos : 0 < levels) (hint : N < 2 ^ 31) (rounds : Nat)
    (hload : Loading s everyPtr node K levels fun j => i / 31 ^ j) (hleaf : node 0 = leaf) (hi : i < N)
    (hrounds : N ≤ i + rounds) (hbrk : 0 < s.brk) :
    ∃ s' everyPtr' node', ZBTree.loadLeaves rounds i s everyPtr (leaf i) = .ok (s', everyPtr', leaf N) ∧
      Loading s' everyPtr' node' K levels (fun j => N / 31 ^ j) ∧ node' 0 = leaf ∧
      everyPtr' levels = everyPtr levels ∧ InnerStep s s' := by
  induction rounds generalizing i s everyPtr node with
  | zero => exact absurd hi (Nat.not_lt.mpr hrounds)
  | succ rounds ih =>
    obtain ⟨m, hm, hkey, hnext⟩ := h.holds i (Nat.lt_succ_of_lt hi)
    rw [if_pos (Nat.succ_lt_succ hi)] at hnext
    obtain ⟨m', hm', -, hnext'⟩ := h.holds (i + 1) (Nat.succ_lt_succ hi)
    have hfirst : i / 31 ^ 0 = i := by rw [Nat.pow_zero, Nat.div_one]
    obtain ⟨s₁, everyPtr₁, node₁, hlink, hload₁, hleaf₁, htop₁, hstep₁⟩ :=
      hload.linkChild (m := i) (by omega) (MAX_TREE_LEVEL - 1) (j := 0) hpos (by omega)
        (fun i hi => absurd hi (Nat.not_lt_zero i)) (fun _ _ => rfl) (one_dvd _)
        (fun c hc => by
          rw [hleaf]
          exact h.leaf_ne hnull (by omega))
        hbrk
    rw [hleaf, hfirst] at hlink
    have hm₁ : s₁.dleafHeap (leaf (i + 1)) = some m' := by
      rw [hstep₁.same]
      exact hm'
    -- one round: the leaf after `i` is linked, and its `next` decides whether there are more
    have hrun : ZBTree.loadLeaves (rounds + 1) i s everyPtr (leaf i) =
        if m'.next = 0 then .ok (s₁, everyPtr₁, leaf (i + 1))
        else if i + 1 < 2 ^ 31 then ZBTree.loadLeaves rounds (i + 1) s₁ everyPtr₁ (leaf (i + 1))
        else .error .abort := by
      rw [ZBTree.loadLeaves, hm, deref_some, ok_bind, hkey, hnext, hlink, ok_bind]
      dsimp only
      rw [hm₁, deref_some, ok_bind]
      rfl
    by_cases hend : i + 1 = N
    · subst hend
      rw [if_neg (Nat.lt_irrefl _)] at hnext'
      refine ⟨s₁, everyPtr₁, node₁, ?_, hload₁, hleaf₁.trans hleaf, htop₁, hstep₁⟩
      rw [hrun, if_pos hnext']
    · have hi' : i + 1 < N := Nat.lt_of_le_of_ne hi hend
      rw [if_pos (Nat.succ_lt_succ hi')] at hnext'
      have hmore : m'.next ≠ 0 := hnext' ▸ h.leaf_ne hnull (Nat.succ_lt_succ hi')
      obtain ⟨s', everyPtr', node', hrest, hload', hleaf', htop', hstep'⟩ := ih (h.later hstep₁)
        (by rw [hstep₁.same]; exact hnull) hload₁ (hleaf₁.trans hleaf) hi' (by omega) (hbrk.trans_le hstep₁.brk_le)
      refine ⟨s', everyPtr', node', ?_, hload', hleaf', htop'.trans htop₁, hstep₁.trans hstep'⟩
      rw [hrun, if_neg hmore, if_pos (by omega)]
      exact hrest

theorem linkChild_leaves {key : Key} {left right : Addr} {everyPtr everyPtr' : Nat → Addr} (rounds : Nat) {j : Nat}
    (h : linkChild key rounds j s everyPtr left right = .ok (s', everyPtr')) : s'.dleafHeap = s.dleafHeap := by
  induction rounds generalizing j s everyPtr left right with
  | zero => exact absurd h (by simp [linkChild])
  | succ rounds ih =>
    rw [linkChild] at h
    obtain ⟨nd, -, hrest⟩ := bind_eq_ok.mp h
    split_ifs at hrest
    · obtain ⟨rfl, -⟩ := Prod.mk.inj (Except.ok.inj hrest)
      rfl
    · have hleaves := ih hrest
      exact hleaves
    · obtain ⟨rfl, -⟩ := Prod.mk.inj (Except.ok.inj hrest)
      rfl

/-- The counter of the loop over the leaves, an `int`, bounds the chain. -/
theorem LeafChain.counter_le {N : Nat} {everyPtr : Nat → Addr} (h : LeafChain s leaf K (N + 1))
    (hnull : s.dleafHeap 0 = none) (rounds : Nat) (hi : i < N) (hrounds : N < i + rounds) (hint : i < 2 ^ 31)
    {r : TreeState P × (Nat → Addr) × Addr} (hr : ZBTree.loadLeaves rounds i s everyPtr (leaf i) = .ok r) :
    N ≤ 2 ^ 31 := by
  induction rounds generalizing i s everyPtr with
  | zero => omega
  | succ rounds ih =>
    obtain ⟨m, hm, -, hnext⟩ := h.holds i (Nat.lt_succ_of_lt hi)
    rw [if_pos (Nat.succ_lt_succ hi)] at hnext
    rw [ZBTree.loadLeaves, hm, deref_some, ok_bind] at hr
    obtain ⟨⟨s₁, everyPtr₁⟩, hlink, hr⟩ := bind_eq_ok.mp hr
    have hleaves := linkChild_leaves _ hlink
    dsimp only at hr
    obtain ⟨m', hm', -, hnext'⟩ := h.holds (i + 1) (Nat.succ_lt_succ hi)
    rw [hnext, hleaves, hm', deref_some, ok_bind] at hr
    by_cases hend : i + 1 = N
    · omega
    · have hi' : i + 1 < N := Nat.lt_of_le_of_ne hi hend
      rw [if_pos (Nat.succ_lt_succ hi')] at hnext'
      rw [if_neg (hnext' ▸ h.leaf_ne hnull (Nat.succ_lt_succ hi'))] at hr
      split_ifs at hr with hmore
      have h₁ : LeafChain s₁ leaf K (N + 1) := ⟨by rw [hleaves]; exact h.holds, h.increasing⟩
      exact ih h₁ (hleaves ▸ hnull) hi' (by omega) hmore hr

end Chain

/-! ### Which sizes can be loaded -/

theorem leafCount_of_lt {leafcount : Word} (h : leafcount.toNat < 2 ^ 31) :
    (leafcount.setWidth 32).toInt = (leafcount.toNat : Int) := by
  have hfit : (leafcount.setWidth 32).toNat = leafcount.toNat := by
    rw [BitVec.toNat_setWidth]
    apply Nat.mod_eq_of_lt
    omega
  rw [BitVec.toInt_eq_toNat_of_lt (by omega), hfit]

theorem leafCount_of_ge {leafcount : Word} (h : 2 ^ 31 ≤ leafcount.toNat) (hlt : leafcount.toNat < 2 ^ 32) :
    (leafcount.setWidth 32).toInt = (leafcount.toNat : Int) - 2 ^ 32 := by
  have hfit : (leafcount.setWidth 32).toNat = leafcount.toNat := by
    rw [BitVec.toNat_setWidth]
    exact Nat.mod_eq_of_lt hlt
  rw [BitVec.toInt_eq_toNat_cond, if_neg (by omega), hfit]
  rfl

theorem ceiling_nonpos {b c : Int} (hb : b ≤ -30) (h : ceiling b (MAX_LEAF_KEY + 1) = .ok c) : c ≤ 0 := by
  rw [ceiling] at h
  split_ifs at h
  have hneg : 0 ≤ (-(b + ((30 : Nat) + 1) - 1)).tdiv ((30 : Nat) + 1) := by
    apply Int.tdiv_nonneg
    · omega
    · decide
  rw [Int.neg_tdiv] at hneg
  have hc : (b + ((30 : Nat) + 1) - 1).tdiv ((30 : Nat) + 1) = c := Except.ok.inj h
  omega

theorem openLevels_leaves {P : Type} {s s' : TreeState P} {everyPtr everyPtr' : Nat → Addr} {top : Nat} (rounds : Nat)
    {i : Nat} {maxNode below : Int} (h : openLevels rounds i maxNode below s everyPtr = .ok (s', everyPtr', top)) :
    s'.dleafHeap = s.dleafHeap := by
  induction rounds generalizing i maxNode below s everyPtr with
  | zero =>
    obtain ⟨rfl, -⟩ := Prod.mk.inj (Except.ok.inj h)
    rfl
  | succ rounds ih =>
    rw [openLevels] at h
    split_ifs at h
    · obtain ⟨count, -, hrest⟩ := bind_eq_ok.mp h
      have hleaves := ih hrest
      exact hleaves
    · obtain ⟨rfl, -⟩ := Prod.mk.inj (Except.ok.inj h)
      rfl

theorem loadLeaves_no_levels {P : Type} {s : TreeState P} {everyPtr : Nat → Addr} {danchor : Addr}
    (hnull : s.innerHeap (everyPtr 1) = none) (rounds : Nat) (i : Nat) (r : TreeState P × (Nat → Addr) × Addr) :
    loadLeaves (rounds + 1) i s everyPtr danchor ≠ .ok r := by
  intro hr
  rw [loadLeaves] at hr
  obtain ⟨m, -, hr⟩ := bind_eq_ok.mp hr
  rw [MAX_TREE_LEVEL, linkChild, hnull] at hr
  exact absurd hr (by simp)

/-- `bulkload` needs at least one full node and a sum that is an `int`. -/
theorem LeafChain.limits {s s' : TreeState P} {leaf : Nat → Addr} {K : Nat → Key} {leafcount : Word}
    {clhtGet : Addr → Addr} (h : LeafChain s leaf K leafcount.toNat) (hleaf : s.dleafHeap 0 = none)
    (hinner : s.innerHeap 0 = none) (hpos : 0 < leafcount.toNat) (hstart : clhtGet s.leafStart = leaf 0)
    (hrun : bulkload s clhtGet leafcount = .ok s') : 32 ≤ leafcount.toNat ∧ leafcount.toNat + 31 < 2 ^ 31 := by
  obtain ⟨N, hN⟩ : ∃ N, leafcount.toNat = N + 1 := ⟨_, (Nat.succ_pred_eq_of_pos hpos).symm⟩
  rw [hN] at h
  obtain ⟨m, hm, -⟩ := h.holds 0 (Nat.succ_pos N)
  rw [bulkload] at hrun
  dsimp only at hrun
  rw [hstart, hm, deref_some, ok_bind, hN] at hrun
  obtain ⟨maxNode, hmax, hrun⟩ := bind_eq_ok.mp hrun
  obtain ⟨⟨s₁, everyPtr, top⟩, hopen, hrun⟩ := bind_eq_ok.mp hrun
  dsimp only at hrun
  obtain ⟨r, hload, -⟩ := bind_eq_ok.mp hrun
  -- with one node or less no level is opened, and the first leaf has no node to go to
  have hmany : 1 < maxNode := by
    by_contra hfew
    rw [MAX_TREE_LEVEL, openLevels, if_neg hfew] at hopen
    obtain ⟨rfl, hrest⟩ := Prod.mk.inj (Except.ok.inj hopen)
    obtain ⟨rfl, -⟩ := Prod.mk.inj hrest
    exact loadLeaves_no_levels (by exact hinner) N 0 r hload
  -- the sum in `ceiling` is one of `int`s
  have hfit : (leafcount.setWidth 32).toInt + 31 < 2 ^ 31 := by
    rw [ceiling] at hmax
    split_ifs at hmax with hfit
    exact hfit
  by_cases hint : leafcount.toNat < 2 ^ 31
  · rw [leafCount_of_lt hint, hN] at hfit hmax
    rw [ceiling_eq (by omega)] at hmax
    have hcount := Except.ok.inj hmax
    omega
  · -- the counter goes no further than the `int`s, and the leaf count is a negative one there
    have hleaves := openLevels_leaves _ hopen
    have hchain : LeafChain { s₁ with root := everyPtr top, tempLevel := top } leaf K (N + 1) :=
      ⟨by rw [hleaves]; exact h.holds, h.increasing⟩
    have hcounter := hchain.counter_le (by rw [hleaves]; exact hleaf) (N + 1) (i := 0) (by omega) (by omega)
      (by decide) hload
    have hcount := leafCount_of_ge (Nat.not_lt.mp hint) (by omega)
    have hneg := ceiling_nonpos (by omega) hmax
    omega

/-! ### The tree before the last loop -/

/-- All of the `N + 1` leaves have been linked under `top` levels. -/
structure Loaded (s : TreeState P) (everyPtr : Nat → Addr) (node : Nat → Nat → Addr) (leaf : Nat → Addr)
    (K : Nat → Key) (N top : Nat) : Prop where
  loading : Loading s everyPtr node K top fun j => N / 31 ^ j
  leaves : node 0 = leaf
  chain : LeafChain s leaf K (N + 1)
  root : s.root = node top 0
  level : s.tempLevel = top
  spans : N < 31 ^ top
  tall : ∀ j < top, 31 ^ j ≤ N
  top_pos : 0 < top
  no_inner : s.innerHeap 0 = none
  no_leaf : s.dleafHeap 0 = none

/-- `bulkload` up to its last loop. -/
theorem LeafChain.loaded {s : TreeState P} {leaf : Nat → Addr} {K : Nat → Key} {leafcount : Word} {N : Nat}
    {clhtGet : Addr → Addr} (h : LeafChain s leaf K (N + 1)) (hN : leafcount.toNat = N + 1)
    (hleaf : s.dleafHeap 0 = none) (hinner : s.innerHeap 0 = none) (hbrk : 0 < s.brk)
    (hstart : clhtGet s.leafStart = leaf 0) (hmany : 31 ≤ N) (hfit : N + 32 < 2 ^ 31) :
    ∃ s' everyPtr node top, bulkload s clhtGet leafcount = closeLevels s' everyPtr (leaf N) top 1 ∧
      Loaded s' everyPtr node leaf K N top := by
  obtain ⟨m, hm, -⟩ := h.holds 0 (Nat.succ_pos N)
  -- no level yet
  have hempty : Loading s (Function.update (fun _ => 0) 0 (leaf 0)) (fun _ => leaf) K 0 fun _ => 0 :=
    ⟨fun j hj => absurd hj (Nat.not_lt_zero j), fun j _ hj => absurd hj (Nat.not_lt_zero j),
      fun j _ _ _ hj => absurd hj (Nat.not_lt_zero j), fun j _ hj => absurd hj (Nat.not_lt_zero j),
      fun j hj => absurd hj (Nat.not_lt_zero _)⟩
  have hrounds : N < 31 ^ (0 + 1 + 10) := Nat.lt_trans (show N < 2 ^ 31 by omega) (by decide)
  obtain ⟨s₁, everyPtr₁, node₁, top, hopen, hload₁, hleaf₁, hbottom₁, hspans, hle, hge, htall, hstep₁⟩ :=
    (hempty.openLevel hbrk).openLevels (N := N) hfit 10 hrounds (Nat.succ_pos _)
  have hopen₁ : openLevels (MAX_TREE_LEVEL - 1) 1 ((N / 31 + 1 : Nat) : Int) ((N + 1 : Nat) : Int) s
      (Function.update (fun _ => 0) 0 (leaf 0)) = .ok (s₁, everyPtr₁, top) := by
    rw [MAX_TREE_LEVEL, openLevels, if_pos (by omega), ceiling_eq hfit, ok_bind]
    exact hopen
  have hstep : InnerStep s s₁ := (innerStep_malloc s _).trans hstep₁
  have htall' : ∀ j < top, 31 ^ j ≤ N := by
    intro j hj
    rcases Nat.eq_zero_or_pos j with rfl | hpos
    · rw [Nat.pow_zero]
      omega
    · exact htall j hpos hj
  have hbrk₁ : 0 < s₁.brk := hbrk.trans_le hstep.brk_le
  have hleaves₁ : ∀ c, node₁ 0 c = leaf c := by
    intro c
    rw [hleaf₁]
    exact putNode_of_ne fun heq => Nat.succ_ne_zero 0 heq.1.symm
  -- the levels have no children yet, as `0 / 31 ^ j` says
  have hstart₁ : Loading { s₁ with root := everyPtr₁ top, tempLevel := top } everyPtr₁ node₁ K top
      fun j => 0 / 31 ^ j := by
    have hzero : Loading s₁ everyPtr₁ node₁ K top fun j => 0 / 31 ^ j := hload₁.congr fun j _ => Nat.zero_div _
    exact ⟨hzero.right, hzero.nodes, hzero.distinct, hzero.below, hzero.seen_le⟩
  have hchain₁ : LeafChain { s₁ with root := everyPtr₁ top, tempLevel := top } leaf K (N + 1) :=
    ⟨(h.later hstep).holds, h.increasing⟩
  obtain ⟨s', everyPtr', node', hrun, hload', hleaf', htop', hstep'⟩ := hchain₁.loadLeaves
    (by dsimp only; rw [hstep.same]; exact hleaf) hspans (by rw [MAX_TREE_LEVEL]; omega) (by omega) (by omega)
    leafcount.toNat hstart₁ (funext hleaves₁) (by omega) (by omega) hbrk₁
  refine ⟨s', everyPtr', node', top, ?_, hload', hleaf', hchain₁.later hstep', ?_, ?_, hspans, htall', by omega,
    ?_, ?_⟩
  · -- the run up to here is the run of the source
    have hint : leafcount.toNat < 2 ^ 31 := by omega
    rw [bulkload]
    dsimp only
    rw [hstart, hm, deref_some, ok_bind, leafCount_of_lt hint, hN, ceiling_eq hfit, ok_bind, hopen₁, ok_bind]
    dsimp only
    rw [← hN, hrun, ok_bind]
  · have htop : everyPtr' top = node' top (N / 31 ^ top) := by
      obtain ⟨j, rfl⟩ := Nat.exists_eq_succ_of_ne_zero (show top ≠ 0 by omega)
      rw [hload'.right j (Nat.lt_succ_self j), level_above]
    rw [Nat.div_eq_of_lt hspans] at htop
    rw [hstep'.same, ← htop, htop']
  · rw [hstep'.same]
  · exact hstep'.null (hstep.null hinner hbrk) hbrk₁
  · rw [hstep'.same]
    dsimp only
    rw [hstep.same]
    exact hleaf

/-! ### Ways through the levels -/

section Ways

variable {s : TreeState P} {key : Key} {low : Nat}

/-- A way of `find_insert` down to level `low`. -/
def Leads (s : TreeState P) (key : Key) (way : Nat → Addr) (low j : Nat) : Prop :=
  low ≤ j → ∃ nd pos, s.innerHeap (way (j + 1)) = some nd ∧ routeChild nd key = some (pos, way j)

theorem findInsertFrom_way (way : Nat → Addr) (d : Nat) (h : ∀ j < d, Leads s key way 0 j) :
    ∃ path, findInsertFrom s key d (way d) = .ok (path, way 0) := by
  induction d with
  | zero => exact ⟨[], rfl⟩
  | succ d ih =>
    obtain ⟨nd, pos, hnd, hroute⟩ := h d (Nat.lt_succ_self d) (Nat.zero_le d)
    obtain ⟨path, hrun⟩ := ih fun j hj => h j (Nat.lt_succ_of_lt hj)
    refine ⟨⟨way (d + 1), pos, nd.maxSize, nd.versionField⟩ :: path, ?_⟩
    rw [findInsertFrom, hnd, deref_some, ok_bind, hroute, deref_some, ok_bind]
    dsimp only
    rw [hrun]
    rfl

theorem findInsertFrom_to (way : Nat → Addr) {leaf : Addr} {path : List Cursor} (d : Nat) (hle : low ≤ d)
    (h : ∀ j < d, Leads s key way low j) (hrun : findInsertFrom s key d (way d) = .ok (path, leaf)) :
    ∃ path', findInsertFrom s key low (way low) = .ok (path', leaf) := by
  induction d generalizing path with
  | zero =>
    obtain rfl := Nat.le_zero.mp hle
    exact ⟨path, hrun⟩
  | succ d ih =>
    rcases Nat.eq_or_lt_of_le hle with rfl | hlow
    · exact ⟨path, hrun⟩
    · obtain ⟨nd, pos, hnd, hroute⟩ := h d (Nat.lt_succ_self d) (Nat.le_of_lt_succ hlow)
      rw [findInsertFrom, hnd, deref_some, ok_bind, hroute, deref_some, ok_bind] at hrun
      obtain ⟨⟨path', leaf'⟩, hrest, hret⟩ := bind_eq_ok.mp hrun
      obtain ⟨-, rfl⟩ := Prod.mk.inj (Except.ok.inj hret)
      exact ih (Nat.le_of_lt_succ hlow) (fun j hj => h j (Nat.lt_succ_of_lt hj)) hrest

/-- Where a key goes from a node of the load: the separators up to the child `c` lie below it, and those
after the child do not. -/
theorem LoadedNode.route {child : Nat → Addr} {sep : Nat → Key} {nd : InnerNode} {k p c : Nat}
    (h : LoadedNode child sep nd k p) (hsize : 0 < nd.maxSize) (hlast : c ≤ p) (hnode : c / 31 = k)
    (hbelow : ∀ e, 0 < e → e ≤ c → sep e < key) (habove : ∀ e, c < e → e ≤ p → key ≤ sep e) :
    ∃ pos, routeChild nd key = some (pos, child c) := by
  have hcount : nd.maxSize = min 30 (p - 31 * k) := h.size
  obtain ⟨j, hj, hroute, hbefore, hafter⟩ := routeChild_spec nd key hsize
  have hplace : 31 * k + j = c := by
    apply Nat.le_antisymm
    · apply Nat.le_of_not_lt
      intro hlt
      have hup := hbefore (by omega)
      rw [(h.entry (j - 1) (by omega)).1] at hup
      exact absurd (habove _ (by omega) (by omega)) (not_le.mpr hup)
    · apply Nat.le_of_not_lt
      intro hlt
      have hdown := hafter (by omega)
      rw [(h.entry j (by omega)).1] at hdown
      exact absurd (hbelow _ (by omega) (by omega)) (not_lt.mpr hdown)
  refine ⟨(j : Int) - 1, ?_⟩
  rw [hroute, InnerNode.child]
  split_ifs with hzero
  · rw [h.first, if_neg (by omega)]
    rw [← hplace, hzero, Nat.add_zero]
  · rw [(h.entry (j - 1) (by omega)).2]
    rw [← hplace, Nat.add_assoc, Nat.sub_add_cancel (Nat.pos_of_ne_zero hzero)]

end Ways

/-! ### The leaf that serves a key -/

/-- The first of `n` leaves whose `max_key` is not below the key, or the last leaf. -/
def serving (K : Nat → Key) (n : Nat) (key : Key) : Nat :=
  ((List.range (n - 1)).find? fun i => decide (key ≤ K i)).getD (n - 1)

theorem serving_spec (K : Nat → Key) (N : Nat) (key : Key) :
    serving K (N + 1) key ≤ N ∧ (∀ i < serving K (N + 1) key, K i < key) ∧
      (serving K (N + 1) key < N → key ≤ K (serving K (N + 1) key)) := by
  rw [serving, Nat.add_sub_cancel]
  cases hfind : (List.range N).find? fun i => decide (key ≤ K i) with
  | none =>
    rw [Option.getD_none]
    refine ⟨Nat.le_refl N, fun i hi => ?_, fun hlt => absurd hlt (Nat.lt_irrefl N)⟩
    have hno := List.find?_range_eq_none.mp hfind i hi
    exact not_le.mp fun hle => by simp [hle] at hno
  | some t =>
    rw [Option.getD_some]
    obtain ⟨hle, hmem, hleast⟩ := List.find?_range_eq_some.mp hfind
    refine ⟨(List.mem_range.mp hmem).le, fun i hi => ?_, fun _ => of_decide_eq_true hle⟩
    have hno := hleast i hi
    exact not_le.mp fun hle => by simp [hle] at hno

theorem serving_last {K : Nat → Key} {N : Nat} {key : Key} (h : ∀ i < N, K i < key) : serving K (N + 1) key = N := by
  obtain ⟨hle, -, hhere⟩ := serving_spec K N key
  rcases Nat.lt_or_eq_of_le hle with hlt | heq
  · exact absurd (h _ hlt) (not_lt.mpr (hhere hlt))
  · exact heq

section Search

variable {s : TreeState P} {everyPtr : Nat → Addr} {node : Nat → Nat → Addr} {leaf : Nat → Addr} {K : Nat → Key}
  {N top j t : Nat} {key : Key}

theorem Loaded.route (h : Loaded s everyPtr node leaf K N top) (hj : j < top) (ht : t ≤ N)
    (hbefore : ∀ i < t, K i < key) (hhere : t < N → key ≤ K t) :
    ∃ nd, s.innerHeap (node (j + 1) (t / 31 ^ (j + 1))) = some nd ∧
      LoadedNode (node j) (fun c => K (31 ^ j * c - 1)) nd (t / 31 ^ (j + 1)) (N / 31 ^ j) ∧
      (0 < nd.maxSize → ∃ pos, routeChild nd key = some (pos, node j (t / 31 ^ j))) := by
  have hchild : t / 31 ^ j ≤ N / 31 ^ j := Nat.div_le_div_right ht
  have hpow : 0 < 31 ^ j := Nat.pow_pos (by decide)
  obtain ⟨nd, hnd, hload⟩ := h.loading.nodes j (t / 31 ^ (j + 1)) hj (by
    rw [← level_above]
    exact Nat.div_le_div_right hchild)
  refine ⟨nd, hnd, hload, fun hsize => hload.route hsize hchild (level_above t j) (fun e he hec => ?_) fun e hec hep => ?_⟩
  · apply hbefore
    have hle : 31 ^ j * e ≤ t := (Nat.mul_le_mul_left _ hec).trans (Nat.mul_div_le t _)
    have hpos : 0 < 31 ^ j * e := Nat.mul_pos hpow he
    omega
  · have hlt : t < 31 ^ j * e := by
      rw [Nat.mul_comm]
      exact (Nat.div_lt_iff_lt_mul hpow).mp hec
    have hle : 31 ^ j * e ≤ N := (Nat.mul_le_mul_left _ hep).trans (Nat.mul_div_le N _)
    exact (hhere (by omega)).trans (h.chain.key_le (by omega) (by omega))

end Search

/-! ### The last loop

The loop over the leaves leaves a node without separators where a carry has just opened one, at the
right-most end of a level. `find_insert` runs no round on such a node, so a search that comes to it stays
there. The last loop gives the lowest of them a separator, and only the lowest. -/

/-- The right-most node of level `j + 1` has just been opened, over the last node of level `j`. -/
def FreshLevel (N j : Nat) : Prop := 31 ^ j ≤ N ∧ N / 31 ^ j % 31 = 0

/-- The node with the one separator that `closeLevels` gives it. -/
def InnerNode.closed (nd : InnerNode) (key : Key) : InnerNode :=
  { nd with nodeKey0 := Function.update nd.nodeKey0 0 key, maxSize := nd.maxSize + 1 }

section Close

variable {s : TreeState P} {everyPtr : Nat → Addr} {node : Nat → Nat → Addr} {leaf : Nat → Addr} {K : Nat → Key}
  {N top j low : Nat}

theorem Loaded.last_node (h : Loaded s everyPtr node leaf K N top) (hj : j < top) :
    ∃ nd, s.innerHeap (everyPtr (j + 1)) = some nd ∧ everyPtr (j + 1) = node (j + 1) (N / 31 ^ (j + 1)) ∧
      LoadedNode (node j) (fun c => K (31 ^ j * c - 1)) nd (N / 31 ^ j / 31) (N / 31 ^ j) ∧
      nd.maxSize = N / 31 ^ j % 31 := by
  obtain ⟨nd, hnd, hload⟩ := h.loading.nodes j _ hj (Nat.le_refl _)
  have hright := h.loading.right j hj
  rw [← hright] at hnd
  refine ⟨nd, hnd, ?_, hload, hload.last_size⟩
  rw [hright, level_above]

theorem FreshLevel.lt_top (h : Loaded s everyPtr node leaf K N top) (hfresh : FreshLevel N j) : j < top :=
  (Nat.pow_lt_pow_iff_right (by decide)).mp (hfresh.1.trans_lt h.spans)

theorem Loaded.freshLevel_iff (h : Loaded s everyPtr node leaf K N top) (hj : j < top) :
    FreshLevel N j ↔ N / 31 ^ j % 31 = 0 :=
  ⟨And.right, fun hzero => ⟨h.tall j hj, hzero⟩⟩

theorem Loaded.close_skip (h : Loaded s everyPtr node leaf K N top) (hlow : low ≤ top)
    (hskip : ∀ i < low, ¬ FreshLevel N i) :
    closeLevels s everyPtr (leaf N) top 1 = closeLevels s everyPtr (leaf N) (top - low) (low + 1) := by
  induction low with
  | zero => rfl
  | succ low ih =>
    obtain ⟨nd, hnd, -, -, hsize⟩ := h.last_node hlow
    have hfull : nd.maxSize ≠ 0 := by
      rw [hsize]
      exact fun hzero => hskip low (Nat.lt_succ_self low) ((h.freshLevel_iff hlow).mpr hzero)
    obtain ⟨rest, hrest⟩ := Nat.exists_eq_succ_of_ne_zero (Nat.sub_ne_zero_of_lt hlow)
    rw [ih (Nat.le_of_succ_le hlow) fun i hi => hskip i (Nat.lt_succ_of_lt hi), hrest, closeLevels, hnd,
      deref_some, ok_bind, if_neg hfull]
    have hleft : top - (low + 1) = rest := by omega
    rw [hleft]

theorem Loaded.close_none (h : Loaded s everyPtr node leaf K N top) (hfull : ∀ i, ¬ FreshLevel N i) :
    closeLevels s everyPtr (leaf N) top 1 = .ok s := by
  rw [h.close_skip (Nat.le_refl top) fun i _ => hfull i, Nat.sub_self]
  rfl

theorem Loaded.close_lowest (h : Loaded s everyPtr node leaf K N top) (hfresh : FreshLevel N low)
    (hleast : ∀ i < low, ¬ FreshLevel N i) :
    ∃ nd, s.innerHeap (everyPtr (low + 1)) = some nd ∧ nd.leftMostPtr = node low (N / 31 ^ low) ∧
      nd.nodeKey1 0 = 0 ∧ nd.maxSize = 0 ∧
      closeLevels s everyPtr (leaf N) top 1 = .ok (s.setInner (everyPtr (low + 1)) (nd.closed (K N))) := by
  have hlow : low < top := hfresh.lt_top h
  obtain ⟨nd, hnd, -, hload, hsize⟩ := h.last_node hlow
  have hempty : nd.maxSize = 0 := hsize.trans hfresh.2
  have hsome : N / 31 ^ low ≠ 0 := Nat.ne_of_gt (Nat.div_pos hfresh.1 (Nat.pow_pos (by decide)))
  have hplace : 31 * (N / 31 ^ low / 31) = N / 31 ^ low := Nat.mul_div_cancel' (Nat.dvd_of_mod_eq_zero hfresh.2)
  obtain ⟨m, hm, hkey, -⟩ := h.chain.holds N (Nat.lt_succ_self N)
  obtain ⟨rest, hrest⟩ := Nat.exists_eq_succ_of_ne_zero (Nat.sub_ne_zero_of_lt hlow)
  refine ⟨nd, hnd, ?_, hload.unused 0 (by omega), hempty, ?_⟩
  · rw [hload.first, if_neg hsome, hplace]
  · rw [h.close_skip hlow.le hleast, hrest, closeLevels, hnd, deref_some, ok_bind, if_pos hempty, hm, deref_some,
      ok_bind, hkey]
    rfl

end Close

/-! ### The search in the tree -/

section Built

variable {s s' : TreeState P} {everyPtr : Nat → Addr} {node : Nat → Nat → Addr} {leaf : Nat → Addr} {K : Nat → Key}
  {N top j t low : Nat} {key : Key} {nd : InnerNode}

theorem LoadedNode.size_pos {child : Nat → Addr} {sep : Nat → Key} (ht : t ≤ N)
    (hload : LoadedNode child sep nd (t / 31 ^ (j + 1)) (N / 31 ^ j))
    (hroom : N / 31 ^ j % 31 = 0 → t / 31 ^ (j + 1) ≠ N / 31 ^ (j + 1)) : 0 < nd.maxSize := by
  have hsize : nd.maxSize = min 30 (N / 31 ^ j - 31 * (t / 31 ^ (j + 1))) := hload.size
  have hle : t / 31 ^ (j + 1) ≤ N / 31 ^ (j + 1) := Nat.div_le_div_right ht
  have hup := level_above N j
  omega

theorem Loaded.leads (h : Loaded s everyPtr node leaf K N top) (hj : j < top) (ht : t ≤ N)
    (hbefore : ∀ i < t, K i < key) (hhere : t < N → key ≤ K t)
    (hroom : FreshLevel N j → t / 31 ^ (j + 1) ≠ N / 31 ^ (j + 1)) :
    ∃ nd pos, s.innerHeap (node (j + 1) (t / 31 ^ (j + 1))) = some nd ∧
      routeChild nd key = some (pos, node j (t / 31 ^ j)) := by
  obtain ⟨nd, hnd, hload, hroute⟩ := h.route hj ht hbefore hhere
  obtain ⟨pos, hpos⟩ := hroute (hload.size_pos ht fun hzero => hroom ((h.freshLevel_iff hj).mpr hzero))
  exact ⟨nd, pos, hnd, hpos⟩

theorem Loaded.leads_closed (h : Loaded s everyPtr node leaf K N top) (hfresh : FreshLevel N low) (hj : j < top)
    (ht : t ≤ N) (hbefore : ∀ i < t, K i < key) (hhere : t < N → key ≤ K t)
    (hroom : FreshLevel N j → t / 31 ^ (j + 1) ≠ N / 31 ^ (j + 1)) :
    ∃ nd' pos, (s.setInner (everyPtr (low + 1)) nd).innerHeap (node (j + 1) (t / 31 ^ (j + 1))) = some nd' ∧
      routeChild nd' key = some (pos, node j (t / 31 ^ j)) := by
  obtain ⟨nd', pos, hnd', hpos⟩ := h.leads hj ht hbefore hhere hroom
  refine ⟨nd', pos, (Function.update_of_ne ?_ ..).trans hnd', hpos⟩
  have hlow : low < top := hfresh.lt_top h
  rw [h.loading.right low hlow]
  intro heq
  obtain ⟨rfl, hk⟩ := h.loading.distinct j _ low _ hj hlow
    (by rw [← level_above]; exact Nat.div_le_div_right (Nat.div_le_div_right ht)) (Nat.le_refl _) heq
  apply hroom hfresh
  rw [hk, level_above]

theorem routeChild_closed {bound : Key} (hempty : nd.maxSize = 0) (hle : key ≤ bound) :
    ∃ pos, routeChild (nd.closed bound) key = some (pos, nd.leftMostPtr) := by
  obtain ⟨j, hj, hroute, hbefore, -⟩ := routeChild_spec (nd.closed bound) key (Nat.succ_pos _)
  have hzero : j = 0 := by
    by_contra hne
    have hone : j - 1 = 0 := by
      have hsize : (nd.closed bound).maxSize = 1 := congrArg Nat.succ hempty
      omega
    have hlt := hbefore (Nat.pos_of_ne_zero hne)
    rw [hone, InnerNode.closed] at hlt
    dsimp only at hlt
    rw [Function.update_self] at hlt
    exact absurd hle (not_le.mpr hlt)
  rw [hzero] at hroute
  exact ⟨_, hroute⟩

theorem routeChild_closed_above {bound : Key} (hempty : nd.maxSize = 0) (hnull : nd.nodeKey1 0 = 0)
    (hlt : bound < key) : ∃ pos, routeChild (nd.closed bound) key = some (pos, 0) := by
  obtain ⟨j, hj, hroute, -, hafter⟩ := routeChild_spec (nd.closed bound) key (Nat.succ_pos _)
  have hsize : (nd.closed bound).maxSize = 1 := congrArg Nat.succ hempty
  have hone : j = 1 := by
    by_contra hne
    have hzero : j = 0 := by omega
    have hle := hafter (by omega)
    rw [hzero, InnerNode.closed] at hle
    dsimp only at hle
    rw [Function.update_self] at hle
    exact absurd hle (not_le.mpr hlt)
  have hchild : (nd.closed bound).child 1 = 0 := hnull
  rw [hone, hchild] at hroute
  exact ⟨_, hroute⟩

end Built

/-- The run returns, and `find_insert` and the descent of `find` reach the leaf that serves the key. -/
def BuildsIndex (s : TreeState P) (clhtGet : Addr → Addr) (leafcount : Word) (leaf : Nat → Addr) (K : Nat → Key) :
    Prop :=
  ∃ s', bulkload s clhtGet leafcount = .ok s' ∧ ∀ key,
    (∃ path, findInsert s' key = .ok (path, leaf (serving K leafcount.toNat key))) ∧
      descendFrom s' key s'.tempLevel s'.root = .ok (leaf (serving K leafcount.toNat key))

section Search

variable {s : TreeState P} {everyPtr : Nat → Addr} {node : Nat → Nat → Addr} {leaf : Nat → Addr} {K : Nat → Key}
  {N top j t low : Nat} {key : Key}

theorem Loaded.search (h : Loaded s everyPtr node leaf K N top) (s' : TreeState P) (hroot : s'.root = s.root)
    (hlevel : s'.tempLevel = s.tempLevel)
    (hleads : ∀ j < top, ∃ nd pos,
      s'.innerHeap (node (j + 1) (serving K (N + 1) key / 31 ^ (j + 1))) = some nd ∧
        routeChild nd key = some (pos, node j (serving K (N + 1) key / 31 ^ j))) :
    ∃ path, findInsert s' key = .ok (path, leaf (serving K (N + 1) key)) := by
  obtain ⟨path, hrun⟩ := findInsertFrom_way (fun j => node j (serving K (N + 1) key / 31 ^ j)) top
    fun j hj _ => hleads j hj
  have htop : serving K (N + 1) key / 31 ^ top = 0 :=
    Nat.div_eq_of_lt ((serving_spec K N key).1.trans_lt h.spans)
  rw [htop, ← h.root, ← hroot, Nat.pow_zero, Nat.div_one, h.leaves] at hrun
  refine ⟨path, ?_⟩
  rw [findInsert, hlevel, h.level, if_neg h.top_pos.ne']
  exact hrun

theorem Loaded.search_last (h : Loaded s everyPtr node leaf K N top) (s' : TreeState P) (hroot : s'.root = s.root)
    (hlevel : s'.tempLevel = s.tempLevel) (hlast : ∀ i < N, K i < key) (hlow : low ≤ top)
    (hleads : ∀ j < top, low ≤ j → ∃ nd pos, s'.innerHeap (node (j + 1) (N / 31 ^ (j + 1))) = some nd ∧
      routeChild nd key = some (pos, node j (N / 31 ^ j)))
    (hfound : ∃ path, findInsert s' key = .ok (path, leaf (serving K (N + 1) key))) :
    ∃ path, findInsertFrom s' key low (node low (N / 31 ^ low)) = .ok (path, leaf N) := by
  obtain ⟨path, hrun⟩ := hfound
  rw [findInsert, hlevel, h.level, if_neg h.top_pos.ne', hroot, h.root, serving_last hlast] at hrun
  apply findInsertFrom_to (fun j => node j (N / 31 ^ j)) top hlow hleads
  rw [Nat.div_eq_of_lt h.spans]
  exact hrun

theorem Loaded.search_full (h : Loaded s everyPtr node leaf K N top) (hfull : ∀ j, ¬ FreshLevel N j) (key : Key) :
    ∃ path, findInsert s key = .ok (path, leaf (serving K (N + 1) key)) := by
  obtain ⟨ht, hbefore, hhere⟩ := serving_spec K N key
  exact h.search s rfl rfl fun j hj => h.leads hj ht hbefore hhere fun hfresh => absurd hfresh (hfull j)

/-- The node that is closed sends every key to its only child, if no key lies above its bound. -/
theorem Loaded.search_closed (h : Loaded s everyPtr node leaf K N top) (hfresh : FreshLevel N low)
    (honly : ∀ j, FreshLevel N j → j = low) (hbound : K N = BitVec.allOnes 64) {nd : InnerNode}
    (hfirst : nd.leftMostPtr = node low (N / 31 ^ low)) (hempty : nd.maxSize = 0) (key : Key) :
    ∃ path, findInsert (s.setInner (everyPtr (low + 1)) (nd.closed (K N))) key =
      .ok (path, leaf (serving K (N + 1) key)) := by
  obtain ⟨ht, hbefore, hhere⟩ := serving_spec K N key
  apply h.search (s.setInner (everyPtr (low + 1)) (nd.closed (K N))) rfl rfl
  intro j hj
  by_cases hlast : j = low ∧ serving K (N + 1) key / 31 ^ (low + 1) = N / 31 ^ (low + 1)
  · obtain ⟨rfl, hlast⟩ := hlast
    obtain ⟨-, -, hname, -, -⟩ := h.last_node hj
    have hle : key ≤ K N := by
      rw [hbound, BitVec.le_def, BitVec.toNat_allOnes]
      omega
    have hchild : serving K (N + 1) key / 31 ^ j = N / 31 ^ j := by
      have hup := Nat.div_le_div_right (c := 31 ^ j) ht
      rw [← level_above, ← level_above] at hlast
      have hzero := hfresh.2
      omega
    obtain ⟨pos, hpos⟩ := routeChild_closed hempty hle
    refine ⟨_, pos, ?_, hpos.trans ?_⟩
    · rw [hlast, ← hname]
      exact Function.update_self ..
    · rw [hfirst, hchild]
  · apply h.leads_closed hfresh hj ht hbefore hhere
    intro hj' heq
    obtain rfl := honly j hj'
    exact hlast ⟨rfl, heq⟩

/-- Above the closed node, the last key goes to the child that is not there. -/
theorem Loaded.not_search_closed (h : Loaded s everyPtr node leaf K N top) (hfresh : FreshLevel N low)
    (honly : ∀ j, FreshLevel N j → j = low) (hbound : K N < BitVec.allOnes 64) {nd : InnerNode}
    (hnull : nd.nodeKey1 0 = 0) (hempty : nd.maxSize = 0) :
    ¬ ∃ path, findInsert (s.setInner (everyPtr (low + 1)) (nd.closed (K N))) (BitVec.allOnes 64) =
      .ok (path, leaf (serving K (N + 1) (BitVec.allOnes 64))) := by
  intro hfound
  have hlow : low < top := hfresh.lt_top h
  obtain ⟨-, -, hname, -, -⟩ := h.last_node hlow
  have hlast : ∀ i < N, K i < BitVec.allOnes 64 :=
    fun i hi => lt_trans (h.chain.key_lt hi (Nat.lt_succ_self N)) hbound
  obtain ⟨path, hrun⟩ := h.search_last (s.setInner (everyPtr (low + 1)) (nd.closed (K N))) rfl rfl hlast hlow
    (fun j hj habove => h.leads_closed hfresh hj (Nat.le_refl N) hlast (fun hlt => absurd hlt (Nat.lt_irrefl N))
      fun hj' => absurd (honly j hj') (Nat.ne_of_gt habove)) hfound
  have hnode : (s.setInner (everyPtr (low + 1)) (nd.closed (K N))).innerHeap (node (low + 1) (N / 31 ^ (low + 1))) =
      some (nd.closed (K N)) := by
    rw [← hname]
    exact Function.update_self ..
  obtain ⟨pos, hpos⟩ := routeChild_closed_above hempty hnull hbound
  rw [findInsertFrom, hnode, deref_some, ok_bind, hpos, deref_some, ok_bind] at hrun
  obtain ⟨⟨path', leaf'⟩, hrest, hret⟩ := bind_eq_ok.mp hrun
  obtain ⟨-, rfl⟩ := Prod.mk.inj (Except.ok.inj hret)
  rcases Nat.eq_zero_or_pos low with rfl | hpos'
  · obtain ⟨-, hzero⟩ := Prod.mk.inj (Except.ok.inj hrest)
    exact h.chain.leaf_ne h.no_leaf (Nat.lt_succ_self N) hzero.symm
  · obtain ⟨d, rfl⟩ := Nat.exists_eq_succ_of_ne_zero hpos'.ne'
    have hnone : (s.setInner (everyPtr (d + 1 + 1)) (nd.closed (K N))).innerHeap 0 = none := by
      apply (Function.update_of_ne ?_ ..).trans h.no_inner
      rw [h.loading.right _ hlow]
      exact (h.loading.below _ _ hlow (Nat.le_refl _)).1.ne
    rw [findInsertFrom, hnone] at hrest
    exact absurd hrest (by simp)

/-- A second fresh level has a node without separators, and the last key does not get past it. -/
theorem Loaded.not_search_fresh (h : Loaded s everyPtr node leaf K N top) {high : Nat} (hlow : FreshLevel N low)
    (hhigh : FreshLevel N high) (hlt : low < high) (hgreatest : ∀ j, high < j → ¬ FreshLevel N j) (nd : InnerNode) :
    ¬ ∃ path, findInsert (s.setInner (everyPtr (low + 1)) nd) (K N) = .ok (path, leaf (serving K (N + 1) (K N))) := by
  intro hfound
  have htop : high < top := hhigh.lt_top h
  have hlast : ∀ i < N, K i < K N := fun i hi => h.chain.key_lt hi (Nat.lt_succ_self N)
  obtain ⟨path, hrun⟩ := h.search_last (s.setInner (everyPtr (low + 1)) nd) rfl rfl hlast htop
    (fun j hj habove => h.leads_closed hlow hj (Nat.le_refl N) hlast (fun hlt => absurd hlt (Nat.lt_irrefl N))
      fun hj' => absurd hj' (hgreatest j habove)) hfound
  obtain ⟨nd', hnd', hname, -, hsize⟩ := h.last_node htop
  have hne : everyPtr (high + 1) ≠ everyPtr (low + 1) := by
    rw [h.loading.right high htop, h.loading.right low (hlt.trans htop)]
    intro heq
    exact hlt.ne' (h.loading.distinct _ _ _ _ htop (hlt.trans htop) (Nat.le_refl _) (Nat.le_refl _) heq).1
  have hnode : (s.setInner (everyPtr (low + 1)) nd).innerHeap (node (high + 1) (N / 31 ^ (high + 1))) = some nd' := by
    rw [← hname]
    exact (Function.update_of_ne hne ..).trans hnd'
  have hstop : routeChild nd' (K N) = none := by
    rw [routeChild, hsize, hhigh.2]
    rfl
  rw [findInsertFrom, hnode, deref_some, ok_bind, hstop] at hrun
  exact absurd hrun (by simp)

end Search

instance (N j : Nat) : Decidable (FreshLevel N j) := inferInstanceAs (Decidable (_ ∧ _))

theorem Loaded.fresh_unique {s : TreeState P} {everyPtr : Nat → Addr} {node : Nat → Nat → Addr} {leaf : Nat → Addr}
    {K : Nat → Key} {N top i j : Nat} {s' : TreeState P} (h : Loaded s everyPtr node leaf K N top)
    (hrun : closeLevels s everyPtr (leaf N) top 1 = .ok s')
    (hfound : ∀ key, ∃ path, findInsert s' key = .ok (path, leaf (serving K (N + 1) key)))
    (hi : FreshLevel N i) (hj : FreshLevel N j) : i = j := by
  have hsome : ∃ low, FreshLevel N low := ⟨i, hi⟩
  obtain ⟨nd, -, -, -, -, hclose⟩ := h.close_lowest (Nat.find_spec hsome) fun _ hlt => Nat.find_min hsome hlt
  obtain rfl := Except.ok.inj (hrun.symm.trans hclose)
  -- the greatest fresh level is also the lowest
  have hgreatest : ∀ k, Nat.findGreatest (FreshLevel N) top < k → ¬ FreshLevel N k := fun k hk hfresh =>
    Nat.findGreatest_is_greatest hk (hfresh.lt_top h).le hfresh
  have hsame : Nat.find hsome = Nat.findGreatest (FreshLevel N) top := by
    apply Nat.le_antisymm (Nat.find_le (Nat.findGreatest_spec (hi.lt_top h).le hi))
    apply Nat.le_of_not_lt
    intro hlt
    exact h.not_search_fresh (Nat.find_spec hsome) (Nat.findGreatest_spec (hi.lt_top h).le hi) hlt hgreatest _
      (hfound (K N))
  have hbetween : ∀ k, FreshLevel N k → k = Nat.find hsome := fun k hk =>
    Nat.le_antisymm (hsame ▸ Nat.le_findGreatest (hk.lt_top h).le hk) (Nat.find_le hk)
  exact (hbetween i hi).trans (hbetween j hj).symm

/-- For every chain of `leafcount` leaves, at least one: `bulkload` returns with an index that sends every key
to the leaf that serves it, if and only if there are more leaves than a node has children, the count is so
small that `ceiling` does not overflow, at most one right-most node has just been opened, and no key lies
above the last `max_key` where one has. -/
theorem bulkload_iff (s : TreeState P) (clhtGet : Addr → Addr) (leafcount : Word) (leaf : Nat → Addr) (K : Nat → Key)
    (h : LeafChain s leaf K leafcount.toNat) (hpos : 0 < leafcount.toNat) (hstart : clhtGet s.leafStart = leaf 0)
    (hinner : s.innerHeap 0 = none) (hleaf : s.dleafHeap 0 = none) (hbrk : 0 < s.brk) :
    BuildsIndex s clhtGet leafcount leaf K ↔
      32 ≤ leafcount.toNat ∧ leafcount.toNat + 31 < 2 ^ 31 ∧
        (∀ i j, FreshLevel (leafcount.toNat - 1) i → FreshLevel (leafcount.toNat - 1) j → i = j) ∧
        ∀ j, FreshLevel (leafcount.toNat - 1) j → K (leafcount.toNat - 1) = BitVec.allOnes 64 := by
  obtain ⟨N, hN⟩ : ∃ N, leafcount.toNat = N + 1 := ⟨_, (Nat.succ_pred_eq_of_pos hpos).symm⟩
  rw [BuildsIndex, hN, Nat.add_sub_cancel]
  have hchain : LeafChain s leaf K (N + 1) := hN ▸ h
  constructor
  · rintro ⟨s', hrun, hfound⟩
    obtain ⟨hmany, hfit⟩ := h.limits hleaf hinner hpos hstart hrun
    rw [hN] at hmany hfit
    obtain ⟨s₁, everyPtr, node, top, hload, hloaded⟩ :=
      hchain.loaded hN hleaf hinner hbrk hstart (by omega) (by omega)
    rw [hload] at hrun
    have honly : ∀ i j, FreshLevel N i → FreshLevel N j → i = j := fun i j hi hj =>
      hloaded.fresh_unique hrun (fun key => (hfound key).1) hi hj
    refine ⟨hmany, hfit, honly, fun low hlow => ?_⟩
    -- one fresh level, and the last bound is not the largest key: a key above it gets lost
    by_contra hbound
    obtain ⟨nd, -, -, hnull, hempty, hclose⟩ := hloaded.close_lowest hlow fun i hlt hi => hlt.ne (honly i low hi hlow)
    obtain rfl := Except.ok.inj (hrun.symm.trans hclose)
    exact hloaded.not_search_closed hlow (fun j hj => honly j low hj hlow) (BitVec.lt_allOnes_iff.mpr hbound) hnull
      hempty (hfound _).1
  · rintro ⟨hmany, hfit, honly, hbound⟩
    obtain ⟨s₁, everyPtr, node, top, hload, hloaded⟩ :=
      hchain.loaded hN hleaf hinner hbrk hstart (by omega) (by omega)
    have hsearch : ∃ s', closeLevels s₁ everyPtr (leaf N) top 1 = .ok s' ∧
        ∀ key, ∃ path, findInsert s' key = .ok (path, leaf (serving K (N + 1) key)) := by
      -- with a fresh level the last loop closes its node, else it changes nothing
      by_cases hfresh : ∃ low, FreshLevel N low
      · obtain ⟨low, hlow⟩ := hfresh
        obtain ⟨nd, -, hfirst, -, hempty, hclose⟩ := hloaded.close_lowest hlow fun i hlt hi => hlt.ne (honly i low hi hlow)
        exact ⟨_, hclose, hloaded.search_closed hlow (fun j hj => honly j low hj hlow) (hbound low hlow) hfirst hempty⟩
      · have hnone : ∀ j, ¬ FreshLevel N j := fun j hj => hfresh ⟨j, hj⟩
        exact ⟨s₁, hloaded.close_none hnone, hloaded.search_full hnone⟩
    obtain ⟨s', hclose, hfound⟩ := hsearch
    refine ⟨s', hload.trans hclose, fun key => ?_⟩
    obtain ⟨path, hpath⟩ := hfound key
    exact ⟨⟨path, hpath⟩, descend_of_findInsert hpath⟩

/-! ### Rows of leaves -/

/-- `n` leaves at `1` to `n`, with their addresses as bounds. -/
def leafRow (n : Nat) : TreeState Unit where
  innerHeap := fun _ => none
  dleafHeap := fun a =>
    if 1 ≤ a ∧ a ≤ n then some ⟨fun _ => .zero, 0, 0, 0, if a < n then a + 1 else 0, BitVec.ofNat 64 a⟩ else none
  bufHeap := fun _ => none
  brk := n + 1
  junkInner := fun _ => InnerNode.zero
  junkLeaf := fun _ => ⟨fun _ => .zero, 0, 0, 0, 0, 0⟩
  pm := ()
  root := 0
  tempLevel := 0
  leafStart := 1
  dstart := 1

theorem leafRow_chain {n : Nat} (hn : n < 2 ^ 64) :
    LeafChain (leafRow n) (fun i => i + 1) (fun i => BitVec.ofNat 64 (i + 1)) n where
  holds i hi := ⟨_, if_pos ⟨Nat.succ_pos i, hi⟩, rfl, rfl⟩
  increasing i hi := by
    rw [BitVec.lt_def, BitVec.toNat_ofNat, BitVec.toNat_ofNat, Nat.mod_eq_of_lt (by omega), Nat.mod_eq_of_lt (by omega)]
    exact Nat.lt_succ_self _

/-- 33 leaves: two nodes under the root, none of them fresh. -/
theorem bulkload_iff_row :
    BuildsIndex (leafRow 33) (fun a => a) 33 (fun i => i + 1) (fun i => BitVec.ofNat 64 (i + 1)) := by
  have hfull : ∀ j, ¬ FreshLevel 32 j := by
    rintro j ⟨hle, hzero⟩
    have hlow : j < 2 := (Nat.pow_lt_pow_iff_right (show 1 < 31 by decide)).mp (hle.trans_lt (by decide))
    obtain rfl | rfl : j = 0 ∨ j = 1 := by omega
    · exact absurd hzero (by decide)
    · exact absurd hzero (by decide)
  apply (bulkload_iff (leafRow 33) (fun a => a) 33 (fun i => i + 1) (fun i => BitVec.ofNat 64 (i + 1))
    (leafRow_chain (by decide)) (by decide) rfl rfl rfl (by decide)).mpr
  exact ⟨by decide, by decide, fun i _ hi => absurd hi (hfull i), fun j hj => absurd hj (hfull j)⟩

/-- One leaf: there is no inner node to link it to. -/
theorem bulkload_single_leaf :
    LeafChain (leafRow 1) (fun i => i + 1) (fun i => BitVec.ofNat 64 (i + 1)) (1 : Word).toNat ∧
      ¬ BuildsIndex (leafRow 1) (fun a => a) 1 (fun i => i + 1) (fun i => BitVec.ofNat 64 (i + 1)) := by
  have hchain : LeafChain (leafRow 1) (fun i => i + 1) (fun i => BitVec.ofNat 64 (i + 1)) (1 : Word).toNat :=
    leafRow_chain (by decide)
  refine ⟨hchain, ?_⟩
  rintro ⟨s', hrun, -⟩
  obtain ⟨hmany, -⟩ := hchain.limits rfl rfl (by decide) rfl hrun
  exact absurd hmany (by decide)

end ZBTree
