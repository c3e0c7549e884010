import ZBTree.InnerSplit
import ZBTree.LeafSplit
import ZBTree.LinkedList

/-!
# The tree between two steps

What links the inner nodes, the leaves and the `D_Leaf` chain together, whatever the
keys are. A leaf may be cut: its right half is already in the chain, but the inner nodes
do not know it yet. `Cuts` says which leaves are cut and how; the leaves of the tree are
then the expansion of the index. Every section of `insert` keeps the skeleton, for any
persistent memory.
-/

namespace ZBTree

open RangeIndex MultiwayTree LinkedList

/-- A leaf split that the inner nodes do not know yet: the split key, the new leaf, and
the `P_Leaf` that `alt_ptr` will point to again. -/
structure Cut where
  key : Key
  right : Addr
  pleaf : Addr

abbrev Cuts := Addr → Option Cut

/-- No leaf is cut. -/
def Cuts.empty : Cuts := fun _ => none

def Cuts.pend (cuts : Cuts) (a : Addr) : Option (Key × Addr) :=
  (cuts a).map fun c => (c.key, c.right)

theorem Cuts.pend_update (cuts : Cuts) (a : Addr) (c : Option Cut) :
    Cuts.pend (Function.update cuts a c) =
      Function.update cuts.pend a (c.map fun c => (c.key, c.right)) := by
  funext b
  by_cases hb : b = a
  · subst hb
    simp [Cuts.pend]
  · simp [Cuts.pend, Function.update_of_ne hb]

variable {P : Type}

namespace TreeState

/-- `D_Leaf::next`. -/
def nextOf (s : TreeState P) (a : Addr) : Addr :=
  match s.dleafHeap a with
  | none => 0
  | some m => m.next

/-- All leaves, cut off ones included, with their lower bounds. -/
def leaves (s : TreeState P) (cuts : Cuts) : Index Key Addr := expand cuts.pend s.index

theorem nextOf_some {s : TreeState P} {a : Addr} {m : DLeaf} (h : s.dleafHeap a = some m) :
    s.nextOf a = m.next := by
  simp [nextOf, h]

theorem leaves_empty (s : TreeState P) : s.leaves Cuts.empty = s.index :=
  expand_none fun _ _ => rfl

end TreeState

/-- `temp_insert` is `2` on the leaves that are cut, and `0` or `1` on the others. -/
def LockOK (c : Option Cut) (m : DLeaf) : Prop :=
  if c.isSome then m.tempInsert = 2 else m.tempInsert ≤ 1

/-- The links between the inner nodes, the leaves and the leaf chain, which ends at `tail`. -/
structure Skeleton (cuts : Cuts) (tail : Addr) (s : TreeState P) : Prop where
  upper : Upper s
  nodup : (labels (s.leaves cuts)).Nodup
  heap : ∀ a, (∃ m, s.dleafHeap a = some m) ↔ a ∈ labels (s.leaves cuts)
  leaf_lt : ∀ a ∈ labels (s.leaves cuts), 0 < a ∧ a < s.brk
  cut : ∀ a c, cuts a = some c → a ∈ labels s.index ∧ cuts c.right = none
  chain : Seg s.nextOf s.dstart (labels (s.leaves cuts)) tail
  leaf : ∀ a m, s.dleafHeap a = some m → m.maxUse ≤ MAX_LEAF_KEY ∧ LockOK (cuts a) m

variable {cuts : Cuts} {tail : Addr} {s s' : TreeState P} {a L : Addr} {m m' : DLeaf}

theorem mem_leaves_of_index (h : a ∈ labels s.index) : a ∈ labels (s.leaves cuts) :=
  mem_labels_expand.mpr (Or.inl h)

theorem Skeleton.of_index (h : Skeleton cuts tail s) (ha : a ∈ labels s.index) :
    ∃ m, s.dleafHeap a = some m :=
  (h.heap a).mpr (mem_leaves_of_index ha)

theorem Skeleton.index_nodup (h : Skeleton cuts tail s) : (labels s.index).Nodup :=
  nodup_of_expand h.nodup

theorem Skeleton.reaches (h : Skeleton cuts tail s) (key : Key) :
    ∃ path leaf m, findInsert s key = .ok (path, leaf) ∧
      descendFrom s key s.tempLevel s.root = .ok leaf ∧ leaf ∈ labels s.index ∧
      s.dleafHeap leaf = some m := by
  obtain ⟨path, leaf, hfind, hpath, -⟩ := h.upper.findInsert_spec key
  have hmem : leaf ∈ labels s.index := hpath.1.mem_labels ⊥
  obtain ⟨m, hm⟩ := h.of_index hmem
  exact ⟨path, leaf, m, hfind, descend_of_findInsert hfind, hmem, hm⟩

theorem Skeleton.setPm (h : Skeleton cuts tail s) (pm : P) : Skeleton cuts tail { s with pm := pm } :=
  ⟨h.upper.congr rfl rfl rfl (Nat.le_refl _), h.nodup, h.heap, h.leaf_lt, h.cut, h.chain, h.leaf⟩

theorem nextOf_setLeaf (hm : s.dleafHeap a = some m) (m' : DLeaf) (hnext : m'.next = m.next) :
    (s.setLeaf a m').nextOf = s.nextOf := by
  funext b
  by_cases hb : b = a
  · subst hb
    simp [TreeState.nextOf, TreeState.setLeaf, hm, hnext]
  · simp [TreeState.nextOf, TreeState.setLeaf, Function.update_of_ne hb]

/-- Writing a leaf keeps the skeleton when `next` stays and the lock word is right. -/
theorem Skeleton.setLeaf (h : Skeleton cuts tail s) (hm : s.dleafHeap a = some m)
    (hnext : m'.next = m.next) (huse : m'.maxUse ≤ MAX_LEAF_KEY) (hlock : LockOK (cuts a) m') :
    Skeleton cuts tail (s.setLeaf a m') where
  upper := h.upper.congr rfl rfl rfl (Nat.le_refl _)
  nodup := h.nodup
  heap b := by
    refine Iff.trans ?_ (h.heap b)
    by_cases hb : b = a
    · subst hb
      simp [TreeState.setLeaf, hm]
    · simp [TreeState.setLeaf, Function.update_of_ne hb]
  leaf_lt := h.leaf_lt
  cut := h.cut
  chain := by
    rw [nextOf_setLeaf hm m' hnext]
    exact h.chain
  leaf b n hn := by
    by_cases hb : b = a
    · subst hb
      simp only [TreeState.setLeaf, Function.update_self, Option.some.injEq] at hn
      exact hn ▸ ⟨huse, hlock⟩
    · simp only [TreeState.setLeaf, Function.update_of_ne hb] at hn
      exact h.leaf b n hn

/-! ### Splitting a leaf

`Skeleton` is the part of the invariant that knows nothing of records: the inner nodes, the chain of the leaves, the
marks and the addresses that have been handed out. -/

section Split

variable (m : DLeaf) (fingers : Nat → AdaptiveSlot) (keys : Nat → NodeEntry) (newLeaf : Addr)
  (pm : P) (sk : Key)

theorem splitState_heap (hL : L < s.brk) :
    (splitState s L m fingers keys newLeaf pm).dleafHeap L =
        some (({ m with altPtr := s.brk, tempInsert := m.tempInsert + 1 } : DLeaf).leftHalf fingers
          keys (s.brk + 1)) ∧
      (splitState s L m fingers keys newLeaf pm).dleafHeap (s.brk + 1) =
        some (m.rightHalf (s.junkLeaf (s.brk + 1)) fingers keys newLeaf) ∧
      ∀ b, b ≠ L → b ≠ s.brk + 1 →
        (splitState s L m fingers keys newLeaf pm).dleafHeap b = s.dleafHeap b := by
  have hne : s.brk + 1 ≠ L := (hL.trans (Nat.lt_succ_self _)).ne'
  refine ⟨Function.update_self .., ?_, fun b hb hb' => ?_⟩
  · simp only [splitState, Function.update_of_ne hne, Function.update_self]
    rfl
  · simp only [splitState, Function.update_of_ne hb, Function.update_of_ne hb']

theorem Skeleton.split_insAfter (h : Skeleton cuts tail s) (hL : L ∈ labels s.index)
    (hcut : cuts L = none) :
    InsAfter L sk (s.brk + 1) (s.leaves cuts)
      ((splitState s L m fingers keys newLeaf pm).leaves
        (Function.update cuts L (some ⟨sk, s.brk + 1, m.altPtr⟩))) := by
  have hpend : cuts.pend L = none := by simp [Cuts.pend, hcut]
  simp only [TreeState.leaves, Cuts.pend_update]
  exact insAfter_expand_update hL h.index_nodup hpend

theorem Skeleton.split (h : Skeleton cuts tail s) (hL : L ∈ labels s.index)
    (hcut : cuts L = none) (hm : s.dleafHeap L = some m) (hheld : m.tempInsert = 1) :
    Skeleton (Function.update cuts L (some ⟨sk, s.brk + 1, m.altPtr⟩)) tail
      (splitState s L m fingers keys newLeaf pm) := by
  have hLlt := (h.leaf_lt L (mem_leaves_of_index hL)).2
  -- the new leaf has an address that no leaf had
  have hfresh : s.brk + 1 ∉ labels (s.leaves cuts) := fun hmem =>
    absurd (h.leaf_lt _ hmem).2 (Nat.not_lt.mpr (Nat.le_succ _))
  have hins := h.split_insAfter m fingers keys newLeaf pm sk hL hcut
  obtain ⟨hleft, hright, hoff⟩ := splitState_heap m fingers keys newLeaf pm hLlt
  have hcutR : cuts (s.brk + 1) = none := by
    cases hc : cuts (s.brk + 1) with
    | none => rfl
    | some c => exact absurd (mem_leaves_of_index (h.cut _ c hc).1) hfresh
  refine ⟨h.upper.congr rfl rfl rfl (Nat.le_add_right _ 2), hins.nodup h.nodup hfresh, ?_, ?_,
    ?_, ?_, ?_⟩
  · intro b
    rw [hins.mem_labels, ← h.heap b]
    by_cases hbL : b = L
    · subst hbL
      simp [hleft, hm]
    · by_cases hbR : b = s.brk + 1
      · subst hbR
        simp [hright]
      · simp [hoff b hbL hbR, hbR]
  · intro b hb
    rcases (hins.mem_labels b).mp hb with hb | rfl
    · exact ⟨(h.leaf_lt b hb).1, (h.leaf_lt b hb).2.trans (by simp [splitState])⟩
    · exact ⟨Nat.succ_pos _, by simp [splitState]⟩
  · intro b c hc
    by_cases hbL : b = L
    · subst hbL
      rw [Function.update_self, Option.some.injEq] at hc
      subst hc
      exact ⟨hL, by rw [Function.update_of_ne (hLlt.trans (Nat.lt_succ_self _)).ne', hcutR]⟩
    · rw [Function.update_of_ne hbL] at hc
      obtain ⟨hb, hr⟩ := h.cut b c hc
      refine ⟨hb, ?_⟩
      -- the right half of another cut leaf is not `L`, which the index knows
      have hne : c.right ≠ L := by
        rintro rfl
        have hpend : cuts.pend b = some (c.key, c.right) := by simp [Cuts.pend, hc]
        exact right_not_mem h.nodup hb hpend hL
      rw [Function.update_of_ne hne, hr]
  · -- the chain of the leaves: `L` points to the new leaf, and that to where `L` did
    obtain ⟨A, B, hF, hF'⟩ := hins.labels_split
    have hchain := h.chain
    have hnodup := h.nodup
    rw [hF] at hchain hnodup hfresh
    rw [hF']
    simp only [List.mem_append, List.mem_cons, not_or] at hfresh
    simp only [List.nodup_append, List.nodup_cons, List.mem_cons] at hnodup
    obtain ⟨-, ⟨hLB, -⟩, hcross⟩ := hnodup
    have hsame : ∀ b, b ≠ L → b ≠ s.brk + 1 →
        (splitState s L m fingers keys newLeaf pm).nextOf b = s.nextOf b := fun b hb hb' => by
      simp only [TreeState.nextOf, hoff b hb hb']
    have hstart : (splitState s L m fingers keys newLeaf pm).dstart = s.dstart := rfl
    rw [hstart]
    refine hchain.insert ?_ ?_ ?_ ?_
    · rw [TreeState.nextOf_some hleft, DLeaf.leftHalf_next]
    · rw [TreeState.nextOf_some hright, TreeState.nextOf_some hm, DLeaf.rightHalf_next]
    · intro b hb
      exact hsame b (hcross b hb L (Or.inl rfl)) fun heq => hfresh.1 (heq ▸ hb)
    · intro b hb
      exact hsame b (fun heq => hLB (heq ▸ hb)) fun heq => hfresh.2.2 (heq ▸ hb)
  · intro b n hn
    by_cases hbL : b = L
    · subst hbL
      rw [hleft, Option.some.injEq] at hn
      subst hn
      simp [LockOK, hheld, LEFT_KEY, MAX_LEAF_KEY]
    · by_cases hbR : b = s.brk + 1
      · subst hbR
        rw [hright, Option.some.injEq] at hn
        subst hn
        simp [LockOK, Function.update_of_ne hbL, hcutR, RIGHT_KEY, MAX_LEAF_KEY]
      · rw [hoff b hbL hbR] at hn
        rw [Function.update_of_ne hbL]
        exact h.leaf b n hn

end Split

/-! ### Recording the split -/

/-- Once the inner nodes know the new leaf, the leaves are the same and none of the two
is cut. -/
theorem Skeleton.install (h : Skeleton cuts tail s) {c : Cut} (hcut : cuts L = some c) {key : Key}
    {path : List Cursor} (hfind : findInsert s key = .ok (path, L)) :
    ∃ s₁ s' : TreeState P, installSeparator s key c.key L c.right c.pleaf = .ok s' ∧
      InsAfter L c.key c.right s.index s₁.index ∧ s.brk ≤ s₁.brk ∧
      s₁ = { s with
        innerHeap := s₁.innerHeap, brk := s₁.brk, root := s₁.root, tempLevel := s₁.tempLevel } ∧
      (∃ m, s.dleafHeap L = some m ∧
        s' = s₁.setLeaf L { m with tempInsert := 0, altPtr := c.pleaf }) ∧
      s'.leaves (Function.update cuts L none) = s.leaves cuts ∧
      Skeleton (Function.update cuts L none) tail s' := by
  obtain ⟨hLindex, hRcut⟩ := h.cut L c hcut
  obtain ⟨m, hm⟩ := h.of_index hLindex
  obtain ⟨s₁, hrun, hupper, hins, hbrk, hsame⟩ := h.upper.recordSplit_spec hfind c.key c.right
  have hheap₁ : s₁.dleafHeap = s.dleafHeap := by rw [hsame]
  have hstart₁ : s₁.dstart = s.dstart := by rw [hsame]
  have hpend : cuts.pend L = some (c.key, c.right) := by simp [Cuts.pend, hcut]
  have hRne : c.right ≠ L := by
    rintro heq
    rw [heq, hcut] at hRcut
    exact absurd hRcut (by simp)
  -- the leaves with their cuts are the same, since the cut is now in the index
  have hleaves₁ : s₁.leaves (Function.update cuts L none) = s.leaves cuts := by
    simp only [TreeState.leaves, Cuts.pend_update, Option.map_none]
    exact expand_insAfter hins h.index_nodup hpend (by simp [Cuts.pend, hRcut]) hRne
  have hskel₁ : Skeleton (Function.update cuts L none) tail
      (s₁.setLeaf L { m with tempInsert := 0, altPtr := c.pleaf }) := by
    refine ⟨hupper.congr rfl rfl rfl (Nat.le_refl _), ?_, ?_, ?_, ?_, ?_, ?_⟩
    · exact hleaves₁ ▸ h.nodup
    · intro b
      refine Iff.trans ?_ ((h.heap b).trans (by exact hleaves₁ ▸ Iff.rfl))
      by_cases hb : b = L
      · subst hb
        simp [TreeState.setLeaf, hm]
      · simp [TreeState.setLeaf, Function.update_of_ne hb, hheap₁]
    · intro b hb
      have hb' : b ∈ labels (s.leaves cuts) := by exact hleaves₁ ▸ hb
      exact ⟨(h.leaf_lt b hb').1, (h.leaf_lt b hb').2.trans_le hbrk⟩
    · intro b c' hc'
      by_cases hb : b = L
      · subst hb
        rw [Function.update_self] at hc'
        exact absurd hc' (by simp)
      · rw [Function.update_of_ne hb] at hc'
        obtain ⟨hbi, hr⟩ := h.cut b c' hc'
        refine ⟨(hins.mem_labels b).mpr (Or.inl hbi), ?_⟩
        -- another cut whose right half is `L` itself, or an unrelated one
        by_cases hrL : c'.right = L
        · rw [hrL, Function.update_self]
        · rw [Function.update_of_ne hrL, hr]
    · have hnext : (s₁.setLeaf L { m with tempInsert := 0, altPtr := c.pleaf }).nextOf = s.nextOf := by
        rw [nextOf_setLeaf (hheap₁ ▸ hm : s₁.dleafHeap L = some m)
          { m with tempInsert := 0, altPtr := c.pleaf } rfl]
        funext b
        simp only [TreeState.nextOf, hheap₁]
      rw [hnext]
      have hchain := h.chain
      rw [← hleaves₁, ← hstart₁] at hchain
      exact hchain
    · intro b n hn
      by_cases hb : b = L
      · subst hb
        simp only [TreeState.setLeaf, Function.update_self, Option.some.injEq] at hn
        subst hn
        exact ⟨(h.leaf b m hm).1, by simp [LockOK]⟩
      · simp only [TreeState.setLeaf, Function.update_of_ne hb, hheap₁] at hn
        rw [Function.update_of_ne hb]
        exact h.leaf b n hn
  refine ⟨s₁, _, ?_, hins, hbrk, hsame, ⟨m, hm, rfl⟩, hleaves₁, hskel₁⟩
  simp only [installSeparator, hrun, ok_bind, hheap₁, hm, deref_some, pure_eq_ok]

end ZBTree
