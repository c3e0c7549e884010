import ZBTree.RecoveryInsert

/-!
# Cells that are clean

`quick_insert` leaves the `control_bit` of the cell that it fills as it is, so what is in the cell
before decides whether the record can be found. A cell that no slot has used holds what `malloc` has
left there, a word of a cached pair or an old slot. If these words keep small what `control_bit` is
read from, every cell is clean whatever the order of the insertions.
-/

namespace ZBTree

open Pmem Arrays

/-- Taken for a slot, the word refers to no cell behind the first half. -/
def CalmWord (w : Word) : Prop := (AdaptiveSlot.ofVal w).controlBit.toNat ≤ LEFT_KEY

instance : DecidablePred CalmWord := fun w =>
  inferInstanceAs (Decidable ((AdaptiveSlot.ofVal w).controlBit.toNat ≤ LEFT_KEY))

/-- The cells behind the used slots and those of the second half refer to nothing behind themselves. -/
def DLeaf.Calm (m : DLeaf) : Prop :=
  ∀ i, i < MAX_LEAF_KEY → LEFT_KEY ≤ i ∨ m.maxUse ≤ i → m.control i ≤ i

/-- What `malloc` hands out is such that every cell of it may be filled. -/
def CalmJunk (junkLeaf : Addr → DLeaf) : Prop := ∀ a i, i < MAX_LEAF_KEY → (junkLeaf a).control i ≤ i

structure TreeState.Calm {P : Type} (s : TreeState P) : Prop where
  leaf : ∀ a m, s.dleafHeap a = some m → m.Calm
  junk : CalmJunk s.junkLeaf

theorem DLeaf.Calm.cleanCell {m : DLeaf} (h : m.Calm) (hroom : m.maxUse < MAX_LEAF_KEY) : m.CleanCell :=
  h m.maxUse hroom (Or.inr (Nat.le_refl _))

/-! ### Filling a slot -/

section Fill

variable {m m' : DLeaf} {key : Key}

theorem DLeaf.Calm.view (h : m.Calm) (hview : SameView m m') : m'.Calm := by
  intro i hi hcell
  have hsame : m'.control i = m.control i := by
    by_cases hlt : i < m.maxUse
    · exact congrArg BitVec.toNat (hview.slot i hlt).2.1
    · unfold DLeaf.control
      rw [hview.spare i (Nat.le_of_not_lt hlt)]
  rw [hview.use] at hcell
  exact hsame ▸ h i hi hcell

/-- The new slot refers to what its cell did, and another slot loses its pair. -/
theorem DLeaf.Calm.quickFill (h : m.Calm) (hroom : m.maxUse < MAX_LEAF_KEY) (val : Addr) (duplicate : Bool) :
    (m.quickFill key val duplicate).Calm := by
  intro i hi hcell
  have hcell' : LEFT_KEY ≤ i ∨ m.maxUse ≤ i := hcell.imp_right Nat.le_of_succ_le
  have hsame : (m.quickFill key val duplicate).control i = m.control i := by
    unfold DLeaf.control DLeaf.quickFill
    dsimp only
    by_cases hlow : LEFT_KEY ≤ m.maxUse
    · -- the slot that loses its pair lies below the cell
      have hback : i ≠ m.maxUse - LEFT_KEY := by
        have hpos : 0 < LEFT_KEY := by decide
        have hmax : MAX_LEAF_KEY = LEFT_KEY + LEFT_KEY := rfl
        omega
      rw [if_pos hlow, Function.update_of_ne hback]
      by_cases hlast : i = m.maxUse
      · subst hlast
        rw [Function.update_self]
      · rw [Function.update_of_ne hlast]
    · rw [if_neg hlow]
      by_cases hlast : i = m.maxUse
      · subst hlast
        rw [Function.update_self]
      · rw [Function.update_of_ne hlast]
  exact hsame ▸ h i hi hcell'

end Fill

/-! ### Splitting a leaf

The cells behind the used slots of a half hold keys and values. As long as none of them, taken for a slot, refers
to a cell behind its own, `quick_insert` may read them as control bits and find no pair. -/

section Split

variable {keys : Nat → NodeEntry} {off : Nat}

/-- The cells of the second half are calm. -/
def CalmCells (slots : Nat → AdaptiveSlot) : Prop :=
  ∀ i, LEFT_KEY ≤ i → i < MAX_LEAF_KEY → (slots i).controlBit.toNat ≤ i

theorem CalmCells.update {slots : Nat → AdaptiveSlot} (h : CalmCells slots) {i : Nat} {x : AdaptiveSlot}
    (hx : LEFT_KEY ≤ i → x.controlBit.toNat ≤ i) : CalmCells (Function.update slots i x) := by
  intro j hj hlt
  by_cases hji : j = i
  · subst hji
    rw [Function.update_self]
    exact hx hj
  · rw [Function.update_of_ne hji]
    exact h j hj hlt

theorem CalmCells.cachePair (half : HalfState) (h : CalmCells half.slots) (hpos : LEFT_KEY ≤ half.compactPos - 1)
    {i : Nat} (hi : i < LEFT_KEY) {e : NodeEntry} (hkey : CalmWord e.oneKey) (hval : CalmWord e.val) :
    CalmCells (half.cachePair i e).slots := by
  have hnext : LEFT_KEY ≤ half.compactPos := hpos.trans (Nat.sub_le _ _)
  have hone := h.update (i := half.compactPos) fun _ => hval.trans hnext
  have htwo := hone.update (i := half.compactPos - 1) fun _ => hkey.trans hpos
  exact htwo.update fun hle => absurd hi (Nat.not_lt.mpr hle)

/-- One half of a split, over calm cells and with calm entries. -/
theorem fillHalf_calm {slots dramBuffer : Nat → AdaptiveSlot} (h : CalmCells slots)
    (hkeys : ∀ i, i < LEFT_KEY → CalmWord (keys (i + off)).oneKey ∧ CalmWord (keys (i + off)).val) :
    CalmCells (fillHalf off slots dramBuffer keys) := by
  have hhot : CalmCells ((List.range LEFT_KEY).foldl (hotPass off dramBuffer keys) ⟨slots, MAX_LEAF_KEY - 1⟩).slots := by
    refine foldl_range_induction (fun _ (half : HalfState) => CalmCells half.slots) _ h fun i half hi hhalf => ?_
    have hcopy : CalmCells (Function.update half.slots i (dramBuffer (i + off))) :=
      hhalf.update fun hle => absurd hi (Nat.not_lt.mpr hle)
    unfold hotPass
    dsimp only
    split_ifs with hpair
    · exact CalmCells.cachePair ⟨_, half.compactPos⟩ hcopy hpair.1 hi (hkeys i hi).1 (hkeys i hi).2
    · exact hcopy
  unfold fillHalf
  dsimp only
  split_ifs with hroom
  · refine foldl_range_induction (fun _ (half : HalfState) => CalmCells half.slots) _ hhot fun i half hi hhalf => ?_
    unfold coldPass
    split_ifs with hpair
    · exact CalmCells.cachePair _ hhalf hpair.1 hi (hkeys i hi).1 (hkeys i hi).2
    · exact hhalf
  · exact hhot

theorem DLeaf.Calm.cells {m : DLeaf} (h : m.Calm) : CalmCells m.fingerPrint := fun i hi hlt => h i hlt (Or.inl hi)

theorem DLeaf.Calm.leftHalf (old : DLeaf) (h : CalmCells old.fingerPrint) (dramBuffer : Nat → AdaptiveSlot)
    {newMeta : Addr} (hkeys : ∀ i, i < MAX_LEAF_KEY → CalmWord (keys i).oneKey ∧ CalmWord (keys i).val) :
    (old.leftHalf dramBuffer keys newMeta).Calm := by
  have hcells : CalmCells (fillHalf 0 old.fingerPrint dramBuffer keys) :=
    fillHalf_calm h fun j hj => hkeys j (hj.trans_le (by decide))
  intro i hi hcell
  rw [DLeaf.leftHalf_maxUse, or_self] at hcell
  exact hcells i hcell hi

theorem DLeaf.Calm.rightHalf (old : DLeaf) {junk : DLeaf} (h : ∀ i, i < MAX_LEAF_KEY → junk.control i ≤ i)
    (dramBuffer : Nat → AdaptiveSlot) {newLeaf : Addr}
    (hkeys : ∀ i, i < MAX_LEAF_KEY → CalmWord (keys i).oneKey ∧ CalmWord (keys i).val) :
    (old.rightHalf junk dramBuffer keys newLeaf).Calm := by
  have hjunk : CalmCells junk.fingerPrint := fun j _ hlt => h j hlt
  have hcells : CalmCells (fillHalf LEFT_KEY junk.fingerPrint dramBuffer keys) :=
    fillHalf_calm hjunk fun j hj => hkeys (j + LEFT_KEY) (Nat.add_lt_add_right hj _)
  intro i hi hcell
  have hright : RIGHT_KEY = LEFT_KEY := rfl
  rw [DLeaf.rightHalf_maxUse, hright, or_self] at hcell
  exact hcells i hcell hi

end Split

/-! ### The tree -/

section Tree

variable {P : Type} {s s' : TreeState P} {t : Tid} {leaf : Addr} {m m' : DLeaf}

theorem TreeState.Calm.write (h : s.Calm) (hcalm : m'.Calm)
    (hheap : s'.dleafHeap = Function.update s.dleafHeap leaf (some m')) (hjunk : s'.junkLeaf = s.junkLeaf) :
    s'.Calm := by
  refine ⟨fun b n hn => ?_, hjunk ▸ h.junk⟩
  rw [hheap] at hn
  by_cases hb : b = leaf
  · subst hb
    rw [Function.update_self] at hn
    exact Option.some.inj hn ▸ hcalm
  · rw [Function.update_of_ne hb] at hn
    exact h.leaf b n hn

theorem TreeState.Calm.setLeaf (h : s.Calm) (hcalm : m'.Calm) : (s.setLeaf leaf m').Calm := h.write hcalm rfl rfl

variable [Pmem P]

theorem quickSplit_eq {r : Addr × Key × Addr × TreeState P} (h : quickSplit s t leaf = .ok r) :
    ∃ m buf keys fingers newLeaf pm, s.dleafHeap leaf = some m ∧ readEntries s.pm m MAX_LEAF_KEY = .ok buf ∧
      qsort (2 * MAX_LEAF_KEY) 0 (MAX_LEAF_KEY - 1) buf m.fingerBuffer = some (keys, fingers) ∧
      r = (s.brk + 1, (keys SPLIT_POS).oneKey, m.altPtr,
        splitState s leaf m (filterDuplicates fingers) keys newLeaf pm) := by
  unfold quickSplit splitLeaf at h
  simp only [bind_eq_ok, deref_eq_ok] at h
  obtain ⟨m, hm, buf, hbuf, ⟨keys, fingers⟩, hsort, ⟨leaf₂, s₂⟩, ⟨⟨q, pm⟩, halloc, old, hold, pm', hlink, hsplit⟩, h⟩ := h
  have hold' : old = { m with altPtr := s.brk, tempInsert := m.tempInsert + 1 } := by
    simpa [TreeState.stackBuf, TreeState.setLeaf, eq_comm] using hold
  subst hold'
  cases hsplit
  cases h
  exact ⟨m, buf, keys, fingers, q, pm', hm, hbuf, bounded_eq_ok.mp hsort, rfl⟩

/-- A split of a leaf whose records have calm keys and values. -/
theorem TreeState.Calm.quickSplit (h : s.Calm) (hm : s.dleafHeap leaf = some m)
    (hread : ∀ i, i < MAX_LEAF_KEY → ∃ k v, logKey s.pm (m.ptr i) = some k ∧ logVal s.pm (m.ptr i) = some v ∧
      CalmWord k ∧ CalmWord v) {r : Addr × Key × Addr × TreeState P} (hrun : ZBTree.quickSplit s t leaf = .ok r) :
    r.2.2.2.Calm := by
  obtain ⟨m₀, buf, keys, fingers, q, pm, hm₀, hbuf, hsort, rfl⟩ := quickSplit_eq hrun
  obtain rfl : m₀ = m := Option.some.inj (hm₀.symm.trans hm)
  -- the entries are those of the records, in another order
  obtain ⟨buf', hbuf', hentries⟩ := readEntries_spec MAX_LEAF_KEY fun i hi => by
    obtain ⟨k, v, hkey, hval, -⟩ := hread i hi
    exact ⟨k, v, hkey, hval⟩
  obtain rfl : buf' = buf := Except.ok.inj (hbuf'.symm.trans hbuf)
  obtain ⟨σ, hsort', hperm, -⟩ := qsort_spec 29 (2 * MAX_LEAF_KEY) 0 (MAX_LEAF_KEY - 1) buf' m₀.fingerBuffer
    (by decide) (by decide)
  obtain rfl : buf' ∘ σ = keys := congrArg Prod.fst (Option.some.inj (hsort'.symm.trans hsort))
  have hkeys : ∀ i, i < MAX_LEAF_KEY → CalmWord ((buf' ∘ σ) i).oneKey ∧ CalmWord ((buf' ∘ σ) i).val := by
    intro i hi
    have hlt : σ i < MAX_LEAF_KEY := Nat.lt_of_le_pred (by decide) (hperm.mem ⟨Nat.zero_le i, Nat.le_pred_of_lt hi⟩).2
    obtain ⟨k, v, hkey, hval, hcalm⟩ := hread (σ i) hlt
    obtain ⟨hkey', hval'⟩ := hentries (σ i) hlt
    obtain rfl := Option.some.inj (hkey'.symm.trans hkey)
    obtain rfl := Option.some.inj (hval'.symm.trans hval)
    exact hcalm
  refine ⟨fun b n hn => ?_, h.junk⟩
  unfold splitState at hn
  dsimp only at hn
  by_cases hb : b = leaf
  · subst hb
    rw [Function.update_self] at hn
    obtain rfl := Option.some.inj hn
    exact DLeaf.Calm.leftHalf { m₀ with altPtr := s.brk, tempInsert := m₀.tempInsert + 1 } (h.leaf b m₀ hm).cells _ hkeys
  · rw [Function.update_of_ne hb] at hn
    by_cases hb' : b = s.brk + 1
    · subst hb'
      rw [Function.update_self] at hn
      obtain rfl := Option.some.inj hn
      exact DLeaf.Calm.rightHalf { m₀ with altPtr := s.brk, tempInsert := m₀.tempInsert + 1 } (h.junk _) _ hkeys
    · rw [Function.update_of_ne hb', Function.update_of_ne hb] at hn
      exact h.leaf b n hn

end Tree

end ZBTree
