import Mathlib.Data.Nat.Count
import ZBTree.LeafSplit

/-!
# The cells of a half

`fillHalf` lays a half out in a block that holds something already. The result depends on what the
block held in one cell at most: the slots are copied to the first `LEFT_KEY` cells, the pairs fill the
cells from the top downwards, and the cell `LEFT_KEY` in between is never written.
-/

namespace ZBTree

open Arrays

variable {off n : Nat} {fingers fingers' : Nat → AdaptiveSlot} {keys keys' : Nat → NodeEntry}
  {A : Nat → Prop} {h h' : HalfState}

/-! ### Two layouts side by side -/

/-- Two layouts of one half that agree in the cells `A`, in the first `n` slots and in the pairs. -/
structure SameHalf (A : Nat → Prop) (n : Nat) (h h' : HalfState) : Prop where
  cursor : h'.compactPos = h.compactPos
  cells : ∀ j, A j ∨ j < n ∨ (h.compactPos < j ∧ j < MAX_LEAF_KEY) → h'.slots j = h.slots j

theorem SameHalf.cachePair (hs : SameHalf A n h h') (hn : n ≤ LEFT_KEY) {i : Nat} (hi : i < n)
    (hroom : LEFT_KEY ≤ h.compactPos - 1) (e : NodeEntry) :
    SameHalf A n (h.cachePair i e) (h'.cachePair i e) := by
  have hi' : i < LEFT_KEY := hi.trans_le hn
  have hroom' : LEFT_KEY ≤ h'.compactPos - 1 := by
    rw [hs.cursor]
    exact hroom
  refine ⟨?_, fun j hj => ?_⟩
  · show h'.compactPos - 1 - 1 = h.compactPos - 1 - 1
    rw [hs.cursor]
  rw [h.cachePair_slots i e hi' hroom, h'.cachePair_slots i e hi' hroom', hs.cursor,
    hs.cells i (Or.inr (Or.inl hi))]
  split_ifs with hji hkey hval
  · rfl
  · rfl
  · rfl
  · apply hs.cells
    rcases hj with hA | hused | ⟨habove, hlt⟩
    · exact Or.inl hA
    · exact Or.inr (Or.inl hused)
    · -- above the new cursor, and not in the new pair
      have habove' : h.compactPos - 1 - 1 < j := habove
      exact Or.inr (Or.inr ⟨by omega, hlt⟩)

theorem SameHalf.hotPass (hs : SameHalf A n h h') (hn : n < LEFT_KEY)
    (hfinger : fingers' (n + off) = fingers (n + off)) (hkey : keys' (n + off) = keys (n + off)) :
    SameHalf A (n + 1) (hotPass off fingers keys h n) (hotPass off fingers' keys' h' n) := by
  have hcopy : SameHalf A (n + 1) { h with slots := Function.update h.slots n (fingers (n + off)) }
      { h' with slots := Function.update h'.slots n (fingers' (n + off)) } := by
    refine ⟨hs.cursor, fun j hj => ?_⟩
    dsimp only
    by_cases hjn : j = n
    · rw [hjn, Function.update_self, Function.update_self, hfinger]
    · rw [Function.update_of_ne hjn, Function.update_of_ne hjn]
      apply hs.cells
      rcases hj with hA | hused | habove
      · exact Or.inl hA
      · exact Or.inr (Or.inl (lt_of_le_of_ne (Nat.le_of_lt_succ hused) hjn))
      · exact Or.inr (Or.inr habove)
  unfold ZBTree.hotPass
  simp only [Function.update_self, hfinger, hkey]
  rw [hfinger] at hcopy
  by_cases hroom : LEFT_KEY ≤ h.compactPos - 1 ∧ 1 < (fingers (n + off)).accessBit
  · have hroom' : LEFT_KEY ≤ h'.compactPos - 1 ∧ 1 < (fingers (n + off)).accessBit := by
      rw [hs.cursor]
      exact hroom
    rw [if_pos hroom, if_pos hroom']
    exact hcopy.cachePair (Nat.succ_le_of_lt hn) (Nat.lt_succ_self n) hroom.1 _
  · have hroom' : ¬ (LEFT_KEY ≤ h'.compactPos - 1 ∧ 1 < (fingers (n + off)).accessBit) := by
      rw [hs.cursor]
      exact hroom
    rw [if_neg hroom, if_neg hroom']
    exact hcopy

theorem SameHalf.coldPass (hs : SameHalf A LEFT_KEY h h') {i : Nat} (hi : i < LEFT_KEY)
    (hkey : keys' (i + off) = keys (i + off)) :
    SameHalf A LEFT_KEY (coldPass off keys h i) (coldPass off keys' h' i) := by
  unfold ZBTree.coldPass
  rw [hs.cursor, hs.cells i (Or.inr (Or.inl hi)), hkey]
  split_ifs with hroom
  · exact hs.cachePair (Nat.le_refl _) hi hroom.1 _
  · exact hs

/-! ### The pairs reach down to the middle

A half has 15 slots and 15 cells behind them, one of which stays free. Seven pairs fill the other 14, so all cells
that differ between two layouts are written by the time the cursor is down. -/

/-- The cursor has passed the last pair there is room for, or it has made way for `c` pairs. -/
def CursorAt (c : Nat) (h : HalfState) : Prop :=
  h.compactPos ≤ LEFT_KEY ∨ h.compactPos + 2 * c = MAX_LEAF_KEY - 1

theorem CursorAt.cachePair {c : Nat} (hc : CursorAt c h) (i : Nat) (e : NodeEntry) :
    CursorAt (c + 1) (h.cachePair i e) := by
  have hpos : (h.cachePair i e).compactPos = h.compactPos - 1 - 1 := rfl
  unfold CursorAt at hc ⊢
  rw [hpos]
  simp only [LEFT_KEY, MAX_LEAF_KEY] at hc ⊢
  omega

theorem CursorAt.full {c : Nat} (hfull : ¬ LEFT_KEY ≤ h.compactPos - 1) : CursorAt c h := by
  refine Or.inl ?_
  simp only [LEFT_KEY] at hfull ⊢
  omega

theorem CursorAt.hotPass {i : Nat} (hc : CursorAt (Nat.count (fun i => 1 < (fingers (i + off)).accessBit) i) h) :
    CursorAt (Nat.count (fun i => 1 < (fingers (i + off)).accessBit) (i + 1)) (hotPass off fingers keys h i) := by
  have hcopy : CursorAt (Nat.count (fun i => 1 < (fingers (i + off)).accessBit) i)
      { h with slots := Function.update h.slots i (fingers (i + off)) } := hc
  unfold ZBTree.hotPass
  simp only [Function.update_self]
  rw [Nat.count_succ]
  by_cases hhot : 1 < (fingers (i + off)).accessBit
  · rw [if_pos hhot]
    split_ifs with hroom
    · exact hcopy.cachePair i _
    · exact CursorAt.full fun hle => hroom ⟨hle, hhot⟩
  · rw [if_neg hhot, if_neg fun hroom => hhot hroom.2]
    exact hcopy

theorem CursorAt.coldPass {c i : Nat} (hinv : HalfInv off fingers keys LEFT_KEY h) (hi : i < LEFT_KEY)
    (hc : CursorAt (c + Nat.count (fun i => ¬ 1 < (fingers (i + off)).accessBit) i) h) :
    CursorAt (c + Nat.count (fun i => ¬ 1 < (fingers (i + off)).accessBit) (i + 1))
      (coldPass off keys h i) := by
  have hacc : (h.slots i).accessBit = (fingers (i + off)).accessBit := (hinv.copied i hi).2.1
  unfold ZBTree.coldPass
  rw [Nat.count_succ, hacc]
  by_cases hhot : 1 < (fingers (i + off)).accessBit
  · rw [if_neg (not_not_intro hhot), if_neg fun hroom => not_lt.mpr hroom.2 hhot]
    exact hc
  · rw [if_pos hhot, ← Nat.add_assoc]
    split_ifs with hroom
    · exact hc.cachePair i _
    · exact CursorAt.full fun hle => hroom ⟨hle, not_lt.mp hhot⟩

theorem count_add_count_not (q : Nat → Prop) [DecidablePred q] (n : Nat) :
    Nat.count q n + Nat.count (fun i => ¬ q i) n = n := by
  induction n with
  | zero => rfl
  | succ n ih =>
    rw [Nat.count_succ, Nat.count_succ]
    by_cases hq : q n
    · rw [if_pos hq, if_neg (not_not_intro hq), Nat.add_right_comm, ← Nat.add_assoc, Nat.add_zero, ih]
    · rw [if_neg hq, if_pos hq, Nat.add_zero, ← Nat.add_assoc, ih]

/-! ### Both passes -/

/-- A half does not depend on what its block held before, but for the cell `LEFT_KEY`, if that cell
was not the same. -/
theorem fillHalf_congr {slots slots' : Nat → AdaptiveSlot} (hslots : ∀ j, A j → slots' j = slots j)
    (hfinger : ∀ i, i < LEFT_KEY → fingers' (i + off) = fingers (i + off))
    (hkey : ∀ i, i < LEFT_KEY → keys' (i + off) = keys (i + off)) {j : Nat} (hj : j < MAX_LEAF_KEY)
    (hmid : j = LEFT_KEY → A j) :
    fillHalf off slots' fingers' keys' j = fillHalf off slots fingers keys j := by
  -- the two halves share the cells that were alike before
  have hinit : SameHalf A 0 ⟨slots, MAX_LEAF_KEY - 1⟩ ⟨slots', MAX_LEAF_KEY - 1⟩ := by
    refine ⟨rfl, fun j hj => ?_⟩
    rcases hj with hA | hj | ⟨hlo, hhi⟩
    · exact hslots j hA
    · exact absurd hj (Nat.not_lt_zero j)
    · exact absurd hhi (not_lt.mpr (Nat.le_of_pred_lt hlo))
  have hstart : HalfInv off fingers keys 0 ⟨slots, MAX_LEAF_KEY - 1⟩ :=
    ⟨Nat.le_add_left 14 15, Nat.lt_succ_self 29, fun i hi => absurd hi (Nat.not_lt_zero i),
      fun i hi => absurd hi (Nat.not_lt_zero i)⟩
  have hhot := foldl_range_rel (SameHalf A) (hotPass off fingers keys) (hotPass off fingers' keys') hinit
    fun i s s' hi hs => hs.hotPass hi (hfinger i hi) (hkey i hi)
  have hinv := foldl_range_induction (HalfInv off fingers keys) (hotPass off fingers keys) hstart
    fun i s hi hs => hs.hotPass hi
  have hcursor := foldl_range_induction
    (fun i s => CursorAt (Nat.count (fun i => 1 < (fingers (i + off)).accessBit) i) s)
    (hotPass off fingers keys) (n := LEFT_KEY)
    (show CursorAt 0 ⟨slots, MAX_LEAF_KEY - 1⟩ from Or.inr rfl) fun i s _ hs => hs.hotPass
  unfold fillHalf
  rw [hhot.cursor]
  -- which cells both halves have in common once the cursor is down
  have hdown : ∀ {h h'}, SameHalf A LEFT_KEY h h' → h.compactPos ≤ LEFT_KEY → h'.slots j = h.slots j := by
    intro h h' hs hlow
    apply hs.cells
    rcases Nat.lt_trichotomy j LEFT_KEY with hlt | heq | hgt
    · exact Or.inr (Or.inl hlt)
    · exact Or.inl (hmid heq)
    · exact Or.inr (Or.inr ⟨hlow.trans_lt hgt, hj⟩)
  -- the second pass is skipped when the cells have run out
  by_cases hroom : LEFT_KEY ≤ ((List.range LEFT_KEY).foldl (hotPass off fingers keys)
      ⟨slots, MAX_LEAF_KEY - 1⟩).compactPos - 1
  · rw [if_pos hroom, if_pos hroom]
    have hcold := foldl_range_rel (fun _ => SameHalf A LEFT_KEY) (coldPass off keys) (coldPass off keys')
      hhot fun i s s' hi hs => hs.coldPass hi (hkey i hi)
    have hend := foldl_range_induction (fun i s => HalfInv off fingers keys LEFT_KEY s ∧
        CursorAt (Nat.count (fun i => 1 < (fingers (i + off)).accessBit) LEFT_KEY +
          Nat.count (fun i => ¬ 1 < (fingers (i + off)).accessBit) i) s)
      (coldPass off keys) (n := LEFT_KEY) ⟨hinv, hcursor⟩
      fun i s hi hs => ⟨hs.1.coldPass hi, hs.2.coldPass hs.1 hi⟩
    refine hdown hcold (hend.2.resolve_right fun heq => ?_)
    -- fifteen pairs would be one more than there are cells for
    rw [count_add_count_not] at heq
    simp only [LEFT_KEY, MAX_LEAF_KEY] at heq
    omega
  · rw [if_neg hroom, if_neg hroom]
    refine hdown hhot ?_
    simp only [LEFT_KEY] at hroom ⊢
    omega

end ZBTree
