import ZBTree.FillBounds
import ZBTree.LeafLocks
import ZBTree.PmemRuns

/-!
# The records that the slots refer to

An insertion adds the record that it appends to those of the slots in use, after any number of
splits, which call the allocator for `P_Leaf`s only. A removal takes one slot away and frees its
record. Nothing is assumed of persistent memory here.
-/

namespace ZBTree

open Pmem Arrays

variable {P : Type}

/-- Slot `i` of the leaf at `a` is in use and refers to `q`. -/
def TreeState.Refers (s : TreeState P) (a : Addr) (i : Nat) (q : Addr) : Prop :=
  ∃ m, s.dleafHeap a = some m ∧ i < m.maxUse ∧ m.ptr i = q

def TreeState.Recorded (s : TreeState P) (q : Addr) : Prop := ∃ a i, s.Refers a i q

/-- Calls of the allocator for `P_Leaf`s, and stores into them. -/
inductive NodeCalls [Pmem P] (t : Tid) : P → P → Prop
  | done (p : P) : NodeCalls t p p
  | alloc {p p₁ p' : P} {q : Addr} : NodeCalls t p p₁ → nAllocate p₁ t = some (q, p') → NodeCalls t p p'
  | store {p p₁ p' : P} {q : Addr} {l : PLeaf} : NodeCalls t p p₁ → setPleaf p₁ q l = some p' →
      NodeCalls t p p'

section Slots

variable {s s' : TreeState P} {a leaf : Addr} {m m' : DLeaf} {q : Addr}

theorem Recorded.of_same (hrec : (s.setLeaf a m').Recorded q) (hm : s.dleafHeap a = some m)
    (huse : m'.maxUse = m.maxUse) (hslots : m'.fingerPrint = m.fingerPrint) : s.Recorded q := by
  obtain ⟨b, i, n, hn, hi, rfl⟩ := hrec
  rcases setLeaf_heap hn with ⟨rfl, rfl⟩ | ⟨-, hn⟩
  · refine ⟨b, i, m, hm, huse ▸ hi, ?_⟩
    unfold DLeaf.ptr
    rw [hslots]
  · exact ⟨b, i, n, hn, hi, rfl⟩

theorem Recorded.push {key : Key} {addr : Addr} {pm : P}
    (hrec : (({ s with pm := pm } : TreeState P).setLeaf a (m.push key addr)).Recorded q)
    (hm : s.dleafHeap a = some m) : q = addr % 2 ^ 48 ∨ s.Recorded q := by
  obtain ⟨b, i, n, hn, hi, rfl⟩ := hrec
  rcases setLeaf_heap hn with ⟨rfl, rfl⟩ | ⟨-, hn⟩
  · have hptr : (m.push key addr).ptr i =
        (Function.update m.fingerPrint m.maxUse (newSlot key addr) i).ptrField.toNat := rfl
    rw [hptr]
    by_cases hlast : i = m.maxUse
    · subst hlast
      rw [Function.update_self]
      exact Or.inl (BitVec.toNat_ofNat ..)
    · rw [Function.update_of_ne hlast]
      exact Or.inr ⟨b, i, m, hm, Nat.lt_of_le_of_ne (Nat.le_of_lt_succ hi) hlast, rfl⟩
  · exact Or.inr ⟨b, i, n, hn, hi, rfl⟩

theorem IsHalf.refers {σ : Equiv.Perm Nat} {buf : Nat → NodeEntry} {off : Nat} {half : DLeaf}
    (hh : IsHalf m σ buf off half) (hσ : PermOn 0 (MAX_LEAF_KEY - 1) σ) (hoff : off ≤ LEFT_KEY)
    (hfull : ¬ m.maxUse < MAX_LEAF_KEY) {i : Nat} (hi : i < half.maxUse) :
    ∃ j, j < m.maxUse ∧ half.ptr i = m.ptr j := by
  rw [hh.use] at hi
  exact ⟨σ (i + off), Nat.lt_of_lt_of_le (IsHalf.source_lt hσ hoff hi) (Nat.not_lt.mp hfull), hh.ptr hi⟩

end Slots

variable [Pmem P] {s s' : TreeState P} {t : Tid} {key : Key} {leaf q : Addr}

/-! ### insert -/

omit [Pmem P] in
theorem lockLeaf_recorded {b : Bool} (h : lockLeaf s key = .ok (b, leaf, s')) :
    s'.pm = s.pm ∧ ∀ q, s'.Recorded q → s.Recorded q := by
  obtain ⟨path, m, -, hm, ⟨-, -, rfl⟩ | ⟨-, -, rfl⟩⟩ := lockLeaf_cases h
  · exact ⟨rfl, fun q hq => Recorded.of_same hq hm rfl rfl⟩
  · exact ⟨rfl, fun q hq => hq⟩

theorem splitFull_recorded {m : DLeaf} {r : Addr × Key × Addr × TreeState P}
    (h : splitFull s t leaf = .ok r) (hm : s.dleafHeap leaf = some m)
    (hfull : ¬ m.maxUse < MAX_LEAF_KEY) :
    NodeCalls t s.pm r.2.2.2.pm ∧ ∀ q, r.2.2.2.Recorded q → s.Recorded q := by
  obtain ⟨m₀, buf, keys, fingers, newLeaf, pm, pm', hm₀, -, hsort, halloc, hlink, rfl⟩ :=
    splitFull_eq_ok.mp h
  rw [hm, Option.some.injEq] at hm₀
  subst hm₀
  obtain ⟨σ, hsort', hσ, -⟩ := qsort_spec (MAX_LEAF_KEY - 1) (2 * MAX_LEAF_KEY) 0 (MAX_LEAF_KEY - 1) buf
    m.fingerBuffer (Nat.le_refl _) (by decide)
  rw [hsort', Option.some.injEq, Prod.mk.injEq] at hsort
  obtain ⟨rfl, rfl⟩ := hsort
  constructor
  · unfold linkPleaf at hlink
    simp only [bind_eq_ok, deref_eq_ok] at hlink
    obtain ⟨_, -, p₁, hset, _, -, hset'⟩ := hlink
    exact .store (.store (.alloc (.done s.pm) halloc) hset) hset'
  · rintro q ⟨b, i, n, hn, hi, rfl⟩
    simp only [splitState] at hn
    by_cases hb : b = leaf
    · have hhalf := isHalf_left m { m with altPtr := s.brk, tempInsert := m.tempInsert + 1 } σ buf
        (s.brk + 1)
      rw [hb, Function.update_self, Option.some.injEq] at hn
      rw [hn] at hhalf
      obtain ⟨j, hj, hptr⟩ := hhalf.refers hσ (Nat.zero_le _) hfull hi
      exact ⟨leaf, j, m, hm, hj, hptr.symm⟩
    · rw [Function.update_of_ne hb] at hn
      by_cases hb' : b = s.brk + 1
      · rw [hb', Function.update_self, Option.some.injEq] at hn
        have hhalf : IsHalf m σ buf LEFT_KEY n := by
          rw [← hn]
          exact ⟨DLeaf.rightHalf_maxUse .., (s.junkLeaf (s.brk + 1)).fingerPrint,
            by simp only [DLeaf.rightHalf]⟩
        obtain ⟨j, hj, hptr⟩ := hhalf.refers hσ (Nat.le_refl _) hfull hi
        exact ⟨leaf, j, m, hm, hj, hptr.symm⟩
      · rw [Function.update_of_ne hb', Function.update_of_ne hb] at hn
        exact ⟨b, i, n, hn, hi, rfl⟩

/-- What an insertion does: calls for `P_Leaf`s, and at most one record at the end. -/
theorem insert_recorded {n : Nat} {val : Word} {len : BitVec 32} {b : Bool}
    (h : insert n s t key val len = .ok (b, s')) : ∃ pm, NodeCalls t s.pm pm ∧
      ((b = false ∧ s'.pm = pm ∧ ∀ q, s'.Recorded q → s.Recorded q) ∨
        (b = true ∧ ∃ addr pp, appendOne pm t key val pp LOG_INSERT len = some (addr, s'.pm) ∧
          ∀ q, s'.Recorded q → q = addr % 2 ^ 48 ∨ s.Recorded q)) := by
  have hcalls : ∀ {p p₁ p' : P}, NodeCalls t p p₁ → NodeCalls t p₁ p' → NodeCalls t p p' := by
    intro p p₁ p' hfirst hrest
    induction hrest with
    | done => exact hfirst
    | alloc _ halloc ih => exact .alloc ih halloc
    | store _ hset ih => exact .store ih hset
  induction n generalizing s with
  | zero => cases h
  | succ n ih =>
    cases insertRound h with
    | busy leaf s₁ hlock hrest =>
      obtain ⟨hpm, hsub⟩ := lockLeaf_recorded hlock
      obtain ⟨pm, hnode, hend⟩ := ih hrest
      rw [hpm] at hnode
      refine ⟨pm, hnode, ?_⟩
      rcases hend with ⟨hb, hsame, hrec⟩ | ⟨hb, addr, pp, happend, hrec⟩
      · exact Or.inl ⟨hb, hsame, fun q hq => hsub q (hrec q hq)⟩
      · exact Or.inr ⟨hb, addr, pp, happend, fun q hq => (hrec q hq).imp_right (hsub q)⟩
    | present leaf m hlock hm hdup hb =>
      obtain ⟨hpm, hsub⟩ := lockLeaf_recorded hlock
      exact ⟨s.pm, .done _, Or.inl ⟨hb, hpm, hsub⟩⟩
    | fill leaf s₁ m hlock hm hdup hroom hfill hb =>
      obtain ⟨hpm, hsub⟩ := lockLeaf_recorded hlock
      refine ⟨s.pm, .done _, Or.inr ⟨hb, ?_⟩⟩
      unfold fillSlot at hfill
      simp only [bind_eq_ok, deref_eq_ok] at hfill
      obtain ⟨m', hm', ⟨addr, pm⟩, happend, hfill⟩ := hfill
      cases hfill
      rw [hpm] at happend
      exact ⟨addr, _, happend, fun q hq => (Recorded.push hq hm').imp_right (hsub q)⟩
    | split leaf s₁ m leaf2 splitKey insertLeaf s₂ s₃ hlock hm hdup hfull hsplit hinstall hrest =>
      obtain ⟨hpm, hsub⟩ := lockLeaf_recorded hlock
      obtain ⟨hnode, hcut⟩ := splitFull_recorded hsplit hm hfull
      obtain ⟨s₄, m₂, hinner, hm₂, rfl⟩ := installSeparator_eq hinstall
      -- the halves point to the records of the leaf
      have hsub' : ∀ q, (s₄.setLeaf leaf { m₂ with tempInsert := 0, altPtr := insertLeaf }).Recorded q →
          s.Recorded q := by
        intro q hq
        have hm₄ : s₄.dleafHeap leaf = some m₂ := by rw [hinner.leaves]; exact hm₂
        obtain ⟨b, i, n, hn, hi, rfl⟩ := Recorded.of_same hq hm₄ rfl rfl
        rw [hinner.leaves] at hn
        exact hsub _ (hcut _ ⟨b, i, n, hn, hi, rfl⟩)
      obtain ⟨pm, hnode', hend⟩ := ih hrest
      refine ⟨pm, hcalls ?_ hnode', ?_⟩
      · have hpm₄ : s₄.pm = s₂.pm := hinner.pm
        change NodeCalls t s.pm s₄.pm
        rw [hpm₄, ← hpm]
        exact hnode
      · rcases hend with ⟨hb, hsame, hrec⟩ | ⟨hb, addr, pp, happend, hrec⟩
        · exact Or.inl ⟨hb, hsame, fun q hq => hsub' q (hrec q hq)⟩
        · exact Or.inr ⟨hb, addr, pp, happend, fun q hq => (hrec q hq).imp_right (hsub' q)⟩

theorem init_recorded {pm : P} {junkInner : Addr → InnerNode} {junkLeaf : Addr → DLeaf}
    (h : init pm t junkInner junkLeaf = .ok s) : NodeCalls t pm s.pm ∧ ∀ q, ¬ s.Recorded q := by
  obtain ⟨q, pm₁, l, pm₂, halloc, -, hset, rfl⟩ := init_eq_ok.mp h
  refine ⟨.store (.alloc (.done pm) halloc) hset, ?_⟩
  rintro q ⟨a, i, m, hm, hi, -⟩
  obtain ⟨-, rfl⟩ := freshTree_leaf.mp hm
  exact absurd hi (Nat.not_lt_zero i)

/-! ### simply_remove -/

/-- What a removal does: nothing, or it frees the record of one slot and drops the slot. -/
theorem simplyRemove_recorded {n : Nat} {b : Bool} (h : simplyRemove n s t key = .ok (b, s')) :
    (b = false ∧ s'.pm = s.pm ∧ ∀ q, s'.Recorded q → s.Recorded q) ∨
      (b = true ∧ ∃ leaf i q pm, s.Refers leaf i q ∧ logKey s.pm q = some key ∧
        freeRecord s.pm t q = some pm ∧ NodeCalls t pm s'.pm ∧
        ∀ a j r, s'.Refers a j r → ∃ j', s.Refers a j' r ∧ (a, j') ≠ (leaf, i)) := by
  induction n generalizing s with
  | zero => cases h
  | succ n ih =>
    rw [simplyRemove] at h
    obtain ⟨⟨lockState, leaf, s₁⟩, hlock, hrest⟩ := bind_eq_ok.mp h
    obtain ⟨path, m, -, hm, ⟨rfl, -, rfl⟩ | ⟨rfl, -, rfl⟩⟩ := lockLeaf_cases hlock
    · simp only [Bool.not_true, Bool.false_eq_true, if_false, removeFrom, bind_eq_ok,
        deref_eq_ok] at hrest
      obtain ⟨m', hm', found, hfound, h⟩ := hrest
      have hlocked : (s.setLeaf leaf { m with tempInsert := 1 }).dleafHeap leaf =
          some { m with tempInsert := 1 } := Function.update_self ..
      obtain rfl : { m with tempInsert := 1 } = m' := Option.some.inj (hlocked.symm.trans hm')
      cases found with
      | none =>
        cases h
        refine Or.inl ⟨rfl, rfl, fun q hq => ?_⟩
        exact Recorded.of_same (Recorded.of_same hq hm' rfl rfl) hm rfl rfl
      | some i =>
        obtain ⟨-, hi, hkey, -⟩ := removeSlot_eq_some hfound
        rw [Nat.zero_add] at hi
        simp only [bind_eq_ok, deref_eq_ok] at h
        obtain ⟨pm, hfree, h⟩ := h
        -- with the last slot gone the `P_Leaf` is written too
        have hcalls : ∃ pm₂, NodeCalls t pm pm₂ ∧ b = true ∧
            s' = ({ s.setLeaf leaf { m with tempInsert := 1 } with pm := pm₂ } : TreeState P).setLeaf leaf
              { ({ m with tempInsert := 1 } : DLeaf).dropSlot i with tempInsert := 0 } := by
          split at h
          · simp only [bind_eq_ok, deref_eq_ok] at h
            obtain ⟨l, -, pm₂, hset, h⟩ := h
            cases h
            exact ⟨pm₂, .store (.done pm) hset, rfl, rfl⟩
          · cases h
            exact ⟨pm, .done pm, rfl, rfl⟩
        obtain ⟨pm₂, hnode, rfl, rfl⟩ := hcalls
        refine Or.inr ⟨rfl, leaf, i, m.ptr i, pm, ⟨m, hm, hi, rfl⟩, hkey, hfree, hnode, ?_⟩
        rintro a j r ⟨n', hn, hj, rfl⟩
        rcases setLeaf_heap hn with ⟨rfl, rfl⟩ | ⟨ha, hn⟩
        · -- a slot of the leaf that is left: it has its old record, or that of the last slot
          have hj' : j < m.maxUse - 1 := hj
          refine ⟨m.moved i j, ⟨m, hm, DLeaf.moved_lt hj', (m.dropSlot_ptr i hj').symm⟩, ?_⟩
          intro heq
          exact DLeaf.moved_ne hj' (congrArg Prod.snd heq)
        · refine ⟨j, ⟨n', ?_, hj, rfl⟩, fun heq => ha (congrArg Prod.fst heq)⟩
          have hsame : (s.setLeaf leaf { m with tempInsert := 1 }).dleafHeap a = s.dleafHeap a :=
            Function.update_of_ne ha ..
          rw [← hsame]
          exact hn
    · simp only [Bool.not_false, if_true] at hrest
      exact ih hrest

/-! ### The slots, listed

Leaves lie below `brk`, whatever persistent memory does, so the slots in use can be listed. -/

def LeavesBelow (s : TreeState P) : Prop := ∀ a m, s.dleafHeap a = some m → a < s.brk

omit [Pmem P] in
theorem LeafWrite.below {a : Addr} {m m' : DLeaf} (hw : LeafWrite s s' a m m') (h : LeavesBelow s) :
    LeavesBelow s' := by
  intro b n hn
  rw [hw.brk]
  rw [hw.heap] at hn
  by_cases hb : b = a
  · rw [hb]
    exact h a m hw.leaf
  · rw [Function.update_of_ne hb] at hn
    exact h b n hn

theorem splitFull_below {r : Addr × Key × Addr × TreeState P} (h : splitFull s t leaf = .ok r)
    (hs : LeavesBelow s) : LeavesBelow r.2.2.2 := by
  obtain ⟨m, buf, keys, fingers, newLeaf, pm, pm', hm, -, -, -, -, rfl⟩ := splitFull_eq_ok.mp h
  intro b n hn
  show b < s.brk + 2
  simp only [splitState] at hn
  by_cases hb : b = leaf
  · exact hb ▸ Nat.lt_add_right 2 (hs leaf m hm)
  · rw [Function.update_of_ne hb] at hn
    by_cases hnew : b = s.brk + 1
    · exact hnew ▸ Nat.lt_succ_self _
    · rw [Function.update_of_ne hnew, Function.update_of_ne hb] at hn
      exact Nat.lt_add_right 2 (hs b n hn)

omit [Pmem P] in
theorem lockLeaf_below {b : Bool} (h : lockLeaf s key = .ok (b, leaf, s')) (hs : LeavesBelow s) :
    LeavesBelow s' := by
  obtain ⟨m, m', hw, -⟩ := lockLeaf_write h
  exact hw.below hs

theorem insert_below {n : Nat} {val : Word} {len : BitVec 32} {b : Bool}
    (h : insert n s t key val len = .ok (b, s')) (hs : LeavesBelow s) : LeavesBelow s' := by
  induction n generalizing s with
  | zero => cases h
  | succ n ih =>
    cases insertRound h with
    | busy leaf s₁ hlock hrest => exact ih hrest (lockLeaf_below hlock hs)
    | present leaf m hlock hm hdup hb => exact lockLeaf_below hlock hs
    | fill leaf s₁ m hlock hm hdup hroom hfill hb =>
      obtain ⟨m₁, m₁', hw, -⟩ := fillSlot_write hfill
      exact hw.below (lockLeaf_below hlock hs)
    | split leaf s₁ m leaf2 splitKey insertLeaf s₂ s₃ hlock hm hdup hfull hsplit hinstall hrest =>
      have hcut : LeavesBelow s₂ := splitFull_below hsplit (lockLeaf_below hlock hs)
      obtain ⟨s₄, m₂, hinner, hm₂, rfl⟩ := installSeparator_eq hinstall
      -- recording the split only takes memory for inner nodes
      have hrecorded : LeavesBelow s₄ := by
        intro b n hn
        rw [hinner.leaves] at hn
        exact (hcut b n hn).trans_le hinner.brk
      exact ih hrest (LeafWrite.below ⟨hinner.leaves ▸ hm₂, rfl, rfl, rfl, rfl, rfl⟩ hrecorded)

theorem simplyRemove_below {n : Nat} {b : Bool} (h : simplyRemove n s t key = .ok (b, s'))
    (hs : LeavesBelow s) : LeavesBelow s' := by
  induction n generalizing s with
  | zero => cases h
  | succ n ih =>
    have hround := h
    rw [simplyRemove] at hround
    obtain ⟨⟨lockState, leaf, s₁⟩, hlock, hrest⟩ := bind_eq_ok.mp hround
    obtain ⟨path, m, hfind, hm, ⟨rfl, hfree, -⟩ | ⟨rfl, -, rfl⟩⟩ := lockLeaf_cases hlock
    · rcases simplyRemove_cases hfind hm h hfree with ⟨-, -, rfl⟩ | ⟨-, i, pm₁, pm₂, -, -, -, rfl⟩
      · exact LeafWrite.below ⟨hm, rfl, rfl, rfl, rfl, rfl⟩ hs
      · exact LeafWrite.below ⟨hm, rfl, rfl, rfl, rfl, rfl⟩ hs
    · exact ih hrest hs

theorem init_below {pm : P} {junkInner : Addr → InnerNode} {junkLeaf : Addr → DLeaf}
    (h : init pm t junkInner junkLeaf = .ok s) : LeavesBelow s := by
  obtain ⟨q, pm₁, l, pm₂, -, -, -, rfl⟩ := init_eq_ok.mp h
  intro a m hm
  obtain ⟨rfl, -⟩ := freshTree_leaf.mp hm
  exact Nat.lt_succ_self 1

theorem ThreadOp.exec_below {n : Nat} {op : ThreadOp} {b : Bool} (h : op.exec n s t = .ok (b, s'))
    (hs : LeavesBelow s) : LeavesBelow s' := by
  cases op with
  | insert key val len => exact insert_below h hs
  | remove key => exact simplyRemove_below h hs

/-- The slots in use, with what they refer to. -/
def TreeState.slotList (s : TreeState P) : List (Addr × Nat × Addr) :=
  (List.range s.brk).flatMap fun a =>
    match s.dleafHeap a with
    | none => []
    | some m => (List.range m.maxUse).map fun i => (a, i, m.ptr i)

omit [Pmem P] in
theorem LeavesBelow.mem_slotList (hs : LeavesBelow s) {a i q : Nat} :
    (a, i, q) ∈ s.slotList ↔ s.Refers a i q := by
  constructor
  · intro h
    obtain ⟨b, -, h⟩ := List.mem_flatMap.mp h
    cases hm : s.dleafHeap b with
    | none =>
      rw [hm] at h
      cases h
    | some m =>
      rw [hm] at h
      obtain ⟨j, hj, heq⟩ := List.mem_map.mp h
      cases heq
      exact ⟨m, hm, List.mem_range.mp hj, rfl⟩
  · rintro ⟨m, hm, hi, rfl⟩
    refine List.mem_flatMap.mpr ⟨a, List.mem_range.mpr (hs a m hm), ?_⟩
    rw [hm]
    exact List.mem_map.mpr ⟨i, List.mem_range.mpr hi, rfl⟩

end ZBTree
