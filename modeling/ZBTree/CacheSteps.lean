import ZBTree.ReadCache

/-!
# The sections of the variant that caches on reading

What the searches, the sections of `insert` and the two writes of `find` do to a tree that
keeps the invariant, and to the pairs of its leaves.
-/

namespace ZBTree

namespace ReadCache

open RangeIndex Pmem LawfulPmem

variable {P : Type} [Pmem P]

/-! ### The searches -/

section Search

variable {p : P} {m : DLeaf} {k : Key}

private theorem read_skip (h : SlotsOK p m) {i : Nat} (n : Nat) (hi : i < m.maxUse)
    (hno : ¬ HasKey p m k i) : findSlots p m k (n + 1) i = findSlots p m k n (i + 1) := by
  obtain ⟨k', v, hk', hv⟩ := h.read i hi
  have hne : k' ≠ k := fun heq => hno ⟨hi, heq ▸ hk'⟩
  rw [findSlots]
  split_ifs with hhash hc hpair
  · exact absurd ((h.pair i k' ⟨hi, hk'⟩ hc).2.symm.trans hpair) hne
  · rfl
  · have hread : logKey p (m.fingerPrint i).ptrField.toNat = some k' := hk'
    simp only [hread, deref_some, ok_bind, if_neg hne]
  · rfl

/-- What the search of `find` says of the slot of the key. -/
def slotRead (m : DLeaf) (i : Nat) : SlotRead :=
  if m.maxUse ≤ m.control i then .pair i (m.fingerPrint (m.control i + 1)).val
  else .record i (m.ptr i)

private theorem read_here (h : SlotsOK p m) {i : Nat} (n : Nat) (hi : HasKey p m k i) :
    findSlots p m k (n + 1) i = .ok (slotRead m i) := by
  have hkey : logKey p (m.fingerPrint i).ptrField.toNat = some k := hi.2
  unfold slotRead
  rw [findSlots, if_pos (h.hash i k hi)]
  by_cases hc : m.maxUse ≤ m.control i
  · rw [if_pos hc]
    exact (if_pos hc).trans (if_pos (h.pair i k hi hc).2)
  · rw [if_neg hc]
    have hc' : ¬ m.maxUse ≤ (m.fingerPrint i).controlBit.toNat := hc
    simp only [if_neg hc', hkey, deref_some, ok_bind, if_true, pure_eq_ok]
    rfl

theorem findSlots_hit (h : SlotsOK p m) {i : Nat} (hi : HasKey p m k i) :
    findSlots p m k m.maxUse 0 = .ok (slotRead m i) := by
  obtain ⟨n, hn⟩ : ∃ n, m.maxUse = i + (n + 1) := ⟨m.maxUse - i - 1, by have := hi.1; omega⟩
  rw [hn, Arrays.search_reaches (findSlots p m k)]
  · exact read_here h n hi
  · intro n' j hj
    exact read_skip h n' (hj.trans hi.1) fun hj' => hj.ne (h.distinct j i k hj' hi)

theorem findSlots_miss (h : SlotsOK p m) (hno : ∀ i, ¬ HasKey p m k i) :
    findSlots p m k m.maxUse 0 = .ok .absent := by
  have hend := Arrays.search_reaches (findSlots p m k) (j := m.maxUse)
    (fun n j hj => read_skip h n hj (hno j)) 0
  rwa [Nat.add_zero, findSlots] at hend

theorem duplicate_miss (h : SlotsOK p m) (hno : ∀ i, ¬ HasKey p m k i) :
    duplicate p m k m.maxUse 0 = .ok false := by
  have hskip : ∀ n j, j < m.maxUse → duplicate p m k (n + 1) j = duplicate p m k n (j + 1) := by
    intro n j hj
    obtain ⟨k', v, hk', hv⟩ := h.read j hj
    have hread : logKey p (m.fingerPrint j).ptrField.toNat = some k' := hk'
    have hne : k' ≠ k := fun heq => hno j ⟨hj, heq ▸ hk'⟩
    rw [duplicate]
    split_ifs with hhash
    · simp only [hread, deref_some, ok_bind, if_neg hne]
    · rfl
  have hend := Arrays.search_reaches (duplicate p m k) (j := m.maxUse) (fun n j hj => hskip n j hj) 0
  rwa [Nat.add_zero, duplicate] at hend

end Search

/-! ### The pairs of the tree

Two pairs never share a cell, and all pairs lie between `max_use` and `compact_use`: `Lodged`. A tree that is
still its root leaf has no pairs, since `find` writes them below an inner node only. -/

/-- In every leaf the pairs lie apart, between the used slots and `compact_use`. The constructor
does not set the `compact_use` of the root leaf; its first split does. -/
structure Lodged (cuts : Cuts) (s : CacheTree P) : Prop where
  pairs : ∀ a m, s.tree.dleafHeap a = some m → PairsApart m (s.compactUse a)
  use : ∀ a m, s.tree.dleafHeap a = some m →
    1 ≤ s.tree.tempLevel ∨ a ≠ s.tree.root ∨ (cuts a).isSome →
      m.maxUse ≤ s.compactUse a ∧ s.compactUse a ≤ MAX_LEAF_KEY

section Lodged

variable {cuts : Cuts} {s s' : CacheTree P} {a : Addr} {m m' : DLeaf}

omit [Pmem P] in
theorem Lodged.write (h : Lodged cuts s) (a : Addr) (m' : DLeaf)
    (hheap : ∀ b n, s'.tree.dleafHeap b = some n →
      (b = a ∧ n = m') ∨ (b ≠ a ∧ s.tree.dleafHeap b = some n))
    (huse : ∀ b, b ≠ a → s'.compactUse b = s.compactUse b)
    (hlevel : s'.tree.tempLevel = s.tree.tempLevel) (hroot : s'.tree.root = s.tree.root)
    (hpairs : PairsApart m' (s'.compactUse a))
    (hbounds : 1 ≤ s.tree.tempLevel ∨ a ≠ s.tree.root ∨ (cuts a).isSome →
      m'.maxUse ≤ s'.compactUse a ∧ s'.compactUse a ≤ MAX_LEAF_KEY) : Lodged cuts s' where
  pairs b n hn := by
    rcases hheap b n hn with ⟨rfl, rfl⟩ | ⟨hb, hn'⟩
    · exact hpairs
    · rw [huse b hb]
      exact h.pairs b n hn'
  use b n hn hset := by
    rw [hlevel, hroot] at hset
    rcases hheap b n hn with ⟨rfl, rfl⟩ | ⟨hb, hn'⟩
    · exact hbounds hset
    · rw [huse b hb]
      exact h.use b n hn' hset

theorem PairsApart.view {c : Nat} (h : PairsApart m c) (hview : SameView m m') : PairsApart m' c where
  below i hi hc := by
    rw [hview.use] at hi hc
    rw [hview.control hi] at hc ⊢
    exact h.below i hi hc
  apart i j hi hj hne hc hc' := by
    rw [hview.use] at hi hj hc hc'
    rw [hview.control hi] at hc ⊢
    rw [hview.control hj] at hc' ⊢
    exact h.apart i j hi hj hne hc hc'

omit [Pmem P] in
theorem Lodged.view (h : Lodged cuts s) (hm : s.tree.dleafHeap a = some m) (hview : SameView m m') :
    Lodged cuts { s with tree := s.tree.setLeaf a m' } := by
  refine h.write a m' (fun b n hn => ZBTree.setLeaf_heap hn) (fun _ _ => rfl) rfl rfl
    ((h.pairs a m hm).view hview) fun hset => ?_
  rw [hview.use]
  exact h.use a m hm hset

theorem push_control (m : DLeaf) (k : Key) (addr : Addr) (i : Nat) :
    (m.push k addr).control i = if i = m.maxUse then 0 else m.control i := by
  by_cases hi : i = m.maxUse
  · subst hi
    simp [DLeaf.control, DLeaf.push, newSlot]
  · simp [DLeaf.control, DLeaf.push, hi]

/-- A slot that is filled has no pair, and the pair that it may overwrite is no longer read. -/
theorem PairsApart.push {c c' : Nat} (h : PairsApart m c) (hle : c ≤ c') (k : Key) (addr : Addr) :
    PairsApart (m.push k addr) c' := by
  have hold : ∀ i, i < (m.push k addr).maxUse → (m.push k addr).maxUse ≤ (m.push k addr).control i →
      i < m.maxUse ∧ m.maxUse ≤ m.control i ∧ (m.push k addr).control i = m.control i := by
    intro i hi hc
    have hi' : i < m.maxUse + 1 := hi
    have hc' : m.maxUse + 1 ≤ (m.push k addr).control i := hc
    have hctl := push_control m k addr i
    by_cases hlast : i = m.maxUse
    · rw [if_pos hlast] at hctl
      rw [hctl] at hc'
      exact absurd hc' (Nat.not_succ_le_zero _)
    · rw [if_neg hlast] at hctl
      rw [hctl] at hc'
      exact ⟨Nat.lt_of_le_of_ne (Nat.le_of_lt_succ hi') hlast, Nat.le_of_succ_le hc', hctl⟩
  refine ⟨fun i hi hc => ?_, fun i j hi hj hne hc hc' => ?_⟩
  · obtain ⟨hi', hc', heq⟩ := hold i hi hc
    rw [heq]
    exact (h.below i hi' hc').trans hle
  · obtain ⟨hi', hci, heqi⟩ := hold i hi hc
    obtain ⟨hj', hcj, heqj⟩ := hold j hj hc'
    rw [heqi, heqj]
    exact h.apart i j hi' hj' hne hci hcj

end Lodged

/-! ### Leaves without pairs -/

def Bare (m : DLeaf) : Prop := ∀ i, i < m.maxUse → m.control i = 0

section Bare

variable {p : P} {m m' : DLeaf}

omit [Pmem P] in
theorem Bare.not_pair (h : Bare m) {i : Nat} (hi : i < m.maxUse) : ¬ m.maxUse ≤ m.control i := by
  rw [h i hi]
  exact Nat.not_le_of_gt (Nat.lt_of_le_of_lt (Nat.zero_le i) hi)

theorem Bare.valsOK (h : Bare m) (W : Key → Word → Prop) : ValsOK W p m :=
  fun _ _ hi hc => absurd hc (h.not_pair hi.1)

theorem Bare.slotsOK (h : Bare m') (hok : SlotsOK p m) (hptrs : SamePtrs m m')
    (hhash : ∀ i, i < m.maxUse → (m'.fingerPrint i).hashByte = (m.fingerPrint i).hashByte) :
    SlotsOK p m' where
  read i hi := by
    rw [hptrs.use] at hi
    rw [hptrs.ptr i hi]
    exact hok.read i hi
  hash i k hi := by
    have hi' := hptrs.hasKey_iff.mp hi
    rw [hhash i hi'.1]
    exact hok.hash i k hi'
  distinct i j k hi hj := hok.distinct i j k (hptrs.hasKey_iff.mp hi) (hptrs.hasKey_iff.mp hj)
  pair _ _ hi hc := absurd hc (h.not_pair hi.1)

variable {σ : Equiv.Perm Nat} {buf : Nat → NodeEntry} {off : Nat} {half half' : DLeaf}

omit [Pmem P] in
theorem half_bare (hh : IsHalf m σ buf off half) (huse : half'.maxUse = LEFT_KEY)
    (hslots : ∀ i, i < LEFT_KEY → half'.fingerPrint i = m.fingerBuffer (σ (i + off))) :
    Bare half' ∧ SamePtrs half half' ∧ ∀ i, i < half.maxUse →
      (half'.fingerPrint i).hashByte = (half.fingerPrint i).hashByte := by
  refine ⟨fun i hi => ?_, ⟨huse.trans hh.use.symm, fun i hi => ?_⟩, fun i hi => ?_⟩
  · rw [huse] at hi
    rw [DLeaf.control, hslots i hi]
    rfl
  · rw [hh.use] at hi
    rw [hh.ptr hi, DLeaf.ptr, hslots i hi]
    rfl
  · rw [hh.use] at hi
    obtain ⟨slots, heq⟩ := hh.slots
    obtain ⟨pos, hinv⟩ := fillHalf_spec off slots (m.fingerBuffer ∘ σ) (buf ∘ σ)
    rw [hslots i hi, heq]
    exact (hinv.copied i hi).1.symm

end Bare

theorem leftHalf_bare (m held : DLeaf) (σ : Equiv.Perm Nat) (buf : Nat → NodeEntry) (next : Addr) :
    Bare (leftHalf held (m.fingerBuffer ∘ σ) (buf ∘ σ) next) ∧
      SamePtrs (held.leftHalf (m.fingerBuffer ∘ σ) (buf ∘ σ) next)
        (leftHalf held (m.fingerBuffer ∘ σ) (buf ∘ σ) next) ∧
      ∀ i, i < (held.leftHalf (m.fingerBuffer ∘ σ) (buf ∘ σ) next).maxUse →
        ((leftHalf held (m.fingerBuffer ∘ σ) (buf ∘ σ) next).fingerPrint i).hashByte =
          ((held.leftHalf (m.fingerBuffer ∘ σ) (buf ∘ σ) next).fingerPrint i).hashByte := by
  refine half_bare (isHalf_left m held σ buf next) rfl fun i hi => ?_
  rw [Nat.add_zero]
  exact (if_pos hi).trans (by rw [Nat.zero_add]; rfl)

theorem rightHalf_bare (m held junk : DLeaf) (σ : Equiv.Perm Nat) (buf : Nat → NodeEntry)
    (newLeaf : Addr) :
    Bare (rightHalf held junk (m.fingerBuffer ∘ σ) (buf ∘ σ) newLeaf) ∧
      SamePtrs (m.rightHalf junk (m.fingerBuffer ∘ σ) (buf ∘ σ) newLeaf)
        (rightHalf held junk (m.fingerBuffer ∘ σ) (buf ∘ σ) newLeaf) ∧
      ∀ i, i < (m.rightHalf junk (m.fingerBuffer ∘ σ) (buf ∘ σ) newLeaf).maxUse →
        ((rightHalf held junk (m.fingerBuffer ∘ σ) (buf ∘ σ) newLeaf).fingerPrint i).hashByte =
          ((m.rightHalf junk (m.fingerBuffer ∘ σ) (buf ∘ σ) newLeaf).fingerPrint i).hashByte := by
  refine half_bare (isHalf_right m junk σ buf newLeaf) rfl fun i hi => ?_
  have hi' : i < MAX_LEAF_KEY - RIGHT_KEY := hi
  rw [Nat.add_comm]
  exact if_pos hi'

/-! ### Filling a slot -/

section Fill

variable [LawfulPmem P] {cuts : Cuts} {tail a : Addr} {s : CacheTree P} {m : DLeaf} {k : Key}

theorem fillSlot_spec (h : Inv cuts tail s.tree) (hl : Lodged cuts s) {n : Nat}
    (hok : Ok (n + 1) s.tree.pm) (t : Tid) (v : Word) (len : BitVec 32)
    (hm : s.tree.dleafHeap a = some m) (hroute : Routes s.tree.index k a) (hcut : cuts a = none)
    (hroom : m.maxUse < MAX_LEAF_KEY) (hnew : ∀ i, ¬ HasKey s.tree.pm m k i) :
    ∃ addr pm s', fillSlot s t k v len a = .ok s' ∧
      s'.tree = ({ s.tree with pm := pm } : TreeState P).setLeaf a (m.push k addr) ∧
      Ok n pm ∧ Inv cuts tail s'.tree ∧
      (∀ k' v', s'.tree.Contains k' v' ↔ s.tree.Contains k' v' ∨ (k' = k ∧ v' = v)) ∧
      Grows s.tree s'.tree ∧ Lodged cuts s' := by
  obtain ⟨addr, pm, hfill, hok', hinv, hcont, hgrows⟩ :=
    h.fillSlot hok t v len hm hroute hcut hroom hnew
  generalize htree : ({ s.tree with pm := pm } : TreeState P).setLeaf a (m.push k addr) = tree at *
  generalize huse : (if m.maxUse = s.compactUse a then
    Function.update s.compactUse a (s.compactUse a + 1) else s.compactUse) = use
  refine ⟨addr, pm, { s with tree := tree, compactUse := use }, ?_, htree.symm, hok', hinv, hcont,
    hgrows, ?_⟩
  · simp only [fillSlot, hm, deref_some, ok_bind, hfill, pure_eq_ok, huse]
  · have hself : use a = if m.maxUse = s.compactUse a then s.compactUse a + 1 else s.compactUse a := by
      rw [← huse]
      split
      · exact Function.update_self ..
      · rfl
    have hle : s.compactUse a ≤ use a := by
      rw [hself]
      split
      · exact Nat.le_succ _
      · exact Nat.le_refl _
    refine hl.write a (m.push k addr) (fun b n hn => ?_) (fun b hb => ?_) ?_ ?_
      ((hl.pairs a m hm).push hle k addr) fun hset => ?_
    · rw [← htree] at hn
      exact fillState_heap hn
    · show use b = s.compactUse b
      rw [← huse]
      split
      · exact Function.update_of_ne hb _ _
      · rfl
    · show tree.tempLevel = _
      rw [← htree]
      rfl
    · show tree.root = _
      rw [← htree]
      rfl
    · -- the slot at `compact_use` moves it up
      obtain ⟨hlow, hhigh⟩ := hl.use a m hm hset
      have hgoal : m.maxUse + 1 ≤ use a ∧ use a ≤ MAX_LEAF_KEY := by
        rw [hself]
        split <;> omega
      exact hgoal

end Fill

/-! ### Splitting a full leaf -/

/-- The state after a split of `leaf`, which was `m`. -/
def splitState (s : CacheTree P) (leaf : Addr) (m : DLeaf) (fingers : Nat → AdaptiveSlot)
    (keys : Nat → NodeEntry) (newLeaf : Addr) (pm : P) : CacheTree P :=
  let held := { m with altPtr := s.tree.brk, tempInsert := m.tempInsert + 1 }
  { s with
    tree :=
      ((ZBTree.splitState s.tree leaf m fingers keys newLeaf pm).setLeaf (s.tree.brk + 1)
        (rightHalf held (s.tree.junkLeaf (s.tree.brk + 1)) fingers keys newLeaf)).setLeaf leaf
          (leftHalf held fingers keys (s.tree.brk + 1))
    compactUse := Function.update (Function.update s.compactUse (s.tree.brk + 1) RIGHT_KEY) leaf
      RIGHT_KEY }

theorem splitFull_eq_ok {s : CacheTree P} {t : Tid} {leaf : Addr}
    {r : Addr × Key × Addr × CacheTree P} :
    splitFull s t leaf = .ok r ↔ ∃ m buf keys fingers newLeaf pm pm',
      s.tree.dleafHeap leaf = some m ∧ readEntries s.tree.pm m MAX_LEAF_KEY = .ok buf ∧
      qsort (2 * MAX_LEAF_KEY) 0 (MAX_LEAF_KEY - 1) buf m.fingerBuffer = some (keys, fingers) ∧
      nAllocate s.tree.pm t = some (newLeaf, pm) ∧
      linkPleaf pm m.altPtr newLeaf (keys (LEFT_KEY - 1)).oneKey
        (keys (MAX_LEAF_KEY - 1)).oneKey = .ok pm' ∧
      r = (s.tree.brk + 1, (keys SPLIT_POS).oneKey, m.altPtr,
        splitState s leaf m fingers keys newLeaf pm') := by
  -- the halves of `zbtree.cpp` are overwritten
  have hstate : ∀ m fingers keys newLeaf pm,
      (splitState s leaf m fingers keys newLeaf pm).tree =
        let held := { m with altPtr := s.tree.brk, tempInsert := m.tempInsert + 1 }
        { s.tree with
          pm := pm
          brk := s.tree.brk + 2
          bufHeap := Function.update s.tree.bufHeap s.tree.brk (some keys)
          dleafHeap := Function.update
            (Function.update (Function.update s.tree.dleafHeap leaf (some held)) (s.tree.brk + 1)
              (some (rightHalf held (s.tree.junkLeaf (s.tree.brk + 1)) fingers keys newLeaf)))
            leaf (some (leftHalf held fingers keys (s.tree.brk + 1))) } := by
    intro m fingers keys newLeaf pm
    simp only [splitState, ZBTree.splitState, TreeState.setLeaf, TreeState.mk.injEq, true_and, and_true]
    funext b
    by_cases hb : b = leaf
    · subst hb
      simp only [Function.update_self]
    · by_cases hbR : b = s.tree.brk + 1
      · subst hbR
        simp only [Function.update_of_ne hb, Function.update_self]
      · simp only [Function.update_of_ne hb, Function.update_of_ne hbR]
  have hwhole : ∀ m fingers keys newLeaf pm, splitState s leaf m fingers keys newLeaf pm =
      ⟨(splitState s leaf m fingers keys newLeaf pm).tree,
        Function.update (Function.update s.compactUse (s.tree.brk + 1) RIGHT_KEY) leaf RIGHT_KEY,
        s.compactFull⟩ := fun _ _ _ _ _ => rfl
  simp only [splitFull, splitLeaf, TreeState.stackBuf, TreeState.mallocLeaf, TreeState.setLeaf,
    bind_eq_ok, deref_eq_ok, bounded_eq_ok, pure_eq_ok, Except.ok.injEq, Prod.exists]
  constructor
  · rintro ⟨m, hm, buf, hbuf, keys, fingers, hsort, leafMeta2, s', ⟨newLeaf, pm, halloc, old, hold,
      pm', hlink, heq⟩, rfl⟩
    rw [Function.update_self, Option.some.injEq] at hold
    subst hold
    simp only [Prod.mk.injEq] at heq
    obtain ⟨rfl, rfl⟩ := heq
    refine ⟨m, buf, keys, fingers, newLeaf, pm, pm', hm, hbuf, hsort, halloc, hlink, ?_⟩
    rw [hwhole, hstate]
  · rintro ⟨m, buf, keys, fingers, newLeaf, pm, pm', hm, hbuf, hsort, halloc, hlink, rfl⟩
    refine ⟨m, hm, buf, hbuf, keys, fingers, hsort, _, _, ⟨newLeaf, pm, halloc, _,
      Function.update_self .., pm', hlink, rfl⟩, ?_⟩
    rw [hwhole, hstate]

omit [Pmem P] in
theorem splitState_heap {s : CacheTree P} {leaf : Addr} (m : DLeaf) (fingers : Nat → AdaptiveSlot)
    (keys : Nat → NodeEntry) (newLeaf : Addr) (pm : P) (hleaf : leaf < s.tree.brk) :
    (splitState s leaf m fingers keys newLeaf pm).tree.dleafHeap leaf =
        some (leftHalf { m with altPtr := s.tree.brk, tempInsert := m.tempInsert + 1 } fingers keys
          (s.tree.brk + 1)) ∧
      (splitState s leaf m fingers keys newLeaf pm).tree.dleafHeap (s.tree.brk + 1) =
        some (rightHalf { m with altPtr := s.tree.brk, tempInsert := m.tempInsert + 1 }
          (s.tree.junkLeaf (s.tree.brk + 1)) fingers keys newLeaf) ∧
      ∀ b, b ≠ leaf → b ≠ s.tree.brk + 1 →
        (splitState s leaf m fingers keys newLeaf pm).tree.dleafHeap b = s.tree.dleafHeap b := by
  have hne : s.tree.brk + 1 ≠ leaf := (hleaf.trans (Nat.lt_succ_self _)).ne'
  refine ⟨Function.update_self .., ?_, fun b hb hb' => ?_⟩
  · simp only [splitState, TreeState.setLeaf, Function.update_of_ne hne, Function.update_self]
  · obtain ⟨-, -, hoff⟩ := ZBTree.splitState_heap m fingers keys newLeaf pm hleaf
    rw [← hoff b hb hb']
    simp only [splitState, TreeState.setLeaf, Function.update_of_ne hb, Function.update_of_ne hb']

section Split

variable [LawfulPmem P] {cuts : Cuts} {tail L : Addr} {s : CacheTree P} {m : DLeaf}

theorem Inv.rewrite_bare {s : TreeState P} {m' : DLeaf} (h : Inv cuts tail s)
    (hm : s.dleafHeap L = some m)
    (hbare : Bare m' ∧ SamePtrs m m' ∧ ∀ i, i < m.maxUse →
      (m'.fingerPrint i).hashByte = (m.fingerPrint i).hashByte)
    (hnext : m'.next = m.next) (halt : m'.altPtr = m.altPtr) (htemp : m'.tempInsert = m.tempInsert) :
    Inv cuts tail (s.setLeaf L m') ∧ (∀ k v, (s.setLeaf L m').Contains k v ↔ s.Contains k v) ∧
      Grows s (s.setLeaf L m') := by
  obtain ⟨hplain, hptrs, hhash⟩ := hbare
  have hlock : LockOK (cuts L) m' := by
    have hold := (h.skel.leaf L m hm).2
    unfold LockOK at hold ⊢
    rwa [htemp]
  have hcont := contains_rewrite (P := P) hm hptrs
  exact ⟨h.rewrite hm hptrs (hplain.slotsOK (h.data.slots L m hm) hptrs hhash) hnext halt hlock, hcont,
    ⟨fun k v hv => (hcont k v).mpr hv, fun W _ hpairs => hpairs.rewrite (hplain.valsOK W)⟩⟩

/-- Splitting a full leaf that is held. -/
theorem splitFull_spec (h : Inv cuts tail s.tree) {n : Nat} (hok : Ok (n + 1) s.tree.pm) (t : Tid)
    (hm : s.tree.dleafHeap L = some m) (hL : L ∈ labels s.tree.index) (hcut : cuts L = none)
    (hheld : m.tempInsert = 1) (hfull : m.maxUse = MAX_LEAF_KEY) :
    ∃ σ buf newLeaf pm, SplitOf s.tree L m σ buf ∧
      splitFull s t L = .ok (s.tree.brk + 1, (buf (σ SPLIT_POS)).oneKey, m.altPtr,
        splitState s L m (m.fingerBuffer ∘ σ) (buf ∘ σ) newLeaf pm) ∧
      Ok n pm ∧
      Inv (Function.update cuts L (some (splitCut s.tree m σ buf))) tail
        (splitState s L m (m.fingerBuffer ∘ σ) (buf ∘ σ) newLeaf pm).tree ∧
      (∀ k v, (splitState s L m (m.fingerBuffer ∘ σ) (buf ∘ σ) newLeaf pm).tree.Contains k v ↔
        s.tree.Contains k v) ∧
      Grows s.tree (splitState s L m (m.fingerBuffer ∘ σ) (buf ∘ σ) newLeaf pm).tree := by
  obtain ⟨σ, buf, q, pm₁, pm, hsp, hbuf, hsort, halloc, hlink, -, hok', hinv, hcont, hgrows⟩ :=
    h.split_parts hok t hm hL hcut hheld hfull
  refine ⟨σ, buf, q, pm, hsp, splitFull_eq_ok.mpr ⟨m, buf, buf ∘ σ, m.fingerBuffer ∘ σ, q, pm₁, pm,
    hm, hbuf, hsort, halloc, hlink, rfl⟩, hok', ?_⟩
  have hLlt := (h.skel.leaf_lt L (mem_leaves_of_index hL)).2
  have hne : L ≠ s.tree.brk + 1 := (hLlt.trans (Nat.lt_succ_self _)).ne
  obtain ⟨hleft, hright, -⟩ :=
    ZBTree.splitState_heap m (m.fingerBuffer ∘ σ) (buf ∘ σ) q pm hLlt
  -- first the right half is laid out anew, then the left one
  obtain ⟨hinv₁, hcont₁, hgrows₁⟩ := Inv.rewrite_bare hinv hright (rightHalf_bare m
    { m with altPtr := s.tree.brk, tempInsert := m.tempInsert + 1 } _ σ buf q)
    (by rw [DLeaf.rightHalf_next]; rfl) (by rw [DLeaf.rightHalf_altPtr]; rfl)
    (by rw [DLeaf.rightHalf_tempInsert]; rfl)
  obtain ⟨hinv₂, hcont₂, hgrows₂⟩ := Inv.rewrite_bare hinv₁
    ((Function.update_of_ne hne _ _).trans hleft) (leftHalf_bare m _ σ buf _)
    (by rw [DLeaf.leftHalf_next]; rfl) (by rw [DLeaf.leftHalf_altPtr]; rfl)
    (by rw [DLeaf.leftHalf_tempInsert]; rfl)
  exact ⟨hinv₂, fun k v => (hcont₂ k v).trans ((hcont₁ k v).trans (hcont k v)),
    (hgrows.trans hgrows₁).trans hgrows₂⟩

omit [Pmem P] [LawfulPmem P] in
/-- After the split both halves end at `compact_use`. -/
theorem Lodged.split (h : Lodged cuts s) (hL : L < s.tree.brk) (σ : Equiv.Perm Nat)
    (buf : Nat → NodeEntry) (newLeaf : Addr) (pm : P) (c : Cut) :
    Lodged (Function.update cuts L (some c))
      (splitState s L m (m.fingerBuffer ∘ σ) (buf ∘ σ) newLeaf pm) := by
  obtain ⟨hleft, hright, hoff⟩ := splitState_heap m (m.fingerBuffer ∘ σ) (buf ∘ σ) newLeaf pm hL
  have huse : ∀ b, (splitState s L m (m.fingerBuffer ∘ σ) (buf ∘ σ) newLeaf pm).compactUse b =
      if b = L ∨ b = s.tree.brk + 1 then RIGHT_KEY else s.compactUse b := by
    intro b
    by_cases hb : b = L
    · simp [splitState, hb]
    · by_cases hbR : b = s.tree.brk + 1
      · have hR : s.tree.brk + 1 ≠ L := hbR ▸ hb
        simp [splitState, hbR, Function.update_of_ne hR]
      · simp [splitState, hb, hbR]
  have hhalf : ∀ b n, (splitState s L m (m.fingerBuffer ∘ σ) (buf ∘ σ) newLeaf pm).tree.dleafHeap b =
      some n → (b = L ∨ b = s.tree.brk + 1) ∧ Bare n ∧ n.maxUse = LEFT_KEY ∨
        ¬ (b = L ∨ b = s.tree.brk + 1) ∧ s.tree.dleafHeap b = some n := by
    intro b n hn
    by_cases hb : b = L
    · subst hb
      rw [hleft, Option.some.injEq] at hn
      exact Or.inl ⟨Or.inl rfl, hn ▸ (leftHalf_bare m _ σ buf _).1, hn ▸ rfl⟩
    · by_cases hbR : b = s.tree.brk + 1
      · subst hbR
        rw [hright, Option.some.injEq] at hn
        exact Or.inl ⟨Or.inr rfl, hn ▸ (rightHalf_bare m _ _ σ buf _).1, hn ▸ rfl⟩
      · rw [hoff b hb hbR] at hn
        exact Or.inr ⟨not_or.mpr ⟨hb, hbR⟩, hn⟩
  refine ⟨fun b n hn => ?_, fun b n hn hset => ?_⟩
  · rw [huse]
    rcases hhalf b n hn with ⟨-, hbare, -⟩ | ⟨hb, hn'⟩
    · exact PairsApart.of_plain hbare _
    · rw [if_neg hb]
      exact h.pairs b n hn'
  · rw [huse]
    rcases hhalf b n hn with ⟨hb, -, hmax⟩ | ⟨hb, hn'⟩
    · rw [if_pos hb, hmax]
      decide
    · rw [if_neg hb]
      rw [Function.update_of_ne (not_or.mp hb).1] at hset
      exact h.use b n hn' hset

omit [Pmem P] [LawfulPmem P] in
theorem root_of_routes {s : TreeState P} (hL : L ∈ labels s.index) (hlevel : s.tempLevel = 0) :
    s.root = L := by
  have hroot : L = s.root := by simpa [TreeState.index, hlevel, MultiwayTree.flat, labels] using hL
  exact hroot.symm

omit [Pmem P] [LawfulPmem P] in
theorem Lodged.install (h : Lodged cuts s) (hcut : (cuts L).isSome)
    (hroot : s.tree.tempLevel = 0 → s.tree.root = L) {cuts' : Cuts} {tree : TreeState P}
    (hview : ∀ b n, tree.dleafHeap b = some n → ∃ n₀, s.tree.dleafHeap b = some n₀ ∧ SameView n₀ n) :
    Lodged cuts' { s with tree := tree } := by
  refine ⟨fun b n hn => ?_, fun b n hn _ => ?_⟩
  · obtain ⟨n₀, hn₀, hv⟩ := hview b n hn
    exact (h.pairs b n₀ hn₀).view hv
  · obtain ⟨n₀, hn₀, hv⟩ := hview b n hn
    rw [hv.use]
    apply h.use b n₀ hn₀
    rcases Nat.eq_zero_or_pos s.tree.tempLevel with hzero | hpos
    · right
      by_cases hb : b = L
      · exact Or.inr (hb ▸ hcut)
      · exact Or.inl (hroot hzero ▸ hb)
    · exact Or.inl hpos

end Split

/-! ### The fresh tree -/

theorem lodged_init {pm : P} {t : Tid} {junkInner : Addr → InnerNode} {junkLeaf : Addr → DLeaf}
    {tree : TreeState P} (hinit : ZBTree.init pm t junkInner junkLeaf = .ok tree)
    (junkUse : Addr → Nat) (junkFull : Addr → Bool) :
    tree.tempLevel = 0 ∧ (∀ a m, tree.dleafHeap a = some m → m.maxUse = 0) ∧
      Lodged Cuts.empty ⟨tree, junkUse, junkFull⟩ := by
  obtain ⟨q, pm₁, l, pm₂, -, -, -, htree⟩ := init_eq_ok.mp hinit
  have hempty : ∀ a m, tree.dleafHeap a = some m → a = tree.root ∧ m.maxUse = 0 := by
    intro a m hm
    rw [htree] at hm ⊢
    obtain ⟨rfl, rfl⟩ := freshTree_leaf.mp hm
    exact ⟨rfl, rfl⟩
  have hlevel : tree.tempLevel = 0 := by rw [htree]; rfl
  refine ⟨hlevel, fun a m hm => (hempty a m hm).2, fun a m hm => ?_, fun a m hm hset => ?_⟩
  · have hnone : ∀ i, ¬ i < m.maxUse := fun i hi => absurd ((hempty a m hm).2 ▸ hi) (Nat.not_lt_zero i)
    exact PairsApart.of_plain (fun i hi => absurd hi (hnone i)) _
  · rcases hset with hpos | hne | hcut
    · exact absurd hlevel (Nat.ne_of_gt hpos)
    · exact absurd (hempty a m hm).1 hne
    · exact absurd hcut (by simp [Cuts.empty])

/-! ### Writing a pair -/

/-- The cells that a reader has chosen for the record of slot `i` are fit for it. -/
def PlaceOK (s : CacheTree P) (leaf : Addr) (m : DLeaf) (i : Nat) : Place → Prop
  | .nowhere => False
  | .free => s.compactUse leaf < MAX_LEAF_KEY - 1
  | .instead j => j < m.maxUse ∧ j ≠ i ∧ m.maxUse ≤ m.control j

omit [Pmem P] in
theorem choosePlace_ok {s : CacheTree P} {leaf : Addr} {m : DLeaf} {i : Nat} {place : Place}
    (h : choosePlace s leaf m i = some place) : place = .nowhere ∨ PlaceOK s leaf m i place := by
  unfold choosePlace at h
  split at h
  · rename_i hroom
    cases h
    exact Or.inr hroom
  · split at h
    · cases h
      exact Or.inl rfl
    · obtain ⟨j, hvictim, rfl⟩ := Option.map_eq_some_iff.mp h
      obtain ⟨⟨-, hj⟩, hpair, hne⟩ := victim_some hvictim
      rw [Nat.zero_add] at hj
      exact Or.inr ⟨hj, hne, Nat.le_of_lt hpair⟩

section Store

variable [LawfulPmem P] {cuts : Cuts} {tail a : Addr} {s : CacheTree P} {m m' : DLeaf} {k : Key}
  {i c : Nat} {v : Word}

omit [Pmem P] [LawfulPmem P] in
theorem PairWritten.release (h : PairWritten m m' i c k v) :
    PairWritten m { m' with tempInsert := 0 } i c k v :=
  ⟨h.use, h.slot, h.self, h.other, h.key, h.val, h.spare, h.above, h.inside⟩

theorem PairWritten.inv {s : TreeState P} (hw : PairWritten m m' i c k v) (h : Inv cuts tail s)
    (hm : s.dleafHeap a = some m) (hi : HasKey s.pm m k i) (hv : logVal s.pm (m.ptr i) = some v)
    (hnext : m'.next = m.next) (halt : m'.altPtr = m.altPtr) (hlock : LockOK (cuts a) m') :
    Inv cuts tail (s.setLeaf a m') ∧ (∀ k' v', (s.setLeaf a m').Contains k' v' ↔ s.Contains k' v') ∧
      Grows s (s.setLeaf a m') := by
  have hcont := contains_rewrite (P := P) hm hw.samePtrs
  refine ⟨h.rewrite hm hw.samePtrs (hw.slotsOK (h.data.slots a m hm) hi) hnext halt hlock, hcont,
    fun k' v' hv' => (hcont k' v').mpr hv', fun W hW hpairs => hpairs.rewrite ?_⟩
  exact hw.valsOK (hpairs a m hm) hi (hW k v ((hcont k v).mpr ⟨a, m, hm, i, hi, hv⟩))

omit [Pmem P] [LawfulPmem P] in
theorem lodge_links (m : DLeaf) (i compactUse : Nat) (key : Key) (val : Word) :
    (lodge m i compactUse key val).next = m.next ∧ (lodge m i compactUse key val).altPtr = m.altPtr := by
  unfold lodge DLeaf.touch
  dsimp only
  split <;> exact ⟨rfl, rfl⟩

omit [Pmem P] [LawfulPmem P] in
theorem takeOver_links (m : DLeaf) (i j : Nat) (key : Key) (val : Word) :
    (takeOver m i j key val).next = m.next ∧ (takeOver m i j key val).altPtr = m.altPtr := by
  unfold takeOver DLeaf.touch
  dsimp only
  split <;> exact ⟨rfl, rfl⟩

/-- What a reader writes to the leaf that it holds, when the slot still points to the record. -/
theorem storePair_spec (h : Inv cuts tail s.tree) (hl : Lodged cuts s) (hlevel : 1 ≤ s.tree.tempLevel)
    (hm : s.tree.dleafHeap a = some m) (hcut : cuts a = none) (hi : HasKey s.tree.pm m k i)
    {place : Place} (hplace : PlaceOK s a m i place) :
    ∃ m' use, storePair s a i (m.ptr i) place =
        .ok { s with tree := s.tree.setLeaf a m', compactUse := use } ∧
      m'.maxUse = m.maxUse ∧ m'.tempInsert = 0 ∧ Inv cuts tail (s.tree.setLeaf a m') ∧
      (∀ k' v', (s.tree.setLeaf a m').Contains k' v' ↔ s.tree.Contains k' v') ∧
      Grows s.tree (s.tree.setLeaf a m') ∧
      Lodged cuts { s with tree := s.tree.setLeaf a m', compactUse := use } := by
  obtain ⟨k', v, hk', hv⟩ := (h.data.slots a m hm).read i hi.1
  obtain rfl : k' = k := Option.some.inj (hk'.symm.trans hi.2)
  have hlock : ∀ n : DLeaf, LockOK (cuts a) { n with tempInsert := 0 } := fun n => by
    simp [LockOK, hcut]
  obtain ⟨hlow, hhigh⟩ := hl.use a m hm (Or.inl hlevel)
  -- whichever cells are taken, what is written is the pair of the record
  have happly : ∀ (n : DLeaf) (c : Nat) (use : Addr → Nat), PairWritten m n i c k' v → n.next = m.next →
      n.altPtr = m.altPtr → c + 2 ≤ use a → s.compactUse a ≤ use a → use a ≤ MAX_LEAF_KEY →
      (∀ b, b ≠ a → use b = s.compactUse b) →
      Inv cuts tail (s.tree.setLeaf a { n with tempInsert := 0 }) ∧
      (∀ k v, (s.tree.setLeaf a { n with tempInsert := 0 }).Contains k v ↔ s.tree.Contains k v) ∧
      Grows s.tree (s.tree.setLeaf a { n with tempInsert := 0 }) ∧
      Lodged cuts { s with tree := s.tree.setLeaf a { n with tempInsert := 0 }, compactUse := use } := by
    intro n c use hw hnext halt hend hgrow hbound hother
    obtain ⟨hinv, hcont, hgrows⟩ := hw.release.inv h hm hi hv hnext halt (hlock n)
    refine ⟨hinv, hcont, hgrows, ?_⟩
    exact hl.write a { n with tempInsert := 0 } (fun b x hx => ZBTree.setLeaf_heap hx)
      hother rfl rfl (hw.release.apart (hl.pairs a m hm) hgrow hend)
      fun _ => ⟨hw.use ▸ hlow.trans hgrow, hbound⟩
  cases place with
  | nowhere => exact absurd hplace not_false
  | free =>
    -- two free cells at `compact_use`
    have hroom : s.compactUse a < MAX_LEAF_KEY - 1 := hplace
    have hw := lodge_written k' v hi.1 hlow hroom (hl.pairs a m hm)
    obtain ⟨hnext, halt⟩ := lodge_links m i (s.compactUse a) k' v
    refine ⟨{ lodge m i (s.compactUse a) k' v with tempInsert := 0 },
      Function.update s.compactUse a (s.compactUse a + 1 + 1), ?_, hw.use, rfl,
      happly _ _ _ hw hnext halt ?_ ?_ ?_ fun b hb => Function.update_of_ne hb _ _⟩
    · simp only [storePair, hm, hk', hv, deref_some, ok_bind, pure_eq_ok]
    · rw [Function.update_self]
    · rw [Function.update_self]
      exact Nat.le_add_right _ 2
    · rw [Function.update_self]
      have hroom' : s.compactUse a < 29 := hroom
      exact Nat.succ_le_succ hroom'
  | instead j =>
    -- the cells of slot `j`, which loses its pair
    obtain ⟨hj, hne, hpair⟩ := hplace
    have hbelow := (hl.pairs a m hm).below j hj hpair
    have hw := takeOver_written k' v hi.1 hj hne hpair (hbelow.trans hhigh) (hl.pairs a m hm)
    obtain ⟨hnext, halt⟩ := takeOver_links m i j k' v
    refine ⟨{ takeOver m i j k' v with tempInsert := 0 }, s.compactUse, ?_, hw.use, rfl,
      happly _ _ _ hw hnext halt hbelow (Nat.le_refl _) hhigh fun _ _ => rfl⟩
    simp only [storePair, hm, hk', hv, deref_some, ok_bind, pure_eq_ok]

end Store

end ReadCache

end ZBTree
