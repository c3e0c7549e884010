import ZBTree.LeafSearch

/-!
# Splitting a leaf

`splitFull` sorts the records of a full leaf, moves the slots along with them and lays
out the two halves, fifteen slots each, with inline pairs in the cells that are free
now. The results: the halves hold what the leaf held, cut at the fifteenth key, both
can be searched, and every pair that was written carries its record's key and value.
-/

namespace ZBTree

open Pmem Arrays

variable {P : Type} [Pmem P]

/-! ### The layout of one half -/

/-- One half while it is laid out: the first `n` slots are copies of the sorted ones, and
every pair put down so far lies above the cursor. -/
structure HalfInv (off : Nat) (fingers : Nat → AdaptiveSlot) (keys : Nat → NodeEntry) (n : Nat)
    (h : HalfState) : Prop where
  cursor_lo : LEFT_KEY - 1 ≤ h.compactPos
  cursor_hi : h.compactPos < MAX_LEAF_KEY
  copied : ∀ i, i < n → (h.slots i).hashByte = (fingers (i + off)).hashByte ∧
    (h.slots i).accessBit = (fingers (i + off)).accessBit ∧
    (h.slots i).ptrField = (fingers (i + off)).ptrField
  paired : ∀ i, i < n → (h.slots i).controlBit = (fingers (i + off)).controlBit ∨
    (h.compactPos < (h.slots i).controlBit.toNat ∧
      (h.slots i).controlBit.toNat + 1 < MAX_LEAF_KEY ∧
      (h.slots (h.slots i).controlBit.toNat).val = (keys (i + off)).oneKey ∧
      (h.slots ((h.slots i).controlBit.toNat + 1)).val = (keys (i + off)).val)

variable {off n : Nat} {fingers : Nat → AdaptiveSlot} {keys : Nat → NodeEntry} {h : HalfState}

theorem HalfState.cachePair_slots (h : HalfState) (i : Nat) (e : NodeEntry) (hi : i < LEFT_KEY)
    (hroom : LEFT_KEY ≤ h.compactPos - 1) (j : Nat) :
    (h.cachePair i e).slots j =
      if j = i then { h.slots i with controlBit := BitVec.ofNat 6 (h.compactPos - 1) }
      else if j = h.compactPos - 1 then AdaptiveSlot.ofVal e.oneKey
      else if j = h.compactPos then AdaptiveSlot.ofVal e.val
      else h.slots j := by
  have hne : i ≠ h.compactPos - 1 := by omega
  have hne' : i ≠ h.compactPos := by omega
  simp only [HalfState.cachePair, Function.update_apply, if_neg hne, if_neg hne']

theorem HalfInv.cachePair (hinv : HalfInv off fingers keys n h) (hn : n ≤ LEFT_KEY) {i : Nat}
    (hi : i < n) (hroom : LEFT_KEY ≤ h.compactPos - 1) :
    HalfInv off fingers keys n (h.cachePair i (keys (i + off))) := by
  have hlo := hinv.cursor_lo
  have hhi := hinv.cursor_hi
  have hslots := h.cachePair_slots i (keys (i + off)) (hi.trans_le hn) hroom
  have hpos : (h.cachePair i (keys (i + off))).compactPos = h.compactPos - 1 - 1 := rfl
  simp only [LEFT_KEY, MAX_LEAF_KEY] at hlo hhi hroom hn
  -- a used slot other than `i` is as before
  have hother : ∀ j, j < n → j ≠ i → (h.cachePair i (keys (i + off))).slots j = h.slots j := by
    intro j hj hne
    rw [hslots, if_neg hne, if_neg (by omega), if_neg (by omega)]
  have hself : (h.cachePair i (keys (i + off))).slots i =
      { h.slots i with controlBit := BitVec.ofNat 6 (h.compactPos - 1) } := by
    rw [hslots, if_pos rfl]
  refine ⟨?_, ?_, ?_, ?_⟩
  · simp only [hpos, LEFT_KEY, MAX_LEAF_KEY]
    omega
  · simp only [hpos, MAX_LEAF_KEY]
    omega
  · intro j hj
    by_cases hji : j = i
    · subst hji
      rw [hself]
      exact hinv.copied j hj
    · rw [hother j hj hji]
      exact hinv.copied j hj
  · intro j hj
    by_cases hji : j = i
    · subst hji
      -- the slot that has got the pair finds it in the two cells
      have hc : ((h.cachePair j (keys (j + off))).slots j).controlBit.toNat = h.compactPos - 1 := by
        rw [hself]
        exact Nat.mod_eq_of_lt (by omega)
      refine Or.inr ?_
      simp only [hc, hpos, MAX_LEAF_KEY]
      refine ⟨by omega, by omega, ?_, ?_⟩
      · rw [hslots, if_neg (by omega), if_pos rfl, AdaptiveSlot.val_ofVal]
      · rw [hslots, if_neg (by omega), if_neg (by omega), if_pos (by omega), AdaptiveSlot.val_ofVal]
    · rw [hother j hj hji]
      rcases hinv.paired j hj with hsame | ⟨habove, hlt, hkey, hval⟩
      · exact Or.inl hsame
      · refine Or.inr ⟨by omega, hlt, ?_, ?_⟩
        · rw [hslots, if_neg (by omega), if_neg (by omega), if_neg (by omega), hkey]
        · rw [hslots, if_neg (by omega), if_neg (by omega), if_neg (by omega), hval]

theorem HalfInv.hotPass (hinv : HalfInv off fingers keys n h) (hn : n < LEFT_KEY) :
    HalfInv off fingers keys (n + 1) (hotPass off fingers keys h n) := by
  have hlo := hinv.cursor_lo
  simp only [LEFT_KEY, MAX_LEAF_KEY] at hlo hn
  have hcopy : HalfInv off fingers keys (n + 1)
      { h with slots := Function.update h.slots n (fingers (n + off)) } := by
    refine ⟨hinv.cursor_lo, hinv.cursor_hi, ?_, ?_⟩
    · intro i hi
      by_cases hin : i = n
      · subst hin
        simp
      · simp only [Function.update_of_ne hin]
        exact hinv.copied i (by omega)
    · intro i hi
      by_cases hin : i = n
      · subst hin
        simp
      · simp only [Function.update_of_ne hin]
        rcases hinv.paired i (by omega) with hsame | ⟨habove, hlt, hkey, hval⟩
        · exact Or.inl hsame
        · -- the copied cell lies below the pairs
          refine Or.inr ⟨habove, hlt, ?_, ?_⟩
          · rw [Function.update_of_ne (by omega), hkey]
          · rw [Function.update_of_ne (by omega), hval]
  unfold ZBTree.hotPass
  dsimp only
  split_ifs with hroom
  · exact hcopy.cachePair (Nat.succ_le_of_lt hn) (Nat.lt_succ_self n) hroom.1
  · exact hcopy

theorem HalfInv.coldPass (hinv : HalfInv off fingers keys LEFT_KEY h) {i : Nat} (hi : i < LEFT_KEY) :
    HalfInv off fingers keys LEFT_KEY (coldPass off keys h i) := by
  unfold ZBTree.coldPass
  split_ifs with hroom
  · exact hinv.cachePair (Nat.le_refl _) hi hroom.1
  · exact hinv

theorem fillHalf_spec (off : Nat) (slots fingers : Nat → AdaptiveSlot) (keys : Nat → NodeEntry) :
    ∃ pos, HalfInv off fingers keys LEFT_KEY ⟨fillHalf off slots fingers keys, pos⟩ := by
  have hinit : HalfInv off fingers keys 0 ⟨slots, MAX_LEAF_KEY - 1⟩ :=
    ⟨Nat.le_add_left 14 15, Nat.lt_succ_self 29, fun i hi => absurd hi (Nat.not_lt_zero i),
      fun i hi => absurd hi (Nat.not_lt_zero i)⟩
  have hhot := foldl_range_induction (HalfInv off fingers keys) (hotPass off fingers keys) hinit
    fun i s hi hs => hs.hotPass hi
  have hslots : ∀ h, HalfInv off fingers keys LEFT_KEY h →
      ∃ pos, HalfInv off fingers keys LEFT_KEY ⟨h.slots, pos⟩ := fun h hh => ⟨h.compactPos, hh⟩
  unfold fillHalf
  refine hslots _ ?_
  split_ifs with hroom
  · exact foldl_range_induction (fun _ => HalfInv off fingers keys LEFT_KEY) (coldPass off keys)
      hhot fun i s hi hs => hs.coldPass hi
  · exact hhot

/-! ### What a half holds -/

/-- A leaf laid out by `fillHalf` from the records of `m`, in the order `σ`. -/
structure IsHalf (m : DLeaf) (σ : Nat → Nat) (buf : Nat → NodeEntry) (off : Nat) (half : DLeaf) :
    Prop where
  use : half.maxUse = LEFT_KEY
  slots : ∃ slots, half.fingerPrint = fillHalf off slots (m.fingerBuffer ∘ σ) (buf ∘ σ)

section Half

variable {p : P} {m half : DLeaf} {σ : Equiv.Perm Nat} {buf : Nat → NodeEntry}

theorem IsHalf.ptr (hh : IsHalf m σ buf off half) {i : Nat} (hi : i < LEFT_KEY) :
    half.ptr i = m.ptr (σ (i + off)) := by
  obtain ⟨slots, hslots⟩ := hh.slots
  obtain ⟨pos, hinv⟩ := fillHalf_spec off slots (m.fingerBuffer ∘ σ) (buf ∘ σ)
  have hptr := (hinv.copied i hi).2.2
  simp only [← hslots] at hptr
  exact congrArg BitVec.toNat hptr

variable (hσ : PermOn 0 (MAX_LEAF_KEY - 1) σ) (hoff : off ≤ LEFT_KEY)
  (hm : SlotsOK p m) (hfull : m.maxUse = MAX_LEAF_KEY)
  (hbuf : ∀ i, i < MAX_LEAF_KEY →
    logKey p (m.ptr i) = some (buf i).oneKey ∧ logVal p (m.ptr i) = some (buf i).val)

include hσ hoff in
theorem IsHalf.source_lt {i : Nat} (hi : i < LEFT_KEY) : σ (i + off) < MAX_LEAF_KEY := by
  simp only [LEFT_KEY, MAX_LEAF_KEY] at hi hoff hσ ⊢
  have := (hσ.mem (i := i + off) ⟨Nat.zero_le _, by omega⟩).2
  omega

include hσ hoff hfull in
theorem IsHalf.hasKey_iff (hh : IsHalf m σ buf off half) (k : Key) (i : Nat) :
    HasKey p half k i ↔ i < LEFT_KEY ∧ HasKey p m k (σ (i + off)) := by
  simp only [HasKey, hh.use]
  constructor
  · rintro ⟨hi, hk⟩
    rw [hh.ptr hi] at hk
    exact ⟨hi, by rw [hfull]; exact IsHalf.source_lt hσ hoff hi, hk⟩
  · rintro ⟨hi, -, hk⟩
    rw [hh.ptr hi]
    exact ⟨hi, hk⟩

include hσ hoff hm hfull hbuf in
/-- A half can be searched, and its inline pairs are those of its records. -/
theorem IsHalf.slotsOK (hh : IsHalf m σ buf off half) : SlotsOK p half ∧ ValsOK (Holds p m) p half := by
  have hkey := hh.hasKey_iff (p := p) hσ hoff hfull
  have hptr := fun {i : Nat} (hi : i < LEFT_KEY) => hh.ptr hi
  obtain ⟨slots, hslots⟩ := hh.slots
  obtain ⟨pos, hinv⟩ := fillHalf_spec off slots (m.fingerBuffer ∘ σ) (buf ∘ σ)
  rw [← hslots] at hinv
  have hlo := hinv.cursor_lo
  -- the slots came with a zero `control_bit`, so one that passes the test has a pair
  have hpair : ∀ i, i < LEFT_KEY → half.maxUse ≤ half.control i →
      half.control i + 1 < MAX_LEAF_KEY ∧
        (half.fingerPrint (half.control i)).val = (buf (σ (i + off))).oneKey ∧
        (half.fingerPrint (half.control i + 1)).val = (buf (σ (i + off))).val := by
    intro i hi hc
    rcases hinv.paired i hi with hzero | ⟨-, hlt, hk, hv⟩
    · have hctl : half.control i = 0 := congrArg BitVec.toNat hzero
      rw [hh.use, hctl] at hc
      exact absurd hc (by decide)
    · exact ⟨hlt, hk, hv⟩
  refine ⟨⟨?_, ?_, ?_, ?_⟩, ?_⟩
  · intro i hi
    rw [hh.use] at hi
    rw [hptr hi]
    exact hm.read _ (by rw [hfull]; exact IsHalf.source_lt hσ hoff hi)
  · intro i k hk
    obtain ⟨hi, hk⟩ := (hkey k i).mp hk
    have hhash := (hinv.copied i hi).1
    exact hhash.trans (hm.hash _ k hk)
  · intro i j k hi hj
    have heq := hm.distinct _ _ k ((hkey k i).mp hi).2 ((hkey k j).mp hj).2
    have := σ.injective heq
    omega
  · intro i k hk hc
    obtain ⟨hi, hk⟩ := (hkey k i).mp hk
    obtain ⟨hlt, hval, -⟩ := hpair i hi hc
    refine ⟨hlt, ?_⟩
    have hread := (hbuf (σ (i + off)) (IsHalf.source_lt hσ hoff hi)).1
    rw [hk.2] at hread
    rw [hval, Option.some.inj hread]
  · intro i k hk hc
    obtain ⟨hi, hk⟩ := (hkey k i).mp hk
    obtain ⟨-, -, hval⟩ := hpair i hi hc
    rw [hval]
    exact ⟨_, hk, (hbuf (σ (i + off)) (IsHalf.source_lt hσ hoff hi)).2⟩

include hσ hoff hfull hbuf in
theorem IsHalf.holds_iff (hh : IsHalf m σ buf off half) (k : Key) (v : Word) :
    Holds p half k v ↔ ∃ i, i < LEFT_KEY ∧ buf (σ (i + off)) = ⟨k, v⟩ := by
  refine exists_congr fun i => ?_
  rw [hh.hasKey_iff hσ hoff hfull]
  constructor
  · rintro ⟨⟨hi, hk⟩, hv⟩
    obtain ⟨hk', hv'⟩ := hbuf (σ (i + off)) (IsHalf.source_lt hσ hoff hi)
    rw [hk.2] at hk'
    rw [hh.ptr hi, hv'] at hv
    refine ⟨hi, ?_⟩
    rw [Option.some.inj hk', ← Option.some.inj hv]
  · rintro ⟨hi, hentry⟩
    have hlt := IsHalf.source_lt hσ hoff hi
    obtain ⟨hk', hv'⟩ := hbuf (σ (i + off)) hlt
    rw [hentry] at hk' hv'
    exact ⟨⟨hi, by rw [hfull]; exact hlt, hk'⟩, by rw [hh.ptr hi]; exact hv'⟩

end Half

theorem isHalf_left (m held : DLeaf) (σ : Nat → Nat) (buf : Nat → NodeEntry) (next : Addr) :
    IsHalf m σ buf 0 (held.leftHalf (m.fingerBuffer ∘ σ) (buf ∘ σ) next) :=
  ⟨DLeaf.leftHalf_maxUse .., held.fingerPrint, by simp only [DLeaf.leftHalf]⟩

theorem isHalf_right (m junk : DLeaf) (σ : Nat → Nat) (buf : Nat → NodeEntry) (newLeaf : Addr) :
    IsHalf m σ buf LEFT_KEY (m.rightHalf junk (m.fingerBuffer ∘ σ) (buf ∘ σ) newLeaf) :=
  ⟨DLeaf.rightHalf_maxUse .., junk.fingerPrint, by simp only [DLeaf.rightHalf]⟩

/-! ### The buffer -/

theorem readEntries_spec {p : P} {m : DLeaf} (n : Nat)
    (hread : ∀ i, i < n → ∃ k v, logKey p (m.ptr i) = some k ∧ logVal p (m.ptr i) = some v) :
    ∃ buf, readEntries p m n = .ok buf ∧ ∀ i, i < n →
      logKey p (m.ptr i) = some (buf i).oneKey ∧ logVal p (m.ptr i) = some (buf i).val := by
  induction n with
  | zero => exact ⟨_, rfl, fun i hi => absurd hi (Nat.not_lt_zero i)⟩
  | succ n ih =>
    obtain ⟨buf, hrun, hbuf⟩ := ih fun i hi => hread i (Nat.lt_succ_of_lt hi)
    obtain ⟨k, v, hk, hv⟩ := hread n (Nat.lt_succ_self n)
    refine ⟨Function.update buf n ⟨k, v⟩, ?_, fun i hi => ?_⟩
    · have hk' : logKey p (m.fingerPrint n).ptrField.toNat = some k := hk
      have hv' : logVal p (m.fingerPrint n).ptrField.toNat = some v := hv
      simp only [readEntries, hrun, ok_bind, hk', hv', deref_some, pure_eq_ok]
    · by_cases hin : i = n
      · subst hin
        simp [hk, hv]
      · rw [Function.update_of_ne hin]
        exact hbuf i (by omega)

/-! ### The whole split -/

/-- The state after a split of `leaf`, which was `m`. -/
def splitState (s : TreeState P) (leaf : Addr) (m : DLeaf) (fingers : Nat → AdaptiveSlot)
    (keys : Nat → NodeEntry) (newLeaf : Addr) (pm : P) : TreeState P :=
  let held := { m with altPtr := s.brk, tempInsert := m.tempInsert + 1 }
  { s with
    pm := pm
    brk := s.brk + 2
    bufHeap := Function.update s.bufHeap s.brk (some keys)
    dleafHeap := Function.update
      (Function.update (Function.update s.dleafHeap leaf (some held)) (s.brk + 1)
        (some (held.rightHalf (s.junkLeaf (s.brk + 1)) fingers keys newLeaf)))
      leaf (some (held.leftHalf fingers keys (s.brk + 1))) }

theorem splitFull_eq_ok {s : TreeState P} {t : Tid} {leaf : Addr}
    {r : Addr × Key × Addr × TreeState P} :
    splitFull s t leaf = .ok r ↔ ∃ m buf keys fingers newLeaf pm pm',
      s.dleafHeap leaf = some m ∧ readEntries s.pm m MAX_LEAF_KEY = .ok buf ∧
      qsort (2 * MAX_LEAF_KEY) 0 (MAX_LEAF_KEY - 1) buf m.fingerBuffer = some (keys, fingers) ∧
      nAllocate s.pm t = some (newLeaf, pm) ∧
      linkPleaf pm m.altPtr newLeaf (keys (LEFT_KEY - 1)).oneKey
        (keys (MAX_LEAF_KEY - 1)).oneKey = .ok pm' ∧
      r = (s.brk + 1, (keys SPLIT_POS).oneKey, m.altPtr,
        splitState s leaf m fingers keys newLeaf pm') := by
  simp only [splitFull, splitLeaf, TreeState.stackBuf, TreeState.mallocLeaf, TreeState.setLeaf,
    bind_eq_ok, deref_eq_ok, bounded_eq_ok, pure_eq_ok, Except.ok.injEq, Prod.exists]
  constructor
  · rintro ⟨m, hm, buf, hbuf, keys, fingers, hsort, leafMeta2, s', ⟨newLeaf, pm, halloc, old, hold,
      pm', hlink, heq⟩, rfl⟩
    rw [Function.update_self, Option.some.injEq] at hold
    subst hold
    simp only [Prod.mk.injEq] at heq
    obtain ⟨rfl, rfl⟩ := heq
    exact ⟨m, buf, keys, fingers, newLeaf, pm, pm', hm, hbuf, hsort, halloc, hlink, rfl⟩
  · rintro ⟨m, buf, keys, fingers, newLeaf, pm, pm', hm, hbuf, hsort, halloc, hlink, rfl⟩
    exact ⟨m, hm, buf, hbuf, keys, fingers, hsort, _, _, ⟨newLeaf, pm, halloc, _,
      Function.update_self .., pm', hlink, rfl⟩, rfl⟩

end ZBTree
