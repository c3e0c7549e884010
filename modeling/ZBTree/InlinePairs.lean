import ZBTree.FindPurity
import ZBTree.LeafLocks

/-!
# The inline pairs and the log

A slot's `control_bit` says where its inline pair is, and the comparison with `max_use`
whether the pair is still there. Insertions write from `max_use` upwards over the pairs
and let `max_use` pass them; a removal takes `max_use` back below a pair that has been
written over. The free of a record is taken to leave the other records alone.
-/

namespace ZBTree

open RangeIndex MultiwayTree Pmem

variable {P : Type} [Pmem P]

/-! ### What agrees -/

/-- The pair that slot `i` refers to says what its record says. -/
def PairRight (p : P) (m : DLeaf) (i : Nat) : Prop :=
  logKey p (m.ptr i) = some (m.fingerPrint (m.control i)).val ∧
    logVal p (m.ptr i) = some (m.fingerPrint (m.control i + 1)).val

/-- The pairs that pass the test of `find`, and with them those that pass the stricter one of
`insert`, are right. -/
def PairsAgree (s : TreeState P) : Prop :=
  ∀ a m i, s.dleafHeap a = some m → i < m.maxUse →
    m.maxUse ≤ m.control i ∨ m.maxUse < m.control i → PairRight s.pm m i

/-- The lookup of `find`, with `ptr_field` followed in every slot. -/
def findByRecord (p : P) (m : DLeaf) (key : Key) : Exec (Option (Nat × Word)) := do
  match ← removeSlot p m key m.maxUse 0 with
  | none => return none
  | some i =>
    let v ← deref (logVal p (m.ptr i))
    return some (i, v)

/-- The duplicate check of `insert`, with `ptr_field` followed in every slot. -/
def duplicateByRecord (p : P) (m : DLeaf) (key : Key) : Exec Bool :=
  Option.isSome <$> removeSlot p m key m.maxUse 0

/-- The lookups that use the inline pairs answer as those that do not. -/
def LookupsAgree (s : TreeState P) : Prop :=
  ∀ a m key, s.dleafHeap a = some m →
    findSlots s.pm m key m.maxUse 0 = findByRecord s.pm m key ∧
      duplicate s.pm m key m.maxUse 0 = duplicateByRecord s.pm m key

variable {p : P} {m : DLeaf} {key : Key}

/-- The two searches from slot `i` on. -/
theorem findSlots_byRecord (hright : ∀ j, j < m.maxUse → m.maxUse ≤ m.control j → PairRight p m j)
    (n i : Nat) (hn : i + n ≤ m.maxUse) : findSlots p m key n i = (do
      match ← removeSlot p m key n i with
      | none => return none
      | some j =>
        let v ← deref (logVal p (m.ptr j))
        return some (j, v)) := by
  induction n generalizing i with
  | zero => rfl
  | succ n ih =>
    have hi : i < m.maxUse := Nat.lt_of_lt_of_le (Nat.lt_add_of_pos_right (Nat.succ_pos n)) hn
    have hrest := ih (i + 1) (by omega)
    rw [findSlots, removeSlot]
    by_cases hhash : (m.fingerPrint i).hashByte = hashfunc key
    · rw [if_pos hhash, if_pos hhash]
      by_cases hpair : m.maxUse ≤ (m.fingerPrint i).controlBit.toNat
      · obtain ⟨hkey, hval⟩ := hright i hi hpair
        have hkey' : logKey p (m.fingerPrint i).ptrField.toNat =
          some (m.fingerPrint (m.fingerPrint i).controlBit.toNat).val := hkey
        rw [if_pos hpair, hkey', deref_some, ok_bind]
        split
        · rw [pure_eq_ok, ok_bind]
          simp only [hval, deref_some, ok_bind, pure_eq_ok]
          rfl
        · exact hrest
      · rw [if_neg hpair]
        cases hk : logKey p (m.fingerPrint i).ptrField.toNat with
        | none => rfl
        | some k =>
          rw [deref_some, ok_bind, ok_bind]
          split
          · rfl
          · exact hrest
    · rw [if_neg hhash, if_neg hhash]
      exact hrest

theorem duplicate_byRecord (hright : ∀ j, j < m.maxUse → m.maxUse ≤ m.control j → PairRight p m j)
    (n i : Nat) (hn : i + n ≤ m.maxUse) :
    duplicate p m key n i = Option.isSome <$> removeSlot p m key n i := by
  induction n generalizing i with
  | zero => rfl
  | succ n ih =>
    have hi : i < m.maxUse := Nat.lt_of_lt_of_le (Nat.lt_add_of_pos_right (Nat.succ_pos n)) hn
    have hrest := ih (i + 1) (by omega)
    rw [duplicate, removeSlot]
    by_cases hhash : (m.fingerPrint i).hashByte = hashfunc key
    · rw [if_pos hhash, if_pos hhash]
      by_cases hpair : m.maxUse < (m.fingerPrint i).controlBit.toNat
      · obtain ⟨hkey, -⟩ := hright i hi hpair.le
        have hkey' : logKey p (m.fingerPrint i).ptrField.toNat =
          some (m.fingerPrint (m.fingerPrint i).controlBit.toNat).val := hkey
        rw [if_pos hpair, hkey', deref_some, ok_bind]
        split
        · rfl
        · exact hrest
      · rw [if_neg hpair]
        cases hk : logKey p (m.fingerPrint i).ptrField.toNat with
        | none => rfl
        | some k =>
          rw [deref_some, ok_bind, ok_bind]
          split
          · rfl
          · exact hrest
    · rw [if_neg hhash, if_neg hhash]
      exact hrest

theorem PairsAgree.lookups {s : TreeState P} (h : PairsAgree s) : LookupsAgree s := by
  intro a m key hm
  have hright : ∀ j, j < m.maxUse → m.maxUse ≤ m.control j → PairRight s.pm m j :=
    fun j hj hc => h a m j hm hj (Or.inl hc)
  exact ⟨findSlots_byRecord hright m.maxUse 0 (Nat.zero_add _).le,
    duplicate_byRecord hright m.maxUse 0 (Nat.zero_add _).le⟩

/-! ### Where the pairs are -/

def PairsInside (s : TreeState P) : Prop :=
  ∀ a m i, s.dleafHeap a = some m → i < m.maxUse → m.control i + 1 < MAX_LEAF_KEY

variable {s s' : TreeState P} {a leaf : Addr} {m' : DLeaf} {t : Tid}

omit [Pmem P] in
theorem PairsInside.setLeaf (h : PairsInside s)
    (hin : ∀ i, i < m'.maxUse → m'.control i + 1 < MAX_LEAF_KEY) : PairsInside (s.setLeaf a m') := by
  intro b n i hn hi
  rcases setLeaf_heap hn with ⟨-, rfl⟩ | ⟨-, hn⟩
  · exact hin i hi
  · exact h b n i hn hi

omit [Pmem P] in
theorem PairsInside.same (h : PairsInside s) (hm : s.dleafHeap a = some m)
    (hsame : ∀ i, i < m'.maxUse → i < m.maxUse ∧ m'.control i = m.control i) :
    PairsInside (s.setLeaf a m') := by
  apply h.setLeaf
  intro i hi
  obtain ⟨hi', hc⟩ := hsame i hi
  rw [hc]
  exact h a m i hm hi'

omit [Pmem P] in
theorem PairsInside.push (h : PairsInside s) (hm : s.dleafHeap a = some m) (addr : Addr) (pm : P) :
    PairsInside (({ s with pm := pm } : TreeState P).setLeaf a (m.push key addr)) := by
  refine PairsInside.setLeaf (s := { s with pm := pm }) h ?_
  intro i hi
  have hslots : (m.push key addr).control i =
      ((Function.update m.fingerPrint m.maxUse (newSlot key addr)) i).controlBit.toNat := rfl
  rw [hslots]
  by_cases hlast : i = m.maxUse
  · subst hlast
    have hzero : (newSlot key addr).controlBit = 0 := rfl
    rw [Function.update_self, hzero]
    decide
  · rw [Function.update_of_ne hlast]
    exact h a m i hm (Nat.lt_of_le_of_ne (Nat.le_of_lt_succ hi) hlast)

omit [Pmem P] in
theorem IsHalf.control_lt {σ : Nat → Nat} {buf : Nat → NodeEntry} {off : Nat} {half : DLeaf}
    (hh : IsHalf m σ buf off half) {i : Nat} (hi : i < half.maxUse) :
    half.control i + 1 < MAX_LEAF_KEY := by
  rw [hh.use] at hi
  obtain ⟨slots, hslots⟩ := hh.slots
  obtain ⟨pos, hinv⟩ := fillHalf_spec off slots (m.fingerBuffer ∘ σ) (buf ∘ σ)
  rw [← hslots] at hinv
  rcases hinv.paired i hi with hzero | ⟨-, hlt, -⟩
  · have hctl : half.control i = 0 := congrArg BitVec.toNat hzero
    rw [hctl]
    decide
  · exact hlt

theorem PairsInside.splitFull {r : Addr × Key × Addr × TreeState P} (h : PairsInside s)
    (hrun : splitFull s t leaf = .ok r) : PairsInside r.2.2.2 := by
  obtain ⟨m, buf, keys, fingers, newLeaf, pm, pm', hm, -, hsort, -, -, rfl⟩ := splitFull_eq_ok.mp hrun
  obtain ⟨σ, hsort', -⟩ := qsort_spec (MAX_LEAF_KEY - 1) (2 * MAX_LEAF_KEY) 0 (MAX_LEAF_KEY - 1) buf
    m.fingerBuffer (Nat.le_refl _) (by decide)
  rw [hsort', Option.some.injEq, Prod.mk.injEq] at hsort
  obtain ⟨rfl, rfl⟩ := hsort
  intro b n i hn hi
  simp only [splitState] at hn
  by_cases hb : b = leaf
  · have hhalf := isHalf_left m { m with altPtr := s.brk, tempInsert := m.tempInsert + 1 } σ buf
      (s.brk + 1)
    rw [hb, Function.update_self, Option.some.injEq] at hn
    rw [hn] at hhalf
    exact hhalf.control_lt hi
  · rw [Function.update_of_ne hb] at hn
    by_cases hb' : b = s.brk + 1
    · rw [hb', Function.update_self, Option.some.injEq] at hn
      have hhalf : IsHalf m σ buf LEFT_KEY n := by
        rw [← hn]
        exact ⟨DLeaf.rightHalf_maxUse .., (s.junkLeaf (s.brk + 1)).fingerPrint,
          by simp only [DLeaf.rightHalf]⟩
      exact hhalf.control_lt hi
    · rw [Function.update_of_ne hb', Function.update_of_ne hb] at hn
      exact h b n i hn hi

theorem PairsInside.insert {n : Nat} {val : Word} {len : BitVec 32} {b : Bool} (h : PairsInside s)
    (hrun : insert n s t key val len = .ok (b, s')) : PairsInside s' := by
  induction n generalizing s with
  | zero => cases hrun
  | succ n ih =>
    have hlock : ∀ {c : Bool} {leaf : Addr} {s₁ : TreeState P}, lockLeaf s key = .ok (c, leaf, s₁) →
        PairsInside s₁ := by
      intro c leaf s₁ hlock
      obtain ⟨path, m, -, hm, ⟨-, -, rfl⟩ | ⟨-, -, rfl⟩⟩ := lockLeaf_cases hlock
      · exact h.same hm fun i hi => ⟨hi, rfl⟩
      · exact h
    cases insertRound hrun with
    | busy leaf s₁ hbusy hrest => exact ih (hlock hbusy) hrest
    | present leaf m hpresent hm hdup hb => exact hlock hpresent
    | fill leaf s₁ m htaken hm hdup hroom hfill hb =>
      obtain ⟨m₁, addr, pm, hm₁, rfl⟩ := fillSlot_eq hfill
      exact (hlock htaken).push hm₁ addr pm
    | split leaf s₁ m leaf2 splitKey insertLeaf s₂ s₃ htaken hm hdup hfull hsplit hinstall hrest =>
      have hcut : PairsInside s₂ := (hlock htaken).splitFull hsplit
      obtain ⟨s₄, m₂, hinner, hm₂, rfl⟩ := installSeparator_eq hinstall
      refine ih ?_ hrest
      have hcut' : PairsInside s₄ := by
        intro b n i hn hi
        rw [hinner.leaves] at hn
        exact hcut b n i hn hi
      have hm₄ : s₄.dleafHeap leaf = some m₂ := by
        rw [hinner.leaves]
        exact hm₂
      exact hcut'.same hm₄ fun i hi => ⟨hi, rfl⟩

/-! ### Removals -/

/-- Dropping slot `i` lets no wrong pair in: another slot whose pair begins in the last slot in use has
its key and its value there all the same. -/
def DropKeepsPairs (p : P) (m : DLeaf) (i : Nat) : Prop :=
  ∀ j, j < m.maxUse → j ≠ i → m.control j = m.maxUse - 1 → PairRight p m j

variable [LawfulPmem P] {tail : Addr} {n i : Nat} {k : Key} {pm : P}

theorem Inv.live (h : Inv Cuts.empty tail s) : Live Cuts.empty tail s where
  skel := h.skel
  twin := h.twin
  located := h.data.located
  once a b m m' i j ha hb hi hj heq := by
    obtain ⟨k, v, hk, -⟩ := (h.data.slots a m ha).read i hi
    have hk' : logKey s.pm (m'.ptr j) = some k := heq ▸ hk
    exact h.data.unique ha hb ⟨hi, hk⟩ ⟨hj, hk'⟩

/-- The pairs agree in a tree that keeps the invariant and whose pairs carry the values of their
records. -/
theorem Inv.pairsAgree (h : Inv Cuts.empty tail s) (hfresh : PairsFresh s) : PairsAgree s := by
  intro a m i hm hi hc
  have hc' : m.maxUse ≤ m.control i := hc.elim id Nat.le_of_lt
  have hslots := h.data.slots a m hm
  obtain ⟨k, v, hk, hv⟩ := hslots.read i hi
  have hkey : HasKey s.pm m k i := ⟨hi, hk⟩
  have hval := h.data.contains_unique (hfresh a m hm i k hkey hc') ⟨a, m, hm, i, hkey, hv⟩
  refine ⟨?_, ?_⟩
  · rw [(hslots.pair i k hkey hc').2]
    exact hk
  · rw [hval]
    exact hv

theorem Live.inv (h : Live Cuts.empty tail s) (hok : LawfulPmem.Ok n s.pm) (hagree : PairsAgree s)
    (hin : PairsInside s)
    (hhash : ∀ a m i k, s.dleafHeap a = some m → HasKey s.pm m k i →
      (m.fingerPrint i).hashByte = hashfunc k)
    (hdistinct : ∀ a m i j k, s.dleafHeap a = some m → HasKey s.pm m k i → HasKey s.pm m k j → i = j) :
    Inv Cuts.empty tail s ∧ PairsFresh s := by
  refine ⟨⟨h.skel, ⟨h.located.sorted, ?_, h.located.recs, h.located.range, ?_⟩, h.twin⟩, ?_⟩
  · intro a m hm
    refine ⟨fun i hi => h.read hok hm hi, fun i k hi => hhash a m i k hm hi,
      fun i j k hi hj => hdistinct a m i j k hm hi hj, ?_⟩
    intro i k hi hc
    have hread := (hagree a m i hm hi.1 (Or.inl hc)).1
    rw [hi.2, Option.some.injEq] at hread
    exact ⟨hin a m i hm hi.1, hread.symm⟩
  · intro a c m mr hc
    cases hc
  · intro a m hm i k hi hc
    exact ⟨a, m, hm, i, hi, (hagree a m i hm hi.1 (Or.inl hc)).2⟩

omit [Pmem P] [LawfulPmem P] in
theorem DLeaf.dropSlot_above (m : DLeaf) {i c : Nat} (hi : i < m.maxUse) (hc : m.maxUse - 1 ≤ c) :
    (m.dropSlot i).fingerPrint c = m.fingerPrint c := by
  unfold dropSlot
  by_cases hlast : i = m.maxUse - 1
  · simp only [if_pos hlast]
  · have hne : c ≠ i := by omega
    simp only [if_neg hlast, Function.update_of_ne hne]

omit [Pmem P] [LawfulPmem P] in
theorem DLeaf.dropSlot_control (m : DLeaf) (i : Nat) {j : Nat} (hj : j < m.maxUse - 1) :
    (m.dropSlot i).control j = m.control (m.moved i j) :=
  congrArg (fun slot => slot.controlBit.toNat) (m.dropSlot_print i hj)

section Drop

variable {emptied : Prop} [Decidable emptied] {pl : Addr}

theorem Live.pairRight_drop (h : Live Cuts.empty tail s) (hm : s.dleafHeap a = some m)
    (hi : i < m.maxUse) (hrem : Removed emptied n s.pm (m.ptr i) pl pm) {j : Nat}
    (hj : j < m.maxUse - 1) (hc : m.maxUse - 1 ≤ m.control (m.moved i j)) :
    PairRight pm (m.dropSlot i) j ↔ PairRight s.pm m (m.moved i j) := by
  have hlt := DLeaf.moved_lt (i := i) hj
  have hne : m.ptr (m.moved i j) ≠ m.ptr i := fun heq =>
    DLeaf.moved_ne hj (h.once a a m m _ i hm hm hlt hi heq).2
  obtain ⟨hk, hv⟩ := hrem.same_recs _ ⟨h.located.recs a m _ hm hlt, hne⟩
  unfold PairRight
  rw [m.dropSlot_ptr i hj, m.dropSlot_control i hj, m.dropSlot_above hi hc,
    m.dropSlot_above hi (hc.trans (Nat.le_succ _)), hk, hv]

/-- A removal keeps the invariant and the pairs exactly if it lets no wrong pair in. -/
theorem Inv.drop (h : Inv Cuts.empty tail s) (hfresh : PairsFresh s) (hin : PairsInside s)
    (hm : s.dleafHeap a = some m) (hi : i < m.maxUse) (hfree : m.tempInsert = 0)
    (hrem : Removed emptied n s.pm (m.ptr i) pl pm) (hkeeps : DropKeepsPairs s.pm m i) :
    Inv Cuts.empty tail (({ s with pm := pm } : TreeState P).setLeaf a (m.dropSlot i)) ∧
      PairsFresh (({ s with pm := pm } : TreeState P).setLeaf a (m.dropSlot i)) := by
  have hlive := h.live
  have hlive' := hlive.drop hm hi rfl hfree hrem
  have huse : (m.dropSlot i).maxUse = m.maxUse - 1 := rfl
  refine hlive'.inv hrem.room ?_ ?_ ?_ ?_
  · intro b n' j hn hj hc
    rcases dropState_heap hn with ⟨rfl, rfl⟩ | ⟨hb, hn⟩
    · rw [huse] at hj hc
      have hc' : m.maxUse - 1 ≤ m.control (m.moved i j) := by
        rw [← m.dropSlot_control i hj]
        exact hc.elim id Nat.le_of_lt
      refine (hlive.pairRight_drop hm hi hrem hj hc').mpr ?_
      rcases Nat.lt_or_eq_of_le hc' with hlt | heq
      · exact h.pairsAgree hfresh b m _ hm (DLeaf.moved_lt hj) (Or.inl (Nat.le_of_pred_lt hlt))
      · exact hkeeps _ (DLeaf.moved_lt hj) (DLeaf.moved_ne hj) heq.symm
    · obtain ⟨hk, hv⟩ := hlive.drop_same hm hi hrem hb hn j hj
      obtain ⟨hkey, hval⟩ := h.pairsAgree hfresh b n' j hn hj hc
      exact ⟨hk.trans hkey, hv.trans hval⟩
  · refine PairsInside.setLeaf (s := { s with pm := pm }) hin ?_
    intro j hj
    rw [m.dropSlot_control i hj]
    exact hin a m _ hm (DLeaf.moved_lt hj)
  · intro b n' j k hn hj
    rcases dropState_heap hn with ⟨rfl, rfl⟩ | ⟨hb, hn⟩
    · obtain ⟨hlt, hk⟩ := (hlive.drop_hasKey hm hi hrem).mp hj
      rw [m.dropSlot_print i hlt]
      exact (h.data.slots b m hm).hash _ k hk
    · exact (h.data.slots b n' hn).hash j k ((hasKey_congr (hlive.drop_same hm hi hrem hb hn)).mp hj)
  · intro b n' j j' k hn hj hj'
    rcases dropState_heap hn with ⟨rfl, rfl⟩ | ⟨hb, hn⟩
    · obtain ⟨hlt, hk⟩ := (hlive.drop_hasKey hm hi hrem).mp hj
      obtain ⟨hlt', hk'⟩ := (hlive.drop_hasKey hm hi hrem).mp hj'
      exact DLeaf.moved_inj hlt hlt' ((h.data.slots b m hm).distinct _ _ k hk hk')
    · have hsame := hlive.drop_same hm hi hrem hb hn
      exact (h.data.slots b n' hn).distinct j j' k ((hasKey_congr hsame).mp hj) ((hasKey_congr hsame).mp hj')

end Drop

/-! ### Runs -/

/-- What every run keeps whose removals let no wrong pair in. -/
structure PairInv (n : Nat) (tail : Addr) (s : TreeState P) : Prop where
  inv : Inv Cuts.empty tail s
  room : LawfulPmem.Ok n s.pm
  fresh : PairsFresh s
  inside : PairsInside s

theorem PairInv.init {pm : P} {junkInner : Addr → InnerNode} {junkLeaf : Addr → DLeaf}
    (hok : LawfulPmem.Ok (n + 1) pm) (hrun : init pm t junkInner junkLeaf = .ok s) :
    PairInv n (junkLeaf 1).next s := by
  obtain ⟨s', hrun', hinv, hroom, -, hfresh, -⟩ := init_spec hok t junkInner junkLeaf
  obtain rfl : s' = s := Except.ok.inj (hrun'.symm.trans hrun)
  refine ⟨hinv, hroom, hfresh, ?_⟩
  obtain ⟨q, -, -, pm₂, -, -, -, rfl⟩ := init_eq_ok.mp hrun
  intro a m i hm hi
  obtain ⟨-, rfl⟩ := freshTree_leaf.mp hm
  exact absurd hi (Nat.not_lt_zero i)

theorem PairInv.insert {val : Word} {len : BitVec 32} {fuel : Nat} {b : Bool}
    (h : PairInv (n + 2) tail s) (hrun : insert fuel s t key val len = .ok (b, s')) :
    PairInv n tail s' := by
  have hinside := h.inside.insert hrun
  rcases insert_returns h.inv h.room hrun with ⟨-, -, hdone⟩ | ⟨-, -, L, m, hm, -, rfl⟩
  · exact ⟨hdone.inv, hdone.room, hdone.grows.fresh h.fresh, hinside⟩
  · have hview : SameView m { m with tempInsert := 1 } := SameView.of_slots rfl rfl
    exact ⟨h.inv.lock hm rfl, LawfulPmem.ok_mono (Nat.le_add_right n 2) h.room,
      (Grows.setLeaf hm hview).fresh h.fresh, hinside⟩

theorem PairInv.find {v : Word} (h : PairInv n tail s) (hrun : find s key = .ok (v, s')) :
    PairInv n tail s' := by
  by_cases hlevel : s.tempLevel = 0
  · rw [find_low hlevel hrun]
    exact h
  · rcases present_or_absent s key with ⟨a, m, i, hm, hi⟩ | habsent
    · obtain ⟨w, -, hrun'⟩ := find_hit h.inv (Nat.pos_of_ne_zero hlevel) hm hi
      rw [hrun', Except.ok.injEq, Prod.mk.injEq] at hrun
      obtain ⟨-, rfl⟩ := hrun
      have hview := sameView_touch m hi.1
      refine ⟨h.inv.touch hm hi.1, h.room, (Grows.setLeaf hm hview).fresh h.fresh,
        h.inside.same hm fun j hj => ?_⟩
      rw [hview.use] at hj
      exact ⟨hj, congrArg BitVec.toNat (hview.slot j hj).2.1⟩
    · rw [find_miss h.inv (Nat.pos_of_ne_zero hlevel) habsent, Except.ok.injEq, Prod.mk.injEq] at hrun
      obtain ⟨-, rfl⟩ := hrun
      exact h

/-- A removal that is asked to let no wrong pair in. -/
def PublicOp.KeepsPairs (s : TreeState P) : PublicOp → Prop
  | remove key => ∀ path leaf m i, findInsert s key = .ok (path, leaf) → s.dleafHeap leaf = some m →
      removeSlot s.pm m key m.maxUse 0 = .ok (some i) → DropKeepsPairs s.pm m i
  | _ => True

/-- What a removal that returns has done: nothing, or it has dropped a slot. -/
theorem PairInv.remove_cases {fuel : Nat} {b : Bool}
    (hfrees : ∀ p t a p', a ∈ LawfulPmem.recs p → freeRecord p t a = some p' →
      FreesOnly (P := P) p a p')
    (h : PairInv n tail s) (hrun : simplyRemove fuel s t key = .ok (b, s')) :
    (s' = s ∧ ∀ path leaf m, findInsert s key = .ok (path, leaf) → s.dleafHeap leaf = some m →
        removeSlot s.pm m key m.maxUse 0 = .ok none) ∨
      ∃ path leaf m i pm, findInsert s key = .ok (path, leaf) ∧ s.dleafHeap leaf = some m ∧
      m.tempInsert = 0 ∧ removeSlot s.pm m key m.maxUse 0 = .ok (some i) ∧ i < m.maxUse ∧
      Removed (m.maxUse - 1 = 0) n s.pm (m.ptr i) m.altPtr pm ∧
      s' = ({ s with pm := pm } : TreeState P).setLeaf leaf (m.dropSlot i) := by
  obtain ⟨path, leaf, m, hfind, -, hroute, hm⟩ := h.inv.reaches key
  by_cases hfree : m.tempInsert = 0
  · cases fuel with
    | zero => cases hrun
    | succ fuel =>
      rcases simplyRemove_cases hfind hm hrun hfree with ⟨-, hnone, rfl⟩ |
        ⟨-, i, pm₁, pm₂, hfound, hfreed, hlast, rfl⟩
      · left
        constructor
        · unfold TreeState.setLeaf
          rw [← hm, Function.update_eq_self]
        · intro path' leaf' m' hfind' hm'
          rw [hfind, Except.ok.injEq, Prod.mk.injEq] at hfind'
          obtain ⟨-, rfl⟩ := hfind'
          rw [hm, Option.some.injEq] at hm'
          exact hm' ▸ hnone
      · right
        obtain ⟨-, hi, -⟩ := removeSlot_eq_some hfound
        rw [Nat.zero_add] at hi
        have hpl : m.altPtr ∈ LawfulPmem.leaves s.pm := by
          have hmem := h.inv.twin.mem leaf (mem_leaves_of_index hroute.mem)
          rwa [TreeState.pleafOf, Cuts.empty, TreeState.altOf_some hm] at hmem
        have honly := hfrees _ _ _ _ (h.inv.data.recs leaf m i hm hi) hfreed
        exact ⟨path, leaf, m, i, pm₂, hfind, hm, hfree, hfound, hi, honly.removed h.room hpl hlast, rfl⟩
  · rw [simplyRemove_held hfind hm hfree] at hrun
    cases hrun

theorem PairInv.remove {fuel : Nat} {b : Bool}
    (hfrees : ∀ p t a p', a ∈ LawfulPmem.recs p → freeRecord p t a = some p' →
      FreesOnly (P := P) p a p')
    (h : PairInv n tail s) (hrun : simplyRemove fuel s t key = .ok (b, s'))
    (hkeeps : (PublicOp.remove key).KeepsPairs s) : PairInv n tail s' := by
  rcases h.remove_cases hfrees hrun with ⟨rfl, -⟩ | ⟨path, leaf, m, i, pm, hfind, hm, hfree, hfound, hi,
    hrem, rfl⟩
  · exact h
  · obtain ⟨hinv, hfresh⟩ := h.inv.drop h.fresh h.inside hm hi hfree hrem
      (hkeeps path leaf m i hfind hm hfound)
    refine ⟨hinv, hrem.room, hfresh, PairsInside.setLeaf (s := { s with pm := pm }) h.inside ?_⟩
    intro j hj
    rw [m.dropSlot_control i hj]
    exact h.inside leaf m _ hm (DLeaf.moved_lt hj)

/-- After a removal that lets a wrong pair in, the pairs do not agree. -/
theorem PairInv.remove_keeps {fuel : Nat} {b : Bool}
    (hfrees : ∀ p t a p', a ∈ LawfulPmem.recs p → freeRecord p t a = some p' →
      FreesOnly (P := P) p a p')
    (h : PairInv n tail s) (hrun : simplyRemove fuel s t key = .ok (b, s')) (hagree : PairsAgree s') :
    (PublicOp.remove key).KeepsPairs s := by
  intro path leaf m i hfind hm hfound j hj hne hc
  rcases h.remove_cases hfrees hrun with ⟨-, hnone⟩ | ⟨path', leaf', m', i', pm, hfind', hm', hfree,
    hfound', hi, hrem, rfl⟩
  · rw [hnone path leaf m hfind hm] at hfound
    cases hfound
  · rw [hfind, Except.ok.injEq, Prod.mk.injEq] at hfind'
    obtain ⟨-, rfl⟩ := hfind'
    rw [hm, Option.some.injEq] at hm'
    subst hm'
    rw [hfound, Except.ok.injEq, Option.some.injEq] at hfound'
    subst hfound'
    obtain ⟨j', hj', rfl⟩ := DLeaf.exists_moved hj hi hne
    have hctl := m.dropSlot_control i hj'
    refine (h.inv.live.pairRight_drop hm hi hrem hj' hc.ge).mp ?_
    refine hagree leaf _ j' (Function.update_self ..) hj' (Or.inl ?_)
    rw [hctl, hc]
    exact Nat.le_refl _

/-- The operations that the statements are about. -/
def PublicOp.Plain : PublicOp → Prop
  | update _ _ => False
  | scan _ _ => False
  | _ => True

instance : DecidablePred PublicOp.Plain
  | .insert .. => isTrue trivial
  | .find .. => isTrue trivial
  | .remove .. => isTrue trivial
  | .update .. => isFalse id
  | .scan .. => isFalse id

/-- Every removal of the run that returns lets no wrong pair in. -/
def RemovalsKeepPairs (t : Tid) : TreeState P → List PublicOp → Prop
  | _, [] => True
  | s, op :: rest => ∀ n s', op.exec n t s = .ok s' → op.KeepsPairs s ∧ RemovalsKeepPairs t s' rest

section Run

variable (hfrees : ∀ p t a p', a ∈ LawfulPmem.recs p → freeRecord p t a = some p' →
  FreesOnly (P := P) p a p')

include hfrees in
theorem PairInv.exec {op : PublicOp} {fuel : Nat} (h : PairInv (n + 2) tail s) (hplain : op.Plain)
    (hrun : op.exec fuel t s = .ok s') (hkeeps : op.KeepsPairs s) : PairInv n tail s' := by
  have hless : PairInv n tail s :=
    ⟨h.inv, LawfulPmem.ok_mono (Nat.le_add_right n 2) h.room, h.fresh, h.inside⟩
  cases op with
  | insert key val valueLen =>
    obtain ⟨b, hrun⟩ := map_snd_eq_ok.mp hrun
    exact h.insert hrun
  | find key =>
    obtain ⟨v, hrun⟩ := map_snd_eq_ok.mp hrun
    exact hless.find hrun
  | update key val => exact absurd hplain not_false
  | scan startKey scanCount => exact absurd hplain not_false
  | remove key =>
    obtain ⟨b, hrun⟩ := map_snd_eq_ok.mp hrun
    exact hless.remove hfrees hrun hkeeps

include hfrees in
theorem PairInv.exec_keeps {op : PublicOp} {fuel : Nat} (h : PairInv n tail s)
    (hrun : op.exec fuel t s = .ok s') (hagree : PairsAgree s') : op.KeepsPairs s := by
  cases op with
  | remove key =>
    obtain ⟨b, hrun⟩ := map_snd_eq_ok.mp hrun
    exact h.remove_keeps hfrees hrun hagree
  | insert key val valueLen => trivial
  | find key => trivial
  | update key val => trivial
  | scan startKey scanCount => trivial

include hfrees in
/-- The runs from a tree whose pairs are right. -/
theorem PairInv.agree_iff {ops : List PublicOp} (h : PairInv (2 * ops.length + n) tail s)
    (hplain : ∀ op ∈ ops, op.Plain) :
    (∀ done rest s', ops = done ++ rest → Completes t s done s' → PairsAgree s' ∧ LookupsAgree s') ↔
      RemovalsKeepPairs t s ops := by
  induction ops generalizing s with
  | nil =>
    refine ⟨fun _ => trivial, ?_⟩
    rintro - done rest s' hsplit hdone
    obtain ⟨rfl, rfl⟩ := List.append_eq_nil_iff.mp hsplit.symm
    obtain rfl : s' = s := hdone
    have hagree := h.inv.pairsAgree h.fresh
    exact ⟨hagree, hagree.lookups⟩
  | cons op ops ih =>
    have hroom : PairInv (2 * ops.length + n + 2) tail s := by
      refine ⟨h.inv, LawfulPmem.ok_mono ?_ h.room, h.fresh, h.inside⟩
      rw [List.length_cons]
      omega
    have hplain' : ∀ op' ∈ ops, op'.Plain := fun op' hop => hplain op' (List.mem_cons_of_mem op hop)
    have hop : op.Plain := hplain op List.mem_cons_self
    constructor
    · intro hall fuel s₁ hrun
      have hagree := (hall [op] ops s₁ rfl ⟨fuel, s₁, hrun, rfl⟩).1
      have hkeeps := h.exec_keeps hfrees hrun hagree
      refine ⟨hkeeps, (ih (hroom.exec hfrees hop hrun hkeeps) hplain').mp ?_⟩
      rintro done rest s' rfl hdone
      exact hall (op :: done) rest s' rfl ⟨fuel, s₁, hrun, hdone⟩
    · intro hkeeps done rest s' hsplit hdone
      cases done with
      | nil =>
        obtain rfl : s' = s := hdone
        have hagree := h.inv.pairsAgree h.fresh
        exact ⟨hagree, hagree.lookups⟩
      | cons op' done =>
        rw [List.cons_append, List.cons.injEq] at hsplit
        obtain ⟨rfl, rfl⟩ := hsplit
        obtain ⟨fuel, s₁, hrun, hdone⟩ := hdone
        obtain ⟨hkeep, hrest⟩ := hkeeps fuel s₁ hrun
        exact (ih (hroom.exec hfrees hop hrun hkeep) hplain').mpr hrest done rest s' rfl hdone

include hfrees in
/-- The inline pairs and the lookups through them agree with the log after every call of a run exactly
when each removal that returns lets no wrong pair in. -/
theorem pairs_agree_iff (pm : P) (t : Tid) (junkInner : Addr → InnerNode) (junkLeaf : Addr → DLeaf)
    (ops : List PublicOp) (hplain : ∀ op ∈ ops, op.Plain)
    (hroom : LawfulPmem.Ok (2 * ops.length + 1) pm) (s₀ : TreeState P)
    (hinit : init pm t junkInner junkLeaf = .ok s₀) :
    (∀ done rest s, ops = done ++ rest → Completes t s₀ done s → PairsAgree s ∧ LookupsAgree s) ↔
      RemovalsKeepPairs t s₀ ops :=
  (PairInv.init (n := 2 * ops.length + 0) hroom hinit).agree_iff hfrees hplain

end Run

/-! ### The condition, evaluated

A call that returns after some rounds returns the same after more, so that any number of rounds will do. -/

section Rounds

omit [LawfulPmem P]

theorem insert_more {rounds : Nat} {val : Word} {len : BitVec 32} {r : Bool × TreeState P}
    (h : ZBTree.insert rounds s t key val len = .ok r) (more : Nat) :
    ZBTree.insert (rounds + more) s t key val len = .ok r := by
  induction rounds generalizing s with
  | zero => cases h
  | succ rounds ih =>
    rw [Nat.succ_add]
    rw [ZBTree.insert] at h ⊢
    obtain ⟨⟨lockState, leaf, s₁⟩, hlock, h⟩ := bind_eq_ok.mp h
    rw [hlock, ok_bind]
    cases lockState with
    | false => exact ih h
    | true =>
      obtain ⟨m, hm, h⟩ := bind_eq_ok.mp h
      simp only [Bool.not_true, Bool.false_eq_true, if_false]
      rw [hm, ok_bind]
      obtain ⟨dup, hdup, h⟩ := bind_eq_ok.mp h
      rw [hdup, ok_bind]
      split at h
      · next hpresent => rw [if_pos hpresent, h]
      · next habsent =>
        rw [if_neg habsent]
        split at h
        · next hroom => rw [if_pos hroom, h]
        · next hfull =>
          rw [if_neg hfull]
          obtain ⟨⟨leaf2, splitKey, insertLeaf, s₂⟩, hsplit, h⟩ := bind_eq_ok.mp h
          obtain ⟨s₃, hinstall, h⟩ := bind_eq_ok.mp h
          rw [hsplit, ok_bind]
          dsimp only
          rw [hinstall, ok_bind]
          exact ih h

theorem simplyRemove_more {rounds : Nat} {r : Bool × TreeState P} (h : simplyRemove rounds s t key = .ok r)
    (more : Nat) : simplyRemove (rounds + more) s t key = .ok r := by
  induction rounds generalizing s with
  | zero => cases h
  | succ rounds ih =>
    rw [Nat.succ_add]
    rw [simplyRemove] at h ⊢
    obtain ⟨⟨lockState, leaf, s₁⟩, hlock, h⟩ := bind_eq_ok.mp h
    rw [hlock, ok_bind]
    cases lockState with
    | false => exact ih h
    | true => exact h

theorem PublicOp.exec_more {op : PublicOp} {rounds : Nat} (hplain : op.Plain)
    (h : op.exec rounds t s = .ok s') (more : Nat) : op.exec (rounds + more) t s = .ok s' := by
  cases op with
  | insert key val len =>
    obtain ⟨b, hrun⟩ := map_snd_eq_ok.mp h
    exact map_snd_eq_ok.mpr ⟨b, insert_more hrun more⟩
  | remove key =>
    obtain ⟨b, hrun⟩ := map_snd_eq_ok.mp h
    exact map_snd_eq_ok.mpr ⟨b, simplyRemove_more hrun more⟩
  | find key => exact h
  | update key val => exact hplain.elim
  | scan startKey scanCount => exact hplain.elim

theorem PublicOp.exec_unique {op : PublicOp} {rounds rounds' : Nat} {s'' : TreeState P} (hplain : op.Plain)
    (h : op.exec rounds t s = .ok s') (h' : op.exec rounds' t s = .ok s'') : s' = s'' := by
  have hmore := exec_more hplain h rounds'
  rw [Nat.add_comm, exec_more hplain h' rounds] at hmore
  exact (Except.ok.inj hmore).symm

instance (p : P) (m : DLeaf) (i : Nat) : Decidable (PairRight p m i) := inferInstanceAs (Decidable (_ ∧ _))

instance (p : P) (m : DLeaf) (i : Nat) : Decidable (DropKeepsPairs p m i) :=
  inferInstanceAs (Decidable (∀ j, j < m.maxUse → j ≠ i → m.control j = m.maxUse - 1 → PairRight p m j))

def PublicOp.keepsPairs (s : TreeState P) : PublicOp → Bool
  | remove key => match findInsert s key with
    | .error _ => true
    | .ok (_, leaf) => match s.dleafHeap leaf with
      | none => true
      | some m => match removeSlot s.pm m key m.maxUse 0 with
        | .ok (some i) => decide (DropKeepsPairs s.pm m i)
        | _ => true
  | _ => true

theorem PublicOp.keepsPairs_sound {op : PublicOp} (h : op.keepsPairs s = true) : op.KeepsPairs s := by
  cases op with
  | remove key =>
    intro path leaf m i hfind hm hfound
    simp only [keepsPairs, hfind, hm, hfound] at h
    exact of_decide_eq_true h
  | insert key val len => trivial
  | find key => trivial
  | update key val => trivial
  | scan startKey scanCount => trivial

def removalsKeepPairs (rounds : Nat) (t : Tid) : TreeState P → List PublicOp → Bool
  | _, [] => true
  | s, op :: rest => op.keepsPairs s && match op.exec rounds t s with
    | .error _ => false
    | .ok s' => removalsKeepPairs rounds t s' rest

theorem removalsKeepPairs_sound {rounds : Nat} {ops : List PublicOp} (hplain : ∀ op ∈ ops, op.Plain)
    (h : removalsKeepPairs rounds t s ops = true) : RemovalsKeepPairs t s ops := by
  induction ops generalizing s with
  | nil => trivial
  | cons op ops ih =>
    obtain ⟨hop, hrest⟩ := Bool.and_eq_true_iff.mp h
    intro rounds' s' hrun
    refine ⟨op.keepsPairs_sound hop, ih (fun op' hop' => hplain op' (List.mem_cons_of_mem op hop')) ?_⟩
    cases hexec : op.exec rounds t s with
    | error e =>
      rw [hexec] at hrest
      cases hrest
    | ok s₁ =>
      rw [hexec] at hrest
      rw [op.exec_unique (hplain op List.mem_cons_self) hrun hexec]
      exact hrest

end Rounds

/-- 33 insertions, which split the root leaf into halves with seven pairs each, and a removal from each
half; no pair begins in the last slot in use. -/
def pairedOps : List PublicOp :=
  (List.range' 1 33).map (fun k => .insert (BitVec.ofNat 64 k) 7 8) ++ [.find 20, .remove 20, .find 21, .remove 5]

theorem pairs_agree_iff_paired : ∃ s₀ : TreeState IdealPm,
    init (IdealPm.roomy 100) 0 zeroInner zeroLeaf = .ok s₀ ∧
      ∀ done rest s, pairedOps = done ++ rest → Completes 0 s₀ done s → PairsAgree s ∧ LookupsAgree s := by
  have hkeeps : (init (IdealPm.roomy 100) 0 zeroInner zeroLeaf).toOption.map
      (fun s₀ => removalsKeepPairs 2 0 s₀ pairedOps) = some true := by
    decide +kernel
  obtain ⟨s₀, hinit, hkeeps⟩ := exec_of_map hkeeps
  have hplain : ∀ op ∈ pairedOps, op.Plain := by
    decide
  exact ⟨s₀, hinit, (pairs_agree_iff (fun _ _ _ _ _ => IdealPm.freesOnly) (IdealPm.roomy 100) 0 zeroInner
    zeroLeaf pairedOps hplain (IdealPm.roomy_lawful (by decide) (by decide)) s₀ hinit).mpr
    (removalsKeepPairs_sound hplain hkeeps)⟩

/-- The calls one after another, with `n` rounds each. -/
def publicRun (n : Nat) (t : Tid) : TreeState P → List PublicOp → Exec (TreeState P)
  | s, [] => .ok s
  | s, op :: rest => do
    let s ← op.exec n t s
    publicRun n t s rest

omit [LawfulPmem P] in
theorem completes_of_run {n : Nat} {ops : List PublicOp} (h : publicRun n t s ops = .ok s') :
    Completes t s ops s' := by
  induction ops generalizing s with
  | nil =>
    cases h
    rfl
  | cons op rest ih =>
    rw [publicRun, bind_eq_ok] at h
    obtain ⟨s₁, hop, h⟩ := h
    exact ⟨n, s₁, hop, ih h⟩

def shrunkOps : List PublicOp :=
  (List.range' 1 32).map (fun k => .insert (BitVec.ofNat 64 k) 7 8) ++ [.remove 32]

/-- The pair of key 22 is written over by the slot of key 32; when 32 is removed the pair passes the
test again, and 22 is not found. -/
theorem stale_pair_read : ∃ s₀ s : TreeState IdealPm,
    init (IdealPm.roomy 100) 0 zeroInner zeroLeaf = .ok s₀ ∧ Completes 0 s₀ shrunkOps s ∧
      s.tempLevel = 1 ∧ s.Contains 22 7 ∧ (∃ s', find s 22 = .ok (0, s')) ∧ ¬ PairsAgree s := by
  have hfacts : (init (IdealPm.roomy 100) 0 zeroInner zeroLeaf >>= fun s₀ =>
      publicRun 2 0 s₀ shrunkOps).toOption.map (fun s =>
        (s.tempLevel, (find s 22).toOption.map Prod.fst, (findInsert s 22).toOption.map fun r =>
          (s.dleafHeap r.2).map fun m => decide (6 < m.maxUse ∧ m.maxUse ≤ m.control 6 ∧
            logKey s.pm (m.ptr 6) = some 22 ∧ logVal s.pm (m.ptr 6) = some 7 ∧
            (m.fingerPrint (m.control 6)).val ≠ 22))) = some (1, some 0, some (some true)) := by
    decide +kernel
  obtain ⟨s, hboth, hview⟩ := exec_of_map hfacts
  obtain ⟨s₀, hinit, hrun⟩ := bind_eq_ok.mp hboth
  simp only [Prod.mk.injEq] at hview
  obtain ⟨hlevel, hfound, hslot⟩ := hview
  obtain ⟨⟨w, s'⟩, hfind, rfl⟩ := exec_of_map hfound
  obtain ⟨⟨path, leaf⟩, -, hleaf⟩ := exec_of_map hslot
  obtain ⟨m, hm, hm'⟩ := Option.map_eq_some_iff.mp hleaf
  obtain ⟨hlt, hpair, hkey, hval, hne⟩ := of_decide_eq_true hm'
  refine ⟨s₀, s, hinit, completes_of_run hrun, hlevel, ⟨leaf, m, hm, 6, ⟨hlt, hkey⟩, hval⟩, ⟨s', hfind⟩,
    fun hagree => ?_⟩
  have hread := (hagree leaf m 6 hm hlt (Or.inl hpair)).1
  rw [hkey, Option.some.injEq] at hread
  exact hne hread.symm

end ZBTree
