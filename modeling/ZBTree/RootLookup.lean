import ZBTree.LiveKeys
import ZBTree.PmemRuns

/-!
# Lookups in a tree without inner nodes

As long as the tree is one leaf, `find` looks at all slots of that leaf, also at those that are not
in use. What stands in them is what insertions and removals have left there: the zero byte in a slot
that was never used, the fingerprint of the last key in one that was. The contents are followed here
through a run of insertions and removals, and with them the keys for which `find` keeps to the slots
in use.
-/

namespace ZBTree

open Pmem LawfulPmem

variable {P : Type} [Pmem P]

/-! ### The slots that find follows -/

/-- `findRoot`, with the slots whose `ptr_field` it follows. -/
def findRootLog (p : P) (m : DLeaf) (key : Key) : Nat → Nat → List Nat × Exec Word
  | 0, _ => ([], .ok 0)
  | n + 1, i =>
    if (m.fingerPrint i).hashByte = hashfunc key then
      match logKey p (m.fingerPrint i).ptrField.toNat with
      | none => ([i], .error .segv)
      | some k =>
        if k = key then ([i], deref (logVal p (m.fingerPrint i).ptrField.toNat))
        else
          let (followed, result) := findRootLog p m key n (i + 1)
          (i :: followed, result)
    else findRootLog p m key n (i + 1)

section Visits

variable {p : P} {m : DLeaf} {k : Key} {n i j : Nat}

theorem findRootLog_result : (findRootLog p m k n i).2 = findRoot p m k n i := by
  induction n generalizing i with
  | zero => rfl
  | succ n ih =>
    rw [findRootLog, findRoot]
    split_ifs with hhash
    · cases hkey : logKey p (m.fingerPrint i).ptrField.toNat with
      | none => rfl
      | some k' =>
        simp only [deref_some, ok_bind]
        split_ifs with heq
        · rfl
        · exact ih
    · exact ih

/-- Only slots with the fingerprint of the key are followed. -/
theorem hash_of_followed (hj : j ∈ (findRootLog p m k n i).1) :
    j < i + n ∧ (m.fingerPrint j).hashByte = hashfunc k := by
  induction n generalizing i with
  | zero => exact absurd hj List.not_mem_nil
  | succ n ih =>
    have hrest : j ∈ (findRootLog p m k n (i + 1)).1 → j < i + (n + 1) ∧
        (m.fingerPrint j).hashByte = hashfunc k := by
      intro hj
      obtain ⟨hlt, hhash⟩ := ih hj
      exact ⟨by omega, hhash⟩
    rw [findRootLog] at hj
    by_cases hhash : (m.fingerPrint i).hashByte = hashfunc k
    · have hhere : j = i → j < i + (n + 1) ∧ (m.fingerPrint j).hashByte = hashfunc k := by
        rintro rfl
        exact ⟨by omega, hhash⟩
      rw [if_pos hhash] at hj
      split at hj
      · exact hhere (List.mem_singleton.mp hj)
      · split at hj
        · exact hhere (List.mem_singleton.mp hj)
        · exact (List.mem_cons.mp hj).elim hhere hrest
    · rw [if_neg hhash] at hj
      exact hrest hj

/-- Nothing behind the slot of the key is followed. -/
theorem followed_le (hhash : (m.fingerPrint j).hashByte = hashfunc k)
    (hkey : logKey p (m.ptr j) = some k) (hij : i ≤ j) (hjn : j < i + n) {x : Nat}
    (hx : x ∈ (findRootLog p m k n i).1) : x ≤ j := by
  induction n generalizing i with
  | zero => exact absurd hx List.not_mem_nil
  | succ n ih =>
    rw [findRootLog] at hx
    by_cases heq : i = j
    · subst heq
      have hread : logKey p (m.fingerPrint i).ptrField.toNat = some k := hkey
      rw [if_pos hhash, hread] at hx
      simp only [if_true, List.mem_singleton] at hx
      exact Nat.le_of_eq hx
    · have hrest : x ∈ (findRootLog p m k n (i + 1)).1 → x ≤ j := ih (by omega) (by omega)
      have hhere : x = i → x ≤ j := fun hxi => hxi ▸ hij
      split at hx
      · split at hx
        · exact hhere (List.mem_singleton.mp hx)
        · split at hx
          · exact hhere (List.mem_singleton.mp hx)
          · exact (List.mem_cons.mp hx).elim hhere hrest
      · exact hrest hx

/-- A slot with the fingerprint of the key is followed, unless the search ends before it. -/
theorem followed_of_hash (hhash : (m.fingerPrint j).hashByte = hashfunc k) (hij : i ≤ j)
    (hjn : j < i + n) : ∃ x ∈ (findRootLog p m k n i).1, x = j ∨
      logKey p (m.ptr x) = none ∨ logKey p (m.ptr x) = some k := by
  induction n generalizing i with
  | zero => exact absurd hjn (by omega)
  | succ n ih =>
    rw [findRootLog]
    by_cases heq : i = j
    · subst heq
      rw [if_pos hhash]
      refine ⟨i, ?_, Or.inl rfl⟩
      split
      · exact List.mem_singleton.mpr rfl
      · split
        · exact List.mem_singleton.mpr rfl
        · exact List.mem_cons_self
    · obtain ⟨x, hx, hend⟩ := ih (i := i + 1) (by omega) (by omega)
      split_ifs with hhere
      · cases hkey : logKey p (m.fingerPrint i).ptrField.toNat with
        | none => exact ⟨i, List.mem_singleton.mpr rfl, Or.inr (Or.inl hkey)⟩
        | some k' =>
          by_cases hk : k' = k
          · subst hk
            refine ⟨i, ?_, Or.inr (Or.inr hkey)⟩
            simp only [if_true]
            exact List.mem_singleton.mpr rfl
          · refine ⟨x, ?_, hend⟩
            simp only [if_neg hk]
            exact List.mem_cons_of_mem _ hx
      · exact ⟨x, hx, hend⟩

theorem findRoot_none (hother : ∀ j, i ≤ j → j < i + n → (m.fingerPrint j).hashByte = hashfunc k →
    ∃ k', logKey p (m.ptr j) = some k' ∧ k' ≠ k) : findRoot p m k n i = .ok 0 := by
  induction n generalizing i with
  | zero => rfl
  | succ n ih =>
    have hrest := ih (i := i + 1) fun j hij hjn => hother j (by omega) (by omega)
    rw [findRoot]
    split_ifs with hhash
    · obtain ⟨k', hkey, hne⟩ := hother i (Nat.le_refl i) (by omega) hhash
      have hread : logKey p (m.fingerPrint i).ptrField.toNat = some k' := hkey
      rw [hread, deref_some, ok_bind, if_neg hne]
      exact hrest
    · exact hrest

/-- A removal that finds nothing has passed no slot of the key. -/
theorem removeSlot_eq_none (h : removeSlot p m k n i = .ok none) (hij : i ≤ j) (hjn : j < i + n)
    (hhash : (m.fingerPrint j).hashByte = hashfunc k) : logKey p (m.ptr j) ≠ some k := by
  induction n generalizing i with
  | zero => exact absurd hjn (by omega)
  | succ n ih =>
    rw [removeSlot] at h
    by_cases heq : i = j
    · subst heq
      rw [if_pos hhash] at h
      obtain ⟨k', hk', h⟩ := bind_eq_ok.mp h
      rw [deref_eq_ok] at hk'
      intro hkey
      have hread : logKey p (m.fingerPrint i).ptrField.toNat = some k := hkey
      rw [hread, Option.some.injEq] at hk'
      rw [if_pos hk'.symm] at h
      cases h
    · split at h
      · obtain ⟨k', -, h⟩ := bind_eq_ok.mp h
        split at h
        · cases h
        · exact ih h (by omega) (by omega)
      · exact ih h (by omega) (by omega)

end Visits

/-! ### What a run leaves in the slots -/

/-- The map that insertions and removals keep: an insertion of a key that is there changes nothing. -/
def ThreadOp.onContent (M : Key → Option Word) : ThreadOp → Key → Option Word
  | insert key val _ => if (M key).isSome then M else Function.update M key (some val)
  | remove key => Function.update M key none

def contentAfter (ops : List (Tid × ThreadOp)) : Key → Option Word :=
  ops.foldl (fun M op => op.2.onContent M) fun _ => none

/-- How many slots are in use, and the key each slot was last filled for. -/
structure RootSlots where
  used : Nat
  key : Nat → Option Key

namespace RootSlots

def empty : RootSlots := ⟨0, fun _ => none⟩

def slotOf (r : RootSlots) (key : Key) : Option Nat :=
  (List.range r.used).find? fun i => r.key i = some key

/-- A new key takes the next slot; the last slot in use is copied to that of a removed key. -/
def step (r : RootSlots) : ThreadOp → RootSlots
  | .insert key _ _ =>
    match r.slotOf key with
    | some _ => r
    | none => ⟨r.used + 1, Function.update r.key r.used (some key)⟩
  | .remove key =>
    match r.slotOf key with
    | some i => ⟨r.used - 1, Function.update r.key i (r.key (r.used - 1))⟩
    | none => r

def byte (r : RootSlots) (i : Nat) : BitVec 8 := ((r.key i).map hashfunc).getD 0

/-- No slot out of use has the fingerprint of the key. -/
def Unlike (r : RootSlots) (key : Key) : Prop :=
  ∀ i, r.used ≤ i → i < MAX_LEAF_KEY → r.byte i ≠ hashfunc key

end RootSlots

def slotsAfter (ops : List (Tid × ThreadOp)) : RootSlots :=
  ops.foldl (fun r op => r.step op.2) RootSlots.empty

section Slots

variable {r : RootSlots} {k : Key} {i : Nat}

theorem RootSlots.slotOf_hit (hi : i < r.used) (hkey : r.key i = some k)
    (hdistinct : ∀ j, j < r.used → r.key j = some k → j = i) : r.slotOf k = some i := by
  rw [slotOf, List.find?_eq_some_iff_getElem]
  refine ⟨by simpa using hkey, i, by simpa using hi, by simp, fun j hj => ?_⟩
  have hne : r.key j ≠ some k := fun heq => hj.ne (hdistinct j (hj.trans hi) heq)
  simpa using hne

theorem RootSlots.slotOf_miss (hno : ∀ j, j < r.used → r.key j ≠ some k) : r.slotOf k = none := by
  rw [slotOf, List.find?_eq_none]
  intro j hj
  simpa using hno j (List.mem_range.mp hj)

theorem RootSlots.byte_update {key : Option Key} {used j : Nat} :
    (RootSlots.mk used (Function.update r.key i key)).byte j =
      if j = i then (key.map hashfunc).getD 0 else r.byte j := by
  simp only [byte, Function.update_apply]
  split_ifs <;> rfl

end Slots

/-! ### The invariant

On the root leaf `find` compares the fingerprints of all 30 slots, used or not, and so follows the pointers of slots
that a removal has left behind. `RootHolds` therefore knows the fingerprint of every cell, by the key it was last
filled for, and the record of every slot in use. -/

variable [LawfulPmem P]

/-- The root leaf `m` holds the content `M` in the slots `r`. -/
structure RootHolds (n : Nat) (M : Key → Option Word) (r : RootSlots) (s : TreeState P) (m : DLeaf) :
    Prop where
  level : s.tempLevel = 0
  leaf : s.dleafHeap s.root = some m
  room : Ok n s.pm
  used : m.maxUse = r.used
  le : m.maxUse ≤ MAX_LEAF_KEY
  pleaf : m.altPtr ∈ leaves s.pm
  bytes : ∀ i, i < MAX_LEAF_KEY → (m.fingerPrint i).hashByte = r.byte i
  control : ∀ i, i < MAX_LEAF_KEY → m.control i = 0
  recs : ∀ i, i < m.maxUse → m.ptr i ∈ recs s.pm
  keys : ∀ i, i < m.maxUse → logKey s.pm (m.ptr i) = r.key i
  vals : ∀ i k, i < m.maxUse → r.key i = some k → logVal s.pm (m.ptr i) = M k
  distinct : ∀ i j, i < m.maxUse → j < m.maxUse → r.key i = r.key j → i = j
  present : ∀ k, (M k).isSome → ∃ i, i < m.maxUse ∧ r.key i = some k

section Root

variable {n : Nat} {M : Key → Option Word} {r : RootSlots} {s s' : TreeState P} {m : DLeaf} {k : Key}
  {i : Nat}

theorem RootHolds.hasKey (h : RootHolds n M r s m) :
    HasKey s.pm m k i ↔ i < m.maxUse ∧ r.key i = some k :=
  and_congr_right fun hi => by rw [h.keys i hi]

theorem RootHolds.slotsOK (h : RootHolds n M r s m) : SlotsOK s.pm m where
  read i hi := rec_read h.room (h.recs i hi)
  hash i k hi := by
    obtain ⟨hlt, hkey⟩ := h.hasKey.mp hi
    rw [h.bytes i (hlt.trans_le h.le), RootSlots.byte, hkey]
    rfl
  distinct i j k hi hj := by
    obtain ⟨hlt, hkey⟩ := h.hasKey.mp hi
    obtain ⟨hlt', hkey'⟩ := h.hasKey.mp hj
    exact h.distinct i j hlt hlt' (hkey.trans hkey'.symm)
  pair i k hi hc := by
    rw [h.control i (hi.1.trans_le h.le)] at hc
    exact absurd (Nat.lt_of_lt_of_le hi.1 hc) (Nat.not_lt_zero i)

theorem RootHolds.isSome_iff (h : RootHolds n M r s m) : (M k).isSome ↔ ∃ i, HasKey s.pm m k i := by
  constructor
  · intro hk
    obtain ⟨i, hi⟩ := h.present k hk
    exact ⟨i, h.hasKey.mpr hi⟩
  · rintro ⟨i, hi⟩
    obtain ⟨hlt, hkey⟩ := h.hasKey.mp hi
    obtain ⟨k', v, -, hval⟩ := rec_read h.room (h.recs i hlt)
    rw [← h.vals i k hlt hkey, hval]
    rfl

theorem RootHolds.slotOf (h : RootHolds n M r s m) (hi : HasKey s.pm m k i) : r.slotOf k = some i := by
  obtain ⟨hlt, hkey⟩ := h.hasKey.mp hi
  apply RootSlots.slotOf_hit (h.used ▸ hlt) hkey
  intro j hj hkey'
  exact h.distinct j i (h.used.symm ▸ hj) hlt (hkey'.trans hkey.symm)

theorem RootHolds.slotOf_none (h : RootHolds n M r s m) (hk : M k = none) : r.slotOf k = none := by
  apply RootSlots.slotOf_miss
  intro j hj hkey
  have hsome := h.isSome_iff.mpr ⟨j, h.hasKey.mpr ⟨h.used.symm ▸ hj, hkey⟩⟩
  rw [hk] at hsome
  exact absurd hsome (by simp)

theorem RootHolds.lock (h : RootHolds n M r s m) (x : Nat) :
    RootHolds n M r (s.setLeaf s.root { m with tempInsert := x }) { m with tempInsert := x } :=
  { h with leaf := Function.update_self .. }

theorem RootHolds.mono (h : RootHolds n M r s m) {n' : Nat} (hle : n' ≤ n) : RootHolds n' M r s m :=
  { h with room := ok_mono hle h.room }

/-- A new key in a leaf with room. -/
theorem RootHolds.push (h : RootHolds (n + 1) M r s m) (hroom : m.maxUse < MAX_LEAF_KEY)
    (hk : M k = none) {t : Tid} {v : Word} {len : BitVec 32} {addr : Addr} {pm : P}
    (happ : appendOne s.pm t k v m.altPtr LOG_INSERT len = some (addr, pm)) :
    RootHolds n (Function.update M k (some v)) (r.step (.insert k v len))
      (({ s with pm := pm } : TreeState P).setLeaf s.root (m.push k addr)) (m.push k addr) := by
  obtain ⟨addr', pm', happ', hok, hfresh, hrecs, hleaves, hkey, hval, hsame, -⟩ :=
    append_spec t k v m.altPtr LOG_INSERT len h.room
  rw [happ, Option.some.injEq, Prod.mk.injEq] at happ'
  obtain ⟨rfl, rfl⟩ := happ'
  have hlt : addr < 2 ^ 48 := rec_lt hok (hrecs ▸ Set.mem_insert _ _)
  have hstep : r.step (.insert k v len) = ⟨r.used + 1, Function.update r.key r.used (some k)⟩ := by
    rw [RootSlots.step, h.slotOf_none hk]
  have huse : (m.push k addr).maxUse = m.maxUse + 1 := rfl
  -- the used slots are the old ones and the new one
  have hcases : ∀ i, i < (m.push k addr).maxUse → i < m.maxUse ∨ i = m.maxUse := fun i hi =>
    Nat.lt_or_eq_of_le (Nat.le_of_lt_succ hi)
  have hold : ∀ i, i < m.maxUse → Function.update r.key r.used (some k) i = r.key i := fun i hi =>
    Function.update_of_ne (h.used ▸ hi.ne) _ _
  have hnew : Function.update r.key r.used (some k) m.maxUse = some k := by
    rw [h.used, Function.update_self]
  have hother : ∀ i, i < m.maxUse → r.key i ≠ some k := by
    intro i hi hki
    have hsome := h.isSome_iff.mpr ⟨i, h.hasKey.mpr ⟨hi, hki⟩⟩
    rw [hk] at hsome
    exact absurd hsome (by simp)
  rw [hstep]
  refine ⟨h.level, Function.update_self .., hok, congrArg (· + 1) h.used, hroom, hleaves ▸ h.pleaf,
    ?_, ?_, ?_, ?_, ?_, ?_, ?_⟩
  · intro i hi
    rw [RootSlots.byte_update, ← h.used]
    simp only [DLeaf.push, Function.update_apply]
    -- the byte of the new slot is that of the key
    split_ifs
    · rfl
    · exact h.bytes i hi
  · intro i hi
    simp only [DLeaf.control, DLeaf.push, Function.update_apply]
    split_ifs
    · rfl
    · exact h.control i hi
  · intro i hi
    change _ ∈ LawfulPmem.recs pm
    rw [hrecs]
    rcases hcases i hi with hi | rfl
    · rw [m.push_ptr_old k addr hi]
      exact Set.mem_insert_of_mem _ (h.recs i hi)
    · rw [m.push_ptr_new k hlt]
      exact Set.mem_insert _ _
  · intro i hi
    change logKey pm _ = Function.update r.key r.used (some k) i
    rcases hcases i hi with hi | rfl
    · rw [m.push_ptr_old k addr hi, (hsame _ (h.recs i hi)).1, hold i hi, h.keys i hi]
    · rw [m.push_ptr_new k hlt, hkey, hnew]
  · intro i k' hi hki
    change logVal pm _ = _
    rcases hcases i hi with hi | rfl
    · have hki' : r.key i = some k' := (hold i hi).symm.trans hki
      have hne : k' ≠ k := fun heq => hother i hi (heq ▸ hki')
      rw [m.push_ptr_old k addr hi, (hsame _ (h.recs i hi)).2, h.vals i k' hi hki',
        Function.update_of_ne hne]
    · have heq : k = k' := Option.some.inj (hnew.symm.trans hki)
      rw [m.push_ptr_new k hlt, hval, ← heq, Function.update_self]
  · -- no key has two slots
    intro i j hi hj heq
    change Function.update r.key r.used (some k) i = Function.update r.key r.used (some k) j at heq
    rcases hcases i hi with hi | rfl
    · rcases hcases j hj with hj | rfl
      · rw [hold i hi, hold j hj] at heq
        exact h.distinct i j hi hj heq
      · rw [hold i hi, hnew] at heq
        exact absurd heq (hother i hi)
    · rcases hcases j hj with hj | rfl
      · rw [hold j hj, hnew] at heq
        exact absurd heq.symm (hother j hj)
      · rfl
  · intro k' hk'
    -- the new key has the new slot, the others have theirs
    by_cases hkk : k' = k
    · exact ⟨m.maxUse, Nat.lt_succ_self _, hkk ▸ hnew⟩
    · rw [Function.update_of_ne hkk] at hk'
      obtain ⟨i, hi, hki⟩ := h.present k' hk'
      exact ⟨i, Nat.lt_succ_of_lt hi, (hold i hi).trans hki⟩

/-- A removed key. -/
theorem RootHolds.drop (h : RootHolds n M r s m) (hi : HasKey s.pm m k i) {emptied : Prop}
    [Decidable emptied] {pm : P} (hrem : Removed emptied n s.pm (m.ptr i) m.altPtr pm) :
    RootHolds n (Function.update M k none) (r.step (.remove k))
      (({ s with pm := pm } : TreeState P).setLeaf s.root (m.dropSlot i)) (m.dropSlot i) := by
  obtain ⟨hlt, hkey⟩ := h.hasKey.mp hi
  have hstep : r.step (.remove k) =
      ⟨r.used - 1, Function.update r.key i (r.key (r.used - 1))⟩ := by
    rw [RootSlots.step, h.slotOf hi]
  have huse : (m.dropSlot i).maxUse = m.maxUse - 1 := rfl
  -- what stands in slot `j` now stood in a used slot before, and not in the dropped one
  have hmoved : ∀ j, j < m.maxUse - 1 →
      Function.update r.key i (r.key (r.used - 1)) j = r.key (m.moved i j) := by
    intro j hj
    rw [← h.used, DLeaf.moved, Function.update_apply]
    split_ifs <;> rfl
  have hsame : ∀ j, j < m.maxUse - 1 → m.ptr (m.moved i j) ∈ LawfulPmem.recs s.pm \ {m.ptr i} := by
    intro j hj
    have hltj := DLeaf.moved_lt (i := i) hj
    refine ⟨h.recs _ hltj, fun heq => DLeaf.moved_ne hj (h.distinct _ i hltj hlt ?_)⟩
    rw [← h.keys _ hltj, ← h.keys i hlt, Set.mem_singleton_iff.mp heq]
  have hlast : m.maxUse - 1 < MAX_LEAF_KEY :=
    (Nat.sub_lt (Nat.zero_lt_of_lt hlt) Nat.one_pos).trans_le h.le
  rw [hstep]
  refine ⟨h.level, Function.update_self .., hrem.room, congrArg (· - 1) h.used,
    (Nat.sub_le _ _).trans h.le, hrem.leaves h.pleaf, ?_, ?_, ?_, ?_, ?_, ?_, ?_⟩
  · intro j hj
    have hbyte := h.bytes _ hlast
    rw [RootSlots.byte_update, ← h.used]
    simp only [DLeaf.dropSlot]
    -- the last slot moves into the gap, if it is another one, and its old cell stays
    split_ifs with hend hji hji
    · rw [hji, hend]
      exact hbyte
    · exact h.bytes j hj
    · rw [hji, Function.update_self]
      exact hbyte
    · rw [Function.update_of_ne hji]
      exact h.bytes j hj
  · intro j hj
    simp only [DLeaf.control, DLeaf.dropSlot]
    split_ifs
    · exact h.control j hj
    · rw [Function.update_apply]
      split_ifs
      · exact h.control _ hlast
      · exact h.control j hj
  · intro j hj
    rw [m.dropSlot_ptr i hj]
    exact hrem.recs (hsame j hj)
  · intro j hj
    rw [m.dropSlot_ptr i hj]
    exact ((hrem.same_recs _ (hsame j hj)).1.trans (h.keys _ (DLeaf.moved_lt hj))).trans
      (hmoved j hj).symm
  · intro j k' hj hkj
    have hkj' : r.key (m.moved i j) = some k' := (hmoved j hj).symm.trans hkj
    have hltj := DLeaf.moved_lt (i := i) hj
    have hne : k' ≠ k := by
      rintro rfl
      exact DLeaf.moved_ne hj (h.distinct _ i hltj hlt (hkj'.trans hkey.symm))
    rw [m.dropSlot_ptr i hj, Function.update_of_ne hne]
    exact (hrem.same_recs _ (hsame j hj)).2.trans (h.vals _ k' hltj hkj')
  · intro j j' hj hj' heq
    apply DLeaf.moved_inj hj hj'
    apply h.distinct _ _ (DLeaf.moved_lt hj) (DLeaf.moved_lt hj')
    exact ((hmoved j hj).symm.trans heq).trans (hmoved j' hj')
  · intro k' hk'
    have hne : k' ≠ k := by
      rintro rfl
      rw [Function.update_self] at hk'
      exact absurd hk' (by simp)
    rw [Function.update_of_ne hne] at hk'
    -- another key still has its slot, or that of the gap
    obtain ⟨j, hj, hkj⟩ := h.present k' hk'
    have hji : j ≠ i := by
      rintro rfl
      exact hne (Option.some.inj (hkj.symm.trans hkey))
    obtain ⟨j', hj', rfl⟩ := DLeaf.exists_moved hj hlt hji
    exact ⟨j', hj', (hmoved j' hj').trans hkj⟩

/-! ### Runs -/

omit [Pmem P] [LawfulPmem P] in
theorem installSeparator_level {splitKey : Key} {leaf leaf₂ insertLeaf : Addr}
    (h : installSeparator s k splitKey leaf leaf₂ insertLeaf = .ok s') (hlevel : s.tempLevel = 0) :
    s'.tempLevel = 1 := by
  unfold installSeparator recordSplit at h
  rw [if_pos hlevel, ok_bind] at h
  obtain ⟨_, -, h⟩ := bind_eq_ok.mp h
  cases h
  exact congrArg (· + 1) hlevel

omit [LawfulPmem P] in
theorem splitFull_level {t : Tid} {leaf : Addr} {q : Addr × Key × Addr × TreeState P}
    (h : splitFull s t leaf = .ok q) : q.2.2.2.tempLevel = s.tempLevel := by
  obtain ⟨m, buf, keys, fingers, newLeaf, pm, pm', -, -, -, -, -, rfl⟩ := splitFull_eq_ok.mp h
  rfl

omit [Pmem P] [LawfulPmem P] in
theorem lockLeaf_level {b : Bool} {leaf : Addr} (h : lockLeaf s k = .ok (b, leaf, s')) :
    s'.tempLevel = s.tempLevel := by
  unfold lockLeaf at h
  obtain ⟨_, -, h⟩ := bind_eq_ok.mp h
  obtain ⟨m, -, h⟩ := bind_eq_ok.mp h
  split at h
  · cases h
    rfl
  · cases h
    rfl

omit [LawfulPmem P] in
theorem insert_level {fuel : Nat} {t : Tid} {v : Word} {len : BitVec 32} {b : Bool}
    (h : insert fuel s t k v len = .ok (b, s')) : s.tempLevel ≤ s'.tempLevel := by
  induction fuel generalizing s with
  | zero => cases h
  | succ fuel ih =>
    unfold ZBTree.insert at h
    obtain ⟨⟨lockState, leaf, s₁⟩, hlock, h⟩ := bind_eq_ok.mp h
    rw [← lockLeaf_level hlock]
    cases lockState with
    | false => exact ih h
    | true =>
      simp only [Bool.not_true, Bool.false_eq_true, if_false, bind_eq_ok] at h
      obtain ⟨m, -, dup, -, h⟩ := h
      split at h
      · cases h
        exact Nat.le_refl _
      · split at h
        · obtain ⟨s₂, hfill, h⟩ := bind_eq_ok.mp h
          cases h
          unfold fillSlot at hfill
          obtain ⟨m', -, hfill⟩ := bind_eq_ok.mp hfill
          obtain ⟨q, -, hfill⟩ := bind_eq_ok.mp hfill
          cases hfill
          exact Nat.le_refl _
        · obtain ⟨⟨leaf₂, splitKey, insertLeaf, s₂⟩, hsplit, h⟩ := bind_eq_ok.mp h
          obtain ⟨s₃, hinstall, h⟩ := bind_eq_ok.mp h
          obtain ⟨s₄, m', hinner, -, rfl⟩ := installSeparator_eq hinstall
          have hsame : s₂.tempLevel = s₁.tempLevel := splitFull_level hsplit
          rw [← hsame]
          exact hinner.level.trans (ih (s := s₄.setLeaf _ _) h)

omit [LawfulPmem P] in
theorem simplyRemove_level {fuel : Nat} {t : Tid} {b : Bool}
    (h : simplyRemove fuel s t k = .ok (b, s')) : s'.tempLevel = s.tempLevel := by
  induction fuel generalizing s with
  | zero => cases h
  | succ fuel ih =>
    unfold ZBTree.simplyRemove at h
    obtain ⟨⟨lockState, leaf, s₁⟩, hlock, h⟩ := bind_eq_ok.mp h
    rw [← lockLeaf_level hlock]
    cases lockState with
    | false => exact ih h
    | true =>
      simp only [Bool.not_true, Bool.false_eq_true, if_false, removeFrom] at h
      obtain ⟨m, -, h⟩ := bind_eq_ok.mp h
      obtain ⟨found, -, h⟩ := bind_eq_ok.mp h
      cases found with
      | none =>
        cases h
        rfl
      | some i =>
        obtain ⟨pm, -, h⟩ := bind_eq_ok.mp h
        split at h
        · obtain ⟨l, -, h⟩ := bind_eq_ok.mp h
          obtain ⟨pm', -, h⟩ := bind_eq_ok.mp h
          cases h
          rfl
        · cases h
          rfl

omit [LawfulPmem P] in
theorem runThreads_level {fuel : Nat} {ops : List (Tid × ThreadOp)}
    (h : runThreads fuel s ops = .ok s') : s.tempLevel ≤ s'.tempLevel := by
  induction ops generalizing s with
  | nil =>
    cases h
    exact Nat.le_refl _
  | cons op ops ih =>
    obtain ⟨t, op⟩ := op
    unfold runThreads at h
    obtain ⟨⟨b, s₁⟩, hop, h⟩ := bind_eq_ok.mp h
    refine Nat.le_trans ?_ (ih h)
    cases op with
    | insert key val len => exact insert_level hop
    | remove key => exact Nat.le_of_eq (simplyRemove_level hop).symm

theorem RootHolds.findInsert (h : RootHolds n M r s m) (k : Key) :
    findInsert s k = .ok ([], s.root) := if_pos h.level

/-- One insertion that does not split the leaf. -/
theorem RootHolds.insert (h : RootHolds (n + 1) M r s m) {fuel : Nat} {t : Tid} {v : Word}
    {len : BitVec 32} {b : Bool} (hrun : ZBTree.insert fuel s t k v len = .ok (b, s'))
    (hlevel : s'.tempLevel = 0) : ∃ m', RootHolds n ((ThreadOp.insert k v len).onContent M)
      (r.step (.insert k v len)) s' m' := by
  cases fuel with
  | zero => cases hrun
  | succ fuel =>
    have hfree : m.tempInsert = 0 := by
      by_contra hheld
      rw [insert_held (h.findInsert k) h.leaf hheld] at hrun
      cases hrun
    have hlocked := h.lock 1
    rcases insert_cases (h.findInsert k) h.leaf hrun hfree with
      ⟨-, hdup, rfl⟩ | ⟨-, hdup, hroom, hfill⟩ | ⟨-, -, R, sk, pl, s₁, s₂, hsplit, hinst, hrest⟩
    · -- the key is there
      have hsome : (M k).isSome := by
        rw [h.isSome_iff]
        by_contra hno
        rw [not_exists] at hno
        rw [duplicate_miss h.slotsOK hno] at hdup
        cases hdup
      obtain ⟨i, hi⟩ := h.isSome_iff.mp hsome
      rw [ThreadOp.onContent, if_pos hsome, RootSlots.step, h.slotOf hi]
      exact ⟨_, hlocked.mono (Nat.le_succ n)⟩
    · have hk : M k = none := by
        by_contra hsome
        obtain ⟨i, hi⟩ := h.isSome_iff.mp (Option.isSome_iff_ne_none.mpr hsome)
        rw [duplicate_hit h.slotsOK hi] at hdup
        cases hdup
      have hleaf : (s.setLeaf s.root { m with tempInsert := 1 }).dleafHeap s.root =
          some { m with tempInsert := 1 } := Function.update_self ..
      simp only [fillSlot, hleaf, deref_some, ok_bind, bind_eq_ok, deref_eq_ok] at hfill
      obtain ⟨⟨addr, pm⟩, happ, hfill⟩ := hfill
      cases hfill
      rw [ThreadOp.onContent, if_neg (by rw [hk]; simp)]
      exact ⟨_, hlocked.push hroom hk happ⟩
    · -- the leaf is split
      have hlow : s₁.tempLevel = 0 := (splitFull_level hsplit).trans h.level
      have hone := installSeparator_level hinst hlow
      have hle := insert_level hrest
      omega

/-- One removal. -/
theorem RootHolds.remove (h : RootHolds n M r s m) {fuel : Nat} {t : Tid} {b : Bool}
    (hfrees : ∀ a p, a ∈ LawfulPmem.recs s.pm → freeRecord s.pm t a = some p → FreesOnly s.pm a p)
    (hrun : simplyRemove fuel s t k = .ok (b, s')) :
    ∃ m', RootHolds n ((ThreadOp.remove k).onContent M) (r.step (.remove k)) s' m' := by
  cases fuel with
  | zero => cases hrun
  | succ fuel =>
    have hfree : m.tempInsert = 0 := by
      by_contra hheld
      rw [simplyRemove_held (h.findInsert k) h.leaf hheld] at hrun
      cases hrun
    rcases simplyRemove_cases (h.findInsert k) h.leaf hrun hfree with
      ⟨-, hnone, rfl⟩ | ⟨-, i, pm₁, pm₂, hsome, hpm₁, hlast, rfl⟩
    · have hk : M k = none := by
        by_contra hsome
        obtain ⟨i, hi⟩ := h.isSome_iff.mp (Option.isSome_iff_ne_none.mpr hsome)
        have hlt : i < 0 + m.maxUse := by
          rw [Nat.zero_add]
          exact hi.1
        exact removeSlot_eq_none hnone (Nat.zero_le i) hlt (h.slotsOK.hash i k hi) hi.2
      have hsame : Function.update M k none = M := by
        rw [← hk, Function.update_eq_self]
      have hheap : s.setLeaf s.root m = s := by
        have hupdate : Function.update s.dleafHeap s.root (some m) = s.dleafHeap := by
          rw [← h.leaf, Function.update_eq_self]
        rw [TreeState.setLeaf, hupdate]
      rw [ThreadOp.onContent, hsame, RootSlots.step, h.slotOf_none hk, hheap]
      exact ⟨m, h⟩
    · obtain ⟨-, hlt, hkey, -⟩ := removeSlot_eq_some hsome
      have hi : HasKey s.pm m k i := ⟨by rwa [Nat.zero_add] at hlt, hkey⟩
      have hrem := (hfrees _ _ (h.recs i hi.1) hpm₁).removed h.room h.pleaf hlast
      exact ⟨_, h.drop hi hrem⟩

/-- A whole run that leaves the tree without inner nodes, by induction on the operations. -/
theorem RootHolds.run (hfrees : ∀ p t a p', a ∈ LawfulPmem.recs p →
      freeRecord p t a = some p' → FreesOnly (P := P) p a p') {fuel : Nat}
    {ops : List (Tid × ThreadOp)} (h : RootHolds (ops.length + n) M r s m)
    (hrun : runThreads fuel s ops = .ok s') (hlevel : s'.tempLevel = 0) :
    ∃ m', RootHolds n (ops.foldl (fun M op => op.2.onContent M) M)
      (ops.foldl (fun r op => r.step op.2) r) s' m' := by
  induction ops generalizing s M r m with
  | nil =>
    cases hrun
    rw [List.length_nil, Nat.zero_add] at h
    exact ⟨m, h⟩
  | cons op ops ih =>
    obtain ⟨t, op⟩ := op
    unfold runThreads at hrun
    obtain ⟨⟨b, s₁⟩, hop, hrun⟩ := bind_eq_ok.mp hrun
    have hlow : s₁.tempLevel = 0 :=
      Nat.eq_zero_of_le_zero ((runThreads_level hrun).trans (Nat.le_of_eq hlevel))
    rw [List.length_cons, Nat.add_right_comm] at h
    have hstep : ∃ m', RootHolds (ops.length + n) (op.onContent M) (r.step op) s₁ m' := by
      cases op with
      | insert key val len => exact h.insert hop hlow
      | remove key =>
        exact (h.mono (Nat.le_succ _)).remove (fun a p ha hp => hfrees _ t a p ha hp) hop
    obtain ⟨m', hstep⟩ := hstep
    exact ih hstep hrun

theorem RootHolds.init {pm : P} (hok : Ok (n + 1) pm) {t : Tid} {junkInner : Addr → InnerNode}
    {junkLeaf : Addr → DLeaf} (hrun : init pm t junkInner junkLeaf = .ok s) :
    ∃ m, RootHolds n (fun _ => none) RootSlots.empty s m := by
  obtain ⟨q, pm₁, l, pm₂, halloc, -, hset, rfl⟩ := init_eq_ok.mp hrun
  obtain ⟨q', pm₁', halloc', hok₁, -, hleaves₁, -⟩ := alloc_spec t hok
  rw [halloc, Option.some.injEq, Prod.mk.injEq] at halloc'
  obtain ⟨rfl, rfl⟩ := halloc'
  have hq : q ∈ leaves pm₁ := hleaves₁ ▸ Set.mem_insert _ _
  obtain ⟨pm₂', hset', hok₂, -, hleaves₂, -⟩ :=
    setLeaf_spec { l with next := 0, versionField := 0 } hok₁ hq
  rw [hset, Option.some.injEq] at hset'
  subst hset'
  -- no slot of the only leaf is in use
  have hempty : ∀ i, ¬ i < ((junkLeaf 1).first q).maxUse := fun i => Nat.not_lt_zero i
  have hzero : ∀ i, i < MAX_LEAF_KEY → ((junkLeaf 1).first q).fingerPrint i = .zero := by
    intro i hi
    exact if_pos ⟨Nat.zero_le i, by rwa [Nat.zero_add]⟩
  refine ⟨(junkLeaf 1).first q, rfl, freshTree_leaf.mpr ⟨rfl, rfl⟩, hok₂, rfl, Nat.zero_le _,
    hleaves₂ ▸ hq, fun i hi => ?_, fun i hi => ?_, fun i hi => absurd hi (hempty i),
    fun i hi => absurd hi (hempty i), fun i k hi => absurd hi (hempty i),
    fun i j hi => absurd hi (hempty i), fun k hk => absurd hk (by simp)⟩
  · rw [hzero i hi]
    rfl
  · rw [DLeaf.control, hzero i hi]
    rfl

end Root

/-! ### Lookups -/

omit [LawfulPmem P] in
/-- What `find` has to do in a tree without inner nodes whose content is `M`. -/
def RootFinds (s : TreeState P) (M : Key → Option Word) (key : Key) : Prop :=
  find s key = .ok ((M key).getD 0, s) ∧
    ∀ m, s.dleafHeap s.root = some m → ∀ i ∈ (findRootLog s.pm m key MAX_LEAF_KEY 0).1, i < m.maxUse

section Finds

variable {n : Nat} {M : Key → Option Word} {r : RootSlots} {s : TreeState P} {m : DLeaf} {k : Key}

theorem RootHolds.find_eq (h : RootHolds n M r s m) {v : Word}
    (hrun : findRoot s.pm m k MAX_LEAF_KEY 0 = .ok v) : find s k = .ok (v, s) := by
  rw [find, if_pos h.level]
  simp only [h.leaf, deref_some, ok_bind, hrun, pure_eq_ok]

theorem RootHolds.finds_present (h : RootHolds n M r s m) (hk : (M k).isSome) : RootFinds s M k := by
  obtain ⟨i, hi⟩ := h.isSome_iff.mp hk
  obtain ⟨hlt, hkey⟩ := h.hasKey.mp hi
  obtain ⟨v, hv⟩ := Option.isSome_iff_exists.mp hk
  have hval : logVal s.pm (m.ptr i) = some v := (h.vals i k hlt hkey).trans hv
  refine ⟨?_, fun m' hm' x hx => ?_⟩
  · rw [hv]
    exact h.find_eq (findRoot_hit h.slotsOK h.le hi hval)
  · rw [h.leaf, Option.some.injEq] at hm'
    subst hm'
    have hend : i < 0 + MAX_LEAF_KEY := by
      rw [Nat.zero_add]
      exact hlt.trans_le h.le
    exact (followed_le (h.slotsOK.hash i k hi) hi.2 (Nat.zero_le i) hend hx).trans_lt hlt

/-- A key that is not there is handled exactly if the slots out of use do not look like it. -/
theorem RootHolds.finds_absent (h : RootHolds n M r s m) (hk : M k = none) :
    RootFinds s M k ↔ r.Unlike k := by
  have hother : ∀ i, i < m.maxUse → ∃ k', logKey s.pm (m.ptr i) = some k' ∧ k' ≠ k := by
    intro i hi
    obtain ⟨k', -, hkey, -⟩ := rec_read h.room (h.recs i hi)
    refine ⟨k', hkey, ?_⟩
    rintro rfl
    have hsome := h.isSome_iff.mpr ⟨i, hi, hkey⟩
    rw [hk] at hsome
    exact absurd hsome (by simp)
  constructor
  · rintro ⟨-, hused⟩ i hi hlt hbyte
    have hhash : (m.fingerPrint i).hashByte = hashfunc k := (h.bytes i hlt).trans hbyte
    obtain ⟨x, hx, hend⟩ := followed_of_hash (p := s.pm) (n := MAX_LEAF_KEY) hhash (Nat.zero_le i)
      (by rwa [Nat.zero_add])
    have hxlt := hused m h.leaf x hx
    obtain ⟨k', hkey, hne⟩ := hother x hxlt
    rcases hend with rfl | hnone | hsome
    · exact absurd (h.used ▸ hxlt) (Nat.not_lt.mpr hi)
    · rw [hkey] at hnone
      cases hnone
    · rw [hkey, Option.some.injEq] at hsome
      exact hne hsome
  · intro hunlike
    -- a slot that looks like the key is in use
    have hin : ∀ i, i < 0 + MAX_LEAF_KEY → (m.fingerPrint i).hashByte = hashfunc k → i < m.maxUse := by
      intro i hi hhash
      rw [Nat.zero_add] at hi
      by_contra hout
      exact hunlike i (h.used ▸ Nat.not_lt.mp hout) hi ((h.bytes i hi).symm.trans hhash)
    refine ⟨?_, fun m' hm' x hx => ?_⟩
    · rw [hk]
      exact h.find_eq (findRoot_none fun j _ hj hhash => hother j (hin j hj hhash))
    · rw [h.leaf, Option.some.injEq] at hm'
      subst hm'
      obtain ⟨hlt, hhash⟩ := hash_of_followed hx
      exact hin x hlt hhash

end Finds

/-- After any run of insertions and removals that leaves the tree without inner nodes, `find` keeps to
the slots in use and answers as the map does, exactly if the key is there or no slot out of use has
its fingerprint. -/
theorem root_find_iff (hfrees : ∀ p t a p', a ∈ LawfulPmem.recs p → freeRecord p t a = some p' →
      FreesOnly (P := P) p a p') (pm : P) (t : Tid) (junkInner : Addr → InnerNode)
    (junkLeaf : Addr → DLeaf) (fuel : Nat) (ops : List (Tid × ThreadOp))
    (hroom : Ok (ops.length + 1) pm) (s₀ s : TreeState P)
    (hinit : init pm t junkInner junkLeaf = .ok s₀) (hrun : runThreads fuel s₀ ops = .ok s)
    (hlevel : s.tempLevel = 0) (key : Key) :
    RootFinds s (contentAfter ops) key ↔
      (contentAfter ops key).isSome ∨ (slotsAfter ops).Unlike key := by
  obtain ⟨m₀, h₀⟩ := RootHolds.init (n := ops.length + 0) hroom hinit
  obtain ⟨m, h⟩ := h₀.run hfrees hrun hlevel
  by_cases hk : (contentAfter ops key).isSome
  · exact iff_of_true (h.finds_present hk) (Or.inl hk)
  · have hnone : contentAfter ops key = none := Option.not_isSome_iff_eq_none.mp hk
    rw [or_iff_right hk]
    exact h.finds_absent hnone

def droppedOps : List (Tid × ThreadOp) :=
  [(0, .insert 5 50 8), (0, .insert 7 70 8), (0, .insert 9 90 8), (0, .remove 7)]

/-- The last slot has been moved over that of the removed key, whose fingerprint is in no cell. -/
theorem root_find_iff_removed : ∃ s₀ s : TreeState IdealPm,
    init (IdealPm.roomy 10) 0 zeroInner zeroLeaf = .ok s₀ ∧ runThreads 2 s₀ droppedOps = .ok s ∧
      contentAfter droppedOps 7 = none ∧ RootFinds s (contentAfter droppedOps) 7 ∧
      RootFinds s (contentAfter droppedOps) 9 := by
  have hfacts : (init (IdealPm.roomy 10) 0 zeroInner zeroLeaf >>= fun s₀ =>
      runThreads 2 s₀ droppedOps).toOption.map TreeState.tempLevel = some 0 := by
    decide +kernel
  obtain ⟨s, hboth, hlevel⟩ := exec_of_map hfacts
  obtain ⟨s₀, hinit, hrun⟩ := bind_eq_ok.mp hboth
  have hiff := root_find_iff (fun _ _ _ _ _ => IdealPm.freesOnly) (IdealPm.roomy 10) 0 zeroInner zeroLeaf 2
    droppedOps (IdealPm.roomy_lawful (by decide) (by decide)) s₀ s hinit hrun hlevel
  have hunlike : (slotsAfter droppedOps).Unlike 7 := by
    unfold RootSlots.Unlike
    decide +kernel
  exact ⟨s₀, s, hinit, hrun, by decide +kernel, (hiff 7).mpr (Or.inr hunlike), (hiff 9).mpr (Or.inl (by decide +kernel))⟩

/-- A key that has been removed is found with its old value, and in a fresh tree the search for a key
with fingerprint 0 follows a null pointer. -/
theorem root_find_stale : ∃ s₀ s : TreeState IdealPm,
    init (IdealPm.roomy 10) 0 zeroInner zeroLeaf = .ok s₀ ∧
      runThreads 2 s₀ [(0, .insert 5 50 8), (0, .remove 5)] = .ok s ∧ s.tempLevel = 0 ∧
      find s₀ 123 = .error .segv ∧
      ¬ RootFinds s (contentAfter [(0, .insert 5 50 8), (0, .remove 5)]) 5 := by
  have hfacts : (init (IdealPm.roomy 10) 0 zeroInner zeroLeaf).toOption.map (fun s₀ =>
      ((match find s₀ 123 with
        | .error .segv => true
        | _ => false),
        (runThreads 2 s₀ [(0, .insert 5 50 8), (0, .remove 5)]).toOption.map fun s =>
          (s.tempLevel, (find s 5).toOption.map Prod.fst))) = some (true, some (0, some 50)) := by
    decide +kernel
  obtain ⟨s₀, hinit, hrest⟩ := exec_of_map hfacts
  rw [Prod.mk.injEq] at hrest
  obtain ⟨hfault, hrest⟩ := hrest
  obtain ⟨s, hrun, hview⟩ := exec_of_map hrest
  rw [Prod.mk.injEq] at hview
  obtain ⟨hlevel, hfound⟩ := hview
  refine ⟨s₀, s, hinit, hrun, hlevel, ?_, fun hfinds => ?_⟩
  · split at hfault
    · assumption
    · cases hfault
  · have hzero : (contentAfter [(0, .insert 5 50 8), (0, .remove 5)] 5).getD 0 = 50 :=
      exec_reads (f := Prod.fst) hfinds.1 hfound
    exact absurd hzero (by decide)

end ZBTree
