import ZBTree.TreeModel

/-!
# Searching one leaf

A used slot stands for the log record it points to. `SlotsOK` says that a leaf's slots
can be trusted: the records can be read, the fingerprints are those of their keys, no
key has two slots, and a slot whose `control_bit` passes the test of `find` has its key
in the inline pair. Every search of the source then finds exactly the slot of the key.
-/

namespace ZBTree

open Pmem

variable {P : Type} [Pmem P]

/-- The record that slot `i` points to. -/
def DLeaf.ptr (m : DLeaf) (i : Nat) : Addr := (m.fingerPrint i).ptrField.toNat

/-- Where the inline pair of slot `i` is, if it has one. -/
def DLeaf.control (m : DLeaf) (i : Nat) : Nat := (m.fingerPrint i).controlBit.toNat

/-- Slot `i` is in use and points to a record of the key. -/
def HasKey (p : P) (m : DLeaf) (k : Key) (i : Nat) : Prop :=
  i < m.maxUse ∧ logKey p (m.ptr i) = some k

def Holds (p : P) (m : DLeaf) (k : Key) (v : Word) : Prop :=
  ∃ i, HasKey p m k i ∧ logVal p (m.ptr i) = some v

structure SlotsOK (p : P) (m : DLeaf) : Prop where
  read : ∀ i, i < m.maxUse → ∃ k v, logKey p (m.ptr i) = some k ∧ logVal p (m.ptr i) = some v
  hash : ∀ i k, HasKey p m k i → (m.fingerPrint i).hashByte = hashfunc k
  distinct : ∀ i j k, HasKey p m k i → HasKey p m k j → i = j
  pair : ∀ i k, HasKey p m k i → m.maxUse ≤ m.control i →
    m.control i + 1 < MAX_LEAF_KEY ∧ (m.fingerPrint (m.control i)).val = k

/-- The inline pairs carry values that `W` allows for their keys. -/
def ValsOK (W : Key → Word → Prop) (p : P) (m : DLeaf) : Prop :=
  ∀ i k, HasKey p m k i → m.maxUse ≤ m.control i → W k (m.fingerPrint (m.control i + 1)).val

/-- What `find` reads as the value of slot `i`. -/
def slotVal (p : P) (m : DLeaf) (i : Nat) : Option Word :=
  if m.maxUse ≤ m.control i then some (m.fingerPrint (m.control i + 1)).val
  else logVal p (m.ptr i)

variable {p : P} {m : DLeaf} {k : Key}

theorem HasKey.holds (h : SlotsOK p m) {i : Nat} (hi : HasKey p m k i) :
    ∃ v, logVal p (m.ptr i) = some v ∧ Holds p m k v := by
  obtain ⟨k', v, -, hv⟩ := h.read i hi.1
  exact ⟨v, hv, i, hi, hv⟩

theorem ValsOK.mono {W W' : Key → Word → Prop} (h : ValsOK W p m) (hW : ∀ k v, W k v → W' k v) :
    ValsOK W' p m :=
  fun i k hi hc => hW k _ (h i k hi hc)

theorem ValsOK.slotVal {W : Key → Word → Prop} (h : ValsOK W p m) (hrec : ∀ v, Holds p m k v → W k v)
    {i : Nat} (hi : HasKey p m k i) {v : Word} (hv : slotVal p m i = some v) : W k v := by
  unfold ZBTree.slotVal at hv
  split_ifs at hv with hc
  · exact Option.some.inj hv ▸ h i k hi hc
  · exact hrec v ⟨i, hi, hv⟩

theorem Holds.unique (h : SlotsOK p m) {v v' : Word} (hv : Holds p m k v) (hv' : Holds p m k v') :
    v = v' := by
  obtain ⟨i, hi, hval⟩ := hv
  obtain ⟨j, hj, hval'⟩ := hv'
  obtain rfl := h.distinct i j k hi hj
  exact Option.some.inj (hval.symm.trans hval')

/-! ### find -/

private theorem findSlots_skip (h : SlotsOK p m) {i : Nat} (n : Nat) (hi : i < m.maxUse)
    (hno : ¬ HasKey p m k i) : findSlots p m k (n + 1) i = findSlots p m k n (i + 1) := by
  obtain ⟨k', v, hk', hv⟩ := h.read i hi
  have hne : k' ≠ k := fun heq => hno ⟨hi, heq ▸ hk'⟩
  rw [findSlots]
  split_ifs with hhash hc hpair
  · exact absurd ((h.pair i k' ⟨hi, hk'⟩ hc).2.symm.trans hpair) hne
  · rfl
  · have hread : logKey p (m.fingerPrint i).ptrField.toNat = some k' := hk'
    simp only [hread, deref_some, ok_bind, if_neg hne]
  · rfl

private theorem findSlots_here (h : SlotsOK p m) {i : Nat} (n : Nat) (hi : HasKey p m k i) :
    ∃ v, slotVal p m i = some v ∧ findSlots p m k (n + 1) i = .ok (some (i, v)) := by
  obtain ⟨k', v, -, hv⟩ := h.read i hi.1
  have hkey : logKey p (m.fingerPrint i).ptrField.toNat = some k := hi.2
  have hval : logVal p (m.fingerPrint i).ptrField.toNat = some v := hv
  unfold slotVal
  rw [findSlots, if_pos (h.hash i k hi)]
  by_cases hc : m.maxUse ≤ m.control i
  · refine ⟨_, if_pos hc, ?_⟩
    exact (if_pos hc).trans (if_pos (h.pair i k hi hc).2)
  · refine ⟨v, (if_neg hc).trans hv, ?_⟩
    have hc' : ¬ m.maxUse ≤ (m.fingerPrint i).controlBit.toNat := hc
    simp only [if_neg hc', hkey, deref_some, ok_bind, if_true, hval, pure_eq_ok]

theorem findSlots_hit (h : SlotsOK p m) {i : Nat} (hi : HasKey p m k i) :
    ∃ v, slotVal p m i = some v ∧ findSlots p m k m.maxUse 0 = .ok (some (i, v)) := by
  obtain ⟨n, hn⟩ : ∃ n, m.maxUse = i + (n + 1) := ⟨m.maxUse - i - 1, by have := hi.1; omega⟩
  rw [hn, Arrays.search_reaches (findSlots p m k)]
  · exact findSlots_here h n hi
  · intro n' j hj
    exact findSlots_skip h n' (hj.trans hi.1) fun hj' => hj.ne (h.distinct j i k hj' hi)

theorem findSlots_miss (h : SlotsOK p m) (hno : ∀ i, ¬ HasKey p m k i) :
    findSlots p m k m.maxUse 0 = .ok none := by
  have hend := Arrays.search_reaches (findSlots p m k) (j := m.maxUse)
    (fun n j hj => findSlots_skip h n hj (hno j)) 0
  rwa [Nat.add_zero, findSlots] at hend

/-! ### The search of insert -/

private theorem duplicate_skip (h : SlotsOK p m) {i : Nat} (n : Nat) (hi : i < m.maxUse)
    (hno : ¬ HasKey p m k i) : duplicate p m k (n + 1) i = duplicate p m k n (i + 1) := by
  obtain ⟨k', v, hk', hv⟩ := h.read i hi
  have hne : k' ≠ k := fun heq => hno ⟨hi, heq ▸ hk'⟩
  rw [duplicate]
  split_ifs with hhash hc hpair
  · exact absurd ((h.pair i k' ⟨hi, hk'⟩ (le_of_lt hc)).2.symm.trans hpair) hne
  · rfl
  · have hread : logKey p (m.fingerPrint i).ptrField.toNat = some k' := hk'
    simp only [hread, deref_some, ok_bind, if_neg hne]
  · rfl

private theorem duplicate_here (h : SlotsOK p m) {i : Nat} (n : Nat) (hi : HasKey p m k i) :
    duplicate p m k (n + 1) i = .ok true := by
  have hkey : logKey p (m.fingerPrint i).ptrField.toNat = some k := hi.2
  rw [duplicate, if_pos (h.hash i k hi)]
  split_ifs with hc hpair
  · rfl
  · exact absurd (h.pair i k hi (le_of_lt hc)).2 hpair
  · simp only [hkey, deref_some, ok_bind, if_true, pure_eq_ok]

theorem duplicate_hit (h : SlotsOK p m) {i : Nat} (hi : HasKey p m k i) :
    duplicate p m k m.maxUse 0 = .ok true := by
  obtain ⟨n, hn⟩ : ∃ n, m.maxUse = i + (n + 1) := ⟨m.maxUse - i - 1, by have := hi.1; omega⟩
  rw [hn, Arrays.search_reaches (duplicate p m k)]
  · exact duplicate_here h n hi
  · intro n' j hj
    exact duplicate_skip h n' (hj.trans hi.1) fun hj' => hj.ne (h.distinct j i k hj' hi)

theorem duplicate_miss (h : SlotsOK p m) (hno : ∀ i, ¬ HasKey p m k i) :
    duplicate p m k m.maxUse 0 = .ok false := by
  have hend := Arrays.search_reaches (duplicate p m k) (j := m.maxUse)
    (fun n j hj => duplicate_skip h n hj (hno j)) 0
  rwa [Nat.add_zero, duplicate] at hend

/-! ### The search through the records -/

private theorem findRoot_skip (h : SlotsOK p m) {i : Nat} (n : Nat) (hi : i < m.maxUse)
    (hno : ¬ HasKey p m k i) : findRoot p m k (n + 1) i = findRoot p m k n (i + 1) := by
  obtain ⟨k', v', hk', -⟩ := h.read i hi
  have hread : logKey p (m.fingerPrint i).ptrField.toNat = some k' := hk'
  have hne : k' ≠ k := fun heq => hno ⟨hi, heq ▸ hk'⟩
  rw [findRoot]
  split_ifs with hhash
  · simp only [hread, deref_some, ok_bind, if_neg hne]
  · rfl

/-- A search through the records that looks at the used slots first finds every key that is
there. -/
theorem findRoot_hit (h : SlotsOK p m) {N : Nat} (huse : m.maxUse ≤ N) {i : Nat} {v : Word}
    (hi : HasKey p m k i) (hv : logVal p (m.ptr i) = some v) : findRoot p m k N 0 = .ok v := by
  obtain ⟨n, hn⟩ : ∃ n, N = i + (n + 1) := ⟨N - i - 1, by have := hi.1; omega⟩
  have hkey : logKey p (m.fingerPrint i).ptrField.toNat = some k := hi.2
  have hval : logVal p (m.fingerPrint i).ptrField.toNat = some v := hv
  rw [hn, Arrays.search_reaches (findRoot p m k)]
  · rw [findRoot, if_pos (h.hash i k hi)]
    simp only [hkey, deref_some, ok_bind, if_true, hval]
  · intro n' j hj
    exact findRoot_skip h n' (hj.trans hi.1) fun hj' => hj.ne (h.distinct j i k hj' hi)

theorem findRoot_miss (h : SlotsOK p m) (hno : ∀ i, ¬ HasKey p m k i) :
    findRoot p m k m.maxUse 0 = .ok 0 := by
  have hend := Arrays.search_reaches (findRoot p m k) (j := m.maxUse)
    (fun n j hj => findRoot_skip h n hj (hno j)) 0
  rwa [Nat.add_zero, findRoot] at hend

/-! ### The split buffer -/

theorem findBuffer_hit {buf : Nat → NodeEntry} {v : Word} {i : Nat} (hi : i < MAX_LEAF_KEY)
    (hentry : buf i = ⟨k, v⟩)
    (huniq : ∀ j, j < MAX_LEAF_KEY → (buf j).oneKey = k → (buf j).val = v) :
    findBuffer buf k MAX_LEAF_KEY 0 = v := by
  -- the search from any place up to `i` ends at an entry of the key
  have hfrom : ∀ n j, j ≤ i → j + n = MAX_LEAF_KEY → findBuffer buf k n j = v := by
    intro n
    induction n with
    | zero => intro j hj hn; omega
    | succ n ih =>
      intro j hj hn
      rw [findBuffer]
      split_ifs with hhere
      · exact huniq j (by omega) hhere
      · refine ih (j + 1) ?_ (by omega)
        rcases Nat.lt_or_eq_of_le hj with hlt | rfl
        · exact hlt
        · exact absurd (by rw [hentry]) hhere
  exact hfrom MAX_LEAF_KEY 0 (Nat.zero_le i) (Nat.zero_add _)

/-! ### Memories and leaves that read the same -/

def SameSlots (p p' : P) (m : DLeaf) : Prop :=
  ∀ i, i < m.maxUse → logKey p' (m.ptr i) = logKey p (m.ptr i) ∧
    logVal p' (m.ptr i) = logVal p (m.ptr i)

theorem hasKey_congr {p' : P} (h : SameSlots p p' m) {i : Nat} :
    HasKey p' m k i ↔ HasKey p m k i :=
  and_congr_right fun hi => by rw [(h i hi).1]

theorem holds_congr {p' : P} (h : SameSlots p p' m) {v : Word} :
    Holds p' m k v ↔ Holds p m k v :=
  exists_congr fun i => by
    rw [hasKey_congr h]
    exact and_congr_right fun hi => by rw [(h i hi.1).2]

theorem SlotsOK.congr {p' : P} (hok : SlotsOK p m) (h : SameSlots p p' m) : SlotsOK p' m where
  read i hi := by
    rw [(h i hi).1, (h i hi).2]
    exact hok.read i hi
  hash i k hi := hok.hash i k ((hasKey_congr h).mp hi)
  distinct i j k hi hj := hok.distinct i j k ((hasKey_congr h).mp hi) ((hasKey_congr h).mp hj)
  pair i k hi := hok.pair i k ((hasKey_congr h).mp hi)

theorem ValsOK.congr {W : Key → Word → Prop} {p' : P} (hok : ValsOK W p m) (h : SameSlots p p' m) :
    ValsOK W p' m :=
  fun i k hi hc => hok i k ((hasKey_congr h).mp hi) hc

/-- Two versions of a leaf whose used slots point to the same records. -/
structure SamePtrs (m m' : DLeaf) : Prop where
  use : m'.maxUse = m.maxUse
  ptr : ∀ i, i < m.maxUse → m'.ptr i = m.ptr i

theorem SamePtrs.hasKey_iff {m' : DLeaf} (h : SamePtrs m m') {i : Nat} :
    HasKey p m' k i ↔ HasKey p m k i := by
  unfold HasKey
  rw [h.use]
  exact and_congr_right fun hi => by rw [h.ptr i hi]

theorem SamePtrs.holds_iff {m' : DLeaf} (h : SamePtrs m m') {v : Word} :
    Holds p m' k v ↔ Holds p m k v :=
  exists_congr fun i => by
    rw [h.hasKey_iff]
    exact and_congr_right fun hi => by rw [h.ptr i hi.1]

/-- Two versions of a leaf that the searches cannot tell apart: same slots up to the
access bits, and the same words in the cells that are not used. -/
structure SameView (m m' : DLeaf) : Prop where
  use : m'.maxUse = m.maxUse
  slot : ∀ i, i < m.maxUse → (m'.fingerPrint i).hashByte = (m.fingerPrint i).hashByte ∧
    (m'.fingerPrint i).controlBit = (m.fingerPrint i).controlBit ∧
    (m'.fingerPrint i).ptrField = (m.fingerPrint i).ptrField
  spare : ∀ i, m.maxUse ≤ i → m'.fingerPrint i = m.fingerPrint i

theorem SameView.of_slots {m m' : DLeaf} (huse : m'.maxUse = m.maxUse)
    (hslots : m'.fingerPrint = m.fingerPrint) : SameView m m' :=
  ⟨huse, fun i _ => by simp [hslots], fun i _ => by rw [hslots]⟩

theorem sameView_touch (m : DLeaf) {i : Nat} (hi : i < m.maxUse) : SameView m (m.touch i) := by
  unfold DLeaf.touch
  split_ifs
  · refine ⟨rfl, fun j _ => ?_, fun j hj => ?_⟩
    · by_cases hji : j = i
      · subst hji
        simp
      · simp [Function.update_of_ne hji]
    · exact Function.update_of_ne (by omega) _ _
  · exact SameView.of_slots rfl rfl

section View

variable {m' : DLeaf} (h : SameView m m')

include h

theorem SameView.ptr {i : Nat} (hi : i < m.maxUse) : m'.ptr i = m.ptr i :=
  congrArg BitVec.toNat (h.slot i hi).2.2

theorem SameView.control {i : Nat} (hi : i < m.maxUse) : m'.control i = m.control i :=
  congrArg BitVec.toNat (h.slot i hi).2.1

theorem SameView.samePtrs : SamePtrs m m' := ⟨h.use, fun _ hi => h.ptr hi⟩

theorem SameView.hasKey_iff {i : Nat} : HasKey p m' k i ↔ HasKey p m k i := h.samePtrs.hasKey_iff

theorem SameView.holds_iff {v : Word} : Holds p m' k v ↔ Holds p m k v := h.samePtrs.holds_iff

theorem SlotsOK.view (hok : SlotsOK p m) : SlotsOK p m' where
  read i hi := by
    rw [h.use] at hi
    rw [h.ptr hi]
    exact hok.read i hi
  hash i k hi := by
    have hi' := h.hasKey_iff.mp hi
    rw [(h.slot i hi'.1).1]
    exact hok.hash i k hi'
  distinct i j k hi hj := hok.distinct i j k (h.hasKey_iff.mp hi) (h.hasKey_iff.mp hj)
  pair i k hi hc := by
    have hi' := h.hasKey_iff.mp hi
    rw [h.use, h.control hi'.1] at hc
    rw [h.control hi'.1, h.spare _ hc]
    exact hok.pair i k hi' hc

theorem ValsOK.view {W : Key → Word → Prop} (hok : ValsOK W p m) : ValsOK W p m' := by
  intro i k hi hc
  have hi' := h.hasKey_iff.mp hi
  rw [h.use, h.control hi'.1] at hc
  rw [h.control hi'.1, h.spare _ (by omega)]
  exact hok i k hi' hc

end View

/-! ### Filling a slot

A record of a new key is pushed to the first cell behind the used slots. That cell may belong to a pair, which is
then lost: the slot whose control bits point there is read through its record again. -/

section Push

variable {p' : P} {addr : Addr} {v : Word}

theorem DLeaf.push_ptr_old (m : DLeaf) (k : Key) (addr : Addr) {i : Nat} (hi : i < m.maxUse) :
    (m.push k addr).ptr i = m.ptr i := by
  simp only [ptr, push, Function.update_of_ne hi.ne]

theorem DLeaf.push_ptr_new (m : DLeaf) (k : Key) (h : addr < 2 ^ 48) :
    (m.push k addr).ptr m.maxUse = addr := by
  simp only [ptr, push, Function.update_self, newSlot, BitVec.toNat_ofNat]
  exact Nat.mod_eq_of_lt h

variable (hsame : SameSlots p p' m) (haddr : addr < 2 ^ 48) (hkey : logKey p' addr = some k)
  (hval : logVal p' addr = some v)

include hsame haddr hkey

theorem push_hasKey_iff {k' : Key} {i : Nat} : HasKey p' (m.push k addr) k' i ↔
    HasKey p m k' i ∨ (i = m.maxUse ∧ k' = k) := by
  have huse : (m.push k addr).maxUse = m.maxUse + 1 := rfl
  rw [← hasKey_congr hsame]
  simp only [HasKey, huse]
  rcases lt_trichotomy i m.maxUse with hlt | rfl | hgt
  · rw [m.push_ptr_old k addr hlt]
    simp [hlt, hlt.ne, Nat.lt_succ_of_lt hlt]
  · rw [m.push_ptr_new k haddr, hkey]
    simp [eq_comm]
  · have hnot : ¬ i < m.maxUse + 1 := by omega
    simp [hnot, not_lt.mpr hgt.le, hgt.ne']

include hval

theorem push_holds_iff {k' : Key} {v' : Word} : Holds p' (m.push k addr) k' v' ↔
    Holds p m k' v' ∨ (k' = k ∧ v' = v) := by
  simp only [Holds, push_hasKey_iff hsame haddr hkey]
  constructor
  · rintro ⟨i, hi | ⟨rfl, rfl⟩, hv⟩
    · rw [m.push_ptr_old k addr hi.1, (hsame i hi.1).2] at hv
      exact Or.inl ⟨i, hi, hv⟩
    · rw [m.push_ptr_new _ haddr, hval] at hv
      exact Or.inr ⟨rfl, (Option.some.inj hv).symm⟩
  · rintro (⟨i, hi, hv⟩ | ⟨rfl, rfl⟩)
    · refine ⟨i, Or.inl hi, ?_⟩
      rw [m.push_ptr_old k addr hi.1, (hsame i hi.1).2, hv]
    · exact ⟨m.maxUse, Or.inr ⟨rfl, rfl⟩, by rw [m.push_ptr_new _ haddr, hval]⟩

/-- Pushing a record of a new key keeps the slots: the cell that is overwritten was that
of a pair which `find` no longer looks at. -/
theorem SlotsOK.push (hok : SlotsOK p m) (hnew : ∀ i, ¬ HasKey p m k i) :
    SlotsOK p' (m.push k addr) where
  read i hi := by
    rcases Nat.lt_or_eq_of_le (Nat.le_of_lt_succ hi) with hlt | rfl
    · rw [m.push_ptr_old k addr hlt, (hsame i hlt).1, (hsame i hlt).2]
      exact hok.read i hlt
    · exact ⟨k, v, by rw [m.push_ptr_new k haddr, hkey], by rw [m.push_ptr_new k haddr, hval]⟩
  hash i k' hi := by
    rcases (push_hasKey_iff hsame haddr hkey).mp hi with hi | ⟨rfl, rfl⟩
    · simp only [DLeaf.push, Function.update_of_ne hi.1.ne]
      exact hok.hash i k' hi
    · simp [DLeaf.push, newSlot]
  distinct i j k' hi hj := by
    rcases (push_hasKey_iff hsame haddr hkey).mp hi with hi' | ⟨rfl, rfl⟩
    · rcases (push_hasKey_iff hsame haddr hkey).mp hj with hj' | ⟨rfl, rfl⟩
      · exact hok.distinct i j k' hi' hj'
      · exact absurd hi' (hnew i)
    · rcases (push_hasKey_iff hsame haddr hkey).mp hj with hj' | ⟨rfl, -⟩
      · exact absurd hj' (hnew j)
      · rfl
  pair i k' hi hc := by
    have hc' : m.maxUse + 1 ≤ (m.push k addr).control i := hc
    rcases (push_hasKey_iff hsame haddr hkey).mp hi with hi | ⟨rfl, rfl⟩
    · have hctl : (m.push k addr).control i = m.control i := by
        simp only [DLeaf.control, DLeaf.push, Function.update_of_ne hi.1.ne]
      rw [hctl] at hc' ⊢
      simp only [DLeaf.push, Function.update_of_ne (show m.control i ≠ m.maxUse by omega)]
      exact hok.pair i k' hi (by omega)
    · have hctl : (m.push k' addr).control m.maxUse = 0 := by
        simp [DLeaf.control, DLeaf.push, newSlot]
      omega

omit hval in
theorem ValsOK.push {W : Key → Word → Prop} (hvals : ValsOK W p m) :
    ValsOK W p' (m.push k addr) := by
  intro i k' hi hc
  have hc' : m.maxUse + 1 ≤ (m.push k addr).control i := hc
  rcases (push_hasKey_iff hsame haddr hkey).mp hi with hi | ⟨rfl, rfl⟩
  · have hctl : (m.push k addr).control i = m.control i := by
      simp only [DLeaf.control, DLeaf.push, Function.update_of_ne hi.1.ne]
    rw [hctl] at hc' ⊢
    simp only [DLeaf.push, Function.update_of_ne (show m.control i + 1 ≠ m.maxUse by omega)]
    exact hvals i k' hi (by omega)
  · have hctl : (m.push k' addr).control m.maxUse = 0 := by
      simp [DLeaf.control, DLeaf.push, newSlot]
    omega

end Push

end ZBTree
