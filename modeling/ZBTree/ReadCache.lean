import ZBTree.Sequential

/-!
# The variant that caches on reading

`zbtree_r.cpp` differs from `zbtree.cpp` in what it does with the cells of a leaf that no
slot uses. A split leaves them alone; `find` puts the record that it has read into the next
free pair of cells, and when there is none it may take over the pair of a slot that has been
read less often. `insert` searches for duplicates by the records alone.
-/

namespace ZBTree

open RangeIndex Pmem LawfulPmem

/-- `Tree` of `zbtree_r.cpp`. The fields `compact_use` and `compact_full` of its leaves are kept
beside the leaves; at the address of a leaf that is not there they are what `malloc` will
find. -/
structure CacheTree (P : Type) where
  tree : TreeState P
  compactUse : Addr → Nat
  compactFull : Addr → Bool

namespace ReadCache

variable {P : Type}

/-! ### insert -/

/-- The search for the key among the used slots before an insertion. -/
def duplicate [Pmem P] (p : P) (m : DLeaf) (key : Key) : Nat → Nat → Exec Bool
  | 0, _ => .ok false
  | n + 1, i =>
    if (m.fingerPrint i).hashByte = hashfunc key then do
      let k ← deref (logKey p (m.fingerPrint i).ptrField.toNat)
      if k = key then return true
      else duplicate p m key n (i + 1)
    else duplicate p m key n (i + 1)

/-- The branch of `insert` for a leaf with room. -/
def fillSlot [Pmem P] (s : CacheTree P) (t : Tid) (key : Key) (val : Word) (valueLen : BitVec 32)
    (leaf : Addr) : Exec (CacheTree P) := do
  let m ← deref (s.tree.dleafHeap leaf)
  let tree ← ZBTree.fillSlot s.tree t key val valueLen leaf
  return { s with
    tree := tree
    compactUse :=
      if m.maxUse = s.compactUse leaf then
        Function.update s.compactUse leaf (s.compactUse leaf + 1)
      else s.compactUse }

/-- The leaf that is split, after `split_leaf`. -/
def leftHalf (old : DLeaf) (dramBuffer : Nat → AdaptiveSlot) (keys : Nat → NodeEntry)
    (newMeta : Addr) : DLeaf :=
  { old with
    fingerPrint := copyWords dramBuffer 0 LEFT_KEY old.fingerPrint
    maxUse := LEFT_KEY
    next := newMeta
    maxKey := (keys (LEFT_KEY - 1)).oneKey }

/-- The new leaf, in a block that held `junk`. -/
def rightHalf (old junk : DLeaf) (dramBuffer : Nat → AdaptiveSlot) (keys : Nat → NodeEntry)
    (newLeaf : Addr) : DLeaf where
  fingerPrint := copyWords dramBuffer RIGHT_KEY (MAX_LEAF_KEY - RIGHT_KEY) junk.fingerPrint
  maxUse := RIGHT_KEY
  tempInsert := 0
  next := old.next
  altPtr := newLeaf
  maxKey := (keys (MAX_LEAF_KEY - 1)).oneKey

/-- `Tree::split_leaf` (`zbtree_r.cpp`); returns the new leaf. -/
def splitLeaf [Pmem P] (s : CacheTree P) (t : Tid) (pl : Addr) (leaf : Addr)
    (dramBuffer : Nat → AdaptiveSlot) (keys : Nat → NodeEntry) : Exec (Addr × CacheTree P) := do
  let (newLeaf, pm) ← deref (nAllocate s.tree.pm t)
  let old ← deref (s.tree.dleafHeap leaf)
  let (newMeta, tree) := s.tree.mallocLeaf fun junk => rightHalf old junk dramBuffer keys newLeaf
  let tree := tree.setLeaf leaf (leftHalf old dramBuffer keys newMeta)
  let pm ← linkPleaf pm pl newLeaf (keys (LEFT_KEY - 1)).oneKey (keys (MAX_LEAF_KEY - 1)).oneKey
  return (newMeta, { s with
    tree := { tree with pm := pm }
    compactUse := Function.update (Function.update s.compactUse newMeta RIGHT_KEY) leaf RIGHT_KEY })

/-- The branch of `insert` for a full leaf up to the return of `split_leaf`. -/
def splitFull [Pmem P] (s : CacheTree P) (t : Tid) (leaf : Addr) :
    Exec (Addr × Key × Addr × CacheTree P) := do
  let m ← deref (s.tree.dleafHeap leaf)
  let buf ← readEntries s.tree.pm m MAX_LEAF_KEY
  let fingerBuffer := m.fingerBuffer
  let (keys, fingers) ← bounded (qsort (2 * MAX_LEAF_KEY) 0 (MAX_LEAF_KEY - 1) buf fingerBuffer)
  let (dramBuffer, tree) := s.tree.stackBuf keys
  let tree := tree.setLeaf leaf { m with altPtr := dramBuffer, tempInsert := m.tempInsert + 1 }
  let (leafMeta2, s) ← splitLeaf { s with tree := tree } t m.altPtr leaf fingers keys
  return (leafMeta2, (keys SPLIT_POS).oneKey, m.altPtr, s)

/-- `Tree::insert` (`zbtree_r.cpp`); the first argument bounds the number of times it goes to `restart`. -/
def insert [Pmem P] : Nat → CacheTree P → Tid → Key → Word → BitVec 32 →
    Exec (Bool × CacheTree P)
  | 0, _, _, _, _, _ => .error .spin
  | n + 1, s, t, key, val, valueLen => do
    let (lockState, leaf, tree) ← lockLeaf s.tree key
    let s := { s with tree := tree }
    if !lockState then insert n s t key val valueLen
    else
      let m ← deref (s.tree.dleafHeap leaf)
      if ← duplicate s.tree.pm m key m.maxUse 0 then return (false, s)
      else if m.maxUse < MAX_LEAF_KEY then
        let s ← fillSlot s t key val valueLen leaf
        return (true, s)
      else
        let (leaf2, splitKey, insertLeaf, s) ← splitFull s t leaf
        let tree ← installSeparator s.tree key splitKey leaf leaf2 insertLeaf
        insert n { s with tree := tree } t key val valueLen

/-! ### find -/

/-- What the fingerprint search of `find` ends with. -/
inductive SlotRead where
  | absent
  | pair (i : Nat) (val : Word)
  | record (i : Nat) (kvPtr : Addr)
deriving DecidableEq

/-- The fingerprint search of `find`: a match in an inline pair, or a record that matches. -/
def findSlots [Pmem P] (p : P) (m : DLeaf) (key : Key) : Nat → Nat → Exec SlotRead
  | 0, _ => .ok .absent
  | n + 1, i =>
    let slot := m.fingerPrint i
    if slot.hashByte = hashfunc key then
      if m.maxUse ≤ slot.controlBit.toNat then
        if (m.fingerPrint slot.controlBit.toNat).val = key then
          .ok (.pair i (m.fingerPrint (slot.controlBit.toNat + 1)).val)
        else findSlots p m key n (i + 1)
      else do
        let k ← deref (logKey p slot.ptrField.toNat)
        if k = key then return .record i slot.ptrField.toNat
        else findSlots p m key n (i + 1)
    else findSlots p m key n (i + 1)

/-- Where the record goes that has been read. -/
inductive Place where
  | nowhere
  | free
  | instead (j : Nat)
deriving DecidableEq

/-- The loop of the data replacement: a slot that has been read less often than slot `i` and has
an inline pair. -/
def victim (m : DLeaf) (i : Nat) : Nat → Nat → Option Nat
  | 0, _ => none
  | n + 1, j =>
    if (m.fingerPrint j).accessBit < (m.fingerPrint i).accessBit ∧
        m.maxUse < (m.fingerPrint j).controlBit.toNat then some j
    else victim m i n (j + 1)

/-- The cells for the record of slot `i`; `none` when the data replacement finds no slot to
replace. -/
def choosePlace (s : CacheTree P) (leaf : Addr) (m : DLeaf) (i : Nat) : Option Place :=
  if s.compactUse leaf < MAX_LEAF_KEY - 1 then some .free
  else if s.compactFull leaf ∨ MAX_LEAF_KEY - 2 ≤ m.maxUse then some .nowhere
  else (victim m i m.maxUse 0).map .instead

/-- The end of a data replacement that has replaced nothing: `compact_full` is set, and
`temp_insert` is reset. -/
def giveUp (s : CacheTree P) (leaf : Addr) : Exec (CacheTree P) := do
  let m ← deref (s.tree.dleafHeap leaf)
  return { s with
    tree := s.tree.setLeaf leaf { m with tempInsert := 0 }
    compactFull := Function.update s.compactFull leaf true }

/-- The compare-and-swap of `temp_insert` from 0 to 1. -/
def takeLeaf (s : CacheTree P) (leaf : Addr) : Exec (Bool × CacheTree P) := do
  let m ← deref (s.tree.dleafHeap leaf)
  if m.tempInsert = 0 then
    return (true, { s with tree := s.tree.setLeaf leaf { m with tempInsert := 1 } })
  else return (false, s)

/-- Put a record into the free pair at `compact_use`. -/
def lodge (m : DLeaf) (i compactUse : Nat) (key : Key) (val : Word) : DLeaf :=
  let slots := Function.update m.fingerPrint i
    { m.fingerPrint i with controlBit := BitVec.ofNat 6 compactUse }
  let slots := Function.update slots compactUse (AdaptiveSlot.ofVal key)
  let slots := Function.update slots (compactUse + 1) (AdaptiveSlot.ofVal val)
  ({ m with fingerPrint := slots } : DLeaf).touch i

/-- Put a record into the pair of slot `j`. -/
def takeOver (m : DLeaf) (i j : Nat) (key : Key) (val : Word) : DLeaf :=
  let slots := Function.update m.fingerPrint i
    { m.fingerPrint i with controlBit := (m.fingerPrint j).controlBit }
  let slots := Function.update slots j { slots j with controlBit := 0 }
  let slots := Function.update slots (slots i).controlBit.toNat (AdaptiveSlot.ofVal key)
  let slots := Function.update slots ((slots i).controlBit.toNat + 1) (AdaptiveSlot.ofVal val)
  ({ m with fingerPrint := slots } : DLeaf).touch i

/-- What `find` writes to the leaf that it holds, before it releases it. -/
def storePair [Pmem P] (s : CacheTree P) (leaf : Addr) (i : Nat) (kvPtr : Addr) :
    Place → Exec (CacheTree P)
  | .nowhere => .ok s
  | .free => do
    let m ← deref (s.tree.dleafHeap leaf)
    let k ← deref (logKey s.tree.pm kvPtr)
    let v ← deref (logVal s.tree.pm kvPtr)
    return { s with
      tree := s.tree.setLeaf leaf { lodge m i (s.compactUse leaf) k v with tempInsert := 0 }
      compactUse := Function.update s.compactUse leaf (s.compactUse leaf + 1 + 1) }
  | .instead j => do
    let m ← deref (s.tree.dleafHeap leaf)
    let k ← deref (logKey s.tree.pm kvPtr)
    let v ← deref (logVal s.tree.pm kvPtr)
    return { s with tree := s.tree.setLeaf leaf { takeOver m i j k v with tempInsert := 0 } }

/-- `find` after it has read the record of slot `i`. -/
def cacheRecord [Pmem P] (s : CacheTree P) (leaf : Addr) (i : Nat) (kvPtr : Addr) :
    Exec (CacheTree P) := do
  let m ← deref (s.tree.dleafHeap leaf)
  match choosePlace s leaf m i with
  | none => giveUp s leaf
  | some .nowhere => return s
  | some place =>
    let (lockState, s) ← takeLeaf s leaf
    if lockState then storePair s leaf i kvPtr place else return s

/-- `Tree::find` (`zbtree_r.cpp`); the first argument bounds the number of times it goes to `Find_begin`. -/
def find [Pmem P] : Nat → CacheTree P → Key → Exec (Word × CacheTree P)
  | 0, _, _ => .error .spin
  | n + 1, s, key =>
    if s.tree.tempLevel = 0 then do
      let m ← deref (s.tree.dleafHeap s.tree.root)
      let v ← findRoot s.tree.pm m key MAX_LEAF_KEY 0
      return (v, s)
    else do
      let leaf ← descendFrom s.tree key s.tree.tempLevel s.tree.root
      let m ← deref (s.tree.dleafHeap leaf)
      if 1 < m.tempInsert then find n s key
      else
        match ← findSlots s.tree.pm m key m.maxUse 0 with
        | .absent => return (0, s)
        | .pair i v => return (v, { s with tree := s.tree.setLeaf leaf (m.touch i) })
        | .record i kvPtr => do
          let v ← deref (logVal s.tree.pm kvPtr)
          let s ← cacheRecord s leaf i kvPtr
          return (v, s)

/-! ### find without the cache -/

/-- `find` without the caching code: every matching slot is read through `ptr_field`, as in a root
leaf. -/
def findUncached [Pmem P] : Nat → CacheTree P → Key → Exec (Word × CacheTree P)
  | 0, _, _ => .error .spin
  | n + 1, s, key =>
    if s.tree.tempLevel = 0 then do
      let m ← deref (s.tree.dleafHeap s.tree.root)
      let v ← findRoot s.tree.pm m key MAX_LEAF_KEY 0
      return (v, s)
    else do
      let leaf ← descendFrom s.tree key s.tree.tempLevel s.tree.root
      let m ← deref (s.tree.dleafHeap leaf)
      if 1 < m.tempInsert then findUncached n s key
      else do
        let v ← findRoot s.tree.pm m key m.maxUse 0
        return (v, s)

/-- `Tree::Tree` (`zbtree_r.cpp`). -/
def init [Pmem P] (pm : P) (t : Tid) (junkInner : Addr → InnerNode) (junkLeaf : Addr → DLeaf)
    (junkUse : Addr → Nat) (junkFull : Addr → Bool) : Exec (CacheTree P) := do
  let tree ← ZBTree.init pm t junkInner junkLeaf
  return ⟨tree, junkUse, junkFull⟩

/-! ### The pairs of a leaf

A pair occupies two cells behind the used slots, and the control bits of its slot point to the first. Pairs that
`find` adds go to the end at `compact_use`; when there is no room, one takes the cells of another slot. -/

/-- The pairs that `find` looks at lie below `compact_use` and do not overlap. -/
structure PairsApart (m : DLeaf) (compactUse : Nat) : Prop where
  below : ∀ i, i < m.maxUse → m.maxUse ≤ m.control i → m.control i + 2 ≤ compactUse
  apart : ∀ i j, i < m.maxUse → j < m.maxUse → i ≠ j → m.maxUse ≤ m.control i →
    m.maxUse ≤ m.control j → m.control i + 2 ≤ m.control j ∨ m.control j + 2 ≤ m.control i

theorem PairsApart.of_plain {m : DLeaf} (h : ∀ i, i < m.maxUse → m.control i = 0) (compactUse : Nat) :
    PairsApart m compactUse where
  below i hi hc := by
    rw [h i hi] at hc
    exact absurd (Nat.lt_of_le_of_lt (Nat.zero_le i) hi) (Nat.not_lt.mpr hc)
  apart i _ hi _ _ hc := by
    rw [h i hi] at hc
    exact absurd (Nat.lt_of_le_of_lt (Nat.zero_le i) hi) (Nat.not_lt.mpr hc)

/-- `m'` is `m` after the pair of slot `i` has been written to the cells from `c` on. Other slots
may have lost their pairs; the new one overlaps with none of those that are left. -/
structure PairWritten (m m' : DLeaf) (i c : Nat) (key : Key) (val : Word) : Prop where
  use : m'.maxUse = m.maxUse
  slot : ∀ j, j < m.maxUse → (m'.fingerPrint j).hashByte = (m.fingerPrint j).hashByte ∧
    (m'.fingerPrint j).ptrField = (m.fingerPrint j).ptrField
  self : m'.control i = c
  other : ∀ j, j < m.maxUse → j ≠ i → m'.control j = 0 ∨
    m'.control j = m.control j ∧
      (m.maxUse ≤ m.control j → m.control j + 2 ≤ c ∨ c + 2 ≤ m.control j)
  key : (m'.fingerPrint c).val = key
  val : (m'.fingerPrint (c + 1)).val = val
  spare : ∀ x, m.maxUse ≤ x → x ≠ c → x ≠ c + 1 → m'.fingerPrint x = m.fingerPrint x
  above : m.maxUse ≤ c
  inside : c + 1 < MAX_LEAF_KEY

section PairWritten

variable {m m' : DLeaf} {i c : Nat} {key : Key} {val : Word}

theorem PairWritten.samePtrs (h : PairWritten m m' i c key val) : SamePtrs m m' :=
  ⟨h.use, fun j hj => congrArg BitVec.toNat (h.slot j hj).2⟩

theorem PairWritten.pair_cases (h : PairWritten m m' i c key val) {j : Nat} (hj : j < m.maxUse)
    (hc : m.maxUse ≤ m'.control j) : j = i ∨ j ≠ i ∧ m'.control j = m.control j ∧
      (m.control j + 2 ≤ c ∨ c + 2 ≤ m.control j) := by
  by_cases hji : j = i
  · exact Or.inl hji
  · rcases h.other j hj hji with hzero | ⟨hsame, hdisj⟩
    · rw [hzero] at hc
      exact absurd (Nat.lt_of_le_of_lt (Nat.zero_le j) hj) (Nat.not_lt.mpr hc)
    · exact Or.inr ⟨hji, hsame, hdisj (hsame ▸ hc)⟩

variable [Pmem P] {p : P}

theorem PairWritten.slotsOK (h : PairWritten m m' i c key val) (hok : SlotsOK p m)
    (hi : HasKey p m key i) : SlotsOK p m' where
  read j hj := by
    rw [h.use] at hj
    rw [h.samePtrs.ptr j hj]
    exact hok.read j hj
  hash j k hj := by
    have hj' : HasKey p m k j := h.samePtrs.hasKey_iff.mp hj
    rw [(h.slot j hj'.1).1]
    exact hok.hash j k hj'
  distinct j j' k hj hj' := hok.distinct j j' k (h.samePtrs.hasKey_iff.mp hj)
    (h.samePtrs.hasKey_iff.mp hj')
  pair j k hj hc := by
    have hj' : HasKey p m k j := h.samePtrs.hasKey_iff.mp hj
    rw [h.use] at hc
    rcases h.pair_cases hj'.1 hc with rfl | ⟨-, hsame, hdisj⟩
    · rw [h.self]
      refine ⟨h.inside, h.key.trans ?_⟩
      exact Option.some.inj (hi.2.symm.trans hj'.2)
    · rw [hsame] at hc ⊢
      rw [h.spare _ hc (by omega) (by omega)]
      exact hok.pair j k hj' hc

theorem PairWritten.valsOK {W : Key → Word → Prop} (h : PairWritten m m' i c key val)
    (hvals : ValsOK W p m) (hi : HasKey p m key i) (hval : W key val) : ValsOK W p m' := by
  intro j k hj hc
  have hj' : HasKey p m k j := h.samePtrs.hasKey_iff.mp hj
  rw [h.use] at hc
  rcases h.pair_cases hj'.1 hc with rfl | ⟨-, hsame, hdisj⟩
  · rw [h.self, h.val]
    rwa [← Option.some.inj (hi.2.symm.trans hj'.2)]
  · rw [hsame] at hc ⊢
    rw [h.spare _ (by omega) (by omega) (by omega)]
    exact hvals j k hj' hc

omit [Pmem P] in
theorem PairWritten.apart (h : PairWritten m m' i c key val) {compactUse use' : Nat}
    (hapart : PairsApart m compactUse) (hle : compactUse ≤ use') (hc : c + 2 ≤ use') :
    PairsApart m' use' where
  below j hj hcj := by
    rw [h.use] at hj hcj
    rcases h.pair_cases hj hcj with rfl | ⟨-, hsame, -⟩
    · rw [h.self]
      exact hc
    · rw [hsame] at hcj ⊢
      exact (hapart.below j hj hcj).trans hle
  apart j j' hj hj' hne hcj hcj' := by
    rw [h.use] at hj hj' hcj hcj'
    rcases h.pair_cases hj hcj with rfl | ⟨-, hsame, hdisj⟩
    · rcases h.pair_cases hj' hcj' with rfl | ⟨-, hsame', hdisj'⟩
      · exact absurd rfl hne
      · rw [h.self, hsame']
        exact hdisj'.symm
    · rcases h.pair_cases hj' hcj' with rfl | ⟨-, hsame', -⟩
      · rw [h.self, hsame]
        exact hdisj
      · rw [hsame] at hcj ⊢
        rw [hsame'] at hcj' ⊢
        exact hapart.apart j j' hj hj' hne hcj hcj'

end PairWritten

/-! ### The two ways to write a pair -/

section Write

variable {m : DLeaf} {i j compactUse : Nat} (key : Key) (val : Word)

theorem touch_fields (m : DLeaf) (i : Nat) : (m.touch i).maxUse = m.maxUse ∧
    (∀ j, ((m.touch i).fingerPrint j).hashByte = (m.fingerPrint j).hashByte ∧
      ((m.touch i).fingerPrint j).ptrField = (m.fingerPrint j).ptrField ∧
      (m.touch i).control j = m.control j) ∧
    ∀ j, j ≠ i → (m.touch i).fingerPrint j = m.fingerPrint j := by
  unfold DLeaf.touch
  split
  · refine ⟨rfl, fun j => ?_, fun j hj => Function.update_of_ne hj _ _⟩
    by_cases hj : j = i
    · subst hj
      simp [DLeaf.control]
    · simp [DLeaf.control, Function.update_of_ne hj]
  · exact ⟨rfl, fun j => ⟨rfl, rfl, rfl⟩, fun _ _ => rfl⟩

/-- The next free pair. -/
theorem lodge_written (hi : i < m.maxUse) (huse : m.maxUse ≤ compactUse)
    (hroom : compactUse < MAX_LEAF_KEY - 1) (hapart : PairsApart m compactUse) :
    PairWritten m (lodge m i compactUse key val) i compactUse key val := by
  have hroom' : compactUse < 29 := hroom
  have hic : i ≠ compactUse := by omega
  have hic' : i ≠ compactUse + 1 := by omega
  unfold lodge
  dsimp only
  generalize hslots : Function.update (Function.update (Function.update m.fingerPrint i
    { m.fingerPrint i with controlBit := BitVec.ofNat 6 compactUse }) compactUse
      (AdaptiveSlot.ofVal key)) (compactUse + 1) (AdaptiveSlot.ofVal val) = slots
  obtain ⟨huse', hfields, hoff⟩ := touch_fields { m with fingerPrint := slots } i
  have hself : slots i = { m.fingerPrint i with controlBit := BitVec.ofNat 6 compactUse } := by
    rw [← hslots, Function.update_of_ne hic', Function.update_of_ne hic, Function.update_self]
  -- the other cells keep what they hold
  have hold : ∀ x, x ≠ i → x ≠ compactUse → x ≠ compactUse + 1 → slots x = m.fingerPrint x := by
    intro x hx hx' hx''
    rw [← hslots, Function.update_of_ne hx'', Function.update_of_ne hx', Function.update_of_ne hx]
  refine ⟨huse', fun x hx => ?_, ?_, fun x hx hxi => Or.inr ⟨?_, fun hc => Or.inl (hapart.below x hx hc)⟩,
    ?_, ?_, fun x hx hx' hx'' => ?_, huse, Nat.succ_lt_succ hroom'⟩
  · rw [(hfields x).1, (hfields x).2.1]
    by_cases hxi : x = i
    · subst hxi
      dsimp only
      rw [hself]
      exact ⟨rfl, rfl⟩
    · dsimp only
      rw [hold x hxi (by omega) (by omega)]
      exact ⟨rfl, rfl⟩
  · rw [(hfields i).2.2]
    change (slots i).controlBit.toNat = compactUse
    rw [hself]
    exact Nat.mod_eq_of_lt (by omega)
  · rw [(hfields x).2.2]
    change (slots x).controlBit.toNat = m.control x
    rw [hold x hxi (by omega) (by omega)]
    rfl
  · rw [hoff compactUse (Ne.symm hic)]
    dsimp only
    rw [← hslots, Function.update_of_ne (Nat.ne_of_lt (Nat.lt_succ_self _)), Function.update_self,
      AdaptiveSlot.val_ofVal]
  · rw [hoff (compactUse + 1) (Ne.symm hic')]
    dsimp only
    rw [← hslots, Function.update_self, AdaptiveSlot.val_ofVal]
  · rw [hoff x (by omega)]
    exact hold x (by omega) hx' hx''

/-- The pair of another slot, which loses it. -/
theorem takeOver_written (hi : i < m.maxUse) (hj : j < m.maxUse) (hne : j ≠ i)
    (hpair : m.maxUse ≤ m.control j) (hinside : m.control j + 1 < MAX_LEAF_KEY)
    (hapart : PairsApart m compactUse) :
    PairWritten m (takeOver m i j key val) i (m.control j) key val := by
  have hic : i ≠ m.control j := by omega
  have hic' : i ≠ m.control j + 1 := by omega
  have hjc : j ≠ m.control j := by omega
  have hjc' : j ≠ m.control j + 1 := by omega
  -- the control bits that the last two stores read are those of the victim
  have hread : ∀ f : Nat → AdaptiveSlot, f i = { m.fingerPrint i with controlBit := (m.fingerPrint j).controlBit } →
      (f i).controlBit.toNat = m.control j := fun f hf => by rw [hf]; rfl
  unfold takeOver
  dsimp only
  generalize hfirst : Function.update m.fingerPrint i
    { m.fingerPrint i with controlBit := (m.fingerPrint j).controlBit } = first
  have hfirst_i : first i = { m.fingerPrint i with controlBit := (m.fingerPrint j).controlBit } := by
    rw [← hfirst, Function.update_self]
  generalize hsecond : Function.update first j { first j with controlBit := 0 } = second
  have hsecond_i : second i = { m.fingerPrint i with controlBit := (m.fingerPrint j).controlBit } := by
    rw [← hsecond, Function.update_of_ne (Ne.symm hne), hfirst_i]
  rw [hread second hsecond_i]
  generalize hthird : Function.update second (m.control j) (AdaptiveSlot.ofVal key) = third
  have hthird_i : third i = { m.fingerPrint i with controlBit := (m.fingerPrint j).controlBit } := by
    rw [← hthird, Function.update_of_ne hic, hsecond_i]
  rw [hread third hthird_i]
  generalize hslots : Function.update third (m.control j + 1) (AdaptiveSlot.ofVal val) = slots
  obtain ⟨huse', hfields, hoff⟩ := touch_fields { m with fingerPrint := slots } i
  have hself : slots i = { m.fingerPrint i with controlBit := (m.fingerPrint j).controlBit } := by
    rw [← hslots, Function.update_of_ne hic', hthird_i]
  -- slot `j` keeps its record and has no pair any more
  have hlost : slots j = { m.fingerPrint j with controlBit := 0 } := by
    rw [← hslots, Function.update_of_ne hjc', ← hthird, Function.update_of_ne hjc, ← hsecond,
      Function.update_self, ← hfirst, Function.update_of_ne hne]
  have hold : ∀ x, x ≠ i → x ≠ j → x ≠ m.control j → x ≠ m.control j + 1 →
      slots x = m.fingerPrint x := by
    intro x hxi hxj hx hx'
    rw [← hslots, Function.update_of_ne hx', ← hthird, Function.update_of_ne hx, ← hsecond,
      Function.update_of_ne hxj, ← hfirst, Function.update_of_ne hxi]
  refine ⟨huse', fun x hx => ?_, ?_, fun x hx hxi => ?_, ?_, ?_, fun x hx hx' hx'' => ?_, hpair,
    hinside⟩
  · rw [(hfields x).1, (hfields x).2.1]
    dsimp only
    by_cases hxi : x = i
    · subst hxi
      rw [hself]
      exact ⟨rfl, rfl⟩
    · by_cases hxj : x = j
      · subst hxj
        rw [hlost]
        exact ⟨rfl, rfl⟩
      · rw [hold x hxi hxj (by omega) (by omega)]
        exact ⟨rfl, rfl⟩
  · rw [(hfields i).2.2]
    exact hread slots hself
  · rw [(hfields x).2.2]
    by_cases hxj : x = j
    · left
      subst hxj
      change (slots x).controlBit.toNat = 0
      rw [hlost]
      rfl
    · right
      refine ⟨?_, fun hc => hapart.apart x j hx hj hxj hc hpair⟩
      change (slots x).controlBit.toNat = m.control x
      rw [hold x hxi hxj (by omega) (by omega)]
      rfl
  · rw [hoff _ (Ne.symm hic)]
    dsimp only
    rw [← hslots, Function.update_of_ne (Nat.ne_of_lt (Nat.lt_succ_self _)), ← hthird,
      Function.update_self, AdaptiveSlot.val_ofVal]
  · rw [hoff _ (Ne.symm hic')]
    dsimp only
    rw [← hslots, Function.update_self, AdaptiveSlot.val_ofVal]
  · rw [hoff x (by omega)]
    exact hold x (by omega) (by omega) hx' hx''

theorem victim_some {n x : Nat} (h : victim m i n x = some j) :
    (x ≤ j ∧ j < x + n) ∧ m.maxUse < m.control j ∧ j ≠ i := by
  induction n generalizing x with
  | zero => cases h
  | succ n ih =>
    unfold victim at h
    split at h
    · rename_i hcond
      cases h
      refine ⟨⟨Nat.le_refl _, Nat.lt_add_of_pos_right (Nat.succ_pos n)⟩, hcond.2, ?_⟩
      rintro rfl
      exact absurd hcond.1 (BitVec.lt_irrefl _)
    · obtain ⟨⟨hle, hlt⟩, hrest⟩ := ih h
      exact ⟨⟨Nat.le_of_succ_le hle, by omega⟩, hrest⟩

end Write

end ReadCache

end ZBTree
