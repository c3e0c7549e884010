import ZBTree.CacheSteps
import ZBTree.QuickInsert
import ZBTree.RootLookup
import ZBTree.MapContract

/-!
# Where the cached pairs begin

In `zbtree_r.cpp` the cells of a leaf from `compact_use` on are free for the pairs that `find` caches.
`insert` moves `compact_use` along when it fills the slot there, and a split resets it together with
`max_use`; `quick_insert`, which recovery calls, fills slots and leaves `compact_use` alone. So the
slots in use and the cached pairs stay apart exactly as long as `quick_insert` does not fill a slot of
a leaf that has been split.
-/

namespace ZBTree

open Pmem

namespace ReadCache

variable {P : Type} [Pmem P]

/-! ### quick_insert -/

/-- The branch of `quick_insert` for a full leaf up to the return of `split_leaf`. -/
def quickSplit (s : CacheTree P) (t : Tid) (leaf : Addr) :
    Exec (Addr × Key × Addr × CacheTree P) := do
  let m ← deref (s.tree.dleafHeap leaf)
  let buf ← readEntries s.tree.pm m MAX_LEAF_KEY
  let fingerBuffer := m.fingerBuffer
  let (keys, fingers) ← bounded (qsort (2 * MAX_LEAF_KEY) 0 (MAX_LEAF_KEY - 1) buf fingerBuffer)
  let (dramBuffer, tree) := s.tree.stackBuf keys
  let tree := tree.setLeaf leaf { m with altPtr := dramBuffer, tempInsert := m.tempInsert + 1 }
  let (leafMeta2, s) ← splitLeaf { s with tree := tree } t m.altPtr leaf (filterDuplicates fingers) keys
  return (leafMeta2, (keys SPLIT_POS).oneKey, m.altPtr, s)

/-- `Tree::quick_insert` (`zbtree_r.cpp`) of the record whose key field is at `val`; the first argument bounds the number of
times it goes to `restart`. -/
def quickInsert : Nat → CacheTree P → Tid → Key → Addr → Exec (CacheTree P)
  | 0, _, _, _, _ => .error .spin
  | n + 1, s, t, key, val => do
    let (lockState, leaf, tree) ← lockLeaf s.tree key
    let s := { s with tree := tree }
    if !lockState then quickInsert n s t key val
    else
      let m ← deref (s.tree.dleafHeap leaf)
      let (duplicate, m) ← quickScan s.tree.pm key m.maxUse 0 false m
      if m.maxUse < MAX_LEAF_KEY then
        return { s with tree := s.tree.setLeaf leaf (m.quickFill key val duplicate) }
      else
        let (leaf2, splitKey, insertLeaf, s) ←
          quickSplit { s with tree := s.tree.setLeaf leaf m } t leaf
        let tree ← installSeparator s.tree key splitKey leaf leaf2 insertLeaf
        quickInsert n { s with tree := tree } t key val

/-! ### Runs -/

inductive RecoveryOp where
  | quickInsert (key : Key) (kvAddr : Addr)
  | insert (key : Key) (val : Word) (valueLen : BitVec 32)
  | find (key : Key)

/-- One call, which goes back to its start `rounds` times at most. -/
def recoveryStep (rounds : Nat) (t : Tid) (s : CacheTree P) : RecoveryOp → Exec (CacheTree P)
  | .quickInsert key kvAddr => quickInsert rounds s t key kvAddr
  | .insert key val valueLen => do
    let (_, s) ← insert rounds s t key val valueLen
    return s
  | .find key => do
    let (_, s) ← find rounds s key
    return s

def recoveryRun (rounds : Nat) (t : Tid) : CacheTree P → List RecoveryOp → Exec (CacheTree P)
  | s, [] => .ok s
  | s, op :: ops => do
    let s ← recoveryStep rounds t s op
    recoveryRun rounds t s ops

def recoveryOps (records : List (Key × Addr)) (ops : List MapOp) : List RecoveryOp :=
  records.map (fun r => .quickInsert r.1 r.2) ++ ops.map fun
    | .insert key val valueLen => .insert key val valueLen
    | .find key => .find key

/-- A tree that consists of one leaf with `n` slots in use, which is free. -/
structure OneLeaf (n : Nat) (s : CacheTree P) : Prop where
  level : s.tree.tempLevel = 0
  leaf : ∃ m, s.tree.dleafHeap s.tree.root = some m ∧ m.maxUse = n ∧ m.tempInsert = 0
  only : ∀ a m, s.tree.dleafHeap a = some m → a = s.tree.root

/-- A descent through inner nodes ends at this leaf. -/
def BelowInner (s : CacheTree P) (leaf : Addr) : Prop :=
  1 ≤ s.tree.tempLevel ∧ ∃ key path, findInsert s.tree key = .ok (path, leaf)

/-- `max_use <= compact_use <= MAX_LEAF_KEY`. -/
def UseBound (s : CacheTree P) (leaf : Addr) : Prop :=
  ∀ m, s.tree.dleafHeap leaf = some m →
    m.maxUse ≤ s.compactUse leaf ∧ s.compactUse leaf ≤ MAX_LEAF_KEY

/-- No slot in use lies where the cached pairs begin. -/
def FrontierOK (s : CacheTree P) : Prop := ∀ leaf, BelowInner s leaf → UseBound s leaf

/-! ### A split resets both bounds

`split_leaf` of `zbtree_r.cpp` sets `max_use` and `compact_use` of both halves to 15. `insert` raises
`compact_use` with the slot it fills; `quick_insert` fills a slot and leaves `compact_use` alone, so the first
record that recovery puts into a half crosses it. -/

variable {s s' : CacheTree P} {t : Tid} {leaf right a : Addr} {key : Key}

/-- What a split does to the bounds. -/
structure SplitHalves (s s' : CacheTree P) (leaf right : Addr) : Prop where
  level : s'.tree.tempLevel = s.tree.tempLevel
  kept : ∃ m, s'.tree.dleafHeap leaf = some m ∧ m.maxUse = LEFT_KEY
  made : right ≠ leaf → ∃ m, s'.tree.dleafHeap right = some m ∧ m.maxUse = RIGHT_KEY ∧ m.tempInsert = 0
  use : ∀ a, a = leaf ∨ a = right → s'.compactUse a = RIGHT_KEY
  others : ∀ a, a ≠ leaf → a ≠ right →
    s'.tree.dleafHeap a = s.tree.dleafHeap a ∧ s'.compactUse a = s.compactUse a

theorem splitLeaf_halves {pl : Addr} {dramBuffer : Nat → AdaptiveSlot} {keys : Nat → NodeEntry}
    (h : splitLeaf s t pl leaf dramBuffer keys = .ok (right, s')) : SplitHalves s s' leaf right := by
  unfold splitLeaf at h
  simp only [bind_eq_ok, deref_eq_ok] at h
  obtain ⟨⟨newLeaf, pm⟩, -, old, -, pm', -, h⟩ := h
  cases h
  refine ⟨rfl, ⟨_, Function.update_self .., rfl⟩, fun hne => ?_, ?_, ?_⟩
  · exact ⟨rightHalf old (s.tree.junkLeaf s.tree.brk) dramBuffer keys newLeaf,
      (Function.update_of_ne hne _ _).trans (Function.update_self ..), rfl, rfl⟩
  · rintro b (rfl | rfl)
    · exact Function.update_self ..
    · by_cases hb : s.tree.brk = leaf
      · exact hb ▸ Function.update_self ..
      · exact (Function.update_of_ne hb _ _).trans (Function.update_self ..)
  · intro b hb hb'
    exact ⟨(Function.update_of_ne hb _ _).trans (Function.update_of_ne hb' _ _),
      (Function.update_of_ne hb _ _).trans (Function.update_of_ne hb' _ _)⟩

omit [Pmem P] in
theorem SplitHalves.of_setLeaf {m' : DLeaf} {tree : TreeState P}
    (h : SplitHalves { s with tree := tree.setLeaf leaf m' } s' leaf right)
    (hlevel : tree.tempLevel = s.tree.tempLevel) (hheap : tree.dleafHeap = s.tree.dleafHeap) :
    SplitHalves s s' leaf right :=
  { h with
    level := h.level.trans hlevel
    others := by
      intro a ha hright
      obtain ⟨hsame, huse⟩ := h.others a ha hright
      refine ⟨hsame.trans ?_, huse⟩
      rw [← hheap]
      exact Function.update_of_ne ha _ _ }

theorem splitFull_halves {splitKey : Key} {insertLeaf : Addr}
    (h : splitFull s t leaf = .ok (right, splitKey, insertLeaf, s')) : SplitHalves s s' leaf right := by
  unfold splitFull at h
  simp only [bind_eq_ok] at h
  obtain ⟨m, -, buf, -, ⟨keys, fingers⟩, -, ⟨leafMeta2, s₁⟩, hsplit, h⟩ := h
  cases h
  exact (splitLeaf_halves hsplit).of_setLeaf rfl rfl

theorem quickSplit_halves {splitKey : Key} {insertLeaf : Addr}
    (h : quickSplit s t leaf = .ok (right, splitKey, insertLeaf, s')) : SplitHalves s s' leaf right := by
  unfold quickSplit at h
  simp only [bind_eq_ok] at h
  obtain ⟨m, -, buf, -, ⟨keys, fingers⟩, -, ⟨leafMeta2, s₁⟩, hsplit, h⟩ := h
  cases h
  exact (splitLeaf_halves hsplit).of_setLeaf rfl rfl

/-! ### insert and find keep the bounds -/

def Frontier (s : CacheTree P) : Prop :=
  ∀ a, 1 ≤ s.tree.tempLevel ∨ a ≠ s.tree.root → UseBound s a

omit [Pmem P] in
theorem Frontier.ok (h : Frontier s) : FrontierOK s := fun leaf hbelow => h leaf (Or.inl hbelow.1)

omit [Pmem P] in
theorem Frontier.write (h : Frontier s) {m m' : DLeaf} (hm : s.tree.dleafHeap a = some m)
    (hheap : ∀ b n, s'.tree.dleafHeap b = some n →
      (b = a ∧ n = m') ∨ (b ≠ a ∧ s.tree.dleafHeap b = some n))
    (huse : ∀ b, b ≠ a → s'.compactUse b = s.compactUse b)
    (hlevel : s'.tree.tempLevel = s.tree.tempLevel) (hroot : s'.tree.root = s.tree.root)
    (hbound : m.maxUse ≤ s.compactUse a → s.compactUse a ≤ MAX_LEAF_KEY →
      m'.maxUse ≤ s'.compactUse a ∧ s'.compactUse a ≤ MAX_LEAF_KEY) : Frontier s' := by
  intro b hb n hn
  rw [hlevel, hroot] at hb
  rcases hheap b n hn with ⟨rfl, rfl⟩ | ⟨hba, hn'⟩
  · obtain ⟨hlow, hhigh⟩ := h b hb m hm
    exact hbound hlow hhigh
  · rw [huse b hba]
    exact h b hb n hn'

omit [Pmem P] in
theorem Frontier.setLeaf (h : Frontier s) {m m' : DLeaf} (hm : s.tree.dleafHeap a = some m)
    (huse : m'.maxUse = m.maxUse) {full : Addr → Bool} :
    Frontier ⟨s.tree.setLeaf a m', s.compactUse, full⟩ :=
  h.write hm (fun _ _ hn => setLeaf_heap hn) (fun _ _ => rfl) rfl rfl fun hlow hhigh =>
    ⟨huse ▸ hlow, hhigh⟩

omit [Pmem P] in
/-- After a split has been recorded, the halves and all other leaves keep the bounds. -/
theorem Frontier.install {s₁ : CacheTree P} {tree : TreeState P} {splitKey : Key} {insertLeaf : Addr}
    (h : Frontier s) (hroot : s.tree.tempLevel = 0 → leaf = s.tree.root)
    (hhalves : SplitHalves s s₁ leaf right)
    (hinst : installSeparator s₁.tree key splitKey leaf right insertLeaf = .ok tree) :
    Frontier { s₁ with tree := tree } := by
  obtain ⟨s₂, m, hinner, hm, rfl⟩ := installSeparator_eq hinst
  obtain ⟨m₀, hm₀, huse⟩ := hhalves.kept
  rw [hm, Option.some.injEq] at hm₀
  subst hm₀
  intro b _ n hn
  rcases setLeaf_heap hn with ⟨rfl, rfl⟩ | ⟨hb, hn'⟩
  · have hzero : s₁.compactUse b = RIGHT_KEY := hhalves.use b (Or.inl rfl)
    rw [hzero]
    exact ⟨Nat.le_of_eq huse, by decide⟩
  · rw [hinner.leaves] at hn'
    by_cases hright : b = right
    · subst hright
      obtain ⟨m', hm', huse', -⟩ := hhalves.made hb
      rw [hn', Option.some.injEq] at hm'
      subst hm'
      have hzero : s₁.compactUse b = RIGHT_KEY := hhalves.use b (Or.inr rfl)
      rw [hzero]
      exact ⟨Nat.le_of_eq huse', by decide⟩
    · obtain ⟨hsame, hcompact⟩ := hhalves.others b hb hright
      rw [hcompact]
      apply h b _ n (hsame ▸ hn')
      by_cases hlevel : s.tree.tempLevel = 0
      · exact Or.inr fun heq => hb (heq.trans (hroot hlevel).symm)
      · exact Or.inl (Nat.pos_of_ne_zero hlevel)

theorem Frontier.fillSlot {v : Word} {len : BitVec 32} {m : DLeaf} (h : Frontier s)
    (hm : s.tree.dleafHeap leaf = some m) (hroom : m.maxUse < MAX_LEAF_KEY)
    (hfill : fillSlot s t key v len leaf = .ok s') : Frontier s' := by
  unfold ReadCache.fillSlot ZBTree.fillSlot at hfill
  simp only [hm, deref_some, ok_bind, bind_eq_ok, deref_eq_ok] at hfill
  obtain ⟨tree, ⟨⟨addr, pm⟩, -, htree⟩, hfill⟩ := hfill
  cases htree
  cases hfill
  refine h.write hm (fun b n hn => fillState_heap hn) (fun b hb => ?_) rfl rfl ?_
  · dsimp only
    split
    · exact Function.update_of_ne hb _ _
    · rfl
  · intro hlow hhigh
    have huse : (m.push key addr).maxUse = m.maxUse + 1 := rfl
    dsimp only
    split
    · next heq =>
      rw [Function.update_self, huse, ← heq]
      exact ⟨Nat.le_refl _, hroom⟩
    · next hne => exact ⟨Nat.lt_of_le_of_ne hlow hne, hhigh⟩

/-- One insertion. -/
theorem Frontier.insert {rounds : Nat} {v : Word} {len : BitVec 32} {b : Bool} (h : Frontier s)
    (hrun : insert rounds s t key v len = .ok (b, s')) : Frontier s' := by
  induction rounds generalizing s with
  | zero => cases hrun
  | succ rounds ih =>
    unfold ReadCache.insert at hrun
    simp only [bind_eq_ok] at hrun
    obtain ⟨⟨lockState, leaf, tree⟩, hlock, hrun⟩ := hrun
    obtain ⟨path, m, hfind, hm, ⟨rfl, -, rfl⟩ | ⟨rfl, -, rfl⟩⟩ := lockLeaf_cases hlock
    · have hsame : ({ m with tempInsert := 1 } : DLeaf).maxUse = m.maxUse := rfl
      have hlocked : Frontier { s with tree := s.tree.setLeaf leaf { m with tempInsert := 1 } } :=
        h.setLeaf hm hsame
      have hm₁ : (s.tree.setLeaf leaf { m with tempInsert := 1 }).dleafHeap leaf =
          some { m with tempInsert := 1 } := Function.update_self ..
      simp only [Bool.not_true, Bool.false_eq_true, if_false, hm₁, deref_some, ok_bind,
        bind_eq_ok] at hrun
      obtain ⟨dup, -, hrun⟩ := hrun
      split at hrun
      · cases hrun
        exact hlocked
      · split at hrun
        · next hroom =>
          obtain ⟨s₁, hfill, hrun⟩ := bind_eq_ok.mp hrun
          cases hrun
          exact hlocked.fillSlot hm₁ hroom hfill
        · obtain ⟨⟨leaf₂, splitKey, insertLeaf, s₁⟩, hsplit, hrun⟩ := bind_eq_ok.mp hrun
          obtain ⟨tree', hinst, hrun⟩ := bind_eq_ok.mp hrun
          refine ih (hlocked.install (fun hlevel => ?_) (splitFull_halves hsplit) hinst) hrun
          have hlevel' : s.tree.tempLevel = 0 := hlevel
          rw [findInsert, if_pos hlevel'] at hfind
          cases hfind
          rfl
    · exact ih h hrun

theorem Frontier.storePair (h : Frontier s) {i : Nat} {kvPtr : Addr} {place : Place}
    (hfree : place = .free → s.compactUse leaf < MAX_LEAF_KEY - 1)
    (hrun : storePair s leaf i kvPtr place = .ok s') : Frontier s' := by
  cases place with
  | nowhere =>
    cases hrun
    exact h
  | free =>
    simp only [ReadCache.storePair, bind_eq_ok, deref_eq_ok] at hrun
    obtain ⟨m, hm, k, -, v, -, hrun⟩ := hrun
    cases hrun
    have huse : (lodge m i (s.compactUse leaf) k v).maxUse = m.maxUse := (touch_fields _ _).1
    have hroom := hfree rfl
    refine h.write hm (fun b n hn => setLeaf_heap hn) (fun b hb => Function.update_of_ne hb _ _) rfl
      rfl fun hlow _ => ?_
    change (lodge m i (s.compactUse leaf) k v).maxUse ≤ Function.update s.compactUse leaf _ leaf ∧
      Function.update s.compactUse leaf _ leaf ≤ _
    rw [Function.update_self, huse]
    exact ⟨Nat.le_add_right_of_le (Nat.le_add_right_of_le hlow), Nat.add_lt_of_lt_sub hroom⟩
  | instead j =>
    simp only [ReadCache.storePair, bind_eq_ok, deref_eq_ok] at hrun
    obtain ⟨m, hm, k, -, v, -, hrun⟩ := hrun
    cases hrun
    have huse : (takeOver m i j k v).maxUse = m.maxUse := (touch_fields _ _).1
    have hsame : ({ takeOver m i j k v with tempInsert := 0 } : DLeaf).maxUse = m.maxUse := huse
    exact h.setLeaf hm hsame

theorem Frontier.cacheRecord (h : Frontier s) {i : Nat} {kvPtr : Addr}
    (hrun : cacheRecord s leaf i kvPtr = .ok s') : Frontier s' := by
  unfold ReadCache.cacheRecord at hrun
  obtain ⟨m, hm, hrun⟩ := bind_eq_ok.mp hrun
  rw [deref_eq_ok] at hm
  split at hrun
  · unfold giveUp at hrun
    obtain ⟨m', hm', hrun⟩ := bind_eq_ok.mp hrun
    rw [deref_eq_ok] at hm'
    cases hrun
    have hsame : ({ m' with tempInsert := 0 } : DLeaf).maxUse = m'.maxUse := rfl
    exact h.setLeaf hm' hsame
  · cases hrun
    exact h
  · next place _ hplace =>
    -- taking the leaf changes neither bound, whether it succeeds or not
    obtain ⟨⟨lockState, s₁⟩, htake, hrun⟩ := bind_eq_ok.mp hrun
    have htaken : Frontier s₁ ∧ s₁.compactUse = s.compactUse := by
      unfold takeLeaf at htake
      obtain ⟨m', hm', htake⟩ := bind_eq_ok.mp htake
      rw [deref_eq_ok] at hm'
      split at htake
      · cases htake
        have hsame : ({ m' with tempInsert := 1 } : DLeaf).maxUse = m'.maxUse := rfl
        exact ⟨h.setLeaf hm' hsame, rfl⟩
      · cases htake
        exact ⟨h, rfl⟩
    obtain ⟨hfrontier, hcompact⟩ := htaken
    cases lockState with
    | false =>
      cases hrun
      exact hfrontier
    | true =>
      simp only [if_true] at hrun
      refine hfrontier.storePair (fun hfree => ?_) hrun
      subst hfree
      rw [hcompact]
      -- new cells are chosen only where two are free
      unfold choosePlace at hplace
      split at hplace
      · assumption
      · split at hplace
        · cases hplace
        · rw [Option.map_eq_some_iff] at hplace
          obtain ⟨j, -, hj⟩ := hplace
          cases hj

theorem Frontier.find {rounds : Nat} {w : Word} (h : Frontier s)
    (hrun : find rounds s key = .ok (w, s')) : Frontier s' := by
  induction rounds with
  | zero => cases hrun
  | succ rounds ih =>
    unfold ReadCache.find at hrun
    split at hrun
    · obtain ⟨m, -, hrun⟩ := bind_eq_ok.mp hrun
      obtain ⟨v, -, hrun⟩ := bind_eq_ok.mp hrun
      cases hrun
      exact h
    · obtain ⟨leaf, -, hrun⟩ := bind_eq_ok.mp hrun
      obtain ⟨m, hm, hrun⟩ := bind_eq_ok.mp hrun
      rw [deref_eq_ok] at hm
      split at hrun
      · exact ih hrun
      · obtain ⟨found, -, hrun⟩ := bind_eq_ok.mp hrun
        cases found with
        | absent =>
          cases hrun
          exact h
        | pair i v =>
          cases hrun
          exact h.setLeaf hm (touch_fields m i).1
        | record i kvPtr =>
          obtain ⟨v, -, hrun⟩ := bind_eq_ok.mp hrun
          obtain ⟨s₁, hcache, hrun⟩ := bind_eq_ok.mp hrun
          cases hrun
          exact h.cacheRecord hcache

theorem Frontier.run {rounds : Nat} {ops : List MapOp} (h : Frontier s)
    (hrun : recoveryRun rounds t s (recoveryOps [] ops) = .ok s') : Frontier s' := by
  induction ops generalizing s with
  | nil =>
    cases hrun
    exact h
  | cons op ops ih =>
    obtain ⟨s₁, hstep, hrun⟩ := bind_eq_ok.mp hrun
    refine ih ?_ hrun
    cases op with
    | insert key val len =>
      obtain ⟨⟨b, s₂⟩, hins, hstep⟩ := bind_eq_ok.mp hstep
      cases hstep
      exact h.insert hins
    | find key =>
      obtain ⟨⟨w, s₂⟩, hfind, hstep⟩ := bind_eq_ok.mp hstep
      cases hstep
      exact h.find hfind

/-! ### quick_insert -/

omit [Pmem P] in
theorem OneLeaf.frontier {n : Nat} (h : OneLeaf n s) : Frontier s := by
  rintro a (hlevel | hroot) m hm
  · rw [h.level] at hlevel
    exact absurd hlevel (by decide)
  · exact absurd (h.only a m hm) hroot

theorem quickInsert_free {rounds : Nat} {kvAddr : Addr} {path : List Cursor} {m : DLeaf}
    (hfind : findInsert s.tree key = .ok (path, leaf)) (hm : s.tree.dleafHeap leaf = some m)
    (hfree : m.tempInsert = 0) (hrun : quickInsert (rounds + 1) s t key kvAddr = .ok s') :
    ∃ duplicate slots, if m.maxUse < MAX_LEAF_KEY then
        s' = ⟨(s.tree.setLeaf leaf { m with tempInsert := 1 }).setLeaf leaf
          (DLeaf.quickFill { m with tempInsert := 1, fingerPrint := slots } key kvAddr duplicate),
            s.compactUse, s.compactFull⟩
      else ∃ right splitKey insertLeaf s₁ tree,
        quickSplit ⟨(s.tree.setLeaf leaf { m with tempInsert := 1 }).setLeaf leaf
          { m with tempInsert := 1, fingerPrint := slots }, s.compactUse, s.compactFull⟩ t leaf =
            .ok (right, splitKey, insertLeaf, s₁) ∧
        installSeparator s₁.tree key splitKey leaf right insertLeaf = .ok tree ∧
        quickInsert rounds { s₁ with tree := tree } t key kvAddr = .ok s' := by
  have hm₁ : (s.tree.setLeaf leaf { m with tempInsert := 1 }).dleafHeap leaf =
      some { m with tempInsert := 1 } := Function.update_self ..
  rw [quickInsert, lockLeaf_free hfind hm hfree] at hrun
  simp only [ok_bind, Bool.not_true, Bool.false_eq_true, if_false, hm₁, deref_some] at hrun
  obtain ⟨⟨duplicate, m'⟩, hscan, hrun⟩ := bind_eq_ok.mp hrun
  obtain ⟨slots, rfl⟩ := quickScan_eq hscan
  refine ⟨duplicate, slots, ?_⟩
  dsimp only at hrun
  split at hrun
  · next hroom =>
    cases hrun
    rw [if_pos hroom]
  · next hfull =>
    obtain ⟨⟨right, splitKey, insertLeaf, s₁⟩, hsplit, hrun⟩ := bind_eq_ok.mp hrun
    obtain ⟨tree, hinst, hrun⟩ := bind_eq_ok.mp hrun
    rw [if_neg hfull]
    exact ⟨right, splitKey, insertLeaf, s₁, tree, hsplit, hinst, hrun⟩

theorem OneLeaf.quickInsert {n rounds : Nat} {kvAddr : Addr} (h : OneLeaf n s)
    (hroom : n < MAX_LEAF_KEY) (hrun : quickInsert rounds s t key kvAddr = .ok s') :
    OneLeaf (n + 1) s' := by
  cases rounds with
  | zero => cases hrun
  | succ rounds =>
    obtain ⟨m, hm, huse, hfree⟩ := h.leaf
    have hfind : findInsert s.tree key = .ok ([], s.tree.root) := if_pos h.level
    obtain ⟨duplicate, slots, hround⟩ := quickInsert_free hfind hm hfree hrun
    rw [if_pos (huse ▸ hroom)] at hround
    subst hround
    refine ⟨h.level, ⟨_, Function.update_self .., congrArg (· + 1) huse, rfl⟩, fun a n hn => ?_⟩
    by_contra ha
    have hn' : (s.tree.setLeaf s.tree.root { m with tempInsert := 1 }).dleafHeap a = some n :=
      (Function.update_of_ne ha _ _).symm.trans hn
    exact ha (h.only a n ((Function.update_of_ne ha _ _).symm.trans hn'))

omit [Pmem P] in
/-- The first root above the leaves leads to one of the two halves. -/
theorem findInsert_growRoot {tree : TreeState P} (hlevel : tree.tempLevel = 0) (leaf right : Addr)
    (splitKey key : Key) :
    ∃ path leaf', findInsert (growRoot tree leaf splitKey right) key = .ok (path, leaf') ∧
      (leaf' = leaf ∨ leaf' = right) := by
  have hgrown : (growRoot tree leaf splitKey right).tempLevel = 1 := congrArg (· + 1) hlevel
  have hroot : (growRoot tree leaf splitKey right).innerHeap (growRoot tree leaf splitKey right).root =
      some (InnerNode.newRoot leaf splitKey right (tree.junkInner tree.brk)) := Function.update_self ..
  have hroute : ∃ pos leaf', routeChild
      (InnerNode.newRoot leaf splitKey right (tree.junkInner tree.brk)) key = some (pos, leaf') ∧
        (leaf' = leaf ∨ leaf' = right) := by
    change ∃ pos leaf', scanSeparators _ key 0 1 0 = some (pos, leaf') ∧ _
    rw [scanSeparators]
    split_ifs with hleft hlast
    · exact ⟨_, _, rfl, Or.inl rfl⟩
    · exact ⟨_, _, rfl, Or.inr (by simp only [InnerNode.newRoot, Function.update_self])⟩
    · exact absurd (Or.inl rfl) hlast
  obtain ⟨pos, leaf', hroute, hwhich⟩ := hroute
  refine ⟨[⟨tree.brk, pos, 1, 0⟩], leaf', ?_, hwhich⟩
  rw [findInsert, if_neg (by rw [hgrown]; decide), hgrown, findInsertFrom, hroot]
  simp only [deref_some, ok_bind, hroute, findInsertFrom, pure_eq_ok]
  rfl

omit [Pmem P] in
theorem installSeparator_low {tree tree' : TreeState P} {splitKey : Key} {insertLeaf : Addr}
    (h : installSeparator tree key splitKey leaf right insertLeaf = .ok tree')
    (hlevel : tree.tempLevel = 0) : ∃ m, tree.dleafHeap leaf = some m ∧
      tree' = (growRoot tree leaf splitKey right).setLeaf leaf
        { m with tempInsert := 0, altPtr := insertLeaf } := by
  unfold installSeparator recordSplit at h
  rw [if_pos hlevel, ok_bind] at h
  obtain ⟨m, hm, h⟩ := bind_eq_ok.mp h
  rw [deref_eq_ok] at hm
  cases h
  exact ⟨m, hm, rfl⟩

/-- The insertion that splits the leaf fills a slot of one of its halves. -/
theorem OneLeaf.quickInsert_full {rounds : Nat} {kvAddr : Addr} (h : OneLeaf MAX_LEAF_KEY s)
    (hrun : ReadCache.quickInsert rounds s t key kvAddr = .ok s') : ¬ FrontierOK s' := by
  cases rounds with
  | zero => cases hrun
  | succ rounds =>
    obtain ⟨m, hm, huse, hfree⟩ := h.leaf
    have hfind : findInsert s.tree key = .ok ([], s.tree.root) := if_pos h.level
    obtain ⟨duplicate, slots, hround⟩ := quickInsert_free hfind hm hfree hrun
    rw [if_neg (by rw [huse]; exact Nat.lt_irrefl _)] at hround
    obtain ⟨right, splitKey, insertLeaf, s₁, tree, hsplit, hinst, hrest⟩ := hround
    have hhalves := quickSplit_halves hsplit
    have hlow : s₁.tree.tempLevel = 0 := hhalves.level.trans h.level
    obtain ⟨mL, hmL, rfl⟩ := installSeparator_low hinst hlow
    -- after the split the key leads to one of the two halves
    obtain ⟨path, leaf', hfind', hwhich⟩ :=
      findInsert_growRoot hlow s.tree.root right splitKey key
    generalize hgrown : (growRoot s₁.tree s.tree.root splitKey right).setLeaf s.tree.root
      { mL with tempInsert := 0, altPtr := insertLeaf } = grown at hrest
    have hfound : findInsert grown key = .ok (path, leaf') := by
      rw [← hgrown, findInsert_setLeaf, hfind']
    have hlevel : grown.tempLevel = 1 := by
      rw [← hgrown]
      exact congrArg (· + 1) hlow
    -- both halves are half full and free
    have hleaf' : ∃ m', grown.dleafHeap leaf' = some m' ∧ m'.maxUse = LEFT_KEY ∧ m'.tempInsert = 0 := by
      by_cases hleft : leaf' = s.tree.root
      · obtain ⟨m₀, hm₀, huse₀⟩ := hhalves.kept
        rw [hmL, Option.some.injEq] at hm₀
        subst hm₀
        subst hleft
        rw [← hgrown]
        exact ⟨_, Function.update_self .., huse₀, rfl⟩
      · obtain rfl := hwhich.resolve_left hleft
        obtain ⟨m₀, hm₀, huse₀, hfree₀⟩ := hhalves.made hleft
        rw [← hgrown]
        exact ⟨m₀, (Function.update_of_ne hleft _ _).trans hm₀, huse₀, hfree₀⟩
    obtain ⟨m', hm', huse', hfree'⟩ := hleaf'
    have hcompact : s₁.compactUse leaf' = RIGHT_KEY := hhalves.use leaf' hwhich
    cases rounds with
    | zero => cases hrest
    | succ rounds =>
      obtain ⟨duplicate', slots', hround'⟩ :=
        quickInsert_free (s := ⟨grown, s₁.compactUse, s₁.compactFull⟩) hfound hm' hfree' hrest
      -- the second round fills slot 15, where `compact_use` of a half begins
      rw [if_pos (by rw [huse']; decide)] at hround'
      subst hround'
      intro hok
      have hbelow : BelowInner ⟨(grown.setLeaf leaf' { m' with tempInsert := 1 }).setLeaf leaf'
          (DLeaf.quickFill { m' with tempInsert := 1, fingerPrint := slots' } key kvAddr duplicate'),
            s₁.compactUse, s₁.compactFull⟩ leaf' := by
        refine ⟨Nat.le_of_eq hlevel.symm, key, path, ?_⟩
        rw [findInsert_setLeaf, findInsert_setLeaf, hfound]
      obtain ⟨hle, -⟩ := hok leaf' hbelow _ (Function.update_self ..)
      have huse₁ : m'.maxUse + 1 ≤ s₁.compactUse leaf' := hle
      rw [huse', hcompact] at huse₁
      exact absurd huse₁ (by decide)

/-! ### Runs of recovery -/

theorem recoveryRun_append {rounds : Nat} {ops ops' : List RecoveryOp} :
    recoveryRun rounds t s (ops ++ ops') = .ok s' ↔
      ∃ s₁, recoveryRun rounds t s ops = .ok s₁ ∧ recoveryRun rounds t s₁ ops' = .ok s' := by
  induction ops generalizing s with
  | nil =>
    constructor
    · exact fun h => ⟨s, rfl, h⟩
    · rintro ⟨s₁, h, h'⟩
      cases h
      exact h'
  | cons op ops ih =>
    simp only [List.cons_append, recoveryRun, bind_eq_ok, ih]
    constructor
    · rintro ⟨s₁, hop, s₂, h, h'⟩
      exact ⟨s₂, ⟨s₁, hop, h⟩, h'⟩
    · rintro ⟨s₂, ⟨s₁, hop, h⟩, h'⟩
      exact ⟨s₁, hop, s₂, h, h'⟩

/-- The records that fit into one leaf, by induction. -/
theorem OneLeaf.run {n rounds : Nat} {records : List (Key × Addr)} (h : OneLeaf n s)
    (hroom : n + records.length ≤ MAX_LEAF_KEY)
    (hrun : recoveryRun rounds t s (records.map fun r => .quickInsert r.1 r.2) = .ok s') :
    OneLeaf (n + records.length) s' := by
  induction records generalizing n s with
  | nil =>
    cases hrun
    exact h
  | cons r records ih =>
    obtain ⟨s₁, hstep, hrun⟩ := bind_eq_ok.mp hrun
    rw [List.length_cons, Nat.add_comm records.length, ← Nat.add_assoc] at hroom ⊢
    have hlt : n < MAX_LEAF_KEY :=
      Nat.lt_of_succ_le ((Nat.le_add_right _ _).trans hroom)
    exact ih (h.quickInsert hlt hstep) hroom hrun

theorem OneLeaf.recovered {rounds : Nat} {records : List (Key × Addr)} {ops : List MapOp}
    (h : OneLeaf 0 s) (hfew : records.length ≤ MAX_LEAF_KEY)
    (hrun : recoveryRun rounds t s (recoveryOps records ops) = .ok s') : Frontier s' := by
  obtain ⟨s₁, hrecords, hops⟩ := recoveryRun_append.mp hrun
  have hleaf := h.run (by rwa [Nat.zero_add]) hrecords
  exact hleaf.frontier.run hops

omit [Pmem P] in
theorem OneLeaf.of_heap {m : DLeaf} (hlevel : s.tree.tempLevel = 0)
    (hheap : s.tree.dleafHeap = Function.update (fun _ => none) s.tree.root (some m))
    (huse : m.maxUse = 0) (hfree : m.tempInsert = 0) : OneLeaf 0 s := by
  refine ⟨hlevel, ⟨m, ?_, huse, hfree⟩, fun a n hn => ?_⟩
  · rw [hheap, Function.update_self]
  · by_contra ha
    rw [hheap, Function.update_of_ne ha] at hn
    cases hn

theorem recoverRoot_oneLeaf {pm : P} {junkInner : Addr → InnerNode} {junkLeaf : Addr → DLeaf}
    {leafStart dstart : Addr} {tree : TreeState P} {use : Addr → Nat} {full : Addr → Bool}
    (h : recoverRoot pm t junkInner junkLeaf leafStart dstart = .ok tree) :
    OneLeaf 0 ⟨tree, use, full⟩ := by
  unfold recoverRoot at h
  simp only [TreeState.mallocLeaf, Function.update_self, deref_some, ok_bind] at h
  split at h
  · simp only [bind_eq_ok] at h
    obtain ⟨q, -, l, -, pm', -, h⟩ := h
    cases h
    exact OneLeaf.of_heap rfl (Function.update_idem ..) rfl rfl
  · cases h
    exact OneLeaf.of_heap rfl rfl rfl rfl

end ReadCache

open ReadCache in
/-- Every leaf keeps `max_use <= compact_use <= MAX_LEAF_KEY` in all states of a run of recovery,
insertions and searches, exactly if recovery inserts no more records than one leaf holds. -/
theorem frontier_iff {P : Type} [Pmem P] (rounds : Nat) (t : Tid) (s₀ s : CacheTree P)
    (hempty : OneLeaf 0 s₀) (records : List (Key × Addr)) (ops : List MapOp)
    (hrun : recoveryRun rounds t s₀ (recoveryOps records ops) = .ok s) :
    (∀ n s', recoveryRun rounds t s₀ ((recoveryOps records ops).take n) = .ok s' → FrontierOK s') ↔
      records.length ≤ MAX_LEAF_KEY := by
  constructor
  · intro hall
    by_contra hmany
    rw [Nat.not_le] at hmany
    -- the record that does not fit
    obtain ⟨front, r, rest, hsplit, hlen⟩ : ∃ front r rest, records = front ++ r :: rest ∧
        front.length = MAX_LEAF_KEY :=
      ⟨records.take MAX_LEAF_KEY, records[MAX_LEAF_KEY], records.drop (MAX_LEAF_KEY + 1),
        by rw [List.cons_getElem_drop_succ, List.take_append_drop],
        List.length_take_of_le (Nat.le_of_lt hmany)⟩
    subst hsplit
    have hops : recoveryOps (front ++ r :: rest) ops =
        (front.map fun r => .quickInsert r.1 r.2) ++
          ([.quickInsert r.1 r.2] ++ recoveryOps rest ops) := by
      simp only [recoveryOps, List.map_append, List.map_cons, List.append_assoc, List.cons_append,
        List.nil_append]
    have htake : (recoveryOps (front ++ r :: rest) ops).take (MAX_LEAF_KEY + 1) =
        (front.map fun r => .quickInsert r.1 r.2) ++ [.quickInsert r.1 r.2] := by
      rw [hops, ← List.append_assoc, List.take_append_of_le_length, List.take_of_length_le]
      · rw [List.length_append, List.length_map, hlen]
        exact Nat.le_refl _
      · rw [List.length_append, List.length_map, hlen]
        exact Nat.le_refl _
    rw [hops] at hrun
    obtain ⟨s₁, hfront, hrun⟩ := recoveryRun_append.mp hrun
    obtain ⟨s₂, hone, -⟩ := recoveryRun_append.mp hrun
    have hleaf := hempty.run (Nat.le_of_eq (by rw [Nat.zero_add, hlen])) hfront
    rw [Nat.zero_add, hlen] at hleaf
    have hprefix : recoveryRun rounds t s₀ ((recoveryOps (front ++ r :: rest) ops).take
        (MAX_LEAF_KEY + 1)) = .ok s₂ := by
      rw [htake]
      exact recoveryRun_append.mpr ⟨s₁, hfront, hone⟩
    obtain ⟨s₃, hstep, hnil⟩ := bind_eq_ok.mp hone
    cases hnil
    exact hleaf.quickInsert_full hstep (hall _ _ hprefix)
  · -- as long as the records fit into the root leaf, no recovered leaf is split
    intro hfew n s' hprefix
    have htake : (recoveryOps records ops).take n =
        recoveryOps (records.take n) (ops.take (n - records.length)) := by
      simp only [recoveryOps, List.take_append, List.map_take, List.length_map]
    rw [htake] at hprefix
    refine (hempty.recovered ?_ hprefix).ok
    exact (List.length_take_le' n records).trans hfew

/-- A log of `n` records with the value 7 under the keys `1` to `n`, and memory for some `P_Leaf`s. -/
def IdealPm.recorded (n : Nat) : IdealPm where
  pool := List.range' (n + 1) 10
  leafPool := List.range' 1 10
  log := fun a => if 1 ≤ a ∧ a ≤ n then some (BitVec.ofNat 64 a, 7) else none
  pls := fun _ => none

def recordsTo (n : Nat) : List (Key × Addr) := (List.range' 1 n).map fun a => (BitVec.ofNat 64 a, a)

/-- Thirty records, then insertions that split the leaf and searches that store pairs. -/
def recoveredOps : List MapOp :=
  (List.range' 31 10).map (fun i => .insert (BitVec.ofNat 64 i) 7 8) ++ [.find 3, .find 3, .find 35, .find 70]

open ReadCache in
theorem frontier_iff_split : ∃ tree s,
    recoverRoot (IdealPm.recorded 30) 0 zeroInner zeroLeaf 0 0 = .ok tree ∧
      recoveryRun 2 0 ⟨tree, fun _ => 0, fun _ => false⟩ (recoveryOps (recordsTo 30) recoveredOps) = .ok s ∧
      s.tree.tempLevel = 1 ∧
      ∀ n s', recoveryRun 2 0 ⟨tree, fun _ => 0, fun _ => false⟩
        ((recoveryOps (recordsTo 30) recoveredOps).take n) = .ok s' → FrontierOK s' := by
  have hfacts : (recoverRoot (IdealPm.recorded 30) 0 zeroInner zeroLeaf 0 0 >>= fun tree =>
      recoveryRun 2 0 ⟨tree, fun _ => 0, fun _ => false⟩
        (recoveryOps (recordsTo 30) recoveredOps)).toOption.map (fun s => s.tree.tempLevel) = some 1 := by
    decide +kernel
  obtain ⟨s, hboth, hlevel⟩ := exec_of_map hfacts
  obtain ⟨tree, hroot, hrun⟩ := bind_eq_ok.mp hboth
  have hiff := frontier_iff 2 0 ⟨tree, fun _ => 0, fun _ => false⟩ s (recoverRoot_oneLeaf hroot)
    (recordsTo 30) recoveredOps hrun
  exact ⟨tree, s, hroot, hrun, hlevel, hiff.mpr (by decide)⟩

open ReadCache in
/-- After 31 records have been recovered, a leaf has 16 slots in use and `compact_use` 15. -/
theorem frontier_crossed : ∃ tree s,
    recoverRoot (IdealPm.recorded 31) 0 zeroInner zeroLeaf 0 0 = .ok tree ∧
      recoveryRun 2 0 ⟨tree, fun _ => 0, fun _ => false⟩ (recoveryOps (recordsTo 31) []) = .ok s ∧
      ¬ FrontierOK s := by
  have hfacts : (recoverRoot (IdealPm.recorded 31) 0 zeroInner zeroLeaf 0 0 >>= fun tree =>
      recoveryRun 2 0 ⟨tree, fun _ => 0, fun _ => false⟩
        (recoveryOps (recordsTo 31) [])).toOption.map
          (fun s => (s.tree.tempLevel, (findInsert s.tree 31).toOption.map fun r =>
            (s.tree.dleafHeap r.2).map fun m => (m.maxUse, s.compactUse r.2))) =
        some (1, some (some (16, 15))) := by
    decide +kernel
  obtain ⟨s, hboth, hview⟩ := exec_of_map hfacts
  obtain ⟨tree, hroot, hrun⟩ := bind_eq_ok.mp hboth
  rw [Prod.mk.injEq] at hview
  obtain ⟨hlevel, hleaf⟩ := hview
  obtain ⟨⟨path, leaf⟩, hfind, hm⟩ := exec_of_map hleaf
  rw [Option.map_eq_some_iff] at hm
  obtain ⟨m, hm, huse⟩ := hm
  rw [Prod.mk.injEq] at huse
  refine ⟨tree, s, hroot, hrun, fun hok => ?_⟩
  obtain ⟨hle, -⟩ := hok leaf ⟨Nat.le_of_eq hlevel.symm, 31, path, hfind⟩ m hm
  rw [huse.1, huse.2] at hle
  exact absurd hle (by decide)

end ZBTree
