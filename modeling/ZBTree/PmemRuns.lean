import ZBTree.TreeModel

/-!
# What the operations do to persistent memory

The tree touches persistent memory through `Pmem` only, so a property of the memory that
each access keeps is kept by the operations.
-/

namespace ZBTree

open Pmem

variable {P : Type}

/-- `I` is kept by every access. -/
structure Pmem.Keeps [Pmem P] (I : P → Prop) : Prop where
  append {p p' : P} {t k v pp op version a} :
    appendOne p t k v pp op version = some (a, p') → I p → I p'
  free {p p' : P} {t a} : freeRecord p t a = some p' → I p → I p'
  alloc {p p' : P} {t q} : nAllocate p t = some (q, p') → I p → I p'
  setLeaf {p p' : P} {q l} : setPleaf p q l = some p' → I p → I p'

variable {s s' : TreeState P} {t : Tid} {key : Key} {val : Word} {leaf : Addr}

/-! ### Sections that leave it alone -/

theorem lockLeaf_pm {b : Bool} (h : lockLeaf s key = .ok (b, leaf, s')) : s'.pm = s.pm := by
  unfold lockLeaf at h
  simp only [bind_eq_ok] at h
  obtain ⟨_, -, m, -, h⟩ := h
  split at h
  · cases h
    rfl
  · cases h
    rfl

/-- What recording a split does beside the inner nodes. -/
structure OnlyInner (s s' : TreeState P) : Prop where
  pm : s'.pm = s.pm
  leaves : s'.dleafHeap = s.dleafHeap
  brk : s.brk ≤ s'.brk
  level : s.tempLevel ≤ s'.tempLevel

theorem OnlyInner.trans {s'' : TreeState P} (h : OnlyInner s s') (h' : OnlyInner s' s'') :
    OnlyInner s s'' :=
  ⟨h'.pm.trans h.pm, h'.leaves.trans h.leaves, h.brk.trans h'.brk, h.level.trans h'.level⟩

theorem growRoot_inner (s : TreeState P) (left : Addr) (key : Key) (right : Addr) :
    OnlyInner s (growRoot s left key right) :=
  ⟨rfl, rfl, Nat.le_succ _, Nat.le_succ _⟩

theorem splitLevel_inner {c : Cursor} {right : Addr} {carry : Option (Key × Addr)}
    (h : splitLevel s c key right = .ok (s', carry)) : OnlyInner s s' := by
  unfold splitLevel at h
  simp only [bind_eq_ok] at h
  obtain ⟨nd, -, h⟩ := h
  split at h
  · cases h
    exact ⟨rfl, rfl, Nat.le_succ _, Nat.le_refl _⟩
  · cases h
    exact ⟨rfl, rfl, Nat.le_refl _, Nat.le_refl _⟩

theorem splitInnerLoop_inner {path : List Cursor} {right : Addr}
    (h : splitInnerLoop s path key right = .ok s') : OnlyInner s s' := by
  induction path generalizing s key right with
  | nil =>
    cases h
    exact ⟨rfl, rfl, Nat.le_refl _, Nat.le_refl _⟩
  | cons c above ih =>
    unfold splitInnerLoop at h
    simp only [bind_eq_ok] at h
    obtain ⟨⟨s₁, carry⟩, hlevel, h⟩ := h
    have hinner := splitLevel_inner hlevel
    cases carry with
    | none =>
      cases h
      exact hinner
    | some up =>
      dsimp only at h
      split at h
      · cases h
        exact hinner.trans (growRoot_inner _ _ _ _)
      · exact hinner.trans (ih h)

theorem recordSplit_inner {splitKey : Key} {leaf₂ : Addr}
    (h : recordSplit s key splitKey leaf leaf₂ = .ok s') : OnlyInner s s' := by
  unfold recordSplit at h
  split at h
  · cases h
    exact growRoot_inner _ _ _ _
  · simp only [bind_eq_ok] at h
    obtain ⟨_, -, h⟩ := h
    exact splitInnerLoop_inner h

theorem installSeparator_eq {splitKey : Key} {leaf₂ insertLeaf : Addr}
    (h : installSeparator s key splitKey leaf leaf₂ insertLeaf = .ok s') :
    ∃ s₁ m, OnlyInner s s₁ ∧ s.dleafHeap leaf = some m ∧
      s' = s₁.setLeaf leaf { m with tempInsert := 0, altPtr := insertLeaf } := by
  unfold installSeparator at h
  simp only [bind_eq_ok, deref_eq_ok] at h
  obtain ⟨s₁, hrecord, m, hm, h⟩ := h
  have hinner := recordSplit_inner hrecord
  cases h
  exact ⟨s₁, m, hinner, hinner.leaves ▸ hm, rfl⟩

theorem installSeparator_pm {splitKey : Key} {leaf₂ insertLeaf : Addr}
    (h : installSeparator s key splitKey leaf leaf₂ insertLeaf = .ok s') : s'.pm = s.pm := by
  obtain ⟨s₁, m, hinner, -, rfl⟩ := installSeparator_eq h
  exact hinner.pm

/-! ### insert -/

variable [Pmem P] {I : P → Prop}

theorem Pmem.Keeps.fillSlot (hI : Keeps I) {valueLen : BitVec 32}
    (h : fillSlot s t key val valueLen leaf = .ok s') (hs : I s.pm) : I s'.pm := by
  unfold ZBTree.fillSlot at h
  simp only [bind_eq_ok, deref_eq_ok] at h
  obtain ⟨m, -, ⟨a, p⟩, happend, h⟩ := h
  cases h
  exact hI.append happend hs

theorem Pmem.Keeps.linkPleaf (hI : Keeps I) {p p' : P} {pl newLeaf : Addr} {maxKey newMaxKey : Key}
    (h : linkPleaf p pl newLeaf maxKey newMaxKey = .ok p') (hp : I p) : I p' := by
  unfold ZBTree.linkPleaf at h
  simp only [bind_eq_ok, deref_eq_ok] at h
  obtain ⟨_, -, p₁, hset, _, -, hset'⟩ := h
  exact hI.setLeaf hset' (hI.setLeaf hset hp)

theorem Pmem.Keeps.splitFull (hI : Keeps I) {r : Addr × Key × Addr × TreeState P}
    (h : splitFull s t leaf = .ok r) (hs : I s.pm) : I r.2.2.2.pm := by
  unfold ZBTree.splitFull splitLeaf at h
  simp only [bind_eq_ok, deref_eq_ok] at h
  obtain ⟨m, -, buf, -, ⟨keys, fingers⟩, -, ⟨leaf₂, s₂⟩, ⟨⟨newLeaf, p⟩, halloc, _, -, p', hlink, h₂⟩, h⟩ := h
  cases h₂
  cases h
  exact hI.linkPleaf hlink (hI.alloc halloc hs)

theorem Pmem.Keeps.insert (hI : Keeps I) {n : Nat} {valueLen : BitVec 32} {b : Bool}
    (h : insert n s t key val valueLen = .ok (b, s')) (hs : I s.pm) : I s'.pm := by
  induction n generalizing s with
  | zero => cases h
  | succ n ih =>
    unfold ZBTree.insert at h
    simp only [bind_eq_ok] at h
    obtain ⟨⟨lockState, leaf, s₁⟩, hlock, h⟩ := h
    have hs₁ : I s₁.pm := by rwa [lockLeaf_pm hlock]
    cases lockState with
    | false => exact ih h hs₁
    | true =>
      simp only [Bool.not_true, Bool.false_eq_true, if_false, bind_eq_ok] at h
      obtain ⟨m, -, dup, -, h⟩ := h
      split at h
      · cases h
        exact hs₁
      · split at h
        · simp only [bind_eq_ok] at h
          obtain ⟨s₂, hfill, h⟩ := h
          cases h
          exact hI.fillSlot hfill hs₁
        · simp only [bind_eq_ok] at h
          obtain ⟨⟨leaf₂, splitKey, insertLeaf, s₂⟩, hsplit, s₃, hinstall, h⟩ := h
          apply ih h
          rw [installSeparator_pm hinstall]
          exact hI.splitFull hsplit hs₁

/-! ### simply_remove and the constructor -/

theorem Pmem.Keeps.simplyRemove (hI : Keeps I) {n : Nat} {b : Bool}
    (h : simplyRemove n s t key = .ok (b, s')) (hs : I s.pm) : I s'.pm := by
  induction n generalizing s with
  | zero => cases h
  | succ n ih =>
    unfold ZBTree.simplyRemove at h
    simp only [bind_eq_ok] at h
    obtain ⟨⟨lockState, leaf, s₁⟩, hlock, h⟩ := h
    have hs₁ : I s₁.pm := by rwa [lockLeaf_pm hlock]
    cases lockState with
    | false => exact ih h hs₁
    | true =>
      simp only [Bool.not_true, Bool.false_eq_true, if_false] at h
      unfold removeFrom at h
      simp only [bind_eq_ok] at h
      obtain ⟨m, -, found, -, h⟩ := h
      cases found with
      | none =>
        cases h
        exact hs₁
      | some i =>
        simp only [bind_eq_ok, deref_eq_ok] at h
        obtain ⟨p, hfree, h⟩ := h
        have hp : I p := hI.free hfree hs₁
        split at h
        · simp only [bind_eq_ok, deref_eq_ok] at h
          obtain ⟨l, -, p', hset, h⟩ := h
          cases h
          exact hI.setLeaf hset hp
        · cases h
          exact hp

theorem Pmem.Keeps.init (hI : Keeps I) {p : P} {junkInner : Addr → InnerNode}
    {junkLeaf : Addr → DLeaf} (h : init p t junkInner junkLeaf = .ok s) (hp : I p) : I s.pm := by
  unfold ZBTree.init at h
  simp only [bind_eq_ok, deref_eq_ok] at h
  obtain ⟨⟨newRoot, p₁⟩, halloc, l, -, p₂, hset, h⟩ := h
  cases h
  exact hI.setLeaf hset (hI.alloc halloc hp)

/-! ### Runs of several threads -/

inductive ThreadOp where
  | insert (key : Key) (val : Word) (valueLen : BitVec 32)
  | remove (key : Key)

/-- One operation of a thread; `n` bounds the retries of each. -/
def ThreadOp.exec (n : Nat) (s : TreeState P) (t : Tid) :
    ThreadOp → Exec (Bool × TreeState P)
  | insert key val valueLen => ZBTree.insert n s t key val valueLen
  | remove key => simplyRemove n s t key

/-- The operations of all threads, in the order in which they take place. -/
def runThreads (n : Nat) :
    TreeState P → List (Tid × ThreadOp) → Exec (TreeState P)
  | s, [] => .ok s
  | s, (t, op) :: rest => do
    let (_, s) ← op.exec n s t
    runThreads n s rest

theorem Pmem.Keeps.runThreads (hI : Keeps I) {n : Nat} {ops : List (Tid × ThreadOp)}
    (h : ZBTree.runThreads n s ops = .ok s') (hs : I s.pm) : I s'.pm := by
  induction ops generalizing s with
  | nil =>
    cases h
    exact hs
  | cons head rest ih =>
    obtain ⟨t, op⟩ := head
    unfold ZBTree.runThreads at h
    rw [bind_eq_ok] at h
    obtain ⟨⟨b, s₁⟩, hop, h⟩ := h
    apply ih h
    cases op with
    | insert key val valueLen => exact hI.insert hop hs
    | remove key => exact hI.simplyRemove hop hs

end ZBTree
