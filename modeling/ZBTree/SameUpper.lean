import ZBTree.InnerSplit
import ZBTree.PmemRuns

/-!
# The inner nodes of two runs

Two trees whose inner nodes agree on the separators and children in use lead every key the same
way, and they still agree after the same split has been recorded in both. What a block held before
it became a node does not matter.
-/

namespace ZBTree

open RangeIndex MultiwayTree

variable {P : Type}

/-! ### One node -/

/-- The same separators and children. -/
structure SameNode (nd nd' : InnerNode) : Prop where
  size : nd'.maxSize = nd.maxSize
  left : nd'.leftMostPtr = nd.leftMostPtr
  version : nd'.versionField = nd.versionField
  key : ∀ i, i < nd.maxSize → nd'.nodeKey0 i = nd.nodeKey0 i
  child : ∀ i, i < nd.maxSize → nd'.nodeKey1 i = nd.nodeKey1 i

section Node

variable {nd nd' : InnerNode} {key : Key} {right : Addr}

theorem SameNode.entries (h : SameNode nd nd') : nd'.entries = nd.entries := by
  unfold InnerNode.entries
  rw [h.size]
  refine List.map_congr_left fun i hi => ?_
  have hi' : i < nd.maxSize := List.mem_range.mp hi
  rw [h.key i hi', h.child i hi']

theorem SameNode.refl (nd : InnerNode) : SameNode nd nd := ⟨rfl, rfl, rfl, fun _ _ => rfl, fun _ _ => rfl⟩

theorem SameNode.symm (h : SameNode nd nd') : SameNode nd' nd :=
  ⟨h.size.symm, h.left.symm, h.version.symm, fun i hi => (h.key i (h.size ▸ hi)).symm,
    fun i hi => (h.child i (h.size ▸ hi)).symm⟩

/-- The loop over the separators, by induction on those that are left. -/
theorem SameNode.scan (h : SameNode nd nd') (n i : Nat) (hend : i + n = nd.maxSize) :
    scanSeparators nd' key (nd.maxSize - 1) n i = scanSeparators nd key (nd.maxSize - 1) n i := by
  induction n generalizing i with
  | zero => rfl
  | succ n ih =>
    have hi : i < nd.maxSize := by omega
    rw [scanSeparators, scanSeparators, h.key i hi, h.left, h.child i hi]
    by_cases hlast : i = nd.maxSize - 1
    · simp only [hlast, true_or, if_true]
    · -- there is a separator after this one
      have hnext : i + 1 < nd.maxSize := by omega
      rw [h.key (i + 1) hnext, ih (i + 1) (by omega)]

theorem SameNode.route (h : SameNode nd nd') : routeChild nd' key = routeChild nd key := by
  rw [routeChild, routeChild, h.size]
  exact h.scan nd.maxSize 0 (Nat.zero_add _)

theorem insertEntry_version (nd : InnerNode) (pos : Int) (key : Key) (right : Addr) :
    (nd.insertEntry pos key right).versionField = nd.versionField := by
  unfold InnerNode.insertEntry
  split
  · rfl
  · split <;> rfl

theorem SameNode.insertEntry (h : SameNode nd nd') {j : Nat} (hj : j ≤ nd.maxSize) :
    SameNode (nd.insertEntry ((j : Int) - 1) key right) (nd'.insertEntry ((j : Int) - 1) key right) := by
  obtain ⟨hsize, hleft, hcell⟩ := nd.insertEntry_apply j hj key right
  obtain ⟨hsize', hleft', hcell'⟩ := nd'.insertEntry_apply j (h.size ▸ hj) key right
  have hcells : ∀ i, i < nd.maxSize + 1 →
      ((nd'.insertEntry ((j : Int) - 1) key right).nodeKey0 i,
          (nd'.insertEntry ((j : Int) - 1) key right).nodeKey1 i) =
        ((nd.insertEntry ((j : Int) - 1) key right).nodeKey0 i,
          (nd.insertEntry ((j : Int) - 1) key right).nodeKey1 i) := by
    intro i hi
    have hile : i ≤ nd.maxSize := Nat.le_of_lt_succ hi
    rw [hcell i hile, hcell' i (h.size ▸ hile)]
    by_cases hlt : i < j
    · have hi' : i < nd.maxSize := hlt.trans_le hj
      rw [if_pos hlt, if_pos hlt, h.key i hi', h.child i hi']
    · rw [if_neg hlt, if_neg hlt]
      by_cases heq : i = j
      · rw [if_pos heq, if_pos heq]
      · have hi' : i - 1 < nd.maxSize := by omega
        rw [if_neg heq, if_neg heq, h.key _ hi', h.child _ hi']
  refine ⟨?_, ?_, ?_, fun i hi => ?_, fun i hi => ?_⟩
  · rw [hsize', hsize, h.size]
  · rw [hleft', hleft, h.left]
  · rw [insertEntry_version, insertEntry_version, h.version]
  · exact congrArg Prod.fst (hcells i (hsize ▸ hi))
  · exact congrArg Prod.snd (hcells i (hsize ▸ hi))

theorem SameNode.splitRight (h : SameNode nd nd') (hover : MAX_LEAF_KEY < nd.maxSize)
    (junk junk' : InnerNode) : SameNode (nd.splitRight junk) (nd'.splitRight junk') := by
  have hcut : SPLIT_POS + 1 < nd.maxSize := Nat.lt_of_lt_of_le (by decide) hover.le
  have hcell : ∀ i, i < RIGHT_KEY →
      i < MAX_LEAF_KEY - LEFT_KEY ∧ LEFT_KEY + 1 + i < nd.maxSize := by
    intro i hi
    have hi' : i < 15 := hi
    exact ⟨hi, lt_of_le_of_lt (show LEFT_KEY + 1 + i ≤ MAX_LEAF_KEY from by
      change 15 + 1 + i ≤ 30
      omega) hover⟩
  refine ⟨rfl, h.child _ hcut, rfl, fun i hi => ?_, fun i hi => ?_⟩
  · obtain ⟨hi', hin⟩ := hcell i hi
    simp only [InnerNode.splitRight, copyWords, if_pos hi', h.key _ hin]
  · obtain ⟨hi', hin⟩ := hcell i hi
    simp only [InnerNode.splitRight, copyWords, if_pos hi', h.child _ hin]

theorem SameNode.splitLeft (h : SameNode nd nd') (hover : MAX_LEAF_KEY < nd.maxSize) :
    SameNode nd.splitLeft nd'.splitLeft := by
  have hcell : ∀ i, i < LEFT_KEY → ¬ LEFT_KEY ≤ i ∧ i < nd.maxSize := fun i hi =>
    ⟨not_le.mpr hi, hi.trans (lt_of_le_of_lt (by decide) hover)⟩
  refine ⟨rfl, h.left, ?_, fun i hi => ?_, fun i hi => ?_⟩
  · simp only [InnerNode.splitLeft, h.version]
  · obtain ⟨hno, hin⟩ := hcell i hi
    simp only [InnerNode.splitLeft, fillWords, hno, false_and, if_false, h.key i hin]
  · obtain ⟨hno, hin⟩ := hcell i hi
    simp only [InnerNode.splitLeft, fillWords, hno, false_and, if_false, h.child i hin]

theorem sameNode_newRoot (left : Addr) (key : Key) (right : Addr) (junk junk' : InnerNode) :
    SameNode (InnerNode.newRoot left key right junk) (InnerNode.newRoot left key right junk') := by
  refine ⟨rfl, rfl, rfl, fun i hi => ?_, fun i hi => ?_⟩
  · obtain rfl : i = 0 := Nat.lt_one_iff.mp hi
    simp only [InnerNode.newRoot, Function.update_self]
  · obtain rfl : i = 0 := Nat.lt_one_iff.mp hi
    simp only [InnerNode.newRoot, Function.update_self]

end Node

/-! ### All inner nodes

Two trees with the same inner nodes under the same addresses route alike and split alike: what the leaves hold does
not matter above them. -/

/-- The same inner nodes at the same addresses, and as much memory handed out. -/
structure SameUpper (s s' : TreeState P) : Prop where
  root : s'.root = s.root
  level : s'.tempLevel = s.tempLevel
  brk : s'.brk = s.brk
  node : ∀ a, Option.Rel SameNode (s.innerHeap a) (s'.innerHeap a)

section Upper

variable {s s' s₁ : TreeState P} {key : Key} {L right : Addr} {path : List Cursor}

theorem rel_same (o : Option InnerNode) : Option.Rel SameNode o o := by
  cases o with
  | none => exact .none
  | some nd => exact .some (SameNode.refl nd)

theorem rel_symm {o o' : Option InnerNode} (h : Option.Rel SameNode o o') : Option.Rel SameNode o' o := by
  cases h with
  | none => exact .none
  | some hsame => exact .some hsame.symm

theorem rel_some {nd : InnerNode} {o' : Option InnerNode} (h : Option.Rel SameNode (some nd) o') :
    ∃ nd', o' = some nd' ∧ SameNode nd nd' := by
  cases h with
  | some hsame => exact ⟨_, rfl, hsame⟩

theorem SameUpper.refl (s : TreeState P) : SameUpper s s := ⟨rfl, rfl, rfl, fun _ => rel_same _⟩

theorem SameUpper.symm (h : SameUpper s s') : SameUpper s' s :=
  ⟨h.root.symm, h.level.symm, h.brk.symm, fun a => rel_symm (h.node a)⟩

theorem rel_view {o o' : Option InnerNode} (h : Option.Rel SameNode o o') :
    (o'.map fun nd => (nd.leftMostPtr, nd.entries)) = o.map fun nd => (nd.leftMostPtr, nd.entries) := by
  cases h with
  | none => rfl
  | some hsame => rw [Option.map_some, Option.map_some, hsame.left, hsame.entries]

theorem SameUpper.index (h : SameUpper s s') : s'.index = s.index := by
  have hview : innerView s'.innerHeap = innerView s.innerHeap := funext fun a => rel_view (h.node a)
  unfold TreeState.index
  rw [hview, h.level, h.root]

theorem SameUpper.counterpart (h : SameUpper s s') {a : Addr} {nd : InnerNode}
    (hnd : s.innerHeap a = some nd) : ∃ nd', s'.innerHeap a = some nd' ∧ SameNode nd nd' :=
  rel_some (hnd ▸ h.node a)

theorem SameUpper.congr {u u' : TreeState P} (h : SameUpper s s') (hinner : u.innerHeap = s.innerHeap)
    (hinner' : u'.innerHeap = s'.innerHeap) (hroot : u.root = s.root) (hroot' : u'.root = s'.root)
    (hlevel : u.tempLevel = s.tempLevel) (hlevel' : u'.tempLevel = s'.tempLevel)
    (hbrk : u'.brk = u.brk) : SameUpper u u' := by
  refine ⟨?_, ?_, hbrk, ?_⟩
  · rw [hroot, hroot', h.root]
  · rw [hlevel, hlevel', h.level]
  · rw [hinner, hinner']
    exact h.node

theorem SameUpper.findInsertFrom (h : SameUpper s s') (d : Nat) (a : Addr)
    (hfind : findInsertFrom s key d a = .ok (path, L)) : findInsertFrom s' key d a = .ok (path, L) := by
  induction d generalizing a path with
  | zero => exact hfind
  | succ d ih =>
    simp only [ZBTree.findInsertFrom, bind_eq_ok, deref_eq_ok] at hfind
    obtain ⟨nd, hnd, ⟨pos, child⟩, hroute, ⟨path', leaf⟩, hrest, hret⟩ := hfind
    cases hret
    obtain ⟨nd', hnd', hsame⟩ := h.counterpart hnd
    simp only [ZBTree.findInsertFrom, hnd', deref_some, ok_bind, hsame.route, hroute, ih child hrest,
      hsame.size, hsame.version, pure_eq_ok]

theorem SameUpper.findInsert (h : SameUpper s s') (hfind : findInsert s key = .ok (path, L)) :
    findInsert s' key = .ok (path, L) := by
  rw [ZBTree.findInsert] at hfind ⊢
  rw [h.level, h.root]
  by_cases hlevel : s.tempLevel = 0
  · rwa [if_pos hlevel] at hfind ⊢
  · rw [if_neg hlevel] at hfind ⊢
    exact h.findInsertFrom _ _ hfind

/-- The cursors of the path, as long as no node on it has been written. -/
structure OnPath (s : TreeState P) (path : List Cursor) : Prop where
  nodup : (path.map Cursor.node).Nodup
  place : ∀ c ∈ path, c.node < s.brk ∧
    ∃ nd j, s.innerHeap c.node = some nd ∧ j ≤ nd.maxSize ∧ c.nodePos = (j : Int) - 1

/-- One level. -/
theorem SameUpper.splitLevel (h : SameUpper s s') {c : Cursor} {nd : InnerNode} {j : Nat}
    (hnd : s.innerHeap c.node = some nd) (hj : j ≤ nd.maxSize)
    (hpos : c.nodePos = (j : Int) - 1) {carry : Option (Key × Addr)}
    (hrun : splitLevel s c key right = .ok (s₁, carry)) :
    ∃ s₁', splitLevel s' c key right = .ok (s₁', carry) ∧ SameUpper s₁ s₁' ∧
      ∀ b, b ≠ c.node → b < s.brk → s₁.innerHeap b = s.innerHeap b := by
  obtain ⟨nd', hnd', hsame⟩ := h.counterpart hnd
  have hins : SameNode (nd.insertEntry c.nodePos key right) (nd'.insertEntry c.nodePos key right) :=
    hpos ▸ hsame.insertEntry hj
  simp only [ZBTree.splitLevel, hnd, hnd', deref_some, ok_bind, hins.size] at hrun ⊢
  by_cases hover : MAX_LEAF_KEY < (nd.insertEntry c.nodePos key right).maxSize
  · rw [if_pos hover] at hrun ⊢
    cases hrun
    have hup : SPLIT_POS + 1 < (nd.insertEntry c.nodePos key right).maxSize :=
      Nat.lt_of_lt_of_le (by decide) hover.le
    refine ⟨(s'.mallocInner (nd'.insertEntry c.nodePos key right).splitRight).2.setInner c.node
      (nd'.insertEntry c.nodePos key right).splitLeft, ?_, ⟨h.root, h.level, ?_, fun b => ?_⟩,
      fun b hb hbrk => ?_⟩
    · simp only [TreeState.mallocInner, hins.key _ hup, h.brk, pure_eq_ok]
    · simp only [TreeState.setInner, TreeState.mallocInner, h.brk]
    · simp only [TreeState.setInner, TreeState.mallocInner, h.brk]
      by_cases hb : b = c.node
      · rw [hb, Function.update_self, Function.update_self]
        exact .some (hins.splitLeft hover)
      · rw [Function.update_of_ne hb, Function.update_of_ne hb]
        by_cases hnew : b = s.brk
        · rw [hnew, Function.update_self, Function.update_self]
          exact .some (hins.splitRight hover _ _)
        · rw [Function.update_of_ne hnew, Function.update_of_ne hnew]
          exact h.node b
    · simp only [TreeState.setInner, TreeState.mallocInner, Function.update_of_ne hb,
        Function.update_of_ne hbrk.ne]
  · rw [if_neg hover] at hrun ⊢
    cases hrun
    refine ⟨_, rfl, ⟨h.root, h.level, h.brk, fun b => ?_⟩, fun b hb _ => Function.update_of_ne hb _ _⟩
    simp only [TreeState.setInner]
    by_cases hb : b = c.node
    · rw [hb, Function.update_self, Function.update_self]
      exact .some hins
    · rw [Function.update_of_ne hb, Function.update_of_ne hb]
      exact h.node b

theorem SameUpper.growRoot (h : SameUpper s s') (left : Addr) (key : Key) (right : Addr) :
    SameUpper (growRoot s left key right) (growRoot s' left key right) := by
  simp only [ZBTree.growRoot, TreeState.mallocInner]
  refine ⟨h.brk, ?_, ?_, fun b => ?_⟩
  · simp only [h.level]
  · simp only [h.brk]
  · simp only [h.brk]
    by_cases hb : b = s.brk
    · rw [hb, Function.update_self, Function.update_self]
      exact .some (sameNode_newRoot _ _ _ _ _)
    · rw [Function.update_of_ne hb, Function.update_of_ne hb]
      exact h.node b

/-- All levels, by induction on the path. -/
theorem SameUpper.splitInnerLoop (h : SameUpper s s') (hpath : OnPath s path)
    (hrun : splitInnerLoop s path key right = .ok s₁) :
    ∃ s₁', splitInnerLoop s' path key right = .ok s₁' ∧ SameUpper s₁ s₁' := by
  induction path generalizing s s' key right with
  | nil =>
    cases hrun
    exact ⟨s', rfl, h⟩
  | cons c above ih =>
    obtain ⟨-, nd, j, hnd, hj, hpos⟩ := hpath.place c List.mem_cons_self
    simp only [ZBTree.splitInnerLoop, bind_eq_ok] at hrun
    obtain ⟨⟨s₂, carry⟩, hlevel, hrun⟩ := hrun
    obtain ⟨s₂', hlevel', hsame, hkept⟩ := h.splitLevel hnd hj hpos hlevel
    cases carry with
    | none =>
      cases hrun
      exact ⟨s₂', by simp only [ZBTree.splitInnerLoop, hlevel', ok_bind, pure_eq_ok], hsame⟩
    | some cut =>
      obtain ⟨upKey, upPtr⟩ := cut
      dsimp only at hrun
      cases above with
      | nil =>
        cases hrun
        refine ⟨ZBTree.growRoot s₂' s₂'.root upKey upPtr, ?_, hsame.root ▸ hsame.growRoot _ _ _⟩
        simp only [ZBTree.splitInnerLoop, hlevel', ok_bind, List.isEmpty_nil, if_true, pure_eq_ok]
      | cons c' above =>
        rw [if_neg (by simp)] at hrun
        have hnodup := List.nodup_cons.mp hpath.nodup
        have hrest : OnPath s₂ (c' :: above) := by
          refine ⟨hnodup.2, fun b hb => ?_⟩
          obtain ⟨hblt, n, i, hn, hi, hbpos⟩ := hpath.place b (List.mem_cons_of_mem _ hb)
          have hne : b.node ≠ c.node := fun heq => hnodup.1 (heq ▸ List.mem_map_of_mem hb)
          refine ⟨hblt.trans_le (splitLevel_inner hlevel).brk, n, i, ?_, hi, hbpos⟩
          rw [hkept b.node hne hblt]
          exact hn
        obtain ⟨s₁', hrun', hdone⟩ := ih hsame hrest hrun
        refine ⟨s₁', ?_, hdone⟩
        rw [ZBTree.splitInnerLoop, hlevel', ok_bind]
        dsimp only
        rw [if_neg (by simp)]
        exact hrun'

/-- The path of `find_insert` goes down through inner nodes of the tree. -/
theorem onPath_from (key : Key) (d : Nat) (a : Addr) (hshape : Shape (innerView s.innerHeap) Fill d a)
    (hfind : findInsertFrom s key d a = .ok (path, L)) :
    ((path.map Cursor.node : List Addr) : Multiset Addr) ≤ inners (innerView s.innerHeap) d a ∧
      ∀ c ∈ path, ∃ nd j, s.innerHeap c.node = some nd ∧ j ≤ nd.maxSize ∧
        c.nodePos = (j : Int) - 1 := by
  induction d generalizing a path with
  | zero =>
    cases hfind
    exact ⟨Multiset.zero_le _, fun c hc => absurd hc List.not_mem_nil⟩
  | succ d ih =>
    obtain ⟨c0, es, hview, hfill, hkids⟩ := hshape
    obtain ⟨nd, hnd, rfl, rfl⟩ := innerView_eq_some hview
    rw [InnerNode.entries_length] at hfill
    obtain ⟨j, hj, hroute, -⟩ := routeChild_spec nd key hfill.1
    obtain ⟨X, lo', Y, hsplit, -⟩ := nd.kids_split ⊥ j hj
    have hmem : (lo', nd.child j) ∈ kids (⊥ : WithBot Key) nd.leftMostPtr nd.entries := by
      rw [hsplit]
      simp
    simp only [ZBTree.findInsertFrom, hnd, deref_some, ok_bind, hroute, bind_eq_ok] at hfind
    obtain ⟨⟨rest, leaf⟩, hrest, hret⟩ := hfind
    cases hret
    obtain ⟨hle, hplace⟩ := ih (nd.child j) (hkids _ hmem) hrest
    refine ⟨?_, fun c hc => ?_⟩
    · rw [inners_succ hview ⊥, List.map_cons, ← Multiset.cons_coe]
      exact Multiset.cons_le_cons _ (hle.trans (inners_le_innersKids hmem))
    · rcases List.mem_cons.mp hc with rfl | hc
      · exact ⟨nd, j, hnd, hj, rfl⟩
      · exact hplace c hc

theorem Upper.onPath (h : Upper s) (hlevel : s.tempLevel ≠ 0) (hfind : findInsert s key = .ok (path, L)) :
    OnPath s path.reverse := by
  rw [findInsert, if_neg hlevel] at hfind
  obtain ⟨hle, hplace⟩ := onPath_from key s.tempLevel s.root h.shape hfind
  refine ⟨?_, fun c hc => ?_⟩
  · rw [List.map_reverse, List.nodup_reverse]
    exact Multiset.coe_nodup.mp (Multiset.nodup_of_le hle h.nodup)
  · have hc' := List.mem_reverse.mp hc
    refine ⟨(h.inner_lt c.node (Multiset.mem_of_le hle ?_)).2, hplace c hc'⟩
    exact Multiset.mem_coe.mpr (List.mem_map_of_mem hc')

theorem SameUpper.recordSplit (h : SameUpper s s') (hupper : Upper s) {splitKey : Key} {leaf leaf2 : Addr}
    (hrun : recordSplit s key splitKey leaf leaf2 = .ok s₁) :
    ∃ s₁', recordSplit s' key splitKey leaf leaf2 = .ok s₁' ∧ SameUpper s₁ s₁' := by
  rw [ZBTree.recordSplit] at hrun ⊢
  rw [h.level]
  by_cases hlevel : s.tempLevel = 0
  · rw [if_pos hlevel] at hrun ⊢
    cases hrun
    exact ⟨_, rfl, h.growRoot _ _ _⟩
  · rw [if_neg hlevel] at hrun ⊢
    simp only [bind_eq_ok] at hrun
    obtain ⟨⟨path, L⟩, hfind, hrun⟩ := hrun
    obtain ⟨s₁', hrun', hsame⟩ := h.splitInnerLoop (hupper.onPath hlevel hfind) hrun
    refine ⟨s₁', ?_, hsame⟩
    rw [h.findInsert hfind, ok_bind]
    exact hrun'

end Upper

end ZBTree
