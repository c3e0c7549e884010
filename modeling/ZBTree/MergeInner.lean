import ZBTree.InnerIndex

/-!
# Taking a leaf out of the inner nodes

`mergeInnerNode` is given the path to a leaf and rewrites the last inner node on it, so that no descent
reaches the leaf any more. A node with one separator keeps it as a tombstone, all ones, and from then on
only its left-most child counts.
-/

namespace ZBTree

open RangeIndex MultiwayTree

variable {P : Type}

/-! ### mergeInnerNode -/

/-- The branches of `mergeInnerNode` that keep the node: the child at `pos` is to go. -/
def InnerNode.removeEntry (nd : InnerNode) (pos : Int) : InnerNode :=
  if nd.maxSize = 1 then
    if pos = -1 then
      { nd with
        nodeKey0 := Function.update nd.nodeKey0 0 (BitVec.allOnes 64)
        leftMostPtr := nd.nodeKey1 0 }
    else
      -- the second write goes to `node_key[0][1]`
      { nd with
        nodeKey0 := Function.update (Function.update nd.nodeKey0 0 (BitVec.allOnes 64)) 1 0 }
  else if pos = -1 then
    { nd with
      leftMostPtr := nd.nodeKey1 0
      nodeKey0 := Arrays.shiftDown 1 (nd.maxSize - 1) nd.nodeKey0
      nodeKey1 := Arrays.shiftDown 1 (nd.maxSize - 1) nd.nodeKey1
      maxSize := nd.maxSize - 1 }
  else if pos = nd.maxSize - 1 then
    { nd with
      nodeKey0 := Function.update nd.nodeKey0 pos.toNat (BitVec.allOnes 64)
      nodeKey1 := Function.update nd.nodeKey1 pos.toNat 0
      maxSize := nd.maxSize - 1 }
  else
    -- the loop runs from `pos + 1` while `i < max_size - 1`
    { nd with
      nodeKey0 := Function.update
        (Arrays.shiftDown (pos.toNat + 1) (nd.maxSize - 1 - (pos.toNat + 1)) nd.nodeKey0) nd.maxSize
        (BitVec.allOnes 64)
      nodeKey1 := Function.update
        (Arrays.shiftDown (pos.toNat + 1) (nd.maxSize - 1 - (pos.toNat + 1)) nd.nodeKey1) nd.maxSize 0
      maxSize := nd.maxSize - 1 }

/-- `free` of an inner node. -/
def TreeState.freeInner (s : TreeState P) (a : Addr) : TreeState P :=
  { s with innerHeap := Function.update s.innerHeap a none }

/-- The loop on `merge_level`; `merge_start` stays what it was, also after `free`. -/
def mergeLoop (s : TreeState P) (rootPath : List Cursor) (mergeStart : Addr) : Nat → Exec (TreeState P)
  | 0 => .ok s
  | mergeLevel + 1 => do
    let c ← deref rootPath[mergeLevel + 1]?
    let nd ← deref (s.innerHeap mergeStart)
    if nd.maxSize = 1 ∧ c.nodePos = -1 ∧ nd.nodeKey0 0 = BitVec.allOnes 64 then
      mergeLoop (s.freeInner mergeStart) rootPath mergeStart mergeLevel
    else return s.setInner mergeStart (nd.removeEntry c.nodePos)

/-- `Tree::mergeInnerNode` (`zbtree.cpp`); its `merge_key` is not used. The path is a list without the
limit of `root_path`, which `FillBounds` treats. -/
def mergeInnerNode (s : TreeState P) (rootPath : List Cursor) : Exec (TreeState P) := do
  let start ← deref rootPath[s.tempLevel - 1]?
  mergeLoop s rootPath start.node (s.tempLevel - 1)

/-! ### Trees with tombstones -/

/-- The only separator is all ones: no key goes to the right of it. -/
def InnerNode.Tombstoned (nd : InnerNode) : Prop :=
  nd.maxSize = 1 ∧ nd.nodeKey0 0 = BitVec.allOnes 64

instance (nd : InnerNode) : Decidable nd.Tombstoned := inferInstanceAs (Decidable (_ ∧ _))

def InnerNode.liveEntries (nd : InnerNode) : List (Key × Addr) :=
  if nd.Tombstoned then [] else nd.entries

/-- The nodes with one to thirty separators, each without what stands behind a tombstone. -/
def liveView (h : Addr → Option InnerNode) : Store Key Addr :=
  fun a => (h a).bind fun nd => if Fill nd.maxSize then some (nd.leftMostPtr, nd.liveEntries) else none

def TreeState.liveIndex (s : TreeState P) : Index Key Addr :=
  flat (liveView s.innerHeap) s.tempLevel ⊥ s.root

/-- A well-formed tree: complete, each inner node in a block of its own and with one to thirty separators,
the separators growing from left to right and none of them all ones except for a tombstone, over distinct
leaves. -/
structure LiveTree (s : TreeState P) : Prop where
  shape : Shape (liveView s.innerHeap) (fun _ => True) s.tempLevel s.root
  inner_nodup : (inners (liveView s.innerHeap) s.tempLevel s.root).Nodup
  sorted : Sorted s.liveIndex
  below : ∀ p ∈ s.liveIndex, p.1 < ((BitVec.allOnes 64 : Key) : WithBot Key)
  nodup : (labels s.liveIndex).Nodup

/-- `find_insert` comes to the leaf `L`. -/
def Reaches (s : TreeState P) (key : Key) (L : Addr) : Prop := ∃ path, findInsert s key = .ok (path, L)

/-- The leaves that `find_insert` reaches over all keys, from left to right. -/
structure LeafSequence (s : TreeState P) (ls : List Addr) : Prop where
  nodup : ls.Nodup
  total : ∀ key, ∃ L ∈ ls, Reaches s key L
  reached : ∀ L ∈ ls, ∃ key, Reaches s key L
  ordered : ∀ key key' L L', Reaches s key L → Reaches s key' L' → key ≤ key' → ls.idxOf L ≤ ls.idxOf L'

/-- `mergeInnerNode` comes to an end, and takes the leaf `L` out of the sequence of leaves and nothing
else: every other leaf is still reached by the keys that lead to it. -/
def RemovesLeaf (s : TreeState P) (rootPath : List Cursor) (L : Addr) : Prop :=
  ∃ s', mergeInnerNode s rootPath = .ok s' ∧
    (∀ ls, LeafSequence s ls → LeafSequence s' (ls.erase L)) ∧
    ∀ key L', L' ≠ L → Reaches s key L' → Reaches s' key L'

/-- The path ends at the first or at the last child of a node without a tombstone. -/
def endChild (s : TreeState P) (rootPath : List Cursor) : Bool :=
  match rootPath[s.tempLevel - 1]? with
  | none => false
  | some c =>
    match s.innerHeap c.node with
    | none => false
    | some nd => (c.nodePos = -1 || c.nodePos = nd.maxSize - 1) && !decide nd.Tombstoned

variable {s : TreeState P} {key : Key} {path : List Cursor} {L : Addr}

/-! ### Live nodes -/

theorem InnerNode.liveEntries_eq {nd : InnerNode} (h : ¬ nd.Tombstoned) : nd.liveEntries = nd.entries :=
  if_neg h

theorem liveView_some {h : Addr → Option InnerNode} {a : Addr} {nd : InnerNode} (ha : h a = some nd)
    (hfill : Fill nd.maxSize) : liveView h a = some (nd.leftMostPtr, nd.liveEntries) := by
  rw [liveView, ha, Option.bind_some, if_pos hfill]

theorem liveView_eq_some {h : Addr → Option InnerNode} {a c0 : Addr} {es : List (Key × Addr)}
    (ha : liveView h a = some (c0, es)) :
    ∃ nd, h a = some nd ∧ Fill nd.maxSize ∧ nd.leftMostPtr = c0 ∧ nd.liveEntries = es := by
  obtain ⟨nd, hnd, hview⟩ := Option.bind_eq_some_iff.mp ha
  by_cases hfill : Fill nd.maxSize
  · rw [if_pos hfill, Option.some.injEq, Prod.mk.injEq] at hview
    exact ⟨nd, hnd, hfill, hview.1, hview.2⟩
  · rw [if_neg hfill] at hview
    cases hview

theorem liveView_update (h : Addr → Option InnerNode) (a : Addr) {nd : InnerNode} (hfill : Fill nd.maxSize) :
    liveView (Function.update h a (some nd)) =
      Function.update (liveView h) a (some (nd.leftMostPtr, nd.liveEntries)) := by
  funext b
  by_cases hb : b = a
  · subst hb
    rw [Function.update_self]
    exact liveView_some (Function.update_self ..) hfill
  · rw [Function.update_of_ne hb, liveView, Function.update_of_ne hb]
    rfl

theorem InnerNode.sends_live (nd : InnerNode) (hfill : Fill nd.maxSize) (key : Key) :
    nd.Sends nd.leftMostPtr nd.liveEntries key := by
  by_cases htomb : nd.Tombstoned
  · obtain ⟨hone, hkey⟩ := htomb
    have hle : key ≤ nd.nodeKey0 0 := by
      rw [hkey]
      rw [BitVec.le_def, BitVec.toNat_allOnes]
      exact Nat.le_sub_one_of_lt key.isLt
    refine ⟨0, nd.leftMostPtr, ?_, fun lo => ⟨[], [], lo, ?_, rfl, id, nofun⟩⟩
    · rw [routeChild, hone, scanSeparators, if_pos ⟨hle, rfl⟩]
      rfl
    · rw [InnerNode.liveEntries, if_pos ⟨hone, hkey⟩]
      rfl
  · rw [InnerNode.liveEntries_eq htomb]
    exact nd.sends_entries key hfill.1

theorem findInsert_live (hs : Shape (liveView s.innerHeap) (fun _ => True) s.tempLevel s.root) (key : Key) :
    ∃ path leaf, findInsert s key = .ok (path, leaf) ∧
      CursorPath (liveView s.innerHeap) s.tempLevel s.root path leaf ∧
      (Sorted s.liveIndex → Routes s.liveIndex key leaf) := by
  have hview : ∀ b c0 es, liveView s.innerHeap b = some (c0, es) → True →
      ∃ nd, s.innerHeap b = some nd ∧ ∀ key, nd.Sends c0 es key := by
    intro b c0 es hb _
    obtain ⟨nd, hnd, hfill, rfl, rfl⟩ := liveView_eq_some hb
    exact ⟨nd, hnd, nd.sends_live hfill⟩
  obtain ⟨path, leaf, hrun, hpath, hroutes⟩ := findInsertFrom_view s hview key s.tempLevel s.root hs
  refine ⟨path, leaf, ?_, hpath, hroutes ⊥ (WithBot.bot_lt_coe key)⟩
  rw [findInsert]
  split_ifs with hlevel
  · rw [hlevel, findInsertFrom] at hrun
    exact hrun
  · exact hrun

theorem LiveTree.reaches_iff (h : LiveTree s) : Reaches s key L ↔ Routes s.liveIndex key L := by
  obtain ⟨path, leaf, hfind, -, hroutes⟩ := findInsert_live h.shape key
  constructor
  · rintro ⟨path', hfind'⟩
    rw [hfind, Except.ok.injEq, Prod.mk.injEq] at hfind'
    exact hfind'.2 ▸ hroutes h.sorted
  · intro hL
    rw [hL.unique h.sorted (hroutes h.sorted)]
    exact ⟨path, hfind⟩

/-! ### The sequence of leaves -/

theorem LeafSequence.mem_iff {ls : List Addr} (h : LeafSequence s ls) : L ∈ ls ↔ ∃ key, Reaches s key L := by
  constructor
  · exact h.reached L
  · rintro ⟨key, path, hfind⟩
    obtain ⟨L', hL', path', hfind'⟩ := h.total key
    rw [hfind, Except.ok.injEq, Prod.mk.injEq] at hfind'
    exact hfind'.2 ▸ hL'

theorem LeafSequence.unique {ls ls' : List Addr} (h : LeafSequence s ls) (h' : LeafSequence s ls') :
    ls = ls' := by
  have hmem : ∀ L, L ∈ ls ↔ L ∈ ls' := fun L => h.mem_iff.trans h'.mem_iff.symm
  have hperm : ls.Perm ls' := (List.perm_ext_iff_of_nodup h.nodup h'.nodup).mpr hmem
  -- in both lists the leaves stand in the order of their places in the first
  have hsorted : ∀ {l : List Addr}, LeafSequence s l →
      l.Pairwise fun a b => ls.idxOf a ≤ ls.idxOf b := by
    intro l hl
    rw [List.pairwise_iff_getElem]
    intro i j hi hj hij
    obtain ⟨ka, hka⟩ := hl.reached _ (List.getElem_mem hi)
    obtain ⟨kb, hkb⟩ := hl.reached _ (List.getElem_mem hj)
    rcases le_total ka kb with hle | hle
    · exact h.ordered ka kb _ _ hka hkb hle
    · have hback := hl.ordered kb ka _ _ hkb hka hle
      rw [hl.nodup.idxOf_getElem, hl.nodup.idxOf_getElem] at hback
      exact absurd hij (not_lt.mpr hback)
  refine hperm.eq_of_pairwise (fun a b ha hb hab hba => ?_) (hsorted h) (hsorted h')
  exact (List.idxOf_inj ha).mp (le_antisymm hab hba)

theorem LiveTree.leafSequence (h : LiveTree s) : LeafSequence s (labels s.liveIndex) := by
  refine ⟨h.nodup, fun key => ?_, fun L hL => ?_, fun key key' L L' hL hL' hle => ?_⟩
  · obtain ⟨path, leaf, hfind, -, hroutes⟩ := findInsert_live h.shape key
    exact ⟨leaf, (hroutes h.sorted).mem, path, hfind⟩
  · obtain ⟨key, hkey⟩ := h.sorted.exists_routes hL h.below
    exact ⟨key, h.reaches_iff.mpr hkey⟩
  · exact (h.reaches_iff.mp hL).ordered h.sorted h.nodup (h.reaches_iff.mp hL') hle

/-! ### The node above the leaf -/

/-- The path ends with the cursor `c` on the node `nd`, whose child `j` is the leaf `L`. -/
structure Parent (s : TreeState P) (rootPath : List Cursor) (L : Addr) (c : Cursor) (nd : InnerNode) (j : Nat) :
    Prop where
  cursor : rootPath[s.tempLevel - 1]? = some c
  node : s.innerHeap c.node = some nd
  fill : Fill nd.maxSize
  pos : c.nodePos = (j : Int) - 1
  child : ∃ X lo Y, kids (⊥ : WithBot Key) nd.leftMostPtr nd.liveEntries = X ++ (lo, L) :: Y ∧ X.length = j
  /-- What is written to the node shows in its own children only. -/
  rewrite : ∀ nd', Fill nd'.maxSize →
    Shape (liveView (s.setInner c.node nd').innerHeap) (fun _ => True) s.tempLevel s.root ∧
    (inners (liveView (s.setInner c.node nd').innerHeap) s.tempLevel s.root).Nodup ∧
    ∃ A lo B, s.liveIndex = A ++ kids lo nd.leftMostPtr nd.liveEntries ++ B ∧
      (s.setInner c.node nd').liveIndex = A ++ kids lo nd'.leftMostPtr nd'.liveEntries ++ B

theorem LiveTree.parent (h : LiveTree s) (hlevel : 1 ≤ s.tempLevel)
    (hfind : findInsert s key = .ok (path, L)) : ∃ c nd j, Parent s path L c nd j := by
  obtain ⟨path', L', hfind', ⟨hdesc, hcur⟩, -⟩ := findInsert_live h.shape key
  rw [hfind, Except.ok.injEq, Prod.mk.injEq] at hfind'
  obtain ⟨rfl, rfl⟩ := hfind'
  have hlen : path.length = s.tempLevel := by
    rw [← hdesc.length, List.length_map]
  rcases List.eq_nil_or_concat path with rfl | ⟨pre, c, rfl⟩
  · rw [← hlen] at hlevel
    exact absurd hlevel (Nat.not_succ_le_zero 0)
  · rw [List.concat_eq_append] at *
    rw [List.map_append, List.map_cons, List.map_nil, Cursor.step] at hdesc
    obtain ⟨-, c0, es, X, lo, Y, hview, hk, hj, -, hrewrite⟩ := hdesc.rewrite h.shape h.inner_nodup
    obtain ⟨nd, hnd, hfill, rfl, rfl⟩ := liveView_eq_some hview
    refine ⟨c, nd, (c.nodePos + 1).toNat, ?_, hnd, hfill, ?_, ⟨X, lo, Y, hk, hj⟩, fun nd' hfill' => ?_⟩
    · rw [← hlen, List.length_append, List.length_singleton, Nat.add_sub_cancel, List.getElem?_concat_length]
    · have hge := hcur c (by simp)
      omega
    · obtain ⟨hshape, hinn, hflat⟩ := hrewrite nd'.leftMostPtr nd'.liveEntries trivial
      rw [← liveView_update _ _ hfill'] at hshape hinn hflat
      refine ⟨hshape, ?_, hflat ⊥⟩
      have hsame : inners (liveView (s.setInner c.node nd').innerHeap) s.tempLevel s.root =
          inners (liveView s.innerHeap) s.tempLevel s.root := hinn
      rw [hsame]
      exact h.inner_nodup

variable {c : Cursor} {nd : InnerNode} {j : Nat}

theorem Parent.mergeInnerNode_eq (h : Parent s path L c nd j) (hlevel : 2 ≤ s.tempLevel) :
    mergeInnerNode s path =
      if nd.Tombstoned ∧ c.nodePos = -1 then
        mergeLoop (s.freeInner c.node) path c.node (s.tempLevel - 2)
      else .ok (s.setInner c.node (nd.removeEntry c.nodePos)) := by
  have hpred : s.tempLevel - 1 = s.tempLevel - 2 + 1 := by omega
  have hcursor := h.cursor
  rw [hpred] at hcursor
  rw [mergeInnerNode, h.cursor, deref_some, ok_bind, hpred]
  simp only [mergeLoop, hcursor, h.node, deref_some, ok_bind, pure_eq_ok]
  by_cases hfree : nd.Tombstoned ∧ c.nodePos = -1
  · rw [if_pos hfree, if_pos ⟨hfree.1.1, hfree.2, hfree.1.2⟩]
  · rw [if_neg hfree, if_neg fun hall => hfree ⟨⟨hall.1, hall.2.2⟩, hall.2.1⟩]

theorem Parent.endChild_iff (h : Parent s path L c nd j) :
    endChild s path = true ↔ (j = 0 ∨ j = nd.maxSize) ∧ ¬ nd.Tombstoned := by
  simp only [endChild, h.cursor, h.node, h.pos, Bool.and_eq_true, Bool.or_eq_true, decide_eq_true_eq,
    Bool.not_eq_true', decide_eq_false_iff_not]
  apply and_congr_left'
  apply or_congr <;> omega

theorem Parent.child_eq (h : Parent s path L c nd j) (hlive : ¬ nd.Tombstoned) :
    j ≤ nd.maxSize ∧ nd.child j = L := by
  obtain ⟨X, lo, Y, hk, hj⟩ := h.child
  rw [InnerNode.liveEntries_eq hlive] at hk
  have hlen := congrArg List.length hk
  rw [kids_length, nd.entries_length, List.length_append, List.length_cons, hj] at hlen
  have hle : j ≤ nd.maxSize := by omega
  obtain ⟨X', lo', Y', hk', hX', -, -⟩ := nd.kids_split ⊥ j hle
  rw [hk] at hk'
  have htail := (List.append_inj hk' (hj.trans hX'.symm)).2
  rw [List.cons.injEq, Prod.mk.injEq] at htail
  exact ⟨hle, htail.1.2.symm⟩

/-! ### The first and the last child -/

theorem InnerNode.kids_of_tombstoned {nd : InnerNode} (h : nd.Tombstoned) (lo : WithBot Key) :
    kids lo nd.leftMostPtr nd.liveEntries = [(lo, nd.leftMostPtr)] := by
  rw [InnerNode.liveEntries, if_pos h]
  rfl

theorem InnerNode.kids_first (nd : InnerNode) {m : Nat} (hm : nd.maxSize = m + 1) (lo : WithBot Key) :
    kids lo nd.leftMostPtr nd.entries = (lo, nd.leftMostPtr) :: ((nd.nodeKey0 0 : WithBot Key), nd.nodeKey1 0) ::
      (List.range m).map fun i => ((nd.nodeKey0 (i + 1) : WithBot Key), nd.nodeKey1 (i + 1)) := by
  simp [kids, InnerNode.entries, hm, List.range_succ_eq_map]

theorem InnerNode.kids_last (nd : InnerNode) {m : Nat} (hm : nd.maxSize = m + 1) (lo : WithBot Key) :
    kids lo nd.leftMostPtr nd.entries = (lo, nd.leftMostPtr) ::
      ((List.range m).map fun i => ((nd.nodeKey0 i : WithBot Key), nd.nodeKey1 i)) ++
        [((nd.nodeKey0 m : WithBot Key), nd.nodeKey1 m)] := by
  simp [kids, InnerNode.entries, hm, List.range_succ]

/-- `nd'` is `nd` without the child `j`. -/
def InnerNode.Drops (nd nd' : InnerNode) (j : Nat) : Prop :=
  Fill nd'.maxSize ∧ ∀ lo : WithBot Key, Removes (nd.child j) (kids lo nd.leftMostPtr nd.entries)
    (kids lo nd'.leftMostPtr nd'.liveEntries)

theorem InnerNode.removeEntry_only (nd : InnerNode) (hone : nd.maxSize = 1) (hj : j = 0 ∨ j = 1) :
    nd.Drops (nd.removeEntry ((j : Int) - 1)) j := by
  have hfill : Fill 1 := by decide
  rcases hj with rfl | rfl
  · have hnew : nd.removeEntry (((0 : Nat) : Int) - 1) = { nd with
        nodeKey0 := Function.update nd.nodeKey0 0 (BitVec.allOnes 64)
        leftMostPtr := nd.nodeKey1 0 } := by
      rw [InnerNode.removeEntry, if_pos hone, if_pos (by decide)]
    have htomb : (nd.removeEntry (((0 : Nat) : Int) - 1)).Tombstoned := by
      rw [hnew]
      refine ⟨hone, ?_⟩
      show Function.update nd.nodeKey0 0 (BitVec.allOnes 64) 0 = _
      rw [Function.update_self]
    refine ⟨htomb.1.symm.subst hfill, fun lo => Or.inr ⟨[], lo, _, nd.nodeKey1 0, [], nd.kids_first hone lo, ?_⟩⟩
    rw [InnerNode.kids_of_tombstoned htomb, hnew]
    rfl
  · have hnew : nd.removeEntry (((1 : Nat) : Int) - 1) = { nd with
        nodeKey0 := Function.update (Function.update nd.nodeKey0 0 (BitVec.allOnes 64)) 1 0 } := by
      rw [InnerNode.removeEntry, if_pos hone, if_neg (by decide)]
    have htomb : (nd.removeEntry (((1 : Nat) : Int) - 1)).Tombstoned := by
      rw [hnew]
      refine ⟨hone, ?_⟩
      show Function.update (Function.update nd.nodeKey0 0 (BitVec.allOnes 64)) 1 0 0 = _
      rw [Function.update_of_ne Nat.zero_ne_one, Function.update_self]
    refine ⟨htomb.1.symm.subst hfill, fun lo => Or.inl ⟨[(lo, nd.leftMostPtr)], _, [], List.cons_ne_nil _ _,
      nd.kids_first hone lo, ?_⟩⟩
    rw [InnerNode.kids_of_tombstoned htomb, hnew]
    rfl

/-- The first child of a node with two separators or more. -/
theorem InnerNode.removeEntry_first (nd : InnerNode) {m : Nat} (hm : nd.maxSize = m + 1) (hpos : 0 < m)
    (hfill : Fill nd.maxSize) (hkeys : ∀ i < nd.maxSize, nd.nodeKey0 i ≠ BitVec.allOnes 64) :
    nd.Drops (nd.removeEntry (((0 : Nat) : Int) - 1)) 0 := by
  have hmany : nd.maxSize ≠ 1 := by omega
  have hnew : nd.removeEntry (((0 : Nat) : Int) - 1) = { nd with
      leftMostPtr := nd.nodeKey1 0
      nodeKey0 := Arrays.shiftDown 1 m nd.nodeKey0
      nodeKey1 := Arrays.shiftDown 1 m nd.nodeKey1
      maxSize := m } := by
    rw [InnerNode.removeEntry, if_neg hmany, if_pos (by decide), hm]
    rfl
  -- the other entries move down by one place
  have hshift : ∀ {β : Type} (a : Nat → β) i, i < m → Arrays.shiftDown 1 m a i = a (i + 1) := by
    intro β a i hi
    rw [Arrays.shiftDown_apply Nat.one_pos, if_pos (by omega)]
  rw [hnew]
  refine ⟨⟨hpos, (Nat.le_succ m).trans (hm.symm.le.trans hfill.2)⟩, fun lo =>
    Or.inr ⟨[], lo, _, nd.nodeKey1 0, _, nd.kids_first hm lo, ?_⟩⟩
  rw [InnerNode.liveEntries_eq]
  · simp only [kids, InnerNode.entries, List.map_map, List.nil_append, List.cons.injEq, true_and]
    apply List.map_congr_left
    intro i hi
    simp only [Function.comp_apply, hshift _ i (List.mem_range.mp hi)]
  · rintro ⟨-, hkey⟩
    exact hkeys 1 (by omega) ((hshift nd.nodeKey0 0 hpos).symm.trans hkey)

/-- The last child of a node with two separators or more. -/
theorem InnerNode.removeEntry_last (nd : InnerNode) {m : Nat} (hm : nd.maxSize = m + 1) (hpos : 0 < m)
    (hfill : Fill nd.maxSize) (hkeys : ∀ i < nd.maxSize, nd.nodeKey0 i ≠ BitVec.allOnes 64) :
    nd.Drops (nd.removeEntry (((m + 1 : Nat) : Int) - 1)) (m + 1) := by
  have hmany : nd.maxSize ≠ 1 := by omega
  have hplace : ((m + 1 : Nat) : Int) - 1 = m := by omega
  have hnew : nd.removeEntry (((m + 1 : Nat) : Int) - 1) = { nd with
      nodeKey0 := Function.update nd.nodeKey0 m (BitVec.allOnes 64)
      nodeKey1 := Function.update nd.nodeKey1 m 0
      maxSize := m } := by
    rw [InnerNode.removeEntry, if_neg hmany, hm, if_neg (by omega), if_pos rfl, hplace]
    rfl
  rw [hnew]
  refine ⟨⟨hpos, (Nat.le_succ m).trans (hm.symm.le.trans hfill.2)⟩, fun lo =>
    Or.inl ⟨_, _, [], List.cons_ne_nil _ _, nd.kids_last hm lo, ?_⟩⟩
  rw [InnerNode.liveEntries_eq]
  · simp only [kids, InnerNode.entries, List.map_map, List.append_nil, List.cons.injEq, true_and]
    apply List.map_congr_left
    intro i hi
    have hne : i ≠ m := Nat.ne_of_lt (List.mem_range.mp hi)
    simp only [Function.comp_apply, Function.update_of_ne hne]
  · rintro ⟨-, hkey⟩
    have hsame : Function.update nd.nodeKey0 m (BitVec.allOnes 64) 0 = nd.nodeKey0 0 :=
      Function.update_of_ne (Nat.ne_of_lt hpos) ..
    exact hkeys 0 (by omega) (hsame.symm.trans hkey)

theorem InnerNode.removeEntry_end (nd : InnerNode) (hfill : Fill nd.maxSize)
    (hkeys : ∀ i < nd.maxSize, nd.nodeKey0 i ≠ BitVec.allOnes 64) (hj : j = 0 ∨ j = nd.maxSize) :
    nd.Drops (nd.removeEntry ((j : Int) - 1)) j := by
  obtain ⟨m, hm⟩ : ∃ m, nd.maxSize = m + 1 := Nat.exists_eq_add_of_le' hfill.1
  rcases Nat.eq_zero_or_pos m with rfl | hpos
  · rw [hm] at hj
    exact nd.removeEntry_only hm hj
  · rcases hj with rfl | rfl
    · exact nd.removeEntry_first hm hpos hfill hkeys
    · rw [hm]
      exact nd.removeEntry_last hm hpos hfill hkeys

theorem Parent.keys_ne (h : Parent s path L c nd j) (htree : LiveTree s) (hlive : ¬ nd.Tombstoned) :
    ∀ i < nd.maxSize, nd.nodeKey0 i ≠ BitVec.allOnes 64 := by
  obtain ⟨-, -, A, lo, B, hindex, -⟩ := h.rewrite nd h.fill
  intro i hi heq
  have hentry : (nd.nodeKey0 i, nd.nodeKey1 i) ∈ nd.entries :=
    List.mem_map.mpr ⟨i, List.mem_range.mpr hi, rfl⟩
  have hmem : ((nd.nodeKey0 i : WithBot Key), nd.nodeKey1 i) ∈ s.liveIndex := by
    rw [hindex, InnerNode.liveEntries_eq hlive]
    apply List.mem_append_left
    apply List.mem_append_right
    exact List.mem_cons_of_mem _ (List.mem_map.mpr ⟨_, hentry, rfl⟩)
  have hlt := htree.below _ hmem
  rw [heq] at hlt
  exact lt_irrefl _ hlt

theorem Parent.removes (h : Parent s path L c nd j) (htree : LiveTree s) (hlevel : 2 ≤ s.tempLevel)
    (hend : endChild s path = true) : ∃ s', mergeInnerNode s path = .ok s' ∧ LiveTree s' ∧
      Removes L s.liveIndex s'.liveIndex := by
  obtain ⟨hj, hlive⟩ := h.endChild_iff.mp hend
  obtain ⟨hfill, hdrops⟩ := nd.removeEntry_end h.fill (h.keys_ne htree hlive) hj
  obtain ⟨hshape, hinn, A, lo, B, hindex, hindex'⟩ := h.rewrite _ hfill
  have hrem : Removes L s.liveIndex (s.setInner c.node (nd.removeEntry ((j : Int) - 1))).liveIndex := by
    rw [hindex, hindex', InnerNode.liveEntries_eq hlive, ← (h.child_eq hlive).2]
    exact (hdrops lo).append A B
  refine ⟨s.setInner c.node (nd.removeEntry ((j : Int) - 1)), ?_, ⟨hshape, hinn, hrem.sorted htree.sorted, ?_, ?_⟩, hrem⟩
  · rw [h.mergeInnerNode_eq hlevel, if_neg fun hfree => hlive hfree.1, h.pos]
  · intro p hp
    obtain ⟨q, hq, hbound⟩ := hrem.bound_mem hp
    exact hbound ▸ htree.below q hq
  · rw [hrem.labels_eq htree.nodup]
    exact htree.nodup.erase L

theorem LiveTree.removesLeaf {s' : TreeState P} (h : LiveTree s) (h' : LiveTree s')
    (hrun : mergeInnerNode s path = .ok s') (hrem : Removes L s.liveIndex s'.liveIndex) :
    RemovesLeaf s path L := by
  refine ⟨s', hrun, fun ls hls => ?_, fun key L' hne hL' => ?_⟩
  · rw [hls.unique h.leafSequence, ← hrem.labels_eq h.nodup]
    exact h'.leafSequence
  · exact h'.reaches_iff.mpr (hrem.routes h.sorted (h.reaches_iff.mp hL') hne)

/-! ### The children in between

The loop that closes the gap runs one round too few: it copies the entries after the one that goes, but for
the last, and `max_size` goes down by one all the same. So the last child of the node is gone with it. -/

theorem InnerNode.labels_kids (nd : InnerNode) (lo : WithBot Key) :
    labels (kids lo nd.leftMostPtr nd.entries) = (List.range (nd.maxSize + 1)).map nd.child := by
  simp [labels, kids, InnerNode.entries, List.range_succ_eq_map, InnerNode.child, Function.comp_def]

theorem InnerNode.mem_live_kids (nd : InnerNode) {lo : WithBot Key} {M : Addr}
    (hM : M ∈ labels (kids lo nd.leftMostPtr nd.liveEntries)) :
    M ∈ (List.range (nd.maxSize + 1)).map nd.child := by
  rw [← nd.labels_kids lo]
  rw [InnerNode.liveEntries] at hM
  split at hM
  · rw [List.mem_singleton.mp hM]
    exact List.mem_cons_self
  · exact hM

/-- Taking out a child in between leaves the last one out: every child is one of the others. -/
theorem InnerNode.removeEntry_middle (nd : InnerNode) (hpos : 0 < j) (hlt : j < nd.maxSize) :
    (nd.removeEntry ((j : Int) - 1)).maxSize = nd.maxSize - 1 ∧
      ∀ i < nd.maxSize, ∃ i' < nd.maxSize, (nd.removeEntry ((j : Int) - 1)).child i = nd.child i' := by
  have hplace : ((j : Int) - 1).toNat + 1 = j := by omega
  have hnew : nd.removeEntry ((j : Int) - 1) = { nd with
      nodeKey0 := Function.update (Arrays.shiftDown j (nd.maxSize - 1 - j) nd.nodeKey0) nd.maxSize
        (BitVec.allOnes 64)
      nodeKey1 := Function.update (Arrays.shiftDown j (nd.maxSize - 1 - j) nd.nodeKey1) nd.maxSize 0
      maxSize := nd.maxSize - 1 } := by
    rw [InnerNode.removeEntry, if_neg (by omega), if_neg (by omega), if_neg (by omega), hplace]
  rw [hnew]
  refine ⟨rfl, fun i hi => ?_⟩
  rcases Nat.eq_zero_or_pos i with rfl | hi₀
  · exact ⟨0, hi, rfl⟩
  · have hword : Function.update (Arrays.shiftDown j (nd.maxSize - 1 - j) nd.nodeKey1) nd.maxSize 0 (i - 1) =
        if j ≤ i - 1 + 1 ∧ i - 1 + 1 < j + (nd.maxSize - 1 - j) then nd.nodeKey1 (i - 1 + 1)
        else nd.nodeKey1 (i - 1) := by
      rw [Function.update_of_ne (by omega), Arrays.shiftDown_apply hpos]
    have hi' : i ≠ 0 := Nat.ne_of_gt hi₀
    simp only [InnerNode.child, if_neg hi', hword]
    by_cases hmoved : j ≤ i - 1 + 1 ∧ i - 1 + 1 < j + (nd.maxSize - 1 - j)
    · refine ⟨i + 1, by omega, ?_⟩
      rw [if_pos hmoved, if_neg (Nat.succ_ne_zero i), Nat.sub_add_cancel hi₀, Nat.add_sub_cancel]
    · exact ⟨i, hi, by rw [if_neg hmoved, if_neg hi']⟩

/-- When a child in between is to go, the last child of the node gets lost. -/
theorem Parent.loses (h : Parent s path L c nd j) (htree : LiveTree s) (hlevel : 2 ≤ s.tempLevel)
    (hlive : ¬ nd.Tombstoned) (hpos : 0 < j) (hlt : j < nd.maxSize) : ¬ RemovesLeaf s path L := by
  obtain ⟨hsize, hchildren⟩ := nd.removeEntry_middle hpos hlt
  have hfill : Fill (nd.removeEntry ((j : Int) - 1)).maxSize := by
    rw [hsize]
    exact ⟨by omega, (Nat.sub_le _ _).trans h.fill.2⟩
  obtain ⟨hshape, -, A, lo, B, hindex, hindex'⟩ := h.rewrite _ hfill
  have hnodup := htree.nodup
  rw [hindex, InnerNode.liveEntries_eq hlive, labels, List.map_append, List.map_append] at hnodup
  obtain ⟨hAK, -, hBoff⟩ := List.nodup_append.mp hnodup
  obtain ⟨-, hK, hAoff⟩ := List.nodup_append.mp hAK
  have hkids : (kids lo nd.leftMostPtr nd.entries).map Prod.snd = _ := nd.labels_kids lo
  rw [hkids] at hK hAoff hBoff
  have hlast : nd.child nd.maxSize ∈ (List.range (nd.maxSize + 1)).map nd.child :=
    List.mem_map.mpr ⟨_, List.mem_range.mpr (Nat.lt_succ_self _), rfl⟩
  -- the children of the node are apart, so the last one is not the one that goes
  have hother : ∀ i < nd.maxSize, nd.child i ≠ nd.child nd.maxSize := by
    intro i hi heq
    have hin := List.inj_on_of_nodup_map hK (List.mem_range.mpr (Nat.lt_succ_of_lt hi))
      (List.mem_range.mpr (Nat.lt_succ_self _)) heq
    exact absurd hin (Nat.ne_of_lt hi)
  rintro ⟨s', hrun, hseq, -⟩
  rw [h.mergeInnerNode_eq hlevel, if_neg fun hfree => hlive hfree.1, h.pos, Except.ok.injEq] at hrun
  subst hrun
  -- the last child was a leaf of the tree, so it should still be reached
  have hmem : nd.child nd.maxSize ∈ (labels s.liveIndex).erase L := by
    rw [← (h.child_eq hlive).2]
    apply (List.mem_erase_of_ne (hother j hlt).symm).mpr
    rw [hindex, InnerNode.liveEntries_eq hlive, labels, List.map_append, List.map_append, hkids]
    exact List.mem_append_left _ (List.mem_append_right _ hlast)
  obtain ⟨key', path', hfind'⟩ := (hseq _ htree.leafSequence).reached _ hmem
  obtain ⟨path'', leaf, hfind'', ⟨hdesc, -⟩, -⟩ := findInsert_live hshape key'
  rw [hfind', Except.ok.injEq, Prod.mk.injEq] at hfind''
  have hin : nd.child nd.maxSize ∈
      labels (s.setInner c.node (nd.removeEntry ((j : Int) - 1))).liveIndex := by
    rw [hfind''.2]
    exact hdesc.mem_labels ⊥
  rw [hindex', labels, List.map_append, List.map_append, List.mem_append, List.mem_append] at hin
  -- it is not under another node, nor is it one of the children that are left
  rcases hin with (hin | hin) | hin
  · exact hAoff _ hin _ hlast rfl
  · have hin' : nd.child nd.maxSize ∈
        (List.range nd.maxSize).map (nd.removeEntry ((j : Int) - 1)).child := by
      have hsize' : (nd.removeEntry ((j : Int) - 1)).maxSize + 1 = nd.maxSize := by
        rw [hsize, Nat.sub_add_cancel (Nat.one_le_of_lt hlt)]
      have hlabels := (nd.removeEntry ((j : Int) - 1)).mem_live_kids hin
      rwa [hsize'] at hlabels
    obtain ⟨i, hi, heq⟩ := List.mem_map.mp hin'
    obtain ⟨i', hi', heq'⟩ := hchildren i (List.mem_range.mp hi)
    exact hother i' hi' (heq'.symm.trans heq)
  · exact hBoff _ (List.mem_append_right _ hlast) _ hin rfl

/-! ### A node that is freed -/

theorem findInsertFrom_of_fewer {s' : TreeState P}
    (hfewer : ∀ b nd, s'.innerHeap b = some nd → s.innerHeap b = some nd) {d : Nat} {a : Addr}
    {r : List Cursor × Addr} (h : findInsertFrom s' key d a = .ok r) : findInsertFrom s key d a = .ok r := by
  induction d generalizing a r with
  | zero => exact h
  | succ d ih =>
    simp only [findInsertFrom, bind_eq_ok, deref_eq_ok] at h ⊢
    obtain ⟨nd, hnd, posChild, hroute, pathLeaf, hrest, hret⟩ := h
    exact ⟨nd, hfewer a nd hnd, posChild, hroute, pathLeaf, ih hrest, hret⟩

theorem findInsertFrom_nodes {d : Nat} {a : Addr} (h : findInsertFrom s key d a = .ok (path, L)) :
    ∀ c ∈ path, ∃ nd, s.innerHeap c.node = some nd := by
  induction d generalizing a path with
  | zero =>
    rw [findInsertFrom, Except.ok.injEq, Prod.mk.injEq] at h
    rw [← h.1]
    exact fun c hc => absurd hc List.not_mem_nil
  | succ d ih =>
    simp only [findInsertFrom, bind_eq_ok, deref_eq_ok] at h
    obtain ⟨nd, hnd, ⟨pos, child⟩, hroute, ⟨path', leaf'⟩, hrest, hret⟩ := h
    simp only [pure_eq_ok, Except.ok.injEq, Prod.mk.injEq] at hret
    obtain ⟨rfl, rfl⟩ := hret
    intro c hc
    rcases List.mem_cons.mp hc with rfl | hc
    · exact ⟨nd, hnd⟩
    · exact ih hrest c hc

theorem mergeLoop_freed {start : Addr} (hfreed : s.innerHeap start = none) {level : Nat} {s' : TreeState P}
    (hrun : mergeLoop s path start level = .ok s') : s' = s := by
  cases level with
  | zero => exact (Except.ok.inj hrun).symm
  | succ level =>
    simp only [mergeLoop, hfreed, bind_eq_ok, deref_eq_ok] at hrun
    obtain ⟨_, -, _, hnone, -⟩ := hrun
    cases hnone

/-- When the node has a tombstone, it is freed and the tree still leads to it. -/
theorem Parent.dangles (h : Parent s path L c nd j) (htree : LiveTree s) (hlevel : 2 ≤ s.tempLevel)
    (hfind : findInsert s key = .ok (path, L)) (htomb : nd.Tombstoned) : ¬ RemovesLeaf s path L := by
  have hpos : c.nodePos = -1 := by
    obtain ⟨X, lo, Y, hk, hj⟩ := h.child
    have hlen := congrArg List.length hk
    rw [InnerNode.kids_of_tombstoned htomb, List.length_singleton, List.length_append, List.length_cons, hj] at hlen
    rw [h.pos]
    omega
  rintro ⟨s', hrun, hseq, -⟩
  rw [h.mergeInnerNode_eq hlevel, if_pos ⟨htomb, hpos⟩] at hrun
  have hfreed : (s.freeInner c.node).innerHeap c.node = none := Function.update_self ..
  rw [mergeLoop_freed hfreed hrun] at hseq
  -- the key of the leaf has no way any more
  obtain ⟨L', -, path', hfind'⟩ := (hseq _ htree.leafSequence).total key
  have hzero : s.tempLevel ≠ 0 := by omega
  rw [findInsert, if_neg hzero] at hfind
  rw [findInsert, if_neg (show (s.freeInner c.node).tempLevel ≠ 0 from hzero)] at hfind'
  have hfewer : ∀ b nd', (s.freeInner c.node).innerHeap b = some nd' → s.innerHeap b = some nd' := by
    intro b nd' hb
    by_cases heq : b = c.node
    · rw [heq, hfreed] at hb
      cases hb
    · have hother : (s.freeInner c.node).innerHeap b = s.innerHeap b := Function.update_of_ne heq ..
      rwa [hother] at hb
  have hsame : findInsertFrom s key s.tempLevel s.root = .ok (path', L') :=
    findInsertFrom_of_fewer hfewer hfind'
  rw [hfind, Except.ok.injEq, Prod.mk.injEq] at hsame
  obtain ⟨nd', hnd'⟩ := findInsertFrom_nodes hfind' c (hsame.1 ▸ List.mem_of_getElem? h.cursor)
  rw [hfreed] at hnd'
  cases hnd'

theorem LiveTree.endChild_of_removes (h : LiveTree s) (hlevel : 2 ≤ s.tempLevel)
    (hfind : findInsert s key = .ok (path, L)) (hremoves : RemovesLeaf s path L) :
    endChild s path = true := by
  obtain ⟨c, nd, j, hparent⟩ := h.parent (Nat.one_le_of_lt hlevel) hfind
  have hlive : ¬ nd.Tombstoned := fun htomb => hparent.dangles h hlevel hfind htomb hremoves
  apply hparent.endChild_iff.mpr
  refine ⟨?_, hlive⟩
  by_contra hmiddle
  have hle := (hparent.child_eq hlive).1
  exact hparent.loses h hlevel hlive (by omega) (by omega) hremoves

/-- In every well-formed tree of two levels or more, for every key: `mergeInnerNode` takes the leaf of the
key out of the sequence of leaves, and no other one, if and only if it is the first or the last child of
its node and the node has no tombstone. -/
theorem mergeInnerNode_iff (h : LiveTree s) (hlevel : 2 ≤ s.tempLevel)
    (hfind : findInsert s key = .ok (path, L)) : RemovesLeaf s path L ↔ endChild s path = true := by
  constructor
  · exact h.endChild_of_removes hlevel hfind
  · intro hend
    obtain ⟨c, nd, j, hparent⟩ := h.parent (Nat.one_le_of_lt hlevel) hfind
    obtain ⟨s', hrun, htree, hrem⟩ := hparent.removes h hlevel hend
    exact h.removesLeaf htree hrun hrem

/-! ### A small tree -/

/-- Six leaves under two inner nodes: `1` to `4` with the separators `5`, `8` and `12`, then `5` and `6`
with the separator `30`; the root has the separator `20`. -/
def twoLevels : TreeState Unit where
  innerHeap := fun a =>
    if a = 10 then some ⟨11, 1, 0, fun i => if i = 0 then 20 else BitVec.allOnes 64, fun _ => 12⟩
    else if a = 11 then
      some ⟨1, 3, 0, fun i => if i = 0 then 5 else if i = 1 then 8 else if i = 2 then 12 else BitVec.allOnes 64,
        fun i => i + 2⟩
    else if a = 12 then some ⟨5, 1, 0, fun i => if i = 0 then 30 else BitVec.allOnes 64, fun _ => 6⟩
    else none
  dleafHeap := fun a => if 1 ≤ a ∧ a ≤ 6 then some ⟨fun _ => .zero, 0, 0, 0, 0, 0⟩ else none
  bufHeap := fun _ => none
  brk := 13
  junkInner := fun _ => ⟨0, 0, 0, fun _ => 0, fun _ => 0⟩
  junkLeaf := fun _ => ⟨fun _ => .zero, 0, 0, 0, 0, 0⟩
  pm := ()
  root := 10
  tempLevel := 2
  leafStart := 0
  dstart := 1

theorem twoLevels_index : twoLevels.liveIndex =
    [((⊥ : WithBot Key), 1), (((5 : Key) : WithBot Key), 2), (((8 : Key) : WithBot Key), 3),
      (((12 : Key) : WithBot Key), 4), (((20 : Key) : WithBot Key), 5), (((30 : Key) : WithBot Key), 6)] := by
  decide

theorem twoLevels_tree : LiveTree twoLevels := by
  have hroot : liveView twoLevels.innerHeap 10 = some (11, [(20, 12)]) := by decide
  have hleft : liveView twoLevels.innerHeap 11 = some (1, [(5, 2), (8, 3), (12, 4)]) := by decide
  have hright : liveView twoLevels.innerHeap 12 = some (5, [(30, 6)]) := by decide
  have hinner : inners (liveView twoLevels.innerHeap) 2 10 = {10, 11, 12} := by
    rw [inners_succ hroot ⊥]
    simp [innersKids, kids, inners, hleft, hright]
  refine ⟨?_, ?_, ?_, ?_, ?_⟩
  · refine ⟨11, [(20, 12)], hroot, trivial, fun p hp => ?_⟩
    simp only [kids, List.map_cons, List.map_nil, List.mem_cons, List.not_mem_nil, or_false] at hp
    rcases hp with rfl | rfl
    · exact ⟨_, _, hleft, trivial, fun _ _ => trivial⟩
    · exact ⟨_, _, hright, trivial, fun _ _ => trivial⟩
  · rw [show inners (liveView twoLevels.innerHeap) twoLevels.tempLevel twoLevels.root = _ from hinner]
    decide
  · rw [twoLevels_index]
    unfold Sorted
    decide
  · rw [twoLevels_index]
    decide
  · rw [twoLevels_index]
    decide

/-- The first leaf goes; so does the last one of the second node, which leaves a tombstone. -/
theorem mergeInnerNode_iff_six : ∃ path, findInsert twoLevels 31 = .ok (path, 6) ∧
    (RemovesLeaf twoLevels path 6 ↔ endChild twoLevels path = true) :=
  ⟨_, rfl, mergeInnerNode_iff twoLevels_tree (Nat.le_refl 2)
    (show findInsert twoLevels 31 = .ok (_, 6) from rfl)⟩

/-- Taking out the leaf `2` loses the leaf `4`. -/
theorem mergeInnerNode_loses_last : ∃ path, findInsert twoLevels 6 = .ok (path, 2) ∧ LiveTree twoLevels ∧
    ¬ RemovesLeaf twoLevels path 2 := by
  have hfind : findInsert twoLevels 6 = .ok ([⟨10, -1, 1, 0⟩, ⟨11, 0, 3, 0⟩], 2) := rfl
  refine ⟨_, hfind, twoLevels_tree, fun hremoves => ?_⟩
  have hend := twoLevels_tree.endChild_of_removes (Nat.le_refl 2) hfind hremoves
  exact absurd hend (by decide)

end ZBTree
