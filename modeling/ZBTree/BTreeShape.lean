import ZBTree.Invariant

/-!
# B+-tree shape

The invariant in the words one would use for a B+-tree: `TreeAt` follows the child
pointers of the heap from the root down and says what every node on the way has to be.
-/

namespace ZBTree

open RangeIndex MultiwayTree LinkedList Pmem

variable {P : Type} [Pmem P]

/-- The bounds of child `j` of a node whose own keys lie between `lo` and `hi`. -/
def InnerNode.lower (nd : InnerNode) (lo : WithBot Key) (j : Nat) : WithBot Key :=
  if j = 0 then lo else (nd.nodeKey0 (j - 1) : WithBot Key)

def InnerNode.upper (nd : InnerNode) (hi : WithTop Key) (j : Nat) : WithTop Key :=
  if j < nd.maxSize then (nd.nodeKey0 j : WithTop Key) else hi

/-- The tree at `a` has depth `d` and the leaves `leaves`, from left to right, and its keys
lie above `lo` and not above `hi`. -/
def TreeAt (s : TreeState P) : Nat → WithBot Key → WithTop Key → Addr → List Addr → Prop
  | 0, lo, hi, a, leaves => leaves = [a] ∧ ∃ m, s.dleafHeap a = some m ∧ m.maxUse ≤ MAX_LEAF_KEY ∧
      ∀ i k, HasKey s.pm m k i → lo < k ∧ (k : WithTop Key) ≤ hi
  | d + 1, lo, hi, a, leaves => ∃ nd, s.innerHeap a = some nd ∧
      (1 ≤ nd.maxSize ∧ nd.maxSize ≤ MAX_LEAF_KEY) ∧
      (∀ i, i + 1 < nd.maxSize → nd.nodeKey0 i < nd.nodeKey0 (i + 1)) ∧
      (∀ j, j ≤ nd.maxSize → nd.child j ≠ 0) ∧
      (∀ i j, i ≤ nd.maxSize → j ≤ nd.maxSize → nd.child i = nd.child j → i = j) ∧
      ∃ parts : Nat → List Addr, leaves = (List.range (nd.maxSize + 1)).flatMap parts ∧
        ∀ j, j ≤ nd.maxSize → TreeAt s d (nd.lower lo j) (nd.upper hi j) (nd.child j) (parts j)

/-- A well-formed tree with the given leaves: every path from the root has `temp_level`
inner nodes, and both leaf chains run along the leaves. -/
structure WellFormed (s : TreeState P) (leaves : List Addr) : Prop where
  tree : TreeAt s s.tempLevel ⊥ ⊤ s.root leaves
  nodup : leaves.Nodup
  dchain : ∀ i (hi : i < leaves.length), s.nextOf^[i] s.dstart = leaves[i]
  pchain : ∀ i (hi : i < leaves.length), (pnext s.pm)^[i] s.leafStart = s.altOf leaves[i]

/-! ### From the invariant

A tree that keeps `Inv` is the tree that `TreeAt` describes. The index of the tree, a list of leaves with
lower bounds, determines every separator, so the proof goes down the tree and reads the bounds of a node
off the part of the index that lies under it. -/

theorem InnerNode.kids_eq_map (nd : InnerNode) (lo : WithBot Key) :
    kids lo nd.leftMostPtr nd.entries =
      (List.range (nd.maxSize + 1)).map fun j => (nd.lower lo j, nd.child j) := by
  rw [List.range_succ_eq_map, List.map_cons, List.map_map, kids, InnerNode.entries, List.map_map]
  simp [InnerNode.lower, InnerNode.child, Function.comp_def]

omit [Pmem P] in
theorem nodup_children {h : Store Key Addr} {size : Nat → Prop} {d : Nat} {K : Index Key Addr}
    (hs : ShapeKids h size d K) (hnodup : (labels (flatKids h d K)).Nodup) :
    (labels K).Nodup := by
  induction K with
  | nil => exact List.nodup_nil
  | cons p K ih =>
    rw [shapeKids_cons] at hs
    simp only [flatKids_cons, labels, List.map_append, List.nodup_append] at hnodup
    obtain ⟨-, hK, hcross⟩ := hnodup
    refine List.nodup_cons.mpr ⟨fun hmem => ?_, ih hs.2 hK⟩
    obtain ⟨q, hq, heq⟩ := List.mem_map.mp hmem
    obtain ⟨L, t, hL⟩ := flat_head hs.1 p.1
    have hin : L ∈ (flat h d p.1 p.2).map Prod.snd := by simp [hL]
    have hin' : L ∈ labels (flat h d q.1 q.2) := by
      rw [heq, labels_flat_lo q.1 p.1]
      exact hin
    obtain ⟨r, hr, rfl⟩ := List.mem_map.mp hin'
    refine hcross r.2 hin r.2 ?_ rfl
    exact List.mem_map.mpr ⟨r, List.mem_flatMap.mpr ⟨q, hq, hr⟩, rfl⟩

def KeysIn (s : TreeState P) (F : Index Key Addr) (hi : WithTop Key) : Prop :=
  ∀ p ∈ F, ∃ m, s.dleafHeap p.2 = some m ∧ m.maxUse ≤ MAX_LEAF_KEY ∧
    ∀ i k, HasKey s.pm m k i → p.1 < k ∧ (∀ q ∈ F, p.1 < q.1 → (k : WithBot Key) ≤ q.1) ∧
      (k : WithTop Key) ≤ hi

theorem treeAt_of_index {s : TreeState P} (d : Nat) (lo : WithBot Key) (hi : WithTop Key) (a : Addr)
    (hs : Shape (innerView s.innerHeap) Fill d a)
    (hsorted : Sorted (flat (innerView s.innerHeap) d lo a))
    (hnodup : (labels (flat (innerView s.innerHeap) d lo a)).Nodup)
    (hinner : ∀ b ∈ inners (innerView s.innerHeap) d a, 0 < b)
    (hleaf : ∀ b ∈ labels (flat (innerView s.innerHeap) d lo a), 0 < b)
    (hkeys : KeysIn s (flat (innerView s.innerHeap) d lo a) hi) :
    TreeAt s d lo hi a (labels (flat (innerView s.innerHeap) d lo a)) := by
  induction d generalizing lo hi a with
  | zero =>
    obtain ⟨m, hm, huse, hk⟩ := hkeys (lo, a) (by simp [flat])
    refine ⟨rfl, m, hm, huse, fun i k hi => ⟨(hk i k hi).1, (hk i k hi).2.2⟩⟩
  | succ d ih =>
    obtain ⟨c0, es, hview, hfill, hkids⟩ := hs
    obtain ⟨nd, hnd, rfl, rfl⟩ := innerView_eq_some hview
    rw [InnerNode.entries_length] at hfill
    have hshape : ShapeKids (innerView s.innerHeap) Fill d (kids lo nd.leftMostPtr nd.entries) :=
      (shapeKids_kids lo).mpr hkids
    have hmemKid : ∀ j, j ≤ nd.maxSize →
        (nd.lower lo j, nd.child j) ∈ kids lo nd.leftMostPtr nd.entries := fun j hj => by
      rw [InnerNode.kids_eq_map]
      exact List.mem_map.mpr ⟨j, List.mem_range.mpr (Nat.lt_succ_of_le hj), rfl⟩
    rw [flat_succ hview] at hsorted hnodup hleaf hkeys ⊢
    have hK := Sorted.of_flatKids hshape hsorted
    have hchildren := nodup_children hshape hnodup
    have hsubset : ∀ j, j ≤ nd.maxSize → ∀ q ∈ flat (innerView s.innerHeap) d (nd.lower lo j)
        (nd.child j), q ∈ flatKids (innerView s.innerHeap) d (kids lo nd.leftMostPtr nd.entries) :=
      fun j hj q hq => List.mem_flatMap.mpr ⟨_, hmemKid j hj, hq⟩
    refine ⟨nd, hnd, hfill, ?_, ?_, ?_, fun j => labels (flat (innerView s.innerHeap) d
      (nd.lower lo j) (nd.child j)), ?_, ?_⟩
    · -- separators ascend: they are the lower bounds of the children, in order
      intro i hi
      rw [InnerNode.kids_eq_map] at hK
      have hpair := List.pairwise_iff_getElem.mp hK (i + 1) (i + 2) (by simp; omega)
        (by simp; omega) (Nat.lt_succ_self _)
      simpa [InnerNode.lower] using hpair
    · -- no child is null, be it a leaf or a node
      intro j hj
      cases d with
      | zero =>
        refine (hleaf (nd.child j) ?_).ne'
        have hmem := hsubset j hj (nd.lower lo j, nd.child j) (by simp [flat])
        exact List.mem_map.mpr ⟨_, hmem, rfl⟩
      | succ d =>
        refine (hinner (nd.child j) ?_).ne'
        rw [inners_succ hview lo]
        refine Multiset.mem_cons_of_mem (Multiset.mem_of_le (inners_le_innersKids (hmemKid j hj)) ?_)
        simp [inners]
    · -- no two children are the same
      intro i j hi hj heq
      rw [InnerNode.kids_eq_map, labels, List.map_map] at hchildren
      exact List.inj_on_of_nodup_map hchildren (List.mem_range.mpr (Nat.lt_succ_of_le hi))
        (List.mem_range.mpr (Nat.lt_succ_of_le hj)) heq
    · rw [InnerNode.kids_eq_map]
      simp [flatKids, labels, List.map_flatMap, List.flatMap_map]
    · intro j hj
      -- the subtree of child `j`, between the separators around it
      refine ih _ _ _ (hshape _ (hmemKid j hj)) (Sorted.of_kid hsorted (hmemKid j hj)) ?_ ?_ ?_ ?_
      · refine List.Nodup.sublist ?_ hnodup
        obtain ⟨X, Y, hXY⟩ := List.append_of_mem (hmemKid j hj)
        rw [hXY]
        simp only [flatKids_append, flatKids_cons, labels, List.map_append]
        exact (List.sublist_append_left _ _).trans (List.sublist_append_right _ _)
      · intro b hb
        refine hinner b ?_
        rw [inners_succ hview lo]
        exact Multiset.mem_cons_of_mem (Multiset.mem_of_le (inners_le_innersKids (hmemKid j hj)) hb)
      · intro b hb
        obtain ⟨q, hq, rfl⟩ := List.mem_map.mp hb
        exact hleaf q.2 (List.mem_map.mpr ⟨q, hsubset j hj q hq, rfl⟩)
      · intro p hp
        obtain ⟨m, hm, huse, hk⟩ := hkeys p (hsubset j hj p hp)
        refine ⟨m, hm, huse, fun i k hik => ?_⟩
        obtain ⟨hlow, hnext, htop⟩ := hk i k hik
        refine ⟨hlow, fun q hq => hnext q (hsubset j hj q hq), ?_⟩
        unfold InnerNode.upper
        split_ifs with hlt
        · -- the next child's first leaf has the separator as its bound
          obtain ⟨X, lo', Y, hsplit, hX, hlo', hhead⟩ := nd.kids_split lo j hj
          rw [if_pos hlt] at hhead
          obtain ⟨y, Y', rfl⟩ : ∃ y Y', Y = y :: Y' := by
            cases Y with
            | nil => exact absurd hhead (by simp)
            | cons y Y' => exact ⟨y, Y', rfl⟩
          have hy : y.1 = (nd.nodeKey0 j : WithBot Key) := by simpa using hhead
          have hymem : y ∈ kids lo nd.leftMostPtr nd.entries := by
            rw [hsplit]
            simp
          obtain ⟨M, u, hM⟩ := flat_head (hshape y hymem) y.1
          have hfirst : (y.1, M) ∈ flatKids (innerView s.innerHeap) d
              (kids lo nd.leftMostPtr nd.entries) :=
            List.mem_flatMap.mpr ⟨y, hymem, by rw [hM]; exact List.mem_cons_self⟩
          have hcross : p.1 < y.1 := by
            have hs' := hsorted
            rw [hsplit] at hs'
            simp only [flatKids_append, flatKids_cons] at hs'
            have hlo'' : lo' = nd.lower lo j := hlo'
            have hp' : p ∈ flat (innerView s.innerHeap) d lo' (nd.child j) := hlo'' ▸ hp
            refine (List.pairwise_append.mp (List.pairwise_append.mp hs').2.1).2.2 p hp' (y.1, M) ?_
            exact List.mem_append.mpr (Or.inl (by rw [hM]; exact List.mem_cons_self))
          have hle := hnext _ hfirst hcross
          rw [hy] at hle
          exact WithTop.coe_le_coe.mpr (WithBot.coe_le_coe.mp hle)
        · -- the last child is bounded by what bounds the node
          exact htop

variable [LawfulPmem P]

theorem Inv.wellFormed {tail : Addr} {s : TreeState P} (h : Inv Cuts.empty tail s) :
    WellFormed s (labels s.index) := by
  have hleaves := s.leaves_empty
  have hnodup := h.skel.nodup
  have hchain := h.skel.chain
  have hpchain := h.twin.chain
  have hsorted := h.data.sorted
  rw [hleaves] at hnodup hchain hpchain hsorted
  refine ⟨?_, hnodup, fun i hi => hchain.iterate i hi, fun i hi => ?_⟩
  · refine treeAt_of_index s.tempLevel ⊥ ⊤ s.root h.skel.upper.shape hsorted hnodup
      (fun b hb => (h.skel.upper.inner_lt b hb).1) ?_ ?_
    · intro b hb
      exact (h.skel.leaf_lt b (mem_leaves_of_index hb)).1
    · intro p hp
      obtain ⟨m, hm⟩ := h.skel.of_index (List.mem_map.mpr ⟨p, hp, rfl⟩)
      refine ⟨m, hm, (h.skel.leaf p.2 m hm).1, fun i k hi => ?_⟩
      obtain ⟨lo, hmem, hlo, hnext⟩ := h.data.range p.2 m k i hm hi
      rw [hleaves] at hmem hnext
      obtain rfl := bound_eq hnodup hmem hp
      exact ⟨hlo, hnext, le_top⟩
  · have hlen : i < ((labels s.index).map (s.pleafOf Cuts.empty)).length := by
      rwa [List.length_map]
    rw [hpchain.iterate i hlen, List.getElem_map]
    rfl

end ZBTree
