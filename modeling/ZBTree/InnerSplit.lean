import ZBTree.Routing

/-!
# Recording a split in the inner nodes

`splitInnerNode` walks the path of `find_insert` upwards, puts the new separator into
the last inner node and, as long as a node overflows, cuts it and carries a separator
to the level above; when the root overflows it grows a new root. `climb_spec` is the
induction over the levels: below a node that has taken the separator in, the leaves
are the old ones with the new leaf right after the old one, and a node that was cut
holds them together with the node split off from it.
-/

namespace ZBTree

open RangeIndex MultiwayTree

variable {P : Type}

/-! ### One node -/

/-- The shifting loops and the three cases of `splitInnerNode` come to one thing: the new
entry at place `j`, everything from `j` on one place later. -/
theorem InnerNode.insertEntry_apply (nd : InnerNode) (j : Nat) (hj : j ≤ nd.maxSize) (key : Key)
    (right : Addr) :
    (nd.insertEntry ((j : Int) - 1) key right).maxSize = nd.maxSize + 1 ∧
      (nd.insertEntry ((j : Int) - 1) key right).leftMostPtr = nd.leftMostPtr ∧
      ∀ i, i ≤ nd.maxSize →
        ((nd.insertEntry ((j : Int) - 1) key right).nodeKey0 i,
            (nd.insertEntry ((j : Int) - 1) key right).nodeKey1 i) =
          if i < j then (nd.nodeKey0 i, nd.nodeKey1 i)
          else if i = j then (key, right)
          else (nd.nodeKey0 (i - 1), nd.nodeKey1 (i - 1)) := by
  unfold InnerNode.insertEntry
  by_cases hleft : (j : Int) - 1 = -1
  · obtain rfl : j = 0 := by omega
    rw [if_pos hleft]
    refine ⟨rfl, rfl, fun i hi => ?_⟩
    simp only [Function.update_apply, Arrays.shiftUp_apply]
    split_ifs <;> first | rfl | omega
  · rw [if_neg hleft]
    have htoNat : ((j : Int) - 1).toNat + 1 = j := by omega
    by_cases hright : (j : Int) - 1 = (nd.maxSize : Int) - 1
    · obtain rfl : j = nd.maxSize := by omega
      rw [if_pos hright, htoNat]
      refine ⟨rfl, rfl, fun i hi => ?_⟩
      simp only [Function.update_apply]
      split_ifs <;> first | rfl | omega
    · rw [if_neg hright, htoNat]
      refine ⟨rfl, rfl, fun i hi => ?_⟩
      simp only [Function.update_apply, Arrays.shiftUp_apply]
      split_ifs <;> first | rfl | omega

theorem InnerNode.entries_insertEntry (nd : InnerNode) (j : Nat) (hj : j ≤ nd.maxSize) (key : Key)
    (right : Addr) :
    (nd.insertEntry ((j : Int) - 1) key right).entries =
      nd.entries.take j ++ (key, right) :: nd.entries.drop j := by
  obtain ⟨hsize, -, happly⟩ := nd.insertEntry_apply j hj key right
  have hlen : nd.entries.length = nd.maxSize := nd.entries_length
  refine List.ext_getElem ?_ fun i hi hi' => ?_
  · simp only [InnerNode.entries_length, hsize, List.length_append, List.length_take,
      List.length_cons, List.length_drop]
    omega
  · rw [InnerNode.entries_length, hsize] at hi
    rw [InnerNode.entries_getElem, happly i (by omega)]
    rcases lt_trichotomy i j with hlt | rfl | hgt
    · rw [if_pos hlt, List.getElem_append_left (by rw [List.length_take]; omega),
        List.getElem_take, InnerNode.entries_getElem]
    · rw [if_neg (lt_irrefl i), if_pos rfl]
      rw [List.getElem_append_right (by rw [List.length_take]; omega)]
      simp [List.length_take, hlen, hj]
    · rw [if_neg (by omega), if_neg (by omega)]
      rw [List.getElem_append_right (by rw [List.length_take]; omega)]
      obtain ⟨k, rfl⟩ : ∃ k, i = j + 1 + k := ⟨i - (j + 1), by omega⟩
      have hidx : j + 1 + k - (nd.entries.take j).length = k + 1 := by
        rw [List.length_take]
        omega
      simp only [hidx, List.getElem_cons_succ, List.getElem_drop, InnerNode.entries_getElem]
      rw [show j + 1 + k - 1 = j + k by omega]

/-- An overfull node is cut into its first and its last fifteen entries; the one between
them gives the separator to carry up and the left-most child of the new node. -/
theorem InnerNode.entries_cut (nd junk : InnerNode) (hfull : nd.maxSize = MAX_LEAF_KEY + 1) :
    nd.entries = nd.splitLeft.entries ++
        (nd.nodeKey0 (SPLIT_POS + 1), (nd.splitRight junk).leftMostPtr) ::
          (nd.splitRight junk).entries ∧
      nd.splitLeft.leftMostPtr = nd.leftMostPtr ∧
      nd.splitLeft.entries.length = LEFT_KEY ∧ (nd.splitRight junk).entries.length = RIGHT_KEY := by
  refine ⟨?_, rfl, InnerNode.entries_length _, InnerNode.entries_length _⟩
  simp only [MAX_LEAF_KEY] at hfull
  refine List.ext_getElem ?_ fun i hi hi' => ?_
  · simp [hfull, splitLeft, splitRight, LEFT_KEY, RIGHT_KEY, MAX_LEAF_KEY]
  · rw [InnerNode.entries_length, hfull] at hi
    have hleft : nd.splitLeft.entries.length = 15 := InnerNode.entries_length _
    rw [InnerNode.entries_getElem]
    rcases lt_trichotomy i 15 with hlt | rfl | hgt
    · rw [List.getElem_append_left (by omega), InnerNode.entries_getElem]
      simp only [splitLeft, fillWords, LEFT_KEY, MAX_LEAF_KEY]
      rw [if_neg (by omega), if_neg (by omega)]
    · rw [List.getElem_append_right (by omega)]
      simp [hleft, splitRight, SPLIT_POS, MAX_LEAF_KEY]
    · rw [List.getElem_append_right (by omega)]
      obtain ⟨k, rfl⟩ : ∃ k, i = 16 + k := ⟨i - 16, by omega⟩
      have hidx : 16 + k - nd.splitLeft.entries.length = k + 1 := by omega
      simp only [hidx, List.getElem_cons_succ, InnerNode.entries_getElem]
      simp only [splitRight, copyWords, LEFT_KEY, MAX_LEAF_KEY]
      rw [if_pos (by omega), if_pos (by omega)]

/-! ### One level -/

/-- `s'` is `s` after inner nodes were written and the new ones `N` allocated. -/
structure GrewBy (s s' : TreeState P) (N : Multiset Addr) : Prop where
  same : s' = { s with innerHeap := s'.innerHeap, brk := s'.brk }
  brk_le : s.brk ≤ s'.brk
  nodup : N.Nodup
  fresh : ∀ b ∈ N, s.brk ≤ b ∧ b < s'.brk

theorem splitLevel_done (s : TreeState P) (c : Cursor) (nd : InnerNode) (j : Nat) (key : Key)
    (right : Addr) (hnd : s.innerHeap c.node = some nd) (hpos : c.nodePos = (j : Int) - 1)
    (hj : j ≤ nd.maxSize) (hroom : nd.maxSize < MAX_LEAF_KEY) :
    ∃ s', splitLevel s c key right = .ok (s', none) ∧ GrewBy s s' 0 ∧
      innerView s'.innerHeap = Function.update (innerView s.innerHeap) c.node
        (some (nd.leftMostPtr, nd.entries.take j ++ (key, right) :: nd.entries.drop j)) := by
  obtain ⟨hsize, hptr, -⟩ := nd.insertEntry_apply j hj key right
  refine ⟨s.setInner c.node (nd.insertEntry ((j : Int) - 1) key right), ?_, ?_, ?_⟩
  · have hno : ¬ MAX_LEAF_KEY < (nd.insertEntry ((j : Int) - 1) key right).maxSize := by omega
    simp only [splitLevel, hnd, deref_some, ok_bind, hpos, if_neg hno, pure_eq_ok]
  · exact ⟨rfl, le_refl _, Multiset.nodup_zero, by simp⟩
  · simp only [TreeState.setInner, innerView_update, hptr, nd.entries_insertEntry j hj]

theorem splitLevel_cut (s : TreeState P) (c : Cursor) (nd : InnerNode) (j : Nat) (key : Key)
    (right : Addr) (hnd : s.innerHeap c.node = some nd) (hpos : c.nodePos = (j : Int) - 1)
    (hj : j ≤ nd.maxSize) (hfull : nd.maxSize = MAX_LEAF_KEY) :
    ∃ s' E₁ mid r0 E₂, splitLevel s c key right = .ok (s', some (mid, s.brk)) ∧
      GrewBy s s' {s.brk} ∧
      nd.entries.take j ++ (key, right) :: nd.entries.drop j = E₁ ++ (mid, r0) :: E₂ ∧
      E₁.length = LEFT_KEY ∧ E₂.length = RIGHT_KEY ∧
      innerView s'.innerHeap =
        Function.update (Function.update (innerView s.innerHeap) s.brk (some (r0, E₂))) c.node
          (some (nd.leftMostPtr, E₁)) := by
  obtain ⟨hsize, hptr, -⟩ := nd.insertEntry_apply j hj key right
  have hover : MAX_LEAF_KEY < (nd.insertEntry ((j : Int) - 1) key right).maxSize := by omega
  obtain ⟨hcut, hleft, hlen₁, hlen₂⟩ :=
    (nd.insertEntry ((j : Int) - 1) key right).entries_cut (s.junkInner s.brk) (by omega)
  rw [nd.entries_insertEntry j hj] at hcut
  refine ⟨(s.mallocInner (nd.insertEntry ((j : Int) - 1) key right).splitRight).2.setInner c.node
    (nd.insertEntry ((j : Int) - 1) key right).splitLeft, _, _, _, _, ?_, ?_, hcut, hlen₁, hlen₂, ?_⟩
  · simp only [splitLevel, hnd, deref_some, ok_bind, hpos, if_pos hover, TreeState.mallocInner,
      pure_eq_ok]
  · exact ⟨rfl, Nat.le_succ _, Multiset.nodup_singleton _,
      by simp [TreeState.setInner, TreeState.mallocInner]⟩
  · simp only [TreeState.setInner, TreeState.mallocInner, innerView_update, hleft, hptr]

/-! ### All levels

The source climbs along the recorded path from the last inner node up. The induction goes the other way: a
subtree reports to the node above it whether it was cut, with the separator and the right part, and
`climb_level` puts them into the node. -/

/-- The loop of `splitInnerNode` up to the new root: `none` when some node took the
separator in, the separator and the node left over from the top level otherwise. -/
def climb (s : TreeState P) : List Cursor → Key → Addr → Exec (TreeState P × Option (Key × Addr))
  | [], key, right => .ok (s, some (key, right))
  | c :: above, key, right => do
    match ← splitLevel s c key right with
    | (s, none) => return (s, none)
    | (s, some (upKey, upPtr)) => climb s above upKey upPtr

theorem climb_append (s : TreeState P) (below : List Cursor) (c : Cursor) (key : Key)
    (right : Addr) :
    climb s (below ++ [c]) key right = (do
      match ← climb s below key right with
      | (s, none) => return (s, none)
      | (s, some (upKey, upPtr)) => splitLevel s c upKey upPtr) := by
  induction below generalizing s key right with
  | nil =>
    simp only [List.nil_append, climb, ok_bind]
    cases hlevel : splitLevel s c key right with
    | error e => rfl
    | ok r => obtain ⟨s', _ | ⟨upKey, upPtr⟩⟩ := r <;> rfl
  | cons c' below ih =>
    simp only [List.cons_append, climb]
    cases hlevel : splitLevel s c' key right with
    | error e => rfl
    | ok r =>
      obtain ⟨s', _ | ⟨upKey, upPtr⟩⟩ := r
      · rfl
      · simp only [ok_bind, ih]

theorem splitInnerLoop_eq (s : TreeState P) (c : Cursor) (above : List Cursor) (key : Key)
    (right : Addr) :
    splitInnerLoop s (c :: above) key right = (do
      match ← climb s (c :: above) key right with
      | (s, none) => return s
      | (s, some (upKey, upPtr)) => return growRoot s s.root upKey upPtr) := by
  induction above generalizing s c key right with
  | nil =>
    simp only [splitInnerLoop, climb]
    cases hlevel : splitLevel s c key right with
    | error e => rfl
    | ok r => obtain ⟨s', _ | ⟨upKey, upPtr⟩⟩ := r <;> rfl
  | cons c' above ih =>
    rw [splitInnerLoop, climb]
    cases hlevel : splitLevel s c key right with
    | error e => rfl
    | ok r =>
      obtain ⟨s', _ | ⟨upKey, upPtr⟩⟩ := r
      · rfl
      · simp only [ok_bind, List.isEmpty_cons, Bool.false_eq_true, if_false, ih]

/-- What a climb from the leaf `L` leaves below the node `a`: the new leaf `R` comes right
after `L`, in the tree at `a` or in it and the tree split off from it together. -/
def Climbed (h h' : Store Key Addr) (d : Nat) (a L : Addr) (sk : Key) (R : Addr)
    (N : Multiset Addr) : Option (Key × Addr) → Prop
  | none => (∀ lo, InsAfter L sk R (flat h d lo a) (flat h' d lo a)) ∧
      inners h' d a = inners h d a + N ∧ Shape h' Fill d a
  | some (up, r) =>
      (∀ lo, InsAfter L sk R (flat h d lo a) (flat h' d lo a ++ flat h' d (up : WithBot Key) r)) ∧
        inners h' d a + inners h' d r = inners h d a + N ∧ Shape h' Fill d a ∧ Shape h' Fill d r

theorem GrewBy.trans {s s₁ s₂ : TreeState P} {N N' : Multiset Addr} (h : GrewBy s s₁ N)
    (h' : GrewBy s₁ s₂ N') : GrewBy s s₂ (N + N') where
  same := by
    have hsame := h.same
    have hsame' := h'.same
    rw [hsame] at hsame'
    exact hsame'
  brk_le := h.brk_le.trans h'.brk_le
  nodup := by
    refine Multiset.nodup_add.mpr ⟨h.nodup, h'.nodup, ?_⟩
    refine Multiset.disjoint_left.mpr fun {b} hb hb' => ?_
    exact absurd (h.fresh b hb).2 (not_lt.mpr (h'.fresh b hb').1)
  fresh b hb := by
    have hle := h.brk_le
    have hle' := h'.brk_le
    rcases Multiset.mem_add.mp hb with hb | hb
    · exact ⟨(h.fresh b hb).1, (h.fresh b hb).2.trans_le hle'⟩
    · exact ⟨hle.trans (h'.fresh b hb).1, (h'.fresh b hb).2⟩

/-- One level of the climb over a child that was itself cut. -/
theorem climb_level {s s₁ : TreeState P} {d j : Nat} {a L R c0 child r : Addr}
    {sk up : Key} {es : List (Key × Addr)} {X Y : Index Key Addr} {lo' : WithBot Key}
    {N : Multiset Addr} {c : Cursor} (hnode : c.node = a) (hpos : c.nodePos = (j : Int) - 1)
    (ha : innerView s.innerHeap a = some (c0, es)) (hfill : Fill es.length)
    (hs : ShapeKids (innerView s.innerHeap) Fill d (kids ⊥ c0 es))
    (hk : kids ⊥ c0 es = X ++ (lo', child) :: Y) (hX : X.length = j)
    (hnodup : (inners (innerView s.innerHeap) (d + 1) a).Nodup)
    (hbrk : ∀ b ∈ inners (innerView s.innerHeap) (d + 1) a, b < s.brk)
    (hgrew : GrewBy s s₁ N)
    (hagree : AgreesOff (innerView s.innerHeap) (innerView s₁.innerHeap) d child N)
    (hcut : Climbed (innerView s.innerHeap) (innerView s₁.innerHeap) d child L sk R N
      (some (up, r))) :
    ∃ s' res N', splitLevel s₁ c up r = .ok (s', res) ∧ GrewBy s s' N' ∧
      AgreesOff (innerView s.innerHeap) (innerView s'.innerHeap) (d + 1) a N' ∧
      Climbed (innerView s.innerHeap) (innerView s'.innerHeap) (d + 1) a L sk R N' res := by
  obtain ⟨hins, hinn, hshc, hshr⟩ := hcut
  rw [inners_succ ha ⊥] at hnodup hbrk
  obtain ⟨hanot, hknodup⟩ := Multiset.nodup_cons.mp hnodup
  have halt : a < s.brk := hbrk a (Multiset.mem_cons_self a _)
  have hklt : ∀ b ∈ innersKids (innerView s.innerHeap) d (kids ⊥ c0 es), b < s.brk :=
    fun b hb => hbrk b (Multiset.mem_cons_of_mem hb)
  have hfresh : ∀ b, b < s.brk → b ∉ N := fun b hb hN =>
    absurd hb (not_lt.mpr (hgrew.fresh b hN).1)
  -- the inner nodes below the child are apart from this node and from the new ones
  have hchild : ∀ b ∈ inners (innerView s.innerHeap) d child,
      b ∈ innersKids (innerView s.innerHeap) d (kids ⊥ c0 es) := fun b hb =>
    Multiset.mem_of_le (inners_le_innersKids (p := (lo', child)) (by rw [hk]; simp)) hb
  -- the climb below has not touched this node
  have ha₁ : innerView s₁.innerHeap a = some (c0, es) := by
    rw [hagree a (fun hc => hanot (hchild a hc)) (hfresh a halt), ha]
  obtain ⟨nd, hnd, rfl, rfl⟩ := innerView_eq_some ha₁
  have hj : j ≤ nd.maxSize := by
    have hlen := congrArg List.length hk
    rw [kids_length, InnerNode.entries_length] at hlen
    simp only [List.length_append, List.length_cons] at hlen
    omega
  -- with the separator put in, its children are the old ones with the cut child's two halves
  obtain ⟨hinsK, hinnK, hshK⟩ := node_absorb hk hX hknodup
    (fun b hb => hfresh b (hklt b hb)) hagree hins hinn hshc hshr hs
  have hold : ∀ b ∈ innersKids (innerView s₁.innerHeap) d
      (kids ⊥ nd.leftMostPtr (nd.entries.take j ++ (up, r) :: nd.entries.drop j)),
      b ≠ a ∧ b < s₁.brk := by
    intro b hb
    rw [hinnK] at hb
    rcases Multiset.mem_add.mp hb with hb | hb
    · exact ⟨fun heq => hanot (heq ▸ hb), (hklt b hb).trans_le hgrew.brk_le⟩
    · exact ⟨fun heq => hfresh a halt (heq ▸ hb), (hgrew.fresh b hb).2⟩
  rw [InnerNode.entries_length] at hfill
  rw [← hnode] at hnd
  have hlen : (nd.entries.take j ++ (up, r) :: nd.entries.drop j).length = nd.maxSize + 1 := by
    simp only [List.length_append, List.length_take, List.length_cons, List.length_drop,
      InnerNode.entries_length]
    omega
  -- the node has room for the separator, or it is cut in two
  rcases Nat.lt_or_eq_of_le hfill.2 with hroom | hfull
  · obtain ⟨s', hrun, hgrew', hview⟩ := splitLevel_done s₁ c nd j up r hnd hpos hj hroom
    rw [hnode] at hview
    have ha' : innerView s'.innerHeap a =
        some (nd.leftMostPtr, nd.entries.take j ++ (up, r) :: nd.entries.drop j) := by
      rw [hview, Function.update_self]
    obtain ⟨hflat, hinn', hsh'⟩ := node_over Fill ha' fun b hb => by
      rw [hview, Function.update_of_ne (hold b hb).1]
    refine ⟨s', none, N, hrun, by simpa using hgrew.trans hgrew', ?_, ?_, ?_, ?_⟩
    · intro b hb hN
      rw [inners_succ ha ⊥] at hb
      simp only [Multiset.mem_cons, not_or] at hb
      rw [hview, Function.update_of_ne hb.1, hagree b (fun hc => hb.2 (hchild b hc)) hN]
    · intro lo
      rw [flat_succ ha, hflat]
      exact hinsK lo
    · rw [hinn', inners_succ ha ⊥, hinnK, Multiset.cons_add]
    · exact hsh' (by rw [hlen]; exact ⟨by omega, hroom⟩) hshK
  · obtain ⟨s', E₁, mid, r0, E₂, hrun, hgrew', hes, hlen₁, hlen₂, hview⟩ :=
      splitLevel_cut s₁ c nd j up r hnd hpos hj hfull
    rw [hnode] at hview
    have hane : s₁.brk ≠ a := (halt.trans_le hgrew.brk_le).ne'
    have ha' : innerView s'.innerHeap a = some (nd.leftMostPtr, E₁) := by
      rw [hview, Function.update_self]
    have hb' : innerView s'.innerHeap s₁.brk = some (r0, E₂) := by
      rw [hview, Function.update_of_ne hane, Function.update_self]
    rw [hes] at hold hinnK hshK
    simp only [kids_append_cons, innersKids_append, shapeKids_append] at hold hinnK hshK
    have hsame : ∀ b, b ≠ a ∧ b < s₁.brk →
        innerView s'.innerHeap b = innerView s₁.innerHeap b := fun b hb => by
      rw [hview, Function.update_of_ne hb.1, Function.update_of_ne hb.2.ne]
    obtain ⟨hflat₁, hinn₁, hsh₁⟩ := node_over Fill ha' fun b hb =>
      hsame b (hold b (Multiset.mem_add.mpr (Or.inl hb)))
    obtain ⟨hflat₂, hinn₂, hsh₂⟩ := node_over Fill hb' fun b hb =>
      hsame b (hold b (Multiset.mem_add.mpr (Or.inr (by rwa [innersKids_kids] at hb ⊢))))
    refine ⟨s', some (mid, s₁.brk), N + {s₁.brk}, hrun, hgrew.trans hgrew', ?_, ?_, ?_, ?_, ?_⟩
    · intro b hb hN
      rw [inners_succ ha ⊥] at hb
      simp only [Multiset.mem_cons, not_or] at hb
      simp only [Multiset.mem_add, Multiset.mem_singleton, not_or] at hN
      rw [hview, Function.update_of_ne hb.1, Function.update_of_ne hN.2,
        hagree b (fun hc => hb.2 (hchild b hc)) hN.1]
    · intro lo
      have hlo := hinsK lo
      rw [hes, kids_append_cons, flatKids_append] at hlo
      rw [flat_succ ha, hflat₁, hflat₂]
      exact hlo
    · rw [hinn₁, hinn₂, inners_succ ha ⊥]
      rw [innersKids_kids d (mid : WithBot Key)] at hinnK
      simp only [Multiset.cons_add, Multiset.add_cons]
      rw [hinnK, ← Multiset.singleton_add, ← Multiset.singleton_add, ← Multiset.singleton_add]
      abel
    · exact hsh₁ (by rw [hlen₁]; exact ⟨by decide, by decide⟩) hshK.1
    · exact hsh₂ (by rw [hlen₂]; exact ⟨by decide, by decide⟩)
        ((shapeKids_kids _).mp hshK.2)

/-- The whole climb, by induction on the depth of the subtree at `a`. -/
theorem climb_spec (s : TreeState P) (d : Nat) (a L : Addr) (path : List Cursor) (sk : Key)
    (R : Addr) (hs : Shape (innerView s.innerHeap) Fill d a)
    (hpath : CursorPath (innerView s.innerHeap) d a path L)
    (hnodup : (inners (innerView s.innerHeap) d a).Nodup)
    (hbrk : ∀ b ∈ inners (innerView s.innerHeap) d a, b < s.brk) :
    ∃ s' res N, climb s path.reverse sk R = .ok (s', res) ∧ GrewBy s s' N ∧
      AgreesOff (innerView s.innerHeap) (innerView s'.innerHeap) d a N ∧
      Climbed (innerView s.innerHeap) (innerView s'.innerHeap) d a L sk R N res := by
  induction d generalizing a path with
  | zero =>
    obtain ⟨⟨hnil, rfl⟩, -⟩ := hpath
    rw [List.map_eq_nil_iff] at hnil
    subst hnil
    refine ⟨s, some (sk, R), 0, rfl, ⟨rfl, le_refl _, Multiset.nodup_zero, by simp⟩,
      fun _ _ _ => rfl, fun lo => ⟨[], lo, [], rfl, rfl⟩, by simp [inners], trivial, trivial⟩
  | succ d ih =>
    obtain ⟨⟨j, rest, c0, es, X, lo', child, Y, hmap, ha, hk, hX, hrest⟩, hcur⟩ := hpath
    obtain ⟨c, path, rfl, hstep, rfl⟩ := List.map_eq_cons_iff.mp hmap
    have hnode : c.node = a := congrArg Prod.fst hstep
    have hpos : c.nodePos = (j : Int) - 1 := by
      have hj : (c.nodePos + 1).toNat = j := congrArg Prod.snd hstep
      have hlo := hcur c List.mem_cons_self
      omega
    rw [shape_succ ha ⊥] at hs
    have hchild : (lo', child) ∈ kids ⊥ c0 es := by
      rw [hk]
      simp
    have hle : inners (innerView s.innerHeap) d child ≤ inners (innerView s.innerHeap) (d + 1) a := by
      rw [inners_succ ha ⊥]
      exact (inners_le_innersKids hchild).trans (Multiset.le_cons_self _ _)
    -- the climb below this node
    obtain ⟨s₁, res, N, hclimb, hgrew, hagree, hres⟩ := ih child path (hs.2 _ hchild)
      ⟨hrest, fun c' hc' => hcur c' (List.mem_cons_of_mem _ hc')⟩
      (Multiset.nodup_of_le hle hnodup) fun b hb => hbrk b (Multiset.mem_of_le hle hb)
    rw [List.reverse_cons, climb_append, hclimb]
    cases res with
    | none =>
      -- the climb has ended below, and this node is as it was
      obtain ⟨hins, hinn, hsh⟩ := hres
      have hnodup' := hnodup
      rw [inners_succ ha ⊥] at hnodup'
      obtain ⟨hanot, hknodup⟩ := Multiset.nodup_cons.mp hnodup'
      have hfresh : ∀ b, b < s.brk → b ∉ N := fun b hb hN =>
        absurd hb (not_lt.mpr (hgrew.fresh b hN).1)
      have halt : a < s.brk := hbrk a (by rw [inners_succ ha ⊥]; exact Multiset.mem_cons_self a _)
      have hkids : ∀ b ∈ innersKids (innerView s.innerHeap) d (kids ⊥ c0 es), b < s.brk :=
        fun b hb => hbrk b (by rw [inners_succ ha ⊥]; exact Multiset.mem_cons_of_mem hb)
      have ha₁ : innerView s₁.innerHeap a = some (c0, es) := by
        rw [hagree a _ (hfresh a halt), ha]
        exact fun hc => hanot (Multiset.mem_of_le (inners_le_innersKids hchild) hc)
      obtain ⟨hinsK, hinnK, hshK⟩ := node_done hk hknodup
        (fun b hb => hfresh b (hkids b hb)) hagree hins hinn hsh hs.2
      refine ⟨s₁, none, N, rfl, hgrew, ?_, fun lo => ?_, ?_, ?_⟩
      · exact fun b hb hN => hagree b (fun hc => hb (Multiset.mem_of_le hle hc)) hN
      · rw [flat_succ ha, flat_succ ha₁]
        exact hinsK lo
      · rw [inners_succ ha ⊥, inners_succ ha₁ ⊥, hinnK, Multiset.cons_add]
      · exact (shape_succ ha₁ ⊥).mpr ⟨hs.1, hshK⟩
    | some cut =>
      -- a separator comes up to this node
      obtain ⟨up, r⟩ := cut
      exact climb_level hnode hpos ha hs.1 hs.2 hk hX hnodup hbrk hgrew hagree hres

/-! ### The whole tree -/

/-- A root with the entry `(sk, r)` over two subtrees of the store. -/
theorem growRoot_spec (s : TreeState P) (left r : Addr) (sk : Key) (d : Nat)
    (hleft : Shape (innerView s.innerHeap) Fill d left) (hr : Shape (innerView s.innerHeap) Fill d r)
    (hlt : ∀ b ∈ inners (innerView s.innerHeap) d left + inners (innerView s.innerHeap) d r,
      b < s.brk) :
    let h' := innerView (growRoot s left sk r).innerHeap
    flat h' (d + 1) ⊥ s.brk =
        flat (innerView s.innerHeap) d ⊥ left ++ flat (innerView s.innerHeap) d sk r ∧
      inners h' (d + 1) s.brk =
        s.brk ::ₘ (inners (innerView s.innerHeap) d left + inners (innerView s.innerHeap) d r) ∧
      Shape h' Fill (d + 1) s.brk := by
  intro h'
  have hview : h' = Function.update (innerView s.innerHeap) s.brk (some (left, [(sk, r)])) := by
    simp only [h', growRoot, TreeState.mallocInner, innerView_update, InnerNode.newRoot,
      InnerNode.entries, List.range_one, List.map_cons, List.map_nil, Function.update_self]
  have hnew : h' s.brk = some (left, [(sk, r)]) := by
    rw [hview, Function.update_self]
  have hkids : innersKids (innerView s.innerHeap) d (kids ⊥ left [(sk, r)]) =
      inners (innerView s.innerHeap) d left + inners (innerView s.innerHeap) d r := by
    simp [innersKids, kids]
  obtain ⟨hflat, hinn, hsh⟩ := node_over Fill hnew fun b hb => by
    rw [hkids] at hb
    rw [hview, Function.update_of_ne (hlt b hb).ne]
  refine ⟨?_, by rw [hinn, hkids], hsh ⟨le_refl _, Nat.le_add_left _ 29⟩ ?_⟩
  · rw [hflat]
    simp [flatKids, kids]
  · intro p hp
    simp only [kids, List.map_cons, List.map_nil, List.mem_cons, List.not_mem_nil, or_false] at hp
    rcases hp with rfl | rfl
    · exact hleft
    · exact hr

/-- Recording a split puts the new leaf right after the leaf the key leads to, and keeps
the inner nodes a complete tree. -/
theorem Upper.recordSplit_spec {s : TreeState P} (h : Upper s) {key : Key} {path : List Cursor} {L : Addr}
    (hL : findInsert s key = .ok (path, L)) (sk : Key) (R : Addr) :
    ∃ s', recordSplit s key sk L R = .ok s' ∧ Upper s' ∧ InsAfter L sk R s.index s'.index ∧
      s.brk ≤ s'.brk ∧ s' = { s with
        innerHeap := s'.innerHeap, brk := s'.brk, root := s'.root, tempLevel := s'.tempLevel } := by
  obtain ⟨path', L', hfind, hpath, -⟩ := h.findInsert_spec key
  have heq := hL.symm.trans hfind
  simp only [Except.ok.injEq, Prod.mk.injEq] at heq
  obtain ⟨rfl, rfl⟩ := heq
  have hbrk := h.brk_pos
  by_cases hlevel : s.tempLevel = 0
  · -- the tree was one leaf, and the new root has the two halves as its children
    have hroot : s.root = L := by
      have hdesc := hpath.1
      rw [hlevel] at hdesc
      exact hdesc.2
    obtain ⟨hflat, hinn, hsh⟩ := growRoot_spec s L R sk 0 trivial trivial
      (by simp [inners])
    refine ⟨growRoot s L sk R, by rw [recordSplit, if_pos hlevel], ?_, ?_, Nat.le_succ _, rfl⟩
    · refine ⟨?_, ?_, ?_, Nat.succ_pos _⟩
      · simpa only [growRoot, TreeState.mallocInner, hlevel] using hsh
      · simp only [TreeState.innerNodes, growRoot, TreeState.mallocInner, hlevel] at hinn ⊢
        rw [hinn]
        simp [inners]
      · simp only [TreeState.innerNodes, growRoot, TreeState.mallocInner, hlevel] at hinn ⊢
        rw [hinn]
        simp [inners, hbrk]
    · refine ⟨[], ⊥, [], ?_, ?_⟩
      · simp [TreeState.index, hlevel, flat, hroot]
      · simp only [TreeState.index, growRoot, TreeState.mallocInner, hlevel] at hflat ⊢
        rw [hflat]
        rfl
  · obtain ⟨s₁, res, N, hclimb, hgrew, hagree, hres⟩ := climb_spec s s.tempLevel s.root L path sk R
      h.shape hpath h.nodup fun b hb => (h.inner_lt b hb).2
    have hsame := hgrew.same
    have hroot₁ : s₁.root = s.root := by rw [hsame]
    have hlevel₁ : s₁.tempLevel = s.tempLevel := by rw [hsame]
    have hnodupN : (s.innerNodes + N).Nodup := by
      refine Multiset.nodup_add.mpr ⟨h.nodup, hgrew.nodup, Multiset.disjoint_left.mpr ?_⟩
      exact fun {b} hb hN => absurd (h.inner_lt b hb).2 (not_lt.mpr (hgrew.fresh b hN).1)
    have hltN : ∀ b ∈ s.innerNodes + N, 0 < b ∧ b < s₁.brk := by
      intro b hb
      rcases Multiset.mem_add.mp hb with hb | hb
      · exact ⟨(h.inner_lt b hb).1, (h.inner_lt b hb).2.trans_le hgrew.brk_le⟩
      · exact ⟨hbrk.trans_le (hgrew.fresh b hb).1, (hgrew.fresh b hb).2⟩
    -- the path is not empty, so the loop of the source is the climb and the new root
    obtain ⟨c, above, hrev⟩ : ∃ c above, path.reverse = c :: above := by
      refine List.exists_cons_of_length_pos ?_
      have hlen := hpath.1.length
      rw [List.length_map] at hlen
      rw [List.length_reverse, hlen]
      exact Nat.pos_of_ne_zero hlevel
    rw [hrev] at hclimb
    have hrun : recordSplit s key sk L R = (do
        match ← (.ok (s₁, res) : Exec (TreeState P × Option (Key × Addr))) with
        | (s, none) => return s
        | (s, some (upKey, upPtr)) => return growRoot s s.root upKey upPtr) := by
      simp only [recordSplit, if_neg hlevel, hfind, ok_bind, splitInnerNode, hrev,
        splitInnerLoop_eq, hclimb]
    cases res with
    | none =>
      obtain ⟨hins, hinn, hsh⟩ := hres
      refine ⟨s₁, hrun, ⟨?_, ?_, ?_, hbrk.trans_le hgrew.brk_le⟩, ?_, hgrew.brk_le, ?_⟩
      · rwa [hroot₁, hlevel₁]
      · rwa [TreeState.innerNodes, hroot₁, hlevel₁, hinn]
      · rwa [TreeState.innerNodes, hroot₁, hlevel₁, hinn]
      · rw [TreeState.index, TreeState.index, hroot₁, hlevel₁]
        exact hins ⊥
      · rw [hroot₁, hlevel₁]
        exact hsame
    | some cut =>
      obtain ⟨up, r⟩ := cut
      -- the old root was cut, and a new one comes above it
      obtain ⟨hins, hinn, hsh, hshr⟩ := hres
      obtain ⟨hflat', hinn', hsh'⟩ := growRoot_spec s₁ s.root r up s.tempLevel hsh hshr fun b hb =>
        (hltN b (by rwa [hinn] at hb)).2
      refine ⟨growRoot s₁ s₁.root up r, hrun, ⟨?_, ?_, ?_, Nat.succ_pos _⟩, ?_,
        hgrew.brk_le.trans (Nat.le_succ _), ?_⟩
      · simpa only [growRoot, TreeState.mallocInner, hlevel₁, hroot₁] using hsh'
      · simp only [TreeState.innerNodes, growRoot, TreeState.mallocInner, hlevel₁, hroot₁] at hinn' ⊢
        rw [hinn', hinn, Multiset.nodup_cons]
        exact ⟨fun hb => absurd (hltN _ hb).2 (lt_irrefl _), hnodupN⟩
      · simp only [TreeState.innerNodes, growRoot, TreeState.mallocInner, hlevel₁, hroot₁] at hinn' ⊢
        intro b hb
        rw [hinn', hinn] at hb
        rcases Multiset.mem_cons.mp hb with rfl | hb
        · exact ⟨hbrk.trans_le hgrew.brk_le, Nat.lt_succ_self _⟩
        · exact ⟨(hltN b hb).1, (hltN b hb).2.trans (Nat.lt_succ_self _)⟩
      · have hlo := hins ⊥
        rw [← hflat'] at hlo
        simpa only [TreeState.index, growRoot, TreeState.mallocInner, hlevel₁, hroot₁] using hlo
      · have hg : growRoot s₁ s₁.root up r = { s₁ with
            innerHeap := (growRoot s₁ s₁.root up r).innerHeap
            brk := (growRoot s₁ s₁.root up r).brk
            root := (growRoot s₁ s₁.root up r).root
            tempLevel := (growRoot s₁ s₁.root up r).tempLevel } := rfl
        rw [hg, hsame]

end ZBTree
