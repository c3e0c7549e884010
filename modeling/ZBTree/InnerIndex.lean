import ZBTree.InnerSplit

/-!
# The inner nodes as an index

Trees of any height whose inner nodes have one to thirty separators, whatever operations made them:
`splitInnerNode` adds a separator and a leaf to the index, and `beforeMerge` looks for the leaf before
the one that a path leads to.
-/

namespace ZBTree

open RangeIndex MultiwayTree

variable {P : Type}

/-- A well-formed tree: a complete tree of inner nodes, whose separators grow from left to right,
over distinct leaves. -/
structure IndexTree (s : TreeState P) : Prop where
  upper : Upper s
  sorted : Sorted s.index
  nodup : (labels s.index).Nodup

/-- The key lies strictly between the bounds of the leaf `L`; the last leaf has no upper bound. -/
def StrictlyIn (F : Index Key Addr) (L : Addr) (key : Key) : Prop :=
  ∃ X lo Y, F = X ++ (lo, L) :: Y ∧ lo < (key : WithBot Key) ∧ ∀ p ∈ Y.head?, (key : WithBot Key) < p.1

variable {s : TreeState P} {key sk : Key} {path : List Cursor} {L R : Addr}

theorem StrictlyIn.next {F : Index Key Addr} (h : StrictlyIn F L key) (hF : Sorted F) :
    ∃ lo, (lo, L) ∈ F ∧ lo < (key : WithBot Key) ∧ ∀ p ∈ F, lo < p.1 → (key : WithBot Key) < p.1 := by
  obtain ⟨X, lo, Y, rfl, hlo, hnext⟩ := h
  refine ⟨lo, by simp, hlo, fun p hp hlt => ?_⟩
  rcases List.mem_append.mp hp with hX | hY
  · exact absurd (hF.lt_of_before hX) (not_lt.mpr hlt.le)
  · rcases List.mem_cons.mp hY with rfl | hY
    · exact absurd hlt (lt_irrefl _)
    · cases Y with
      | nil => exact absurd hY List.not_mem_nil
      | cons y Y =>
        have hy := hnext y rfl
        rcases List.mem_cons.mp hY with rfl | hY
        · exact hy
        · have hpair := (List.pairwise_cons.mp (List.pairwise_append.mp hF).2.1).2
          exact hy.trans ((List.pairwise_cons.mp hpair).1 p hY)

/-! ### splitInnerNode -/

/-- Splitting inner nodes adds the new leaf right after `L` and the separator between the two, and
changes nothing else in the index. -/
theorem splitInnerNode_index (h : IndexTree s) (hlevel : 1 ≤ s.tempLevel)
    (hfind : findInsert s key = .ok (path, L)) (hsk : StrictlyIn s.index L sk) (hR : R ∉ labels s.index) :
    ∃ s', splitInnerNode s path sk L R = .ok s' ∧ IndexTree s' ∧ InsAfter L sk R s.index s'.index ∧
      s'.dleafHeap = s.dleafHeap := by
  obtain ⟨s', hrun, hupper, hins, -, hsame⟩ := h.upper.recordSplit_spec hfind sk R
  rw [recordSplit, if_neg (Nat.ne_of_gt hlevel), hfind] at hrun
  refine ⟨s', hrun, ⟨hupper, ?_, hins.nodup h.nodup hR⟩, hins, ?_⟩
  · exact hins.sorted h.sorted h.nodup (hsk.next h.sorted)
  · rw [hsame]

/-! ### beforeMerge

The left neighbour of a leaf hangs from the lowest node where the path does not take the left-most child:
from the child before, always to the right. `beforeMerge` looks for that node from below and takes its
pointer from the wrong row if the parent of the leaf is this node and `node_pos` is 0. -/

/-- `node_key[1][i]`; the word before the first one is the last word of `node_key[0]`. -/
def InnerNode.keyPtr (nd : InnerNode) (i : Int) : Addr :=
  if i = -1 then (nd.nodeKey0 MAX_LEAF_KEY).toNat else nd.nodeKey1 i.toNat

/-- The loop on `stop_level`, from level `n - 1` on upwards: the last cursor that does not stand on
the left-most pointer. -/
def stopLevel (rootPath : List Cursor) : Nat → Exec (Option (Nat × Cursor))
  | 0 => .ok none
  | n + 1 => do
    let c ← deref rootPath[n]?
    if c.nodePos = -1 then stopLevel rootPath n else return some (n, c)

/-- Down the last entries of `n` inner nodes. -/
def descendLast (s : TreeState P) : Nat → Addr → Exec Addr
  | 0, re => .ok re
  | n + 1, re => do
    let nd ← deref (s.innerHeap re)
    descendLast s n (nd.nodeKey1 (nd.maxSize - 1))

/-- `left_sibling` in `beforeMerge`; for the left-most leaf it is not set. -/
def leftSibling (s : TreeState P) (rootPath : List Cursor) : Exec Addr := do
  let last ← deref rootPath[s.tempLevel - 1]?
  if last.nodePos = -1 then
    match ← stopLevel rootPath s.tempLevel with
    | none => .error .segv
    | some (level, c) => do
      let re ← deref (s.innerHeap c.node)
      descendLast s (s.tempLevel - 1 - level)
        (if c.nodePos = 0 then re.leftMostPtr else re.keyPtr (c.nodePos - 1))
  else do
    let ancestor ← deref (s.innerHeap last.node)
    return ancestor.keyPtr (last.nodePos - 1)

/-- `Tree::beforeMerge` (`zbtree.cpp`): the left neighbour, taken. The path is a list without the limit
of `root_path`, which `FillBounds` treats. -/
def beforeMerge (s : TreeState P) (rootPath : List Cursor) : Exec (Option Addr × TreeState P) :=
  if s.tempLevel = 0 then .ok (none, s)
  else do
    let left ← leftSibling s rootPath
    let m ← deref (s.dleafHeap left)
    if m.tempInsert = 0 then return (some left, s.setLeaf left { m with tempInsert := 1 })
    else .error .spin

/-- The last entries of a complete tree lead to its last leaf. -/
theorem descendLast_spec (s : TreeState P) {d : Nat} {a : Addr}
    (hs : Shape (innerView s.innerHeap) Fill d a) (lo : WithBot Key) :
    ∃ L t lo', descendLast s d a = .ok L ∧ flat (innerView s.innerHeap) d lo a = t ++ [(lo', L)] := by
  induction d generalizing a lo with
  | zero => exact ⟨a, [], lo, rfl, rfl⟩
  | succ d ih =>
    obtain ⟨c0, es, hview, hfill, hkids⟩ := hs
    obtain ⟨nd, hnd, rfl, rfl⟩ := innerView_eq_some hview
    rw [InnerNode.entries_length] at hfill
    obtain ⟨X, lo₁, Y, hsplit, hX, -, hhead⟩ := nd.kids_split lo nd.maxSize (Nat.le_refl _)
    -- nothing follows the last child
    rw [if_neg (lt_irrefl _), Option.map_eq_none_iff, List.head?_eq_none_iff] at hhead
    subst hhead
    have hshape : ShapeKids (innerView s.innerHeap) Fill d (kids lo nd.leftMostPtr nd.entries) :=
      (shapeKids_kids lo).mpr hkids
    rw [hsplit] at hshape
    obtain ⟨L, t, lo', hrun, hflat⟩ := ih (hshape (lo₁, nd.child nd.maxSize) (by simp)) lo₁
    have hchild : nd.child nd.maxSize = nd.nodeKey1 (nd.maxSize - 1) :=
      if_neg (Nat.ne_of_gt hfill.1)
    refine ⟨L, flatKids (innerView s.innerHeap) d X ++ t, lo', ?_, ?_⟩
    · simp only [descendLast, hnd, deref_some, ok_bind, ← hchild, hrun]
    · rw [flat_succ hview, hsplit, flatKids_append, flatKids_cons, hflat]
      simp [flatKids]

theorem stopLevel_spec {rootPath : List Cursor} {n : Nat} (hn : n ≤ rootPath.length) :
    (stopLevel rootPath n = .ok none ∧ ∀ c ∈ rootPath.take n, c.nodePos = -1) ∨
      ∃ pre c post, rootPath.take n = pre ++ c :: post ∧ stopLevel rootPath n = .ok (some (pre.length, c)) ∧
        c.nodePos ≠ -1 ∧ ∀ c' ∈ post, c'.nodePos = -1 := by
  induction n with
  | zero => exact Or.inl ⟨rfl, fun c hc => absurd hc (by simp)⟩
  | succ n ih =>
    have hlt : n < rootPath.length := hn
    have hget : rootPath[n]? = some rootPath[n] := List.getElem?_eq_getElem hlt
    have htake : rootPath.take (n + 1) = rootPath.take n ++ [rootPath[n]] := by
      rw [List.take_succ_eq_append_getElem hlt]
    rw [htake]
    simp only [stopLevel, hget, deref_some, ok_bind]
    by_cases hpos : rootPath[n].nodePos = -1
    · rw [if_pos hpos]
      rcases ih (Nat.le_of_succ_le hn) with ⟨hrun, hall⟩ | ⟨pre, c, post, hsplit, hrun, hc, hpost⟩
      · refine Or.inl ⟨hrun, fun c hc => ?_⟩
        rcases List.mem_append.mp hc with hc | hc
        · exact hall c hc
        · rw [List.mem_singleton.mp hc, hpos]
      · refine Or.inr ⟨pre, c, post ++ [rootPath[n]], by rw [hsplit, List.append_assoc, List.cons_append],
          hrun, hc, fun c' hc' => ?_⟩
        rcases List.mem_append.mp hc' with hc' | hc'
        · exact hpost c' hc'
        · rw [List.mem_singleton.mp hc', hpos]
    · rw [if_neg hpos]
      have hlen : (rootPath.take n).length = n := by
        rw [List.length_take, Nat.min_eq_left hlt.le]
      exact Or.inr ⟨rootPath.take n, rootPath[n], [], rfl, by rw [hlen]; rfl, hpos,
        fun c' hc' => absurd hc' List.not_mem_nil⟩

theorem InnerNode.kids_pair (nd : InnerNode) (lo : WithBot Key) {j : Nat} (hj : j < nd.maxSize) :
    ∃ X lo₁ lo₂ Y, kids lo nd.leftMostPtr nd.entries = X ++ (lo₁, nd.child j) :: (lo₂, nd.child (j + 1)) :: Y ∧
      X.length = j := by
  obtain ⟨X, lo₁, Y, hsplit, hX, -, -⟩ := nd.kids_split lo j hj.le
  obtain ⟨X', lo₂, Y', hsplit', hX', -, -⟩ := nd.kids_split lo (j + 1) hj
  have hsame : (X ++ [(lo₁, nd.child j)]) ++ Y = X' ++ (lo₂, nd.child (j + 1)) :: Y' := by
    rw [List.append_assoc, ← hsplit', hsplit]
    rfl
  obtain ⟨-, rfl⟩ := List.append_inj hsame (by rw [List.length_append, hX, hX', List.length_singleton])
  exact ⟨X, lo₁, lo₂, Y', hsplit, hX⟩

/-- The leaf before the one that a path leads to hangs from the last inner node where the path does not
take the left-most child. -/
theorem left_of_path {d : Nat} {a : Addr} {pre post : List Cursor} {c : Cursor}
    (hs : Shape (innerView s.innerHeap) Fill d a)
    (hpath : CursorPath (innerView s.innerHeap) d a (pre ++ c :: post) L) (hc : c.nodePos ≠ -1)
    (hpost : ∀ c' ∈ post, c'.nodePos = -1) (lo : WithBot Key) :
    ∃ nd L' A lo₁ lo₂ B, s.innerHeap c.node = some nd ∧
      descendLast s post.length (nd.child c.nodePos.toNat) = .ok L' ∧
      flat (innerView s.innerHeap) d lo a = A ++ (lo₁, L') :: (lo₂, L) :: B := by
  obtain ⟨hdesc, hcur⟩ := hpath
  have hpos : c.nodePos.toNat + 1 = (c.nodePos + 1).toNat := by
    have hge := hcur c (by simp)
    omega
  rw [List.map_append, List.map_cons, Cursor.step] at hdesc
  obtain ⟨e, c0, es, X, lo', child, Y, hview, hk, hX, hrest, hshape, hflat⟩ := hdesc.split hs
  obtain ⟨nd, hnd, rfl, rfl⟩ := innerView_eq_some hview
  have he : e = post.length := by
    rw [← hrest.length, List.length_map]
  subst he
  have hlen := congrArg List.length hk
  rw [kids_length, nd.entries_length, List.length_append, List.length_cons, hX, ← hpos] at hlen
  have hj : c.nodePos.toNat < nd.maxSize := by omega
  -- the child that the path takes is the one after
  obtain ⟨X₁, lo₁', lo₂', Y₁, hpair, hX₁⟩ := nd.kids_pair ⊥ hj
  have hchild : child = nd.child (c.nodePos.toNat + 1) := by
    rw [hk] at hpair
    have hsame : X ++ (lo', child) :: Y =
        (X₁ ++ [(lo₁', nd.child c.nodePos.toNat)]) ++ (lo₂', nd.child (c.nodePos.toNat + 1)) :: Y₁ := by
      rw [hpair, List.append_assoc]
      rfl
    obtain ⟨-, htail⟩ := List.append_inj hsame (by
      rw [hX, List.length_append, hX₁, List.length_singleton, hpos])
    rw [List.cons.injEq, Prod.mk.injEq] at htail
    exact htail.1.2
  subst hchild
  -- the leaves under the two children lie next to each other in the index
  obtain ⟨A, B, lo₀, hAB⟩ := hflat lo
  obtain ⟨X₂, b₁, b₂, Y₂, hpair₂, -⟩ := nd.kids_pair lo₀ hj
  have hkids : ShapeKids (innerView s.innerHeap) Fill post.length (kids lo₀ nd.leftMostPtr nd.entries) :=
    ((shape_succ hview lo₀).mp hshape).2
  rw [hpair₂] at hkids
  obtain ⟨L', t, lo₁, hlast, hflast⟩ := descendLast_spec s (hkids (b₁, nd.child c.nodePos.toNat) (by simp)) b₁
  -- from there on the path keeps to the left, so its leaf is the first one of the child
  obtain ⟨t', hffirst⟩ := hrest.first (fun q hq => by
    obtain ⟨c', hc', rfl⟩ := List.mem_map.mp hq
    rw [Cursor.step, hpost c' hc']
    rfl) b₂
  refine ⟨nd, L', A ++ (flatKids (innerView s.innerHeap) post.length X₂ ++ t), lo₁, b₂,
    t' ++ flatKids (innerView s.innerHeap) post.length Y₂ ++ B, hnd, hlast, ?_⟩
  rw [hAB, flat_succ hview, hpair₂, flatKids_append, flatKids_cons, flatKids_cons, hflast, hffirst]
  simp only [List.append_assoc, List.cons_append, List.nil_append]

/-- The left neighbour does not hang from the left-most pointer of the parent of the leaf, or the last
word of the separators there happens to be that pointer. -/
def siblingShown (s : TreeState P) (rootPath : List Cursor) : Bool :=
  match rootPath[s.tempLevel - 1]? with
  | none => true
  | some c =>
    match s.innerHeap c.node with
    | none => true
    | some nd => c.nodePos ≠ 0 || (nd.nodeKey0 MAX_LEAF_KEY).toNat = nd.leftMostPtr

theorem InnerNode.keyPtr_pred (nd : InnerNode) {i : Int} (hi : 0 < i) : nd.keyPtr (i - 1) = nd.child i.toNat := by
  rw [InnerNode.keyPtr, InnerNode.child, if_neg (by omega), if_neg (by omega)]
  congr 1
  omega

/-- What `left_sibling` is set to. -/
theorem leftSibling_spec {pre post : List Cursor} {c : Cursor} {nd : InnerNode} {L' : Addr}
    (hlen : (pre ++ c :: post).length = s.tempLevel) (hc : c.nodePos ≠ -1) (hge : -1 ≤ c.nodePos)
    (hpost : ∀ c' ∈ post, c'.nodePos = -1)
    (hstop : stopLevel (pre ++ c :: post) s.tempLevel = .ok (some (pre.length, c)))
    (hnd : s.innerHeap c.node = some nd)
    (hlast : descendLast s post.length (nd.child c.nodePos.toNat) = .ok L') :
    (siblingShown s (pre ++ c :: post) = true → leftSibling s (pre ++ c :: post) = .ok L') ∧
      (siblingShown s (pre ++ c :: post) = false →
        ∃ b, leftSibling s (pre ++ c :: post) = .ok b ∧ b ≠ L') := by
  rw [List.length_append, List.length_cons] at hlen
  rcases List.eq_nil_or_concat post with rfl | ⟨post', c', rfl⟩
  · -- the parent of the leaf is where the path turns
    have hlevel : s.tempLevel - 1 = pre.length := by
      rw [← hlen]
      rfl
    have hget : (pre ++ [c])[s.tempLevel - 1]? = some c := by
      rw [hlevel, List.getElem?_append_right (Nat.le_refl _), Nat.sub_self]
      rfl
    have hL' : nd.child c.nodePos.toNat = L' := Except.ok.inj hlast
    simp only [siblingShown, leftSibling, hget, hnd, deref_some, ok_bind, if_neg hc, pure_eq_ok,
      Except.ok.injEq]
    -- `node_pos` 0: the source reads `node_key[1][-1]`, not the left-most pointer
    by_cases hzero : c.nodePos = 0
    · have hfirst : nd.leftMostPtr = L' := by
        rw [← hL', hzero]
        rfl
      have hword : nd.keyPtr (c.nodePos - 1) = (nd.nodeKey0 MAX_LEAF_KEY).toNat := by
        rw [hzero]
        rfl
      rw [hword, ← hfirst]
      constructor
      · intro hshown
        simpa [hzero] using hshown
      · intro hhidden
        refine ⟨_, rfl, ?_⟩
        simpa [hzero] using hhidden
    · have hchild : nd.keyPtr (c.nodePos - 1) = L' := by
        rw [nd.keyPtr_pred (by omega), hL']
      exact ⟨fun _ => hchild, fun hhidden => absurd hhidden (by simp [hzero])⟩
  · rw [List.concat_eq_append] at *
    have hget : (pre ++ c :: (post' ++ [c']))[s.tempLevel - 1]? = some c' := by
      rw [← hlen, ← List.cons_append, ← List.append_assoc,
        List.getElem?_append_right (by simp)]
      simp
    have hc' : c'.nodePos = -1 := hpost c' (by simp)
    have hlevel : s.tempLevel - 1 - pre.length = (post' ++ [c']).length := by omega
    -- above the parent the sibling is a subtree, and the source goes down in it
    have hshown : siblingShown s (pre ++ c :: (post' ++ [c'])) = true := by
      simp only [siblingShown, hget]
      cases s.innerHeap c'.node with
      | none => rfl
      | some nd' => simp [hc']
    refine ⟨fun _ => ?_, fun hhidden => absurd hshown (by simp [hhidden])⟩
    have harg : (if c.nodePos = 0 then nd.leftMostPtr else nd.keyPtr (c.nodePos - 1)) =
        nd.child c.nodePos.toNat := by
      split_ifs with hzero
      · rw [hzero]
        rfl
      · exact nd.keyPtr_pred (by omega)
    simp only [leftSibling, hget, deref_some, ok_bind, if_pos hc', hstop, hnd, harg, hlevel, hlast]

/-- In every well-formed tree with inner nodes, for every key whose leaf is not the first one and whose
left neighbour is free: `beforeMerge` returns that neighbour if and only if it does not hang from the
left-most pointer of the parent that the two leaves share. -/
theorem beforeMerge_iff (h : IndexTree s) (hlevel : 1 ≤ s.tempLevel)
    (hfind : findInsert s key = .ok (path, L)) {A B : Index Key Addr} {lo₁ lo₂ : WithBot Key} {L' : Addr}
    (hleft : s.index = A ++ (lo₁, L') :: (lo₂, L) :: B) {m : DLeaf} (hm : s.dleafHeap L' = some m)
    (hfree : m.tempInsert = 0) :
    beforeMerge s path = .ok (some L', s.setLeaf L' { m with tempInsert := 1 }) ↔
      siblingShown s path = true := by
  obtain ⟨path', L₁, hfind', hpath, -⟩ := h.upper.findInsert_spec key
  rw [hfind, Except.ok.injEq, Prod.mk.injEq] at hfind'
  obtain ⟨rfl, rfl⟩ := hfind'
  have hlen : path.length = s.tempLevel := by
    rw [← hpath.1.length, List.length_map]
  have htake : path.take s.tempLevel = path := List.take_of_length_le hlen.le
  have hindex : s.index = flat (innerView s.innerHeap) s.tempLevel ⊥ s.root := rfl
  have hnodup := h.nodup
  rcases stopLevel_spec hlen.ge with ⟨-, hall⟩ | ⟨pre, c, post, hsplit, hstop, hc, hpost⟩
  · -- a path along the left-most pointers leads to the first leaf
    rw [htake] at hall
    obtain ⟨t, ht⟩ := hpath.1.first (fun q hq => by
      obtain ⟨c', hc', rfl⟩ := List.mem_map.mp hq
      rw [Cursor.step, hall c' hc']
      rfl) (⊥ : WithBot Key)
    rw [← hindex, hleft] at ht
    rw [hleft] at hnodup
    cases A with
    | nil =>
      rw [List.nil_append, List.cons.injEq, Prod.mk.injEq] at ht
      simp [labels, ht.1.2] at hnodup
    | cons q A =>
      rw [List.cons_append, List.cons.injEq] at ht
      simp [labels, ht.1] at hnodup
  · rw [htake] at hsplit
    subst hsplit
    obtain ⟨nd, L₂, A', b₁, b₂, B', hnd, hlast, hflat⟩ := left_of_path h.upper.shape hpath hc hpost ⊥
    -- no leaf is there twice, so this is the neighbour
    obtain rfl : L₂ = L' := by
      rw [← hindex, hleft] at hflat
      rw [hleft] at hnodup
      have hlabels := congrArg labels hflat
      simp only [labels, List.map_append, List.map_cons] at hlabels hnodup
      have hpair : (A.map Prod.snd ++ [L']) ++ L :: B.map Prod.snd =
          (A'.map Prod.snd ++ [L₂]) ++ L :: B'.map Prod.snd := by
        simpa using hlabels
      have hnodup' : ((A.map Prod.snd ++ [L']) ++ L :: B.map Prod.snd).Nodup := by
        simpa using hnodup
      have hbefore : L ∉ A.map Prod.snd ++ [L'] := fun hmem =>
        (List.nodup_append.mp hnodup').2.2 L hmem L List.mem_cons_self rfl
      have hafter : L ∉ B.map Prod.snd := (List.nodup_cons.mp (List.nodup_append.mp hnodup').2.1).1
      have hpre := ((List.append_cons_inj_of_notMem hbefore hafter).mp hpair).1
      exact (List.singleton_inj.mp (List.append_inj' hpre rfl).2).symm
    -- what `left_sibling` is decides the result
    obtain ⟨hshown, hhidden⟩ := leftSibling_spec hlen hc (hpath.2 c (by simp)) hpost hstop hnd hlast
    have hzero : s.tempLevel ≠ 0 := Nat.ne_of_gt hlevel
    cases hs : siblingShown s (pre ++ c :: post) with
    | true =>
      simp only [beforeMerge, if_neg hzero, hshown hs, ok_bind, hm, deref_some, if_pos hfree, pure_eq_ok]
    | false =>
      obtain ⟨b, hb, hne⟩ := hhidden hs
      refine iff_of_false (fun hrun => ?_) Bool.false_ne_true
      simp only [beforeMerge, if_neg hzero, hb, ok_bind, bind_eq_ok] at hrun
      obtain ⟨n, -, hrun⟩ := hrun
      split at hrun
      · rw [pure_eq_ok, Except.ok.injEq, Prod.mk.injEq, Option.some.injEq] at hrun
        exact hne hrun.1
      · cases hrun

/-! ### A small tree -/

/-- The free leaves `1`, `2` and `3` under one inner node with the separators `5` and `8`. -/
def threeLeaves : TreeState Unit where
  innerHeap := fun a => if a = 10 then
    some ⟨1, 2, 0, fun i => if i = 0 then 5 else if i = 1 then 8 else BitVec.allOnes 64, fun i => i + 2⟩
    else none
  dleafHeap := fun a => if 1 ≤ a ∧ a ≤ 3 then some ⟨fun _ => .zero, 0, 0, 0, 0, 0⟩ else none
  bufHeap := fun _ => none
  brk := 11
  junkInner := fun _ => ⟨0, 0, 0, fun _ => 0, fun _ => 0⟩
  junkLeaf := fun _ => ⟨fun _ => .zero, 0, 0, 0, 0, 0⟩
  pm := ()
  root := 10
  tempLevel := 1
  leafStart := 0
  dstart := 1

theorem threeLeaves_index : threeLeaves.index =
    [((⊥ : WithBot Key), 1), (((5 : Key) : WithBot Key), 2), (((8 : Key) : WithBot Key), 3)] := rfl

theorem threeLeaves_tree : IndexTree threeLeaves := by
  have hinner : threeLeaves.innerNodes = {10} := rfl
  refine ⟨⟨⟨1, [(5, 2), (8, 3)], rfl, ⟨by decide, by decide⟩, fun _ _ => trivial⟩, ?_, ?_, by decide⟩, ?_, ?_⟩
  · rw [hinner]
    exact Multiset.nodup_singleton 10
  · rw [hinner]
    intro b hb
    rw [Multiset.mem_singleton.mp hb]
    decide
  · rw [threeLeaves_index]
    unfold Sorted
    decide
  · rw [threeLeaves_index]
    decide

/-- A root with 30 separators, `10` to `300`, and the leaves `1` to `31` under it. -/
def fullRoot : TreeState Unit :=
  { threeLeaves with
    innerHeap := fun a => if a = 40 then
      some ⟨1, 30, 0, fun i => if i < 30 then BitVec.ofNat 64 (10 * (i + 1)) else BitVec.allOnes 64, fun i => i + 2⟩
      else none
    dleafHeap := fun a => if 1 ≤ a ∧ a ≤ 31 then some ⟨fun _ => .zero, 0, 0, 0, 0, 0⟩ else none
    brk := 41
    root := 40 }

theorem fullRoot_index : fullRoot.index = ((⊥ : WithBot Key), 1) ::
    (List.range 30).map fun i => (((BitVec.ofNat 64 (10 * (i + 1)) : Key) : WithBot Key), i + 2) := by
  decide +kernel

theorem fullRoot_tree : IndexTree fullRoot := by
  have hinner : fullRoot.innerNodes = {40} := rfl
  refine ⟨⟨⟨_, _, rfl, ⟨by decide, by decide⟩, fun _ _ => trivial⟩, ?_, ?_, by decide⟩, ?_, ?_⟩
  · rw [hinner]
    exact Multiset.nodup_singleton 40
  · rw [hinner]
    intro b hb
    rw [Multiset.mem_singleton.mp hb]
    decide
  · rw [fullRoot_index]
    unfold Sorted
    decide +kernel
  · rw [fullRoot_index]
    decide +kernel

/-- The leaf `37` is added in the middle of the full root, which is split. -/
theorem splitInnerNode_index_full : ∃ path s', findInsert fullRoot 155 = .ok (path, 16) ∧
    splitInnerNode fullRoot path 155 16 37 = .ok s' ∧ s'.tempLevel = 2 ∧ IndexTree s' ∧
      InsAfter 16 155 37 fullRoot.index s'.index := by
  have hfind : (findInsert fullRoot 155).toOption.map (fun r => (r.2,
      (splitInnerNode fullRoot r.1 155 16 37).toOption.map TreeState.tempLevel)) = some (16, some 2) := by
    decide +kernel
  obtain ⟨⟨path, L⟩, hfind, hvalues⟩ := exec_of_map hfind
  obtain ⟨rfl, hlevel⟩ := Prod.mk.inj hvalues
  have hplace : StrictlyIn fullRoot.index 16 155 := by
    refine ⟨fullRoot.index.take 15, ((150 : Key) : WithBot Key), fullRoot.index.drop 16, ?_, by decide, ?_⟩
    · rw [fullRoot_index]
      decide +kernel
    · rw [fullRoot_index]
      decide +kernel
  obtain ⟨s', hrun, htree, hins, -⟩ := splitInnerNode_index fullRoot_tree (Nat.le_refl 1) hfind hplace
    (R := 37) (by rw [fullRoot_index]; decide +kernel)
  rw [hrun] at hlevel
  exact ⟨path, s', hfind, hrun, Option.some.inj hlevel, htree, hins⟩

/-- The neighbour of the last leaf is found. -/
theorem beforeMerge_iff_last : ∃ path s', findInsert threeLeaves 9 = .ok (path, 3) ∧
    (beforeMerge threeLeaves path = .ok (some 2, s') ↔ siblingShown threeLeaves path = true) := by
  have hindex : threeLeaves.index = [((⊥ : WithBot Key), 1)] ++
      (((5 : Key) : WithBot Key), 2) :: (((8 : Key) : WithBot Key), 3) :: [] := threeLeaves_index
  exact ⟨_, _, rfl, beforeMerge_iff threeLeaves_tree (Nat.le_refl 1)
    (show findInsert threeLeaves 9 = .ok (_, 3) from rfl) hindex rfl rfl⟩

/-- The neighbour of the leaf `2` hangs from the left-most pointer; the word that is taken for it is no
leaf. -/
theorem beforeMerge_misses : ∃ path, findInsert threeLeaves 6 = .ok (path, 2) ∧
    threeLeaves.index =
      [((⊥ : WithBot Key), 1), (((5 : Key) : WithBot Key), 2), (((8 : Key) : WithBot Key), 3)] ∧
    (∃ m, threeLeaves.dleafHeap 1 = some m ∧ m.tempInsert = 0) ∧
    beforeMerge threeLeaves path = .error .segv :=
  ⟨_, rfl, rfl, ⟨_, rfl, rfl⟩, rfl⟩

end ZBTree
