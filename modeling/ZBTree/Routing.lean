import ZBTree.TreeModel
import ZBTree.MultiwayTree

/-!
# Routing through the inner nodes

The inner nodes of a state, seen as a node store, and what the three descents of the
source do there: `find_insert`, `find` and `update` all go to the leaf whose range
holds the key, and `find_insert` records the way it took.
-/

namespace ZBTree

open RangeIndex MultiwayTree

variable {P : Type}

/-! ### The node store -/

def InnerNode.entries (nd : InnerNode) : List (Key × Addr) :=
  (List.range nd.maxSize).map fun i => (nd.nodeKey0 i, nd.nodeKey1 i)

def innerView (h : Addr → Option InnerNode) : Store Key Addr :=
  fun a => (h a).map fun nd => (nd.leftMostPtr, nd.entries)

def Fill (n : Nat) : Prop := 1 ≤ n ∧ n ≤ MAX_LEAF_KEY

instance (n : Nat) : Decidable (Fill n) := inferInstanceAs (Decidable (_ ∧ _))

@[simp] theorem InnerNode.entries_length (nd : InnerNode) : nd.entries.length = nd.maxSize := by
  simp [entries]

theorem InnerNode.entries_getElem (nd : InnerNode) (i : Nat) (hi : i < nd.entries.length) :
    nd.entries[i] = (nd.nodeKey0 i, nd.nodeKey1 i) := by
  simp [entries]

theorem innerView_eq_some {h : Addr → Option InnerNode} {a c0 : Addr} {es : List (Key × Addr)}
    (ha : innerView h a = some (c0, es)) :
    ∃ nd, h a = some nd ∧ nd.leftMostPtr = c0 ∧ nd.entries = es := by
  obtain ⟨nd, hnd, hpair⟩ := Option.map_eq_some_iff.mp ha
  exact ⟨nd, hnd, congrArg Prod.fst hpair, congrArg Prod.snd hpair⟩

theorem innerView_update (h : Addr → Option InnerNode) (a : Addr) (nd : InnerNode) :
    innerView (Function.update h a (some nd)) =
      Function.update (innerView h) a (some (nd.leftMostPtr, nd.entries)) := by
  funext b
  by_cases hb : b = a
  · subst hb
    simp [innerView]
  · simp [innerView, Function.update_of_ne hb]

/-! ### One node -/

/-- Child `j` of a node: `0` is the left-most one. -/
def InnerNode.child (nd : InnerNode) (j : Nat) : Addr :=
  if j = 0 then nd.leftMostPtr else nd.nodeKey1 (j - 1)

/-- The separators before child `j` lie below the key, the one after it does not. -/
theorem scanSeparators_spec (nd : InnerNode) (key : Key) (n i : Nat) (hn : i + n = nd.maxSize)
    (hpos : 0 < n) (hbelow : i = 0 ∨ nd.nodeKey0 i < key) :
    ∃ j, j ≤ nd.maxSize ∧
      scanSeparators nd key (nd.maxSize - 1) n i = some ((j : Int) - 1, nd.child j) ∧
      (0 < j → nd.nodeKey0 (j - 1) < key) ∧ (j < nd.maxSize → key ≤ nd.nodeKey0 j) := by
  induction n generalizing i with
  | zero => exact absurd hpos (Nat.lt_irrefl 0)
  | succ n ih =>
    rw [scanSeparators]
    by_cases hleft : key ≤ nd.nodeKey0 i ∧ i = 0
    · rw [if_pos hleft]
      obtain ⟨hle, rfl⟩ := hleft
      exact ⟨0, Nat.zero_le _, by simp [InnerNode.child], fun h => absurd h (Nat.lt_irrefl 0),
        fun _ => hle⟩
    · rw [if_neg hleft]
      have hlt : nd.nodeKey0 i < key := by
        rcases hbelow with hi | hlt
        · exact not_le.mp fun hle => hleft ⟨hle, hi⟩
        · exact hlt
      by_cases hhere : i = nd.maxSize - 1 ∨ (nd.nodeKey0 i < key ∧ key ≤ nd.nodeKey0 (i + 1))
      · rw [if_pos hhere]
        refine ⟨i + 1, by omega, by simp [InnerNode.child], fun _ => hlt, fun hj => ?_⟩
        rcases hhere with hlast | ⟨-, hle⟩
        · omega
        · exact hle
      · rw [if_neg hhere]
        have hnext : nd.nodeKey0 (i + 1) < key :=
          not_le.mp fun hle => hhere (Or.inr ⟨hlt, hle⟩)
        have hnot : i ≠ nd.maxSize - 1 := fun hlast => hhere (Or.inl hlast)
        exact ih (i + 1) (by omega) (by omega) (Or.inr hnext)

theorem routeChild_spec (nd : InnerNode) (key : Key) (hpos : 0 < nd.maxSize) :
    ∃ j, j ≤ nd.maxSize ∧ routeChild nd key = some ((j : Int) - 1, nd.child j) ∧
      (0 < j → nd.nodeKey0 (j - 1) < key) ∧ (j < nd.maxSize → key ≤ nd.nodeKey0 j) :=
  scanSeparators_spec nd key nd.maxSize 0 (Nat.zero_add _) hpos (Or.inl rfl)

/-- Child `j` among the children of a node, with its neighbours' bounds. -/
theorem InnerNode.kids_split (nd : InnerNode) (lo : WithBot Key) (j : Nat) (hj : j ≤ nd.maxSize) :
    ∃ X lo' Y, kids lo nd.leftMostPtr nd.entries = X ++ (lo', nd.child j) :: Y ∧ X.length = j ∧
      (lo' = if j = 0 then lo else (nd.nodeKey0 (j - 1) : WithBot Key)) ∧
      (Y.head?.map Prod.fst =
        if j < nd.maxSize then some (nd.nodeKey0 j : WithBot Key) else none) := by
  have hlen : (kids lo nd.leftMostPtr nd.entries).length = nd.maxSize + 1 := by
    rw [kids_length, InnerNode.entries_length]
  have hjlt : j < (kids lo nd.leftMostPtr nd.entries).length := by omega
  refine ⟨(kids lo nd.leftMostPtr nd.entries).take j,
    if j = 0 then lo else (nd.nodeKey0 (j - 1) : WithBot Key),
    (kids lo nd.leftMostPtr nd.entries).drop (j + 1), ?_, ?_, rfl, ?_⟩
  · have hget : (kids lo nd.leftMostPtr nd.entries)[j] =
        (if j = 0 then lo else (nd.nodeKey0 (j - 1) : WithBot Key), nd.child j) := by
      rcases j with _ | j
      · simp [kids, InnerNode.child]
      · simp [kids, InnerNode.child, InnerNode.entries]
    rw [← hget, ← List.drop_eq_getElem_cons hjlt, List.take_append_drop]
  · rw [List.length_take]
    omega
  · rw [List.head?_drop]
    by_cases hlt : j < nd.maxSize
    · rw [if_pos hlt, List.getElem?_eq_getElem (by omega)]
      simp [kids, InnerNode.entries]
    · rw [if_neg hlt, List.getElem?_eq_none (by omega)]
      rfl

/-- The key goes from `nd` to one of the children `c0` and `es`, the one in whose range it lies. -/
def InnerNode.Sends (nd : InnerNode) (c0 : Addr) (es : List (Key × Addr)) (key : Key) : Prop :=
  ∃ (j : Nat) (child : Addr), routeChild nd key = some ((j : Int) - 1, child) ∧
    ∀ lo : WithBot Key, ∃ (X Y : Index Key Addr) (lo' : WithBot Key), kids lo c0 es = X ++ (lo', child) :: Y ∧ X.length = j ∧
      (lo < key → lo' < key) ∧ ∀ y ∈ Y.head?, (key : WithBot Key) ≤ y.1

theorem InnerNode.sends_entries (nd : InnerNode) (key : Key) (hpos : 0 < nd.maxSize) :
    nd.Sends nd.leftMostPtr nd.entries key := by
  obtain ⟨j, hj, hroute, hbelow, habove⟩ := routeChild_spec nd key hpos
  refine ⟨j, nd.child j, hroute, fun lo => ?_⟩
  obtain ⟨X, lo', Y, hsplit, hX, hlo', hhead⟩ := nd.kids_split lo j hj
  refine ⟨X, Y, lo', hsplit, hX, fun hlo => ?_, fun y hy => ?_⟩
  · rw [hlo']
    split_ifs with h0
    · exact hlo
    · exact WithBot.coe_lt_coe.mpr (hbelow (Nat.pos_of_ne_zero h0))
  · rw [Option.mem_def.mp hy, Option.map_some] at hhead
    split_ifs at hhead with hlt
    rw [Option.some.injEq] at hhead
    rw [hhead]
    exact WithBot.coe_le_coe.mpr (habove hlt)

/-! ### The descent

The loop over the separators finds the place `j` with `key_(j-1) < key <= key_j`. Level by level this is the child whose
range holds the key, so the descent ends at the leaf to which the index routes it. -/

def Cursor.step (c : Cursor) : Addr × Nat := (c.node, (c.nodePos + 1).toNat)

/-- A path of `find_insert` from `a` to `leaf`. -/
def CursorPath (h : Store Key Addr) (d : Nat) (a : Addr) (path : List Cursor) (leaf : Addr) : Prop :=
  Descends h d a (path.map Cursor.step) leaf ∧ ∀ c ∈ path, -1 ≤ c.nodePos

/-- `findInsertFrom` in a complete tree whose nodes are seen through `h`: it reaches a leaf, by a path of
the tree, and it is the leaf whose range holds the key. -/
theorem findInsertFrom_view (s : TreeState P) {h : Store Key Addr} {size : Nat → Prop}
    (hview : ∀ b c0 es, h b = some (c0, es) → size es.length →
      ∃ nd, s.innerHeap b = some nd ∧ ∀ key, nd.Sends c0 es key)
    (key : Key) (d : Nat) (a : Addr) (hs : Shape h size d a) :
    ∃ path leaf, findInsertFrom s key d a = .ok (path, leaf) ∧ CursorPath h d a path leaf ∧
      ∀ lo : WithBot Key, lo < key → Sorted (flat h d lo a) → Routes (flat h d lo a) key leaf := by
  induction d generalizing a with
  | zero =>
    refine ⟨[], a, rfl, ⟨⟨rfl, rfl⟩, by simp⟩, fun lo hlo _ => ?_⟩
    exact ⟨lo, by simp [flat], hlo, by simp [flat]⟩
  | succ d ih =>
    obtain ⟨c0, es, ha, hsize, hkids⟩ := hs
    obtain ⟨nd, hnd, hsends⟩ := hview a c0 es ha hsize
    obtain ⟨j, child, hroute, hsplits⟩ := hsends key
    obtain ⟨X, Y, lo', hsplit, hX, -, -⟩ := hsplits ⊥
    have hchild : Shape h size d child := hkids (lo', child) (by rw [hsplit]; simp)
    obtain ⟨path, leaf, hrun, ⟨hdesc, hcur⟩, hroutes⟩ := ih child hchild
    refine ⟨⟨a, (j : Int) - 1, nd.maxSize, nd.versionField⟩ :: path, leaf, ?_, ⟨?_, ?_⟩, ?_⟩
    · simp only [findInsertFrom, hnd, deref_some, ok_bind, hroute, hrun, pure_eq_ok]
    · refine ⟨j, path.map Cursor.step, c0, es, X, lo', child, Y, ?_, ha, hsplit, hX, hdesc⟩
      simp [Cursor.step]
    · intro c hc
      rcases List.mem_cons.mp hc with rfl | hc
      · show (-1 : Int) ≤ (j : Int) - 1
        omega
      · exact hcur c hc
    · intro lo hlo hsorted
      obtain ⟨X, Y, lo', hsplit, -, hbelow, habove⟩ := hsplits lo
      have hshape : ShapeKids h size d (kids lo c0 es) := (shapeKids_kids lo).mpr hkids
      rw [flat_succ ha, hsplit] at hsorted ⊢
      rw [hsplit] at hshape
      have hK : Sorted (X ++ (lo', child) :: Y) := Sorted.of_flatKids hshape hsorted
      have hmem : (lo', child) ∈ X ++ (lo', child) :: Y := by simp
      refine routes_flatKids hshape hsorted ?_ (hroutes lo' (hbelow hlo) (Sorted.of_kid hsorted hmem))
      -- the first bound after the child is not below the key, and the others are larger
      intro y hy
      cases Y with
      | nil => exact absurd hy List.not_mem_nil
      | cons y₀ Y =>
        have hy₀ : (key : WithBot Key) ≤ y₀.1 := habove y₀ rfl
        rcases List.mem_cons.mp hy with rfl | hy
        · exact hy₀
        · have hrest := (List.pairwise_cons.mp (List.pairwise_append.mp hK).2.1).2
          exact hy₀.trans ((List.pairwise_cons.mp hrest).1 y hy).le

/-- In a complete tree `find_insert` reaches a leaf, by a path of the tree, and it is the
leaf whose range holds the key. -/
theorem findInsertFrom_spec (s : TreeState P) (key : Key) (d : Nat) (a : Addr)
    (hs : Shape (innerView s.innerHeap) Fill d a) :
    ∃ path leaf, findInsertFrom s key d a = .ok (path, leaf) ∧
      CursorPath (innerView s.innerHeap) d a path leaf ∧
      ∀ lo : WithBot Key, lo < key → Sorted (flat (innerView s.innerHeap) d lo a) →
        Routes (flat (innerView s.innerHeap) d lo a) key leaf := by
  refine findInsertFrom_view s (fun b c0 es hb hfill => ?_) key d a hs
  obtain ⟨nd, hnd, rfl, rfl⟩ := innerView_eq_some hb
  rw [InnerNode.entries_length] at hfill
  exact ⟨nd, hnd, fun key => nd.sends_entries key hfill.1⟩

theorem descendFrom_of_findInsertFrom {s : TreeState P} {key : Key} {d : Nat} {a : Addr}
    {path : List Cursor} {leaf : Addr} (h : findInsertFrom s key d a = .ok (path, leaf)) :
    descendFrom s key d a = .ok leaf := by
  induction d generalizing a path with
  | zero =>
    simp only [findInsertFrom, Except.ok.injEq, Prod.mk.injEq] at h
    rw [descendFrom, h.2]
  | succ d ih =>
    simp only [findInsertFrom, bind_eq_ok] at h
    obtain ⟨nd, hnd, ⟨pos, child⟩, hroute, ⟨path', leaf'⟩, hrest, hret⟩ := h
    simp only [pure_eq_ok, Except.ok.injEq, Prod.mk.injEq] at hret
    obtain ⟨-, rfl⟩ := hret
    simp only [descendFrom, hnd, ok_bind, hroute]
    exact ih hrest

/-! ### The whole tree -/

/-- The leaves of the tree with their lower bounds, from left to right. -/
def TreeState.index (s : TreeState P) : Index Key Addr :=
  flat (innerView s.innerHeap) s.tempLevel ⊥ s.root

def TreeState.innerNodes (s : TreeState P) : Multiset Addr :=
  inners (innerView s.innerHeap) s.tempLevel s.root

/-- The inner nodes form a complete tree of depth `temp_level`, each in a block of its own. -/
structure Upper (s : TreeState P) : Prop where
  shape : Shape (innerView s.innerHeap) Fill s.tempLevel s.root
  nodup : s.innerNodes.Nodup
  inner_lt : ∀ b ∈ s.innerNodes, 0 < b ∧ b < s.brk
  brk_pos : 0 < s.brk

theorem Upper.congr {s s' : TreeState P} (h : Upper s) (hheap : s'.innerHeap = s.innerHeap)
    (hroot : s'.root = s.root) (hlevel : s'.tempLevel = s.tempLevel) (hbrk : s.brk ≤ s'.brk) :
    Upper s' := by
  have hinn : s'.innerNodes = s.innerNodes := by
    simp only [TreeState.innerNodes, hheap, hroot, hlevel]
  refine ⟨?_, ?_, ?_, h.brk_pos.trans_le hbrk⟩
  · rw [hheap, hroot, hlevel]
    exact h.shape
  · rw [hinn]
    exact h.nodup
  · rw [hinn]
    exact fun b hb => ⟨(h.inner_lt b hb).1, (h.inner_lt b hb).2.trans_le hbrk⟩

theorem Upper.findInsert_spec {s : TreeState P} (h : Upper s) (key : Key) :
    ∃ path leaf, findInsert s key = .ok (path, leaf) ∧
      CursorPath (innerView s.innerHeap) s.tempLevel s.root path leaf ∧
      (Sorted s.index → Routes s.index key leaf) := by
  obtain ⟨path, leaf, hrun, hpath, hroutes⟩ := findInsertFrom_spec s key s.tempLevel s.root h.shape
  refine ⟨path, leaf, ?_, hpath, hroutes ⊥ (WithBot.bot_lt_coe key)⟩
  rw [findInsert]
  split_ifs with hlevel
  · rw [hlevel, findInsertFrom] at hrun
    exact hrun
  · exact hrun

theorem descend_of_findInsert {s : TreeState P} {key : Key} {path : List Cursor} {leaf : Addr}
    (h : findInsert s key = .ok (path, leaf)) : descendFrom s key s.tempLevel s.root = .ok leaf := by
  refine descendFrom_of_findInsertFrom (show findInsertFrom s key s.tempLevel s.root = .ok (path, leaf) from ?_)
  rw [findInsert] at h
  split_ifs at h with hlevel
  · rw [hlevel, findInsertFrom]
    exact h
  · exact h

end ZBTree
