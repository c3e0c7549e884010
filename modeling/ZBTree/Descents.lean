import ZBTree.MapContract

/-!
# The three descents

The loop from the root to a leaf is written out in `find`, in `update` and in `find_insert`. Here they
are compared by the inner nodes they visit. `find` and `find_insert` have a case of their own for a tree
without inner nodes; `update` does not, and its bound `temp_level - 1` is a `size_t`.
-/

namespace ZBTree

open RangeIndex MultiwayTree Pmem LawfulPmem

variable {P : Type}

/-! ### The nodes that are visited -/

/-- The descent that `find` and `update` spell out, with the inner nodes on the way. -/
def visitFrom (s : TreeState P) (key : Key) : Nat → Addr → Exec (List Addr × Addr)
  | 0, start => .ok ([], start)
  | d + 1, start => do
    let nd ← deref (s.innerHeap start)
    let (_, child) ← deref (routeChild nd key)
    let (nodes, leaf) ← visitFrom s key d child
    return (start :: nodes, leaf)

/-- The descent of `find`. -/
def findVisits (s : TreeState P) (key : Key) : Exec (List Addr × Addr) :=
  if s.tempLevel = 0 then .ok ([], s.root) else visitFrom s key s.tempLevel s.root

/-- The descent of `update`. -/
def updateVisits (s : TreeState P) (key : Key) : Exec (List Addr × Addr) :=
  visitFrom s key (updateLevels s.tempLevel) s.root

/-- The descent of `find_insert`. -/
def findInsertVisits (s : TreeState P) (key : Key) : Exec (List Addr × Addr) := do
  let (path, leaf) ← findInsert s key
  return (path.map Cursor.node, leaf)

def ChildOf (s : TreeState P) (a b : Addr) : Prop :=
  ∃ nd, s.innerHeap a = some nd ∧ ∃ j, j ≤ nd.maxSize ∧ b = nd.child j

/-- All three descents visit the same `temp_level` inner nodes from the root on, go to stored children
only and end at the same leaf. -/
def DescentsAgree (s : TreeState P) (key : Key) : Prop :=
  ∃ nodes leaf, findVisits s key = .ok (nodes, leaf) ∧ updateVisits s key = .ok (nodes, leaf) ∧
    findInsertVisits s key = .ok (nodes, leaf) ∧ nodes.length = s.tempLevel ∧
    (nodes ++ [leaf]).IsChain (ChildOf s) ∧ (nodes ++ [leaf]).head? = some s.root ∧
    (s.dleafHeap leaf).isSome

variable {s : TreeState P} {key : Key} {d : Nat} {a leaf : Addr} {nodes : List Addr} {path : List Cursor}

theorem visitFrom_leaf (s : TreeState P) (key : Key) (d : Nat) (a : Addr) :
    (visitFrom s key d a).map Prod.snd = descendFrom s key d a := by
  induction d generalizing a with
  | zero => rfl
  | succ d ih =>
    simp only [visitFrom, descendFrom]
    cases s.innerHeap a with
    | none => rfl
    | some nd =>
      simp only [deref_some, ok_bind]
      cases routeChild nd key with
      | none => rfl
      | some hop =>
        simp only [deref_some, ok_bind, ← ih]
        cases visitFrom s key d hop.2 <;> rfl

theorem visitFrom_length (h : visitFrom s key d a = .ok (nodes, leaf)) : nodes.length = d := by
  induction d generalizing a nodes with
  | zero =>
    cases h
    rfl
  | succ d ih =>
    simp only [visitFrom, bind_eq_ok] at h
    obtain ⟨nd, -, hop, -, ⟨rest, leaf'⟩, hrest, heq⟩ := h
    cases heq
    rw [List.length_cons, ih hrest]

theorem visitFrom_of_findInsertFrom (h : findInsertFrom s key d a = .ok (path, leaf)) :
    visitFrom s key d a = .ok (path.map Cursor.node, leaf) := by
  induction d generalizing a path with
  | zero =>
    cases h
    rfl
  | succ d ih =>
    simp only [findInsertFrom, bind_eq_ok] at h
    obtain ⟨nd, hnd, ⟨pos, child⟩, hroute, ⟨rest, leaf'⟩, hrest, heq⟩ := h
    cases heq
    simp only [visitFrom, hnd, hroute, ih hrest, ok_bind, pure_eq_ok, List.map_cons]

theorem routeChild_stored {nd : InnerNode} {pos : Int} {child : Addr}
    (h : routeChild nd key = some (pos, child)) : ∃ j, j ≤ nd.maxSize ∧ child = nd.child j := by
  have hpos : 0 < nd.maxSize := by
    rw [Nat.pos_iff_ne_zero]
    intro hzero
    rw [routeChild, hzero, scanSeparators] at h
    cases h
  obtain ⟨j, hj, hroute, -⟩ := routeChild_spec nd key hpos
  rw [h, Option.some.injEq, Prod.mk.injEq] at hroute
  exact ⟨j, hj, hroute.2⟩

theorem visitFrom_chain (h : visitFrom s key d a = .ok (nodes, leaf)) :
    (nodes ++ [leaf]).IsChain (ChildOf s) ∧ (nodes ++ [leaf]).head? = some a := by
  induction d generalizing a nodes with
  | zero =>
    cases h
    exact ⟨List.isChain_singleton _, rfl⟩
  | succ d ih =>
    simp only [visitFrom, bind_eq_ok, deref_eq_ok] at h
    obtain ⟨nd, hnd, ⟨pos, child⟩, hroute, ⟨rest, leaf'⟩, hrest, heq⟩ := h
    cases heq
    obtain ⟨hchain, hhead⟩ := ih hrest
    refine ⟨?_, rfl⟩
    rw [List.cons_append, List.isChain_cons]
    refine ⟨fun b hb => ?_, hchain⟩
    rw [hhead] at hb
    cases hb
    exact ⟨nd, hnd, routeChild_stored hroute⟩

/-! ### When they agree

All three run `while(search_level <= temp_level - 1)`, where `temp_level` is a `size_t`. `find` and `find_insert` treat
a root that is a leaf before the loop, `update` does not. With an inner node the loops go the same way. -/

theorem descents_agree {cuts : Cuts} {tail : Addr} (h : Skeleton cuts tail s) (hlevel : 1 ≤ s.tempLevel)
    (key : Key) : DescentsAgree s key := by
  have hzero : s.tempLevel ≠ 0 := Nat.ne_of_gt hlevel
  obtain ⟨path, leaf, m, hfind, -, -, hm⟩ := h.reaches key
  have hfrom := hfind
  rw [findInsert, if_neg hzero] at hfrom
  have hvisit := visitFrom_of_findInsertFrom hfrom
  obtain ⟨hchain, hhead⟩ := visitFrom_chain hvisit
  refine ⟨path.map Cursor.node, leaf, ?_, ?_, ?_, visitFrom_length hvisit, hchain, hhead, by rw [hm]; rfl⟩
  · rw [findVisits, if_neg hzero, hvisit]
  · rw [updateVisits, updateLevels, if_neg hzero, hvisit]
  · simp only [findInsertVisits, hfind, ok_bind, pure_eq_ok]

theorem update_overruns (hlevel : s.tempLevel = 0) (key : Key) : ¬ DescentsAgree s key := by
  rintro ⟨nodes, leaf, -, hupdate, -, hlen, -⟩
  have hrounds := visitFrom_length hupdate
  rw [hlen, hlevel, updateLevels, if_pos rfl] at hrounds
  cases hrounds

variable [Pmem P] [LawfulPmem P]

/-- In every tree that insertions of distinct keys lead to, the three descents agree if and only if the
tree has inner nodes. -/
theorem descents_agree_iff (pm : P) (t : Tid) (junkInner : Addr → InnerNode) (junkLeaf : Addr → DLeaf)
    (entries : List (Key × Word × BitVec 32)) (hroom : Ok (2 * entries.length + 1) pm)
    (hkeys : (entries.map Prod.fst).Nodup) : ∃ s₀ answers s, init pm t junkInner junkLeaf = .ok s₀ ∧
      mapRun t s₀ (insertOps entries) = .ok (answers, s) ∧
      ∀ key, DescentsAgree s key ↔ 1 ≤ s.tempLevel := by
  have hlen : (insertOps entries).length = entries.length := List.length_map ..
  obtain ⟨s₀, hinit, hrep₀⟩ := represents_init (n := 2 * entries.length + 0) hroom t junkInner junkLeaf
  rw [← hlen] at hrep₀
  obtain ⟨s, hrun, hrep⟩ := hrep₀.run t (insertOps entries)
    (by rwa [insertedKeys_insertOps]) (fun _ _ => rfl) (findsKnown_insertOps t entries s₀ _)
  refine ⟨s₀, _, s, hinit, hrun, fun key => ⟨fun hagree => ?_, fun hlevel => ?_⟩⟩
  · by_contra hlow
    exact update_overruns (Nat.lt_one_iff.mp (not_le.mp hlow)) key hagree
  · exact descents_agree hrep.inv.skel hlevel key

theorem descents_agree_iff_split : ∃ s₀ answers s, init (IdealPm.roomy 100) 0 zeroInner zeroLeaf = .ok s₀ ∧
    mapRun 0 s₀ (insertOps scattered) = .ok (answers, s) ∧ s.tempLevel = 1 ∧ ∀ key, DescentsAgree s key := by
  obtain ⟨s₀, answers, s, hinit, hrun, hagree⟩ := descents_agree_iff (IdealPm.roomy 100) 0 zeroInner zeroLeaf
    scattered (IdealPm.roomy_lawful (by decide) (by decide)) (by decide +kernel)
  have hlevel : (init (IdealPm.roomy 100) 0 zeroInner zeroLeaf >>= fun s₀ =>
      mapRun 0 s₀ (insertOps scattered)).toOption.map (fun r => r.2.tempLevel) = some 1 := by
    decide +kernel
  rw [hinit, ok_bind, hrun] at hlevel
  have hone : s.tempLevel = 1 := Option.some.inj hlevel
  exact ⟨s₀, answers, s, hinit, hrun, hone, fun key => (hagree key).mpr hone.ge⟩

/-- With one key in the tree `update` takes the leaf for an inner node. -/
theorem update_descends_leaf : ∃ s₀ answers s, init (IdealPm.roomy 10) 0 zeroInner zeroLeaf = .ok s₀ ∧
    mapRun 0 s₀ (insertOps [(5, 50, 8)]) = .ok (answers, s) ∧ findVisits s 5 = .ok ([], 1) ∧
    ∀ leaf, updateVisits s 5 ≠ .ok ([], leaf) := by
  have h : (do
      let s₀ ← init (IdealPm.roomy 10) 0 zeroInner zeroLeaf
      let (_, s) ← mapRun 0 s₀ (insertOps [(5, 50, 8)])
      let visits ← findVisits s 5
      return (visits, s.tempLevel)) = .ok (([], 1), 0) := by
    decide +kernel
  simp only [bind_eq_ok, pure_eq_ok, Except.ok.injEq, Prod.mk.injEq] at h
  obtain ⟨s₀, hinit, ⟨answers, s⟩, hrun, visits, hfind, rfl, hlevel⟩ := h
  refine ⟨s₀, answers, s, hinit, hrun, hfind, fun leaf hupdate => ?_⟩
  have hrounds := visitFrom_length hupdate
  rw [hlevel, updateLevels, if_pos rfl] at hrounds
  cases hrounds

end ZBTree
