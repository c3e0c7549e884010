import ZBTree.CacheSteps
import ZBTree.MapContract

/-!
# Caching on reading does not show

A run of the variant answers as the same run does in which every matching slot is read through
its record. Both answer as the finite map, and both have inner nodes from the same insertion on.
-/

namespace ZBTree

namespace ReadCache

open RangeIndex Pmem LawfulPmem

variable {P : Type} [Pmem P]

/-! ### Runs -/

def cacheStep (look : CacheTree P → Key → Exec (Word × CacheTree P)) (t : Tid) (s : CacheTree P) :
    MapOp → Exec (Answer × CacheTree P)
  | .insert key val valueLen => do
    let (done, s) ← insert 2 s t key val valueLen
    return (.inserted done, s)
  | .find key => do
    let (val, s) ← look s key
    return (.found val, s)

def cacheRun (look : CacheTree P → Key → Exec (Word × CacheTree P)) (t : Tid) :
    CacheTree P → List MapOp → Exec (List Answer × CacheTree P)
  | s, [] => .ok ([], s)
  | s, op :: ops => do
    let (answer, s) ← cacheStep look t s op
    let (answers, s) ← cacheRun look t s ops
    return (answer :: answers, s)

/-- `find` is asked only for keys of `M` while the tree has no inner nodes. -/
def FindsKnown (t : Tid) : CacheTree P → (Key → Option Word) → List MapOp → Prop
  | _, _, [] => True
  | s, M, op :: ops =>
    (∀ key, op = .find key → s.tree.tempLevel = 0 → (M key).isSome) ∧
      ∀ answer s', cacheStep (find 1) t s op = .ok (answer, s') →
        FindsKnown t s' (specStep M op).2 ops

theorem findsPresent_known {t : Tid} {s : CacheTree P} {M : Key → Option Word} {ops : List MapOp}
    (h : findsPresent M ops = true) : FindsKnown t s M ops := by
  induction ops generalizing s M with
  | nil => trivial
  | cons op ops ih =>
    obtain ⟨hop, hops⟩ := findsPresent_cons h
    exact ⟨fun key heq _ => hop key heq, fun _ _ _ => ih hops⟩

/-! ### insert -/

variable [LawfulPmem P] {tail L a : Addr} {s : CacheTree P} {m : DLeaf} {k : Key}

/-- What an insertion of a new key does to a tree of which no leaf is cut. -/
structure Inserted (tail : Addr) (s s' : CacheTree P) (k : Key) (v : Word) (n : Nat) : Prop where
  inv : Inv Cuts.empty tail s'.tree
  room : Ok n s'.tree.pm
  contains : ∀ k' v', s'.tree.Contains k' v' ↔ s.tree.Contains k' v' ∨ (k' = k ∧ v' = v)
  grows : Grows s.tree s'.tree
  free : AllFree s.tree → AllFree s'.tree
  lodged : Lodged Cuts.empty s'

/-- The round that finds room. -/
theorem insert_room (h : Inv Cuts.empty tail s.tree) (hl : Lodged Cuts.empty s) {n : Nat}
    (hok : Ok (n + 1) s.tree.pm) (t : Tid) (v : Word) (len : BitVec 32) {path : List Cursor}
    (hfind : findInsert s.tree k = .ok (path, L)) (hm : s.tree.dleafHeap L = some m)
    (hfree : m.tempInsert = 0) (hroom : m.maxUse < MAX_LEAF_KEY) (hnew : Absent s.tree k)
    (fuel : Nat) :
    ∃ s' addr, insert (fuel + 1) s t k v len = .ok (true, s') ∧ Inserted tail s s' k v n ∧
      s'.tree.tempLevel = s.tree.tempLevel ∧ s'.tree.root = s.tree.root ∧
      s'.tree.dleafHeap = Function.update s.tree.dleafHeap L
        (some (({ m with tempInsert := 1 } : DLeaf).push k addr)) := by
  have hroute := h.routes_of_find hfind
  have hview : SameView m { m with tempInsert := 1 } := SameView.of_slots rfl rfl
  have hlocked := h.lock hm rfl
  have hm₁ : (s.tree.setLeaf L { m with tempInsert := 1 }).dleafHeap L =
      some { m with tempInsert := 1 } := Function.update_self ..
  have hno : ∀ i, ¬ HasKey s.tree.pm { m with tempInsert := 1 } k i := fun i hi =>
    hnew L m i hm (hview.hasKey_iff.mp hi)
  have hdup : duplicate (s.tree.setLeaf L { m with tempInsert := 1 }).pm { m with tempInsert := 1 } k
      m.maxUse 0 = .ok false := duplicate_miss (hlocked.data.slots L _ hm₁) hno
  obtain ⟨addr, pm, s', hfill, htree, hok', hinv, hcont, hgrows, hlodged⟩ :=
    fillSlot_spec (s := { s with tree := s.tree.setLeaf L { m with tempInsert := 1 } }) hlocked
      (hl.view hm hview) hok t v len hm₁ hroute rfl hroom hno
  have hheap : s'.tree.dleafHeap = Function.update s.tree.dleafHeap L
      (some (({ m with tempInsert := 1 } : DLeaf).push k addr)) := by
    rw [htree]
    exact Function.update_idem ..
  refine ⟨s', addr, ?_, ⟨hinv, ?_, ?_, ?_, ?_, hlodged⟩, by rw [htree]; rfl, by rw [htree]; rfl,
    hheap⟩
  · rw [insert, lockLeaf_free hfind hm hfree]
    simp only [ok_bind, Bool.not_true, Bool.false_eq_true, if_false, hm₁, deref_some, hdup,
      if_pos hroom, hfill, pure_eq_ok]
  · rw [htree]
    exact hok'
  · intro k' v'
    rw [hcont, contains_setLeaf hm hview]
  · exact (Grows.setLeaf hm hview).trans hgrows
  · -- the leaf is released by `push`, the others were free
    intro hall b n' hn
    rw [hheap] at hn
    by_cases hb : b = L
    · subst hb
      rw [Function.update_self, Option.some.injEq] at hn
      exact hn ▸ rfl
    · rw [Function.update_of_ne hb] at hn
      exact hall b n' hn

/-- What splitting the held leaf `L` and recording the split leave behind. -/
structure SplitDone (tail : Addr) (s s' : CacheTree P) (L : Addr) (n : Nat) : Prop where
  inv : Inv Cuts.empty tail s'.tree
  room : Ok n s'.tree.pm
  contains : ∀ k v, s'.tree.Contains k v ↔ s.tree.Contains k v
  grows : Grows s.tree s'.tree
  lodged : Lodged Cuts.empty s'
  index : ∃ sk, InsAfter L sk (s.tree.brk + 1) s.tree.index s'.tree.index
  halves : ∀ b, b = L ∨ b = s.tree.brk + 1 →
    ∃ m, s'.tree.dleafHeap b = some m ∧ m.tempInsert = 0 ∧ m.maxUse = LEFT_KEY
  others : ∀ b, b ≠ L → b ≠ s.tree.brk + 1 → s'.tree.dleafHeap b = s.tree.dleafHeap b

theorem split_install (h : Inv Cuts.empty tail s.tree) (hl : Lodged Cuts.empty s) {n : Nat}
    (hok : Ok (n + 1) s.tree.pm) (t : Tid) {path : List Cursor}
    (hfind : findInsert s.tree k = .ok (path, L)) (hL : L ∈ labels s.tree.index)
    (hm : s.tree.dleafHeap L = some m) (hheld : m.tempInsert = 1) (hfull : m.maxUse = MAX_LEAF_KEY) :
    ∃ sk s₂ tree, splitFull s t L = .ok (s.tree.brk + 1, sk, m.altPtr, s₂) ∧
      installSeparator s₂.tree k sk L (s.tree.brk + 1) m.altPtr = .ok tree ∧
      SplitDone tail s { s₂ with tree := tree } L n := by
  obtain ⟨σ, buf, q, pm, hsp, hsplit, hok₂, hinv₂, hcont₂, hgrows₂⟩ :=
    splitFull_spec h hok t hm hL rfl hheld hfull
  have hLlt := (h.skel.leaf_lt L (mem_leaves_of_index hL)).2
  have hlodged₂ := hl.split (m := m) hLlt σ buf q pm (splitCut s.tree m σ buf)
  obtain ⟨hleft, hright, hoff⟩ := splitState_heap m (m.fingerBuffer ∘ σ) (buf ∘ σ) q pm hLlt
  have hfields : (splitState s L m (m.fingerBuffer ∘ σ) (buf ∘ σ) q pm).tree.innerHeap =
        s.tree.innerHeap ∧
      (splitState s L m (m.fingerBuffer ∘ σ) (buf ∘ σ) q pm).tree.root = s.tree.root ∧
      (splitState s L m (m.fingerBuffer ∘ σ) (buf ∘ σ) q pm).tree.tempLevel = s.tree.tempLevel ∧
      (splitState s L m (m.fingerBuffer ∘ σ) (buf ∘ σ) q pm).tree.pm = pm := ⟨rfl, rfl, rfl, rfl⟩
  have hindex : (splitState s L m (m.fingerBuffer ∘ σ) (buf ∘ σ) q pm).tree.index = s.tree.index := rfl
  generalize splitState s L m (m.fingerBuffer ∘ σ) (buf ∘ σ) q pm = s₂ at *
  obtain ⟨hinner, hroot, hlevel, hpm⟩ := hfields
  have hfind₂ : findInsert s₂.tree k = .ok (path, L) := by
    rw [← hfind]
    exact findInsert_congr hinner hroot hlevel k
  obtain ⟨s₁, tree, m₂, hinst, hm₂, hins, hsame, htree, hinv, hcont, hgrows⟩ :=
    hinv₂.install (Function.update_self ..) hfind₂
  -- installing the separator ends the one cut there is
  have hcuts : Function.update (Function.update Cuts.empty L (some (splitCut s.tree m σ buf))) L none =
      Cuts.empty := by
    rw [Function.update_idem]
    exact Function.update_eq_self L Cuts.empty
  rw [hcuts] at hinv
  have hheap₁ : s₁.dleafHeap = s₂.tree.dleafHeap := by rw [hsame]
  have hheap : ∀ b, b ≠ L → tree.dleafHeap b = s₂.tree.dleafHeap b := by
    intro b hb
    rw [htree]
    simp only [TreeState.setLeaf, Function.update_of_ne hb, hheap₁]
  have hview : ∀ b n, tree.dleafHeap b = some n →
      ∃ n₀, s₂.tree.dleafHeap b = some n₀ ∧ SameView n₀ n := by
    intro b n hn
    rw [htree] at hn
    have hm₁ : s₁.dleafHeap L = some m₂ := (congrFun hheap₁ L).trans hm₂
    have hreleased : SameView m₂ { m₂ with tempInsert := 0, altPtr := m.altPtr } :=
      SameView.of_slots rfl rfl
    obtain ⟨n₀, hn₀, hv, -⟩ := setLeaf_view hm₁ hreleased hn
    rw [hheap₁] at hn₀
    exact ⟨n₀, hn₀, hv⟩
  refine ⟨_, s₂, tree, hsplit, hinst, hinv, ?_, ?_, ?_, ?_, ⟨_, hindex ▸ hins⟩, ?_, ?_⟩
  · show Ok n tree.pm
    rw [htree]
    show Ok n s₁.pm
    rw [hsame, hpm]
    exact hok₂
  · intro k' v'
    rw [hcont, hcont₂]
  · exact hgrows₂.trans hgrows
  · refine hlodged₂.install (by rw [Function.update_self]; rfl) (fun hzero => ?_) hview
    rw [hroot]
    exact root_of_routes hL (hlevel ▸ hzero)
  · -- the old leaf and the new one both have 15 slots in use
    rintro b (rfl | rfl)
    · rw [hleft, Option.some.injEq] at hm₂
      have huse : m₂.maxUse = LEFT_KEY := by rw [← hm₂]; rfl
      refine ⟨{ m₂ with tempInsert := 0, altPtr := m.altPtr }, ?_, rfl, huse⟩
      show tree.dleafHeap b = _
      rw [htree]
      exact Function.update_self ..
    · have hne : s.tree.brk + 1 ≠ L := (hLlt.trans (Nat.lt_succ_self _)).ne'
      exact ⟨_, (hheap _ hne).trans hright, rfl, rfl⟩
  · intro b hb hb'
    exact (hheap b hb).trans (hoff b hb hb')

/-- The round that splits the leaf. The tree has inner nodes afterwards, and the leaf the key
then leads to has room. -/
theorem insert_full (h : Inv Cuts.empty tail s.tree) (hl : Lodged Cuts.empty s) {n : Nat}
    (hok : Ok (n + 1) s.tree.pm) (t : Tid) (v : Word) (len : BitVec 32) {path : List Cursor}
    (hfind : findInsert s.tree k = .ok (path, L)) (hm : s.tree.dleafHeap L = some m)
    (hfree : m.tempInsert = 0) (hfull : ¬ m.maxUse < MAX_LEAF_KEY) (hnew : Absent s.tree k)
    (fuel : Nat) :
    ∃ s', insert (fuel + 1) s t k v len = insert fuel s' t k v len ∧
      SplitDone tail { s with tree := s.tree.setLeaf L { m with tempInsert := 1 } } s' L n ∧
      1 ≤ s'.tree.tempLevel ∧
      ∃ path' L' m', findInsert s'.tree k = .ok (path', L') ∧ s'.tree.dleafHeap L' = some m' ∧
        m'.tempInsert = 0 ∧ m'.maxUse = LEFT_KEY := by
  have hroute := h.routes_of_find hfind
  have hview : SameView m { m with tempInsert := 1 } := SameView.of_slots rfl rfl
  have hlocked := h.lock hm rfl
  have hm₁ : (s.tree.setLeaf L { m with tempInsert := 1 }).dleafHeap L =
      some { m with tempInsert := 1 } := Function.update_self ..
  have hno : ∀ i, ¬ HasKey s.tree.pm { m with tempInsert := 1 } k i := fun i hi =>
    hnew L m i hm (hview.hasKey_iff.mp hi)
  have hdup : duplicate (s.tree.setLeaf L { m with tempInsert := 1 }).pm { m with tempInsert := 1 } k
      m.maxUse 0 = .ok false := duplicate_miss (hlocked.data.slots L _ hm₁) hno
  have hfull' : m.maxUse = MAX_LEAF_KEY :=
    Nat.le_antisymm (h.skel.leaf L m hm).1 (not_lt.mp hfull)
  have hfind₁ : findInsert (s.tree.setLeaf L { m with tempInsert := 1 }) k = .ok (path, L) := by
    rw [← hfind]
    refine findInsert_congr ?_ ?_ ?_ k <;> rfl
  -- the round splits the leaf and installs the separator
  obtain ⟨sk, s₂, tree, hsplit, hinst, hdone⟩ :=
    split_install (s := { s with tree := s.tree.setLeaf L { m with tempInsert := 1 } }) hlocked
      (hl.view hm hview) hok t hfind₁ hroute.mem hm₁ rfl hfull'
  obtain ⟨sk', hins⟩ := hdone.index
  refine ⟨{ s₂ with tree := tree }, ?_, hdone, ?_, ?_⟩
  · rw [insert, lockLeaf_free hfind hm hfree]
    simp only [ok_bind, Bool.not_true, Bool.false_eq_true, if_false, hm₁, deref_some, hdup,
      if_neg hfull, hsplit]
    have hinst' : installSeparator s₂.tree k sk L
        ((s.tree.setLeaf L { m with tempInsert := 1 }).brk + 1) m.altPtr = .ok tree := hinst
    simp only [hinst', ok_bind]
  · -- a tree without inner nodes has one leaf
    by_contra hzero
    have hlevel : tree.tempLevel = 0 := Nat.eq_zero_of_not_pos hzero
    have hL := root_of_routes ((hins.mem_labels L).mpr (Or.inl hroute.mem)) hlevel
    have hR := root_of_routes ((hins.mem_labels _).mpr (Or.inr rfl)) hlevel
    have hlt := (h.skel.leaf_lt L (mem_leaves_of_index hroute.mem)).2
    have heq : L = s.tree.brk + 1 := hL.symm.trans hR
    exact absurd (heq ▸ hlt) (Nat.not_lt.mpr (Nat.le_succ _))
  · obtain ⟨path', L', m', hfind', -, hroute', hm'⟩ := hdone.inv.reaches k
    have hcut := hins.routes_cut hlocked.data.sorted.of_expand hdone.inv.data.sorted.of_expand
      hlocked.skel.index_nodup hroute
    -- the key now leads to one of the two halves
    have hL' : L' = L ∨ L' = s.tree.brk + 1 := by
      split_ifs at hcut with hle
      · exact Or.inl (hroute'.unique hdone.inv.data.sorted.of_expand hcut)
      · exact Or.inr (hroute'.unique hdone.inv.data.sorted.of_expand hcut)
    obtain ⟨mh, hmh, hfreeh, huseh⟩ := hdone.halves L' hL'
    exact ⟨path', L', mh, hfind', hmh, hfreeh, huseh⟩

/-! ### find -/

/-- `find` after it has read a record, in a tree of which no leaf is held. -/
theorem cacheRecord_spec (h : Inv Cuts.empty tail s.tree) (hl : Lodged Cuts.empty s)
    (hlevel : 1 ≤ s.tree.tempLevel) (hm : s.tree.dleafHeap a = some m) (hfree : m.tempInsert = 0)
    {i : Nat} (hi : HasKey s.tree.pm m k i) :
    ∃ m' use full, cacheRecord s a i (m.ptr i) =
        .ok ⟨s.tree.setLeaf a m', use, full⟩ ∧ m'.tempInsert = 0 ∧
      Inv Cuts.empty tail (s.tree.setLeaf a m') ∧
      (∀ k v, (s.tree.setLeaf a m').Contains k v ↔ s.tree.Contains k v) ∧
      Grows s.tree (s.tree.setLeaf a m') ∧ Lodged Cuts.empty ⟨s.tree.setLeaf a m', use, full⟩ := by
  have hself : s.tree.setLeaf a m = s.tree := by
    unfold TreeState.setLeaf
    rw [← hm, Function.update_eq_self]
  have hrefl : SameView m m := SameView.of_slots rfl rfl
  have hstay := hl.view hm hrefl
  -- what is stored under the lock of the leaf
  have hstore : ∀ place, PlaceOK s a m i place → ∃ m' use,
      storePair { s with tree := s.tree.setLeaf a { m with tempInsert := 1 } } a i (m.ptr i) place =
        .ok { s with tree := s.tree.setLeaf a m', compactUse := use } ∧ m'.tempInsert = 0 ∧
      Inv Cuts.empty tail (s.tree.setLeaf a m') ∧
      (∀ k v, (s.tree.setLeaf a m').Contains k v ↔ s.tree.Contains k v) ∧
      Grows s.tree (s.tree.setLeaf a m') ∧
      Lodged Cuts.empty { s with tree := s.tree.setLeaf a m', compactUse := use } := by
    intro place hplace
    have hview : SameView m { m with tempInsert := 1 } := SameView.of_slots rfl rfl
    have hm₁ : (s.tree.setLeaf a { m with tempInsert := 1 }).dleafHeap a =
        some { m with tempInsert := 1 } := Function.update_self ..
    have hplace' : PlaceOK { s with tree := s.tree.setLeaf a { m with tempInsert := 1 } } a
        { m with tempInsert := 1 } i place := by
      cases place <;> exact hplace
    obtain ⟨m', use, hrun, -, hfree', hinv, hcont, hgrows, hlodged⟩ :=
      storePair_spec (s := { s with tree := s.tree.setLeaf a { m with tempInsert := 1 } })
        (h.lock hm rfl) (hl.view hm hview) hlevel hm₁ rfl (hview.hasKey_iff.mpr hi) hplace'
    -- taking the leaf and storing the pair are one write of the leaf
    have hidem : (s.tree.setLeaf a { m with tempInsert := 1 }).setLeaf a m' = s.tree.setLeaf a m' := by
      simp only [TreeState.setLeaf, Function.update_idem]
    dsimp only at hrun hinv hcont hgrows hlodged
    rw [hidem] at hrun hinv hcont hgrows hlodged
    refine ⟨m', use, hrun, hfree', hinv, fun k v => ?_, (Grows.setLeaf hm hview).trans hgrows, hlodged⟩
    rw [hcont, contains_setLeaf hm hview]
  have htake : takeLeaf s a = .ok (true, { s with tree := s.tree.setLeaf a { m with tempInsert := 1 } }) := by
    simp only [takeLeaf, hm, deref_some, ok_bind, if_pos hfree, pure_eq_ok]
  have hbranch : ∀ place, choosePlace s a m i = some place → PlaceOK s a m i place →
      cacheRecord s a i (m.ptr i) =
        storePair { s with tree := s.tree.setLeaf a { m with tempInsert := 1 } } a i (m.ptr i) place := by
    intro place hchoose hplace
    cases place with
    | nowhere => exact absurd hplace not_false
    | free => simp only [cacheRecord, hm, deref_some, ok_bind, hchoose, htake, if_true]
    | instead j => simp only [cacheRecord, hm, deref_some, ok_bind, hchoose, htake, if_true]
  cases hchoose : choosePlace s a m i with
  | none =>
    have hreleased : ({ m with tempInsert := 0 } : DLeaf) = m := by rw [← hfree]
    -- no cells for a pair: `compact_full` is set, and the leaf is as it was
    refine ⟨m, s.compactUse, Function.update s.compactFull a true, ?_, hfree, ?_⟩
    · simp only [cacheRecord, hm, deref_some, ok_bind, hchoose, giveUp, hreleased, pure_eq_ok]
    · rw [hself]
      exact ⟨h, fun _ _ => Iff.rfl, ⟨fun _ _ hv => hv, fun _ _ hs => hs⟩, ⟨hl.pairs, hl.use⟩⟩
  | some place =>
    rcases choosePlace_ok hchoose with rfl | hplace
    · refine ⟨m, s.compactUse, s.compactFull, ?_, hfree, ?_⟩
      · simp only [cacheRecord, hm, deref_some, ok_bind, hchoose, hself, pure_eq_ok]
      · rw [hself]
        exact ⟨h, fun _ _ => Iff.rfl, ⟨fun _ _ hv => hv, fun _ _ hs => hs⟩, hl⟩
    · obtain ⟨m', use, hrun, hrest⟩ := hstore place hplace
      exact ⟨m', use, s.compactFull, (hbranch place hchoose hplace).trans hrun, hrest⟩

/-! ### The map

`Cached` ties the tree with its cached pairs to a finite map: what `find` reads from a pair or from a record
is what the map says. An insertion takes at most two rounds, as no other thread runs. -/

/-- The tree stands for the map `M` of `N` keys, and its pairs are in order. Its root is a leaf up
to the insertion that finds it full. -/
structure Cached (n N : Nat) (tail : Addr) (s : CacheTree P) (M : Key → Option Word) : Prop where
  rep : Represents n tail s.tree M
  lodged : Lodged Cuts.empty s
  small : s.tree.tempLevel = 0 → ∀ m, s.tree.dleafHeap s.tree.root = some m → m.maxUse = N
  large : 1 ≤ s.tree.tempLevel → MAX_LEAF_KEY < N

section Cached

variable {n N : Nat} {M : Key → Option Word}

theorem Cached.level_iff (h : Cached n N tail s M) : s.tree.tempLevel = 0 ↔ N ≤ MAX_LEAF_KEY := by
  constructor
  · intro hlevel
    obtain ⟨path, L, m, -, -, hroute, hm⟩ := h.rep.inv.reaches 0
    rw [← root_of_routes hroute.mem hlevel] at hm
    rw [← h.small hlevel m hm]
    exact (h.rep.inv.skel.leaf _ m hm).1
  · intro hle
    by_contra hne
    exact absurd (h.large (Nat.pos_of_ne_zero hne)) (Nat.not_lt.mpr hle)

theorem Cached.insert (h : Cached (n + 2) N tail s M) (t : Tid) (hk : M k = none) (v : Word)
    (len : BitVec 32) : ∃ s', ReadCache.insert 2 s t k v len = .ok (true, s') ∧
      Cached n (N + 1) tail s' (Function.update M k (some v)) := by
  obtain ⟨path, L, m, hfind, -, hroute, hm⟩ := h.rep.inv.reaches k
  have hfree := h.rep.free L m hm
  have hnew := h.rep.absent hk
  have hcontent : ∀ {s' : CacheTree P}, (∀ k' v', s'.tree.Contains k' v' ↔
      s.tree.Contains k' v' ∨ (k' = k ∧ v' = v)) →
      ∀ k' v', s'.tree.Contains k' v' ↔ Function.update M k (some v) k' = some v' := by
    intro s' hcont k' v'
    rw [hcont, h.rep.content]
    by_cases hkk : k' = k
    · subst hkk
      simp [hk, eq_comm]
    · simp [hkk]
  by_cases hroom : m.maxUse < MAX_LEAF_KEY
  · obtain ⟨s', addr, hrun, hdone, hlevel, hroot, hheap⟩ := insert_room (n := n) h.rep.inv h.lodged
      (ok_mono (Nat.le_succ _) h.rep.room) t v len hfind hm hfree hroom hnew 1
    refine ⟨s', hrun, ⟨hdone.inv, hdone.room, hdone.free h.rep.free, hdone.grows.fresh h.rep.fresh,
      hcontent hdone.contains⟩, hdone.lodged, fun hzero m' hm' => ?_, fun hpos => ?_⟩
    · rw [hlevel] at hzero
      have hL := root_of_routes hroute.mem hzero
      rw [hroot, hL, hheap, Function.update_self, Option.some.injEq] at hm'
      have huse := h.small hzero m (hL ▸ hm)
      rw [← hm', ← huse]
      rfl
    · rw [hlevel] at hpos
      exact Nat.lt_succ_of_lt (h.large hpos)
  · -- the first round splits the leaf, the second finds room in one of its halves
    obtain ⟨s₁, hrun₁, hsplit, hpos, path', L', m', hfind', hm', hfree', huse'⟩ :=
      insert_full h.rep.inv h.lodged h.rep.room t v len hfind hm hfree hroom hnew 1
    have hview : SameView m { m with tempInsert := 1 } := SameView.of_slots rfl rfl
    have hcont₁ : ∀ k' v', s₁.tree.Contains k' v' ↔ s.tree.Contains k' v' := fun k' v' => by
      rw [hsplit.contains, contains_setLeaf hm hview]
    have hnew₁ : Absent s₁.tree k := by
      rw [absent_iff hsplit.inv.data.slots]
      intro v' hv'
      exact (absent_iff h.rep.inv.data.slots).mp hnew v' ((hcont₁ k v').mp hv')
    have hfree₁ : AllFree s₁.tree := by
      intro b n' hn'
      by_cases hb : b = L ∨ b = s.tree.brk + 1
      · obtain ⟨mh, hmh, hfreeh, -⟩ := hsplit.halves b hb
        rw [hn', Option.some.injEq] at hmh
        rw [hmh, hfreeh]
      · obtain ⟨hb₁, hb₂⟩ := not_or.mp hb
        rw [hsplit.others b hb₁ hb₂] at hn'
        simp only [TreeState.setLeaf, Function.update_of_ne hb₁] at hn'
        exact h.rep.free b n' hn'
    obtain ⟨s', addr, hrun, hdone, hlevel, -, -⟩ := insert_room hsplit.inv hsplit.lodged hsplit.room t v
      len hfind' hm' hfree' (by rw [huse']; decide) hnew₁ 0
    have hgrows := (Grows.setLeaf hm hview).trans (hsplit.grows.trans hdone.grows)
    have hpos' : 1 ≤ s'.tree.tempLevel := hlevel ▸ hpos
    refine ⟨s', hrun₁.trans hrun, ⟨hdone.inv, hdone.room, hdone.free hfree₁, hgrows.fresh h.rep.fresh,
      hcontent fun k' v' => ?_⟩, hdone.lodged, fun hzero => absurd hzero (Nat.ne_of_gt hpos'), fun _ => ?_⟩
    · rw [hdone.contains, hcont₁]
    · -- the full leaf was the root leaf, or there were more than a leaf's worth of keys
      apply Nat.lt_succ_of_le
      rcases Nat.eq_zero_or_pos s.tree.tempLevel with hzero | hpos₀
      · rw [← h.small hzero m ((root_of_routes hroute.mem hzero).symm ▸ hm)]
        exact not_lt.mp hroom
      · exact Nat.le_of_lt (h.large hpos₀)

theorem Cached.slot (h : Cached n N tail s M) (hroute : Routes s.tree.index k L)
    (hm : s.tree.dleafHeap L = some m) {v : Word} (hk : M k = some v) :
    ∃ i, HasKey s.tree.pm m k i ∧ logVal s.tree.pm (m.ptr i) = some v := by
  obtain ⟨b, mb, hb, i, hi, hval⟩ := (h.rep.content k v).mpr hk
  obtain rfl := h.rep.inv.data.found hroute rfl hb hi
  rw [hm, Option.some.injEq] at hb
  subst hb
  exact ⟨i, hi, hval⟩

theorem Cached.write (h : Cached n N tail s M) (hlevel : 1 ≤ s.tree.tempLevel) {m' : DLeaf}
    {use : Addr → Nat} {full : Addr → Bool} (hfree : m'.tempInsert = 0)
    (hinv : Inv Cuts.empty tail (s.tree.setLeaf a m'))
    (hcont : ∀ k v, (s.tree.setLeaf a m').Contains k v ↔ s.tree.Contains k v)
    (hgrows : Grows s.tree (s.tree.setLeaf a m'))
    (hlodged : Lodged Cuts.empty ⟨s.tree.setLeaf a m', use, full⟩) :
    Cached n N tail ⟨s.tree.setLeaf a m', use, full⟩ M := by
  refine ⟨⟨hinv, h.rep.room, allFree_setLeaf (fun b n' _ hn => h.rep.free b n' hn) hfree,
    hgrows.fresh h.rep.fresh, fun k v => (hcont k v).trans (h.rep.content k v)⟩, hlodged,
    fun hzero => ?_, h.large⟩
  exact absurd hzero (Nat.ne_of_gt hlevel)

theorem Cached.find (h : Cached n N tail s M) (hknown : s.tree.tempLevel = 0 → (M k).isSome) :
    ∃ s', ReadCache.find 1 s k = .ok ((M k).getD 0, s') ∧ Cached n N tail s' M := by
  have hinv := h.rep.inv
  obtain ⟨path, L, m, hfind, hdesc, hroute, hm⟩ := hinv.reaches k
  have hslots := hinv.data.slots L m hm
  by_cases hlevel : s.tree.tempLevel = 0
  · -- on the root leaf all slots are looked at, so the key has to be there
    obtain ⟨v, hv⟩ := Option.isSome_iff_exists.mp (hknown hlevel)
    obtain ⟨i, hi, hval⟩ := h.slot hroute hm hv
    have hrun := findRoot_hit hslots (hinv.skel.leaf _ m hm).1 hi hval
    refine ⟨s, ?_, h⟩
    rw [ReadCache.find, if_pos hlevel, root_of_routes hroute.mem hlevel]
    simp only [hm, deref_some, ok_bind, hrun, pure_eq_ok, hv, Option.getD_some]
  · have hpos := Nat.pos_of_ne_zero hlevel
    have hfree := h.rep.free L m hm
    have hfree' : ¬ 1 < m.tempInsert := by rw [hfree]; exact Nat.not_lt_zero 1
    cases hk : M k with
    | none =>
      have hrun := findSlots_miss hslots fun i => h.rep.absent hk L m i hm
      refine ⟨s, ?_, h⟩
      rw [ReadCache.find, if_neg hlevel]
      simp only [hdesc, ok_bind, hm, deref_some, if_neg hfree', hrun, pure_eq_ok, Option.getD_none]
    | some v =>
      obtain ⟨i, hi, hval⟩ := h.slot hroute hm hk
      have hrun := findSlots_hit hslots hi
      by_cases hc : m.maxUse ≤ m.control i
      · -- the pair of the slot carries the value of the record
        have hread : slotRead m i = .pair i (m.fingerPrint (m.control i + 1)).val := if_pos hc
        have hpair : s.tree.Contains k (m.fingerPrint (m.control i + 1)).val :=
          h.rep.fresh L m hm i k hi hc
        have hv : (m.fingerPrint (m.control i + 1)).val = v :=
          hinv.data.contains_unique hpair ⟨L, m, hm, i, hi, hval⟩
        have hview := sameView_touch m hi.1
        have htouch : (m.touch i).tempInsert = 0 := by
          unfold DLeaf.touch
          split_ifs <;> exact hfree
        refine ⟨{ s with tree := s.tree.setLeaf L (m.touch i) }, ?_,
          h.write hpos htouch (hinv.touch hm hi.1) (contains_setLeaf hm hview) (Grows.setLeaf hm hview)
            (h.lodged.view hm hview)⟩
        rw [ReadCache.find, if_neg hlevel]
        simp only [hdesc, ok_bind, hm, deref_some, if_neg hfree', hrun, hread, hv, pure_eq_ok,
          Option.getD_some]
      · have hread : slotRead m i = .record i (m.ptr i) := if_neg hc
        obtain ⟨m', use, full, hcache, hfree₁, hinv₁, hcont₁, hgrows₁, hlodged₁⟩ :=
          cacheRecord_spec hinv h.lodged hpos hm hfree hi
        refine ⟨_, ?_, h.write hpos hfree₁ hinv₁ hcont₁ hgrows₁ hlodged₁⟩
        rw [ReadCache.find, if_neg hlevel]
        simp only [hdesc, ok_bind, hm, deref_some, if_neg hfree', hrun, hread, hval, hcache, pure_eq_ok,
          Option.getD_some]

theorem Cached.findUncached (h : Cached n N tail s M)
    (hknown : s.tree.tempLevel = 0 → (M k).isSome) :
    ReadCache.findUncached 1 s k = .ok ((M k).getD 0, s) := by
  have hinv := h.rep.inv
  obtain ⟨path, L, m, hfind, hdesc, hroute, hm⟩ := hinv.reaches k
  have hslots := hinv.data.slots L m hm
  by_cases hlevel : s.tree.tempLevel = 0
  · obtain ⟨v, hv⟩ := Option.isSome_iff_exists.mp (hknown hlevel)
    obtain ⟨i, hi, hval⟩ := h.slot hroute hm hv
    have hrun := findRoot_hit hslots (hinv.skel.leaf _ m hm).1 hi hval
    rw [ReadCache.findUncached, if_pos hlevel, root_of_routes hroute.mem hlevel]
    simp only [hm, deref_some, ok_bind, hrun, pure_eq_ok, hv, Option.getD_some]
  · have hfree' : ¬ 1 < m.tempInsert := by
      rw [h.rep.free L m hm]
      exact Nat.not_lt_zero 1
    have hrun : findRoot s.tree.pm m k m.maxUse 0 = .ok ((M k).getD 0) := by
      cases hk : M k with
      | none => exact findRoot_miss hslots fun i => h.rep.absent hk L m i hm
      | some v =>
        obtain ⟨i, hi, hval⟩ := h.slot hroute hm hk
        exact findRoot_hit hslots (Nat.le_refl _) hi hval
    rw [ReadCache.findUncached, if_neg hlevel]
    simp only [hdesc, ok_bind, hm, deref_some, if_neg hfree', hrun, pure_eq_ok]

def Answers (tail : Addr) (look : CacheTree P → Key → Exec (Word × CacheTree P)) : Prop :=
  ∀ n N s M k, Cached n N tail s M → (s.tree.tempLevel = 0 → (M k).isSome) →
    ∃ s', look s k = .ok ((M k).getD 0, s') ∧ Cached n N tail s' M

theorem find_answers (tail : Addr) : Answers (P := P) tail (ReadCache.find 1) :=
  fun _ _ _ _ _ h hknown => h.find hknown

theorem findUncached_answers (tail : Addr) : Answers (P := P) tail (ReadCache.findUncached 1) :=
  fun _ _ s _ _ h hknown => ⟨s, h.findUncached hknown, h⟩

theorem Cached.step {look : CacheTree P → Key → Exec (Word × CacheTree P)} (hlook : Answers tail look)
    (h : Cached (n + 2) N tail s M) (t : Tid) (op : MapOp)
    (hnew : ∀ key val len, op = .insert key val len → M key = none)
    (hknown : ∀ key, op = .find key → s.tree.tempLevel = 0 → (M key).isSome) :
    ∃ s', cacheStep look t s op = .ok ((specStep M op).1, s') ∧
      Cached n (N + (insertedKeys [op]).length) tail s' (specStep M op).2 := by
  cases op with
  | insert key val len =>
    obtain ⟨s', hrun, hdone⟩ := h.insert t (hnew key val len rfl) val len
    exact ⟨s', by simp only [cacheStep, hrun, ok_bind, pure_eq_ok]; rfl, hdone⟩
  | find key =>
    obtain ⟨s', hrun, hdone⟩ := hlook _ _ s M key h (hknown key rfl)
    refine ⟨s', by simp only [cacheStep, hrun, ok_bind, pure_eq_ok]; rfl, ?_⟩
    exact ⟨⟨hdone.rep.inv, ok_mono (Nat.le_add_right n 2) hdone.rep.room, hdone.rep.free,
      hdone.rep.fresh, hdone.rep.content⟩, hdone.lodged, hdone.small, hdone.large⟩

/-- `find` is asked only for keys of `M` while there are at most `MAX_LEAF_KEY` keys. -/
def KnownBelow : Nat → (Key → Option Word) → List MapOp → Prop
  | _, _, [] => True
  | N, M, op :: ops =>
    (∀ key, op = .find key → N ≤ MAX_LEAF_KEY → (M key).isSome) ∧
      KnownBelow (N + (insertedKeys [op]).length) (specStep M op).2 ops

omit [Pmem P] [LawfulPmem P] in
theorem insertedKeys_cons (op : MapOp) (ops : List MapOp) :
    insertedKeys (op :: ops) = insertedKeys [op] ++ insertedKeys ops := by
  cases op <;> rfl

theorem new_after {op : MapOp} {ops : List MapOp} (hkeys : (insertedKeys (op :: ops)).Nodup)
    (hnew : ∀ k ∈ insertedKeys (op :: ops), M k = none) :
    (∀ key val len, op = .insert key val len → M key = none) ∧ (insertedKeys ops).Nodup ∧
      ∀ k ∈ insertedKeys ops, (specStep M op).2 k = none := by
  rw [insertedKeys_cons] at hkeys hnew
  obtain ⟨-, hkeys', hcross⟩ := List.nodup_append.mp hkeys
  refine ⟨fun key val len hop => hnew key (by subst hop; simp [insertedKeys]), hkeys', fun k hk => ?_⟩
  exact specStep_none (hnew k (List.mem_append_right _ hk)) fun hop => hcross k hop k hk rfl

theorem Cached.knownBelow (t : Tid) (ops : List MapOp) (h : Cached (2 * ops.length + n) N tail s M)
    (hkeys : (insertedKeys ops).Nodup) (hnew : ∀ k ∈ insertedKeys ops, M k = none)
    (hfinds : FindsKnown t s M ops) : KnownBelow N M ops := by
  induction ops generalizing s M N with
  | nil => trivial
  | cons op ops ih =>
    have hroom : 2 * (op :: ops).length + n = (2 * ops.length + n) + 2 := by
      simp only [List.length_cons]
      omega
    rw [hroom] at h
    obtain ⟨hnow, hkeys', hlater⟩ := new_after hkeys hnew
    obtain ⟨hknown, hrest⟩ := hfinds
    obtain ⟨s₁, hstep, hcached⟩ := h.step (find_answers tail) t op hnow hknown
    exact ⟨fun key hop hle => hknown key hop (h.level_iff.mpr hle),
      ih hcached hkeys' hlater (hrest _ _ hstep)⟩

/-- A whole run, by induction on the operations. -/
theorem Cached.run {look : CacheTree P → Key → Exec (Word × CacheTree P)} (hlook : Answers tail look)
    (t : Tid) (ops : List MapOp) (h : Cached (2 * ops.length + n) N tail s M)
    (hkeys : (insertedKeys ops).Nodup) (hnew : ∀ k ∈ insertedKeys ops, M k = none)
    (hfinds : KnownBelow N M ops) :
    ∃ s', cacheRun look t s ops = .ok ((specRun M ops).1, s') ∧
      Cached n (N + (insertedKeys ops).length) tail s' (specRun M ops).2 := by
  induction ops generalizing s M N with
  | nil =>
    rw [List.length_nil, Nat.mul_zero, Nat.zero_add] at h
    exact ⟨s, rfl, h⟩
  | cons op ops ih =>
    have hroom : 2 * (op :: ops).length + n = (2 * ops.length + n) + 2 := by
      simp only [List.length_cons]
      omega
    rw [hroom] at h
    obtain ⟨hnow, hkeys', hlater⟩ := new_after hkeys hnew
    obtain ⟨hknown, hrest⟩ := hfinds
    obtain ⟨s₁, hstep, hcached⟩ := h.step hlook t op hnow
      fun key hop hlevel => hknown key hop (h.level_iff.mp hlevel)
    obtain ⟨s', hrun, hcached'⟩ := ih hcached hkeys' hlater hrest
    refine ⟨s', ?_, ?_⟩
    · simp only [cacheRun, hstep, ok_bind, hrun, pure_eq_ok]
      rfl
    · rw [insertedKeys_cons, List.length_append, ← Nat.add_assoc]
      exact hcached'

theorem cached_init {pm : P} (hok : Ok (n + 1) pm) (t : Tid) (junkInner : Addr → InnerNode)
    (junkLeaf : Addr → DLeaf) (junkUse : Addr → Nat) (junkFull : Addr → Bool) :
    ∃ s, init pm t junkInner junkLeaf junkUse junkFull = .ok s ∧
      Cached n 0 (junkLeaf 1).next s fun _ => none := by
  obtain ⟨tree, hrun, hrep⟩ := represents_init (n := n) hok t junkInner junkLeaf
  obtain ⟨hlevel, hempty, hlodged⟩ := lodged_init hrun junkUse junkFull
  exact ⟨⟨tree, junkUse, junkFull⟩, by simp only [init, hrun, ok_bind, pure_eq_ok], hrep, hlodged,
    fun _ m hm => hempty _ m hm, fun hpos => absurd hlevel (Nat.ne_of_gt hpos)⟩

end Cached

/-- `find` returns what it would return without the cache: on any operations with distinct keys the
run of the variant and the run that reads every slot through its record give the answers of the
map, and at the end both searches answer any further question alike. -/
theorem read_cache_transparent (pm : P) (t : Tid) (junkInner : Addr → InnerNode)
    (junkLeaf : Addr → DLeaf) (junkUse : Addr → Nat) (junkFull : Addr → Bool) (ops : List MapOp)
    (hroom : Ok (2 * ops.length + 1) pm) (hkeys : (insertedKeys ops).Nodup)
    (hfinds : ∀ s, init pm t junkInner junkLeaf junkUse junkFull = .ok s →
      FindsKnown t s (fun _ => none) ops) :
    ∃ s₀ answers s u, init pm t junkInner junkLeaf junkUse junkFull = .ok s₀ ∧
      cacheRun (find 1) t s₀ ops = .ok (answers, s) ∧
      cacheRun (findUncached 1) t s₀ ops = .ok (answers, u) ∧
      answers = (specRun (fun _ => none) ops).1 ∧
      ∀ key, (s.tree.tempLevel = 0 → key ∈ insertedKeys ops) → ∃ v s' s'',
        find 1 s key = .ok (v, s') ∧ findUncached 1 s key = .ok (v, s'') := by
  obtain ⟨s₀, hinit, hcached₀⟩ := cached_init (n := 2 * ops.length) hroom t junkInner junkLeaf junkUse
    junkFull
  have hbelow := Cached.knownBelow (n := 0) t ops hcached₀ hkeys (fun _ _ => rfl) (hfinds s₀ hinit)
  obtain ⟨s, hrun, hcached⟩ := Cached.run (n := 0) (find_answers _) t ops hcached₀ hkeys
    (fun _ _ => rfl) hbelow
  obtain ⟨u, hrun', -⟩ := Cached.run (n := 0) (findUncached_answers _) t ops hcached₀ hkeys
    (fun _ _ => rfl) hbelow
  refine ⟨s₀, _, s, u, hinit, hrun, hrun', rfl, fun key hkey => ?_⟩
  have hknown : s.tree.tempLevel = 0 → ((specRun (fun _ => none) ops).2 key).isSome := fun hlevel =>
    (specRun_isSome ops _ key).mpr (Or.inr (hkey hlevel))
  obtain ⟨s', hfind, -⟩ := hcached.find hknown
  exact ⟨_, s', s, hfind, hcached.findUncached hknown⟩

/-- Forty insertions, with searches before and after the split; the last but one reads an inline pair. -/
def cachedOps : List MapOp :=
  insertOps (scattered.take 20) ++ [.find 18] ++ insertOps (scattered.drop 20) ++ [.find 18, .find 18, .find 40]

/-- In the end the two cells behind the 20 slots of the first leaf hold a pair. -/
theorem read_cache_transparent_split : ∃ s₀ answers s u,
    init (IdealPm.roomy 100) 0 zeroInner zeroLeaf (fun _ => 0) (fun _ => false) = .ok s₀ ∧
      cacheRun (find 1) 0 s₀ cachedOps = .ok (answers, s) ∧
      cacheRun (findUncached 1) 0 s₀ cachedOps = .ok (answers, u) ∧
      s.tree.tempLevel = 1 ∧ (s.tree.dleafHeap 1).map (·.maxUse) = some 20 ∧ s.compactUse 1 = 22 := by
  obtain ⟨s₀, answers, s, u, hinit, hrun, hrun', -⟩ := read_cache_transparent (IdealPm.roomy 100) 0
    zeroInner zeroLeaf (fun _ => 0) (fun _ => false) cachedOps
    (IdealPm.roomy_lawful (by decide) (by decide)) (by decide +kernel)
    (fun s₀ _ => findsPresent_known (by decide +kernel))
  have hfacts : (init (IdealPm.roomy 100) 0 zeroInner zeroLeaf (fun _ => 0) (fun _ => false) >>= fun s₀ =>
      cacheRun (find 1) 0 s₀ cachedOps).toOption.map (fun r =>
        (r.2.tree.tempLevel, (r.2.tree.dleafHeap 1).map (·.maxUse), r.2.compactUse 1)) =
      some (1, some 20, 22) := by
    decide +kernel
  rw [hinit, ok_bind, hrun] at hfacts
  obtain ⟨hlevel, hrest⟩ := Prod.mk.inj (Option.some.inj hfacts)
  exact ⟨s₀, answers, s, u, hinit, hrun, hrun', hlevel, Prod.mk.inj hrest⟩

end ReadCache

end ZBTree
