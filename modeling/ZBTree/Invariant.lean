import ZBTree.Skeleton

/-!
# The invariant of the tree

What the sections of `insert` keep, over any memory with the contract `LawfulPmem`: the
leaves are sorted by their bounds, every live key lies in the range of its leaf, every
slot points to a record of its own, the buffer of a leaf that is being split holds the
records of both halves, and the `P_Leaf` chain runs along the leaves. What the inline
pairs say about values, which an in-place update breaks, is kept apart.
-/

namespace ZBTree

open RangeIndex LinkedList Pmem

variable {P : Type} [Pmem P]

namespace TreeState

def altOf (s : TreeState P) (a : Addr) : Addr :=
  match s.dleafHeap a with
  | none => 0
  | some m => m.altPtr

/-- The `P_Leaf` of a leaf: its `alt_ptr`, unless that points to the split buffer. -/
def pleafOf (s : TreeState P) (cuts : Cuts) (a : Addr) : Addr :=
  match cuts a with
  | none => s.altOf a
  | some c => c.pleaf

omit [Pmem P] in
theorem altOf_some {s : TreeState P} {a : Addr} {m : DLeaf} (h : s.dleafHeap a = some m) :
    s.altOf a = m.altPtr := by
  simp [altOf, h]

def Contains (s : TreeState P) (k : Key) (v : Word) : Prop :=
  ∃ a m, s.dleafHeap a = some m ∧ Holds s.pm m k v

end TreeState

/-- `P_Leaf::next`. -/
def pnext (p : P) (q : Addr) : Addr :=
  match pleaf p q with
  | none => 0
  | some l => l.next

theorem pnext_some {p : P} {q : Addr} {l : PLeaf} (h : pleaf p q = some l) : pnext p q = l.next := by
  simp [pnext, h]

/-- The buffer of the cut leaf `m` holds the records of `m` and of its other half `mr`. -/
def BufferOK (p : P) (m mr : DLeaf) (buf : Nat → NodeEntry) : Prop :=
  ∀ k v, (∃ i, i < MAX_LEAF_KEY ∧ buf i = ⟨k, v⟩) ↔ Holds p m k v ∨ Holds p mr k v

variable [LawfulPmem P]

/-- The records and the key ranges. -/
structure Data (cuts : Cuts) (s : TreeState P) : Prop where
  sorted : Sorted (s.leaves cuts)
  slots : ∀ a m, s.dleafHeap a = some m → SlotsOK s.pm m
  recs : ∀ a m i, s.dleafHeap a = some m → i < m.maxUse → m.ptr i ∈ LawfulPmem.recs s.pm
  range : ∀ a m k i, s.dleafHeap a = some m → HasKey s.pm m k i → Routes (s.leaves cuts) k a
  buffer : ∀ a c m mr, cuts a = some c → s.dleafHeap a = some m → s.dleafHeap c.right = some mr →
    m.altPtr < s.brk ∧ ∃ buf, s.bufHeap m.altPtr = some buf ∧ BufferOK s.pm m mr buf

/-- Where the records are, whatever the slots say about them: the part of `Data` that does
not depend on the inline pairs or on keys being held once. -/
structure Located (cuts : Cuts) (s : TreeState P) : Prop where
  sorted : Sorted (s.leaves cuts)
  recs : ∀ a m i, s.dleafHeap a = some m → i < m.maxUse → m.ptr i ∈ LawfulPmem.recs s.pm
  range : ∀ a m k i, s.dleafHeap a = some m → HasKey s.pm m k i → Routes (s.leaves cuts) k a

theorem Data.located {cuts : Cuts} {s : TreeState P} (h : Data cuts s) : Located cuts s :=
  ⟨h.sorted, h.recs, h.range⟩

/-- The `P_Leaf` chain runs along the leaves. -/
structure Twin (cuts : Cuts) (s : TreeState P) : Prop where
  mem : ∀ a ∈ labels (s.leaves cuts), s.pleafOf cuts a ∈ LawfulPmem.leaves s.pm
  nodup : ((labels (s.leaves cuts)).map (s.pleafOf cuts)).Nodup
  chain : Seg (pnext s.pm) s.leafStart ((labels (s.leaves cuts)).map (s.pleafOf cuts)) 0

structure Inv (cuts : Cuts) (tail : Addr) (s : TreeState P) : Prop where
  skel : Skeleton cuts tail s
  data : Data cuts s
  twin : Twin cuts s

/-- The inline pairs of every leaf carry values that `W` allows. -/
def PairsIn (W : Key → Word → Prop) (s : TreeState P) : Prop :=
  ∀ a m, s.dleafHeap a = some m → ValsOK W s.pm m

def PairsFresh (s : TreeState P) : Prop := PairsIn s.Contains s

/-- From `s` to `s'` nothing is lost, and new inline pairs say what is in `s'`. -/
structure Grows (s s' : TreeState P) : Prop where
  mono : ∀ k v, s.Contains k v → s'.Contains k v
  pairs : ∀ W : Key → Word → Prop, (∀ k v, s'.Contains k v → W k v) → PairsIn W s → PairsIn W s'

variable {cuts : Cuts} {tail a L : Addr} {s : TreeState P} {m m' : DLeaf} {k : Key}

/-! ### Where a key is

The inner nodes lead every key to the leaf whose range holds it. For a leaf that is cut this leaf may be the left
half although the key is in the right one; the split buffer has both. -/

theorem Data.unique (h : Data cuts s) {a b : Addr} {ma mb : DLeaf} {i j : Nat}
    (ha : s.dleafHeap a = some ma) (hb : s.dleafHeap b = some mb) (hi : HasKey s.pm ma k i)
    (hj : HasKey s.pm mb k j) : a = b ∧ i = j := by
  obtain rfl := (h.range a ma k i ha hi).unique h.sorted (h.range b mb k j hb hj)
  rw [ha] at hb
  cases hb
  exact ⟨rfl, (h.slots a ma ha).distinct i j k hi hj⟩

theorem Data.contains_unique (h : Data cuts s) {v v' : Word} (hv : s.Contains k v)
    (hv' : s.Contains k v') : v = v' := by
  obtain ⟨a, m, ha, hm⟩ := hv
  obtain ⟨b, m', hb, hm'⟩ := hv'
  obtain ⟨i, hi, hval⟩ := id hm
  obtain ⟨j, hj, hval'⟩ := id hm'
  obtain ⟨rfl, -⟩ := h.unique ha hb hi hj
  rw [ha] at hb
  cases hb
  exact hm.unique (h.slots a m ha) hm'

theorem Data.found (h : Data cuts s) {b : Addr} {mb : DLeaf} {i : Nat} (hL : Routes s.index k L)
    (hcut : cuts L = none) (hb : s.dleafHeap b = some mb) (hi : HasKey s.pm mb k i) : b = L := by
  have hpend : cuts.pend L = none := by simp [Cuts.pend, hcut]
  exact (h.range b mb k i hb hi).unique h.sorted (hL.expand h.sorted hpend)

theorem Data.found_cut (h : Data cuts s) (hs : Skeleton cuts tail s) {b : Addr} {mb : DLeaf}
    {i : Nat} {c : Cut} (hL : Routes s.index k L) (hcut : cuts L = some c)
    (hb : s.dleafHeap b = some mb) (hi : HasKey s.pm mb k i) : b = L ∨ b = c.right := by
  have hpend : cuts.pend L = some (c.key, c.right) := by simp [Cuts.pend, hcut]
  have hhalf := hL.expand_cut h.sorted hs.nodup hpend
  split_ifs at hhalf with hle
  · exact Or.inl ((h.range b mb k i hb hi).unique h.sorted hhalf)
  · exact Or.inr ((h.range b mb k i hb hi).unique h.sorted hhalf)

theorem Inv.reaches (h : Inv cuts tail s) (key : Key) :
    ∃ path leaf m, findInsert s key = .ok (path, leaf) ∧
      descendFrom s key s.tempLevel s.root = .ok leaf ∧ Routes s.index key leaf ∧
      s.dleafHeap leaf = some m := by
  obtain ⟨path, leaf, hfind, hpath, hroutes⟩ := h.skel.upper.findInsert_spec key
  have hmem : leaf ∈ labels s.index := hpath.1.mem_labels ⊥
  obtain ⟨m, hm⟩ := h.skel.of_index hmem
  exact ⟨path, leaf, m, hfind, descend_of_findInsert hfind, hroutes h.data.sorted.of_expand, hm⟩

theorem Inv.routes_of_find (h : Inv cuts tail s) {key : Key} {path : List Cursor} {leaf : Addr}
    (hfind : findInsert s key = .ok (path, leaf)) : Routes s.index key leaf := by
  obtain ⟨path', leaf', m, hfind', -, hroute, -⟩ := h.reaches key
  rw [hfind] at hfind'
  cases hfind'
  exact hroute

/-- A live key is found at the leaf it leads to: in the split buffer while the leaf is
cut, in a slot otherwise. -/
theorem Inv.located (h : Inv cuts tail s) (hroute : Routes s.index k L) (hm : s.dleafHeap L = some m)
    {v : Word} (hv : s.Contains k v) :
    (m.tempInsert = 2 ∧ ∃ buf i, s.bufHeap m.altPtr = some buf ∧ i < MAX_LEAF_KEY ∧ buf i = ⟨k, v⟩ ∧
      ∀ j, j < MAX_LEAF_KEY → (buf j).oneKey = k → (buf j).val = v) ∨
      (m.tempInsert ≤ 1 ∧ Holds s.pm m k v) := by
  obtain ⟨b, mb, hb, i, hi, hval⟩ := hv
  have hlock := (h.skel.leaf L m hm).2
  cases hcut : cuts L with
  | none =>
    right
    rw [hcut] at hlock
    obtain rfl := h.data.found hroute hcut hb hi
    rw [hm, Option.some.injEq] at hb
    subst hb
    exact ⟨hlock, i, hi, hval⟩
  | some c =>
    left
    rw [hcut] at hlock
    have hpend : cuts.pend L = some (c.key, c.right) := by simp [Cuts.pend, hcut]
    have hright : c.right ∈ labels (s.leaves cuts) :=
      mem_labels_expand.mpr (Or.inr ⟨L, hroute.mem, c.key, hpend⟩)
    obtain ⟨mr, hmr⟩ := (h.skel.heap c.right).mpr hright
    obtain ⟨-, buf, hbuf, hok⟩ := h.data.buffer L c m mr hcut hm hmr
    have hhalf : Holds s.pm m k v ∨ Holds s.pm mr k v := by
      rcases h.data.found_cut h.skel hroute hcut hb hi with rfl | rfl
      · rw [hm, Option.some.injEq] at hb
        subst hb
        exact Or.inl ⟨i, hi, hval⟩
      · rw [hmr, Option.some.injEq] at hb
        subst hb
        exact Or.inr ⟨i, hi, hval⟩
    obtain ⟨j, hj, hentry⟩ := (hok k v).mpr hhalf
    refine ⟨hlock, buf, j, hbuf, hj, hentry, fun j' hj' hkey => ?_⟩
    -- every entry is a record of one of the halves
    have hcont : s.Contains k (buf j').val := by
      rcases (hok k (buf j').val).mp ⟨j', hj', by rw [← hkey]⟩ with hl | hr
      · exact ⟨L, m, hm, hl⟩
      · exact ⟨c.right, mr, hmr, hr⟩
    exact h.data.contains_unique hcont ⟨b, mb, hb, i, hi, hval⟩

/-! ### Writing a leaf that keeps its slots -/

omit [Pmem P] [LawfulPmem P] in
theorem setLeaf_heap {b : Addr} {n : DLeaf} (hn : (s.setLeaf a m').dleafHeap b = some n) :
    (b = a ∧ n = m') ∨ (b ≠ a ∧ s.dleafHeap b = some n) := by
  by_cases hb : b = a
  · subst hb
    simp only [TreeState.setLeaf, Function.update_self, Option.some.injEq] at hn
    exact Or.inl ⟨rfl, hn.symm⟩
  · simp only [TreeState.setLeaf, Function.update_of_ne hb] at hn
    exact Or.inr ⟨hb, hn⟩

omit [Pmem P] [LawfulPmem P] in
theorem setLeaf_ptrs (hm : s.dleafHeap a = some m) (hptrs : SamePtrs m m') {b : Addr} {n : DLeaf}
    (hn : (s.setLeaf a m').dleafHeap b = some n) :
    ∃ n₀, s.dleafHeap b = some n₀ ∧ SamePtrs n₀ n ∧ (n = n₀ ∨ b = a ∧ n₀ = m ∧ n = m') := by
  rcases setLeaf_heap hn with ⟨rfl, rfl⟩ | ⟨-, hn⟩
  · exact ⟨m, hm, hptrs, Or.inr ⟨rfl, rfl, rfl⟩⟩
  · exact ⟨n, hn, ⟨rfl, fun _ _ => rfl⟩, Or.inl rfl⟩

omit [Pmem P] [LawfulPmem P] in
theorem setLeaf_view (hm : s.dleafHeap a = some m) (hview : SameView m m') {b : Addr} {n : DLeaf}
    (hn : (s.setLeaf a m').dleafHeap b = some n) :
    ∃ n₀, s.dleafHeap b = some n₀ ∧ SameView n₀ n ∧ (n = n₀ ∨ b = a ∧ n₀ = m ∧ n = m') := by
  rcases setLeaf_heap hn with ⟨rfl, rfl⟩ | ⟨-, hn⟩
  · exact ⟨m, hm, hview, Or.inr ⟨rfl, rfl, rfl⟩⟩
  · exact ⟨n, hn, SameView.of_slots rfl rfl, Or.inl rfl⟩

theorem Located.rewrite (h : Located cuts s) (hm : s.dleafHeap a = some m) (hptrs : SamePtrs m m') :
    Located cuts (s.setLeaf a m') where
  sorted := h.sorted
  recs b n i hn hi := by
    obtain ⟨n₀, hn₀, hp, -⟩ := setLeaf_ptrs hm hptrs hn
    rw [hp.use] at hi
    rw [hp.ptr i hi]
    exact h.recs b n₀ i hn₀ hi
  range b n k i hn hi := by
    obtain ⟨n₀, hn₀, hp, -⟩ := setLeaf_ptrs hm hptrs hn
    exact h.range b n₀ k i hn₀ (hp.hasKey_iff.mp hi)

theorem Located.setLeaf (h : Located cuts s) (hm : s.dleafHeap a = some m) (hview : SameView m m') :
    Located cuts (s.setLeaf a m') := h.rewrite hm hview.samePtrs

/-- Writing a leaf that can be searched and points to the same records. -/
theorem Data.rewrite (h : Data cuts s) (hm : s.dleafHeap a = some m) (hptrs : SamePtrs m m')
    (hslots : SlotsOK s.pm m') (halt : (cuts a).isSome → m'.altPtr = m.altPtr) :
    Data cuts (s.setLeaf a m') := by
  obtain ⟨hsorted, hrecs, hrange⟩ := h.located.rewrite hm hptrs
  refine ⟨hsorted, ?_, hrecs, hrange, ?_⟩
  · intro b n hn
    rcases setLeaf_heap hn with ⟨rfl, rfl⟩ | ⟨-, hn⟩
    · exact hslots
    · exact h.slots b n hn
  · intro b c n nr hc hn hnr
    obtain ⟨n₀, hn₀, hp, hwhich⟩ := setLeaf_ptrs hm hptrs hn
    obtain ⟨nr₀, hnr₀, hpr, -⟩ := setLeaf_ptrs hm hptrs hnr
    obtain ⟨hlt, buf, hbuf, hok⟩ := h.buffer b c n₀ nr₀ hc hn₀ hnr₀
    have halt' : n.altPtr = n₀.altPtr := by
      rcases hwhich with rfl | ⟨rfl, rfl, rfl⟩
      · rfl
      · exact halt (by rw [hc]; rfl)
    rw [halt']
    refine ⟨hlt, buf, hbuf, fun k v => ?_⟩
    have hpn : Holds s.pm n k v ↔ Holds s.pm n₀ k v := hp.holds_iff
    have hpnr : Holds s.pm nr k v ↔ Holds s.pm nr₀ k v := hpr.holds_iff
    exact (hok k v).trans (or_congr hpn hpnr).symm

theorem Data.setLeaf (h : Data cuts s) (hm : s.dleafHeap a = some m) (hview : SameView m m')
    (halt : (cuts a).isSome → m'.altPtr = m.altPtr) : Data cuts (s.setLeaf a m') :=
  h.rewrite hm hview.samePtrs (SlotsOK.view hview (h.slots a m hm)) halt

omit [LawfulPmem P] in
theorem PairsIn.rewrite {W : Key → Word → Prop} (h : PairsIn W s) (hvals : ValsOK W s.pm m') :
    PairsIn W (s.setLeaf a m') := by
  intro b n hn
  rcases setLeaf_heap hn with ⟨rfl, rfl⟩ | ⟨-, hn⟩
  · exact hvals
  · exact h b n hn

omit [LawfulPmem P] in
theorem PairsIn.setLeaf {W : Key → Word → Prop} (h : PairsIn W s) (hm : s.dleafHeap a = some m)
    (hview : SameView m m') : PairsIn W (s.setLeaf a m') :=
  h.rewrite (ValsOK.view hview (h a m hm))

omit [LawfulPmem P] in
theorem Grows.fresh {s' : TreeState P} (h : Grows s s') (hfresh : PairsFresh s) : PairsFresh s' :=
  h.pairs _ (fun _ _ hv => hv) fun b n hn => (hfresh b n hn).mono h.mono

omit [LawfulPmem P] in
theorem Grows.trans {s' s'' : TreeState P} (h : Grows s s') (h' : Grows s' s'') : Grows s s'' where
  mono k v hv := h'.mono k v (h.mono k v hv)
  pairs W hW hs := h'.pairs W hW (h.pairs W (fun k v hv => hW k v (h'.mono k v hv)) hs)

omit [LawfulPmem P] in
theorem contains_rewrite (hm : s.dleafHeap a = some m) (hptrs : SamePtrs m m') (k : Key) (v : Word) :
    (s.setLeaf a m').Contains k v ↔ s.Contains k v := by
  constructor
  · rintro ⟨b, n, hn, hv⟩
    obtain ⟨n₀, hn₀, hp, -⟩ := setLeaf_ptrs hm hptrs hn
    exact ⟨b, n₀, hn₀, hp.holds_iff.mp hv⟩
  · rintro ⟨b, n, hn, hv⟩
    by_cases hb : b = a
    · subst hb
      rw [hm, Option.some.injEq] at hn
      subst hn
      have hv' : Holds s.pm m' k v := hptrs.holds_iff.mpr hv
      exact ⟨b, m', by simp [TreeState.setLeaf], hv'⟩
    · exact ⟨b, n, by simp [TreeState.setLeaf, Function.update_of_ne hb, hn], hv⟩

omit [LawfulPmem P] in
theorem contains_setLeaf (hm : s.dleafHeap a = some m) (hview : SameView m m') (k : Key) (v : Word) :
    (s.setLeaf a m').Contains k v ↔ s.Contains k v := contains_rewrite hm hview.samePtrs k v

omit [LawfulPmem P] in
theorem Grows.setLeaf (hm : s.dleafHeap a = some m) (hview : SameView m m') :
    Grows s (s.setLeaf a m') where
  mono k v hv := (contains_setLeaf hm hview k v).mpr hv
  pairs _ _ hs := hs.setLeaf hm hview

theorem Twin.congr {s' : TreeState P} (h : Twin cuts s) (hleaves : s'.leaves cuts = s.leaves cuts)
    (hpm : s'.pm = s.pm) (hstart : s'.leafStart = s.leafStart)
    (halt : ∀ b ∈ labels (s.leaves cuts), s'.pleafOf cuts b = s.pleafOf cuts b) : Twin cuts s' := by
  have hmap : (labels (s'.leaves cuts)).map (s'.pleafOf cuts) =
      (labels (s.leaves cuts)).map (s.pleafOf cuts) := by
    rw [hleaves]
    exact List.map_congr_left halt
  refine ⟨?_, ?_, ?_⟩
  · intro b hb
    rw [hleaves] at hb
    rw [halt b hb, hpm]
    exact h.mem b hb
  · rw [hmap]
    exact h.nodup
  · rw [hmap, hpm, hstart]
    exact h.chain

theorem Twin.setLeaf (h : Twin cuts s) (hm : s.dleafHeap a = some m)
    (halt : cuts a = none → m'.altPtr = m.altPtr) : Twin cuts (s.setLeaf a m') := by
  refine h.congr rfl rfl rfl fun b _ => ?_
  unfold TreeState.pleafOf
  by_cases hb : b = a
  · subst hb
    cases hc : cuts b with
    | none => simp [TreeState.altOf, TreeState.setLeaf, hm, halt hc]
    | some c => rfl
  · simp [TreeState.altOf, TreeState.setLeaf, Function.update_of_ne hb]

theorem Inv.rewrite (h : Inv cuts tail s) (hm : s.dleafHeap a = some m) (hptrs : SamePtrs m m')
    (hslots : SlotsOK s.pm m') (hnext : m'.next = m.next) (halt : m'.altPtr = m.altPtr)
    (hlock : LockOK (cuts a) m') : Inv cuts tail (s.setLeaf a m') where
  skel := h.skel.setLeaf hm hnext (hptrs.use ▸ (h.skel.leaf a m hm).1) hlock
  data := h.data.rewrite hm hptrs hslots fun _ => halt
  twin := h.twin.setLeaf hm fun _ => halt

theorem Inv.setLeaf (h : Inv cuts tail s) (hm : s.dleafHeap a = some m) (hview : SameView m m')
    (hnext : m'.next = m.next) (halt : m'.altPtr = m.altPtr) (hlock : LockOK (cuts a) m') :
    Inv cuts tail (s.setLeaf a m') :=
  h.rewrite hm hview.samePtrs (SlotsOK.view hview (h.data.slots a m hm)) hnext halt hlock

end ZBTree
