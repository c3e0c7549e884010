import ZBTree.LiveKeys
import ZBTree.PmemRuns

/-!
# The bounds that the P_Leafs keep

`max_key` of a `P_Leaf` is written in two places of `zbtree.cpp` only: `split_leaf` sets it for both
halves, and `simply_remove` clears it when the leaf is empty. Insertions and other removals change the
keys of the leaf under it.

A split gives the left half the separator that goes into the inner nodes. So the bound of a leaf and
the separator above it begin as the same key, and they stay the same key as long as the leaf is not
emptied and is not split after its greatest key has gone. The runs with this property are those of
`RunKeepsBounds`, and in them every key finds its leaf under a bound that covers it, because the inner
nodes have led it there.
-/

namespace ZBTree

open RangeIndex LinkedList Pmem

variable {P : Type} [Pmem P]

/-- `max_key` of a `P_Leaf`. -/
def maxKeyAt (p : P) (q : Addr) : Key :=
  match pleaf p q with
  | none => 0
  | some l => l.maxKey

theorem maxKeyAt_some {p : P} {q : Addr} {l : PLeaf} (h : pleaf p q = some l) :
    maxKeyAt p q = l.maxKey := by
  simp [maxKeyAt, h]

theorem SameLeaves.maxKeyAt {A : Set Addr} {p p' : P} (h : SameLeaves A p p') {q : Addr}
    (hq : q ∈ A) : maxKeyAt p' q = maxKeyAt p q := by
  unfold ZBTree.maxKeyAt
  rw [h q hq]

namespace TreeState

def LiveIn (s : TreeState P) (a : Addr) (k : Key) : Prop :=
  ∃ m i, s.dleafHeap a = some m ∧ HasKey s.pm m k i

/-- `max_key` of the `P_Leaf` of a leaf. -/
def maxKeyOf (s : TreeState P) (a : Addr) : Key := maxKeyAt s.pm (s.altOf a)

end TreeState

/-! ### What the recorded bounds say -/

/-- Along the `P_Leaf` chain the bounds of all leaves but the last increase strictly, and they
separate the live keys. -/
structure BoundsUsable (s : TreeState P) (leaves : List Addr) : Prop where
  chain : Seg (pnext s.pm) s.leafStart (leaves.map s.altOf) 0
  readable : ∀ a ∈ leaves, ∃ l, pleaf s.pm (s.altOf a) = some l
  heap : ∀ a, (∃ m, s.dleafHeap a = some m) ↔ a ∈ leaves
  increasing : leaves.dropLast.Pairwise fun a b => s.maxKeyOf a < s.maxKeyOf b
  above : leaves.Pairwise fun a b => ∀ k, s.LiveIn b k → s.maxKeyOf a < k
  within : ∀ a ∈ leaves.dropLast, ∀ k, s.LiveIn a k → k ≤ s.maxKeyOf a

theorem BoundsUsable.mem_dropLast {s : TreeState P} {leaves : List Addr} (h : BoundsUsable s leaves)
    {a : Addr} (ha : a ∈ leaves) (hnext : pnext s.pm (s.altOf a) ≠ 0) : a ∈ leaves.dropLast := by
  have hne : leaves ≠ [] := List.ne_nil_of_mem ha
  have hsplit := List.dropLast_append_getLast hne
  rw [← hsplit] at ha
  rcases List.mem_append.mp ha with ha | ha
  · exact ha
  · have hchain := h.chain
    rw [← hsplit, List.map_append, ← List.mem_singleton.mp ha] at hchain
    obtain ⟨q, -, hlast⟩ := seg_append.mp hchain
    exact absurd hlast.2 hnext

/-- Unless its leaf is the last, a recorded bound is the separator above the leaf. -/
def Bounds (s : TreeState P) : Prop :=
  ∀ x ∈ s.index, (∃ y ∈ s.index, x.1 < y.1) →
    IsLeast {b | x.1 < b ∧ ∃ y ∈ s.index, y.1 = b} (s.maxKeyOf x.2 : WithBot Key)

variable [LawfulPmem P] {tail L a : Addr} {s s' : TreeState P} {m : DLeaf} {k : Key}

theorem Live.routes (h : Live Cuts.empty tail s) (hk : s.LiveIn a k) : Routes s.index k a := by
  obtain ⟨m, i, hm, hi⟩ := hk
  have hr := h.located.range a m k i hm hi
  rwa [TreeState.leaves_empty] at hr

theorem Live.sorted (h : Live Cuts.empty tail s) : Sorted s.index := h.located.sorted.of_expand

theorem Live.mem_pleaves (h : Live Cuts.empty tail s) (ha : a ∈ labels s.index) :
    s.altOf a ∈ LawfulPmem.leaves s.pm := h.twin.mem a (mem_leaves_of_index ha)

theorem Live.chain (h : Live Cuts.empty tail s) :
    Seg (pnext s.pm) s.leafStart ((labels s.index).map s.altOf) 0 := by
  have hchain := h.twin.chain
  rw [TreeState.leaves_empty] at hchain
  exact hchain

theorem Live.alt_nodup (h : Live Cuts.empty tail s) : ((labels s.index).map s.altOf).Nodup := by
  have hnodup := h.twin.nodup
  rw [TreeState.leaves_empty] at hnodup
  exact hnodup

theorem Live.above_bound (h : Live Cuts.empty tail s) {x : WithBot Key × Addr} (hx : x ∈ s.index)
    (hk : s.LiveIn x.2 k) : x.1 < k := by
  obtain ⟨lo, hmem, hlo, -⟩ := h.routes hk
  rwa [bound_eq h.skel.index_nodup hx hmem]

theorem Live.upto_bound (h : Live Cuts.empty tail s) {x y : WithBot Key × Addr} (hx : x ∈ s.index)
    (hy : y ∈ s.index) (hxy : x.1 < y.1) (hk : s.LiveIn x.2 k) : (k : WithBot Key) ≤ y.1 := by
  obtain ⟨lo, hmem, -, hnext⟩ := h.routes hk
  rw [bound_eq h.skel.index_nodup hx hmem] at hxy
  exact hnext y hy hxy

omit [LawfulPmem P] in
theorem Bounds.le_above (hb : Bounds s) {x y : WithBot Key × Addr} (hx : x ∈ s.index) (hy : y ∈ s.index)
    (hxy : x.1 < y.1) : (s.maxKeyOf x.2 : WithBot Key) ≤ y.1 :=
  (hb x hx ⟨y, hy, hxy⟩).2 ⟨hxy, y, hy, rfl⟩

theorem Bounds.covers (hb : Bounds s) (h : Live Cuts.empty tail s) {x : WithBot Key × Addr} (hx : x ∈ s.index)
    (hlater : ∃ y ∈ s.index, x.1 < y.1) (hk : s.LiveIn x.2 k) : k ≤ s.maxKeyOf x.2 := by
  obtain ⟨⟨hlt, y, hy, heq⟩, -⟩ := hb x hx hlater
  have hle := h.upto_bound hx hy (heq ▸ hlt) hk
  rw [heq] at hle
  exact WithBot.coe_le_coe.mp hle

/-- Usable bounds, from the bounds of the index. -/
theorem Bounds.usable (hb : Bounds s) (h : Live Cuts.empty tail s) {n : Nat}
    (hok : LawfulPmem.Ok n s.pm) : BoundsUsable s (labels s.index) := by
  have hsorted := h.sorted
  -- what lies before the last leaf has the last leaf after it
  have hlast : ∀ x ∈ s.index.dropLast, ∃ y ∈ s.index, x.1 < y.1 := by
    intro x hx
    have hne : s.index ≠ [] := by
      intro hnil
      rw [hnil] at hx
      exact absurd hx (by simp)
    have hsplit := List.dropLast_append_getLast hne
    have hsorted' := hsorted
    rw [← hsplit] at hsorted'
    exact ⟨s.index.getLast hne, List.getLast_mem hne,
      (List.pairwise_append.mp hsorted').2.2 x hx _ (List.mem_singleton_self _)⟩
  have hdrop : (labels s.index).dropLast = labels s.index.dropLast := by
    simp only [labels, List.map_dropLast]
  have hmem : ∀ x ∈ s.index.dropLast, x ∈ s.index := fun x hx => List.dropLast_subset _ hx
  refine ⟨h.chain, ?_, ?_, ?_, ?_, ?_⟩
  · intro a ha
    obtain ⟨-, l, hl⟩ := LawfulPmem.leaf_read hok (h.mem_pleaves ha)
    exact ⟨l, hl⟩
  · intro a
    rw [h.skel.heap, TreeState.leaves_empty]
  · rw [hdrop]
    refine List.pairwise_map.mpr ?_
    have hsub : Sorted s.index.dropLast := hsorted.sublist (List.dropLast_sublist _)
    refine List.Pairwise.imp_of_mem ?_ hsub
    intro x y hx hy hxy
    -- the bound of `x` is at most the separator below `y`, and that of `y` lies above it
    have hle := hb.le_above (hmem x hx) (hmem y hy) hxy
    exact WithBot.coe_lt_coe.mp (hle.trans_lt (hb y (hmem y hy) (hlast y hy)).1.1)
  · refine List.pairwise_map.mpr (List.Pairwise.imp_of_mem ?_ hsorted)
    intro x y hx hy hxy k hk
    exact WithBot.coe_lt_coe.mp ((hb.le_above hx hy hxy).trans_lt (h.above_bound hy hk))
  · rw [hdrop]
    intro a ha k hk
    obtain ⟨x, hx, rfl⟩ := List.mem_map.mp ha
    exact hb.covers h (hmem x hx) (hlast x hx) hk

/-! ### The last leaf -/

/-- The last leaf is the one whose `P_Leaf` has no next. -/
theorem Live.exists_later (h : Live Cuts.empty tail s) {n : Nat} (hok : LawfulPmem.Ok n s.pm)
    {x : WithBot Key × Addr} (hx : x ∈ s.index) (hm : s.dleafHeap x.2 = some m) :
    (∃ y ∈ s.index, x.1 < y.1) ↔ pnext s.pm m.altPtr ≠ 0 := by
  obtain ⟨X, Y, hF⟩ := List.append_of_mem hx
  have hsorted := h.sorted
  have hchain := h.chain
  rw [hF] at hsorted hchain
  simp only [labels, List.map_append, List.map_cons, TreeState.altOf_some hm] at hchain
  obtain ⟨q, -, -, hrest⟩ := seg_append.mp hchain
  cases Y with
  | nil =>
    have hzero : pnext s.pm m.altPtr = 0 := hrest
    refine iff_of_false ?_ (not_not.mpr hzero)
    rintro ⟨y, hy, hxy⟩
    rw [hF] at hy
    rcases List.mem_append.mp hy with hX | hy
    · exact absurd (hsorted.lt_of_before hX) (not_lt.mpr hxy.le)
    · rw [List.mem_singleton.mp hy] at hxy
      exact lt_irrefl _ hxy
  | cons y Y =>
    have hy : y ∈ s.index := by
      rw [hF]
      simp
    refine iff_of_true ⟨y, hy, hsorted.lt_of_after List.mem_cons_self⟩ ?_
    have hnext : pnext s.pm m.altPtr = s.altOf y.2 := hrest.1
    rw [hnext]
    exact (LawfulPmem.leaf_read hok (h.mem_pleaves (List.mem_map.mpr ⟨y, hy, rfl⟩))).1

/-! ### Steps that keep the index -/

omit [LawfulPmem P] in
theorem Bounds.congr (hb : Bounds s) (hindex : s'.index = s.index)
    (hmax : ∀ x ∈ s.index, (∃ y ∈ s.index, x.1 < y.1) → s'.maxKeyOf x.2 = s.maxKeyOf x.2) : Bounds s' := by
  intro x hx hlater
  rw [hindex] at hx hlater ⊢
  rw [hmax x hx hlater]
  exact hb x hx hlater

omit [Pmem P] [LawfulPmem P] in
theorem altOf_setLeaf {m' : DLeaf} (hm : s.dleafHeap a = some m) (halt : m'.altPtr = m.altPtr) :
    (s.setLeaf a m').altOf = s.altOf := by
  funext b
  by_cases hb : b = a
  · subst hb
    simp [TreeState.altOf, TreeState.setLeaf, hm, halt]
  · simp [TreeState.altOf, TreeState.setLeaf, Function.update_of_ne hb]

omit [LawfulPmem P] in
theorem liveIn_setLeaf {m' : DLeaf} (hm : s.dleafHeap a = some m) (hview : SameView m m') {b : Addr} :
    (s.setLeaf a m').LiveIn b k ↔ s.LiveIn b k := by
  constructor
  · rintro ⟨n, i, hn, hi⟩
    obtain ⟨n₀, hn₀, hv, -⟩ := setLeaf_view hm hview hn
    exact ⟨n₀, i, hn₀, hv.hasKey_iff.mp hi⟩
  · rintro ⟨n, i, hn, hi⟩
    by_cases hb : b = a
    · subst hb
      rw [hm, Option.some.injEq] at hn
      subst hn
      exact ⟨m', i, Function.update_self .., hview.hasKey_iff.mpr hi⟩
    · exact ⟨n, i, (Function.update_of_ne hb _ _).trans hn, hi⟩

omit [LawfulPmem P] in
theorem Bounds.setLeaf {m' : DLeaf} (hb : Bounds s) (hm : s.dleafHeap a = some m)
    (halt : m'.altPtr = m.altPtr) : Bounds (s.setLeaf a m') := by
  refine hb.congr rfl fun x _ _ => ?_
  unfold TreeState.maxKeyOf
  rw [altOf_setLeaf hm halt]
  rfl

/-- The live keys after a record has been appended and its slot filled. -/
theorem Live.fill_liveIn (h : Live Cuts.empty tail s) (hm : s.dleafHeap a = some m) {pm : P}
    {addr b : Addr} {k' : Key} (hlt : addr < 2 ^ 48) (hkey : logKey pm addr = some k)
    (hsame : SameRecs (LawfulPmem.recs s.pm) s.pm pm) :
    (({ s with pm := pm } : TreeState P).setLeaf a (m.push k addr)).LiveIn b k' ↔
      s.LiveIn b k' ∨ (b = a ∧ k' = k) := by
  have hslots : ∀ {b n}, s.dleafHeap b = some n → SameSlots s.pm pm n := fun {b n} hn =>
    sameSlots_of_recs hsame fun i hi => h.located.recs b n i hn hi
  constructor
  · rintro ⟨n', i, hn, hi⟩
    rcases fillState_heap hn with ⟨rfl, rfl⟩ | ⟨-, hn⟩
    · rcases (push_hasKey_iff (hslots hm) hlt hkey).mp hi with hi | ⟨-, rfl⟩
      · exact Or.inl ⟨m, i, hm, hi⟩
      · exact Or.inr ⟨rfl, rfl⟩
    · exact Or.inl ⟨n', i, hn, (hasKey_congr (hslots hn)).mp hi⟩
  · rintro (⟨n', i, hn, hi⟩ | ⟨rfl, rfl⟩)
    · by_cases hba : b = a
      · subst hba
        rw [hm, Option.some.injEq] at hn
        subst hn
        exact ⟨m.push k addr, i, Function.update_self ..,
          (push_hasKey_iff (hslots hm) hlt hkey).mpr (Or.inl hi)⟩
      · exact ⟨n', i, (Function.update_of_ne hba _ _).trans hn, (hasKey_congr (hslots hn)).mpr hi⟩
    · exact ⟨m.push k' addr, m.maxUse, Function.update_self ..,
        (push_hasKey_iff (hslots hm) hlt hkey).mpr (Or.inr ⟨rfl, rfl⟩)⟩

theorem Bounds.fill (hb : Bounds s) (h : Live Cuts.empty tail s) {n : Nat}
    (hok : LawfulPmem.Ok (n + 1) s.pm) {t : Tid} {v : Word} {len : BitVec 32}
    (hm : s.dleafHeap a = some m) (hroute : Routes s.index k a) (hroom : m.maxUse < MAX_LEAF_KEY)
    (hrun : fillSlot s t k v len a = .ok s') :
    Bounds s' ∧ Live Cuts.empty tail s' ∧ LawfulPmem.Ok n s'.pm := by
  have hroute' : Routes (s.leaves Cuts.empty) k a := by
    rw [TreeState.leaves_empty]
    exact hroute
  obtain ⟨addr, pm, rfl, -, -, -, -, hsameL, hok', hlive⟩ := h.fill hok hm hroute' rfl hroom hrun
  refine ⟨hb.congr rfl fun x hx _ => ?_, hlive, hok'⟩
  have hmem := h.mem_pleaves (List.mem_map.mpr ⟨x, hx, rfl⟩)
  have halt : (({ s with pm := pm } : TreeState P).setLeaf a (m.push k addr)).altOf = s.altOf :=
    altOf_setLeaf (s := { s with pm := pm }) hm rfl
  unfold TreeState.maxKeyOf
  rw [halt]
  exact hsameL.maxKeyAt hmem

/-! ### Splits -/

section Divided

variable {σ : Equiv.Perm Nat} {buf : Nat → NodeEntry} {n : Nat}

omit [LawfulPmem P] in
theorem SplitOf.liveIn (hsp : SplitOf s L m σ buf) {i : Nat} (hi : i < MAX_LEAF_KEY) :
    s.LiveIn L (buf (σ i)).oneKey := ⟨m, σ i, hsp.leaf, hsp.hasKey hi⟩

theorem Divided.live_left (hd : Divided tail s s' L m σ buf n) (h : Live Cuts.empty tail s)
    (hsp : SplitOf s L m σ buf) : s'.LiveIn L (buf (σ SPLIT_POS)).oneKey ∧
      ∀ k, s'.LiveIn L k → s.LiveIn L k ∧ k ≤ (buf (σ SPLIT_POS)).oneKey := by
  obtain ⟨l, -, hl, hhalf, -⟩ := hd.left
  have hslots : SameSlots s.pm s'.pm l :=
    sameSlots_of_recs hd.same_recs fun j hj => hhalf.ptr_mem h.located hsp (Nat.zero_le _) hj
  constructor
  · refine ⟨l, SPLIT_POS, hl, (hasKey_congr hslots).mpr ?_⟩
    exact (hhalf.hasKey_iff hsp.perm (Nat.zero_le _) hsp.full _ _).mpr
      ⟨by decide, hsp.hasKey (by decide)⟩
  · rintro k ⟨l', i, hl', hi⟩
    rw [hl, Option.some.injEq] at hl'
    subst hl'
    obtain ⟨hlt, rfl⟩ := hhalf.key_eq h.located hsp hd.same_recs (Nat.zero_le _) hi
    simp only [LEFT_KEY, MAX_LEAF_KEY] at hlt
    exact ⟨hsp.liveIn (by simp only [MAX_LEAF_KEY]; omega),
      hsp.le (by simp only [SPLIT_POS, MAX_LEAF_KEY]; omega) (by decide)⟩

theorem Divided.others_same (hd : Divided tail s s' L m σ buf n) (h : Live Cuts.empty tail s)
    (hm : s.dleafHeap L = some m) {b : Addr} (hb : b ∈ labels s.index) (hbL : b ≠ L) :
    (∀ k, s'.LiveIn b k ↔ s.LiveIn b k) ∧ s'.maxKeyOf b = s.maxKeyOf b := by
  have hbR : b ≠ s.brk + 1 := by
    rintro rfl
    exact absurd (h.skel.leaf_lt _ (mem_leaves_of_index hb)).2 (Nat.not_lt.mpr (Nat.le_succ _))
  have hheap := hd.others b hbL hbR
  constructor
  · intro k
    unfold TreeState.LiveIn
    rw [hheap]
    refine exists_congr fun m₁ => exists_congr fun i => and_congr_right fun hm₁ => hasKey_congr ?_
    exact sameSlots_of_recs hd.same_recs fun j hj => h.located.recs b m₁ j hm₁ hj
  · have halt : s'.altOf b = s.altOf b := by simp only [TreeState.altOf, hheap]
    unfold TreeState.maxKeyOf
    rw [halt]
    refine hd.same_leaves.maxKeyAt ⟨h.mem_pleaves hb, fun heq => hbL ?_⟩
    have heq' : s.altOf b = s.altOf L := heq.trans (TreeState.altOf_some hm).symm
    have hL : L ∈ labels s.index := by
      have := (h.skel.heap L).mp ⟨m, hm⟩
      rwa [TreeState.leaves_empty] at this
    exact List.inj_on_of_nodup_map h.alt_nodup hb hL heq'

theorem Divided.max_left (hd : Divided tail s s' L m σ buf n) :
    s'.maxKeyOf L = (buf (σ SPLIT_POS)).oneKey := by
  obtain ⟨l, pl, hl, -, -, -, hpl, hmax⟩ := hd.left
  unfold TreeState.maxKeyOf
  rw [TreeState.altOf_some hl, maxKeyAt_some hpl, hmax]

theorem Divided.max_right (hd : Divided tail s s' L m σ buf n) :
    s'.maxKeyOf (s.brk + 1) = (buf (σ (MAX_LEAF_KEY - 1))).oneKey := by
  obtain ⟨r, pr, hr, -, -, hpr, hmax⟩ := hd.right
  unfold TreeState.maxKeyOf
  rw [TreeState.altOf_some hr, maxKeyAt_some hpr, hmax]

/-- Where the entry of the new leaf stands: right after that of the old one. -/
theorem Divided.place (hd : Divided tail s s' L m σ buf n) {x : WithBot Key × Addr}
    (hx : x ∈ s.index) (hxL : x.2 = L) :
    x.1 < ((buf (σ SPLIT_POS)).oneKey : WithBot Key) ∧
      (∀ y ∈ s.index, x.1 < y.1 → ((buf (σ SPLIT_POS)).oneKey : WithBot Key) < y.1) ∧
      ∀ y ∈ s.index, y.2 ≠ L → y.1 < ((buf (σ SPLIT_POS)).oneKey : WithBot Key) → y.1 < x.1 := by
  obtain ⟨X, lo, Y, hF, hF'⟩ := hd.index
  have hsorted' := hd.live.sorted
  have hnodup' := hd.live.skel.index_nodup
  rw [hF'] at hsorted' hnodup'
  have hx' : x ∈ X ++ (lo, L) :: ((buf (σ SPLIT_POS)).oneKey, s.brk + 1) :: Y := by
    rw [hF] at hx
    simp only [List.mem_append, List.mem_cons] at hx ⊢
    tauto
  have hself : (lo, L) ∈ X ++ (lo, L) :: ((buf (σ SPLIT_POS)).oneKey, s.brk + 1) :: Y := by simp
  have hxe : x.1 = lo := by
    obtain ⟨lo', b⟩ := x
    subst hxL
    exact bound_eq hnodup' hx' hself
  rw [hxe]
  have hright := hsorted'.lt_of_after (q := ((buf (σ SPLIT_POS)).oneKey, s.brk + 1))
    List.mem_cons_self
  refine ⟨hright, ?_, ?_⟩
  · intro y hy hlt
    rw [hF] at hy
    rcases List.mem_append.mp hy with hX | hy
    · exact absurd (hsorted'.lt_of_before hX) (not_lt.mpr hlt.le)
    · rcases List.mem_cons.mp hy with rfl | hy
      · exact absurd hlt (lt_irrefl _)
      · rw [List.append_cons] at hsorted'
        exact hsorted'.lt_of_after hy
  · intro y hy hyL hlt
    rw [hF] at hy
    rcases List.mem_append.mp hy with hX | hy
    · exact hsorted'.lt_of_before hX
    · rcases List.mem_cons.mp hy with rfl | hy
      · exact absurd rfl hyL
      · rw [List.append_cons] at hsorted'
        exact absurd (hsorted'.lt_of_after hy) (not_lt.mpr hlt.le)

omit [LawfulPmem P] in
theorem SplitOf.keyAt_le (hsp : SplitOf s L m σ buf) {i : Nat} (hi : i < MAX_LEAF_KEY) :
    ZBTree.keyAt s.pm m i ≤ (buf (σ (MAX_LEAF_KEY - 1))).oneKey := by
  obtain ⟨j, ⟨-, hj⟩, rfl⟩ := hsp.perm.exists_preimage ⟨Nat.zero_le i, Nat.le_pred_of_lt hi⟩
  rw [hsp.keyAt (Nat.lt_of_le_of_lt hj (by decide))]
  exact hsp.le hj (by decide)

/-- A split keeps the bounds if the greatest key of the leaf is its bound, or the leaf is the last. The
left half gets the new separator, and the right half takes over the separator above the old leaf. -/
theorem Divided.bounds (hd : Divided tail s s' L m σ buf n) (h : Live Cuts.empty tail s)
    (hsp : SplitOf s L m σ buf) (hb : Bounds s)
    (htop : ∀ x ∈ s.index, x.2 = L → (∃ y ∈ s.index, x.1 < y.1) →
      (buf (σ (MAX_LEAF_KEY - 1))).oneKey = s.maxKeyOf L) : Bounds s' := by
  obtain ⟨e, he, heL⟩ := List.mem_map.mp hd.index.left_mem
  obtain ⟨hright, hafter, hbefore⟩ := hd.place he heL
  have hnew : (((buf (σ SPLIT_POS)).oneKey : WithBot Key), s.brk + 1) ∈ s'.index :=
    (hd.index.mem_iff _).mpr (Or.inr rfl)
  have hold : ∀ y ∈ s.index, y ∈ s'.index := fun y hy => (hd.index.mem_iff y).mpr (Or.inl hy)
  intro x hx hlater
  -- a leaf with one after it: the left half, another leaf, or the right half
  rcases (hd.index.mem_iff x).mp hx with hx | rfl
  · by_cases hxL : x.2 = L
    · -- the left half: the new separator comes right after its own
      have hxe : x.1 = e.1 := by
        have he' : (e.1, x.2) ∈ s.index := by
          rw [hxL, ← heL]
          exact he
        exact bound_eq h.skel.index_nodup hx he'
      rw [hxL, hd.max_left, hxe]
      refine ⟨⟨hright, _, hnew, rfl⟩, ?_⟩
      rintro b ⟨hlt, y, hy, rfl⟩
      rcases (hd.index.mem_iff y).mp hy with hy | rfl
      · exact (hafter y hy hlt).le
      · exact le_refl _
    · -- another leaf: what lies above it in the new index lies above something of the old one
      have hlater' : ∀ y ∈ s'.index, x.1 < y.1 → ∃ y' ∈ s.index, x.1 < y'.1 ∧ y'.1 ≤ y.1 := by
        intro y hy hxy
        rcases (hd.index.mem_iff y).mp hy with hy | rfl
        · exact ⟨y, hy, hxy, le_refl _⟩
        · exact ⟨e, he, hbefore x hx hxL hxy, hright.le⟩
      obtain ⟨y, hy, hxy⟩ := hlater
      obtain ⟨y', hy', hxy', -⟩ := hlater' y hy hxy
      obtain ⟨⟨hlt, z, hz, hzb⟩, hleast⟩ := hb x hx ⟨y', hy', hxy'⟩
      rw [(hd.others_same h hsp.leaf (List.mem_map.mpr ⟨x, hx, rfl⟩) hxL).2]
      refine ⟨⟨hlt, z, hold z hz, hzb⟩, ?_⟩
      rintro b ⟨hxb, w, hw, rfl⟩
      obtain ⟨w', hw', hxw', hle⟩ := hlater' w hw hxb
      exact (hleast ⟨hxw', w', hw', rfl⟩).trans hle
  · -- the right half: its greatest key is the separator above the old leaf
    obtain ⟨y, hy, hlt⟩ := hlater
    have hys : y ∈ s.index := by
      rcases (hd.index.mem_iff y).mp hy with hy | rfl
      · exact hy
      · exact absurd hlt (lt_irrefl _)
    have hlater' : ∃ y ∈ s.index, e.1 < y.1 := ⟨y, hys, hright.trans hlt⟩
    obtain ⟨⟨hez, z, hz, hzb⟩, hleast⟩ := hb e he hlater'
    rw [heL, ← htop e he heL hlater'] at hez hzb hleast
    rw [hd.max_right]
    refine ⟨⟨?_, z, hold z hz, hzb⟩, ?_⟩
    · rw [← hzb]
      exact hafter z hz (hzb ▸ hez)
    · rintro b ⟨hlt', w, hw, rfl⟩
      rcases (hd.index.mem_iff w).mp hw with hw | rfl
      · exact hleast ⟨hright.trans hlt', w, hw, rfl⟩
      · exact absurd hlt' (lt_irrefl _)

theorem SplitOf.top_eq (hsp : SplitOf s L m σ buf) (h : Live Cuts.empty tail s) (hb : Bounds s)
    {i : Nat} (hi : i < MAX_LEAF_KEY) (hkey : ZBTree.keyAt s.pm m i = s.maxKeyOf L)
    {x : WithBot Key × Addr} (hx : x ∈ s.index) (hxL : x.2 = L) (hlater : ∃ y ∈ s.index, x.1 < y.1) :
    (buf (σ (MAX_LEAF_KEY - 1))).oneKey = s.maxKeyOf L := by
  have hlive : s.LiveIn L (buf (σ (MAX_LEAF_KEY - 1))).oneKey := hsp.liveIn (by decide)
  subst hxL
  exact le_antisymm (hb.covers h hx hlater hlive) (hkey ▸ hsp.keyAt_le hi)

end Divided

/-! ### Removals -/

section Drop

variable {n n' i : Nat} {pm : P}

theorem drop_maxKeyOf (hm : s.dleafHeap a = some m)
    (hrem : Removed (m.maxUse - 1 = 0) n s.pm (m.ptr i) m.altPtr pm) (hleft : m.maxUse - 1 ≠ 0) :
    (({ s with pm := pm } : TreeState P).setLeaf a (m.dropSlot i)).maxKeyOf a = s.maxKeyOf a := by
  have hself : (({ s with pm := pm } : TreeState P).setLeaf a (m.dropSlot i)).dleafHeap a =
      some (m.dropSlot i) := Function.update_self ..
  obtain ⟨l, hl, hl'⟩ := hrem.pleaf
  unfold TreeState.maxKeyOf
  rw [TreeState.altOf_some hself, TreeState.altOf_some hm]
  change maxKeyAt pm m.altPtr = maxKeyAt s.pm m.altPtr
  rw [maxKeyAt_some hl', if_neg hleft, maxKeyAt_some hl]

theorem Live.drop_others (h : Live Cuts.empty tail s) (hm : s.dleafHeap a = some m)
    (hrem : Removed (m.maxUse - 1 = 0) n s.pm (m.ptr i) m.altPtr pm) {b : Addr}
    (hb : b ∈ labels s.index) (hba : b ≠ a) :
    (({ s with pm := pm } : TreeState P).setLeaf a (m.dropSlot i)).maxKeyOf b = s.maxKeyOf b := by
  have hheap : (({ s with pm := pm } : TreeState P).setLeaf a (m.dropSlot i)).dleafHeap b =
      s.dleafHeap b := Function.update_of_ne hba _ _
  have halt : (({ s with pm := pm } : TreeState P).setLeaf a (m.dropSlot i)).altOf b = s.altOf b := by
    simp only [TreeState.altOf, hheap]
  unfold TreeState.maxKeyOf
  rw [halt]
  refine hrem.same_leaves.maxKeyAt ⟨h.mem_pleaves hb, fun heq => hba ?_⟩
  -- no two leaves share a `P_Leaf`
  have heq' : s.altOf b = s.altOf a := heq.trans (TreeState.altOf_some hm).symm
  have ha : a ∈ labels s.index := by
    have := (h.skel.heap a).mp ⟨m, hm⟩
    rwa [TreeState.leaves_empty] at this
  exact List.inj_on_of_nodup_map h.alt_nodup hb ha heq'

theorem Bounds.drop (hb : Bounds s) (h : Live Cuts.empty tail s) (hok : LawfulPmem.Ok n' s.pm)
    (hm : s.dleafHeap a = some m) (hi : i < m.maxUse)
    (hrem : Removed (m.maxUse - 1 = 0) n s.pm (m.ptr i) m.altPtr pm)
    (hlast : m.maxUse = 1 → pnext s.pm m.altPtr = 0) :
    Bounds (({ s with pm := pm } : TreeState P).setLeaf a (m.dropSlot i)) := by
  refine hb.congr rfl fun x hx hlater => ?_
  by_cases hxa : x.2 = a
  · subst hxa
    refine drop_maxKeyOf hm hrem fun hempty => ?_
    exact (h.exists_later hok hx hm).mp hlater (hlast (by omega))
  · exact h.drop_others hm hrem (List.mem_map.mpr ⟨x, hx, rfl⟩) hxa

end Drop

/-! ### Runs -/

/-- The condition on an operation. A full leaf that an insertion splits has two different keys in its
middle and, unless the leaf is the last, still holds the key that its `P_Leaf` has for `max_key`. A
removal frees nothing but the record it removes, and empties no leaf but the last. -/
def KeepsBounds (s : TreeState P) (t : Tid) : ThreadOp → Prop
  | .insert key _ _ => ∀ path L m, findInsert s key = .ok (path, L) → s.dleafHeap L = some m →
      duplicate s.pm m key m.maxUse 0 = .ok false → m.maxUse = MAX_LEAF_KEY →
      CutsCleanly s.pm m ∧
        (pnext s.pm m.altPtr ≠ 0 → ∃ i, i < MAX_LEAF_KEY ∧ keyAt s.pm m i = maxKeyAt s.pm m.altPtr)
  | .remove key => ∀ path L m i p, findInsert s key = .ok (path, L) → s.dleafHeap L = some m →
      removeSlot s.pm m key m.maxUse 0 = .ok (some i) → freeRecord s.pm t (m.ptr i) = some p →
      FreesOnly s.pm (m.ptr i) p ∧ (m.maxUse = 1 → pnext s.pm m.altPtr = 0)

def RunKeepsBounds (n : Nat) : TreeState P → List (Tid × ThreadOp) → Prop
  | _, [] => True
  | s, (t, op) :: rest => KeepsBounds s t op ∧
      ∀ b s', op.exec n s t = .ok (b, s') → RunKeepsBounds n s' rest

theorem Bounds.lastRound (hb : Bounds s) (h : Live Cuts.empty tail s) {n : Nat}
    (hok : LawfulPmem.Ok (n + 1) s.pm) {t : Tid} {v : Word} {len : BitVec 32} {b : Bool}
    (hround : LastRound s t k v len b s') :
    Bounds s' ∧ Live Cuts.empty tail s' ∧ LawfulPmem.Ok n s'.pm := by
  obtain ⟨path, L, m, hfind, hm, -, hround⟩ := hround
  have hview : SameView m { m with tempInsert := 1 } := SameView.of_slots rfl rfl
  have hlive := h.setLeaf hm hview rfl rfl (by simp [LockOK, Cuts.empty])
  have hbounds : Bounds (s.setLeaf L { m with tempInsert := 1 }) := hb.setLeaf hm rfl
  rcases hround with ⟨-, -, rfl⟩ | ⟨-, -, hroom, hfill⟩
  · exact ⟨hbounds, hlive, LawfulPmem.ok_mono (Nat.le_succ n) hok⟩
  · have hm₁ : (s.setLeaf L { m with tempInsert := 1 }).dleafHeap L =
        some { m with tempInsert := 1 } := Function.update_self ..
    exact hbounds.fill hlive hok hm₁ (h.routes_of_find hfind) hroom hfill

theorem Bounds.insert (hb : Bounds s) (h : Live Cuts.empty tail s) {n : Nat}
    (hok : LawfulPmem.Ok (n + 2) s.pm) {t : Tid} {v : Word} {len : BitVec 32} {fuel : Nat} {b : Bool}
    (hapart : ∀ path L m, findInsert s k = .ok (path, L) → s.dleafHeap L = some m →
      duplicate s.pm m k m.maxUse 0 = .ok false → m.maxUse = MAX_LEAF_KEY →
      HalvesApart (s.setLeaf L { m with tempInsert := 1 }) L { m with tempInsert := 1 })
    (htop : ∀ path L m, findInsert s k = .ok (path, L) → s.dleafHeap L = some m →
      duplicate s.pm m k m.maxUse 0 = .ok false → m.maxUse = MAX_LEAF_KEY →
      pnext s.pm m.altPtr ≠ 0 → ∃ i, i < MAX_LEAF_KEY ∧ keyAt s.pm m i = maxKeyAt s.pm m.altPtr)
    (hrun : ZBTree.insert fuel s t k v len = .ok (b, s')) :
    Bounds s' ∧ Live Cuts.empty tail s' ∧ LawfulPmem.Ok n s'.pm := by
  rcases h.insert_rounds (n := n + 1) hok hrun hapart with
    hround | ⟨path, L, m, s₁, σ, buf, hfind, hm, -, hfull, hdup, hlive, hsp, hd, hround⟩
  · exact hb.lastRound h (LawfulPmem.ok_mono (Nat.le_succ _) hok) hround
  · -- the leaf is split in the first round, and the second one fills a slot of a half
    have hb₁ : Bounds (s.setLeaf L { m with tempInsert := 1 }) := hb.setLeaf hm rfl
    have hm₁ : (s.setLeaf L { m with tempInsert := 1 }).dleafHeap L =
        some { m with tempInsert := 1 } := Function.update_self ..
    refine (hd.bounds hlive hsp hb₁ fun x hx hxL hlater => ?_).lastRound hd.live hd.room hround
    have hmx : (s.setLeaf L { m with tempInsert := 1 }).dleafHeap x.2 =
        some { m with tempInsert := 1 } := hxL ▸ hm₁
    have hnext : pnext s.pm m.altPtr ≠ 0 := (hlive.exists_later hok hx hmx).mp hlater
    obtain ⟨i, hi, hkey⟩ := htop path L m hfind hm hdup hfull hnext
    refine hsp.top_eq hlive hb₁ hi (hkey.trans ?_) hx hxL hlater
    unfold TreeState.maxKeyOf
    rw [TreeState.altOf_some hm₁]
    rfl

theorem Bounds.remove (hb : Bounds s) (h : Live Cuts.empty tail s) {n : Nat}
    (hok : LawfulPmem.Ok n s.pm) {t : Tid} {fuel : Nat} {b : Bool}
    (hcond : KeepsBounds s t (.remove k)) (hrun : simplyRemove fuel s t k = .ok (b, s')) :
    Bounds s' ∧ Live Cuts.empty tail s' ∧ LawfulPmem.Ok n s'.pm := by
  rcases fuel with _ | fuel
  · simp [simplyRemove] at hrun
  obtain ⟨path, L, m, hfind, hroute, hm⟩ := h.reaches k
  by_cases hfree : m.tempInsert = 0
  · have hpl : m.altPtr ∈ LawfulPmem.leaves s.pm := by
      have hmem := h.mem_pleaves hroute.mem
      rwa [TreeState.altOf_some hm] at hmem
    rcases simplyRemove_cases hfind hm hrun hfree with
      ⟨-, -, rfl⟩ | ⟨-, i, pm₁, pm₂, hslot, hpm₁, hpm₂, rfl⟩
    · have hview : SameView m m := SameView.of_slots rfl rfl
      exact ⟨hb.setLeaf hm rfl, h.setLeaf hm hview rfl rfl (by simp [LockOK, Cuts.empty, hfree]), hok⟩
    · obtain ⟨hfrees, hlast⟩ := hcond path L m i pm₁ hfind hm hslot hpm₁
      have hi : i < m.maxUse := by
        obtain ⟨-, hlt, -⟩ := removeSlot_eq_some hslot
        rwa [Nat.zero_add] at hlt
      have hrem := hfrees.removed hok hpl hpm₂
      exact ⟨hb.drop h hok hm hi hrem hlast, h.drop hm hi rfl hfree hrem, hrem.room⟩
  · rw [simplyRemove_held hfind hm hfree] at hrun
    exact absurd hrun (by simp)

/-- A whole run, by induction on the operations. -/
theorem Bounds.run {n : Nat} {fuel : Nat} {ops : List (Tid × ThreadOp)} (hb : Bounds s)
    (h : Live Cuts.empty tail s) (hok : LawfulPmem.Ok (2 * ops.length + n) s.pm)
    (hcond : RunKeepsBounds fuel s ops) (hrun : runThreads fuel s ops = .ok s') :
    Bounds s' ∧ Live Cuts.empty tail s' ∧ LawfulPmem.Ok n s'.pm := by
  induction ops generalizing s with
  | nil =>
    cases hrun
    rw [List.length_nil, Nat.mul_zero, Nat.zero_add] at hok
    exact ⟨hb, h, hok⟩
  | cons head rest ih =>
    obtain ⟨t, op⟩ := head
    obtain ⟨hop, hrest⟩ := hcond
    rw [runThreads, bind_eq_ok] at hrun
    obtain ⟨⟨b, s₁⟩, hstep, hrun⟩ := hrun
    have hroom : 2 * ((t, op) :: rest).length + n = (2 * rest.length + n) + 2 := by
      simp only [List.length_cons]
      omega
    rw [hroom] at hok
    have hnext : Bounds s₁ ∧ Live Cuts.empty tail s₁ ∧ LawfulPmem.Ok (2 * rest.length + n) s₁.pm := by
      cases op with
      | insert key val len =>
        exact hb.insert h hok
          (fun path L m hfind hm hdup hfull σ buf hsp => hsp.clean (hop path L m hfind hm hdup hfull).1)
          (fun path L m hfind hm hdup hfull => (hop path L m hfind hm hdup hfull).2) hstep
      | remove key => exact hb.remove h (LawfulPmem.ok_mono (Nat.le_add_right _ 2) hok) hop hstep
    obtain ⟨hb₁, h₁, hok₁⟩ := hnext
    exact ih hb₁ h₁ hok₁ (hrest b s₁ hstep) hrun

omit [LawfulPmem P] in
theorem Bounds.single {a : Addr} (h : s.index = [(⊥, a)]) : Bounds s := by
  rintro x hx ⟨y, hy, hxy⟩
  rw [h, List.mem_singleton] at hx hy
  rw [hx, hy] at hxy
  exact absurd hxy (lt_irrefl _)

/-- The recorded bounds are usable in every state of a run whose operations meet the
condition. -/
theorem leaf_bounds_usable (pm : P) (t : Tid) (junkInner : Addr → InnerNode) (junkLeaf : Addr → DLeaf)
    (fuel : Nat) (ops : List (Tid × ThreadOp)) (hroom : LawfulPmem.Ok (2 * ops.length + 1) pm)
    (s₀ s : TreeState P) (hinit : init pm t junkInner junkLeaf = .ok s₀)
    (hrun : runThreads fuel s₀ ops = .ok s) (hcond : RunKeepsBounds fuel s₀ ops) :
    ∃ leaves, BoundsUsable s leaves := by
  obtain ⟨hlive, hok, -, ⟨a, hindex⟩, -⟩ := Live.init (n := 2 * ops.length + 0) hroom hinit
  obtain ⟨hb, hlive', hok'⟩ := (Bounds.single hindex).run hlive hok hcond hrun
  exact ⟨_, hb.usable hlive' hok'⟩

/-! ### Runs on the smallest memory

There `simply_remove` frees nothing but its record, so what is left of the condition can be computed. -/

/-- The part of the condition that is about leaves. -/
def keepsBounds (s : TreeState IdealPm) : ThreadOp → Bool
  | .insert key _ _ =>
    match findInsert s key with
    | .error _ => true
    | .ok (_, L) => (s.dleafHeap L).all fun m => m.maxUse ≠ MAX_LEAF_KEY ||
        ((List.range MAX_LEAF_KEY).any fun j =>
          (List.range MAX_LEAF_KEY).countP (fun i => keyAt s.pm m i ≤ keyAt s.pm m j) == LEFT_KEY) &&
        (pnext s.pm m.altPtr == 0 ||
          (List.range MAX_LEAF_KEY).any fun i => keyAt s.pm m i == maxKeyAt s.pm m.altPtr)
  | .remove key =>
    match findInsert s key with
    | .error _ => true
    | .ok (_, L) => (s.dleafHeap L).all fun m => m.maxUse ≠ 1 || pnext s.pm m.altPtr == 0

theorem keepsBounds_sound {s : TreeState IdealPm} {op : ThreadOp} (t : Tid) (h : keepsBounds s op = true) :
    KeepsBounds s t op := by
  cases op with
  | insert key val len =>
    intro path L m hfind hm _ hfull
    simp only [keepsBounds, hfind, hm, Option.all_some, hfull, ne_eq, not_true_eq_false, decide_false,
      Bool.false_or, Bool.and_eq_true, Bool.or_eq_true, List.any_eq_true, List.mem_range, beq_iff_eq] at h
    obtain ⟨⟨j, -, hcount⟩, hkey⟩ := h
    exact ⟨⟨_, hcount⟩, fun hnext => hkey.resolve_left hnext⟩
  | remove key =>
    intro path L m i p hfind hm _ hfree
    refine ⟨IdealPm.freesOnly hfree, fun hone => ?_⟩
    simpa [keepsBounds, hfind, hm, hone] using h

/-- A run along which that part holds. -/
def runKeepsBounds (n : Nat) : TreeState IdealPm → List (Tid × ThreadOp) → Bool
  | _, [] => true
  | s, (t, op) :: rest => keepsBounds s op &&
      match op.exec n s t with
      | .error _ => true
      | .ok (_, s') => runKeepsBounds n s' rest

theorem runKeepsBounds_sound {n : Nat} {ops : List (Tid × ThreadOp)} {s : TreeState IdealPm}
    (h : runKeepsBounds n s ops = true) : RunKeepsBounds n s ops := by
  induction ops generalizing s with
  | nil => trivial
  | cons head rest ih =>
    obtain ⟨t, op⟩ := head
    rw [runKeepsBounds, Bool.and_eq_true] at h
    refine ⟨keepsBounds_sound t h.1, fun b s' hexec => ih ?_⟩
    have hrest := h.2
    rw [hexec] at hrest
    exact hrest

/-- Two leaves, of which the first loses keys and is filled and split again; then the last of the three
is emptied. -/
def refilledOps : List (Tid × ThreadOp) :=
  ((List.range' 1 31).map fun i => (0, .insert (BitVec.ofNat 64 (10 * i)) 7 8)) ++
    [(0, .remove 50), (0, .remove 60)] ++
    ((List.range' 1 18).map fun i => (0, .insert (BitVec.ofNat 64 (8 * i + 3)) 7 8)) ++
    ((List.range' 16 16).map fun i => (0, .remove (BitVec.ofNat 64 (10 * i))))

theorem leaf_bounds_usable_refilled : ∃ s₀ s leaves,
    init (IdealPm.roomy 200) 0 zeroInner zeroLeaf = .ok s₀ ∧ runThreads 2 s₀ refilledOps = .ok s ∧
      (s.maxKeyOf 1, s.maxKeyOf 6, s.maxKeyOf 3) = (80, 150, 0) ∧ BoundsUsable s leaves := by
  have hfacts : ((init (IdealPm.roomy 200) 0 zeroInner zeroLeaf >>= fun s₀ =>
      runThreads 2 s₀ refilledOps >>= fun s => .ok (s₀, s)).toOption.map fun r =>
        (runKeepsBounds 2 r.1 refilledOps, r.2.maxKeyOf 1, r.2.maxKeyOf 6, r.2.maxKeyOf 3)) =
      some (true, 80, 150, 0) := by
    decide +kernel
  obtain ⟨⟨s₀, s⟩, hboth, hvalues⟩ := exec_of_map hfacts
  obtain ⟨s₀', hinit, hrest⟩ := bind_eq_ok.mp hboth
  obtain ⟨s', hrun, hend⟩ := bind_eq_ok.mp hrest
  cases hend
  rw [Prod.mk.injEq] at hvalues
  obtain ⟨hcheck, hbounds⟩ := hvalues
  obtain ⟨leaves, husable⟩ := leaf_bounds_usable (IdealPm.roomy 200) 0 zeroInner zeroLeaf 2 refilledOps
    (IdealPm.roomy_lawful (by decide) (by decide)) s₀ s hinit hrun (runKeepsBounds_sound hcheck)
  exact ⟨s₀, s, leaves, hinit, hrun, hbounds, husable⟩

/-- Two leaves; the first is emptied, and its `P_Leaf` then has `max_key` 0 when key 1 comes
back to it. -/
def emptiedOps : List (Tid × ThreadOp) :=
  ((List.range' 1 31).map fun i => (0, .insert (BitVec.ofNat 64 i) 7 8)) ++
    ((List.range' 1 15).map fun i => (0, .remove (BitVec.ofNat 64 i))) ++ [(0, .insert 1 7 8)]

/-- Not all runs keep the recorded bounds usable: here a leaf that is not the last holds a key
above its `max_key`. -/
theorem leaf_bound_zero : ∃ s₀ s, init (IdealPm.roomy 100) 0 zeroInner zeroLeaf = .ok s₀ ∧
    runThreads 2 s₀ emptiedOps = .ok s ∧ ∀ leaves, ¬ BoundsUsable s leaves := by
  have hfacts : ((init (IdealPm.roomy 100) 0 zeroInner zeroLeaf >>= fun s₀ =>
      runThreads 2 s₀ emptiedOps).toOption.map fun s => (s.maxKeyOf 1, pnext s.pm (s.altOf 1),
        (s.dleafHeap 1).map fun m => (m.maxUse, logKey s.pm (m.ptr 0)))) =
      some (0, 2, some (1, some 1)) := by
    decide +kernel
  obtain ⟨s, hboth, hview⟩ := exec_of_map hfacts
  obtain ⟨s₀, hinit, hrun⟩ := bind_eq_ok.mp hboth
  simp only [Prod.mk.injEq, Option.map_eq_some_iff] at hview
  obtain ⟨hmax, hnext, m, hm, huse, hkey⟩ := hview
  refine ⟨s₀, s, hinit, hrun, fun leaves husable => ?_⟩
  have hmem : 1 ∈ leaves := (husable.heap 1).mp ⟨m, hm⟩
  have hlive : s.LiveIn 1 1 := ⟨m, 0, hm, by rw [huse]; decide, hkey⟩
  have hdrop : 1 ∈ leaves.dropLast := husable.mem_dropLast hmem (by rw [hnext]; decide)
  have hle := husable.within 1 hdrop 1 hlive
  rw [hmax] at hle
  exact absurd hle (by decide)

end ZBTree
