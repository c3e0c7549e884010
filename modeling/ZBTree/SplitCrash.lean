import ZBTree.LeafBounds
import ZBTree.MapContract

/-!
# Crashes inside a leaf split

With eADR the stores of `split_leaf` reach persistent memory one by one in program order:
the header update of `n_allocate`, three stores into the new `P_Leaf`, three into the old
one. After each of them the `P_Leaf` chain is intact, and the recorded bounds distribute
the logged keys over it so that no leaf gets more than it can hold. While only distinct
keys are inserted, every leaf but the last holds its own separator, which is its bound.
-/

namespace ZBTree

open RangeIndex LinkedList Pmem

variable {P : Type} [Pmem P]

/-! ### The stores -/

/-- A store into one field of a `P_Leaf`. -/
def storePleaf (q : Addr) (field : PLeaf → PLeaf) (p : P) : Option P := do
  let l ← pleaf p q
  setPleaf p q (field l)

/-- The stores of `split_leaf` to `new_leaf` and `leaf`, in program order. -/
def splitStores (leaf newLeaf : Addr) (maxKey newMaxKey : Key) : List (P → Option P) :=
  [storePleaf newLeaf fun l => { l with versionField := 0 },
    fun p => do
      let l ← pleaf p leaf
      storePleaf newLeaf (fun r => { r with next := l.next }) p,
    storePleaf newLeaf fun l => { l with maxKey := newMaxKey },
    storePleaf leaf fun l => { l with next := newLeaf },
    storePleaf leaf fun l => { l with versionField := l.versionField + 1 },
    storePleaf leaf fun l => { l with maxKey := maxKey }]

/-- The memory after the first stores of a split: the header update of `n_allocate`, then the
stores to the `P_Leaf`s. -/
def storesDone (p : P) (t : Tid) (leaf : Addr) (maxKey newMaxKey : Key) : Nat → Exec P
  | 0 => .ok p
  | n + 1 => do
    let (newLeaf, p) ← deref (nAllocate p t)
    deref (((splitStores leaf newLeaf maxKey newMaxKey).take n).foldlM (fun p store => store p) p)

/-- What a crash leaves of the memory if it comes after `n` stores of the split inside
`insert` of the key. -/
def crashImage (s : TreeState P) (t : Tid) (key : Key) (n : Nat) : Exec P := do
  let (_, leaf, s) ← lockLeaf s key
  let m ← deref (s.dleafHeap leaf)
  let buf ← readEntries s.pm m MAX_LEAF_KEY
  let (keys, _) ← bounded (qsort (2 * MAX_LEAF_KEY) 0 (MAX_LEAF_KEY - 1) buf m.fingerBuffer)
  storesDone s.pm t m.altPtr (keys (LEFT_KEY - 1)).oneKey (keys (MAX_LEAF_KEY - 1)).oneKey n

/-! ### Keys along the chain -/

/-- The first `P_Leaf` of the chain with `max_key >= key`, or the last one if there is none. -/
def assigned (p : P) : List Addr → Key → Addr
  | [], _ => 0
  | [q], _ => q
  | q :: q' :: rest, key => if key ≤ maxKeyAt p q then q else assigned p (q' :: rest) key

theorem assigned_mem (p : P) {chain : List Addr} (hne : chain ≠ []) (k : Key) :
    assigned p chain k ∈ chain := by
  induction chain with
  | nil => exact absurd rfl hne
  | cons q rest ih =>
    cases rest with
    | nil => exact List.mem_singleton_self q
    | cons q' rest =>
      rw [assigned]
      split_ifs
      · exact List.mem_cons_self
      · exact List.mem_cons_of_mem q (ih (List.cons_ne_nil q' rest))

/-- Keys of an earlier leaf are smaller than those of a later one. -/
theorem assigned_lt (p : P) {chain : List Addr} (hnodup : chain.Nodup) :
    chain.Pairwise fun q q' => ∀ k k', assigned p chain k = q → assigned p chain k' = q' →
      k < k' := by
  induction chain with
  | nil => exact List.Pairwise.nil
  | cons q rest ih =>
    cases rest with
    | nil => exact List.pairwise_singleton _ _
    | cons q' rest =>
      obtain ⟨hnot, hrest⟩ := List.nodup_cons.mp hnodup
      refine List.pairwise_cons.mpr ⟨?_, ?_⟩
      · intro x hx k k' hk hk'
        rw [assigned] at hk hk'
        split_ifs at hk with hle
        · split_ifs at hk' with hle'
          · exact absurd (hk' ▸ hx) hnot
          · exact hle.trans_lt (not_le.mp hle')
        · exact absurd (hk ▸ assigned_mem p (List.cons_ne_nil q' rest) k) hnot
      · refine (ih hrest).imp_of_mem ?_
        intro x y hx hy hxy k k' hk hk'
        have hin : ∀ z ∈ q' :: rest, ∀ key, assigned p (q :: q' :: rest) key = z →
            assigned p (q' :: rest) key = z := by
          intro z hz key hkey
          rw [assigned] at hkey
          split_ifs at hkey
          · exact absurd (hkey ▸ hz) hnot
          · exact hkey
        exact hxy k k' (hin x hx k hk) (hin y hy k' hk')

theorem assigned_append (p : P) {X Y : List Addr} {k : Key} (hY : Y ≠ [])
    (h : ∀ q ∈ X, maxKeyAt p q < k) : assigned p (X ++ Y) k = assigned p Y k := by
  induction X with
  | nil => rfl
  | cons q X ih =>
    obtain ⟨y, Y', hXY⟩ := List.exists_cons_of_ne_nil (List.append_ne_nil_of_right_ne_nil X hY)
    rw [List.cons_append, hXY, assigned, if_neg (not_le.mpr (h q List.mem_cons_self)), ← hXY]
    exact ih fun q' hq' => h q' (List.mem_cons_of_mem q hq')

theorem assigned_head (p : P) {q : Addr} {rest : List Addr} {k : Key}
    (h : rest = [] ∨ k ≤ maxKeyAt p q) : assigned p (q :: rest) k = q := by
  cases rest with
  | nil => rfl
  | cons q' rest =>
    rcases h with h | h
    · exact absurd h (List.cons_ne_nil q' rest)
    · rw [assigned, if_pos h]

/-- The chain of a memory image serves to find the logged keys `keys` again: it is finite and
acyclic, no leaf gets more keys than it can hold, and the keys are apart. -/
structure Recoverable (p : P) (start : Addr) (keys : List Key) (chain : List Addr) : Prop where
  walk : Seg (pnext p) start chain 0
  nodup : chain.Nodup
  readable : ∀ q ∈ chain, ∃ l, pleaf p q = some l
  nonempty : chain ≠ []
  fits : ∀ q ∈ chain, (keys.filter fun k => assigned p chain k = q).length ≤ MAX_LEAF_KEY
  apart : chain.Pairwise fun q q' => ∀ k ∈ keys, ∀ k' ∈ keys, assigned p chain k = q →
    assigned p chain k' = q' → k < k'

/-! ### The memory images

`split_leaf` stores six fields of two `P_Leaf`s after it has got the new one. Before the store of `next` the image is the
old chain, after it the chain with the new leaf in it; the bound of the old leaf is the new one only at the end. -/

variable [LawfulPmem P]

theorem storePleaf_spec {n : Nat} {p : P} (hok : LawfulPmem.Ok n p) {q : Addr}
    (hq : q ∈ LawfulPmem.leaves p) {l : PLeaf} (hl : pleaf p q = some l) (field : PLeaf → PLeaf) :
    ∃ p', storePleaf q field p = some p' ∧ LawfulPmem.Ok n p' ∧
      LawfulPmem.leaves p' = LawfulPmem.leaves p ∧ pleaf p' q = some (field l) ∧
      SameLeaves (LawfulPmem.leaves p \ {q}) p p' := by
  obtain ⟨p', hset, hok', -, hleaves, hread, -, hsame⟩ := LawfulPmem.setLeaf_spec (field l) hok hq
  refine ⟨p', ?_, hok', hleaves, hread, hsame⟩
  simp only [storePleaf, hl, Option.bind_eq_bind, Option.bind_some, hset]

omit [LawfulPmem P] in
theorem SameLeaves.store {A B : Set Addr} {p p' p'' : P} {x : Addr} (h : SameLeaves A p p')
    (h' : SameLeaves (B \ {x}) p' p'') (hA : A ⊆ B) (hx : x ∉ A) : SameLeaves A p p'' :=
  fun y hy => (h' y ⟨hA hy, fun heq => hx (heq ▸ hy)⟩).trans (h y hy)

/-- Where the stores of a split into the leaf `pl` have got to: the chain is as it was, or the
new leaf `q` is linked in. -/
inductive SplitImage (p : P) (pl : Addr) (maxKey newMaxKey : Key) (p' : P) : Prop where
  | unlinked (h : SameLeaves (LawfulPmem.leaves p) p p')
  | linked (q : Addr) (l l' r : PLeaf) (hfresh : q ∉ LawfulPmem.leaves p) (hold : pleaf p pl = some l)
      (hleft : pleaf p' pl = some l') (hright : pleaf p' q = some r) (hl' : l'.next = q)
      (hr : r.next = l.next) (hmax : l'.maxKey = l.maxKey ∨ l'.maxKey = maxKey)
      (hnew : r.maxKey = newMaxKey) (h : SameLeaves (LawfulPmem.leaves p \ {pl}) p p')

/-- All stores of a split into the leaf `pl` have been made. -/
def AllStored (p : P) (t : Tid) (pl : Addr) (maxKey newMaxKey : Key) (p' : P) : Prop :=
  ∃ q p₀ l, nAllocate p t = some (q, p₀) ∧ pleaf p pl = some l ∧
    pleaf p' pl = some ⟨l.versionField + 1, maxKey, q⟩ ∧ pleaf p' q = some ⟨0, newMaxKey, l.next⟩ ∧
    SameLeaves (LawfulPmem.leaves p \ {pl}) p p'

/-- What each number of stores leaves behind. -/
theorem storesDone_image {n : Nat} {p : P} (hok : LawfulPmem.Ok (n + 1) p) (t : Tid) {pl : Addr}
    (hpl : pl ∈ LawfulPmem.leaves p) (mk nmk : Key) (count : Nat) :
    ∃ p', storesDone p t pl mk nmk count = .ok p' ∧ SplitImage p pl mk nmk p' ∧
      (7 ≤ count → AllStored p t pl mk nmk p') := by
  obtain ⟨q, p₀, halloc, hok₀, hfresh, hleaves₀, -, -, hsame₀⟩ := LawfulPmem.alloc_spec t hok
  obtain ⟨-, l, hl⟩ := LawfulPmem.leaf_read hok hpl
  have hne : pl ≠ q := fun heq => hfresh (heq ▸ hpl)
  have hpl₀ : pl ∈ LawfulPmem.leaves p₀ := hleaves₀ ▸ Set.mem_insert_of_mem q hpl
  have hq₀ : q ∈ LawfulPmem.leaves p₀ := hleaves₀ ▸ Set.mem_insert q _
  obtain ⟨-, r, hr₀⟩ := LawfulPmem.leaf_read hok₀ hq₀
  have hl₀ : pleaf p₀ pl = some l := (hsame₀ pl hpl).trans hl
  -- the three stores into the new leaf
  obtain ⟨p₁, h₁, hok₁, hleaves₁, hr₁, hsame₁⟩ :=
    storePleaf_spec hok₀ hq₀ hr₀ fun l => { l with versionField := 0 }
  have hl₁ : pleaf p₁ pl = some l := (hsame₁ pl ⟨hpl₀, hne⟩).trans hl₀
  obtain ⟨p₂, h₂, hok₂, hleaves₂, hr₂, hsame₂⟩ :=
    storePleaf_spec hok₁ (hleaves₁ ▸ hq₀) hr₁ fun r => { r with next := l.next }
  have hl₂ : pleaf p₂ pl = some l := (hsame₂ pl ⟨hleaves₁ ▸ hpl₀, hne⟩).trans hl₁
  obtain ⟨p₃, h₃, hok₃, hleaves₃, hr₃, hsame₃⟩ :=
    storePleaf_spec hok₂ (hleaves₂ ▸ hleaves₁ ▸ hq₀) hr₂ fun l => { l with maxKey := nmk }
  have hpl₃ : pl ∈ LawfulPmem.leaves p₃ := by
    rw [hleaves₃, hleaves₂, hleaves₁]
    exact hpl₀
  have hq₃ : q ∈ LawfulPmem.leaves p₃ := by
    rw [hleaves₃, hleaves₂, hleaves₁]
    exact hq₀
  have hl₃ : pleaf p₃ pl = some l :=
    (hsame₃ pl ⟨by rw [hleaves₂, hleaves₁]; exact hpl₀, hne⟩).trans hl₂
  -- the three stores into the old one
  obtain ⟨p₄, h₄, hok₄, hleaves₄, hl₄, hsame₄⟩ :=
    storePleaf_spec hok₃ hpl₃ hl₃ fun l => { l with next := q }
  obtain ⟨p₅, h₅, hok₅, hleaves₅, hl₅, hsame₅⟩ :=
    storePleaf_spec hok₄ (hleaves₄ ▸ hpl₃) hl₄ fun l => { l with versionField := l.versionField + 1 }
  obtain ⟨p₆, h₆, hok₆, hleaves₆, hl₆, hsame₆⟩ :=
    storePleaf_spec hok₅ (hleaves₅ ▸ hleaves₄ ▸ hpl₃) hl₅ fun l => { l with maxKey := mk }
  have hsub : ∀ {p' : P}, LawfulPmem.leaves p' = LawfulPmem.leaves p₀ →
      LawfulPmem.leaves p ⊆ LawfulPmem.leaves p' := by
    intro p' h
    rw [h, hleaves₀]
    exact Set.subset_insert q _
  have e₂ := hleaves₂.trans hleaves₁
  have e₃ := hleaves₃.trans e₂
  have e₄ := hleaves₄.trans e₃
  have e₅ := hleaves₅.trans e₄
  have o₁ := hsame₀.store hsame₁ (hsub rfl) hfresh
  have o₂ := o₁.store hsame₂ (hsub hleaves₁) hfresh
  have o₃ := o₂.store hsame₃ (hsub e₂) hfresh
  have hoff : ∀ {A : Set Addr} {p p' : P}, SameLeaves A p p' → SameLeaves (A \ {pl}) p p' :=
    fun h y hy => h y hy.1
  have hnot : pl ∉ LawfulPmem.leaves p \ {pl} := fun h => h.2 rfl
  have o₄ := (hoff o₃).store hsame₄ (Set.sdiff_subset.trans (hsub e₃)) hnot
  have o₅ := o₄.store hsame₅ (Set.sdiff_subset.trans (hsub e₄)) hnot
  have o₆ := o₅.store hsame₆ (Set.sdiff_subset.trans (hsub e₅)) hnot
  have r₄ := (hsame₄ q ⟨hq₃, hne.symm⟩).trans hr₃
  have r₅ := (hsame₅ q ⟨by rw [hleaves₄]; exact hq₃, hne.symm⟩).trans r₄
  have r₆ := (hsame₆ q ⟨by rw [hleaves₅, hleaves₄]; exact hq₃, hne.symm⟩).trans r₅
  have hdone : ∀ c, storesDone p t pl mk nmk (c + 1) =
      deref (((splitStores pl q mk nmk).take c).foldlM (fun p store => store p) p₀) := by
    intro c
    simp only [storesDone, halloc, deref_some, ok_bind]
  -- one store more
  have hnext : ∀ {c : Nat} {p' p'' : P} {store : P → Option P},
      storesDone p t pl mk nmk (c + 1) = .ok p' → (splitStores pl q mk nmk)[c]? = some store →
      store p' = some p'' → storesDone p t pl mk nmk (c + 1 + 1) = .ok p'' := by
    intro c p' p'' store hrun hget hstore
    rw [hdone, deref_eq_ok] at hrun ⊢
    rw [List.take_add_one, hget, Option.toList_some, List.foldlM_append, hrun]
    simp only [Option.bind_eq_bind, Option.bind_some, List.foldlM_cons, List.foldlM_nil, hstore]
    rfl
  have d₀ : storesDone p t pl mk nmk 1 = .ok p₀ := by
    rw [hdone]
    rfl
  have d₁ := hnext d₀ rfl h₁
  have d₂ : storesDone p t pl mk nmk 3 = .ok p₂ :=
    hnext d₁ rfl (by simp only [hl₁, Option.bind_eq_bind, Option.bind_some, h₂])
  have d₃ := hnext d₂ rfl h₃
  have d₄ := hnext d₃ rfl h₄
  have d₅ := hnext d₄ rfl h₅
  have d₆ := hnext d₅ rfl h₆
  -- what comes before the last store
  have hbefore : ∀ {c : Nat} {p' : P}, c < 7 → storesDone p t pl mk nmk c = .ok p' →
      SplitImage p pl mk nmk p' → ∃ p', storesDone p t pl mk nmk c = .ok p' ∧
        SplitImage p pl mk nmk p' ∧ (7 ≤ c → AllStored p t pl mk nmk p') :=
    fun hc hrun himage => ⟨_, hrun, himage, fun hle => absurd hc (Nat.not_lt.mpr hle)⟩
  match count with
  | 0 => exact hbefore (by decide) rfl (.unlinked fun _ _ => rfl)
  | 1 => exact hbefore (by decide) d₀ (.unlinked hsame₀)
  | 2 => exact hbefore (by decide) d₁ (.unlinked o₁)
  | 3 => exact hbefore (by decide) d₂ (.unlinked o₂)
  | 4 => exact hbefore (by decide) d₃ (.unlinked o₃)
  | 5 => exact hbefore (by decide) d₄ (.linked q l _ _ hfresh hl hl₄ r₄ rfl rfl (Or.inl rfl) rfl o₄)
  | 6 => exact hbefore (by decide) d₅ (.linked q l _ _ hfresh hl hl₅ r₅ rfl rfl (Or.inl rfl) rfl o₅)
  | c + 7 =>
    -- there are no more stores
    have hall : storesDone p t pl mk nmk (c + 7) = storesDone p t pl mk nmk 7 := by
      rw [hdone, hdone, List.take_of_length_le (Nat.le_add_left 6 c),
        List.take_of_length_le (Nat.le_refl 6)]
    exact ⟨p₆, hall.trans d₆, .linked q l _ _ hfresh hl hl₆ r₆ rfl rfl (Or.inr rfl) rfl o₆,
      fun _ => ⟨q, p₀, l, halloc, hl, hl₆, r₆, o₆⟩⟩

/-! ### The chain of an image -/

variable {tail L a : Addr} {s s' : TreeState P} {m : DLeaf} {k : Key}

omit [LawfulPmem P] in
theorem liveIn_length (hm : s.dleafHeap a = some m) (huse : m.maxUse ≤ MAX_LEAF_KEY) {l : List Key}
    (hnodup : l.Nodup) (hl : ∀ k ∈ l, s.LiveIn a k) : l.length ≤ MAX_LEAF_KEY := by
  have hsub : l ⊆ (List.range m.maxUse).map (keyAt s.pm m) := by
    intro k hk
    obtain ⟨m', i, hm', hi⟩ := hl k hk
    rw [hm, Option.some.injEq] at hm'
    subst hm'
    exact List.mem_map.mpr ⟨i, List.mem_range.mpr hi.1, hi.keyAt⟩
  have hlen := (hnodup.subperm hsub).length_le
  rw [List.length_map, List.length_range] at hlen
  exact hlen.trans huse

omit [LawfulPmem P] in
theorem assigned_fits (huse : ∀ a m, s.dleafHeap a = some m → m.maxUse ≤ MAX_LEAF_KEY)
    {keys : List Key} (hnodup : keys.Nodup) (hkeys : ∀ k ∈ keys, ∃ a, s.LiveIn a k) {p : P}
    {chain : List Addr}
    (hsep : ∀ k k' a a', s.LiveIn a k → s.LiveIn a' k' →
      assigned p chain k = assigned p chain k' → a = a') (q : Addr) :
    (keys.filter fun k => assigned p chain k = q).length ≤ MAX_LEAF_KEY := by
  rcases List.eq_nil_or_concat (keys.filter fun k => assigned p chain k = q) with hnil | ⟨l, k₀, hl⟩
  · rw [hnil]
    exact Nat.zero_le _
  · have hk₀ : k₀ ∈ keys.filter fun k => assigned p chain k = q := by
      rw [hl]
      simp
    obtain ⟨hin₀, hq₀⟩ := List.mem_filter.mp hk₀
    obtain ⟨a, hlive₀⟩ := hkeys k₀ hin₀
    obtain ⟨m, i, hm, -⟩ := id hlive₀
    refine liveIn_length hm (huse a m hm) (hnodup.filter _) fun k hk => ?_
    obtain ⟨hin, hq⟩ := List.mem_filter.mp hk
    obtain ⟨b, hlive⟩ := hkeys k hin
    rw [decide_eq_true_eq] at hq hq₀
    rwa [hsep k₀ k a b hlive₀ hlive (hq₀.trans hq.symm)]

theorem Bounds.around (hb : Bounds s) (h : Live Cuts.empty tail s) {X Y : Index Key Addr}
    {x : WithBot Key × Addr} (hF : s.index = X ++ x :: Y) (hk : s.LiveIn x.2 k) :
    (∀ y ∈ X, s.maxKeyOf y.2 < k) ∧ (Y = [] ∨ k ≤ s.maxKeyOf x.2) := by
  have hsorted := h.sorted
  rw [hF] at hsorted
  have hmem : ∀ y, y ∈ X ∨ y = x ∨ y ∈ Y → y ∈ s.index := by
    intro y hy
    rw [hF, List.mem_append, List.mem_cons]
    exact hy
  constructor
  · intro y hy
    have hle := hb.le_above (hmem y (Or.inl hy)) (hmem x (Or.inr (Or.inl rfl))) (hsorted.lt_of_before hy)
    exact WithBot.coe_lt_coe.mp (hle.trans_lt (h.above_bound (hmem x (Or.inr (Or.inl rfl))) hk))
  · cases Y with
    | nil => exact Or.inl rfl
    | cons y Y =>
      exact Or.inr (hb.covers h (hmem x (Or.inr (Or.inl rfl)))
        ⟨y, hmem y (Or.inr (Or.inr List.mem_cons_self)), hsorted.lt_of_after List.mem_cons_self⟩ hk)

/-- The `P_Leaf` addresses of a stretch of the index. -/
def TreeState.alts (s : TreeState P) (F : Index Key Addr) : List Addr := F.map fun x => s.altOf x.2

omit [Pmem P] [LawfulPmem P] in
theorem TreeState.alts_append (s : TreeState P) (F G : Index Key Addr) :
    s.alts (F ++ G) = s.alts F ++ s.alts G := List.map_append

omit [Pmem P] [LawfulPmem P] in
theorem TreeState.alts_cons (s : TreeState P) (x : WithBot Key × Addr) (F : Index Key Addr) :
    s.alts (x :: F) = s.altOf x.2 :: s.alts F := rfl

theorem Live.alts_chain (h : Live Cuts.empty tail s) : Seg (pnext s.pm) s.leafStart (s.alts s.index) 0 := by
  have hchain := h.chain
  rwa [labels, List.map_map] at hchain

theorem Live.alts_nodup (h : Live Cuts.empty tail s) : (s.alts s.index).Nodup := by
  have hnodup := h.alt_nodup
  rwa [labels, List.map_map] at hnodup

theorem Live.alts_mem (h : Live Cuts.empty tail s) {q : Addr} (hq : q ∈ s.alts s.index) :
    q ∈ LawfulPmem.leaves s.pm := by
  obtain ⟨x, hx, rfl⟩ := List.mem_map.mp hq
  exact h.mem_pleaves (List.mem_map.mpr ⟨x, hx, rfl⟩)

theorem Live.altOf_inj (h : Live Cuts.empty tail s) {b : Addr} {k' : Key} (ha : s.LiveIn a k)
    (hb : s.LiveIn b k') (heq : s.altOf a = s.altOf b) : a = b :=
  List.inj_on_of_nodup_map h.alt_nodup (h.routes ha).mem (h.routes hb).mem heq

theorem Live.entry (h : Live Cuts.empty tail s) (hk : s.LiveIn a k) :
    ∃ X x Y, s.index = X ++ x :: Y ∧ x.2 = a := by
  obtain ⟨x, hx, rfl⟩ := List.mem_map.mp (h.routes hk).mem
  obtain ⟨X, Y, hF⟩ := List.append_of_mem hx
  exact ⟨X, x, Y, hF, rfl⟩

/-- The image before the new leaf is linked in. -/
theorem Bounds.recoverable_unlinked (hb : Bounds s) (h : Live Cuts.empty tail s) {n : Nat}
    (hok : LawfulPmem.Ok n s.pm) {p : P} (hsame : SameLeaves (LawfulPmem.leaves s.pm) s.pm p)
    {keys : List Key} (hnodup : keys.Nodup) (hkeys : ∀ k ∈ keys, ∃ a, s.LiveIn a k) :
    Recoverable p s.leafStart keys (s.alts s.index) := by
  have hmax : ∀ x ∈ s.index, maxKeyAt p (s.altOf x.2) = s.maxKeyOf x.2 := fun x hx =>
    hsame.maxKeyAt (h.mem_pleaves (List.mem_map.mpr ⟨x, hx, rfl⟩))
  have hown : ∀ k a, s.LiveIn a k → assigned p (s.alts s.index) k = s.altOf a := by
    intro k a hk
    obtain ⟨X, x, Y, hF, rfl⟩ := h.entry hk
    obtain ⟨hbefore, hself⟩ := hb.around h hF hk
    rw [hF, TreeState.alts_append, TreeState.alts_cons, assigned_append p (List.cons_ne_nil _ _)]
    · refine assigned_head p ?_
      rw [hmax x (by rw [hF]; simp)]
      rcases hself with rfl | hle
      · exact Or.inl rfl
      · exact Or.inr hle
    · intro q hq
      obtain ⟨y, hy, rfl⟩ := List.mem_map.mp hq
      rw [hmax y (by rw [hF]; simp [hy])]
      exact hbefore y hy
  refine ⟨?_, h.alts_nodup, ?_, ?_, ?_, ?_⟩
  · exact h.alts_chain.congr fun q hq => hsame.pnext (h.alts_mem hq)
  · intro q hq
    obtain ⟨-, l, hl⟩ := LawfulPmem.leaf_read hok (h.alts_mem hq)
    exact ⟨l, (hsame q (h.alts_mem hq)).trans hl⟩
  · obtain ⟨path, leaf, m, -, hroute, -⟩ := h.reaches 0
    obtain ⟨x, hx, -⟩ := List.mem_map.mp hroute.mem
    exact List.ne_nil_of_mem (List.mem_map.mpr ⟨x, hx, rfl⟩)
  · intro q _
    refine assigned_fits (fun a m hm => (h.skel.leaf a m hm).1) hnodup hkeys ?_ q
    intro k k' a a' hk hk' heq
    rw [hown k a hk, hown k' a' hk'] at heq
    exact h.altOf_inj hk hk' heq
  · exact (assigned_lt p h.alts_nodup).imp fun hlt k _ k' _ => hlt k k'

/-- The image once the new leaf is linked in after the split leaf, whatever bound the split
leaf has by then. -/
theorem Bounds.recoverable_linked (hb : Bounds s) (h : Live Cuts.empty tail s) {n : Nat}
    (hok : LawfulPmem.Ok n s.pm) (hm : s.dleafHeap L = some m) {mk nmk : Key} (hmk : s.LiveIn L mk)
    (hnmk : s.LiveIn L nmk) (htop : ∀ k, s.LiveIn L k → k ≤ nmk) {p : P} {q : Addr} {l l' r : PLeaf}
    (hfresh : q ∉ LawfulPmem.leaves s.pm) (hold : pleaf s.pm m.altPtr = some l)
    (hleft : pleaf p m.altPtr = some l') (hright : pleaf p q = some r) (hl' : l'.next = q)
    (hr : r.next = l.next) (hlmax : l'.maxKey = l.maxKey ∨ l'.maxKey = mk) (hrmax : r.maxKey = nmk)
    (hsame : SameLeaves (LawfulPmem.leaves s.pm \ {m.altPtr}) s.pm p) {keys : List Key}
    (hnodup : keys.Nodup) (hkeys : ∀ k ∈ keys, ∃ a, s.LiveIn a k) :
    ∃ chain, Recoverable p s.leafStart keys chain := by
  obtain ⟨X, x, Y, hF, rfl⟩ := h.entry hnmk
  have hsorted := h.sorted
  have hchain := h.alts_chain
  have hnodupA := h.alts_nodup
  rw [hF] at hsorted
  rw [hF, TreeState.alts_append, TreeState.alts_cons, TreeState.altOf_some hm] at hchain hnodupA
  have hmem : ∀ y, y ∈ X ∨ y ∈ Y → y ∈ s.index := by
    intro y hy
    rw [hF, List.mem_append, List.mem_cons]
    tauto
  have hx : x ∈ s.index := by
    rw [hF]
    simp
  have hneq : ∀ y, y ∈ X ∨ y ∈ Y → s.altOf y.2 ∈ LawfulPmem.leaves s.pm \ {m.altPtr} := by
    intro y hy
    refine ⟨h.mem_pleaves (List.mem_map.mpr ⟨y, hmem y hy, rfl⟩), fun heq => ?_⟩
    have heq' : s.altOf y.2 = m.altPtr := heq
    simp only [List.nodup_append, List.nodup_cons, List.mem_cons] at hnodupA
    rcases hy with hy | hy
    · exact hnodupA.2.2 _ (List.mem_map.mpr ⟨y, hy, rfl⟩) _ (Or.inl rfl) heq'
    · exact hnodupA.2.1.1 (heq' ▸ List.mem_map.mpr ⟨y, hy, rfl⟩)
  have hmax : ∀ y, y ∈ X ∨ y ∈ Y → maxKeyAt p (s.altOf y.2) = s.maxKeyOf y.2 := fun y hy =>
    hsame.maxKeyAt (hneq y hy)
  -- the bounds of both halves lie below the keys of the later leaves
  have hbelow : ∀ y ∈ Y, ∀ k, s.LiveIn y.2 k → l'.maxKey < k ∧ nmk < k := by
    intro y hy k hk
    have hxy : x.1 < y.1 := hsorted.lt_of_after hy
    have hyk := h.above_bound (hmem y (Or.inr hy)) hk
    have hlive : ∀ k', s.LiveIn x.2 k' → k' < k := fun k' hk' =>
      WithBot.coe_lt_coe.mp ((h.upto_bound hx (hmem y (Or.inr hy)) hxy hk').trans_lt hyk)
    refine ⟨?_, hlive nmk hnmk⟩
    rcases hlmax with heq | heq
    · have hlx : s.maxKeyOf x.2 = l.maxKey := by
        unfold TreeState.maxKeyOf
        rw [TreeState.altOf_some hm, maxKeyAt_some hold]
      rw [heq, ← hlx]
      exact WithBot.coe_lt_coe.mp ((hb.le_above hx (hmem y (Or.inr hy)) hxy).trans_lt hyk)
    · rw [heq]
      exact hlive mk hmk
  have hleftMax : maxKeyAt p m.altPtr = l'.maxKey := maxKeyAt_some hleft
  have hrightMax : maxKeyAt p q = nmk := (maxKeyAt_some hright).trans hrmax
  have hmaxAll : ∀ {Z : Index Key Addr} {k : Key}, (∀ y ∈ Z, y ∈ X ∨ y ∈ Y) →
      (∀ y ∈ Z, s.maxKeyOf y.2 < k) → ∀ c ∈ s.alts Z, maxKeyAt p c < k := by
    intro Z k hZ hlt c hc
    obtain ⟨y, hy, rfl⟩ := List.mem_map.mp hc
    rw [hmax y (hZ y hy)]
    exact hlt y hy
  -- a key of the split leaf goes to one of its halves, any other key to its own leaf
  have hown : ∀ k a, s.LiveIn a k →
      (a = x.2 ∧ (assigned p (s.alts X ++ m.altPtr :: q :: s.alts Y) k = m.altPtr ∨
        assigned p (s.alts X ++ m.altPtr :: q :: s.alts Y) k = q)) ∨
      (a ≠ x.2 ∧ assigned p (s.alts X ++ m.altPtr :: q :: s.alts Y) k = s.altOf a) := by
    intro k a hk
    obtain ⟨z, hz, rfl⟩ := List.mem_map.mp (h.routes hk).mem
    have hnodup := h.skel.index_nodup
    rw [hF, labels, List.map_append, List.map_cons] at hnodup
    simp only [List.nodup_append, List.nodup_cons, List.mem_cons] at hnodup
    rw [hF, List.mem_append, List.mem_cons] at hz
    rcases hz with hz | rfl | hz
    · refine Or.inr ⟨fun heq => hnodup.2.2 z.2 (List.mem_map.mpr ⟨z, hz, rfl⟩) x.2 (Or.inl rfl) heq, ?_⟩
      obtain ⟨X₁, X₂, rfl⟩ := List.append_of_mem hz
      have hF' : s.index = X₁ ++ z :: (X₂ ++ x :: Y) := by simpa using hF
      obtain ⟨hbefore, hself⟩ := hb.around h hF' hk
      rw [TreeState.alts_append, TreeState.alts_cons, List.append_assoc, List.cons_append,
        assigned_append p (List.cons_ne_nil _ _)
          (hmaxAll (fun y hy => Or.inl (by simp [hy])) hbefore)]
      refine assigned_head p (Or.inr ?_)
      rw [hmax z (Or.inl (by simp))]
      exact hself.resolve_left (by simp)
    · refine Or.inl ⟨rfl, ?_⟩
      obtain ⟨hbefore, -⟩ := hb.around h hF hk
      rw [assigned_append p (List.cons_ne_nil _ _) (hmaxAll (fun y hy => Or.inl hy) hbefore), assigned]
      split_ifs
      · exact Or.inl rfl
      · exact Or.inr (assigned_head p (Or.inr (by rw [hrightMax]; exact htop k hk)))
    · refine Or.inr ⟨fun heq => hnodup.2.1.1 (heq ▸ List.mem_map.mpr ⟨z, hz, rfl⟩), ?_⟩
      obtain ⟨hkl, hkn⟩ := hbelow z hz k hk
      obtain ⟨Y₁, Y₂, rfl⟩ := List.append_of_mem hz
      have hF' : s.index = (X ++ x :: Y₁) ++ z :: Y₂ := by simpa using hF
      obtain ⟨hbefore, hself⟩ := hb.around h hF' hk
      have hsplit : s.alts X ++ m.altPtr :: q :: s.alts (Y₁ ++ z :: Y₂) =
          (s.alts X ++ m.altPtr :: q :: s.alts Y₁) ++ s.altOf z.2 :: s.alts Y₂ := by
        rw [TreeState.alts_append, TreeState.alts_cons]
        simp
      rw [hsplit, assigned_append p (List.cons_ne_nil _ _)]
      · refine assigned_head p ?_
        rw [hmax z (Or.inr (by simp))]
        rcases hself with rfl | hle
        · exact Or.inl rfl
        · exact Or.inr hle
      · intro c hc
        simp only [List.mem_append, List.mem_cons] at hc
        rcases hc with hc | rfl | rfl | hc
        · exact hmaxAll (fun y hy => Or.inl hy) (fun y hy => hbefore y (by simp [hy])) c hc
        · rw [hleftMax]
          exact hkl
        · rw [hrightMax]
          exact hkn
        · exact hmaxAll (fun y hy => Or.inr (by simp [hy])) (fun y hy => hbefore y (by simp [hy])) c hc
  have hqnot : q ∉ s.alts X ++ m.altPtr :: s.alts Y := by
    intro hq
    refine hfresh (h.alts_mem ?_)
    rw [hF, TreeState.alts_append, TreeState.alts_cons, TreeState.altOf_some hm]
    exact hq
  have hnodup' : (s.alts X ++ m.altPtr :: q :: s.alts Y).Nodup := by
    have hperm : (s.alts X ++ m.altPtr :: q :: s.alts Y).Perm
        (q :: (s.alts X ++ m.altPtr :: s.alts Y)) :=
      (List.Perm.append_left _ (List.Perm.swap _ _ _)).trans List.perm_middle
    exact hperm.nodup_iff.mpr (List.nodup_cons.mpr ⟨hqnot, hnodupA⟩)
  have hoff : ∀ c, c ∈ s.alts X ∨ c ∈ s.alts Y → c ∈ LawfulPmem.leaves s.pm \ {m.altPtr} := by
    intro c hc
    rcases hc with hc | hc
    · obtain ⟨y, hy, rfl⟩ := List.mem_map.mp hc
      exact hneq y (Or.inl hy)
    · obtain ⟨y, hy, rfl⟩ := List.mem_map.mp hc
      exact hneq y (Or.inr hy)
  refine ⟨s.alts X ++ m.altPtr :: q :: s.alts Y, ?_, hnodup', ?_, by simp, ?_, ?_⟩
  · refine hchain.insert ((pnext_some hleft).trans hl') ?_ ?_ ?_
    · rw [pnext_some hright, pnext_some hold, hr]
    · exact fun c hc => hsame.pnext (hoff c (Or.inl hc))
    · exact fun c hc => hsame.pnext (hoff c (Or.inr hc))
  · intro c hc
    simp only [List.mem_append, List.mem_cons] at hc
    have hread : ∀ c, c ∈ s.alts X ∨ c ∈ s.alts Y → ∃ l, pleaf p c = some l := by
      intro c hc
      obtain ⟨-, lc, hlc⟩ := LawfulPmem.leaf_read hok (hoff c hc).1
      exact ⟨lc, (hsame c (hoff c hc)).trans hlc⟩
    rcases hc with hc | rfl | rfl | hc
    · exact hread c (Or.inl hc)
    · exact ⟨l', hleft⟩
    · exact ⟨r, hright⟩
    · exact hread c (Or.inr hc)
  · intro c _
    refine assigned_fits (fun a m hm => (h.skel.leaf a m hm).1) hnodup hkeys ?_ c
    intro k k' a a' hk hk' heq
    have hLalt : s.altOf x.2 = m.altPtr := TreeState.altOf_some hm
    have hcross : ∀ {k k' : Key} {a' : Addr}, s.LiveIn x.2 k → s.LiveIn a' k' →
        (s.altOf a' = m.altPtr ∨ s.altOf a' = q) → x.2 = a' := by
      rintro k k' a' hk hk' (heq | heq)
      · exact h.altOf_inj hk hk' (hLalt.trans heq.symm)
      · exact absurd (heq ▸ h.mem_pleaves (h.routes hk').mem) hfresh
    rcases hown k a hk with ⟨rfl, hhalf⟩ | ⟨-, hself⟩
    · rcases hown k' a' hk' with ⟨rfl, -⟩ | ⟨-, hself'⟩
      · rfl
      · rw [heq, hself'] at hhalf
        exact hcross hk hk' hhalf
    · rcases hown k' a' hk' with ⟨rfl, hhalf'⟩ | ⟨-, hself'⟩
      · rw [← heq, hself] at hhalf'
        exact (hcross hk' hk hhalf').symm
      · exact h.altOf_inj hk hk' (hself.symm.trans (heq.trans hself'))
  · exact (assigned_lt p hnodup').imp fun hlt k _ k' _ => hlt k k'

/-! ### Leaves keep their separators -/

/-- Every leaf but the last holds the key of a separator on its right. -/
def Held (s : TreeState P) : Prop :=
  ∀ x ∈ s.index, (∃ y ∈ s.index, x.1 < y.1) →
    ∃ k, s.LiveIn x.2 k ∧ ∃ z ∈ s.index, x.1 < z.1 ∧ z.1 = (k : WithBot Key)

omit [LawfulPmem P] in
theorem Held.mono (hh : Held s) (hindex : s'.index = s.index)
    (hold : ∀ b k', s.LiveIn b k' → s'.LiveIn b k') : Held s' := by
  intro x hx hlater
  rw [hindex] at hx hlater ⊢
  obtain ⟨k', hk', hz⟩ := hh x hx hlater
  exact ⟨k', hold _ _ hk', hz⟩

omit [LawfulPmem P] in
theorem Held.single {a : Addr} (h : s.index = [(⊥, a)]) : Held s := by
  rintro x hx ⟨y, hy, hxy⟩
  rw [h, List.mem_singleton] at hx hy
  rw [hx, hy] at hxy
  exact absurd hxy (lt_irrefl _)

theorem Held.top (hh : Held s) (hb : Bounds s) (h : Live Cuts.empty tail s) {n : Nat}
    (hok : LawfulPmem.Ok n s.pm) (hm : s.dleafHeap a = some m) (ha : a ∈ labels s.index)
    (hnext : pnext s.pm m.altPtr ≠ 0) : ∃ i, i < m.maxUse ∧ keyAt s.pm m i = maxKeyAt s.pm m.altPtr := by
  obtain ⟨x, hx, rfl⟩ := List.mem_map.mp ha
  have hlater := (h.exists_later hok hx hm).mpr hnext
  obtain ⟨k', hk', z, hz, hlt, hzk⟩ := hh x hx hlater
  have hle := hb.le_above hx hz hlt
  rw [hzk] at hle
  have heq : k' = s.maxKeyOf x.2 := le_antisymm (hb.covers h hx hlater hk') (WithBot.coe_le_coe.mp hle)
  obtain ⟨m₁, i, hm₁, hi⟩ := hk'
  rw [hm, Option.some.injEq] at hm₁
  subst hm₁
  refine ⟨i, hi.1, hi.keyAt.trans (heq.trans ?_)⟩
  unfold TreeState.maxKeyOf
  rw [TreeState.altOf_some hm]

section Divided

variable {σ : Equiv.Perm Nat} {buf : Nat → NodeEntry} {n : Nat}

/-- What lies above the separator has moved into the new leaf. -/
theorem Divided.moved (hd : Divided tail s s' L m σ buf n) (h : Live Cuts.empty tail s)
    (hsp : SplitOf s L m σ buf) (hk : s.LiveIn L k) (hlt : (buf (σ SPLIT_POS)).oneKey < k) :
    s'.LiveIn (s.brk + 1) k := by
  obtain ⟨r, -, hr, hhalf, -⟩ := hd.right
  have hslots : SameSlots s.pm s'.pm r :=
    sameSlots_of_recs hd.same_recs fun j hj => hhalf.ptr_mem h.located hsp (Nat.le_refl _) hj
  obtain ⟨m₁, j, hm₁, hj⟩ := hk
  rw [hsp.leaf, Option.some.injEq] at hm₁
  subst hm₁
  have hjlt : j < MAX_LEAF_KEY := hsp.full ▸ hj.1
  obtain ⟨i, ⟨-, hi⟩, rfl⟩ := hsp.perm.exists_preimage ⟨Nat.zero_le j, Nat.le_pred_of_lt hjlt⟩
  have hi' : i < MAX_LEAF_KEY := Nat.lt_of_le_of_lt hi (by decide)
  have hkey : (buf (σ i)).oneKey = k := by
    have hread := (hsp.hasKey hi').2
    rw [hj.2] at hread
    exact (Option.some.inj hread).symm
  -- its place in the sorted buffer is behind the separator
  have hplace : SPLIT_POS < i := by
    by_contra hle
    have hle' := hsp.le (not_lt.mp hle) (by decide)
    rw [hkey] at hle'
    exact absurd hlt (not_lt.mpr hle')
  simp only [SPLIT_POS, MAX_LEAF_KEY] at hplace hi'
  refine ⟨r, i - LEFT_KEY, hr, (hasKey_congr hslots).mpr ?_⟩
  refine (hhalf.hasKey_iff hsp.perm (Nat.le_refl _) hsp.full _ _).mpr ⟨?_, ?_⟩
  · simp only [LEFT_KEY, MAX_LEAF_KEY]
    omega
  · have hback : i - LEFT_KEY + LEFT_KEY = i := Nat.sub_add_cancel (by
      simp only [LEFT_KEY, MAX_LEAF_KEY]
      omega)
    rw [hback]
    exact hj

theorem Divided.held (hd : Divided tail s s' L m σ buf n) (h : Live Cuts.empty tail s)
    (hsp : SplitOf s L m σ buf) (hh : Held s) : Held s' := by
  obtain ⟨e, he, heL⟩ := List.mem_map.mp hd.index.left_mem
  obtain ⟨hright, hafter, hbefore⟩ := hd.place he heL
  have hnew : (((buf (σ SPLIT_POS)).oneKey : WithBot Key), s.brk + 1) ∈ s'.index :=
    (hd.index.mem_iff _).mpr (Or.inr rfl)
  have hstill : ∀ z ∈ s.index, z ∈ s'.index := fun z hz => (hd.index.mem_iff z).mpr (Or.inl hz)
  rintro x hx ⟨y, hy, hxy⟩
  rcases (hd.index.mem_iff x).mp hx with hx | rfl
  · by_cases hxL : x.2 = L
    · -- the left half holds the new separator
      obtain ⟨hlt, -, -⟩ := hd.place hx hxL
      rw [hxL]
      exact ⟨_, (hd.live_left h hsp).1, _, hnew, hlt, rfl⟩
    · obtain ⟨y', hy', hxy'⟩ : ∃ y' ∈ s.index, x.1 < y'.1 := by
        rcases (hd.index.mem_iff y).mp hy with hy | rfl
        · exact ⟨y, hy, hxy⟩
        · exact ⟨e, he, hbefore x hx hxL hxy⟩
      obtain ⟨k', hk', z, hz, hlt, hzk⟩ := hh x hx ⟨y', hy', hxy'⟩
      obtain ⟨hlive, -⟩ := hd.others_same h hsp.leaf (List.mem_map.mpr ⟨x, hx, rfl⟩) hxL
      exact ⟨k', (hlive k').mpr hk', z, hstill z hz, hlt, hzk⟩
  · -- the right half holds the separator of the old leaf
    have hy' : y ∈ s.index := by
      rcases (hd.index.mem_iff y).mp hy with hy | rfl
      · exact hy
      · exact absurd hxy (lt_irrefl _)
    obtain ⟨k', hk', z, hz, hlt, hzk⟩ := hh e he ⟨y, hy', hright.trans hxy⟩
    have habove := hafter z hz hlt
    rw [hzk] at habove
    rw [heL] at hk'
    exact ⟨k', hd.moved h hsp hk' (WithBot.coe_lt_coe.mp habove), z, hstill z hz, hzk ▸ habove, hzk⟩

end Divided

theorem Held.lastRound (hh : Held s) (h : Live Cuts.empty tail s) {n : Nat}
    (hok : LawfulPmem.Ok (n + 1) s.pm) {t : Tid} {v : Word} {len : BitVec 32} {b : Bool}
    (hround : LastRound s t k v len b s') : Held s' := by
  obtain ⟨path, L, m, hfind, hm, -, hround⟩ := hround
  have hview : SameView m { m with tempInsert := 1 } := SameView.of_slots rfl rfl
  have hheld : Held (s.setLeaf L { m with tempInsert := 1 }) :=
    hh.mono rfl fun b k' hk' => (liveIn_setLeaf hm hview).mpr hk'
  rcases hround with ⟨-, -, rfl⟩ | ⟨-, -, hroom, hfill⟩
  · exact hheld
  · have hlive := h.setLeaf hm hview rfl rfl (by simp [LockOK, Cuts.empty])
    have hm₁ : (s.setLeaf L { m with tempInsert := 1 }).dleafHeap L =
        some { m with tempInsert := 1 } := Function.update_self ..
    have hroute := h.routes_of_find hfind
    have hroute' : Routes ((s.setLeaf L { m with tempInsert := 1 }).leaves Cuts.empty) k L := by
      rw [TreeState.leaves_empty]
      exact hroute
    obtain ⟨addr, pm, rfl, hlt, hkey, -, hsameR, -, -, -⟩ :=
      hlive.fill hok hm₁ hroute' rfl hroom hfill
    exact hheld.mono rfl fun b k' hk' => (hlive.fill_liveIn hm₁ hlt hkey hsameR).mpr (Or.inl hk')

/-! ### Runs of insertions -/

/-- A tree that insertions of distinct keys have led to. -/
structure Grown (n : Nat) (tail : Addr) (s : TreeState P) (M : Key → Option Word) : Prop
    extends Represents n tail s M where
  live : Live Cuts.empty tail s
  bounds : Bounds s
  held : Held s

theorem Grown.insert {n : Nat} {M : Key → Option Word} (h : Grown (n + 2) tail s M) (t : Tid)
    (hk : M k = none) (v : Word) (len : BitVec 32) :
    ∃ s', ZBTree.insert 2 s t k v len = .ok (true, s') ∧
      Grown n tail s' (Function.update M k (some v)) := by
  obtain ⟨s', hrun, hrep, -⟩ := h.toRepresents.insert t hk v len
  have hapart : ∀ path L m, findInsert s k = .ok (path, L) → s.dleafHeap L = some m →
      duplicate s.pm m k m.maxUse 0 = .ok false → m.maxUse = MAX_LEAF_KEY →
      HalvesApart (s.setLeaf L { m with tempInsert := 1 }) L { m with tempInsert := 1 } := by
    intro path L m _ hm _ _ σ buf hsp
    exact hsp.lt (h.inv.lock hm rfl).data (by decide) (by decide)
  obtain ⟨hbounds, hlive, -⟩ := h.bounds.insert h.live h.room hapart (by
    intro path L m hfind hm _ hfull hnext
    have hroute := h.live.routes_of_find hfind
    obtain ⟨i, hi, hkey⟩ := h.held.top h.bounds h.live h.room hm hroute.mem hnext
    exact ⟨i, hfull ▸ hi, hkey⟩) hrun
  refine ⟨s', hrun, hrep, hlive, hbounds, ?_⟩
  rcases h.live.insert_rounds (n := n + 1) h.room hrun hapart with
    hround | ⟨path, L, m, s₁, σ, buf, -, hm, -, -, -, hlive₁, hsp, hd, hround⟩
  · exact h.held.lastRound h.live h.room hround
  · have hview : SameView m { m with tempInsert := 1 } := SameView.of_slots rfl rfl
    have hheld : Held (s.setLeaf L { m with tempInsert := 1 }) :=
      h.held.mono rfl fun b k' hk' => (liveIn_setLeaf hm hview).mpr hk'
    exact (hd.held hlive₁ hsp hheld).lastRound hd.live hd.room hround

/-- A whole run, by induction on the entries. -/
theorem Grown.run {n : Nat} {M : Key → Option Word} (t : Tid)
    (entries : List (Key × Word × BitVec 32)) (h : Grown (2 * entries.length + n) tail s M)
    (hkeys : (entries.map Prod.fst).Nodup) (hnew : ∀ e ∈ entries, M e.1 = none) :
    ∃ answers s', mapRun t s (insertOps entries) = .ok (answers, s') ∧
      Grown n tail s' (specRun M (insertOps entries)).2 := by
  induction entries generalizing s M with
  | nil =>
    rw [List.length_nil, Nat.mul_zero, Nat.zero_add] at h
    exact ⟨_, s, rfl, h⟩
  | cons e entries ih =>
    have hroom : 2 * (e :: entries).length + n = (2 * entries.length + n) + 2 := by
      simp only [List.length_cons]
      omega
    rw [hroom] at h
    obtain ⟨hnot, hkeys'⟩ := List.nodup_cons.mp hkeys
    obtain ⟨s₁, hstep, hgrown⟩ := h.insert t (hnew e List.mem_cons_self) e.2.1 e.2.2
    obtain ⟨answers, s', hrun, hgrown'⟩ := ih hgrown hkeys' (by
      intro e' he'
      have hne : e'.1 ≠ e.1 := fun heq => hnot (heq ▸ List.mem_map.mpr ⟨e', he', rfl⟩)
      rw [Function.update_of_ne hne]
      exact hnew e' (List.mem_cons_of_mem e he'))
    refine ⟨.inserted true :: answers, s', ?_, hgrown'⟩
    simp only [insertOps, List.map_cons, mapRun, mapStep, hstep, ok_bind, pure_eq_ok]
    rw [insertOps] at hrun
    simp only [hrun, ok_bind]

theorem grown_init {pm : P} {n : Nat} (hok : LawfulPmem.Ok (n + 1) pm) (t : Tid)
    (junkInner : Addr → InnerNode) (junkLeaf : Addr → DLeaf) :
    ∃ s, init pm t junkInner junkLeaf = .ok s ∧
      Grown n (junkLeaf 1).next s fun _ => none := by
  obtain ⟨s, hinit, hrep⟩ := represents_init hok t junkInner junkLeaf
  obtain ⟨hlive, -, -, ⟨a, hindex⟩, -⟩ := Live.init hok hinit
  exact ⟨s, hinit, hrep, hlive, Bounds.single hindex, Held.single hindex⟩

theorem Grown.live_of_key {n : Nat} {M : Key → Option Word} (h : Grown n tail s M)
    (hk : (M k).isSome) : ∃ a, s.LiveIn a k := by
  obtain ⟨v, hv⟩ := Option.isSome_iff_exists.mp hk
  obtain ⟨a, m, hm, i, hi, -⟩ := (h.content k v).mpr hv
  exact ⟨a, m, i, hm, hi⟩

/-! ### Crashes

Recovery walks over the chain of the image and gives each record to the first leaf whose bound is not below its key.
The image is recoverable when this is the leaf that held the record. -/

theorem Grown.sorts {n : Nat} {M : Key → Option Word} (h : Grown n tail s M)
    (hm : s.dleafHeap L = some m) (hfull : m.maxUse = MAX_LEAF_KEY) :
    ∃ (σ : Equiv.Perm Nat) (buf : Nat → NodeEntry),
      readEntries s.pm { m with tempInsert := 1 } MAX_LEAF_KEY = .ok buf ∧
      qsort (2 * MAX_LEAF_KEY) 0 (MAX_LEAF_KEY - 1) buf m.fingerBuffer =
        some (buf ∘ σ, m.fingerBuffer ∘ σ) ∧
      SplitOf (s.setLeaf L { m with tempInsert := 1 }) L { m with tempInsert := 1 } σ buf := by
  have hview : SameView m { m with tempInsert := 1 } := SameView.of_slots rfl rfl
  have hlive := h.live.setLeaf hm hview rfl rfl (by simp [LockOK, Cuts.empty])
  exact hlive.sorts h.room (Function.update_self ..) hfull

theorem Grown.mem_pleaves {n : Nat} {M : Key → Option Word} (h : Grown n tail s M)
    {path : List Cursor} (hfind : findInsert s k = .ok (path, L)) (hm : s.dleafHeap L = some m) :
    m.altPtr ∈ LawfulPmem.leaves s.pm := by
  have hroute := h.live.routes_of_find hfind
  have hmem := h.live.mem_pleaves hroute.mem
  rwa [TreeState.altOf_some hm] at hmem

/-- The memory after some of the stores of the split that an insertion makes. -/
theorem Grown.crash {n : Nat} {M : Key → Option Word} (h : Grown (n + 1) tail s M) {path : List Cursor}
    (hfind : findInsert s k = .ok (path, L)) (hm : s.dleafHeap L = some m) {σ : Equiv.Perm Nat}
    {buf : Nat → NodeEntry}
    (hbuf : readEntries s.pm { m with tempInsert := 1 } MAX_LEAF_KEY = .ok buf)
    (hsort : qsort (2 * MAX_LEAF_KEY) 0 (MAX_LEAF_KEY - 1) buf m.fingerBuffer =
      some (buf ∘ σ, m.fingerBuffer ∘ σ)) (t : Tid) (count : Nat) :
    ∃ p, crashImage s t k count = .ok p ∧
      SplitImage s.pm m.altPtr (buf (σ (LEFT_KEY - 1))).oneKey (buf (σ (MAX_LEAF_KEY - 1))).oneKey p ∧
      (7 ≤ count → AllStored s.pm t m.altPtr (buf (σ (LEFT_KEY - 1))).oneKey
        (buf (σ (MAX_LEAF_KEY - 1))).oneKey p) := by
  have hm₁ : (s.setLeaf L { m with tempInsert := 1 }).dleafHeap L =
      some { m with tempInsert := 1 } := Function.update_self ..
  have hbuf₁ : readEntries (s.setLeaf L { m with tempInsert := 1 }).pm { m with tempInsert := 1 }
      MAX_LEAF_KEY = .ok buf := hbuf
  have hsort₁ : qsort (2 * MAX_LEAF_KEY) 0 (MAX_LEAF_KEY - 1) buf
      ({ m with tempInsert := 1 } : DLeaf).fingerBuffer = some (buf ∘ σ, m.fingerBuffer ∘ σ) := hsort
  obtain ⟨p, hdone, himage, hall⟩ := storesDone_image h.room t (h.mem_pleaves hfind hm)
    (buf (σ (LEFT_KEY - 1))).oneKey (buf (σ (MAX_LEAF_KEY - 1))).oneKey count
  refine ⟨p, ?_, himage, hall⟩
  simp only [crashImage, lockLeaf_free hfind hm (h.free L m hm), ok_bind, hm₁, deref_some, hbuf₁,
    hsort₁]
  exact hdone

/-- With all stores made, the `P_Leaf`s read as they do after the split. -/
theorem Grown.crash_all {n : Nat} {M : Key → Option Word} (h : Grown (n + 1) tail s M)
    {path : List Cursor} (hfind : findInsert s k = .ok (path, L)) (hm : s.dleafHeap L = some m)
    (hfull : m.maxUse = MAX_LEAF_KEY) (t : Tid) :
    ∃ p right key pl s', crashImage s t k 7 = .ok p ∧
      splitFull (s.setLeaf L { m with tempInsert := 1 }) t L = .ok (right, key, pl, s') ∧
      ∀ x ∈ LawfulPmem.leaves s'.pm, pleaf p x = pleaf s'.pm x := by
  obtain ⟨σ, buf, hbuf, hsort, -⟩ := h.sorts hm hfull
  obtain ⟨p, hcrash, -, hall⟩ := h.crash hfind hm hbuf hsort t 7
  obtain ⟨q, p₀, l, halloc, hold, hleft, hright, hsame⟩ := hall (Nat.le_refl 7)
  obtain ⟨q', p₁, p₂, l', halloc', hlink, -, -, hleaves, -, -, hold', hleft', hright', hsame'⟩ :=
    split_memory h.room t (h.mem_pleaves hfind hm) (buf (σ (LEFT_KEY - 1))).oneKey
      (buf (σ (MAX_LEAF_KEY - 1))).oneKey
  obtain ⟨rfl, rfl⟩ := Prod.mk.inj (Option.some.inj (halloc.symm.trans halloc'))
  obtain rfl := Option.some.inj (hold.symm.trans hold')
  refine ⟨p, _, _, _, _, hcrash, splitFull_eq_ok.mpr ⟨{ m with tempInsert := 1 }, buf, buf ∘ σ,
    m.fingerBuffer ∘ σ, q, p₀, p₂, Function.update_self .., hbuf, hsort, halloc, hlink, rfl⟩, ?_⟩
  intro x hx
  have hx' : x ∈ LawfulPmem.leaves p₂ := hx
  rw [hleaves] at hx'
  show pleaf p x = pleaf p₂ x
  rcases hx' with rfl | hx'
  · rw [hright, hright']
  · by_cases hxl : x = m.altPtr
    · rw [hxl, hleft, hleft']
    · rw [hsame x ⟨hx', hxl⟩, hsame' x ⟨hx', hxl⟩]

/-- A split is crash consistent: in every state that insertions of distinct keys lead to, and
for every number of stores of the split inside the next insertion, the chain leads through
all `P_Leaf`s and assigns the logged keys to them in order, no more to one than it can hold. -/
theorem split_crash_recoverable (pm : P) (t : Tid) (junkInner : Addr → InnerNode)
    (junkLeaf : Addr → DLeaf) (entries : List (Key × Word × BitVec 32))
    (hroom : LawfulPmem.Ok (2 * entries.length + 2) pm) (hkeys : (entries.map Prod.fst).Nodup) :
    ∃ s₀ answers s, init pm t junkInner junkLeaf = .ok s₀ ∧
      mapRun t s₀ (insertOps entries) = .ok (answers, s) ∧
      ∀ key path leaf m, findInsert s key = .ok (path, leaf) → s.dleafHeap leaf = some m →
        m.maxUse = MAX_LEAF_KEY → ∀ (t' : Tid) (count : Nat), ∃ p chain,
          crashImage s t' key count = .ok p ∧
          Recoverable p s.leafStart (entries.map Prod.fst) chain := by
  obtain ⟨s₀, hinit, h₀⟩ := grown_init (n := 2 * entries.length + 1) hroom t junkInner junkLeaf
  obtain ⟨answers, s, hrun, h⟩ := h₀.run t entries hkeys fun _ _ => rfl
  have hlogged : ∀ k ∈ entries.map Prod.fst, ∃ a, s.LiveIn a k := by
    intro k hk
    refine h.live_of_key ((specRun_isSome (insertOps entries) _ k).mpr (Or.inr ?_))
    rwa [insertedKeys_insertOps]
  refine ⟨s₀, answers, s, hinit, hrun, ?_⟩
  intro key path leaf m hfind hm hfull t' count
  obtain ⟨σ, buf, hbuf, hsort, hsp⟩ := h.sorts hm hfull
  obtain ⟨p, hcrash, himage, -⟩ := h.crash (n := 0) hfind hm hbuf hsort t' count
  have hview : SameView m { m with tempInsert := 1 } := SameView.of_slots rfl rfl
  have hlive : ∀ {i : Nat}, i < MAX_LEAF_KEY → s.LiveIn leaf (buf (σ i)).oneKey := fun hi =>
    (liveIn_setLeaf hm hview).mp (hsp.liveIn hi)
  cases himage with
  | unlinked hsame =>
    exact ⟨p, _, hcrash, h.bounds.recoverable_unlinked h.live h.room hsame hkeys hlogged⟩
  | linked q l l' r hfresh hold hleft hright hl' hr hmax hnew hsame =>
    have htop : ∀ k, s.LiveIn leaf k → k ≤ (buf (σ (MAX_LEAF_KEY - 1))).oneKey := by
      intro k hk
      obtain ⟨m₁, i, hm₁, hi⟩ := (liveIn_setLeaf hm hview).mpr hk
      rw [hsp.leaf, Option.some.injEq] at hm₁
      subst hm₁
      rw [← hi.keyAt]
      exact hsp.keyAt_le (hsp.full ▸ hi.1)
    obtain ⟨chain, hrec⟩ := h.bounds.recoverable_linked h.live h.room hm (hlive (by decide))
      (hlive (by decide)) htop hfresh hold hleft hright hl' hr hmax hnew hsame hkeys hlogged
    exact ⟨p, chain, hcrash, hrec⟩

def fullLeafEntries : List (Key × Word × BitVec 32) :=
  (List.range' 1 30).map fun i => (BitVec.ofNat 64 i, 7, 8)

/-- The crash after the new leaf of the first split is linked in, its old leaf still with the
bound it had before. -/
theorem split_crash_recoverable_first : ∃ s₀ answers s p chain,
    init (IdealPm.roomy 100) 0 zeroInner zeroLeaf = .ok s₀ ∧
      mapRun 0 s₀ (insertOps fullLeafEntries) = .ok (answers, s) ∧ crashImage s 0 31 5 = .ok p ∧
      Recoverable p s.leafStart (fullLeafEntries.map Prod.fst) chain := by
  obtain ⟨s₀, answers, s, hinit, hrun, hcrash⟩ := split_crash_recoverable (IdealPm.roomy 100) 0
    zeroInner zeroLeaf fullLeafEntries (IdealPm.roomy_lawful (by decide) (by decide)) (by decide)
  have hfacts : ((init (IdealPm.roomy 100) 0 zeroInner zeroLeaf >>= fun s₀ =>
      mapRun 0 s₀ (insertOps fullLeafEntries)).toOption.map fun r =>
        (r.2.tempLevel, (r.2.dleafHeap r.2.root).map DLeaf.maxUse)) = some (0, some 30) := by
    decide +kernel
  have hview := exec_reads (f := fun r : List Answer × TreeState IdealPm =>
    (r.2.tempLevel, (r.2.dleafHeap r.2.root).map DLeaf.maxUse))
    (bind_eq_ok.mpr ⟨s₀, hinit, hrun⟩) hfacts
  rw [Prod.mk.injEq, Option.map_eq_some_iff] at hview
  obtain ⟨hlevel, m, hm, hfull⟩ := hview
  have hfind : findInsert s 31 = .ok ([], s.root) := by
    rw [findInsert, if_pos hlevel]
  obtain ⟨p, chain, himage, hrec⟩ := hcrash 31 [] s.root m hfind hm hfull 0 5
  exact ⟨s₀, answers, s, p, chain, hinit, hrun, himage, hrec⟩

end ZBTree
