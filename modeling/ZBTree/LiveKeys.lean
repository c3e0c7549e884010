import ZBTree.Sequential

/-!
# The records of the live keys

What insertions and removals keep even when the inline pairs are stale and a key is held
twice: every used slot points to a record of its own, and the key of that record lies in
the range of the leaf. A removal keeps it when the free leaves the other records alone, a
split when the keys on its two sides differ.
-/

namespace ZBTree

open RangeIndex MultiwayTree Pmem

variable {P : Type} [Pmem P]

/-! ### The rounds of insert -/

theorem duplicate_lock (p : P) (m : DLeaf) (k : Key) (n i : Nat) :
    duplicate p { m with tempInsert := 1 } k n i = duplicate p m k n i := by
  induction n generalizing i with
  | zero => rfl
  | succ n ih => simp only [duplicate, ih]

theorem removeSlot_lock (p : P) (m : DLeaf) (k : Key) (n i : Nat) :
    removeSlot p { m with tempInsert := 1 } k n i = removeSlot p m k n i := by
  induction n generalizing i with
  | zero => rfl
  | succ n ih => simp only [removeSlot, ih]

/-- One round of `insert` at a leaf that is not held. -/
theorem insert_cases {s s' : TreeState P} {t : Tid} {k : Key} {v : Word} {len : BitVec 32}
    {fuel : Nat} {b : Bool} {path : List Cursor} {L : Addr} {m : DLeaf}
    (hfind : findInsert s k = .ok (path, L)) (hm : s.dleafHeap L = some m)
    (hrun : insert (fuel + 1) s t k v len = .ok (b, s')) (hfree : m.tempInsert = 0) :
    (b = false ∧ duplicate s.pm m k m.maxUse 0 = .ok true ∧
        s' = s.setLeaf L { m with tempInsert := 1 }) ∨
      (b = true ∧ duplicate s.pm m k m.maxUse 0 = .ok false ∧ m.maxUse < MAX_LEAF_KEY ∧
        fillSlot (s.setLeaf L { m with tempInsert := 1 }) t k v len L = .ok s') ∨
      (duplicate s.pm m k m.maxUse 0 = .ok false ∧ ¬ m.maxUse < MAX_LEAF_KEY ∧ ∃ R sk pl s₁ s₂,
        splitFull (s.setLeaf L { m with tempInsert := 1 }) t L = .ok (R, sk, pl, s₁) ∧
        installSeparator s₁ k sk L R pl = .ok s₂ ∧ insert fuel s₂ t k v len = .ok (b, s')) := by
  have hm₁ : (s.setLeaf L { m with tempInsert := 1 }).dleafHeap L =
      some { m with tempInsert := 1 } := Function.update_self ..
  rw [insert, lockLeaf_free hfind hm hfree] at hrun
  simp only [ok_bind, Bool.not_true, Bool.false_eq_true, if_false, hm₁, deref_some] at hrun
  obtain ⟨dup, hdup, hrun⟩ := bind_eq_ok.mp hrun
  have hdup' : duplicate s.pm m k m.maxUse 0 = .ok dup := (duplicate_lock ..).symm.trans hdup
  cases dup with
  | true =>
    rw [if_pos rfl, pure_eq_ok, Except.ok.injEq, Prod.mk.injEq] at hrun
    exact Or.inl ⟨hrun.1.symm, hdup', hrun.2.symm⟩
  | false =>
    rw [if_neg Bool.false_ne_true] at hrun
    by_cases hroom : m.maxUse < MAX_LEAF_KEY
    · rw [if_pos hroom] at hrun
      obtain ⟨s₁, hfill, hrun⟩ := bind_eq_ok.mp hrun
      rw [pure_eq_ok, Except.ok.injEq, Prod.mk.injEq] at hrun
      obtain ⟨rfl, rfl⟩ := hrun
      exact Or.inr (Or.inl ⟨rfl, hdup', hroom, hfill⟩)
    · rw [if_neg hroom] at hrun
      obtain ⟨⟨R, sk, pl, s₁⟩, hsplit, hrun⟩ := bind_eq_ok.mp hrun
      obtain ⟨s₂, hinst, hrun⟩ := bind_eq_ok.mp hrun
      exact Or.inr (Or.inr ⟨hdup', hroom, R, sk, pl, s₁, s₂, hsplit, hinst, hrun⟩)

/-! ### The invariant

`Live` is the invariant of runs with removals. The bounds of the inner nodes and both leaf chains are as in
`Inv`; a key may be gone from its leaf, and inline pairs may be wrong, so nothing is said about pairs. -/

variable [LawfulPmem P]

/-- From `p` to `p'` the record at `a` is freed, and nothing else changes for the tree. -/
structure FreesOnly (p : P) (a : Addr) (p' : P) : Prop where
  room : ∀ n, LawfulPmem.Ok n p → LawfulPmem.Ok n p'
  recs : LawfulPmem.recs p \ {a} ⊆ LawfulPmem.recs p'
  leaves : LawfulPmem.leaves p ⊆ LawfulPmem.leaves p'
  same_recs : SameRecs (LawfulPmem.recs p \ {a}) p p'
  same_leaves : SameLeaves (LawfulPmem.leaves p) p p'

/-- Two used slots never point to the same record. -/
def RecordsOnce (s : TreeState P) : Prop :=
  ∀ a b m n i j, s.dleafHeap a = some m → s.dleafHeap b = some n → i < m.maxUse → j < n.maxUse →
    m.ptr i = n.ptr j → a = b ∧ i = j

structure Live (cuts : Cuts) (tail : Addr) (s : TreeState P) : Prop where
  skel : Skeleton cuts tail s
  twin : Twin cuts s
  located : Located cuts s
  once : RecordsOnce s

variable {cuts : Cuts} {tail L a : Addr} {s : TreeState P} {m m' : DLeaf} {k : Key}

theorem Live.reaches (h : Live cuts tail s) (key : Key) :
    ∃ path leaf m, findInsert s key = .ok (path, leaf) ∧ Routes s.index key leaf ∧
      s.dleafHeap leaf = some m := by
  obtain ⟨path, leaf, hfind, hpath, hroutes⟩ := h.skel.upper.findInsert_spec key
  obtain ⟨m, hm⟩ := h.skel.of_index (hpath.1.mem_labels ⊥)
  exact ⟨path, leaf, m, hfind, hroutes h.located.sorted.of_expand, hm⟩

theorem Live.routes_of_find (h : Live cuts tail s) {key : Key} {path : List Cursor} {leaf : Addr}
    (hfind : findInsert s key = .ok (path, leaf)) : Routes s.index key leaf := by
  obtain ⟨path', leaf', m, hfind', hroute, -⟩ := h.reaches key
  rw [hfind] at hfind'
  cases hfind'
  exact hroute

theorem Live.read (h : Live cuts tail s) {n : Nat} (hok : LawfulPmem.Ok n s.pm)
    (hm : s.dleafHeap a = some m) {i : Nat} (hi : i < m.maxUse) :
    ∃ k v, logKey s.pm (m.ptr i) = some k ∧ logVal s.pm (m.ptr i) = some v :=
  LawfulPmem.rec_read hok (h.located.recs a m i hm hi)

omit [Pmem P] [LawfulPmem P] in
theorem RecordsOnce.setLeaf (h : RecordsOnce s) (hm : s.dleafHeap a = some m)
    (hview : SameView m m') : RecordsOnce (s.setLeaf a m') := by
  intro b c n n' i j hb hc hi hj heq
  obtain ⟨n₀, hb₀, hv, -⟩ := setLeaf_view hm hview hb
  obtain ⟨n₀', hc₀, hv', -⟩ := setLeaf_view hm hview hc
  rw [hv.use] at hi
  rw [hv'.use] at hj
  rw [hv.ptr hi, hv'.ptr hj] at heq
  exact h b c n₀ n₀' i j hb₀ hc₀ hi hj heq

theorem Live.setLeaf (h : Live cuts tail s) (hm : s.dleafHeap a = some m) (hview : SameView m m')
    (hnext : m'.next = m.next) (halt : m'.altPtr = m.altPtr) (hlock : LockOK (cuts a) m') :
    Live cuts tail (s.setLeaf a m') where
  skel := h.skel.setLeaf hm hnext (hview.use ▸ (h.skel.leaf a m hm).1) hlock
  twin := h.twin.setLeaf hm fun _ => halt
  located := h.located.setLeaf hm hview
  once := h.once.setLeaf hm hview

/-! ### Filling a slot -/

theorem Live.fill (h : Live cuts tail s) {n : Nat} (hok : LawfulPmem.Ok (n + 1) s.pm) {t : Tid}
    {v : Word} {len : BitVec 32} {s' : TreeState P} (hm : s.dleafHeap a = some m)
    (hroute : Routes (s.leaves cuts) k a) (hcut : cuts a = none) (hroom : m.maxUse < MAX_LEAF_KEY)
    (hrun : fillSlot s t k v len a = .ok s') :
    ∃ addr pm, s' = ({ s with pm := pm } : TreeState P).setLeaf a (m.push k addr) ∧
      addr < 2 ^ 48 ∧ logKey pm addr = some k ∧ logVal pm addr = some v ∧
      SameRecs (LawfulPmem.recs s.pm) s.pm pm ∧ SameLeaves (LawfulPmem.leaves s.pm) s.pm pm ∧
      LawfulPmem.Ok n pm ∧ Live cuts tail s' := by
  obtain ⟨addr, pm, happ, hok', hfresh, hrecs, hleaves, hkey, hval, hsameR, hsameL⟩ :=
    LawfulPmem.append_spec t k v m.altPtr LOG_INSERT len hok
  simp only [fillSlot, hm, deref_some, ok_bind, happ, pure_eq_ok, Except.ok.injEq] at hrun
  subst hrun
  have hlt : addr < 2 ^ 48 := LawfulPmem.rec_lt hok' (by rw [hrecs]; exact Set.mem_insert _ _)
  have hlock : LockOK (cuts a) (m.push k addr) := by simp [LockOK, hcut, DLeaf.push]
  -- the new record was in no slot
  have hold : ∀ b n i, s.dleafHeap b = some n → i < n.maxUse → n.ptr i ≠ addr := fun b n i hn hi heq =>
    hfresh (heq ▸ h.located.recs b n i hn hi)
  have honce : RecordsOnce (({ s with pm := pm } : TreeState P).setLeaf a (m.push k addr)) := by
    -- a slot of the new state is an old one, or the new one
    have hwhich : ∀ b n i, (({ s with pm := pm } : TreeState P).setLeaf a
        (m.push k addr)).dleafHeap b = some n → i < n.maxUse →
        (∃ n₀, s.dleafHeap b = some n₀ ∧ i < n₀.maxUse ∧ n.ptr i = n₀.ptr i) ∨
          (b = a ∧ i = m.maxUse ∧ n.ptr i = addr) := by
      intro b n i hn hi
      rcases fillState_heap hn with ⟨rfl, rfl⟩ | ⟨-, hn⟩
      · rcases Nat.lt_or_eq_of_le (Nat.le_of_lt_succ hi) with hi | rfl
        · exact Or.inl ⟨m, hm, hi, m.push_ptr_old k addr hi⟩
        · exact Or.inr ⟨rfl, rfl, m.push_ptr_new k hlt⟩
      · exact Or.inl ⟨n, hn, hi, rfl⟩
    intro b c n n' i j hb hc hi hj heq
    rcases hwhich b n i hb hi with ⟨n₀, hb₀, hi₀, hp⟩ | ⟨rfl, rfl, hp⟩
    · rcases hwhich c n' j hc hj with ⟨n₀', hc₀, hj₀, hp'⟩ | ⟨-, -, hp'⟩
      · rw [hp, hp'] at heq
        exact h.once b c n₀ n₀' i j hb₀ hc₀ hi₀ hj₀ heq
      · rw [hp, hp'] at heq
        exact absurd heq (hold b n₀ i hb₀ hi₀)
    · rcases hwhich c n' j hc hj with ⟨n₀', hc₀, hj₀, hp'⟩ | ⟨rfl, rfl, -⟩
      · rw [hp, hp'] at heq
        exact absurd heq.symm (hold c n₀' j hc₀ hj₀)
      · exact ⟨rfl, rfl⟩
  exact ⟨addr, pm, rfl, hlt, hkey, hval, hsameR, hsameL, hok', (h.skel.setPm pm).setLeaf hm rfl hroom hlock,
    (h.twin.setPm hleaves.ge fun _ hq => hsameL.pnext hq).setLeaf hm fun _ => rfl,
    h.located.fill hm hroute hlt hrecs hkey hsameR, honce⟩

/-! ### Removing a slot -/

/-- The slot that stands at `j` once slot `i` has been dropped. -/
def DLeaf.moved (m : DLeaf) (i j : Nat) : Nat := if j = i then m.maxUse - 1 else j

omit [Pmem P] [LawfulPmem P] in
theorem DLeaf.dropSlot_print (m : DLeaf) (i : Nat) {j : Nat} (hj : j < m.maxUse - 1) :
    (m.dropSlot i).fingerPrint j = m.fingerPrint (m.moved i j) := by
  unfold dropSlot moved
  by_cases hi : i = m.maxUse - 1
  · have hji : j ≠ i := by omega
    simp only [if_pos hi, if_neg hji]
  · simp only [if_neg hi, Function.update_apply]
    split_ifs <;> rfl

omit [Pmem P] [LawfulPmem P] in
theorem DLeaf.dropSlot_ptr (m : DLeaf) (i : Nat) {j : Nat} (hj : j < m.maxUse - 1) :
    (m.dropSlot i).ptr j = m.ptr (m.moved i j) :=
  congrArg (fun slot => slot.ptrField.toNat) (m.dropSlot_print i hj)

omit [Pmem P] [LawfulPmem P] in
theorem DLeaf.moved_lt {m : DLeaf} {i j : Nat} (hj : j < m.maxUse - 1) : m.moved i j < m.maxUse := by
  unfold moved
  split_ifs <;> omega

omit [Pmem P] [LawfulPmem P] in
theorem DLeaf.moved_ne {m : DLeaf} {i j : Nat} (hj : j < m.maxUse - 1) : m.moved i j ≠ i := by
  unfold moved
  split_ifs with heq
  · omega
  · exact heq

omit [Pmem P] [LawfulPmem P] in
theorem DLeaf.moved_inj {m : DLeaf} {i j j' : Nat} (hj : j < m.maxUse - 1) (hj' : j' < m.maxUse - 1)
    (h : m.moved i j = m.moved i j') : j = j' := by
  unfold moved at h
  split_ifs at h <;> omega

omit [Pmem P] [LawfulPmem P] in
theorem DLeaf.exists_moved {m : DLeaf} {i j : Nat} (hj : j < m.maxUse) (hi : i < m.maxUse)
    (hne : j ≠ i) : ∃ j', j' < m.maxUse - 1 ∧ m.moved i j' = j := by
  by_cases hlast : j = m.maxUse - 1
  · exact ⟨i, by omega, by rw [moved, if_pos rfl, hlast]⟩
  · exact ⟨j, by omega, if_neg hne⟩

omit [LawfulPmem P] in
theorem removeSlot_eq_some {p : P} {m : DLeaf} {k : Key} {n i r : Nat}
    (h : removeSlot p m k n i = .ok (some r)) :
    i ≤ r ∧ r < i + n ∧ logKey p (m.ptr r) = some k ∧
      (m.fingerPrint r).hashByte = hashfunc k := by
  induction n generalizing i with
  | zero => simp [removeSlot] at h
  | succ n ih =>
    rw [removeSlot] at h
    split at h
    · next hhash =>
      obtain ⟨k', hk', h⟩ := bind_eq_ok.mp h
      rw [deref_eq_ok] at hk'
      split at h
      · next heq =>
        simp only [pure_eq_ok, Except.ok.injEq, Option.some.injEq] at h
        subst h
        exact ⟨Nat.le_refl _, by omega, heq ▸ hk', hhash⟩
      · obtain ⟨hle, hlt, hkey⟩ := ih h
        exact ⟨by omega, by omega, hkey⟩
    · obtain ⟨hle, hlt, hkey⟩ := ih h
      exact ⟨by omega, by omega, hkey⟩

omit [LawfulPmem P] in
/-- One round of `simply_remove` at a leaf that is not held. -/
theorem simplyRemove_cases {s' : TreeState P} {t : Tid} {fuel : Nat} {b : Bool}
    {path : List Cursor} (hfind : findInsert s k = .ok (path, L)) (hm : s.dleafHeap L = some m)
    (hrun : simplyRemove (fuel + 1) s t k = .ok (b, s')) (hfree : m.tempInsert = 0) :
    (b = false ∧ removeSlot s.pm m k m.maxUse 0 = .ok none ∧ s' = s.setLeaf L m) ∨
      (b = true ∧ ∃ i pm₁ pm₂, removeSlot s.pm m k m.maxUse 0 = .ok (some i) ∧
        freeRecord s.pm t (m.ptr i) = some pm₁ ∧
        (if m.maxUse - 1 = 0 then ∃ l, pleaf pm₁ m.altPtr = some l ∧
            setPleaf pm₁ m.altPtr { l with maxKey := 0, versionField := l.versionField + 1 } = some pm₂
          else pm₂ = pm₁) ∧
        s' = ({ s with pm := pm₂ } : TreeState P).setLeaf L (m.dropSlot i)) := by
  have hm₁ : (s.setLeaf L { m with tempInsert := 1 }).dleafHeap L =
      some { m with tempInsert := 1 } := Function.update_self ..
  have hm' : ∀ n : DLeaf, n.tempInsert = 0 → { n with tempInsert := 0 } = n := by
    rintro ⟨⟩ rfl
    rfl
  have hdrop : ∀ i, { ({ m with tempInsert := 1 } : DLeaf).dropSlot i with tempInsert := 0 } =
      m.dropSlot i := fun i => hm' (m.dropSlot i) hfree
  rw [simplyRemove, lockLeaf_free hfind hm hfree] at hrun
  simp only [ok_bind, Bool.not_true, Bool.false_eq_true, if_false, removeFrom, hm₁, deref_some] at hrun
  obtain ⟨found, hfound, hrun⟩ := bind_eq_ok.mp hrun
  have hfound' : removeSlot s.pm m k m.maxUse 0 = .ok found := (removeSlot_lock ..).symm.trans hfound
  -- the key is not in the leaf, or it is in slot `i`
  cases found with
  | none =>
    simp only [pure_eq_ok, Except.ok.injEq, Prod.mk.injEq] at hrun
    refine Or.inl ⟨hrun.1.symm, hfound', ?_⟩
    rw [← hrun.2, hm' m hfree]
    simp only [TreeState.setLeaf, Function.update_idem]
  | some i =>
    obtain ⟨pm₁, hpm₁, hrun⟩ := bind_eq_ok.mp hrun
    rw [deref_eq_ok] at hpm₁
    split at hrun
    · next hempty =>
      -- the last slot is gone, so the `P_Leaf` gets `max_key` 0
      obtain ⟨l, hl, hrun⟩ := bind_eq_ok.mp hrun
      obtain ⟨pm₂, hset, hrun⟩ := bind_eq_ok.mp hrun
      rw [deref_eq_ok] at hl hset
      simp only [pure_eq_ok, Except.ok.injEq, Prod.mk.injEq] at hrun
      refine Or.inr ⟨hrun.1.symm, i, pm₁, pm₂, hfound', hpm₁, ?_, ?_⟩
      · have huse : m.maxUse - 1 = 0 := hempty
        rw [if_pos huse]
        exact ⟨l, hl, hset⟩
      · rw [← hrun.2, hdrop]
        simp only [TreeState.setLeaf, Function.update_idem]
    · next hempty =>
      simp only [pure_eq_ok, Except.ok.injEq, Prod.mk.injEq] at hrun
      refine Or.inr ⟨hrun.1.symm, i, pm₁, pm₁, hfound', hpm₁, ?_, ?_⟩
      · have huse : ¬ m.maxUse - 1 = 0 := hempty
        rw [if_neg huse]
      · rw [← hrun.2, hdrop]
        simp only [TreeState.setLeaf, Function.update_idem]

omit [LawfulPmem P] in
theorem simplyRemove_held {path : List Cursor} (hfind : findInsert s k = .ok (path, L))
    (hm : s.dleafHeap L = some m) (hheld : m.tempInsert ≠ 0) (t : Tid) (fuel : Nat) :
    simplyRemove fuel s t k = .error .spin := by
  induction fuel with
  | zero => rfl
  | succ fuel ih =>
    simp only [simplyRemove, lockLeaf, hfind, ok_bind, hm, deref_some, if_neg hheld, pure_eq_ok,
      Bool.not_false, if_true, ih]

/-- The memory after a removal at the `P_Leaf` `pl`; `emptied` says that no slot is left. -/
structure Removed (emptied : Prop) [Decidable emptied] (n : Nat) (p : P) (a pl : Addr) (p' : P) :
    Prop where
  room : LawfulPmem.Ok n p'
  recs : LawfulPmem.recs p \ {a} ⊆ LawfulPmem.recs p'
  leaves : LawfulPmem.leaves p ⊆ LawfulPmem.leaves p'
  same_recs : SameRecs (LawfulPmem.recs p \ {a}) p p'
  same_leaves : SameLeaves (LawfulPmem.leaves p \ {pl}) p p'
  pleaf : ∃ l, Pmem.pleaf p pl = some l ∧ Pmem.pleaf p' pl =
    some (if emptied then { l with maxKey := 0, versionField := l.versionField + 1 } else l)

theorem FreesOnly.removed {emptied : Prop} [Decidable emptied] {n : Nat} {p p₁ p₂ : P} {pl : Addr}
    (h : FreesOnly p a p₁) (hok : LawfulPmem.Ok n p) (hpl : pl ∈ LawfulPmem.leaves p)
    (hlast : if emptied then ∃ l, pleaf p₁ pl = some l ∧
        setPleaf p₁ pl { l with maxKey := 0, versionField := l.versionField + 1 } = some p₂
      else p₂ = p₁) : Removed emptied n p a pl p₂ := by
  obtain ⟨-, l, hl⟩ := LawfulPmem.leaf_read hok hpl
  have hl₁ : pleaf p₁ pl = some l := (h.same_leaves pl hpl).trans hl
  split at hlast
  · next he =>
    obtain ⟨l', hl', hset⟩ := hlast
    rw [hl₁, Option.some.injEq] at hl'
    subst hl'
    obtain ⟨p', hset', hok', hrecs, hleaves, hread, hsameR, hsameL⟩ :=
      LawfulPmem.setLeaf_spec { l with maxKey := 0, versionField := l.versionField + 1 }
        (h.room n hok) (h.leaves hpl)
    rw [hset', Option.some.injEq] at hset
    subst hset
    refine ⟨hok', ?_, ?_, ?_, ?_, l, hl, by rw [if_pos he, hread]⟩
    · rw [hrecs]
      exact h.recs
    · rw [hleaves]
      exact h.leaves
    · intro x hx
      obtain ⟨hk, hv⟩ := h.same_recs x hx
      obtain ⟨hk', hv'⟩ := hsameR x (h.recs hx)
      exact ⟨hk'.trans hk, hv'.trans hv⟩
    · rintro x ⟨hx, hne⟩
      rw [hsameL x ⟨h.leaves hx, hne⟩, h.same_leaves x hx]
  · next he =>
    subst hlast
    exact ⟨h.room n hok, h.recs, h.leaves, h.same_recs, fun x hx => h.same_leaves x hx.1, l, hl,
      by rw [if_neg he, hl₁]⟩

theorem Removed.pnext {emptied : Prop} [Decidable emptied] {n : Nat} {p p' : P} {pl : Addr}
    (h : Removed emptied n p a pl p') {q : Addr} (hq : q ∈ LawfulPmem.leaves p) :
    pnext p' q = pnext p q := by
  by_cases hqpl : q = pl
  · subst hqpl
    obtain ⟨l, hl, hl'⟩ := h.pleaf
    rw [pnext_some hl, pnext_some hl']
    split_ifs <;> rfl
  · exact h.same_leaves.pnext ⟨hq, hqpl⟩

omit [Pmem P] [LawfulPmem P] in
theorem dropState_heap {pm : P} {i : Nat} {b : Addr} {n : DLeaf}
    (hn : (({ s with pm := pm } : TreeState P).setLeaf a (m.dropSlot i)).dleafHeap b = some n) :
    (b = a ∧ n = m.dropSlot i) ∨ (b ≠ a ∧ s.dleafHeap b = some n) := by
  by_cases hb : b = a
  · subst hb
    simp only [TreeState.setLeaf, Function.update_self, Option.some.injEq] at hn
    exact Or.inl ⟨rfl, hn.symm⟩
  · simp only [TreeState.setLeaf, Function.update_of_ne hb] at hn
    exact Or.inr ⟨hb, hn⟩

section Drop

variable {emptied : Prop} [Decidable emptied] {n i : Nat} {pl : Addr} {pm : P}

theorem Live.drop_hasKey (h : Live cuts tail s) (hm : s.dleafHeap a = some m) (hi : i < m.maxUse)
    (hrem : Removed emptied n s.pm (m.ptr i) pl pm) {j : Nat} :
    HasKey pm (m.dropSlot i) k j ↔ j < m.maxUse - 1 ∧ HasKey s.pm m k (m.moved i j) := by
  have huse : (m.dropSlot i).maxUse = m.maxUse - 1 := rfl
  simp only [HasKey, huse]
  refine and_congr_right fun hj => ?_
  have hlt := DLeaf.moved_lt (i := i) hj
  have hne : m.ptr (m.moved i j) ≠ m.ptr i := fun heq =>
    DLeaf.moved_ne hj (h.once a a m m _ i hm hm hlt hi heq).2
  rw [m.dropSlot_ptr i hj, (hrem.same_recs _ ⟨h.located.recs a m _ hm hlt, hne⟩).1]
  exact (and_iff_right hlt).symm

theorem Live.drop_same (h : Live cuts tail s) (hm : s.dleafHeap a = some m) (hi : i < m.maxUse)
    (hrem : Removed emptied n s.pm (m.ptr i) pl pm) {b : Addr} {m₁ : DLeaf} (hb : b ≠ a)
    (hm₁ : s.dleafHeap b = some m₁) : SameSlots s.pm pm m₁ := by
  intro j hj
  refine hrem.same_recs _ ⟨h.located.recs b m₁ j hm₁ hj, fun heq => hb ?_⟩
  exact (h.once b a m₁ m j i hm₁ hm hj hi heq).1

theorem Live.drop (h : Live cuts tail s) (hm : s.dleafHeap a = some m) (hi : i < m.maxUse)
    (hcut : cuts a = none) (hfree : m.tempInsert = 0)
    (hrem : Removed emptied n s.pm (m.ptr i) pl pm) :
    Live cuts tail (({ s with pm := pm } : TreeState P).setLeaf a (m.dropSlot i)) := by
  have huse : (m.dropSlot i).maxUse ≤ MAX_LEAF_KEY :=
    (Nat.sub_le _ _).trans (h.skel.leaf a m hm).1
  have hlock : LockOK (cuts a) (m.dropSlot i) := by
    have hzero : (m.dropSlot i).tempInsert = 0 := hfree
    simp [LockOK, hcut, hzero]
  -- a slot of the new state is a slot of the old one, and not the dropped one
  have hwhich : ∀ b n j, (({ s with pm := pm } : TreeState P).setLeaf a
      (m.dropSlot i)).dleafHeap b = some n → j < n.maxUse → ∃ n₀ j₀, s.dleafHeap b = some n₀ ∧
        j₀ < n₀.maxUse ∧ n.ptr j = n₀.ptr j₀ ∧ n₀.ptr j₀ ≠ m.ptr i ∧
        (b = a ∧ n₀ = m ∧ j < m.maxUse - 1 ∧ j₀ = m.moved i j ∨ b ≠ a ∧ j₀ = j) := by
    intro b n' j hn hj
    rcases dropState_heap hn with ⟨rfl, rfl⟩ | ⟨hb, hn⟩
    · have hlt := DLeaf.moved_lt (i := i) hj
      refine ⟨m, m.moved i j, hm, hlt, m.dropSlot_ptr i hj, fun heq => ?_, Or.inl ⟨rfl, rfl, hj, rfl⟩⟩
      exact DLeaf.moved_ne hj (h.once b b m m _ i hm hm hlt hi heq).2
    · exact ⟨n', j, hn, hj, rfl, fun heq => hb (h.once b a n' m j i hn hm hj hi heq).1,
        Or.inr ⟨hb, rfl⟩⟩
  refine ⟨(h.skel.setPm pm).setLeaf hm rfl huse hlock, ?_, ⟨h.located.sorted, ?_, ?_⟩, ?_⟩
  · exact (h.twin.setPm hrem.leaves fun q hq => hrem.pnext hq).setLeaf hm fun _ => rfl
  · intro b n' j hn hj
    obtain ⟨n₀, j₀, hn₀, hj₀, hptr, hne, -⟩ := hwhich b n' j hn hj
    rw [hptr]
    exact hrem.recs ⟨h.located.recs b n₀ j₀ hn₀ hj₀, hne⟩
  · intro b n' k j hn hj
    rcases dropState_heap hn with ⟨rfl, rfl⟩ | ⟨hb, hn⟩
    · exact h.located.range b m k _ hm ((h.drop_hasKey hm hi hrem).mp hj).2
    · exact h.located.range b n' k j hn ((hasKey_congr (h.drop_same hm hi hrem hb hn)).mp hj)
  · -- two slots never share a record: the last slot has moved, and no other
    intro b c n' n'' j j' hb hc hj hj' heq
    obtain ⟨n₀, j₀, hn₀, hj₀, hptr, -, hfrom⟩ := hwhich b n' j hb hj
    obtain ⟨n₀', j₀', hn₀', hj₀', hptr', -, hfrom'⟩ := hwhich c n'' j' hc hj'
    rw [hptr, hptr'] at heq
    obtain ⟨rfl, rfl⟩ := h.once b c n₀ n₀' j₀ j₀' hn₀ hn₀' hj₀ hj₀' heq
    refine ⟨rfl, ?_⟩
    rcases hfrom with ⟨hba, rfl, hlt, hmoved⟩ | ⟨hba, rfl⟩
    · rcases hfrom' with ⟨-, -, hlt', hmoved'⟩ | ⟨hba', -⟩
      · exact DLeaf.moved_inj hlt hlt' (hmoved.symm.trans hmoved')
      · exact absurd hba hba'
    · rcases hfrom' with ⟨hba', -⟩ | ⟨-, rfl⟩
      · exact absurd hba' hba
      · rfl

end Drop

/-! ### Splitting a leaf -/

section Split

variable {σ : Equiv.Perm Nat} {buf : Nat → NodeEntry} {newLeaf : Addr} {pm : P}

omit [Pmem P] [LawfulPmem P] in
theorem RecordsOnce.split [Pmem P] (h : RecordsOnce s) (hsp : SplitOf s L m σ buf) (hL : L < s.brk) :
    RecordsOnce (afterSplit s L m σ buf newLeaf pm) := by
  -- where the slots come from, with the halves told apart by the place in the sorted order
  have hwhich : ∀ b n i, (afterSplit s L m σ buf newLeaf pm).dleafHeap b = some n → i < n.maxUse →
      (∃ off, off ≤ LEFT_KEY ∧ i < LEFT_KEY ∧ n.ptr i = m.ptr (σ (i + off)) ∧
        (b = L ∧ off = 0 ∨ b = s.brk + 1 ∧ off = LEFT_KEY)) ∨
      (b ≠ L ∧ s.dleafHeap b = some n) := by
    intro b n i hn hi
    rcases afterSplit_heap hL hn with ⟨rfl, hh⟩ | ⟨rfl, hh⟩ | ⟨hbL, -, hn⟩
    · rw [hh.use] at hi
      exact Or.inl ⟨0, Nat.zero_le _, hi, hh.ptr hi, Or.inl ⟨rfl, rfl⟩⟩
    · rw [hh.use] at hi
      exact Or.inl ⟨LEFT_KEY, Nat.le_refl _, hi, hh.ptr hi, Or.inr ⟨rfl, rfl⟩⟩
    · exact Or.inr ⟨hbL, hn⟩
  have hlt : ∀ {off i}, off ≤ LEFT_KEY → i < LEFT_KEY → σ (i + off) < m.maxUse := by
    intro off i hoff hi
    rw [hsp.full]
    exact IsHalf.source_lt hsp.perm hoff hi
  intro b c n n' i j hb hc hi hj heq
  rcases hwhich b n i hb hi with ⟨off, hoff, hi', hp, hside⟩ | ⟨hbL, hb'⟩
  · rcases hwhich c n' j hc hj with ⟨off', hoff', hj', hp', hside'⟩ | ⟨hcL, hc'⟩
    · rw [hp, hp'] at heq
      obtain ⟨-, hsrc⟩ := h L L m m _ _ hsp.leaf hsp.leaf (hlt hoff hi') (hlt hoff' hj') heq
      have hpos : i + off = j + off' := σ.injective hsrc
      rcases hside with ⟨rfl, rfl⟩ | ⟨rfl, rfl⟩
      · rcases hside' with ⟨rfl, rfl⟩ | ⟨rfl, rfl⟩
        · exact ⟨rfl, hpos⟩
        · omega
      · rcases hside' with ⟨rfl, rfl⟩ | ⟨rfl, rfl⟩
        · omega
        · exact ⟨rfl, by omega⟩
    · rw [hp] at heq
      exact absurd (h L c m n' _ j hsp.leaf hc' (hlt hoff hi') hj heq).1.symm hcL
  · rcases hwhich c n' j hc hj with ⟨off', hoff', hj', hp', -⟩ | ⟨-, hc'⟩
    · rw [hp'] at heq
      exact absurd (h b L n m i _ hb' hsp.leaf hi (hlt hoff' hj') heq).1 hbL
    · exact h b c n n' i j hb' hc' hi hj heq

/-- The key of the record that slot `i` points to. -/
def keyAt (p : P) (m : DLeaf) (i : Nat) : Key := (logKey p (m.ptr i)).getD 0

omit [LawfulPmem P] in
theorem HasKey.keyAt {p : P} {i : Nat} (h : HasKey p m k i) : keyAt p m i = k := by
  rw [ZBTree.keyAt, h.2, Option.getD_some]

/-- Fifteen of the thirty keys of a full leaf lie up to some key `c`, so the two halves of
the leaf share no key. -/
def CutsCleanly (p : P) (m : DLeaf) : Prop :=
  ∃ c : Key, (List.range MAX_LEAF_KEY).countP (fun i => decide (keyAt p m i ≤ c)) = LEFT_KEY

omit [LawfulPmem P] in
theorem SplitOf.keyAt (hsp : SplitOf s L m σ buf) {i : Nat} (hi : i < MAX_LEAF_KEY) :
    keyAt s.pm m (σ i) = (buf (σ i)).oneKey := (hsp.hasKey hi).keyAt

omit [LawfulPmem P] in
theorem SplitOf.clean (hsp : SplitOf s L m σ buf) (h : CutsCleanly s.pm m) :
    (buf (σ SPLIT_POS)).oneKey < (buf (σ LEFT_KEY)).oneKey := by
  obtain ⟨c, hcount⟩ := h
  have hcomp := hsp.perm.countP_comp fun i => decide (ZBTree.keyAt s.pm m i ≤ c)
  have hcount' : (List.range MAX_LEAF_KEY).countP
      (fun i => decide ((buf (σ i)).oneKey ≤ c)) = SPLIT_POS + 1 := by
    refine (List.countP_congr fun i hi => ?_).trans (hcomp.trans hcount)
    simp only [Function.comp_apply, hsp.keyAt (List.mem_range.mp hi)]
  obtain ⟨hle, hlt⟩ := Arrays.cut_of_countP (fun i j hij hj => hsp.le hij hj) (by decide) hcount'
  exact hle.trans_lt hlt

/-- However the keys of the leaf are sorted, the fifteenth and the sixteenth differ. -/
def HalvesApart (s : TreeState P) (L : Addr) (m : DLeaf) : Prop :=
  ∀ (σ : Equiv.Perm Nat) (buf : Nat → NodeEntry), SplitOf s L m σ buf →
    (buf (σ SPLIT_POS)).oneKey < (buf (σ LEFT_KEY)).oneKey

/-- What a split of the leaf `L`, which was `m`, and the recording of it leave behind. -/
structure Divided (tail : Addr) (s s' : TreeState P) (L : Addr) (m : DLeaf) (σ : Equiv.Perm Nat)
    (buf : Nat → NodeEntry) (n : Nat) : Prop where
  live : Live Cuts.empty tail s'
  room : LawfulPmem.Ok n s'.pm
  clean : (buf (σ SPLIT_POS)).oneKey < (buf (σ LEFT_KEY)).oneKey
  index : InsAfter L (buf (σ SPLIT_POS)).oneKey (s.brk + 1) s.index s'.index
  left : ∃ l pl, s'.dleafHeap L = some l ∧ IsHalf m σ buf 0 l ∧ l.tempInsert = 0 ∧
    l.altPtr = m.altPtr ∧ pleaf s'.pm l.altPtr = some pl ∧ pl.maxKey = (buf (σ SPLIT_POS)).oneKey
  right : ∃ r pr, s'.dleafHeap (s.brk + 1) = some r ∧ IsHalf m σ buf LEFT_KEY r ∧
    r.tempInsert = 0 ∧ pleaf s'.pm r.altPtr = some pr ∧
    pr.maxKey = (buf (σ (MAX_LEAF_KEY - 1))).oneKey
  others : ∀ b, b ≠ L → b ≠ s.brk + 1 → s'.dleafHeap b = s.dleafHeap b
  same_recs : SameRecs (LawfulPmem.recs s.pm) s.pm s'.pm
  same_leaves : SameLeaves (LawfulPmem.leaves s.pm \ {m.altPtr}) s.pm s'.pm

theorem Live.sorts (h : Live Cuts.empty tail s) {n : Nat} (hok : LawfulPmem.Ok n s.pm)
    (hm : s.dleafHeap L = some m) (hfull : m.maxUse = MAX_LEAF_KEY) :
    ∃ (σ : Equiv.Perm Nat) (buf : Nat → NodeEntry), readEntries s.pm m MAX_LEAF_KEY = .ok buf ∧
      qsort (2 * MAX_LEAF_KEY) 0 (MAX_LEAF_KEY - 1) buf m.fingerBuffer =
        some (buf ∘ σ, m.fingerBuffer ∘ σ) ∧ SplitOf s L m σ buf := by
  obtain ⟨buf, hbuf, hentries⟩ := readEntries_spec MAX_LEAF_KEY fun i hi =>
    h.read hok hm (by rw [hfull]; exact hi)
  obtain ⟨σ, hsort, hperm, hsorted⟩ := qsort_spec 29 (2 * MAX_LEAF_KEY) 0 (MAX_LEAF_KEY - 1) buf
    m.fingerBuffer (by decide) (by decide)
  exact ⟨σ, buf, hbuf, hsort, hm, hfull, hperm, hsorted, hentries⟩

theorem Live.splitFull (h : Live Cuts.empty tail s) {n : Nat} (hok : LawfulPmem.Ok (n + 1) s.pm)
    (t : Tid) (hL : L ∈ labels s.index) (hm : s.dleafHeap L = some m) (hheld : m.tempInsert = 1)
    (hfull : m.maxUse = MAX_LEAF_KEY) (hapart : HalvesApart s L m) :
    ∃ (σ : Equiv.Perm Nat) (buf : Nat → NodeEntry) (q : Addr) (pm : P) (l : PLeaf),
      SplitOf s L m σ buf ∧ (buf (σ SPLIT_POS)).oneKey < (buf (σ LEFT_KEY)).oneKey ∧
      ZBTree.splitFull s t L = .ok (s.brk + 1, (buf (σ SPLIT_POS)).oneKey, m.altPtr,
        afterSplit s L m σ buf q pm) ∧
      Live (Function.update Cuts.empty L (some (splitCut s m σ buf))) tail
        (afterSplit s L m σ buf q pm) ∧
      LawfulPmem.Ok n pm ∧ SameRecs (LawfulPmem.recs s.pm) s.pm pm ∧
      SameLeaves (LawfulPmem.leaves s.pm \ {m.altPtr}) s.pm pm ∧
      pleaf pm m.altPtr = some ⟨l.versionField + 1, (buf (σ SPLIT_POS)).oneKey, q⟩ ∧
      pleaf pm q = some ⟨0, (buf (σ (MAX_LEAF_KEY - 1))).oneKey, l.next⟩ := by
  obtain ⟨σ, buf, hbuf, hsort, hsp⟩ := h.sorts hok hm hfull
  have hlt := hapart σ buf hsp
  have hpl : m.altPtr ∈ LawfulPmem.leaves s.pm := by
    have hmem := h.twin.mem L (mem_leaves_of_index hL)
    rwa [TreeState.pleafOf, Cuts.empty, TreeState.altOf_some hm] at hmem
  obtain ⟨q, pm₁, pm₂, l, halloc, hlink, hok₂, hqfresh, hleaves₂, hrecs₂, hsame, hl, hleft, hright,
    hoff⟩ := split_memory hok t hpl ((buf ∘ σ) (LEFT_KEY - 1)).oneKey
      ((buf ∘ σ) (MAX_LEAF_KEY - 1)).oneKey
  have htwin : Twin (Function.update Cuts.empty L (some (splitCut s m σ buf)))
      (afterSplit s L m σ buf q pm₂) := by
    refine h.twin.split h.skel hm hL rfl hqfresh hleaves₂ (pnext_some hleft) ?_ ?_
    · rw [pnext_some hright, pnext_some hl]
    · exact fun x hx hxne => hoff.pnext ⟨hx, hxne⟩
  have hLlt := (h.skel.leaf_lt L (mem_leaves_of_index hL)).2
  refine ⟨σ, buf, q, pm₂, l, hsp, hlt, ?_, ⟨?_, htwin, ?_, ?_⟩, hok₂, hsame, hoff, hleft, hright⟩
  · exact splitFull_eq_ok.mpr ⟨m, buf, buf ∘ σ, m.fingerBuffer ∘ σ, q, pm₁, pm₂, hm, hbuf, hsort,
      halloc, hlink, rfl⟩
  · exact h.skel.split m _ _ q pm₂ _ hL rfl hm hheld
  · exact h.located.split h.skel hsp hL rfl hlt hrecs₂ hsame
  · exact h.once.split hsp hLlt

theorem Live.install (h : Live cuts tail s) {c : Cut} (hcut : cuts L = some c) {key : Key}
    {path : List Cursor} (hfind : findInsert s key = .ok (path, L)) :
    ∃ (s₁ s' : TreeState P) (m : DLeaf), installSeparator s key c.key L c.right c.pleaf = .ok s' ∧
      s.dleafHeap L = some m ∧ InsAfter L c.key c.right s.index s'.index ∧
      s₁.dleafHeap = s.dleafHeap ∧ s₁.pm = s.pm ∧
      s' = s₁.setLeaf L { m with tempInsert := 0, altPtr := c.pleaf } ∧
      Live (Function.update cuts L none) tail s' := by
  obtain ⟨s₁, s', hrun, hins, hbrk₁, hsame, ⟨m, hm, rfl⟩, hleaves, hskel⟩ := h.skel.install hcut hfind
  have hheap₁ : s₁.dleafHeap = s.dleafHeap := by rw [hsame]
  have hpm₁ : s₁.pm = s.pm := by rw [hsame]
  have hstart₁ : s₁.leafStart = s.leafStart := by rw [hsame]
  have hm₁ : s₁.dleafHeap L = some m := by rw [hheap₁, hm]
  have hview : SameView m { m with tempInsert := 0, altPtr := c.pleaf } := SameView.of_slots rfl rfl
  have honce₁ : RecordsOnce s₁ := by
    intro b b' n n' i j hb hb'
    rw [hheap₁] at hb hb'
    exact h.once b b' n n' i j hb hb'
  have hplaced₁ : Located (Function.update cuts L none) s₁ := h.located.congr hleaves hheap₁ hpm₁
  exact ⟨s₁, _, m, hrun, hm, hins, hheap₁, hpm₁, rfl, hskel,
    h.twin.install hcut hleaves hheap₁ hpm₁ hstart₁, hplaced₁.setLeaf hm₁ hview,
    honce₁.setLeaf hm₁ hview⟩

/-- Splitting the leaf that is held and recording the split. -/
theorem Live.divide (h : Live Cuts.empty tail s) {n : Nat} (hok : LawfulPmem.Ok (n + 1) s.pm)
    (t : Tid) {path : List Cursor} (hfind : findInsert s k = .ok (path, L))
    (hL : L ∈ labels s.index) (hm : s.dleafHeap L = some m) (hheld : m.tempInsert = 1)
    (hfull : m.maxUse = MAX_LEAF_KEY) (hapart : HalvesApart s L m) :
    ∃ (sk : Key) (s₂ s' : TreeState P) (σ : Equiv.Perm Nat) (buf : Nat → NodeEntry),
      ZBTree.splitFull s t L = .ok (s.brk + 1, sk, m.altPtr, s₂) ∧
      installSeparator s₂ k sk L (s.brk + 1) m.altPtr = .ok s' ∧ SplitOf s L m σ buf ∧
      Divided tail s s' L m σ buf n := by
  obtain ⟨σ, buf, q, pm, l, hsp, hlt, hsplit, hlive₂, hok₂, hsameR, hsameL, hleft, hright⟩ :=
    h.splitFull hok t hL hm hheld hfull hapart
  have hfind₂ : findInsert (afterSplit s L m σ buf q pm) k = .ok (path, L) := by
    rw [← hfind]
    refine findInsert_congr ?_ ?_ ?_ k <;> rfl
  obtain ⟨s₁, s', m₂, hinst, hm₂, hins, hheap₁, hpm₁, hs', hlive⟩ :=
    hlive₂.install (Function.update_self ..) hfind₂
  -- installing the separator ends the one cut there is
  have hcuts : Function.update (Function.update Cuts.empty L (some (splitCut s m σ buf))) L none =
      Cuts.empty := by
    rw [Function.update_idem]
    exact Function.update_eq_self L Cuts.empty
  rw [hcuts] at hlive
  have hLlt := (h.skel.leaf_lt L (mem_leaves_of_index hL)).2
  have hne : s.brk + 1 ≠ L := (hLlt.trans (Nat.lt_succ_self _)).ne'
  obtain ⟨hl, hr, hoff⟩ := splitState_heap m (m.fingerBuffer ∘ σ) (buf ∘ σ) q pm hLlt
  have hheap : ∀ b, b ≠ L → s'.dleafHeap b = (afterSplit s L m σ buf q pm).dleafHeap b := by
    intro b hb
    rw [hs']
    simp only [TreeState.setLeaf, Function.update_of_ne hb, hheap₁]
  have hpm' : s'.pm = pm := by
    rw [hs']
    exact hpm₁
  refine ⟨_, _, s', σ, buf, hsplit, hinst, hsp, hlive, hpm' ▸ hok₂, hlt, hins, ?_, ?_, ?_,
    hpm' ▸ hsameR, hpm' ▸ hsameL⟩
  · have hm₂' := hl.symm.trans hm₂
    rw [Option.some.injEq] at hm₂'
    have hhalf := isHalf_left m { m with altPtr := s.brk, tempInsert := m.tempInsert + 1 } σ buf
      (s.brk + 1)
    rw [hm₂'] at hhalf
    refine ⟨{ m₂ with tempInsert := 0, altPtr := m.altPtr },
      ⟨l.versionField + 1, (buf (σ SPLIT_POS)).oneKey, q⟩, ?_, ⟨hhalf.use, hhalf.slots⟩, rfl, rfl,
      ?_, rfl⟩
    · rw [hs']
      exact Function.update_self ..
    · rw [hpm']
      exact hleft
  · refine ⟨_, ⟨0, (buf (σ (MAX_LEAF_KEY - 1))).oneKey, l.next⟩, (hheap _ hne).trans hr,
      isHalf_right .., DLeaf.rightHalf_tempInsert .., ?_, rfl⟩
    rw [hpm', DLeaf.rightHalf_altPtr]
    exact hright
  · exact fun b hb hb' => (hheap b hb).trans (hoff b hb hb')

/-- The last round of an insertion: the key is found in its leaf, which stays held, or a free
slot is filled. -/
def LastRound (s : TreeState P) (t : Tid) (k : Key) (v : Word) (len : BitVec 32) (b : Bool)
    (s' : TreeState P) : Prop :=
  ∃ path L m, findInsert s k = .ok (path, L) ∧ s.dleafHeap L = some m ∧ m.tempInsert = 0 ∧
    ((b = false ∧ duplicate s.pm m k m.maxUse 0 = .ok true ∧
        s' = s.setLeaf L { m with tempInsert := 1 }) ∨
      (b = true ∧ duplicate s.pm m k m.maxUse 0 = .ok false ∧ m.maxUse < MAX_LEAF_KEY ∧
        fillSlot (s.setLeaf L { m with tempInsert := 1 }) t k v len L = .ok s'))

theorem Divided.halves (hd : Divided tail s s' L m σ buf n) (hs : Sorted s.index)
    (hnodup : (labels s.index).Nodup) (hroute : Routes s.index k L) {path : List Cursor} {L' : Addr}
    (hfind : findInsert s' k = .ok (path, L')) :
    ∃ m', s'.dleafHeap L' = some m' ∧ m'.tempInsert = 0 ∧ m'.maxUse = LEFT_KEY ∧
      (k ≤ (buf (σ SPLIT_POS)).oneKey ∧ L' = L ∨
        ¬ k ≤ (buf (σ SPLIT_POS)).oneKey ∧ L' = s.brk + 1) := by
  obtain ⟨path', L'', m', hfind', hroute', hm'⟩ := hd.live.reaches k
  rw [hfind] at hfind'
  cases hfind'
  have hsorted' : Sorted s'.index := hd.live.located.sorted.of_expand
  have hcut := hd.index.routes_cut hs hsorted' hnodup hroute
  split_ifs at hcut with hle
  · obtain rfl := hroute'.unique hsorted' hcut
    obtain ⟨l, pl, hl, hhalf, hfree, -⟩ := hd.left
    exact ⟨l, hl, hfree, hhalf.use, Or.inl ⟨hle, rfl⟩⟩
  · obtain rfl := hroute'.unique hsorted' hcut
    obtain ⟨r, pr, hr, hhalf, hfree, -⟩ := hd.right
    exact ⟨r, hr, hfree, hhalf.use, Or.inr ⟨hle, rfl⟩⟩

/-- An insertion is one round, or a round that splits the leaf followed by one that does not. -/
theorem Live.insert_rounds (h : Live Cuts.empty tail s) {n : Nat}
    (hok : LawfulPmem.Ok (n + 1) s.pm) {t : Tid} {v : Word} {len : BitVec 32} {fuel : Nat} {b : Bool}
    {s' : TreeState P} (hrun : insert fuel s t k v len = .ok (b, s'))
    (hapart : ∀ path L m, findInsert s k = .ok (path, L) → s.dleafHeap L = some m →
      duplicate s.pm m k m.maxUse 0 = .ok false → m.maxUse = MAX_LEAF_KEY →
      HalvesApart (s.setLeaf L { m with tempInsert := 1 }) L { m with tempInsert := 1 }) :
    LastRound s t k v len b s' ∨
      ∃ path L m s₁ σ buf, findInsert s k = .ok (path, L) ∧ s.dleafHeap L = some m ∧
        m.tempInsert = 0 ∧ m.maxUse = MAX_LEAF_KEY ∧ duplicate s.pm m k m.maxUse 0 = .ok false ∧
        Live Cuts.empty tail (s.setLeaf L { m with tempInsert := 1 }) ∧
        SplitOf (s.setLeaf L { m with tempInsert := 1 }) L { m with tempInsert := 1 } σ buf ∧
        Divided tail (s.setLeaf L { m with tempInsert := 1 }) s₁ L { m with tempInsert := 1 } σ buf n ∧
        LastRound s₁ t k v len b s' := by
  rcases fuel with _ | fuel
  · simp [insert] at hrun
  obtain ⟨path, L, m, hfind, hroute, hm⟩ := h.reaches k
  by_cases hfree : m.tempInsert = 0
  · -- a duplicate, a free slot, or a full leaf
    rcases insert_cases hfind hm hrun hfree with hdup | hfill | ⟨hdup, hfull, R, sk, pl, s₁, s₂,
      hsplit, hinst, hrest⟩
    · exact Or.inl ⟨path, L, m, hfind, hm, hfree, Or.inl hdup⟩
    · exact Or.inl ⟨path, L, m, hfind, hm, hfree, Or.inr hfill⟩
    · right
      have hfull' : m.maxUse = MAX_LEAF_KEY :=
        Nat.le_antisymm (h.skel.leaf L m hm).1 (not_lt.mp hfull)
      have hview : SameView m { m with tempInsert := 1 } := SameView.of_slots rfl rfl
      have hlive := h.setLeaf hm hview rfl rfl (by simp [LockOK, Cuts.empty])
      have hm₁ : (s.setLeaf L { m with tempInsert := 1 }).dleafHeap L =
          some { m with tempInsert := 1 } := Function.update_self ..
      have hfind₁ : findInsert (s.setLeaf L { m with tempInsert := 1 }) k = .ok (path, L) := by
        rw [← hfind]
        refine findInsert_congr ?_ ?_ ?_ k <;> rfl
      obtain ⟨sk', s₁', s₂', σ, buf, hsplit', hinst', hsp, hd⟩ := hlive.divide hok t hfind₁ hroute.mem
        hm₁ rfl hfull' (hapart path L m hfind hm hdup hfull')
      rw [hsplit', Except.ok.injEq, Prod.mk.injEq, Prod.mk.injEq, Prod.mk.injEq] at hsplit
      obtain ⟨rfl, rfl, rfl, rfl⟩ := hsplit
      obtain rfl : s₂' = s₂ := Except.ok.inj (hinst'.symm.trans hinst)
      refine ⟨path, L, m, s₂', σ, buf, hfind, hm, hfree, hfull', hdup, hlive, hsp, hd, ?_⟩
      -- the half that the key leads to now is free and has room
      obtain ⟨path', L', -, hfind', -⟩ := hd.live.reaches k
      obtain ⟨m', hm', hfree', huse', -⟩ := hd.halves hlive.located.sorted.of_expand
        hlive.skel.index_nodup hroute hfind'
      cases fuel with
      | zero => simp [insert] at hrest
      | succ fuel =>
        rcases insert_cases hfind' hm' hrest hfree' with hdup' | hfill | ⟨-, hfull'', -⟩
        · exact ⟨path', L', m', hfind', hm', hfree', Or.inl hdup'⟩
        · exact ⟨path', L', m', hfind', hm', hfree', Or.inr hfill⟩
        · exact absurd (by rw [huse']; decide) hfull''
  · -- a leaf that is held stays held when no other thread runs
    rw [insert_held hfind hm hfree] at hrun
    exact absurd hrun (by simp)

end Split

/-! ### A fresh tree -/

theorem Live.init {n : Nat} {pm : P} (hok : LawfulPmem.Ok (n + 1) pm) {t : Tid}
    {junkInner : Addr → InnerNode} {junkLeaf : Addr → DLeaf}
    (hrun : init pm t junkInner junkLeaf = .ok s) :
    Live Cuts.empty (junkLeaf 1).next s ∧ LawfulPmem.Ok n s.pm ∧ AllFree s ∧
      (∃ a, s.index = [(⊥, a)]) ∧ ∀ a m, s.dleafHeap a = some m → m.maxUse = 0 := by
  obtain ⟨s', hrun', hinv, hok', hfree, -, -⟩ := init_spec hok t junkInner junkLeaf
  obtain rfl : s' = s := Except.ok.inj (hrun'.symm.trans hrun)
  obtain ⟨q, -, -, pm₂, -, -, -, rfl⟩ := init_eq_ok.mp hrun
  have hempty : ∀ a m, (freshTree pm₂ q junkInner junkLeaf).dleafHeap a = some m → m.maxUse = 0 := by
    intro a m hm
    obtain ⟨-, rfl⟩ := freshTree_leaf.mp hm
    rfl
  refine ⟨⟨hinv.skel, hinv.twin, hinv.data.located, ?_⟩, hok', hfree, ⟨1, rfl⟩, hempty⟩
  intro a b m n i j hm _ hi
  rw [hempty a m hm] at hi
  exact absurd hi (Nat.not_lt_zero i)

theorem IdealPm.freesOnly {p p' : IdealPm} {t : Tid} {a : Addr} (h : freeRecord p t a = some p') :
    FreesOnly p a p' := by
  cases h
  exact ⟨fun _ hok => hok, Set.sdiff_subset, Set.Subset.refl _, fun _ _ => ⟨rfl, rfl⟩, fun _ _ => rfl⟩

end ZBTree
