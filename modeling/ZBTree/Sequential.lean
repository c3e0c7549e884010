import ZBTree.InsertSteps

/-!
# One operation at a time

The public operations between two of which no leaf is cut. An insertion of a new key
into a leaf that is not held goes round at most twice: a full leaf is split, and the
half the key then leads to has room.
-/

namespace ZBTree

open RangeIndex MultiwayTree Pmem LawfulPmem

variable {P : Type} [Pmem P]

def AllFree (s : TreeState P) : Prop := ∀ a m, s.dleafHeap a = some m → m.tempInsert = 0

omit [Pmem P] in
theorem lockLeaf_free {s : TreeState P} {k : Key} {path : List Cursor} {L : Addr} {m : DLeaf}
    (hfind : findInsert s k = .ok (path, L)) (hm : s.dleafHeap L = some m)
    (hfree : m.tempInsert = 0) :
    lockLeaf s k = .ok (true, L, s.setLeaf L { m with tempInsert := 1 }) := by
  simp only [lockLeaf, hfind, ok_bind, hm, deref_some, if_pos hfree, pure_eq_ok]

omit [Pmem P] in
theorem lockLeaf_cases {tree tree' : TreeState P} {key : Key} {leaf : Addr} {b : Bool}
    (h : lockLeaf tree key = .ok (b, leaf, tree')) : ∃ path m, findInsert tree key = .ok (path, leaf) ∧
      tree.dleafHeap leaf = some m ∧
        ((b = true ∧ m.tempInsert = 0 ∧ tree' = tree.setLeaf leaf { m with tempInsert := 1 }) ∨
          (b = false ∧ m.tempInsert ≠ 0 ∧ tree' = tree)) := by
  unfold lockLeaf at h
  simp only [bind_eq_ok, deref_eq_ok] at h
  obtain ⟨⟨path, leaf'⟩, hfind, m, hm, h⟩ := h
  split at h
  · next hfree =>
    cases h
    exact ⟨path, m, hfind, hm, Or.inl ⟨rfl, hfree, rfl⟩⟩
  · next hheld =>
    cases h
    exact ⟨path, m, hfind, hm, Or.inr ⟨rfl, hheld, rfl⟩⟩

variable [LawfulPmem P] {tail L a : Addr} {s : TreeState P} {m : DLeaf} {k : Key}

def Absent (s : TreeState P) (k : Key) : Prop :=
  ∀ a m i, s.dleafHeap a = some m → ¬ HasKey s.pm m k i

omit [LawfulPmem P] in
theorem present_or_absent (s : TreeState P) (k : Key) :
    (∃ a m i, s.dleafHeap a = some m ∧ HasKey s.pm m k i) ∨ Absent s k := by
  by_cases hthere : ∃ a m i, s.dleafHeap a = some m ∧ HasKey s.pm m k i
  · exact Or.inl hthere
  · exact Or.inr fun a m i hm hi => hthere ⟨a, m, i, hm, hi⟩

omit [LawfulPmem P] in
theorem absent_iff (hslots : ∀ a m, s.dleafHeap a = some m → SlotsOK s.pm m) :
    Absent s k ↔ ∀ v, ¬ s.Contains k v := by
  constructor
  · rintro h v ⟨a, m, ha, i, hi, -⟩
    exact h a m i ha hi
  · intro h a m i ha hi
    obtain ⟨v, -, hv⟩ := hi.holds (hslots a m ha)
    exact h v ⟨a, m, ha, hv⟩

omit [Pmem P] [LawfulPmem P] in
theorem allFree_setLeaf [Pmem P] {m' : DLeaf} (h : ∀ b n, b ≠ a → s.dleafHeap b = some n →
    n.tempInsert = 0) (hm' : m'.tempInsert = 0) : AllFree (s.setLeaf a m') := by
  intro b n hn
  by_cases hb : b = a
  · subst hb
    simp only [TreeState.setLeaf, Function.update_self, Option.some.injEq] at hn
    exact hn ▸ hm'
  · simp only [TreeState.setLeaf, Function.update_of_ne hb] at hn
    exact h b n hb hn

theorem Inv.lock {cuts : Cuts} (h : Inv cuts tail s) (hm : s.dleafHeap L = some m)
    (hcut : cuts L = none) : Inv cuts tail (s.setLeaf L { m with tempInsert := 1 }) :=
  h.setLeaf hm (SameView.of_slots rfl rfl) rfl rfl (by simp [LockOK, hcut])

/-! ### insert

In a tree of which no leaf is held one thread never waits: the first round fills a slot, or splits the leaf and the
second one fills a slot of a half. -/

/-- What an insertion of a new key does to a tree of which no leaf is cut. -/
structure Inserted (tail : Addr) (s s' : TreeState P) (k : Key) (v : Word) (n : Nat) : Prop where
  inv : Inv Cuts.empty tail s'
  room : Ok n s'.pm
  contains : ∀ k' v', s'.Contains k' v' ↔ s.Contains k' v' ∨ (k' = k ∧ v' = v)
  grows : Grows s s'
  free : AllFree s → AllFree s'
  leaves_le : s'.index.length ≤ s.index.length + 1

omit [LawfulPmem P] in
theorem insert_of_room {t : Tid} {v : Word} {len : BitVec 32} {path : List Cursor} {addr : Addr} {pm : P}
    (hfind : findInsert s k = .ok (path, L)) (hm : s.dleafHeap L = some m) (hfree : m.tempInsert = 0)
    (hdup : duplicate s.pm { m with tempInsert := 1 } k m.maxUse 0 = .ok false)
    (hroom : m.maxUse < MAX_LEAF_KEY)
    (happ : appendOne s.pm t k v m.altPtr LOG_INSERT len = some (addr, pm)) (fuel : Nat) :
    insert (fuel + 1) s t k v len =
      .ok (true, ({ s with pm := pm } : TreeState P).setLeaf L (m.push k addr)) := by
  have hm₁ : (s.setLeaf L { m with tempInsert := 1 }).dleafHeap L =
      some { m with tempInsert := 1 } := Function.update_self ..
  have hdup' : duplicate (s.setLeaf L { m with tempInsert := 1 }).pm { m with tempInsert := 1 } k
      m.maxUse 0 = .ok false := hdup
  have happ' : appendOne (s.setLeaf L { m with tempInsert := 1 }).pm t k v m.altPtr LOG_INSERT len =
      some (addr, pm) := happ
  -- the lock is overwritten by the release
  have hstate : ({ s.setLeaf L { m with tempInsert := 1 } with pm := pm } : TreeState P).setLeaf L
      (({ m with tempInsert := 1 } : DLeaf).push k addr) =
      ({ s with pm := pm } : TreeState P).setLeaf L (m.push k addr) := by
    simp only [TreeState.setLeaf, Function.update_idem]
    rfl
  rw [insert, lockLeaf_free hfind hm hfree]
  simp only [ok_bind, Bool.not_true, Bool.false_eq_true, if_false, hm₁, deref_some, hdup', if_pos hroom,
    ZBTree.fillSlot, happ', pure_eq_ok, hstate]

omit [LawfulPmem P] in
theorem insert_of_full {t : Tid} {v : Word} {len : BitVec 32} {path : List Cursor} {leaf2 insertLeaf : Addr}
    {splitKey : Key} {s₂ s₃ : TreeState P} (hfind : findInsert s k = .ok (path, L))
    (hm : s.dleafHeap L = some m) (hfree : m.tempInsert = 0)
    (hdup : duplicate s.pm { m with tempInsert := 1 } k m.maxUse 0 = .ok false)
    (hfull : ¬ m.maxUse < MAX_LEAF_KEY)
    (hsplit : splitFull (s.setLeaf L { m with tempInsert := 1 }) t L =
      .ok (leaf2, splitKey, insertLeaf, s₂))
    (hinst : installSeparator s₂ k splitKey L leaf2 insertLeaf = .ok s₃) (fuel : Nat) :
    insert (fuel + 1) s t k v len = insert fuel s₃ t k v len := by
  have hm₁ : (s.setLeaf L { m with tempInsert := 1 }).dleafHeap L =
      some { m with tempInsert := 1 } := Function.update_self ..
  have hdup' : duplicate (s.setLeaf L { m with tempInsert := 1 }).pm { m with tempInsert := 1 } k
      m.maxUse 0 = .ok false := hdup
  rw [insert, lockLeaf_free hfind hm hfree]
  simp only [ok_bind, Bool.not_true, Bool.false_eq_true, if_false, hm₁, deref_some, hdup', if_neg hfull,
    hsplit, hinst]

theorem duplicate_locked (h : Inv Cuts.empty tail s) (hm : s.dleafHeap L = some m) (hnew : Absent s k) :
    duplicate s.pm { m with tempInsert := 1 } k m.maxUse 0 = .ok false := by
  have hview : SameView m { m with tempInsert := 1 } := SameView.of_slots rfl rfl
  refine duplicate_miss (m := { m with tempInsert := 1 }) (SlotsOK.view hview (h.data.slots L m hm)) ?_
  exact fun i hi => hnew L m i hm (hview.hasKey_iff.mp hi)

theorem insert_room (h : Inv Cuts.empty tail s) {n : Nat} (hok : Ok (n + 1) s.pm) (t : Tid) (v : Word)
    (len : BitVec 32) {path : List Cursor} (hfind : findInsert s k = .ok (path, L))
    (hm : s.dleafHeap L = some m) (hfree : m.tempInsert = 0) (hroom : m.maxUse < MAX_LEAF_KEY)
    (hnew : Absent s k) (fuel : Nat) :
    ∃ s', insert (fuel + 1) s t k v len = .ok (true, s') ∧ Inserted tail s s' k v n ∧
      s'.index = s.index := by
  have hroute := h.routes_of_find hfind
  obtain ⟨addr, pm, happ, -, -, -, hok', hinv, hcont, hgrows⟩ :=
    h.append hok t v len hm hroute rfl hroom fun i => hnew L m i hm
  refine ⟨_, insert_of_room hfind hm hfree (duplicate_locked h hm hnew) hroom happ fuel,
    ⟨hinv, hok', hcont, hgrows, fun hall => ?_, Nat.le_succ _⟩, rfl⟩
  exact allFree_setLeaf (fun b n' _ hn => hall b n' hn) rfl

omit [Pmem P] [LawfulPmem P] in
theorem findInsertFrom_congr {s s' : TreeState P} (hheap : s'.innerHeap = s.innerHeap) (k : Key)
    (d : Nat) (a : Addr) : findInsertFrom s' k d a = findInsertFrom s k d a := by
  induction d generalizing a with
  | zero => rfl
  | succ d ih => simp only [findInsertFrom, hheap, ih]

omit [Pmem P] [LawfulPmem P] in
theorem findInsert_congr {s s' : TreeState P} (hheap : s'.innerHeap = s.innerHeap)
    (hroot : s'.root = s.root) (hlevel : s'.tempLevel = s.tempLevel) (k : Key) :
    findInsert s' k = findInsert s k := by
  simp only [findInsert, hroot, hlevel, findInsertFrom_congr hheap]

omit [Pmem P] [LawfulPmem P] in
theorem findInsert_setLeaf (s : TreeState P) (a : Addr) (m : DLeaf) (k : Key) :
    findInsert (s.setLeaf a m) k = findInsert s k := by
  refine findInsert_congr ?_ ?_ ?_ k <;> rfl

/-- What splitting the held leaf `L` and recording the split leave behind. -/
structure SplitDone (tail : Addr) (s s' : TreeState P) (L : Addr) (n : Nat) : Prop where
  inv : Inv Cuts.empty tail s'
  room : Ok n s'.pm
  contains : ∀ k v, s'.Contains k v ↔ s.Contains k v
  grows : Grows s s'
  index : ∃ sk, InsAfter L sk (s.brk + 1) s.index s'.index
  halves : ∀ b, b = L ∨ b = s.brk + 1 →
    ∃ m, s'.dleafHeap b = some m ∧ m.tempInsert = 0 ∧ m.maxUse = LEFT_KEY
  others : ∀ b, b ≠ L → b ≠ s.brk + 1 → s'.dleafHeap b = s.dleafHeap b

theorem SplitDone.leads {s' : TreeState P} {n : Nat} (hdone : SplitDone tail s s' L n)
    (h : Inv Cuts.empty tail s) (hroute : Routes s.index k L) :
    ∃ path' L' m', findInsert s' k = .ok (path', L') ∧ s'.dleafHeap L' = some m' ∧
      m'.tempInsert = 0 ∧ m'.maxUse = LEFT_KEY := by
  obtain ⟨path', L', m', hfind', -, hroute', hm'⟩ := hdone.inv.reaches k
  obtain ⟨sk', hins⟩ := hdone.index
  have hcut := hins.routes_cut h.data.sorted.of_expand hdone.inv.data.sorted.of_expand
    h.skel.index_nodup hroute
  have hL' : L' = L ∨ L' = s.brk + 1 := by
    split_ifs at hcut with hle
    · exact Or.inl (hroute'.unique hdone.inv.data.sorted.of_expand hcut)
    · exact Or.inr (hroute'.unique hdone.inv.data.sorted.of_expand hcut)
  obtain ⟨mh, hmh, hfreeh, huseh⟩ := hdone.halves L' hL'
  exact ⟨path', L', mh, hfind', hmh, hfreeh, huseh⟩

theorem SplitDone.absent {s' : TreeState P} {n : Nat}
    (hdone : SplitDone tail (s.setLeaf L { m with tempInsert := 1 }) s' L n) (h : Inv Cuts.empty tail s)
    (hm : s.dleafHeap L = some m) (hnew : Absent s k) : Absent s' k := by
  have hview : SameView m { m with tempInsert := 1 } := SameView.of_slots rfl rfl
  rw [absent_iff hdone.inv.data.slots]
  intro v' hv'
  refine (absent_iff h.data.slots).mp hnew v' ?_
  rwa [hdone.contains, contains_setLeaf hm hview] at hv'

/-- Recording a split, whatever order the slots were given. -/
theorem install_done (h : Inv Cuts.empty tail s) {n : Nat} {path : List Cursor} {σ : Equiv.Perm Nat}
    {buf : Nat → NodeEntry} {fingers : Nat → AdaptiveSlot} {q : Addr} {pm : P} (hL : L ∈ labels s.index)
    (hfind : findInsert s k = .ok (path, L)) (hok : Ok n pm)
    (hinv : Inv (Function.update Cuts.empty L (some (splitCut s m σ buf))) tail
      (splitState s L m fingers (buf ∘ σ) q pm))
    (hcont : ∀ k v, (splitState s L m fingers (buf ∘ σ) q pm).Contains k v ↔ s.Contains k v)
    (hgrows : Grows s (splitState s L m fingers (buf ∘ σ) q pm)) :
    ∃ s', installSeparator (splitState s L m fingers (buf ∘ σ) q pm) k (buf (σ SPLIT_POS)).oneKey L (s.brk + 1)
        m.altPtr = .ok s' ∧ SplitDone tail s s' L n ∧ s'.pm = pm := by
  have hfind₂ : findInsert (splitState s L m fingers (buf ∘ σ) q pm) k = .ok (path, L) := by
    rw [← hfind]
    refine findInsert_congr ?_ ?_ ?_ k <;> rfl
  obtain ⟨s₁, s', m₂, hinst, hm₂, hins, hsame, hs', hinv', hcont', hgrows'⟩ :=
    hinv.install (Function.update_self ..) hfind₂
  have hcuts : Function.update (Function.update Cuts.empty L (some (splitCut s m σ buf))) L none =
      Cuts.empty := by
    rw [Function.update_idem]
    exact Function.update_eq_self L Cuts.empty
  rw [hcuts] at hinv'
  have hLlt := (h.skel.leaf_lt L (mem_leaves_of_index hL)).2
  obtain ⟨hleft, hright, hoff⟩ := splitState_heap m fingers (buf ∘ σ) q pm hLlt
  have hheap₁ : s₁.dleafHeap = (splitState s L m fingers (buf ∘ σ) q pm).dleafHeap := by rw [hsame]
  have hheap : ∀ b, b ≠ L → s'.dleafHeap b = (splitState s L m fingers (buf ∘ σ) q pm).dleafHeap b := by
    intro b hb
    rw [hs']
    simp only [TreeState.setLeaf, Function.update_of_ne hb, hheap₁]
  have hpm : s'.pm = pm := by
    rw [hs']
    show s₁.pm = pm
    rw [hsame]
    rfl
  refine ⟨s', hinst, ⟨hinv', by rw [hpm]; exact hok, ?_, hgrows.trans hgrows', ⟨_, hins⟩, ?_, ?_⟩, hpm⟩
  · intro k' v'
    rw [hcont', hcont]
  · rintro b (rfl | rfl)
    · rw [hleft, Option.some.injEq] at hm₂
      have huse : m₂.maxUse = LEFT_KEY := by rw [← hm₂, DLeaf.leftHalf_maxUse]
      refine ⟨{ m₂ with tempInsert := 0, altPtr := m.altPtr }, ?_, rfl, huse⟩
      rw [hs']
      exact Function.update_self ..
    · have hne : s.brk + 1 ≠ L := (hLlt.trans (Nat.lt_succ_self _)).ne'
      exact ⟨_, (hheap _ hne).trans hright, DLeaf.rightHalf_tempInsert .., DLeaf.rightHalf_maxUse ..⟩
  · intro b hb hb'
    exact (hheap b hb).trans (hoff b hb hb')

theorem split_install (h : Inv Cuts.empty tail s) {n : Nat} (hok : Ok (n + 1) s.pm) (t : Tid)
    {path : List Cursor} (hfind : findInsert s k = .ok (path, L)) (hL : L ∈ labels s.index)
    (hm : s.dleafHeap L = some m) (hheld : m.tempInsert = 1) (hfull : m.maxUse = MAX_LEAF_KEY) :
    ∃ sk s₂ s', splitFull s t L = .ok (s.brk + 1, sk, m.altPtr, s₂) ∧
      installSeparator s₂ k sk L (s.brk + 1) m.altPtr = .ok s' ∧ SplitDone tail s s' L n := by
  obtain ⟨σ, buf, q, pm, hsp, hsplit, hok₂, hinv₂, hcont₂, hgrows₂⟩ :=
    h.splitFull hok t hm hL rfl hheld hfull
  obtain ⟨s', hinst, hdone, -⟩ := install_done h hL hfind hok₂ hinv₂ hcont₂ hgrows₂
  exact ⟨_, _, s', hsplit, hinst, hdone⟩

/-- The round that splits the leaf: what it leaves behind has the same content, and the
leaf the key leads to now has room. -/
theorem insert_full (h : Inv Cuts.empty tail s) {n : Nat} (hok : Ok (n + 1) s.pm) (t : Tid) (v : Word)
    (len : BitVec 32) {path : List Cursor} (hfind : findInsert s k = .ok (path, L))
    (hm : s.dleafHeap L = some m) (hfree : m.tempInsert = 0) (hfull : ¬ m.maxUse < MAX_LEAF_KEY)
    (hnew : Absent s k) (fuel : Nat) :
    ∃ s', insert (fuel + 1) s t k v len = insert fuel s' t k v len ∧
      SplitDone tail (s.setLeaf L { m with tempInsert := 1 }) s' L n ∧
      ∃ path' L' m', findInsert s' k = .ok (path', L') ∧ s'.dleafHeap L' = some m' ∧
        m'.tempInsert = 0 ∧ m'.maxUse = LEFT_KEY := by
  have hroute := h.routes_of_find hfind
  have hlocked := h.lock hm rfl
  have hm₁ : (s.setLeaf L { m with tempInsert := 1 }).dleafHeap L =
      some { m with tempInsert := 1 } := Function.update_self ..
  have hfull' : m.maxUse = MAX_LEAF_KEY :=
    Nat.le_antisymm (h.skel.leaf L m hm).1 (not_lt.mp hfull)
  have hfind₁ : findInsert (s.setLeaf L { m with tempInsert := 1 }) k = .ok (path, L) :=
    (findInsert_setLeaf ..).trans hfind
  obtain ⟨sk, s₂, s', hsplit, hinst, hdone⟩ :=
    split_install hlocked hok t hfind₁ hroute.mem hm₁ rfl hfull'
  refine ⟨s', insert_of_full hfind hm hfree (duplicate_locked h hm hnew) hfull hsplit hinst fuel, hdone,
    hdone.leads hlocked hroute⟩

/-- `insert` of a new key, when the leaf it leads to is not held, returns `true` in at
most two rounds. -/
theorem insert_spec (h : Inv Cuts.empty tail s) {n : Nat} (hok : Ok (n + 2) s.pm) (t : Tid) (v : Word)
    (len : BitVec 32) {path : List Cursor} (hfind : findInsert s k = .ok (path, L))
    (hm : s.dleafHeap L = some m) (hfree : m.tempInsert = 0) (hnew : Absent s k) (fuel : Nat) :
    ∃ s', insert (fuel + 2) s t k v len = .ok (true, s') ∧ Inserted tail s s' k v n := by
  by_cases hroom : m.maxUse < MAX_LEAF_KEY
  · obtain ⟨s', hrun, hdone, -⟩ := insert_room h (n := n) (ok_mono (Nat.le_succ _) hok) t v len hfind
      hm hfree hroom hnew (fuel + 1)
    exact ⟨s', hrun, hdone⟩
  · obtain ⟨s₁, hrun₁, hsplit, path', L', m', hfind', hm', hfree', huse'⟩ :=
      insert_full h hok t v len hfind hm hfree hroom hnew (fuel + 1)
    have hview : SameView m { m with tempInsert := 1 } := SameView.of_slots rfl rfl
    have hcont₁ : ∀ k' v', s₁.Contains k' v' ↔ s.Contains k' v' := fun k' v' => by
      rw [hsplit.contains, contains_setLeaf hm hview]
    obtain ⟨s', hrun, hdone, hidx⟩ := insert_room hsplit.inv hsplit.room t v len hfind' hm' hfree'
      (by rw [huse']; decide) (hsplit.absent h hm hnew) fuel
    refine ⟨s', hrun₁.trans hrun, hdone.inv, hdone.room, ?_, ?_, ?_, ?_⟩
    · intro k' v'
      rw [hdone.contains, hcont₁]
    · exact (Grows.setLeaf hm hview).trans (hsplit.grows.trans hdone.grows)
    · intro hall
      refine hdone.free fun b n' hn' => ?_
      by_cases hb : b = L ∨ b = s.brk + 1
      · obtain ⟨mh, hmh, hfreeh, -⟩ := hsplit.halves b hb
        rw [hn', Option.some.injEq] at hmh
        rw [hmh, hfreeh]
      · push Not at hb
        rw [hsplit.others b hb.1 hb.2] at hn'
        simp only [TreeState.setLeaf, Function.update_of_ne hb.1] at hn'
        exact hall b n' hn'
    · obtain ⟨sk, hins⟩ := hsplit.index
      have hlen := hins.labels_perm.length_eq
      simp only [labels, List.length_map, List.length_cons] at hlen
      rw [hidx, hlen]
      exact Nat.le_refl _

omit [LawfulPmem P] in
theorem insert_held {path : List Cursor} (hfind : findInsert s k = .ok (path, L))
    (hm : s.dleafHeap L = some m) (hheld : m.tempInsert ≠ 0) (t : Tid) (v : Word) (len : BitVec 32)
    (fuel : Nat) : insert fuel s t k v len = .error .spin := by
  induction fuel with
  | zero => rfl
  | succ fuel ih =>
    simp only [insert, lockLeaf, hfind, ok_bind, hm, deref_some, if_neg hheld, pure_eq_ok,
      Bool.not_false, if_true, ih]

theorem insert_dup (h : Inv Cuts.empty tail s) {path : List Cursor}
    (hfind : findInsert s k = .ok (path, L)) (hm : s.dleafHeap L = some m) (hfree : m.tempInsert = 0)
    {w : Word} (hw : s.Contains k w) (t : Tid) (v : Word) (len : BitVec 32) (fuel : Nat) :
    insert (fuel + 1) s t k v len = .ok (false, s.setLeaf L { m with tempInsert := 1 }) := by
  obtain ⟨path', L', m', hfind', -, hroute, -⟩ := h.reaches k
  rw [hfind] at hfind'
  cases hfind'
  obtain ⟨b, n, hn, i, hi, -⟩ := hw
  obtain rfl := h.data.found hroute rfl hn hi
  rw [hm, Option.some.injEq] at hn
  subst hn
  have hm₁ : (s.setLeaf b { m with tempInsert := 1 }).dleafHeap b =
      some { m with tempInsert := 1 } := Function.update_self ..
  have hview : SameView m { m with tempInsert := 1 } := SameView.of_slots rfl rfl
  have hdup : duplicate (s.setLeaf b { m with tempInsert := 1 }).pm { m with tempInsert := 1 } k
      m.maxUse 0 = .ok true :=
    duplicate_hit (SlotsOK.view hview (h.data.slots b m hm)) (hview.hasKey_iff.mpr hi)
  rw [insert, lockLeaf_free hfind hm hfree]
  simp only [ok_bind, Bool.not_true, Bool.false_eq_true, if_false, hm₁, deref_some, hdup, if_true,
    pure_eq_ok]

/-- Whatever `insert` was given, when it returns it has added the new pair, or it has found
the key there and has changed nothing but the lock of its leaf. -/
theorem insert_returns (h : Inv Cuts.empty tail s) {n : Nat} (hok : Ok (n + 2) s.pm) {t : Tid} {v : Word}
    {len : BitVec 32} {fuel : Nat} {b : Bool} {s' : TreeState P}
    (hrun : insert fuel s t k v len = .ok (b, s')) :
    (b = true ∧ Absent s k ∧ Inserted tail s s' k v n) ∨
      (b = false ∧ (∃ w, s.Contains k w) ∧ ∃ L m, s.dleafHeap L = some m ∧ m.tempInsert = 0 ∧
        s' = s.setLeaf L { m with tempInsert := 1 }) := by
  obtain ⟨path, L, m, hfind, -, -, hm⟩ := h.reaches k
  have hfree : m.tempInsert = 0 := by
    by_contra hheld
    rw [insert_held hfind hm hheld] at hrun
    exact absurd hrun (by simp)
  by_cases hnew : Absent s k
  · left
    match fuel with
    | 0 => exact absurd hrun (by simp [insert])
    | 1 =>
      by_cases hroom : m.maxUse < MAX_LEAF_KEY
      · obtain ⟨s₁, hrun₁, hdone, -⟩ := insert_room h (n := n) (ok_mono (Nat.le_succ _) hok) t v len
          hfind hm hfree hroom hnew 0
        rw [hrun₁, Except.ok.injEq, Prod.mk.injEq] at hrun
        obtain ⟨rfl, rfl⟩ := hrun
        exact ⟨rfl, hnew, hdone⟩
      · obtain ⟨s₁, hrun₁, -⟩ := insert_full h hok t v len hfind hm hfree hroom hnew 0
        rw [hrun₁] at hrun
        exact absurd hrun (by simp [insert])
    | fuel + 2 =>
      obtain ⟨s₁, hrun₁, hdone⟩ := insert_spec h hok t v len hfind hm hfree hnew fuel
      rw [hrun₁, Except.ok.injEq, Prod.mk.injEq] at hrun
      obtain ⟨rfl, rfl⟩ := hrun
      exact ⟨rfl, hnew, hdone⟩
  · right
    obtain ⟨w, hw⟩ : ∃ w, s.Contains k w := by
      by_contra hno
      exact hnew ((absent_iff h.data.slots).mpr fun w hw => hno ⟨w, hw⟩)
    cases fuel with
    | zero => exact absurd hrun (by simp [insert])
    | succ fuel =>
      rw [insert_dup h hfind hm hfree hw, Except.ok.injEq, Prod.mk.injEq] at hrun
      obtain ⟨rfl, rfl⟩ := hrun
      exact ⟨rfl, ⟨w, hw⟩, L, m, hm, hfree, rfl⟩

/-! ### find -/

theorem find_hit (h : Inv Cuts.empty tail s) (hlevel : 1 ≤ s.tempLevel) {i : Nat}
    (hm : s.dleafHeap a = some m) (hi : HasKey s.pm m k i) :
    ∃ v, slotVal s.pm m i = some v ∧ find s k = .ok (v, s.setLeaf a (m.touch i)) := by
  obtain ⟨path, L, mL, hfind, hdesc, hroute, hmL⟩ := h.reaches k
  obtain rfl := h.data.found hroute rfl hm hi
  have hlock := (h.skel.leaf a m hm).2
  obtain ⟨v, hv, hrun⟩ := findSlots_hit (h.data.slots a m hm) hi
  have hfree : ¬ 1 < m.tempInsert := by
    have hle : m.tempInsert ≤ 1 := hlock
    omega
  refine ⟨v, hv, ?_⟩
  rw [find, if_neg (by omega)]
  simp only [hdesc, ok_bind, findExamine, hm, deref_some, if_neg hfree, hrun, pure_eq_ok]

theorem find_miss (h : Inv Cuts.empty tail s) (hlevel : 1 ≤ s.tempLevel) (hno : Absent s k) :
    find s k = .ok (0, s) := by
  obtain ⟨path, L, m, hfind, hdesc, hroute, hm⟩ := h.reaches k
  have hlock := (h.skel.leaf L m hm).2
  have hrun := findSlots_miss (h.data.slots L m hm) fun i => hno L m i hm
  have hfree : ¬ 1 < m.tempInsert := by
    have hle : m.tempInsert ≤ 1 := hlock
    omega
  rw [find, if_neg (by omega)]
  simp only [hdesc, ok_bind, findExamine, hm, deref_some, if_neg hfree, hrun, pure_eq_ok]

omit [LawfulPmem P] in
theorem find_low {s' : TreeState P} {w : Word} (hlevel : s.tempLevel = 0)
    (hrun : find s k = .ok (w, s')) : s' = s := by
  rw [find, if_pos hlevel] at hrun
  simp only [bind_eq_ok] at hrun
  obtain ⟨m, -, v, -, hrun⟩ := hrun
  cases hrun
  rfl

theorem find_root (h : Inv Cuts.empty tail s) (hlevel : s.tempLevel = 0) {v : Word}
    (hv : s.Contains k v) : find s k = .ok (v, s) := by
  obtain ⟨a, m, hm, i, hi, hval⟩ := hv
  have ha : a = s.root := by
    have hmem := (h.skel.heap a).mp ⟨m, hm⟩
    rw [TreeState.leaves_empty] at hmem
    simpa [TreeState.index, hlevel, flat, labels] using hmem
  subst ha
  have hrun := findRoot_hit (h.data.slots _ m hm) (h.skel.leaf _ m hm).1 hi hval
  rw [find, if_pos hlevel]
  simp only [hm, deref_some, ok_bind, hrun, pure_eq_ok]

theorem Inv.touch {cuts : Cuts} (h : Inv cuts tail s) (hm : s.dleafHeap a = some m) {i : Nat}
    (hi : i < m.maxUse) : Inv cuts tail (s.setLeaf a (m.touch i)) := by
  have hlock : LockOK (cuts a) (m.touch i) := by
    have := (h.skel.leaf a m hm).2
    unfold DLeaf.touch
    split_ifs <;> exact this
  refine h.setLeaf hm (sameView_touch m hi) ?_ ?_ hlock
  · unfold DLeaf.touch
    split_ifs <;> rfl
  · unfold DLeaf.touch
    split_ifs <;> rfl

/-! ### The constructor -/

/-- What `malloc` hands out when the memory is filled with zero bytes. -/
def zeroInner : Addr → InnerNode := fun _ => ⟨0, 0, 0, fun _ => 0, fun _ => 0⟩
def zeroLeaf : Addr → DLeaf := fun _ => ⟨fun _ => .zero, 0, 0, 0, 0, 0⟩

/-- The tree that the constructor leaves behind. -/
def freshTree (pm : P) (q : Addr) (junkInner : Addr → InnerNode) (junkLeaf : Addr → DLeaf) :
    TreeState P :=
  { innerHeap := fun _ => none
    dleafHeap := Function.update (fun _ => none) 1 (some ((junkLeaf 1).first q))
    bufHeap := fun _ => none
    brk := 2
    junkInner := junkInner
    junkLeaf := junkLeaf
    pm := pm
    root := 1
    tempLevel := 0
    leafStart := q
    dstart := 1 }

omit [LawfulPmem P] in
theorem init_eq_ok {pm : P} {t : Tid} {junkInner : Addr → InnerNode} {junkLeaf : Addr → DLeaf}
    {s : TreeState P} : init pm t junkInner junkLeaf = .ok s ↔ ∃ q pm₁ l pm₂,
      nAllocate pm t = some (q, pm₁) ∧ pleaf pm₁ q = some l ∧
      setPleaf pm₁ q { l with next := 0, versionField := 0 } = some pm₂ ∧
      s = freshTree pm₂ q junkInner junkLeaf := by
  simp only [init, bind_eq_ok, deref_eq_ok, pure_eq_ok, Except.ok.injEq, Prod.exists,
    TreeState.mallocLeaf]
  constructor
  · rintro ⟨q, pm₁, halloc, l, hl, pm₂, hset, rfl⟩
    exact ⟨q, pm₁, l, pm₂, halloc, hl, hset, rfl⟩
  · rintro ⟨q, pm₁, l, pm₂, halloc, hl, hset, rfl⟩
    exact ⟨q, pm₁, halloc, l, hl, pm₂, hset, rfl⟩

omit [Pmem P] [LawfulPmem P] in
theorem freshTree_leaf {pm : P} {q : Addr} {junkInner : Addr → InnerNode} {junkLeaf : Addr → DLeaf}
    {b : Addr} {n : DLeaf} : (freshTree pm q junkInner junkLeaf).dleafHeap b = some n ↔
      b = 1 ∧ n = (junkLeaf 1).first q := by
  by_cases hb : b = 1
  · subst hb
    simp [freshTree, eq_comm]
  · simp [freshTree, hb]

omit [Pmem P] [LawfulPmem P] in
theorem freshTree_skeleton (pm : P) (q : Addr) (junkInner : Addr → InnerNode)
    (junkLeaf : Addr → DLeaf) :
    Skeleton Cuts.empty (junkLeaf 1).next (freshTree pm q junkInner junkLeaf) := by
  have hleaves : labels ((freshTree pm q junkInner junkLeaf).leaves Cuts.empty) = [1] := rfl
  refine ⟨⟨trivial, Multiset.nodup_zero, fun b hb => absurd hb (Multiset.notMem_zero b),
    Nat.succ_pos 1⟩, ?_, ?_, ?_, fun a c hc => absurd hc (by simp [Cuts.empty]), ?_, ?_⟩
  · rw [hleaves]
    exact List.nodup_singleton 1
  · intro a
    rw [hleaves, List.mem_singleton]
    simp only [freshTree_leaf]
    constructor
    · rintro ⟨m, ha, -⟩
      exact ha
    · exact fun ha => ⟨_, ha, rfl⟩
  · intro a ha
    rw [hleaves, List.mem_singleton] at ha
    subst ha
    exact ⟨Nat.one_pos, Nat.lt_succ_self 1⟩
  · have hfirst : (freshTree pm q junkInner junkLeaf).dleafHeap 1 = some ((junkLeaf 1).first q) :=
      freshTree_leaf.mpr ⟨rfl, rfl⟩
    have hnext := TreeState.nextOf_some hfirst
    rw [hleaves]
    exact ⟨rfl, hnext⟩
  · intro a m hm
    obtain ⟨rfl, rfl⟩ := freshTree_leaf.mp hm
    exact ⟨Nat.zero_le _, Nat.zero_le 1⟩

/-- A fresh tree: one empty leaf, which is free. -/
theorem init_spec {n : Nat} {pm : P} (hok : Ok (n + 1) pm) (t : Tid) (junkInner : Addr → InnerNode)
    (junkLeaf : Addr → DLeaf) :
    ∃ s, init pm t junkInner junkLeaf = .ok s ∧ Inv Cuts.empty (junkLeaf 1).next s ∧ Ok n s.pm ∧
      AllFree s ∧ PairsFresh s ∧ (∀ k v, ¬ s.Contains k v) := by
  obtain ⟨q, pm₁, halloc, hok₁, -, hleaves₁, -⟩ := alloc_spec t hok
  have hq : q ∈ leaves pm₁ := hleaves₁ ▸ Set.mem_insert _ _
  obtain ⟨-, l, hl⟩ := leaf_read hok₁ hq
  obtain ⟨pm₂, hset, hok₂, -, hleaves₂, hread₂, -⟩ :=
    setLeaf_spec { l with next := 0, versionField := 0 } hok₁ hq
  have hlabels : labels ((freshTree pm₂ q junkInner junkLeaf).leaves Cuts.empty) = [1] := rfl
  -- no slot of the only leaf is in use
  have hempty : ∀ i, ¬ i < ((junkLeaf 1).first q).maxUse := fun i => Nat.not_lt_zero i
  refine ⟨_, init_eq_ok.mpr ⟨q, pm₁, l, pm₂, halloc, hl, hset, rfl⟩,
    ⟨freshTree_skeleton pm₂ q junkInner junkLeaf, ⟨?_, ?_, ?_, ?_, ?_⟩, ⟨?_, ?_, ?_⟩⟩, hok₂, ?_, ?_, ?_⟩
  · exact List.pairwise_singleton _ _
  · intro a m hm
    obtain ⟨rfl, rfl⟩ := freshTree_leaf.mp hm
    exact ⟨fun i hi => absurd hi (hempty i), fun i k hi => absurd hi.1 (hempty i),
      fun i j k hi => absurd hi.1 (hempty i), fun i k hi => absurd hi.1 (hempty i)⟩
  · intro a m i hm hi
    obtain ⟨rfl, rfl⟩ := freshTree_leaf.mp hm
    exact absurd hi (hempty i)
  · intro a m k i hm hi
    obtain ⟨rfl, rfl⟩ := freshTree_leaf.mp hm
    exact absurd hi.1 (hempty i)
  · exact fun a c m mr hc => absurd hc (by simp [Cuts.empty])
  · intro a ha
    rw [hlabels, List.mem_singleton] at ha
    subst ha
    show q ∈ leaves pm₂
    exact hleaves₂ ▸ hq
  · rw [hlabels]
    exact List.nodup_singleton _
  · rw [hlabels]
    exact ⟨rfl, pnext_some hread₂⟩
  · intro a m hm
    obtain ⟨rfl, rfl⟩ := freshTree_leaf.mp hm
    rfl
  · intro a m hm
    obtain ⟨rfl, rfl⟩ := freshTree_leaf.mp hm
    exact fun i k hi => absurd hi.1 (hempty i)
  · rintro k v ⟨a, m, hm, i, hi, -⟩
    obtain ⟨rfl, rfl⟩ := freshTree_leaf.mp hm
    exact hempty i hi.1

end ZBTree
