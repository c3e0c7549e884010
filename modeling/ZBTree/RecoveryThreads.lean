import ZBTree.CleanCells
import ZBTree.ThreadBudgets

/-!
# Recovery on many threads

`recover` starts a thread for each pool, which calls `quick_insert` for the records of the pool. The
sections of these calls are those of `insert`, with the record that is there already in the place of
one that is appended. What the threads of `insert` keep, these threads keep, when the cells that
they fill are clean.
-/

namespace ZBTree

open RangeIndex Pmem LawfulPmem

/-! ### The sections of quick_insert -/

/-- Where a call of `quick_insert` stands between two sections, with the locals it still needs. -/
inductive Stage where
  | searching
  | locked (leaf : Addr)
  | splitting (leaf leaf2 : Addr) (splitKey : Key) (insertLeaf : Addr)

variable {P : Type} [Pmem P]

/-- One section of `quick_insert` on thread `t`; it ends the call when it gives no stage. -/
def quickSection (s : TreeState P) (t : Tid) (key : Key) (val : Addr) : Stage → Exec (Option Stage × TreeState P)
  | .searching => do
    let (lockState, leaf, s) ← lockLeaf s key
    if lockState then return (some (.locked leaf), s) else return (some .searching, s)
  | .locked leaf => do
    let m ← deref (s.dleafHeap leaf)
    let (duplicate, m) ← quickScan s.pm key m.maxUse 0 false m
    if m.maxUse < MAX_LEAF_KEY then return (none, s.setLeaf leaf (m.quickFill key val duplicate))
    else
      let (leaf2, splitKey, insertLeaf, s) ← quickSplit (s.setLeaf leaf m) t leaf
      return (some (.splitting leaf leaf2 splitKey insertLeaf), s)
  | .splitting leaf leaf2 splitKey insertLeaf => do
    let s ← installSeparator s key splitKey leaf leaf2 insertLeaf
    return (some .searching, s)

/-- The sections of one call after each other, with no other thread in between. -/
def runQuickSections : Nat → TreeState P → Tid → Key → Addr → Stage → Exec (TreeState P)
  | 0, _, _, _, _, _ => .error .spin
  | n + 1, s, t, key, val, stage => do
    match ← quickSection s t key val stage with
    | (some stage, s) => runQuickSections n s t key val stage
    | (none, s) => return s

/-- The sections of a call that is alone are `quick_insert`. -/
theorem runQuickSections_of_quickInsert (n : Nat) {s s' : TreeState P} {t : Tid} {key : Key} {val : Addr}
    (h : quickInsert n s t key val = .ok s') : ∃ j, runQuickSections j s t key val .searching = .ok s' := by
  induction n generalizing s with
  | zero => exact absurd h (by simp [quickInsert])
  | succ n ih =>
    rw [quickInsert, bind_eq_ok] at h
    obtain ⟨⟨lockState, leaf, s₁⟩, hlock, h⟩ := h
    cases lockState with
    | false =>
      simp only [Bool.not_false, if_true] at h
      obtain ⟨j, hj⟩ := ih h
      refine ⟨j + 1, ?_⟩
      simp only [runQuickSections, quickSection, hlock, ok_bind, Bool.false_eq_true, if_false, pure_eq_ok, hj]
    | true =>
      simp only [Bool.not_true, Bool.false_eq_true, if_false] at h
      have hfirst : ∀ j, runQuickSections (j + 1) s t key val .searching =
          runQuickSections j s₁ t key val (.locked leaf) := fun j => by
        simp only [runQuickSections, quickSection, hlock, ok_bind, if_true, pure_eq_ok]
      obtain ⟨m, hm, h⟩ := bind_eq_ok.mp h
      obtain ⟨⟨duplicate, m'⟩, hscan, h⟩ := bind_eq_ok.mp h
      by_cases hroom : m'.maxUse < MAX_LEAF_KEY
      · rw [if_pos hroom] at h
        refine ⟨2, (hfirst 1).trans ?_⟩
        simp only [runQuickSections, quickSection, hm, hscan, ok_bind, if_pos hroom, pure_eq_ok]
        exact h
      · rw [if_neg hroom] at h
        obtain ⟨⟨leaf2, splitKey, insertLeaf, s₂⟩, hsplit, h⟩ := bind_eq_ok.mp h
        obtain ⟨s₃, hinst, h⟩ := bind_eq_ok.mp h
        obtain ⟨j, hj⟩ := ih h
        refine ⟨j + 3, (hfirst (j + 2)).trans ?_⟩
        simp only [runQuickSections, quickSection, hm, hscan, ok_bind, if_neg hroom, hsplit, hinst, pure_eq_ok, hj]

/-! ### What one section does -/

/-- Where a call of `insert` with the key and the value of the record would stand. -/
def Stage.pc (r : Request) : Stage → Pc
  | searching => .searching r
  | locked leaf => .locked r leaf
  | splitting leaf leaf2 splitKey insertLeaf => .splitting r leaf leaf2 splitKey insertLeaf

/-- How the section of `insert` would have ended. -/
def quickOutcome (r : Request) : Option Stage → Outcome
  | some stage => .goto (stage.pc r)
  | none => .ret true

/-- What the section of a call for the record `a` of `r` has done. -/
structure QuickAdvanced [LawfulPmem P] (tail : Addr) (n : Nat) (r : Request) (stage : Stage) (L : Addr) (cuts : Cuts)
    (s : TreeState P) (o : Option Stage) (cuts' : Cuts) (s' : TreeState P) : Prop where
  advanced : Advanced tail n (stage.pc r) L cuts s (quickOutcome r o) cuts' s'
  size : SizeStep s s' (stage.pc r) (quickOutcome r o)
  records : recs s'.pm = recs s.pm
  same : SameRecs (recs s.pm) s.pm s'.pm
  calm : s'.Calm

section Sections

variable {s s' : TreeState P} {t : Tid} {r : Request} {a : Addr} {o : Outcome}

theorem quickSection_searching (h : insertSection s t (.searching r) = .ok (o, s')) :
    ∃ stage, o = quickOutcome r (some stage) ∧ quickSection s t r.key a .searching = .ok (some stage, s') := by
  obtain ⟨⟨lockState, leaf, s₁⟩, hlock, h⟩ := bind_eq_ok.mp h
  dsimp only at h
  split_ifs at h with hfree
  · cases h
    exact ⟨.locked leaf, rfl, bind_eq_ok.mpr ⟨_, hlock, if_pos hfree⟩⟩
  · cases h
    exact ⟨.searching, rfl, bind_eq_ok.mpr ⟨_, hlock, if_neg hfree⟩⟩

theorem quickSection_splitting {leaf leaf2 insertLeaf : Addr} {splitKey : Key}
    (h : insertSection s t (.splitting r leaf leaf2 splitKey insertLeaf) = .ok (o, s')) :
    o = quickOutcome r (some .searching) ∧
      quickSection s t r.key a (.splitting leaf leaf2 splitKey insertLeaf) = .ok (some .searching, s') := by
  obtain ⟨s₁, hinstall, h⟩ := bind_eq_ok.mp h
  cases h
  exact ⟨rfl, bind_eq_ok.mpr ⟨_, hinstall, rfl⟩⟩

end Sections

section Specs

variable [LawfulPmem P] {cuts : Cuts} {tail L : Addr} {n : Nat} {s s' : TreeState P} {t : Tid} {r : Request} {a : Addr}
  {V : Key → Word}

omit [Pmem P] [LawfulPmem P] in
theorem lockLeaf_calm {key : Key} {b : Bool} {leaf : Addr} (h : lockLeaf s key = .ok (b, leaf, s')) (hcalm : s.Calm) :
    s'.Calm := by
  obtain ⟨path, m, -, hm, ⟨-, -, rfl⟩ | ⟨-, -, rfl⟩⟩ := lockLeaf_cases h
  · exact hcalm.setLeaf ((hcalm.leaf leaf m hm).view (SameView.of_slots rfl rfl))
  · exact hcalm

theorem installSeparator_calm (h : Inv cuts tail s) {key splitKey : Key} {leaf2 insertLeaf : Addr}
    (hroute : Routes s.index key L) (hcut : cuts L = some ⟨splitKey, leaf2, insertLeaf⟩)
    (hrun : installSeparator s key splitKey L leaf2 insertLeaf = .ok s') (hcalm : s.Calm) : s'.Calm := by
  obtain ⟨path, L', m', hfind, -, hroute', -⟩ := h.reaches key
  obtain rfl := hroute'.unique h.data.sorted.of_expand hroute
  obtain ⟨s₂, s₃, m, hrun', hm, -, hsame, rfl, -⟩ := h.install hcut hfind
  obtain rfl := Except.ok.inj (hrun'.symm.trans hrun)
  have hcalm₂ : s₂.Calm := by
    rw [hsame]
    exact ⟨hcalm.leaf, hcalm.junk⟩
  exact hcalm₂.setLeaf ((hcalm.leaf _ m hm).view (SameView.of_slots rfl rfl))

/-- A call that looks for its leaf waits, or takes the leaf. -/
theorem quickSearching_spec (h : Inv cuts tail s) (hok : Ok (n + 1) s.pm) (hcalm : s.Calm) (t : Tid) (r : Request)
    (a : Addr) : quickSection s t r.key a .searching = .ok (some .searching, s) ∨
      ∃ L o s', quickSection s t r.key a .searching = .ok (o, s') ∧
        QuickAdvanced tail n r .searching L cuts s o cuts s' := by
  rcases searching_spec h hok t r with hwait | ⟨L, o, s', hrun, hadv⟩
  · left
    obtain ⟨stage, ho, hsection⟩ := quickSection_searching (a := a) hwait
    cases stage with
    | searching => exact hsection
    | locked leaf => exact absurd ho (by simp [quickOutcome, Stage.pc])
    | splitting leaf leaf2 splitKey insertLeaf => exact absurd ho (by simp [quickOutcome, Stage.pc])
  · right
    obtain ⟨stage, rfl, hsection⟩ := quickSection_searching (a := a) hrun
    have hsize := insertSection_sizes (fun b m hm => h.leaf_bounds hm) hrun (by simp [quickOutcome])
    obtain ⟨⟨lockState, leaf, s₁⟩, hlock, hrest⟩ := bind_eq_ok.mp hsection
    have hend : s' = s₁ := by
      dsimp only at hrest
      split_ifs at hrest <;> cases hrest <;> rfl
    subst hend
    have hpm := lockLeaf_pm hlock
    exact ⟨L, some stage, s', hsection, hadv, hsize, congrArg recs hpm, fun b _ => by rw [hpm]; exact ⟨rfl, rfl⟩,
      lockLeaf_calm hlock hcalm⟩

theorem quickSplitting_spec (h : Inv cuts tail s) (hok : Ok (n + 1) s.pm) (hcalm : s.Calm) (t : Tid) {leaf2 : Addr}
    {splitKey : Key} {insertLeaf : Addr} (hpc : (Pc.splitting r L leaf2 splitKey insertLeaf).Holds cuts s) :
    ∃ o cuts' s', quickSection s t r.key a (.splitting L leaf2 splitKey insertLeaf) = .ok (o, s') ∧
      QuickAdvanced tail n r (.splitting L leaf2 splitKey insertLeaf) L cuts s o cuts' s' := by
  obtain ⟨o, cuts', s', hrun, hadv⟩ := splitting_spec h hok t hpc
  obtain ⟨rfl, hsection⟩ := quickSection_splitting (a := a) hrun
  have hsize := insertSection_sizes (fun b m hm => h.leaf_bounds hm) hrun (by simp [quickOutcome])
  obtain ⟨s₁, hinstall, hend⟩ := bind_eq_ok.mp hrun
  obtain rfl : s₁ = s' := congrArg Prod.snd (Except.ok.inj hend)
  have hpm := installSeparator_pm hinstall
  exact ⟨some .searching, cuts', s₁, hsection, hadv, hsize, congrArg recs hpm,
    fun b _ => by rw [hpm]; exact ⟨rfl, rfl⟩, installSeparator_calm h hpc.1 hpc.2 hinstall hcalm⟩

def TreeState.CalmPairs (s : TreeState P) : Prop := ∀ k v, s.Contains k v → CalmWord k ∧ CalmWord v

/-- A call that holds a full leaf splits it; `m'` is the leaf after the slot loop. -/
theorem quickLocked_full (h : Inv cuts tail s) (hok : Ok (n + 1) s.pm) (hcalm : s.Calm) (hpairs : s.CalmPairs) (t : Tid)
    {m m' : DLeaf} (hm : s.dleafHeap L = some m) (hview : SameView m m') (hnext : m'.next = m.next)
    (halt : m'.altPtr = m.altPtr) (hheld : m'.tempInsert = 1) (hfull : m'.maxUse = MAX_LEAF_KEY)
    (hroute : Routes s.index r.key L) (hcut : cuts L = none) :
    ∃ leaf2 splitKey insertLeaf cuts' s', quickSplit (s.setLeaf L m') t L = .ok (leaf2, splitKey, insertLeaf, s') ∧
      QuickAdvanced tail n r (.locked L) L cuts s (some (.splitting L leaf2 splitKey insertLeaf)) cuts' s' := by
  obtain ⟨s₁, hs₁⟩ : ∃ s₁, s₁ = s.setLeaf L m' := ⟨_, rfl⟩
  have hm' : s₁.dleafHeap L = some m' := hs₁ ▸ Function.update_self ..
  have hoff₁ : ∀ b, b ≠ L → s₁.dleafHeap b = s.dleafHeap b := fun b hb => hs₁ ▸ Function.update_of_ne hb ..
  have hscanned : Inv cuts tail s₁ := hs₁ ▸ h.setLeaf hm hview hnext halt (by rw [hcut]; exact Nat.le_of_eq hheld)
  have hcontains : ∀ k v, s₁.Contains k v ↔ s.Contains k v := hs₁ ▸ contains_setLeaf hm hview
  have hgrown : Grows s s₁ := hs₁ ▸ Grows.setLeaf hm hview
  have hcalm₁ : s₁.Calm := hs₁ ▸ hcalm.setLeaf ((hcalm.leaf L m hm).view hview)
  have hsizes₁ : s₁.sizes = s.sizes := hs₁ ▸ sizes_same hm rfl hview.use
  have hpm₁ : s₁.pm = s.pm := by rw [hs₁]; rfl
  have hindex₁ : s₁.index = s.index := by rw [hs₁]; rfl
  have hbrk₁ : s₁.brk = s.brk := by rw [hs₁]; rfl
  rw [← hs₁]
  clear hs₁
  obtain ⟨σ, buf, q, pm, hsplit, hok', hrecs, hsame, hinv, hcont, hgrows⟩ :=
    hscanned.quickSplit (hpm₁.symm ▸ hok) t hm' (hindex₁.symm ▸ hroute.mem) hcut hheld hfull
  have hlt : L < s₁.brk := (hscanned.leaf_bounds hm').1
  obtain ⟨-, hright, hoff⟩ :=
    splitState_heap m' (filterDuplicates (m'.fingerBuffer ∘ σ)) (buf ∘ σ) q pm hlt
  rw [hpm₁] at hrecs hsame
  refine ⟨_, _, _, Function.update cuts L (some (splitCut s₁ m' σ buf)), _, hsplit, ?_, ?_, hrecs, hsame, ?_⟩
  · refine Advanced.split h hroute hinv hok' hindex₁ (fun n' hn' => ?_) (fun b hb hb' => ?_)
      (fun k v => (hcont k v).trans (hcontains k v)) (hgrown.trans hgrows)
    · rw [← hbrk₁, hright] at hn'
      rw [← Option.some.inj hn', DLeaf.rightHalf_tempInsert]
    · rw [← hbrk₁] at hb'
      exact (hoff b hb hb').trans (hoff₁ b hb)
  · have hsize : s₁.sizes L = some MAX_LEAF_KEY := by rw [TreeState.sizes, hm', Option.map_some, hfull]
    have hfresh : s₁.sizes (s₁.brk + 1) = none := by
      cases hnew : s₁.dleafHeap (s₁.brk + 1) with
      | none => rw [TreeState.sizes, hnew, Option.map_none]
      | some n' => exact absurd (hscanned.leaf_bounds hnew).1 (Nat.not_lt.mpr (Nat.le_succ _))
    rw [hsizes₁] at hsize hfresh
    exact .split (Nat.le_refl 3) hsize hfresh (hsizes₁ ▸ splitState_sizes hlt)
  · refine hcalm₁.quickSplit hm' (fun i hi => ?_) hsplit
    rw [← hfull] at hi
    obtain ⟨k, v, hkey, hval⟩ := (hscanned.data.slots L _ hm').read i hi
    exact ⟨k, v, hkey, hval, hpairs k v ((hcontains k v).mp ⟨L, _, hm', i, ⟨hi, hkey⟩, hval⟩)⟩

/-- A call that holds its leaf fills the next cell of it, or splits it. -/
theorem quickLocked_spec (h : Inv cuts tail s) (hok : Ok (n + 1) s.pm) (hcalm : s.Calm) (hpairs : s.CalmPairs) (t : Tid)
    (hpc : (Pc.locked r L).Holds cuts s) (hnew : Absent s r.key) (hrec : a ∈ recs s.pm)
    (hkey : logKey s.pm a = some r.key) (hval : logVal s.pm a = some r.val) :
    ∃ o cuts' s', quickSection s t r.key a (.locked L) = .ok (o, s') ∧
      QuickAdvanced tail n r (.locked L) L cuts s o cuts' s' := by
  obtain ⟨hroute, hcut, m, hm, hheld⟩ := hpc
  obtain ⟨duplicate, m', hscan, hview⟩ := quickScan_run (h.data.slots L m hm) (fun i => hnew L m i hm) m.maxUse 0
    (Nat.zero_add _) false (SameView.of_slots rfl rfl)
  obtain ⟨slots, rfl⟩ := quickScan_eq hscan
  by_cases hroom : m.maxUse < MAX_LEAF_KEY
  · obtain ⟨hinv, hcont, hgrows⟩ := h.quickFill (ok_mono (Nat.le_succ n) hok) hrec hkey hval hm hroute hcut hroom
      ((hcalm.leaf L m hm).cleanCell hroom) hnew hview rfl rfl duplicate
    refine ⟨none, cuts, s.setLeaf L (DLeaf.quickFill { m with fingerPrint := slots } r.key a duplicate), ?_, ?_, ?_,
      rfl, fun _ _ => ⟨rfl, rfl⟩, ?_⟩
    · simp only [quickSection, hm, deref_some, ok_bind, hscan, if_pos hroom, pure_eq_ok]
    · refine Advanced.fill hinv (ok_mono (Nat.le_succ n) hok) rfl (fun b hb => Function.update_of_ne hb _ _)
        (fun n' hn' => ?_) hcont hgrows
      simp only [TreeState.setLeaf, Function.update_self, Option.some.injEq] at hn'
      rw [← hn']
      rfl
    · have hsize : s.sizes L = some m.maxUse := by rw [TreeState.sizes, hm, Option.map_some]
      exact .fill Nat.one_pos hsize (setLeaf_sizes ..)
    · exact hcalm.setLeaf (((hcalm.leaf L m hm).view hview).quickFill hroom a duplicate)
  · have hfull : m.maxUse = MAX_LEAF_KEY := Nat.le_antisymm (h.skel.leaf L m hm).1 (Nat.le_of_not_lt hroom)
    obtain ⟨leaf2, splitKey, insertLeaf, cuts', s', hrun, hadv⟩ :=
      quickLocked_full (r := r) h hok hcalm hpairs t hm hview rfl rfl hheld hfull hroute hcut
    refine ⟨_, cuts', s', ?_, hadv⟩
    simp only [quickSection, hm, deref_some, ok_bind, hscan, if_neg hroom, hrun, pure_eq_ok]

theorem quickSection_spec (h : Inv cuts tail s) (hok : Ok (n + 1) s.pm) (hcalm : s.Calm) (hpairs : s.CalmPairs)
    (t : Tid) {stage : Stage} (hpc : (stage.pc r).Holds cuts s) (hnew : Absent s r.key) (hrec : a ∈ recs s.pm)
    (hkey : logKey s.pm a = some r.key) (hval : logVal s.pm a = some r.val) :
    quickSection s t r.key a stage = .ok (some stage, s) ∨
      ∃ L o cuts' s', quickSection s t r.key a stage = .ok (o, s') ∧ QuickAdvanced tail n r stage L cuts s o cuts' s' := by
  cases stage with
  | searching =>
    rcases quickSearching_spec h hok hcalm t r a with hwait | ⟨L, o, s', hrun, hadv⟩
    · exact Or.inl hwait
    · exact Or.inr ⟨L, o, cuts, s', hrun, hadv⟩
  | locked leaf =>
    obtain ⟨o, cuts', s', hrun, hadv⟩ := quickLocked_spec h hok hcalm hpairs t hpc hnew hrec hkey hval
    exact Or.inr ⟨leaf, o, cuts', s', hrun, hadv⟩
  | splitting leaf leaf2 splitKey insertLeaf =>
    obtain ⟨o, cuts', s', hrun, hadv⟩ := quickSplitting_spec (a := a) h hok hcalm t hpc
    exact Or.inr ⟨leaf, o, cuts', s', hrun, hadv⟩

end Specs

end ZBTree
