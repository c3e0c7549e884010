import ZBTree.CacheThreads

/-!
# Pairs that readers write among the insertions

A search writes the pair of a slot after it has located the slot, and insertions may sort and
split the leaf in between. In a run in which each such write finds the slot and the cells as
they were, every pair has the key and the value of the record of its slot.
-/

namespace ZBTree

namespace ReadCache

open RangeIndex Pmem LawfulPmem

variable {P : Type} [Pmem P]

/-! ### What a writer relies on -/

/-- The cells are still there that a reader has chosen, under the lock of the leaf. -/
def placeLeft (s : CacheTree P) (leaf : Addr) (m : DLeaf) : Place → Bool
  | .nowhere => true
  | .free => s.compactUse leaf < MAX_LEAF_KEY - 1
  | .instead j => j < m.maxUse && m.maxUse ≤ m.control j

/-- A search that writes a pair finds the record that it has read in the same slot of the leaf, and
the cells that it has chosen. A search that replaces nothing finds the leaf free. -/
def CacheConfig.upToDate (c : CacheConfig P) : CacheEvent → Bool
  | .run t =>
    match c.call t with
    | some (.located leaf i _) =>
      match c.cache.tree.dleafHeap leaf with
      | none => true
      | some m => (choosePlace c.cache leaf m i).isSome || m.tempInsert = 0
    | some (.holding leaf i kvPtr place) =>
      match c.cache.tree.dleafHeap leaf with
      | none => true
      | some m => i < m.maxUse && m.ptr i = kvPtr && placeLeft c.cache leaf m place
    | _ => true
  | _ => true

/-- The keys that are inserted. -/
def cacheKeys : List CacheEvent → List Key
  | [] => []
  | .insert _ r :: es => r.key :: cacheKeys es
  | .find _ _ :: es => cacheKeys es
  | .run _ :: es => cacheKeys es

def PlaceFor (i : Nat) (place : Place) : Prop := place ≠ .nowhere ∧ ∀ j, place = .instead j → j ≠ i

/-- What is known at a place of a call, whatever the other threads have done. -/
def CacheCall.Holds (cuts : Cuts) (s : TreeState P) : CacheCall → Prop
  | .write pc => pc.Holds cuts s
  | .looking _ => True
  | .located _ _ _ => 1 ≤ s.tempLevel
  | .taking _ i _ place => 1 ≤ s.tempLevel ∧ PlaceFor i place
  | .holding leaf i _ place => 1 ≤ s.tempLevel ∧ PlaceFor i place ∧ cuts leaf = none ∧
      ∃ m, s.dleafHeap leaf = some m ∧ m.tempInsert = 1

section Holds

variable {cuts cuts' : Cuts} {tail L : Addr} {s s' : TreeState P} {call : CacheCall} {m m' : DLeaf}

omit [Pmem P] in
theorem CacheCall.Holds.frame (h : call.Holds cuts s) (hframe : Frame L cuts s cuts' s')
    (hlevel : s.tempLevel ≤ s'.tempLevel) (hne : call.leaf ≠ some L) : call.Holds cuts' s' := by
  cases call with
  | write pc => exact hframe.holds h hne
  | looking key => trivial
  | located leaf i kvPtr => exact Nat.le_trans h hlevel
  | taking leaf i kvPtr place => exact ⟨h.1.trans hlevel, h.2⟩
  | holding leaf i kvPtr place =>
    obtain ⟨hpos, hplace, hcut, m, hm, hone⟩ := h
    have hb : leaf ≠ L := fun heq => hne (congrArg some heq)
    exact ⟨hpos.trans hlevel, hplace, (hframe.cut leaf hb).trans hcut, m, hframe.leaf leaf m hb hm, hone⟩

omit [Pmem P] in
/-- A write to a leaf that keeps its mark when the call holds it. -/
theorem CacheCall.Holds.setLeaf (h : call.Holds cuts s) (hm : s.dleafHeap L = some m)
    (hmark : call.leaf = some L → m'.tempInsert = m.tempInsert) : call.Holds cuts (s.setLeaf L m') := by
  have hheld : ∀ b n, call.leaf = some b → s.dleafHeap b = some n → n.tempInsert = 1 →
      ∃ n', (s.setLeaf L m').dleafHeap b = some n' ∧ n'.tempInsert = 1 := by
    intro b n hleaf hn hone
    by_cases hb : b = L
    · subst hb
      rw [hm, Option.some.injEq] at hn
      subst hn
      exact ⟨m', Function.update_self .., (hmark hleaf).trans hone⟩
    · exact ⟨n, (Function.update_of_ne hb _ _).trans hn, hone⟩
  cases call with
  | write pc =>
    cases pc with
    | searching r => trivial
    | locked r b =>
      obtain ⟨hroute, hcut, n, hn, hone⟩ := h
      exact ⟨hroute, hcut, hheld b n rfl hn hone⟩
    | splitting r b leaf2 splitKey insertLeaf => exact h
  | looking key => trivial
  | located leaf i kvPtr => exact h
  | taking leaf i kvPtr place => exact h
  | holding leaf i kvPtr place =>
    obtain ⟨hpos, hplace, hcut, n, hn, hone⟩ := h
    exact ⟨hpos, hplace, hcut, hheld leaf n rfl hn hone⟩

theorem CacheCall.Holds.held [LawfulPmem P] (hinv : Inv cuts tail s) (h : call.Holds cuts s)
    (hleaf : call.leaf = some L) : ∃ m, s.dleafHeap L = some m ∧ m.tempInsert ≠ 0 := by
  cases call with
  | write pc => exact Pc.Holds.held hinv h hleaf
  | looking key => cases hleaf
  | located leaf i kvPtr => cases hleaf
  | taking leaf i kvPtr place => cases hleaf
  | holding leaf i kvPtr place =>
    obtain ⟨-, -, -, m, hm, hone⟩ := h
    cases hleaf
    exact ⟨m, hm, hone ▸ Nat.one_ne_zero⟩

end Holds

/-! ### The steps of an insertion -/

section Write

variable [LawfulPmem P] {cuts : Cuts} {tail L : Addr} {s : CacheTree P} {n : Nat} {t : Tid}
  {r : Request}

/-- What a step of the insertion at `pc` that works on the leaf `L` has done. -/
structure WriteStep (tail : Addr) (n : Nat) (pc : Pc) (L : Addr) (cuts : Cuts) (s : CacheTree P)
    (next : Next) (cuts' : Cuts) (s' : CacheTree P) : Prop where
  advanced : ∃ o : Outcome, next.call = o.pc.map .write ∧
    Advanced tail n pc L cuts s.tree o cuts' s'.tree
  lodged : Lodged cuts' s'

theorem searching_step (h : Inv cuts tail s.tree) (hl : Lodged cuts s) (hok : Ok (n + 1) s.tree.pm)
    (t : Tid) (r : Request) :
    callStep s t (.write (.searching r)) = .ok (.goto (.write (.searching r)), [], s) ∨
      ∃ L next log s', callStep s t (.write (.searching r)) = .ok (next, log, s') ∧
        WriteStep tail n (.searching r) L cuts s next cuts s' := by
  obtain ⟨path, L, m, hfind, -, hroute, hm⟩ := h.reaches r.key
  by_cases hfree : m.tempInsert = 0
  · right
    have hlock := lockLeaf_free hfind hm hfree
    refine ⟨L, .goto (.write (.locked r L)), [(L, .took)],
      { s with tree := s.tree.setLeaf L { m with tempInsert := 1 } }, ?_, ?_, ?_⟩
    · simp only [callStep, hlock, ok_bind, if_true, pure_eq_ok]
    · rcases searching_spec h hok t r with hwait | ⟨L', o, tree, hrun, hadv⟩
      · simp only [insertSection, hlock, ok_bind, if_true, pure_eq_ok] at hwait
        cases hwait
      · simp only [insertSection, hlock, ok_bind, if_true, pure_eq_ok] at hrun
        cases hrun
        obtain ⟨-, -, hleaf⟩ := hadv.goto _ rfl
        obtain rfl := hleaf L rfl
        exact ⟨_, rfl, hadv⟩
    · exact hl.view hm (SameView.of_slots rfl rfl)
  · left
    simp only [callStep, lockLeaf, hfind, hm, deref_some, if_neg hfree, ok_bind, pure_eq_ok,
      Bool.false_eq_true, if_false]

theorem splitting_step (h : Inv cuts tail s.tree) (hl : Lodged cuts s) (hok : Ok (n + 1) s.tree.pm)
    (t : Tid) {leaf2 : Addr} {splitKey : Key} {insertLeaf : Addr}
    (hpc : (Pc.splitting r L leaf2 splitKey insertLeaf).Holds cuts s.tree) :
    ∃ next log cuts' s', callStep s t (.write (.splitting r L leaf2 splitKey insertLeaf)) =
        .ok (next, log, s') ∧
      WriteStep tail n (.splitting r L leaf2 splitKey insertLeaf) L cuts s next cuts' s' := by
  obtain ⟨o, cuts', tree, hrun, hadv⟩ := splitting_spec h hok t hpc
  simp only [insertSection, bind_eq_ok] at hrun
  obtain ⟨tree', hinst, hrun⟩ := hrun
  cases hrun
  refine ⟨.goto (.write (.searching r)), [(L, .reset)], cuts', { s with tree := tree }, ?_,
    ⟨_, rfl, hadv⟩, ?_⟩
  · simp only [callStep, hinst, ok_bind, pure_eq_ok]
  · obtain ⟨hroute, hcut⟩ := hpc
    obtain ⟨s₁, m, hinner, hm, rfl⟩ := installSeparator_eq hinst
    have hm₁ : s₁.dleafHeap L = some m := hinner.leaves ▸ hm
    refine hl.install (by rw [hcut]; rfl) (root_of_routes hroute.mem) fun b x hx => ?_
    have hview : SameView m { m with tempInsert := 0, altPtr := insertLeaf } := SameView.of_slots rfl rfl
    obtain ⟨x₀, hx₀, hv, -⟩ := setLeaf_view hm₁ hview hx
    exact ⟨x₀, hinner.leaves ▸ hx₀, hv⟩

theorem locked_step (h : Inv cuts tail s.tree) (hl : Lodged cuts s) (hok : Ok (n + 1) s.tree.pm)
    (t : Tid) (hpc : (Pc.locked r L).Holds cuts s.tree) (hnew : Absent s.tree r.key) :
    ∃ next log cuts' s', callStep s t (.write (.locked r L)) = .ok (next, log, s') ∧
      WriteStep tail n (.locked r L) L cuts s next cuts' s' := by
  obtain ⟨hroute, hcut, m, hm, hone⟩ := hpc
  have hdup : duplicate s.tree.pm m r.key m.maxUse 0 = .ok false :=
    duplicate_miss (h.data.slots L m hm) fun i => hnew L m i hm
  by_cases hroom : m.maxUse < MAX_LEAF_KEY
  · obtain ⟨addr, pm, s', hfill, htree, hok', hinv, hcont, hgrows, hlodged⟩ :=
      fillSlot_spec h hl hok t r.val r.valueLen hm hroute hcut hroom fun i => hnew L m i hm
    refine ⟨.ret (.inserted true), [(L, .reset)], cuts, s', ?_, ⟨.ret true, rfl, ?_⟩, hlodged⟩
    · simp only [callStep, hm, deref_some, ok_bind, hdup, Bool.false_eq_true, if_false, if_pos hroom,
        hfill, pure_eq_ok]
    · rw [htree] at hinv hcont hgrows ⊢
      refine Advanced.fill hinv hok' rfl (fun b hb => Function.update_of_ne hb _ _) (fun m' hm' => ?_)
        hcont hgrows
      simp only [TreeState.setLeaf, Function.update_self, Option.some.injEq] at hm'
      exact hm' ▸ rfl
  · have hfull : m.maxUse = MAX_LEAF_KEY :=
      Nat.le_antisymm (h.skel.leaf L m hm).1 (not_lt.mp hroom)
    obtain ⟨σ, buf, q, pm, hsp, hsplit, hok', hinv, hcont, hgrows⟩ :=
      splitFull_spec h hok t hm hroute.mem hcut hone hfull
    have hLlt := (h.skel.leaf_lt L (mem_leaves_of_index hroute.mem)).2
    have hlodged := hl.split (m := m) hLlt σ buf q pm (splitCut s.tree m σ buf)
    obtain ⟨-, hright, hheap⟩ :=
      splitState_heap m (m.fingerBuffer ∘ σ) (buf ∘ σ) q pm hLlt
    have hindex : (splitState s L m (m.fingerBuffer ∘ σ) (buf ∘ σ) q pm).tree.index = s.tree.index := rfl
    have hpm : (splitState s L m (m.fingerBuffer ∘ σ) (buf ∘ σ) q pm).tree.pm = pm := rfl
    generalize splitState s L m (m.fingerBuffer ∘ σ) (buf ∘ σ) q pm = s' at *
    refine ⟨.goto (.write (.splitting r L (s.tree.brk + 1) (buf (σ SPLIT_POS)).oneKey m.altPtr)),
      [(L, .raised)], Function.update cuts L (some (splitCut s.tree m σ buf)), s', ?_,
      ⟨.goto (.splitting r L (s.tree.brk + 1) (buf (σ SPLIT_POS)).oneKey m.altPtr), rfl,
        Advanced.split h hroute hinv (hpm ▸ hok') hindex (fun m' hm' => ?_) hheap hcont hgrows⟩, hlodged⟩
    · simp only [callStep, hm, deref_some, ok_bind, hdup, Bool.false_eq_true, if_false, if_neg hroom,
        hsplit, pure_eq_ok]
    · rw [hright, Option.some.injEq] at hm'
      exact hm' ▸ rfl

theorem write_step (h : Inv cuts tail s.tree) (hl : Lodged cuts s) (hok : Ok (n + 1) s.tree.pm)
    (t : Tid) {pc : Pc} (hpc : pc.Holds cuts s.tree) (hnew : Absent s.tree pc.request.key) :
    callStep s t (.write pc) = .ok (.goto (.write pc), [], s) ∨
      ∃ L next log cuts' s', callStep s t (.write pc) = .ok (next, log, s') ∧
        WriteStep tail n pc L cuts s next cuts' s' := by
  cases pc with
  | searching r =>
    rcases searching_step h hl hok t r with hwait | ⟨L, next, log, s', hrun, hstep⟩
    · exact Or.inl hwait
    · exact Or.inr ⟨L, next, log, cuts, s', hrun, hstep⟩
  | locked r L => exact Or.inr ⟨L, locked_step h hl hok t hpc hnew⟩
  | splitting r L leaf2 splitKey insertLeaf => exact Or.inr ⟨L, splitting_step h hl hok t hpc⟩

end Write

/-! ### What all threads keep

`Caching` is kept by every section of every call: the tree keeps its invariant, a leaf has one holder, the
keys of the insertions under way are apart and new, and each call finds what it knows at its place. -/

variable [LawfulPmem P]

structure Caching (cuts : Cuts) (tail : Addr) (n : Nat) (c : CacheConfig P) : Prop where
  inv : Inv cuts tail c.cache.tree
  room : Ok n c.cache.tree.pm
  lodged : Lodged cuts c.cache
  fresh : PairsFresh c.cache.tree
  calls : ∀ t call, c.call t = some call → call.Holds cuts c.cache.tree
  /-- A leaf is held by one call at most. -/
  owner : ∀ t t' call call' b, c.call t = some call → c.call t' = some call' → call.leaf = some b →
    call'.leaf = some b → t = t'
  distinct : ∀ t t' pc pc', c.call t = some (.write pc) → c.call t' = some (.write pc') →
    pc.request.key = pc'.request.key → t = t'
  absent : ∀ t pc v, c.call t = some (.write pc) → ¬ c.cache.tree.Contains pc.request.key v

def CacheConfig.Unused (c : CacheConfig P) (k : Key) : Prop :=
  (∀ t pc, c.call t = some (.write pc) → pc.request.key ≠ k) ∧ ∀ v, ¬ c.cache.tree.Contains k v

section Caching

variable {cuts cuts' : Cuts} {tail L : Addr} {n : Nat} {c c' : CacheConfig P} {s' : CacheTree P} {t : Tid}
  {call : CacheCall} {next : Next} {log : List (Addr × LockAccess)} {pc : Pc}

omit [Pmem P] [LawfulPmem P] in
theorem note_fields (t : Tid) (log : List (Addr × LockAccess)) (c : CacheConfig P) :
    (log.foldl (CacheConfig.note t) c).cache = c.cache ∧
      (log.foldl (CacheConfig.note t) c).call = c.call := by
  induction log generalizing c with
  | nil => exact ⟨rfl, rfl⟩
  | cons x log ih =>
    obtain ⟨hcache, hcall⟩ := ih (c.note t x)
    obtain ⟨leaf, access⟩ := x
    cases access <;> exact ⟨hcache, hcall⟩

omit [Pmem P] [LawfulPmem P] in
theorem after_cache : (c.after t next log s').cache = s' := (note_fields t log _).1

omit [Pmem P] [LawfulPmem P] in
theorem after_call {t' : Tid} {call' : CacheCall} (h : (c.after t next log s').call t' = some call') :
    (t' = t ∧ next.call = some call') ∨ (t' ≠ t ∧ c.call t' = some call') := by
  rw [CacheConfig.after, (note_fields t log _).2] at h
  dsimp only at h
  by_cases ht : t' = t
  · subst ht
    exact Or.inl ⟨rfl, by rwa [Function.update_self] at h⟩
  · exact Or.inr ⟨ht, by rwa [Function.update_of_ne ht] at h⟩

theorem Caching.others (h : Caching cuts tail n c) (hcall : c.call t = some call)
    (hentry : call.leaf = some L ∨ ∀ m, c.cache.tree.dleafHeap L = some m → m.tempInsert = 0)
    {t' : Tid} (ht : t' ≠ t) {call' : CacheCall} (hcall' : c.call t' = some call') :
    call'.leaf ≠ some L := by
  intro hleaf
  rcases hentry with hself | hfree
  · exact ht (h.owner t' t call' call L hcall' hcall hleaf hself)
  · obtain ⟨m, hm, hheld⟩ := (h.calls t' call' hcall').held h.inv hleaf
    exact hheld (hfree m hm)

/-- A step of an insertion keeps what all threads rely on. -/
theorem Caching.advance (h : Caching cuts tail (n + 1) c) (hcall : c.call t = some (.write pc))
    (hlevel : c.cache.tree.tempLevel ≤ s'.tree.tempLevel)
    (hstep : WriteStep tail n pc L cuts c.cache next cuts' s') :
    Caching cuts' tail n (c.after t next log s') := by
  -- the step is one of `insert`, on the tree part of the state
  obtain ⟨o, hnext, hadv⟩ := hstep.advanced
  have hentry : (CacheCall.write pc).leaf = some L ∨
      ∀ m, c.cache.tree.dleafHeap L = some m → m.tempInsert = 0 :=
    hadv.entry.imp id fun hfree => hfree.2
  have hgoto : ∀ {call'}, next.call = some call' → ∃ pc', call' = .write pc' ∧ o = .goto pc' := by
    intro call' hcall'
    rw [hnext] at hcall'
    obtain ⟨pc', ho, rfl⟩ := Option.map_eq_some_iff.mp hcall'
    cases o with
    | goto pc₁ => exact ⟨pc', rfl, congrArg Outcome.goto (Option.some.inj ho)⟩
    | ret done => cases ho
  constructor
  · rw [after_cache]
    exact hadv.inv
  · rw [after_cache]
    exact hadv.room
  · rw [after_cache]
    exact hstep.lodged
  · rw [after_cache]
    exact hadv.grows.fresh h.fresh
  · intro t' call' hcall'
    rw [after_cache]
    rcases after_call hcall' with ⟨-, hnew⟩ | ⟨ht, hold⟩
    · obtain ⟨pc', rfl, ho⟩ := hgoto hnew
      exact (hadv.goto pc' ho).1
    · exact (h.calls t' call' hold).frame hadv.frame hlevel (h.others hcall hentry ht hold)
  · -- one holder for each leaf: the calling thread takes a leaf only if it is free
    intro t₁ t₂ call₁ call₂ b h₁ h₂ hb₁ hb₂
    rcases after_call h₁ with ⟨rfl, hnew₁⟩ | ⟨hne₁, hold₁⟩
    · rcases after_call h₂ with ⟨rfl, -⟩ | ⟨hne₂, hold₂⟩
      · rfl
      · obtain ⟨pc₁, rfl, ho₁⟩ := hgoto hnew₁
        obtain rfl := (hadv.goto pc₁ ho₁).2.2 b hb₁
        exact absurd hb₂ (h.others hcall hentry hne₂ hold₂)
    · rcases after_call h₂ with ⟨rfl, hnew₂⟩ | ⟨-, hold₂⟩
      · obtain ⟨pc₂, rfl, ho₂⟩ := hgoto hnew₂
        obtain rfl := (hadv.goto pc₂ ho₂).2.2 b hb₂
        exact absurd hb₁ (h.others hcall hentry hne₁ hold₁)
      · exact h.owner t₁ t₂ call₁ call₂ b hold₁ hold₂ hb₁ hb₂
  · -- no two insertions of one key are under way
    intro t₁ t₂ pc₁ pc₂ h₁ h₂ hkey
    have hrequest : ∀ {pc'}, next.call = some (.write pc') → pc'.request = pc.request := by
      intro pc' hnew
      obtain ⟨pc'', heq, ho⟩ := hgoto hnew
      cases heq
      exact (hadv.goto pc' ho).2.1
    rcases after_call h₁ with ⟨rfl, hnew₁⟩ | ⟨-, hold₁⟩
    · rcases after_call h₂ with ⟨rfl, -⟩ | ⟨-, hold₂⟩
      · rfl
      · rw [hrequest hnew₁] at hkey
        exact h.distinct t₁ t₂ pc pc₂ hcall hold₂ hkey
    · rcases after_call h₂ with ⟨rfl, hnew₂⟩ | ⟨-, hold₂⟩
      · rw [hrequest hnew₂] at hkey
        exact h.distinct t₁ t₂ pc₁ pc hold₁ hcall hkey
      · exact h.distinct t₁ t₂ pc₁ pc₂ hold₁ hold₂ hkey
  · -- keys of insertions under way are not in the tree, even when this one returns
    intro t' pc' v hcall' hv
    rw [after_cache] at hv
    rcases hadv.content with ⟨-, hcont⟩ | ⟨rfl, hcont⟩
    · have hold := (hcont _ v).mp hv
      rcases after_call hcall' with ⟨-, hnew⟩ | ⟨-, hcall₀⟩
      · obtain ⟨pc'', heq, ho⟩ := hgoto hnew
        cases heq
        rw [(hadv.goto pc' ho).2.1] at hold
        exact h.absent t pc v hcall hold
      · exact h.absent t' pc' v hcall₀ hold
    · rcases after_call hcall' with ⟨-, hnew⟩ | ⟨ht, hcall₀⟩
      · obtain ⟨pc'', -, ho⟩ := hgoto hnew
        cases ho
      · rcases (hcont _ v).mp hv with hold | ⟨hkey, -⟩
        · exact h.absent t' pc' v hcall₀ hold
        · exact ht (h.distinct t' t pc' pc hcall₀ hcall hkey)

def Caching.Kept (cuts : Cuts) (tail : Addr) (n : Nat) (c c' : CacheConfig P) : Prop :=
  Caching cuts tail n c' ∧ ∀ k, c.Unused k → c'.Unused k

/-- A step of a search keeps it too, when the calls of the others are as they were. -/
theorem Caching.read (h : Caching cuts tail (n + 1) c) (hinv : Inv cuts tail s'.tree)
    (hpm : s'.tree.pm = c.cache.tree.pm) (hlodged : Lodged cuts s')
    (hcont : ∀ k v, s'.tree.Contains k v ↔ c.cache.tree.Contains k v)
    (hgrows : Grows c.cache.tree s'.tree)
    (hothers : ∀ t' call', t' ≠ t → c.call t' = some call' → call'.Holds cuts s'.tree)
    (hnext : ∀ call', next.call = some call' → (∀ pc, call' ≠ .write pc) ∧ call'.Holds cuts s'.tree ∧
      ∀ b, call'.leaf = some b → ∀ t' call'', t' ≠ t → c.call t' = some call'' → call''.leaf ≠ some b) :
    Caching.Kept cuts tail n c (c.after t next log s') := by
  refine ⟨?_, fun k hk => ⟨fun t' pc' hcall' => ?_, fun v hv => ?_⟩⟩
  -- a search inserts nothing, so unused keys stay unused
  rotate_left
  · rcases after_call hcall' with ⟨-, hnew⟩ | ⟨-, hold⟩
    · exact absurd rfl ((hnext _ hnew).1 pc')
    · exact hk.1 t' pc' hold
  · rw [after_cache, hcont] at hv
    exact hk.2 v hv
  constructor
  · rw [after_cache]
    exact hinv
  · rw [after_cache, hpm]
    exact ok_mono (Nat.le_succ n) h.room
  · rw [after_cache]
    exact hlodged
  · rw [after_cache]
    exact hgrows.fresh h.fresh
  · intro t' call' hcall'
    rw [after_cache]
    rcases after_call hcall' with ⟨-, hnew⟩ | ⟨ht, hold⟩
    · exact (hnext call' hnew).2.1
    · exact hothers t' call' ht hold
  · intro t₁ t₂ call₁ call₂ b h₁ h₂ hb₁ hb₂
    rcases after_call h₁ with ⟨rfl, hnew₁⟩ | ⟨hne₁, hold₁⟩
    · rcases after_call h₂ with ⟨rfl, -⟩ | ⟨hne₂, hold₂⟩
      · rfl
      · exact absurd hb₂ ((hnext call₁ hnew₁).2.2 b hb₁ t₂ call₂ hne₂ hold₂)
    · rcases after_call h₂ with ⟨rfl, hnew₂⟩ | ⟨-, hold₂⟩
      · exact absurd hb₁ ((hnext call₂ hnew₂).2.2 b hb₂ t₁ call₁ hne₁ hold₁)
      · exact h.owner t₁ t₂ call₁ call₂ b hold₁ hold₂ hb₁ hb₂
  · intro t₁ t₂ pc₁ pc₂ h₁ h₂ hkey
    rcases after_call h₁ with ⟨-, hnew₁⟩ | ⟨-, hold₁⟩
    · exact absurd rfl ((hnext _ hnew₁).1 pc₁)
    · rcases after_call h₂ with ⟨-, hnew₂⟩ | ⟨-, hold₂⟩
      · exact absurd rfl ((hnext _ hnew₂).1 pc₂)
      · exact h.distinct t₁ t₂ pc₁ pc₂ hold₁ hold₂ hkey
  · intro t' pc' v hcall' hv
    rw [after_cache, hcont] at hv
    rcases after_call hcall' with ⟨-, hnew⟩ | ⟨-, hold⟩
    · exact absurd rfl ((hnext _ hnew).1 pc')
    · exact h.absent t' pc' v hold hv

theorem Caching.stay (h : Caching cuts tail (n + 1) c) {full : Addr → Bool}
    (hnext : ∀ call', next.call = some call' → (∀ pc, call' ≠ .write pc) ∧
      call'.Holds cuts c.cache.tree ∧ call'.leaf = none) :
    Caching.Kept cuts tail n c (c.after t next log { c.cache with compactFull := full }) := by
  refine h.read h.inv rfl ⟨h.lodged.pairs, h.lodged.use⟩ (fun _ _ => Iff.rfl)
    ⟨fun _ _ hv => hv, fun _ _ hs => hs⟩ (fun t' call' _ hcall' => h.calls t' call' hcall')
    fun call' hnew => ?_
  obtain ⟨hread, hholds, hnone⟩ := hnext call' hnew
  refine ⟨hread, hholds, fun b hb => ?_⟩
  rw [hnone] at hb
  cases hb

theorem cut_none {tree : TreeState P} {m : DLeaf} (h : Inv cuts tail tree)
    (hm : tree.dleafHeap L = some m) (hle : m.tempInsert ≤ 1) : cuts L = none := by
  cases hc : cuts L with
  | none => rfl
  | some cut =>
    have hlock := (h.skel.leaf L m hm).2
    rw [LockOK, hc, Option.isSome_some, if_pos rfl] at hlock
    rw [hlock] at hle
    exact absurd hle (by decide)

theorem Caching.looking (h : Caching cuts tail (n + 1) c) {key : Key}
    (hrun : callStep c.cache t (.looking key) = .ok (next, log, s')) :
    Caching.Kept cuts tail n c (c.after t next log s') := by
  have hret : ∀ {answer}, next = .ret answer → ∀ call', next.call = some call' →
      (∀ pc, call' ≠ .write pc) ∧ call'.Holds cuts c.cache.tree ∧ call'.leaf = none := by
    rintro answer rfl call' hcall'
    cases hcall'
  simp only [callStep] at hrun
  split at hrun
  · simp only [bind_eq_ok] at hrun
    obtain ⟨m, -, v, -, hrun⟩ := hrun
    cases hrun
    exact h.stay (hret rfl)
  · rename_i hlevel
    simp only [bind_eq_ok, deref_eq_ok] at hrun
    obtain ⟨leaf, -, m, hm, hrun⟩ := hrun
    have hslots := h.inv.data.slots leaf m hm
    split at hrun
    · cases hrun
      refine h.stay fun call' hcall' => ?_
      cases hcall'
      exact ⟨(fun pc heq => by cases heq), trivial, rfl⟩
    · rw [bind_eq_ok] at hrun
      obtain ⟨r, hr, hrun⟩ := hrun
      by_cases hthere : ∃ i, HasKey c.cache.tree.pm m key i
      · obtain ⟨i, hi⟩ := hthere
        rw [findSlots_hit hslots hi, Except.ok.injEq] at hr
        by_cases hc : m.maxUse ≤ m.control i
        · obtain rfl : r = .pair i (m.fingerPrint (m.control i + 1)).val := hr.symm.trans (if_pos hc)
          cases hrun
          -- the pair is read, and the access bit goes up
          have hview := sameView_touch m hi.1
          have hmark : (m.touch i).tempInsert = m.tempInsert := by
            unfold DLeaf.touch
            split_ifs <;> rfl
          refine h.read (h.inv.touch hm hi.1) rfl (h.lodged.view hm hview) (contains_setLeaf hm hview)
            (Grows.setLeaf hm hview) (fun t' call' _ hcall' => ?_) fun call' hcall' => ?_
          · exact (h.calls t' call' hcall').setLeaf hm fun _ => hmark
          · cases hcall'
        · obtain rfl : r = .record i (m.ptr i) := hr.symm.trans (if_neg hc)
          cases hrun
          refine h.stay fun call' hcall' => ?_
          cases hcall'
          exact ⟨(fun pc heq => by cases heq), Nat.pos_of_ne_zero hlevel, rfl⟩
      · rw [findSlots_miss hslots fun i hi => hthere ⟨i, hi⟩, Except.ok.injEq] at hr
        subst hr
        cases hrun
        exact h.stay (hret rfl)

theorem Caching.located (h : Caching cuts tail (n + 1) c) {i : Nat} {kvPtr : Addr}
    (hcall : c.call t = some (.located L i kvPtr)) (hfit : c.upToDate (.run t) = true)
    (hrun : callStep c.cache t (.located L i kvPtr) = .ok (next, log, s')) :
    Caching.Kept cuts tail n c (c.after t next log s') := by
  have hlevel : 1 ≤ c.cache.tree.tempLevel := h.calls t _ hcall
  simp only [callStep, bind_eq_ok, deref_eq_ok] at hrun
  obtain ⟨m, hm, v, -, hrun⟩ := hrun
  have htaking : ∀ place, choosePlace c.cache L m i = some place → place ≠ .nowhere →
      ∀ call', (Next.goto (.taking L i kvPtr place)).call = some call' →
      (∀ pc, call' ≠ .write pc) ∧ call'.Holds cuts c.cache.tree ∧ call'.leaf = none := by
    intro place hchoose hne call' hcall'
    cases hcall'
    refine ⟨(fun pc heq => by cases heq), ⟨hlevel, hne, fun j hj => ?_⟩, rfl⟩
    rcases choosePlace_ok hchoose with rfl | hok
    · exact absurd rfl hne
    · subst hj
      exact hok.2.1
  cases hchoose : choosePlace c.cache L m i with
  | none =>
    -- the leaf is free, and resetting its mark changes nothing
    have hfree : m.tempInsert = 0 := by
      simpa [CacheConfig.upToDate, hcall, hm, hchoose] using hfit
    have hsame : c.cache.tree.setLeaf L { m with tempInsert := 0 } = c.cache.tree := by
      have hreleased : ({ m with tempInsert := 0 } : DLeaf) = m := by rw [← hfree]
      rw [hreleased, TreeState.setLeaf, ← hm, Function.update_eq_self]
    rw [hchoose] at hrun
    simp only [giveUp, hm, deref_some, ok_bind, pure_eq_ok, hsame] at hrun
    cases hrun
    exact h.stay fun call' hcall' => by cases hcall'
  | some place =>
    rw [hchoose] at hrun
    cases place with
    | nowhere =>
      cases hrun
      exact h.stay fun call' hcall' => by cases hcall'
    | free =>
      cases hrun
      exact h.stay (htaking _ hchoose fun heq => by cases heq)
    | instead j =>
      cases hrun
      exact h.stay (htaking _ hchoose fun heq => by cases heq)

theorem Caching.taking (h : Caching cuts tail (n + 1) c) {i : Nat} {kvPtr : Addr} {place : Place}
    (hcall : c.call t = some (.taking L i kvPtr place))
    (hrun : callStep c.cache t (.taking L i kvPtr place) = .ok (next, log, s')) :
    Caching.Kept cuts tail n c (c.after t next log s') := by
  obtain ⟨hlevel, hplace⟩ := h.calls t _ hcall
  simp only [callStep, takeLeaf, bind_eq_ok, deref_eq_ok] at hrun
  obtain ⟨v, -, ⟨lockState, s₁⟩, ⟨m, hm, hlock⟩, hrun⟩ := hrun
  by_cases hfree : m.tempInsert = 0
  · rw [if_pos hfree] at hlock
    cases hlock
    cases hrun
    have hcut : cuts L = none := cut_none h.inv hm (hfree ▸ Nat.zero_le 1)
    have hview : SameView m { m with tempInsert := 1 } := SameView.of_slots rfl rfl
    have hothers : ∀ t' call', t' ≠ t → c.call t' = some call' → call'.leaf ≠ some L := by
      intro t' call' ht hcall'
      refine h.others hcall (Or.inr fun m' hm' => ?_) ht hcall'
      rw [hm, Option.some.injEq] at hm'
      exact hm' ▸ hfree
    refine h.read (h.inv.lock hm hcut) rfl (h.lodged.view hm hview) (contains_setLeaf hm hview)
      (Grows.setLeaf hm hview) (fun t' call' ht hcall' => ?_) fun call' hcall' => ?_
    · exact (h.calls t' call' hcall').setLeaf hm fun hleaf => absurd hleaf (hothers t' call' ht hcall')
    · cases hcall'
      refine ⟨(fun pc heq => by cases heq), ⟨hlevel, hplace, hcut, _, Function.update_self .., rfl⟩, ?_⟩
      rintro b ⟨⟩
      exact hothers
  · rw [if_neg hfree] at hlock
    cases hlock
    cases hrun
    exact h.stay fun call' hcall' => by cases hcall'

theorem Caching.holding (h : Caching cuts tail (n + 1) c) {i : Nat} {kvPtr : Addr} {place : Place}
    (hcall : c.call t = some (.holding L i kvPtr place)) (hfit : c.upToDate (.run t) = true)
    (hrun : callStep c.cache t (.holding L i kvPtr place) = .ok (next, log, s')) :
    Caching.Kept cuts tail n c (c.after t next log s') := by
  obtain ⟨hlevel, ⟨hne, hself⟩, hcut, m, hm, hone⟩ := h.calls t _ hcall
  simp only [CacheConfig.upToDate, hcall, hm, Bool.and_eq_true, decide_eq_true_eq] at hfit
  obtain ⟨⟨hi, hptr⟩, hleft⟩ := hfit
  obtain ⟨k, v, hk, -⟩ := (h.inv.data.slots L m hm).read i hi
  have hplace : PlaceOK c.cache L m i place := by
    cases place with
    | nowhere => exact absurd rfl hne
    | free => simpa [placeLeft, PlaceOK] using hleft
    | instead j =>
      simp only [placeLeft, Bool.and_eq_true, decide_eq_true_eq] at hleft
      exact ⟨hleft.1, hself j rfl, hleft.2⟩
  obtain ⟨m', use, hstore, -, -, hinv, hcont, hgrows, hlodged⟩ :=
    storePair_spec h.inv h.lodged hlevel hm hcut ⟨hi, hk⟩ hplace
  simp only [callStep, bind_eq_ok, deref_eq_ok] at hrun
  obtain ⟨w, -, s₁, hstore', hrun⟩ := hrun
  rw [← hptr, hstore] at hstore'
  cases hstore'
  cases hrun
  refine h.read hinv rfl hlodged hcont hgrows (fun t' call' ht hcall' => ?_) fun call' hcall' => ?_
  · exact (h.calls t' call' hcall').setLeaf hm fun hleaf =>
      absurd hleaf (h.others hcall (Or.inl rfl) ht hcall')
  · cases hcall'

omit [Pmem P] [LawfulPmem P] in
theorem LockStep.level {s s' : CacheTree P} (h : LockStep s s' call next log) :
    s.tree.tempLevel ≤ s'.tree.tempLevel := by
  cases h with
  | quiet hkeep => exact hkeep.level
  | took _ hkeep => exact hkeep.level
  | raised _ hkeep => exact hkeep.level
  | reset _ hkeep => exact hkeep.level
  | gaveUp _ _ _ _ _ _ _ hkeep => exact hkeep.level

omit [Pmem P] [LawfulPmem P] in
theorem after_wait (hcall : c.call t = some call) : c.after t (.goto call) [] c.cache = c := by
  have hsame : Function.update c.call t (Next.goto call).call = c.call := by
    rw [Next.call, ← hcall, Function.update_eq_self]
  rw [CacheConfig.after, List.foldl_nil, hsame]

/-- A step of an insertion. -/
theorem Caching.writing (h : Caching cuts tail (n + 1) c) (hcall : c.call t = some (.write pc))
    (hrun : callStep c.cache t (.write pc) = .ok (next, log, s')) :
    ∃ cuts', Caching.Kept cuts' tail n c (c.after t next log s') := by
  have hbelow : ∀ b m, c.cache.tree.dleafHeap b = some m → b < c.cache.tree.brk := fun b m hm =>
    (h.inv.skel.leaf_lt b ((h.inv.skel.heap b).mp ⟨m, hm⟩)).2
  have hlevel := (callStep_lock hbelow hrun).level
  have hnew : Absent c.cache.tree pc.request.key :=
    (absent_iff h.inv.data.slots).mpr fun v => h.absent t pc v hcall
  rcases write_step h.inv h.lodged h.room t (h.calls t _ hcall) hnew with
    hwait | ⟨L, next', log', cuts', s₁, hrun', hstep⟩
  · rw [hwait] at hrun
    cases hrun
    rw [after_wait hcall]
    exact ⟨cuts, { h with room := ok_mono (Nat.le_succ n) h.room }, fun _ hk => hk⟩
  · rw [hrun'] at hrun
    cases hrun
    obtain ⟨o, hnext, hadv⟩ := hstep.advanced
    refine ⟨cuts', h.advance hcall hlevel hstep, fun k hk => ⟨fun t' pc' hcall' => ?_, fun v hv => ?_⟩⟩
    · rcases after_call hcall' with ⟨-, hgone⟩ | ⟨-, hold⟩
      · rw [hnext] at hgone
        obtain ⟨pc'', ho, heq⟩ := Option.map_eq_some_iff.mp hgone
        cases heq
        cases o with
        | goto pc₁ =>
          cases ho
          rw [(hadv.goto pc' rfl).2.1]
          exact hk.1 t pc hcall
        | ret done => cases ho
      · exact hk.1 t' pc' hold
    · rw [after_cache] at hv
      rcases hadv.content with ⟨-, hcont⟩ | ⟨-, hcont⟩
      · exact hk.2 v ((hcont k v).mp hv)
      · rcases (hcont k v).mp hv with hold | ⟨hkey, -⟩
        · exact hk.2 v hold
        · exact hk.1 t pc hcall hkey.symm

/-- A thread that makes a call. -/
theorem Caching.enter (h : Caching cuts tail (n + 1) c) (hidle : c.call t = none) (hleaf : call.leaf = none)
    (hholds : call.Holds cuts c.cache.tree) (hnew : ∀ pc, call = .write pc → c.Unused pc.request.key) :
    Caching cuts tail n { c with call := Function.update c.call t (some call) } := by
  constructor
  · exact h.inv
  · exact ok_mono (Nat.le_succ n) h.room
  · exact h.lodged
  · exact h.fresh
  · intro t' call' hcall'
    rcases eq_or_of_update_some hcall' with ⟨-, rfl⟩ | ⟨-, hold⟩
    · exact hholds
    · exact h.calls t' call' hold
  · intro t₁ t₂ call₁ call₂ b h₁ h₂ hb₁ hb₂
    rcases eq_or_of_update_some h₁ with ⟨-, rfl⟩ | ⟨-, hold₁⟩
    · rw [hleaf] at hb₁
      cases hb₁
    · rcases eq_or_of_update_some h₂ with ⟨-, rfl⟩ | ⟨-, hold₂⟩
      · rw [hleaf] at hb₂
        cases hb₂
      · exact h.owner t₁ t₂ call₁ call₂ b hold₁ hold₂ hb₁ hb₂
  · intro t₁ t₂ pc₁ pc₂ h₁ h₂ hkey
    rcases eq_or_of_update_some h₁ with ⟨rfl, heq₁⟩ | ⟨-, hold₁⟩
    · rcases eq_or_of_update_some h₂ with ⟨rfl, -⟩ | ⟨-, hold₂⟩
      · rfl
      · exact absurd hkey.symm ((hnew pc₁ heq₁.symm).1 t₂ pc₂ hold₂)
    · rcases eq_or_of_update_some h₂ with ⟨rfl, heq₂⟩ | ⟨-, hold₂⟩
      · exact absurd hkey ((hnew pc₂ heq₂.symm).1 t₁ pc₁ hold₁)
      · exact h.distinct t₁ t₂ pc₁ pc₂ hold₁ hold₂ hkey
  · intro t' pc' v hcall'
    rcases eq_or_of_update_some hcall' with ⟨-, heq⟩ | ⟨-, hold⟩
    · exact (hnew pc' heq.symm).2 v
    · exact h.absent t' pc' v hold

/-- One event. -/
theorem Caching.step (h : Caching cuts tail (n + 1) c) {e : CacheEvent} (hfit : c.upToDate e = true)
    (hnew : ∀ k ∈ cacheKeys [e], c.Unused k) (hstep : c.step e = .ok c') :
    ∃ cuts', Caching cuts' tail n c' ∧ ∀ k, k ∉ cacheKeys [e] → c.Unused k → c'.Unused k := by
  have hstay : Caching cuts tail n c := { h with room := ok_mono (Nat.le_succ n) h.room }
  cases e with
  | insert t r =>
    cases hstep
    unfold CacheConfig.enter
    split
    · rename_i hidle
      refine ⟨cuts, h.enter hidle rfl trivial fun pc heq => ?_, fun k hk hunused => ⟨?_, hunused.2⟩⟩
      · cases heq
        exact hnew r.key (by simp [cacheKeys])
      · intro t' pc' hcall'
        rcases eq_or_of_update_some hcall' with ⟨-, heq⟩ | ⟨-, hold⟩
        · cases heq
          exact fun heq => hk (by simp [cacheKeys, ← heq, Pc.request])
        · exact hunused.1 t' pc' hold
    · exact ⟨cuts, hstay, fun _ _ hk => hk⟩
  | find t key =>
    cases hstep
    unfold CacheConfig.enter
    split
    · rename_i hidle
      refine ⟨cuts, h.enter hidle rfl trivial fun pc heq => (by cases heq), fun k hk hunused =>
        ⟨?_, hunused.2⟩⟩
      intro t' pc' hcall'
      rcases eq_or_of_update_some hcall' with ⟨-, heq⟩ | ⟨-, hold⟩
      · cases heq
      · exact hunused.1 t' pc' hold
    · exact ⟨cuts, hstay, fun _ _ hk => hk⟩
  -- the next section of the call, if the thread is inside one
  | run t =>
    simp only [CacheConfig.step] at hstep
    split at hstep
    · cases hstep
      exact ⟨cuts, hstay, fun _ _ hk => hk⟩
    · rename_i call hcall
      rw [bind_eq_ok] at hstep
      obtain ⟨⟨next, log, s'⟩, hrun, hstep⟩ := hstep
      cases hstep
      have hkept : ∃ cuts', Caching.Kept cuts' tail n c (c.after t next log s') := by
        cases call with
        | write pc => exact h.writing hcall hrun
        | looking key => exact ⟨cuts, h.looking hrun⟩
        | located leaf i kvPtr => exact ⟨cuts, h.located hcall hfit hrun⟩
        | taking leaf i kvPtr place => exact ⟨cuts, h.taking hcall hrun⟩
        | holding leaf i kvPtr place => exact ⟨cuts, h.holding hcall hfit hrun⟩
      obtain ⟨cuts', hc, hunused⟩ := hkept
      exact ⟨cuts', hc, fun k _ hk => hunused k hk⟩

omit [LawfulPmem P] in
theorem cacheKeys_cons (e : CacheEvent) (es : List CacheEvent) :
    cacheKeys (e :: es) = cacheKeys [e] ++ cacheKeys es := by
  cases e <;> rfl

/-- A whole run, by induction on its events. -/
theorem Caching.run (es : List CacheEvent) (h : Caching cuts tail (es.length + n) c)
    (hkeys : (cacheKeys es).Nodup) (hnew : ∀ k ∈ cacheKeys es, c.Unused k) (hrun : c.run es = .ok c')
    (hfits : c.all CacheConfig.upToDate es = true) : ∃ cuts', Caching cuts' tail n c' := by
  induction es generalizing cuts c with
  | nil =>
    cases hrun
    rw [List.length_nil, Nat.zero_add] at h
    exact ⟨cuts, h⟩
  | cons e es ih =>
    rw [List.length_cons, Nat.add_right_comm] at h
    rw [cacheKeys_cons] at hkeys hnew
    obtain ⟨-, hkeys', hcross⟩ := List.nodup_append.mp hkeys
    simp only [CacheConfig.run, bind_eq_ok] at hrun
    obtain ⟨c₁, hstep, hrun⟩ := hrun
    simp only [CacheConfig.all, hstep, Bool.and_eq_true] at hfits
    obtain ⟨cuts₁, h₁, hrest⟩ :=
      h.step hfits.1 (fun k hk => hnew k (List.mem_append_left _ hk)) hstep
    exact ih h₁ hkeys' (fun k hk => hrest k (fun hk' => hcross k hk' k hk rfl)
      (hnew k (List.mem_append_right _ hk))) hrun hfits.2

theorem caching_start {pm : P} (hok : Ok (n + 1) pm) (t₀ : Tid) (junkInner : Addr → InnerNode)
    (junkLeaf : Addr → DLeaf) (junkUse : Addr → Nat) (junkFull : Addr → Bool) :
    ∃ s, init pm t₀ junkInner junkLeaf junkUse junkFull = .ok s ∧
      Caching Cuts.empty (junkLeaf 1).next n (CacheConfig.start s) ∧
      ∀ k, (CacheConfig.start s).Unused k := by
  obtain ⟨tree, hrun, hinv, hok', -, hfresh, hempty⟩ := init_spec (n := n) hok t₀ junkInner junkLeaf
  obtain ⟨-, -, hlodged⟩ := lodged_init hrun junkUse junkFull
  refine ⟨⟨tree, junkUse, junkFull⟩, by simp only [init, hrun, ok_bind, pure_eq_ok], ?_,
    fun k => ⟨fun t pc hcall => (by cases hcall), hempty k⟩⟩
  constructor
  · exact hinv
  · exact hok'
  · exact hlodged
  · exact hfresh
  · intro t call hcall
    cases hcall
  · intro t t' call call' b hcall
    cases hcall
  · intro t t' pc pc' hcall
    cases hcall
  · intro t pc v hcall
    cases hcall

theorem Caching.pair (h : Caching cuts tail n c) {m : DLeaf} {i : Nat}
    (hm : c.cache.tree.dleafHeap L = some m) (hi : i < m.maxUse) (hc : m.maxUse ≤ m.control i) :
    logKey c.cache.tree.pm (m.ptr i) = some (m.fingerPrint (m.control i)).val ∧
      logVal c.cache.tree.pm (m.ptr i) = some (m.fingerPrint (m.control i + 1)).val := by
  have hslots := h.inv.data.slots L m hm
  obtain ⟨k, v, hk, hv⟩ := hslots.read i hi
  obtain ⟨-, hkey⟩ := hslots.pair i k ⟨hi, hk⟩ hc
  have hval : v = (m.fingerPrint (m.control i + 1)).val :=
    h.inv.data.contains_unique ⟨L, m, hm, i, ⟨hi, hk⟩, hv⟩ (h.fresh L m hm i k ⟨hi, hk⟩ hc)
  rw [hkey, ← hval]
  exact ⟨hk, hv⟩

end Caching

/-- The pair of every slot is the key and the value of the record of the slot, in every run of
insertions of distinct keys and searches in which each search that writes finds what it relies
on. -/
theorem pairs_match_records (pm : P) (t₀ : Tid) (junkInner : Addr → InnerNode)
    (junkLeaf : Addr → DLeaf) (junkUse : Addr → Nat) (junkFull : Addr → Bool)
    (schedule : List CacheEvent) (hroom : Ok (schedule.length + 1) pm)
    (hkeys : (cacheKeys schedule).Nodup) {s₀ : CacheTree P} {c : CacheConfig P}
    (hinit : init pm t₀ junkInner junkLeaf junkUse junkFull = .ok s₀)
    (hrun : (CacheConfig.start s₀).run schedule = .ok c)
    (hfits : (CacheConfig.start s₀).all CacheConfig.upToDate schedule = true) :
    ∀ leaf m i, c.cache.tree.dleafHeap leaf = some m → i < m.maxUse → m.maxUse ≤ m.control i →
      logKey c.cache.tree.pm (m.ptr i) = some (m.fingerPrint (m.control i)).val ∧
        logVal c.cache.tree.pm (m.ptr i) = some (m.fingerPrint (m.control i + 1)).val := by
  obtain ⟨s, hinit', hstart, hunused⟩ := caching_start hroom t₀ junkInner junkLeaf junkUse junkFull
  rw [hinit'] at hinit
  cases hinit
  obtain ⟨cuts, h⟩ := Caching.run (n := 0) schedule hstart hkeys (fun k _ => hunused k) hrun hfits
  exact fun leaf m i hm hi hc => h.pair hm hi hc

theorem pairs_match_records_reread : ∃ s₀ c,
    init (IdealPm.roomy 300) 0 zeroInner zeroLeaf (fun _ => 0) (fun _ => false) = .ok s₀ ∧
      (CacheConfig.start s₀).run pairReread = .ok c ∧
      ∀ leaf m i, c.cache.tree.dleafHeap leaf = some m → i < m.maxUse → m.maxUse ≤ m.control i →
        logKey c.cache.tree.pm (m.ptr i) = some (m.fingerPrint (m.control i)).val := by
  have h : (do
      let s₀ ← init (IdealPm.roomy 300) 0 zeroInner zeroLeaf (fun _ => 0) (fun _ => false)
      let _ ← (CacheConfig.start s₀).run pairReread
      return (CacheConfig.start s₀).all CacheConfig.upToDate pairReread) = .ok true := by
    decide +kernel
  simp only [bind_eq_ok, pure_eq_ok, Except.ok.injEq] at h
  obtain ⟨s₀, hinit, c, hrun, hfits⟩ := h
  refine ⟨s₀, c, hinit, hrun, fun leaf m i hm hi hc => ?_⟩
  exact (pairs_match_records (IdealPm.roomy 300) 0 zeroInner zeroLeaf (fun _ => 0) (fun _ => false)
    pairReread (IdealPm.roomy_lawful (by decide +kernel) (by decide)) (by decide +kernel) hinit hrun hfits
    leaf m i hm hi hc).1

/-- A search locates the record of 114 in slot 14; the split of the leaf that follows has the record
of 15 in this slot. -/
def slotSortedAway : List CacheEvent :=
  insertsBy 0 ((List.range 31).map fun i => 100 + i) ++ [.find 1 114, .run 1, .run 1] ++
    insertsBy 0 ((List.range 16).map fun i => 1 + i) ++ [.run 1, .run 1]

/-- The search writes the pair of 114 for the slot of 15, and 15 is not found any more. -/
theorem pair_of_other_key : (cacheKeys slotSortedAway).Nodup ∧ ∃ s₀ c m s',
    init (IdealPm.roomy 300) 0 zeroInner zeroLeaf (fun _ => 0) (fun _ => false) = .ok s₀ ∧
      (CacheConfig.start s₀).run slotSortedAway = .ok c ∧ c.cache.tree.dleafHeap 1 = some m ∧
      14 < m.maxUse ∧ m.maxUse ≤ m.control 14 ∧
      logKey c.cache.tree.pm (m.ptr 14) = some 15 ∧ (m.fingerPrint (m.control 14)).val = 114 ∧
      find 1 c.cache 15 = .ok (0, s') := by
  refine ⟨by decide +kernel, ?_⟩
  have h : (do
      let s₀ ← init (IdealPm.roomy 300) 0 zeroInner zeroLeaf (fun _ => 0) (fun _ => false)
      let c ← (CacheConfig.start s₀).run slotSortedAway
      let m ← deref (c.cache.tree.dleafHeap 1)
      let (v, _) ← find 1 c.cache 15
      return (decide (14 < m.maxUse), decide (m.maxUse ≤ m.control 14),
        logKey c.cache.tree.pm (m.ptr 14), (m.fingerPrint (m.control 14)).val, v)) =
      .ok (true, true, some 15, 114, 0) := by
    decide +kernel
  simp only [bind_eq_ok, deref_eq_ok, pure_eq_ok, Except.ok.injEq, Prod.mk.injEq, decide_eq_true_eq] at h
  obtain ⟨s₀, hinit, c, hrun, m, hm, ⟨v, s'⟩, hfind, hlive, hpair, hkey, hcell, rfl⟩ := h
  exact ⟨s₀, c, m, s', hinit, hrun, hm, hlive, hpair, hkey, hcell, hfind⟩

end ReadCache

end ZBTree
