import ZBTree.Sequential
import ZBTree.BTreeShape

/-!
# Insertions on many threads

`insert` cut into the sections that its locks delimit, and any number of threads that
run these sections in any order. A thread that is between two sections holds the leaf it
works on, so the sections of the others leave that leaf alone; what they do to the inner
nodes does not change where the key of the thread leads to. From this the leaf found
again when a split is recorded is the leaf that was split.
-/

namespace ZBTree

open RangeIndex Pmem LawfulPmem

/-! ### The sections of insert -/

/-- The arguments of a call of `insert`. -/
structure Request where
  key : Key
  val : Word
  valueLen : BitVec 32

/-- Where a call of `insert` stands between two sections, with the locals it still needs. -/
inductive Pc where
  | searching (r : Request)
  | locked (r : Request) (leaf : Addr)
  | splitting (r : Request) (leaf leaf2 : Addr) (splitKey : Key) (insertLeaf : Addr)

/-- How a section ends. -/
inductive Outcome where
  | goto (pc : Pc)
  | ret (done : Bool)

def Pc.request : Pc → Request
  | searching r => r
  | locked r _ => r
  | splitting r _ _ _ _ => r

def Pc.leaf : Pc → Option Addr
  | searching _ => none
  | locked _ leaf => some leaf
  | splitting _ leaf _ _ _ => some leaf

def Outcome.pc : Outcome → Option Pc
  | goto pc => some pc
  | ret _ => none

def Outcome.answer (r : Request) : Outcome → List (Request × Bool)
  | goto _ => []
  | ret done => [(r, done)]

variable {P : Type} [Pmem P]

/-- One section of `insert` on thread `t`. -/
def insertSection (s : TreeState P) (t : Tid) : Pc → Exec (Outcome × TreeState P)
  | .searching r => do
    let (lockState, leaf, s) ← lockLeaf s r.key
    if lockState then return (.goto (.locked r leaf), s) else return (.goto (.searching r), s)
  | .locked r leaf => do
    let m ← deref (s.dleafHeap leaf)
    if ← duplicate s.pm m r.key m.maxUse 0 then return (.ret false, s)
    else if m.maxUse < MAX_LEAF_KEY then
      let s ← fillSlot s t r.key r.val r.valueLen leaf
      return (.ret true, s)
    else
      let (leaf2, splitKey, insertLeaf, s) ← splitFull s t leaf
      return (.goto (.splitting r leaf leaf2 splitKey insertLeaf), s)
  | .splitting r leaf leaf2 splitKey insertLeaf => do
    let s ← installSeparator s r.key splitKey leaf leaf2 insertLeaf
    return (.goto (.searching r), s)

/-- The sections of one call after each other, with no other thread in between. -/
def runSections : Nat → TreeState P → Tid → Pc → Exec (Bool × TreeState P)
  | 0, _, _, _ => .error .spin
  | n + 1, s, t, pc => do
    match ← insertSection s t pc with
    | (.goto pc, s) => runSections n s t pc
    | (.ret done, s) => return (done, s)

/-- The sections of a call that is alone are `insert`. -/
theorem runSections_of_insert (n : Nat) (s : TreeState P) (t : Tid) (r : Request)
    {x : Bool × TreeState P} (h : insert n s t r.key r.val r.valueLen = .ok x) :
    ∃ j, runSections j s t (.searching r) = .ok x := by
  induction n generalizing s with
  | zero => exact absurd h (by simp [insert])
  | succ n ih =>
    rw [insert, bind_eq_ok] at h
    obtain ⟨⟨lockState, leaf, s₁⟩, hlock, h⟩ := h
    cases lockState with
    | false =>
      simp only [Bool.not_false, if_true] at h
      obtain ⟨j, hj⟩ := ih s₁ h
      refine ⟨j + 1, ?_⟩
      simp only [runSections, insertSection, hlock, ok_bind, Bool.false_eq_true, if_false,
        pure_eq_ok, hj]
    | true =>
      simp only [Bool.not_true, Bool.false_eq_true, if_false] at h
      have hfirst : ∀ j, runSections (j + 1) s t (.searching r) =
          runSections j s₁ t (.locked r leaf) := fun j => by
        simp only [runSections, insertSection, hlock, ok_bind, if_true, pure_eq_ok]
      rw [bind_eq_ok] at h
      obtain ⟨m, hm, h⟩ := h
      rw [bind_eq_ok] at h
      obtain ⟨dup, hdup, h⟩ := h
      cases dup with
      | true =>
        refine ⟨2, (hfirst 1).trans ?_⟩
        simp only [runSections, insertSection, hm, hdup, ok_bind, if_true, pure_eq_ok]
        exact h
      | false =>
        simp only [Bool.false_eq_true, if_false] at h
        by_cases hroom : m.maxUse < MAX_LEAF_KEY
        · rw [if_pos hroom, bind_eq_ok] at h
          obtain ⟨s₂, hfill, h⟩ := h
          refine ⟨2, (hfirst 1).trans ?_⟩
          simp only [runSections, insertSection, hm, hdup, ok_bind, Bool.false_eq_true, if_false,
            if_pos hroom, hfill, pure_eq_ok]
          exact h
        · rw [if_neg hroom, bind_eq_ok] at h
          obtain ⟨⟨leaf2, splitKey, insertLeaf, s₂⟩, hsplit, h⟩ := h
          rw [bind_eq_ok] at h
          obtain ⟨s₃, hinst, h⟩ := h
          obtain ⟨j, hj⟩ := ih s₃ h
          refine ⟨j + 3, (hfirst (j + 2)).trans ?_⟩
          simp only [runSections, insertSection, hm, hdup, ok_bind, Bool.false_eq_true, if_false,
            if_neg hroom, hsplit, hinst, pure_eq_ok, hj]

/-! ### Threads -/

/-- The tree, where each thread is, and what the calls so far have returned. -/
structure Config (P : Type) where
  tree : TreeState P
  pc : Tid → Option Pc
  returned : List (Request × Bool)

/-- A thread calls `insert`, or runs its next section. -/
inductive Event where
  | call (t : Tid) (r : Request)
  | run (t : Tid)

/-- The thread has called `insert`. -/
def Config.enter (c : Config P) (t : Tid) (r : Request) : Config P :=
  { c with pc := Function.update c.pc t (some (.searching r)) }

/-- One event. A thread that is inside a call makes no other, and one that is not has no
section to run. -/
def Config.step (c : Config P) : Event → Exec (Config P)
  | .call t r =>
    match c.pc t with
    | none => .ok (c.enter t r)
    | some _ => .ok c
  | .run t =>
    match c.pc t with
    | none => .ok c
    | some pc => do
      let (o, s) ← insertSection c.tree t pc
      return { tree := s
               pc := Function.update c.pc t o.pc
               returned := o.answer pc.request ++ c.returned }

def Config.run : Config P → List Event → Exec (Config P)
  | c, [] => .ok c
  | c, e :: es => do
    let c ← c.step e
    c.run es

def Config.start (s : TreeState P) : Config P := ⟨s, fun _ => none, []⟩

def calledKeys : List Event → List Key
  | [] => []
  | .call _ r :: es => r.key :: calledKeys es
  | .run _ :: es => calledKeys es

theorem eq_or_of_update_some {α : Type} {f : Tid → Option α} {t t' : Tid} {x y : α}
    (h : Function.update f t (some x) t' = some y) : (t' = t ∧ y = x) ∨ (t' ≠ t ∧ f t' = some y) := by
  by_cases ht : t' = t
  · subst ht
    rw [Function.update_self, Option.some.injEq] at h
    exact Or.inl ⟨rfl, h.symm⟩
  · rw [Function.update_of_ne ht] at h
    exact Or.inr ⟨ht, h⟩

/-! ### What one section does -/

/-- What is known at a place of `insert`, whatever the other threads have done. -/
def Pc.Holds (cuts : Cuts) (s : TreeState P) : Pc → Prop
  | .searching _ => True
  | .locked r L => Routes s.index r.key L ∧ cuts L = none ∧
      ∃ m, s.dleafHeap L = some m ∧ m.tempInsert = 1
  | .splitting r L leaf2 splitKey insertLeaf => Routes s.index r.key L ∧
      cuts L = some ⟨splitKey, leaf2, insertLeaf⟩

/-- A section that works on the leaf `L` leaves the others as they are. -/
structure Frame (L : Addr) (cuts : Cuts) (s : TreeState P) (cuts' : Cuts) (s' : TreeState P) :
    Prop where
  cut : ∀ b, b ≠ L → cuts' b = cuts b
  routes : ∀ k b, b ≠ L → Routes s.index k b → Routes s'.index k b
  leaf : ∀ b m, b ≠ L → s.dleafHeap b = some m → s'.dleafHeap b = some m
  held : ∀ b m, b ≠ L → s'.dleafHeap b = some m → m.tempInsert ≠ 0 → s.dleafHeap b = some m

variable {cuts cuts' : Cuts} {tail L : Addr} {s s' : TreeState P} {n : Nat} {pc pc' : Pc}

omit [Pmem P] in
theorem Frame.holds (h : Frame L cuts s cuts' s') (hpc : pc.Holds cuts s) (hne : pc.leaf ≠ some L) :
    pc.Holds cuts' s' := by
  cases pc with
  | searching r => trivial
  | locked r b =>
    obtain ⟨hroute, hcut, m, hm, hone⟩ := hpc
    have hb : b ≠ L := fun heq => hne (congrArg some heq)
    exact ⟨h.routes r.key b hb hroute, (h.cut b hb).trans hcut, m, h.leaf b m hb hm, hone⟩
  | splitting r b leaf2 splitKey insertLeaf =>
    obtain ⟨hroute, hcut⟩ := hpc
    have hb : b ≠ L := fun heq => hne (congrArg some heq)
    exact ⟨h.routes r.key b hb hroute, (h.cut b hb).trans hcut⟩

omit [Pmem P] in
theorem Frame.of_leaf (hindex : s'.index = s.index) (hcut : ∀ b, b ≠ L → cuts' b = cuts b)
    (hheap : ∀ b, b ≠ L → s'.dleafHeap b = s.dleafHeap b) : Frame L cuts s cuts' s' where
  cut := hcut
  routes _ _ _ hroute := hindex ▸ hroute
  leaf b _ hb hm := (hheap b hb).trans hm
  held b _ hb hm _ := (hheap b hb).symm.trans hm

variable [LawfulPmem P]

theorem Pc.Holds.held (h : Inv cuts tail s) (hpc : pc.Holds cuts s) (hleaf : pc.leaf = some L) :
    ∃ m, s.dleafHeap L = some m ∧ m.tempInsert ≠ 0 := by
  cases pc with
  | searching r => exact absurd hleaf (by simp [Pc.leaf])
  | locked r b =>
    obtain ⟨-, -, m, hm, hone⟩ := hpc
    obtain rfl : b = L := Option.some.inj hleaf
    exact ⟨m, hm, by rw [hone]; exact Nat.one_ne_zero⟩
  | splitting r b leaf2 splitKey insertLeaf =>
    obtain ⟨hroute, hcut⟩ := hpc
    obtain rfl : b = L := Option.some.inj hleaf
    obtain ⟨m, hm⟩ := h.skel.of_index hroute.mem
    have hlock := (h.skel.leaf b m hm).2
    rw [LockOK, hcut, Option.isSome_some, if_pos rfl] at hlock
    exact ⟨m, hm, by rw [hlock]; exact Nat.succ_ne_zero 1⟩

/-- What a section of the call at `pc` that works on the leaf `L` has done. -/
structure Advanced (tail : Addr) (n : Nat) (pc : Pc) (L : Addr) (cuts : Cuts) (s : TreeState P)
    (o : Outcome) (cuts' : Cuts) (s' : TreeState P) : Prop where
  inv : Inv cuts' tail s'
  room : Ok n s'.pm
  frame : Frame L cuts s cuts' s'
  /-- The call holds the leaf, or nobody does. -/
  entry : pc.leaf = some L ∨ pc.leaf = none ∧ ∀ m, s.dleafHeap L = some m → m.tempInsert = 0
  goto : ∀ pc', o = .goto pc' → pc'.Holds cuts' s' ∧ pc'.request = pc.request ∧
    ∀ b, pc'.leaf = some b → b = L
  /-- The leaf is not left marked when the call goes away from it. -/
  held : ∀ m, s'.dleafHeap L = some m → m.tempInsert ≠ 0 → ∃ pc', o = .goto pc' ∧ pc'.leaf = some L
  content : ((∃ pc', o = .goto pc') ∧ ∀ k v, s'.Contains k v ↔ s.Contains k v) ∨
    (o = .ret true ∧ ∀ k v, s'.Contains k v ↔
      s.Contains k v ∨ (k = pc.request.key ∧ v = pc.request.val))
  grows : Grows s s'
  index : s'.index = s.index ∨ ∃ r leaf2 splitKey insertLeaf,
    pc = .splitting r L leaf2 splitKey insertLeaf ∧ InsAfter L splitKey leaf2 s.index s'.index

theorem searching_spec (h : Inv cuts tail s) (hok : Ok (n + 1) s.pm) (t : Tid) (r : Request) :
    insertSection s t (.searching r) = .ok (.goto (.searching r), s) ∨
      ∃ L o s', insertSection s t (.searching r) = .ok (o, s') ∧
        Advanced tail n (.searching r) L cuts s o cuts s' := by
  obtain ⟨path, L, m, hfind, -, hroute, hm⟩ := h.reaches r.key
  by_cases hfree : m.tempInsert = 0
  · right
    have hcut : cuts L = none := by
      cases hc : cuts L with
      | none => rfl
      | some c =>
        have hlock := (h.skel.leaf L m hm).2
        rw [LockOK, hc, Option.isSome_some, if_pos rfl, hfree] at hlock
        exact absurd hlock (by decide)
    have hview : SameView m { m with tempInsert := 1 } := SameView.of_slots rfl rfl
    have hself : (s.setLeaf L { m with tempInsert := 1 }).dleafHeap L =
        some { m with tempInsert := 1 } := Function.update_self ..
    refine ⟨L, .goto (.locked r L), s.setLeaf L { m with tempInsert := 1 }, ?_, ?_⟩
    · simp only [insertSection, lockLeaf_free hfind hm hfree, ok_bind, if_true, pure_eq_ok]
    · constructor
      · exact h.lock hm hcut
      · exact ok_mono (Nat.le_succ n) hok
      · exact Frame.of_leaf rfl (fun _ _ => rfl) fun b hb => Function.update_of_ne hb _ _
      · refine Or.inr ⟨rfl, fun m' hm' => ?_⟩
        rw [hm, Option.some.injEq] at hm'
        exact hm' ▸ hfree
      · rintro pc' heq
        cases heq
        exact ⟨⟨hroute, hcut, _, hself, rfl⟩, rfl, fun b hb => (Option.some.inj hb).symm⟩
      · exact fun m' _ _ => ⟨_, rfl, rfl⟩
      · exact Or.inl ⟨⟨_, rfl⟩, contains_setLeaf hm hview⟩
      · exact Grows.setLeaf hm hview
      · exact Or.inl rfl
  · left
    simp only [insertSection, lockLeaf, hfind, hm, deref_some, if_neg hfree, ok_bind, pure_eq_ok,
      Bool.false_eq_true, if_false]

theorem Advanced.fill {r : Request} (hinv : Inv cuts tail s') (hok : Ok n s'.pm)
    (hindex : s'.index = s.index) (hheap : ∀ b, b ≠ L → s'.dleafHeap b = s.dleafHeap b)
    (hfree : ∀ m, s'.dleafHeap L = some m → m.tempInsert = 0)
    (hcont : ∀ k v, s'.Contains k v ↔ s.Contains k v ∨ (k = r.key ∧ v = r.val)) (hgrows : Grows s s') :
    Advanced tail n (.locked r L) L cuts s (.ret true) cuts s' where
  inv := hinv
  room := hok
  frame := Frame.of_leaf hindex (fun _ _ => rfl) hheap
  entry := Or.inl rfl
  goto pc' heq := absurd heq (by simp)
  held m hm hheld := absurd (hfree m hm) hheld
  content := Or.inr ⟨rfl, hcont⟩
  grows := hgrows
  index := Or.inl hindex

/-- The section that splits a full leaf. -/
theorem Advanced.split {r : Request} (h : Inv cuts tail s) (hroute : Routes s.index r.key L) {c : Cut}
    (hinv : Inv (Function.update cuts L (some c)) tail s') (hok : Ok n s'.pm)
    (hindex : s'.index = s.index)
    (hright : ∀ m, s'.dleafHeap (s.brk + 1) = some m → m.tempInsert = 0)
    (hheap : ∀ b, b ≠ L → b ≠ s.brk + 1 → s'.dleafHeap b = s.dleafHeap b)
    (hcont : ∀ k v, s'.Contains k v ↔ s.Contains k v) (hgrows : Grows s s') :
    Advanced tail n (.locked r L) L cuts s (.goto (.splitting r L c.right c.key c.pleaf))
      (Function.update cuts L (some c)) s' where
  inv := hinv
  room := hok
  frame := by
    constructor
    · exact fun b hb => Function.update_of_ne hb _ _
    · exact fun k b _ hr => hindex ▸ hr
    · intro b m hb hm
      -- the new leaf is at an address where no leaf was
      have hbR : b ≠ s.brk + 1 := by
        rintro rfl
        have hlt := (h.skel.leaf_lt _ ((h.skel.heap _).mp ⟨m, hm⟩)).2
        exact absurd hlt (Nat.not_lt.mpr (Nat.le_succ _))
      exact (hheap b hb hbR).trans hm
    · intro b m hb hm hheld
      by_cases hbR : b = s.brk + 1
      · subst hbR
        exact absurd (hright m hm) hheld
      · exact (hheap b hb hbR).symm.trans hm
  entry := Or.inl rfl
  goto pc' heq := by
    cases heq
    exact ⟨⟨hindex ▸ hroute, Function.update_self ..⟩, rfl, fun b hb => (Option.some.inj hb).symm⟩
  held m _ _ := ⟨_, rfl, rfl⟩
  content := Or.inl ⟨⟨_, rfl⟩, hcont⟩
  grows := hgrows
  index := Or.inl hindex

theorem locked_spec (h : Inv cuts tail s) (hok : Ok (n + 1) s.pm) (t : Tid) {r : Request}
    (hpc : (Pc.locked r L).Holds cuts s) (hnew : Absent s r.key) :
    ∃ o cuts' s', insertSection s t (.locked r L) = .ok (o, s') ∧
      Advanced tail n (.locked r L) L cuts s o cuts' s' := by
  obtain ⟨hroute, hcut, m, hm, hone⟩ := hpc
  have hdup : duplicate s.pm m r.key m.maxUse 0 = .ok false :=
    duplicate_miss (h.data.slots L m hm) fun i => hnew L m i hm
  by_cases hroom : m.maxUse < MAX_LEAF_KEY
  · obtain ⟨addr, pm, hfill, hok', hinv, hcont, hgrows⟩ :=
      h.fillSlot hok t r.val r.valueLen hm hroute hcut hroom fun i => hnew L m i hm
    refine ⟨.ret true, cuts, ({ s with pm := pm } : TreeState P).setLeaf L (m.push r.key addr), ?_,
      Advanced.fill hinv hok' rfl (fun b hb => Function.update_of_ne hb _ _) (fun m' hm' => ?_) hcont
        hgrows⟩
    · simp only [insertSection, hm, deref_some, ok_bind, hdup, Bool.false_eq_true, if_false,
        if_pos hroom, hfill, pure_eq_ok]
    · simp only [TreeState.setLeaf, Function.update_self, Option.some.injEq] at hm'
      exact hm' ▸ rfl
  · have hfull : m.maxUse = MAX_LEAF_KEY :=
      Nat.le_antisymm (h.skel.leaf L m hm).1 (not_lt.mp hroom)
    obtain ⟨σ, buf, q, pm, hsp, hsplit, hok', hinv, hcont, hgrows⟩ :=
      h.splitFull hok t hm hroute.mem hcut hone hfull
    have hLlt := (h.skel.leaf_lt L (mem_leaves_of_index hroute.mem)).2
    obtain ⟨-, hright, hheap⟩ := splitState_heap m (m.fingerBuffer ∘ σ) (buf ∘ σ) q pm hLlt
    refine ⟨.goto (.splitting r L (s.brk + 1) (buf (σ SPLIT_POS)).oneKey m.altPtr),
      Function.update cuts L (some (splitCut s m σ buf)), afterSplit s L m σ buf q pm, ?_,
      Advanced.split h hroute hinv hok' rfl (fun m' hm' => ?_) hheap hcont hgrows⟩
    · simp only [insertSection, hm, deref_some, ok_bind, hdup, Bool.false_eq_true, if_false,
        if_neg hroom, hsplit, pure_eq_ok]
    · rw [hright, Option.some.injEq] at hm'
      rw [← hm', DLeaf.rightHalf_tempInsert]

theorem splitting_spec (h : Inv cuts tail s) (hok : Ok (n + 1) s.pm) (t : Tid) {r : Request}
    {leaf2 : Addr} {splitKey : Key} {insertLeaf : Addr}
    (hpc : (Pc.splitting r L leaf2 splitKey insertLeaf).Holds cuts s) :
    ∃ o cuts' s', insertSection s t (.splitting r L leaf2 splitKey insertLeaf) = .ok (o, s') ∧
      Advanced tail n (.splitting r L leaf2 splitKey insertLeaf) L cuts s o cuts' s' := by
  obtain ⟨hroute, hcut⟩ := hpc
  -- the search under the lock leads to the leaf that was split
  obtain ⟨path, L', m', hfind, -, hroute', -⟩ := h.reaches r.key
  obtain rfl := hroute'.unique h.data.sorted.of_expand hroute
  obtain ⟨s₁, s', m, hinst, hm, hins, hsame, hs', hinv, hcont, hgrows⟩ := h.install hcut hfind
  have hheap : ∀ b, b ≠ L' → s'.dleafHeap b = s.dleafHeap b := by
    intro b hb
    rw [hs', TreeState.setLeaf, hsame]
    exact Function.update_of_ne hb _ _
  have hself : s'.dleafHeap L' = some { m with tempInsert := 0, altPtr := insertLeaf } := by
    rw [hs']
    exact Function.update_self ..
  have hpm : s'.pm = s.pm := by
    rw [hs', TreeState.setLeaf, hsame]
  refine ⟨.goto (.searching r), Function.update cuts L' none, s', ?_, ?_⟩
  · simp only [insertSection]
    rw [hinst]
    rfl
  · constructor
    · exact hinv
    · rw [hpm]
      exact ok_mono (Nat.le_succ n) hok
    · constructor
      · exact fun b hb => Function.update_of_ne hb _ _
      · exact fun k b hb hr => hins.routes hinv.data.sorted.of_expand hr hb
      · exact fun b mb hb hmb => (hheap b hb).trans hmb
      · exact fun b mb hb hmb _ => (hheap b hb).symm.trans hmb
    · exact Or.inl rfl
    · rintro pc' heq
      cases heq
      exact ⟨trivial, rfl, fun b hb => absurd hb (by simp [Pc.leaf])⟩
    · intro m' hm' hheld
      rw [hself, Option.some.injEq] at hm'
      exact absurd (by rw [← hm']) hheld
    · exact Or.inl ⟨⟨_, rfl⟩, hcont⟩
    · exact hgrows
    · exact Or.inr ⟨r, leaf2, splitKey, insertLeaf, rfl, hins⟩

theorem insertSection_spec (h : Inv cuts tail s) (hok : Ok (n + 1) s.pm) (t : Tid)
    (hpc : pc.Holds cuts s) (hnew : Absent s pc.request.key) :
    (pc.leaf = none ∧ insertSection s t pc = .ok (.goto pc, s)) ∨
      ∃ L o cuts' s', insertSection s t pc = .ok (o, s') ∧ Advanced tail n pc L cuts s o cuts' s' := by
  cases pc with
  | searching r =>
    rcases searching_spec h hok t r with hwait | ⟨L, o, s', hrun, hadv⟩
    · exact Or.inl ⟨rfl, hwait⟩
    · exact Or.inr ⟨L, o, cuts, s', hrun, hadv⟩
  | locked r L =>
    obtain ⟨o, cuts', s', hrun, hadv⟩ := locked_spec h hok t hpc hnew
    exact Or.inr ⟨L, o, cuts', s', hrun, hadv⟩
  | splitting r L leaf2 splitKey insertLeaf =>
    obtain ⟨o, cuts', s', hrun, hadv⟩ := splitting_spec h hok t hpc
    exact Or.inr ⟨L, o, cuts', s', hrun, hadv⟩

/-! ### What all threads keep

`Threads` is what every section of every call keeps: the invariant of the tree, a holder for each marked leaf and
no second one, distinct keys under way, and what each call knows at its place. A section is an `Advanced` step; what
it does to the leaf it works on is all that the others have to know. -/

def Config.Unused (c : Config P) (k : Key) : Prop :=
  (∀ t pc, c.pc t = some pc → pc.request.key ≠ k) ∧ ∀ v, ¬ c.tree.Contains k v

structure Threads (cuts : Cuts) (tail : Addr) (n : Nat) (c : Config P) : Prop where
  inv : Inv cuts tail c.tree
  room : Ok n c.tree.pm
  pcs : ∀ t pc, c.pc t = some pc → pc.Holds cuts c.tree
  /-- A leaf is held by one call at most. -/
  owner : ∀ t t' pc pc' b, c.pc t = some pc → c.pc t' = some pc' → pc.leaf = some b →
    pc'.leaf = some b → t = t'
  /-- A leaf that is marked is held by a call. -/
  held : ∀ b m, c.tree.dleafHeap b = some m → m.tempInsert ≠ 0 →
    ∃ t pc, c.pc t = some pc ∧ pc.leaf = some b
  distinct : ∀ t t' pc pc', c.pc t = some pc → c.pc t' = some pc' →
    pc.request.key = pc'.request.key → t = t'
  absent : ∀ t pc v, c.pc t = some pc → ¬ c.tree.Contains pc.request.key v

/-- The tree has the pairs of the calls that have returned, and no call has failed. -/
structure Config.Exact (c : Config P) : Prop where
  content : ∀ k v, c.tree.Contains k v ↔ ∃ r, (r, true) ∈ c.returned ∧ r.key = k ∧ r.val = v
  returned : ∀ x ∈ c.returned, x.2 = true

variable {c c' : Config P} {t : Tid}

/-- The configuration after a section. -/
def Config.after (c : Config P) (t : Tid) (pc : Pc) (o : Outcome) (s : TreeState P) : Config P where
  tree := s
  pc := Function.update c.pc t o.pc
  returned := o.answer pc.request ++ c.returned

omit [Pmem P] [LawfulPmem P] in
theorem Config.after_pc {o : Outcome} {t' : Tid}
    (h : (c.after t pc o s).pc t' = some pc') : (t' = t ∧ o = .goto pc') ∨
      (t' ≠ t ∧ c.pc t' = some pc') := by
  by_cases ht : t' = t
  · subst ht
    simp only [Config.after, Function.update_self] at h
    cases o with
    | goto pc₁ => exact Or.inl ⟨rfl, by rw [Option.some.inj h]⟩
    | ret done => exact absurd h (by simp [Outcome.pc])
  · simp only [Config.after, Function.update_of_ne ht] at h
    exact Or.inr ⟨ht, h⟩

theorem Threads.others (h : Threads cuts tail n c) (hpc : c.pc t = some pc) {o : Outcome} {n' : Nat}
    (hadv : Advanced tail n' pc L cuts c.tree o cuts' s') {t' : Tid} (ht : t' ≠ t)
    (hpc' : c.pc t' = some pc') : pc'.leaf ≠ some L := by
  intro hleaf
  rcases hadv.entry with hself | ⟨-, hfree⟩
  · exact ht (h.owner t' t pc' pc L hpc' hpc hleaf hself)
  · obtain ⟨m, hm, hheld⟩ := (h.pcs t' pc' hpc').held h.inv hleaf
    exact hheld (hfree m hm)

/-- A section of one thread keeps what all threads rely on. -/
theorem Threads.advance (h : Threads cuts tail (n + 1) c) (hpc : c.pc t = some pc) {o : Outcome}
    (hadv : Advanced tail n pc L cuts c.tree o cuts' s') :
    Threads cuts' tail n (c.after t pc o s') where
  inv := hadv.inv
  room := hadv.room
  pcs t' pc' hpc' := by
    rcases Config.after_pc hpc' with ⟨-, ho⟩ | ⟨ht, hold⟩
    · exact (hadv.goto pc' ho).1
    · exact hadv.frame.holds (h.pcs t' pc' hold) (h.others hpc hadv ht hold)
  owner t₁ t₂ pc₁ pc₂ b h₁ h₂ hb₁ hb₂ := by
    rcases Config.after_pc h₁ with ⟨rfl, ho₁⟩ | ⟨hne₁, hold₁⟩
    · rcases Config.after_pc h₂ with ⟨rfl, -⟩ | ⟨hne₂, hold₂⟩
      · rfl
      · -- the calling thread has taken `L`, which no other call holds
        obtain rfl := (hadv.goto pc₁ ho₁).2.2 b hb₁
        exact absurd hb₂ (h.others hpc hadv hne₂ hold₂)
    · rcases Config.after_pc h₂ with ⟨rfl, ho₂⟩ | ⟨-, hold₂⟩
      · obtain rfl := (hadv.goto pc₂ ho₂).2.2 b hb₂
        exact absurd hb₁ (h.others hpc hadv hne₁ hold₁)
      · exact h.owner t₁ t₂ pc₁ pc₂ b hold₁ hold₂ hb₁ hb₂
  held b m hm hmark := by
    by_cases hb : b = L
    · subst hb
      obtain ⟨pc', rfl, hleaf⟩ := hadv.held m hm hmark
      exact ⟨t, pc', Function.update_self .., hleaf⟩
    · -- another marked leaf has its holder, which is not the calling thread
      obtain ⟨t', pc', hpc', hleaf⟩ := h.held b m (hadv.frame.held b m hb hm hmark) hmark
      have ht : t' ≠ t := by
        rintro rfl
        rw [hpc, Option.some.injEq] at hpc'
        subst hpc'
        rcases hadv.entry with hself | ⟨hnone, -⟩
        · exact hb (Option.some.inj (hleaf.symm.trans hself))
        · rw [hnone] at hleaf
          exact absurd hleaf (by simp)
      exact ⟨t', pc', (Function.update_of_ne ht _ _).trans hpc', hleaf⟩
  distinct t₁ t₂ pc₁ pc₂ h₁ h₂ hkey := by
    rcases Config.after_pc h₁ with ⟨rfl, ho₁⟩ | ⟨-, hold₁⟩
    · rcases Config.after_pc h₂ with ⟨rfl, -⟩ | ⟨-, hold₂⟩
      · rfl
      · rw [(hadv.goto pc₁ ho₁).2.1] at hkey
        exact h.distinct t₁ t₂ pc pc₂ hpc hold₂ hkey
    · rcases Config.after_pc h₂ with ⟨rfl, ho₂⟩ | ⟨-, hold₂⟩
      · rw [(hadv.goto pc₂ ho₂).2.1] at hkey
        exact h.distinct t₁ t₂ pc₁ pc hold₁ hpc hkey
      · exact h.distinct t₁ t₂ pc₁ pc₂ hold₁ hold₂ hkey
  absent t' pc' v hpc' hv := by
    rcases hadv.content with ⟨-, hcont⟩ | ⟨rfl, hcont⟩
    · have hold := (hcont _ v).mp hv
      rcases Config.after_pc hpc' with ⟨-, ho⟩ | ⟨-, hpc₀⟩
      · rw [(hadv.goto pc' ho).2.1] at hold
        exact h.absent t pc v hpc hold
      · exact h.absent t' pc' v hpc₀ hold
    · rcases Config.after_pc hpc' with ⟨-, ho⟩ | ⟨ht, hpc₀⟩
      · exact absurd ho (by simp)
      · rcases (hcont _ v).mp hv with hold | ⟨hkey, -⟩
        · exact h.absent t' pc' v hpc₀ hold
        · exact ht (h.distinct t' t pc' pc hpc₀ hpc hkey)

theorem Config.Exact.advance (h : c.Exact) {o : Outcome}
    (hadv : Advanced tail n pc L cuts c.tree o cuts' s') : (c.after t pc o s').Exact where
  content k v := by
    rcases hadv.content with ⟨⟨pc', rfl⟩, hcont⟩ | ⟨rfl, hcont⟩
    · exact (hcont k v).trans (h.content k v)
    · refine (hcont k v).trans ?_
      rw [h.content]
      constructor
      · rintro (⟨r, hr, hk, hv⟩ | ⟨hk, hv⟩)
        · exact ⟨r, List.mem_append_right _ hr, hk, hv⟩
        · exact ⟨pc.request, List.mem_append_left _ (by simp [Outcome.answer]), hk.symm, hv.symm⟩
      · rintro ⟨r, hr, hk, hv⟩
        rcases List.mem_append.mp hr with hr | hr
        · have hreq : r = pc.request := by simpa [Outcome.answer] using hr
          subst hreq
          exact Or.inr ⟨hk.symm, hv.symm⟩
        · exact Or.inl ⟨r, hr, hk, hv⟩
  returned x hx := by
    rcases hadv.content with ⟨⟨pc', rfl⟩, -⟩ | ⟨rfl, -⟩
    · exact h.returned x hx
    · rcases List.mem_append.mp hx with hx | hx
      · have hreq : x = (pc.request, true) := by simpa [Outcome.answer] using hx
        exact congrArg Prod.snd hreq
      · exact h.returned x hx

theorem Threads.section (h : Threads cuts tail (n + 1) c) (hpc : c.pc t = some pc) :
    (c.step (.run t) = .ok c) ∨
      ∃ L o cuts' s', c.step (.run t) = .ok (c.after t pc o s') ∧
        Advanced tail n pc L cuts c.tree o cuts' s' := by
  have hnew : Absent c.tree pc.request.key :=
    (absent_iff h.inv.data.slots).mpr fun v => h.absent t pc v hpc
  rcases insertSection_spec h.inv h.room t (h.pcs t pc hpc) hnew with
    ⟨hleaf, hwait⟩ | ⟨L, o, cuts', s', hrun, hadv⟩
  · left
    have hsame : Function.update c.pc t (Outcome.goto pc).pc = c.pc := by
      rw [Outcome.pc, ← hpc, Function.update_eq_self]
    simp only [Config.step, hpc, hwait, ok_bind, pure_eq_ok, hsame]
    rfl
  · right
    refine ⟨L, o, cuts', s', ?_, hadv⟩
    simp only [Config.step, hpc, hrun, ok_bind, pure_eq_ok]
    rfl

theorem Threads.mono (h : Threads cuts tail (n + 1) c) : Threads cuts tail n c :=
  { h with room := ok_mono (Nat.le_succ n) h.room }

omit [Pmem P] [LawfulPmem P] in
theorem Config.enter_pc {r : Request} {t' : Tid} (h : (c.enter t r).pc t' = some pc') :
    (t' = t ∧ pc' = .searching r) ∨ (t' ≠ t ∧ c.pc t' = some pc') :=
  eq_or_of_update_some h

/-- A call with a new key. -/
theorem Threads.call (h : Threads cuts tail (n + 1) c) (hidle : c.pc t = none) {r : Request}
    (hnew : c.Unused r.key) :
    Threads cuts tail n (c.enter t r) := by
  constructor
  · exact h.inv
  · exact ok_mono (Nat.le_succ n) h.room
  · intro t' pc' hpc'
    rcases Config.enter_pc hpc' with ⟨-, rfl⟩ | ⟨-, hold⟩
    · trivial
    · exact h.pcs t' pc' hold
  · intro t₁ t₂ pc₁ pc₂ b h₁ h₂ hb₁ hb₂
    rcases Config.enter_pc h₁ with ⟨-, rfl⟩ | ⟨-, hold₁⟩
    · exact absurd hb₁ (by simp [Pc.leaf])
    · rcases Config.enter_pc h₂ with ⟨-, rfl⟩ | ⟨-, hold₂⟩
      · exact absurd hb₂ (by simp [Pc.leaf])
      · exact h.owner t₁ t₂ pc₁ pc₂ b hold₁ hold₂ hb₁ hb₂
  · intro b m hm hmark
    obtain ⟨t', pc', hpc', hleaf⟩ := h.held b m hm hmark
    have ht : t' ≠ t := by
      rintro rfl
      rw [hidle] at hpc'
      exact absurd hpc' (by simp)
    exact ⟨t', pc', (Function.update_of_ne ht _ _).trans hpc', hleaf⟩
  · intro t₁ t₂ pc₁ pc₂ h₁ h₂ hkey
    rcases Config.enter_pc h₁ with ⟨rfl, rfl⟩ | ⟨-, hold₁⟩
    · rcases Config.enter_pc h₂ with ⟨rfl, -⟩ | ⟨-, hold₂⟩
      · rfl
      · exact absurd hkey.symm (hnew.1 t₂ pc₂ hold₂)
    · rcases Config.enter_pc h₂ with ⟨rfl, rfl⟩ | ⟨-, hold₂⟩
      · exact absurd hkey (hnew.1 t₁ pc₁ hold₁)
      · exact h.distinct t₁ t₂ pc₁ pc₂ hold₁ hold₂ hkey
  · intro t' pc' v hpc'
    rcases Config.enter_pc hpc' with ⟨-, rfl⟩ | ⟨-, hold⟩
    · exact hnew.2 v
    · exact h.absent t' pc' v hold

/-- One event. -/
theorem Threads.step (h : Threads cuts tail (n + 1) c) (e : Event)
    (hnew : ∀ k ∈ calledKeys [e], c.Unused k) :
    ∃ cuts' c', c.step e = .ok c' ∧ Threads cuts' tail n c' ∧ (c.Exact → c'.Exact) ∧
      ∀ k, k ∉ calledKeys [e] → c.Unused k → c'.Unused k := by
  cases e with
  | call t r =>
    cases hpc : c.pc t with
    | some pc => exact ⟨cuts, c, by simp only [Config.step, hpc], h.mono, id, fun _ _ hk => hk⟩
    | none =>
      refine ⟨cuts, _, by simp only [Config.step, hpc],
        h.call hpc (hnew r.key (by simp [calledKeys])), fun hex => ⟨hex.content, hex.returned⟩, ?_⟩
      intro k hk hunused
      refine ⟨fun t' pc' hpc' => ?_, hunused.2⟩
      rcases Config.enter_pc hpc' with ⟨-, rfl⟩ | ⟨-, hold⟩
      · exact fun heq => hk (by simp [calledKeys, ← heq, Pc.request])
      · exact hunused.1 t' pc' hold
  | run t =>
    cases hpc : c.pc t with
    | none => exact ⟨cuts, c, by simp only [Config.step, hpc], h.mono, id, fun _ _ hk => hk⟩
    | some pc =>
      rcases h.section hpc with hwait | ⟨L, o, cuts', s', hrun, hadv⟩
      · exact ⟨cuts, c, hwait, h.mono, id, fun _ _ hk => hk⟩
      · refine ⟨cuts', _, hrun, h.advance hpc hadv, fun hex => hex.advance hadv, ?_⟩
        intro k _ hunused
        constructor
        · intro t' pc' hpc'
          rcases Config.after_pc hpc' with ⟨-, ho⟩ | ⟨-, hold⟩
          · rw [(hadv.goto pc' ho).2.1]
            exact hunused.1 t pc hpc
          · exact hunused.1 t' pc' hold
        · intro v hv
          rcases hadv.content with ⟨-, hcont⟩ | ⟨-, hcont⟩
          · exact hunused.2 v ((hcont k v).mp hv)
          · rcases (hcont k v).mp hv with hold | ⟨hkey, -⟩
            · exact hunused.2 v hold
            · exact hunused.1 t pc hpc hkey.symm

theorem calledKeys_cons (e : Event) (es : List Event) :
    calledKeys (e :: es) = calledKeys [e] ++ calledKeys es := by
  cases e <;> rfl

/-- A whole schedule, by induction on its events. -/
theorem Threads.run (es : List Event) (h : Threads cuts tail (es.length + n) c)
    (hkeys : (calledKeys es).Nodup) (hnew : ∀ k ∈ calledKeys es, c.Unused k) :
    ∃ cuts' c', c.run es = .ok c' ∧ Threads cuts' tail n c' ∧ (c.Exact → c'.Exact) := by
  induction es generalizing cuts c with
  | nil =>
    rw [List.length_nil, Nat.zero_add] at h
    exact ⟨cuts, c, rfl, h, id⟩
  | cons e es ih =>
    rw [List.length_cons, Nat.add_right_comm] at h
    rw [calledKeys_cons] at hkeys hnew
    obtain ⟨-, hkeys', hcross⟩ := List.nodup_append.mp hkeys
    obtain ⟨cuts₁, c₁, hstep, h₁, hexact₁, hrest⟩ :=
      h.step e fun k hk => hnew k (List.mem_append_left _ hk)
    obtain ⟨cuts', c', hrun, h', hexact'⟩ := ih h₁ hkeys' fun k hk =>
      hrest k (fun hk' => hcross k hk' k hk rfl) (hnew k (List.mem_append_right _ hk))
    refine ⟨cuts', c', ?_, h', fun hex => hexact' (hexact₁ hex)⟩
    simp only [Config.run, hstep, ok_bind, hrun]

theorem threads_start {pm : P} (hok : Ok (n + 1) pm) (t₀ : Tid) (junkInner : Addr → InnerNode)
    (junkLeaf : Addr → DLeaf) : ∃ s, init pm t₀ junkInner junkLeaf = .ok s ∧
      Threads Cuts.empty (junkLeaf 1).next n (Config.start s) ∧ (Config.start s).Exact ∧
      ∀ k, (Config.start s).Unused k := by
  obtain ⟨s, hinit, hinv, hok', hfree, -, hempty⟩ := init_spec hok t₀ junkInner junkLeaf
  refine ⟨s, hinit, ?_, ⟨fun k v => ?_, fun x hx => absurd hx (by simp [Config.start])⟩,
    fun k => ⟨fun t pc hpc => absurd hpc (by simp [Config.start]), hempty k⟩⟩
  · constructor
    · exact hinv
    · exact hok'
    · exact fun t pc hpc => absurd hpc (by simp [Config.start])
    · exact fun t t' pc pc' b hpc => absurd hpc (by simp [Config.start])
    · exact fun b m hm hmark => absurd (hfree b m hm) hmark
    · exact fun t t' pc pc' hpc => absurd hpc (by simp [Config.start])
    · exact fun t pc v hpc => absurd hpc (by simp [Config.start])
  · constructor
    · exact fun hv => absurd hv (hempty k v)
    · rintro ⟨r, hr, -⟩
      exact absurd hr (by simp [Config.start])

/-! ### What a schedule of insertions leaves behind -/

/-- `find_insert` leads to a leaf that has the pair, in its split buffer while it is being
split and in one of its slots otherwise. -/
def FoundAt (s : TreeState P) (k : Key) (v : Word) : Prop :=
  ∃ path L m, findInsert s k = .ok (path, L) ∧ s.dleafHeap L = some m ∧
    if m.tempInsert = 2 then
      ∃ buf i, s.bufHeap m.altPtr = some buf ∧ i < MAX_LEAF_KEY ∧ buf i = ⟨k, v⟩
    else Holds s.pm m k v

theorem Inv.foundAt (h : Inv cuts tail s) {k : Key} {v : Word} (hv : s.Contains k v) :
    FoundAt s k v := by
  obtain ⟨path, L, m, hfind, -, hroute, hm⟩ := h.reaches k
  refine ⟨path, L, m, hfind, hm, ?_⟩
  rcases h.located hroute hm hv with ⟨htwo, buf, i, hbuf, hi, hentry, -⟩ | ⟨hle, hholds⟩
  · rw [if_pos htwo]
    exact ⟨buf, i, hbuf, hi, hentry⟩
  · rw [if_neg (by omega)]
    exact hholds

theorem Threads.quiet (h : Threads cuts tail n c) (hidle : ∀ t, c.pc t = none) :
    cuts = Cuts.empty ∧ AllFree c.tree := by
  have hfree : AllFree c.tree := by
    intro b m hm
    by_contra hmark
    obtain ⟨t, pc, hpc, -⟩ := h.held b m hm hmark
    rw [hidle t] at hpc
    exact absurd hpc (by simp)
  refine ⟨?_, hfree⟩
  funext b
  cases hcut : cuts b with
  | none => rfl
  | some cut =>
    obtain ⟨m, hm⟩ := h.inv.skel.of_index (h.inv.skel.cut b cut hcut).1
    have hlock := (h.inv.skel.leaf b m hm).2
    rw [LockOK, hcut, Option.isSome_some, if_pos rfl, hfree b m hm] at hlock
    exact absurd hlock (by decide)

/-- Insertions of distinct keys on any number of threads, in any order of their sections:
no call fails, the tree has exactly the pairs of the calls that have returned, each in one
slot of one leaf and found by the search for its key, and whenever no call is under way the
tree is a well-formed B+-tree with no leaf held. -/
theorem concurrent_inserts (pm : P) (t₀ : Tid) (junkInner : Addr → InnerNode)
    (junkLeaf : Addr → DLeaf) (schedule : List Event) (hroom : Ok (schedule.length + 1) pm)
    (hkeys : (calledKeys schedule).Nodup) :
    ∃ s₀ c, init pm t₀ junkInner junkLeaf = .ok s₀ ∧ (Config.start s₀).run schedule = .ok c ∧
      (∀ x ∈ c.returned, x.2 = true) ∧
      (∀ k v, c.tree.Contains k v ↔ ∃ r, (r, true) ∈ c.returned ∧ r.key = k ∧ r.val = v) ∧
      (∀ r, (r, true) ∈ c.returned →
        (∃! x : Addr × Nat, ∃ m, c.tree.dleafHeap x.1 = some m ∧ HasKey c.tree.pm m r.key x.2) ∧
          FoundAt c.tree r.key r.val) ∧
      ((∀ t, c.pc t = none) → WellFormed c.tree (labels c.tree.index) ∧ AllFree c.tree ∧
        ∀ a, (c.tree.dleafHeap a).isSome ↔ a ∈ labels c.tree.index) := by
  obtain ⟨s₀, hinit, h₀, hexact₀, hunused⟩ := threads_start (n := schedule.length + 0) hroom t₀ junkInner junkLeaf
  obtain ⟨cuts, c, hrun, h, hexact⟩ := h₀.run schedule hkeys fun k _ => hunused k
  have hex := hexact hexact₀
  refine ⟨s₀, c, hinit, hrun, hex.returned, hex.content, ?_, ?_⟩
  · intro r hr
    have hv : c.tree.Contains r.key r.val := (hex.content _ _).mpr ⟨r, hr, rfl, rfl⟩
    refine ⟨?_, h.inv.foundAt hv⟩
    obtain ⟨a, m, ha, i, hi, -⟩ := hv
    refine ⟨(a, i), ⟨m, ha, hi⟩, ?_⟩
    rintro ⟨b, j⟩ ⟨m', hb, hj⟩
    obtain ⟨rfl, rfl⟩ := h.inv.data.unique hb ha hj hi
    rfl
  · intro hidle
    obtain ⟨rfl, hfree⟩ := h.quiet hidle
    refine ⟨h.inv.wellFormed, hfree, fun a => ?_⟩
    rw [Option.isSome_iff_exists, h.inv.skel.heap a, TreeState.leaves_empty]

/-- Insertions of `1`, `2`, ... one after the other; a section too many does nothing. -/
def insertsUpTo (n : Nat) : List Event :=
  (List.range n).flatMap fun i =>
    .call 0 ⟨BitVec.ofNat 64 (i + 1), 7, 8⟩ :: List.replicate 5 (.run 0)

def splitRace : List Event :=
  insertsUpTo 30 ++ [.call 0 ⟨31, 7, 8⟩, .call 1 ⟨32, 7, 8⟩] ++ (List.replicate 8 [.run 0, .run 1]).flatten

/-- The first splits the leaf while the second goes round. -/
theorem concurrent_inserts_split : ∃ s₀ c,
    init (IdealPm.roomy 250) 0 zeroInner zeroLeaf = .ok s₀ ∧ (Config.start s₀).run splitRace = .ok c ∧
      c.returned.length = 32 ∧ c.tree.tempLevel = 1 ∧
      ∀ r, (r, true) ∈ c.returned → FoundAt c.tree r.key r.val := by
  obtain ⟨s₀, c, hinit, hrun, -, -, hfound, -⟩ := concurrent_inserts (IdealPm.roomy 250) 0 zeroInner zeroLeaf
    splitRace (IdealPm.roomy_lawful (by decide +kernel) (by decide)) (by decide +kernel)
  have hfacts : (init (IdealPm.roomy 250) 0 zeroInner zeroLeaf >>= fun s₀ =>
      (Config.start s₀).run splitRace).toOption.map (fun c =>
        (c.returned.length, c.tree.tempLevel)) = some (32, 1) := by
    decide +kernel
  rw [hinit, ok_bind, hrun] at hfacts
  obtain ⟨hlen, hlevel⟩ := Prod.mk.inj (Option.some.inj hfacts)
  exact ⟨s₀, c, hinit, hrun, hlen, hlevel, fun r hr => (hfound r hr).2⟩

end ZBTree
