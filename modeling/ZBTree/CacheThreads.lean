import ZBTree.CacheSteps
import ZBTree.MapContract
import ZBTree.PmemRuns
import ZBTree.Threads

/-!
# Threads that insert and cache

The calls of `insert` and `find` of the variant, cut at their accesses to `temp_insert`, and any
number of threads that run these steps in any order. A search that goes through the data
replacement without replacing anything resets `temp_insert` of a leaf that it has not taken. In
a run without such a search only the thread that took a leaf last releases it.
-/

namespace ZBTree

namespace ReadCache

open RangeIndex Pmem

/-! ### The steps of insert and find -/

/-- Where a call stands between two steps, with the locals it still needs. -/
inductive CacheCall where
  | write (pc : Pc)
  | looking (key : Key)
  | located (leaf : Addr) (i : Nat) (kvPtr : Addr)
  | taking (leaf : Addr) (i : Nat) (kvPtr : Addr) (place : Place)
  | holding (leaf : Addr) (i : Nat) (kvPtr : Addr) (place : Place)

/-- How a step ends. -/
inductive Next where
  | goto (call : CacheCall)
  | ret (answer : Answer)

/-- A write to `temp_insert`: the compare-and-swap that succeeds, the increment of a split, and
the store of 0 to a leaf that other threads know. -/
inductive LockAccess where
  | took
  | raised
  | reset
deriving DecidableEq

/-- The leaf that the call has taken and not yet released. -/
def CacheCall.leaf : CacheCall → Option Addr
  | write pc => pc.leaf
  | looking _ => none
  | located _ _ _ => none
  | taking _ _ _ _ => none
  | holding leaf _ _ _ => some leaf

def Next.call : Next → Option CacheCall
  | goto call => some call
  | ret _ => none

def Next.leaf (next : Next) : Option Addr := next.call.bind CacheCall.leaf

variable {P : Type} [Pmem P]

/-- One step of a call on thread `t`, with the writes to `temp_insert`. -/
def callStep (s : CacheTree P) (t : Tid) :
    CacheCall → Exec (Next × List (Addr × LockAccess) × CacheTree P)
  | .write (.searching r) => do
    let (lockState, leaf, tree) ← lockLeaf s.tree r.key
    if lockState then
      return (.goto (.write (.locked r leaf)), [(leaf, .took)], { s with tree := tree })
    else return (.goto (.write (.searching r)), [], { s with tree := tree })
  | .write (.locked r leaf) => do
    let m ← deref (s.tree.dleafHeap leaf)
    if ← duplicate s.tree.pm m r.key m.maxUse 0 then return (.ret (.inserted false), [], s)
    else if m.maxUse < MAX_LEAF_KEY then
      let s ← fillSlot s t r.key r.val r.valueLen leaf
      return (.ret (.inserted true), [(leaf, .reset)], s)
    else
      let (leaf2, splitKey, insertLeaf, s) ← splitFull s t leaf
      return (.goto (.write (.splitting r leaf leaf2 splitKey insertLeaf)), [(leaf, .raised)], s)
  | .write (.splitting r leaf leaf2 splitKey insertLeaf) => do
    let tree ← installSeparator s.tree r.key splitKey leaf leaf2 insertLeaf
    return (.goto (.write (.searching r)), [(leaf, .reset)], { s with tree := tree })
  | .looking key =>
    if s.tree.tempLevel = 0 then do
      let m ← deref (s.tree.dleafHeap s.tree.root)
      let v ← findRoot s.tree.pm m key MAX_LEAF_KEY 0
      return (.ret (.found v), [], s)
    else do
      let leaf ← descendFrom s.tree key s.tree.tempLevel s.tree.root
      let m ← deref (s.tree.dleafHeap leaf)
      if 1 < m.tempInsert then return (.goto (.looking key), [], s)
      else
        match ← findSlots s.tree.pm m key m.maxUse 0 with
        | .absent => return (.ret (.found 0), [], s)
        | .pair i v =>
          return (.ret (.found v), [], { s with tree := s.tree.setLeaf leaf (m.touch i) })
        | .record i kvPtr => return (.goto (.located leaf i kvPtr), [], s)
  | .located leaf i kvPtr => do
    let m ← deref (s.tree.dleafHeap leaf)
    let v ← deref (logVal s.tree.pm kvPtr)
    match choosePlace s leaf m i with
    | none =>
      let s ← giveUp s leaf
      return (.ret (.found v), [(leaf, .reset)], s)
    | some .nowhere => return (.ret (.found v), [], s)
    | some .free => return (.goto (.taking leaf i kvPtr .free), [], s)
    | some (.instead j) => return (.goto (.taking leaf i kvPtr (.instead j)), [], s)
  | .taking leaf i kvPtr place => do
    let v ← deref (logVal s.tree.pm kvPtr)
    let (lockState, s) ← takeLeaf s leaf
    if lockState then return (.goto (.holding leaf i kvPtr place), [(leaf, .took)], s)
    else return (.ret (.found v), [], s)
  | .holding leaf i kvPtr place => do
    let v ← deref (logVal s.tree.pm kvPtr)
    let s ← storePair s leaf i kvPtr place
    return (.ret (.found v), [(leaf, .reset)], s)

/-- The steps of one call after each other, with no other thread in between. -/
def runCall : Nat → CacheTree P → Tid → CacheCall → Exec (Answer × CacheTree P)
  | 0, _, _, _ => .error .spin
  | n + 1, s, t, call => do
    match ← callStep s t call with
    | (.goto call, _, s) => runCall n s t call
    | (.ret answer, _, s) => return (answer, s)

/-- The steps from the record that has been read on. -/
theorem runCall_of_cacheRecord {s s' : CacheTree P} (t : Tid) {leaf kvPtr : Addr} {i : Nat} {v : Word}
    (hv : logVal s.tree.pm kvPtr = some v) (h : cacheRecord s leaf i kvPtr = .ok s') :
    ∃ j, runCall j s t (.located leaf i kvPtr) = .ok (.found v, s') := by
  simp only [cacheRecord, bind_eq_ok, deref_eq_ok] at h
  obtain ⟨m, hm, h⟩ := h
  -- the two kinds of cells are taken alike
  have htake : ∀ place, (do
      let (lockState, s₁) ← takeLeaf s leaf
      if lockState then storePair s₁ leaf i kvPtr place else return s₁) = .ok s' →
      ∃ j, runCall j s t (.taking leaf i kvPtr place) = .ok (.found v, s') := by
    intro place hrun
    simp only [bind_eq_ok] at hrun
    obtain ⟨⟨lockState, s₁⟩, hlock, hrun⟩ := hrun
    have hpm : s₁.tree.pm = s.tree.pm := by
      unfold takeLeaf at hlock
      simp only [bind_eq_ok] at hlock
      obtain ⟨n, -, hlock⟩ := hlock
      split at hlock <;> cases hlock <;> rfl
    cases lockState with
    | false =>
      cases hrun
      -- the leaf is held by another call: the search goes away with the value it has read
      refine ⟨1, ?_⟩
      simp only [runCall, callStep, hv, deref_some, ok_bind, hlock, Bool.false_eq_true, if_false,
        pure_eq_ok]
    | true =>
      have hstore : storePair s₁ leaf i kvPtr place = .ok s' := hrun
      refine ⟨2, ?_⟩
      simp only [runCall, callStep, hv, deref_some, ok_bind, hlock, if_true, pure_eq_ok, hpm, hstore]
  cases hchoose : choosePlace s leaf m i with
  | none =>
    rw [hchoose] at h
    have hgive : giveUp s leaf = .ok s' := h
    refine ⟨1, ?_⟩
    simp only [runCall, callStep, hm, hv, deref_some, ok_bind, hchoose, hgive, pure_eq_ok]
  | some place =>
    rw [hchoose] at h
    cases place with
    | nowhere =>
      cases h
      refine ⟨1, ?_⟩
      simp only [runCall, callStep, hm, hv, deref_some, ok_bind, hchoose, pure_eq_ok]
    | free =>
      obtain ⟨j, hj⟩ := htake .free h
      refine ⟨j + 1, ?_⟩
      simp only [runCall, callStep, hm, hv, deref_some, ok_bind, hchoose, pure_eq_ok, hj]
    | instead k =>
      obtain ⟨j, hj⟩ := htake (.instead k) h
      refine ⟨j + 1, ?_⟩
      simp only [runCall, callStep, hm, hv, deref_some, ok_bind, hchoose, pure_eq_ok, hj]

/-- The steps of a search that is alone are `find`. -/
theorem runCall_of_find (n : Nat) (s : CacheTree P) (t : Tid) (key : Key) {v : Word}
    {s' : CacheTree P} (h : find n s key = .ok (v, s')) :
    ∃ j, runCall j s t (.looking key) = .ok (.found v, s') := by
  induction n with
  | zero => exact absurd h (by simp [find])
  | succ n ih =>
    rw [find] at h
    by_cases hlevel : s.tree.tempLevel = 0
    · rw [if_pos hlevel] at h
      simp only [bind_eq_ok, deref_eq_ok] at h
      obtain ⟨m, hm, w, hw, h⟩ := h
      cases h
      refine ⟨1, ?_⟩
      simp only [runCall, callStep, if_pos hlevel, hm, deref_some, ok_bind, hw, pure_eq_ok]
    · rw [if_neg hlevel] at h
      simp only [bind_eq_ok, deref_eq_ok] at h
      obtain ⟨leaf, hdesc, m, hm, h⟩ := h
      by_cases hbusy : 1 < m.tempInsert
      · rw [if_pos hbusy] at h
        obtain ⟨j, hj⟩ := ih h
        refine ⟨j + 1, ?_⟩
        simp only [runCall, callStep, if_neg hlevel, hdesc, hm, deref_some, ok_bind, if_pos hbusy,
          pure_eq_ok, hj]
      · rw [if_neg hbusy] at h
        simp only [bind_eq_ok] at h
        obtain ⟨r, hr, h⟩ := h
        cases r with
        | absent =>
          cases h
          refine ⟨1, ?_⟩
          simp only [runCall, callStep, if_neg hlevel, hdesc, hm, deref_some, ok_bind, if_neg hbusy, hr,
            pure_eq_ok]
        | pair i w =>
          cases h
          refine ⟨1, ?_⟩
          simp only [runCall, callStep, if_neg hlevel, hdesc, hm, deref_some, ok_bind, if_neg hbusy, hr,
            pure_eq_ok]
        | record i kvPtr =>
          simp only [bind_eq_ok, deref_eq_ok] at h
          obtain ⟨w, hw, s₁, hcache, h⟩ := h
          cases h
          have hfirst : ∀ j, runCall (j + 1) s t (.looking key) =
              runCall j s t (.located leaf i kvPtr) := fun j => by
            simp only [runCall, callStep, if_neg hlevel, hdesc, hm, deref_some, ok_bind, if_neg hbusy,
              hr, pure_eq_ok]
          obtain ⟨j, hj⟩ := runCall_of_cacheRecord t hw hcache
          exact ⟨j + 1, (hfirst j).trans hj⟩

/-- The steps of an insertion that is alone are `insert`. -/
theorem runCall_of_insert (n : Nat) (s : CacheTree P) (t : Tid) (r : Request) {b : Bool}
    {s' : CacheTree P} (h : insert n s t r.key r.val r.valueLen = .ok (b, s')) :
    ∃ j, runCall j s t (.write (.searching r)) = .ok (.inserted b, s') := by
  induction n generalizing s with
  | zero => exact absurd h (by simp [insert])
  | succ n ih =>
    rw [insert, bind_eq_ok] at h
    obtain ⟨⟨lockState, leaf, tree⟩, hlock, h⟩ := h
    cases lockState with
    | false =>
      simp only [Bool.not_false, if_true] at h
      obtain ⟨j, hj⟩ := ih _ h
      refine ⟨j + 1, ?_⟩
      simp only [runCall, callStep, hlock, ok_bind, Bool.false_eq_true, if_false, pure_eq_ok, hj]
    | true =>
      simp only [Bool.not_true, Bool.false_eq_true, if_false, bind_eq_ok, deref_eq_ok] at h
      have hfirst : ∀ j, runCall (j + 1) s t (.write (.searching r)) =
          runCall j { s with tree := tree } t (.write (.locked r leaf)) := fun j => by
        simp only [runCall, callStep, hlock, ok_bind, if_true, pure_eq_ok]
      obtain ⟨m, hm, dup, hdup, h⟩ := h
      cases dup with
      | true =>
        cases h
        refine ⟨2, (hfirst 1).trans ?_⟩
        simp only [runCall, callStep, hm, deref_some, hdup, ok_bind, if_true, pure_eq_ok]
      | false =>
        simp only [Bool.false_eq_true, if_false] at h
        by_cases hroom : m.maxUse < MAX_LEAF_KEY
        · rw [if_pos hroom, bind_eq_ok] at h
          obtain ⟨s₂, hfill, h⟩ := h
          cases h
          refine ⟨2, (hfirst 1).trans ?_⟩
          simp only [runCall, callStep, hm, deref_some, hdup, ok_bind, Bool.false_eq_true, if_false,
            if_pos hroom, hfill, pure_eq_ok]
        · rw [if_neg hroom, bind_eq_ok] at h
          obtain ⟨⟨leaf2, splitKey, insertLeaf, s₂⟩, hsplit, h⟩ := h
          rw [bind_eq_ok] at h
          obtain ⟨tree₃, hinst, h⟩ := h
          obtain ⟨j, hj⟩ := ih _ h
          refine ⟨j + 3, (hfirst (j + 2)).trans ?_⟩
          simp only [runCall, callStep, hm, deref_some, hdup, ok_bind, Bool.false_eq_true, if_false,
            if_neg hroom, hsplit, hinst, pure_eq_ok, hj]

/-! ### Threads -/

/-- The tree, where each thread is, the thread that took each leaf last, and for every store of 0
to the `temp_insert` of a leaf that thread beside the one that made the store. -/
structure CacheConfig (P : Type) where
  cache : CacheTree P
  call : Tid → Option CacheCall
  taker : Addr → Option Tid
  resets : List (Tid × Option Tid)

/-- A thread calls `insert` or `find`, or makes its next step. -/
inductive CacheEvent where
  | insert (t : Tid) (r : Request)
  | find (t : Tid) (key : Key)
  | run (t : Tid)

/-- The bookkeeping of one write to `temp_insert`. -/
def CacheConfig.note (t : Tid) (c : CacheConfig P) : Addr × LockAccess → CacheConfig P
  | (leaf, .took) => { c with taker := Function.update c.taker leaf (some t) }
  | (_, .raised) => c
  | (leaf, .reset) => { c with resets := (t, c.taker leaf) :: c.resets }

/-- A thread that is not inside a call makes one. -/
def CacheConfig.enter (c : CacheConfig P) (t : Tid) (call : CacheCall) : CacheConfig P :=
  match c.call t with
  | none => { c with call := Function.update c.call t (some call) }
  | some _ => c

/-- The configuration after a step of thread `t`. -/
def CacheConfig.after (c : CacheConfig P) (t : Tid) (next : Next) (log : List (Addr × LockAccess))
    (s : CacheTree P) : CacheConfig P :=
  log.foldl (CacheConfig.note t) { c with cache := s, call := Function.update c.call t next.call }

def CacheConfig.step (c : CacheConfig P) : CacheEvent → Exec (CacheConfig P)
  | .insert t r => .ok (c.enter t (.write (.searching r)))
  | .find t key => .ok (c.enter t (.looking key))
  | .run t =>
    match c.call t with
    | none => .ok c
    | some call => do
      let (next, log, s) ← callStep c.cache t call
      return c.after t next log s

def CacheConfig.run : CacheConfig P → List CacheEvent → Exec (CacheConfig P)
  | c, [] => .ok c
  | c, e :: es => do
    let c ← c.step e
    c.run es

def CacheConfig.start (s : CacheTree P) : CacheConfig P := ⟨s, fun _ => none, fun _ => none, []⟩

/-- Every event of the run passes the test in the configuration it comes in. -/
def CacheConfig.all (test : CacheConfig P → CacheEvent → Bool) :
    CacheConfig P → List CacheEvent → Bool
  | _, [] => true
  | c, e :: es => test c e &&
    match c.step e with
    | .ok c => c.all test es
    | .error _ => true

/-- A search that needs the data replacement finds a slot to replace. -/
def CacheConfig.findsVictim (c : CacheConfig P) : CacheEvent → Bool
  | .run t =>
    match c.call t with
    | some (.located leaf i _) =>
      match c.cache.tree.dleafHeap leaf with
      | none => true
      | some m => (choosePlace c.cache leaf m i).isSome
    | _ => true
  | _ => true

/-! ### The lock words

What a section does to `temp_insert` is one of five things: nothing, a compare-and-swap that succeeds, the
second mark of a split, a release of the leaf it holds, and the release in `find` of a leaf that it does not
hold. Only the last one can take a leaf from another thread. -/

section LockWords

variable {s s' : CacheTree P} {tree tree' : TreeState P} {t : Tid} {call : CacheCall} {next : Next}
  {log : List (Addr × LockAccess)} {L : Option Addr} {a : Addr} {m m' : DLeaf}

/-- The leaves other than `L` keep their `temp_insert`, and new leaves come at new addresses. -/
structure KeepsWords (L : Option Addr) (tree tree' : TreeState P) : Prop where
  word : ∀ b m, L ≠ some b → tree.dleafHeap b = some m →
    ∃ m', tree'.dleafHeap b = some m' ∧ m'.tempInsert = m.tempInsert
  below : (∀ b m, tree.dleafHeap b = some m → b < tree.brk) →
    ∀ b m, tree'.dleafHeap b = some m → b < tree'.brk
  level : tree.tempLevel ≤ tree'.tempLevel

omit [Pmem P] in
theorem KeepsWords.refl (L : Option Addr) (tree : TreeState P) : KeepsWords L tree tree :=
  ⟨fun _ m _ hm => ⟨m, hm, rfl⟩, id, Nat.le_refl _⟩

omit [Pmem P] in
theorem KeepsWords.trans {tree'' : TreeState P} (h : KeepsWords L tree tree')
    (h' : KeepsWords L tree' tree'') : KeepsWords L tree tree'' where
  word b m hb hm := by
    obtain ⟨m', hm', hsame'⟩ := h.word b m hb hm
    obtain ⟨m'', hm'', hsame''⟩ := h'.word b m' hb hm'
    exact ⟨m'', hm'', hsame''.trans hsame'⟩
  below hlt := h'.below (h.below hlt)
  level := h.level.trans h'.level

omit [Pmem P] in
theorem KeepsWords.setLeaf (hm : tree.dleafHeap a = some m)
    (hL : L = some a ∨ m'.tempInsert = m.tempInsert) :
    KeepsWords L tree (tree.setLeaf a m') where
  word b n hb hn := by
    by_cases hba : b = a
    · subst hba
      rw [hm, Option.some.injEq] at hn
      subst hn
      exact ⟨m', Function.update_self .., hL.resolve_left hb⟩
    · exact ⟨n, (Function.update_of_ne hba _ _).trans hn, rfl⟩
  below hlt b n hn := by
    rcases ZBTree.setLeaf_heap hn with ⟨rfl, -⟩ | ⟨-, hn'⟩
    · exact hlt b m hm
    · exact hlt b n hn'
  level := Nat.le_refl _

/-- What a step does to the lock words. -/
inductive LockStep (s s' : CacheTree P) (call : CacheCall) (next : Next) :
    List (Addr × LockAccess) → Prop
  | quiet (hkeep : KeepsWords none s.tree s'.tree) (hnext : next.leaf = none) :
      LockStep s s' call next []
  | took (L : Addr) (hkeep : KeepsWords (some L) s.tree s'.tree)
      (hfree : ∀ m, s.tree.dleafHeap L = some m → m.tempInsert = 0)
      (hword : ∃ m', s'.tree.dleafHeap L = some m' ∧ m'.tempInsert ≠ 0) (hnext : next.leaf = some L) :
      LockStep s s' call next [(L, .took)]
  | raised (L : Addr) (hkeep : KeepsWords (some L) s.tree s'.tree) (hcall : call.leaf = some L)
      (hword : ∃ m', s'.tree.dleafHeap L = some m' ∧ m'.tempInsert ≠ 0) (hnext : next.leaf = some L) :
      LockStep s s' call next [(L, .raised)]
  | reset (L : Addr) (hkeep : KeepsWords (some L) s.tree s'.tree) (hcall : call.leaf = some L)
      (hnext : next.leaf = none) : LockStep s s' call next [(L, .reset)]
  | gaveUp (L : Addr) (i : Nat) (kvPtr : Addr) (m : DLeaf) (hcall : call = .located L i kvPtr)
      (hm : s.tree.dleafHeap L = some m) (hnone : choosePlace s L m i = none)
      (hkeep : KeepsWords (some L) s.tree s'.tree) (hnext : next.leaf = none) :
      LockStep s s' call next [(L, .reset)]

theorem splitFull_words (hbelow : ∀ b m, s.tree.dleafHeap b = some m → b < s.tree.brk)
    {r : Addr × Key × Addr × CacheTree P} (h : splitFull s t a = .ok r) :
    KeepsWords (some a) s.tree r.2.2.2.tree ∧
      ∃ m', r.2.2.2.tree.dleafHeap a = some m' ∧ m'.tempInsert ≠ 0 := by
  obtain ⟨m, buf, keys, fingers, newLeaf, pm, pm', hm, -, -, -, -, rfl⟩ := splitFull_eq_ok.mp h
  have hlt := hbelow a m hm
  obtain ⟨hleft, hright, hoff⟩ := splitState_heap m fingers keys newLeaf pm' hlt
  refine ⟨⟨fun b n hb hn => ?_, fun _ b n hn => ?_, Nat.le_refl _⟩, _, hleft, Nat.succ_ne_zero _⟩
  · have hba : b ≠ a := fun heq => hb (congrArg some heq.symm)
    have hbR : b ≠ s.tree.brk + 1 := fun heq =>
      absurd (heq ▸ hbelow b n hn) (Nat.not_lt.mpr (Nat.le_succ _))
    exact ⟨n, (hoff b hba hbR).trans hn, rfl⟩
  · have hbrk : (splitState s a m fingers keys newLeaf pm').tree.brk = s.tree.brk + 2 := rfl
    rw [hbrk]
    by_cases hba : b = a
    · exact hba ▸ hlt.trans_le (Nat.le_add_right _ 2)
    · by_cases hbR : b = s.tree.brk + 1
      · exact hbR ▸ Nat.lt_succ_self _
      · rw [hoff b hba hbR] at hn
        exact (hbelow b n hn).trans_le (Nat.le_add_right _ 2)

theorem storePair_words {i : Nat} {kvPtr : Addr} {place : Place} (h : storePair s a i kvPtr place = .ok s') :
    KeepsWords (some a) s.tree s'.tree := by
  cases place with
  | nowhere =>
    cases h
    exact KeepsWords.refl _ _
  | free =>
    simp only [storePair, bind_eq_ok, deref_eq_ok] at h
    obtain ⟨m, hm, k, -, v, -, h⟩ := h
    cases h
    exact KeepsWords.setLeaf hm (Or.inl rfl)
  | instead j =>
    simp only [storePair, bind_eq_ok, deref_eq_ok] at h
    obtain ⟨m, hm, k, -, v, -, h⟩ := h
    cases h
    exact KeepsWords.setLeaf hm (Or.inl rfl)

theorem callStep_lock (hbelow : ∀ b m, s.tree.dleafHeap b = some m → b < s.tree.brk)
    (h : callStep s t call = .ok (next, log, s')) : LockStep s s' call next log := by
  cases call with
  | write pc =>
    cases pc with
    | searching r =>
      simp only [callStep, lockLeaf, bind_eq_ok, deref_eq_ok] at h
      obtain ⟨⟨lockState, leaf, tree⟩, ⟨⟨path, leaf'⟩, -, m, hm, hlock⟩, h⟩ := h
      by_cases hfree : m.tempInsert = 0
      · rw [if_pos hfree] at hlock
        cases hlock
        cases h
        -- the compare-and-swap succeeds on a free leaf only
        refine .took leaf' (KeepsWords.setLeaf hm (Or.inl rfl)) (fun m' hm' => ?_)
          ⟨_, Function.update_self .., Nat.one_ne_zero⟩ rfl
        rw [hm, Option.some.injEq] at hm'
        exact hm' ▸ hfree
      · rw [if_neg hfree] at hlock
        cases hlock
        cases h
        exact .quiet (KeepsWords.refl _ _) rfl
    | locked r leaf =>
      simp only [callStep, bind_eq_ok, deref_eq_ok] at h
      obtain ⟨m, hm, dup, -, h⟩ := h
      cases dup with
      | true =>
        cases h
        exact .quiet (KeepsWords.refl _ _) rfl
      | false =>
        simp only [Bool.false_eq_true, if_false] at h
        by_cases hroom : m.maxUse < MAX_LEAF_KEY
        · rw [if_pos hroom, bind_eq_ok] at h
          obtain ⟨s₁, hfill, h⟩ := h
          cases h
          simp only [fillSlot, ZBTree.fillSlot, bind_eq_ok, deref_eq_ok] at hfill
          obtain ⟨m₁, -, tree, ⟨m₂, hm₂, ⟨kvAddr, pm⟩, -, htree⟩, hfill⟩ := hfill
          cases htree
          cases hfill
          have hpm : KeepsWords (some leaf) s.tree { s.tree with pm := pm } :=
            ⟨fun _ m _ hm => ⟨m, hm, rfl⟩, id, Nat.le_refl _⟩
          -- the leaf is released with its new slot
          exact .reset leaf (hpm.trans (KeepsWords.setLeaf hm₂ (Or.inl rfl))) rfl rfl
        · rw [if_neg hroom, bind_eq_ok] at h
          obtain ⟨⟨leaf2, splitKey, insertLeaf, s₁⟩, hsplit, h⟩ := h
          cases h
          obtain ⟨hkeep, hword⟩ := splitFull_words hbelow hsplit
          -- the mark goes from 1 to 2 while the leaf is split
          exact .raised leaf hkeep rfl hword rfl
    | splitting r leaf leaf2 splitKey insertLeaf =>
      simp only [callStep, bind_eq_ok] at h
      obtain ⟨tree, hinst, h⟩ := h
      cases h
      obtain ⟨s₁, m, hinner, hm, rfl⟩ := installSeparator_eq hinst
      have hfirst : KeepsWords (some leaf) s.tree s₁ := by
        refine ⟨fun b n _ hn => ⟨n, hinner.leaves ▸ hn, rfl⟩, fun hlt b n hn => ?_, hinner.level⟩
        exact (hlt b n (hinner.leaves ▸ hn)).trans_le hinner.brk
      exact .reset leaf (hfirst.trans (KeepsWords.setLeaf (hinner.leaves ▸ hm) (Or.inl rfl))) rfl rfl
  | looking key =>
    simp only [callStep] at h
    split at h
    · simp only [bind_eq_ok] at h
      obtain ⟨m, -, v, -, h⟩ := h
      cases h
      exact .quiet (KeepsWords.refl _ _) rfl
    · simp only [bind_eq_ok, deref_eq_ok] at h
      obtain ⟨leaf, -, m, hm, h⟩ := h
      split at h
      · cases h
        exact .quiet (KeepsWords.refl _ _) rfl
      · rw [bind_eq_ok] at h
        obtain ⟨r, -, h⟩ := h
        cases r with
        | absent =>
          cases h
          exact .quiet (KeepsWords.refl _ _) rfl
        | pair i v =>
          cases h
          refine .quiet (KeepsWords.setLeaf hm (Or.inr ?_)) rfl
          unfold DLeaf.touch
          split_ifs <;> rfl
        | record i kvPtr =>
          cases h
          exact .quiet (KeepsWords.refl _ _) rfl
  | located leaf i kvPtr =>
    simp only [callStep, bind_eq_ok, deref_eq_ok] at h
    obtain ⟨m, hm, v, -, h⟩ := h
    cases hchoose : choosePlace s leaf m i with
    | none =>
      rw [hchoose] at h
      simp only [giveUp, hm, deref_some, ok_bind, pure_eq_ok] at h
      cases h
      -- `temp_insert` is set to 0 without having been taken
      exact .gaveUp leaf i kvPtr m rfl hm hchoose (KeepsWords.setLeaf hm (Or.inl rfl)) rfl
    | some place =>
      rw [hchoose] at h
      cases place <;> cases h <;> exact .quiet (KeepsWords.refl _ _) rfl
  | taking leaf i kvPtr place =>
    simp only [callStep, takeLeaf, bind_eq_ok, deref_eq_ok] at h
    obtain ⟨v, -, ⟨lockState, s₁⟩, ⟨m, hm, hlock⟩, h⟩ := h
    by_cases hfree : m.tempInsert = 0
    · rw [if_pos hfree] at hlock
      cases hlock
      cases h
      refine .took leaf (KeepsWords.setLeaf hm (Or.inl rfl)) (fun m' hm' => ?_)
        ⟨_, Function.update_self .., Nat.one_ne_zero⟩ rfl
      rw [hm, Option.some.injEq] at hm'
      exact hm' ▸ hfree
    · rw [if_neg hfree] at hlock
      cases hlock
      cases h
      exact .quiet (KeepsWords.refl _ _) rfl
  | holding leaf i kvPtr place =>
    simp only [callStep, bind_eq_ok] at h
    obtain ⟨v, -, s₁, hstore, h⟩ := h
    cases h
    exact .reset leaf (storePair_words hstore) rfl rfl

end LockWords

/-! ### Who holds a leaf -/

/-- A call that has taken a leaf took it last and finds it marked, and every store of 0 so far was
made by the thread that had taken the leaf last. -/
structure Owned (c : CacheConfig P) : Prop where
  below : ∀ b m, c.cache.tree.dleafHeap b = some m → b < c.cache.tree.brk
  holder : ∀ t call L, c.call t = some call → call.leaf = some L →
    c.taker L = some t ∧ ∃ m, c.cache.tree.dleafHeap L = some m ∧ m.tempInsert ≠ 0
  resets : ∀ x ∈ c.resets, x.2 = some x.1

section Owned

variable {c c' : CacheConfig P} {s' : CacheTree P} {t : Tid} {call : CacheCall} {next : Next}
  {log : List (Addr × LockAccess)}

omit [Pmem P] in
theorem Owned.unique (h : Owned c) {t' : Tid} {call' : CacheCall} {L : Addr} (hcall : c.call t = some call)
    (hcall' : c.call t' = some call') (hleaf : call.leaf = some L) (hleaf' : call'.leaf = some L) :
    t = t' := by
  have ht := (h.holder t call L hcall hleaf).1
  have ht' := (h.holder t' call' L hcall' hleaf').1
  exact Option.some.inj (ht.symm.trans ht')

omit [Pmem P] in
theorem Owned.other (h : Owned c) {L : Option Addr} (hkeep : KeepsWords L c.cache.tree s'.tree) {t' : Tid}
    {call' : CacheCall} {b : Addr} (hcall' : c.call t' = some call') (hleaf : call'.leaf = some b)
    (hne : L ≠ some b) : c.taker b = some t' ∧ ∃ m, s'.tree.dleafHeap b = some m ∧ m.tempInsert ≠ 0 := by
  obtain ⟨ht, m, hm, hword⟩ := h.holder t' call' b hcall' hleaf
  obtain ⟨m', hm', hsame⟩ := hkeep.word b m hne hm
  exact ⟨ht, m', hm', hsame ▸ hword⟩

omit [Pmem P] in
/-- One step of a call: by cases on what it does to the lock words. -/
theorem Owned.advance (h : Owned c) (hcall : c.call t = some call)
    (hvictim : c.findsVictim (.run t) = true) (hstep : LockStep c.cache s' call next log) :
    Owned (c.after t next log s') := by
  have hsplit : ∀ {t' call'}, Function.update c.call t next.call t' = some call' →
      (t' = t ∧ next.leaf = call'.leaf) ∨ (t' ≠ t ∧ c.call t' = some call') := by
    intro t' call' hcall'
    by_cases ht : t' = t
    · subst ht
      rw [Function.update_self] at hcall'
      exact Or.inl ⟨rfl, by rw [Next.leaf, hcall', Option.bind_some]⟩
    · rw [Function.update_of_ne ht] at hcall'
      exact Or.inr ⟨ht, hcall'⟩
  cases hstep with
  | quiet hkeep hnext =>
    refine ⟨hkeep.below h.below, fun t' call' b hcall' hleaf => ?_, h.resets⟩
    rcases hsplit hcall' with ⟨-, hsame⟩ | ⟨-, hold⟩
    · rw [← hsame, hnext] at hleaf
      cases hleaf
    · exact h.other hkeep hold hleaf (Option.some_ne_none b).symm
  | took L hkeep hfree hword hnext =>
    refine ⟨hkeep.below h.below, fun t' call' b hcall' hleaf => ?_, h.resets⟩
    show Function.update c.taker L (some t) b = some t' ∧ _
    rcases hsplit hcall' with ⟨rfl, hsame⟩ | ⟨-, hold⟩
    · rw [← hsame, hnext] at hleaf
      cases hleaf
      exact ⟨Function.update_self .., hword⟩
    · -- a leaf that another call has taken is marked
      have hb : b ≠ L := by
        rintro rfl
        obtain ⟨-, m, hm, hmark⟩ := h.holder t' call' b hold hleaf
        exact hmark (hfree m hm)
      rw [Function.update_of_ne hb]
      exact h.other hkeep hold hleaf fun heq => hb (Option.some.inj heq).symm
  | raised L hkeep hhold hword hnext =>
    refine ⟨hkeep.below h.below, fun t' call' b hcall' hleaf => ?_, h.resets⟩
    rcases hsplit hcall' with ⟨rfl, hsame⟩ | ⟨ht, hold⟩
    · rw [← hsame, hnext] at hleaf
      cases hleaf
      exact ⟨(h.holder t' call L hcall hhold).1, hword⟩
    · refine h.other hkeep hold hleaf fun heq => ht ?_
      cases heq
      exact h.unique hold hcall hleaf hhold
  | reset L hkeep hhold hnext =>
    refine ⟨hkeep.below h.below, fun t' call' b hcall' hleaf => ?_, fun x hx => ?_⟩
    · rcases hsplit hcall' with ⟨-, hsame⟩ | ⟨ht, hold⟩
      · rw [← hsame, hnext] at hleaf
        cases hleaf
      · refine h.other hkeep hold hleaf fun heq => ht ?_
        cases heq
        exact h.unique hold hcall hleaf hhold
    · have hx' : x = (t, c.taker L) ∨ x ∈ c.resets := List.mem_cons.mp hx
      rcases hx' with rfl | hx'
      · exact (h.holder t call L hcall hhold).1
      · exact h.resets x hx'
  | gaveUp L i kvPtr m hlocated hm hnone hkeep hnext =>
    -- the search has found a slot to replace
    simp only [CacheConfig.findsVictim, hcall, hlocated, hm, hnone] at hvictim
    exact absurd hvictim (by decide)

theorem Owned.step (h : Owned c) {e : CacheEvent} (hvictim : c.findsVictim e = true)
    (hstep : c.step e = .ok c') : Owned c' := by
  have henter : ∀ t call, call.leaf = none → Owned (c.enter t call) := by
    intro t call hnone
    unfold CacheConfig.enter
    split
    · refine ⟨h.below, fun t' call' b hcall' hleaf => ?_, h.resets⟩
      rcases eq_or_of_update_some hcall' with ⟨-, rfl⟩ | ⟨-, hold⟩
      · rw [hnone] at hleaf
        cases hleaf
      · exact h.holder t' call' b hold hleaf
    · exact h
  cases e with
  | insert t r =>
    cases hstep
    exact henter t _ rfl
  | find t key =>
    cases hstep
    exact henter t _ rfl
  | run t =>
    simp only [CacheConfig.step] at hstep
    split at hstep
    · cases hstep
      exact h
    · rename_i call hcall
      rw [bind_eq_ok] at hstep
      obtain ⟨⟨next, log, s'⟩, hrun, hstep⟩ := hstep
      cases hstep
      exact h.advance hcall hvictim (callStep_lock h.below hrun)

/-- A whole run, by induction on its events. -/
theorem Owned.run (es : List CacheEvent) (h : Owned c) (hrun : c.run es = .ok c')
    (hvictims : c.all CacheConfig.findsVictim es = true) : Owned c' := by
  induction es generalizing c with
  | nil =>
    cases hrun
    exact h
  | cons e es ih =>
    simp only [CacheConfig.run, bind_eq_ok] at hrun
    obtain ⟨c₁, hstep, hrun⟩ := hrun
    simp only [CacheConfig.all, hstep, Bool.and_eq_true] at hvictims
    exact ih (h.step hvictims.1 hstep) hrun hvictims.2

theorem owned_start {pm : P} {t₀ : Tid} {junkInner : Addr → InnerNode} {junkLeaf : Addr → DLeaf}
    {junkUse : Addr → Nat} {junkFull : Addr → Bool} {s : CacheTree P}
    (hinit : init pm t₀ junkInner junkLeaf junkUse junkFull = .ok s) : Owned (CacheConfig.start s) := by
  simp only [init, bind_eq_ok] at hinit
  obtain ⟨tree, htree, hinit⟩ := hinit
  cases hinit
  obtain ⟨q, pm₁, l, pm₂, -, -, -, rfl⟩ := init_eq_ok.mp htree
  refine ⟨fun b m hm => ?_, fun t call L hcall => ?_, fun x hx => ?_⟩
  · obtain ⟨rfl, -⟩ := freshTree_leaf.mp hm
    exact Nat.one_lt_two
  · cases hcall
  · cases hx

end Owned

/-- Only the thread that took a leaf last sets its `temp_insert` to 0, and no leaf has two holders,
in every run in which each search that needs the data replacement finds a slot to replace. -/
theorem releases_by_holder (pm : P) (t₀ : Tid) (junkInner : Addr → InnerNode)
    (junkLeaf : Addr → DLeaf) (junkUse : Addr → Nat) (junkFull : Addr → Bool)
    (schedule : List CacheEvent) {s₀ : CacheTree P} {c : CacheConfig P}
    (hinit : init pm t₀ junkInner junkLeaf junkUse junkFull = .ok s₀)
    (hrun : (CacheConfig.start s₀).run schedule = .ok c)
    (hvictims : (CacheConfig.start s₀).all CacheConfig.findsVictim schedule = true) :
    (∀ x ∈ c.resets, x.2 = some x.1) ∧
      ∀ t t' call call' L, c.call t = some call → c.call t' = some call' → call.leaf = some L →
        call'.leaf = some L → t = t' := by
  have h := (owned_start hinit).run schedule hrun hvictims
  exact ⟨h.resets, fun _ _ _ _ _ hcall hcall' hleaf hleaf' => h.unique hcall hcall' hleaf hleaf'⟩

/-! ### Two schedules -/

def insertsBy (t : Tid) (keys : List Nat) : List CacheEvent :=
  keys.flatMap fun k => .insert t ⟨BitVec.ofNat 64 k, 7, 8⟩ :: List.replicate 5 (.run t)

def findsBy (t : Tid) (keys : List Nat) : List CacheEvent :=
  keys.flatMap fun k => .find t (BitVec.ofNat 64 k) :: List.replicate 4 (.run t)

/-- Thirty-one insertions, so that the left leaf has the keys `2` to `30`, and searches that fill
its free cells. -/
def fullOfPairs : List CacheEvent :=
  insertsBy 0 ((List.range 31).map fun i => 2 * (i + 1)) ++ findsBy 0 [2, 4, 6, 8, 10, 12, 14]

def pairReread : List CacheEvent := fullOfPairs ++ findsBy 1 [14]

/-- An insertion takes the left leaf, a search for a key without a pair goes through the data
replacement, and another insertion takes the leaf as well. -/
def leafTakenTwice : List CacheEvent :=
  fullOfPairs ++ [.insert 1 ⟨5, 7, 8⟩, .run 1, .find 2 16, .run 2, .run 2, .insert 3 ⟨7, 7, 8⟩, .run 3]

theorem releases_by_holder_reread : ∃ s₀ c,
    init (IdealPm.roomy 40) 0 zeroInner zeroLeaf (fun _ => 0) (fun _ => false) = .ok s₀ ∧
      (CacheConfig.start s₀).run pairReread = .ok c ∧ ∀ x ∈ c.resets, x.2 = some x.1 := by
  have h : (do
      let s₀ ← init (IdealPm.roomy 40) 0 zeroInner zeroLeaf (fun _ => 0) (fun _ => false)
      let _ ← (CacheConfig.start s₀).run pairReread
      return (CacheConfig.start s₀).all CacheConfig.findsVictim pairReread) = .ok true := by
    decide +kernel
  simp only [bind_eq_ok, pure_eq_ok, Except.ok.injEq] at h
  obtain ⟨s₀, hinit, c, hrun, hvictims⟩ := h
  exact ⟨s₀, c, hinit, hrun, (releases_by_holder (IdealPm.roomy 40) 0 zeroInner zeroLeaf (fun _ => 0)
    (fun _ => false) pairReread hinit hrun hvictims).1⟩

/-- The search of thread 2 releases the leaf that thread 1 has taken, and thread 3 takes it too. -/
theorem leaf_released_by_reader : ∃ s₀ c,
    init (IdealPm.roomy 40) 0 zeroInner zeroLeaf (fun _ => 0) (fun _ => false) = .ok s₀ ∧
      (CacheConfig.start s₀).run leafTakenTwice = .ok c ∧ (2, some 1) ∈ c.resets ∧
      (c.call 1).bind CacheCall.leaf = some 1 ∧ (c.call 3).bind CacheCall.leaf = some 1 := by
  have h : (do
      let s₀ ← init (IdealPm.roomy 40) 0 zeroInner zeroLeaf (fun _ => 0) (fun _ => false)
      let c ← (CacheConfig.start s₀).run leafTakenTwice
      return (c.resets.head?, (c.call 1).bind CacheCall.leaf, (c.call 3).bind CacheCall.leaf)) =
      .ok (some (2, some 1), some 1, some 1) := by
    decide +kernel
  simp only [bind_eq_ok, pure_eq_ok, Except.ok.injEq, Prod.mk.injEq] at h
  obtain ⟨s₀, hinit, c, hrun, hresets, hfirst, hsecond⟩ := h
  exact ⟨s₀, c, hinit, hrun, List.mem_of_mem_head? hresets, hfirst, hsecond⟩

end ReadCache

end ZBTree
