import ZBTree.HalfCells
import ZBTree.ScanContract
import ZBTree.TwoInserts

/-!
# What malloc hands out

Leaves and inner nodes come from `malloc` and each place that makes one sets the fields by hand. Two
of them are forgotten: the `next` of the first leaf, which the last leaf inherits, and the cell
`LEFT_KEY` of a right half. Only `scan` reads them. Two runs on different memory are compared here, as
long as every scan gets its words before it comes to one of the two.
-/

namespace ZBTree

open RangeIndex LinkedList Pmem LawfulPmem

variable {P : Type} [Pmem P]

/-! ### Runs with scans -/

inductive ScanOp where
  | call (op : MapOp)
  | scan (startKey : Key) (scanCount : Nat)

inductive ScanAnswer where
  | call (answer : Answer)
  | scanned (out : List Word)
deriving DecidableEq

/-- One call of thread `t`; a scan goes along `n` leaves at most. -/
def scanStep (n : Nat) (t : Tid) (s : TreeState P) : ScanOp → Exec (ScanAnswer × TreeState P)
  | .call op => do
    let (answer, s) ← mapStep t s op
    return (.call answer, s)
  | .scan startKey scanCount => do
    let (out, s) ← scan n s startKey scanCount
    return (.scanned out, s)

def scanRun (n : Nat) (t : Tid) : TreeState P → List ScanOp → Exec (List ScanAnswer × TreeState P)
  | s, [] => .ok ([], s)
  | s, op :: ops => do
    let (answer, s) ← scanStep n t s op
    let (answers, s) ← scanRun n t s ops
    return (answer :: answers, s)

def scanKeys : List ScanOp → List Key
  | [] => []
  | .call op :: ops => insertedKeys [op] ++ scanKeys ops
  | .scan _ _ :: ops => scanKeys ops

/-- Only keys that have been inserted are searched for. -/
def findsInserted : List Key → List ScanOp → Bool
  | _, [] => true
  | keys, .call (.insert key _ _) :: ops => findsInserted (key :: keys) ops
  | keys, .call (.find key) :: ops => keys.contains key && findsInserted keys ops
  | keys, .scan _ _ :: ops => findsInserted keys ops

/-! ### What has been written -/

/-- The leaves whose cell `LEFT_KEY` has never been written, after a call that led from `s` to `s'`: they
are right halves, made by the call or hollow before it, to which nothing has been added. -/
def hollowAfter (hollow : Addr → Bool) (s s' : TreeState P) : Addr → Bool := fun a =>
  (s'.dleafHeap a).any (fun m => m.maxUse = LEFT_KEY) && ((s.dleafHeap a).isNone || hollow a)

/-- A scan along these leaves gets `count` words and reads no cell that has never been written, nor
the `next` of the last leaf. -/
def readsWritten (s : TreeState P) (hollow : Addr → Bool) : List Addr → Nat → Bool
  | _, 0 => true
  | [], _ + 1 => false
  | a :: rest, count + 1 =>
    !hollow a && readsWritten s hollow rest (count + 1 - (s.slotsOf a).length)

/-- The condition on a scan from `start_key`. -/
def scanWritten (hollow : Addr → Bool) (s : TreeState P) (startKey : Key) (scanCount : Nat) : Bool :=
  match findInsert s startKey with
  | .error _ => true
  | .ok (_, leaf) => readsWritten s hollow ((labels s.index).dropWhile (· ≠ leaf)) scanCount

def opWritten (hollow : Addr → Bool) (s : TreeState P) : ScanOp → Bool
  | .call _ => true
  | .scan startKey scanCount => scanWritten hollow s startKey scanCount

/-- Every scan of the run meets the condition. -/
def scansWritten (n : Nat) (t : Tid) : (Addr → Bool) → TreeState P → List ScanOp → Bool
  | _, _, [] => true
  | hollow, s, op :: ops => opWritten hollow s op &&
    match scanStep n t s op with
    | .ok (_, s') => scansWritten n t (hollowAfter hollow s s') s' ops
    | .error _ => true

/-! ### Leaves in different memory

Two trees are built by the same calls on memory with different junk. A leaf that has been split is the same in
both but for the cells that no pair has reached; a leaf that has never been full is hollow: only its used
slots agree. -/

omit [Pmem P] in
theorem nodeEntry_eq {e e' : NodeEntry} (hkey : e.oneKey = e'.oneKey) (hval : e.val = e'.val) : e = e' := by
  cases e
  cases e'
  rw [NodeEntry.mk.injEq]
  exact ⟨hkey, hval⟩

/-- Two versions of a leaf that agree but for the cell `LEFT_KEY`, which may differ when it is hollow. -/
structure LeafCopy (hollow : Bool) (m m' : DLeaf) : Prop where
  use : m'.maxUse = m.maxUse
  lock : m'.tempInsert = m.tempInsert
  alt : m'.altPtr = m.altPtr
  cells : ∀ i, i < MAX_LEAF_KEY → (i = LEFT_KEY → hollow = false) → m'.fingerPrint i = m.fingerPrint i

section LeafCopy

variable {hollow hollow' : Bool} {m m' : DLeaf} {i : Nat} {k : Key} {addr : Addr}

omit [Pmem P] in
theorem LeafCopy.mono (h : LeafCopy hollow m m') (hle : hollow = true → hollow' = true) :
    LeafCopy hollow' m m' := by
  refine ⟨h.use, h.lock, h.alt, fun i hi hmid => h.cells i hi fun heq => ?_⟩
  rw [Bool.eq_false_iff]
  intro htrue
  have hfalse := hmid heq
  rw [hle htrue] at hfalse
  cases hfalse

theorem LeafCopy.slot (h : LeafCopy hollow m m') (hle : m.maxUse ≤ MAX_LEAF_KEY)
    (huse : hollow = true → m.maxUse = LEFT_KEY) (hi : i < m.maxUse) : m'.fingerPrint i = m.fingerPrint i := by
  refine h.cells i (hi.trans_le hle) fun heq => ?_
  rw [Bool.eq_false_iff]
  intro htrue
  rw [huse htrue, heq] at hi
  exact lt_irrefl _ hi

theorem LeafCopy.setLock (h : LeafCopy hollow m m') (x : Nat) :
    LeafCopy hollow { m with tempInsert := x } { m' with tempInsert := x } :=
  ⟨h.use, rfl, h.alt, h.cells⟩

theorem LeafCopy.touch (h : LeafCopy hollow m m') (hslot : m'.fingerPrint i = m.fingerPrint i) :
    LeafCopy hollow (m.touch i) (m'.touch i) := by
  unfold DLeaf.touch
  rw [hslot]
  split_ifs
  · refine ⟨h.use, h.lock, h.alt, fun j hj hmid => ?_⟩
    dsimp only
    by_cases hji : j = i
    · rw [hji, Function.update_self, Function.update_self]
    · rw [Function.update_of_ne hji, Function.update_of_ne hji, h.cells j hj hmid]
  · exact h

theorem LeafCopy.push (h : LeafCopy hollow m m') (huse : hollow = true → m.maxUse = LEFT_KEY) :
    LeafCopy false (m.push k addr) (m'.push k addr) := by
  refine ⟨congrArg (· + 1) h.use, rfl, h.alt, fun j hj _ => ?_⟩
  simp only [DLeaf.push, h.use]
  by_cases hju : j = m.maxUse
  · rw [hju, Function.update_self, Function.update_self]
  · rw [Function.update_of_ne hju, Function.update_of_ne hju]
    refine h.cells j hj fun hmid => ?_
    rw [Bool.eq_false_iff]
    exact fun htrue => hju (hmid.trans (huse htrue).symm)

end LeafCopy

/-- The trees of two runs on different memory. -/
structure Copies (hollow : Addr → Bool) (s s' : TreeState P) : Prop where
  pm : s'.pm = s.pm
  leaf : ∀ a m, s.dleafHeap a = some m → ∃ m', s'.dleafHeap a = some m' ∧ LeafCopy (hollow a) m m'
  hollow : ∀ a, hollow a = true → ∃ m, s.dleafHeap a = some m ∧ m.maxUse = LEFT_KEY

section Copies

variable {hollow hollow' : Addr → Bool} {s s' u u' : TreeState P} {a L : Addr} {m m' n n' : DLeaf}

omit [Pmem P] in
theorem hollowAfter_iff : hollowAfter hollow s u a = true ↔
    (∃ m, u.dleafHeap a = some m ∧ m.maxUse = LEFT_KEY) ∧ (s.dleafHeap a = none ∨ hollow a = true) := by
  simp only [hollowAfter, Bool.and_eq_true, Bool.or_eq_true, Option.any_eq_true, Option.isNone_iff_eq_none,
    decide_eq_true_eq]

omit [Pmem P] in
theorem Copies.use (h : Copies hollow s s') (hm : s.dleafHeap a = some m) (htrue : hollow a = true) :
    m.maxUse = LEFT_KEY := by
  obtain ⟨m', hm', huse⟩ := h.hollow a htrue
  rw [hm, Option.some.injEq] at hm'
  exact hm' ▸ huse

omit [Pmem P] in
theorem Copies.both (h : Copies hollow s s') (hm : s.dleafHeap a = some m) (hm' : s'.dleafHeap a = some m') :
    LeafCopy (hollow a) m m' := by
  obtain ⟨m'', hm'', hcopy⟩ := h.leaf a m hm
  rw [hm', Option.some.injEq] at hm''
  exact hm'' ▸ hcopy

omit [Pmem P] in
theorem Copies.mono (h : Copies hollow s s') (hle : ∀ a, hollow a = true → hollow' a = true)
    (huse : ∀ a, hollow' a = true → ∃ m, s.dleafHeap a = some m ∧ m.maxUse = LEFT_KEY) :
    Copies hollow' s s' := by
  refine ⟨h.pm, fun a m hm => ?_, huse⟩
  obtain ⟨m', hm', hcopy⟩ := h.leaf a m hm
  exact ⟨m', hm', hcopy.mono (hle a)⟩

omit [Pmem P] in
theorem Copies.write (h : Copies hollow s s') (hpm : u'.pm = u.pm)
    (hheap : u.dleafHeap = Function.update s.dleafHeap L (some n))
    (hheap' : u'.dleafHeap = Function.update s'.dleafHeap L (some n'))
    (hcopy : LeafCopy (hollow' L) n n') (huse : hollow' L = true → n.maxUse = LEFT_KEY)
    (hother : ∀ a, a ≠ L → hollow' a = hollow a) : Copies hollow' u u' := by
  refine ⟨hpm, fun a m hm => ?_, fun a ha => ?_⟩
  · rw [hheap] at hm
    rw [hheap']
    by_cases ha : a = L
    · rw [ha, Function.update_self, Option.some.injEq] at hm
      rw [ha, Function.update_self]
      exact ⟨n', rfl, hm ▸ hcopy⟩
    · rw [Function.update_of_ne ha] at hm ⊢
      rw [hother a ha]
      exact h.leaf a m hm
  · rw [hheap]
    by_cases haL : a = L
    · rw [haL, Function.update_self]
      exact ⟨n, rfl, huse (haL ▸ ha)⟩
    · rw [Function.update_of_ne haL]
      exact h.hollow a (hother a haL ▸ ha)

omit [Pmem P] in
theorem Copies.rewrite (h : Copies hollow s s') (hm : s.dleafHeap L = some m)
    (hcopy : LeafCopy (hollow L) n n') (huse : n.maxUse = m.maxUse) :
    Copies hollow (s.setLeaf L n) (s'.setLeaf L n') :=
  h.write h.pm rfl rfl hcopy (fun htrue => huse.trans (h.use hm htrue)) fun _ _ => rfl

omit [Pmem P] in
theorem hollowAfter_of_write (h : Copies hollow s s')
    (hheap : u.dleafHeap = Function.update s.dleafHeap L (some n)) (ha : a ≠ L) : hollowAfter hollow s u a = hollow a := by
  rw [Bool.eq_iff_iff, hollowAfter_iff, hheap, Function.update_of_ne ha]
  constructor
  · rintro ⟨⟨m, hm, -⟩, hnone | htrue⟩
    · rw [hm] at hnone
      cases hnone
    · exact htrue
  · intro htrue
    exact ⟨h.hollow a htrue, Or.inr htrue⟩

end Copies

/-! ### An insertion on different memory -/

section Insert

variable {hollow : Addr → Bool} {s s' u u' l l' s₁ s₁' : TreeState P} {L q q' : Addr} {m m' : DLeaf}
  {t : Tid} {k : Key} {v : Word} {len : BitVec 32} {pm pm' : P} {σ : Equiv.Perm Nat} {buf buf' : Nat → NodeEntry}

omit [Pmem P] in
theorem Copies.after (h : Copies hollow u u') : Copies (hollowAfter hollow s u) u u' := by
  refine h.mono (fun a ha => ?_) fun a ha => (hollowAfter_iff.mp ha).1
  exact hollowAfter_iff.mpr ⟨h.hollow a ha, Or.inr ha⟩

variable [LawfulPmem P]

omit [Pmem P] [LawfulPmem P] in
theorem update_none {heap : Addr → Option DLeaf} {a b : Addr} {n : DLeaf}
    (h : Function.update heap a (some n) b = none) : heap b = none := by
  by_cases hb : b = a
  · rw [hb, Function.update_self] at h
    cases h
  · rwa [Function.update_of_ne hb] at h

omit [Pmem P] [LawfulPmem P] in
theorem setLeaf_none {a b : Addr} {n : DLeaf} (h : (s.setLeaf a n).dleafHeap b = none) :
    s.dleafHeap b = none := update_none h

/-- The halves of a leaf that is split in both trees. -/
theorem Copies.split (h : Copies hollow l l') (hlt : ∀ a n, l.dleafHeap a = some n → a < l.brk)
    (hbrk : l'.brk = l.brk) (hrun : SplitRun l t k L m σ buf q pm s₁)
    (hrun' : SplitRun l' t k L m' σ buf' q' pm' s₁') :
    Copies (hollowAfter hollow l (s₁.setLeaf L (leftDone l m σ buf)))
      (s₁.setLeaf L (leftDone l m σ buf)) (s₁'.setLeaf L (leftDone l' m' σ buf')) := by
  have hm := hrun.order.leaf
  have hm' := hrun'.order.leaf
  have hcopy := h.both hm hm'
  have hLlt := hlt L m hm
  obtain ⟨hpm, hheap⟩ := hrun.result hLlt
  obtain ⟨hpm', hheap'⟩ := hrun'.result (hbrk ▸ hLlt)
  -- a full leaf is not hollow, so both have the same slots
  have hfull : hollow L = false := by
    rw [Bool.eq_false_iff]
    intro htrue
    have huse := h.use hm htrue
    rw [hrun.order.full] at huse
    cases huse
  have hcells : ∀ i, i < MAX_LEAF_KEY → m'.fingerPrint i = m.fingerPrint i := fun i hi =>
    hcopy.cells i hi fun _ => hfull
  have hbuf : ∀ i, i < MAX_LEAF_KEY → buf' i = buf i := by
    intro i hi
    obtain ⟨hkey, hval⟩ := hrun.order.entries i hi
    obtain ⟨hkey', hval'⟩ := hrun'.order.entries i hi
    have hptr : m'.ptr i = m.ptr i := by rw [DLeaf.ptr, DLeaf.ptr, hcells i hi]
    rw [h.pm, hptr, hkey, Option.some.injEq] at hkey'
    rw [h.pm, hptr, hval, Option.some.injEq] at hval'
    exact nodeEntry_eq hkey'.symm hval'.symm
  have hsrc : ∀ i, i < MAX_LEAF_KEY → σ i < MAX_LEAF_KEY := fun i hi => hrun.order.source_lt hi
  -- so the memory is used alike
  obtain ⟨pm₁, halloc, hlink⟩ := hrun.memory
  obtain ⟨pm₁', halloc', hlink'⟩ := hrun'.memory
  rw [h.pm, halloc, Option.some.injEq, Prod.mk.injEq] at halloc'
  obtain ⟨rfl, rfl⟩ := halloc'
  simp only [Function.comp_apply, hbuf _ (hsrc _ (show LEFT_KEY - 1 < MAX_LEAF_KEY by decide)),
    hbuf _ (hsrc _ (show MAX_LEAF_KEY - 1 < MAX_LEAF_KEY by decide)), hcopy.alt] at hlink hlink'
  rw [hlink, Except.ok.injEq] at hlink'
  subst hlink'
  have hfingers : ∀ i, i < MAX_LEAF_KEY → m'.fingerBuffer (σ i) = m.fingerBuffer (σ i) := by
    intro i hi
    simp only [DLeaf.fingerBuffer, hcells _ (hsrc i hi)]
  have hkeys : ∀ i, i < MAX_LEAF_KEY → buf' (σ i) = buf (σ i) := fun i hi => hbuf _ (hsrc i hi)
  have hlow : ∀ i, i < LEFT_KEY → i + 0 < MAX_LEAF_KEY := fun i hi => hi.trans (by decide)
  have hhigh : ∀ i, i < LEFT_KEY → i + LEFT_KEY < MAX_LEAF_KEY := fun i hi => Nat.add_lt_add_right hi LEFT_KEY
  have hleft : LeafCopy false (leftDone l m σ buf) (leftDone l' m' σ buf') := by
    refine ⟨by simp only [leftDone_maxUse], by simp only [leftDone_tempInsert],
      by simp only [leftDone_altPtr, hcopy.alt], fun j hj _ => ?_⟩
    rw [leftDone_fingerPrint, leftDone_fingerPrint]
    exact fillHalf_congr (A := (· < MAX_LEAF_KEY)) hcells (fun i hi => hfingers _ (hlow i hi))
      (fun i hi => hkeys _ (hlow i hi)) hj fun _ => hj
  have hright : LeafCopy true (rightDone l m σ buf q) (rightDone l' m' σ buf' q) := by
    refine ⟨by simp only [rightDone_maxUse], by simp only [rightDone_tempInsert],
      by simp only [rightDone_altPtr], fun j hj hmid => ?_⟩
    rw [rightDone_fingerPrint, rightDone_fingerPrint]
    refine fillHalf_congr (A := fun _ => False) (fun _ hfalse => hfalse.elim)
      (fun i hi => hfingers _ (hhigh i hi)) (fun i hi => hkeys _ (hhigh i hi)) hj fun heq => ?_
    cases hmid heq
  rw [hbrk] at hheap'
  refine ⟨hpm'.trans hpm.symm, fun a n hn => ?_, fun a ha => (hollowAfter_iff.mp ha).1⟩
  -- the halves are copies of each other, the other leaves are as before
  have hn₀ := hn
  rw [hheap] at hn₀
  rw [hheap']
  by_cases haL : a = L
  · rw [haL, Function.update_self, Option.some.injEq] at hn₀
    rw [haL, Function.update_self]
    exact ⟨_, rfl, hn₀ ▸ hleft.mono fun htrue => absurd htrue Bool.false_ne_true⟩
  · rw [Function.update_of_ne haL] at hn₀ ⊢
    by_cases hab : a = l.brk + 1
    · rw [hab, Function.update_self, Option.some.injEq] at hn₀
      rw [hab, Function.update_self]
      refine ⟨_, rfl, hn₀ ▸ hright.mono fun _ => ?_⟩
      -- the new leaf has not been there before
      refine hollowAfter_iff.mpr ⟨⟨n, hab ▸ hn, hn₀ ▸ rightDone_maxUse ..⟩, Or.inl ?_⟩
      cases hold : l.dleafHeap (l.brk + 1) with
      | none => rfl
      | some n₀ => exact absurd (hlt _ n₀ hold) (not_lt.mpr (Nat.le_succ _))
    · rw [Function.update_of_ne hab] at hn₀ ⊢
      obtain ⟨n', hn', hcopy'⟩ := h.leaf a n hn₀
      refine ⟨n', hn', hcopy'.mono fun htrue => ?_⟩
      exact hollowAfter_iff.mpr ⟨⟨n, hn, h.use hn₀ htrue⟩, Or.inr htrue⟩

/-- An insertion in both trees, by induction on its rounds. -/
theorem InsertPair.copies (hpair : InsertPair t k v len s s' u u') (h : Copies hollow s s') :
    Copies (hollowAfter hollow s u) u u' := by
  induction hpair generalizing hollow with
  | @present s s' L m m' hm hm' =>
    exact (h.rewrite hm ((h.both hm hm').setLock 1) rfl).after
  | @room s s' L addr addr' m m' pm pm' hm hm' hroom happ happ' =>
    have hcopy := h.both hm hm'
    rw [h.pm, hcopy.alt, happ, Option.some.injEq, Prod.mk.injEq] at happ'
    obtain ⟨rfl, rfl⟩ := happ'
    refine h.write rfl rfl rfl
      ((hcopy.push fun htrue => h.use hm htrue).mono fun htrue => absurd htrue Bool.false_ne_true)
      (fun htrue => ?_) fun a ha => hollowAfter_of_write h rfl ha
    obtain ⟨⟨n, hn, huse⟩, -⟩ := hollowAfter_iff.mp htrue
    simp only [TreeState.setLeaf, Function.update_self, Option.some.injEq] at hn
    exact hn ▸ huse
  | @full s s' l l' s₁ s₁' u u' L q q' m m' pm pm' σ buf buf' hm hm' hl hl' hlt hbrk hrun hrun' hkeys hrest ih =>
    subst hl hl'
    have hheld := h.rewrite hm ((h.both hm hm').setLock 1) rfl
    have hLlt := hlt L _ hrun.order.leaf
    refine (ih (hheld.split hlt hbrk hrun hrun')).mono (fun a ha => ?_) fun a ha => (hollowAfter_iff.mp ha).1
    obtain ⟨huse, hold⟩ := hollowAfter_iff.mp ha
    refine hollowAfter_iff.mpr ⟨huse, ?_⟩
    -- what is not there after the split has not been there before
    have hgrown : ∀ {b}, (s₁.setLeaf L (leftDone (s.setLeaf L { m with tempInsert := 1 })
        { m with tempInsert := 1 } σ buf)).dleafHeap b = none → s.dleafHeap b = none := by
      intro b hb
      rw [(hrun.result hLlt).2] at hb
      exact setLeaf_none (update_none (update_none hb))
    rcases hold with hnone | htrue
    · exact Or.inl (hgrown hnone)
    · exact (hollowAfter_iff.mp htrue).2.imp_left setLeaf_none

end Insert

/-! ### One call on different memory -/

variable [LawfulPmem P] {n : Nat} {tail tail' : Addr} {hollow : Addr → Bool} {s s' : TreeState P}
  {M : Key → Option Word} {k : Key}

/-- The trees of two runs on different memory, which stand for the same map. -/
structure Alike (n : Nat) (tail tail' : Addr) (hollow : Addr → Bool) (s s' : TreeState P)
    (M : Key → Option Word) : Prop where
  rep : Represents n tail s M
  rep' : Represents n tail' s' M
  twins : Twins s s'
  copies : Copies hollow s s'

theorem Alike.insert (h : Alike (n + 2) tail tail' hollow s s' M) (t : Tid) (hk : M k = none) (v : Word)
    (len : BitVec 32) : ∃ u u', ZBTree.insert 2 s t k v len = .ok (true, u) ∧
      ZBTree.insert 2 s' t k v len = .ok (true, u') ∧
      Alike n tail tail' (hollowAfter hollow s u) u u' (Function.update M k (some v)) ∧
      u.index.length ≤ s.index.length + 1 := by
  obtain ⟨u, hrun, hrep, hlen⟩ := h.rep.insert t hk v len
  obtain ⟨u', hrun', hrep', -⟩ := h.rep'.insert t hk v len
  obtain ⟨w, hrun₁, hpair, htwins⟩ := h.twins.insert h.rep.inv h.rep'.inv h.rep.room h.rep'.room hrun
  rw [hrun', Except.ok.injEq, Prod.mk.injEq] at hrun₁
  obtain ⟨-, rfl⟩ := hrun₁
  exact ⟨u, u', hrun, hrun', ⟨hrep, hrep', htwins, hpair.copies h.copies⟩, hlen⟩

theorem Alike.find (h : Alike n tail tail' hollow s s' M) (hknown : (M k).isSome) :
    ∃ u u', ZBTree.find s k = .ok ((M k).getD 0, u) ∧ ZBTree.find s' k = .ok ((M k).getD 0, u') ∧
      Alike n tail tail' (hollowAfter hollow s u) u u' M ∧ u.index = s.index := by
  obtain ⟨u, hrun, hrep⟩ := h.rep.find (k := k) fun _ => hknown
  obtain ⟨u', hrun', hrep'⟩ := h.rep'.find (k := k) fun _ => hknown
  refine ⟨u, u', hrun, hrun', ?_⟩
  by_cases hlevel : s.tempLevel = 0
  · obtain rfl := find_low hlevel hrun
    obtain rfl := find_low (h.twins.upper.level.trans hlevel) hrun'
    exact ⟨⟨hrep, hrep', h.twins, h.copies.after⟩, rfl⟩
  · -- both searches touch the same slot
    obtain ⟨v, hv⟩ := Option.isSome_iff_exists.mp hknown
    obtain ⟨a, m, hm, i, hi, -⟩ := (h.rep.content k v).mpr hv
    obtain ⟨m', hm', htwin⟩ := h.twins.leaf a m hm
    obtain ⟨w, -, hfind⟩ := find_hit h.rep.inv (Nat.pos_of_ne_zero hlevel) hm hi
    obtain ⟨w', -, hfind'⟩ := find_hit h.rep'.inv
      (h.twins.upper.level ▸ Nat.pos_of_ne_zero hlevel) hm' (htwin.hasKey_iff.mpr hi)
    rw [hrun, Except.ok.injEq, Prod.mk.injEq] at hfind
    rw [hrun', Except.ok.injEq, Prod.mk.injEq] at hfind'
    obtain ⟨-, rfl⟩ := hfind
    obtain ⟨-, rfl⟩ := hfind'
    have hcopy := h.copies.both hm hm'
    have hslot := hcopy.slot (h.rep.inv.skel.leaf a m hm).1 (fun htrue => h.copies.use hm htrue) hi.1
    have huse : (m.touch i).maxUse = m.maxUse := (sameView_touch m hi.1).use
    refine ⟨⟨hrep, hrep', ?_, (h.copies.rewrite hm (hcopy.touch hslot) huse).after⟩, rfl⟩
    have hi' : i < m'.maxUse := htwin.use ▸ hi.1
    have htouched := h.twins.symm.touch hm hi.1
    exact htouched.symm.touch hm' hi'

/-! ### One scan on different memory -/

omit [LawfulPmem P] in
theorem LeafCopy.words {m m' : DLeaf} (h : LeafCopy false m m') (hle : m.maxUse ≤ MAX_LEAF_KEY) (p : P) :
    words p ((List.range m'.maxUse).map fun i => (m', i)) = words p ((List.range m.maxUse).map fun i => (m, i)) := by
  unfold ZBTree.words
  rw [h.use, List.map_map, List.map_map]
  refine List.map_congr_left fun i hi => ?_
  have hi' : i < m.maxUse := List.mem_range.mp hi
  have hslot := h.slot hle (fun htrue => absurd htrue Bool.false_ne_true) hi'
  have hword : scanWord p m' i = scanWord p m i := by
    unfold scanWord
    rw [h.use, DLeaf.ptr, DLeaf.ptr, hslot]
    split_ifs with hraw
    · rw [h.cells _ (Nat.lt_of_succ_lt hraw.2) fun _ => rfl]
    · rfl
  simp only [Function.comp_apply, hword]

omit [LawfulPmem P] in
/-- The leaves give the same words in both trees, as far as a scan that meets the condition goes. -/
theorem Copies.words (h : Copies hollow s s') (hle : ∀ a m, s.dleafHeap a = some m → m.maxUse ≤ MAX_LEAF_KEY)
    {leaves : List Addr} (hmem : ∀ a ∈ leaves, ∃ m, s.dleafHeap a = some m) {count : Nat}
    (hreads : readsWritten s hollow leaves count = true) :
    (ZBTree.words s'.pm (leaves.flatMap s'.slotsOf)).take count =
        (ZBTree.words s.pm (leaves.flatMap s.slotsOf)).take count ∧
      count ≤ (leaves.flatMap s.slotsOf).length ∧ count ≤ (leaves.flatMap s'.slotsOf).length := by
  induction leaves generalizing count with
  | nil =>
    cases count with
    | zero => exact ⟨rfl, Nat.le_refl 0, Nat.le_refl 0⟩
    | succ count => cases hreads
  | cons a rest ih =>
    cases count with
    | zero => exact ⟨rfl, Nat.zero_le _, Nat.zero_le _⟩
    | succ count =>
      rw [readsWritten, Bool.and_eq_true, Bool.not_eq_true'] at hreads
      obtain ⟨hnot, hrest⟩ := hreads
      obtain ⟨m, hm⟩ := hmem a List.mem_cons_self
      obtain ⟨m', hm', hcopy⟩ := h.leaf a m hm
      rw [hnot] at hcopy
      obtain ⟨hwords, hlen, hlen'⟩ := ih (fun b hb => hmem b (List.mem_cons_of_mem _ hb)) hrest
      have hmine : ZBTree.words s'.pm (s'.slotsOf a) = ZBTree.words s.pm (s.slotsOf a) := by
        rw [h.pm, TreeState.slotsOf, TreeState.slotsOf, hm, hm']
        exact hcopy.words (hle a m hm) s.pm
      have hcount : (s'.slotsOf a).length = (s.slotsOf a).length := by
        have hlength := congrArg List.length hmine
        rwa [ZBTree.words, ZBTree.words, List.length_map, List.length_map] at hlength
      rw [List.flatMap_cons, List.flatMap_cons, List.length_append, List.length_append, hcount]
      refine ⟨?_, Nat.sub_le_iff_le_add'.mp hlen, Nat.sub_le_iff_le_add'.mp hlen'⟩
      have hsplit : ∀ (p : P) (xs ys : List (DLeaf × Nat)),
          ZBTree.words p (xs ++ ys) = ZBTree.words p xs ++ ZBTree.words p ys :=
        fun p xs ys => List.map_append
      have hlength : (ZBTree.words s.pm (s.slotsOf a)).length = (s.slotsOf a).length := List.length_map ..
      rw [hsplit, hsplit, List.take_append, List.take_append, hmine, hlength, hwords]

/-- A scan that meets the condition comes back with the same words in both trees. -/
theorem Alike.scan (h : Alike n tail tail' hollow s s' M) {startKey : Key} {scanCount rounds : Nat}
    (hwritten : scanWritten hollow s startKey scanCount = true) (hrounds : s.index.length < rounds) :
    ∃ out, ZBTree.scan rounds s startKey scanCount = .ok (out, s) ∧
      ZBTree.scan rounds s' startKey scanCount = .ok (out, s') := by
  obtain ⟨path, L, X, Y, hfind, hlabels, hfirst, hseg, hread, -⟩ := h.rep.chain startKey
  obtain ⟨path', L', X', Y', hfind', hlabels', hfirst', hseg', hread', -⟩ := h.rep'.chain startKey
  have hsame := h.twins.upper.findInsert hfind
  rw [hfind', Except.ok.injEq, Prod.mk.injEq] at hsame
  obtain ⟨-, rfl⟩ := hsame
  have hdrop : ∀ {X Y : List Addr}, L' ∉ X → (X ++ L' :: Y).dropWhile (· ≠ L') = L' :: Y := by
    intro X Y hX
    have hall : ∀ a ∈ X, decide (a ≠ L') = true := fun a ha =>
      decide_eq_true fun heq => hX (heq ▸ ha)
    rw [List.dropWhile_append_of_pos hall]
    exact List.dropWhile_cons_of_neg (by simp)
  -- the leaves are the same in both trees
  obtain rfl : Y' = Y := by
    have htails := hdrop (Y := Y') hfirst'
    rw [← hlabels', h.twins.upper.index, hlabels, hdrop hfirst, List.cons.injEq] at htails
    exact htails.2.symm
  simp only [scanWritten, hfind, hlabels, hdrop hfirst] at hwritten
  have hlen : (L' :: Y').length < rounds := by
    have hle : (L' :: Y').length ≤ (labels s.index).length := by
      rw [hlabels, List.length_append]
      exact Nat.le_add_left _ _
    rw [labels, List.length_map] at hle
    exact hle.trans_lt hrounds
  obtain ⟨hwords, hcount, hcount'⟩ := h.copies.words (fun a m hm => (h.rep.inv.skel.leaf a m hm).1)
    (fun a ha => (hread a ha).2.imp fun m hm => hm.1) hwritten
  refine ⟨(words s.pm ((L' :: Y').flatMap s.slotsOf)).take scanCount, ?_, ?_⟩
  · rw [ZBTree.scan, hfind, ok_bind]
    exact scanLoop_spec startKey scanCount rounds hseg hread hlen [] (Nat.zero_le _)
      (Or.inr ((Nat.zero_add _).symm ▸ hcount))
  · rw [ZBTree.scan, hfind', ok_bind, ← hwords]
    exact scanLoop_spec startKey scanCount rounds hseg' hread' hlen [] (Nat.zero_le _)
      (Or.inr ((Nat.zero_add _).symm ▸ hcount'))

/-! ### Runs on different memory -/

/-- A whole run, by induction on the calls. -/
theorem Alike.run (rounds : Nat) (t : Tid) (ops : List ScanOp) {keys : List Key}
    (h : Alike (2 * ops.length + n) tail tail' hollow s s' M) (hkeys : (scanKeys ops).Nodup)
    (hnew : ∀ k ∈ scanKeys ops, M k = none) (hfinds : findsInserted keys ops = true)
    (hknown : ∀ k ∈ keys, (M k).isSome) (hrounds : s.index.length + ops.length < rounds + 1)
    (hwritten : scansWritten rounds t hollow s ops = true) :
    ∃ answers u u', scanRun rounds t s ops = .ok (answers, u) ∧ scanRun rounds t s' ops = .ok (answers, u') := by
  induction ops generalizing s s' M hollow keys with
  | nil => exact ⟨[], s, s', rfl, rfl⟩
  | cons op ops ih =>
    have hroom : 2 * (op :: ops).length + n = (2 * ops.length + n) + 2 := by
      rw [List.length_cons]
      omega
    rw [hroom] at h
    rw [List.length_cons] at hrounds
    rw [scansWritten, Bool.and_eq_true] at hwritten
    obtain ⟨hop, hrest⟩ := hwritten
    -- a call of both runs with the same answer, and then the rest
    have hdone : ∀ {answer u u'}, scanStep rounds t s op = .ok (answer, u) →
        scanStep rounds t s' op = .ok (answer, u') →
        (∃ answers w w', scanRun rounds t u ops = .ok (answers, w) ∧
          scanRun rounds t u' ops = .ok (answers, w')) →
        ∃ answers w w', scanRun rounds t s (op :: ops) = .ok (answers, w) ∧
          scanRun rounds t s' (op :: ops) = .ok (answers, w') := by
      rintro answer u u' hstep hstep' ⟨answers, w, w', hrun, hrun'⟩
      refine ⟨answer :: answers, w, w', ?_, ?_⟩
      · simp only [scanRun, hstep, hrun, ok_bind, pure_eq_ok]
      · simp only [scanRun, hstep', hrun', ok_bind, pure_eq_ok]
    match op with
    | .call (.insert key val len) =>
      have hsplit : scanKeys (.call (.insert key val len) :: ops) = key :: scanKeys ops := rfl
      rw [hsplit] at hkeys hnew
      obtain ⟨hnot, hkeys'⟩ := List.nodup_cons.mp hkeys
      obtain ⟨u, u', hrun, hrun', halike, hlen⟩ := h.insert t (hnew key List.mem_cons_self) val len
      have hstep : scanStep rounds t s (.call (.insert key val len)) = .ok (.call (.inserted true), u) := by
        simp only [scanStep, mapStep, hrun, ok_bind, pure_eq_ok]
      have hstep' : scanStep rounds t s' (.call (.insert key val len)) =
          .ok (.call (.inserted true), u') := by
        simp only [scanStep, mapStep, hrun', ok_bind, pure_eq_ok]
      simp only [hstep] at hrest
      refine hdone hstep hstep' (ih halike hkeys' (fun k hk => ?_) hfinds (fun k hk => ?_) (by omega) hrest)
      · have hne : k ≠ key := fun heq => hnot (heq ▸ hk)
        rw [Function.update_of_ne hne]
        exact hnew k (List.mem_cons_of_mem _ hk)
      · by_cases hkk : k = key
        · rw [hkk, Function.update_self]
          rfl
        · rw [Function.update_of_ne hkk]
          exact hknown k ((List.mem_cons.mp hk).resolve_left hkk)
    | .call (.find key) =>
      rw [findsInserted, Bool.and_eq_true, List.contains_iff_mem] at hfinds
      obtain ⟨u, u', hrun, hrun', halike, hindex⟩ := h.find (hknown key hfinds.1)
      have hstep : scanStep rounds t s (.call (.find key)) =
          .ok (.call (.found ((M key).getD 0)), u) := by
        simp only [scanStep, mapStep, hrun, ok_bind, pure_eq_ok]
      have hstep' : scanStep rounds t s' (.call (.find key)) =
          .ok (.call (.found ((M key).getD 0)), u') := by
        simp only [scanStep, mapStep, hrun', ok_bind, pure_eq_ok]
      simp only [hstep] at hrest
      have hroom' : Alike (2 * ops.length + n) tail tail' (hollowAfter hollow s u) u u' M :=
        ⟨halike.rep.mono (Nat.le_add_right _ 2), halike.rep'.mono (Nat.le_add_right _ 2), halike.twins,
          halike.copies⟩
      exact hdone hstep hstep' (ih hroom' hkeys hnew hfinds.2 hknown (by rw [hindex]; omega) hrest)
    | .scan startKey scanCount =>
      have hlt : s.index.length < rounds := by omega
      obtain ⟨out, hrun, hrun'⟩ := h.scan hop hlt
      have hstep : scanStep rounds t s (.scan startKey scanCount) = .ok (.scanned out, s) := by
        simp only [scanStep, hrun, ok_bind, pure_eq_ok]
      have hstep' : scanStep rounds t s' (.scan startKey scanCount) = .ok (.scanned out, s') := by
        simp only [scanStep, hrun', ok_bind, pure_eq_ok]
      simp only [hstep] at hrest
      have hroom' : Alike (2 * ops.length + n) tail tail' (hollowAfter hollow s s) s s' M :=
        ⟨h.rep.mono (Nat.le_add_right _ 2), h.rep'.mono (Nat.le_add_right _ 2), h.twins, h.copies.after⟩
      exact hdone hstep hstep' (ih hroom' hkeys hnew hfinds hknown (by omega) hrest)

theorem alike_init {pm : P} (hok : Ok (n + 1) pm) (t : Tid) (junkInner junkInner' : Addr → InnerNode)
    (junkLeaf junkLeaf' : Addr → DLeaf) : ∃ s s', init pm t junkInner junkLeaf = .ok s ∧
      init pm t junkInner' junkLeaf' = .ok s' ∧ s.index.length = 1 ∧
      Alike n (junkLeaf 1).next (junkLeaf' 1).next (fun _ => false) s s' fun _ => none := by
  obtain ⟨s, hrun, hrep⟩ := represents_init hok t junkInner junkLeaf
  obtain ⟨s', hrun', hrep'⟩ := represents_init hok t junkInner' junkLeaf'
  obtain ⟨q, pm₁, l, pm₂, halloc, hleaf, hset, rfl⟩ := init_eq_ok.mp hrun
  obtain ⟨q', pm₁', l', pm₂', halloc', hleaf', hset', rfl⟩ := init_eq_ok.mp hrun'
  rw [halloc, Option.some.injEq, Prod.mk.injEq] at halloc'
  obtain ⟨rfl, rfl⟩ := halloc'
  rw [hleaf, Option.some.injEq] at hleaf'
  subst hleaf'
  rw [hset, Option.some.injEq] at hset'
  subst hset'
  -- the first leaf has no slots, and every cell of it is cleared
  have hcopy : LeafCopy false ((junkLeaf 1).first q) ((junkLeaf' 1).first q) := by
    refine ⟨rfl, rfl, rfl, fun i hi _ => ?_⟩
    have hin : 0 ≤ i ∧ i < 0 + MAX_LEAF_KEY := ⟨Nat.zero_le i, (Nat.zero_add _).symm ▸ hi⟩
    simp only [DLeaf.first, fillWords, if_pos hin]
  refine ⟨_, _, hrun, hrun', rfl, hrep, hrep', ⟨⟨rfl, rfl, rfl, fun _ => .none⟩, ?_, ?_⟩, rfl, ?_,
    fun _ htrue => absurd htrue Bool.false_ne_true⟩
  · intro a m hm
    obtain ⟨rfl, rfl⟩ := freshTree_leaf.mp hm
    exact ⟨_, freshTree_leaf.mpr ⟨rfl, rfl⟩, hcopy.use, hcopy.lock, fun i hi => absurd hi (Nat.not_lt_zero i)⟩
  · intro a m' hm'
    obtain ⟨rfl, rfl⟩ := freshTree_leaf.mp hm'
    exact ⟨_, freshTree_leaf.mpr ⟨rfl, rfl⟩⟩
  · intro a m hm
    obtain ⟨rfl, rfl⟩ := freshTree_leaf.mp hm
    exact ⟨_, freshTree_leaf.mpr ⟨rfl, rfl⟩, hcopy⟩

/-- Runs of insertions of distinct keys, searches for them and scans give the same answers whatever
`malloc` hands out, as long as every scan meets the condition. -/
theorem same_on_fresh_memory (pm : P) (t : Tid) (junkInner junkInner' : Addr → InnerNode)
    (junkLeaf junkLeaf' : Addr → DLeaf) (rounds : Nat) (ops : List ScanOp)
    (hroom : Ok (2 * ops.length + 1) pm) (hkeys : (scanKeys ops).Nodup)
    (hfinds : findsInserted [] ops = true) (hrounds : ops.length < rounds) {s₀ : TreeState P}
    (hinit : init pm t junkInner junkLeaf = .ok s₀)
    (hwritten : scansWritten rounds t (fun _ => false) s₀ ops = true) :
    ∃ s₀' answers s s', init pm t junkInner' junkLeaf' = .ok s₀' ∧
      scanRun rounds t s₀ ops = .ok (answers, s) ∧ scanRun rounds t s₀' ops = .ok (answers, s') := by
  obtain ⟨s₁, s₁', hinit₁, hinit', hlen, halike⟩ :=
    alike_init (n := 2 * ops.length) hroom t junkInner junkInner' junkLeaf junkLeaf'
  rw [hinit₁, Except.ok.injEq] at hinit
  subst hinit
  obtain ⟨answers, s, s', hrun, hrun'⟩ := Alike.run (n := 0) rounds t ops halike hkeys (fun _ _ => rfl) hfinds
    (fun k hk => absurd hk List.not_mem_nil) (by omega) hwritten
  exact ⟨s₁', answers, s, s', hinit', hrun, hrun'⟩

/-- Other memory: leaves come with words in their slots and a `next` that leads nowhere. -/
def dirtyLeaf : Addr → DLeaf := fun _ => ⟨fun _ => AdaptiveSlot.ofVal 5, 1, 9, 9, 999, 9⟩

def scansLeft : List ScanOp :=
  ((List.range 31).map fun i => .call (.insert (BitVec.ofNat 64 (i + 1)) 7 8)) ++
    [.call (.find 3), .scan 1 15, .scan 20 0]

theorem same_on_fresh_memory_left : ∃ s₀ s₀' answers s s',
    init (IdealPm.roomy 80) 0 zeroInner zeroLeaf = .ok s₀ ∧
      init (IdealPm.roomy 80) 0 zeroInner dirtyLeaf = .ok s₀' ∧
      scanRun 40 0 s₀ scansLeft = .ok (answers, s) ∧ scanRun 40 0 s₀' scansLeft = .ok (answers, s') := by
  have h : (do
      let s₀ ← init (IdealPm.roomy 80) 0 zeroInner zeroLeaf
      return scansWritten 40 0 (fun _ => false) s₀ scansLeft) = .ok true := by
    decide +kernel
  simp only [bind_eq_ok, pure_eq_ok, Except.ok.injEq] at h
  obtain ⟨s₀, hinit, hwritten⟩ := h
  obtain ⟨s₀', answers, s, s', hinit', hrun, hrun'⟩ := same_on_fresh_memory (IdealPm.roomy 80) 0 zeroInner
    zeroInner zeroLeaf dirtyLeaf 40 scansLeft (IdealPm.roomy_lawful (by decide +kernel) (by decide))
    (by decide +kernel) (by decide +kernel) (by decide) hinit hwritten
  exact ⟨s₀, s₀', answers, s, s', hinit, hinit', hrun, hrun'⟩

/-- Insertions downwards: the last one splits the root leaf and goes to the left half. -/
def scanRight : List ScanOp :=
  ((List.range 31).map fun i => .call (.insert (BitVec.ofNat 64 (31 - i)) 7 8)) ++ [.scan 30 1]

/-- A scan that goes past the last leaf follows its `next`; a scan of a right half to which nothing has
been added takes the word of a cell that was never written. -/
theorem scan_reads_junk : ∃ s₀ s₀', init (IdealPm.roomy 80) 0 zeroInner zeroLeaf = .ok s₀ ∧
    init (IdealPm.roomy 80) 0 zeroInner dirtyLeaf = .ok s₀' ∧
    (∃ x, scanRun 40 0 s₀ [.call (.insert 1 7 8), .scan 1 5] = .ok x ∧
      ∀ x', scanRun 40 0 s₀' [.call (.insert 1 7 8), .scan 1 5] ≠ .ok x') ∧
    ∃ answers answers' s s', scanRun 40 0 s₀ scanRight = .ok (answers, s) ∧
      scanRun 40 0 s₀' scanRight = .ok (answers', s') ∧ answers' ≠ answers := by
  have h : (do
      let s₀ ← init (IdealPm.roomy 80) 0 zeroInner zeroLeaf
      let s₀' ← init (IdealPm.roomy 80) 0 zeroInner dirtyLeaf
      let x ← scanRun 40 0 s₀ [.call (.insert 1 7 8), .scan 1 5]
      let (answers, _) ← scanRun 40 0 s₀ scanRight
      let (answers', _) ← scanRun 40 0 s₀' scanRight
      return ((scanRun 40 0 s₀' [.call (.insert 1 7 8), .scan 1 5]).toOption.isNone,
        decide (answers' ≠ answers))) = .ok (true, true) := by
    decide +kernel
  simp only [bind_eq_ok, pure_eq_ok, Except.ok.injEq, Prod.mk.injEq, decide_eq_true_eq] at h
  obtain ⟨s₀, hinit, s₀', hinit', x, hx, ⟨answers, s⟩, hrun, ⟨answers', s'⟩, hrun', hnone, hne⟩ := h
  refine ⟨s₀, s₀', hinit, hinit', ⟨x, hx, fun x' hx' => ?_⟩, answers, answers', s, s', hrun, hrun', hne⟩
  rw [hx'] at hnone
  cases hnone

end ZBTree
