import Mathlib.Data.Fintype.Card
import Mathlib.Order.WellFounded
import ZBTree.SameUpper
import ZBTree.Sequential

/-!
# The same insertion in two trees

Two trees with the same inner nodes whose leaves have the same keys in the same slots take an
insertion alike: both find the key, both have room, or both split the leaf in the same order. The
values, the inline pairs and the places of the records may differ.
-/

namespace ZBTree

open RangeIndex MultiwayTree Pmem LawfulPmem

variable {P : Type} [Pmem P]

/-! ### Leaves with the same keys -/

/-- The same keys in the same slots. -/
structure LeafTwin (p : P) (m : DLeaf) (p' : P) (m' : DLeaf) : Prop where
  use : m'.maxUse = m.maxUse
  lock : m'.tempInsert = m.tempInsert
  key : ∀ i, i < m.maxUse → logKey p' (m'.ptr i) = logKey p (m.ptr i)

section LeafTwin

variable {p p' p₁ p₁' : P} {m m' : DLeaf} {k : Key} {i : Nat}

theorem LeafTwin.symm (h : LeafTwin p m p' m') : LeafTwin p' m' p m :=
  ⟨h.use.symm, h.lock.symm, fun i hi => (h.key i (h.use ▸ hi)).symm⟩

theorem LeafTwin.hasKey_iff (h : LeafTwin p m p' m') : HasKey p' m' k i ↔ HasKey p m k i := by
  unfold HasKey
  rw [h.use]
  exact and_congr_right fun hi => by rw [h.key i hi]

theorem LeafTwin.congr (h : LeafTwin p m p' m') (hsame : SameSlots p p₁ m) (hsame' : SameSlots p' p₁' m') :
    LeafTwin p₁ m p₁' m' := by
  refine ⟨h.use, h.lock, fun i hi => ?_⟩
  rw [(hsame i hi).1, (hsame' i (h.use ▸ hi)).1, h.key i hi]

theorem LeafTwin.view {n n' : DLeaf} (h : LeafTwin p m p' m') (hview : SameView m n)
    (hview' : SameView m' n') (hlock : n'.tempInsert = n.tempInsert) : LeafTwin p n p' n' := by
  refine ⟨?_, hlock, fun i hi => ?_⟩
  · rw [hview'.use, hview.use, h.use]
  · rw [hview.use] at hi
    rw [hview.ptr hi, hview'.ptr (h.use ▸ hi)]
    exact h.key i hi

theorem LeafTwin.push (h : LeafTwin p m p' m') {addr addr' : Addr} (hlt : addr < 2 ^ 48)
    (hlt' : addr' < 2 ^ 48) (hkey : logKey p addr = some k) (hkey' : logKey p' addr' = some k) :
    LeafTwin p (m.push k addr) p' (m'.push k addr') := by
  refine ⟨congrArg (· + 1) h.use, rfl, fun i hi => ?_⟩
  have hi' : i < m.maxUse + 1 := hi
  rcases Nat.lt_or_eq_of_le (Nat.le_of_lt_succ hi') with hlt₀ | rfl
  · rw [m.push_ptr_old k addr hlt₀, m'.push_ptr_old k addr' (h.use ▸ hlt₀)]
    exact h.key i hlt₀
  · rw [m.push_ptr_new k hlt, hkey, ← h.use, m'.push_ptr_new k hlt', hkey']

end LeafTwin

/-! ### The order of a split -/

section Order

variable [LawfulPmem P] {cuts cuts' : Cuts} {s s' : TreeState P} {L L' : Addr} {m m' : DLeaf}
  {σ σ' : Equiv.Perm Nat} {buf buf' : Nat → NodeEntry}

omit [LawfulPmem P] in
theorem SplitOf.source_lt (hsp : SplitOf s L m σ buf) {i : Nat} (hi : i < MAX_LEAF_KEY) :
    σ i < MAX_LEAF_KEY := hsp.full ▸ (hsp.hasKey hi).1

/-- Leaves with the same keys in the same slots are sorted by the same permutation. -/
theorem SplitOf.order_eq (hsp : SplitOf s L m σ buf) (h : Data cuts s) (hsp' : SplitOf s' L' m' σ' buf')
    (h' : Data cuts' s') (hkeys : ∀ i, i < MAX_LEAF_KEY → (buf' i).oneKey = (buf i).oneKey) : σ' = σ := by
  have hmem : ∀ {τ : Equiv.Perm Nat}, Arrays.PermOn 0 (MAX_LEAF_KEY - 1) τ →
      ∀ j, j < MAX_LEAF_KEY → ∃ i : Fin MAX_LEAF_KEY, τ i = j := by
    intro τ hτ j hj
    obtain ⟨i, ⟨-, hi⟩, heq⟩ := hτ.exists_preimage ⟨Nat.zero_le j, Nat.le_sub_one_of_lt hj⟩
    exact ⟨⟨i, Nat.lt_of_le_sub_one (by decide) hi⟩, heq⟩
  -- both orders list the same keys upwards
  have hlist : (fun i : Fin MAX_LEAF_KEY => (buf (σ' i)).oneKey) =
      fun i : Fin MAX_LEAF_KEY => (buf (σ i)).oneKey := by
    refine (StrictMono.range_inj ?_ ?_).mp ?_
    · intro i j hij
      dsimp only
      rw [← hkeys _ (hsp'.source_lt i.isLt), ← hkeys _ (hsp'.source_lt j.isLt)]
      exact hsp'.lt h' hij j.isLt
    · exact fun i j hij => hsp.lt h hij j.isLt
    · ext k
      constructor
      · rintro ⟨i, rfl⟩
        obtain ⟨j, hj⟩ := hmem hsp.perm (σ' i) (hsp'.source_lt i.isLt)
        exact ⟨j, by simp only [hj]⟩
      · rintro ⟨i, rfl⟩
        obtain ⟨j, hj⟩ := hmem hsp'.perm (σ i) (hsp.source_lt i.isLt)
        exact ⟨j, by simp only [hj]⟩
  apply Equiv.ext
  intro i
  by_cases hi : i < MAX_LEAF_KEY
  · have hkey : (buf (σ' i)).oneKey = (buf (σ i)).oneKey := congrFun hlist ⟨i, hi⟩
    have hslot' : HasKey s.pm m (buf (σ i)).oneKey (σ' i) :=
      ⟨by rw [hsp.full]; exact hsp'.source_lt hi, hkey ▸ (hsp.entries _ (hsp'.source_lt hi)).1⟩
    exact (h.slots L m hsp.leaf).distinct _ _ _ hslot' (hsp.hasKey hi)
  · have hout : MAX_LEAF_KEY - 1 < i := lt_of_lt_of_le (by decide) (not_lt.mp hi)
    rw [hsp.perm i (Or.inr hout), hsp'.perm i (Or.inr hout)]

end Order

/-! ### A split and its record -/

/-- The left half of the leaf `m` once it is released. -/
def leftDone (s : TreeState P) (m : DLeaf) (σ : Equiv.Perm Nat) (buf : Nat → NodeEntry) : DLeaf :=
  { ({ m with altPtr := s.brk, tempInsert := m.tempInsert + 1 } : DLeaf).leftHalf (m.fingerBuffer ∘ σ)
      (buf ∘ σ) (s.brk + 1) with
    tempInsert := 0
    altPtr := m.altPtr }

omit [Pmem P] in
theorem isHalf_leftDone (s : TreeState P) (m : DLeaf) (σ : Equiv.Perm Nat) (buf : Nat → NodeEntry) :
    IsHalf m σ buf 0 (leftDone s m σ buf) :=
  ⟨by simp only [leftDone, DLeaf.leftHalf], m.fingerPrint, by simp only [leftDone, DLeaf.leftHalf]⟩

/-- The right half of the leaf `m`. -/
def rightDone (s : TreeState P) (m : DLeaf) (σ : Equiv.Perm Nat) (buf : Nat → NodeEntry)
    (newLeaf : Addr) : DLeaf :=
  ({ m with altPtr := s.brk, tempInsert := m.tempInsert + 1 } : DLeaf).rightHalf
    (s.junkLeaf (s.brk + 1)) (m.fingerBuffer ∘ σ) (buf ∘ σ) newLeaf

section Done

variable (s : TreeState P) (m : DLeaf) (σ : Equiv.Perm Nat) (buf : Nat → NodeEntry) (q : Addr)

omit [Pmem P]

@[simp] theorem leftDone_maxUse : (leftDone s m σ buf).maxUse = LEFT_KEY := by
  simp only [leftDone, DLeaf.leftHalf]

@[simp] theorem leftDone_tempInsert : (leftDone s m σ buf).tempInsert = 0 := by
  simp only [leftDone]

@[simp] theorem leftDone_altPtr : (leftDone s m σ buf).altPtr = m.altPtr := by
  simp only [leftDone]

theorem leftDone_fingerPrint : (leftDone s m σ buf).fingerPrint =
    fillHalf 0 m.fingerPrint (m.fingerBuffer ∘ σ) (buf ∘ σ) := by
  simp only [leftDone, DLeaf.leftHalf]

@[simp] theorem rightDone_maxUse : (rightDone s m σ buf q).maxUse = LEFT_KEY := by
  simp only [rightDone, DLeaf.rightHalf, RIGHT_KEY, LEFT_KEY]

@[simp] theorem rightDone_tempInsert : (rightDone s m σ buf q).tempInsert = 0 := by
  simp only [rightDone, DLeaf.rightHalf]

@[simp] theorem rightDone_altPtr : (rightDone s m σ buf q).altPtr = q := by
  simp only [rightDone, DLeaf.rightHalf]

theorem rightDone_fingerPrint : (rightDone s m σ buf q).fingerPrint =
    fillHalf LEFT_KEY (s.junkLeaf (s.brk + 1)).fingerPrint (m.fingerBuffer ∘ σ) (buf ∘ σ) := by
  simp only [rightDone, DLeaf.rightHalf]

end Done

/-- How the held leaf `L` was split, and the separator recorded on the way to `k`. -/
structure SplitRun [LawfulPmem P] (s : TreeState P) (t : Tid) (k : Key) (L : Addr) (m : DLeaf)
    (σ : Equiv.Perm Nat) (buf : Nat → NodeEntry) (q : Addr) (pm : P) (s₁ : TreeState P) : Prop where
  order : SplitOf s L m σ buf
  memory : ∃ pm₁, nAllocate s.pm t = some (q, pm₁) ∧
    linkPleaf pm₁ m.altPtr q ((buf ∘ σ) (LEFT_KEY - 1)).oneKey ((buf ∘ σ) (MAX_LEAF_KEY - 1)).oneKey =
      .ok pm
  records : SameRecs (recs s.pm) s.pm pm
  upper : Upper (afterSplit s L m σ buf q pm)
  recorded : recordSplit (afterSplit s L m σ buf q pm) k (buf (σ SPLIT_POS)).oneKey L (s.brk + 1) = .ok s₁

section SplitRun

variable [LawfulPmem P] {cuts : Cuts} {tail L q : Addr} {s s₁ : TreeState P} {m : DLeaf} {k : Key} {t : Tid}
  {σ : Equiv.Perm Nat} {buf : Nat → NodeEntry} {pm : P}

theorem SplitRun.result (h : SplitRun s t k L m σ buf q pm s₁) (hL : L < s.brk) :
    s₁.pm = pm ∧ (s₁.setLeaf L (leftDone s m σ buf)).dleafHeap =
      Function.update (Function.update s.dleafHeap (s.brk + 1) (some (rightDone s m σ buf q))) L
        (some (leftDone s m σ buf)) := by
  have hinner := recordSplit_inner h.recorded
  obtain ⟨-, hright, hoff⟩ := splitState_heap m (m.fingerBuffer ∘ σ) (buf ∘ σ) q pm hL
  refine ⟨hinner.pm, ?_⟩
  funext b
  simp only [TreeState.setLeaf, hinner.leaves]
  by_cases hb : b = L
  · rw [hb, Function.update_self, Function.update_self]
  · rw [Function.update_of_ne hb, Function.update_of_ne hb]
    by_cases hb' : b = s.brk + 1
    · rw [hb', Function.update_self]
      exact hright
    · rw [Function.update_of_ne hb']
      exact hoff b hb hb'

/-- A held full leaf is split, and the split recorded. -/
theorem split_run (h : Inv Cuts.empty tail s) {n : Nat} (hok : Ok (n + 1) s.pm) (t : Tid)
    {path : List Cursor} (hfind : findInsert s k = .ok (path, L)) (hL : L ∈ labels s.index)
    (hm : s.dleafHeap L = some m) (hheld : m.tempInsert = 1) (hfull : m.maxUse = MAX_LEAF_KEY) :
    ∃ σ buf q pm s₁, SplitRun s t k L m σ buf q pm s₁ ∧
      splitFull s t L = .ok (s.brk + 1, (buf (σ SPLIT_POS)).oneKey, m.altPtr, afterSplit s L m σ buf q pm) ∧
      installSeparator (afterSplit s L m σ buf q pm) k (buf (σ SPLIT_POS)).oneKey L (s.brk + 1) m.altPtr =
        .ok (s₁.setLeaf L (leftDone s m σ buf)) ∧
      SplitDone tail s (s₁.setLeaf L (leftDone s m σ buf)) L n := by
  obtain ⟨σ, buf, q, pm₁, pm, hsp, hbuf, hsort, halloc, hlink, hrecs, -, hinv, -⟩ :=
    h.split_parts hok t hm hL rfl hheld hfull
  have hsplit : splitFull s t L =
      .ok (s.brk + 1, (buf (σ SPLIT_POS)).oneKey, m.altPtr, afterSplit s L m σ buf q pm) :=
    splitFull_eq_ok.mpr ⟨m, buf, buf ∘ σ, m.fingerBuffer ∘ σ, q, pm₁, pm, hm, hbuf, hsort, halloc,
      hlink, rfl⟩
  obtain ⟨sk, s₂, s₃, hsplit', hinst, hdone⟩ := split_install h hok t hfind hL hm hheld hfull
  rw [hsplit, Except.ok.injEq, Prod.mk.injEq, Prod.mk.injEq, Prod.mk.injEq] at hsplit'
  obtain ⟨-, rfl, -, rfl⟩ := hsplit'
  have hLlt := (h.skel.leaf_lt L (mem_leaves_of_index hL)).2
  obtain ⟨hleft, -⟩ := splitState_heap m (m.fingerBuffer ∘ σ) (buf ∘ σ) q pm hLlt
  -- what `installSeparator` does is the record and the release
  have hinst' := hinst
  simp only [installSeparator, bind_eq_ok, deref_eq_ok] at hinst'
  obtain ⟨s₁, hrecord, m₂, hm₂, heq⟩ := hinst'
  rw [(recordSplit_inner hrecord).leaves] at hm₂
  obtain rfl := Option.some.inj (hm₂.symm.trans hleft)
  cases heq
  exact ⟨σ, buf, q, pm, s₁, ⟨hsp, ⟨pm₁, halloc, hlink⟩, hrecs, hinv.skel.upper, hrecord⟩, hsplit, hinst,
    hdone⟩

end SplitRun

/-! ### Two trees

The trees have grown by the same calls, but their leaves may differ in the order of pairs and in access bits. `Twins`
relates them leaf by leaf; the inner nodes are the same. -/

/-- The same inner nodes, and the same keys in the same slots of the same leaves. -/
structure Twins (s s' : TreeState P) : Prop where
  upper : SameUpper s s'
  leaf : ∀ a m, s.dleafHeap a = some m → ∃ m', s'.dleafHeap a = some m' ∧ LeafTwin s.pm m s'.pm m'
  same : ∀ a m', s'.dleafHeap a = some m' → ∃ m, s.dleafHeap a = some m

section Twins

variable {s s' : TreeState P} {a L : Addr} {m m' : DLeaf} {k : Key} {v : Word} {i : Nat}

theorem Twins.symm (h : Twins s s') : Twins s' s where
  upper := h.upper.symm
  leaf a m' hm' := by
    obtain ⟨m, hm⟩ := h.same a m' hm'
    obtain ⟨m'', hm'', htwin⟩ := h.leaf a m hm
    rw [hm', Option.some.injEq] at hm''
    exact ⟨m, hm, hm'' ▸ htwin.symm⟩
  same a m hm := by
    obtain ⟨m', hm', -⟩ := h.leaf a m hm
    exact ⟨m', hm'⟩

theorem Twins.absent (h : Twins s s') (hno : Absent s k) : Absent s' k := by
  intro a m' i hm' hi
  obtain ⟨m, hm⟩ := h.same a m' hm'
  obtain ⟨m'', hm'', htwin⟩ := h.leaf a m hm
  rw [hm', Option.some.injEq] at hm''
  subst hm''
  exact hno a m i hm (htwin.hasKey_iff.mp hi)

/-- Writing the leaf `L` in both trees, with other memories. -/
theorem Twins.write (h : Twins s s') {u u' : TreeState P} {n n' : DLeaf} (hupper : SameUpper u u')
    (hheap : u.dleafHeap = Function.update s.dleafHeap L (some n))
    (hheap' : u'.dleafHeap = Function.update s'.dleafHeap L (some n'))
    (hsame : ∀ a m, s.dleafHeap a = some m → SameSlots s.pm u.pm m)
    (hsame' : ∀ a m, s'.dleafHeap a = some m → SameSlots s'.pm u'.pm m)
    (htwin : LeafTwin u.pm n u'.pm n') : Twins u u' := by
  refine ⟨hupper, fun a m hm => ?_, fun a m hm => ?_⟩
  · rw [hheap] at hm
    rw [hheap']
    by_cases ha : a = L
    · rw [ha, Function.update_self, Option.some.injEq] at hm
      rw [ha, Function.update_self]
      exact ⟨n', rfl, hm ▸ htwin⟩
    · rw [Function.update_of_ne ha] at hm ⊢
      obtain ⟨m', hm', htwin'⟩ := h.leaf a m hm
      exact ⟨m', hm', htwin'.congr (hsame a m hm) (hsame' a m' hm')⟩
  · rw [hheap'] at hm
    rw [hheap]
    by_cases ha : a = L
    · rw [ha, Function.update_self]
      exact ⟨n, rfl⟩
    · rw [Function.update_of_ne ha] at hm ⊢
      exact h.same a m hm

theorem Twins.touch (h : Twins s s') (hm : s'.dleafHeap a = some m) (hi : i < m.maxUse) :
    Twins s (s'.setLeaf a (m.touch i)) := by
  obtain ⟨m₀, hm₀, htwin⟩ := h.symm.leaf a m hm
  have hheap : s.dleafHeap = Function.update s.dleafHeap a (some m₀) := by
    rw [← hm₀, Function.update_eq_self]
  refine h.write (h.upper.congr rfl rfl rfl rfl rfl rfl h.upper.brk) hheap rfl
    (fun _ _ _ _ _ => ⟨rfl, rfl⟩) (fun _ _ _ _ _ => ⟨rfl, rfl⟩) ?_
  refine htwin.symm.view (SameView.of_slots rfl rfl) (sameView_touch m hi) ?_
  rw [htwin.lock]
  unfold DLeaf.touch
  split_ifs <;> rfl

end Twins

/-! ### The insertion -/

variable [LawfulPmem P]

/-- How the same call of `insert` changes both trees. -/
inductive InsertPair (t : Tid) (k : Key) (v : Word) (len : BitVec 32) :
    TreeState P → TreeState P → TreeState P → TreeState P → Prop
  | present {s s' : TreeState P} {L : Addr} {m m' : DLeaf} (hm : s.dleafHeap L = some m)
      (hm' : s'.dleafHeap L = some m') : InsertPair t k v len s s'
        (s.setLeaf L { m with tempInsert := 1 }) (s'.setLeaf L { m' with tempInsert := 1 })
  | room {s s' : TreeState P} {L addr addr' : Addr} {m m' : DLeaf} {pm pm' : P}
      (hm : s.dleafHeap L = some m) (hm' : s'.dleafHeap L = some m') (hroom : m.maxUse < MAX_LEAF_KEY)
      (happ : appendOne s.pm t k v m.altPtr LOG_INSERT len = some (addr, pm))
      (happ' : appendOne s'.pm t k v m'.altPtr LOG_INSERT len = some (addr', pm')) :
      InsertPair t k v len s s' (({ s with pm := pm } : TreeState P).setLeaf L (m.push k addr))
        (({ s' with pm := pm' } : TreeState P).setLeaf L (m'.push k addr'))
  | full {s s' l l' s₁ s₁' u u' : TreeState P} {L q q' : Addr} {m m' : DLeaf} {pm pm' : P}
      {σ : Equiv.Perm Nat} {buf buf' : Nat → NodeEntry} (hm : s.dleafHeap L = some m)
      (hm' : s'.dleafHeap L = some m') (hl : l = s.setLeaf L { m with tempInsert := 1 })
      (hl' : l' = s'.setLeaf L { m' with tempInsert := 1 })
      (hlt : ∀ a n, l.dleafHeap a = some n → a < l.brk) (hbrk : l'.brk = l.brk)
      (hrun : SplitRun l t k L { m with tempInsert := 1 } σ buf q pm s₁)
      (hrun' : SplitRun l' t k L { m' with tempInsert := 1 } σ buf' q' pm' s₁')
      (hkeys : ∀ i, i < MAX_LEAF_KEY → (buf' i).oneKey = (buf i).oneKey)
      (hrest : InsertPair t k v len
        (s₁.setLeaf L (leftDone l { m with tempInsert := 1 } σ buf))
        (s₁'.setLeaf L (leftDone l' { m' with tempInsert := 1 } σ buf')) u u') :
      InsertPair t k v len s s' u u'

section Insert

variable {tail tail' : Addr} {s s' u : TreeState P} {L : Addr} {m m' : DLeaf} {k : Key} {v : Word}
  {len : BitVec 32} {t : Tid} {b : Bool} {n : Nat}

theorem SplitRun.half {l l' s₁ s₁' : TreeState P} {pm pm' : P} {q q' : Addr} {σ : Equiv.Perm Nat}
    {buf buf' : Nat → NodeEntry} (hrun : SplitRun l t k L m σ buf q pm s₁)
    (hrun' : SplitRun l' t k L m' σ buf' q' pm' s₁') (hinv : Inv Cuts.empty tail l)
    (hinv' : Inv Cuts.empty tail' l') (htwin : LeafTwin l.pm m l'.pm m') {off : Nat}
    (hoff : off ≤ LEFT_KEY) {half half' : DLeaf} (hh : IsHalf m σ buf off half)
    (hh' : IsHalf m' σ buf' off half') (hlock : half'.tempInsert = half.tempInsert) :
    LeafTwin pm half pm' half' := by
  refine ⟨hh'.use.trans hh.use.symm, hlock, fun i hi => ?_⟩
  rw [hh.use] at hi
  have hsrc : i + off < MAX_LEAF_KEY := by
    simp only [LEFT_KEY, MAX_LEAF_KEY] at hi hoff ⊢
    omega
  have hslot : σ (i + off) < m.maxUse := hrun.order.full ▸ hrun.order.source_lt hsrc
  have hslot' : σ (i + off) < m'.maxUse := htwin.use ▸ hslot
  rw [hh.ptr hi, hh'.ptr hi,
    (hrun.records _ (hinv.data.recs L m _ hrun.order.leaf hslot)).1,
    (hrun'.records _ (hinv'.data.recs L m' _ hrun'.order.leaf hslot')).1]
  exact htwin.key _ hslot

/-- The two trees after a split. -/
theorem Twins.split {l l' s₁ s₁' : TreeState P} {pm pm' : P} {q q' : Addr} {σ : Equiv.Perm Nat}
    {buf buf' : Nat → NodeEntry} (h : Twins l l') (hinv : Inv Cuts.empty tail l)
    (hinv' : Inv Cuts.empty tail' l') (hL : L ∈ labels l.index)
    (hrun : SplitRun l t k L m σ buf q pm s₁) (hrun' : SplitRun l' t k L m' σ buf' q' pm' s₁')
    (hkeys : ∀ i, i < MAX_LEAF_KEY → (buf' i).oneKey = (buf i).oneKey) :
    Twins (s₁.setLeaf L (leftDone l m σ buf)) (s₁'.setLeaf L (leftDone l' m' σ buf')) := by
  have hLlt : L < l.brk := (hinv.skel.leaf_lt L (mem_leaves_of_index hL)).2
  have hm := hrun.order.leaf
  have hm' := hrun'.order.leaf
  obtain ⟨m'', hm'', htwin⟩ := h.leaf L m hm
  rw [hm', Option.some.injEq] at hm''
  subst hm''
  obtain ⟨hpm, hheap⟩ := hrun.result hLlt
  obtain ⟨hpm', hheap'⟩ := hrun'.result (h.upper.brk ▸ hLlt)
  -- the separator is the same, so the inner nodes stay the same
  have hupper₂ : SameUpper (afterSplit l L m σ buf q pm) (afterSplit l' L m' σ buf' q' pm') := by
    refine h.upper.congr rfl rfl rfl rfl rfl rfl ?_
    show l'.brk + 2 = l.brk + 2
    rw [h.upper.brk]
  -- the keys agree, so the separator does
  have hsep : (buf' (σ SPLIT_POS)).oneKey = (buf (σ SPLIT_POS)).oneKey :=
    hkeys _ (hrun.order.source_lt (by decide))
  have hrecord' := hrun'.recorded
  rw [hsep, h.upper.brk] at hrecord'
  obtain ⟨s₂, hrecord₂, hupper₁⟩ := hupper₂.recordSplit hrun.upper hrun.recorded
  obtain rfl := Except.ok.inj (hrecord₂.symm.trans hrecord')
  have hsame : ∀ a n, l.dleafHeap a = some n → SameSlots l.pm pm n := fun a n hn i hi =>
    hrun.records _ (hinv.data.recs a n i hn hi)
  have hsame' : ∀ a n, l'.dleafHeap a = some n → SameSlots l'.pm pm' n := fun a n hn i hi =>
    hrun'.records _ (hinv'.data.recs a n i hn hi)
  -- first the right halves, then the left ones
  have hright : Twins (({ s₁ with dleafHeap := l.dleafHeap } : TreeState P).setLeaf (l.brk + 1)
      (rightDone l m σ buf q)) (({ s₂ with dleafHeap := l'.dleafHeap } : TreeState P).setLeaf (l.brk + 1)
        (rightDone l' m' σ buf' q')) := by
    refine h.write (hupper₁.congr rfl rfl rfl rfl rfl rfl hupper₁.brk) rfl rfl (fun a n hn => ?_)
      (fun a n hn => ?_) ?_
    · exact hpm.symm ▸ hsame a n hn
    · exact hpm'.symm ▸ hsame' a n hn
    · show LeafTwin s₁.pm _ s₂.pm _
      rw [hpm, hpm']
      exact hrun.half hrun' hinv hinv' htwin (Nat.le_refl _) (isHalf_right m _ σ buf q)
        (isHalf_right m' _ σ buf' q') rfl
  rw [h.upper.brk] at hheap'
  refine hright.write (hupper₁.congr rfl rfl rfl rfl rfl rfl hupper₁.brk) hheap hheap'
    (fun a n hn i hi => ⟨rfl, rfl⟩) (fun a n hn i hi => ⟨rfl, rfl⟩) ?_
  show LeafTwin s₁.pm _ s₂.pm _
  rw [hpm, hpm']
  exact hrun.half hrun' hinv hinv' htwin (Nat.zero_le _) (isHalf_leftDone l m σ buf)
    (isHalf_leftDone l' m' σ buf') rfl

theorem Twins.reaches (h : Twins s s') (hinv : Inv Cuts.empty tail s) (hinv' : Inv Cuts.empty tail' s')
    (k : Key) : ∃ path L m m', findInsert s k = .ok (path, L) ∧ findInsert s' k = .ok (path, L) ∧
      Routes s.index k L ∧ Routes s'.index k L ∧ s.dleafHeap L = some m ∧ s'.dleafHeap L = some m' ∧
      LeafTwin s.pm m s'.pm m' := by
  obtain ⟨path, L, m, hfind, -, hroute, hm⟩ := hinv.reaches k
  have hfind' := h.upper.findInsert hfind
  obtain ⟨path', L', m₀, hfind₀, -, hroute', -⟩ := hinv'.reaches k
  rw [hfind', Except.ok.injEq, Prod.mk.injEq] at hfind₀
  obtain ⟨-, rfl⟩ := hfind₀
  obtain ⟨m', hm', htwin⟩ := h.leaf L m hm
  exact ⟨path, L, m, m', hfind, hfind', hroute, hroute', hm, hm', htwin⟩

theorem Twins.insert_room (h : Twins s s') (hinv : Inv Cuts.empty tail s)
    (hinv' : Inv Cuts.empty tail' s') (hok : Ok (n + 1) s.pm) (hok' : Ok (n + 1) s'.pm) (t : Tid) (v : Word)
    (len : BitVec 32) {path : List Cursor} (hfind : findInsert s k = .ok (path, L))
    (hm : s.dleafHeap L = some m) (hfree : m.tempInsert = 0) (hroom : m.maxUse < MAX_LEAF_KEY)
    (hnew : Absent s k) (fuel : Nat) : ∃ u u', insert (fuel + 1) s t k v len = .ok (true, u) ∧
      insert (fuel + 1) s' t k v len = .ok (true, u') ∧ InsertPair t k v len s s' u u' ∧ Twins u u' := by
  obtain ⟨path₀, L₀, m₀, m', hfind₀, hfind', hroute, hroute', hm₀, hm', htwin⟩ := h.reaches hinv hinv' k
  rw [hfind, Except.ok.injEq, Prod.mk.injEq] at hfind₀
  obtain ⟨rfl, rfl⟩ := hfind₀
  rw [hm, Option.some.injEq] at hm₀
  subst hm₀
  have hnew' := h.absent hnew
  have hroom' : m'.maxUse < MAX_LEAF_KEY := htwin.use ▸ hroom
  obtain ⟨addr, pm, happ, hlt, hkey, hrecs, -⟩ :=
    hinv.append hok t v len hm hroute rfl hroom fun i => hnew L m i hm
  obtain ⟨addr', pm', happ', hlt', hkey', hrecs', -⟩ :=
    hinv'.append hok' t v len hm' hroute' rfl hroom' fun i => hnew' L m' i hm'
  have hsame : ∀ a n, s.dleafHeap a = some n → SameSlots s.pm pm n := fun a n hn i hi =>
    hrecs _ (hinv.data.recs a n i hn hi)
  have hsame' : ∀ a n, s'.dleafHeap a = some n → SameSlots s'.pm pm' n := fun a n hn i hi =>
    hrecs' _ (hinv'.data.recs a n i hn hi)
  refine ⟨_, _, insert_of_room hfind hm hfree (duplicate_locked hinv hm hnew) hroom happ fuel,
    insert_of_room hfind' hm' (htwin.lock.trans hfree) (duplicate_locked hinv' hm' hnew') hroom' happ' fuel,
    .room hm hm' hroom happ happ', ?_⟩
  refine h.write (h.upper.congr rfl rfl rfl rfl rfl rfl h.upper.brk) rfl rfl hsame hsame' ?_
  exact (htwin.congr (hsame L m hm) (hsame' L m' hm')).push hlt hlt' hkey hkey'

/-- The round that splits the leaf, in both trees. -/
theorem Twins.insert_full (h : Twins s s') (hinv : Inv Cuts.empty tail s)
    (hinv' : Inv Cuts.empty tail' s') (hok : Ok (n + 1) s.pm) (hok' : Ok (n + 1) s'.pm) (t : Tid) (v : Word)
    (len : BitVec 32) {path : List Cursor} (hfind : findInsert s k = .ok (path, L))
    (hm : s.dleafHeap L = some m) (hfree : m.tempInsert = 0) (hfull : ¬ m.maxUse < MAX_LEAF_KEY)
    (hnew : Absent s k) : ∃ w w', (∀ fuel, insert (fuel + 1) s t k v len = insert fuel w t k v len) ∧
      (∀ fuel, insert (fuel + 1) s' t k v len = insert fuel w' t k v len) ∧
      (∀ u u', InsertPair t k v len w w' u u' → InsertPair t k v len s s' u u') ∧ Twins w w' ∧
      SplitDone tail (s.setLeaf L { m with tempInsert := 1 }) w L n ∧ Inv Cuts.empty tail' w' ∧
      Ok n w'.pm := by
  obtain ⟨path₀, L₀, m₀, m', hfind₀, hfind', hroute, hroute', hm₀, hm', htwin⟩ := h.reaches hinv hinv' k
  rw [hfind, Except.ok.injEq, Prod.mk.injEq] at hfind₀
  obtain ⟨rfl, rfl⟩ := hfind₀
  rw [hm, Option.some.injEq] at hm₀
  subst hm₀
  have hnew' := h.absent hnew
  have hfull' : ¬ m'.maxUse < MAX_LEAF_KEY := htwin.use ▸ hfull
  have huse : m.maxUse = MAX_LEAF_KEY := Nat.le_antisymm (hinv.skel.leaf L m hm).1 (not_lt.mp hfull)
  have huse' : m'.maxUse = MAX_LEAF_KEY := htwin.use.trans huse
  -- both leaves are taken
  have hlocked := hinv.lock hm rfl
  have hlocked' := hinv'.lock hm' rfl
  have hm₁ : (s.setLeaf L { m with tempInsert := 1 }).dleafHeap L =
      some { m with tempInsert := 1 } := Function.update_self ..
  have hm₁' : (s'.setLeaf L { m' with tempInsert := 1 }).dleafHeap L =
      some { m' with tempInsert := 1 } := Function.update_self ..
  have htwins : Twins (s.setLeaf L { m with tempInsert := 1 }) (s'.setLeaf L { m' with tempInsert := 1 }) :=
    h.write (h.upper.congr rfl rfl rfl rfl rfl rfl h.upper.brk) rfl rfl (fun _ _ _ _ _ => ⟨rfl, rfl⟩)
      (fun _ _ _ _ _ => ⟨rfl, rfl⟩)
      (htwin.view (SameView.of_slots rfl rfl) (SameView.of_slots rfl rfl) rfl)
  have hfind₁ : findInsert (s.setLeaf L { m with tempInsert := 1 }) k = .ok (path, L) :=
    (findInsert_setLeaf ..).trans hfind
  have hfind₁' : findInsert (s'.setLeaf L { m' with tempInsert := 1 }) k = .ok (path, L) :=
    (findInsert_setLeaf ..).trans hfind'
  obtain ⟨σ, buf, q, pm, s₁, hrun, hsplit, hinst, hdone⟩ :=
    split_run hlocked hok t hfind₁ hroute.mem hm₁ rfl huse
  obtain ⟨σ', buf', q', pm', s₁', hrun', hsplit', hinst', hdone'⟩ :=
    split_run hlocked' hok' t hfind₁' hroute'.mem hm₁' rfl huse'
  -- the leaves have the same keys in the same slots, so they are sorted alike
  have hkeys : ∀ i, i < MAX_LEAF_KEY → (buf' i).oneKey = (buf i).oneKey := by
    intro i hi
    have hkey := htwin.key i (huse ▸ hi)
    have hkey₁ : logKey s.pm (m.ptr i) = some (buf i).oneKey := (hrun.order.entries i hi).1
    have hkey₁' : logKey s'.pm (m'.ptr i) = some (buf' i).oneKey := (hrun'.order.entries i hi).1
    rw [hkey₁, hkey₁'] at hkey
    exact Option.some.inj hkey
  obtain rfl := hrun.order.order_eq hlocked.data hrun'.order hlocked'.data hkeys
  have hlt : ∀ a n, (s.setLeaf L { m with tempInsert := 1 }).dleafHeap a = some n → a < s.brk :=
    fun a n hn => (hlocked.skel.leaf_lt a ((hlocked.skel.heap a).mp ⟨n, hn⟩)).2
  exact ⟨_, _, insert_of_full hfind hm hfree (duplicate_locked hinv hm hnew) hfull hsplit hinst,
    insert_of_full hfind' hm' (htwin.lock.trans hfree) (duplicate_locked hinv' hm' hnew') hfull' hsplit'
      hinst',
    fun u u' hrest => .full hm hm' rfl rfl hlt h.upper.brk hrun hrun' hkeys hrest,
    htwins.split hlocked hlocked' hroute.mem hrun hrun' hkeys, hdone, hdone'.inv, hdone'.room⟩

/-- An insertion that returns does the same in both trees. -/
theorem Twins.insert (h : Twins s s') (hinv : Inv Cuts.empty tail s) (hinv' : Inv Cuts.empty tail' s')
    (hok : Ok (n + 2) s.pm) (hok' : Ok (n + 2) s'.pm) {rounds : Nat}
    (hrun : insert rounds s t k v len = .ok (b, u)) : ∃ u', insert rounds s' t k v len = .ok (b, u') ∧
      InsertPair t k v len s s' u u' ∧ Twins u u' := by
  obtain ⟨path, L, m, m', hfind, hfind', -, -, hm, hm', htwin⟩ := h.reaches hinv hinv' k
  have hfree : m.tempInsert = 0 := by
    by_contra hheld
    rw [insert_held hfind hm hheld] at hrun
    cases hrun
  cases rounds with
  | zero => cases hrun
  | succ fuel =>
    by_cases hnew : Absent s k
    · by_cases hroom : m.maxUse < MAX_LEAF_KEY
      · obtain ⟨u₁, u', hrun₁, hrun', hpair, htwins⟩ := h.insert_room (n := n) hinv hinv'
          (ok_mono (Nat.le_succ _) hok) (ok_mono (Nat.le_succ _) hok') t v len hfind hm hfree hroom hnew fuel
        rw [hrun₁, Except.ok.injEq, Prod.mk.injEq] at hrun
        obtain ⟨rfl, rfl⟩ := hrun
        exact ⟨u', hrun', hpair, htwins⟩
      · obtain ⟨w, w', hfirst, hfirst', hpairs, htwins, hdone, hinvw', hokw'⟩ :=
          h.insert_full (n := n + 1) hinv hinv' hok hok' t v len hfind hm hfree hroom hnew
        rw [hfirst] at hrun
        cases fuel with
        | zero => cases hrun
        | succ fuel =>
          -- the leaf that the key leads to now has room
          have hroute := hinv.routes_of_find hfind
          obtain ⟨path₁, L₁, m₁, hfind₁, hm₁, hfree₁, huse₁⟩ := hdone.leads (hinv.lock hm rfl) hroute
          have hroom₁ : m₁.maxUse < MAX_LEAF_KEY := by
            rw [huse₁]
            decide
          obtain ⟨u₁, u', hrun₁, hrun', hpair, htwins'⟩ := htwins.insert_room hdone.inv hinvw' hdone.room
            hokw' t v len hfind₁ hm₁ hfree₁ hroom₁ (hdone.absent hinv hm hnew) fuel
          rw [hrun₁, Except.ok.injEq, Prod.mk.injEq] at hrun
          obtain ⟨rfl, rfl⟩ := hrun
          exact ⟨u', (hfirst' _).trans hrun', hpairs _ _ hpair, htwins'⟩
    · -- the key is there: both leaves stay taken
      obtain ⟨a, n, i, hn, hi⟩ := (present_or_absent s k).resolve_right hnew
      obtain ⟨n', hn', htwin'⟩ := h.leaf a n hn
      have hi' := htwin'.hasKey_iff.mpr hi
      obtain ⟨k₀, w, -, hw⟩ := (hinv.data.slots a n hn).read i hi.1
      obtain ⟨k₀', w', -, hw'⟩ := (hinv'.data.slots a n' hn').read i hi'.1
      rw [insert_dup hinv hfind hm hfree ⟨a, n, hn, i, hi, hw⟩, Except.ok.injEq, Prod.mk.injEq] at hrun
      obtain ⟨rfl, rfl⟩ := hrun
      refine ⟨_, insert_dup hinv' hfind' hm' (htwin.lock.trans hfree) ⟨a, n', hn', i, hi', hw'⟩ t v len fuel,
        .present hm hm', ?_⟩
      exact h.write (h.upper.congr rfl rfl rfl rfl rfl rfl h.upper.brk) rfl rfl (fun _ _ _ _ _ => ⟨rfl, rfl⟩)
        (fun _ _ _ _ _ => ⟨rfl, rfl⟩)
        (htwin.view (SameView.of_slots rfl rfl) (SameView.of_slots rfl rfl) rfl)

end Insert

end ZBTree
