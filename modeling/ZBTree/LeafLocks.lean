import Mathlib.Data.Set.Card
import Mathlib.Order.CompletePartialOrder
import ZBTree.FillBounds
import ZBTree.LiveKeys
import ZBTree.ScanContract

/-!
# The lock word between two calls

Which public operations give `temp_insert` back. All of them do except an insertion that
finds its key: it returns with the leaf still held. The links between the nodes do not
depend on what the records say, so nothing is asked of the persistent memory here.
-/

namespace ZBTree

open RangeIndex MultiwayTree LinkedList Pmem

/-! ### Runs that end -/

/-- Not still going round when the rounds are used up; an access to memory that is not
there ends a run too. -/
def Ends {α : Type} (x : Exec α) : Prop := x ≠ .error .spin

section Ends

variable {α β : Type}

theorem ends_ok (a : α) : Ends (.ok a : Exec α) := by
  intro h
  cases h

theorem ends_deref (o : Option α) : Ends (deref o) := by
  cases o with
  | none =>
    intro h
    cases h
  | some a => exact ends_ok a

theorem Ends.bind {x : Exec α} {f : α → Exec β} (hx : Ends x) (hf : ∀ a, x = .ok a → Ends (f a)) :
    Ends (x >>= f) := by
  cases x with
  | error e =>
    intro h
    cases h
    exact hx rfl
  | ok a => exact hf a rfl

theorem Ends.deref_bind {o : Option α} {f : α → Exec β} (hf : ∀ a, o = some a → Ends (f a)) :
    Ends (deref o >>= f) :=
  (ends_deref o).bind fun a ha => hf a (deref_eq_ok.mp ha)

theorem Ends.map {x : Exec α} (hx : Ends x) (f : α → β) : Ends (f <$> x) := by
  cases x with
  | error e =>
    intro h
    cases h
    exact hx rfl
  | ok a => exact ends_ok (f a)

end Ends

variable {P : Type}

/-! ### The loops that have a bound of their own -/

theorem findInsertFrom_ends (s : TreeState P) (key : Key) (d : Nat) (a : Addr) :
    Ends (findInsertFrom s key d a) := by
  induction d generalizing a with
  | zero => exact ends_ok _
  | succ d ih =>
    unfold findInsertFrom
    apply Ends.deref_bind
    intro nd _
    apply Ends.deref_bind
    rintro ⟨pos, child⟩ _
    exact (ih child).bind fun r _ => ends_ok _

theorem findInsert_ends (s : TreeState P) (key : Key) : Ends (findInsert s key) := by
  unfold findInsert
  split
  · exact ends_ok _
  · exact findInsertFrom_ends s key _ _

theorem descendFrom_ends (s : TreeState P) (key : Key) (d : Nat) (a : Addr) :
    Ends (descendFrom s key d a) := by
  induction d generalizing a with
  | zero => exact ends_ok _
  | succ d ih =>
    unfold descendFrom
    apply Ends.deref_bind
    intro nd _
    apply Ends.deref_bind
    rintro ⟨pos, child⟩ _
    exact ih child

theorem splitInnerLoop_ends (s : TreeState P) (path : List Cursor) (key : Key) (right : Addr) :
    Ends (splitInnerLoop s path key right) := by
  induction path generalizing s key right with
  | nil => exact ends_ok _
  | cons c above ih =>
    unfold splitInnerLoop
    have hlevel : Ends (splitLevel s c key right) := by
      unfold splitLevel
      apply Ends.deref_bind
      intro nd _
      dsimp only
      split <;> exact ends_ok _
    apply hlevel.bind
    rintro ⟨s₁, carry⟩ _
    cases carry with
    | none => exact ends_ok _
    | some up =>
      dsimp only
      split
      · exact ends_ok _
      · exact ih _ _ _

theorem installSeparator_ends (s : TreeState P) (key splitKey : Key) (leaf leaf2 insertLeaf : Addr) :
    Ends (installSeparator s key splitKey leaf leaf2 insertLeaf) := by
  have hrecord : Ends (recordSplit s key splitKey leaf leaf2) := by
    unfold recordSplit
    split
    · exact ends_ok _
    · apply (findInsert_ends s key).bind
      rintro ⟨path, -⟩ _
      exact splitInnerLoop_ends s _ _ _
  unfold installSeparator
  apply hrecord.bind
  intro s₁ _
  exact Ends.deref_bind fun m _ => ends_ok _

section Slots

variable [Pmem P] (p : P) (m : DLeaf) (key : Key)

theorem findRoot_ends (n i : Nat) : Ends (findRoot p m key n i) := by
  induction n generalizing i with
  | zero => exact ends_ok _
  | succ n ih =>
    unfold findRoot
    split
    · apply Ends.deref_bind
      intro k _
      split
      · exact ends_deref _
      · exact ih _
    · exact ih _

theorem findSlots_ends (n i : Nat) : Ends (findSlots p m key n i) := by
  induction n generalizing i with
  | zero => exact ends_ok _
  | succ n ih =>
    unfold findSlots
    dsimp only
    split
    · split
      · split
        · exact ends_ok _
        · exact ih _
      · apply Ends.deref_bind
        intro k _
        split
        · exact Ends.deref_bind fun v _ => ends_ok _
        · exact ih _
    · exact ih _

theorem duplicate_ends (n i : Nat) : Ends (duplicate p m key n i) := by
  induction n generalizing i with
  | zero => exact ends_ok _
  | succ n ih =>
    unfold duplicate
    dsimp only
    split
    · split
      · split
        · exact ends_ok _
        · exact ih _
      · apply Ends.deref_bind
        intro k _
        split
        · exact ends_ok _
        · exact ih _
    · exact ih _

theorem removeSlot_ends (n i : Nat) : Ends (removeSlot p m key n i) := by
  induction n generalizing i with
  | zero => exact ends_ok _
  | succ n ih =>
    unfold removeSlot
    split
    · apply Ends.deref_bind
      intro k _
      split
      · exact ends_ok _
      · exact ih _
    · exact ih _

theorem updateSlots_ends (t : Tid) (val : Word) (n i : Nat) (isUpdated : Bool) :
    Ends (updateSlots m t key val n i isUpdated p) := by
  induction n generalizing i isUpdated p with
  | zero => exact ends_ok _
  | succ n ih =>
    unfold updateSlots
    dsimp only
    split
    · split
      · apply Ends.deref_bind
        rintro ⟨a, p'⟩ _
        exact ih _ _ _
      · apply Ends.deref_bind
        intro k _
        split
        · exact Ends.deref_bind fun p' _ => ends_ok _
        · exact ih _ _ _
    · exact ih _ _ _

theorem scanSlots_ends (scanCount n i : Nat) (out : List Word) :
    Ends (scanSlots p m scanCount n i out) := by
  induction n generalizing i out with
  | zero => exact ends_ok _
  | succ n ih =>
    unfold scanSlots
    split
    · rw [ok_bind]
      dsimp only
      split
      · exact ends_ok _
      · exact ih _ _
    · apply Ends.deref_bind
      intro v _
      dsimp only
      split
      · exact ends_ok _
      · exact ih _ _

theorem readEntries_ends (n : Nat) : Ends (readEntries p m n) := by
  induction n with
  | zero => exact ends_ok _
  | succ n ih =>
    unfold readEntries
    apply ih.bind
    intro buf _
    apply Ends.deref_bind
    intro k _
    exact Ends.deref_bind fun v _ => ends_ok _

end Slots

variable [Pmem P]

/-- Thirty entries need fewer calls of `qsort` than it is given. -/
theorem splitFull_ends (s : TreeState P) (t : Tid) (leaf : Addr) : Ends (splitFull s t leaf) := by
  unfold splitFull
  apply Ends.deref_bind
  intro m _
  apply (readEntries_ends s.pm m _).bind
  intro buf _
  obtain ⟨σ, hsort, -⟩ := qsort_spec (MAX_LEAF_KEY - 1) (2 * MAX_LEAF_KEY) 0 (MAX_LEAF_KEY - 1) buf
    m.fingerBuffer (Nat.le_refl _) (by decide)
  simp only [hsort, bounded, ok_bind]
  refine Ends.bind ?_ fun r _ => ends_ok _
  unfold splitLeaf linkPleaf
  apply Ends.deref_bind
  rintro ⟨newLeaf, pm⟩ _
  apply Ends.deref_bind
  intro old _
  refine Ends.bind ?_ fun pm' _ => ends_ok _
  apply Ends.deref_bind
  intro l _
  apply Ends.deref_bind
  intro pm₁ _
  exact Ends.deref_bind fun l' _ => ends_deref _

/-! ### Trees of which no leaf is held

A call that returns has released its leaf, except where `insert` finds its key: it returns with `temp_insert` 1.
`Unlocked` says that no leaf is held, and each operation keeps it unless it ends there. -/

/-- The links are in order and no leaf is held; the chain of leaves ends at `tail`. -/
structure Unlocked (tail : Addr) (s : TreeState P) : Prop where
  skel : Skeleton Cuts.empty tail s
  free : AllFree s

variable {tail a leaf : Addr} {s s' : TreeState P} {m m' : DLeaf} {key : Key} {t : Tid}

omit [Pmem P] in
theorem lockOK_empty (h : m.tempInsert ≤ 1) : LockOK (Cuts.empty a) m := by
  simp only [LockOK, Cuts.empty]
  exact h

omit [Pmem P] in
theorem Unlocked.setPm (h : Unlocked tail s) (pm : P) : Unlocked tail { s with pm := pm } :=
  ⟨h.skel.setPm pm, h.free⟩

theorem Unlocked.setLeaf (h : Unlocked tail s) (hm : s.dleafHeap a = some m) (hnext : m'.next = m.next)
    (huse : m'.maxUse ≤ MAX_LEAF_KEY) (hfree : m'.tempInsert = 0) : Unlocked tail (s.setLeaf a m') where
  skel := h.skel.setLeaf hm hnext huse (lockOK_empty (hfree ▸ Nat.zero_le 1))
  free := allFree_setLeaf (fun b n _ hn => h.free b n hn) hfree

omit [Pmem P] in
theorem Unlocked.reaches (h : Unlocked tail s) (key : Key) :
    ∃ path leaf m, findInsert s key = .ok (path, leaf) ∧ leaf ∈ labels s.index ∧
      s.dleafHeap leaf = some m ∧ m.tempInsert = 0 := by
  obtain ⟨path, leaf, m, hfind, -, hmem, hm⟩ := h.skel.reaches key
  exact ⟨path, leaf, m, hfind, hmem, hm, h.free leaf m hm⟩

/-! ### insert -/

/-- A round of `insert` that splits the full leaf the key leads to. -/
def SplitRound (t : Tid) (key : Key) (s s' : TreeState P) : Prop :=
  ∃ path leaf m leaf2 splitKey insertLeaf s₁, findInsert s key = .ok (path, leaf) ∧
    s.dleafHeap leaf = some m ∧ duplicate s.pm m key m.maxUse 0 = .ok false ∧
    ¬ m.maxUse < MAX_LEAF_KEY ∧
    splitFull (s.setLeaf leaf { m with tempInsert := 1 }) t leaf =
      .ok (leaf2, splitKey, insertLeaf, s₁) ∧
    installSeparator s₁ key splitKey leaf leaf2 insertLeaf = .ok s'

/-- The search of `insert` finds the key: in the leaf the key leads to or, that leaf being
full and not holding it, in the leaf it leads to after the split. -/
inductive Meets (t : Tid) (key : Key) : TreeState P → Prop
  | here {s : TreeState P} {path : List Cursor} {leaf : Addr} {m : DLeaf}
      (hfind : findInsert s key = .ok (path, leaf)) (hm : s.dleafHeap leaf = some m)
      (hdup : duplicate s.pm m key m.maxUse 0 = .ok true) : Meets t key s
  | later {s s' : TreeState P} (hsplit : SplitRound t key s s') (hrest : Meets t key s') : Meets t key s

def fullLeaves (s : TreeState P) : Set Addr :=
  {a | ∃ m, s.dleafHeap a = some m ∧ ¬ m.maxUse < MAX_LEAF_KEY}

omit [Pmem P] in
theorem Unlocked.fullLeaves_finite (h : Unlocked tail s) : (fullLeaves s).Finite := by
  apply (Set.finite_lt_nat s.brk).subset
  rintro a ⟨m, hm, -⟩
  exact (h.skel.leaf_lt a ((h.skel.heap a).mp ⟨m, hm⟩)).2

/-- A split keeps the links, and every leaf is now a free half of the full leaf or a leaf that was
there. -/
theorem Unlocked.split_leaves (h : Unlocked tail s) (hround : SplitRound t key s s') :
    Skeleton Cuts.empty tail s' ∧ ∃ leaf m, s.dleafHeap leaf = some m ∧ ¬ m.maxUse < MAX_LEAF_KEY ∧
      ∀ b n, s'.dleafHeap b = some n → (n.tempInsert = 0 ∧ n.maxUse = LEFT_KEY) ∨
        (b ≠ leaf ∧ s.dleafHeap b = some n) := by
  obtain ⟨path, leaf, m, leaf2, splitKey, insertLeaf, s₁, hfind, hm, -, hfull, hsplit, hinst⟩ := hround
  obtain ⟨path', leaf', -, hfind', hmem, -⟩ := h.reaches key
  rw [hfind, Except.ok.injEq, Prod.mk.injEq] at hfind'
  obtain ⟨rfl, rfl⟩ := hfind'
  have hlt := (h.skel.leaf_lt leaf (mem_leaves_of_index hmem)).2
  obtain ⟨held, hheld, hheld'⟩ : ∃ held : DLeaf, held = { m with tempInsert := 1 } ∧
      (s.setLeaf leaf held).dleafHeap leaf = some held := ⟨_, rfl, Function.update_self ..⟩
  rw [← hheld] at hsplit
  -- the leaf is taken, split and released again
  have hlocked : Skeleton Cuts.empty tail (s.setLeaf leaf held) :=
    h.skel.setLeaf hm (by rw [hheld]) (by rw [hheld]; exact (h.skel.leaf leaf m hm).1)
      (lockOK_empty (by rw [hheld]))
  obtain ⟨m₂, buf, keys, fingers, newLeaf, pm, pm', hm₂, -, -, -, -, hres⟩ := splitFull_eq_ok.mp hsplit
  rw [hheld', Option.some.injEq] at hm₂
  subst hm₂
  simp only [Prod.mk.injEq] at hres
  obtain ⟨rfl, rfl, rfl, rfl⟩ := hres
  have hcut := hlocked.split held fingers keys newLeaf pm' (keys SPLIT_POS).oneKey hmem rfl hheld'
    (by rw [hheld])
  have hfind₁ : findInsert (splitState (s.setLeaf leaf held) leaf held fingers keys newLeaf pm') key =
      .ok (path, leaf) := by
    rw [← hfind]
    refine findInsert_congr ?_ ?_ ?_ key <;> rfl
  obtain ⟨s₂, s₃, hinst', -, -, hsame, ⟨n, hn, hs₃⟩, -, hskel⟩ :=
    hcut.install (Function.update_self ..) hfind₁
  obtain rfl : s₃ = s' := Except.ok.inj (hinst'.symm.trans hinst)
  have hcuts : Function.update Cuts.empty leaf none = Cuts.empty :=
    Function.update_eq_self leaf Cuts.empty
  rw [Function.update_idem, hcuts] at hskel
  have hlt' : leaf < (s.setLeaf leaf held).brk := hlt
  obtain ⟨hleft, hright, hoff⟩ := splitState_heap held fingers keys newLeaf pm' hlt'
  rw [hleft, Option.some.injEq] at hn
  refine ⟨hskel, leaf, m, hm, hfull, ?_⟩
  intro b n' hn'
  rw [hs₃] at hn'
  rcases setLeaf_heap hn' with ⟨-, rfl⟩ | ⟨hb, hn'⟩
  · left
    refine ⟨rfl, ?_⟩
    show n.maxUse = LEFT_KEY
    rw [← hn, DLeaf.leftHalf_maxUse]
  · rw [hsame] at hn'
    -- the new leaf, or one of the others
    by_cases hb' : b = (s.setLeaf leaf held).brk + 1
    · subst hb'
      left
      rw [← Option.some.inj (hright.symm.trans hn')]
      exact ⟨DLeaf.rightHalf_tempInsert .., DLeaf.rightHalf_maxUse ..⟩
    · right
      have hold := (hoff b hb hb').symm.trans hn'
      rcases setLeaf_heap hold with ⟨heq, -⟩ | ⟨-, hold⟩
      · exact absurd heq hb
      · exact ⟨hb, hold⟩

/-- A split leaves no leaf held, and one full leaf less. -/
theorem Unlocked.split (h : Unlocked tail s) (hround : SplitRound t key s s') :
    Unlocked tail s' ∧ fullLeaves s' ⊂ fullLeaves s := by
  obtain ⟨hskel, leaf, m, hm, hfull, hleaves⟩ := h.split_leaves hround
  have hroom : ∀ n : DLeaf, n.maxUse = LEFT_KEY → n.maxUse < MAX_LEAF_KEY := by
    intro n huse
    rw [huse]
    decide
  refine ⟨⟨hskel, ?_⟩, ?_⟩
  · intro b n hn
    rcases hleaves b n hn with ⟨hfree, -⟩ | ⟨-, hold⟩
    · exact hfree
    · exact h.free b n hold
  · have hsub : fullLeaves s' ⊆ fullLeaves s := by
      rintro b ⟨n, hn, hfull'⟩
      rcases hleaves b n hn with ⟨-, huse⟩ | ⟨-, hold⟩
      · exact absurd (hroom n huse) hfull'
      · exact ⟨n, hold, hfull'⟩
    apply (Set.ssubset_iff_of_subset hsub).mpr
    refine ⟨leaf, ⟨m, hm, hfull⟩, ?_⟩
    rintro ⟨n, hn, hfull'⟩
    rcases hleaves leaf n hn with ⟨-, huse⟩ | ⟨hne, -⟩
    · exact hfull' (hroom n huse)
    · exact hne rfl

theorem fillSlot_eq {val : Word} {len : BitVec 32} (h : fillSlot s t key val len leaf = .ok s') :
    ∃ m kvAddr pm, s.dleafHeap leaf = some m ∧
      s' = ({ s with pm := pm } : TreeState P).setLeaf leaf (m.push key kvAddr) := by
  unfold ZBTree.fillSlot at h
  simp only [bind_eq_ok, deref_eq_ok] at h
  obtain ⟨m, hm, ⟨kvAddr, pm⟩, -, h⟩ := h
  cases h
  exact ⟨m, kvAddr, pm, hm, rfl⟩

/-- One round of `insert` at a tree of which no leaf is held. -/
theorem Unlocked.insert_round (h : Unlocked tail s) {n : Nat} {val : Word} {len : BitVec 32} {b : Bool}
    (hrun : insert (n + 1) s t key val len = .ok (b, s')) :
    (b = false ∧ Meets t key s ∧ ¬ AllFree s') ∨
      (b = true ∧ ¬ Meets t key s ∧ Unlocked tail s') ∨
      ∃ s₁, SplitRound t key s s₁ ∧ insert n s₁ t key val len = .ok (b, s') := by
  obtain ⟨path, leaf, m, hfind, -, hm, hfree⟩ := h.reaches key
  rcases insert_cases hfind hm hrun hfree with ⟨rfl, hdup, rfl⟩ | ⟨rfl, hdup, hroom, hfill⟩ |
    ⟨hdup, hfull, leaf2, splitKey, insertLeaf, s₁, s₂, hsplit, hinst, hrest⟩
  · refine Or.inl ⟨rfl, .here hfind hm hdup, ?_⟩
    intro hall
    have hone := hall leaf _ (Function.update_self ..)
    exact absurd hone Nat.one_ne_zero
  · refine Or.inr (Or.inl ⟨rfl, ?_, ?_⟩)
    · intro hmeets
      cases hmeets with
      | here hfind' hm' hdup' =>
        rw [hfind, Except.ok.injEq, Prod.mk.injEq] at hfind'
        obtain ⟨-, rfl⟩ := hfind'
        rw [hm, Option.some.injEq] at hm'
        subst hm'
        rw [hdup] at hdup'
        cases hdup'
      | later hround _ =>
        obtain ⟨path', leaf', m', -, -, -, -, hfind', hm', -, hfull, -⟩ := hround
        rw [hfind, Except.ok.injEq, Prod.mk.injEq] at hfind'
        obtain ⟨-, rfl⟩ := hfind'
        rw [hm, Option.some.injEq] at hm'
        subst hm'
        exact hfull hroom
    · obtain ⟨held, kvAddr, pm, hheld, rfl⟩ := fillSlot_eq hfill
      have hm₁ : (s.setLeaf leaf { m with tempInsert := 1 }).dleafHeap leaf =
          some { m with tempInsert := 1 } := Function.update_self ..
      rw [hm₁, Option.some.injEq] at hheld
      subst hheld
      have hstate : ({ s.setLeaf leaf { m with tempInsert := 1 } with pm := pm } : TreeState P).setLeaf
          leaf (({ m with tempInsert := 1 } : DLeaf).push key kvAddr) =
          ({ s with pm := pm } : TreeState P).setLeaf leaf (m.push key kvAddr) := by
        simp only [TreeState.setLeaf, Function.update_idem]
        rfl
      rw [hstate]
      exact (h.setPm pm).setLeaf hm rfl hroom rfl
  · exact Or.inr (Or.inr ⟨s₂, ⟨path, leaf, m, leaf2, splitKey, insertLeaf, s₁, hfind, hm, hdup, hfull,
      hsplit, hinst⟩, hrest⟩)

theorem SplitRound.unique {s₁ s₂ : TreeState P} (h : SplitRound t key s s₁) (h' : SplitRound t key s s₂) :
    s₁ = s₂ := by
  obtain ⟨path, leaf, m, leaf2, splitKey, insertLeaf, s₃, hfind, hm, -, -, hsplit, hinst⟩ := h
  obtain ⟨path', leaf', m', leaf2', splitKey', insertLeaf', s₄, hfind', hm', -, -, hsplit', hinst'⟩ := h'
  rw [hfind, Except.ok.injEq, Prod.mk.injEq] at hfind'
  obtain ⟨-, rfl⟩ := hfind'
  rw [hm, Option.some.injEq] at hm'
  subst hm'
  rw [hsplit, Except.ok.injEq, Prod.mk.injEq, Prod.mk.injEq, Prod.mk.injEq] at hsplit'
  obtain ⟨rfl, rfl, rfl, rfl⟩ := hsplit'
  exact Except.ok.inj (hinst.symm.trans hinst')

theorem SplitRound.meets_iff {s₁ : TreeState P} (h : SplitRound t key s s₁) :
    Meets t key s ↔ Meets t key s₁ := by
  refine ⟨?_, Meets.later h⟩
  intro hmeets
  cases hmeets with
  | here hfind hm hdup =>
    obtain ⟨path, leaf, m, -, -, -, -, hfind', hm', hdup', -⟩ := h
    rw [hfind, Except.ok.injEq, Prod.mk.injEq] at hfind'
    obtain ⟨-, rfl⟩ := hfind'
    rw [hm, Option.some.injEq] at hm'
    subst hm'
    rw [hdup] at hdup'
    cases hdup'
  | later h' hrest => exact h.unique h' ▸ hrest

theorem Unlocked.insert {n : Nat} {val : Word} {len : BitVec 32} {b : Bool} (h : Unlocked tail s)
    (hrun : insert n s t key val len = .ok (b, s')) :
    (b = false ∧ Meets t key s ∧ ¬ AllFree s') ∨ (b = true ∧ ¬ Meets t key s ∧ Unlocked tail s') := by
  induction n generalizing s with
  | zero => cases hrun
  | succ n ih =>
    rcases h.insert_round hrun with hmet | hdone | ⟨s₁, hround, hrest⟩
    · exact Or.inl hmet
    · exact Or.inr hdone
    · rw [hround.meets_iff]
      exact ih (h.split hround).1 hrest

theorem Meets.returns (hmeets : Meets t key s) (h : Unlocked tail s) (val : Word) (len : BitVec 32) :
    ∃ n b s', ZBTree.insert n s t key val len = .ok (b, s') := by
  induction hmeets with
  | @here s path leaf m hfind hm hdup =>
    refine ⟨1, false, s.setLeaf leaf { m with tempInsert := 1 }, ?_⟩
    have hm₁ : (s.setLeaf leaf { m with tempInsert := 1 }).dleafHeap leaf =
        some { m with tempInsert := 1 } := Function.update_self ..
    have hdup' : duplicate (s.setLeaf leaf { m with tempInsert := 1 }).pm { m with tempInsert := 1 } key
        m.maxUse 0 = .ok true := (duplicate_lock ..).trans hdup
    rw [ZBTree.insert, lockLeaf_free hfind hm (h.free leaf m hm)]
    simp only [ok_bind, Bool.not_true, Bool.false_eq_true, if_false, hm₁, deref_some, hdup', if_true,
      pure_eq_ok]
  | @later s s₁ hround _ ih =>
    obtain ⟨n, b, s', hrest⟩ := ih (h.split hround).1
    obtain ⟨path, leaf, m, leaf2, splitKey, insertLeaf, s₂, hfind, hm, hdup, hfull, hsplit, hinst⟩ := hround
    refine ⟨n + 1, b, s', ?_⟩
    rw [insert_of_full hfind hm (h.free leaf m hm) ((duplicate_lock ..).trans hdup) hfull hsplit hinst,
      hrest]

theorem Inv.meets_iff [LawfulPmem P] (h : Inv Cuts.empty tail s) (hfree : AllFree s) {n : Nat}
    (hok : LawfulPmem.Ok (n + 2) s.pm) : Meets t key s ↔ ∃ w, s.Contains key w := by
  have hunlocked : Unlocked tail s := ⟨h.skel, hfree⟩
  constructor
  · intro hmeets
    obtain ⟨fuel, b, s', hrun⟩ := hmeets.returns hunlocked 0 0
    rcases insert_returns h hok hrun with ⟨rfl, -, -⟩ | ⟨-, hthere, -⟩
    · rcases hunlocked.insert hrun with ⟨hb, -, -⟩ | ⟨-, hno, -⟩
      · cases hb
      · exact absurd hmeets hno
    · exact hthere
  · rintro ⟨w, hw⟩
    obtain ⟨path, leaf, m, hfind, -, hm, hzero⟩ := hunlocked.reaches key
    have hrun := insert_dup h hfind hm hzero hw t 0 0 0
    rcases hunlocked.insert hrun with ⟨-, hmeets, -⟩ | ⟨hb, -, -⟩
    · exact hmeets
    · cases hb

/-- Every round but the last splits a full leaf, so there are at most so many. -/
theorem Unlocked.insert_ends (h : Unlocked tail s) {n : Nat} (hn : (fullLeaves s).ncard < n) (key : Key)
    (val : Word) (len : BitVec 32) : Ends (ZBTree.insert n s t key val len) := by
  induction n generalizing s with
  | zero => exact absurd hn (Nat.not_lt_zero _)
  | succ n ih =>
    obtain ⟨path, leaf, m, hfind, -, hm, hfree⟩ := h.reaches key
    have hm₁ : (s.setLeaf leaf { m with tempInsert := 1 }).dleafHeap leaf =
        some { m with tempInsert := 1 } := Function.update_self ..
    rw [ZBTree.insert, lockLeaf_free hfind hm hfree, ok_bind]
    simp only [Bool.not_true, Bool.false_eq_true, if_false, hm₁, deref_some, ok_bind]
    apply (duplicate_ends _ _ _ _ _).bind
    intro dup hdup
    cases dup with
    | true => exact ends_ok _
    | false =>
      rw [if_neg Bool.false_ne_true]
      split
      · refine Ends.bind ?_ fun s₁ _ => ends_ok _
        apply Ends.deref_bind
        intro held _
        apply Ends.deref_bind
        rintro ⟨kvAddr, pm⟩ _
        exact ends_ok _
      · next hfull =>
        apply (splitFull_ends _ _ _).bind
        rintro ⟨leaf2, splitKey, insertLeaf, s₁⟩ hsplit
        apply (installSeparator_ends _ _ _ _ _ _).bind
        intro s₂ hinst
        have hround : SplitRound t key s s₂ :=
          ⟨path, leaf, m, leaf2, splitKey, insertLeaf, s₁, hfind, hm, (duplicate_lock ..).symm.trans hdup,
            hfull, hsplit, hinst⟩
        obtain ⟨hfree', hfewer⟩ := h.split hround
        apply ih hfree'
        have hlt := Set.ncard_lt_ncard hfewer h.fullLeaves_finite
        exact hlt.trans_le (Nat.lt_succ_iff.mp hn)

/-! ### The other operations -/

theorem find_ends (s : TreeState P) (key : Key) : Ends (find s key) := by
  unfold find
  split
  · apply Ends.deref_bind
    intro m _
    exact (findRoot_ends _ _ _ _ _).bind fun v _ => ends_ok _
  · apply (descendFrom_ends s key _ _).bind
    intro leaf _
    unfold findExamine
    apply Ends.deref_bind
    intro m _
    split
    · exact Ends.deref_bind fun buf _ => ends_ok _
    · apply (findSlots_ends _ _ _ _ _).bind
      intro found _
      cases found with
      | none => exact ends_ok _
      | some r => exact ends_ok _

theorem Unlocked.find {v : Word} (h : Unlocked tail s) (hrun : find s key = .ok (v, s')) :
    Unlocked tail s' := by
  by_cases hlevel : s.tempLevel = 0
  · rw [find_low hlevel hrun]
    exact h
  · rw [ZBTree.find, if_neg hlevel, bind_eq_ok] at hrun
    obtain ⟨leaf, -, hrun⟩ := hrun
    unfold findExamine at hrun
    simp only [bind_eq_ok, deref_eq_ok] at hrun
    obtain ⟨m, hm, hrun⟩ := hrun
    have hfree := h.free leaf m hm
    rw [if_neg (by rw [hfree]; exact Nat.not_lt_zero 1), bind_eq_ok] at hrun
    obtain ⟨found, -, hrun⟩ := hrun
    cases found with
    | none =>
      cases hrun
      exact h
    | some r =>
      cases hrun
      have htouch : (m.touch r.1).next = m.next ∧ (m.touch r.1).maxUse = m.maxUse ∧
          (m.touch r.1).tempInsert = m.tempInsert := by
        unfold DLeaf.touch
        split <;> exact ⟨rfl, rfl, rfl⟩
      obtain ⟨hnext, huse, htemp⟩ := htouch
      exact h.setLeaf hm hnext (huse ▸ (h.skel.leaf leaf m hm).1) (htemp.trans hfree)

theorem Unlocked.update_ends (h : Unlocked tail s) (t : Tid) (key : Key) (val : Word) :
    Ends (update 1 s t key val) := by
  rw [update]
  apply (descendFrom_ends s key _ _).bind
  intro leaf _
  unfold updateExamine
  cases hm : s.dleafHeap leaf with
  | none =>
    intro hspin
    cases hspin
  | some m =>
    rw [deref_some, ok_bind, if_neg (by rw [h.free leaf m hm]; exact Nat.not_lt_zero 1)]
    refine Ends.bind ((updateSlots_ends _ _ _ _ _ _ _ _).bind fun r _ => ends_ok _) ?_
    intro r hr
    rw [bind_eq_ok] at hr
    obtain ⟨q, -, hr⟩ := hr
    cases hr
    exact ends_ok _

theorem Unlocked.update {n : Nat} {val : Word} {b : Bool} (h : Unlocked tail s)
    (hrun : update n s t key val = .ok (b, s')) : Unlocked tail s' := by
  induction n with
  | zero => cases hrun
  | succ n ih =>
    rw [ZBTree.update, bind_eq_ok] at hrun
    obtain ⟨leaf, -, hrun⟩ := hrun
    rw [bind_eq_ok] at hrun
    obtain ⟨r, hexamine, hrun⟩ := hrun
    cases r with
    | none => exact ih hrun
    | some r =>
      unfold updateExamine at hexamine
      rw [bind_eq_ok] at hexamine
      obtain ⟨m, -, hexamine⟩ := hexamine
      split at hexamine
      · cases hexamine
      · rw [bind_eq_ok] at hexamine
        obtain ⟨⟨isUpdated, pm⟩, -, hexamine⟩ := hexamine
        cases hexamine
        cases hrun
        exact h.setPm pm

theorem scanLoop_same (hfree : AllFree s) {startKey : Key} {scanCount n : Nat} {out out' : List Word}
    (hrun : scanLoop startKey scanCount n s a out = .ok (out', s')) : s' = s := by
  induction n generalizing a out with
  | zero => cases hrun
  | succ n ih =>
    unfold scanLoop at hrun
    split at hrun
    · rw [bind_eq_ok] at hrun
      obtain ⟨m, hm, hrun⟩ := hrun
      rw [deref_eq_ok] at hm
      have hzero := hfree a m hm
      rw [if_neg (by rw [hzero]; exact Nat.not_lt_zero 1), if_pos hzero, bind_eq_ok] at hrun
      obtain ⟨⟨out₁, full⟩, -, hrun⟩ := hrun
      dsimp only at hrun
      rw [setLeaf_relock hm hzero] at hrun
      split at hrun
      · cases hrun
        rfl
      · exact ih hrun
    · cases hrun
      rfl

theorem scanLoop_ends (hfree : AllFree s) {leaves : List Addr} (startKey : Key) (scanCount : Nat)
    (hchain : Seg s.nextOf a leaves 0) {n : Nat} (hn : leaves.length < n) (out : List Word) :
    Ends (scanLoop startKey scanCount n s a out) := by
  induction leaves generalizing n a out with
  | nil =>
    obtain ⟨n, rfl⟩ := Nat.exists_eq_add_of_lt hn
    rw [show a = 0 from hchain, scanLoop, if_neg fun hnot => hnot.2 rfl]
    exact ends_ok _
  | cons b rest ih =>
    obtain ⟨rfl, hrest⟩ := hchain
    obtain ⟨n, rfl⟩ : ∃ k, n = k + 1 := Nat.exists_eq_succ_of_ne_zero (Nat.ne_zero_of_lt hn)
    unfold scanLoop
    split
    · apply Ends.deref_bind
      intro m hm
      have hzero := hfree a m hm
      rw [if_neg (by rw [hzero]; exact Nat.not_lt_zero 1), if_pos hzero]
      apply (scanSlots_ends _ _ _ _ _ _).bind
      rintro ⟨out₁, full⟩ _
      dsimp only
      rw [setLeaf_relock hm hzero]
      split
      · exact ends_ok _
      · rw [TreeState.nextOf_some hm] at hrest
        exact ih hrest (Nat.lt_of_succ_lt_succ hn) _
    · exact ends_ok _

theorem Unlocked.scan {n : Nat} {startKey : Key} {scanCount : Nat} {out : List Word}
    (h : Unlocked tail s) (hrun : scan n s startKey scanCount = .ok (out, s')) : Unlocked tail s' := by
  unfold ZBTree.scan at hrun
  rw [bind_eq_ok] at hrun
  obtain ⟨⟨path, leaf⟩, -, hrun⟩ := hrun
  rw [scanLoop_same h.free hrun]
  exact h

theorem Unlocked.scan_ends (h : Unlocked 0 s) (startKey : Key) (scanCount : Nat) :
    ∃ n, Ends (ZBTree.scan n s startKey scanCount) := by
  obtain ⟨path, leaf, m, hfind, hmem, hm, -⟩ := h.reaches startKey
  have hchain := h.skel.chain
  have hleaf : leaf ∈ labels (s.leaves Cuts.empty) := mem_leaves_of_index hmem
  obtain ⟨X, Y, hXY⟩ := List.append_of_mem hleaf
  rw [hXY] at hchain
  obtain ⟨x, -, hseg⟩ := seg_append.mp hchain
  obtain rfl : x = leaf := hseg.1
  refine ⟨(x :: Y).length + 1, ?_⟩
  rw [ZBTree.scan, hfind, ok_bind]
  exact scanLoop_ends h.free startKey scanCount hseg (Nat.lt_succ_self _) []

theorem Unlocked.remove {n : Nat} {b : Bool} (h : Unlocked tail s)
    (hrun : simplyRemove n s t key = .ok (b, s')) : Unlocked tail s' := by
  cases n with
  | zero => cases hrun
  | succ n =>
    obtain ⟨path, leaf, m, hfind, -, hm, hfree⟩ := h.reaches key
    have huse := (h.skel.leaf leaf m hm).1
    rcases simplyRemove_cases hfind hm hrun hfree with ⟨-, -, rfl⟩ | ⟨-, i, pm₁, pm₂, -, -, -, rfl⟩
    · exact h.setLeaf hm rfl huse hfree
    · exact (h.setPm pm₂).setLeaf hm rfl ((Nat.sub_le _ _).trans huse) hfree

theorem Unlocked.remove_ends (h : Unlocked tail s) (t : Tid) (key : Key) :
    Ends (simplyRemove 1 s t key) := by
  obtain ⟨path, leaf, m, hfind, -, hm, hfree⟩ := h.reaches key
  rw [simplyRemove, lockLeaf_free hfind hm hfree, ok_bind]
  simp only [Bool.not_true, Bool.false_eq_true, if_false]
  unfold removeFrom
  apply Ends.deref_bind
  intro held _
  apply (removeSlot_ends _ _ _ _ _).bind
  intro found _
  cases found with
  | none => exact ends_ok _
  | some i =>
    apply Ends.deref_bind
    intro pm _
    dsimp only
    split
    · apply Ends.deref_bind
      intro l _
      exact Ends.deref_bind fun pm₁ _ => ends_ok _
    · exact ends_ok _

/-! ### Runs -/

inductive PublicOp where
  | insert (key : Key) (val : Word) (valueLen : BitVec 32)
  | find (key : Key)
  | update (key : Key) (val : Word)
  | scan (startKey : Key) (scanCount : Nat)
  | remove (key : Key)

/-- One call, with `n` rounds for its loops. -/
def PublicOp.exec (n : Nat) (t : Tid) (s : TreeState P) : PublicOp → Exec (TreeState P)
  | insert key val valueLen => Prod.snd <$> ZBTree.insert n s t key val valueLen
  | find key => Prod.snd <$> ZBTree.find s key
  | update key val => Prod.snd <$> ZBTree.update n s t key val
  | scan startKey scanCount => Prod.snd <$> ZBTree.scan n s startKey scanCount
  | remove key => Prod.snd <$> simplyRemove n s t key

/-- The calls return one after another, each after as many rounds as it takes, and leave `s'`. -/
def Completes (t : Tid) : TreeState P → List PublicOp → TreeState P → Prop
  | s, [], s' => s' = s
  | s, op :: rest, s' => ∃ n s₁, op.exec n t s = .ok s₁ ∧ Completes t s₁ rest s'

/-- An insertion of a key that its search finds. -/
def PublicOp.MeetsKey (t : Tid) (s : TreeState P) : PublicOp → Prop
  | insert key _ _ => Meets t key s
  | _ => False

def InsertsAbsent (t : Tid) : TreeState P → List PublicOp → Prop
  | _, [] => True
  | s, op :: rest => ¬ op.MeetsKey t s ∧
      ∀ n s', op.exec n t s = .ok s' → InsertsAbsent t s' rest

/-- A scan needs a chain of leaves that ends. -/
def PublicOp.Ended (tail : Addr) : PublicOp → Prop
  | scan _ _ => tail = 0
  | _ => True

omit [Pmem P] in
theorem map_snd_eq_ok {α : Type} {x : Exec (α × TreeState P)} :
    Prod.snd <$> x = .ok s' ↔ ∃ r, x = .ok (r, s') := by
  cases x with
  | error e =>
    constructor
    · intro h
      cases h
    · rintro ⟨r, h⟩
      cases h
  | ok r =>
    constructor
    · intro h
      cases h
      exact ⟨r.1, rfl⟩
    · rintro ⟨r', h⟩
      cases h
      rfl

theorem Unlocked.exec {n : Nat} {op : PublicOp} (h : Unlocked tail s) (hmeets : ¬ op.MeetsKey t s)
    (hrun : op.exec n t s = .ok s') : Unlocked tail s' := by
  cases op with
  | insert key val valueLen =>
    obtain ⟨b, hrun⟩ := map_snd_eq_ok.mp hrun
    rcases h.insert hrun with ⟨-, hmet, -⟩ | ⟨-, -, hfree⟩
    · exact absurd hmet hmeets
    · exact hfree
  | find key =>
    obtain ⟨v, hrun⟩ := map_snd_eq_ok.mp hrun
    exact h.find hrun
  | update key val =>
    obtain ⟨b, hrun⟩ := map_snd_eq_ok.mp hrun
    exact h.update hrun
  | scan startKey scanCount =>
    obtain ⟨out, hrun⟩ := map_snd_eq_ok.mp hrun
    exact h.scan hrun
  | remove key =>
    obtain ⟨b, hrun⟩ := map_snd_eq_ok.mp hrun
    exact h.remove hrun

theorem Unlocked.exec_ends (h : Unlocked tail s) (t : Tid) {op : PublicOp} (hend : op.Ended tail) :
    ∃ n, Ends (op.exec n t s) := by
  cases op with
  | insert key val valueLen => exact ⟨_, (h.insert_ends (Nat.lt_succ_self _) key val valueLen).map _⟩
  | find key => exact ⟨0, (find_ends s key).map _⟩
  | update key val => exact ⟨1, (h.update_ends t key val).map _⟩
  | scan startKey scanCount =>
    obtain rfl : tail = 0 := hend
    obtain ⟨n, hn⟩ := h.scan_ends startKey scanCount
    exact ⟨n, hn.map _⟩
  | remove key => exact ⟨1, (h.remove_ends t key).map _⟩

theorem Unlocked.exec_meets {op : PublicOp} (h : Unlocked tail s) (hmeets : op.MeetsKey t s) :
    ∃ n s', op.exec n t s = .ok s' ∧ ¬ AllFree s' := by
  cases op with
  | insert key val valueLen =>
    obtain ⟨n, b, s', hrun⟩ := Meets.returns hmeets h val valueLen
    refine ⟨n, s', map_snd_eq_ok.mpr ⟨b, hrun⟩, ?_⟩
    rcases h.insert hrun with ⟨-, -, hheld⟩ | ⟨-, hno, -⟩
    · exact hheld
    · exact absurd hmeets hno
  | find key => exact absurd hmeets not_false
  | update key val => exact absurd hmeets not_false
  | scan startKey scanCount => exact absurd hmeets not_false
  | remove key => exact absurd hmeets not_false

/-- What is asked of the tree between two calls, the next ones being `rest`: no leaf is held,
whatever is called now ends, and an insertion that returns `false` changes nothing. -/
structure Between (t : Tid) (tail : Addr) (rest : List PublicOp) (s : TreeState P) : Prop where
  free : AllFree s
  ends : ∀ op : PublicOp, op.Ended tail → ∃ n, Ends (op.exec n t s)
  present : ∀ key val len later, rest = .insert key val len :: later →
    ∀ n s', ZBTree.insert n s t key val len = .ok (false, s') → s' = s

theorem Unlocked.between (h : Unlocked tail s) {rest : List PublicOp} (habsent : InsertsAbsent t s rest) :
    Between t tail rest s := by
  refine ⟨h.free, fun op hend => h.exec_ends t hend, ?_⟩
  rintro key val len later rfl n s' hrun
  rcases h.insert hrun with ⟨-, hmet, -⟩ | ⟨hb, -, -⟩
  · exact absurd hmet habsent.1
  · exact absurd hb Bool.false_ne_true

theorem Unlocked.between_iff (h : Unlocked tail s) (t : Tid) (ops : List PublicOp) :
    (∀ done rest s', ops = done ++ rest → Completes t s done s' → Between t tail rest s') ↔
      InsertsAbsent t s ops := by
  induction ops generalizing s with
  | nil =>
    refine ⟨fun _ => trivial, ?_⟩
    rintro - done rest s' hsplit hdone
    obtain ⟨rfl, rfl⟩ := List.append_eq_nil_iff.mp hsplit.symm
    obtain rfl : s' = s := hdone
    exact h.between trivial
  | cons op ops ih =>
    constructor
    · intro hall
      have hmeets : ¬ op.MeetsKey t s := by
        intro hmeets
        obtain ⟨n, s₁, hrun, hheld⟩ := h.exec_meets hmeets
        exact hheld (hall [op] ops s₁ rfl ⟨n, s₁, hrun, rfl⟩).free
      refine ⟨hmeets, fun n s₁ hrun => (ih (h.exec hmeets hrun)).mp ?_⟩
      rintro done rest s' rfl hdone
      exact hall (op :: done) rest s' rfl ⟨n, s₁, hrun, hdone⟩
    · intro habsent done rest s' hsplit hdone
      cases done with
      | nil =>
        obtain rfl : s' = s := hdone
        exact h.between ((List.nil_append rest).symm ▸ hsplit ▸ habsent)
      | cons op' done =>
        rw [List.cons_append, List.cons.injEq] at hsplit
        obtain ⟨rfl, rfl⟩ := hsplit
        obtain ⟨n, s₁, hrun, hdone⟩ := hdone
        exact (ih (h.exec habsent.1 hrun)).mpr (habsent.2 n s₁ hrun) done rest s' rfl hdone

theorem Unlocked.init {pm : P} {junkInner : Addr → InnerNode} {junkLeaf : Addr → DLeaf}
    (hrun : init pm t junkInner junkLeaf = .ok s) : Unlocked (junkLeaf 1).next s := by
  obtain ⟨q, -, -, pm₂, -, -, -, rfl⟩ := init_eq_ok.mp hrun
  refine ⟨freshTree_skeleton pm₂ q junkInner junkLeaf, ?_⟩
  intro a m hm
  obtain ⟨-, rfl⟩ := freshTree_leaf.mp hm
  rfl

/-- Between any two calls no leaf is held, and whatever is called next ends, exactly when no insertion
meets its key. -/
theorem locks_given_back_iff {pm : P} {junkInner : Addr → InnerNode} {junkLeaf : Addr → DLeaf}
    {s₀ : TreeState P} (hinit : init pm t junkInner junkLeaf = .ok s₀) (ops : List PublicOp) :
    (∀ done rest s, ops = done ++ rest → Completes t s₀ done s →
      Between t (junkLeaf 1).next rest s) ↔ InsertsAbsent t s₀ ops :=
  (Unlocked.init hinit).between_iff t ops

/-- A removal, and then the key that is gone is inserted again. -/
theorem locks_given_back_iff_reinserted : ∃ s₀ : TreeState IdealPm,
    init (IdealPm.roomy 10) 0 zeroInner zeroLeaf = .ok s₀ ∧
      ((∀ done rest s, [PublicOp.insert 5 50 8, .find 5, .remove 5, .scan 0 3, .insert 5 51 8] = done ++ rest →
        Completes 0 s₀ done s → Between 0 0 rest s) ↔
        InsertsAbsent 0 s₀ [.insert 5 50 8, .find 5, .remove 5, .scan 0 3, .insert 5 51 8]) := by
  obtain ⟨s₀, hinit, -⟩ := exec_of_map (x := init (IdealPm.roomy 10) 0 zeroInner zeroLeaf)
    (f := fun s => s.brk) (b := 2) (by decide +kernel)
  exact ⟨s₀, hinit, locks_given_back_iff hinit _⟩

/-- A leaf that is held stops the insertions and the scans that come to it. -/
theorem held_spins {path : List Cursor} (hfind : findInsert s key = .ok (path, leaf))
    (hm : s.dleafHeap leaf = some m) (hheld : m.tempInsert = 1) (hleaf : leaf ≠ 0) (t : Tid) (val : Word)
    (len : BitVec 32) {scanCount : Nat} (hcount : 0 < scanCount) (n : Nat) :
    (PublicOp.insert key val len).exec n t s = .error .spin ∧
      (PublicOp.scan key scanCount).exec n t s = .error .spin := by
  have hne : m.tempInsert ≠ 0 := hheld ▸ Nat.one_ne_zero
  constructor
  · show Prod.snd <$> ZBTree.insert n s t key val len = _
    rw [insert_held hfind hm hne]
    rfl
  · have hscan : ZBTree.scan n s key scanCount = .error .spin := by
      rw [ZBTree.scan, hfind, ok_bind]
      cases n with
      | zero => rfl
      | succ n =>
        have hlong : ([] : List Word).length < scanCount ∧ leaf ≠ 0 := ⟨hcount, hleaf⟩
        unfold scanLoop
        simp only [if_pos hlong, hm, deref_some, ok_bind, hheld, Nat.lt_irrefl, if_false,
          Nat.one_ne_zero]
    show Prod.snd <$> ZBTree.scan n s key scanCount = _
    rw [hscan]
    rfl

/-- The same key twice: the second call returns `false` and leaves its leaf held, and then neither an
insertion nor a scan ends. -/
theorem insert_twice_holds_leaf : ∃ s₀ s₁ s₂ : TreeState IdealPm,
    init (IdealPm.roomy 10) 0 zeroInner zeroLeaf = .ok s₀ ∧
      insert 1 s₀ 0 5 50 8 = .ok (true, s₁) ∧ insert 1 s₁ 0 5 51 8 = .ok (false, s₂) ∧ s₂ ≠ s₁ ∧
      ¬ AllFree s₂ ∧ ∀ n, (PublicOp.insert 6 60 8).exec n 0 s₂ = .error .spin ∧
        (PublicOp.scan 6 1).exec n 0 s₂ = .error .spin := by
  have hfacts : ((do
      let s₀ ← init (IdealPm.roomy 10) 0 zeroInner zeroLeaf
      let r₁ ← insert 1 s₀ 0 5 50 8
      let r₂ ← insert 1 r₁.2 0 5 51 8
      return (s₀, r₁, r₂)) :
      Exec (TreeState IdealPm × (Bool × TreeState IdealPm) × Bool × TreeState IdealPm)).toOption.map
        (fun r => (r.2.1.1, r.2.2.1, (r.2.1.2.dleafHeap 1).map (·.tempInsert),
          (r.2.2.2.dleafHeap 1).map (·.tempInsert),
          (findInsert r.2.2.2 6).toOption.map (·.2))) =
      some (true, false, some 0, some 1, some 1) := by
    decide +kernel
  obtain ⟨⟨s₀, ⟨b₁, s₁⟩, b₂, s₂⟩, hrun, hview⟩ := exec_of_map hfacts
  simp only [Prod.mk.injEq, Option.map_eq_some_iff] at hview
  obtain ⟨rfl, rfl, ⟨m₁, hm₁, hfree⟩, ⟨m₂, hm₂, hheld⟩, ⟨r, hleads, hr⟩⟩ := hview
  simp only [bind_eq_ok, pure_eq_ok, Except.ok.injEq, Prod.mk.injEq] at hrun
  obtain ⟨s₀', hinit, r₁, hfirst, r₂, hsecond, rfl, rfl, rfl⟩ := hrun
  obtain ⟨⟨path, leaf⟩, hfind, rfl⟩ := exec_of_map (Option.map_eq_some_iff.mpr ⟨r, hleads, hr⟩)
  refine ⟨s₀', s₁, s₂, hinit, hfirst, hsecond, ?_, ?_, ?_⟩
  · rintro rfl
    rw [hm₁, Option.some.injEq] at hm₂
    rw [← hm₂, hfree] at hheld
    cases hheld
  · intro hall
    rw [hall 1 m₂ hm₂] at hheld
    cases hheld
  · exact held_spins hfind hm₂ hheld Nat.one_ne_zero 0 60 8 Nat.one_pos

end ZBTree
