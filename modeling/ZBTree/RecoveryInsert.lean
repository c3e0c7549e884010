import ZBTree.FingerDiffer
import ZBTree.MapContract

/-!
# Recovery builds the same map

`quick_insert` next to `insert`. It keeps the invariant of the tree as long as the `control_bit` that
a new slot takes over from the old word of its cell lies below the slots in use afterwards, for then no
search takes it for the place of an inline pair.
-/

namespace ZBTree

open RangeIndex Pmem LawfulPmem

variable {P : Type}

/-! ### leaf_start and dstart -/

/-- The tree with other anchors; `recover` leaves them as they are. -/
def TreeState.anchored (s : TreeState P) (leafStart dstart : Addr) : TreeState P :=
  { s with leafStart := leafStart, dstart := dstart }

section Anchors

variable {s s' : TreeState P} {x y : Addr} {key splitKey : Key} {leaf leaf2 insertLeaf : Addr}

theorem findInsert_anchored : findInsert (s.anchored x y) key = findInsert s key := by
  refine findInsert_congr ?_ ?_ ?_ key <;> rfl

theorem splitLevel_anchored (c : Cursor) (right : Addr) : splitLevel (s.anchored x y) c key right =
    (splitLevel s c key right).map fun r => (r.1.anchored x y, r.2) := by
  unfold splitLevel
  show (deref (s.innerHeap c.node) >>= _) = _
  cases s.innerHeap c.node with
  | none => rfl
  | some nd =>
    rw [deref_some, ok_bind, ok_bind]
    dsimp only
    split <;> rfl

theorem splitInnerLoop_anchored (path : List Cursor) (right : Addr) :
    splitInnerLoop (s.anchored x y) path key right =
      (splitInnerLoop s path key right).map (TreeState.anchored · x y) := by
  induction path generalizing s key right with
  | nil => rfl
  | cons c above ih =>
    rw [splitInnerLoop, splitInnerLoop, splitLevel_anchored]
    cases splitLevel s c key right with
    | error e => rfl
    | ok r =>
      obtain ⟨s₁, carry⟩ := r
      cases carry with
      | none => rfl
      | some up =>
        show (if above.isEmpty then _ else splitInnerLoop (s₁.anchored x y) above up.1 up.2) = _
        rw [ih]
        show _ = Except.map _ (if above.isEmpty then _ else splitInnerLoop s₁ above up.1 up.2)
        split <;> rfl

theorem recordSplit_anchored : recordSplit (s.anchored x y) key splitKey leaf leaf2 =
    (recordSplit s key splitKey leaf leaf2).map (TreeState.anchored · x y) := by
  rw [recordSplit, recordSplit, findInsert_anchored]
  show (if s.tempLevel = 0 then _ else _) = _
  split
  · rfl
  · cases findInsert s key with
    | error e => rfl
    | ok r => exact splitInnerLoop_anchored ..

theorem installSeparator_anchored : installSeparator (s.anchored x y) key splitKey leaf leaf2 insertLeaf =
    (installSeparator s key splitKey leaf leaf2 insertLeaf).map (TreeState.anchored · x y) := by
  rw [installSeparator, installSeparator, recordSplit_anchored]
  cases recordSplit s key splitKey leaf leaf2 with
  | error e => rfl
  | ok s₁ =>
    show (deref (s₁.dleafHeap leaf) >>= _) = Except.map _ (deref (s₁.dleafHeap leaf) >>= _)
    cases s₁.dleafHeap leaf <;> rfl

theorem lockLeaf_anchored : lockLeaf (s.anchored x y) key =
    (lockLeaf s key).map fun r => (r.1, r.2.1, r.2.2.anchored x y) := by
  rw [lockLeaf, lockLeaf, findInsert_anchored]
  cases findInsert s key with
  | error e => rfl
  | ok r =>
    show (deref (s.dleafHeap r.2) >>= _) = Except.map _ (deref (s.dleafHeap r.2) >>= _)
    cases s.dleafHeap r.2 with
    | none => rfl
    | some m =>
      rw [deref_some, ok_bind, ok_bind]
      split <;> rfl

variable [Pmem P] {t : Tid}

theorem splitLeaf_anchored {pl : Addr} {dramBuffer : Nat → AdaptiveSlot} {keys : Nat → NodeEntry} :
    splitLeaf (s.anchored x y) t pl leaf dramBuffer keys =
      (splitLeaf s t pl leaf dramBuffer keys).map fun r => (r.1, r.2.anchored x y) := by
  rw [splitLeaf, splitLeaf]
  show (deref (nAllocate s.pm t) >>= _) = Except.map _ (deref (nAllocate s.pm t) >>= _)
  cases nAllocate s.pm t with
  | none => rfl
  | some r =>
    show (deref (s.dleafHeap leaf) >>= _) = Except.map _ (deref (s.dleafHeap leaf) >>= _)
    cases s.dleafHeap leaf with
    | none => rfl
    | some old =>
      show (linkPleaf r.2 pl r.1 _ _ >>= _) = Except.map _ (linkPleaf r.2 pl r.1 _ _ >>= _)
      cases linkPleaf r.2 pl r.1 (keys (LEFT_KEY - 1)).oneKey (keys (MAX_LEAF_KEY - 1)).oneKey <;> rfl

theorem quickSplit_anchored : quickSplit (s.anchored x y) t leaf =
    (quickSplit s t leaf).map fun r => (r.1, r.2.1, r.2.2.1, r.2.2.2.anchored x y) := by
  rw [quickSplit, quickSplit]
  show (deref (s.dleafHeap leaf) >>= _) = Except.map _ (deref (s.dleafHeap leaf) >>= _)
  cases s.dleafHeap leaf with
  | none => rfl
  | some m =>
    show (readEntries s.pm m MAX_LEAF_KEY >>= _) = Except.map _ (readEntries s.pm m MAX_LEAF_KEY >>= _)
    cases readEntries s.pm m MAX_LEAF_KEY with
    | error e => rfl
    | ok buf =>
      rw [ok_bind, ok_bind]
      dsimp only
      cases qsort (2 * MAX_LEAF_KEY) 0 (MAX_LEAF_KEY - 1) buf m.fingerBuffer with
      | none => rfl
      | some r =>
        obtain ⟨keys, fingers⟩ := r
        let held : DLeaf := { m with altPtr := s.brk, tempInsert := m.tempInsert + 1 }
        show (splitLeaf (((s.stackBuf keys).2.setLeaf leaf held).anchored x y) t m.altPtr leaf _ _ >>= _) =
          Except.map _ (splitLeaf ((s.stackBuf keys).2.setLeaf leaf held) t m.altPtr leaf _ _ >>= _)
        rw [splitLeaf_anchored]
        cases splitLeaf ((s.stackBuf keys).2.setLeaf leaf held) t m.altPtr leaf (filterDuplicates fingers) keys <;> rfl

theorem quickInsert_anchored (rounds : Nat) (val : Addr) : quickInsert rounds (s.anchored x y) t key val =
    (quickInsert rounds s t key val).map (TreeState.anchored · x y) := by
  induction rounds generalizing s with
  | zero => rfl
  | succ rounds ih =>
    rw [quickInsert, quickInsert, lockLeaf_anchored]
    cases lockLeaf s key with
    | error e => rfl
    | ok r =>
      obtain ⟨free, leaf, s₁⟩ := r
      cases free with
      | false => exact ih
      | true =>
        show (deref (s₁.dleafHeap leaf) >>= _) = Except.map _ (deref (s₁.dleafHeap leaf) >>= _)
        cases s₁.dleafHeap leaf with
        | none => rfl
        | some m =>
          show (quickScan s₁.pm key m.maxUse 0 false m >>= _) =
            Except.map _ (quickScan s₁.pm key m.maxUse 0 false m >>= _)
          cases quickScan s₁.pm key m.maxUse 0 false m with
          | error e => rfl
          | ok r =>
            obtain ⟨duplicate, m'⟩ := r
            rw [ok_bind, ok_bind]
            dsimp only
            split
            · rfl
            · show (quickSplit ((s₁.setLeaf leaf m').anchored x y) t leaf >>= _) = _
              rw [quickSplit_anchored]
              cases quickSplit (s₁.setLeaf leaf m') t leaf with
              | error e => rfl
              | ok r =>
                obtain ⟨leaf2, splitKey, insertLeaf, s₂⟩ := r
                show (installSeparator (s₂.anchored x y) key splitKey leaf leaf2 insertLeaf >>= _) =
                  Except.map _ (installSeparator s₂ key splitKey leaf leaf2 insertLeaf >>= _)
                rw [installSeparator_anchored]
                cases installSeparator s₂ key splitKey leaf leaf2 insertLeaf with
                | error e => rfl
                | ok s₃ => exact ih

theorem quickRun_anchored {records : List (Key × Addr)} : quickRun t (s.anchored x y) records =
    (quickRun t s records).map (TreeState.anchored · x y) := by
  induction records generalizing s with
  | nil => rfl
  | cons r records ih =>
    obtain ⟨key, val⟩ := r
    rw [quickRun, quickRun, quickInsert_anchored]
    cases quickInsert 2 s t key val with
    | error e => rfl
    | ok s' => exact ih

omit [Pmem P] in
theorem descendFrom_anchored {n : Nat} {start : Addr} :
    descendFrom (s.anchored x y) key n start = descendFrom s key n start := by
  induction n generalizing start with
  | zero => rfl
  | succ n ih =>
    rw [descendFrom, descendFrom]
    simp only [ih]
    rfl

theorem find_anchored : find (s.anchored x y) key = (find s key).map fun r => (r.1, r.2.anchored x y) := by
  rw [find, find]
  show (if s.tempLevel = 0 then _ else _) = _
  split
  · show (deref (s.dleafHeap s.root) >>= _) = Except.map _ (deref (s.dleafHeap s.root) >>= _)
    cases s.dleafHeap s.root with
    | none => rfl
    | some m =>
      show (findRoot s.pm m key MAX_LEAF_KEY 0 >>= _) = Except.map _ (findRoot s.pm m key MAX_LEAF_KEY 0 >>= _)
      cases findRoot s.pm m key MAX_LEAF_KEY 0 <;> rfl
  · rw [descendFrom_anchored]
    show (descendFrom s key s.tempLevel s.root >>= _) = Except.map _ (descendFrom s key s.tempLevel s.root >>= _)
    cases descendFrom s key s.tempLevel s.root with
    | error e => rfl
    | ok leaf =>
      show (deref (s.dleafHeap leaf) >>= _) = Except.map _ (deref (s.dleafHeap leaf) >>= _)
      cases s.dleafHeap leaf with
      | none => rfl
      | some m =>
        rw [deref_some, ok_bind, ok_bind]
        split
        · show (deref (s.bufHeap m.altPtr) >>= _) = Except.map _ (deref (s.bufHeap m.altPtr) >>= _)
          cases s.bufHeap m.altPtr <;> rfl
        · show (findSlots s.pm m key m.maxUse 0 >>= _) = Except.map _ (findSlots s.pm m key m.maxUse 0 >>= _)
          cases findSlots s.pm m key m.maxUse 0 with
          | error e => rfl
          | ok r => cases r <;> rfl

end Anchors

/-! ### Slots that say less about inline pairs

`quick_insert` may clear control bits that `insert` leaves. A slot without a pair is read through its record, so the
answers are the same; `Reslotted` allows for the difference. -/

/-- The used slots point to the same records, and a `control_bit` that has changed lies below them. -/
structure Reslotted (m m' : DLeaf) : Prop where
  use : m'.maxUse = m.maxUse
  slot : ∀ i, i < m.maxUse → (m'.fingerPrint i).hashByte = (m.fingerPrint i).hashByte ∧ m'.ptr i = m.ptr i
  control : ∀ i, i < m.maxUse → m'.control i = m.control i ∨ m'.control i < m.maxUse
  spare : ∀ i, m.maxUse ≤ i → m'.fingerPrint i = m.fingerPrint i

section Reslot

variable [Pmem P] {p : P} {m m' : DLeaf} {k : Key} {addr : Addr}

theorem Reslotted.samePtrs (h : Reslotted m m') : SamePtrs m m' := ⟨h.use, fun i hi => (h.slot i hi).2⟩

theorem Reslotted.paired (h : Reslotted m m') {i : Nat} (hi : i < m.maxUse) (hc : m'.maxUse ≤ m'.control i) :
    m'.control i = m.control i ∧ m.maxUse ≤ m.control i := by
  rw [h.use] at hc
  rcases h.control i hi with hsame | hlow
  · exact ⟨hsame, hsame ▸ hc⟩
  · exact absurd hc (Nat.not_le.mpr hlow)

theorem SlotsOK.reslot (hok : SlotsOK p m) (h : Reslotted m m') : SlotsOK p m' where
  read i hi := by
    rw [h.use] at hi
    rw [(h.slot i hi).2]
    exact hok.read i hi
  hash i k hi := by
    have hi' := h.samePtrs.hasKey_iff.mp hi
    rw [(h.slot i hi'.1).1]
    exact hok.hash i k hi'
  distinct i j k hi hj := hok.distinct i j k (h.samePtrs.hasKey_iff.mp hi) (h.samePtrs.hasKey_iff.mp hj)
  pair i k hi hc := by
    have hi' := h.samePtrs.hasKey_iff.mp hi
    obtain ⟨hsame, hle⟩ := h.paired hi'.1 hc
    rw [hsame, h.spare _ hle]
    exact hok.pair i k hi' hle

theorem ValsOK.reslot {W : Key → Word → Prop} (hok : ValsOK W p m) (h : Reslotted m m') : ValsOK W p m' := by
  intro i k hi hc
  have hi' := h.samePtrs.hasKey_iff.mp hi
  obtain ⟨hsame, hle⟩ := h.paired hi'.1 hc
  rw [hsame, h.spare _ (Nat.le_succ_of_le hle)]
  exact hok i k hi' hle

/-- The `control_bit` in the next cell lies below the slots that are in use once it is filled. -/
def DLeaf.CleanCell (m : DLeaf) : Prop := m.control m.maxUse ≤ m.maxUse

omit [Pmem P] in
/-- What `quick_insert` fills is what `insert` fills, up to pairs that are given up. -/
theorem quickFill_reslotted (hview : SameView m m') (hclean : m.CleanCell) (duplicate : Bool) :
    Reslotted (m.push k addr) (m'.quickFill k addr duplicate) := by
  have huse : (m.push k addr).maxUse = m.maxUse + 1 := rfl
  -- the cells of the filled leaf
  have hcell : ∀ i, (m'.quickFill k addr duplicate).fingerPrint i =
      if i = m.maxUse then
        { m'.fingerPrint m.maxUse with
          hashByte := hashfunc k, ptrField := BitVec.ofNat 48 addr, accessBit := if duplicate then 1 else 0 }
      else if LEFT_KEY ≤ m.maxUse ∧ i = m.maxUse - LEFT_KEY then { m'.fingerPrint i with controlBit := 0 }
      else m'.fingerPrint i := by
    intro i
    have hpos : 0 < LEFT_KEY := by decide
    rw [DLeaf.quickFill, hview.use]
    dsimp only
    by_cases hlow : LEFT_KEY ≤ m.maxUse
    · rw [if_pos hlow]
      by_cases hi : i = m.maxUse
      · subst hi
        rw [if_pos rfl, Function.update_of_ne (by omega), Function.update_self]
      · rw [if_neg hi]
        by_cases hback : i = m.maxUse - LEFT_KEY
        · subst hback
          have hboth : LEFT_KEY ≤ m.maxUse ∧ m.maxUse - LEFT_KEY = m.maxUse - LEFT_KEY := ⟨hlow, rfl⟩
          rw [if_pos hboth, Function.update_self, Function.update_of_ne hi]
        · have hnot : ¬ (LEFT_KEY ≤ m.maxUse ∧ i = m.maxUse - LEFT_KEY) := fun hc => hback hc.2
          rw [if_neg hnot, Function.update_of_ne hback, Function.update_of_ne hi]
    · have hnot : ¬ (LEFT_KEY ≤ m.maxUse ∧ i = m.maxUse - LEFT_KEY) := fun hc => hlow hc.1
      rw [if_neg hlow, if_neg hnot]
      by_cases hi : i = m.maxUse
      · subst hi
        rw [if_pos rfl, Function.update_self]
      · rw [if_neg hi, Function.update_of_ne hi]
  have hpush : ∀ i, i ≠ m.maxUse → (m.push k addr).fingerPrint i = m.fingerPrint i :=
    fun i hi => Function.update_of_ne hi ..
  -- the new slot is the same in both, and one slot of the first half may lose its pair
  have hpushed : (m.push k addr).fingerPrint m.maxUse = newSlot k addr := Function.update_self ..
  refine ⟨congrArg Nat.succ hview.use, fun i hi => ?_, fun i hi => ?_, fun i hi => ?_⟩
  · rw [DLeaf.ptr, DLeaf.ptr, hcell]
    by_cases hlast : i = m.maxUse
    · subst hlast
      rw [if_pos rfl, hpushed]
      exact ⟨rfl, rfl⟩
    · obtain ⟨hhash, -, hptr⟩ := hview.slot i (by omega)
      rw [if_neg hlast, hpush i hlast]
      split
      · exact ⟨hhash, congrArg BitVec.toNat hptr⟩
      · exact ⟨hhash, congrArg BitVec.toNat hptr⟩
  · rw [DLeaf.control, DLeaf.control, hcell, huse]
    by_cases hlast : i = m.maxUse
    · subst hlast
      rw [if_pos rfl, hview.spare _ (Nat.le_refl _)]
      exact Or.inr (Nat.lt_succ_of_le hclean)
    · obtain ⟨-, hctl, -⟩ := hview.slot i (by omega)
      rw [if_neg hlast, hpush i hlast]
      split
      · exact Or.inr (Nat.succ_pos _)
      · exact Or.inl (congrArg BitVec.toNat hctl)
  · rw [huse] at hi
    rw [hcell, if_neg (by omega), if_neg (by omega), hpush i (by omega)]
    exact hview.spare i (by omega)

/-- The slot loop goes through when the key is not there, and changes access bits only. -/
theorem quickScan_run {m₀ : DLeaf} (hok : SlotsOK p m₀) (hno : ∀ i, ¬ HasKey p m₀ k i) (n i : Nat)
    (hend : i + n = m₀.maxUse) (duplicate : Bool) (hview : SameView m₀ m) :
    ∃ duplicate' m', quickScan p k n i duplicate m = .ok (duplicate', m') ∧ SameView m₀ m' := by
  induction n generalizing i duplicate m with
  | zero => exact ⟨duplicate, m, rfl, hview⟩
  | succ n ih =>
    have hi : i < m₀.maxUse := by omega
    rw [quickScan]
    dsimp only
    split
    · obtain ⟨k', v, hkey, -⟩ := hok.read i hi
      have hread : logKey p (m.fingerPrint i).ptrField.toNat = some k' := by
        rw [← hkey, ← hview.ptr hi]
        rfl
      have hne : k' ≠ k := fun heq => hno i ⟨hi, heq ▸ hkey⟩
      rw [hread, deref_some, ok_bind, if_neg hne]
      apply ih (i + 1) (by omega)
      refine ⟨hview.use, fun j hj => ?_, fun j hj => ?_⟩
      · by_cases hji : j = i
        · subst hji
          dsimp only
          rw [Function.update_self]
          exact hview.slot j hj
        · dsimp only
          rw [Function.update_of_ne hji]
          exact hview.slot j hj
      · dsimp only
        rw [Function.update_of_ne (by omega)]
        exact hview.spare j hj
    · exact ih (i + 1) (by omega) duplicate hview

end Reslot

/-! ### The round that finds room -/

section Rounds

variable [Pmem P] {s : TreeState P} {t : Tid} {k : Key} {v : Word} {a L : Addr} {m m₁ : DLeaf} {path : List Cursor}
  {duplicate : Bool}

theorem quickInsert_of_room (hfind : findInsert s k = .ok (path, L)) (hm : s.dleafHeap L = some m)
    (hfree : m.tempInsert = 0)
    (hscan : quickScan s.pm k m.maxUse 0 false { m with tempInsert := 1 } = .ok (duplicate, m₁))
    (hroom : m₁.maxUse < MAX_LEAF_KEY) (fuel : Nat) :
    quickInsert (fuel + 1) s t k a = .ok (s.setLeaf L (m₁.quickFill k a duplicate)) := by
  have hm₁ : (s.setLeaf L { m with tempInsert := 1 }).dleafHeap L = some { m with tempInsert := 1 } :=
    Function.update_self ..
  have hscan' : quickScan (s.setLeaf L { m with tempInsert := 1 }).pm k m.maxUse 0 false { m with tempInsert := 1 } =
      .ok (duplicate, m₁) := hscan
  have hstate : (s.setLeaf L { m with tempInsert := 1 }).setLeaf L (m₁.quickFill k a duplicate) =
      s.setLeaf L (m₁.quickFill k a duplicate) := by
    simp only [TreeState.setLeaf, Function.update_idem]
  rw [quickInsert, lockLeaf_free hfind hm hfree]
  simp only [ok_bind, Bool.not_true, Bool.false_eq_true, if_false, hm₁, deref_some, hscan', if_pos hroom, hstate,
    pure_eq_ok]

/-- A round of `quick_insert` on a full leaf, up to the `goto`. -/
def quickRestart (s : TreeState P) (t : Tid) (key : Key) : Exec (TreeState P) := do
  let (_, leaf, s) ← lockLeaf s key
  let m ← deref (s.dleafHeap leaf)
  let (_, m) ← quickScan s.pm key m.maxUse 0 false m
  let (leaf2, splitKey, insertLeaf, s) ← quickSplit (s.setLeaf leaf m) t leaf
  installSeparator s key splitKey leaf leaf2 insertLeaf

theorem quickInsert_of_full {leaf2 insertLeaf : Addr} {splitKey : Key} {s₂ s₃ : TreeState P}
    (hfind : findInsert s k = .ok (path, L)) (hm : s.dleafHeap L = some m) (hfree : m.tempInsert = 0)
    (hscan : quickScan s.pm k m.maxUse 0 false { m with tempInsert := 1 } = .ok (duplicate, m₁))
    (hfull : ¬ m₁.maxUse < MAX_LEAF_KEY)
    (hsplit : quickSplit (s.setLeaf L m₁) t L = .ok (leaf2, splitKey, insertLeaf, s₂))
    (hinst : installSeparator s₂ k splitKey L leaf2 insertLeaf = .ok s₃) :
    quickRestart s t k = .ok s₃ ∧ ∀ fuel, quickInsert (fuel + 1) s t k a = quickInsert fuel s₃ t k a := by
  have hm₁ : (s.setLeaf L { m with tempInsert := 1 }).dleafHeap L = some { m with tempInsert := 1 } :=
    Function.update_self ..
  have hscan' : quickScan (s.setLeaf L { m with tempInsert := 1 }).pm k m.maxUse 0 false { m with tempInsert := 1 } =
      .ok (duplicate, m₁) := hscan
  have hstate : (s.setLeaf L { m with tempInsert := 1 }).setLeaf L m₁ = s.setLeaf L m₁ := by
    simp only [TreeState.setLeaf, Function.update_idem]
  constructor
  · simp only [quickRestart, lockLeaf_free hfind hm hfree, ok_bind, hm₁, deref_some, hscan', hstate, hsplit, hinst]
  · intro fuel
    rw [quickInsert, lockLeaf_free hfind hm hfree]
    simp only [ok_bind, Bool.not_true, Bool.false_eq_true, if_false, hm₁, deref_some, hscan', if_neg hfull, hstate,
      hsplit, hinst]

variable [LawfulPmem P] {tail : Addr}

theorem Inv.rewrite_grows {cuts : Cuts} {m' : DLeaf} (h : Inv cuts tail s) (hm : s.dleafHeap L = some m)
    (hptrs : SamePtrs m m') (hslots : SlotsOK s.pm m') (hnext : m'.next = m.next) (halt : m'.altPtr = m.altPtr)
    (hlock : LockOK (cuts L) m')
    (hvals : ∀ W : Key → Word → Prop, (∀ k v, s.Contains k v → W k v) → PairsIn W s → ValsOK W s.pm m') :
    Inv cuts tail (s.setLeaf L m') ∧ (∀ k v, (s.setLeaf L m').Contains k v ↔ s.Contains k v) ∧
      Grows s (s.setLeaf L m') := by
  have hcont := contains_rewrite hm hptrs
  refine ⟨h.rewrite hm hptrs hslots hnext halt hlock, hcont, fun k v hv => (hcont k v).mpr hv, ?_⟩
  intro W hW hpairs
  exact hpairs.rewrite (hvals W (fun k v hv => hW k v ((hcont k v).mpr hv)) hpairs)

theorem quickScan_locked {cuts : Cuts} (h : Inv cuts tail s) (hm : s.dleafHeap L = some m) (hnew : Absent s k) :
    ∃ duplicate slots, quickScan s.pm k m.maxUse 0 false { m with tempInsert := 1 } =
        .ok (duplicate, { m with tempInsert := 1, fingerPrint := slots }) ∧
      SameView m { m with tempInsert := 1, fingerPrint := slots } := by
  have hlock : SameView m { m with tempInsert := 1 } := SameView.of_slots rfl rfl
  obtain ⟨duplicate, m', hrun, hview⟩ := quickScan_run (h.data.slots L m hm) (fun i => hnew L m i hm) m.maxUse 0
    (Nat.zero_add _) false hlock
  obtain ⟨slots, rfl⟩ := quickScan_eq hrun
  exact ⟨duplicate, slots, hrun, hview⟩

/-- Filling the next cell of a leaf, with the access bits of the slot loop. -/
theorem Inv.quickFill {cuts : Cuts} {m' : DLeaf} (h : Inv cuts tail s) {n : Nat} (hok : Ok n s.pm)
    (hrec : a ∈ recs s.pm) (hkey : logKey s.pm a = some k) (hval : logVal s.pm a = some v)
    (hm : s.dleafHeap L = some m) (hroute : Routes s.index k L) (hcut : cuts L = none)
    (hroom : m.maxUse < MAX_LEAF_KEY) (hclean : m.CleanCell) (hnew : Absent s k) (hview : SameView m m')
    (hnext : m'.next = m.next) (halt : m'.altPtr = m.altPtr) (duplicate : Bool) :
    Inv cuts tail (s.setLeaf L (m'.quickFill k a duplicate)) ∧
      (∀ k' v', (s.setLeaf L (m'.quickFill k a duplicate)).Contains k' v' ↔
        s.Contains k' v' ∨ (k' = k ∧ v' = v)) ∧
      Grows s (s.setLeaf L (m'.quickFill k a duplicate)) := by
  have hlt : a < 2 ^ 48 := rec_lt hok hrec
  -- first as if `insert` had filled the slot
  obtain ⟨hinv, hcont, hgrows⟩ := h.push hlt (Set.insert_eq_of_mem hrec).symm rfl hkey hval (fun _ _ => ⟨rfl, rfl⟩)
    (fun _ _ => rfl) hm hroute hcut hroom fun i => hnew L m i hm
  have hm₁ : (s.setLeaf L (m.push k a)).dleafHeap L = some (m.push k a) := Function.update_self ..
  have hre : Reslotted (m.push k a) (m'.quickFill k a duplicate) := quickFill_reslotted hview hclean duplicate
  have hstate : (s.setLeaf L (m.push k a)).setLeaf L (m'.quickFill k a duplicate) =
      s.setLeaf L (m'.quickFill k a duplicate) := by
    simp only [TreeState.setLeaf, Function.update_idem]
  have hlock : LockOK (cuts L) (m'.quickFill k a duplicate) := by
    rw [hcut]
    exact Nat.zero_le 1
  obtain ⟨hinv', hcont', hgrows'⟩ := hinv.rewrite_grows hm₁ hre.samePtrs
    (SlotsOK.reslot (hinv.data.slots L _ hm₁) hre) hnext halt hlock
    fun W _ hpairs => (hpairs L _ hm₁).reslot hre
  have hgrows₂ := hgrows.trans hgrows'
  rw [hstate] at hinv' hcont' hgrows₂
  exact ⟨hinv', fun k' v' => (hcont' k' v').trans (hcont k' v'), hgrows₂⟩

theorem quickInsert_room (h : Inv Cuts.empty tail s) {n : Nat} (hok : Ok n s.pm) (hrec : a ∈ recs s.pm)
    (hkey : logKey s.pm a = some k) (hval : logVal s.pm a = some v) (hfind : findInsert s k = .ok (path, L))
    (hm : s.dleafHeap L = some m) (hfree : m.tempInsert = 0) (hroom : m.maxUse < MAX_LEAF_KEY)
    (hclean : m.CleanCell) (hnew : Absent s k) (fuel : Nat) :
    ∃ s', quickInsert (fuel + 1) s t k a = .ok s' ∧ Inserted tail s s' k v n ∧ s'.index = s.index ∧
      s'.pm = s.pm := by
  have hroute := h.routes_of_find hfind
  obtain ⟨duplicate, slots, hscan, hview⟩ := quickScan_locked h hm hnew
  obtain ⟨hinv, hcont, hgrows⟩ :=
    h.quickFill hok hrec hkey hval hm hroute rfl hroom hclean hnew hview rfl rfl duplicate
  refine ⟨_, quickInsert_of_room hfind hm hfree hscan hroom fuel, ⟨hinv, hok, hcont, hgrows, fun hall => ?_,
    Nat.le_succ _⟩, rfl, rfl⟩
  exact allFree_setLeaf (fun b n' _ hn => hall b n' hn) rfl

end Rounds

/-! ### The round that splits -/

theorem fingerDiffer_slot (array : Nat → AdaptiveSlot) (results : Nat → Nat) (countResult : Nat)
    (hresults : ∀ j < countResult, results j < MAX_LEAF_KEY) (i : Nat) :
    (∃ bit, fingerDiffer array results countResult i = { array i with accessBit := bit }) ∧
      (MAX_LEAF_KEY ≤ i → fingerDiffer array results countResult i = array i) := by
  rw [fingerDiffer_eq]
  apply Arrays.foldl_range_induction
    (fun _ (slots : Nat → AdaptiveSlot) => (∃ bit, slots i = { array i with accessBit := bit }) ∧
      (MAX_LEAF_KEY ≤ i → slots i = array i))
  · exact ⟨⟨_, rfl⟩, fun _ => rfl⟩
  · rintro j slots hj ⟨⟨bit, hbit⟩, hout⟩
    refine ⟨?_, fun hi => ?_⟩
    · obtain ⟨bit', hbit'⟩ : ∃ bit', clearFake results (differTemp array results countResult) slots j i =
          { slots i with accessBit := bit' } := clearFake_rest i j
      exact ⟨bit', by rw [hbit', hbit]⟩
    · have hne : i ≠ results j := Nat.ne_of_gt ((hresults j hj).trans_le hi)
      unfold clearFake
      split
      · exact hout hi
      · rw [Function.update_of_ne hne]
        exact hout hi

theorem filterDuplicates_slot (fingers : Nat → AdaptiveSlot) (i : Nat) :
    (∃ bit, filterDuplicates fingers i = { fingers i with accessBit := bit }) ∧
      (MAX_LEAF_KEY ≤ i → filterDuplicates fingers i = fingers i) := by
  unfold filterDuplicates
  dsimp only
  split
  · apply fingerDiffer_slot
    intro j hj
    rw [List.getD_eq_getElem?_getD, List.getElem?_eq_getElem hj, Option.getD_some]
    exact List.mem_range.mp (List.mem_filter.mp (List.getElem_mem hj)).1
  · exact ⟨⟨_, rfl⟩, fun _ => rfl⟩

/-- The leaf with the access bits that the sorted slots have. -/
def DLeaf.withAccess (m : DLeaf) (σ : Equiv.Perm Nat) (fingers : Nat → AdaptiveSlot) : DLeaf :=
  { m with fingerPrint := fun j => { m.fingerPrint j with accessBit := (fingers (σ.symm j)).accessBit } }

section Filter

variable {m : DLeaf} {σ : Equiv.Perm Nat}

theorem withAccess_fingers (m : DLeaf) (σ : Equiv.Perm Nat) :
    (m.withAccess σ (filterDuplicates (m.fingerBuffer ∘ σ))).fingerBuffer ∘ σ =
      filterDuplicates (m.fingerBuffer ∘ σ) := by
  funext i
  obtain ⟨bit, hbit⟩ := (filterDuplicates_slot (m.fingerBuffer ∘ σ) i).1
  show ({ m.fingerPrint (σ i) with
    accessBit := (filterDuplicates (m.fingerBuffer ∘ σ) (σ.symm (σ i))).accessBit
    controlBit := 0 } : AdaptiveSlot) = _
  rw [σ.symm_apply_apply, hbit]
  rfl

theorem withAccess_view (hfull : m.maxUse = MAX_LEAF_KEY) (hσ : Arrays.PermOn 0 (MAX_LEAF_KEY - 1) σ) :
    SameView m (m.withAccess σ (filterDuplicates (m.fingerBuffer ∘ σ))) := by
  refine ⟨rfl, fun i _ => ⟨rfl, rfl, rfl⟩, fun i hi => ?_⟩
  rw [hfull] at hi
  have hfix : σ.symm i = i := by
    rw [Equiv.symm_apply_eq]
    exact (hσ i (Or.inr (Nat.lt_of_lt_of_le (by decide) hi))).symm
  show ({ m.fingerPrint i with
    accessBit := (filterDuplicates (m.fingerBuffer ∘ σ) (σ.symm i)).accessBit } : AdaptiveSlot) = m.fingerPrint i
  rw [hfix, (filterDuplicates_slot (m.fingerBuffer ∘ σ) i).2 hi]
  show ({ m.fingerPrint i with accessBit := (m.fingerPrint (σ i)).accessBit } : AdaptiveSlot) = m.fingerPrint i
  rw [← (Equiv.symm_apply_eq σ).mp hfix]

end Filter

section Split

variable [Pmem P] {s : TreeState P} {t : Tid} {L : Addr} {m : DLeaf}

theorem quickSplit_run {buf keys : Nat → NodeEntry} {fingers : Nat → AdaptiveSlot} {newLeaf : Addr} {pm pm' : P}
    (hm : s.dleafHeap L = some m) (hbuf : readEntries s.pm m MAX_LEAF_KEY = .ok buf)
    (hsort : qsort (2 * MAX_LEAF_KEY) 0 (MAX_LEAF_KEY - 1) buf m.fingerBuffer = some (keys, fingers))
    (halloc : nAllocate s.pm t = some (newLeaf, pm))
    (hlink : linkPleaf pm m.altPtr newLeaf (keys (LEFT_KEY - 1)).oneKey (keys (MAX_LEAF_KEY - 1)).oneKey = .ok pm') :
    quickSplit s t L = .ok (s.brk + 1, (keys SPLIT_POS).oneKey, m.altPtr,
      splitState s L m (filterDuplicates fingers) keys newLeaf pm') := by
  simp only [quickSplit, hm, deref_some, ok_bind, hbuf, hsort, bounded, splitLeaf, TreeState.stackBuf,
    TreeState.mallocLeaf, TreeState.setLeaf, halloc, Function.update_self, hlink, pure_eq_ok]
  rfl

variable [LawfulPmem P] {tail : Addr}

/-- Splitting a full leaf that is held, with the filtered slots. -/
theorem Inv.quickSplit {cuts : Cuts} (h : Inv cuts tail s) {n : Nat} (hok : Ok (n + 1) s.pm) (t : Tid)
    (hm : s.dleafHeap L = some m) (hL : L ∈ labels s.index) (hcut : cuts L = none) (hheld : m.tempInsert = 1)
    (hfull : m.maxUse = MAX_LEAF_KEY) :
    ∃ (σ : Equiv.Perm Nat) (buf : Nat → NodeEntry) (newLeaf : Addr) (pm : P),
      ZBTree.quickSplit s t L = .ok (s.brk + 1, (buf (σ SPLIT_POS)).oneKey, m.altPtr,
        splitState s L m (filterDuplicates (m.fingerBuffer ∘ σ)) (buf ∘ σ) newLeaf pm) ∧
      Ok n pm ∧ recs pm = recs s.pm ∧ SameRecs (recs s.pm) s.pm pm ∧
      Inv (Function.update cuts L (some (splitCut s m σ buf))) tail
        (splitState s L m (filterDuplicates (m.fingerBuffer ∘ σ)) (buf ∘ σ) newLeaf pm) ∧
      (∀ k v, (splitState s L m (filterDuplicates (m.fingerBuffer ∘ σ)) (buf ∘ σ) newLeaf pm).Contains k v ↔
        s.Contains k v) ∧
      Grows s (splitState s L m (filterDuplicates (m.fingerBuffer ∘ σ)) (buf ∘ σ) newLeaf pm) := by
  obtain ⟨buf, hbuf, hentries⟩ := readEntries_spec MAX_LEAF_KEY fun i hi =>
    (h.data.slots L m hm).read i (by rw [hfull]; exact hi)
  obtain ⟨σ, hsort, hperm, hsorted⟩ := qsort_spec 29 (2 * MAX_LEAF_KEY) 0 (MAX_LEAF_KEY - 1) buf
    m.fingerBuffer (by decide) (by decide)
  have hpl : m.altPtr ∈ leaves s.pm := by
    have hmem := h.twin.mem L (mem_leaves_of_index hL)
    rwa [TreeState.pleafOf, hcut, TreeState.altOf_some hm] at hmem
  obtain ⟨q, pm₁, pm, l, halloc, hlink, hok', hqfresh, hleaves, hrecs, hsame, hl, hleft, hright, hoff⟩ :=
    split_memory hok t hpl ((buf ∘ σ) (LEFT_KEY - 1)).oneKey ((buf ∘ σ) (MAX_LEAF_KEY - 1)).oneKey
  refine ⟨σ, buf, q, pm, quickSplit_run hm hbuf hsort halloc hlink, hok', hrecs, hsame, ?_⟩
  -- the split of the leaf with the access bits of the filtered slots
  obtain ⟨m', hnext, halt, hheld', hview, hfingers⟩ : ∃ m', m'.next = m.next ∧ m'.altPtr = m.altPtr ∧
      m'.tempInsert = m.tempInsert ∧ SameView m m' ∧
      m'.fingerBuffer ∘ σ = filterDuplicates (m.fingerBuffer ∘ σ) :=
    ⟨_, rfl, rfl, rfl, withAccess_view hfull hperm, withAccess_fingers m σ⟩
  have hinv : Inv cuts tail (s.setLeaf L m') :=
    h.setLeaf hm hview hnext halt (by rw [LockOK, hheld']; exact (h.skel.leaf L m hm).2)
  have hleaf : (s.setLeaf L m').dleafHeap L = some m' := Function.update_self ..
  have hfull' : m'.maxUse = MAX_LEAF_KEY := hview.use.trans hfull
  have hsp : SplitOf (s.setLeaf L m') L m' σ buf := by
    refine ⟨hleaf, hfull', hperm, hsorted, fun i hi => ?_⟩
    rw [hview.ptr (by rw [hfull]; exact hi)]
    exact hentries i hi
  rw [← halt] at hl hleft hoff
  obtain ⟨hafter, hcont, hgrows⟩ := hinv.split hsp hL hcut (hheld'.trans hheld) hqfresh hleaves hrecs hsame hl hleft
    hright hoff
  rw [← hfingers]
  -- the cells of the left half that are not in use keep the old access bits
  have hLlt := (hinv.skel.leaf_lt L (mem_leaves_of_index hL)).2
  obtain ⟨hleftX, -, -⟩ := splitState_heap m' (m'.fingerBuffer ∘ σ) (buf ∘ σ) q pm hLlt
  have hhalfX := isHalf_left m' { m' with altPtr := s.brk, tempInsert := m'.tempInsert + 1 } σ buf (s.brk + 1)
  have hhalf := isHalf_left m' { m with altPtr := s.brk, tempInsert := m.tempInsert + 1 } σ buf (s.brk + 1)
  have hptrs := SamePtrs.mk (hhalf.use.trans hhalfX.use.symm) fun i hi => by
    rw [hhalfX.use] at hi
    exact (hhalf.ptr hi).trans (hhalfX.ptr hi).symm
  obtain ⟨hslotsL, hvalsL⟩ := hhalf.slotsOK hperm (Nat.zero_le _) (hinv.data.slots L _ hleaf) hfull' hsp.entries
  have hsameL := sameSlots_of_recs hsame fun i hi => hhalf.ptr_mem hinv.data.located hsp (Nat.zero_le _) hi
  have hlock := (hafter.skel.leaf L _ hleftX).2
  obtain ⟨hinv', hcont', hgrows'⟩ := hafter.rewrite_grows hleftX hptrs (hslotsL.congr hsameL)
    (by rw [DLeaf.leftHalf_next, DLeaf.leftHalf_next]; rfl) (by rw [DLeaf.leftHalf_altPtr, DLeaf.leftHalf_altPtr]; rfl)
    (by
      rw [LockOK, DLeaf.leftHalf_tempInsert] at hlock ⊢
      rwa [← hheld'])
    fun W hW _ => (hvalsL.congr hsameL).mono fun k v hv => hW k v ((hcont k v).mpr ⟨L, _, hleaf, hv⟩)
  -- the run ends in the state of the ordinary split, but for those bits
  have hstate : (afterSplit (s.setLeaf L m') L m' σ buf q pm).setLeaf L
      (DLeaf.leftHalf { m with altPtr := s.brk, tempInsert := m.tempInsert + 1 } (m'.fingerBuffer ∘ σ) (buf ∘ σ)
        (s.brk + 1)) = splitState s L m (m'.fingerBuffer ∘ σ) (buf ∘ σ) q pm := by
    have hright : DLeaf.rightHalf { m' with altPtr := s.brk, tempInsert := m'.tempInsert + 1 } (s.junkLeaf (s.brk + 1))
        (m'.fingerBuffer ∘ σ) (buf ∘ σ) q = DLeaf.rightHalf { m with altPtr := s.brk, tempInsert := m.tempInsert + 1 }
          (s.junkLeaf (s.brk + 1)) (m'.fingerBuffer ∘ σ) (buf ∘ σ) q := by
      simp only [DLeaf.rightHalf, hnext]
    simp only [afterSplit, splitState, TreeState.setLeaf, Function.update_idem, hright]
    congr 1
    funext b
    by_cases hb : b = L
    · rw [hb, Function.update_self, Function.update_self]
    · rw [Function.update_of_ne hb, Function.update_of_ne hb]
      by_cases hb' : b = s.brk + 1
      · rw [hb', Function.update_self, Function.update_self]
      · rw [Function.update_of_ne hb', Function.update_of_ne hb', Function.update_of_ne hb, Function.update_of_ne hb]
  rw [hstate] at hinv' hcont' hgrows'
  have hsame' : splitCut (s.setLeaf L m') m' σ buf = splitCut s m σ buf := by
    simp only [splitCut, halt]
    rfl
  rw [hsame'] at hinv'
  refine ⟨hinv', fun k v => ?_, (Grows.setLeaf hm hview).trans (hgrows.trans hgrows')⟩
  exact (hcont' k v).trans ((hcont k v).trans (contains_setLeaf hm hview k v))

/-- What a round that splits leaves behind: the content is the same, and the key leads to a half that has
room. -/
structure Halved (tail : Addr) (s s' : TreeState P) (k : Key) (n : Nat) : Prop where
  inv : Inv Cuts.empty tail s'
  room : Ok n s'.pm
  contains : ∀ k v, s'.Contains k v ↔ s.Contains k v
  grows : Grows s s'
  free : AllFree s → AllFree s'
  records : recs s'.pm = recs s.pm
  same_recs : SameRecs (recs s.pm) s.pm s'.pm
  leads : ∃ path L m, findInsert s' k = .ok (path, L) ∧ s'.dleafHeap L = some m ∧ m.tempInsert = 0 ∧
    m.maxUse = LEFT_KEY

theorem Halved.absent {s' : TreeState P} {k : Key} {n : Nat} (hdone : Halved tail s s' k n)
    (h : Inv Cuts.empty tail s) (hnew : Absent s k) : Absent s' k := by
  rw [absent_iff hdone.inv.data.slots]
  intro v hv
  exact (absent_iff h.data.slots).mp hnew v ((hdone.contains k v).mp hv)

/-- The round that splits the leaf, as for `insert`. -/
theorem quickInsert_full {k : Key} {a : Addr} (h : Inv Cuts.empty tail s) {n : Nat} (hok : Ok (n + 1) s.pm)
    {path : List Cursor} (hfind : findInsert s k = .ok (path, L)) (hm : s.dleafHeap L = some m)
    (hfree : m.tempInsert = 0) (hfull : ¬ m.maxUse < MAX_LEAF_KEY) (hnew : Absent s k) :
    ∃ s', quickRestart s t k = .ok s' ∧
      (∀ fuel, quickInsert (fuel + 1) s t k a = quickInsert fuel s' t k a) ∧ Halved tail s s' k n := by
  have hroute := h.routes_of_find hfind
  obtain ⟨duplicate, slots, hscan, hview⟩ := quickScan_locked h hm hnew
  have hinv := h.setLeaf hm hview rfl rfl (Nat.le_refl 1)
  have hm₁ : (s.setLeaf L { m with tempInsert := 1, fingerPrint := slots }).dleafHeap L =
      some { m with tempInsert := 1, fingerPrint := slots } := Function.update_self ..
  have hfull' : m.maxUse = MAX_LEAF_KEY := Nat.le_antisymm (h.skel.leaf L m hm).1 (not_lt.mp hfull)
  obtain ⟨σ, buf, q, pm, hsplit, hok', hrecs, hsame, hinv₂, hcont₂, hgrows₂⟩ :=
    hinv.quickSplit hok t hm₁ hroute.mem rfl rfl hfull'
  obtain ⟨s', hinst, hdone, hpm⟩ :=
    install_done hinv hroute.mem ((findInsert_setLeaf ..).trans hfind) hok' hinv₂ hcont₂ hgrows₂
  obtain ⟨hrestart, hrun⟩ := quickInsert_of_full (a := a) hfind hm hfree hscan hfull hsplit hinst
  refine ⟨s', hrestart, hrun, hdone.inv, hdone.room, fun k v => ?_, (Grows.setLeaf hm hview).trans hdone.grows,
    fun hall b n' hn' => ?_, hpm ▸ hrecs, hpm ▸ hsame, hdone.leads hinv hroute⟩
  · rw [hdone.contains, contains_setLeaf hm hview]
  · by_cases hb : b = L ∨ b = s.brk + 1
    · obtain ⟨mh, hmh, hfreeh, -⟩ := hdone.halves b hb
      rw [hn', Option.some.injEq] at hmh
      rw [hmh, hfreeh]
    · push Not at hb
      rw [hdone.others b hb.1 hb.2] at hn'
      simp only [TreeState.setLeaf, Function.update_of_ne hb.1] at hn'
      exact hall b n' hn'

end Split

/-! ### The condition -/

section Clean

variable [Pmem P]

/-- In each of the rounds that a call may take, the leaf of the key is full or its next cell is clean. -/
def FillsClean : Nat → TreeState P → Tid → Key → Prop
  | 0, _, _, _ => True
  | n + 1, s, t, key => ∀ path leaf m, findInsert s key = .ok (path, leaf) → s.dleafHeap leaf = some m →
      if m.maxUse < MAX_LEAF_KEY then m.CleanCell
      else ∀ s', quickRestart s t key = .ok s' → FillsClean n s' t key

/-- The condition along the calls of `quick_insert` for a list of records. -/
def CleanRun (t : Tid) : TreeState P → List (Key × Addr) → Prop
  | _, [] => True
  | s, (key, val) :: rest =>
      FillsClean 2 s t key ∧ ∀ s', quickInsert 2 s t key val = .ok s' → CleanRun t s' rest

instance (m : DLeaf) : Decidable m.CleanCell := inferInstanceAs (Decidable (_ ≤ _))

/-- The two conditions, evaluated. -/
def fillsClean : Nat → TreeState P → Tid → Key → Bool
  | 0, _, _, _ => true
  | n + 1, s, t, key => match findInsert s key with
    | .error _ => true
    | .ok (_, leaf) => match s.dleafHeap leaf with
      | none => true
      | some m =>
        if m.maxUse < MAX_LEAF_KEY then decide m.CleanCell
        else match quickRestart s t key with
          | .error _ => true
          | .ok s' => fillsClean n s' t key

def cleanRun (t : Tid) : TreeState P → List (Key × Addr) → Bool
  | _, [] => true
  | s, (key, val) :: rest => fillsClean 2 s t key && match quickInsert 2 s t key val with
    | .error _ => true
    | .ok s' => cleanRun t s' rest

variable {s : TreeState P} {t : Tid} {x y : Addr} {key : Key}

theorem fillsClean_sound {n : Nat} (h : fillsClean n s t key = true) : FillsClean n s t key := by
  induction n generalizing s with
  | zero => trivial
  | succ n ih =>
    intro path leaf m hfind hm
    simp only [fillsClean, hfind, hm] at h
    split at h
    · next hroom =>
      rw [if_pos hroom]
      exact of_decide_eq_true h
    · next hfull =>
      rw [if_neg hfull]
      intro s' hs'
      rw [hs'] at h
      exact ih h

theorem cleanRun_sound {records : List (Key × Addr)} (h : cleanRun t s records = true) : CleanRun t s records := by
  induction records generalizing s with
  | nil => trivial
  | cons r records ih =>
    obtain ⟨hfills, hrest⟩ := Bool.and_eq_true_iff.mp h
    refine ⟨fillsClean_sound hfills, fun s' hs' => ih ?_⟩
    rw [hs'] at hrest
    exact hrest

theorem quickRestart_anchored : quickRestart (s.anchored x y) t key =
    (quickRestart s t key).map (TreeState.anchored · x y) := by
  rw [quickRestart, quickRestart, lockLeaf_anchored]
  cases lockLeaf s key with
  | error e => rfl
  | ok r =>
    obtain ⟨free, leaf, s₁⟩ := r
    show (deref (s₁.dleafHeap leaf) >>= _) = Except.map _ (deref (s₁.dleafHeap leaf) >>= _)
    cases s₁.dleafHeap leaf with
    | none => rfl
    | some m =>
      show (quickScan s₁.pm key m.maxUse 0 false m >>= _) =
        Except.map _ (quickScan s₁.pm key m.maxUse 0 false m >>= _)
      cases quickScan s₁.pm key m.maxUse 0 false m with
      | error e => rfl
      | ok r =>
        obtain ⟨duplicate, m'⟩ := r
        rw [ok_bind, ok_bind]
        dsimp only
        show (quickSplit ((s₁.setLeaf leaf m').anchored x y) t leaf >>= _) = _
        rw [quickSplit_anchored]
        cases quickSplit (s₁.setLeaf leaf m') t leaf with
        | error e => rfl
        | ok r =>
          obtain ⟨leaf2, splitKey, insertLeaf, s₂⟩ := r
          exact installSeparator_anchored

theorem FillsClean.of_anchored {n : Nat} (h : FillsClean n (s.anchored x y) t key) : FillsClean n s t key := by
  induction n generalizing s with
  | zero => trivial
  | succ n ih =>
    intro path leaf m hfind hm
    have hround := h path leaf m (findInsert_anchored.trans hfind) hm
    split at hround
    · next hroom =>
      rw [if_pos hroom]
      exact hround
    · next hfull =>
      rw [if_neg hfull]
      intro s' hs'
      apply ih
      apply hround
      rw [quickRestart_anchored, hs']
      rfl

theorem CleanRun.of_anchored {records : List (Key × Addr)} (h : CleanRun t (s.anchored x y) records) :
    CleanRun t s records := by
  induction records generalizing s with
  | nil => trivial
  | cons r records ih =>
    obtain ⟨hclean, hrest⟩ := h
    refine ⟨hclean.of_anchored, fun s' hs' => ?_⟩
    apply ih
    apply hrest
    rw [quickInsert_anchored, hs']
    rfl

end Clean

/-! ### Recovery -/

section Recovery

variable [Pmem P] [LawfulPmem P] {s s' : TreeState P} {t : Tid} {tail : Addr} {M : Key → Option Word} {n : Nat}
  {k : Key} {v : Word} {V : Key → Word} {a : Addr}

theorem Halved.represents {n' : Nat} (hdone : Halved tail s s' k n) (h : Represents n' tail s M) :
    Represents n tail s' M :=
  ⟨hdone.inv, hdone.room, hdone.free h.free, hdone.grows.fresh h.fresh,
    fun k' v' => (hdone.contains k' v').trans (h.content k' v')⟩

/-- The record of `key` at `a` has the value that `V` says. -/
def InLog (p : P) (V : Key → Word) (key : Key) (a : Addr) : Prop :=
  a ∈ recs p ∧ logKey p a = some key ∧ logVal p a = some (V key)

theorem InLog.congr {p p' : P} (h : InLog p V k a) (hrecs : recs p' = recs p) (hsame : SameRecs (recs p) p p') :
    InLog p' V k a := by
  obtain ⟨hrec, hkey, hval⟩ := h
  obtain ⟨hkey', hval'⟩ := hsame a hrec
  exact ⟨hrecs ▸ hrec, hkey'.trans hkey, hval'.trans hval⟩

/-- `quick_insert` of a record of a key that is not in the tree. -/
theorem Represents.quickInsert (h : Represents (n + 1) tail s M) (hk : M k = none) (hlog : InLog s.pm V k a)
    (hclean : FillsClean 2 s t k) : ∃ s', ZBTree.quickInsert 2 s t k a = .ok s' ∧
      Represents n tail s' (Function.update M k (some (V k))) ∧ recs s'.pm = recs s.pm ∧
      SameRecs (recs s.pm) s.pm s'.pm := by
  obtain ⟨path, L, m, hfind, -, -, hm⟩ := h.inv.reaches k
  have hround := hclean path L m hfind hm
  by_cases hroom : m.maxUse < MAX_LEAF_KEY
  · rw [if_pos hroom] at hround
    obtain ⟨hrec, hkey, hval⟩ := hlog
    obtain ⟨s', hrun, hdone, -, hpm⟩ := quickInsert_room (t := t) h.inv (ok_mono (Nat.le_succ n) h.room) hrec hkey
      hval hfind hm (h.free L m hm) hroom hround (h.absent hk) 1
    refine ⟨s', hrun, h.inserted hk hdone, ?_⟩
    rw [hpm]
    exact ⟨rfl, fun b _ => ⟨rfl, rfl⟩⟩
  · rw [if_neg hroom] at hround
    obtain ⟨s₁, hrestart, hrun₁, hhalved⟩ := quickInsert_full (a := a) h.inv h.room hfind hm
      (h.free L m hm) hroom (h.absent hk)
    -- the half has room
    obtain ⟨path', L', m', hfind', hm', hfree', huse'⟩ := hhalved.leads
    have hroom' : m'.maxUse < MAX_LEAF_KEY := by
      rw [huse']
      decide
    have hround' := hround s₁ hrestart path' L' m' hfind' hm'
    rw [if_pos hroom'] at hround'
    obtain ⟨hrec, hkey, hval⟩ := hlog.congr hhalved.records hhalved.same_recs
    have h₁ := hhalved.represents h
    obtain ⟨s', hrun, hdone, -, hpm⟩ := quickInsert_room (t := t) h₁.inv h₁.room hrec hkey hval hfind' hm'
      hfree' hroom' hround' (h₁.absent hk) 0
    refine ⟨s', (hrun₁ 1).trans hrun, h₁.inserted hk hdone, ?_⟩
    rw [hpm]
    exact ⟨hhalved.records, hhalved.same_recs⟩

/-- The calls of `quick_insert` for a list of records, by induction on the list. -/
theorem Represents.quickRun (records : List (Key × Addr)) (h : Represents (records.length + n) tail s M)
    (hkeys : (records.map Prod.fst).Nodup) (hnew : ∀ r ∈ records, M r.1 = none)
    (hlog : ∀ r ∈ records, InLog s.pm V r.1 r.2) (hclean : CleanRun t s records) :
    ∃ s', ZBTree.quickRun t s records = .ok s' ∧
      Represents n tail s' fun k => if k ∈ records.map Prod.fst then some (V k) else M k := by
  induction records generalizing s M with
  | nil =>
    rw [List.length_nil, Nat.zero_add] at h
    exact ⟨s, rfl, by simpa using h⟩
  | cons r records ih =>
    obtain ⟨key, val⟩ := r
    obtain ⟨hfirst, hrest⟩ := hclean
    rw [List.map_cons, List.nodup_cons] at hkeys
    obtain ⟨hnotin, hkeys⟩ := hkeys
    have hroom : (((key, val) :: records).length + n) = (records.length + n) + 1 := by
      rw [List.length_cons, Nat.add_right_comm]
    rw [hroom] at h
    obtain ⟨s₁, hrun₁, h₁, hrecs, hsame⟩ := h.quickInsert (hnew _ List.mem_cons_self)
      (hlog _ List.mem_cons_self) hfirst
    have hne : ∀ r ∈ records, r.1 ≠ key := fun r hr heq => hnotin (List.mem_map.mpr ⟨r, hr, heq⟩)
    obtain ⟨s', hrun, h'⟩ := ih h₁ hkeys
      (fun r hr => by rw [Function.update_of_ne (hne r hr)]; exact hnew r (List.mem_cons_of_mem _ hr))
      (fun r hr => (hlog r (List.mem_cons_of_mem _ hr)).congr hrecs hsame) (hrest s₁ hrun₁)
    refine ⟨s', ?_, ?_⟩
    · rw [ZBTree.quickRun, hrun₁, ok_bind]
      exact hrun
    · have hmap : (fun k => if k ∈ ((key, val) :: records).map Prod.fst then some (V k) else M k) =
          fun k => if k ∈ records.map Prod.fst then some (V k) else Function.update M key (some (V key)) k := by
        funext k'
        by_cases hk : k' = key
        · subst hk
          simp
        · rw [Function.update_of_ne hk]
          exact if_congr (List.mem_cons.trans (or_iff_right hk)) rfl rfl
      rw [hmap]
      exact h'

/-- The root leaf that recovery builds on zeroed memory is that of the constructor, but for the anchors. -/
theorem recoverRoot_spec {pm : P} (hok : Ok (n + 1) pm) (t : Tid) (junkInner : Addr → InnerNode)
    (junkLeaf : Addr → DLeaf) (hzero : junkLeaf 1 = zeroLeaf 1) (leafStart dstart : Addr) :
    ∃ s, recoverRoot pm t junkInner junkLeaf leafStart dstart = .ok (s.anchored leafStart dstart) ∧
      Represents n (junkLeaf 1).next s (fun _ => none) ∧ recs s.pm = recs pm ∧ SameRecs (recs pm) pm s.pm := by
  obtain ⟨s, hrun, hrep⟩ := represents_init hok t junkInner junkLeaf
  obtain ⟨q, pm₁, l, pm₂, halloc, hl, hset, rfl⟩ := init_eq_ok.mp hrun
  obtain ⟨q', pm₁', halloc', hok₁, -, hleaves₁, hrecs₁, hsame₁, -⟩ := alloc_spec t hok
  rw [halloc, Option.some.injEq, Prod.mk.injEq] at halloc'
  obtain ⟨rfl, rfl⟩ := halloc'
  have hq : q ∈ leaves pm₁ := hleaves₁ ▸ Set.mem_insert _ _
  obtain ⟨pm₂', hset', -, hrecs₂, -, -, hsame₂, -⟩ :=
    setLeaf_spec { l with next := 0, versionField := 0 } hok₁ hq
  rw [hset, Option.some.injEq] at hset'
  subst hset'
  refine ⟨_, ?_, hrep, hrecs₂.trans hrecs₁, fun a ha => ?_⟩
  · -- zeroed cells are what the constructor leaves there
    have hcells : fillWords 0 MAX_LEAF_KEY AdaptiveSlot.zero (zeroLeaf 1).fingerPrint = (zeroLeaf 1).fingerPrint := by
      funext i
      unfold fillWords
      split <;> rfl
    have halt : (zeroLeaf 1).altPtr = 0 := rfl
    simp only [recoverRoot, TreeState.mallocLeaf, Function.update_self, deref_some, ok_bind, hzero, halt, if_true,
      halloc, hl, hset, pure_eq_ok, freshTree, TreeState.anchored, DLeaf.first, hcells, TreeState.setLeaf,
      Function.update_idem]
  · obtain ⟨hkey₁, hval₁⟩ := hsame₁ a ha
    obtain ⟨hkey₂, hval₂⟩ := hsame₂ a (hrecs₁ ▸ ha)
    exact ⟨hkey₂.trans hkey₁, hval₂.trans hval₁⟩

/-- A slot of the tree points to the record of `key` at `a`. -/
def TreeState.RecordAt (s : TreeState P) (key : Key) (a : Addr) : Prop :=
  ∃ L m i, s.dleafHeap L = some m ∧ HasKey s.pm m key i ∧ m.ptr i = a

theorem Represents.inLog (h : Represents n tail s M) (hat : s.RecordAt k a) :
    InLog s.pm (fun k => (M k).getD 0) k a := by
  obtain ⟨L, m, i, hm, hi, rfl⟩ := hat
  obtain ⟨v, hv, hholds⟩ := hi.holds (h.inv.data.slots L m hm)
  have hmap := (h.content k v).mp ⟨L, m, hm, hholds⟩
  refine ⟨h.inv.data.recs L m i hm hi.1, hi.2, ?_⟩
  show _ = some ((M k).getD 0)
  rw [hv, hmap]
  rfl

end Recovery

/-! ### The two trees -/

section Trees

variable [Pmem P]

/-- The record that the slot of `key` points to. -/
def TreeState.recordOf (s : TreeState P) (key : Key) : Option Addr :=
  (findInsert s key).toOption.bind fun r => (s.dleafHeap r.2).bind fun m =>
    ((List.range m.maxUse).find? fun i => logKey s.pm (m.ptr i) = some key).map m.ptr

theorem recordOf_eq_some {s : TreeState P} {key : Key} {a : Addr} (h : s.recordOf key = some a) :
    s.RecordAt key a := by
  simp only [TreeState.recordOf, Option.bind_eq_some_iff, Option.map_eq_some_iff] at h
  obtain ⟨⟨path, L⟩, -, m, hm, i, hi, rfl⟩ := h
  have hused : i < m.maxUse := List.mem_range.mp (List.mem_of_find?_eq_some hi)
  exact ⟨L, m, i, hm, ⟨hused, of_decide_eq_true (List.find?_some hi :)⟩, rfl⟩

end Trees

/-- What is compared: whether the records are those of the first tree, and the two answers. -/
def recoveryAnswers (pm : IdealPm) (entries : List (Key × Word × BitVec 32)) (records : List (Key × Addr))
    (key : Key) : Exec (Bool × Word × Word) := do
  let s₀ ← init pm 0 zeroInner zeroLeaf
  let r ← mapRun 0 s₀ (insertOps entries)
  let r₀ ← recoverRoot r.2.pm 0 zeroInner zeroLeaf 0 0
  let s₂ ← quickRun 0 r₀ records
  let u₁ ← find r.2 key
  let u₂ ← find s₂ key
  return (records.all fun q => r.2.recordOf q.1 = some q.2, u₁.1, u₂.1)

theorem recoveryAnswers_runs {pm : IdealPm} {entries : List (Key × Word × BitVec 32)} {records : List (Key × Addr)}
    {key : Key} {v w : Word} (h : (recoveryAnswers pm entries records key).toOption = some (true, v, w)) :
    ∃ s₀ answers s₁ r₀ s₂ u₁ u₂, init pm 0 zeroInner zeroLeaf = .ok s₀ ∧
      mapRun 0 s₀ (insertOps entries) = .ok (answers, s₁) ∧
      recoverRoot s₁.pm 0 zeroInner zeroLeaf 0 0 = .ok r₀ ∧ (∀ r ∈ records, s₁.RecordAt r.1 r.2) ∧
      quickRun 0 r₀ records = .ok s₂ ∧ find s₁ key = .ok (v, u₁) ∧ find s₂ key = .ok (w, u₂) := by
  obtain ⟨b, hrun, rfl⟩ := exec_of_map (f := id) (by rw [h]; rfl)
  simp only [recoveryAnswers, bind_eq_ok, pure_eq_ok, Except.ok.injEq] at hrun
  obtain ⟨s₀, hinit, ⟨answers, s₁⟩, hrun₁, r₀, hroot, s₂, hrun₂, hrun⟩ := hrun
  obtain ⟨⟨v', u₁⟩, hfind₁, ⟨w', u₂⟩, hfind₂, heq⟩ := hrun
  rw [id, Prod.mk.injEq, Prod.mk.injEq] at heq
  obtain ⟨hall, rfl, rfl⟩ := heq
  refine ⟨s₀, answers, s₁, r₀, s₂, u₁, u₂, hinit, hrun₁, hroot, fun r hr => ?_, hrun₂, hfind₁, hfind₂⟩
  exact recordOf_eq_some (of_decide_eq_true (List.all_eq_true.mp hall r hr))

section Trees

variable [Pmem P] [LawfulPmem P]

/-- `quick_insert` of the records of distinct keys, in the order in which `insert` made them and from the
root leaf of recovery, builds a tree in which `find` answers as in the tree of the insertions, when every
cell that is filled is clean. -/
theorem recovery_same_map (pm : P) (t : Tid) (junkInner : Addr → InnerNode) (junkLeaf : Addr → DLeaf)
    (entries : List (Key × Word × BitVec 32)) (hroom : Ok (3 * entries.length + 2) pm)
    (hkeys : (entries.map Prod.fst).Nodup) (t' : Tid) (junkInner' : Addr → InnerNode) (junkLeaf' : Addr → DLeaf)
    (hzero : junkLeaf' 1 = zeroLeaf 1) (leafStart dstart : Addr) :
    ∃ s₀ answers s₁ r₀, init pm t junkInner junkLeaf = .ok s₀ ∧
      mapRun t s₀ (insertOps entries) = .ok (answers, s₁) ∧
      recoverRoot s₁.pm t' junkInner' junkLeaf' leafStart dstart = .ok r₀ ∧
      ∀ records : List (Key × Addr), records.map Prod.fst = entries.map Prod.fst →
        (∀ r ∈ records, s₁.RecordAt r.1 r.2) → CleanRun t' r₀ records →
        ∃ s₂, quickRun t' r₀ records = .ok s₂ ∧ ∀ k ∈ entries.map Prod.fst, ∃ v u₁ u₂,
          find s₁ k = .ok (v, u₁) ∧ find s₂ k = .ok (v, u₂) := by
  have hlen : (insertOps entries).length = entries.length := List.length_map ..
  have hsplit : 3 * entries.length + 2 = (2 * (insertOps entries).length + (entries.length + 1)) + 1 := by
    rw [hlen]
    omega
  rw [hsplit] at hroom
  obtain ⟨s₀, hinit, hrep₀⟩ := represents_init hroom t junkInner junkLeaf
  obtain ⟨s₁, hrun₁, hrep₁⟩ := hrep₀.run t (insertOps entries) (by rwa [insertedKeys_insertOps]) (fun _ _ => rfl)
    (findsKnown_insertOps t entries s₀ _)
  obtain ⟨r, hroot, hrep, hrecs, hsame⟩ :=
    recoverRoot_spec hrep₁.room t' junkInner' junkLeaf' hzero leafStart dstart
  refine ⟨s₀, _, s₁, _, hinit, hrun₁, hroot, fun records hfst hat hclean => ?_⟩
  have hcount : records.length = entries.length := by
    simpa only [List.length_map] using congrArg List.length hfst
  rw [← hcount] at hrep
  obtain ⟨s₂, hrun₂, hrep₂⟩ := Represents.quickRun (n := 0) records hrep (hfst ▸ hkeys) (fun _ _ => rfl)
    (fun q hq => (hrep₁.inLog (hat q hq)).congr hrecs hsame) hclean.of_anchored
  refine ⟨s₂.anchored leafStart dstart, by rw [quickRun_anchored, hrun₂]; rfl, fun k hk => ?_⟩
  have hk₁ := (specRun_isSome (insertOps entries) (fun _ => none) k).mpr
    (Or.inr (by rwa [insertedKeys_insertOps]))
  obtain ⟨u₁, hfind₁, -⟩ := hrep₁.find (k := k) fun _ => hk₁
  have hmem : k ∈ records.map Prod.fst := hfst ▸ hk
  obtain ⟨u₂, hfind₂, -⟩ := hrep₂.find (k := k) fun _ => by rw [if_pos hmem]; rfl
  rw [if_pos hmem, Option.getD_some] at hfind₂
  exact ⟨_, u₁, u₂.anchored leafStart dstart, hfind₁, by rw [find_anchored, hfind₂]; rfl⟩

end Trees

/-- Forty keys whose second byte is 7, and the addresses of their records. -/
def lowKey (i : Nat) : Key := BitVec.ofNat 64 (i * 65536 + 7 * 256)

def lowEntries : List (Key × Word × BitVec 32) :=
  (List.range' 1 40).map fun i => (lowKey i, BitVec.ofNat 64 (10 * i), 8)

def lowRecords : List (Key × Addr) := (List.range' 1 40).map fun i => (lowKey i, i)

/-- The first leaf is split, and the cells of the right half hold words of keys when they are filled. Their
second byte lies below the slots in use, so the trees agree. -/
theorem recovery_same_map_split : ∃ s₀ answers s₁ r₀ s₂,
    init (IdealPm.roomy 130) 0 zeroInner zeroLeaf = .ok s₀ ∧
    mapRun 0 s₀ (insertOps lowEntries) = .ok (answers, s₁) ∧
    recoverRoot s₁.pm 0 zeroInner zeroLeaf 0 0 = .ok r₀ ∧ quickRun 0 r₀ lowRecords = .ok s₂ ∧
    ∀ k ∈ lowEntries.map Prod.fst, ∃ v u₁ u₂, find s₁ k = .ok (v, u₁) ∧ find s₂ k = .ok (v, u₂) := by
  obtain ⟨s₀, answers, s₁, r₀, hinit, hrun₁, hroot, hsame⟩ :=
    recovery_same_map (IdealPm.roomy 130) 0 zeroInner zeroLeaf lowEntries
      (IdealPm.roomy_lawful (by decide) (by decide)) (by decide +kernel) 0 zeroInner zeroLeaf rfl 0 0
  have hfacts : (init (IdealPm.roomy 130) 0 zeroInner zeroLeaf >>= fun s₀ =>
      mapRun 0 s₀ (insertOps lowEntries) >>= fun r => recoverRoot r.2.pm 0 zeroInner zeroLeaf 0 0 >>= fun r₀ =>
        pure (lowRecords.all fun q => r.2.recordOf q.1 = some q.2, cleanRun 0 r₀ lowRecords)).toOption =
      some (true, true) := by
    decide +kernel
  rw [hinit, ok_bind, hrun₁, ok_bind, hroot, ok_bind] at hfacts
  obtain ⟨hall, hclean⟩ := Prod.mk.inj (Option.some.inj hfacts)
  have hat : ∀ r ∈ lowRecords, s₁.RecordAt r.1 r.2 := fun r hr =>
    recordOf_eq_some (of_decide_eq_true (List.all_eq_true.mp hall r hr))
  obtain ⟨s₂, hrun₂, hfinds⟩ := hsame lowRecords (by decide +kernel) hat (cleanRun_sound hclean)
  exact ⟨s₀, answers, s₁, r₀, s₂, hinit, hrun₁, hroot, hrun₂, hfinds⟩

/-- Keys whose second byte is 20, and the addresses of their records. -/
def staleKey (i : Nat) : Key := BitVec.ofNat 64 (i * 65536 + 20 * 256)

def staleEntries : List (Key × Word × BitVec 32) :=
  (List.range' 1 32).map fun i => (staleKey i, BitVec.ofNat 64 i, 8)

def staleRecords : List (Key × Addr) := (List.range' 1 32).map fun i => (staleKey i, i)

/-- The 32nd record goes into a cell of the right half that holds a word of a key: its second byte, 20, is
taken for the place of an inline pair. -/
theorem stale_answers : (recoveryAnswers (IdealPm.roomy 100) staleEntries staleRecords (staleKey 32)).toOption =
    some (true, 32, 0) := by
  decide +kernel

/-- With these 32 keys the tree of recovery does not find the last one. -/
theorem recovery_stale_cell : (staleEntries.map Prod.fst).Nodup ∧
    staleRecords.map Prod.fst = staleEntries.map Prod.fst ∧ ∃ s₀ answers s₁ r₀ s₂ u₁ u₂,
      init (IdealPm.roomy 100) 0 zeroInner zeroLeaf = .ok s₀ ∧
      mapRun 0 s₀ (insertOps staleEntries) = .ok (answers, s₁) ∧
      recoverRoot s₁.pm 0 zeroInner zeroLeaf 0 0 = .ok r₀ ∧ (∀ r ∈ staleRecords, s₁.RecordAt r.1 r.2) ∧
      quickRun 0 r₀ staleRecords = .ok s₂ ∧ find s₁ (staleKey 32) = .ok (32, u₁) ∧
      find s₂ (staleKey 32) = .ok (0, u₂) :=
  ⟨by decide, by decide, recoveryAnswers_runs stale_answers⟩

end ZBTree
