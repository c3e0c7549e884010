import ZBTree.UpdateSteps
import ZBTree.MapContract

/-!
# When update keeps its promise

`update` writes the record of a key only when the slot of the key has been read since it was
filled, and `find` prefers the inline pair of a slot, which `update` leaves alone. The condition
below says exactly when a search afterwards sees the update, in every state that insertions,
searches and updates of one thread lead to.
-/

namespace ZBTree

open RangeIndex Pmem LawfulPmem

variable {P : Type} [Pmem P]

/-! ### Runs -/

inductive TreeOp where
  | insert (key : Key) (val : Word) (valueLen : BitVec 32)
  | find (key : Key)
  | update (key : Key) (val : Word)

inductive TreeAnswer where
  | inserted (done : Bool)
  | found (val : Word)
  | updated (done : Bool)
deriving DecidableEq

/-- One call of thread `t`, which goes back to its start `rounds` times at most. -/
def treeStep (rounds : Nat) (t : Tid) (s : TreeState P) : TreeOp → Exec (TreeAnswer × TreeState P)
  | .insert key val valueLen => do
    let (done, s) ← insert rounds s t key val valueLen
    return (.inserted done, s)
  | .find key => do
    let (val, s) ← find s key
    return (.found val, s)
  | .update key val => do
    let (done, s) ← update rounds s t key val
    return (.updated done, s)

def treeRun (rounds : Nat) (t : Tid) : TreeState P → List TreeOp → Exec (List TreeAnswer × TreeState P)
  | s, [] => .ok ([], s)
  | s, op :: ops => do
    let (answer, s) ← treeStep rounds t s op
    let (answers, s) ← treeRun rounds t s ops
    return (answer :: answers, s)

/-- Every call of the run passes the test in the state it comes in. -/
def treeAll (test : TreeState P → TreeOp → Bool) (rounds : Nat) (t : Tid) :
    TreeState P → List TreeOp → Bool
  | _, [] => true
  | s, op :: ops => test s op &&
    match treeStep rounds t s op with
    | .ok (_, s) => treeAll test rounds t s ops
    | .error _ => true

/-- An update is called only once the tree has inner nodes. -/
def updatesInner (s : TreeState P) : TreeOp → Bool
  | .update _ _ => 1 ≤ s.tempLevel
  | _ => true

/-! ### The condition

`update` tells a slot that has been read from one that has not: the first it compares by the key of its record, the
second it takes for a match on the fingerprint alone. The condition reads this off the leaf before the call. -/

def slotOf (p : P) (m : DLeaf) (key : Key) : Option Nat :=
  (List.range m.maxUse).find? fun i => logKey p (m.ptr i) = some key

/-- An update of the leaf `m` shows. Either the key has a slot, which has been read and has no pair,
or for which `find` gives the value anyway; or it has none, and no slot that has not been read has
its fingerprint. -/
def leafUpdates (p : P) (m : DLeaf) (key : Key) (val : Word) : Bool :=
  match slotOf p m key with
  | some i => ((m.fingerPrint i).accessBit ≠ 0 && m.control i < m.maxUse) || slotVal p m i = some val
  | none => (List.range m.maxUse).all fun i =>
      (m.fingerPrint i).hashByte ≠ hashfunc key || (m.fingerPrint i).accessBit ≠ 0

/-- The condition on the leaf that the key leads to. -/
def updateApplies (s : TreeState P) (key : Key) (val : Word) : Bool :=
  match descendFrom s key s.tempLevel s.root with
  | .error _ => true
  | .ok leaf =>
    match s.dleafHeap leaf with
    | none => true
    | some m => leafUpdates s.pm m key val

section Condition

variable {p : P} {m : DLeaf} {k : Key} {v : Word} {i : Nat}

theorem slotOf_hit (h : SlotsOK p m) (hi : HasKey p m k i) : slotOf p m k = some i := by
  rw [slotOf, List.find?_eq_some_iff_getElem]
  refine ⟨by simpa using hi.2, i, by simpa using hi.1, by simp, fun j hj => ?_⟩
  have hne : logKey p (m.ptr j) ≠ some k := fun heq =>
    hj.ne (h.distinct j i k ⟨hj.trans hi.1, heq⟩ hi)
  simpa using hne

theorem slotOf_miss (hno : ∀ i, ¬ HasKey p m k i) : slotOf p m k = none := by
  rw [slotOf, List.find?_eq_none]
  intro j hj
  have hne : logKey p (m.ptr j) ≠ some k := fun heq => hno j ⟨List.mem_range.mp hj, heq⟩
  simpa using hne

theorem leafUpdates_hit (h : SlotsOK p m) (hi : HasKey p m k i) : leafUpdates p m k v = true ↔
    ((m.fingerPrint i).accessBit ≠ 0 ∧ m.control i < m.maxUse) ∨ slotVal p m i = some v := by
  simp only [leafUpdates, slotOf_hit h hi, Bool.or_eq_true, Bool.and_eq_true, decide_eq_true_eq]

theorem leafUpdates_miss (hno : ∀ i, ¬ HasKey p m k i) : leafUpdates p m k v = true ↔
    ∀ i, ¬ m.Unread k i := by
  simp only [leafUpdates, slotOf_miss hno, List.all_eq_true, List.mem_range, Bool.or_eq_true,
    decide_eq_true_eq]
  constructor
  · rintro hall i ⟨hi, hhash, hacc⟩
    exact (hall i hi).elim (fun hne => hne hhash) fun hne => hne hacc
  · intro hno i hi
    by_contra hboth
    rw [not_or, not_not, not_not] at hboth
    exact hno i ⟨hi, hboth⟩

end Condition

/-! ### What find returns -/

def Finds (s : TreeState P) (k : Key) (w : Word) : Prop := ∃ s', find s k = .ok (w, s')

variable [LawfulPmem P] {tail a L : Addr} {s s' : TreeState P} {m : DLeaf} {k : Key} {v w : Word} {i : Nat}

theorem finds_hit (h : Inv Cuts.empty tail s) (hlevel : 1 ≤ s.tempLevel) (hm : s.dleafHeap a = some m)
    (hi : HasKey s.pm m k i) : Finds s k w ↔ slotVal s.pm m i = some w := by
  obtain ⟨v, hv, hrun⟩ := find_hit h hlevel hm hi
  constructor
  · rintro ⟨s', hfind⟩
    rw [hrun, Except.ok.injEq, Prod.mk.injEq] at hfind
    rw [← hfind.1]
    exact hv
  · intro hw
    obtain rfl := Option.some.inj (hv.symm.trans hw)
    exact ⟨_, hrun⟩

theorem finds_miss (h : Inv Cuts.empty tail s) (hlevel : 1 ≤ s.tempLevel) (hno : Absent s k) :
    Finds s k w ↔ w = 0 := by
  have hrun := find_miss h hlevel hno
  constructor
  · rintro ⟨s', hfind⟩
    rw [hrun, Except.ok.injEq, Prod.mk.injEq] at hfind
    exact hfind.1.symm
  · rintro rfl
    exact ⟨s, hrun⟩

/-! ### One update -/

theorem update_spec (h : Inv Cuts.empty tail s) (hlevel : 1 ≤ s.tempLevel) {c : Nat}
    (hok : Ok (c + MAX_LEAF_KEY) s.pm) (t : Tid) (k : Key) (v : Word) (rounds : Nat) :
    ∃ L m b pm, descendFrom s k s.tempLevel s.root = .ok L ∧ Routes s.index k L ∧
      s.dleafHeap L = some m ∧ update (rounds + 1) s t k v = .ok (b, { s with pm := pm }) ∧ Ok c pm ∧
      Extends s.pm pm ∧ UpdateEnds s.pm pm m k v 0 false b ∧
      (∀ b n, s.dleafHeap b = some n → b ≠ L → SameSlots s.pm pm n) ∧
      Inv Cuts.empty tail { s with pm := pm } := by
  obtain ⟨path, L, m, -, hdesc, hroute, hm⟩ := h.reaches k
  obtain ⟨huse, hlock⟩ := h.skel.leaf L m hm
  obtain ⟨b, pm, hrun, hok', hext, hends, hother, hinv⟩ :=
    h.updateSlots hm hroute.mem rfl (ok_mono (Nat.add_le_add_left huse c) hok) t k v
  have hfree : ¬ 1 < m.tempInsert := not_lt.mpr hlock
  refine ⟨L, m, b, pm, hdesc, hroute, hm, ?_, hok', hext, hends, hother, hinv⟩
  have hlevels : updateLevels s.tempLevel = s.tempLevel := if_neg (Nat.ne_of_gt hlevel)
  simp only [update, hlevels, hdesc, ok_bind, updateExamine, hm, deref_some, if_neg hfree, hrun,
    pure_eq_ok]

/-- What a search reads of a slot after the update: the new value, when the record was written and the
slot has no pair. -/
theorem slotVal_update (h : Inv Cuts.empty tail s) {pm : P} {b : Bool} (hm : s.dleafHeap L = some m)
    (hroute : Routes s.index k L) (hends : UpdateEnds s.pm pm m k v 0 false b) {n : DLeaf} {k' : Key}
    (hn : s.dleafHeap a = some n) (hi : HasKey s.pm n k' i) :
    slotVal pm n i = if k' = k ∧ (n.fingerPrint i).accessBit ≠ 0 ∧ n.control i < n.maxUse then some v
      else slotVal s.pm n i := by
  by_cases hc : n.maxUse ≤ n.control i
  · rw [if_neg fun hcond => absurd hcond.2.2 (not_lt.mpr hc), slotVal, slotVal, if_pos hc, if_pos hc]
  have hrec := h.data.recs a n i hn hi.1
  rw [slotVal, slotVal, if_neg hc, if_neg hc]
  rcases hends with ⟨j, -, hread, -, hval, hsame⟩ | ⟨hnone, -, hsame⟩
  · by_cases hk : k' = k
    · subst hk
      obtain ⟨rfl, rfl⟩ := h.data.unique hn hm hi hread.1
      rw [hn, Option.some.injEq] at hm
      subst hm
      rw [if_pos ⟨rfl, hread.2, not_le.mp hc⟩]
      exact hval
    · rw [if_neg fun hcond => hk hcond.1]
      refine (hsame _ ⟨hrec, fun heq => hk ?_⟩).2
      have hkey := hi.2
      rw [heq, hread.1.2] at hkey
      exact (Option.some.inj hkey).symm
  · rw [if_neg ?_]
    · exact (hsame _ hrec).2
    · rintro ⟨rfl, hacc, -⟩
      obtain rfl := h.data.found hroute rfl hn hi
      rw [hn, Option.some.injEq] at hm
      subst hm
      exact hnone i (Nat.zero_le i) ⟨hi, hacc⟩

/-- What `update` promises of a call that returns `b`. -/
structure UpdateKept (s s' : TreeState P) (k : Key) (v : Word) (b : Bool) : Prop where
  present : b = true ↔ ∃ w, s.Contains k w
  shows : b = true → ∀ w, Finds s' k w ↔ w = v
  others : b = true → ∀ k', k' ≠ k → ∀ w, Finds s' k' w ↔ Finds s k' w
  missed : b = false → ∀ k' w, Finds s' k' w ↔ Finds s k' w

/-- In a state without a cut leaf `update` keeps its promise if and only if the condition holds. -/
theorem update_kept_iff (h : Inv Cuts.empty tail s) (hlevel : 1 ≤ s.tempLevel) {c : Nat}
    (hok : Ok (c + MAX_LEAF_KEY) s.pm) (t : Tid) (k : Key) (v : Word) (rounds : Nat) :
    ∃ b s', update (rounds + 1) s t k v = .ok (b, s') ∧
      (UpdateKept s s' k v b ↔ updateApplies s k v = true) := by
  obtain ⟨L, m, b, pm, hdesc, hroute, hm, hrun, hok', hext, hends, hother, hinv⟩ :=
    update_spec h hlevel hok t k v rounds
  refine ⟨b, { s with pm := pm }, hrun, ?_⟩
  have hslots := h.data.slots L m hm
  have happlies : updateApplies s k v = leafUpdates s.pm m k v := by
    simp only [updateApplies, hdesc, hm]
  rw [happlies]
  -- the searches after the call, slot by slot
  have hafter : ∀ {k' b n i w}, s.dleafHeap b = some n → HasKey s.pm n k' i →
      (Finds { s with pm := pm } k' w ↔ (if k' = k ∧ (n.fingerPrint i).accessBit ≠ 0 ∧
        n.control i < n.maxUse then some v else slotVal s.pm n i) = some w) := by
    intro k' b n i w hn hi
    rw [← slotVal_update h hm hroute hends hn hi]
    exact finds_hit hinv hlevel hn ((hext.hasKey_iff fun i hi => h.data.recs b n i hn hi).mpr hi)
  -- the other keys are found as before
  have hothers : ∀ k', k' ≠ k → ∀ w, Finds { s with pm := pm } k' w ↔ Finds s k' w := by
    intro k' hne w
    rcases present_or_absent s k' with ⟨b, n, i, hn, hi⟩ | hno
    · rw [hafter hn hi, if_neg fun hcond => hne hcond.1, finds_hit h hlevel hn hi]
    · rw [finds_miss h hlevel hno]
      refine finds_miss hinv hlevel fun b n i hn hi => hno b n i hn ?_
      exact (hext.hasKey_iff fun i hi => h.data.recs b n i hn hi).mp hi
  rcases present_or_absent s k with ⟨b', n, j, hn, hj⟩ | hno
  · -- the key has a slot: the call returns true
    obtain rfl := h.data.found hroute rfl hn hj
    rw [hm, Option.some.injEq] at hn
    subst hn
    have hb : b = true := by
      rcases hends with ⟨i, -, -, hb, -⟩ | ⟨hnone, hb, -⟩
      · exact hb
      · have hacc : (m.fingerPrint j).accessBit = 0 := by
          by_contra hacc
          exact hnone j (Nat.zero_le j) ⟨hj, hacc⟩
        exact hb.mpr (Or.inr ⟨j, Nat.zero_le j, hj.1, hslots.hash j k hj, hacc⟩)
    obtain ⟨k₀, w, hk₀, hw⟩ := hslots.read j hj.1
    have hpresent : ∃ w, s.Contains k w := ⟨w, b', m, hm, j, hj, hw⟩
    rw [leafUpdates_hit hslots hj]
    have hshows : (∀ w, Finds { s with pm := pm } k w ↔ w = v) ↔
        ((m.fingerPrint j).accessBit ≠ 0 ∧ m.control j < m.maxUse) ∨ slotVal s.pm m j = some v := by
      -- the record has been written and is what `find` reads: then the call shows
      by_cases hcond : (m.fingerPrint j).accessBit ≠ 0 ∧ m.control j < m.maxUse
      · refine iff_of_true (fun w => ?_) (Or.inl hcond)
        rw [hafter hm hj, if_pos ⟨rfl, hcond⟩, Option.some.injEq, eq_comm]
      · rw [or_iff_right hcond]
        constructor
        · intro hfinds
          have hv := (hfinds v).mpr rfl
          rwa [hafter hm hj, if_neg fun hall => hcond hall.2] at hv
        · intro hv w
          rw [hafter hm hj, if_neg fun hall => hcond hall.2, hv, Option.some.injEq, eq_comm]
    rw [← hshows]
    constructor
    · exact fun hkept => hkept.shows hb
    · intro hall
      refine ⟨iff_of_true hb hpresent, fun _ => hall, fun _ => hothers, fun hfalse => ?_⟩
      rw [hb] at hfalse
      cases hfalse
  · -- the key has no slot
    have hmiss : ∀ i, ¬ HasKey s.pm m k i := fun i => hno L m i hm
    rw [leafUpdates_miss hmiss]
    have habsent : ¬ ∃ w, s.Contains k w := fun ⟨w, hw⟩ => (absent_iff h.data.slots).mp hno w hw
    -- the call says true exactly if some slot was taken for the key by its fingerprint
    have hb : b = true ↔ ∃ i, m.Unread k i := by
      rcases hends with ⟨i, -, hread, -⟩ | ⟨-, hb, -⟩
      · exact absurd hread.1 (hmiss i)
      · rw [hb]
        simp
    constructor
    · intro hkept i hi
      exact habsent (hkept.present.mp (hb.mpr ⟨i, hi⟩))
    · intro hnone
      have hfalse : b ≠ true := fun heq => (hb.mp heq).elim hnone
      refine ⟨iff_of_false hfalse habsent, fun heq => absurd heq hfalse, fun heq => absurd heq hfalse,
        fun _ k' w => ?_⟩
      by_cases hk : k' = k
      · subst hk
        rw [finds_miss h hlevel hno]
        refine finds_miss hinv hlevel fun b n i hn hi => hno b n i hn ?_
        exact (hext.hasKey_iff fun i hi => h.data.recs b n i hn hi).mp hi
      · exact hothers k' hk w

/-! ### The states of a run -/

theorem find_keeps (h : Inv Cuts.empty tail s) (hrun : find s k = .ok (w, s')) :
    Inv Cuts.empty tail s' ∧ s'.pm = s.pm := by
  by_cases hlevel : s.tempLevel = 0
  · rw [find_low hlevel hrun]
    exact ⟨h, rfl⟩
  rcases present_or_absent s k with ⟨a, m, i, hm, hi⟩ | hno
  · obtain ⟨v, -, hrun'⟩ := find_hit h (Nat.pos_of_ne_zero hlevel) hm hi
    rw [hrun', Except.ok.injEq, Prod.mk.injEq] at hrun
    rw [← hrun.2]
    exact ⟨h.touch hm hi.1, rfl⟩
  · rw [find_miss h (Nat.pos_of_ne_zero hlevel) hno, Except.ok.injEq, Prod.mk.injEq] at hrun
    rw [← hrun.2]
    exact ⟨h, rfl⟩

/-- One call. -/
theorem treeStep_keeps (h : Inv Cuts.empty tail s) {c rounds : Nat} (hok : Ok (c + MAX_LEAF_KEY) s.pm)
    {t : Tid} {op : TreeOp} (hinner : updatesInner s op = true) {answer : TreeAnswer}
    (hrun : treeStep rounds t s op = .ok (answer, s')) : Inv Cuts.empty tail s' ∧ Ok c s'.pm := by
  cases op with
  | insert key val len =>
    simp only [treeStep, bind_eq_ok] at hrun
    obtain ⟨⟨done, s₁⟩, hins, hrun⟩ := hrun
    cases hrun
    rcases insert_returns h (n := c) (ok_mono (Nat.add_le_add_left (by decide) c) hok) hins with
      ⟨-, -, hdone⟩ | ⟨-, -, L, m, hm, -, rfl⟩
    · exact ⟨hdone.inv, hdone.room⟩
    · exact ⟨h.lock hm rfl, ok_mono (Nat.le_add_right c _) hok⟩
  | find key =>
    simp only [treeStep, bind_eq_ok] at hrun
    obtain ⟨⟨val, s₁⟩, hfind, hrun⟩ := hrun
    cases hrun
    obtain ⟨hinv, hpm⟩ := find_keeps h hfind
    exact ⟨hinv, hpm ▸ ok_mono (Nat.le_add_right c _) hok⟩
  | update key val =>
    simp only [treeStep, bind_eq_ok] at hrun
    obtain ⟨⟨done, s₁⟩, hupd, hrun⟩ := hrun
    cases hrun
    have hlevel : 1 ≤ s.tempLevel := of_decide_eq_true hinner
    cases rounds with
    | zero => cases hupd
    | succ rounds =>
      obtain ⟨L, m, b, pm, -, -, -, hrun, hok', -, -, -, hinv⟩ :=
        update_spec h hlevel hok t key val rounds
      rw [hrun, Except.ok.injEq, Prod.mk.injEq] at hupd
      rw [← hupd.2]
      exact ⟨hinv, hok'⟩

/-- A whole run, by induction on the calls. -/
theorem treeRun_keeps (rounds : Nat) (t : Tid) (ops : List TreeOp) {c : Nat}
    (h : Inv Cuts.empty tail s) (hok : Ok (MAX_LEAF_KEY * ops.length + c) s.pm)
    (hinner : treeAll updatesInner rounds t s ops = true) {answers : List TreeAnswer}
    (hrun : treeRun rounds t s ops = .ok (answers, s')) : Inv Cuts.empty tail s' ∧ Ok c s'.pm := by
  induction ops generalizing s answers with
  | nil =>
    cases hrun
    rw [List.length_nil, Nat.mul_zero, Nat.zero_add] at hok
    exact ⟨h, hok⟩
  | cons op ops ih =>
    simp only [treeRun, bind_eq_ok] at hrun
    obtain ⟨⟨answer, s₁⟩, hstep, ⟨rest, s₂⟩, hrun, heq⟩ := hrun
    cases heq
    simp only [treeAll, hstep, Bool.and_eq_true] at hinner
    have hroom : MAX_LEAF_KEY * (op :: ops).length + c =
        MAX_LEAF_KEY * ops.length + c + MAX_LEAF_KEY := by
      rw [List.length_cons, Nat.mul_succ, Nat.add_right_comm]
    rw [hroom] at hok
    obtain ⟨hinv, hok'⟩ := treeStep_keeps h hok hinner.1 hstep
    exact ih hinv hok' hinner.2 hrun

/-- In every state that a run of insertions, searches and updates reaches, `update` keeps its promise
if and only if the condition holds. -/
theorem update_contract_iff (pm : P) (t : Tid) (junkInner : Addr → InnerNode)
    (junkLeaf : Addr → DLeaf) (rounds : Nat) (ops : List TreeOp)
    (hroom : Ok (MAX_LEAF_KEY * ops.length + MAX_LEAF_KEY + 1) pm) {s₀ s : TreeState P}
    {answers : List TreeAnswer} (hinit : init pm t junkInner junkLeaf = .ok s₀)
    (hrun : treeRun rounds t s₀ ops = .ok (answers, s))
    (hinner : treeAll updatesInner rounds t s₀ ops = true) (hlevel : 1 ≤ s.tempLevel) (k : Key)
    (v : Word) : ∃ b s', update 1 s t k v = .ok (b, s') ∧
      (UpdateKept s s' k v b ↔ updateApplies s k v = true) := by
  obtain ⟨s₀', hinit', hinv, hok, -⟩ := init_spec hroom t junkInner junkLeaf
  rw [hinit'] at hinit
  cases hinit
  obtain ⟨hinv', hok'⟩ := treeRun_keeps rounds t ops hinv hok hinner hrun
  exact update_kept_iff hinv' hlevel (c := 0) (by rwa [Nat.zero_add]) t k v 0

def firstSplit : List TreeOp := (List.range 31).map fun i => .insert (BitVec.ofNat 64 (i + 1)) 7 8

theorem update_contract_iff_split : ∃ s₀ answers s b s',
    init (IdealPm.roomy 1000) 0 zeroInner zeroLeaf = .ok s₀ ∧ treeRun 2 0 s₀ firstSplit = .ok (answers, s) ∧
      update 1 s 0 40 99 = .ok (b, s') ∧ (UpdateKept s s' 40 99 b ↔ updateApplies s 40 99 = true) := by
  have h : (do
      let s₀ ← init (IdealPm.roomy 1000) 0 zeroInner zeroLeaf
      let (_, s) ← treeRun 2 0 s₀ firstSplit
      return (treeAll updatesInner 2 0 s₀ firstSplit, decide (1 ≤ s.tempLevel))) = .ok (true, true) := by
    decide +kernel
  simp only [bind_eq_ok, pure_eq_ok, Except.ok.injEq, Prod.mk.injEq, decide_eq_true_eq] at h
  obtain ⟨s₀, hinit, ⟨answers, s⟩, hrun, hinner, hlevel⟩ := h
  obtain ⟨b, s', hupd, hiff⟩ := update_contract_iff (IdealPm.roomy 1000) 0 zeroInner zeroLeaf 2 firstSplit
    (IdealPm.roomy_lawful (by decide +kernel) (by decide)) hinit hrun hinner hlevel 40 99
  exact ⟨s₀, answers, s, b, s', hinit, hrun, hupd, hiff⟩

/-- An update of a key that no search has read yet returns `true`, and the key keeps its old value. -/
theorem update_not_seen : ∃ s₀ answers s s', init (IdealPm.roomy 1000) 0 zeroInner zeroLeaf = .ok s₀ ∧
    treeRun 2 0 s₀ firstSplit = .ok (answers, s) ∧ 1 ≤ s.tempLevel ∧
      update 1 s 0 31 99 = .ok (true, s') ∧ Finds s' 31 7 := by
  have h : (do
      let s₀ ← init (IdealPm.roomy 1000) 0 zeroInner zeroLeaf
      let (_, s) ← treeRun 2 0 s₀ firstSplit
      let (b, s') ← update 1 s 0 31 99
      let (v, _) ← find s' 31
      return (decide (1 ≤ s.tempLevel), b, v)) = .ok (true, true, 7) := by
    decide +kernel
  simp only [bind_eq_ok, pure_eq_ok, Except.ok.injEq, Prod.mk.injEq, decide_eq_true_eq] at h
  obtain ⟨s₀, hinit, ⟨answers, s⟩, hrun, ⟨b, s'⟩, hupd, ⟨v, s''⟩, hfind, hlevel, rfl, rfl⟩ := h
  exact ⟨s₀, answers, s, s', hinit, hrun, hlevel, hupd, s'', hfind⟩

end ZBTree
