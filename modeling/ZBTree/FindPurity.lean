import ZBTree.TwoInserts
import ZBTree.UpdateContract

/-!
# Searches do not matter

`find` counts its visits in `access_bit`; `update` and `split_leaf` read these counters. Two runs
that differ in searches alone are compared here: as long as every update shows, the trees differ in
the counters, the inline pairs and the places of the records, and no answer depends on these.
-/

namespace ZBTree

open RangeIndex Pmem LawfulPmem

variable {P : Type} [Pmem P]

/-! ### Runs with searches added to them -/

def plain (calls : List (TreeOp ⊕ Key)) : List TreeOp := calls.filterMap Sum.getLeft?

def padded (calls : List (TreeOp ⊕ Key)) : List TreeOp := calls.map (Sum.elim id TreeOp.find)

def kept : List (TreeOp ⊕ Key) → List TreeAnswer → List TreeAnswer
  | .inl _ :: calls, answer :: answers => answer :: kept calls answers
  | .inr _ :: calls, _ :: answers => kept calls answers
  | _, _ => []

/-- Searches and updates are called only once the tree has inner nodes. -/
def callsInner (s : TreeState P) : TreeOp → Bool
  | .insert _ _ _ => true
  | _ => 1 ≤ s.tempLevel

/-- An update that is called shows. -/
def updatesApply (s : TreeState P) : TreeOp → Bool
  | .update key val => updateApplies s key val
  | _ => true

variable [LawfulPmem P] {tail a L : Addr} {s s' u : TreeState P} {m : DLeaf} {k : Key} {v w : Word}
  {i n : Nat}

/-! ### The content after an update that shows -/

theorem finds_fresh (h : Inv Cuts.empty tail s) (hlevel : 1 ≤ s.tempLevel) (hfresh : PairsFresh s) :
    Finds s k w ↔ s.Contains k w ∨ (Absent s k ∧ w = 0) := by
  rcases present_or_absent s k with ⟨a, m, i, hm, hi⟩ | hno
  · have hpresent : ¬ Absent s k := fun hno => hno a m i hm hi
    rw [finds_hit h hlevel hm hi]
    simp only [hpresent, false_and, or_false]
    have hreads : ∀ w, slotVal s.pm m i = some w → s.Contains k w := fun w hw =>
      (hfresh a m hm).slotVal (fun v hv => ⟨a, m, hm, hv⟩) hi hw
    refine ⟨hreads w, fun hw => ?_⟩
    obtain ⟨v, hv, -⟩ := find_hit h hlevel hm hi
    rw [hv, h.data.contains_unique hw (hreads v hv)]
  · rw [finds_miss h hlevel hno]
    have hnone : ¬ s.Contains k w := (absent_iff h.data.slots).mp hno w
    simp only [hnone, hno, true_and, false_or]

/-- After an update that shows, the tree has the new value in place of the old one. -/
structure Updated (s s' : TreeState P) (k : Key) (v : Word) (b : Bool) : Prop where
  done : b = true ↔ ∃ w, s.Contains k w
  fresh : PairsFresh s'
  content : ∀ k' w, s'.Contains k' w ↔
    if k' = k then (∃ w, s.Contains k w) ∧ w = v else s.Contains k' w

/-- An update that shows. -/
theorem update_applied (h : Inv Cuts.empty tail s) (hlevel : 1 ≤ s.tempLevel) (hfresh : PairsFresh s)
    (hok : Ok (n + MAX_LEAF_KEY) s.pm) (t : Tid) (happlies : updateApplies s k v = true) (rounds : Nat) :
    ∃ b pm, update (rounds + 1) s t k v = .ok (b, { s with pm := pm }) ∧ Ok n pm ∧ Extends s.pm pm ∧
      Inv Cuts.empty tail { s with pm := pm } ∧ Updated s { s with pm := pm } k v b := by
  obtain ⟨L, m, b, pm, hdesc, hroute, hm, hrun, hok', hext, hends, hother, hinv⟩ :=
    update_spec h hlevel hok t k v rounds
  -- what the update keeps, as it is known for every update
  obtain ⟨b', s', hrun', hkept⟩ := update_kept_iff h hlevel hok t k v rounds
  rw [hrun, Except.ok.injEq, Prod.mk.injEq] at hrun'
  obtain ⟨rfl, rfl⟩ := hrun'
  have hslots := h.data.slots L m hm
  have hleaf : leafUpdates s.pm m k v = true := by
    rw [← happlies]
    simp only [updateApplies, hdesc, hm]
  -- the slot of the key, when it has one
  have hslot : ∀ {a n i}, s.dleafHeap a = some n → HasKey s.pm n k i → a = L ∧ n = m := by
    intro a n i hn hi
    obtain rfl := h.data.found hroute rfl hn hi
    exact ⟨rfl, Option.some.inj (hn.symm.trans hm)⟩
  have hcontent : ∀ k' w, ({ s with pm := pm } : TreeState P).Contains k' w ↔
      if k' = k then (∃ w, s.Contains k w) ∧ w = v else s.Contains k' w := by
    intro k' w
    rw [contains_updateSlots h hm hext hends hother k' w]
    by_cases hk : k' = k
    · subst hk
      rw [if_pos rfl]
      simp only [true_and]
      by_cases hread : ∃ j, m.ReadAt s.pm k' j
      · obtain ⟨j, hj⟩ := hread
        obtain ⟨v₀, -, hv₀⟩ := hj.1.holds hslots
        have hpresent : ∃ w, s.Contains k' w := ⟨v₀, L, m, hm, hv₀⟩
        have hread : ∃ j, m.ReadAt s.pm k' j := ⟨j, hj⟩
        simp only [hread, hpresent, true_and, not_true_eq_false, false_and, or_false]
      · simp only [hread, false_and, not_false_eq_true, true_and, false_or]
        -- the value is there already
        have hold : (∃ w, s.Contains k' w) → s.Contains k' v := by
          rintro ⟨w, a, n, hn, i, hi, -⟩
          obtain ⟨rfl, rfl⟩ := hslot hn hi
          have hval := (leafUpdates_hit hslots hi).mp hleaf
          refine (hfresh a n hm).slotVal (fun v hv => ⟨a, n, hm, hv⟩) hi ?_
          exact hval.resolve_left fun hacc => hread ⟨i, hi, hacc.1⟩
        constructor
        · exact fun hw => ⟨⟨w, hw⟩, h.data.contains_unique hw (hold ⟨w, hw⟩)⟩
        · -- the key is there but has not been read, so the new value is the one it had
          rintro ⟨hpresent, rfl⟩
          exact hold hpresent
    · rw [if_neg hk]
      simp only [hk, false_and, not_false_eq_true, true_and, false_or]
  refine ⟨b, pm, hrun, hok', hext, hinv, (hkept.mpr happlies).present, ?_, hcontent⟩
  -- a pair of the key, if there is one, says the new value
  intro a n hn i k' hi hc
  have hi' : HasKey s.pm n k' i := (hext.hasKey_iff fun i hi => h.data.recs a n i hn hi).mp hi
  rw [hcontent]
  by_cases hk : k' = k
  · subst hk
    obtain ⟨rfl, rfl⟩ := hslot hn hi'
    obtain ⟨v₀, -, hv₀⟩ := hi'.holds hslots
    rw [if_pos rfl]
    refine ⟨⟨v₀, a, n, hm, hv₀⟩, ?_⟩
    have hval := ((leafUpdates_hit hslots hi').mp hleaf).resolve_left fun hacc => not_lt.mpr hc hacc.2
    rw [slotVal, if_pos hc, Option.some.injEq] at hval
    exact hval
  · rw [if_neg hk]
    exact hfresh a n hn i k' hi' hc

/-! ### Two runs that differ in searches

The trees of the two runs differ in access bits only, and in the inline pairs that a split lays out by them.
`Paired` relates such trees; a call of both runs keeps it, and so does a search of the second run alone. -/

/-- The same keys in the same slots, and the same content. -/
structure Paired (n : Nat) (tail : Addr) (s s' : TreeState P) : Prop where
  twins : Twins s s'
  inv : Inv Cuts.empty tail s
  inv' : Inv Cuts.empty tail s'
  room : Ok n s.pm
  room' : Ok n s'.pm
  fresh : PairsFresh s
  fresh' : PairsFresh s'
  content : ∀ k v, s'.Contains k v ↔ s.Contains k v

theorem Paired.symm (h : Paired n tail s s') : Paired n tail s' s :=
  ⟨h.twins.symm, h.inv', h.inv, h.room', h.room, h.fresh', h.fresh, fun k v => (h.content k v).symm⟩

theorem Paired.mono {n' : Nat} (h : Paired n tail s s') (hle : n' ≤ n) : Paired n' tail s s' :=
  { h with
    room := ok_mono hle h.room
    room' := ok_mono hle h.room' }

theorem Paired.finds (h : Paired n tail s s') (hlevel : 1 ≤ s.tempLevel) :
    Finds s' k w ↔ Finds s k w := by
  have habsent : Absent s' k ↔ Absent s k := ⟨h.twins.symm.absent, h.twins.absent⟩
  rw [finds_fresh h.inv hlevel h.fresh, finds_fresh h.inv' (h.twins.upper.level ▸ hlevel) h.fresh',
    h.content, habsent]

omit [LawfulPmem P] in
theorem Twins.setPm (h : Twins s s') {pm pm' : P}
    (hkeys : ∀ a m, s.dleafHeap a = some m → ∀ i, i < m.maxUse → logKey pm (m.ptr i) = logKey s.pm (m.ptr i))
    (hkeys' : ∀ a m, s'.dleafHeap a = some m → ∀ i, i < m.maxUse →
      logKey pm' (m.ptr i) = logKey s'.pm (m.ptr i)) :
    Twins { s with pm := pm } { s' with pm := pm' } := by
  refine ⟨h.upper.congr rfl rfl rfl rfl rfl rfl h.upper.brk, fun a m hm => ?_, h.same⟩
  obtain ⟨m', hm', htwin⟩ := h.leaf a m hm
  refine ⟨m', hm', htwin.use, htwin.lock, fun i hi => ?_⟩
  show logKey pm' _ = logKey pm _
  rw [hkeys a m hm i hi, hkeys' a m' hm' i (htwin.use ▸ hi), htwin.key i hi]

theorem Paired.search (h : Paired n tail s s') (hlevel : 1 ≤ s'.tempLevel) (k : Key) :
    ∃ w u, find s' k = .ok (w, u) ∧ Paired n tail s u := by
  rcases present_or_absent s' k with ⟨a, m, i, hm, hi⟩ | hno
  · obtain ⟨v, -, hrun⟩ := find_hit h.inv' hlevel hm hi
    have hview := sameView_touch m hi.1
    refine ⟨v, _, hrun, h.twins.touch hm hi.1, h.inv, h.inv'.touch hm hi.1, h.room, h.room', h.fresh,
      (Grows.setLeaf hm hview).fresh h.fresh', fun k' v' => ?_⟩
    rw [contains_setLeaf hm hview, h.content]
  · exact ⟨0, s', find_miss h.inv' hlevel hno, h⟩

theorem Paired.find (h : Paired n tail s s') (hlevel : 1 ≤ s.tempLevel) (k : Key) :
    ∃ w u u', find s k = .ok (w, u) ∧ find s' k = .ok (w, u') ∧ Paired n tail u u' := by
  obtain ⟨w, u, hrun, hpaired⟩ := h.symm.search hlevel k
  obtain ⟨w', u', hrun', hpaired'⟩ := hpaired.symm.search (h.twins.upper.level ▸ hlevel) k
  obtain ⟨u₁, hrun₁⟩ := (h.finds hlevel).mpr ⟨u, hrun⟩
  rw [hrun', Except.ok.injEq, Prod.mk.injEq] at hrun₁
  obtain ⟨rfl, -⟩ := hrun₁
  exact ⟨w', u, u', hrun, hrun', hpaired'⟩

theorem Paired.update (h : Paired (n + MAX_LEAF_KEY) tail s s') (hlevel : 1 ≤ s.tempLevel) (t : Tid)
    (happlies : updateApplies s k v = true) (happlies' : updateApplies s' k v = true) (rounds : Nat) :
    ∃ b u u', ZBTree.update (rounds + 1) s t k v = .ok (b, u) ∧
      ZBTree.update (rounds + 1) s' t k v = .ok (b, u') ∧ Paired n tail u u' := by
  obtain ⟨b, pm, hrun, hok, hext, hinv, hdone⟩ :=
    update_applied h.inv hlevel h.fresh h.room t happlies rounds
  obtain ⟨b', pm', hrun', hok', hext', hinv', hdone'⟩ :=
    update_applied h.inv' (h.twins.upper.level ▸ hlevel) h.fresh' h.room' t happlies' rounds
  obtain rfl : b' = b := by
    rw [Bool.eq_iff_iff, hdone.done, hdone'.done]
    simp only [h.content]
  refine ⟨b', _, _, hrun, hrun', ?_, hinv, hinv', hok, hok', hdone.fresh, hdone'.fresh, fun k' w => ?_⟩
  · exact h.twins.setPm (fun a m hm i hi => hext.same_keys _ (h.inv.data.recs a m i hm hi))
      fun a m hm i hi => hext'.same_keys _ (h.inv'.data.recs a m i hm hi)
  · rw [hdone.content, hdone'.content]
    simp only [h.content]

theorem Paired.insert (h : Paired (n + 2) tail s s') {rounds : Nat} {t : Tid} {len : BitVec 32} {b : Bool}
    (hrun : insert rounds s t k v len = .ok (b, u)) : ∃ u', ZBTree.insert rounds s' t k v len = .ok (b, u') ∧
      Paired n tail u u' := by
  obtain ⟨u', hrun', -, htwins⟩ := h.twins.insert h.inv h.inv' h.room h.room' hrun
  refine ⟨u', hrun', ?_⟩
  rcases insert_returns h.inv h.room hrun with ⟨rfl, -, hdone⟩ | ⟨rfl, -, L, m, hm, -, rfl⟩
  · obtain ⟨-, -, hdone'⟩ | ⟨hfalse, -⟩ := insert_returns h.inv' h.room' hrun'
    · refine ⟨htwins, hdone.inv, hdone'.inv, hdone.room, hdone'.room, hdone.grows.fresh h.fresh,
        hdone'.grows.fresh h.fresh', fun k' w => ?_⟩
      rw [hdone.contains, hdone'.contains, h.content]
    · cases hfalse
  · obtain ⟨hfalse, -⟩ | ⟨-, -, L', m', hm', -, rfl⟩ := insert_returns h.inv' h.room' hrun'
    · cases hfalse
    · have hview : SameView m { m with tempInsert := 1 } := SameView.of_slots rfl rfl
      have hview' : SameView m' { m' with tempInsert := 1 } := SameView.of_slots rfl rfl
      refine ⟨htwins, h.inv.lock hm rfl, h.inv'.lock hm' rfl, ok_mono (Nat.le_add_right n 2) h.room,
        ok_mono (Nat.le_add_right n 2) h.room', (Grows.setLeaf hm hview).fresh h.fresh,
        (Grows.setLeaf hm' hview').fresh h.fresh', fun k' w => ?_⟩
      rw [contains_setLeaf hm hview, contains_setLeaf hm' hview', h.content]

/-! ### Runs -/

def Neither {α : Type} (r r' : Exec α) : Prop := (∀ x, r ≠ .ok x) ∧ ∀ x, r' ≠ .ok x

omit [Pmem P] [LawfulPmem P] in
theorem error_ne_ok {α : Type} (e : Fault) (x : α) : (.error e : Exec α) ≠ .ok x := by
  intro h
  cases h

omit [Pmem P] [LawfulPmem P] in
theorem bind_ne_ok {α β : Type} {r : Exec α} {f : α → Exec β} (h : ∀ x, r ≠ .ok x) (y : β) :
    r >>= f ≠ .ok y := by
  intro hy
  obtain ⟨x, hx, -⟩ := bind_eq_ok.mp hy
  exact h x hx

/-- The same call in both trees. -/
theorem Paired.step (h : Paired (n + MAX_LEAF_KEY) tail s s') (rounds : Nat) (t : Tid) {op : TreeOp}
    (hinner : callsInner s' op = true) (happlies : updatesApply s op = true)
    (happlies' : updatesApply s' op = true) :
    (∃ answer u u', treeStep rounds t s op = .ok (answer, u) ∧ treeStep rounds t s' op = .ok (answer, u') ∧
      Paired n tail u u') ∨ Neither (treeStep rounds t s op) (treeStep rounds t s' op) := by
  cases op with
  | insert key val len =>
    have hroom : n + 2 ≤ n + MAX_LEAF_KEY := Nat.add_le_add_left (by decide) n
    simp only [treeStep]
    cases hrun : ZBTree.insert rounds s t key val len with
    | ok r =>
      obtain ⟨u', hrun', hpaired⟩ := (h.mono hroom).insert hrun
      rw [hrun']
      exact Or.inl ⟨_, _, _, rfl, rfl, hpaired⟩
    | error e =>
      cases hrun' : ZBTree.insert rounds s' t key val len with
      | ok r =>
        obtain ⟨u, hrun₁, -⟩ := (h.mono hroom).symm.insert hrun'
        rw [hrun] at hrun₁
        cases hrun₁
      | error e' => exact Or.inr ⟨error_ne_ok e, error_ne_ok e'⟩
  | find key =>
    have hlevel : 1 ≤ s.tempLevel := h.twins.upper.level ▸ of_decide_eq_true hinner
    obtain ⟨w, u, u', hrun, hrun', hpaired⟩ := h.find hlevel key
    simp only [treeStep, hrun, hrun']
    exact Or.inl ⟨_, _, _, rfl, rfl, hpaired.mono (Nat.le_add_right n _)⟩
  | update key val =>
    have hlevel : 1 ≤ s.tempLevel := h.twins.upper.level ▸ of_decide_eq_true hinner
    cases rounds with
    | zero => exact Or.inr ⟨error_ne_ok _, error_ne_ok _⟩
    | succ rounds =>
      obtain ⟨b, u, u', hrun, hrun', hpaired⟩ := h.update hlevel t happlies happlies' rounds
      simp only [treeStep, hrun, hrun']
      exact Or.inl ⟨_, _, _, rfl, rfl, hpaired⟩

/-- Two runs, by induction on the calls. -/
theorem Paired.run (rounds : Nat) (t : Tid) (calls : List (TreeOp ⊕ Key))
    (h : Paired (MAX_LEAF_KEY * calls.length + n) tail s s')
    (hinner : treeAll callsInner rounds t s' (padded calls) = true)
    (happlies : treeAll updatesApply rounds t s (plain calls) = true)
    (happlies' : treeAll updatesApply rounds t s' (padded calls) = true) :
    (∃ answers answers' u u', treeRun rounds t s (plain calls) = .ok (answers, u) ∧
      treeRun rounds t s' (padded calls) = .ok (answers', u') ∧ kept calls answers' = answers ∧
      Paired n tail u u') ∨
    Neither (treeRun rounds t s (plain calls)) (treeRun rounds t s' (padded calls)) := by
  induction calls generalizing s s' with
  | nil =>
    rw [List.length_nil, Nat.mul_zero, Nat.zero_add] at h
    exact Or.inl ⟨[], [], s, s', rfl, rfl, rfl, h⟩
  | cons call calls ih =>
    have hroom : MAX_LEAF_KEY * (call :: calls).length + n =
        MAX_LEAF_KEY * calls.length + n + MAX_LEAF_KEY := by
      rw [List.length_cons, Nat.mul_succ, Nat.add_right_comm]
    rw [hroom] at h
    cases call with
    | inl op =>
      have hplain : plain (.inl op :: calls) = op :: plain calls := rfl
      have hpadded : padded (.inl op :: calls) = op :: padded calls := rfl
      rw [hplain, treeAll, Bool.and_eq_true] at happlies
      rw [hpadded, treeAll, Bool.and_eq_true] at hinner happlies'
      rw [hplain, hpadded]
      simp only [treeRun]
      -- both runs make the call, and both return or neither does
      rcases h.step rounds t hinner.1 happlies.1 happlies'.1 with
        ⟨answer, u, u', hstep, hstep', hpaired⟩ | hneither
      · simp only [hstep, hstep'] at hinner happlies happlies'
        simp only [hstep, hstep', ok_bind]
        rcases ih hpaired hinner.2 happlies.2 happlies'.2 with
          ⟨answers, answers', w, w', hrun, hrun', hkept, hw⟩ | hneither
        · simp only [ok_bind, hrun, hrun']
          exact Or.inl ⟨_, _, _, _, rfl, rfl, congrArg (answer :: ·) hkept, hw⟩
        · exact Or.inr ⟨bind_ne_ok hneither.1, bind_ne_ok hneither.2⟩
      · exact Or.inr ⟨bind_ne_ok hneither.1, bind_ne_ok hneither.2⟩
    | inr key =>
      -- a search that only the second run makes
      have hplain : plain (.inr key :: calls) = plain calls := rfl
      have hpadded : padded (.inr key :: calls) = .find key :: padded calls := rfl
      rw [hpadded, treeAll, Bool.and_eq_true] at hinner happlies'
      rw [hplain] at happlies
      rw [hplain, hpadded]
      obtain ⟨w, u', hfind, hpaired⟩ := h.search (of_decide_eq_true hinner.1) key
      have hstep : treeStep rounds t s' (.find key) = .ok (.found w, u') := by
        simp only [treeStep, hfind, ok_bind, pure_eq_ok]
      simp only [hstep] at hinner happlies'
      simp only [treeRun, hstep, ok_bind]
      rcases ih (hpaired.mono (Nat.le_add_right _ _)) hinner.2 happlies happlies'.2 with
        ⟨answers, answers', w, w', hrun, hrun', hkept, hw⟩ | hneither
      · simp only [ok_bind, hrun, hrun']
        exact Or.inl ⟨_, _, _, _, rfl, rfl, hkept, hw⟩
      · exact Or.inr ⟨hneither.1, bind_ne_ok hneither.2⟩

/-- As long as every update of both runs shows, the searches that one of them makes in addition change
neither the answers to the other calls nor what searches find afterwards. -/
theorem find_pure (pm : P) (t : Tid) (junkInner : Addr → InnerNode) (junkLeaf : Addr → DLeaf)
    (rounds : Nat) (calls : List (TreeOp ⊕ Key)) (hroom : Ok (MAX_LEAF_KEY * calls.length + 1) pm)
    {s₀ : TreeState P} (hinit : init pm t junkInner junkLeaf = .ok s₀)
    (hinner : treeAll callsInner rounds t s₀ (padded calls) = true)
    (happlies : treeAll updatesApply rounds t s₀ (plain calls) = true)
    (happlies' : treeAll updatesApply rounds t s₀ (padded calls) = true) :
    (∃ answers answers' s s', treeRun rounds t s₀ (plain calls) = .ok (answers, s) ∧
      treeRun rounds t s₀ (padded calls) = .ok (answers', s') ∧ kept calls answers' = answers ∧
      s'.tempLevel = s.tempLevel ∧ (1 ≤ s.tempLevel → ∀ k w, Finds s' k w ↔ Finds s k w)) ∨
    ((∀ x, treeRun rounds t s₀ (plain calls) ≠ .ok x) ∧ ∀ x, treeRun rounds t s₀ (padded calls) ≠ .ok x) := by
  obtain ⟨s₁, hinit', hinv, hok, -, hfresh, -⟩ := init_spec hroom t junkInner junkLeaf
  rw [hinit', Except.ok.injEq] at hinit
  subst hinit
  have htwins : Twins s₁ s₁ := ⟨SameUpper.refl s₁, fun a m hm => ⟨m, hm, rfl, rfl, fun _ _ => rfl⟩,
    fun a m hm => ⟨m, hm⟩⟩
  rcases Paired.run rounds t calls (n := 0) ⟨htwins, hinv, hinv, hok, hok, hfresh, hfresh, fun _ _ => Iff.rfl⟩
    hinner happlies happlies' with ⟨answers, answers', s, s', hrun, hrun', hkept, hpaired⟩ | hneither
  · exact Or.inl ⟨answers, answers', s, s', hrun, hrun', hkept, hpaired.twins.upper.level, fun hlevel k w =>
      hpaired.finds hlevel⟩
  · exact Or.inr hneither

/-- Insertions that split the root leaf, a search for a key and an update of it, with one search more. -/
def readsTwice : List (TreeOp ⊕ Key) :=
  firstSplit.map .inl ++ [.inl (.find 31), .inr 30, .inl (.update 31 99), .inl (.find 31)]

theorem find_pure_twice : ∃ s₀, init (IdealPm.roomy 2000) 0 zeroInner zeroLeaf = .ok s₀ ∧
    ((∃ answers answers' s s', treeRun 2 0 s₀ (plain readsTwice) = .ok (answers, s) ∧
      treeRun 2 0 s₀ (padded readsTwice) = .ok (answers', s') ∧ kept readsTwice answers' = answers ∧
      s'.tempLevel = s.tempLevel ∧ (1 ≤ s.tempLevel → ∀ k w, Finds s' k w ↔ Finds s k w)) ∨
    ((∀ x, treeRun 2 0 s₀ (plain readsTwice) ≠ .ok x) ∧
      ∀ x, treeRun 2 0 s₀ (padded readsTwice) ≠ .ok x)) := by
  have h : (do
      let s₀ ← init (IdealPm.roomy 2000) 0 zeroInner zeroLeaf
      return (treeAll callsInner 2 0 s₀ (padded readsTwice), treeAll updatesApply 2 0 s₀ (plain readsTwice),
        treeAll updatesApply 2 0 s₀ (padded readsTwice))) = .ok (true, true, true) := by
    decide +kernel
  simp only [bind_eq_ok, pure_eq_ok, Except.ok.injEq, Prod.mk.injEq] at h
  obtain ⟨s₀, hinit, hinner, happlies, happlies'⟩ := h
  exact ⟨s₀, hinit, find_pure (IdealPm.roomy 2000) 0 zeroInner zeroLeaf 2 readsTwice
    (IdealPm.roomy_lawful (by decide +kernel) (by decide)) hinit hinner happlies happlies'⟩

/-- Insertions that split the root leaf, an update of a key and a search for it; the second run
searches for the key before it is updated as well. -/
def readsFirst : List (TreeOp ⊕ Key) :=
  firstSplit.map .inl ++ [.inr 31, .inl (.update 31 99), .inl (.find 31)]

/-- The update of a key that has been read writes the record, which has no pair. -/
theorem find_not_pure : ∃ s₀ answers answers' s s', init (IdealPm.roomy 1000) 0 zeroInner zeroLeaf = .ok s₀ ∧
    treeAll callsInner 2 0 s₀ (padded readsFirst) = true ∧
    treeRun 2 0 s₀ (plain readsFirst) = .ok (answers, s) ∧
    treeRun 2 0 s₀ (padded readsFirst) = .ok (answers', s') ∧
    kept readsFirst answers' ≠ answers ∧ Finds s 31 7 ∧ Finds s' 31 99 := by
  have h : (do
      let s₀ ← init (IdealPm.roomy 1000) 0 zeroInner zeroLeaf
      let (answers, s) ← treeRun 2 0 s₀ (plain readsFirst)
      let (answers', s') ← treeRun 2 0 s₀ (padded readsFirst)
      let (v, _) ← find s 31
      let (v', _) ← find s' 31
      return (treeAll callsInner 2 0 s₀ (padded readsFirst), decide (kept readsFirst answers' ≠ answers),
        v, v')) = .ok (true, true, 7, 99) := by
    decide +kernel
  simp only [bind_eq_ok, pure_eq_ok, Except.ok.injEq, Prod.mk.injEq, decide_eq_true_eq] at h
  obtain ⟨s₀, hinit, ⟨answers, s⟩, hrun, ⟨answers', s'⟩, hrun', ⟨v, u⟩, hfind, ⟨v', u'⟩, hfind', hinner, hne,
    rfl, rfl⟩ := h
  exact ⟨s₀, answers, answers', s, s', hinit, hinner, hrun, hrun', hne, ⟨u, hfind⟩, u', hfind'⟩

end ZBTree
