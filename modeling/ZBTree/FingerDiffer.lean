import ZBTree.QuickInsert

/-!
# What finger_differ keeps

The two passes mark pairs of results with one fingerprint. The first pass ends one slot before the
half does, so that the second one, which takes all results that are left for slots of the right
half, pairs the last slot of the left half with slots of the right half.
-/

namespace ZBTree

section Differ

variable (array : Nat → AdaptiveSlot) (results : Nat → Nat) (countResult : Nat)

/-- The results `a` and `b` have one fingerprint. -/
def SameHash (a b : Nat) : Prop := (array (results a)).hashByte = (array (results b)).hashByte

/-- Another result in the same half has the fingerprint of result `j`. -/
def RealDuplicate (j : Nat) : Prop :=
  ∃ j', j' < countResult ∧ j' ≠ j ∧ (results j' < LEFT_KEY ↔ results j < LEFT_KEY) ∧
    SameHash array results j' j

/-- The access bit of a result says whether it has a real duplicate; nothing else changes. -/
structure KeepsReal : Prop where
  marked : ∀ j, j < countResult →
    ((fingerDiffer array results countResult (results j)).accessBit = 1 ↔
      RealDuplicate array results countResult j)
  cleared : ∀ j, j < countResult → ¬ RealDuplicate array results countResult j →
    (fingerDiffer array results countResult (results j)).accessBit = 0
  rest : ∀ i, ∃ bit, fingerDiffer array results countResult i = { array i with accessBit := bit }
  others : ∀ i, (∀ j, j < countResult → results j ≠ i) →
    fingerDiffer array results countResult i = array i

/-- Where the last slot of the left half is a result and has the fingerprint of a result of the right
half, both have duplicates in their halves as well. -/
def BoundaryPairsReal : Prop :=
  ∀ e b, e < countResult → b < countResult → results e = LEFT_KEY - 1 → LEFT_KEY ≤ results b →
    SameHash array results e b →
    RealDuplicate array results countResult e ∧ RealDuplicate array results countResult b

end Differ

variable {array : Nat → AdaptiveSlot} {results : Nat → Nat} {countResult : Nat} {temp : Nat → Bool}

theorem SameHash.symm {a b : Nat} (h : SameHash array results a b) : SameHash array results b a :=
  Eq.symm h

theorem SameHash.trans {a b c : Nat} (h : SameHash array results a b) (h' : SameHash array results b c) :
    SameHash array results a c := Eq.trans h h'

/-! ### The passes

The two loops go over the sorted slots, one for each half. The marks are kept in an array of their own, and the
access bits are cleared from it afterwards. -/

theorem differMark_eq_true (i j x : Nat) : differMark array results i j temp x = true ↔
    temp x = true ∨ SameHash array results i j ∧ (x = i ∨ x = j) := by
  unfold differMark
  by_cases hsame : (array (results j)).hashByte = (array (results i)).hashByte
  · rw [if_pos hsame]
    have hsame' : SameHash array results i j := hsame.symm
    by_cases hi : x = i
    · subst hi
      rw [Function.update_self]
      exact iff_of_true rfl (Or.inr ⟨hsame', Or.inl rfl⟩)
    · rw [Function.update_of_ne hi]
      by_cases hj : x = j
      · subst hj
        rw [Function.update_self]
        exact iff_of_true rfl (Or.inr ⟨hsame', Or.inr rfl⟩)
      · rw [Function.update_of_ne hj]
        exact ⟨Or.inl, fun h => h.resolve_right fun h' => h'.2.elim hi hj⟩
  · rw [if_neg hsame]
    exact ⟨Or.inl, fun h => h.resolve_right fun h' => hsame h'.1.symm⟩

theorem differRight_eq_true (i n j x : Nat) : differRight array results i n j temp x = true ↔
    temp x = true ∨ ∃ b, j ≤ b ∧ b < j + n ∧ SameHash array results i b ∧ (x = i ∨ x = b) := by
  induction n generalizing j temp with
  | zero =>
    refine ⟨Or.inl, fun h => h.resolve_right ?_⟩
    rintro ⟨b, hle, hlt, -⟩
    exact Nat.not_lt.mpr hle hlt
  | succ n ih =>
    rw [differRight, ih, differMark_eq_true, or_assoc]
    apply or_congr_right
    constructor
    · rintro (⟨hsame, hx⟩ | ⟨b, hle, hlt, hrest⟩)
      · exact ⟨j, Nat.le_refl j, by omega, hsame, hx⟩
      · exact ⟨b, by omega, by omega, hrest⟩
    · rintro ⟨b, hle, hlt, hsame, hx⟩
      rcases Nat.eq_or_lt_of_le hle with rfl | hlt'
      · exact Or.inl ⟨hsame, hx⟩
      · exact Or.inr ⟨b, hlt', by omega, hsame, hx⟩

/-- The inner loop of the first pass stops where the right half begins. -/
theorem differLeft_eq_true (hmono : ∀ a b, a < b → b < countResult → results a < results b)
    (i n j x : Nat) (hend : j + n = countResult) : differLeft array results i n j temp x = true ↔
      temp x = true ∨ ∃ b, j ≤ b ∧ b < countResult ∧ results b < LEFT_KEY ∧
        SameHash array results i b ∧ (x = i ∨ x = b) := by
  induction n generalizing j temp with
  | zero =>
    refine ⟨Or.inl, fun h => h.resolve_right ?_⟩
    rintro ⟨b, hle, hlt, -⟩
    omega
  | succ n ih =>
    rw [differLeft]
    by_cases hleft : results j < LEFT_KEY
    · rw [if_pos hleft, ih (j + 1) (by omega), differMark_eq_true, or_assoc]
      apply or_congr_right
      constructor
      · rintro (⟨hsame, hx⟩ | ⟨b, hle, hrest⟩)
        · exact ⟨j, Nat.le_refl j, by omega, hleft, hsame, hx⟩
        · exact ⟨b, by omega, hrest⟩
      · rintro ⟨b, hle, hlt, hb, hsame, hx⟩
        rcases Nat.eq_or_lt_of_le hle with rfl | hlt'
        · exact Or.inl ⟨hsame, hx⟩
        · exact Or.inr ⟨b, hlt', hlt, hb, hsame, hx⟩
    · rw [if_neg hleft]
      refine ⟨Or.inl, fun h => h.resolve_right ?_⟩
      rintro ⟨b, hle, hlt, hb, -⟩
      rcases Nat.eq_or_lt_of_le hle with rfl | hlt'
      · exact hleft hb
      · exact hleft ((hmono j b hlt' hlt).trans hb)

/-- After the first pass over the results below `i` the members of the pairs in the left half that begin
there are marked. -/
def MarkedLeft (array : Nat → AdaptiveSlot) (results : Nat → Nat) (countResult i : Nat)
    (temp : Nat → Bool) : Prop :=
  ∀ x, temp x = true ↔ ∃ a b, a < i ∧ a < b ∧ b < countResult ∧ results b < LEFT_KEY ∧
    SameHash array results a b ∧ (x = a ∨ x = b)

theorem MarkedLeft.skip {i : Nat} (h : MarkedLeft array results countResult i temp)
    (hmarked : temp i = true) : MarkedLeft array results countResult (i + 1) temp := by
  intro x
  rw [h x]
  constructor
  · rintro ⟨a, b, ha, hrest⟩
    exact ⟨a, b, Nat.lt_succ_of_lt ha, hrest⟩
  · rintro ⟨a, b, ha, hab, hb, hleft, hsame, hx⟩
    rcases Nat.lt_succ_iff_lt_or_eq.mp ha with hlt | rfl
    · exact ⟨a, b, hlt, hab, hb, hleft, hsame, hx⟩
    · obtain ⟨c, d, hc, hcd, hd, hleft', hsame', heq⟩ := (h a).mp hmarked
      obtain rfl : a = d := heq.resolve_left (Nat.ne_of_gt hc)
      rcases hx with rfl | rfl
      · exact ⟨c, x, hc, hcd, hd, hleft', hsame', Or.inr rfl⟩
      · exact ⟨c, x, hc, hcd.trans hab, hb, hleft, hsame'.trans hsame, Or.inr rfl⟩

theorem MarkedLeft.step (hmono : ∀ a b, a < b → b < countResult → results a < results b) {i : Nat}
    (h : MarkedLeft array results countResult i temp) (hi : i + 1 ≤ countResult) :
    MarkedLeft array results countResult (i + 1)
      (differLeft array results i (countResult - (i + 1)) (i + 1) temp) := by
  intro x
  rw [differLeft_eq_true hmono i _ (i + 1) x (by omega), h x]
  constructor
  · rintro (⟨a, b, ha, hrest⟩ | ⟨b, hle, hlt, hleft, hsame, hx⟩)
    · exact ⟨a, b, Nat.lt_succ_of_lt ha, hrest⟩
    · exact ⟨i, b, Nat.lt_succ_self i, hle, hlt, hleft, hsame, hx⟩
  · rintro ⟨a, b, ha, hab, hb, hleft, hsame, hx⟩
    rcases Nat.lt_succ_iff_lt_or_eq.mp ha with hlt | rfl
    · exact Or.inl ⟨a, b, hlt, hab, hb, hleft, hsame, hx⟩
    · exact Or.inr ⟨b, hab, hb, hleft, hsame, hx⟩

/-- Where the first pass ends. -/
structure LeftDone (array : Nat → AdaptiveSlot) (results : Nat → Nat) (countResult : Nat)
    (done : Nat × (Nat → Bool)) : Prop where
  below : done.1 ≤ countResult - 1
  before : ∀ a, a < done.1 → results a < LEFT_KEY - 1
  stop : done.1 = countResult - 1 ∨ LEFT_KEY - 1 ≤ results done.1
  marked : MarkedLeft array results countResult done.1 done.2

theorem bothLeft_spec (hmono : ∀ a b, a < b → b < countResult → results a < results b) (n i : Nat)
    (hend : i + n = countResult - 1) (hbefore : ∀ a, a < i → results a < LEFT_KEY - 1)
    (h : MarkedLeft array results countResult i temp) :
    LeftDone array results countResult (bothLeft array results countResult n i temp) := by
  induction n generalizing i temp with
  | zero => exact ⟨Nat.le_of_eq hend, hbefore, Or.inl hend, h⟩
  | succ n ih =>
    rw [bothLeft]
    by_cases hleft : results i < LEFT_KEY - 1
    · rw [if_pos hleft]
      have hbefore' : ∀ a, a < i + 1 → results a < LEFT_KEY - 1 := by
        intro a ha
        rcases Nat.lt_succ_iff_lt_or_eq.mp ha with hlt | rfl
        · exact hbefore a hlt
        · exact hleft
      by_cases hmarked : temp i = true
      · rw [if_pos hmarked]
        exact ih (i + 1) (by omega) hbefore' (h.skip hmarked)
      · rw [if_neg hmarked]
        exact ih (i + 1) (by omega) hbefore' (h.step hmono (by omega))
    · rw [if_neg hleft]
      exact ⟨by omega, hbefore, Or.inr (Nat.not_lt.mp hleft), h⟩

theorem bothRight_eq_true (n i x : Nat) (hend : i + n = countResult - 1) :
    bothRight array results countResult n i temp x = true ↔ temp x = true ∨
      ∃ a b, i ≤ a ∧ a < b ∧ b < countResult ∧ SameHash array results a b ∧ (x = a ∨ x = b) := by
  induction n generalizing i temp with
  | zero =>
    refine ⟨Or.inl, fun h => h.resolve_right ?_⟩
    rintro ⟨a, b, hle, hab, hb, -⟩
    omega
  | succ n ih =>
    rw [bothRight, ih (i + 1) (by omega), differRight_eq_true, or_assoc]
    apply or_congr_right
    constructor
    · rintro (⟨b, hle, hlt, hsame, hx⟩ | ⟨a, b, hle, hrest⟩)
      · exact ⟨i, b, Nat.le_refl i, hle, by omega, hsame, hx⟩
      · exact ⟨a, b, by omega, hrest⟩
    · rintro ⟨a, b, hle, hab, hb, hsame, hx⟩
      rcases Nat.eq_or_lt_of_le hle with rfl | hlt
      · exact Or.inl ⟨b, hab, by omega, hsame, hx⟩
      · exact Or.inr ⟨a, b, hlt, hab, hb, hsame, hx⟩

/-! ### The marks -/

/-- The marks after both passes. -/
def differTemp (array : Nat → AdaptiveSlot) (results : Nat → Nat) (countResult : Nat) : Nat → Bool :=
  let done := bothLeft array results countResult (countResult - 1) 0 fun _ => false
  bothRight array results countResult (countResult - 1 - done.1) done.1 done.2

theorem fingerDiffer_eq : fingerDiffer array results countResult =
    (List.range countResult).foldl (clearFake results (differTemp array results countResult)) array := rfl

/-- The members of a pair across the middle. -/
def FalsePair (array : Nat → AdaptiveSlot) (results : Nat → Nat) (countResult x : Nat) : Prop :=
  ∃ e b, e < countResult ∧ b < countResult ∧ results e = LEFT_KEY - 1 ∧ LEFT_KEY ≤ results b ∧
    SameHash array results e b ∧ (x = e ∨ x = b)

section Marks

variable (hmono : ∀ a b, a < b → b < countResult → results a < results b)

theorem realDuplicate_of_pair {a b x : Nat} (hab : a < b) (hb : b < countResult)
    (hhalf : results a < LEFT_KEY ↔ results b < LEFT_KEY) (hsame : SameHash array results a b)
    (hx : x = a ∨ x = b) : RealDuplicate array results countResult x := by
  rcases hx with rfl | rfl
  · exact ⟨b, hb, Nat.ne_of_gt hab, hhalf.symm, hsame.symm⟩
  · exact ⟨a, hab.trans hb, Nat.ne_of_lt hab, hhalf, hsame⟩

theorem RealDuplicate.pair {x : Nat} (hx : x < countResult)
    (h : RealDuplicate array results countResult x) : ∃ a b, a < b ∧ b < countResult ∧
      (results a < LEFT_KEY ↔ results b < LEFT_KEY) ∧ SameHash array results a b ∧ (x = a ∨ x = b) := by
  obtain ⟨y, hy, hne, hhalf, hsame⟩ := h
  rcases Nat.lt_or_gt_of_ne hne with hlt | hgt
  · exact ⟨y, x, hlt, hx, hhalf, hsame, Or.inr rfl⟩
  · exact ⟨x, y, hgt, hy, hhalf.symm, hsame.symm, Or.inl rfl⟩

include hmono in
/-- A result is marked if it has a real duplicate or is a member of a pair across the middle. -/
theorem differTemp_eq_true {x : Nat} (hx : x < countResult) :
    differTemp array results countResult x = true ↔
      RealDuplicate array results countResult x ∨ FalsePair array results countResult x := by
  -- no slot is marked before the first pass
  have hstart : MarkedLeft array results countResult 0 fun _ => false := by
    intro y
    refine ⟨fun h => absurd h Bool.false_ne_true, ?_⟩
    rintro ⟨a, b, ha, -⟩
    exact absurd ha (Nat.not_lt_zero a)
  have hdone := bothLeft_spec hmono (countResult - 1) 0 (Nat.zero_add _)
    (fun a ha => absurd ha (Nat.not_lt_zero a)) hstart
  unfold differTemp
  generalize bothLeft array results countResult (countResult - 1) 0 (fun _ => false) = done at hdone
  obtain ⟨i, temp⟩ := done
  obtain ⟨hbelow, hbefore, hstop, hmarked⟩ := hdone
  dsimp only at hbelow hbefore hstop hmarked ⊢
  rw [bothRight_eq_true _ i x (by omega), hmarked x]
  have hhalf : LEFT_KEY - 1 < LEFT_KEY := by decide
  constructor
  · -- marked by the first pass: both slots lie in the left half
    rintro (⟨a, b, -, hab, hb, hleft, hsame, hx⟩ | ⟨a, b, hle, hab, hb, hsame, hx⟩)
    · have hleft' : results a < LEFT_KEY := (hmono a b hab hb).trans hleft
      exact Or.inl (realDuplicate_of_pair hab hb (iff_of_true hleft' hleft) hsame hx)
    · -- the second pass has begun at the last slot of the left half or behind it
      have hlast : LEFT_KEY - 1 ≤ results a := by
        have hi : LEFT_KEY - 1 ≤ results i := hstop.resolve_left (by omega)
        rcases Nat.eq_or_lt_of_le hle with rfl | hlt
        · exact hi
        · exact hi.trans (hmono i a hlt (hab.trans hb)).le
      have hright : LEFT_KEY ≤ results b := Nat.le_of_pred_lt (Nat.lt_of_le_of_lt hlast (hmono a b hab hb))
      rcases Nat.eq_or_lt_of_le hlast with heq | hlt
      · exact Or.inr ⟨a, b, hab.trans hb, hb, heq.symm, hright, hsame, hx⟩
      · have hright' : LEFT_KEY ≤ results a := Nat.le_of_pred_lt hlt
        exact Or.inl (realDuplicate_of_pair hab hb
          (iff_of_false (Nat.not_lt.mpr hright') (Nat.not_lt.mpr hright)) hsame hx)
  · -- a real duplicate is seen in the pass over its half
    rintro (hreal | ⟨e, b, he, hb, hlast, hright, hsame, hx⟩)
    · obtain ⟨a, b, hab, hb, hsides, hsame, hx⟩ := hreal.pair hx
      by_cases ha : a < i
      · have hleft : results a < LEFT_KEY := (hbefore a ha).trans hhalf
        exact Or.inl ⟨a, b, ha, hab, hb, hsides.mp hleft, hsame, hx⟩
      · exact Or.inr ⟨a, b, Nat.not_lt.mp ha, hab, hb, hsame, hx⟩
    · -- the pair across the middle: the second pass begins at its left member or before
      have hie : i ≤ e := by
        by_contra hlt
        exact absurd (hbefore e (Nat.not_le.mp hlt)) (by rw [hlast]; exact Nat.lt_irrefl _)
      have heb : e < b := by
        rcases Nat.lt_trichotomy e b with hlt | rfl | hgt
        · exact hlt
        · omega
        · have := hmono b e hgt he
          omega
      exact Or.inr ⟨e, b, hie, heb, hb, hsame, hx⟩

end Marks

/-! ### The access bits -/

theorem clearFake_rest (i j : Nat) :
    ∃ bit, clearFake results temp array j i = { array i with accessBit := bit } := by
  unfold clearFake
  split
  · exact ⟨(array i).accessBit, rfl⟩
  · by_cases hi : i = results j
    · subst hi
      exact ⟨0, Function.update_self ..⟩
    · exact ⟨(array i).accessBit, Function.update_of_ne hi ..⟩

variable (array temp) in
/-- The last loop over the first `n` results. -/
theorem foldl_clearFake (hinj : ∀ a b, a < countResult → b < countResult → results a = results b → a = b)
    (n : Nat) (hn : n ≤ countResult) :
    (∀ i, ∃ bit, (List.range n).foldl (clearFake results temp) array i =
        { array i with accessBit := bit }) ∧
      (∀ i, (∀ j, j < n → results j ≠ i) →
        (List.range n).foldl (clearFake results temp) array i = array i) ∧
      ∀ j, j < n → (List.range n).foldl (clearFake results temp) array (results j) =
        if temp j = true then array (results j) else { array (results j) with accessBit := 0 } := by
  induction n with
  | zero =>
    exact ⟨fun i => ⟨_, rfl⟩, fun i _ => rfl, fun j hj => absurd hj (Nat.not_lt_zero j)⟩
  | succ n ih =>
    obtain ⟨hrest, hothers, hlisted⟩ := ih (Nat.le_of_succ_le hn)
    rw [List.range_succ, List.foldl_append, List.foldl_cons, List.foldl_nil]
    generalize (List.range n).foldl (clearFake results temp) array = array' at hrest hothers hlisted
    have hnot : ∀ i, results n ≠ i → clearFake results temp array' n i = array' i := by
      intro i hne
      unfold clearFake
      split
      · rfl
      · exact Function.update_of_ne hne.symm ..
    refine ⟨?_, ?_, ?_⟩
    · intro i
      obtain ⟨bit, hbit⟩ := hrest i
      obtain ⟨bit', hbit'⟩ : ∃ bit, clearFake results temp array' n i = { array' i with accessBit := bit } :=
        clearFake_rest i n
      exact ⟨bit', by rw [hbit', hbit]⟩
    · intro i hne
      rw [hnot i (hne n (Nat.lt_succ_self n))]
      exact hothers i fun j hj => hne j (Nat.lt_succ_of_lt hj)
    · intro j hj
      rcases Nat.lt_succ_iff_lt_or_eq.mp hj with hlt | rfl
      · rw [hnot (results j), hlisted j hlt]
        intro heq
        exact Nat.ne_of_gt hlt (hinj n j hn (hlt.trans hn) heq)
      · have hown : array' (results j) = array (results j) := by
          apply hothers
          intro k hk heq
          exact Nat.ne_of_lt hk (hinj k j (hk.trans hn) hn heq)
        unfold clearFake
        split
        · exact hown
        · rw [Function.update_self, hown]

/-- The access bits say which results have real duplicates exactly if no pair across the middle has a
member without one. -/
theorem finger_differ_iff (array : Nat → AdaptiveSlot) (results : Nat → Nat) (countResult : Nat)
    (hmono : ∀ a b, a < b → b < countResult → results a < results b)
    (haccess : ∀ j, j < countResult → (array (results j)).accessBit = 1) :
    KeepsReal array results countResult ↔ BoundaryPairsReal array results countResult := by
  have hinj : ∀ a b, a < countResult → b < countResult → results a = results b → a = b := by
    intro a b ha hb heq
    rcases Nat.lt_trichotomy a b with hlt | rfl | hgt
    · exact absurd heq (Nat.ne_of_lt (hmono a b hlt hb))
    · rfl
    · exact absurd heq (Nat.ne_of_gt (hmono b a hgt ha))
  obtain ⟨hrest, hothers, hlisted⟩ :=
    foldl_clearFake array (differTemp array results countResult) hinj countResult (Nat.le_refl _)
  rw [← fingerDiffer_eq] at hrest hothers hlisted
  have hbit : ∀ j, j < countResult →
      ((fingerDiffer array results countResult (results j)).accessBit = 1 ↔
        RealDuplicate array results countResult j ∨ FalsePair array results countResult j) := by
    intro j hj
    rw [hlisted j hj, ← differTemp_eq_true hmono hj]
    split
    · next hmarked => exact iff_of_true (haccess j hj) hmarked
    · next hmarked => exact iff_of_false (by decide : ¬ (0 : BitVec 2) = 1) hmarked
  constructor
  · intro h e b he hb hlast hright hsame
    have hpair : ∀ x, x = e ∨ x = b → FalsePair array results countResult x := fun x hx =>
      ⟨e, b, he, hb, hlast, hright, hsame, hx⟩
    exact ⟨(h.marked e he).mp ((hbit e he).mpr (Or.inr (hpair e (Or.inl rfl)))),
      (h.marked b hb).mp ((hbit b hb).mpr (Or.inr (hpair b (Or.inr rfl))))⟩
  · intro hreal
    have hfalse : ∀ x, FalsePair array results countResult x → RealDuplicate array results countResult x := by
      rintro x ⟨e, b, he, hb, hlast, hright, hsame, rfl | rfl⟩
      · exact (hreal x b he hb hlast hright hsame).1
      · exact (hreal e x he hb hlast hright hsame).2
    refine ⟨?_, ?_, hrest, hothers⟩
    · intro j hj
      rw [hbit j hj]
      exact ⟨fun h => h.elim id (hfalse j), Or.inl⟩
    · intro j hj hnot
      have hclear : ¬ differTemp array results countResult j = true := by
        rw [differTemp_eq_true hmono hj]
        exact fun h => hnot (h.elim id (hfalse j))
      rw [hlisted j hj, if_neg hclear]

/-- Slots of which the places in `same` have one fingerprint, all with a set access bit. -/
def markedSlots (same : List Nat) (i : Nat) : AdaptiveSlot where
  hashByte := if i ∈ same then 200 else BitVec.ofNat 8 i
  controlBit := 0
  accessBit := 1
  ptrField := 0

/-- Four results: two duplicates in the left half, its last slot and a slot of the right half. -/
def fourResults (j : Nat) : Nat := [2, 5, 14, 20].getD j 0

theorem fourResults_mono : ∀ a b, a < b → b < 4 → fourResults a < fourResults b := by
  have hall : ∀ b, b < 4 → ∀ a, a < b → fourResults a < fourResults b := by decide
  exact fun a b hab hb => hall b hb a hab

theorem finger_differ_iff_four :
    KeepsReal (markedSlots [2, 5]) fourResults 4 ↔ BoundaryPairsReal (markedSlots [2, 5]) fourResults 4 :=
  finger_differ_iff (markedSlots [2, 5]) fourResults 4 fourResults_mono fun _ _ => rfl

/-- Slots 14 and 20 have one fingerprint and lie in different halves; slot 14 keeps its access bit,
and so does slot 20. -/
theorem false_duplicate_kept :
    (fingerDiffer (markedSlots [14, 20]) fourResults 4 14).accessBit = 1 ∧
      (fingerDiffer (markedSlots [14, 20]) fourResults 4 20).accessBit = 1 ∧
      ¬ KeepsReal (markedSlots [14, 20]) fourResults 4 := by
  have hkept : (fingerDiffer (markedSlots [14, 20]) fourResults 4 14).accessBit = 1 := by
    decide +kernel
  have hkept' : (fingerDiffer (markedSlots [14, 20]) fourResults 4 20).accessBit = 1 := by
    decide +kernel
  refine ⟨hkept, hkept', fun h => ?_⟩
  obtain ⟨j, hj, hne, hhalf, hsame⟩ := (h.marked 2 (by decide)).mp hkept
  have hnone : ∀ j, j < 4 → j ≠ 2 → (fourResults j < LEFT_KEY ↔ fourResults 2 < LEFT_KEY) →
      (markedSlots [14, 20] (fourResults j)).hashByte ≠ (markedSlots [14, 20] (fourResults 2)).hashByte := by
    decide
  exact hnone j hj hne hhalf hsame

end ZBTree
