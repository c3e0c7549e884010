import ZBTree.Layout
import ZBTree.Arrays

/-!
# The lock-step sort of `zbtree.cpp`

`qsort` sorts the keys of a full leaf and moves the leaf slots along with them.
Its left recursive call keeps the pivot, so when the pivot is the largest key it
is called again on the very same cells; the second time the largest key stands
last and the range does shrink. `qsort_spec` bounds the depth of the recursion by
`2 * (end - start) + 1` and says that one permutation of the cells `start .. end`
is applied to both arrays and sorts the keys. `qsort_correct` adds that only cells of
the arrays are read and written.
-/

namespace ZBTree

open Arrays

/-- `while (temp[end].one_key >= sentinal && start < end) end--;` -/
def scanDown (temp : Nat → NodeEntry) (sentinal : Key) (start : Nat) : Nat → Nat
  | 0 => 0
  | e + 1 =>
    if sentinal ≤ (temp (e + 1)).oneKey ∧ start < e + 1 then scanDown temp sentinal start e
    else e + 1

/-- `while (temp[start].one_key <= sentinal && start < end) start++;`; the first
argument counts the cells left before `end`. -/
def scanUp (temp : Nat → NodeEntry) (sentinal : Key) (last : Nat) : Nat → Nat → Nat
  | 0, start => start
  | n + 1, start =>
    if (temp start).oneKey ≤ sentinal ∧ start < last then scanUp temp sentinal last n (start + 1)
    else start

/-- The partition loop. Every round moves one of the ends, so `end - start` rounds
are enough; returns the place of the pivot and both arrays. -/
def partitionLoop (sentinal : Key) :
    Nat → Nat → Nat → (Nat → NodeEntry) → (Nat → AdaptiveSlot) →
      Nat × (Nat → NodeEntry) × (Nat → AdaptiveSlot)
  | 0, start, _, temp, temp2 => (start, temp, temp2)
  | n + 1, start, last, temp, temp2 =>
    if start < last then
      let last' := scanDown temp sentinal start last
      let temp' := temp ∘ Equiv.swap last' start
      let temp2' := temp2 ∘ Equiv.swap last' start
      let start' := scanUp temp' sentinal last' (last' - start) start
      partitionLoop sentinal n start' last'
        (temp' ∘ Equiv.swap last' start') (temp2' ∘ Equiv.swap last' start')
    else (start, temp, temp2)

/-- `qsort` (`zbtree.cpp`, and the same text in `zbtree_r.cpp`); `none` when the recursion is deeper than the first argument. -/
def qsort : Nat → Nat → Nat → (Nat → NodeEntry) → (Nat → AdaptiveSlot) →
    Option ((Nat → NodeEntry) × (Nat → AdaptiveSlot))
  | 0, _, _, _, _ => none
  | n + 1, start, last, temp, temp2 =>
    if last ≤ start then some (temp, temp2)
    else
      let r := partitionLoop (temp start).oneKey (last - start) start last temp temp2
      (qsort n start r.1 r.2.1 r.2.2).bind fun l => qsort n (r.1 + 1) last l.1 l.2

/-! ### The two scans -/

theorem scanDown_spec (temp : Nat → NodeEntry) (sentinal : Key) (start last : Nat)
    (h : start ≤ last) :
    let e := scanDown temp sentinal start last
    (start ≤ e ∧ e ≤ last) ∧ (∀ i, e < i → i ≤ last → sentinal ≤ (temp i).oneKey) ∧
      (start < e → (temp e).oneKey < sentinal) := by
  induction last with
  | zero =>
    simp only [scanDown]
    exact ⟨⟨h, Nat.le_refl 0⟩, fun i _ _ => by omega, fun _ => by omega⟩
  | succ e ih =>
    simp only [scanDown]
    by_cases hstep : sentinal ≤ (temp (e + 1)).oneKey ∧ start < e + 1
    · rw [if_pos hstep]
      obtain ⟨⟨hlo, hhi⟩, hge, hlt⟩ := ih (Nat.le_of_lt_succ hstep.2)
      refine ⟨⟨hlo, Nat.le_succ_of_le hhi⟩, ?_, hlt⟩
      intro i hi hi'
      rcases Nat.lt_or_eq_of_le hi' with hi' | rfl
      · exact hge i hi (Nat.le_of_lt_succ hi')
      · exact hstep.1
    · rw [if_neg hstep]
      refine ⟨⟨h, Nat.le_refl _⟩, fun i _ _ => by omega, ?_⟩
      intro hlt
      exact not_le.mp fun hle => hstep ⟨hle, hlt⟩

theorem scanUp_spec (temp : Nat → NodeEntry) (sentinal : Key) (last n start : Nat)
    (hn : start + n = last) :
    let s := scanUp temp sentinal last n start
    (start ≤ s ∧ s ≤ last) ∧ (∀ i, start ≤ i → i < s → (temp i).oneKey ≤ sentinal) ∧
      (s < last → sentinal < (temp s).oneKey) := by
  induction n generalizing start with
  | zero =>
    simp only [scanUp]
    exact ⟨⟨Nat.le_refl _, by omega⟩, fun i _ _ => by omega, fun _ => by omega⟩
  | succ n ih =>
    simp only [scanUp]
    by_cases hstep : (temp start).oneKey ≤ sentinal ∧ start < last
    · rw [if_pos hstep]
      obtain ⟨⟨hlo, hhi⟩, hle, hlt⟩ := ih (start + 1) (by omega)
      refine ⟨⟨by omega, hhi⟩, ?_, hlt⟩
      intro i hi hi'
      rcases Nat.lt_or_eq_of_le hi with hi | rfl
      · exact hle i hi hi'
      · exact hstep.1
    · rw [if_neg hstep]
      refine ⟨⟨Nat.le_refl _, by omega⟩, fun i _ _ => by omega, ?_⟩
      intro hlt
      exact not_le.mp fun hle => hstep ⟨hle, hlt⟩

/-! ### The partition -/

/-- What holds at the head of a partition round: the pivot stands at `s`, the cells
before `s` are not above it and the cells after `e` not below it. -/
structure PartInv (sentinal : Key) (lo hi s e : Nat) (temp : Nat → NodeEntry) : Prop where
  lo_le : lo ≤ s
  s_le : s ≤ e
  e_le : e ≤ hi
  pivot : (temp s).oneKey = sentinal
  below : ∀ i, lo ≤ i → i < s → (temp i).oneKey ≤ sentinal
  above : ∀ i, e < i → i ≤ hi → sentinal ≤ (temp i).oneKey

/-- One round keeps the invariant and brings the ends closer together. -/
theorem PartInv.round {sentinal : Key} {lo hi s e : Nat} {temp : Nat → NodeEntry}
    (h : PartInv sentinal lo hi s e temp) (hlt : s < e) :
    let e' := scanDown temp sentinal s e
    let temp' := temp ∘ Equiv.swap e' s
    let s' := scanUp temp' sentinal e' (e' - s) s
    PartInv sentinal lo hi s' e' (temp' ∘ Equiv.swap e' s') ∧ e' - s' < e - s ∧
      (s ≤ e' ∧ e' ≤ e) ∧ (s ≤ s' ∧ s' ≤ e') := by
  intro e' temp' s'
  obtain ⟨⟨hse', he'e⟩, hge, hsmall⟩ := scanDown_spec temp sentinal s e h.s_le
  obtain ⟨⟨hss', hs'e'⟩, hle, hbig⟩ :=
    scanUp_spec temp' sentinal e' (e' - s) s (Nat.add_sub_cancel' hse')
  have hlo := h.lo_le
  have hhi := h.e_le
  -- after the first swap the pivot stands at `e'`
  have hpivot : (temp' e').oneKey = sentinal := by
    simp only [temp', Function.comp_apply, Equiv.swap_apply_left, h.pivot]
  have hpivot' : ((temp' ∘ Equiv.swap e' s') s').oneKey = sentinal := by
    simp only [Function.comp_apply, Equiv.swap_apply_right, hpivot]
  have hout : ∀ i, i < s ∨ e' < i → temp' i = temp i := by
    intro i hi
    simp only [temp', Function.comp_apply]
    rw [Equiv.swap_apply_of_ne_of_ne (by omega) (by omega)]
  have hout' : ∀ i, i < s' ∨ e' < i → (temp' ∘ Equiv.swap e' s') i = temp' i := by
    intro i hi
    simp only [Function.comp_apply]
    rw [Equiv.swap_apply_of_ne_of_ne (by omega) (by omega)]
  -- a round that moves neither end would have the pivot below and above itself
  have hprogress : e' = s ∨ s < s' := by
    by_contra hno
    push Not at hno
    have hs's : s' = s := by omega
    have hfirst : (temp' s).oneKey < sentinal := by
      simp only [temp', Function.comp_apply, Equiv.swap_apply_right]
      exact hsmall (by omega)
    have hfirst' : sentinal < (temp' s').oneKey := hbig (by omega)
    rw [hs's] at hfirst'
    exact absurd hfirst (not_lt.mpr hfirst'.le)
  refine ⟨⟨by omega, hs'e', by omega, hpivot', ?_, ?_⟩, by omega, ⟨hse', he'e⟩, ⟨hss', hs'e'⟩⟩
  · intro i hi hi'
    rw [hout' i (Or.inl hi')]
    by_cases his : i < s
    · rw [hout i (Or.inl his)]
      exact h.below i hi his
    · exact hle i (by omega) hi'
  · intro i hi hi'
    rw [hout' i (Or.inr hi), hout i (Or.inr hi)]
    by_cases hie : i ≤ e
    · exact hge i hi hie
    · exact h.above i (by omega) hi'

theorem partitionLoop_spec (sentinal : Key) (lo hi : Nat) (n s e : Nat)
    (temp : Nat → NodeEntry) (temp2 : Nat → AdaptiveSlot)
    (h : PartInv sentinal lo hi s e temp) (hn : e - s ≤ n) :
    ∃ p, ∃ σ : Equiv.Perm Nat, partitionLoop sentinal n s e temp temp2 = (p, temp ∘ σ, temp2 ∘ σ) ∧
      PermOn s e σ ∧ PartInv sentinal lo hi p p (temp ∘ σ) ∧ s ≤ p ∧ p ≤ e := by
  induction n generalizing s e temp temp2 with
  | zero =>
    have hse : s = e := by
      have := h.s_le
      omega
    subst hse
    exact ⟨s, Equiv.refl Nat, rfl, PermOn.refl _ _, h, Nat.le_refl _, Nat.le_refl _⟩
  | succ n ih =>
    by_cases hlt : s < e
    · obtain ⟨hround, hcloser, ⟨hse', he'e⟩, ⟨hss', hs'e'⟩⟩ := h.round hlt
      rw [partitionLoop, if_pos hlt]
      obtain ⟨p, σ, hloop, hσ, hinv, hp, hp'⟩ := ih _ _ _
        ((temp2 ∘ Equiv.swap _ _) ∘ Equiv.swap _ _) hround (by omega)
      simp only [Function.comp_assoc, ← Equiv.Perm.coe_mul] at hloop hinv
      refine ⟨p, _, hloop, ?_, hinv, hss'.trans hp, hp'.trans he'e⟩
      · exact PermOn.mul (PermOn.mul (PermOn.swap ⟨hse', he'e⟩ ⟨Nat.le_refl _, hlt.le⟩)
          (PermOn.swap ⟨hse', he'e⟩ ⟨hss', hs'e'.trans he'e⟩)) (hσ.mono hss' he'e)
    · have hse : s = e := by
        have := h.s_le
        omega
      subst hse
      rw [partitionLoop, if_neg (Nat.lt_irrefl _)]
      exact ⟨s, Equiv.refl Nat, rfl, PermOn.refl _ _, h, Nat.le_refl _, Nat.le_refl _⟩

theorem partition_spec (lo hi : Nat) (temp : Nat → NodeEntry) (temp2 : Nat → AdaptiveSlot)
    (hlt : lo < hi) :
    ∃ p, ∃ σ : Equiv.Perm Nat, partitionLoop (temp lo).oneKey (hi - lo) lo hi temp temp2 = (p, temp ∘ σ, temp2 ∘ σ) ∧
      PermOn lo hi σ ∧ PartInv (temp lo).oneKey lo hi p p (temp ∘ σ) := by
  have hinit : PartInv (temp lo).oneKey lo hi lo hi temp :=
    ⟨Nat.le_refl _, hlt.le, Nat.le_refl _, rfl, fun i _ _ => by omega, fun i _ _ => by omega⟩
  obtain ⟨p, σ, hloop, hσ, hinv, -, -⟩ :=
    partitionLoop_spec _ lo hi (hi - lo) lo hi temp temp2 hinit (Nat.le_refl _)
  exact ⟨p, σ, hloop, hσ, hinv⟩

/-! ### The recursion -/

/-- The keys of the cells `lo .. hi` are in non-decreasing order. -/
def SortedOn (lo hi : Nat) (temp : Nat → NodeEntry) : Prop :=
  ∀ i j, lo ≤ i → i ≤ j → j ≤ hi → (temp i).oneKey ≤ (temp j).oneKey

theorem sortedOn_of_halves (sentinal : Key) (p : Nat) {lo hi : Nat} {temp : Nat → NodeEntry}
    (hl : SortedOn lo p temp) (hr : SortedOn (p + 1) hi temp)
    (hbelow : ∀ i, lo ≤ i → i ≤ p → (temp i).oneKey ≤ sentinal)
    (habove : ∀ i, p + 1 ≤ i → i ≤ hi → sentinal ≤ (temp i).oneKey) : SortedOn lo hi temp := by
  intro i j hi' hij hj
  by_cases hjp : j ≤ p
  · exact hl i j hi' hij hjp
  · by_cases hip : i ≤ p
    · exact (hbelow i hi' hip).trans (habove j (by omega) hj)
    · exact hr i j (by omega) hij hj

/-- The last cell holds a largest key of `lo .. hi`. -/
def MaxLast (lo hi : Nat) (temp : Nat → NodeEntry) : Prop :=
  ∀ i, lo ≤ i → i ≤ hi → (temp i).oneKey ≤ (temp hi).oneKey

theorem partition_lt {lo hi : Nat} {temp : Nat → NodeEntry} {temp2 : Nat → AdaptiveSlot}
    (hlt : lo < hi) (hmax : MaxLast lo hi temp) {p : Nat} {t : Nat → NodeEntry}
    {t2 : Nat → AdaptiveSlot}
    (hloop : partitionLoop (temp lo).oneKey (hi - lo) lo hi temp temp2 = (p, t, t2)) : p < hi := by
  obtain ⟨m, hm⟩ : ∃ m, hi - lo = m + 1 := ⟨hi - lo - 1, by omega⟩
  obtain ⟨h', rfl⟩ : ∃ h', hi = h' + 1 := ⟨hi - 1, by omega⟩
  have hinit : PartInv (temp lo).oneKey lo (h' + 1) lo (h' + 1) temp :=
    ⟨Nat.le_refl _, hlt.le, Nat.le_refl _, rfl, fun i _ _ => by omega, fun i _ _ => by omega⟩
  obtain ⟨hround, hcloser, ⟨-, -⟩, -⟩ := hinit.round hlt
  rw [hm, partitionLoop, if_pos hlt] at hloop
  obtain ⟨p', σ, hloop', -, -, -, hp⟩ := partitionLoop_spec _ lo (h' + 1) m _ _ _
    ((temp2 ∘ Equiv.swap _ _) ∘ Equiv.swap _ _) hround (by omega)
  have hpeq : p = p' := by
    have := hloop'.symm.trans hloop
    exact (congrArg Prod.fst this).symm
  -- the first scan passes the last cell, which is not below the pivot
  have hpass : scanDown temp (temp lo).oneKey lo (h' + 1) = scanDown temp (temp lo).oneKey lo h' := by
    rw [scanDown, if_pos ⟨hmax lo (Nat.le_refl _) hlt.le, hlt⟩]
  have := (scanDown_spec temp (temp lo).oneKey lo h' (by omega)).1.2
  omega

/-- `qsort n lo hi` returns, and has sorted the cells `lo .. hi`. -/
def Sorts (n lo hi : Nat) (temp : Nat → NodeEntry) (temp2 : Nat → AdaptiveSlot) : Prop :=
  ∃ σ : Equiv.Perm Nat, qsort n lo hi temp temp2 = some (temp ∘ σ, temp2 ∘ σ) ∧
    PermOn lo hi σ ∧ SortedOn lo hi (temp ∘ σ)

theorem sorts_short {n lo hi : Nat} {temp : Nat → NodeEntry} {temp2 : Nat → AdaptiveSlot}
    (hn : 0 < n) (h : hi ≤ lo) : Sorts n lo hi temp temp2 := by
  obtain ⟨n, rfl⟩ : ∃ k, n = k + 1 := ⟨n - 1, by omega⟩
  refine ⟨Equiv.refl Nat, by rw [qsort, if_pos h]; rfl, PermOn.refl _ _, ?_⟩
  intro i j hi' hij hj
  have : i = j := by omega
  rw [this]

/-- One call: the partition, then both recursive calls. -/
theorem sorts_step {n lo hi p : Nat} {σ : Equiv.Perm Nat} {temp : Nat → NodeEntry}
    {temp2 : Nat → AdaptiveSlot} (hlt : lo < hi)
    (hloop : partitionLoop (temp lo).oneKey (hi - lo) lo hi temp temp2 = (p, temp ∘ σ, temp2 ∘ σ))
    (hσ : PermOn lo hi σ) (hinv : PartInv (temp lo).oneKey lo hi p p (temp ∘ σ))
    (hl : Sorts n lo p (temp ∘ σ) (temp2 ∘ σ))
    (hr : ∀ τ : Equiv.Perm Nat, PermOn lo p τ →
      Sorts n (p + 1) hi ((temp ∘ σ) ∘ τ) ((temp2 ∘ σ) ∘ τ)) : Sorts (n + 1) lo hi temp temp2 := by
  obtain ⟨σl, hql, hσl, hsl⟩ := hl
  obtain ⟨σr, hqr, hσr, hsr⟩ := hr σl hσl
  have hlop := hinv.lo_le
  have hphi := hinv.e_le
  refine ⟨σ * (σl * σr), ?_, ?_, ?_⟩
  · rw [qsort, if_neg (by omega)]
    simp only [hloop, hql, Option.bind_some, hqr]
    rfl
  · exact hσ.mul ((hσl.mono (Nat.le_refl _) hphi).mul (hσr.mono (by omega) (Nat.le_refl _)))
  · -- `σr` leaves the left half alone, `σl` the right half
    have hbelow : ∀ i, lo ≤ i → i ≤ p → ((temp ∘ σ) i).oneKey ≤ (temp lo).oneKey := by
      intro i hi' hip
      rcases Nat.lt_or_eq_of_le hip with hip | rfl
      · exact hinv.below i hi' hip
      · exact hinv.pivot.le
    have hleft : ∀ i, i ≤ p → (temp ∘ (σ * (σl * σr))) i = ((temp ∘ σ) ∘ σl) i := by
      intro i hip
      simp only [Equiv.Perm.coe_mul, Function.comp_apply, hσr i (by omega)]
    have hright : ∀ i, (temp ∘ (σ * (σl * σr))) i = (((temp ∘ σ) ∘ σl) ∘ σr) i := fun i => rfl
    refine sortedOn_of_halves (temp lo).oneKey p ?_ ?_ ?_ ?_
    · intro i j hi' hij hj
      rw [hleft i (by omega), hleft j hj]
      exact hsl i j hi' hij hj
    · exact hsr
    · intro i hi' hip
      rw [hleft i hip]
      exact hσl.forall_comp (P := fun e : NodeEntry => e.oneKey ≤ (temp lo).oneKey) hbelow i hi' hip
    · intro i hi' hip
      rw [hright i]
      refine hσr.forall_comp (P := fun e : NodeEntry => (temp lo).oneKey ≤ e.oneKey) ?_ i hi' hip
      intro i hi' hip
      simp only [Function.comp_apply, hσl i (by omega)]
      exact hinv.above i (by omega) hip

theorem sorts_of_maxLast {m : Nat}
    (ih : ∀ n lo hi temp temp2, hi - lo ≤ m → 2 * m + 1 ≤ n → Sorts n lo hi temp temp2)
    {n lo hi : Nat} {temp : Nat → NodeEntry} {temp2 : Nat → AdaptiveSlot}
    (hm : hi - lo ≤ m + 1) (hn : 2 * m + 2 ≤ n) (hmax : MaxLast lo hi temp) :
    Sorts n lo hi temp temp2 := by
  by_cases hlt : lo < hi
  · obtain ⟨n, rfl⟩ : ∃ k, n = k + 1 := ⟨n - 1, by omega⟩
    obtain ⟨p, σ, hloop, hσ, hinv⟩ := partition_spec lo hi temp temp2 hlt
    have hp := partition_lt hlt hmax hloop
    have hlop := hinv.lo_le
    exact sorts_step hlt hloop hσ hinv (ih n lo p _ _ (by omega) (by omega))
      fun τ _ => ih n (p + 1) hi _ _ (by omega) (by omega)
  · exact sorts_short (by omega) (by omega)

/-- `qsort(start, end, temp, temp2)` sorts, at a depth of at most `2 * (end - start) + 1`. -/
theorem qsort_spec (m : Nat) : ∀ n lo hi temp temp2, hi - lo ≤ m → 2 * m + 1 ≤ n →
    Sorts n lo hi temp temp2 := by
  induction m with
  | zero =>
    intro n lo hi temp temp2 hm hn
    exact sorts_short (by omega) (by omega)
  | succ m ih =>
    intro n lo hi temp temp2 hm hn
    by_cases hlt : lo < hi
    · obtain ⟨n, rfl⟩ : ∃ k, n = k + 1 := ⟨n - 1, by omega⟩
      obtain ⟨p, σ, hloop, hσ, hinv⟩ := partition_spec lo hi temp temp2 hlt
      have hlop := hinv.lo_le
      have hphi := hinv.e_le
      by_cases hp : p < hi
      · exact sorts_step hlt hloop hσ hinv (ih n lo p _ _ (by omega) (by omega))
          fun τ _ => ih n (p + 1) hi _ _ (by omega) (by omega)
      · -- the pivot is a largest key: the same range again, now with it last
        obtain rfl : p = hi := by omega
        refine sorts_step hlt hloop hσ hinv ?_ fun τ _ => sorts_short (by omega) (by omega)
        refine sorts_of_maxLast ih hm (by omega) ?_
        intro i hi' hip
        rw [hinv.pivot]
        rcases Nat.lt_or_eq_of_le hip with hip | rfl
        · exact hinv.below i hi' hip
        · exact hinv.pivot.le
    · exact sorts_short (by omega) (by omega)

/-! ### The cells it touches

The same code over arrays of `len` cells, with every read and every swap of a cell
checked: `none` when one of them is at an index from `len` on. -/

/-- `temp[i].one_key` -/
def cellKey (len : Nat) (temp : Nat → NodeEntry) (i : Nat) : Option Key :=
  if i < len then some (temp i).oneKey else none

/-- `std::swap(temp[i], temp[j]);` -/
def swapCells {α : Type} (len : Nat) (f : Nat → α) (i j : Nat) : Option (Nat → α) :=
  if i < len ∧ j < len then some (f ∘ Equiv.swap i j) else none

/-- `scanDown` with its reads checked; the key at `end` is read before `start < end`
is tested. -/
def scanDownIn (len : Nat) (temp : Nat → NodeEntry) (sentinal : Key) (start : Nat) :
    Nat → Option Nat
  | 0 => do
    let _ ← cellKey len temp 0
    return 0
  | e + 1 => do
    let key ← cellKey len temp (e + 1)
    if sentinal ≤ key ∧ start < e + 1 then scanDownIn len temp sentinal start e
    else return e + 1

/-- `scanUp` with its reads checked. -/
def scanUpIn (len : Nat) (temp : Nat → NodeEntry) (sentinal : Key) (last : Nat) :
    Nat → Nat → Option Nat
  | 0, start => do
    let _ ← cellKey len temp start
    return start
  | n + 1, start => do
    let key ← cellKey len temp start
    if key ≤ sentinal ∧ start < last then scanUpIn len temp sentinal last n (start + 1)
    else return start

/-- `partitionLoop` with its reads and swaps checked. -/
def partitionLoopIn (len : Nat) (sentinal : Key) :
    Nat → Nat → Nat → (Nat → NodeEntry) → (Nat → AdaptiveSlot) →
      Option (Nat × (Nat → NodeEntry) × (Nat → AdaptiveSlot))
  | 0, start, _, temp, temp2 => some (start, temp, temp2)
  | n + 1, start, last, temp, temp2 =>
    if start < last then do
      let last' ← scanDownIn len temp sentinal start last
      let temp' ← swapCells len temp last' start
      let temp2' ← swapCells len temp2 last' start
      let start' ← scanUpIn len temp' sentinal last' (last' - start) start
      let temp'' ← swapCells len temp' last' start'
      let temp2'' ← swapCells len temp2' last' start'
      partitionLoopIn len sentinal n start' last' temp'' temp2''
    else some (start, temp, temp2)

/-- `qsort` over arrays of `len` cells. -/
def qsortIn (len : Nat) : Nat → Nat → Nat → (Nat → NodeEntry) → (Nat → AdaptiveSlot) →
    Option ((Nat → NodeEntry) × (Nat → AdaptiveSlot))
  | 0, _, _, _, _ => none
  | n + 1, start, last, temp, temp2 =>
    if last ≤ start then some (temp, temp2)
    else do
      let sentinal ← cellKey len temp start
      let r ← partitionLoopIn len sentinal (last - start) start last temp temp2
      let l ← qsortIn len n start r.1 r.2.1 r.2.2
      qsortIn len n (r.1 + 1) last l.1 l.2

theorem cellKey_eq {len i : Nat} (h : i < len) (temp : Nat → NodeEntry) :
    cellKey len temp i = some (temp i).oneKey := if_pos h

theorem swapCells_eq {α : Type} {len i j : Nat} (hi : i < len) (hj : j < len) (f : Nat → α) :
    swapCells len f i j = some (f ∘ Equiv.swap i j) := if_pos ⟨hi, hj⟩

theorem scanDownIn_eq {len last : Nat} (h : last < len) (temp : Nat → NodeEntry) (sentinal : Key)
    (start : Nat) :
    scanDownIn len temp sentinal start last = some (scanDown temp sentinal start last) := by
  induction last with
  | zero =>
    simp only [scanDownIn, scanDown, cellKey_eq h]
    rfl
  | succ e ih =>
    simp only [scanDownIn, scanDown, cellKey_eq h, Option.bind_eq_bind, Option.bind_some]
    split
    · exact ih (Nat.lt_of_succ_lt h)
    · rfl

theorem scanUpIn_eq {len last n start : Nat} (hn : start + n ≤ last) (h : last < len)
    (temp : Nat → NodeEntry) (sentinal : Key) :
    scanUpIn len temp sentinal last n start = some (scanUp temp sentinal last n start) := by
  induction n generalizing start with
  | zero =>
    have hstart : start < len := hn.trans_lt h
    simp only [scanUpIn, scanUp, cellKey_eq hstart]
    rfl
  | succ n ih =>
    have hstart : start < len := by
      apply Nat.lt_of_le_of_lt _ h
      exact (Nat.le_add_right start (n + 1)).trans hn
    simp only [scanUpIn, scanUp, cellKey_eq hstart, Option.bind_eq_bind, Option.bind_some]
    split
    · exact ih (by omega)
    · rfl

/-- A partition below `len` touches only cells below `len`. -/
theorem partitionLoopIn_eq {len : Nat} {sentinal : Key} {lo hi n s e : Nat}
    (h : e < len) {temp : Nat → NodeEntry} (hinv : PartInv sentinal lo hi s e temp)
    (temp2 : Nat → AdaptiveSlot) :
    partitionLoopIn len sentinal n s e temp temp2 =
      some (partitionLoop sentinal n s e temp temp2) := by
  induction n generalizing s e temp temp2 with
  | zero => rfl
  | succ n ih =>
    rw [partitionLoopIn, partitionLoop]
    by_cases hlt : s < e
    · obtain ⟨hround, -, ⟨hse', he'e⟩, ⟨-, hup⟩⟩ := hinv.round hlt
      have he' : scanDown temp sentinal s e < len := he'e.trans_lt h
      have hs : s < len := hlt.trans h
      rw [if_pos hlt, if_pos hlt, scanDownIn_eq h]
      simp only [Option.bind_eq_bind, Option.bind_some]
      rw [swapCells_eq he' hs, swapCells_eq he' hs]
      simp only [Option.bind_some]
      rw [scanUpIn_eq (Nat.add_sub_cancel' hse').le he']
      simp only [Option.bind_some]
      have hs' := hup.trans_lt he'
      rw [swapCells_eq he' hs', swapCells_eq he' hs']
      simp only [Option.bind_some]
      exact ih he' hround _
    · rw [if_neg hlt, if_neg hlt]

/-- Sorting a range below `len` touches only cells below `len`. -/
theorem qsortIn_eq {len : Nat} (n : Nat) : ∀ {start last : Nat}, last < len →
    ∀ (temp : Nat → NodeEntry) (temp2 : Nat → AdaptiveSlot),
      qsortIn len n start last temp temp2 = qsort n start last temp temp2 := by
  induction n with
  | zero =>
    intro start last _ temp temp2
    rfl
  | succ n ih =>
    intro start last h temp temp2
    rw [qsortIn, qsort]
    by_cases hle : last ≤ start
    · rw [if_pos hle, if_pos hle]
    · have hlt : start < last := not_le.mp hle
      obtain ⟨p, σ, hloop, -, hinv⟩ := partition_spec start last temp temp2 hlt
      have hinit : PartInv (temp start).oneKey start last start last temp :=
        ⟨Nat.le_refl _, hlt.le, Nat.le_refl _, rfl, fun i _ _ => by omega, fun i _ _ => by omega⟩
      rw [if_neg hle, if_neg hle, cellKey_eq (hlt.trans h)]
      simp only [Option.bind_eq_bind, Option.bind_some]
      rw [partitionLoopIn_eq h hinit, hloop]
      simp only [Option.bind_some]
      rw [ih (hinv.e_le.trans_lt h)]
      congr 1
      funext l
      exact ih h l.1 l.2

/-- The call `qsort(0, len - 1, temp, temp2)` on two arrays of `len` cells: it returns
at a depth of at most `2 * len + 1`, touches no cell outside the arrays, moves both by
the same permutation of their cells and leaves the keys in order. In the empty array
`len - 1` is `-1` in the source and `0` here; either call returns at once. -/
theorem qsort_correct (len depth : Nat) (hdepth : 2 * len + 1 ≤ depth) (temp : Nat → NodeEntry)
    (temp2 : Nat → AdaptiveSlot) :
    ∃ σ : Equiv.Perm Nat, (∀ i, len ≤ i → σ i = i) ∧
      qsortIn len depth 0 (len - 1) temp temp2 = some (temp ∘ σ, temp2 ∘ σ) ∧
      ∀ i j, i ≤ j → j < len → (temp (σ i)).oneKey ≤ (temp (σ j)).oneKey := by
  cases len with
  | zero =>
    obtain ⟨n, rfl⟩ : ∃ n, depth = n + 1 := ⟨depth - 1, by omega⟩
    refine ⟨Equiv.refl Nat, fun i _ => rfl, ?_, fun i j _ hj => absurd hj (Nat.not_lt_zero j)⟩
    rw [qsortIn, if_pos (Nat.zero_le _)]
    rfl
  | succ m =>
    obtain ⟨σ, hsort, hσ, hsorted⟩ := qsort_spec m depth 0 m temp temp2 (Nat.sub_le _ _) (by omega)
    refine ⟨σ, ?_, ?_, ?_⟩
    · intro i hi
      exact hσ i (Or.inr hi)
    · rw [Nat.add_sub_cancel, qsortIn_eq depth (Nat.lt_succ_self m), hsort]
    · intro i j hij hj
      exact hsorted i j (Nat.zero_le i) hij (Nat.le_of_lt_succ hj)

def threeCells (i : Nat) : NodeEntry :=
  if i = 0 then ⟨9, 0⟩ else ⟨4, i⟩

def threeSlots (i : Nat) : AdaptiveSlot := .ofVal (BitVec.ofNat 64 i)

theorem qsort_correct_three :
    ∃ σ : Equiv.Perm Nat, (∀ i, 3 ≤ i → σ i = i) ∧
      qsortIn 3 7 0 (3 - 1) threeCells threeSlots =
        some (threeCells ∘ σ, threeSlots ∘ σ) ∧
      ∀ i j, i ≤ j → j < 3 → (threeCells (σ i)).oneKey ≤ (threeCells (σ j)).oneKey :=
  qsort_correct 3 7 (by decide) threeCells threeSlots

end ZBTree
