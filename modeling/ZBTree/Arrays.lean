import Mathlib.Logic.Equiv.Basic
import Mathlib.Algebra.Group.End
import Mathlib.Order.Basic
import Mathlib.Data.List.Nodup
import Mathlib.Data.List.Range

/-!
# Arrays as functions of their index

A C array is a function of its index. This file has what loops over such arrays
need: an induction rule for a counted loop, the loop that moves a run of cells up
by one place, and permutations that only move the cells of one segment.
-/

namespace ZBTree.Arrays

/-! ### Counted loops -/

theorem foldl_range_induction {σ : Type*} (P : Nat → σ → Prop) (step : σ → Nat → σ)
    {n : Nat} {init : σ} (hinit : P 0 init)
    (hstep : ∀ i s, i < n → P i s → P (i + 1) (step s i)) :
    P n ((List.range n).foldl step init) := by
  induction n with
  | zero => exact hinit
  | succ n ih =>
    rw [List.range_succ, List.foldl_append, List.foldl_cons, List.foldl_nil]
    exact hstep n _ (Nat.lt_succ_self n)
      (ih fun i s hi => hstep i s (Nat.lt_succ_of_lt hi))

theorem foldl_range_rel {σ : Type*} (R : Nat → σ → σ → Prop) (step step' : σ → Nat → σ) {n : Nat}
    {init init' : σ} (hinit : R 0 init init')
    (hstep : ∀ i s s', i < n → R i s s' → R (i + 1) (step s i) (step' s' i)) :
    R n ((List.range n).foldl step init) ((List.range n).foldl step' init') := by
  induction n with
  | zero => exact hinit
  | succ n ih =>
    rw [List.range_succ, List.foldl_append, List.foldl_append]
    exact hstep n _ _ (Nat.lt_succ_self n) (ih fun i s s' hi => hstep i s s' (Nat.lt_succ_of_lt hi))

/-- A search that passes over the cells before `j` goes on at `j`; its first argument
counts the cells that are left. -/
theorem search_reaches {β : Type*} (search : Nat → Nat → β) {j : Nat}
    (hskip : ∀ n i, i < j → search (n + 1) i = search n (i + 1)) (n : Nat) :
    search (j + n) 0 = search n j := by
  induction j generalizing n with
  | zero => rw [Nat.zero_add]
  | succ j ih =>
    have hprev := ih (fun n i hi => hskip n i (Nat.lt_succ_of_lt hi)) (n + 1)
    rw [show j + 1 + n = j + (n + 1) by omega, hprev]
    exact hskip n j (Nat.lt_succ_self j)

/-! ### Moving a run of cells up -/

variable {α : Type*}

/-- `for (i = n - 1; i >= lo; i--) a[i + 1] = a[i];` -/
def shiftUp (lo : Nat) : Nat → (Nat → α) → (Nat → α)
  | 0, a => a
  | n + 1, a => if n < lo then a else shiftUp lo n (Function.update a (n + 1) (a n))

theorem shiftUp_apply (lo n : Nat) (a : Nat → α) (j : Nat) :
    shiftUp lo n a j = if lo < j ∧ j ≤ n then a (j - 1) else a j := by
  induction n generalizing a with
  | zero =>
    have hout : ¬ (lo < j ∧ j ≤ 0) := by omega
    rw [shiftUp, if_neg hout]
  | succ n ih =>
    rw [shiftUp]
    by_cases hlo : n < lo
    · have hout : ¬ (lo < j ∧ j ≤ n + 1) := by omega
      rw [if_pos hlo, if_neg hout]
    · rw [if_neg hlo, ih]
      simp only [Function.update_apply]
      by_cases hj : j = n + 1
      · subst hj
        simp only [Nat.not_lt] at hlo
        simp [Nat.lt_succ_of_le hlo]
      · have hpred : ¬ (j - 1 = n + 1) ∨ ¬ j ≤ n := by omega
        split_ifs <;> first | rfl | omega

/-! ### Moving a run of cells down -/

/-- `for (i = lo; i < lo + n; i++) a[i - 1] = a[i];` -/
def shiftDown : Nat → Nat → (Nat → α) → (Nat → α)
  | _, 0, a => a
  | lo, n + 1, a => shiftDown (lo + 1) n (Function.update a (lo - 1) (a lo))

theorem shiftDown_apply {lo : Nat} (hlo : 0 < lo) (n : Nat) (a : Nat → α) (j : Nat) :
    shiftDown lo n a j = if lo ≤ j + 1 ∧ j + 1 < lo + n then a (j + 1) else a j := by
  induction n generalizing lo a with
  | zero =>
    have hout : ¬ (lo ≤ j + 1 ∧ j + 1 < lo + 0) := by omega
    rw [shiftDown, if_neg hout]
  | succ n ih =>
    rw [shiftDown, ih (Nat.succ_pos lo)]
    by_cases hj : j = lo - 1
    · subst hj
      have hpast : ¬ (lo + 1 ≤ lo - 1 + 1 ∧ lo - 1 + 1 < lo + 1 + n) := by omega
      have hfirst : lo ≤ lo - 1 + 1 ∧ lo - 1 + 1 < lo + (n + 1) := by omega
      rw [if_neg hpast, if_pos hfirst, Function.update_self, Nat.sub_add_cancel hlo]
    · by_cases hin : lo + 1 ≤ j + 1 ∧ j + 1 < lo + 1 + n
      · have hin' : lo ≤ j + 1 ∧ j + 1 < lo + (n + 1) := by omega
        rw [if_pos hin, if_pos hin', Function.update_of_ne (by omega)]
      · have hout : ¬ (lo ≤ j + 1 ∧ j + 1 < lo + (n + 1)) := by omega
        rw [if_neg hin, if_neg hout, Function.update_of_ne hj]

/-! ### Permutations of one segment

`qsort` only swaps cells of the segment that it sorts. So its result is the array read through a permutation
that moves nothing else, and the same permutation serves for both of its arrays. -/

/-- `σ` moves nothing outside the cells `a .. b`. -/
def PermOn (a b : Nat) (σ : Equiv.Perm Nat) : Prop :=
  ∀ i, i < a ∨ b < i → σ i = i

theorem PermOn.refl (a b : Nat) : PermOn a b (Equiv.refl Nat) := fun _ _ => rfl

theorem PermOn.mul {a b : Nat} {σ τ : Equiv.Perm Nat} (hσ : PermOn a b σ)
    (hτ : PermOn a b τ) : PermOn a b (σ * τ) := by
  intro i hi
  rw [Equiv.Perm.mul_apply, hτ i hi, hσ i hi]

theorem PermOn.mono {a b a' b' : Nat} {σ : Equiv.Perm Nat} (hσ : PermOn a b σ)
    (ha : a' ≤ a) (hb : b ≤ b') : PermOn a' b' σ :=
  fun i hi => hσ i (by omega)

theorem PermOn.swap {a b i j : Nat} (hi : a ≤ i ∧ i ≤ b) (hj : a ≤ j ∧ j ≤ b) :
    PermOn a b (Equiv.swap i j) := by
  intro k hk
  exact Equiv.swap_apply_of_ne_of_ne (by omega) (by omega)

theorem PermOn.mem {a b : Nat} {σ : Equiv.Perm Nat} (hσ : PermOn a b σ) {i : Nat}
    (hi : a ≤ i ∧ i ≤ b) : a ≤ σ i ∧ σ i ≤ b := by
  by_contra hout
  have hfix : σ (σ i) = σ i := hσ (σ i) (by omega)
  have hback : σ i = i := σ.injective hfix
  omega

theorem PermOn.exists_preimage {a b : Nat} {σ : Equiv.Perm Nat} (hσ : PermOn a b σ) {j : Nat}
    (hj : a ≤ j ∧ j ≤ b) : ∃ i, (a ≤ i ∧ i ≤ b) ∧ σ i = j := by
  refine ⟨σ.symm j, ?_, σ.apply_symm_apply j⟩
  by_contra hout
  have hfix : σ (σ.symm j) = σ.symm j := hσ _ (by omega)
  rw [σ.apply_symm_apply] at hfix
  omega

theorem PermOn.forall_comp {a b : Nat} {σ : Equiv.Perm Nat} (hσ : PermOn a b σ)
    {P : α → Prop} {f : Nat → α} (hf : ∀ i, a ≤ i → i ≤ b → P (f i)) :
    ∀ i, a ≤ i → i ≤ b → P ((f ∘ σ) i) := fun i ha hb =>
  hf (σ i) (hσ.mem ⟨ha, hb⟩).1 (hσ.mem ⟨ha, hb⟩).2

/-! ### Counting cells -/

theorem PermOn.map_range {b : Nat} {σ : Equiv.Perm Nat} (hσ : PermOn 0 b σ) :
    ((List.range (b + 1)).map σ).Perm (List.range (b + 1)) := by
  refine (List.perm_ext_iff_of_nodup (List.Nodup.map σ.injective List.nodup_range) List.nodup_range).mpr ?_
  intro j
  simp only [List.mem_map, List.mem_range]
  constructor
  · rintro ⟨i, hi, rfl⟩
    exact Nat.lt_succ_of_le (hσ.mem ⟨Nat.zero_le i, Nat.le_of_lt_succ hi⟩).2
  · intro hj
    obtain ⟨i, ⟨-, hi⟩, rfl⟩ := hσ.exists_preimage ⟨Nat.zero_le j, Nat.le_of_lt_succ hj⟩
    exact ⟨i, Nat.lt_succ_of_le hi, rfl⟩

theorem PermOn.countP_comp {b : Nat} {σ : Equiv.Perm Nat} (hσ : PermOn 0 b σ) (p : Nat → Bool) :
    (List.range (b + 1)).countP (p ∘ σ) = (List.range (b + 1)).countP p :=
  List.countP_map.symm.trans (hσ.map_range.countP_eq p)

/-- In sorted cells the number of those up to `c` says where `c` lies. -/
theorem cut_of_countP {κ : Type*} [LinearOrder κ] {f : Nat → κ} {n j : Nat} {c : κ}
    (hmono : ∀ i i', i ≤ i' → i' < n → f i ≤ f i') (hj : j + 1 < n)
    (hcount : (List.range n).countP (fun i => decide (f i ≤ c)) = j + 1) :
    f j ≤ c ∧ c < f (j + 1) := by
  have hsplit : ∀ m, m ≤ n → (List.range n).countP (fun i => decide (f i ≤ c)) =
      (List.range m).countP (fun i => decide (f i ≤ c)) +
        (List.range' m (n - m)).countP (fun i => decide (f i ≤ c)) := by
    intro m hm
    have hrange := List.range'_append_1 (s := 0) (m := m) (n := n - m)
    rw [Nat.zero_add, Nat.add_sub_cancel' hm] at hrange
    rw [List.range_eq_range', ← hrange, List.countP_append, ← List.range_eq_range']
  constructor
  · by_contra hlt
    rw [not_le] at hlt
    -- from `j` on all cells lie above `c`
    have hrest : (List.range' j (n - j)).countP (fun i => decide (f i ≤ c)) = 0 := by
      rw [List.countP_eq_zero]
      intro i hi
      obtain ⟨hji, hin⟩ := List.mem_range'_1.mp hi
      have hle := hmono j i hji (by omega)
      simpa using hlt.trans_le hle
    have hfirst := List.countP_le_length (p := fun i => decide (f i ≤ c)) (l := List.range j)
    rw [hsplit j (by omega), hrest, Nat.add_zero] at hcount
    rw [hcount, List.length_range] at hfirst
    omega
  · by_contra hle
    rw [not_lt] at hle
    -- up to `j + 1` all cells count
    have hfirst : (List.range (j + 2)).countP (fun i => decide (f i ≤ c)) = j + 2 := by
      rw [List.countP_eq_length.mpr, List.length_range]
      intro i hi
      rw [List.mem_range] at hi
      have hle' := (hmono i (j + 1) (by omega) hj).trans hle
      simpa using hle'
    rw [hsplit (j + 2) hj, hfirst] at hcount
    omega

end ZBTree.Arrays
