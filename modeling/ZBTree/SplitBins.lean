import Mathlib.Algebra.Module.Defs
import Mathlib.Algebra.Order.BigOperators.Group.Finset

/-!
# Bins that are split when they are full

Things are put into bins, one at a time, and a full bin may be split into two that are half full.
Whatever the order of these steps, a bin is at least half full once there are two of them, so there
are few bins for what they hold.
-/

namespace ZBTree

/-- The bins are those of `A`; `size` says how much each of them holds, and `items` how much all of
them do. -/
structure Bins {α : Type} (half : Nat) (size : α → Option Nat) (A : Finset α) (items : Nat) : Prop where
  support : ∀ a, (size a).isSome ↔ a ∈ A
  total : ∑ a ∈ A, (size a).getD 0 = items
  filled : 2 ≤ A.card → ∀ a n, size a = some n → half ≤ n

namespace Bins

variable {α : Type} [DecidableEq α] {half items : Nat} {size : α → Option Nat} {A : Finset α} {a b : α} {n : Nat}

omit [DecidableEq α] in
theorem mem (h : Bins half size A items) (ha : size a = some n) : a ∈ A :=
  (h.support a).mp (by rw [ha]; rfl)

theorem single (half : Nat) (a : α) : Bins half (Function.update (fun _ => none) a (some 0)) {a} 0 where
  support b := by
    by_cases hb : b = a
    · subst hb
      simp
    · simp [hb]
  total := by simp
  filled hcard := absurd hcard (by simp)

theorem sum_off {f g : α → Nat} (hb : b ∈ A) (hoff : ∀ c, c ≠ b → f c = g c) :
    ∑ c ∈ A, f c + g b = ∑ c ∈ A, g c + f b := by
  rw [← Finset.add_sum_erase A f hb, ← Finset.add_sum_erase A g hb]
  have hrest : ∑ c ∈ A.erase b, f c = ∑ c ∈ A.erase b, g c :=
    Finset.sum_congr rfl fun c hc => hoff c (Finset.ne_of_mem_erase hc)
  rw [hrest]
  omega

theorem sum_update (size : α → Option Nat) (hb : b ∈ A) (n : Nat) :
    ∑ c ∈ A, (Function.update size b (some n) c).getD 0 + (size b).getD 0 = ∑ c ∈ A, (size c).getD 0 + n := by
  have hsum := sum_off (f := fun c => (Function.update size b (some n) c).getD 0) (g := fun c => (size c).getD 0) hb
    fun c hc => by rw [Function.update_of_ne hc]
  rwa [Function.update_self, Option.getD_some] at hsum

theorem put (h : Bins half size A items) (ha : size a = some n) :
    Bins half (Function.update size a (some (n + 1))) A (items + 1) where
  support b := by
    by_cases hb : b = a
    · subst hb
      simp [h.mem ha]
    · rw [Function.update_of_ne hb]
      exact h.support b
  total := by
    have hsum := sum_update size (h.mem ha) (n + 1)
    rw [h.total, ha, Option.getD_some] at hsum
    omega
  filled hcard b k hk := by
    by_cases hb : b = a
    · subst hb
      rw [Function.update_self, Option.some.injEq] at hk
      exact hk ▸ (h.filled hcard b n ha).trans (Nat.le_succ n)
    · rw [Function.update_of_ne hb] at hk
      exact h.filled hcard b k hk

/-- A full bin makes two. -/
theorem split (h : Bins half size A items) (ha : size a = some (half + half)) (hb : size b = none) :
    Bins half (Function.update (Function.update size b (some half)) a (some half)) (Insert.insert b A) items := by
  have hnew : b ∉ A := fun hmem => by
    have hsome := (h.support b).mpr hmem
    rw [hb] at hsome
    exact absurd hsome (by simp)
  have hne : a ≠ b := fun heq => hnew (heq ▸ h.mem ha)
  constructor
  · intro c
    by_cases hca : c = a
    · subst hca
      simp [h.mem ha]
    · rw [Function.update_of_ne hca]
      by_cases hcb : c = b
      · subst hcb
        simp
      · rw [Function.update_of_ne hcb, h.support c, Finset.mem_insert, or_iff_right hcb]
  · have hmem : a ∈ Insert.insert b A := Finset.mem_insert_of_mem (h.mem ha)
    have hsum := sum_update (Function.update size b (some half)) hmem half
    have hrest : ∑ c ∈ A, (Function.update size b (some half) c).getD 0 = items := by
      rw [← h.total]
      refine Finset.sum_congr rfl fun c hc => ?_
      have hcb : c ≠ b := fun heq => hnew (heq ▸ hc)
      rw [Function.update_of_ne hcb]
    rw [Finset.sum_insert (f := fun c => (Function.update size b (some half) c).getD 0) hnew, hrest,
      Function.update_self, Option.getD_some, Function.update_of_ne hne, ha, Option.getD_some] at hsum
    omega
  · intro hcard c k hk
    by_cases hca : c = a
    · subst hca
      rw [Function.update_self, Option.some.injEq] at hk
      exact Nat.le_of_eq hk
    · rw [Function.update_of_ne hca] at hk
      by_cases hcb : c = b
      · subst hcb
        rw [Function.update_self, Option.some.injEq] at hk
        exact Nat.le_of_eq hk
      · rw [Function.update_of_ne hcb] at hk
        -- a third bin means that there were two before
        refine h.filled ?_ c k hk
        exact Finset.one_lt_card.mpr ⟨a, h.mem ha, c, h.mem hk, fun heq => hca heq.symm⟩

omit [DecidableEq α] in
theorem card_le (h : Bins half size A items) (hcard : 2 ≤ A.card) : A.card * half ≤ items := by
  rw [← h.total, ← smul_eq_mul]
  apply Finset.card_nsmul_le_sum
  intro a ha
  obtain ⟨n, hn⟩ := Option.isSome_iff_exists.mp ((h.support a).mpr ha)
  rw [hn]
  exact h.filled hcard a n hn

omit [DecidableEq α] in
theorem splits_le (h : Bins half size A items) (hhalf : 0 < half) : A.card - 1 ≤ items / half := by
  by_cases hcard : 2 ≤ A.card
  · exact (Nat.sub_le _ _).trans ((Nat.le_div_iff_mul_le hhalf).mpr (h.card_le hcard))
  · have hone : A.card ≤ 1 := Nat.le_of_lt_succ (Nat.lt_of_not_le hcard)
    rw [Nat.sub_eq_zero_of_le hone]
    exact Nat.zero_le _

end Bins

end ZBTree
