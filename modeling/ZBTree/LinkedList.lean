import Mathlib.Data.List.Basic
import Mathlib.Logic.Function.Iterate

/-!
# Singly linked lists

`Seg next x l e`: following `next` from `x` one meets the nodes of `l` in order and
then stands at `e`.
-/

namespace ZBTree.LinkedList

variable {α : Type*} {next next' : α → α} {x e : α} {l l' : List α}

def Seg (next : α → α) : α → List α → α → Prop
  | x, [], e => x = e
  | x, a :: l, e => x = a ∧ Seg next (next a) l e

theorem seg_append : Seg next x (l ++ l') e ↔ ∃ y, Seg next x l y ∧ Seg next y l' e := by
  induction l generalizing x with
  | nil => simp [Seg]
  | cons a l ih => simp only [List.cons_append, Seg, ih, and_assoc, exists_and_left]

theorem Seg.congr (h : Seg next x l e) (hsame : ∀ a ∈ l, next' a = next a) : Seg next' x l e := by
  induction l generalizing x with
  | nil => exact h
  | cons a l ih =>
    refine ⟨h.1, ?_⟩
    rw [hsame a List.mem_cons_self]
    exact ih h.2 fun b hb => hsame b (List.mem_cons_of_mem a hb)

theorem Seg.insert {X Y : List α} {L R : α} (h : Seg next x (X ++ L :: Y) e) (hL : next' L = R)
    (hR : next' R = next L) (hX : ∀ a ∈ X, next' a = next a) (hY : ∀ a ∈ Y, next' a = next a) :
    Seg next' x (X ++ L :: R :: Y) e := by
  obtain ⟨y, hpre, rfl, hpost⟩ := seg_append.mp h
  refine seg_append.mpr ⟨y, hpre.congr hX, rfl, hL, ?_⟩
  rw [hR]
  exact hpost.congr hY

theorem Seg.iterate (h : Seg next x l e) (i : Nat) (hi : i < l.length) : next^[i] x = l[i] := by
  induction l generalizing x i with
  | nil => exact absurd hi (Nat.not_lt_zero i)
  | cons a l ih =>
    obtain ⟨rfl, hrest⟩ := h
    cases i with
    | zero => rfl
    | succ i =>
      rw [Function.iterate_succ_apply, List.getElem_cons_succ]
      exact ih hrest i (Nat.lt_of_succ_lt_succ hi)

end ZBTree.LinkedList
