import ZBTree.StructLayout
import Mathlib.Algebra.Order.Group.Nat
import Mathlib.Algebra.BigOperators.Group.List.Basic
import Mathlib.Data.List.Nodup

/-!
# Records laid end to end

An area of memory that starts out as zeros and is filled with records of any widths, one
behind the other, and the addresses at which they stand.
-/

namespace ZBTree

/-- The number of bytes that a record takes, and these bytes. -/
structure Codec (α : Type*) where
  width : α → Nat
  byte : α → Bytes

namespace Codec

variable {α : Type*} (C : Codec α)

def extent (l : List α) : Nat := (l.map C.width).sum

/-- The bytes of an area that holds these records. -/
def image : List α → Bytes
  | [], _ => 0
  | e :: rest, k => if k < C.width e then C.byte e k else image rest (k - C.width e)

def placed : Nat → List α → List (α × Nat)
  | _, [] => []
  | base, e :: rest => (e, base) :: placed (base + C.width e) rest

/-- The `limit` bytes from `base` on hold these records and zeros behind them. -/
def Stored (o : Bytes) (base limit : Nat) (l : List α) : Prop :=
  ∀ k, k < limit → o (base + k) = C.image l k

variable {C} {o o' : Bytes} {base limit k : Nat} {e : α} {l rest : List α}

@[simp] theorem extent_nil : C.extent [] = 0 := rfl

@[simp] theorem extent_cons : C.extent (e :: rest) = C.width e + C.extent rest :=
  List.sum_cons

@[simp] theorem extent_concat : C.extent (l ++ [e]) = C.extent l + C.width e := by
  rw [extent, List.map_append, List.sum_append]
  rfl

theorem image_head (hk : k < C.width e) : C.image (e :: rest) k = C.byte e k := if_pos hk

theorem image_tail (k : Nat) : C.image (e :: rest) (C.width e + k) = C.image rest k := by
  rw [image, if_neg (Nat.not_lt.mpr (Nat.le_add_right _ _)), Nat.add_sub_cancel_left]

theorem image_beyond (hk : C.extent l ≤ k) : C.image l k = 0 := by
  induction l generalizing k with
  | nil => rfl
  | cons e rest ih =>
    rw [extent_cons] at hk
    rw [image, if_neg (by omega)]
    apply ih
    omega

theorem image_concat (k : Nat) : C.image (l ++ [e]) k =
    if C.extent l ≤ k ∧ k < C.extent l + C.width e then C.byte e (k - C.extent l)
    else C.image l k := by
  induction l generalizing k with
  | nil => simp [image]
  | cons f rest ih =>
    rw [List.cons_append, image, image, ih, extent_cons]
    by_cases hk : k < C.width f
    · rw [if_pos hk, if_pos hk, if_neg (by omega)]
    · rw [if_neg hk, if_neg hk]
      by_cases hin : C.extent rest ≤ k - C.width f ∧ k - C.width f < C.extent rest + C.width e
      · rw [if_pos hin, if_pos (by omega), Nat.sub_sub]
      · rw [if_neg hin, if_neg (by omega)]

theorem placed_concat : C.placed base (l ++ [e]) = C.placed base l ++ [(e, base + C.extent l)] := by
  induction l generalizing base with
  | nil => rfl
  | cons f rest ih =>
    rw [List.cons_append, placed, placed, ih, extent_cons, Nat.add_assoc]
    rfl

theorem placed_fst (C : Codec α) (base : Nat) (l : List α) :
    (C.placed base l).map Prod.fst = l := by
  induction l generalizing base with
  | nil => rfl
  | cons e rest ih => rw [placed, List.map_cons, ih]

theorem placed_within {p : α × Nat} (hp : p ∈ C.placed base l) :
    base ≤ p.2 ∧ p.2 + C.width p.1 ≤ base + C.extent l := by
  induction l generalizing base with
  | nil => simp [placed] at hp
  | cons e rest ih =>
    rw [extent_cons]
    rcases List.mem_cons.mp hp with rfl | hp
    · exact ⟨Nat.le_refl _, by dsimp only; omega⟩
    · obtain ⟨hle, hlimit⟩ := ih hp
      exact ⟨by omega, by omega⟩

theorem placed_addresses (hpos : ∀ e ∈ l, 0 < C.width e) :
    ((C.placed base l).map Prod.snd).Nodup := by
  induction l generalizing base with
  | nil => exact List.nodup_nil
  | cons e rest ih =>
    rw [placed, List.map_cons, List.nodup_cons]
    refine ⟨fun hmem => ?_, ih fun f hf => hpos f (List.mem_cons_of_mem _ hf)⟩
    obtain ⟨p, hp, heq⟩ := List.mem_map.mp hmem
    have hle := (placed_within hp).1
    have hwidth := hpos e List.mem_cons_self
    dsimp only at heq
    omega

theorem Stored.head (h : C.Stored o base limit (e :: rest)) (hlimit : C.width e ≤ limit)
    (hk : k < C.width e) : o (base + k) = C.byte e k :=
  (h k (Nat.lt_of_lt_of_le hk hlimit)).trans (image_head hk)

theorem Stored.tail (h : C.Stored o base limit (e :: rest)) :
    C.Stored o (base + C.width e) (limit - C.width e) rest := by
  intro k hk
  rw [Nat.add_assoc, h _ (by omega), image_tail]

theorem Stored.beyond (h : C.Stored o base limit l) (hk : C.extent l ≤ k) (hlimit : k < limit) :
    o (base + k) = 0 :=
  (h k hlimit).trans (image_beyond hk)

theorem Stored.congr (h : C.Stored o base limit l)
    (hsame : ∀ k, k < limit → o' (base + k) = o (base + k)) : C.Stored o' base limit l :=
  fun k hk => (hsame k hk).trans (h k hk)

theorem Stored.concat (h : C.Stored o base limit l)
    (hnew : ∀ k, k < C.width e → o' (base + C.extent l + k) = C.byte e k)
    (hsame : ∀ k, k < C.extent l ∨ C.extent l + C.width e ≤ k → o' (base + k) = o (base + k)) :
    C.Stored o' base limit (l ++ [e]) := by
  intro k hk
  rw [image_concat]
  by_cases hin : C.extent l ≤ k ∧ k < C.extent l + C.width e
  · rw [if_pos hin, ← hnew (k - C.extent l) (by omega)]
    congr 1
    omega
  · rw [if_neg hin, hsame k (by omega), h k hk]

theorem placed_append (l l' : List α) :
    C.placed base (l ++ l') = C.placed base l ++ C.placed (base + C.extent l) l' := by
  induction l generalizing base with
  | nil => rfl
  | cons e rest ih =>
    rw [List.cons_append, placed, placed, ih, extent_cons, Nat.add_assoc]
    rfl

theorem placed_split {p : α × Nat} (hp : p ∈ C.placed base l) :
    ∃ l₁ l₂, l = l₁ ++ p.1 :: l₂ ∧ p.2 = base + C.extent l₁ := by
  induction l generalizing base with
  | nil => cases hp
  | cons e rest ih =>
    rcases List.mem_cons.mp hp with rfl | hp
    · exact ⟨[], rest, rfl, rfl⟩
    · obtain ⟨l₁, l₂, rfl, hat⟩ := ih hp
      exact ⟨e :: l₁, l₂, rfl, by rw [hat, extent_cons, Nat.add_assoc]⟩

theorem image_set {e' : α} (hwidth : C.width e' = C.width e) (l : List α) (k : Nat) :
    C.image (l ++ e' :: rest) k =
      if C.extent l ≤ k ∧ k < C.extent l + C.width e then C.byte e' (k - C.extent l)
      else C.image (l ++ e :: rest) k := by
  induction l generalizing k with
  | nil =>
    rw [List.nil_append, List.nil_append, image, image, hwidth, extent_nil]
    by_cases hk : k < C.width e
    · rw [if_pos hk, if_pos (by omega), Nat.sub_zero]
    · rw [if_neg hk, if_neg (by omega), if_neg hk]
  | cons f l ih =>
    rw [List.cons_append, List.cons_append, image, image, ih, extent_cons]
    by_cases hk : k < C.width f
    · rw [if_pos hk, if_pos hk, if_neg (by omega)]
    · rw [if_neg hk, if_neg hk, Nat.sub_sub]
      by_cases hin : C.extent l ≤ k - C.width f ∧ k - C.width f < C.extent l + C.width e
      · rw [if_pos hin, if_pos (by omega)]
      · rw [if_neg hin, if_neg (by omega)]

theorem Stored.set {e' : α} (h : C.Stored o base limit (l ++ e :: rest)) (hwidth : C.width e' = C.width e)
    (hnew : ∀ k, k < C.width e → o' (base + C.extent l + k) = C.byte e' k)
    (hsame : ∀ k, k < C.extent l ∨ C.extent l + C.width e ≤ k → o' (base + k) = o (base + k)) :
    C.Stored o' base limit (l ++ e' :: rest) := by
  intro k hk
  rw [image_set hwidth]
  by_cases hin : C.extent l ≤ k ∧ k < C.extent l + C.width e
  · rw [if_pos hin, ← hnew (k - C.extent l) (by omega)]
    congr 1
    omega
  · rw [if_neg hin, hsame k (by omega), h k hk]

end Codec

end ZBTree
