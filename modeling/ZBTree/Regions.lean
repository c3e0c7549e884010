import Mathlib.Data.List.Pairwise
import Mathlib.Data.Nat.Basic
import Mathlib.Order.Basic

/-!
# Bump allocation

Regions of an address space, and blocks that are filled from their start. Whatever the
number of blocks, regions that are cut off at the fill level of a block stay under the
fill levels, and so each new one is disjoint from all the earlier ones.
-/

namespace ZBTree

/-- The addresses from `base` up to `base + size`. -/
structure Region where
  base : Nat
  size : Nat
deriving DecidableEq, Repr

namespace Region

def limit (r : Region) : Nat := r.base + r.size

def Disjoint (r r' : Region) : Prop := r.limit ≤ r'.base ∨ r'.limit ≤ r.base

def Within (r r' : Region) : Prop := r'.base ≤ r.base ∧ r.limit ≤ r'.limit

instance (r r' : Region) : Decidable (r.Disjoint r') := inferInstanceAs (Decidable (_ ∨ _))
instance (r r' : Region) : Decidable (r.Within r') := inferInstanceAs (Decidable (_ ∧ _))

variable {r r' s s' : Region}

theorem Disjoint.symm (h : r.Disjoint r') : r'.Disjoint r := Or.symm h

theorem Within.refl (r : Region) : r.Within r := ⟨Nat.le_refl _, Nat.le_refl _⟩

theorem Within.trans {r'' : Region} (h : r.Within r') (h' : r'.Within r'') : r.Within r'' :=
  ⟨h'.1.trans h.1, h.2.trans h'.2⟩

theorem Disjoint.mono (h : s.Disjoint s') (hr : r.Within s) (hr' : r'.Within s') :
    r.Disjoint r' := by
  rcases h with hlt | hlt
  · exact Or.inl (hr.2.trans (hlt.trans hr'.1))
  · exact Or.inr (hr'.2.trans (hlt.trans hr.1))

theorem not_disjoint_of_mem {x : Nat} (hx : r.base ≤ x ∧ x < r.limit)
    (hx' : r'.base ≤ x ∧ x < r'.limit) : ¬ r.Disjoint r' := by
  rintro (hlt | hlt)
  · exact Nat.lt_irrefl x (hx.2.trans_le (hlt.trans hx'.1))
  · exact Nat.lt_irrefl x (hx'.2.trans_le (hlt.trans hx.1))

end Region

/-- Blocks that are filled from their start: the blocks that are there, the region of each
and how much of it is in use. -/
structure Shelf (ι : Type*) where
  live : ι → Prop
  block : ι → Region
  fill : ι → Nat

namespace Shelf

variable {ι : Type*} {sh sh' : Shelf ι} {i j : ι} {r : Region} {taken : List (ι × Region)}

def inUse (sh : Shelf ι) (i : ι) : Region := ⟨(sh.block i).base, sh.fill i⟩

structure Sound (sh : Shelf ι) : Prop where
  apart : ∀ {i j}, sh.live i → sh.live j → i ≠ j → (sh.block i).Disjoint (sh.block j)
  fill_le : ∀ {i}, sh.live i → sh.fill i ≤ (sh.block i).size

/-- The regions taken so far, each with its block: they are in use and pairwise disjoint. -/
structure Packed (sh : Shelf ι) (taken : List (ι × Region)) : Prop where
  within : ∀ p ∈ taken, sh.live p.1 ∧ p.2.Within (sh.inUse p.1)
  disjoint : taken.Pairwise fun p q => p.2.Disjoint q.2

/-- Blocks have been added and filled further. -/
structure Grows (sh sh' : Shelf ι) : Prop where
  live : ∀ {i}, sh.live i → sh'.live i
  block : ∀ {i}, sh.live i → sh'.block i = sh.block i
  fill : ∀ {i}, sh.live i → sh.fill i ≤ sh'.fill i

theorem Grows.refl (sh : Shelf ι) : sh.Grows sh := ⟨id, fun _ => rfl, fun _ => Nat.le_refl _⟩

theorem Grows.trans {sh'' : Shelf ι} (h : sh.Grows sh') (h' : sh'.Grows sh'') :
    sh.Grows sh'' where
  live hi := h'.live (h.live hi)
  block hi := (h'.block (h.live hi)).trans (h.block hi)
  fill hi := (h.fill hi).trans (h'.fill (h.live hi))

/-- `r` has been cut off block `i` above what `sh` had in use. -/
structure Cut (sh sh' : Shelf ι) (i : ι) (r : Region) : Prop where
  grows : sh.Grows sh'
  live : sh'.live i
  base_le : (sh'.block i).base ≤ r.base
  above : sh.live i → (sh.inUse i).limit ≤ r.base
  limit_le : r.limit ≤ (sh'.inUse i).limit

theorem Sound.inUse_within (h : sh.Sound) (hi : sh.live i) :
    (sh.inUse i).Within (sh.block i) :=
  ⟨Nat.le_refl _, Nat.add_le_add_left (h.fill_le hi) _⟩

theorem Packed.nil (sh : Shelf ι) : sh.Packed [] := ⟨fun p hp => by simp at hp, List.Pairwise.nil⟩

theorem Grows.packed (h : sh.Grows sh') (hp : sh.Packed taken) : sh'.Packed taken where
  within p hmem := by
    obtain ⟨hlive, hbase, hlimit⟩ := hp.within p hmem
    have hblock := h.block hlive
    refine ⟨h.live hlive, ?_, hlimit.trans ?_⟩
    · rw [inUse, hblock]
      exact hbase
    · simp only [inUse, Region.limit, hblock]
      exact Nat.add_le_add_left (h.fill hlive) _
  disjoint := hp.disjoint

theorem Cut.packed (h : Cut sh sh' i r) (hsound : sh'.Sound) (hp : sh.Packed taken) :
    sh'.Packed ((i, r) :: taken) where
  within p hmem := by
    rcases List.mem_cons.mp hmem with rfl | hmem
    · exact ⟨h.live, h.base_le, h.limit_le⟩
    · exact (h.grows.packed hp).within p hmem
  disjoint := by
    refine List.pairwise_cons.mpr ⟨fun p hmem => ?_, hp.disjoint⟩
    obtain ⟨hlive, hwithin⟩ := hp.within p hmem
    by_cases hi : p.1 = i
    · have habove := h.above (hi ▸ hlive)
      rw [hi] at hwithin
      exact Or.inr (hwithin.2.trans habove)
    · have hold := (h.grows.packed hp).within p hmem
      have hnew : r.Within (sh'.inUse i) := ⟨h.base_le, h.limit_le⟩
      have hapart := hsound.apart h.live (h.grows.live hlive) fun heq => hi heq.symm
      exact hapart.mono (hnew.trans (hsound.inUse_within h.live))
        (hold.2.trans (hsound.inUse_within hold.1))

end Shelf

end ZBTree
