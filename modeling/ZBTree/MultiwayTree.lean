import ZBTree.RangeIndex
import Mathlib.Algebra.BigOperators.Group.Multiset.Basic
import Mathlib.Algebra.Order.Group.Multiset
import Mathlib.Tactic.Abel

/-!
# Multiway search trees in a node store

A node store maps the address of an inner node to its left-most child and its
entries, each a separator with the child to its right. All leaves of a tree of
depth `d` are reached by `d` descents. The tree is read off the store by
recursion on the depth:

  * `flat`   its leaves with their lower bounds, from left to right;
  * `inners` the addresses of its inner nodes;
  * `Shape`  every inner node is there and has an admissible number of entries.

The lemmas say how these change when the store changes below one child.
-/

namespace ZBTree.MultiwayTree

open RangeIndex

variable {κ α : Type*}

abbrev Store (κ α : Type*) := α → Option (α × List (κ × α))

def kids (lo : WithBot κ) (c0 : α) (es : List (κ × α)) : Index κ α :=
  (lo, c0) :: es.map fun e => ((e.1 : WithBot κ), e.2)

/-- The leaves of the tree of depth `d` at `a`, whose keys lie above `lo`. -/
def flat (h : Store κ α) : Nat → WithBot κ → α → Index κ α
  | 0, lo, a => [(lo, a)]
  | d + 1, lo, a =>
    match h a with
    | none => []
    | some (c0, es) => (kids lo c0 es).flatMap fun p => flat h d p.1 p.2

/-- The inner nodes of the tree of depth `d` at `a`. -/
def inners (h : Store κ α) : Nat → α → Multiset α
  | 0, _ => 0
  | d + 1, a =>
    a ::ₘ match h a with
      | none => 0
      | some (c0, es) => ((kids (⊥ : WithBot κ) c0 es).map fun p => inners h d p.2).sum

/-- The tree of depth `d` at `a` is complete, and `size` holds of the number of
entries of each of its inner nodes. -/
def Shape (h : Store κ α) (size : Nat → Prop) : Nat → α → Prop
  | 0, _ => True
  | d + 1, a => ∃ c0 es, h a = some (c0, es) ∧ size es.length ∧
      ∀ p ∈ kids (⊥ : WithBot κ) c0 es, Shape h size d p.2

/-- The leaves, the inner nodes and the shape of the subtrees of a list of children. -/
def flatKids (h : Store κ α) (d : Nat) (K : Index κ α) : Index κ α :=
  K.flatMap fun p => flat h d p.1 p.2

def innersKids (h : Store κ α) (d : Nat) (K : Index κ α) : Multiset α :=
  (K.map fun p => inners h d p.2).sum

def ShapeKids (h : Store κ α) (size : Nat → Prop) (d : Nat) (K : Index κ α) : Prop :=
  ∀ p ∈ K, Shape h size d p.2

variable {h h' : Store κ α} {size : Nat → Prop}

/-! ### Nodes and their children -/

theorem kids_append_cons (lo : WithBot κ) (c0 : α) (E₁ : List (κ × α)) (mid : κ) (r0 : α)
    (E₂ : List (κ × α)) :
    kids lo c0 (E₁ ++ (mid, r0) :: E₂) = kids lo c0 E₁ ++ kids (mid : WithBot κ) r0 E₂ := by
  simp [kids]

theorem kids_length (lo : WithBot κ) (c0 : α) (es : List (κ × α)) :
    (kids lo c0 es).length = es.length + 1 := by
  simp [kids]

theorem insAfter_kids {lo lo' : WithBot κ} {c0 c : α} {A B : List (κ × α)} {X Y : Index κ α}
    (hk : kids lo c0 (A ++ B) = X ++ (lo', c) :: Y) (hlen : A.length = X.length)
    (s : κ) (r : α) :
    kids lo c0 (A ++ (s, r) :: B) = X ++ (lo', c) :: ((s : WithBot κ), r) :: Y := by
  have hsplit : kids lo c0 (A ++ B) = kids lo c0 A ++ B.map fun e => ((e.1 : WithBot κ), e.2) := by
    simp [kids]
  have hsplit' : X ++ (lo', c) :: Y = (X ++ [(lo', c)]) ++ Y := by simp
  rw [hsplit, hsplit'] at hk
  obtain ⟨hA, hB⟩ := List.append_inj hk (by simp [kids_length, hlen])
  rw [kids_append_cons, hA, kids, hB]
  simp

theorem kids_split_lo {c0 c : α} {es : List (κ × α)} {X Y : Index κ α} {lo' : WithBot κ}
    (hk : kids (⊥ : WithBot κ) c0 es = X ++ (lo', c) :: Y) (lo : WithBot κ) :
    ∃ X' lo'' Y', kids lo c0 es = X' ++ (lo'', c) :: Y' ∧ X'.length = X.length := by
  cases X with
  | nil =>
    simp only [kids, List.nil_append, List.cons.injEq, Prod.mk.injEq] at hk
    obtain ⟨⟨-, rfl⟩, rfl⟩ := hk
    exact ⟨[], lo, _, rfl, rfl⟩
  | cons x X =>
    simp only [kids, List.cons_append, List.cons.injEq] at hk
    obtain ⟨-, hrest⟩ := hk
    exact ⟨(lo, c0) :: X, lo', Y, by simp [kids, hrest], rfl⟩

theorem flat_succ {d : Nat} {lo : WithBot κ} {a c0 : α} {es : List (κ × α)}
    (ha : h a = some (c0, es)) : flat h (d + 1) lo a = flatKids h d (kids lo c0 es) := by
  simp only [flat, ha, flatKids]

theorem innersKids_kids (d : Nat) (lo : WithBot κ) (c0 : α) (es : List (κ × α)) :
    innersKids h d (kids lo c0 es) = innersKids h d (kids (⊥ : WithBot κ) c0 es) := by
  simp [innersKids, kids]

theorem inners_succ {d : Nat} {a c0 : α} {es : List (κ × α)} (ha : h a = some (c0, es))
    (lo : WithBot κ) : inners h (d + 1) a = a ::ₘ innersKids h d (kids lo c0 es) := by
  rw [innersKids_kids]
  simp only [inners, ha, innersKids]

theorem shapeKids_kids (lo : WithBot κ) {d : Nat} {c0 : α} {es : List (κ × α)} :
    ShapeKids h size d (kids lo c0 es) ↔ ShapeKids h size d (kids (⊥ : WithBot κ) c0 es) := by
  simp [ShapeKids, kids]

theorem shape_succ {d : Nat} {a c0 : α} {es : List (κ × α)} (ha : h a = some (c0, es))
    (lo : WithBot κ) :
    Shape h size (d + 1) a ↔ size es.length ∧ ShapeKids h size d (kids lo c0 es) := by
  rw [shapeKids_kids lo]
  constructor
  · rintro ⟨c0', es', ha', hsize, hkids⟩
    rw [ha] at ha'
    cases ha'
    exact ⟨hsize, hkids⟩
  · rintro ⟨hsize, hkids⟩
    exact ⟨c0, es, ha, hsize, hkids⟩

theorem Shape.mono {size' : Nat → Prop} (hsize : ∀ n, size n → size' n) {d : Nat} {a : α}
    (hs : Shape h size d a) : Shape h size' d a := by
  induction d generalizing a with
  | zero => trivial
  | succ d ih =>
    obtain ⟨c0, es, ha, hn, hkids⟩ := hs
    exact ⟨c0, es, ha, hsize _ hn, fun p hp => ih (hkids p hp)⟩

section Kids

variable {d : Nat} {K K' : Index κ α} {p : WithBot κ × α}

@[simp] theorem flatKids_append : flatKids h d (K ++ K') = flatKids h d K ++ flatKids h d K' :=
  List.flatMap_append

@[simp] theorem flatKids_cons : flatKids h d (p :: K) = flat h d p.1 p.2 ++ flatKids h d K :=
  List.flatMap_cons

@[simp] theorem innersKids_append :
    innersKids h d (K ++ K') = innersKids h d K + innersKids h d K' := by
  simp [innersKids]

@[simp] theorem innersKids_cons : innersKids h d (p :: K) = inners h d p.2 + innersKids h d K := by
  simp [innersKids]

@[simp] theorem shapeKids_append :
    ShapeKids h size d (K ++ K') ↔ ShapeKids h size d K ∧ ShapeKids h size d K' := by
  simp only [ShapeKids, List.mem_append, or_imp, forall_and]

@[simp] theorem shapeKids_cons :
    ShapeKids h size d (p :: K) ↔ Shape h size d p.2 ∧ ShapeKids h size d K := by
  simp only [ShapeKids, List.mem_cons, forall_eq_or_imp]

theorem inners_le_innersKids (hp : p ∈ K) : inners h d p.2 ≤ innersKids h d K := by
  obtain ⟨X, Y, rfl⟩ := List.append_of_mem hp
  rw [innersKids_append, innersKids_cons]
  exact le_trans (Multiset.le_add_right _ _) (Multiset.le_add_left _ _)

end Kids

/-! ### Stores that agree on a tree -/

theorem congr_of_agree (size : Nat → Prop) (d : Nat) (a : α)
    (hagree : ∀ b ∈ inners h d a, h' b = h b) :
    (∀ lo, flat h' d lo a = flat h d lo a) ∧ inners h' d a = inners h d a ∧
      (Shape h size d a → Shape h' size d a) := by
  induction d generalizing a with
  | zero => exact ⟨fun _ => rfl, rfl, fun _ => trivial⟩
  | succ d ih =>
    have ha : h' a = h a := hagree a (by simp [inners])
    cases hnode : h a with
    | none =>
      refine ⟨fun lo => by simp [flat, ha, hnode], by simp [inners, ha, hnode], ?_⟩
      rintro ⟨c0, es, hsome, -, -⟩
      exact absurd (hnode.symm.trans hsome) (by simp)
    | some node =>
      obtain ⟨c0, es⟩ := node
      have hsub : ∀ p ∈ kids (⊥ : WithBot κ) c0 es, ∀ b ∈ inners h d p.2, h' b = h b := by
        intro p hp b hb
        refine hagree b ?_
        rw [inners_succ hnode ⊥]
        exact Multiset.mem_cons_of_mem (Multiset.mem_of_le (inners_le_innersKids hp) hb)
      have hkid : ∀ p ∈ kids (⊥ : WithBot κ) c0 es, _ := fun p hp => ih p.2 (hsub p hp)
      have hflat : ∀ lo, ∀ p ∈ kids lo c0 es, flat h' d p.1 p.2 = flat h d p.1 p.2 := by
        intro lo p hp
        rcases List.mem_cons.mp hp with rfl | hp
        · exact (hkid (⊥, c0) List.mem_cons_self).1 lo
        · exact (hkid p (List.mem_cons_of_mem _ hp)).1 p.1
      refine ⟨fun lo => ?_, ?_, ?_⟩
      · rw [flat_succ hnode, flat_succ (ha.trans hnode)]
        exact List.flatMap_congr (hflat lo)
      · rw [inners_succ hnode ⊥, inners_succ (ha.trans hnode) ⊥]
        simp only [innersKids]
        rw [List.map_congr_left fun p hp => (hkid p hp).2.1]
      · intro hs
        rw [shape_succ hnode ⊥] at hs
        rw [shape_succ (ha.trans hnode) ⊥]
        exact ⟨hs.1, fun p hp => (hkid p hp).2.2 (hs.2 p hp)⟩

theorem kids_congr_of_agree (size : Nat → Prop) (d : Nat) (K : Index κ α)
    (hagree : ∀ b ∈ innersKids h d K, h' b = h b) :
    flatKids h' d K = flatKids h d K ∧ innersKids h' d K = innersKids h d K ∧
      (ShapeKids h size d K → ShapeKids h' size d K) := by
  have hkid : ∀ p ∈ K, _ := fun p hp =>
    congr_of_agree size d p.2 fun b hb =>
      hagree b (Multiset.mem_of_le (inners_le_innersKids hp) hb)
  refine ⟨List.flatMap_congr fun p hp => (hkid p hp).1 p.1, ?_, fun hs p hp => (hkid p hp).2.2 (hs p hp)⟩
  simp only [innersKids]
  rw [List.map_congr_left fun p hp => (hkid p hp).2.1]

theorem node_over (size : Nat → Prop) {d : Nat} {a c0 : α} {es : List (κ × α)} (ha : h' a = some (c0, es))
    (hagree : ∀ b ∈ innersKids h d (kids (⊥ : WithBot κ) c0 es), h' b = h b) :
    (∀ lo, flat h' (d + 1) lo a = flatKids h d (kids lo c0 es)) ∧
      inners h' (d + 1) a = a ::ₘ innersKids h d (kids (⊥ : WithBot κ) c0 es) ∧
      (size es.length → ShapeKids h size d (kids (⊥ : WithBot κ) c0 es) →
        Shape h' size (d + 1) a) := by
  have hkids : ∀ lo, _ := fun lo =>
    kids_congr_of_agree size d (kids lo c0 es) fun b hb =>
      hagree b (by rwa [innersKids_kids] at hb)
  refine ⟨fun lo => ?_, ?_, fun hsize hs => ?_⟩
  · rw [flat_succ ha, (hkids lo).1]
  · rw [inners_succ ha ⊥, (hkids ⊥).2.1]
  · exact (shape_succ ha ⊥).mpr ⟨hsize, (hkids ⊥).2.2 hs⟩

/-! ### The leaves of a complete tree

A node has one child more than separators, and the leaves under it, from left to right with their lower bounds, are
those of its children in order. The index of the whole tree is a list, and all that is said about routing is said
about this list. -/

theorem flat_head {d : Nat} {a : α} (hs : Shape h size d a) (lo : WithBot κ) :
    ∃ L t, flat h d lo a = (lo, L) :: t := by
  induction d generalizing a with
  | zero => exact ⟨a, [], rfl⟩
  | succ d ih =>
    obtain ⟨c0, es, ha, -, hkids⟩ := hs
    obtain ⟨L, t, hL⟩ := ih (hkids (⊥, c0) List.mem_cons_self)
    refine ⟨L, t ++ flatKids h d (es.map fun e => ((e.1 : WithBot κ), e.2)), ?_⟩
    rw [flat_succ ha, kids, flatKids_cons, hL]
    rfl

/-- Subtrees of depth `d` whose inner nodes have `b` entries or more have `(b + 1) ^ d` leaves
or more each. -/
theorem ShapeKids.pow_le_length {b : Nat} (hsize : ∀ n, size n → b ≤ n) {d : Nat} {K : Index κ α}
    (hs : ShapeKids h size d K) : K.length * (b + 1) ^ d ≤ (flatKids h d K).length := by
  induction d generalizing K with
  | zero => simp [flatKids, flat]
  | succ d ih =>
    induction K with
    | nil => exact Nat.le_of_eq (Nat.zero_mul _)
    | cons p K ihK =>
      rw [shapeKids_cons] at hs
      obtain ⟨⟨c0, es, ha, hn, hkids⟩, hK⟩ := hs
      have hfirst := ih ((shapeKids_kids p.1).mpr hkids)
      rw [kids_length] at hfirst
      rw [flatKids_cons, List.length_append, List.length_cons, Nat.succ_mul, Nat.add_comm,
        flat_succ ha, Nat.pow_succ, Nat.mul_comm ((b + 1) ^ d)]
      refine Nat.add_le_add ((Nat.mul_le_mul_right _ ?_).trans hfirst) ?_
      · exact Nat.succ_le_succ (hsize _ hn)
      · rw [Nat.mul_comm (b + 1), ← Nat.pow_succ]
        exact ihK hK

theorem Shape.strengthen {size' : Nat → Prop} {d : Nat} {a : α} (hs : Shape h size d a)
    (hsize : ∀ b ∈ inners h d a, ∀ c0 es, h b = some (c0, es) → size' es.length) :
    Shape h size' d a := by
  induction d generalizing a with
  | zero => trivial
  | succ d ih =>
    obtain ⟨c0, es, ha, -, hkids⟩ := hs
    rw [inners_succ ha ⊥] at hsize
    refine ⟨c0, es, ha, hsize a (Multiset.mem_cons_self _ _) c0 es ha, fun p hp => ?_⟩
    apply ih (hkids p hp)
    intro b hb
    apply hsize b
    apply Multiset.mem_cons_of_mem
    exact Multiset.mem_of_le (inners_le_innersKids hp) hb

theorem labels_flat_lo {d : Nat} {a : α} (lo lo' : WithBot κ) :
    labels (flat h d lo a) = labels (flat h d lo' a) := by
  induction d generalizing a lo lo' with
  | zero => rfl
  | succ d ih =>
    cases hnode : h a with
    | none => simp [flat, hnode]
    | some node =>
      obtain ⟨c0, es⟩ := node
      rw [flat_succ hnode, flat_succ hnode, kids, kids, flatKids_cons, flatKids_cons]
      simp only [labels, List.map_append] at ih ⊢
      rw [ih lo lo']

/-- `path` leads from `a` to the leaf `L`: at each inner node, the place of the child taken. -/
def Descends (h : Store κ α) : Nat → α → List (α × Nat) → α → Prop
  | 0, a, path, L => path = [] ∧ a = L
  | d + 1, a, path, L => ∃ j rest c0 es X lo c Y, path = (a, j) :: rest ∧ h a = some (c0, es) ∧
      kids (⊥ : WithBot κ) c0 es = X ++ (lo, c) :: Y ∧ X.length = j ∧ Descends h d c rest L

theorem Descends.mem_labels {d : Nat} {a L : α} {path : List (α × Nat)}
    (hd : Descends h d a path L) (lo : WithBot κ) : L ∈ labels (flat h d lo a) := by
  induction d generalizing a path lo with
  | zero =>
    obtain ⟨-, rfl⟩ := hd
    simp [flat, labels]
  | succ d ih =>
    obtain ⟨j, rest, c0, es, X, lo', c, Y, rfl, ha, hk, hj, hrest⟩ := hd
    rw [labels_flat_lo lo ⊥, flat_succ ha, hk]
    have hmem := ih hrest lo'
    simp only [flatKids_append, flatKids_cons, labels, List.map_append, List.mem_append] at hmem ⊢
    exact Or.inr (Or.inl hmem)

theorem Descends.length {d : Nat} {a L : α} {path : List (α × Nat)}
    (hd : Descends h d a path L) : path.length = d := by
  induction d generalizing a path with
  | zero =>
    obtain ⟨rfl, -⟩ := hd
    rfl
  | succ d ih =>
    obtain ⟨j, rest, c0, es, X, lo', c, Y, rfl, -, -, -, hrest⟩ := hd
    rw [List.length_cons, ih hrest]

/-- The way from an inner node in the middle of a path on. -/
theorem Descends.split {size : Nat → Prop} {d : Nat} {a b L : α} {j : Nat} {pre post : List (α × Nat)}
    (hs : Shape h size d a) (hd : Descends h d a (pre ++ (b, j) :: post) L) :
    ∃ e c0 es X lo c Y, h b = some (c0, es) ∧ kids (⊥ : WithBot κ) c0 es = X ++ (lo, c) :: Y ∧
      X.length = j ∧ Descends h e c post L ∧ Shape h size (e + 1) b ∧
      ∀ lo₀, ∃ A B lo₁, flat h d lo₀ a = A ++ flat h (e + 1) lo₁ b ++ B := by
  induction pre generalizing a d with
  | nil =>
    cases d with
    | zero => cases hd.1
    | succ d =>
      obtain ⟨j', rest, c0, es, X, lo, c, Y, hpath, ha, hk, hj, hrest⟩ := hd
      rw [List.nil_append, List.cons.injEq, Prod.mk.injEq] at hpath
      obtain ⟨⟨rfl, rfl⟩, rfl⟩ := hpath
      exact ⟨d, c0, es, X, lo, c, Y, ha, hk, hj, hrest, hs, fun lo₀ => ⟨[], [], lo₀, by simp⟩⟩
  | cons q pre ih =>
    cases d with
    | zero => cases hd.1
    | succ d =>
      obtain ⟨j', rest, c0, es, X, lo, c, Y, hpath, ha, hk, -, hrest⟩ := hd
      rw [List.cons_append, List.cons.injEq] at hpath
      obtain ⟨-, rfl⟩ := hpath
      obtain ⟨-, hkids⟩ := (shape_succ ha ⊥).mp hs
      have hc : Shape h size d c := hkids (lo, c) (by rw [hk]; simp)
      obtain ⟨e, c0', es', X', lo', c', Y', hb, hk', hj', hpost, hshape, hflat⟩ := ih hc hrest
      refine ⟨e, c0', es', X', lo', c', Y', hb, hk', hj', hpost, hshape, fun lo₀ => ?_⟩
      -- the leaves of the child stand among those of its siblings
      obtain ⟨X₀, lo₂, Y₀, hk₀, -⟩ := kids_split_lo hk lo₀
      obtain ⟨A, B, lo₁, hAB⟩ := hflat lo₂
      refine ⟨flatKids h d X₀ ++ A, B ++ flatKids h d Y₀, lo₁, ?_⟩
      rw [flat_succ ha, hk₀, flatKids_append, flatKids_cons, hAB]
      simp only [List.append_assoc]

theorem Descends.first {d : Nat} {a L : α} {path : List (α × Nat)} (hd : Descends h d a path L)
    (hzero : ∀ q ∈ path, q.2 = 0) (lo : WithBot κ) : ∃ t, flat h d lo a = (lo, L) :: t := by
  induction d generalizing a path with
  | zero =>
    obtain ⟨-, rfl⟩ := hd
    exact ⟨[], rfl⟩
  | succ d ih =>
    obtain ⟨j, rest, c0, es, X, lo', c, Y, rfl, ha, hk, hj, hrest⟩ := hd
    have hj0 : X.length = 0 := hj.trans (hzero _ List.mem_cons_self)
    rw [List.length_eq_zero_iff] at hj0
    subst hj0
    rw [List.nil_append, kids, List.cons.injEq, Prod.mk.injEq] at hk
    obtain ⟨⟨-, rfl⟩, -⟩ := hk
    obtain ⟨t, ht⟩ := ih hrest fun q hq => hzero q (List.mem_cons_of_mem _ hq)
    rw [flat_succ ha, kids, flatKids_cons, ht]
    exact ⟨_, rfl⟩

section Order

variable [LinearOrder κ]

theorem le_of_mem_flat {d : Nat} {a : α} {lo : WithBot κ} (hs : Shape h size d a)
    (hF : Sorted (flat h d lo a)) {q : WithBot κ × α} (hq : q ∈ flat h d lo a) : lo ≤ q.1 := by
  obtain ⟨L, t, hflat⟩ := flat_head hs lo
  rw [hflat] at hq hF
  rcases List.mem_cons.mp hq with rfl | hq
  · exact le_refl _
  · exact ((List.pairwise_cons.mp hF).1 q hq).le

theorem Sorted.of_kid {d : Nat} {K : Index κ α} (hF : Sorted (flatKids h d K))
    {p : WithBot κ × α} (hp : p ∈ K) : Sorted (flat h d p.1 p.2) :=
  (List.pairwise_flatMap.mp hF).1 p hp

theorem Sorted.of_flatKids {d : Nat} {K : Index κ α} (hs : ShapeKids h size d K)
    (hF : Sorted (flatKids h d K)) : Sorted K := by
  refine List.Pairwise.imp_of_mem ?_ (List.pairwise_flatMap.mp hF).2
  intro p q hp hq hcross
  obtain ⟨L, t, hL⟩ := flat_head (hs p hp) p.1
  obtain ⟨M, u, hM⟩ := flat_head (hs q hq) q.1
  exact hcross (p.1, L) (by rw [hL]; exact List.mem_cons_self) (q.1, M)
    (by rw [hM]; exact List.mem_cons_self)

theorem routes_flatKids {d : Nat} {X Y : Index κ α} {lo : WithBot κ} {c L : α} {k : κ}
    (hs : ShapeKids h size d (X ++ (lo, c) :: Y)) (hF : Sorted (flatKids h d (X ++ (lo, c) :: Y)))
    (hnext : ∀ y ∈ Y, (k : WithBot κ) ≤ y.1) (hL : Routes (flat h d lo c) k L) :
    Routes (flatKids h d (X ++ (lo, c) :: Y)) k L := by
  obtain ⟨lo', hmem, hlo', hup⟩ := hL
  refine ⟨lo', ?_, hlo', ?_⟩
  · simp only [flatKids_append, flatKids_cons, List.mem_append]
    exact Or.inr (Or.inl hmem)
  · intro q hq hlt
    simp only [flatKids_append, flatKids_cons, List.mem_append] at hq hF
    rcases hq with hq | hq | hq
    · have hbefore := (List.pairwise_append.mp hF).2.2 q hq (lo', L)
        (List.mem_append.mpr (Or.inl hmem))
      exact absurd hlt (not_lt.mpr hbefore.le)
    · exact hup q hq hlt
    · obtain ⟨p, hp, hqp⟩ := List.mem_flatMap.mp hq
      have hFY : Sorted (flatKids h d Y) :=
        (List.pairwise_append.mp (List.pairwise_append.mp hF).2.1).2.1
      exact (hnext p hp).trans (le_of_mem_flat (hs p (by simp [hp])) (Sorted.of_kid hFY hp) hqp)

end Order

/-! ### Changing one child -/

/-- The store `h₁` differs from `h` only on the child `c` and on the new nodes `N`. -/
def AgreesOff (h h₁ : Store κ α) (d : Nat) (c : α) (N : Multiset α) : Prop :=
  ∀ b, b ∉ inners h d c → b ∉ N → h₁ b = h b

section Child

variable {h₁ : Store κ α} {d : Nat} {X Y : Index κ α} {lo : WithBot κ} {c : α} {N : Multiset α}

theorem siblings_congr (size : Nat → Prop)
    (hnodup : (innersKids h d (X ++ (lo, c) :: Y)).Nodup)
    (hfresh : ∀ b ∈ innersKids h d (X ++ (lo, c) :: Y), b ∉ N)
    (hagree : AgreesOff h h₁ d c N) :
    (flatKids h₁ d X = flatKids h d X ∧ innersKids h₁ d X = innersKids h d X ∧
        (ShapeKids h size d X → ShapeKids h₁ size d X)) ∧
      (flatKids h₁ d Y = flatKids h d Y ∧ innersKids h₁ d Y = innersKids h d Y ∧
        (ShapeKids h size d Y → ShapeKids h₁ size d Y)) := by
  simp only [innersKids_append, innersKids_cons] at hnodup hfresh
  obtain ⟨-, hcY, hdisjX⟩ := Multiset.nodup_add.mp hnodup
  obtain ⟨-, -, hdisjY⟩ := Multiset.nodup_add.mp hcY
  constructor
  · refine kids_congr_of_agree size d X fun b hb => hagree b ?_ (hfresh b ?_)
    · intro hc
      exact Multiset.disjoint_left.mp hdisjX hb (Multiset.mem_add.mpr (Or.inl hc))
    · exact Multiset.mem_add.mpr (Or.inl hb)
  · refine kids_congr_of_agree size d Y fun b hb => hagree b ?_ (hfresh b ?_)
    · intro hc
      exact Multiset.disjoint_left.mp hdisjY hc hb
    · exact Multiset.mem_add.mpr (Or.inr (Multiset.mem_add.mpr (Or.inr hb)))

variable {L R : α} {s : κ}

theorem kids_done (hnodup : (innersKids h d (X ++ (lo, c) :: Y)).Nodup)
    (hfresh : ∀ b ∈ innersKids h d (X ++ (lo, c) :: Y), b ∉ N) (hagree : AgreesOff h h₁ d c N)
    (hins : InsAfter L s R (flat h d lo c) (flat h₁ d lo c))
    (hinn : inners h₁ d c = inners h d c + N) (hc : Shape h₁ size d c)
    (hs : ShapeKids h size d (X ++ (lo, c) :: Y)) :
    InsAfter L s R (flatKids h d (X ++ (lo, c) :: Y)) (flatKids h₁ d (X ++ (lo, c) :: Y)) ∧
      innersKids h₁ d (X ++ (lo, c) :: Y) = innersKids h d (X ++ (lo, c) :: Y) + N ∧
      ShapeKids h₁ size d (X ++ (lo, c) :: Y) := by
  obtain ⟨⟨hflatX, hinnX, hshX⟩, ⟨hflatY, hinnY, hshY⟩⟩ :=
    siblings_congr size hnodup hfresh hagree
  simp only [shapeKids_append, shapeKids_cons] at hs ⊢
  refine ⟨?_, ?_, hshX hs.1, hc, hshY hs.2.2⟩
  · simp only [flatKids_append, flatKids_cons, hflatX, hflatY, ← List.append_assoc]
    exact hins.append _ _
  · simp only [innersKids_append, innersKids_cons, hinnX, hinnY, hinn]
    abel

/-- The child was cut into `c` and `r`: with `r` put after `c`, the list of children took
the new leaf in. -/
theorem kids_absorb {up : κ} {r : α} (hnodup : (innersKids h d (X ++ (lo, c) :: Y)).Nodup)
    (hfresh : ∀ b ∈ innersKids h d (X ++ (lo, c) :: Y), b ∉ N) (hagree : AgreesOff h h₁ d c N)
    (hins : InsAfter L s R (flat h d lo c) (flat h₁ d lo c ++ flat h₁ d (up : WithBot κ) r))
    (hinn : inners h₁ d c + inners h₁ d r = inners h d c + N) (hc : Shape h₁ size d c)
    (hr : Shape h₁ size d r) (hs : ShapeKids h size d (X ++ (lo, c) :: Y)) :
    InsAfter L s R (flatKids h d (X ++ (lo, c) :: Y))
        (flatKids h₁ d (X ++ (lo, c) :: ((up : WithBot κ), r) :: Y)) ∧
      innersKids h₁ d (X ++ (lo, c) :: ((up : WithBot κ), r) :: Y) =
        innersKids h d (X ++ (lo, c) :: Y) + N ∧
      ShapeKids h₁ size d (X ++ (lo, c) :: ((up : WithBot κ), r) :: Y) := by
  obtain ⟨⟨hflatX, hinnX, hshX⟩, ⟨hflatY, hinnY, hshY⟩⟩ :=
    siblings_congr size hnodup hfresh hagree
  simp only [shapeKids_append, shapeKids_cons] at hs ⊢
  refine ⟨?_, ?_, hshX hs.1, hc, hr, hshY hs.2.2⟩
  · have hmid := hins.append (flatKids h d X) (flatKids h d Y)
    simpa only [flatKids_append, flatKids_cons, hflatX, hflatY, List.append_assoc] using hmid
  · simp only [innersKids_append, innersKids_cons, hinnX, hinnY]
    rw [show innersKids h d X + (inners h₁ d c + (inners h₁ d r + innersKids h d Y)) =
      innersKids h d X + ((inners h₁ d c + inners h₁ d r) + innersKids h d Y) by abel, hinn]
    abel

end Child

section Node

variable {h₁ : Store κ α} {d : Nat} {X Y : Index κ α} {lo' : WithBot κ} {c c0 L R : α}
  {N : Multiset α} {s : κ} {es : List (κ × α)}

theorem node_done (hk : kids (⊥ : WithBot κ) c0 es = X ++ (lo', c) :: Y)
    (hnodup : (innersKids h d (kids (⊥ : WithBot κ) c0 es)).Nodup)
    (hfresh : ∀ b ∈ innersKids h d (kids (⊥ : WithBot κ) c0 es), b ∉ N)
    (hagree : AgreesOff h h₁ d c N)
    (hins : ∀ lo, InsAfter L s R (flat h d lo c) (flat h₁ d lo c))
    (hinn : inners h₁ d c = inners h d c + N) (hc : Shape h₁ size d c)
    (hs : ShapeKids h size d (kids (⊥ : WithBot κ) c0 es)) :
    (∀ lo, InsAfter L s R (flatKids h d (kids lo c0 es)) (flatKids h₁ d (kids lo c0 es))) ∧
      innersKids h₁ d (kids (⊥ : WithBot κ) c0 es) =
        innersKids h d (kids (⊥ : WithBot κ) c0 es) + N ∧
      ShapeKids h₁ size d (kids (⊥ : WithBot κ) c0 es) := by
  refine ⟨fun lo => ?_, ?_⟩
  · obtain ⟨X', lo'', Y', hk', -⟩ := kids_split_lo hk lo
    rw [← innersKids_kids d lo, hk'] at hnodup hfresh
    rw [← shapeKids_kids lo, hk'] at hs
    rw [hk']
    exact (kids_done hnodup hfresh hagree (hins lo'') hinn hc hs).1
  · rw [hk] at hnodup hfresh hs ⊢
    exact (kids_done hnodup hfresh hagree (hins lo') hinn hc hs).2

/-- `kids_absorb` for the children of a node: the entry of the cut goes to the place of
the child that was cut. -/
theorem node_absorb {up : κ} {r : α} {j : Nat}
    (hk : kids (⊥ : WithBot κ) c0 es = X ++ (lo', c) :: Y) (hX : X.length = j)
    (hnodup : (innersKids h d (kids (⊥ : WithBot κ) c0 es)).Nodup)
    (hfresh : ∀ b ∈ innersKids h d (kids (⊥ : WithBot κ) c0 es), b ∉ N)
    (hagree : AgreesOff h h₁ d c N)
    (hins : ∀ lo, InsAfter L s R (flat h d lo c) (flat h₁ d lo c ++ flat h₁ d (up : WithBot κ) r))
    (hinn : inners h₁ d c + inners h₁ d r = inners h d c + N) (hc : Shape h₁ size d c)
    (hr : Shape h₁ size d r) (hs : ShapeKids h size d (kids (⊥ : WithBot κ) c0 es)) :
    (∀ lo, InsAfter L s R (flatKids h d (kids lo c0 es))
        (flatKids h₁ d (kids lo c0 (es.take j ++ (up, r) :: es.drop j)))) ∧
      innersKids h₁ d (kids (⊥ : WithBot κ) c0 (es.take j ++ (up, r) :: es.drop j)) =
        innersKids h d (kids (⊥ : WithBot κ) c0 es) + N ∧
      ShapeKids h₁ size d (kids (⊥ : WithBot κ) c0 (es.take j ++ (up, r) :: es.drop j)) := by
  have hjlen : j ≤ es.length := by
    have hlen := congrArg List.length hk
    rw [kids_length] at hlen
    simp only [List.length_append, List.length_cons] at hlen
    omega
  have hput : ∀ {lo : WithBot κ} {X' Y' : Index κ α} {lo'' : WithBot κ},
      kids lo c0 es = X' ++ (lo'', c) :: Y' → X'.length = j →
      kids lo c0 (es.take j ++ (up, r) :: es.drop j) =
        X' ++ (lo'', c) :: ((up : WithBot κ), r) :: Y' := fun hk' hX' =>
    insAfter_kids (by rwa [List.take_append_drop])
      (by rw [List.length_take, hX', Nat.min_eq_left hjlen]) up r
  refine ⟨fun lo => ?_, ?_⟩
  · obtain ⟨X', lo'', Y', hk', hX'⟩ := kids_split_lo hk lo
    rw [← innersKids_kids d lo, hk'] at hnodup hfresh
    rw [← shapeKids_kids lo, hk'] at hs
    rw [hput hk' (hX'.trans hX), hk']
    exact (kids_absorb hnodup hfresh hagree (hins lo'') hinn hc hr hs).1
  · rw [hput hk hX]
    rw [hk] at hnodup hfresh hs ⊢
    exact (kids_absorb hnodup hfresh hagree (hins lo') hinn hc hr hs).2

end Node

/-! ### Rewriting one node -/

theorem flatKids_zero (K : Index κ α) : flatKids h 0 K = K := by
  simp [flatKids, flat]

/-- Rewriting the last inner node of a way rewrites the leaves under it, and nothing else. -/
theorem Descends.rewrite [DecidableEq α] {size : Nat → Prop} {d : Nat} {a b L : α} {j : Nat}
    {pre : List (α × Nat)} (hs : Shape h size d a) (hnodup : (inners h d a).Nodup)
    (hd : Descends h d a (pre ++ [(b, j)]) L) :
    b ∈ inners h d a ∧ ∃ c0 es X lo Y, h b = some (c0, es) ∧
      kids (⊥ : WithBot κ) c0 es = X ++ (lo, L) :: Y ∧ X.length = j ∧ size es.length ∧
      ∀ c0' es', size es'.length →
        Shape (Function.update h b (some (c0', es'))) size d a ∧
        inners (Function.update h b (some (c0', es'))) d a = inners h d a ∧
        ∀ lo₀, ∃ A lo₁ B, flat h d lo₀ a = A ++ kids lo₁ c0 es ++ B ∧
          flat (Function.update h b (some (c0', es'))) d lo₀ a = A ++ kids lo₁ c0' es' ++ B := by
  -- on the nodes above the one that is rewritten
  induction pre generalizing a d with
  | nil =>
    cases d with
    | zero => cases hd.1
    | succ d =>
      obtain ⟨j', rest, c0, es, X, lo, c, Y, hpath, ha, hk, hj, hrest⟩ := hd
      rw [List.nil_append, List.cons.injEq, Prod.mk.injEq] at hpath
      obtain ⟨⟨rfl, rfl⟩, rfl⟩ := hpath
      cases d with
      | succ d =>
        obtain ⟨_, _, _, _, _, _, _, _, hnil, -⟩ := hrest
        cases hnil
      | zero =>
        obtain ⟨-, rfl⟩ := hrest
        refine ⟨Multiset.mem_cons_self _ _, c0, es, X, lo, Y, ha, hk, hj, ((shape_succ ha ⊥).mp hs).1,
          fun c0' es' hsize => ?_⟩
        -- `b` is the node itself, over a leaf
        have hnew : Function.update h b (some (c0', es')) b = some (c0', es') := Function.update_self ..
        refine ⟨(shape_succ hnew ⊥).mpr ⟨hsize, fun _ _ => trivial⟩, ?_, fun lo₀ => ?_⟩
        · rw [inners_succ hnew ⊥, inners_succ ha ⊥]
          simp [innersKids, inners]
        · refine ⟨[], lo₀, [], ?_, ?_⟩
          · rw [flat_succ ha, flatKids_zero]
            simp
          · rw [flat_succ hnew, flatKids_zero]
            simp
  | cons q pre ih =>
    cases d with
    | zero => cases hd.1
    | succ d =>
      obtain ⟨j', rest, c0, es, X, lo, c, Y, hpath, ha, hk, -, hrest⟩ := hd
      rw [List.cons_append, List.cons.injEq] at hpath
      obtain ⟨-, rfl⟩ := hpath
      obtain ⟨hsize, hkids⟩ := (shape_succ ha ⊥).mp hs
      rw [inners_succ ha ⊥] at hnodup ⊢
      obtain ⟨hout, hkidsnd⟩ := Multiset.nodup_cons.mp hnodup
      have hmem : (lo, c) ∈ kids (⊥ : WithBot κ) c0 es := by
        rw [hk]
        simp
      have hc : Shape h size d c := hkids (lo, c) hmem
      have hle : inners h d c ≤ innersKids h d (kids (⊥ : WithBot κ) c0 es) := inners_le_innersKids hmem
      obtain ⟨hb, c0₁, es₁, X₁, lo₁, Y₁, hview, hk₁, hj₁, hsize₁, hrewrite⟩ :=
        ih hc (Multiset.nodup_of_le hle hkidsnd) hrest
      have hbin := Multiset.mem_of_le hle hb
      -- this node lies above `b`, so it is not rewritten
      have hab : a ≠ b := fun heq => hout (heq ▸ hbin)
      refine ⟨Multiset.mem_cons_of_mem hbin, c0₁, es₁, X₁, lo₁, Y₁, hview, hk₁, hj₁, hsize₁,
        fun c0' es' hnewsize => ?_⟩
      obtain ⟨hc', hinn', hflat'⟩ := hrewrite c0' es' hnewsize
      have ha' : Function.update h b (some (c0', es')) a = some (c0, es) := by
        rw [Function.update_of_ne hab, ha]
      have hagree : AgreesOff h (Function.update h b (some (c0', es'))) d c 0 := by
        intro x hx _
        apply Function.update_of_ne
        exact fun heq => hx (heq ▸ hb)
      have hk' := hk ▸ hkidsnd
      obtain ⟨⟨-, hinnX, hshX⟩, ⟨-, hinnY, hshY⟩⟩ :=
        siblings_congr size hk' (fun x _ => Multiset.notMem_zero x) hagree
      have hkids' := hk ▸ hkids
      rw [shapeKids_append, shapeKids_cons] at hkids'
      refine ⟨(shape_succ ha' ⊥).mpr ⟨hsize, ?_⟩, ?_, fun lo₀ => ?_⟩
      · rw [hk, shapeKids_append, shapeKids_cons]
        exact ⟨hshX hkids'.1, hc', hshY hkids'.2.2⟩
      · rw [inners_succ ha' ⊥, hk]
        simp only [innersKids_append, innersKids_cons, hinnX, hinnY, hinn']
      · -- the siblings of the child keep their leaves, whatever the bound of the node
        obtain ⟨X₀, lo₂, Y₀, hk₀, -⟩ := kids_split_lo hk lo₀
        have hnd₀ : (innersKids h d (X₀ ++ (lo₂, c) :: Y₀)).Nodup := by
          rw [← hk₀, innersKids_kids]
          exact hkidsnd
        obtain ⟨⟨hflatX, -, -⟩, ⟨hflatY, -, -⟩⟩ :=
          siblings_congr size hnd₀ (fun x _ => Multiset.notMem_zero x) hagree
        obtain ⟨A, lo₃, B, hold, hnew⟩ := hflat' lo₂
        refine ⟨flatKids h d X₀ ++ A, lo₃, B ++ flatKids h d Y₀, ?_, ?_⟩
        · rw [flat_succ ha, hk₀, flatKids_append, flatKids_cons, hold]
          simp only [List.append_assoc]
        · rw [flat_succ ha', hk₀, flatKids_append, flatKids_cons, hnew, hflatX, hflatY]
          simp only [List.append_assoc]

end ZBTree.MultiwayTree
