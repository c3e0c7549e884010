import Mathlib.Order.WithBot
import Mathlib.Data.List.Pairwise
import Mathlib.Data.List.Nodup

/-!
# Range indexes

A range index is a list of labels, each with the exclusive lower bound of its
range: the range of a label runs from its own bound up to and including the bound
of the next label. It is what a B+-tree means once its inner nodes are forgotten.

Some labels of an index may stand for two: a split that has been carried out below
but not yet recorded in the index. `expand` lists both halves.
-/

namespace ZBTree.RangeIndex

variable {κ α : Type*}

/-- Labels with their exclusive lower bounds, in order; the first bound is `⊥`. -/
abbrev Index (κ α : Type*) := List (WithBot κ × α)

def labels (F : Index κ α) : List α := F.map Prod.snd

/-! ### Inserting a label -/

/-- `F'` is `F` with the bound `s` and the label `R` put right after `L`. -/
def InsAfter (L : α) (s : κ) (R : α) (F F' : Index κ α) : Prop :=
  ∃ X lo Y, F = X ++ (lo, L) :: Y ∧ F' = X ++ (lo, L) :: ((s : WithBot κ), R) :: Y

theorem InsAfter.append {L R : α} {s : κ} {F F' : Index κ α} (h : InsAfter L s R F F')
    (P Q : Index κ α) : InsAfter L s R (P ++ F ++ Q) (P ++ F' ++ Q) := by
  obtain ⟨X, lo, Y, rfl, rfl⟩ := h
  exact ⟨P ++ X, lo, Y ++ Q, by simp, by simp⟩

theorem InsAfter.mem_iff {L R : α} {s : κ} {F F' : Index κ α} (h : InsAfter L s R F F')
    (p : WithBot κ × α) : p ∈ F' ↔ p ∈ F ∨ p = (↑s, R) := by
  obtain ⟨X, lo, Y, rfl, rfl⟩ := h
  simp only [List.mem_append, List.mem_cons]
  tauto

theorem InsAfter.mem_labels {L R : α} {s : κ} {F F' : Index κ α} (h : InsAfter L s R F F')
    (a : α) : a ∈ labels F' ↔ a ∈ labels F ∨ a = R := by
  obtain ⟨X, lo, Y, rfl, rfl⟩ := h
  simp only [labels, List.map_append, List.map_cons, List.mem_append, List.mem_cons]
  tauto

theorem InsAfter.left_mem {L R : α} {s : κ} {F F' : Index κ α} (h : InsAfter L s R F F') :
    L ∈ labels F := by
  obtain ⟨X, lo, Y, rfl, -⟩ := h
  simp [labels]

theorem InsAfter.labels_split {L R : α} {s : κ} {F F' : Index κ α} (h : InsAfter L s R F F') :
    ∃ A B, labels F = A ++ L :: B ∧ labels F' = A ++ L :: R :: B := by
  obtain ⟨X, lo, Y, rfl, rfl⟩ := h
  exact ⟨labels X, labels Y, by simp [labels], by simp [labels]⟩

theorem InsAfter.labels_perm {L R : α} {s : κ} {F F' : Index κ α} (h : InsAfter L s R F F') :
    (labels F').Perm (R :: labels F) := by
  obtain ⟨X, lo, Y, rfl, rfl⟩ := h
  simp only [labels, List.map_append, List.map_cons]
  have hswap : (X.map Prod.snd ++ L :: R :: Y.map Prod.snd).Perm
      (X.map Prod.snd ++ R :: L :: Y.map Prod.snd) :=
    List.Perm.append_left _ (List.Perm.swap _ _ _)
  exact hswap.trans List.perm_middle

theorem InsAfter.nodup {L R : α} {s : κ} {F F' : Index κ α} (h : InsAfter L s R F F')
    (hF : (labels F).Nodup) (hR : R ∉ labels F) : (labels F').Nodup :=
  h.labels_perm.nodup_iff.mpr (List.nodup_cons.mpr ⟨hR, hF⟩)

/-! ### Removing a label -/

/-- `F'` is `F` without the label `L`: its range goes to the label before it, or to the one after. -/
def Removes (L : α) (F F' : Index κ α) : Prop :=
  (∃ X lo Y, X ≠ [] ∧ F = X ++ (lo, L) :: Y ∧ F' = X ++ Y) ∨
    ∃ X lo next M Y, F = X ++ (lo, L) :: (next, M) :: Y ∧ F' = X ++ (lo, M) :: Y

theorem Removes.append {L : α} {F F' : Index κ α} (h : Removes L F F') (P Q : Index κ α) :
    Removes L (P ++ F ++ Q) (P ++ F' ++ Q) := by
  rcases h with ⟨X, lo, Y, hX, rfl, rfl⟩ | ⟨X, lo, next, M, Y, rfl, rfl⟩
  · refine Or.inl ⟨P ++ X, lo, Y ++ Q, ?_, by simp, by simp⟩
    exact List.append_ne_nil_of_right_ne_nil P hX
  · exact Or.inr ⟨P ++ X, lo, next, M, Y ++ Q, by simp, by simp⟩

theorem Removes.labels_eq [DecidableEq α] {L : α} {F F' : Index κ α} (h : Removes L F F')
    (hnodup : (labels F).Nodup) : labels F' = (labels F).erase L := by
  have herase : ∀ {A B : List α}, (A ++ L :: B).Nodup → (A ++ L :: B).erase L = A ++ B := by
    intro A B hAB
    have hA : L ∉ A := fun hmem => (List.nodup_append.mp hAB).2.2 L hmem L List.mem_cons_self rfl
    rw [List.erase_append_right _ hA, List.erase_cons_head]
  rcases h with ⟨X, lo, Y, -, rfl, rfl⟩ | ⟨X, lo, next, M, Y, rfl, rfl⟩
  · simp only [labels, List.map_append, List.map_cons] at hnodup ⊢
    exact (herase hnodup).symm
  · simp only [labels, List.map_append, List.map_cons] at hnodup ⊢
    exact (herase hnodup).symm

theorem Removes.bound_mem {L : α} {F F' : Index κ α} (h : Removes L F F') {p : WithBot κ × α}
    (hp : p ∈ F') : ∃ q ∈ F, q.1 = p.1 := by
  rcases h with ⟨X, lo, Y, -, rfl, rfl⟩ | ⟨X, lo, next, M, Y, rfl, rfl⟩
  · rcases List.mem_append.mp hp with hX | hY
    · exact ⟨p, by simp [hX], rfl⟩
    · exact ⟨p, by simp [hY], rfl⟩
  · rcases List.mem_append.mp hp with hX | hY
    · exact ⟨p, by simp [hX], rfl⟩
    · rcases List.mem_cons.mp hY with rfl | hY
      · exact ⟨(lo, L), by simp, rfl⟩
      · exact ⟨p, by simp [hY], rfl⟩

/-! ### Labels that stand for two

While a leaf is cut, its label stands for the leaf and for the new one, which the index does not know yet. `expand`
writes both into the list, so that a cut can begin in the expansion and end in the index. -/

section Expand

variable (pend : α → Option (κ × α))

/-- The index in which every label with a pending cut is followed by its other half. -/
def expand (F : Index κ α) : Index κ α :=
  F.flatMap fun p =>
    match pend p.2 with
    | none => [p]
    | some (s, R) => [p, ((s : WithBot κ), R)]

variable {pend}

theorem expand_cons_none {p : WithBot κ × α} {F : Index κ α} (hp : pend p.2 = none) :
    expand pend (p :: F) = p :: expand pend F := by
  simp only [expand, List.flatMap_cons, hp]; rfl

theorem expand_cons_some {p : WithBot κ × α} {F : Index κ α} {s : κ} {R : α}
    (hp : pend p.2 = some (s, R)) :
    expand pend (p :: F) = p :: ((s : WithBot κ), R) :: expand pend F := by
  simp only [expand, List.flatMap_cons, hp]; rfl

theorem expand_append (F G : Index κ α) :
    expand pend (F ++ G) = expand pend F ++ expand pend G := List.flatMap_append

theorem mem_expand {F : Index κ α} {q : WithBot κ × α} :
    q ∈ expand pend F ↔
      q ∈ F ∨ ∃ p ∈ F, ∃ s R, pend p.2 = some (s, R) ∧ q = ((s : WithBot κ), R) := by
  simp only [expand, List.mem_flatMap]
  constructor
  · rintro ⟨p, hp, hq⟩
    split at hq
    · exact Or.inl (List.mem_singleton.mp hq ▸ hp)
    · next s R hpend =>
      rcases List.mem_cons.mp hq with rfl | hq
      · exact Or.inl hp
      · exact Or.inr ⟨p, hp, s, R, hpend, List.mem_singleton.mp hq⟩
  · rintro (hq | ⟨p, hp, s, R, hpend, rfl⟩)
    · refine ⟨q, hq, ?_⟩
      split <;> simp
    · exact ⟨p, hp, by rw [hpend]; simp⟩

theorem mem_expand_of_mem {F : Index κ α} {q : WithBot κ × α} (hq : q ∈ F) :
    q ∈ expand pend F := mem_expand.mpr (Or.inl hq)

theorem mem_labels_expand {F : Index κ α} {a : α} :
    a ∈ labels (expand pend F) ↔
      a ∈ labels F ∨ ∃ b ∈ labels F, ∃ s, pend b = some (s, a) := by
  simp only [labels, List.mem_map]
  constructor
  · rintro ⟨q, hq, rfl⟩
    rcases mem_expand.mp hq with hq | ⟨p, hp, s, R, hps, rfl⟩
    · exact Or.inl ⟨q, hq, rfl⟩
    · exact Or.inr ⟨p.2, ⟨p, hp, rfl⟩, s, hps⟩
  · rintro (⟨q, hq, rfl⟩ | ⟨b, ⟨p, hp, rfl⟩, s, hps⟩)
    · exact ⟨q, mem_expand_of_mem hq, rfl⟩
    · exact ⟨(↑s, a), mem_expand.mpr (Or.inr ⟨p, hp, s, a, hps, rfl⟩), rfl⟩

theorem expand_congr {pend' : α → Option (κ × α)} {F : Index κ α}
    (hsame : ∀ a ∈ labels F, pend' a = pend a) : expand pend' F = expand pend F := by
  induction F with
  | nil => rfl
  | cons p F ih =>
    have hp : pend' p.2 = pend p.2 := hsame p.2 (by simp [labels])
    have htail := ih fun a ha => hsame a (List.mem_cons_of_mem _ ha)
    cases hpend : pend p.2 with
    | none => rw [expand_cons_none hpend, expand_cons_none (hp.trans hpend), htail]
    | some c => rw [expand_cons_some hpend, expand_cons_some (hp.trans hpend), htail]

theorem expand_none {F : Index κ α} (hnone : ∀ a ∈ labels F, pend a = none) :
    expand pend F = F := by
  induction F with
  | nil => rfl
  | cons p F ih =>
    rw [expand_cons_none (hnone p.2 (by simp [labels])),
      ih fun a ha => hnone a (List.mem_cons_of_mem _ ha)]

theorem sublist_expand (F : Index κ α) : F.Sublist (expand pend F) := by
  induction F with
  | nil => exact List.Sublist.refl _
  | cons p F ih =>
    cases hpend : pend p.2 with
    | none => rw [expand_cons_none hpend]; exact ih.cons_cons p
    | some c => rw [expand_cons_some hpend]; exact (ih.cons _).cons_cons p

theorem nodup_of_expand {F : Index κ α} (h : (labels (expand pend F)).Nodup) :
    (labels F).Nodup := List.Nodup.sublist ((sublist_expand F).map _) h

theorem right_not_mem {F : Index κ α} (hnodup : (labels (expand pend F)).Nodup) {b R : α} {s : κ}
    (hb : b ∈ labels F) (hpend : pend b = some (s, R)) : R ∉ labels F := by
  obtain ⟨⟨lo, b'⟩, hmem, rfl⟩ := List.mem_map.mp hb
  obtain ⟨X, Y, rfl⟩ := List.append_of_mem hmem
  have hsub : ∀ G : Index κ α, ∀ a ∈ labels G, a ∈ labels (expand pend G) := fun G a ha =>
    ((sublist_expand G).map Prod.snd).subset ha
  rw [expand_append, expand_cons_some hpend] at hnodup
  simp only [labels, List.map_append, List.map_cons, List.nodup_append, List.nodup_cons,
    List.mem_cons, not_or] at hnodup
  obtain ⟨-, ⟨⟨hne, -⟩, hRY, -⟩, hcross⟩ := hnodup
  intro hR
  simp only [labels, List.map_append, List.map_cons, List.mem_append, List.mem_cons] at hR
  rcases hR with hX | rfl | hY
  · exact hcross R (hsub X R hX) R (Or.inr (Or.inl rfl)) rfl
  · exact hne rfl
  · exact hRY (hsub Y R hY)

variable [DecidableEq α]

private theorem expand_update_eq (pend : α → Option (κ × α)) {X Y : Index κ α} {lo : WithBot κ} {L : α}
    (hnodup : (labels (X ++ (lo, L) :: Y)).Nodup) (o : Option (κ × α)) :
    expand (Function.update pend L o) X = expand pend X ∧
      expand (Function.update pend L o) Y = expand pend Y := by
  simp only [labels, List.map_append, List.map_cons, List.nodup_append, List.nodup_cons] at hnodup
  obtain ⟨-, ⟨hnotY, -⟩, hcross⟩ := hnodup
  constructor
  · refine expand_congr fun a ha => Function.update_of_ne ?_ _ _
    exact hcross a ha L List.mem_cons_self
  · refine expand_congr fun a ha => Function.update_of_ne ?_ _ _
    rintro rfl
    exact hnotY ha

theorem insAfter_expand_update {F : Index κ α} {L R : α} {s : κ} (hL : L ∈ labels F)
    (hnodup : (labels F).Nodup) (hpend : pend L = none) :
    InsAfter L s R (expand pend F) (expand (Function.update pend L (some (s, R))) F) := by
  obtain ⟨⟨lo, L'⟩, hmem, rfl⟩ := List.mem_map.mp hL
  obtain ⟨X, Y, rfl⟩ := List.append_of_mem hmem
  obtain ⟨hX, hY⟩ := expand_update_eq pend hnodup (some (s, R))
  refine ⟨expand pend X, lo, expand pend Y, ?_, ?_⟩
  · rw [expand_append, expand_cons_none hpend]
  · rw [expand_append, expand_cons_some (Function.update_self _ _ _), hX, hY]

theorem expand_insAfter {F F' : Index κ α} {L R : α} {s : κ} (h : InsAfter L s R F F')
    (hnodup : (labels F).Nodup) (hpend : pend L = some (s, R)) (hR : pend R = none)
    (hLR : R ≠ L) : expand (Function.update pend L none) F' = expand pend F := by
  obtain ⟨X, lo, Y, rfl, rfl⟩ := h
  obtain ⟨hX, hY⟩ := expand_update_eq pend hnodup none
  have hL' : Function.update pend L none L = none := Function.update_self _ _ _
  have hR' : Function.update pend L none R = none := by
    rw [Function.update_of_ne hLR, hR]
  rw [expand_append, expand_append, hX, expand_cons_none (p := (lo, L)) hL',
    expand_cons_none (p := (↑s, R)) hR', hY, expand_cons_some hpend]

end Expand

/-! ### Sorted indexes -/

variable [LinearOrder κ]

def Sorted (F : Index κ α) : Prop := F.Pairwise fun p q => p.1 < q.1

/-- The key `k` lies in the range of the label `L`. -/
def Routes (F : Index κ α) (k : κ) (L : α) : Prop :=
  ∃ lo, (lo, L) ∈ F ∧ lo < k ∧ ∀ p ∈ F, lo < p.1 → (k : WithBot κ) ≤ p.1

theorem Sorted.lt_of_before {X Y : Index κ α} {p q : WithBot κ × α}
    (hF : Sorted (X ++ p :: Y)) (hq : q ∈ X) : q.1 < p.1 :=
  (List.pairwise_append.mp hF).2.2 q hq p List.mem_cons_self

theorem Sorted.lt_of_after {X Y : Index κ α} {p q : WithBot κ × α}
    (hF : Sorted (X ++ p :: Y)) (hq : q ∈ Y) : p.1 < q.1 :=
  (List.pairwise_cons.mp (List.pairwise_append.mp hF).2.1).1 q hq

theorem Sorted.of_expand {pend : α → Option (κ × α)} {F : Index κ α}
    (h : Sorted (expand pend F)) : Sorted F :=
  List.Pairwise.sublist (sublist_expand F) h

theorem Sorted.bound_injective {F : Index κ α} (hF : Sorted F) {p q : WithBot κ × α}
    (hp : p ∈ F) (hq : q ∈ F) (h : p.1 = q.1) : p = q := by
  obtain ⟨X, Y, rfl⟩ := List.append_of_mem hp
  rcases List.mem_append.mp hq with hX | hY
  · exact absurd h (hF.lt_of_before hX).ne'
  · rcases List.mem_cons.mp hY with rfl | hY
    · rfl
    · exact absurd h (hF.lt_of_after hY).ne

theorem Routes.mem {F : Index κ α} {k : κ} {L : α} (h : Routes F k L) : L ∈ labels F := by
  obtain ⟨lo, hmem, -, -⟩ := h
  exact List.mem_map.mpr ⟨_, hmem, rfl⟩

theorem Routes.unique {F : Index κ α} (hF : Sorted F) {k : κ} {L L' : α}
    (h : Routes F k L) (h' : Routes F k L') : L = L' := by
  obtain ⟨lo, hmem, hlo, hnext⟩ := h
  obtain ⟨lo', hmem', hlo', hnext'⟩ := h'
  rcases lt_trichotomy lo lo' with hlt | heq | hgt
  · exact absurd (hnext _ hmem' hlt) (not_le.mpr hlo')
  · exact congrArg Prod.snd (hF.bound_injective hmem hmem' heq)
  · exact absurd (hnext' _ hmem hgt) (not_le.mpr hlo)

theorem routes_of_split {F X Y : Index κ α} {lo : WithBot κ} {L : α} {k : κ}
    (hF : Sorted F) (hsplit : F = X ++ (lo, L) :: Y) (hlo : lo < k)
    (hnext : ∀ y ∈ Y, (k : WithBot κ) ≤ y.1) : Routes F k L := by
  subst hsplit
  refine ⟨lo, by simp, hlo, ?_⟩
  intro p hp hlt
  rcases List.mem_append.mp hp with hX | hcons
  · exact absurd (hF.lt_of_before hX) (not_lt.mpr hlt.le)
  · rcases List.mem_cons.mp hcons with rfl | hY
    · exact absurd hlt (lt_irrefl _)
    · exact hnext p hY

omit [LinearOrder κ] in
theorem bound_eq {F : Index κ α} (hnodup : (labels F).Nodup) {lo lo' : WithBot κ} {L : α}
    (h : (lo, L) ∈ F) (h' : (lo', L) ∈ F) : lo = lo' :=
  congrArg Prod.fst (List.inj_on_of_nodup_map hnodup h h' rfl)

theorem Routes.between {X Y : Index κ α} {lo : WithBot κ} {L : α} {k : κ}
    (hF : Sorted (X ++ (lo, L) :: Y)) (hnodup : (labels (X ++ (lo, L) :: Y)).Nodup)
    (h : Routes (X ++ (lo, L) :: Y) k L) : lo < k ∧ ∀ y ∈ Y, (k : WithBot κ) ≤ y.1 := by
  obtain ⟨lo', hmem, hlo, hnext⟩ := h
  have hL : (lo, L) ∈ X ++ (lo, L) :: Y := by simp
  obtain rfl := bound_eq hnodup hmem hL
  exact ⟨hlo, fun y hy => hnext y (by simp [hy]) (hF.lt_of_after hy)⟩

theorem Sorted.exists_routes {F : Index κ α} (hF : Sorted F) {L : α} (hL : L ∈ labels F) {last : κ}
    (hlast : ∀ p ∈ F, p.1 < (last : WithBot κ)) : ∃ k, Routes F k L := by
  obtain ⟨⟨lo, L'⟩, hmem, rfl⟩ := List.mem_map.mp hL
  obtain ⟨X, Y, rfl⟩ := List.append_of_mem hmem
  cases Y with
  | nil => exact ⟨last, routes_of_split hF rfl (hlast _ hmem) (by simp)⟩
  | cons y Y =>
    have hlt := hF.lt_of_after (q := y) List.mem_cons_self
    obtain ⟨k, hk⟩ := WithBot.ne_bot_iff_exists.mp (ne_bot_of_gt hlt)
    refine ⟨k, routes_of_split hF rfl (hk ▸ hlt) fun q hq => ?_⟩
    rcases List.mem_cons.mp hq with rfl | hq
    · exact hk.le
    · have htail := (List.pairwise_cons.mp (List.pairwise_append.mp hF).2.1).2
      exact hk.le.trans ((List.pairwise_cons.mp htail).1 q hq).le

theorem Sorted.routes_lt {F : Index κ α} (h : Sorted F) (hnodup : (labels F).Nodup) :
    (labels F).Pairwise fun a b => ∀ k k', Routes F k a → Routes F k' b → k < k' := by
  refine List.pairwise_map.mpr (List.Pairwise.imp_of_mem ?_ h)
  rintro x y hx hy hxy k k' ⟨lo, hlo, -, hnext⟩ ⟨lo', hlo', hlt, -⟩
  obtain rfl := bound_eq hnodup hlo (L := x.2) hx
  obtain rfl := bound_eq hnodup hlo' (L := y.2) hy
  -- the bound of `y` lies between the two keys
  exact WithBot.coe_lt_coe.mp ((hnext y hy hxy).trans_lt hlt)

theorem Routes.ordered [DecidableEq α] {F : Index κ α} (hF : Sorted F) (hnodup : (labels F).Nodup)
    {k k' : κ} {L L' : α} (h : Routes F k L) (h' : Routes F k' L') (hle : k ≤ k') :
    (labels F).idxOf L ≤ (labels F).idxOf L' := by
  obtain ⟨lo, hmem, hlo, hnext⟩ := h
  obtain ⟨lo', hmem', hlo', hnext'⟩ := h'
  obtain ⟨X, Y, rfl⟩ := List.append_of_mem hmem'
  have hafter : (lo, L) ∉ Y := by
    intro hY
    have hup := hnext' (lo, L) hmem (hF.lt_of_after hY)
    exact absurd (hup.trans_lt hlo) (not_lt.mpr (WithBot.coe_le_coe.mpr hle))
  have hX' : L' ∉ labels X := by
    intro hX
    simp only [labels, List.map_append, List.map_cons] at hnodup
    exact (List.nodup_append.mp hnodup).2.2 L' hX L' List.mem_cons_self rfl
  rcases List.mem_append.mp hmem with hX | hrest
  · have hin : L ∈ labels X := List.mem_map.mpr ⟨_, hX, rfl⟩
    simp only [labels, List.map_append, List.map_cons] at hin hX' ⊢
    rw [List.idxOf_append_of_mem hin, List.idxOf_append_of_notMem hX']
    exact (List.idxOf_lt_length_of_mem hin).le.trans (Nat.le_add_right _ _)
  · rcases List.mem_cons.mp hrest with heq | hY
    · rw [(Prod.mk.inj heq).2]
    · exact absurd hY hafter

/-- A bound strictly inside the range of `L` keeps the index sorted. -/
theorem InsAfter.sorted {L R : α} {s : κ} {F F' : Index κ α} (h : InsAfter L s R F F')
    (hF : Sorted F) (hnodup : (labels F).Nodup)
    (hs : ∃ lo, (lo, L) ∈ F ∧ lo < (s : WithBot κ) ∧
      ∀ p ∈ F, lo < p.1 → (s : WithBot κ) < p.1) : Sorted F' := by
  obtain ⟨X, lo, Y, rfl, rfl⟩ := h
  obtain ⟨lo', hmem, hlo, hnext⟩ := hs
  have hL : (lo, L) ∈ X ++ (lo, L) :: Y := by simp
  obtain rfl := bound_eq hnodup hmem hL
  obtain ⟨hX, hLY, hcross⟩ := List.pairwise_append.mp hF
  obtain ⟨hLlt, hY⟩ := List.pairwise_cons.mp hLY
  refine List.pairwise_append.mpr ⟨hX, ?_, ?_⟩
  · refine List.pairwise_cons.mpr ⟨?_, List.pairwise_cons.mpr ⟨?_, hY⟩⟩
    · intro q hq
      rcases List.mem_cons.mp hq with rfl | hq
      · exact hlo
      · exact hLlt q hq
    · intro q hq
      exact hnext q (by simp [hq]) (hLlt q hq)
  · intro p hp q hq
    rcases List.mem_cons.mp hq with rfl | hq
    · exact hcross p hp _ List.mem_cons_self
    · rcases List.mem_cons.mp hq with rfl | hq
      · exact (hcross p hp (lo', L) List.mem_cons_self).trans hlo
      · exact hcross p hp q (List.mem_cons_of_mem _ hq)

/-- Keys that reach another label than the one that is cut still reach it. -/
theorem InsAfter.routes {L R : α} {s : κ} {F F' : Index κ α} (h : InsAfter L s R F F')
    (hF' : Sorted F') {k : κ} {M : α} (hM : Routes F k M) (hne : M ≠ L) : Routes F' k M := by
  obtain ⟨lo, hmem, hlo, hnext⟩ := hM
  obtain ⟨X, lo₁, Y, rfl, rfl⟩ := h
  refine ⟨lo, ?_, hlo, ?_⟩
  · simp only [List.mem_append, List.mem_cons] at hmem ⊢
    tauto
  · intro p hp hlt
    simp only [List.mem_append, List.mem_cons] at hp
    rcases hp with hp | rfl | rfl | hp
    · exact hnext p (by simp [hp]) hlt
    · exact hnext _ (by simp) hlt
    · -- the new bound lies above that of `L`, and `M` lies on one side of `L`
      have hcut : lo₁ < (s : WithBot κ) :=
        Sorted.lt_of_after hF' (q := ((s : WithBot κ), R)) List.mem_cons_self
      by_cases hside : lo < lo₁
      · exact (hnext (lo₁, L) (by simp) hside).trans hcut.le
      · simp only [List.mem_append, List.mem_cons] at hmem
        rcases hmem with hX | heq | hY
        · exact absurd (Sorted.lt_of_before hF' hX) hside
        · exact absurd (congrArg Prod.snd heq) hne
        · rw [List.append_cons] at hF'
          exact absurd hlt (not_lt.mpr (Sorted.lt_of_after hF' hY).le)
    · exact hnext p (by simp [hp]) hlt

theorem InsAfter.routes_cut {L R : α} {s : κ} {F F' : Index κ α} (h : InsAfter L s R F F')
    (hF : Sorted F) (hF' : Sorted F') (hnodup : (labels F).Nodup) {k : κ} (hL : Routes F k L) :
    if k ≤ s then Routes F' k L else Routes F' k R := by
  obtain ⟨X, lo, Y, rfl, rfl⟩ := h
  obtain ⟨hlo, hnext⟩ := hL.between hF hnodup
  split_ifs with hks
  · refine routes_of_split hF' rfl hlo ?_
    intro y hy
    rcases List.mem_cons.mp hy with rfl | hy
    · exact WithBot.coe_le_coe.mpr hks
    · exact hnext y hy
  · exact routes_of_split (X := X ++ [(lo, L)]) hF' (by simp)
      (WithBot.coe_lt_coe.mpr (not_le.mp hks)) hnext

/-- A key that reaches a label without a pending cut reaches it in the expansion too. -/
theorem Routes.expand {pend : α → Option (κ × α)} {F : Index κ α}
    (hF : Sorted (expand pend F)) {k : κ} {L : α} (h : Routes F k L) (hpend : pend L = none) :
    Routes (RangeIndex.expand pend F) k L := by
  obtain ⟨lo, hmem, hlo, hnext⟩ := h
  refine ⟨lo, mem_expand_of_mem hmem, hlo, ?_⟩
  intro q hq hlt
  rcases mem_expand.mp hq with hq | ⟨p, hp, s, R, hps, rfl⟩
  · exact hnext q hq hlt
  · -- the other half of `p` comes right after `p`, before all later bounds
    obtain ⟨X, Y, rfl⟩ := List.append_of_mem hp
    have hsorted := hF.of_expand
    rw [expand_append, expand_cons_some hps] at hF
    have hcut : p.1 < (s : WithBot κ) :=
      hF.lt_of_after (q := ((s : WithBot κ), R)) List.mem_cons_self
    rcases List.mem_append.mp hmem with hX | hcons
    · exact (hnext p hp (hsorted.lt_of_before hX)).trans hcut.le
    · rcases List.mem_cons.mp hcons with rfl | hY
      · rw [hpend] at hps
        exact absurd hps (by simp)
      · rw [List.append_cons] at hF
        exact absurd hlt (not_lt.mpr (hF.lt_of_after (mem_expand_of_mem hY)).le)

theorem Routes.expand_cut [DecidableEq α] {pend : α → Option (κ × α)} {F : Index κ α}
    (hF : Sorted (RangeIndex.expand pend F)) (hnodup : (labels (RangeIndex.expand pend F)).Nodup)
    {k s : κ} {L R : α} (h : Routes F k L) (hpend : pend L = some (s, R)) :
    if k ≤ s then Routes (RangeIndex.expand pend F) k L
    else Routes (RangeIndex.expand pend F) k R := by
  have hback : Function.update (Function.update pend L none) L (some (s, R)) = pend := by
    rw [Function.update_idem, ← hpend, Function.update_eq_self]
  have hnone : Function.update pend L none L = none := Function.update_self ..
  have hins := insAfter_expand_update (s := s) (R := R) h.mem (nodup_of_expand hnodup) hnone
  rw [hback] at hins
  obtain ⟨X, lo, Y, hX, hX'⟩ := id hins
  have hsub : (RangeIndex.expand (Function.update pend L none) F).Sublist
      (RangeIndex.expand pend F) := by
    rw [hX, hX']
    exact (List.Sublist.refl X).append ((List.sublist_cons_self _ _).cons_cons _)
  have hF₀ : Sorted (RangeIndex.expand (Function.update pend L none) F) :=
    List.Pairwise.sublist hsub hF
  have hnodup₀ := List.Nodup.sublist (hsub.map Prod.snd) hnodup
  exact hins.routes_cut hF₀ hF hnodup₀ (h.expand hF₀ hnone)

theorem Removes.sorted {L : α} {F F' : Index κ α} (h : Removes L F F') (hF : Sorted F) : Sorted F' := by
  rcases h with ⟨X, lo, Y, -, rfl, rfl⟩ | ⟨X, lo, next, M, Y, rfl, rfl⟩
  · apply List.Pairwise.sublist _ hF
    exact (List.sublist_cons_self _ _).append_left X
  · have hbounds : List.Pairwise (· < ·) ((X ++ (lo, L) :: (next, M) :: Y).map Prod.fst) :=
      List.pairwise_map.mpr hF
    have hsub : ((X ++ (lo, M) :: Y).map Prod.fst).Sublist
        ((X ++ (lo, L) :: (next, M) :: Y).map Prod.fst) := by
      simp only [List.map_append, List.map_cons]
      exact ((List.sublist_cons_self _ _).cons_cons lo).append_left _
    exact List.pairwise_map.mp (hbounds.sublist hsub)

/-- The other labels keep their keys. -/
theorem Removes.routes {L M : α} {F F' : Index κ α} (h : Removes L F F') (hF : Sorted F)
    {k : κ} (hM : Routes F k M) (hne : M ≠ L) : Routes F' k M := by
  obtain ⟨lo', hmem, hlo', hnext⟩ := hM
  rcases h with ⟨X, lo, Y, -, rfl, rfl⟩ | ⟨X, lo, up, N, Y, rfl, rfl⟩
  · refine ⟨lo', ?_, hlo', fun p hp hlt => hnext p ?_ hlt⟩
    · simpa [hne] using hmem
    · rcases List.mem_append.mp hp with hX | hY
      · simp [hX]
      · simp [hY]
  · have hother : ∀ p ∈ X ++ (lo, N) :: Y, lo' < p.1 → (k : WithBot κ) ≤ p.1 := by
      intro p hp hlt
      rcases List.mem_append.mp hp with hX | hY
      · exact hnext p (by simp [hX]) hlt
      · rcases List.mem_cons.mp hY with rfl | hY
        · exact hnext (lo, L) (by simp) hlt
        · exact hnext p (by simp [hY]) hlt
    rcases List.mem_append.mp hmem with hX | hrest
    · exact ⟨lo', by simp [hX], hlo', hother⟩
    · rcases List.mem_cons.mp hrest with heq | hrest
      · exact absurd (congrArg Prod.snd heq) hne
      · rcases List.mem_cons.mp hrest with heq | hY
        · -- the label after `L` takes over the bound of `L`
          obtain ⟨rfl, rfl⟩ := Prod.mk.inj heq
          have hlt : lo < lo' := hF.lt_of_after (p := (lo, L)) List.mem_cons_self
          refine ⟨lo, by simp, hlt.trans hlo', fun p hp hlop => ?_⟩
          have hnd : Sorted (X ++ (lo, M) :: Y) :=
            Removes.sorted (Or.inr ⟨X, lo, lo', M, Y, rfl, rfl⟩) hF
          rcases List.mem_append.mp hp with hX | hp
          · exact absurd (hnd.lt_of_before hX) (not_lt.mpr hlop.le)
          · rcases List.mem_cons.mp hp with rfl | hY
            · exact absurd hlop (lt_irrefl _)
            · refine hnext p (by simp [hY]) ?_
              have htail := (List.pairwise_cons.mp (List.pairwise_append.mp hF).2.1).2
              exact (List.pairwise_cons.mp htail).1 p hY
        · exact ⟨lo', by simp [hY], hlo', hother⟩

end ZBTree.RangeIndex
