import ZBTree.FillBounds
import ZBTree.PmemRuns
import ZBTree.SplitBins
import ZBTree.Threads

/-!
# What a schedule asks of the memory

A thread that waits for a leaf asks for nothing, so the memory that is enough for a schedule depends
on the keys that are inserted and not on the length of the schedule: each key takes one record, and
each `P_Leaf` but the first stands for fifteen of them.
-/

namespace ZBTree

open RangeIndex Pmem LawfulPmem

variable {P : Type}

def TreeState.sizes (s : TreeState P) (a : Addr) : Option Nat := (s.dleafHeap a).map DLeaf.maxUse

/-- How many sections a call still needs when no leaf is full. -/
def Pc.rank : Pc → Nat
  | searching _ => 2
  | locked _ _ => 1
  | splitting _ _ _ _ _ => 3

def Outcome.rank : Outcome → Nat
  | goto pc => pc.rank
  | ret _ => 0

/-- What a section does to the sizes of the leaves, and how far it brings the call. -/
inductive SizeStep (s s' : TreeState P) : Pc → Outcome → Prop
  | keep {pc pc' : Pc} (hrank : pc'.rank < pc.rank ∨ pc' = pc ∧ s' = s) (hpm : s'.pm = s.pm)
      (hsizes : s'.sizes = s.sizes) : SizeStep s s' pc (.goto pc')
  | fill {pc : Pc} {L : Addr} {u : Nat} (hrank : 0 < pc.rank) (hL : s.sizes L = some u)
      (hsizes : s'.sizes = Function.update s.sizes L (some (u + 1))) : SizeStep s s' pc (.ret true)
  | split {pc pc' : Pc} {L R : Addr} (hrank : pc'.rank ≤ pc.rank + 2) (hL : s.sizes L = some MAX_LEAF_KEY)
      (hR : s.sizes R = none)
      (hsizes : s'.sizes = Function.update (Function.update s.sizes R (some LEFT_KEY)) L (some LEFT_KEY)) :
      SizeStep s s' pc (.goto pc')

section Sizes

variable {s s' : TreeState P} {a : Addr} {m m' : DLeaf}

theorem sizes_of_heap (h : s'.dleafHeap = Function.update s.dleafHeap a (some m')) :
    s'.sizes = Function.update s.sizes a (some m'.maxUse) := by
  funext b
  unfold TreeState.sizes
  rw [h]
  by_cases hb : b = a
  · subst hb
    simp
  · simp [Function.update_of_ne hb]

theorem setLeaf_sizes (s : TreeState P) (a : Addr) (m' : DLeaf) :
    (s.setLeaf a m').sizes = Function.update s.sizes a (some m'.maxUse) :=
  sizes_of_heap rfl

theorem sizes_same (hm : s.dleafHeap a = some m) (h : s'.dleafHeap = Function.update s.dleafHeap a (some m'))
    (huse : m'.maxUse = m.maxUse) : s'.sizes = s.sizes := by
  have hsize : s.sizes a = some m.maxUse := by rw [TreeState.sizes, hm, Option.map_some]
  rw [sizes_of_heap h, huse, ← hsize, Function.update_eq_self]

variable {t : Tid} {key : Key} {leaf : Addr} {o : Outcome} {pc : Pc}

theorem lockLeaf_sizes {b : Bool} (h : lockLeaf s key = .ok (b, leaf, s')) :
    s'.pm = s.pm ∧ s'.sizes = s.sizes ∧ (b = false → s' = s) := by
  obtain ⟨path, m, -, hm, ⟨rfl, -, rfl⟩ | ⟨-, -, rfl⟩⟩ := lockLeaf_cases h
  · exact ⟨rfl, sizes_same hm rfl rfl, fun hb => absurd hb (by simp)⟩
  · exact ⟨rfl, rfl, fun _ => rfl⟩

theorem installSeparator_sizes {splitKey : Key} {leaf₂ insertLeaf : Addr}
    (h : installSeparator s key splitKey leaf leaf₂ insertLeaf = .ok s') : s'.pm = s.pm ∧ s'.sizes = s.sizes := by
  obtain ⟨s₁, m, hinner, hm, rfl⟩ := installSeparator_eq h
  have hm₁ : s₁.dleafHeap leaf = some m := hinner.leaves ▸ hm
  have hsame : s₁.sizes = s.sizes := by
    unfold TreeState.sizes
    rw [hinner.leaves]
  have hwrite : (s₁.setLeaf leaf { m with tempInsert := 0, altPtr := insertLeaf }).sizes = s₁.sizes :=
    sizes_same hm₁ rfl rfl
  exact ⟨hinner.pm, hwrite.trans hsame⟩

theorem splitState_sizes {fingers : Nat → AdaptiveSlot} {keys : Nat → NodeEntry} {q : Addr} {pm : P}
    (hlt : leaf < s.brk) :
    (splitState s leaf m fingers keys q pm).sizes =
      Function.update (Function.update s.sizes (s.brk + 1) (some LEFT_KEY)) leaf (some LEFT_KEY) := by
  obtain ⟨hleft, hright, hoff⟩ := splitState_heap m fingers keys q pm hlt
  funext b
  unfold TreeState.sizes
  by_cases hb : b = leaf
  · subst hb
    rw [hleft, Function.update_self, Option.map_some, DLeaf.leftHalf_maxUse]
  · by_cases hb' : b = s.brk + 1
    · subst hb'
      rw [hright, Function.update_of_ne hb, Function.update_self, Option.map_some, DLeaf.rightHalf_maxUse]
      rfl
    · rw [hoff b hb hb', Function.update_of_ne hb, Function.update_of_ne hb']

/-- A section of `insert` that does not find its key. -/
theorem insertSection_sizes [Pmem P] (hlt : ∀ a m, s.dleafHeap a = some m → a < s.brk ∧ m.maxUse ≤ MAX_LEAF_KEY)
    (h : insertSection s t pc = .ok (o, s')) (hdone : o ≠ .ret false) : SizeStep s s' pc o := by
  cases pc with
  | searching r =>
    obtain ⟨⟨lockState, leaf, s₁⟩, hlock, h⟩ := bind_eq_ok.mp h
    obtain ⟨hpm, hsizes, hwait⟩ := lockLeaf_sizes hlock
    dsimp only at h
    split_ifs at h with hfree
    · cases h
      exact .keep (Or.inl (Nat.lt_succ_self 1)) hpm hsizes
    · cases h
      exact .keep (Or.inr ⟨rfl, hwait (Bool.eq_false_iff.mpr hfree)⟩) hpm hsizes
  | locked r leaf =>
    unfold insertSection at h
    simp only [bind_eq_ok, deref_eq_ok] at h
    obtain ⟨m, hm, dup, -, h⟩ := h
    have hsize : s.sizes leaf = some m.maxUse := by rw [TreeState.sizes, hm, Option.map_some]
    split_ifs at h with hdup hroom
    · cases h
      exact absurd rfl hdone
    · obtain ⟨s₂, hfill, h⟩ := bind_eq_ok.mp h
      cases h
      obtain ⟨m₀, m', hwrite, huse⟩ := fillSlot_write hfill
      obtain rfl := Option.some.inj (hm.symm.trans hwrite.leaf)
      exact .fill Nat.one_pos hsize (by rw [sizes_of_heap hwrite.heap, huse])
    · obtain ⟨⟨leaf₂, splitKey, insertLeaf, s₂⟩, hsplit, h⟩ := bind_eq_ok.mp h
      cases h
      obtain ⟨m₀, buf, keys, fingers, q, pm, pm', hm₀, -, -, -, -, hr⟩ := splitFull_eq_ok.mp hsplit
      cases hr
      obtain ⟨hleaf, hle⟩ := hlt leaf m hm
      have hfull : m.maxUse = MAX_LEAF_KEY := Nat.le_antisymm hle (Nat.le_of_not_lt hroom)
      have hfresh : s.sizes (s.brk + 1) = none := by
        cases hnew : s.dleafHeap (s.brk + 1) with
        | none => rw [TreeState.sizes, hnew, Option.map_none]
        | some n => exact absurd (hlt _ n hnew).1 (Nat.not_lt.mpr (Nat.le_succ _))
      exact .split (Nat.le_refl 3) (hfull ▸ hsize) hfresh (splitState_sizes hleaf)
  | splitting r leaf leaf₂ splitKey insertLeaf =>
    obtain ⟨s₁, hinstall, h⟩ := bind_eq_ok.mp h
    cases h
    obtain ⟨hpm, hsizes⟩ := installSeparator_sizes hinstall
    exact .keep (Or.inl (Nat.lt_succ_self 2)) hpm hsizes

end Sizes

/-! ### What the threads have used

What is left to do is bounded from the start: a call needs a few sections when its leaf has room, and a leaf is
split only once it has 30 keys, so that the number of keys bounds the number of splits. -/

variable [Pmem P] [LawfulPmem P]

theorem Inv.leaf_bounds {cuts : Cuts} {tail : Addr} {s : TreeState P} (h : Inv cuts tail s) {a : Addr} {m : DLeaf}
    (hm : s.dleafHeap a = some m) : a < s.brk ∧ m.maxUse ≤ MAX_LEAF_KEY :=
  ⟨(h.skel.leaf_lt a ((h.skel.heap a).mp ⟨m, hm⟩)).2, (h.skel.leaf a m hm).1⟩

/-- The threads, with room for `n` more of the `b` records and leaves that there has been room for. `K`
are the keys that they are ever asked for, and `A` is where the leaves are. -/
structure Crew (K : Finset Key) (b : Nat) (cuts : Cuts) (tail : Addr) (A : Finset Addr) (n : Nat) (c : Config P) :
    Prop where
  threads : Threads cuts tail n c
  exact : c.Exact
  fresh : PairsFresh c.tree
  bins : Bins LEFT_KEY c.tree.sizes A c.returned.length
  called : ∀ t pc, c.pc t = some pc → pc.request.key ∈ K
  kept : ∀ x ∈ c.returned, x.1.key ∈ K
  nodup : (c.returned.map fun x => x.1.key).Nodup
  budget : n + c.returned.length + (A.card - 1) = b
  enough : K.card + K.card / LEFT_KEY < b

variable {K : Finset Key} {cuts cuts' : Cuts} {tail L : Addr} {A : Finset Addr} {b n : Nat} {c : Config P} {t : Tid}
  {pc : Pc} {o : Outcome} {s s' : TreeState P}

theorem Crew.returned_le (h : Crew K b cuts tail A n c) : c.returned.length ≤ K.card := by
  rw [← List.length_map (f := fun x : Request × Bool => x.1.key), ← List.toFinset_card_of_nodup h.nodup]
  refine Finset.card_le_card fun k hk => ?_
  obtain ⟨x, hx, rfl⟩ := List.mem_map.mp (List.mem_toFinset.mp hk)
  exact h.kept x hx

theorem Crew.leaves_le (h : Crew K b cuts tail A n c) : A.card - 1 ≤ K.card / LEFT_KEY :=
  (h.bins.splits_le (by decide)).trans (Nat.div_le_div_right (c := LEFT_KEY) h.returned_le)

theorem Crew.left (h : Crew K b cuts tail A n c) : b ≤ n + (K.card + K.card / LEFT_KEY) := by
  have hreturned := h.returned_le
  have hleaves := h.leaves_le
  rw [← h.budget]
  omega

theorem Crew.room (h : Crew K b cuts tail A n c) : ∃ n', n = n' + 1 := by
  have hleft := h.left
  have henough := h.enough
  exact Nat.exists_eq_succ_of_ne_zero (by omega)

theorem Crew.called_after (h : Crew K b cuts tail A (n + 1) c) (hpc : c.pc t = some pc)
    (hadv : Advanced tail n pc L cuts c.tree o cuts' s') {t' : Tid} {pc' : Pc}
    (hpc' : (c.after t pc o s').pc t' = some pc') : pc'.request.key ∈ K := by
  rcases Config.after_pc hpc' with ⟨-, ho⟩ | ⟨-, hold⟩
  · rw [(hadv.goto pc' ho).2.1]
    exact h.called t pc hpc
  · exact h.called t' pc' hold

def splitsLeft (K : Finset Key) (A : Finset Addr) : Nat := K.card / LEFT_KEY - (A.card - 1)

/-- A section of one thread brings its call nearer to its end, or leaves everything as it is. -/
theorem Crew.advance (h : Crew K b cuts tail A (n + 1) c) (hpc : c.pc t = some pc)
    (hadv : Advanced tail n pc L cuts c.tree o cuts' s') (hsize : SizeStep c.tree s' pc o) :
    ∃ A' n', Crew K b cuts' tail A' n' (c.after t pc o s') ∧
      (o.rank + 3 * splitsLeft K A' < pc.rank + 3 * splitsLeft K A ∨ o = .goto pc ∧ s' = c.tree) := by
  have hthreads := h.threads.advance hpc hadv
  have hexact : (c.after t pc o s').Exact := h.exact.advance hadv
  have hfresh : PairsFresh s' := hadv.grows.fresh h.fresh
  have hcalled : ∀ t' pc', (c.after t pc o s').pc t' = some pc' → pc'.request.key ∈ K := fun t' pc' hpc' =>
    h.called_after hpc hadv hpc'
  have hbudget := h.budget
  cases hsize with
  | @keep pc' hrank hpm hsizes =>
    -- nothing has been asked of the memory
    have hroom : Ok (n + 1) (c.after t pc (.goto pc') s').tree.pm := hpm.symm ▸ h.threads.room
    refine ⟨A, n + 1, ⟨{ hthreads with room := hroom }, hexact, hfresh, hsizes ▸ h.bins, hcalled, h.kept, h.nodup,
      hbudget, h.enough⟩, ?_⟩
    rcases hrank with hless | ⟨rfl, hsame⟩
    · exact Or.inl (Nat.add_lt_add_right hless _)
    · exact Or.inr ⟨rfl, hsame⟩
  | fill hrank hL hsizes =>
    have hbins := h.bins.put hL
    rw [← hsizes] at hbins
    refine ⟨A, n, ⟨hthreads, hexact, hfresh, hbins, hcalled, ?_, ?_, ?_, h.enough⟩, Or.inl (Nat.add_lt_add_right hrank _)⟩
    · intro x hx
      rcases List.mem_cons.mp hx with rfl | hx
      · exact h.called t pc hpc
      · exact h.kept x hx
    · -- the key is new among those that have returned
      refine List.nodup_cons.mpr ⟨fun hmem => ?_, h.nodup⟩
      obtain ⟨x, hx, hkey⟩ := List.mem_map.mp hmem
      have hdone := h.exact.returned x hx
      have hin : (x.1, true) ∈ c.returned := hdone ▸ hx
      exact h.threads.absent t pc x.1.val hpc ((h.exact.content _ _).mpr ⟨x.1, hin, hkey, rfl⟩)
    · change n + (c.returned.length + 1) + (A.card - 1) = b
      omega
  | @split pc' L R hrank hL hR hsizes =>
    have hbins := h.bins.split hL hR
    rw [← hsizes] at hbins
    -- the new leaf is one more to be filled, and one split less is left
    have hnew : R ∉ A := fun hmem => by
      have hsome := (h.bins.support R).mpr hmem
      rw [hR] at hsome
      exact absurd hsome (by simp)
    have hpos : 0 < A.card := Finset.card_pos.mpr ⟨L, h.bins.mem hL⟩
    have hcard : (Insert.insert R A).card = A.card + 1 := Finset.card_insert_of_notMem hnew
    have hcrew : Crew K b cuts' tail (Insert.insert R A) n (c.after t pc (.goto pc') s') := by
      refine ⟨hthreads, hexact, hfresh, hbins, hcalled, h.kept, h.nodup, ?_, h.enough⟩
      change n + c.returned.length + ((Insert.insert R A).card - 1) = b
      rw [hcard]
      omega
    refine ⟨_, n, hcrew, Or.inl ?_⟩
    have hleaves := hcrew.leaves_le
    change pc'.rank + _ < _
    unfold splitsLeft
    omega

theorem Crew.call (h : Crew K b cuts tail A n c) (hidle : c.pc t = none) {r : Request} (hnew : c.Unused r.key)
    (hmem : r.key ∈ K) : Crew K b cuts tail A n (c.enter t r) := by
  obtain ⟨n', rfl⟩ := h.room
  have hthreads := h.threads.call hidle hnew
  refine ⟨{ hthreads with room := h.threads.room }, ⟨h.exact.content, h.exact.returned⟩, h.fresh, h.bins, ?_,
    h.kept, h.nodup, h.budget, h.enough⟩
  intro t' pc' hpc'
  rcases Config.enter_pc hpc' with ⟨-, rfl⟩ | ⟨-, hold⟩
  · exact hmem
  · exact h.called t' pc' hold

/-! ### Runs of insertions -/

omit [Pmem P] [LawfulPmem P] in
theorem Config.after_wait (hpc : c.pc t = some pc) : c.after t pc (.goto pc) c.tree = c := by
  unfold Config.after Outcome.pc
  dsimp only
  rw [← hpc, Function.update_eq_self]
  rfl

theorem Crew.section (h : Crew K b cuts tail A n c) (hpc : c.pc t = some pc) :
    ∃ cuts' A' n' o s', c.step (.run t) = .ok (c.after t pc o s') ∧ Crew K b cuts' tail A' n' (c.after t pc o s') ∧
      (o.rank + 3 * splitsLeft K A' < pc.rank + 3 * splitsLeft K A ∨ o = .goto pc ∧ s' = c.tree) := by
  obtain ⟨n, rfl⟩ := h.room
  have hnew : Absent c.tree pc.request.key :=
    (absent_iff h.threads.inv.data.slots).mpr fun v => h.threads.absent t pc v hpc
  rcases insertSection_spec h.threads.inv h.threads.room t (h.threads.pcs t pc hpc) hnew with
    ⟨hleaf, hwait⟩ | ⟨L, o, cuts', s', hrun, hadv⟩
  · refine ⟨cuts, A, n + 1, .goto pc, c.tree, ?_, (Config.after_wait hpc).symm ▸ h, Or.inr ⟨rfl, rfl⟩⟩
    simp only [Config.step, hpc, hwait, ok_bind, pure_eq_ok]
    rfl
  · have hdone : o ≠ .ret false := by
      rcases hadv.content with ⟨⟨pc', rfl⟩, -⟩ | ⟨rfl, -⟩ <;> simp
    have hsize := insertSection_sizes (fun a m hm => h.threads.inv.leaf_bounds hm) hrun hdone
    obtain ⟨A', n', hcrew, hrank⟩ := h.advance hpc hadv hsize
    refine ⟨cuts', A', n', o, s', ?_, hcrew, hrank⟩
    simp only [Config.step, hpc, hrun, ok_bind, pure_eq_ok]
    rfl

theorem Crew.step (h : Crew K b cuts tail A n c) (e : Event) (hnew : ∀ k ∈ calledKeys [e], c.Unused k)
    (hmem : ∀ k ∈ calledKeys [e], k ∈ K) :
    ∃ cuts' A' n' c', c.step e = .ok c' ∧ Crew K b cuts' tail A' n' c' ∧
      ∀ k, k ∉ calledKeys [e] → c.Unused k → c'.Unused k := by
  obtain ⟨cuts', A', n', c', hstep, hcrew⟩ : ∃ cuts' A' n' c', c.step e = .ok c' ∧ Crew K b cuts' tail A' n' c' := by
    cases e with
    | call t r =>
      cases hpc : c.pc t with
      | some pc => exact ⟨cuts, A, n, c, by simp only [Config.step, hpc], h⟩
      | none =>
        exact ⟨cuts, A, n, _, by simp only [Config.step, hpc],
          h.call hpc (hnew r.key (by simp [calledKeys])) (hmem r.key (by simp [calledKeys]))⟩
    | run t =>
      cases hpc : c.pc t with
      | none => exact ⟨cuts, A, n, c, by simp only [Config.step, hpc], h⟩
      | some pc =>
        obtain ⟨cuts', A', n', o, s', hstep, hcrew, -⟩ := h.section hpc
        exact ⟨cuts', A', n', _, hstep, hcrew⟩
  obtain ⟨m, rfl⟩ := h.room
  obtain ⟨-, c'', hstep', -, -, hunused⟩ := h.threads.step e hnew
  obtain rfl : c' = c'' := Except.ok.inj (hstep.symm.trans hstep')
  exact ⟨cuts', A', n', c', hstep, hcrew, hunused⟩

/-- A whole schedule, by induction on its events. -/
theorem Crew.run (es : List Event) (h : Crew K b cuts tail A n c) (hkeys : (calledKeys es).Nodup)
    (hnew : ∀ k ∈ calledKeys es, c.Unused k) (hmem : ∀ k ∈ calledKeys es, k ∈ K) :
    ∃ cuts' A' n' c', c.run es = .ok c' ∧ Crew K b cuts' tail A' n' c' := by
  induction es generalizing cuts A n c with
  | nil => exact ⟨cuts, A, n, c, rfl, h⟩
  | cons e es ih =>
    rw [calledKeys_cons] at hkeys hnew hmem
    obtain ⟨-, hkeys', hcross⟩ := List.nodup_append.mp hkeys
    obtain ⟨cuts₁, A₁, n₁, c₁, hstep, h₁, hrest⟩ := h.step e (fun k hk => hnew k (List.mem_append_left _ hk))
      fun k hk => hmem k (List.mem_append_left _ hk)
    obtain ⟨cuts', A', n', c', hrun, h'⟩ := ih h₁ hkeys'
      (fun k hk => hrest k (fun hk' => hcross k hk' k hk rfl) (hnew k (List.mem_append_right _ hk)))
      fun k hk => hmem k (List.mem_append_right _ hk)
    exact ⟨cuts', A', n', c', by simp only [Config.run, hstep, ok_bind, hrun], h'⟩

/-! ### Beginning and end -/

omit [LawfulPmem P] in
theorem init_sizes {pm : P} {junkInner : Addr → InnerNode} {junkLeaf : Addr → DLeaf}
    (h : init pm t junkInner junkLeaf = .ok s) : s.sizes = Function.update (fun _ => none) 1 (some 0) := by
  obtain ⟨q, pm₁, l, pm₂, -, -, -, rfl⟩ := init_eq_ok.mp h
  funext b
  unfold TreeState.sizes freshTree
  by_cases hb : b = 1
  · subst hb
    rfl
  · simp only [Function.update_of_ne hb, Option.map_none]

def mapOf (returned : List (Request × Bool)) (k : Key) : Option Word :=
  (returned.find? fun x => x.1.key = k).map fun x => x.1.val

/-- A tree without records, which no thread has used yet. -/
theorem Represents.crew (h : Represents n tail s fun _ => none) {a : Addr}
    (hsizes : s.sizes = Function.update (fun _ => none) a (some 0)) (hn : K.card + K.card / LEFT_KEY < n) :
    Crew K n Cuts.empty tail {a} n (Config.start s) ∧ ∀ k, (Config.start s).Unused k := by
  have hempty : ∀ k v, ¬ s.Contains k v := fun k v hv => absurd ((h.content k v).mp hv) (by simp)
  refine ⟨⟨⟨h.inv, h.room, ?_, ?_, ?_, ?_, ?_⟩, ⟨fun k v => ?_, fun x hx => absurd hx (by simp [Config.start])⟩,
    h.fresh, ?_, ?_, ?_, List.nodup_nil, ?_, hn⟩, fun k => ⟨fun t pc hpc => absurd hpc (by simp [Config.start]), hempty k⟩⟩
  · exact fun t pc hpc => absurd hpc (by simp [Config.start])
  · exact fun t t' pc pc' b hpc => absurd hpc (by simp [Config.start])
  · exact fun b m hm hmark => absurd (h.free b m hm) hmark
  · exact fun t t' pc pc' hpc => absurd hpc (by simp [Config.start])
  · exact fun t pc v hpc => absurd hpc (by simp [Config.start])
  · constructor
    · exact fun hv => absurd hv (hempty k v)
    · rintro ⟨r, hr, -⟩
      exact absurd hr (by simp [Config.start])
  · change Bins LEFT_KEY s.sizes {a} 0
    rw [hsizes]
    exact Bins.single LEFT_KEY a
  · exact fun t pc hpc => absurd hpc (by simp [Config.start])
  · exact fun x hx => absurd hx (by simp [Config.start])
  · rw [Finset.card_singleton]
    rfl

theorem Crew.content (h : Crew K b cuts tail A n c) (k : Key) (v : Word) :
    c.tree.Contains k v ↔ mapOf c.returned k = some v := by
  have hcontent : ∀ x ∈ c.returned, c.tree.Contains x.1.key x.1.val := fun x hx =>
    (h.exact.content _ _).mpr ⟨x.1, h.exact.returned x hx ▸ hx, rfl, rfl⟩
  unfold mapOf
  constructor
  · intro hv
    obtain ⟨r, hr, rfl, rfl⟩ := (h.exact.content k v).mp hv
    cases hfind : c.returned.find? fun x => x.1.key = r.key with
    | none => exact absurd (List.find?_eq_none.mp hfind _ hr) (by simp)
    | some x =>
      have hkey : x.1.key = r.key := of_decide_eq_true (List.find?_some hfind :)
      have hx := hcontent x (List.mem_of_find?_eq_some hfind)
      rw [hkey] at hx
      exact congrArg some (h.threads.inv.data.contains_unique hx hv)
  · intro hv
    obtain ⟨x, hfind, rfl⟩ := Option.map_eq_some_iff.mp hv
    have hkey : x.1.key = k := of_decide_eq_true (List.find?_some hfind :)
    exact hkey ▸ hcontent x (List.mem_of_find?_eq_some hfind)

theorem Crew.represents (h : Crew K b cuts tail A n c) (hidle : ∀ t, c.pc t = none) :
    Represents n tail c.tree (mapOf c.returned) := by
  obtain ⟨rfl, hfree⟩ := h.threads.quiet hidle
  exact ⟨h.threads.inv, h.threads.room, hfree, h.fresh, h.content⟩

theorem Crew.answers {Q : Type} [Pmem Q] [LawfulPmem Q] {s : TreeState Q} (h : Crew K b cuts tail A n c)
    {tail' : Addr} {n' : Nat} (hs : Represents n' tail' s (mapOf c.returned)) :
    (∀ r, (r, true) ∈ c.returned → ∃ s', find s r.key = .ok (r.val, s')) ∧
      (s.tempLevel ≠ 0 → ∀ k, (∀ x ∈ c.returned, x.1.key ≠ k) → ∃ s', find s k = .ok (0, s')) := by
  refine ⟨fun r hr => ?_, fun hlevel k hk => ?_⟩
  · have hval : mapOf c.returned r.key = some r.val :=
      (h.content _ _).mp ((h.exact.content _ _).mpr ⟨r, hr, rfl, rfl⟩)
    obtain ⟨s', hfind, -⟩ := hs.find (k := r.key) fun _ => by rw [hval]; rfl
    rw [hval] at hfind
    exact ⟨s', hfind⟩
  · have hnone : mapOf c.returned k = none := by
      rw [mapOf, List.find?_eq_none.mpr fun x hx => by simpa using hk x hx]
      rfl
    obtain ⟨s', hfind, -⟩ := hs.find (k := k) fun hzero => absurd hzero hlevel
    rw [hnone] at hfind
    exact ⟨s', hfind⟩

theorem Crew.schedule (pm : P) (t₀ : Tid) (junkInner : Addr → InnerNode) (junkLeaf : Addr → DLeaf) (es : List Event)
    (hroom : Ok (b + 1) pm) (hb : (calledKeys es).length + (calledKeys es).length / LEFT_KEY < b)
    (hkeys : (calledKeys es).Nodup) :
    ∃ s₀ c, init pm t₀ junkInner junkLeaf = .ok s₀ ∧ (Config.start s₀).run es = .ok c ∧
      ∃ cuts A n, Crew (calledKeys es).toFinset b cuts (junkLeaf 1).next A n c := by
  obtain ⟨s₀, hinit, hrep⟩ := represents_init hroom t₀ junkInner junkLeaf
  rw [← List.toFinset_card_of_nodup hkeys] at hb
  obtain ⟨hcrew, hunused⟩ := hrep.crew (init_sizes hinit) hb
  obtain ⟨cuts, A, n, c, hrun, hc⟩ := hcrew.run es hkeys (fun k _ => hunused k) fun k hk => List.mem_toFinset.mpr hk
  exact ⟨s₀, c, hinit, hrun, cuts, A, n, hc⟩

end ZBTree
