import ZBTree.Invariant

/-!
# The sections of insert

Each section of `insert` that other threads can see between keeps the invariant: filling
a slot, splitting a full leaf, recording the split. The first adds one pair to the
content of the tree, the other two leave the content as it is.
-/

namespace ZBTree

open RangeIndex LinkedList Pmem LawfulPmem

variable {P : Type} [Pmem P] [LawfulPmem P] {cuts : Cuts} {tail L a : Addr} {s : TreeState P}
  {m : DLeaf} {k : Key}

/-! ### Memories with the same records -/

theorem sameSlots_of_recs {p p' : P} (h : SameRecs (recs p) p p')
    (hrecs : ∀ i, i < m.maxUse → m.ptr i ∈ recs p) : SameSlots p p' m :=
  fun i hi => h _ (hrecs i hi)

omit [Pmem P] [LawfulPmem P] in
theorem Skeleton.right_ne (h : Skeleton cuts tail s) {b : Addr} {c : Cut} (hc : cuts b = some c)
    (ha : a ∈ labels s.index) : c.right ≠ a := by
  rintro rfl
  have hpend : cuts.pend b = some (c.key, c.right) := by simp [Cuts.pend, hc]
  exact right_not_mem h.nodup (h.cut b c hc).1 hpend ha

omit [LawfulPmem P] in
theorem SameLeaves.pnext {A : Set Addr} {p p' : P} (h : SameLeaves A p p') {q : Addr} (hq : q ∈ A) :
    pnext p' q = pnext p q := by
  unfold ZBTree.pnext
  rw [h q hq]

theorem Twin.setPm (h : Twin cuts s) {pm : P} (hleaves : leaves s.pm ⊆ leaves pm)
    (hnext : ∀ q ∈ leaves s.pm, pnext pm q = pnext s.pm q) :
    Twin cuts ({ s with pm := pm } : TreeState P) where
  mem b hb := hleaves (h.mem b hb)
  nodup := h.nodup
  chain := by
    refine h.chain.congr fun q hq => ?_
    obtain ⟨b, hb, rfl⟩ := List.mem_map.mp hq
    exact hnext _ (h.mem b hb)

/-! ### Filling a slot -/

omit [Pmem P] [LawfulPmem P] in
theorem fillState_heap {pm : P} {addr : Addr} {b : Addr} {n : DLeaf}
    (hn : (({ s with pm := pm } : TreeState P).setLeaf a (m.push k addr)).dleafHeap b = some n) :
    (b = a ∧ n = m.push k addr) ∨ (b ≠ a ∧ s.dleafHeap b = some n) :=
  setLeaf_heap (s := { s with pm := pm }) hn

theorem Located.fill (h : Located cuts s) (hm : s.dleafHeap a = some m)
    (hroute : Routes (s.leaves cuts) k a) {addr : Addr} {pm : P} (hlt : addr < 2 ^ 48)
    (hrecs : LawfulPmem.recs pm = Insert.insert addr (LawfulPmem.recs s.pm))
    (hkey : logKey pm addr = some k) (hsame : SameRecs (LawfulPmem.recs s.pm) s.pm pm) :
    Located cuts (({ s with pm := pm } : TreeState P).setLeaf a (m.push k addr)) := by
  have hsub : ∀ x ∈ LawfulPmem.recs s.pm, x ∈ LawfulPmem.recs pm := fun x hx => by
    rw [hrecs]
    exact Set.mem_insert_of_mem addr hx
  have hslots : ∀ {b n}, s.dleafHeap b = some n → SameSlots s.pm pm n := fun {b n} hn =>
    sameSlots_of_recs hsame fun i hi => h.recs b n i hn hi
  refine ⟨h.sorted, ?_, ?_⟩
  · intro b n i hn hi
    rcases fillState_heap hn with ⟨rfl, rfl⟩ | ⟨-, hn⟩
    · rcases Nat.lt_or_eq_of_le (Nat.le_of_lt_succ hi) with hi | rfl
      · rw [m.push_ptr_old k addr hi]
        exact hsub _ (h.recs b m i hm hi)
      · rw [m.push_ptr_new k hlt]
        show addr ∈ LawfulPmem.recs pm
        rw [hrecs]
        exact Set.mem_insert _ _
    · exact hsub _ (h.recs b n i hn hi)
  · intro b n k' i hn hi
    rcases fillState_heap hn with ⟨rfl, rfl⟩ | ⟨-, hn⟩
    · rcases (push_hasKey_iff (hslots hm) hlt hkey).mp hi with hi | ⟨-, rfl⟩
      · exact h.range b m k' i hm hi
      · exact hroute
    · exact h.range b n k' i hn ((hasKey_congr (hslots hn)).mp hi)

/-- Filling a slot with a record of a new key. -/
theorem Inv.push (h : Inv cuts tail s) {v : Word} {addr : Addr} {pm : P} (hlt : addr < 2 ^ 48)
    (hrecs : recs pm = Insert.insert addr (recs s.pm)) (hleaves : leaves pm = leaves s.pm)
    (hkey : logKey pm addr = some k) (hval : logVal pm addr = some v)
    (hsameR : SameRecs (recs s.pm) s.pm pm) (hsameL : SameLeaves (leaves s.pm) s.pm pm)
    (hm : s.dleafHeap a = some m) (hroute : Routes s.index k a) (hcut : cuts a = none)
    (hroom : m.maxUse < MAX_LEAF_KEY) (hnew : ∀ i, ¬ HasKey s.pm m k i) :
    Inv cuts tail (({ s with pm := pm } : TreeState P).setLeaf a (m.push k addr)) ∧
      (∀ k' v', (({ s with pm := pm } : TreeState P).setLeaf a (m.push k addr)).Contains k' v' ↔
        s.Contains k' v' ∨ (k' = k ∧ v' = v)) ∧
      Grows s (({ s with pm := pm } : TreeState P).setLeaf a (m.push k addr)) := by
  have hsame : ∀ {b n}, s.dleafHeap b = some n → SameSlots s.pm pm n := fun {b n} hn =>
    sameSlots_of_recs hsameR fun i hi => h.data.recs b n i hn hi
  have hpend : cuts.pend a = none := by simp [Cuts.pend, hcut]
  have hroute' : Routes (s.leaves cuts) k a := hroute.expand h.data.sorted hpend
  have hlock : LockOK (cuts a) (m.push k addr) := by simp [LockOK, hcut, DLeaf.push]
  have hskel : Skeleton cuts tail (({ s with pm := pm } : TreeState P).setLeaf a (m.push k addr)) :=
    (h.skel.setPm pm).setLeaf hm rfl hroom hlock
  -- the content: one pair more, and the other leaves are as before
  have hcont : ∀ k' v', (({ s with pm := pm } : TreeState P).setLeaf a (m.push k addr)).Contains k' v' ↔
      s.Contains k' v' ∨ (k' = k ∧ v' = v) := by
    intro k' v'
    constructor
    · rintro ⟨b, n, hn, hv⟩
      rcases fillState_heap hn with ⟨rfl, rfl⟩ | ⟨-, hn⟩
      · rcases (push_holds_iff (hsame hm) hlt hkey hval).mp hv with hv | heq
        · exact Or.inl ⟨b, m, hm, hv⟩
        · exact Or.inr heq
      · exact Or.inl ⟨b, n, hn, (holds_congr (hsame hn)).mp hv⟩
    · rintro (⟨b, n, hn, hv⟩ | heq)
      · by_cases hb : b = a
        · subst hb
          rw [hm, Option.some.injEq] at hn
          subst hn
          exact ⟨b, m.push k addr, by simp [TreeState.setLeaf],
            (push_holds_iff (hsame hm) hlt hkey hval).mpr (Or.inl hv)⟩
        · exact ⟨b, n, by simp [TreeState.setLeaf, Function.update_of_ne hb, hn],
            (holds_congr (hsame hn)).mpr hv⟩
      · exact ⟨a, m.push k addr, by simp [TreeState.setLeaf],
          (push_holds_iff (hsame hm) hlt hkey hval).mpr (Or.inr heq)⟩
  obtain ⟨hsorted, hrecs', hrange⟩ := h.data.located.fill hm hroute' hlt hrecs hkey hsameR
  refine ⟨⟨hskel, ⟨hsorted, ?_, hrecs', hrange, ?_⟩, ?_⟩, hcont,
    ⟨fun k' v' hv => (hcont k' v').mpr (Or.inl hv), ?_⟩⟩
  · intro b n hn
    rcases fillState_heap hn with ⟨rfl, rfl⟩ | ⟨-, hn⟩
    · exact SlotsOK.push (hsame hm) hlt hkey hval (h.data.slots b m hm) hnew
    · exact (h.data.slots b n hn).congr (hsame hn)
  · -- neither half of a cut leaf is the leaf that was filled
    intro b c n nr hc hn hnr
    have hbne : b ≠ a := by
      rintro rfl
      rw [hcut] at hc
      exact absurd hc (by simp)
    have hrne : c.right ≠ a := h.skel.right_ne hc hroute.mem
    rcases fillState_heap hn with ⟨rfl, -⟩ | ⟨-, hn⟩
    · exact absurd rfl hbne
    rcases fillState_heap hnr with ⟨heq, -⟩ | ⟨-, hnr⟩
    · exact absurd heq hrne
    obtain ⟨hbrk, buf, hbuf, hbok⟩ := h.data.buffer b c n nr hc hn hnr
    refine ⟨hbrk, buf, hbuf, fun k' v' => ?_⟩
    exact (hbok k' v').trans (or_congr (holds_congr (hsame hn)) (holds_congr (hsame hnr))).symm
  · exact (h.twin.setPm hleaves.ge fun _ hq => hsameL.pnext hq).setLeaf hm fun _ => rfl
  · -- the new slot has no pair
    intro W _ hpairs b n hn
    rcases fillState_heap hn with ⟨rfl, rfl⟩ | ⟨-, hn⟩
    · exact ValsOK.push (hsame hm) hlt hkey (hpairs b m hm)
    · exact (hpairs b n hn).congr (hsame hn)

theorem Inv.append (h : Inv cuts tail s) {n : Nat} (hok : Ok (n + 1) s.pm) (t : Tid) (v : Word)
    (len : BitVec 32) (hm : s.dleafHeap a = some m) (hroute : Routes s.index k a)
    (hcut : cuts a = none) (hroom : m.maxUse < MAX_LEAF_KEY) (hnew : ∀ i, ¬ HasKey s.pm m k i) :
    ∃ addr pm, appendOne s.pm t k v m.altPtr LOG_INSERT len = some (addr, pm) ∧
      addr < 2 ^ 48 ∧ logKey pm addr = some k ∧ SameRecs (recs s.pm) s.pm pm ∧ Ok n pm ∧
      Inv cuts tail (({ s with pm := pm } : TreeState P).setLeaf a (m.push k addr)) ∧
      (∀ k' v', (({ s with pm := pm } : TreeState P).setLeaf a (m.push k addr)).Contains k' v' ↔
        s.Contains k' v' ∨ (k' = k ∧ v' = v)) ∧
      Grows s (({ s with pm := pm } : TreeState P).setLeaf a (m.push k addr)) := by
  obtain ⟨addr, pm, happ, hok', hfresh, hrecs, hleaves, hkey, hval, hsameR, hsameL⟩ :=
    append_spec t k v m.altPtr LOG_INSERT len hok
  have hlt : addr < 2 ^ 48 := rec_lt hok' (by rw [hrecs]; exact Set.mem_insert _ _)
  exact ⟨addr, pm, happ, hlt, hkey, hsameR, hok',
    h.push hlt hrecs hleaves hkey hval hsameR hsameL hm hroute hcut hroom hnew⟩

theorem Inv.fillSlot (h : Inv cuts tail s) {n : Nat} (hok : Ok (n + 1) s.pm) (t : Tid) (v : Word)
    (len : BitVec 32) (hm : s.dleafHeap a = some m) (hroute : Routes s.index k a)
    (hcut : cuts a = none) (hroom : m.maxUse < MAX_LEAF_KEY) (hnew : ∀ i, ¬ HasKey s.pm m k i) :
    ∃ addr pm, ZBTree.fillSlot s t k v len a =
        .ok (({ s with pm := pm } : TreeState P).setLeaf a (m.push k addr)) ∧
      Ok n pm ∧
      Inv cuts tail (({ s with pm := pm } : TreeState P).setLeaf a (m.push k addr)) ∧
      (∀ k' v', (({ s with pm := pm } : TreeState P).setLeaf a (m.push k addr)).Contains k' v' ↔
        s.Contains k' v' ∨ (k' = k ∧ v' = v)) ∧
      Grows s (({ s with pm := pm } : TreeState P).setLeaf a (m.push k addr)) := by
  obtain ⟨addr, pm, happ, -, -, -, hok', hinv⟩ := h.append hok t v len hm hroute hcut hroom hnew
  refine ⟨addr, pm, ?_, hok', hinv⟩
  simp only [ZBTree.fillSlot, hm, deref_some, ok_bind, happ, pure_eq_ok]

/-! ### Splitting a full leaf

A split makes a cut: the halves are laid out and linked in both chains, while the inner nodes still send all
keys of both to the old leaf. The conjuncts of the invariant are treated one by one, the records and key ranges
first, then the chain of the `P_Leaf`s. -/

omit [LawfulPmem P] in
theorem linkPleaf_eq_ok {pm pm' : P} {pl q : Addr} {mk nmk : Key} :
    linkPleaf pm pl q mk nmk = .ok pm' ↔ ∃ l pm₁ l', pleaf pm pl = some l ∧
      setPleaf pm q ⟨0, nmk, l.next⟩ = some pm₁ ∧ pleaf pm₁ pl = some l' ∧
      setPleaf pm₁ pl ⟨l'.versionField + 1, mk, q⟩ = some pm' := by
  simp only [linkPleaf, bind_eq_ok, deref_eq_ok]
  constructor
  · rintro ⟨l, hl, pm₁, h₁, l', hl', h₂⟩
    exact ⟨l, pm₁, l', hl, h₁, hl', h₂⟩
  · rintro ⟨l, pm₁, l', hl, h₁, hl', h₂⟩
    exact ⟨l, hl, pm₁, h₁, l', hl', h₂⟩

/-- The memory side of a split: a new `P_Leaf` is linked in after the old one. -/
theorem split_memory {n : Nat} {p : P} (hok : Ok (n + 1) p) (t : Tid) {pl : Addr}
    (hpl : pl ∈ leaves p) (mk nmk : Key) :
    ∃ q p₁ p₂ l, nAllocate p t = some (q, p₁) ∧ linkPleaf p₁ pl q mk nmk = .ok p₂ ∧ Ok n p₂ ∧
      q ∉ leaves p ∧ leaves p₂ = Insert.insert q (leaves p) ∧ recs p₂ = recs p ∧
      SameRecs (recs p) p p₂ ∧ pleaf p pl = some l ∧
      pleaf p₂ pl = some ⟨l.versionField + 1, mk, q⟩ ∧ pleaf p₂ q = some ⟨0, nmk, l.next⟩ ∧
      SameLeaves (leaves p \ {pl}) p p₂ := by
  obtain ⟨q, p₁, halloc, hok₁, hfresh, hleaves₁, hrecs₁, hsameR₁, hsameL₁⟩ := alloc_spec t hok
  obtain ⟨-, l, hl⟩ := leaf_read hok hpl
  have hne : pl ≠ q := fun heq => hfresh (heq ▸ hpl)
  have hpl₁ : pl ∈ leaves p₁ := hleaves₁ ▸ Set.mem_insert_of_mem q hpl
  have hl₁ : pleaf p₁ pl = some l := (hsameL₁ pl hpl).trans hl
  obtain ⟨p₂, hset₂, hok₂, hrecs₂, hleaves₂, hread₂, hsameR₂, hsameL₂⟩ :=
    setLeaf_spec ⟨0, nmk, l.next⟩ hok₁ (hleaves₁ ▸ Set.mem_insert q _)
  have hl₂ : pleaf p₂ pl = some l := (hsameL₂ pl ⟨hpl₁, hne⟩).trans hl₁
  obtain ⟨p₃, hset₃, hok₃, hrecs₃, hleaves₃, hread₃, hsameR₃, hsameL₃⟩ :=
    setLeaf_spec ⟨l.versionField + 1, mk, q⟩ hok₂ (hleaves₂ ▸ hpl₁)
  have hq₂ : q ∈ leaves p₂ := by
    rw [hleaves₂, hleaves₁]
    exact Set.mem_insert q _
  refine ⟨q, p₁, p₃, l, halloc, linkPleaf_eq_ok.mpr ⟨l, p₂, l, hl₁, hset₂, hl₂, hset₃⟩, hok₃, hfresh,
    ?_, ?_, ?_, hl, hread₃, ?_, ?_⟩
  · rw [hleaves₃, hleaves₂, hleaves₁]
  · rw [hrecs₃, hrecs₂, hrecs₁]
  · intro x hx
    have hx₁ : x ∈ recs p₁ := hrecs₁ ▸ hx
    obtain ⟨hk₁, hv₁⟩ := hsameR₁ x hx
    obtain ⟨hk₂, hv₂⟩ := hsameR₂ x hx₁
    obtain ⟨hk₃, hv₃⟩ := hsameR₃ x (hrecs₂ ▸ hx₁)
    exact ⟨hk₃.trans (hk₂.trans hk₁), hv₃.trans (hv₂.trans hv₁)⟩
  · exact (hsameL₃ q ⟨hq₂, hne.symm⟩).trans hread₂
  · rintro x ⟨hx, hxpl⟩
    have hxq : x ≠ q := fun heq => hfresh (heq ▸ hx)
    have hx₁ : x ∈ leaves p₁ := hleaves₁ ▸ Set.mem_insert_of_mem q hx
    have hx₂ : x ∈ leaves p₂ := hleaves₂ ▸ hx₁
    rw [hsameL₃ x ⟨hx₂, hxpl⟩, hsameL₂ x ⟨hx₁, hxq⟩, hsameL₁ x hx]

omit [Pmem P] [LawfulPmem P] in
theorem cut_bound {F : Index Key Addr} (hF : (labels F).Nodup) {sk above : Key}
    (hsk : Routes F sk L) (habove : Routes F above L) (hlt : sk < above) :
    ∃ lo, (lo, L) ∈ F ∧ lo < (sk : WithBot Key) ∧ ∀ p ∈ F, lo < p.1 → (sk : WithBot Key) < p.1 := by
  obtain ⟨lo, hmem, hlo, -⟩ := hsk
  obtain ⟨lo', hmem', -, hnext'⟩ := habove
  obtain rfl := bound_eq hF hmem hmem'
  refine ⟨lo, hmem, hlo, fun p hp hpgt => ?_⟩
  exact (WithBot.coe_lt_coe.mpr hlt).trans_le (hnext' p hp hpgt)

/-- What is known about a split of the leaf `L`, which was `m`, in the order `σ`. -/
structure SplitOf (s : TreeState P) (L : Addr) (m : DLeaf) (σ : Equiv.Perm Nat)
    (buf : Nat → NodeEntry) : Prop where
  leaf : s.dleafHeap L = some m
  full : m.maxUse = MAX_LEAF_KEY
  perm : Arrays.PermOn 0 (MAX_LEAF_KEY - 1) σ
  sorted : SortedOn 0 (MAX_LEAF_KEY - 1) (buf ∘ σ)
  entries : ∀ i, i < MAX_LEAF_KEY →
    logKey s.pm (m.ptr i) = some (buf i).oneKey ∧ logVal s.pm (m.ptr i) = some (buf i).val

section SplitOf

variable {σ : Equiv.Perm Nat} {buf : Nat → NodeEntry}

omit [LawfulPmem P] in
theorem SplitOf.hasKey (hsp : SplitOf s L m σ buf) {i : Nat} (hi : i < MAX_LEAF_KEY) :
    HasKey s.pm m (buf (σ i)).oneKey (σ i) := by
  have hlt : σ i < MAX_LEAF_KEY := by
    have := (hsp.perm.mem (i := i) ⟨Nat.zero_le _, by simp only [MAX_LEAF_KEY] at hi ⊢; omega⟩).2
    simp only [MAX_LEAF_KEY] at this ⊢
    omega
  exact ⟨by rw [hsp.full]; exact hlt, (hsp.entries _ hlt).1⟩

theorem SplitOf.lt (hsp : SplitOf s L m σ buf) (h : Data cuts s) {i j : Nat} (hij : i < j)
    (hj : j < MAX_LEAF_KEY) : (buf (σ i)).oneKey < (buf (σ j)).oneKey := by
  have hle := hsp.sorted i j (Nat.zero_le _) hij.le (by simp only [MAX_LEAF_KEY] at hj ⊢; omega)
  refine lt_of_le_of_ne hle fun heq => hij.ne ?_
  have hi := hsp.hasKey (hij.trans hj)
  have hj' := hsp.hasKey hj
  have heq' : (buf (σ i)).oneKey = (buf (σ j)).oneKey := heq
  rw [heq'] at hi
  exact σ.injective ((h.slots L m hsp.leaf).distinct _ _ _ hi hj')

omit [LawfulPmem P] in
theorem SplitOf.le (hsp : SplitOf s L m σ buf) {i j : Nat} (hij : i ≤ j)
    (hj : j < MAX_LEAF_KEY) : (buf (σ i)).oneKey ≤ (buf (σ j)).oneKey :=
  hsp.sorted i j (Nat.zero_le _) hij (by simp only [MAX_LEAF_KEY] at hj ⊢; omega)

theorem SplitOf.routes (hsp : SplitOf s L m σ buf) (h : Data cuts s) {i : Nat}
    (hi : i < MAX_LEAF_KEY) : Routes (s.leaves cuts) (buf (σ i)).oneKey L :=
  h.range L m _ _ hsp.leaf (hsp.hasKey hi)

omit [LawfulPmem P] in
theorem SplitOf.holds_iff (hsp : SplitOf s L m σ buf) {left right : DLeaf}
    (hl : IsHalf m σ buf 0 left) (hr : IsHalf m σ buf LEFT_KEY right) (k : Key) (v : Word) :
    (Holds s.pm left k v ∨ Holds s.pm right k v) ↔ ∃ i, i < MAX_LEAF_KEY ∧ buf (σ i) = ⟨k, v⟩ := by
  rw [hl.holds_iff hsp.perm (Nat.zero_le _) hsp.full hsp.entries,
    hr.holds_iff hsp.perm (Nat.le_refl _) hsp.full hsp.entries]
  simp only [LEFT_KEY, MAX_LEAF_KEY]
  constructor
  · rintro (⟨i, hi, he⟩ | ⟨i, hi, he⟩)
    · exact ⟨i, by omega, he⟩
    · exact ⟨i + 15, by omega, he⟩
  · rintro ⟨i, hi, he⟩
    by_cases hlt : i < 15
    · exact Or.inl ⟨i, hlt, he⟩
    · exact Or.inr ⟨i - 15, by omega, by rwa [show i - 15 + 30 / 2 = i by omega]⟩

omit [LawfulPmem P] in
theorem SplitOf.old_holds_iff (hsp : SplitOf s L m σ buf) (k : Key) (v : Word) :
    Holds s.pm m k v ↔ ∃ i, i < MAX_LEAF_KEY ∧ buf (σ i) = ⟨k, v⟩ := by
  constructor
  · rintro ⟨j, ⟨hj, hk⟩, hv⟩
    rw [hsp.full] at hj
    have hjle : j ≤ MAX_LEAF_KEY - 1 := by
      simp only [MAX_LEAF_KEY] at hj ⊢
      omega
    obtain ⟨i, ⟨-, hi⟩, rfl⟩ := hsp.perm.exists_preimage ⟨Nat.zero_le j, hjle⟩
    obtain ⟨hk', hv'⟩ := hsp.entries (σ i) hj
    rw [hk] at hk'
    rw [hv] at hv'
    refine ⟨i, by simp only [MAX_LEAF_KEY] at hi ⊢; omega, ?_⟩
    rw [Option.some.inj hk', Option.some.inj hv']
  · rintro ⟨i, hi, he⟩
    have hk := hsp.hasKey hi
    have hlt := hk.1
    rw [hsp.full] at hlt
    obtain ⟨-, hv⟩ := hsp.entries (σ i) hlt
    rw [he] at hk hv
    exact ⟨σ i, hk, hv⟩

end SplitOf

section Split

variable {σ : Equiv.Perm Nat} {buf : Nat → NodeEntry} {newLeaf : Addr} {pm : P}

/-- The state after the split, with the leaf and its `P_Leaf` to be put back. -/
abbrev afterSplit (s : TreeState P) (L : Addr) (m : DLeaf) (σ : Equiv.Perm Nat)
    (buf : Nat → NodeEntry) (newLeaf : Addr) (pm : P) : TreeState P :=
  splitState s L m (m.fingerBuffer ∘ σ) (buf ∘ σ) newLeaf pm

abbrev splitCut (s : TreeState P) (m : DLeaf) (σ : Equiv.Perm Nat) (buf : Nat → NodeEntry) : Cut :=
  ⟨(buf (σ SPLIT_POS)).oneKey, s.brk + 1, m.altPtr⟩

omit [Pmem P] [LawfulPmem P] in
theorem afterSplit_heap (hL : L < s.brk) {b : Addr} {n : DLeaf}
    (hn : (afterSplit s L m σ buf newLeaf pm).dleafHeap b = some n) :
    (b = L ∧ IsHalf m σ buf 0 n) ∨ (b = s.brk + 1 ∧ IsHalf m σ buf LEFT_KEY n) ∨
      (b ≠ L ∧ b ≠ s.brk + 1 ∧ s.dleafHeap b = some n) := by
  obtain ⟨hleft, hright, hoff⟩ :=
    splitState_heap m (m.fingerBuffer ∘ σ) (buf ∘ σ) newLeaf pm hL
  by_cases hbL : b = L
  · subst hbL
    rw [hleft, Option.some.injEq] at hn
    subst hn
    exact Or.inl ⟨rfl, isHalf_left ..⟩
  · by_cases hbR : b = s.brk + 1
    · subst hbR
      rw [hright, Option.some.injEq] at hn
      subst hn
      exact Or.inr (Or.inl ⟨rfl, isHalf_right ..⟩)
    · rw [hoff b hbL hbR] at hn
      exact Or.inr (Or.inr ⟨hbL, hbR, hn⟩)

theorem IsHalf.ptr_mem (h : Located cuts s) (hsp : SplitOf s L m σ buf) {off i : Nat} {n : DLeaf}
    (hoff : off ≤ LEFT_KEY) (hn : IsHalf m σ buf off n) (hi : i < n.maxUse) :
    n.ptr i ∈ recs s.pm := by
  rw [hn.use] at hi
  rw [hn.ptr hi]
  exact h.recs L m _ hsp.leaf (by rw [hsp.full]; exact IsHalf.source_lt hsp.perm hoff hi)

theorem IsHalf.key_eq (h : Located cuts s) (hsp : SplitOf s L m σ buf)
    (hsame : SameRecs (recs s.pm) s.pm pm) {off i : Nat} {n : DLeaf} {k : Key} (hoff : off ≤ LEFT_KEY)
    (hn : IsHalf m σ buf off n) (hi : HasKey pm n k i) :
    i < LEFT_KEY ∧ k = (buf (σ (i + off))).oneKey := by
  have hslots : SameSlots s.pm pm n := sameSlots_of_recs hsame fun j hj => hn.ptr_mem h hsp hoff hj
  obtain ⟨hlt, hk⟩ := (hn.hasKey_iff hsp.perm hoff hsp.full k i).mp ((hasKey_congr hslots).mp hi)
  have hread := (hsp.entries _ (IsHalf.source_lt hsp.perm hoff hlt)).1
  rw [hk.2] at hread
  exact ⟨hlt, Option.some.inj hread⟩

/-- The records and the key ranges after a split between two different keys. -/
theorem Located.split (h : Located cuts s) (hs : Skeleton cuts tail s) (hsp : SplitOf s L m σ buf)
    (hL : L ∈ labels s.index) (hcut : cuts L = none)
    (hlt : (buf (σ SPLIT_POS)).oneKey < (buf (σ LEFT_KEY)).oneKey)
    (hrecs : LawfulPmem.recs pm = LawfulPmem.recs s.pm)
    (hsame : SameRecs (LawfulPmem.recs s.pm) s.pm pm) :
    Located (Function.update cuts L (some (splitCut s m σ buf)))
      (afterSplit s L m σ buf newLeaf pm) := by
  have hLlt := (hs.leaf_lt L (mem_leaves_of_index hL)).2
  have hroutes : ∀ {i}, i < MAX_LEAF_KEY → Routes (s.leaves cuts) (buf (σ i)).oneKey L :=
    fun hi => h.range L m _ _ hsp.leaf (hsp.hasKey hi)
  have hins := hs.split_insAfter m (m.fingerBuffer ∘ σ) (buf ∘ σ) newLeaf pm
    (buf (σ SPLIT_POS)).oneKey hL hcut
  have hbound := cut_bound hs.nodup (hroutes (i := SPLIT_POS) (by decide))
    (hroutes (i := LEFT_KEY) (by decide)) hlt
  have hsorted := hins.sorted h.sorted hs.nodup hbound
  refine ⟨hsorted, ?_, ?_⟩
  · intro b n i hn hi
    show n.ptr i ∈ LawfulPmem.recs pm
    rw [hrecs]
    rcases afterSplit_heap hLlt hn with ⟨-, hn'⟩ | ⟨-, hn'⟩ | ⟨-, -, hn'⟩
    · exact hn'.ptr_mem h hsp (Nat.zero_le _) hi
    · exact hn'.ptr_mem h hsp (Nat.le_refl _) hi
    · exact h.recs b n i hn' hi
  · intro b n k i hn hi
    rcases afterSplit_heap hLlt hn with ⟨rfl, hn'⟩ | ⟨rfl, hn'⟩ | ⟨hbL, -, hn'⟩
    · obtain ⟨hlti, rfl⟩ := hn'.key_eq h hsp hsame (Nat.zero_le _) hi
      simp only [LEFT_KEY, MAX_LEAF_KEY] at hlti
      have hcutk := hins.routes_cut h.sorted hsorted hs.nodup
        (hroutes (i := i) (by simp only [MAX_LEAF_KEY]; omega))
      rwa [if_pos (hsp.le (by simp only [SPLIT_POS, MAX_LEAF_KEY]; omega) (by decide))] at hcutk
    · obtain ⟨hlti, rfl⟩ := hn'.key_eq h hsp hsame (Nat.le_refl _) hi
      simp only [LEFT_KEY, MAX_LEAF_KEY] at hlti
      have hcutk := hins.routes_cut h.sorted hsorted hs.nodup
        (hroutes (i := i + LEFT_KEY) (by simp only [LEFT_KEY, MAX_LEAF_KEY]; omega))
      have habove : (buf (σ SPLIT_POS)).oneKey < (buf (σ (i + LEFT_KEY))).oneKey :=
        hlt.trans_le (hsp.le (Nat.le_add_left _ _) (by simp only [LEFT_KEY, MAX_LEAF_KEY]; omega))
      rwa [if_neg (not_le.mpr habove)] at hcutk
    · have hslots : SameSlots s.pm pm n := sameSlots_of_recs hsame fun j hj => h.recs b n j hn' hj
      exact hins.routes hsorted (h.range b n k i hn' ((hasKey_congr hslots).mp hi)) hbL

/-- The records and the key ranges after the split. -/
theorem Inv.data_split (h : Inv cuts tail s) (hsp : SplitOf s L m σ buf) (hL : L ∈ labels s.index)
    (hcut : cuts L = none) (hrecs : recs pm = recs s.pm) (hsame : SameRecs (recs s.pm) s.pm pm) :
    Data (Function.update cuts L (some (splitCut s m σ buf))) (afterSplit s L m σ buf newLeaf pm) := by
  have hLlt := (h.skel.leaf_lt L (mem_leaves_of_index hL)).2
  have hslots : ∀ {b n}, s.dleafHeap b = some n → SameSlots s.pm pm n := fun {b n} hn =>
    sameSlots_of_recs hsame fun i hi => h.data.recs b n i hn hi
  have hm := h.data.slots L m hsp.leaf
  have hhalfSame : ∀ {off n}, off ≤ LEFT_KEY → IsHalf m σ buf off n → SameSlots s.pm pm n :=
    fun hoff hn => sameSlots_of_recs hsame fun i hi => hn.ptr_mem h.data.located hsp hoff hi
  obtain ⟨hsorted, hrecs', hrange⟩ := h.data.located.split h.skel hsp hL hcut
    (hsp.lt h.data (i := SPLIT_POS) (j := LEFT_KEY) (by decide) (by decide)) hrecs hsame
  refine ⟨hsorted, ?_, hrecs', hrange, ?_⟩
  · intro b n hn
    -- a leaf of the new state is one of the halves or another leaf
    rcases afterSplit_heap hLlt hn with ⟨-, hn'⟩ | ⟨-, hn'⟩ | ⟨-, -, hn'⟩
    · exact (hn'.slotsOK hsp.perm (Nat.zero_le _) hm hsp.full hsp.entries).1.congr
        (hhalfSame (Nat.zero_le _) hn')
    · exact (hn'.slotsOK hsp.perm (Nat.le_refl _) hm hsp.full hsp.entries).1.congr
        (hhalfSame (Nat.le_refl _) hn')
    · exact (h.data.slots b n hn').congr (hslots hn')
  · intro b c n nr hc hn hnr
    obtain ⟨hleft, hright, hoff⟩ :=
      splitState_heap m (m.fingerBuffer ∘ σ) (buf ∘ σ) newLeaf pm hLlt
    -- the buffer of the new cut holds the sorted leaf, the older buffers are as they were
    by_cases hbL : b = L
    · subst hbL
      rw [Function.update_self, Option.some.injEq] at hc
      subst hc
      rw [hright, Option.some.injEq] at hnr
      rw [hleft, Option.some.injEq] at hn
      subst hn hnr
      have hl := isHalf_left m { m with altPtr := s.brk, tempInsert := m.tempInsert + 1 } σ buf
        (s.brk + 1)
      have hr := isHalf_right m (s.junkLeaf (s.brk + 1)) σ buf newLeaf
      rw [DLeaf.leftHalf_altPtr]
      refine ⟨by simp [splitState], buf ∘ σ, by simp [splitState], fun k v => ?_⟩
      have hboth := or_congr (holds_congr (k := k) (hhalfSame (Nat.zero_le _) hl) (v := v))
        (holds_congr (k := k) (hhalfSame (Nat.le_refl _) hr) (v := v))
      exact (hboth.trans (hsp.holds_iff hl hr k v)).symm
    · rw [Function.update_of_ne hbL] at hc
      have hbR : b ≠ s.brk + 1 := by
        rintro rfl
        have hmem : s.brk + 1 ∈ labels (s.leaves cuts) :=
          mem_leaves_of_index (h.skel.cut _ c hc).1
        exact absurd (h.skel.leaf_lt _ hmem).2 (Nat.not_lt.mpr (Nat.le_succ _))
      have hrL : c.right ≠ L := h.skel.right_ne hc hL
      have hrR : c.right ≠ s.brk + 1 := by
        intro heq
        have hpend : cuts.pend b = some (c.key, c.right) := by simp [Cuts.pend, hc]
        have hmem : c.right ∈ labels (s.leaves cuts) :=
          mem_labels_expand.mpr (Or.inr ⟨b, (h.skel.cut b c hc).1, c.key, hpend⟩)
        rw [heq] at hmem
        exact absurd (h.skel.leaf_lt _ hmem).2 (Nat.not_lt.mpr (Nat.le_succ _))
      rw [hoff b hbL hbR] at hn
      rw [hoff _ hrL hrR] at hnr
      obtain ⟨hlt, buf', hbuf', hbok⟩ := h.data.buffer b c n nr hc hn hnr
      refine ⟨hlt.trans (by simp [splitState]), buf', ?_, fun k v => ?_⟩
      · simp only [splitState, Function.update_of_ne hlt.ne, hbuf']
      · exact (hbok k v).trans (or_congr (holds_congr (hslots hn)) (holds_congr (hslots hnr))).symm

/-- The `P_Leaf` chain after the split. -/
theorem Twin.split (h : Twin cuts s) (hs : Skeleton cuts tail s) (hm : s.dleafHeap L = some m) (hL : L ∈ labels s.index)
    (hcut : cuts L = none) (hfresh : newLeaf ∉ LawfulPmem.leaves s.pm)
    (hleaves : LawfulPmem.leaves pm = Insert.insert newLeaf (LawfulPmem.leaves s.pm))
    (hold : pnext pm m.altPtr = newLeaf) (hnew : pnext pm newLeaf = pnext s.pm m.altPtr)
    (hoff : ∀ x ∈ LawfulPmem.leaves s.pm, x ≠ m.altPtr → pnext pm x = pnext s.pm x) :
    Twin (Function.update cuts L (some (splitCut s m σ buf))) (afterSplit s L m σ buf newLeaf pm) := by
  have hLlt := (hs.leaf_lt L (mem_leaves_of_index hL)).2
  have hins := hs.split_insAfter m (m.fingerBuffer ∘ σ) (buf ∘ σ) newLeaf pm
    (buf (σ SPLIT_POS)).oneKey hL hcut
  obtain ⟨-, hright, hheap⟩ := splitState_heap m (m.fingerBuffer ∘ σ) (buf ∘ σ) newLeaf pm hLlt
  have hRnot : s.brk + 1 ∉ labels (s.leaves cuts) := fun hmem =>
    absurd (hs.leaf_lt _ hmem).2 (Nat.not_lt.mpr (Nat.le_succ _))
  -- the new leaf has an address of its own, so it is not cut
  have hRcut : cuts (s.brk + 1) = none := by
    cases hc : cuts (s.brk + 1) with
    | none => rfl
    | some c => exact absurd (mem_leaves_of_index (hs.cut _ c hc).1) hRnot
  have hLold : s.pleafOf cuts L = m.altPtr := by
    simp only [TreeState.pleafOf, hcut, TreeState.altOf_some hm]
  have hLnew : (afterSplit s L m σ buf newLeaf pm).pleafOf
      (Function.update cuts L (some (splitCut s m σ buf))) L = s.pleafOf cuts L := by
    rw [hLold]
    simp only [TreeState.pleafOf, Function.update_self]
  have hRnew : (afterSplit s L m σ buf newLeaf pm).pleafOf
      (Function.update cuts L (some (splitCut s m σ buf))) (s.brk + 1) = newLeaf := by
    have hne : s.brk + 1 ≠ L := (hLlt.trans (Nat.lt_succ_self _)).ne'
    simp only [TreeState.pleafOf, Function.update_of_ne hne, hRcut,
      TreeState.altOf_some hright, DLeaf.rightHalf_altPtr]
  have hsame : ∀ b ∈ labels (s.leaves cuts), (afterSplit s L m σ buf newLeaf pm).pleafOf
      (Function.update cuts L (some (splitCut s m σ buf))) b = s.pleafOf cuts b := by
    intro b hb
    by_cases hbL : b = L
    · subst hbL
      exact hLnew
    · have hbR : b ≠ s.brk + 1 := fun heq => hRnot (heq ▸ hb)
      simp only [TreeState.pleafOf, TreeState.altOf, Function.update_of_ne hbL, hheap b hbL hbR]
  -- the leaves with the new one right after `L`, and so their `P_Leaf`s
  obtain ⟨A, B, hF, hF'⟩ := hins.labels_split
  have hmapA : ∀ C : List Addr, (∀ b ∈ C, b ∈ labels (s.leaves cuts)) →
      C.map ((afterSplit s L m σ buf newLeaf pm).pleafOf
        (Function.update cuts L (some (splitCut s m σ buf)))) = C.map (s.pleafOf cuts) :=
    fun C hC => List.map_congr_left fun b hb => hsame b (hC b hb)
  have hmap : (labels ((afterSplit s L m σ buf newLeaf pm).leaves
      (Function.update cuts L (some (splitCut s m σ buf))))).map
        ((afterSplit s L m σ buf newLeaf pm).pleafOf
          (Function.update cuts L (some (splitCut s m σ buf)))) =
      A.map (s.pleafOf cuts) ++ m.altPtr :: newLeaf :: B.map (s.pleafOf cuts) := by
    rw [hF', List.map_append, List.map_cons, List.map_cons, hLnew, hRnew, hLold,
      hmapA A fun b hb => by rw [hF]; simp [hb], hmapA B fun b hb => by rw [hF]; simp [hb]]
  have hmapOld : (labels (s.leaves cuts)).map (s.pleafOf cuts) =
      A.map (s.pleafOf cuts) ++ m.altPtr :: B.map (s.pleafOf cuts) := by
    rw [hF, List.map_append, List.map_cons, hLold]
  have hmem : ∀ q ∈ (labels (s.leaves cuts)).map (s.pleafOf cuts), q ∈ LawfulPmem.leaves s.pm := by
    intro q hq
    obtain ⟨b, hb, rfl⟩ := List.mem_map.mp hq
    exact h.mem b hb
  have hnodup := h.nodup
  have hchain := h.chain
  rw [hmapOld] at hnodup hchain hmem
  have hnewNot : newLeaf ∉ A.map (s.pleafOf cuts) ++ m.altPtr :: B.map (s.pleafOf cuts) :=
    fun hq => hfresh (hmem newLeaf hq)
  refine ⟨?_, ?_, ?_⟩
  · intro b hb
    show _ ∈ LawfulPmem.leaves pm
    rw [hleaves]
    rcases (hins.mem_labels b).mp hb with hb | rfl
    · rw [hsame b hb]
      exact Set.mem_insert_of_mem _ (h.mem b hb)
    · rw [hRnew]
      exact Set.mem_insert _ _
  · rw [hmap]
    have hperm : (A.map (s.pleafOf cuts) ++ m.altPtr :: newLeaf :: B.map (s.pleafOf cuts)).Perm
        (newLeaf :: (A.map (s.pleafOf cuts) ++ m.altPtr :: B.map (s.pleafOf cuts))) :=
      (List.Perm.append_left _ (List.Perm.swap _ _ _)).trans List.perm_middle
    exact hperm.nodup_iff.mpr (List.nodup_cons.mpr ⟨hnewNot, hnodup⟩)
  · rw [hmap]
    simp only [List.nodup_append, List.nodup_cons, List.mem_cons] at hnodup
    obtain ⟨-, ⟨hB, -⟩, hA⟩ := hnodup
    refine Seg.insert hchain hold hnew ?_ ?_
    · intro q hq
      exact hoff q (hmem q (by simp [hq])) (hA q hq _ (Or.inl rfl))
    · intro q hq
      exact hoff q (hmem q (by simp [hq])) fun heq => hB (heq ▸ hq)

/-- The tree after the split of a full leaf that was held. -/
theorem Inv.split (h : Inv cuts tail s) (hsp : SplitOf s L m σ buf) (hL : L ∈ labels s.index)
    (hcut : cuts L = none) (hheld : m.tempInsert = 1) {l : PLeaf}
    (hfresh : newLeaf ∉ leaves s.pm) (hleaves : leaves pm = Insert.insert newLeaf (leaves s.pm))
    (hrecs : recs pm = recs s.pm) (hsame : SameRecs (recs s.pm) s.pm pm)
    (hl : pleaf s.pm m.altPtr = some l)
    (hleft : pleaf pm m.altPtr =
      some ⟨l.versionField + 1, ((buf ∘ σ) (LEFT_KEY - 1)).oneKey, newLeaf⟩)
    (hright : pleaf pm newLeaf = some ⟨0, ((buf ∘ σ) (MAX_LEAF_KEY - 1)).oneKey, l.next⟩)
    (hoff : SameLeaves (leaves s.pm \ {m.altPtr}) s.pm pm) :
    Inv (Function.update cuts L (some (splitCut s m σ buf))) tail
        (afterSplit s L m σ buf newLeaf pm) ∧
      (∀ k v, (afterSplit s L m σ buf newLeaf pm).Contains k v ↔ s.Contains k v) ∧
      Grows s (afterSplit s L m σ buf newLeaf pm) := by
  have hm := hsp.leaf
  have hfull := hsp.full
  have hperm := hsp.perm
  have hentries := hsp.entries
  have hdata : Data (Function.update cuts L (some (splitCut s m σ buf)))
      (afterSplit s L m σ buf newLeaf pm) := h.data_split hsp hL hcut hrecs hsame
  have htwin : Twin (Function.update cuts L (some (splitCut s m σ buf)))
      (afterSplit s L m σ buf newLeaf pm) := by
    refine h.twin.split h.skel hm hL hcut hfresh hleaves (pnext_some hleft) ?_ ?_
    · rw [pnext_some hright, pnext_some hl]
    · exact fun x hx hxne => hoff.pnext ⟨hx, hxne⟩
  have hLlt := (h.skel.leaf_lt L (mem_leaves_of_index hL)).2
  have hslots : ∀ {b n}, s.dleafHeap b = some n → SameSlots s.pm pm n := fun {b n} hn =>
    sameSlots_of_recs hsame fun i hi => h.data.recs b n i hn hi
  have hhalfSame : ∀ {off n}, off ≤ LEFT_KEY → IsHalf m σ buf off n → SameSlots s.pm pm n := by
    intro off n hoff hn i hi
    rw [hn.use] at hi
    rw [hn.ptr hi]
    exact hslots hm _ (by rw [hfull]; exact IsHalf.source_lt hperm hoff hi)
  -- the halves have the pairs of the leaf between them
  have hcont : ∀ k v, (afterSplit s L m σ buf newLeaf pm).Contains k v ↔ s.Contains k v := by
    intro k v
    obtain ⟨hleft, hright, hheap⟩ := splitState_heap m (m.fingerBuffer ∘ σ) (buf ∘ σ) newLeaf pm hLlt
    have hl := isHalf_left m { m with altPtr := s.brk, tempInsert := m.tempInsert + 1 } σ buf
      (s.brk + 1)
    have hr := isHalf_right m (s.junkLeaf (s.brk + 1)) σ buf newLeaf
    have hboth := (or_congr (holds_congr (k := k) (v := v) (hhalfSame (Nat.zero_le _) hl))
      (holds_congr (k := k) (v := v) (hhalfSame (Nat.le_refl _) hr))).trans
        ((hsp.holds_iff hl hr k v).trans (hsp.old_holds_iff k v).symm)
    constructor
    · rintro ⟨b, n, hn, hv⟩
      by_cases hbL : b = L
      · subst hbL
        rw [hleft, Option.some.injEq] at hn
        subst hn
        exact ⟨b, m, hm, hboth.mp (Or.inl hv)⟩
      · by_cases hbR : b = s.brk + 1
        · subst hbR
          rw [hright, Option.some.injEq] at hn
          subst hn
          exact ⟨L, m, hm, hboth.mp (Or.inr hv)⟩
        · rw [hheap b hbL hbR] at hn
          exact ⟨b, n, hn, (holds_congr (hslots hn)).mp hv⟩
    · rintro ⟨b, n, hn, hv⟩
      by_cases hbL : b = L
      · subst hbL
        rw [hm, Option.some.injEq] at hn
        subst hn
        rcases hboth.mpr hv with hv | hv
        · exact ⟨b, _, hleft, hv⟩
        · exact ⟨s.brk + 1, _, hright, hv⟩
      · have hbR : b ≠ s.brk + 1 := by
          rintro rfl
          exact absurd (h.skel.leaf_lt _ ((h.skel.heap _).mp ⟨n, hn⟩)).2
            (Nat.not_lt.mpr (Nat.le_succ _))
        exact ⟨b, n, (hheap b hbL hbR).trans hn, (holds_congr (hslots hn)).mpr hv⟩
  refine ⟨⟨h.skel.split m _ _ newLeaf pm _ hL hcut hm hheld, hdata, htwin⟩, hcont,
    ⟨fun k v hv => (hcont k v).mpr hv, ?_⟩⟩
  -- a pair in a half is that of a record of the leaf
  intro W hW hpairs b n hn
  have hslotsM := h.data.slots L m hm
  have hin : ∀ k v, Holds s.pm m k v → W k v := fun k v hv =>
    hW k v ((hcont k v).mpr ⟨L, m, hm, hv⟩)
  rcases afterSplit_heap hLlt hn with ⟨-, hn'⟩ | ⟨-, hn'⟩ | ⟨-, -, hn'⟩
  · exact ((hn'.slotsOK hperm (Nat.zero_le _) hslotsM hfull hentries).2.congr
      (hhalfSame (Nat.zero_le _) hn')).mono hin
  · exact ((hn'.slotsOK hperm (Nat.le_refl _) hslotsM hfull hentries).2.congr
      (hhalfSame (Nat.le_refl _) hn')).mono hin
  · exact (hpairs b n hn').congr (hslots hn')

/-- The parts of a split of a full leaf that is held. -/
theorem Inv.split_parts (h : Inv cuts tail s) {n : Nat} (hok : Ok (n + 1) s.pm) (t : Tid)
    (hm : s.dleafHeap L = some m) (hL : L ∈ labels s.index) (hcut : cuts L = none)
    (hheld : m.tempInsert = 1) (hfull : m.maxUse = MAX_LEAF_KEY) :
    ∃ σ buf newLeaf pm₁ pm, SplitOf s L m σ buf ∧ readEntries s.pm m MAX_LEAF_KEY = .ok buf ∧
      qsort (2 * MAX_LEAF_KEY) 0 (MAX_LEAF_KEY - 1) buf m.fingerBuffer =
        some (buf ∘ σ, m.fingerBuffer ∘ σ) ∧
      nAllocate s.pm t = some (newLeaf, pm₁) ∧
      linkPleaf pm₁ m.altPtr newLeaf ((buf ∘ σ) (LEFT_KEY - 1)).oneKey
        ((buf ∘ σ) (MAX_LEAF_KEY - 1)).oneKey = .ok pm ∧
      SameRecs (recs s.pm) s.pm pm ∧ Ok n pm ∧
      Inv (Function.update cuts L (some (splitCut s m σ buf))) tail
        (afterSplit s L m σ buf newLeaf pm) ∧
      (∀ k v, (afterSplit s L m σ buf newLeaf pm).Contains k v ↔ s.Contains k v) ∧
      Grows s (afterSplit s L m σ buf newLeaf pm) := by
  obtain ⟨buf, hbuf, hentries⟩ := readEntries_spec MAX_LEAF_KEY fun i hi =>
    (h.data.slots L m hm).read i (by rw [hfull]; exact hi)
  obtain ⟨σ, hsort, hperm, hsorted⟩ := qsort_spec 29 (2 * MAX_LEAF_KEY) 0 (MAX_LEAF_KEY - 1) buf
    m.fingerBuffer (by decide) (by decide)
  have hsp : SplitOf s L m σ buf := ⟨hm, hfull, hperm, hsorted, hentries⟩
  have hpl : m.altPtr ∈ LawfulPmem.leaves s.pm := by
    have hmem := h.twin.mem L (mem_leaves_of_index hL)
    rwa [TreeState.pleafOf, hcut, TreeState.altOf_some hm] at hmem
  obtain ⟨q, pm₁, pm₂, l, halloc, hlink, hok₂, hqfresh, hleaves₂, hrecs₂, hsame, hl, hleft, hright,
    hoff⟩ := split_memory hok t hpl ((buf ∘ σ) (LEFT_KEY - 1)).oneKey
      ((buf ∘ σ) (MAX_LEAF_KEY - 1)).oneKey
  exact ⟨σ, buf, q, pm₁, pm₂, hsp, hbuf, hsort, halloc, hlink, hsame, hok₂,
    h.split hsp hL hcut hheld hqfresh hleaves₂ hrecs₂ hsame hl hleft hright hoff⟩

theorem Inv.splitFull (h : Inv cuts tail s) {n : Nat} (hok : Ok (n + 1) s.pm) (t : Tid)
    (hm : s.dleafHeap L = some m) (hL : L ∈ labels s.index) (hcut : cuts L = none)
    (hheld : m.tempInsert = 1) (hfull : m.maxUse = MAX_LEAF_KEY) :
    ∃ σ buf newLeaf pm, SplitOf s L m σ buf ∧
      ZBTree.splitFull s t L = .ok (s.brk + 1, (buf (σ SPLIT_POS)).oneKey, m.altPtr,
        afterSplit s L m σ buf newLeaf pm) ∧
      Ok n pm ∧
      Inv (Function.update cuts L (some (splitCut s m σ buf))) tail
        (afterSplit s L m σ buf newLeaf pm) ∧
      (∀ k v, (afterSplit s L m σ buf newLeaf pm).Contains k v ↔ s.Contains k v) ∧
      Grows s (afterSplit s L m σ buf newLeaf pm) := by
  obtain ⟨σ, buf, q, pm₁, pm, hsp, hbuf, hsort, halloc, hlink, -, hok', hinv⟩ :=
    h.split_parts hok t hm hL hcut hheld hfull
  exact ⟨σ, buf, q, pm, hsp, splitFull_eq_ok.mpr ⟨m, buf, buf ∘ σ, m.fingerBuffer ∘ σ, q, pm₁, pm,
    hm, hbuf, hsort, halloc, hlink, rfl⟩, hok', hinv⟩

end Split

/-! ### Recording the split -/

/-- The `P_Leaf` chain after the separator has been recorded and `alt_ptr` put back. -/
theorem Twin.install (h : Twin cuts s) {c : Cut} (hcut : cuts L = some c) {s₁ : TreeState P}
    (hleaves : (s₁.setLeaf L { m with tempInsert := 0, altPtr := c.pleaf }).leaves
      (Function.update cuts L none) = s.leaves cuts)
    (hheap : s₁.dleafHeap = s.dleafHeap) (hpm : s₁.pm = s.pm) (hstart : s₁.leafStart = s.leafStart) :
    Twin (Function.update cuts L none)
      (s₁.setLeaf L { m with tempInsert := 0, altPtr := c.pleaf }) := by
  have halt : ∀ b ∈ labels (s.leaves cuts),
      (s₁.setLeaf L { m with tempInsert := 0, altPtr := c.pleaf }).pleafOf
        (Function.update cuts L none) b = s.pleafOf cuts b := by
    intro b hb
    by_cases hbL : b = L
    · subst hbL
      simp only [TreeState.pleafOf, Function.update_self, hcut, TreeState.altOf, TreeState.setLeaf]
    · simp only [TreeState.pleafOf, TreeState.altOf, TreeState.setLeaf,
        Function.update_of_ne hbL, hheap]
  have hmap : (labels (s.leaves cuts)).map
      ((s₁.setLeaf L { m with tempInsert := 0, altPtr := c.pleaf }).pleafOf
        (Function.update cuts L none)) = (labels (s.leaves cuts)).map (s.pleafOf cuts) :=
    List.map_congr_left halt
  refine ⟨?_, ?_, ?_⟩
  · intro b hb
    rw [hleaves] at hb
    rw [halt b hb]
    show _ ∈ LawfulPmem.leaves s₁.pm
    rw [hpm]
    exact h.mem b hb
  · rw [hleaves, hmap]
    exact h.nodup
  · rw [hleaves, hmap]
    show Seg (pnext s₁.pm) s₁.leafStart _ 0
    rw [hpm, hstart]
    exact h.chain

theorem Located.congr (h : Located cuts s) {cuts' : Cuts} {s' : TreeState P}
    (hleaves : s'.leaves cuts' = s.leaves cuts) (hheap : s'.dleafHeap = s.dleafHeap)
    (hpm : s'.pm = s.pm) : Located cuts' s' where
  sorted := hleaves ▸ h.sorted
  recs b n i hn hi := by
    rw [hheap] at hn
    rw [hpm]
    exact h.recs b n i hn hi
  range b n k i hn hi := by
    rw [hheap] at hn
    rw [hpm] at hi
    rw [hleaves]
    exact h.range b n k i hn hi

theorem Inv.install (h : Inv cuts tail s) {c : Cut} (hcut : cuts L = some c) {key : Key}
    {path : List Cursor} (hfind : findInsert s key = .ok (path, L)) :
    ∃ (s₁ s' : TreeState P) (m : DLeaf), installSeparator s key c.key L c.right c.pleaf = .ok s' ∧
      s.dleafHeap L = some m ∧
      InsAfter L c.key c.right s.index s'.index ∧
      s₁ = { s with
        innerHeap := s₁.innerHeap, brk := s₁.brk, root := s₁.root, tempLevel := s₁.tempLevel } ∧
      s' = s₁.setLeaf L { m with tempInsert := 0, altPtr := c.pleaf } ∧
      Inv (Function.update cuts L none) tail s' ∧
      (∀ k v, s'.Contains k v ↔ s.Contains k v) ∧ Grows s s' := by
  obtain ⟨s₁, s', hrun, hins, hbrk₁, hsame, ⟨m, hm, rfl⟩, hleaves, hskel⟩ := h.skel.install hcut hfind
  have hheap₁ : s₁.dleafHeap = s.dleafHeap := by rw [hsame]
  have hpm₁ : s₁.pm = s.pm := by rw [hsame]
  have hbuf₁ : s₁.bufHeap = s.bufHeap := by rw [hsame]
  have hstart₁ : s₁.leafStart = s.leafStart := by rw [hsame]
  have hm₁ : s₁.dleafHeap L = some m := by rw [hheap₁, hm]
  have hview : SameView m { m with tempInsert := 0, altPtr := c.pleaf } := SameView.of_slots rfl rfl
  -- the cuts that are left were there before, and `L` is not one of their leaves
  have hdata₁ : Data (Function.update cuts L none) s₁ := by
    obtain ⟨hsorted, hrecs, hrange⟩ :=
      (h.data.located.congr hleaves hheap₁ hpm₁ : Located (Function.update cuts L none) s₁)
    refine ⟨hsorted, ?_, hrecs, hrange, ?_⟩
    · intro b n hn
      rw [hheap₁] at hn
      rw [hpm₁]
      exact h.data.slots b n hn
    · intro b c' n nr hc hn hnr
      have hbL : b ≠ L := by
        rintro rfl
        rw [Function.update_self] at hc
        exact absurd hc (by simp)
      rw [Function.update_of_ne hbL] at hc
      rw [hheap₁] at hn hnr
      rw [hpm₁, hbuf₁]
      obtain ⟨hlt, hb⟩ := h.data.buffer b c' n nr hc hn hnr
      exact ⟨hlt.trans_le hbrk₁, hb⟩
  -- releasing the leaf changes neither what is in it nor the pairs
  have hcont : ∀ k v, (s₁.setLeaf L { m with tempInsert := 0, altPtr := c.pleaf }).Contains k v ↔
      s.Contains k v := by
    intro k v
    rw [contains_setLeaf hm₁ hview]
    simp only [TreeState.Contains, hheap₁, hpm₁]
  refine ⟨s₁, _, m, hrun, hm, hins, hsame, rfl, ⟨hskel, ?_, ?_⟩, hcont,
    ⟨fun k v hv => (hcont k v).mpr hv, ?_⟩⟩
  · refine hdata₁.setLeaf hm₁ hview fun hc => ?_
    rw [Function.update_self] at hc
    exact absurd hc (by simp)
  · exact h.twin.install hcut hleaves hheap₁ hpm₁ hstart₁
  · intro W _ hpairs
    refine PairsIn.setLeaf ?_ hm₁ hview
    intro b n hn
    rw [hheap₁] at hn
    rw [hpm₁]
    exact hpairs b n hn

end ZBTree
