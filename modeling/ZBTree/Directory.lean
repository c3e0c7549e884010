import ZBTree.Allocator
import Mathlib.Order.Basic

/-!
# The block directory

What the directories of an allocator list while nothing is freed, and what one `n_free`
does to them. `n_allocate` writes the id that it will look at next into the header of the
block that it hands out, and `n_free` erases the entry of that id, which is the entry of
another block.
-/

namespace ZBTree

/-- The header of the `n`-th block of a pool. -/
def blockAt (start n : Nat) : Nat := start + 1024 + n * CHUNK_SIZE

theorem blockAt_succ (start n : Nat) :
    blockAt start (n + 1) = blockAt start n + CHUNK_SIZE := by
  unfold blockAt
  rw [Nat.succ_mul, ← Nat.add_assoc]

theorem blockAt_injective {start : Nat} {n n' : Nat} (h : blockAt start n = blockAt start n') :
    n = n' := by
  simp only [blockAt, CHUNK_SIZE] at h
  omega

theorem blockAt_lt_iff {start : Nat} {n n' : Nat} :
    blockAt start n < blockAt start n' ↔ n < n' := by
  unfold blockAt CHUNK_SIZE
  omega

theorem blockAt_le_iff {start n n' : Nat} : blockAt start n ≤ blockAt start n' ↔ n ≤ n' := by
  rw [← Nat.not_lt, blockAt_lt_iff, Nat.not_lt]

/-! ### The blocks cut so far

`BlockCuts` lists the kinds of the blocks in the order in which they have been cut. Block `j` of a kind is the one
that the directory lists under the id `j`, as long as nothing is freed. -/

/-- The blocks that have been cut: how many of each kind, and which block of the pool the
`j`-th of a kind is. -/
structure BlockCuts where
  total : Nat
  count : BlockKind → Nat
  place : BlockKind → Nat → Nat

/-- The blocks when one more has been cut. -/
def BlockCuts.cut (c : BlockCuts) (kind : BlockKind) : BlockCuts where
  total := c.total + 1
  count := Function.update c.count kind (c.count kind + 1)
  place := Function.update c.place kind
    (Function.update (c.place kind) (c.count kind) c.total)

def BlockCuts.cutMany : Nat → BlockCuts → BlockKind → BlockCuts
  | 0, c, _ => c
  | n + 1, c, kind => cutMany n (c.cut kind) kind

/-- Every place in the pool belongs to one block of one kind. -/
structure BlockCuts.Exact (c : BlockCuts) : Prop where
  place_lt : ∀ {kind j}, j < c.count kind → c.place kind j < c.total
  place_inj : ∀ {kind kind' j j'}, j < c.count kind → j' < c.count kind' →
    c.place kind j = c.place kind' j' → kind = kind' ∧ j = j'
  place_onto : ∀ {n}, n < c.total → ∃ kind j, j < c.count kind ∧ c.place kind j = n
  place_mono : ∀ {kind j j'}, j < j' → j' < c.count kind → c.place kind j < c.place kind j'

/-- The blocks of `c` are still there in `c'`. -/
structure BlockCuts.Extends (c c' : BlockCuts) : Prop where
  total_le : c.total ≤ c'.total
  count_le : ∀ kind, c.count kind ≤ c'.count kind
  place_eq : ∀ {kind j}, j < c.count kind → c'.place kind j = c.place kind j

namespace BlockCuts

variable {c c' c'' : BlockCuts} {kind kind' : BlockKind} {j n : Nat}

theorem Extends.refl (c : BlockCuts) : c.Extends c := ⟨Nat.le_refl _, fun _ => Nat.le_refl _, fun _ => rfl⟩

theorem Extends.trans (h : c.Extends c') (h' : c'.Extends c'') : c.Extends c'' where
  total_le := h.total_le.trans h'.total_le
  count_le kind := (h.count_le kind).trans (h'.count_le kind)
  place_eq hj :=
    (h'.place_eq (Nat.lt_of_lt_of_le hj (h.count_le _))).trans (h.place_eq hj)

@[simp] theorem cut_total : (c.cut kind).total = c.total + 1 := rfl

@[simp] theorem cut_count_self : (c.cut kind).count kind = c.count kind + 1 := by
  simp [cut]

theorem cut_count_of_ne (hne : kind' ≠ kind) : (c.cut kind).count kind' = c.count kind' := by
  simp [cut, hne]

@[simp] theorem cut_place_new : (c.cut kind).place kind (c.count kind) = c.total := by
  simp [cut]

theorem cut_place_old (hj : j < c.count kind') : (c.cut kind).place kind' j = c.place kind' j := by
  by_cases hk : kind' = kind
  · subst hk
    simp [cut, Nat.ne_of_lt hj]
  · simp [cut, hk]

theorem cut_extends (c : BlockCuts) (kind : BlockKind) : c.Extends (c.cut kind) where
  total_le := Nat.le_succ _
  count_le kind' := by
    by_cases hk : kind' = kind
    · subst hk
      simp
    · rw [cut_count_of_ne hk]
  place_eq hj := cut_place_old hj

theorem cut_cases (hj : j < (c.cut kind).count kind') :
    (kind' = kind ∧ j = c.count kind) ∨ j < c.count kind' := by
  by_cases hk : kind' = kind
  · subst hk
    rw [cut_count_self] at hj
    rcases Nat.lt_succ_iff_lt_or_eq.mp hj with hlt | heq
    · exact Or.inr hlt
    · exact Or.inl ⟨rfl, heq⟩
  · rw [cut_count_of_ne hk] at hj
    exact Or.inr hj

theorem Exact.cut (h : c.Exact) (kind : BlockKind) : (c.cut kind).Exact where
  place_lt {kind' j} hj := by
    rcases cut_cases hj with ⟨rfl, rfl⟩ | hold
    · simp
    · rw [cut_place_old hold, cut_total]
      exact Nat.lt_succ_of_lt (h.place_lt hold)
  place_inj {k k' j j'} hj hj' heq := by
    rcases cut_cases hj with ⟨rfl, rfl⟩ | hold <;> rcases cut_cases hj' with ⟨rfl, rfl⟩ | hold'
    · exact ⟨rfl, rfl⟩
    · rw [cut_place_new, cut_place_old hold'] at heq
      have := h.place_lt hold'
      omega
    · rw [cut_place_new, cut_place_old hold] at heq
      have := h.place_lt hold
      omega
    · rw [cut_place_old hold, cut_place_old hold'] at heq
      exact h.place_inj hold hold' heq
  place_onto {n} hn := by
    rcases Nat.lt_succ_iff_lt_or_eq.mp hn with hlt | rfl
    · obtain ⟨k, j, hj, heq⟩ := h.place_onto hlt
      exact ⟨k, j, Nat.lt_of_lt_of_le hj ((c.cut_extends kind).count_le k),
        (cut_place_old hj).trans heq⟩
    · exact ⟨kind, c.count kind, by simp, cut_place_new⟩
  place_mono {kind' j j'} hlt hj' := by
    rcases cut_cases hj' with ⟨rfl, rfl⟩ | hold
    · rw [cut_place_new, cut_place_old hlt]
      exact h.place_lt hlt
    · rw [cut_place_old hold, cut_place_old (hlt.trans hold)]
      exact h.place_mono hlt hold

theorem Exact.place_ge (h : c.Exact) (hj : j < c.count kind) :
    j ≤ c.place kind j := by
  induction j with
  | zero => exact Nat.zero_le _
  | succ j ih =>
    have hlt := h.place_mono (Nat.lt_add_one j) hj
    have := ih (Nat.lt_of_succ_lt hj)
    omega

theorem Exact.count_le_total (h : c.Exact) (kind : BlockKind) : c.count kind ≤ c.total := by
  rcases Nat.eq_zero_or_pos (c.count kind) with hz | hpos
  · rw [hz]
    exact Nat.zero_le _
  · have hlast : c.count kind - 1 < c.count kind := Nat.sub_lt hpos Nat.one_pos
    have := h.place_ge hlast
    have := h.place_lt hlast
    omega

theorem exact_none : Exact ⟨0, fun _ => 0, fun _ _ => 0⟩ :=
  ⟨fun hj => absurd hj (Nat.not_lt_zero _), fun hj => absurd hj (Nat.not_lt_zero _),
    fun hn => absurd hn (Nat.not_lt_zero _), fun _ hj => absurd hj (Nat.not_lt_zero _)⟩

theorem cutMany_count_self (n : Nat) (c : BlockCuts) (kind : BlockKind) :
    (c.cutMany n kind).count kind = c.count kind + n := by
  induction n generalizing c with
  | zero => rfl
  | succ n ih =>
    rw [cutMany, ih, cut_count_self]
    omega

theorem Exact.cutMany (h : c.Exact) (n : Nat) (kind : BlockKind) : (c.cutMany n kind).Exact := by
  induction n generalizing c with
  | zero => exact h
  | succ n ih => exact ih (h.cut kind)

end BlockCuts

/-! ### The directories list the blocks that have been cut -/

/-- The directories of `a` list exactly the blocks of `c`, in the order of their cutting. -/
structure NAlc.Listed (a : NAlc) (c : BlockCuts) : Prop where
  exact : c.Exact
  end_eq : a.endAddress = blockAt a.startAddress c.total
  count_le : ∀ kind, c.count kind ≤ 2 ^ 32
  page : ∀ kind, a.pageId kind = BitVec.ofNat 32 (c.count kind)
  entry : ∀ kind i, a.list kind i =
    if i.toNat < c.count kind then some (blockAt a.startAddress (c.place kind i.toNat)) else none

/-- The header of the `j`-th block of a kind. -/
def NAlc.header (a : NAlc) (c : BlockCuts) (kind : BlockKind) (j : Nat) : Nat :=
  blockAt a.startAddress (c.place kind j)

/-- The headers of the blocks say where their data begin and what they are used for. -/
def NAlc.Headed (a : NAlc) (m : Headers) (c : BlockCuts) : Prop :=
  ∀ kind j, j < c.count kind →
    (m (a.header c kind j)).startAddress = a.header c kind j + baseMetaSize ∧
    (m (a.header c kind j)).blockType = kind.code

/-- The headers of the blocks that `c'` has and `c` has not are as `get_more_chunk` leaves
them, and no other header has been written. -/
structure NAlc.Fresh (a : NAlc) (m m' : Headers) (c c' : BlockCuts) : Prop where
  new_header : ∀ kind j, c.count kind ≤ j → j < c'.count kind →
    m' (a.header c' kind j) = ⟨a.header c' kind j + baseMetaSize, BitVec.ofNat 30 j, kind.code, 0⟩
  old_header : ∀ n, n < c.total → m' (blockAt a.startAddress n) = m (blockAt a.startAddress n)
  beyond : ∀ n, c'.total ≤ n → m' (blockAt a.startAddress n) = m (blockAt a.startAddress n)

namespace NAlc

variable {a : NAlc} {m : Headers} {c : BlockCuts} {kind : BlockKind}

theorem Listed.entry_of_lt (h : a.Listed c) {i : BitVec 32} (hi : i.toNat < c.count kind) :
    a.list kind i = some (a.header c kind i.toNat) := by
  rw [h.entry, if_pos hi]
  rfl

theorem Listed.entry_ofNat (h : a.Listed c) {j : Nat} (hj : j < c.count kind) :
    a.list kind (BitVec.ofNat 32 j) = some (a.header c kind j) := by
  have hlt : j < 2 ^ 32 := Nat.lt_of_lt_of_le hj (h.count_le kind)
  have htoNat : (BitVec.ofNat 32 j).toNat = j := by
    rw [BitVec.toNat_ofNat, Nat.mod_eq_of_lt hlt]
  rw [h.entry_of_lt (by rwa [htoNat]), htoNat]

theorem header_injective (h : c.Exact) {kind' : BlockKind} {j j' : Nat} (hj : j < c.count kind)
    (hj' : j' < c.count kind') (heq : a.header c kind j = a.header c kind' j') :
    kind = kind' ∧ j = j' :=
  h.place_inj hj hj' (blockAt_injective heq)

theorem header_eq_of_extends {c' : BlockCuts} (h : c.Extends c') {j : Nat} (hj : j < c.count kind) :
    a.header c' kind j = a.header c kind j := by
  rw [header, header, h.place_eq hj]

@[simp] theorem cutChunk_startAddress : (a.cutChunk m kind).1.startAddress = a.startAddress := rfl
@[simp] theorem cutChunk_decisionId : (a.cutChunk m kind).1.decisionId = a.decisionId := rfl

/-- Cutting one block, as long as there is an id for it. -/
theorem Listed.cutChunk (h : a.Listed c) (hroom : c.count kind < 2 ^ 32) :
    (a.cutChunk m kind).1.Listed (c.cut kind) := by
  have hpage : (a.pageId kind).toNat = c.count kind := by
    rw [h.page, BitVec.toNat_ofNat, Nat.mod_eq_of_lt hroom]
  refine ⟨h.exact.cut kind, ?_, ?_, ?_, ?_⟩
  · rw [cutChunk_startAddress, BlockCuts.cut_total, blockAt_succ, ← h.end_eq]
    rfl
  · intro kind'
    by_cases hk : kind' = kind
    · subst hk
      rw [BlockCuts.cut_count_self]
      exact hroom
    · rw [BlockCuts.cut_count_of_ne hk]
      exact h.count_le kind'
  · intro kind'
    by_cases hk : kind' = kind
    · subst hk
      rw [BlockCuts.cut_count_self]
      simp only [NAlc.cutChunk, nextPage, setEntry_pageId, Function.update_self, h.page]
      exact (BitVec.ofNat_add _ 1).symm
    · rw [BlockCuts.cut_count_of_ne hk, ← h.page kind']
      simp [NAlc.cutChunk, nextPage, hk]
  · intro kind' i
    rw [cutChunk_startAddress]
    have hlist : (a.cutChunk m kind).1.list kind' i =
        (a.setEntry kind (a.pageId kind) (some a.endAddress)).list kind' i := rfl
    by_cases hk : kind' = kind
    · subst hk
      rw [hlist, setEntry_list_self, BlockCuts.cut_count_self]
      by_cases hi : i = a.pageId kind'
      · rw [if_pos hi, hi, hpage, if_pos (Nat.lt_succ_self _), BlockCuts.cut_place_new, h.end_eq]
      · have hne : i.toNat ≠ c.count kind' := fun heq => hi (BitVec.eq_of_toNat_eq (heq.trans hpage.symm))
        rw [if_neg hi, h.entry]
        by_cases hlt : i.toNat < c.count kind'
        · rw [if_pos hlt, if_pos (Nat.lt_succ_of_lt hlt), BlockCuts.cut_place_old hlt]
        · rw [if_neg hlt, if_neg (by omega)]
    · rw [hlist, setEntry_list_of_ne _ _ _ _ _ hk, h.entry, BlockCuts.cut_count_of_ne hk]
      by_cases hlt : i.toNat < c.count kind'
      · rw [if_pos hlt, if_pos hlt, BlockCuts.cut_place_old hlt]
      · rw [if_neg hlt, if_neg hlt]

/-- `a'` and `m'` are `a` and `m` with some more blocks of one kind. -/
structure Grown (a : NAlc) (m : Headers) (c : BlockCuts) (kind : BlockKind) (a' : NAlc) (m' : Headers)
    (c' : BlockCuts) : Prop where
  listed : a'.Listed c'
  extends_cuts : c.Extends c'
  fresh : a.Fresh m m' c c'
  count_of_ne : ∀ kind', kind' ≠ kind → c'.count kind' = c.count kind'
  decision : a'.decisionId = a.decisionId
  start : a'.startAddress = a.startAddress

theorem Grown.refl (h : a.Listed c) (m : Headers) (kind : BlockKind) :
    a.Grown m c kind a m c where
  listed := h
  extends_cuts := BlockCuts.Extends.refl c
  fresh := ⟨fun _ _ hle hlt => absurd hlt (Nat.not_lt.mpr hle), fun _ _ => rfl, fun _ _ => rfl⟩
  count_of_ne _ _ := rfl
  decision := rfl
  start := rfl

theorem Grown.trans {a' a'' : NAlc} {m' m'' : Headers} {c' c'' : BlockCuts}
    (h : a.Grown m c kind a' m' c') (h' : a'.Grown m' c' kind a'' m'' c'') :
    a.Grown m c kind a'' m'' c'' where
  listed := h'.listed
  extends_cuts := h.extends_cuts.trans h'.extends_cuts
  fresh := by
    have hstart : ∀ kind j, a'.header c'' kind j = a.header c'' kind j := by
      intro kind j
      rw [header, header, h.start]
    constructor
    · intro k j hle hlt
      by_cases hold : j < c'.count k
      · have hplace : c'.place k j < c'.total := h.listed.exact.place_lt hold
        have hkept : m'' (a.header c'' k j) = m' (a.header c' k j) := by
          rw [header_eq_of_extends h'.extends_cuts hold, header, ← h.start]
          exact h'.fresh.old_header _ hplace
        rw [hkept, header_eq_of_extends h'.extends_cuts hold]
        exact h.fresh.new_header k j hle hold
      · have hnew := h'.fresh.new_header k j (Nat.le_of_not_lt hold) hlt
        rwa [hstart] at hnew
    · intro n hn
      have hkept := h'.fresh.old_header n (Nat.lt_of_lt_of_le hn h.extends_cuts.total_le)
      rw [h.start] at hkept
      exact hkept.trans (h.fresh.old_header n hn)
    · intro n hn
      have hkept := h'.fresh.beyond n hn
      rw [h.start] at hkept
      exact hkept.trans (h.fresh.beyond n (h'.extends_cuts.total_le.trans hn))
  count_of_ne kind' hk := (h'.count_of_ne kind' hk).trans (h.count_of_ne kind' hk)
  decision := h'.decision.trans h.decision
  start := h'.start.trans h.start

theorem newChunk_eq (h : a.Listed c) (kind : BlockKind) :
    a.newChunk kind =
      ⟨a.endAddress + baseMetaSize, BitVec.ofNat 30 (c.count kind), kind.code, 0⟩ := by
  have hid : (a.pageId kind).setWidth 30 = BitVec.ofNat 30 (c.count kind) := by
    rw [h.page]
    apply BitVec.eq_of_toNat_eq
    simp
  rw [newChunk, hid]

theorem Grown.cutChunk (h : a.Listed c) (m : Headers) (hroom : c.count kind < 2 ^ 32) :
    a.Grown m c kind (a.cutChunk m kind).1 (a.cutChunk m kind).2 (c.cut kind) where
  listed := h.cutChunk hroom
  extends_cuts := c.cut_extends kind
  fresh := by
    have hmem : (a.cutChunk m kind).2 = Function.update m a.endAddress (a.newChunk kind) := rfl
    constructor
    · intro k j hle hlt
      rcases BlockCuts.cut_cases hlt with ⟨rfl, rfl⟩ | hold
      · have hend : a.header (c.cut k) k (c.count k) = a.endAddress := by
          rw [header, BlockCuts.cut_place_new, h.end_eq]
        rw [hmem, hend, Function.update_self, newChunk_eq h]
      · exact absurd hold (Nat.not_lt.mpr hle)
    · intro n hn
      have hne : blockAt a.startAddress n ≠ a.endAddress := by
        rw [h.end_eq]
        exact fun heq => Nat.ne_of_lt hn (blockAt_injective heq)
      rw [hmem, Function.update_of_ne hne]
    · intro n hn
      have hne : blockAt a.startAddress n ≠ a.endAddress := by
        rw [h.end_eq]
        exact fun heq => Nat.ne_of_gt hn (blockAt_injective heq)
      rw [hmem, Function.update_of_ne hne]
  count_of_ne _ hk := BlockCuts.cut_count_of_ne hk
  decision := rfl
  start := rfl

theorem getMoreChunk_endAddress (n : Nat) (a : NAlc) (m : Headers) :
    (NAlc.getMoreChunk n a m kind).1.endAddress = a.endAddress + n * CHUNK_SIZE := by
  induction n generalizing a m with
  | zero =>
    rw [Nat.zero_mul]
    rfl
  | succ n ih =>
    rw [Nat.succ_mul, Nat.add_comm (n * CHUNK_SIZE), ← Nat.add_assoc]
    exact ih _ _

theorem Grown.getMoreChunk (n : Nat) (h : a.Listed c) (m : Headers)
    (hroom : c.count kind + n ≤ 2 ^ 32) :
    a.Grown m c kind (NAlc.getMoreChunk n a m kind).1 (NAlc.getMoreChunk n a m kind).2
      (c.cutMany n kind) := by
  induction n generalizing a m c with
  | zero => exact Grown.refl h m kind
  | succ n ih =>
    have hfirst : a.Grown m c kind _ _ (c.cut kind) := Grown.cutChunk h m (by omega)
    have hcount : (c.cut kind).count kind + n ≤ 2 ^ 32 := by
      rw [BlockCuts.cut_count_self]
      omega
    exact hfirst.trans (ih hfirst.listed (a.cutChunk m kind).2 hcount)

/-- The directories as the calls of the allocator leave them: blocks are cut in groups of
four, and the counters stay within what has been cut. -/
structure Kept (a : NAlc) (c : BlockCuts) : Prop where
  listed : a.Listed c
  four : ∀ kind, 4 ∣ c.count kind
  node_decided : (a.decisionId .node).toNat < c.count .node
  log_decided : (a.decisionId .log).toNat ≤ c.count .log

/-- `get_free_block` finds the block it looks for, or cuts it. -/
theorem Listed.getFreeBlock (h : a.Listed c) (m : Headers) (hfour : 4 ∣ c.count kind)
    (hdec : (a.decisionId kind).toNat ≤ c.count kind) :
    ∃ c' a' m', a.getFreeBlock m kind =
        (some (a.header c' kind (a.decisionId kind).toNat), a', m') ∧
      a.Grown m c kind a' m' c' ∧ 4 ∣ c'.count kind ∧
      (a.decisionId kind).toNat < c'.count kind := by
  rcases Nat.lt_or_eq_of_le hdec with hlt | heq
  · refine ⟨c, a, m, ?_, Grown.refl h m kind, hfour, hlt⟩
    rw [NAlc.getFreeBlock, h.entry_of_lt hlt]
  · have hroom : c.count kind + 4 ≤ 2 ^ 32 := by
      have hword : (a.decisionId kind).toNat < 2 ^ 32 := (a.decisionId kind).isLt
      omega
    have hgrown := Grown.getMoreChunk 4 h m hroom
    have hcount := BlockCuts.cutMany_count_self 4 c kind
    have hlt : (a.decisionId kind).toNat < (c.cutMany 4 kind).count kind := by omega
    refine ⟨c.cutMany 4 kind, _, _, ?_, hgrown, by omega, hlt⟩
    have hmissing : a.list kind (a.decisionId kind) = none := by
      rw [h.entry, if_neg (by omega)]
    have hfound := hgrown.listed.entry_of_lt (i := a.decisionId kind) hlt
    have hdecision : (NAlc.getMoreChunk 4 a m kind).1.decisionId = a.decisionId := hgrown.decision
    rw [header, hgrown.start] at hfound
    simp only [NAlc.getFreeBlock, hmissing, hdecision, hfound, header]

theorem Listed.nextDecision (h : a.Listed c) (kind : BlockKind) : (a.nextDecision kind).Listed c where
  exact := h.exact
  end_eq := h.end_eq
  count_le := h.count_le
  page := h.page
  entry := h.entry

theorem Kept.node_decided_next (h : a.Kept c) :
    ((a.nextDecision .node).decisionId .node).toNat ≤ c.count .node := by
  rw [nextDecision_decisionId_self, BitVec.toNat_add]
  exact (Nat.mod_le _ _).trans h.node_decided

theorem nAllocateTree_of_room {free : Nat} {sz : BitVec 32}
    (hlist : a.list .node (a.decisionId .node) = some free) (hroom : ¬ lacksRoom (m free) sz) :
    a.nAllocateTree m sz =
      some ((m free).startAddress + (m free).bitmap.toNat, a,
        Function.update m free { m free with bitmap := (m free).bitmap + sz }) := by
  simp only [nAllocateTree, hlist, Option.bind_eq_bind, Option.bind_some, if_neg hroom,
    Option.pure_def]

theorem nAllocateTree_of_full {full free : Nat} {sz : BitVec 32} {a' : NAlc} {m' : Headers}
    (hlist : a.list .node (a.decisionId .node) = some full) (hroom : lacksRoom (m full) sz)
    (hfree : (a.nextDecision .node).getFreeBlock m .node = (some free, a', m')) :
    a.nAllocateTree m sz =
      some ((m' free).startAddress + (m' free).bitmap.toNat, a',
        Function.update m' free
          { m' free with blockType := BlockKind.node.code, bitmap := (m' free).bitmap + sz }) := by
  simp only [nAllocateTree, hlist, Option.bind_eq_bind, Option.bind_some, if_pos hroom, hfree,
    Option.pure_def, Function.update_self, Function.update_idem]

theorem nAllocateTree_cases {sz : BitVec 32} {q : Nat} {a' : NAlc} {m' : Headers}
    (hcall : a.nAllocateTree m sz = some (q, a', m')) :
    ∃ first, a.list .node (a.decisionId .node) = some first ∧
      ((¬ lacksRoom (m first) sz ∧ q = (m first).startAddress + (m first).bitmap.toNat ∧ a' = a ∧
          m' = Function.update m first { m first with bitmap := (m first).bitmap + sz }) ∨
        (lacksRoom (m first) sz ∧ ∃ free m₁,
          (a.nextDecision .node).getFreeBlock m .node = (some free, a', m₁) ∧
          q = (m₁ free).startAddress + (m₁ free).bitmap.toNat ∧
          m' = Function.update m₁ free
            { m₁ free with blockType := BlockKind.node.code, bitmap := (m₁ free).bitmap + sz })) := by
  cases hfirst : a.list .node (a.decisionId .node) with
  | none => simp [nAllocateTree, hfirst] at hcall
  | some first =>
    refine ⟨first, rfl, ?_⟩
    by_cases hlacks : lacksRoom (m first) sz
    · rcases hfree : (a.nextDecision .node).getFreeBlock m .node with ⟨found, a₁, m₁⟩
      cases found with
      | none => simp [nAllocateTree, hfirst, hlacks, hfree] at hcall
      | some free =>
        rw [nAllocateTree_of_full hfirst hlacks hfree] at hcall
        cases hcall
        exact Or.inr ⟨hlacks, free, m₁, rfl, rfl, rfl⟩
    · rw [nAllocateTree_of_room hfirst hlacks] at hcall
      cases hcall
      exact Or.inl ⟨hlacks, rfl, rfl, rfl⟩

theorem nAllocateLog_of_found {free : Nat} {sz : BitVec 32} {a' : NAlc} {m' : Headers}
    (hfree : a.getFreeBlock m .log = (some free, a', m')) :
    a.nAllocateLog m sz =
      some ((m' free).startAddress + (m' free).bitmap.toNat, a'.nextDecision .log,
        Function.update m' free
          { m' free with
            blockType := BlockKind.log.code
            blockId := ((a'.nextDecision .log).decisionId .log).setWidth 30
            bitmap := LOG_MARK }) := by
  simp only [NAlc.nAllocateLog, hfree, Option.bind_eq_bind, Option.bind_some, Option.pure_def]

theorem nAllocateLog_cases {sz : BitVec 32} {q : Nat} {a' : NAlc} {m' : Headers}
    (hcall : a.nAllocateLog m sz = some (q, a', m')) :
    ∃ free a₁ m₁, a.getFreeBlock m .log = (some free, a₁, m₁) ∧
      q = (m₁ free).startAddress + (m₁ free).bitmap.toNat ∧ a' = a₁.nextDecision .log ∧
      m' = Function.update m₁ free
        { m₁ free with
          blockType := BlockKind.log.code
          blockId := ((a₁.nextDecision .log).decisionId .log).setWidth 30
          bitmap := LOG_MARK } := by
  rcases hfree : a.getFreeBlock m .log with ⟨found, a₁, m₁⟩
  cases found with
  | none => simp [nAllocateLog, hfree] at hcall
  | some free =>
    rw [nAllocateLog_of_found hfree] at hcall
    cases hcall
    exact ⟨free, a₁, m₁, rfl, rfl, rfl, rfl⟩

theorem Kept.nAllocateTree_fits (h : a.Kept c) {sz : BitVec 32}
    (hroom : ¬ lacksRoom (m (a.header c .node (a.decisionId .node).toNat)) sz) :
    a.nAllocateTree m sz =
      let free := a.header c .node (a.decisionId .node).toNat
      some ((m free).startAddress + (m free).bitmap.toNat, a,
        Function.update m free { m free with bitmap := (m free).bitmap + sz }) :=
  nAllocateTree_of_room (h.listed.entry_of_lt h.node_decided) hroom

/-- The block in use lacks room: the piece is taken from the next one, which is cut first
if there is none. -/
theorem Kept.nAllocateTree_moves (h : a.Kept c) {sz : BitVec 32}
    (hroom : lacksRoom (m (a.header c .node (a.decisionId .node).toNat)) sz) :
    ∃ c' a' m', (a.nextDecision .node).Grown m c .node a' m' c' ∧ 4 ∣ c'.count .node ∧
      (a.decisionId .node + 1).toNat < c'.count .node ∧
      a.nAllocateTree m sz =
        let free := a.header c' .node (a.decisionId .node + 1).toNat
        some ((m' free).startAddress + (m' free).bitmap.toNat, a',
          Function.update m' free
            { m' free with blockType := BlockKind.node.code, bitmap := (m' free).bitmap + sz }) := by
  obtain ⟨c', a', m', heval, hgrown, hfour, hlt⟩ :=
    (h.listed.nextDecision .node).getFreeBlock m (h.four .node) h.node_decided_next
  rw [nextDecision_decisionId_self] at heval hlt
  refine ⟨c', a', m', hgrown, hfour, hlt, ?_⟩
  have hheader : (a.nextDecision .node).header c' .node (a.decisionId .node + 1).toNat =
      a.header c' .node (a.decisionId .node + 1).toNat := rfl
  rw [hheader] at heval
  exact nAllocateTree_of_full (h.listed.entry_of_lt h.node_decided) hroom heval

theorem Kept.nAllocateLog (h : a.Kept c) (m : Headers) (sz : BitVec 32) :
    ∃ c' a' m', a.Grown m c .log a' m' c' ∧ 4 ∣ c'.count .log ∧
      (a.decisionId .log).toNat < c'.count .log ∧
      (a.getFreeBlock m .log).1 = some (a.header c' .log (a.decisionId .log).toNat) ∧
      a.nAllocateLog m sz =
        let free := a.header c' .log (a.decisionId .log).toNat
        some ((m' free).startAddress + (m' free).bitmap.toNat, a'.nextDecision .log,
          Function.update m' free
            { m' free with
              blockType := BlockKind.log.code
              blockId := (a.decisionId .log + 1).setWidth 30
              bitmap := LOG_MARK }) := by
  obtain ⟨c', a', m', heval, hgrown, hfour, hlt⟩ :=
    h.listed.getFreeBlock m (h.four .log) h.log_decided
  refine ⟨c', a', m', hgrown, hfour, hlt, by rw [heval], ?_⟩
  rw [nAllocateLog_of_found heval, nextDecision_decisionId_self, hgrown.decision]

theorem handed_id (i : BitVec 32) :
    (i + 1).setWidth 30 = BitVec.ofNat 30 (i.toNat + 1) := by
  apply BitVec.eq_of_toNat_eq
  have hone : (1 : BitVec 32).toNat = 1 := rfl
  simp only [BitVec.toNat_setWidth, BitVec.toNat_add, BitVec.toNat_ofNat, hone]
  omega

theorem Kept.of_grown_node {a' : NAlc} {m' : Headers} {c' : BlockCuts} (h : a.Kept c)
    (hgrown : (a.nextDecision .node).Grown m c .node a' m' c') (hfour : 4 ∣ c'.count .node)
    (hlt : (a.decisionId .node + 1).toNat < c'.count .node) : a'.Kept c' where
  listed := hgrown.listed
  four kind := by
    by_cases hk : kind = .node
    · exact hk ▸ hfour
    · rw [hgrown.count_of_ne kind hk]
      exact h.four kind
  node_decided := by
    rw [hgrown.decision, nextDecision_decisionId_self]
    exact hlt
  log_decided := by
    rw [hgrown.decision, nextDecision_decisionId_of_ne _ _ _ (by decide),
      hgrown.count_of_ne .log (by decide)]
    exact h.log_decided

theorem Kept.of_grown_log {a' : NAlc} {m' : Headers} {c' : BlockCuts} (h : a.Kept c)
    (hgrown : a.Grown m c .log a' m' c') (hfour : 4 ∣ c'.count .log)
    (hlt : (a.decisionId .log).toNat < c'.count .log) : (a'.nextDecision .log).Kept c' where
  listed := hgrown.listed.nextDecision .log
  four kind := by
    by_cases hk : kind = .log
    · exact hk ▸ hfour
    · rw [hgrown.count_of_ne kind hk]
      exact h.four kind
  node_decided := by
    rw [nextDecision_decisionId_of_ne _ _ _ (by decide), hgrown.decision,
      hgrown.count_of_ne .node (by decide)]
    exact h.node_decided
  log_decided := by
    rw [nextDecision_decisionId_self, hgrown.decision, BitVec.toNat_add]
    exact (Nat.mod_le _ _).trans hlt

def firstCuts : BlockCuts :=
  (BlockCuts.cutMany 4 ⟨0, fun _ => 0, fun _ _ => 0⟩ .node).cutMany 4 .log

/-- A new allocator lists its first four tree blocks and its first four log blocks. -/
theorem init_grown (start : Nat) (m : Headers) :
    ∃ a₀ a₁ : NAlc, ∃ m₁, a₀.startAddress = start ∧ a₀.decisionId = (fun _ => 0) ∧
      a₀.Grown m ⟨0, fun _ => 0, fun _ _ => 0⟩ .node a₁ m₁
        (BlockCuts.cutMany 4 ⟨0, fun _ => 0, fun _ _ => 0⟩ .node) ∧
      a₁.Grown m₁ (BlockCuts.cutMany 4 ⟨0, fun _ => 0, fun _ _ => 0⟩ .node) .log
        (init start m).1 (init start m).2 firstCuts := by
  let a₀ : NAlc :=
    { list := fun _ _ => none, pageId := fun _ => 0, decisionId := fun _ => 0,
      startAddress := start, endAddress := start + 1024 }
  have hlisted : a₀.Listed ⟨0, fun _ => 0, fun _ _ => 0⟩ :=
    { exact := BlockCuts.exact_none
      end_eq := by simp [a₀, blockAt]
      count_le := fun _ => Nat.zero_le _
      page := fun _ => rfl
      entry := fun _ _ => rfl }
  have hnode : a₀.Grown m ⟨0, fun _ => 0, fun _ _ => 0⟩ .node (NAlc.getMoreChunk 4 a₀ m .node).1
      (NAlc.getMoreChunk 4 a₀ m .node).2
      (BlockCuts.cutMany 4 ⟨0, fun _ => 0, fun _ _ => 0⟩ .node) :=
    Grown.getMoreChunk 4 hlisted m (by decide)
  refine ⟨a₀, _, _, rfl, rfl, hnode, ?_⟩
  exact Grown.getMoreChunk 4 hnode.listed (NAlc.getMoreChunk 4 a₀ m .node).2 (by decide)

theorem init_decisionId (start : Nat) (m : Headers) :
    (init start m).1.decisionId = fun _ => 0 := by
  obtain ⟨a₀, a₁, m₁, -, hdecision, hnode, hlog⟩ := init_grown start m
  exact hlog.decision.trans (hnode.decision.trans hdecision)

theorem init_kept (start : Nat) (m : Headers) : (init start m).1.Kept firstCuts := by
  obtain ⟨a₀, a₁, m₁, -, -, -, hlog⟩ := init_grown start m
  have hzero := init_decisionId start m
  refine ⟨hlog.listed, ?_, ?_, ?_⟩
  · intro kind
    cases kind <;> decide
  · rw [hzero]
    decide
  · rw [hzero]
    decide

theorem init_startAddress (start : Nat) (m : Headers) : (init start m).1.startAddress = start := by
  obtain ⟨a₀, a₁, m₁, hstart, -, hnode, hlog⟩ := init_grown start m
  rw [hlog.start, hnode.start, hstart]

theorem init_beyond (start : Nat) (m : Headers) {n : Nat} (hn : firstCuts.total ≤ n) :
    (init start m).2 (blockAt start n) = m (blockAt start n) := by
  obtain ⟨a₀, a₁, m₁, hstart, -, hnode, hlog⟩ := init_grown start m
  have hlast := hlog.fresh.beyond n hn
  have hfirst := hnode.fresh.beyond n (hlog.extends_cuts.total_le.trans hn)
  rw [hnode.start, hstart] at hlast
  rw [hstart] at hfirst
  exact hlast.trans hfirst

end NAlc

end ZBTree
