import ZBTree.BlockOwners

/-!
# Blocks that are handed out again

`n_free` lists a block under the next id, and `n_allocate` takes the log blocks in the order of
their ids. As long as each free finds the header of the block of its record and block ids fit into
their 30 bits, every id that is still to come stands for another block, whose header says that
nothing of it is in use, and a segment starts where the data of its block start.
-/

namespace ZBTree

namespace NAlc

variable {a a' : NAlc} {m m' : Headers} {kind : BlockKind} {header : Nat}

/-- The block can be handed out without a further free. -/
def Coming (a : NAlc) (header : Nat) : Prop :=
  ∃ id, a.list .log id = some header ∧ (a.decisionId .log).toNat ≤ id.toNat

/-- The directories when every `n_free` so far has found the header of a log block. -/
structure Indexed (a : NAlc) (m : Headers) : Prop where
  ending : ∃ n, a.endAddress = blockAt a.startAddress n
  listed : ∀ kind id header, a.list kind id = some header → a.Cut m kind header
  data : ∀ header, a.Cut m .log header → (m header).startAddress = header + baseMetaSize
  below : ∀ id header, a.list .log id = some header → id.toNat < (a.pageId .log).toNat
  coming : ∀ id header, a.list .log id = some header → (a.decisionId .log).toNat ≤ id.toNat →
    (m header).blockId.toNat = id.toNat ∧ (m header).bitmap = 0

/-- `n` more log blocks get ids that fit into a header. -/
def IdsLeft (a : NAlc) (n : Nat) : Prop := (a.pageId .log).toNat + n ≤ 2 ^ 30

instance (a : NAlc) (n : Nat) : Decidable (a.IdsLeft n) := inferInstanceAs (Decidable (_ ≤ _))

/-- A step of an allocator that lists no block of another's and forgets no log block. -/
structure Moves (a : NAlc) (m : Headers) (a' : NAlc) (m' : Headers) : Prop where
  start : a'.startAddress = a.startAddress
  log_cut : ∀ x, a.Cut m .log x → a'.Cut m' .log x
  indexed : a'.Indexed m'

def ComesFrom (a : NAlc) (m : Headers) (a' : NAlc) : Prop :=
  ∀ x, a'.Coming x → a.Coming x ∨ ¬ a.Cut m .log x

theorem Moves.trans {a'' : NAlc} {m'' : Headers} (h : Moves a m a' m') (h' : Moves a' m' a'' m'') :
    Moves a m a'' m'' where
  start := h'.start.trans h.start
  log_cut x hx := h'.log_cut x (h.log_cut x hx)
  indexed := h'.indexed

theorem ComesFrom.trans {a'' : NAlc} (h : ComesFrom a m a') (hcut : ∀ x, a.Cut m .log x → a'.Cut m' .log x)
    (h' : ComesFrom a' m' a'') : ComesFrom a m a'' := by
  intro x hx
  rcases h' x hx with hcoming | hnew
  · exact h x hcoming
  · exact Or.inr fun hold => hnew (hcut x hold)

theorem page_succ (hids : a.IdsLeft 1) :
    (a.pageId .log + 1).toNat = (a.pageId .log).toNat + 1 := by
  unfold IdsLeft at hids
  rw [BitVec.toNat_add]
  exact Nat.mod_eq_of_lt (by show _ + 1 < 2 ^ 32; omega)

theorem page_width (hids : a.IdsLeft 1) :
    ((a.pageId .log).setWidth 30).toNat = (a.pageId .log).toNat := by
  rw [BitVec.toNat_setWidth]
  exact Nat.mod_eq_of_lt hids

theorem IdsLeft.mono {n n' : Nat} (h : a.IdsLeft n) (hle : n' ≤ n) : a.IdsLeft n' :=
  (Nat.add_le_add_left hle _).trans h

/-! ### Cutting blocks -/

theorem cutChunk_pageId (a : NAlc) (m : Headers) :
    (a.cutChunk m .log).1.pageId .log = a.pageId .log + 1 := by
  simp [NAlc.cutChunk, nextPage]

theorem Indexed.cutChunk (h : a.Indexed m) (hids : kind = .log → a.IdsLeft 1) :
    Moves a m (a.cutChunk m kind).1 (a.cutChunk m kind).2 ∧
      ComesFrom a m (a.cutChunk m kind).1 := by
  have hmem : (a.cutChunk m kind).2 = Function.update m a.endAddress (a.newChunk kind) := rfl
  have hold : ∀ k x, a.Cut m k x → (a.cutChunk m kind).2 x = m x := fun k x hx =>
    Function.update_of_ne hx.below.ne _ _
  have hpage : (a.pageId .log).toNat ≤ ((a.cutChunk m kind).1.pageId .log).toNat := by
    cases kind with
    | node => exact Nat.le_refl _
    | log =>
      rw [cutChunk_pageId, page_succ (hids rfl)]
      exact Nat.le_succ _
  -- a listed log block is the new one or an old one
  have hlist : ∀ id x, (a.cutChunk m kind).1.list .log id = some x →
      (kind = .log ∧ id = a.pageId .log ∧ x = a.endAddress) ∨ a.list .log id = some x := by
    intro id x hx
    rw [cutChunk_list] at hx
    split at hx
    · next hnew =>
      obtain ⟨rfl, rfl⟩ := hnew
      exact Or.inl ⟨rfl, rfl, (Option.some.inj hx).symm⟩
    · exact Or.inr hx
  refine ⟨⟨rfl, fun x hx => hx.cutChunk, ?_, ?_, ?_, ?_, ?_⟩, ?_⟩
  · -- the pool ends behind the new block
    obtain ⟨n, hn⟩ := h.ending
    refine ⟨n + 1, ?_⟩
    rw [cutChunk_startAddress, blockAt_succ, ← hn]
    rfl
  · intro k id x hx
    rw [cutChunk_list] at hx
    split at hx
    · next hnew =>
      cases hx
      rw [hnew.1]
      exact cutChunk_cut h.ending
    · exact (h.listed k id x hx).cutChunk
  · intro x hx
    by_cases hxe : x = a.endAddress
    · subst hxe
      rw [hmem, Function.update_self]
      rfl
    · have hx' := hx.of_cutChunk h.ending hxe
      rw [hold .log x hx']
      exact h.data x hx'
  · intro id x hx
    rcases hlist id x hx with ⟨rfl, rfl, -⟩ | hx
    · -- the new id is below the counter, which has moved on
      rw [cutChunk_pageId, page_succ (hids rfl)]
      exact Nat.lt_succ_self _
    · exact Nat.lt_of_lt_of_le (h.below id x hx) hpage
  · intro id x hx hle
    rcases hlist id x hx with ⟨rfl, rfl, rfl⟩ | hx
    · rw [hmem, Function.update_self]
      exact ⟨page_width (hids rfl), rfl⟩
    · rw [hold .log x (h.listed .log id x hx)]
      exact h.coming id x hx hle
  · -- what comes next was coming before, or is the new block
    rintro x ⟨id, hid, hle⟩
    rcases hlist id x hid with ⟨rfl, rfl, rfl⟩ | hid
    · exact Or.inr fun hx => Nat.lt_irrefl _ hx.below
    · exact Or.inl ⟨id, hid, hle⟩

theorem Indexed.getMoreChunk {n : Nat} (h : a.Indexed m) (hids : kind = .log → a.IdsLeft n) :
    Moves a m (NAlc.getMoreChunk n a m kind).1 (NAlc.getMoreChunk n a m kind).2 ∧
      ComesFrom a m (NAlc.getMoreChunk n a m kind).1 := by
  induction n generalizing a m with
  | zero => exact ⟨⟨rfl, fun x hx => hx, h⟩, fun x hx => Or.inl hx⟩
  | succ n ih =>
    obtain ⟨hstep, hfrom⟩ := h.cutChunk fun hk => (hids hk).mono (Nat.le_add_left 1 n)
    have hids' : kind = .log → (a.cutChunk m kind).1.IdsLeft n := by
      rintro rfl
      have hleft := hids rfl
      unfold IdsLeft at hleft ⊢
      rw [cutChunk_pageId, page_succ ((hids rfl).mono (Nat.le_add_left 1 n))]
      omega
    obtain ⟨hrest, hfrom'⟩ := ih hstep.indexed hids'
    exact ⟨hstep.trans hrest, hfrom.trans hstep.log_cut hfrom'⟩

theorem init_indexed (start : Nat) (m : Headers) :
    (NAlc.init start m).1.Indexed (NAlc.init start m).2 ∧
      (NAlc.init start m).1.startAddress = start := by
  let a₀ : NAlc :=
    { list := fun _ _ => none, pageId := fun _ => 0, decisionId := fun _ => 0,
      startAddress := start, endAddress := start + 1024 }
  have hend₀ : a₀.endAddress = blockAt start 0 := by
    rw [blockAt, Nat.zero_mul, Nat.add_zero]
  have hempty : a₀.Indexed m := by
    refine ⟨⟨0, hend₀⟩, ?_, ?_, ?_, ?_⟩
    · exact fun k id x hx => by cases hx
    · intro x hx
      obtain ⟨i, rfl⟩ := hx.in_row
      have hlt := hx.below
      rw [hend₀] at hlt
      exact absurd (blockAt_lt_iff.mp hlt) (Nat.not_lt_zero i)
    · exact fun id x hx => by cases hx
    · exact fun id x hx => by cases hx
  obtain ⟨hnode, -⟩ := hempty.getMoreChunk (n := 4) fun (hk : BlockKind.node = .log) => by cases hk
  have hpage : (NAlc.getMoreChunk 4 a₀ m .node).1.pageId .log = 0 := rfl
  obtain ⟨hlog, -⟩ := hnode.indexed.getMoreChunk (n := 4) fun (_ : BlockKind.log = .log) => by
    unfold IdsLeft
    rw [hpage]
    decide
  exact ⟨hlog.indexed, hlog.start.trans hnode.start⟩

theorem Indexed.getFreeBlock (h : a.Indexed m) (hids : kind = .log → a.IdsLeft 4) :
    Moves a m (a.getFreeBlock m kind).2.1 (a.getFreeBlock m kind).2.2 ∧
      ComesFrom a m (a.getFreeBlock m kind).2.1 ∧
      (a.getFreeBlock m kind).2.1.decisionId = a.decisionId ∧
      ∀ header, (a.getFreeBlock m kind).1 = some header →
        (a.getFreeBlock m kind).2.1.list kind (a.decisionId kind) = some header := by
  unfold NAlc.getFreeBlock
  cases hentry : a.list kind (a.decisionId kind) with
  | some header =>
    refine ⟨⟨rfl, fun x hx => hx, h⟩, fun x hx => Or.inl hx, rfl, ?_⟩
    intro x hx
    cases hx
    exact hentry
  | none =>
    obtain ⟨hmore, hfrom⟩ := h.getMoreChunk hids
    have hdec : (NAlc.getMoreChunk 4 a m kind).1.decisionId = a.decisionId := rfl
    refine ⟨hmore, hfrom, hdec, fun x hx => ?_⟩
    dsimp only at hx
    rwa [hdec] at hx

/-! ### The calls

A log block comes again only through `n_free`, which lists it under a new id. As long as the ids fit into
the 30 bits of `block_id`, `decision_id` passes each id once. -/

/-- A log segment starts where the data of its block start, and the block does not come again. -/
theorem Indexed.nAllocateLog (h : a.Indexed m) (hids : a.IdsLeft 4) {sz : BitVec 32} {logStart : Nat}
    (hcall : a.nAllocateLog m sz = some (logStart, a', m')) :
    Moves a m a' m' ∧ ComesFrom a m a' ∧ ∃ header, logStart = header + baseMetaSize ∧
      a'.Cut m' .log header ∧ (a.Coming header ∨ ¬ a.Cut m .log header) ∧ ¬ a'.Coming header := by
  obtain ⟨hfree, hfrom, hdec, hgot⟩ := h.getFreeBlock fun (_ : BlockKind.log = .log) => hids
  obtain ⟨header, a₁, m₁, hblock, rfl, rfl, rfl⟩ := nAllocateLog_cases hcall
  rw [hblock] at hfree hfrom hdec hgot
  have hentry := hgot header rfl
  have hind := hfree.indexed
  dsimp only at hfree hfrom hdec hentry hind
  have hcut := hind.listed .log _ header hentry
  rw [← hdec] at hentry
  obtain ⟨hid, hbitmap⟩ := hind.coming _ header hentry (Nat.le_refl _)
  have hbelow := hind.below _ header hentry
  -- `decision_id` does not wrap, since it stays below the ids that have been given
  have hnext : (a₁.decisionId .log + 1).toNat = (a₁.decisionId .log).toNat + 1 := by
    rw [BitVec.toNat_add]
    exact Nat.mod_eq_of_lt (Nat.lt_of_le_of_lt hbelow (BitVec.isLt _))
  have hlater : ∀ id x, a₁.list .log id = some x →
      ((a₁.nextDecision .log).decisionId .log).toNat ≤ id.toNat →
        (a₁.decisionId .log).toNat ≤ id.toNat ∧ x ≠ header := by
    intro id x hx hle
    rw [nextDecision_decisionId_self, hnext] at hle
    refine ⟨Nat.le_of_succ_le hle, ?_⟩
    rintro rfl
    have hsame := (hind.coming id x hx (Nat.le_of_succ_le hle)).1
    omega
  generalize hb : ({ m₁ header with
      blockType := BlockKind.log.code
      blockId := ((a₁.nextDecision .log).decisionId .log).setWidth 30
      bitmap := LOG_MARK } : BaseMeta) = b
  have hcode : b.blockType = BlockKind.log.code := by rw [← hb]
  have hstart : b.startAddress = (m₁ header).startAddress := by rw [← hb]
  have hset : ∀ k x, (a₁.nextDecision .log).Cut (Function.update m₁ header b) k x ↔
      a₁.Cut m₁ k x := by
    intro k x
    rw [← hcut.setHeader_iff hcode]
    exact ⟨fun hx => hx.of_same rfl rfl, fun hx => hx.of_same rfl rfl⟩
  have hnot : ¬ (a₁.nextDecision .log).Coming header := by
    rintro ⟨id, hx, hle⟩
    exact (hlater id header hx hle).2 rfl
  refine ⟨⟨hfree.start, fun x hx => (hset .log x).mpr (hfree.log_cut x hx), ?_⟩, ?_, header, ?_,
    (hset .log header).mpr hcut, hfrom header ⟨_, hentry, Nat.le_refl _⟩, hnot⟩
  · refine ⟨hind.ending, ?_, ?_, hind.below, ?_⟩
    · exact fun k id x hx => (hset k x).mpr (hind.listed k id x hx)
    · intro x hx
      have hx' := (hset .log x).mp hx
      by_cases hxh : x = header
      · subst hxh
        rw [Function.update_self, hstart]
        exact hind.data x hx'
      · rw [Function.update_of_ne hxh]
        exact hind.data x hx'
    · intro id x hx hle
      obtain ⟨hle', hne⟩ := hlater id x hx hle
      -- `header` is the only block rewritten, and it does not come again
      rw [Function.update_of_ne hne]
      exact hind.coming id x hx hle'
  · rintro x ⟨id, hx, hle⟩
    exact hfrom x ⟨id, hx, (hlater id x hx hle).1⟩
  · have hzero : (0 : BitVec 32).toNat = 0 := rfl
    rw [hbitmap, hind.data header hcut, hzero, Nat.add_zero]

theorem Indexed.setNode (h : a.Indexed m) (hcut : a.Cut m .node header) {b : BaseMeta}
    (hcode : b.blockType = BlockKind.node.code) :
    Moves a m a (Function.update m header b) ∧ ComesFrom a m a := by
  have hset : ∀ k x, a.Cut (Function.update m header b) k x ↔ a.Cut m k x := fun k x =>
    hcut.setHeader_iff hcode
  have hsame : ∀ x, a.Cut m .log x → Function.update m header b x = m x := by
    intro x hx
    apply Function.update_of_ne
    rintro rfl
    cases hx.kind_unique hcut
  refine ⟨⟨rfl, fun x hx => (hset .log x).mpr hx, h.ending, ?_, ?_, h.below, ?_⟩, fun x hx => Or.inl hx⟩
  · exact fun k id x hx => (hset k x).mpr (h.listed k id x hx)
  · intro x hx
    have hx' := (hset .log x).mp hx
    rw [hsame x hx']
    exact h.data x hx'
  · intro id x hx hle
    rw [hsame x (h.listed .log id x hx)]
    exact h.coming id x hx hle

theorem Indexed.nextNode (h : a.Indexed m) : (a.nextDecision .node).Indexed m where
  ending := h.ending
  listed k id x hx := (h.listed k id x hx).of_same rfl rfl
  data x hx := h.data x (hx.of_same rfl rfl)
  below := h.below
  coming := h.coming

theorem Indexed.nAllocateTree (h : a.Indexed m) {sz : BitVec 32} {q : Nat}
    (hcall : a.nAllocateTree m sz = some (q, a', m')) : Moves a m a' m' ∧ ComesFrom a m a' := by
  obtain ⟨first, hfirst, ⟨-, -, rfl, rfl⟩ | ⟨-, block, m₁, hfree, -, rfl⟩⟩ := nAllocateTree_cases hcall
  · have hcut := h.listed .node _ first hfirst
    exact h.setNode hcut hcut.code
  · obtain ⟨hmoves, hfrom, hdec, hgot⟩ := h.nextNode.getFreeBlock fun (hk : BlockKind.node = .log) => by cases hk
    rw [hfree] at hmoves hfrom hdec hgot
    have hcut := hmoves.indexed.listed .node _ block (hgot block rfl)
    obtain ⟨hset, -⟩ := hmoves.indexed.setNode hcut
      (b := { m₁ block with blockType := BlockKind.node.code, bitmap := (m₁ block).bitmap + sz }) rfl
    have hmoves' : Moves a m a' m₁ :=
      ⟨hmoves.start, fun x hx => hmoves.log_cut x (hx.of_same rfl rfl), hmoves.indexed⟩
    refine ⟨hmoves'.trans hset, fun x hx => ?_⟩
    rcases hfrom x hx with hold | hnew
    · exact Or.inl hold
    · exact Or.inr fun hx' => hnew (hx'.of_same rfl rfl)

/-- A log block that is freed comes again, under a new id. -/
theorem Indexed.nFree (h : a.Indexed m) (hids : a.IdsLeft 1) {ptr : Nat}
    (hown : a.Cut m .log (a.freeAddress ptr)) :
    Moves a m (a.nFree m ptr).1 (a.nFree m ptr).2 ∧
      ∀ x, (a.nFree m ptr).1.Coming x → a.Coming x ∨ x = a.freeAddress ptr := by
  have hpage : ((a.nFree m ptr).1.pageId .log).toNat = (a.pageId .log).toNat + 1 := by
    rw [← page_succ hids]
    simp [NAlc.nFree, nextPage]
  -- a listed log block is the freed one under its new id or another one
  have hlist : ∀ id x, (a.nFree m ptr).1.list .log id = some x →
      (id = a.pageId .log ∧ x = a.freeAddress ptr) ∨
        (a.list .log id = some x ∧ id ≠ (m (a.freeAddress ptr)).blockId.setWidth 32) := by
    intro id x hx
    rw [nFree_list] at hx
    split at hx
    · next hnew => exact Or.inl ⟨hnew.2, (Option.some.inj hx).symm⟩
    · split at hx
      · cases hx
      · next hkeep => exact Or.inr ⟨hx, fun heq => hkeep ⟨rfl, heq⟩⟩
  refine ⟨⟨rfl, fun x hx => (nFree_cut_iff hown).mpr hx, h.ending, ?_, ?_, ?_, ?_⟩, ?_⟩
  · intro k id x hx
    apply (nFree_cut_iff hown).mpr
    rw [nFree_list] at hx
    split at hx
    · next hnew =>
      cases hx
      rw [hnew.1]
      exact hown
    · split at hx
      · cases hx
      · exact h.listed k id x hx
  · intro x hx
    have hx' := (nFree_cut_iff hown).mp hx
    rw [nFree_mem]
    by_cases hxf : x = a.freeAddress ptr
    · subst hxf
      rw [Function.update_self]
      exact h.data _ hx'
    · rw [Function.update_of_ne hxf]
      exact h.data x hx'
  · intro id x hx
    rw [hpage]
    rcases hlist id x hx with ⟨rfl, -⟩ | ⟨hx, -⟩
    · exact Nat.lt_succ_self _
    · exact Nat.lt_succ_of_lt (h.below id x hx)
  · intro id x hx hle
    rw [nFree_mem]
    rcases hlist id x hx with ⟨rfl, rfl⟩ | ⟨hx, hne⟩
    · rw [Function.update_self]
      exact ⟨page_width hids, rfl⟩
    · obtain ⟨hid, hbitmap⟩ := h.coming id x hx hle
      have hxf : x ≠ a.freeAddress ptr := by
        -- the old id is the one in the header, and that entry is gone
        rintro rfl
        apply hne
        apply BitVec.eq_of_toNat_eq
        rw [BitVec.toNat_setWidth, hid]
        exact (Nat.mod_eq_of_lt id.isLt).symm
      rw [Function.update_of_ne hxf]
      exact ⟨hid, hbitmap⟩
  · rintro x ⟨id, hx, hle⟩
    rcases hlist id x hx with ⟨-, rfl⟩ | ⟨hx, -⟩
    · exact Or.inr rfl
    · exact Or.inl ⟨id, hx, hle⟩

/-! ### The ids of the log blocks -/

theorem cutChunk_pageId_node (a : NAlc) (m : Headers) :
    (a.cutChunk m .node).1.pageId .log = a.pageId .log := by
  simp [NAlc.cutChunk, nextPage]

theorem getMoreChunk_pageId_node (n : Nat) (a : NAlc) (m : Headers) :
    (NAlc.getMoreChunk n a m .node).1.pageId .log = a.pageId .log := by
  induction n generalizing a m with
  | zero => rfl
  | succ n ih =>
    rw [← cutChunk_pageId_node a m]
    exact ih (a.cutChunk m .node).1 (a.cutChunk m .node).2

theorem nAllocateTree_pageId {sz : BitVec 32} {q : Nat} (hcall : a.nAllocateTree m sz = some (q, a', m')) :
    a'.pageId .log = a.pageId .log := by
  obtain ⟨first, -, ⟨-, -, rfl, -⟩ | ⟨-, block, m₁, hfree, -, -⟩⟩ := nAllocateTree_cases hcall
  · rfl
  · have hpage : ((a.nextDecision .node).getFreeBlock m .node).2.1.pageId .log = a.pageId .log := by
      unfold NAlc.getFreeBlock
      split
      · rfl
      · exact getMoreChunk_pageId_node 4 (a.nextDecision .node) m
    rwa [hfree] at hpage

end NAlc

end ZBTree
