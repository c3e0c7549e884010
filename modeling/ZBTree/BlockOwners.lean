import ZBTree.PersistentPools
import ZBTree.Sequential

/-!
# Every log block has one owner

Each thread takes its log segments from its own pool, and a removal frees the block of the
record through the allocator of the thread that removes. As long as that is the allocator
that cut the block, and the entries that `n_free` overwrites list nothing else, each log
block stays listed in the allocator of its pool only. When a thread removes a key that
another thread has logged, the block is listed by both.
-/

namespace ZBTree

namespace NAlc

variable {a a' : NAlc} {m m' : Headers} {poolLen : Nat} {kind : BlockKind} {header : Nat}

/-- What an allocator lists is what was cut in its pool. -/
structure Owns (poolLen : Nat) (a : NAlc) (m : Headers) : Prop where
  ending : ∃ n, a.endAddress = blockAt a.startAddress n
  inside : a.endAddress ≤ a.startAddress + poolLen
  listed : ∀ kind id header, a.list kind id = some header → a.Cut m kind header
  complete : ∀ header, a.Cut m .log header → ∃ id, a.list .log id = some header
  data : ∀ header, a.Cut m .log header → (m header).startAddress = header + baseMetaSize ∧
    (m header).bitmap.toNat ≤ LOG_MARK.toNat

/-- A step of an allocator that stays in its pool and forgets no log block. -/
structure Stays (poolLen : Nat) (a : NAlc) (m : Headers) (a' : NAlc) (m' : Headers) : Prop where
  start : a'.startAddress = a.startAddress
  outside : ∀ h, h < a.startAddress ∨ a.startAddress + poolLen ≤ h → m' h = m h
  log_cut : ∀ h, a.Cut m .log h → a'.Cut m' .log h
  owns : a'.Owns poolLen m'

theorem Stays.refl (h : a.Owns poolLen m) : Stays poolLen a m a m where
  start := rfl
  outside _ _ := rfl
  log_cut _ hcut := hcut
  owns := h

theorem Stays.trans {a'' : NAlc} {m'' : Headers} (h : Stays poolLen a m a' m')
    (h' : Stays poolLen a' m' a'' m'') : Stays poolLen a m a'' m'' where
  start := h'.start.trans h.start
  outside x hx := by
    rw [h'.outside x (by rwa [h.start]), h.outside x hx]
  log_cut x hx := h'.log_cut x (h.log_cut x hx)
  owns := h'.owns

theorem Cut.ge_start (h : a.Cut m kind header) : a.startAddress ≤ header := by
  obtain ⟨i, rfl⟩ := h.in_row
  unfold blockAt
  omega

theorem Cut.of_same (h : a.Cut m kind header) (hstart : a'.startAddress = a.startAddress)
    (hend : a'.endAddress = a.endAddress) : a'.Cut m kind header where
  in_row := hstart ▸ h.in_row
  below := hend ▸ h.below
  code := h.code

theorem Cut.congr (h : a.Cut m kind header) (hm : m' header = m header) :
    a.Cut m' kind header where
  in_row := h.in_row
  below := h.below
  code := by rw [hm]; exact h.code

theorem Cut.kind_unique {kind' : BlockKind} (h : a.Cut m kind header)
    (h' : a.Cut m kind' header) : kind = kind' :=
  BlockKind.code_injective (h.code.symm.trans h'.code)

theorem Owns.of_same (h : a.Owns poolLen m) (hlist : a'.list = a.list)
    (hstart : a'.startAddress = a.startAddress) (hend : a'.endAddress = a.endAddress) :
    a'.Owns poolLen m where
  ending := by rw [hstart, hend]; exact h.ending
  inside := by rw [hstart, hend]; exact h.inside
  listed k id x hx := by
    rw [hlist] at hx
    exact (h.listed k id x hx).of_same hstart hend
  complete x hx := by
    rw [hlist]
    exact h.complete x (hx.of_same hstart.symm hend.symm)
  data x hx := h.data x (hx.of_same hstart.symm hend.symm)

theorem Owns.congr (h : a.Owns poolLen m)
    (hm : ∀ x, a.startAddress ≤ x → x < a.startAddress + poolLen → m' x = m x) :
    a.Owns poolLen m' := by
  have hcut : ∀ k x, a.Cut m k x → m' x = m x := fun k x hx =>
    hm x hx.ge_start (Nat.lt_of_lt_of_le hx.below h.inside)
  have hback : ∀ k x, a.Cut m' k x → a.Cut m k x := fun k x hx =>
    hx.congr (hm x hx.ge_start (Nat.lt_of_lt_of_le hx.below h.inside)).symm
  constructor
  · exact h.ending
  · exact h.inside
  · intro k id x hx
    have hold := h.listed k id x hx
    exact hold.congr (hcut k x hold)
  · intro x hx
    exact h.complete x (hback .log x hx)
  · intro x hx
    have hold := hback .log x hx
    rw [hcut .log x hold]
    exact h.data x hold

theorem Cut.setHeader_iff (hcut : a.Cut m kind header) {b : BaseMeta} (hcode : b.blockType = kind.code)
    {k : BlockKind} {x : Nat} : a.Cut (Function.update m header b) k x ↔ a.Cut m k x := by
  by_cases hxh : x = header
  · subst hxh
    constructor
    · intro hx
      have hcode' := hx.code
      rw [Function.update_self, hcode] at hcode'
      rw [← BlockKind.code_injective hcode']
      exact hcut
    · intro hx
      refine ⟨hx.in_row, hx.below, ?_⟩
      rw [Function.update_self, hcode, hcut.kind_unique hx]
  · have hsame : Function.update m header b x = m x := Function.update_of_ne hxh _ _
    exact ⟨fun hx => hx.congr hsame.symm, fun hx => hx.congr hsame⟩

/-- A header that is rewritten stays one of its kind. -/
theorem Owns.setHeader (h : a.Owns poolLen m) (hcut : a.Cut m kind header) {b : BaseMeta}
    (hcode : b.blockType = kind.code)
    (hdata : kind = .log → b.startAddress = (m header).startAddress ∧
      b.bitmap.toNat ≤ LOG_MARK.toNat) :
    Stays poolLen a m a (Function.update m header b) := by
  constructor
  · rfl
  · intro x hx
    apply Function.update_of_ne
    rintro rfl
    have hlow := hcut.ge_start
    have hhigh := Nat.lt_of_lt_of_le hcut.below h.inside
    omega
  · exact fun x hx => (hcut.setHeader_iff hcode).mpr hx
  · constructor
    · exact h.ending
    · exact h.inside
    · exact fun k id x hx => (hcut.setHeader_iff hcode).mpr (h.listed k id x hx)
    · exact fun x hx => h.complete x ((hcut.setHeader_iff hcode).mp hx)
    · intro x hx
      have hold := (hcut.setHeader_iff hcode).mp hx
      by_cases hxh : x = header
      · subst hxh
        obtain ⟨hstart, hbitmap⟩ := hdata (hcut.kind_unique hold)
        rw [Function.update_self, hstart]
        exact ⟨(h.data x hold).1, hbitmap⟩
      · rw [Function.update_of_ne hxh]
        exact h.data x hold

theorem Owns.limit (h : a.Owns poolLen m) (hcut : a.Cut m kind header) :
    header + CHUNK_SIZE ≤ a.startAddress + poolLen := by
  obtain ⟨n, hn⟩ := h.ending
  obtain ⟨i, rfl⟩ := hcut.in_row
  have hlt := hcut.below
  rw [hn, blockAt_lt_iff] at hlt
  calc blockAt a.startAddress i + CHUNK_SIZE = blockAt a.startAddress (i + 1) :=
        (blockAt_succ _ _).symm
    _ ≤ blockAt a.startAddress n := blockAt_le_iff.mpr hlt
    _ ≤ a.startAddress + poolLen := hn ▸ h.inside

/-! ### Cutting blocks

`get_more_chunk` cuts at `end_address`, so a new block lies behind all others of its pool and takes an id
that `list` does not have. `Stays` says what the other threads rely on: no header outside the pool is
written, and no log block is lost. -/

theorem cutChunk_list (k : BlockKind) (id : BitVec 32) : (a.cutChunk m kind).1.list k id =
    if k = kind ∧ id = a.pageId kind then some a.endAddress else a.list k id := by
  by_cases hk : k = kind
  · subst hk
    by_cases hid : id = a.pageId k <;> simp [NAlc.cutChunk, hid]
  · simp [NAlc.cutChunk, setEntry_list_of_ne _ _ _ _ _ hk, hk]

theorem Cut.cutChunk {k : BlockKind} {x : Nat} (hx : a.Cut m k x) :
    (a.cutChunk m kind).1.Cut (a.cutChunk m kind).2 k x := by
  refine ⟨hx.in_row, Nat.lt_of_lt_of_le hx.below (Nat.le_add_right _ _), ?_⟩
  have hsame : (a.cutChunk m kind).2 x = m x := Function.update_of_ne hx.below.ne _ _
  rw [hsame]
  exact hx.code

theorem cutChunk_cut (hend : ∃ n, a.endAddress = blockAt a.startAddress n) :
    (a.cutChunk m kind).1.Cut (a.cutChunk m kind).2 kind a.endAddress := by
  refine ⟨hend, Nat.lt_add_of_pos_right (by decide), ?_⟩
  have hnew : (a.cutChunk m kind).2 a.endAddress = a.newChunk kind := Function.update_self ..
  rw [hnew]
  rfl

theorem Cut.of_cutChunk {k : BlockKind} {x : Nat} (hend : ∃ n, a.endAddress = blockAt a.startAddress n)
    (hx : (a.cutChunk m kind).1.Cut (a.cutChunk m kind).2 k x) (hne : x ≠ a.endAddress) :
    a.Cut m k x := by
  obtain ⟨n, hn⟩ := hend
  obtain ⟨i, hi⟩ := hx.in_row
  have hi' : x = blockAt a.startAddress i := hi
  have hlt : x < a.endAddress + CHUNK_SIZE := hx.below
  rw [hn, ← blockAt_succ, hi', blockAt_lt_iff] at hlt
  have hin : i ≠ n := by
    rintro rfl
    exact hne (hi'.trans hn.symm)
  refine ⟨⟨i, hi'⟩, ?_, ?_⟩
  · rw [hi', hn, blockAt_lt_iff]
    omega
  · have hsame : (a.cutChunk m kind).2 x = m x := Function.update_of_ne hne _ _
    rw [← hsame]
    exact hx.code

/-- The blocks of a pool after one more has been cut. -/
theorem Owns.cutChunk (h : a.Owns poolLen m) (hroom : a.endAddress + CHUNK_SIZE ≤
      a.startAddress + poolLen) (hunused : kind = .log → a.list .log (a.pageId .log) = none) :
    Stays poolLen a m (a.cutChunk m kind).1 (a.cutChunk m kind).2 := by
  have hmem : (a.cutChunk m kind).2 = Function.update m a.endAddress (a.newChunk kind) := rfl
  constructor
  · rfl
  · -- headers outside the pool: the new block lies in it
    intro x hx
    rw [hmem]
    apply Function.update_of_ne
    rintro rfl
    have hlow : a.startAddress ≤ a.endAddress := by
      obtain ⟨n, hn⟩ := h.ending
      rw [hn]
      unfold blockAt
      omega
    have hpos : 0 < CHUNK_SIZE := by decide
    omega
  · exact fun x hx => hx.cutChunk
  · constructor
    · obtain ⟨n, hn⟩ := h.ending
      refine ⟨n + 1, ?_⟩
      rw [cutChunk_startAddress, blockAt_succ, ← hn]
      rfl
    · exact hroom
    · intro k id x hx
      rw [cutChunk_list] at hx
      split at hx
      · -- the entry under the next id is the block that has just been cut
        rename_i hkid
        cases hx
        rw [hkid.1]
        exact cutChunk_cut h.ending
      · exact (h.listed k id x hx).cutChunk
    · intro x hx
      by_cases hxe : x = a.endAddress
      · subst hxe
        have hkind := (cutChunk_cut h.ending).kind_unique hx
        refine ⟨a.pageId kind, ?_⟩
        rw [cutChunk_list, if_pos ⟨hkind.symm, rfl⟩]
      · obtain ⟨id, hid⟩ := h.complete x (hx.of_cutChunk h.ending hxe)
        refine ⟨id, ?_⟩
        -- an old block keeps its entry, since `list` has none under the next id
        rw [cutChunk_list, if_neg, hid]
        rintro ⟨hk, rfl⟩
        subst hk
        rw [hunused rfl] at hid
        cases hid
    · intro x hx
      by_cases hxe : x = a.endAddress
      · subst hxe
        rw [hmem, Function.update_self]
        exact ⟨rfl, Nat.zero_le _⟩
      · rw [hmem, Function.update_of_ne hxe]
        exact h.data x (hx.of_cutChunk h.ending hxe)

theorem Owns.getMoreChunk {n : Nat} (hn : n ≤ 4) (h : a.Owns poolLen m)
    (hroom : a.endAddress + n * CHUNK_SIZE ≤ a.startAddress + poolLen)
    (hunused : kind = .log → ∀ i, i < n → a.list .log (a.pageId .log + BitVec.ofNat 32 i) = none) :
    Stays poolLen a m (NAlc.getMoreChunk n a m kind).1 (NAlc.getMoreChunk n a m kind).2 := by
  induction n generalizing a m with
  | zero => exact Stays.refl h
  | succ n ih =>
    have hcut : Stays poolLen a m (a.cutChunk m kind).1 (a.cutChunk m kind).2 := by
      apply h.cutChunk
      · rw [Nat.succ_mul] at hroom
        omega
      · intro hk
        have hfirst := hunused hk 0 (Nat.succ_pos n)
        rwa [show BitVec.ofNat 32 0 = 0#32 from rfl, BitVec.add_zero] at hfirst
    apply hcut.trans
    apply ih (Nat.le_of_succ_le hn) hcut.owns
    · have hend : (a.cutChunk m kind).1.endAddress = a.endAddress + CHUNK_SIZE := rfl
      rw [hend, cutChunk_startAddress]
      rw [Nat.succ_mul] at hroom
      omega
    · -- the ids of the rounds to come are the same ones, counted from one id further on
      intro hk i hi
      subst hk
      have hpage : (a.cutChunk m .log).1.pageId .log = a.pageId .log + 1 := by
        simp [NAlc.cutChunk, nextPage]
      have hid : a.pageId .log + 1 + BitVec.ofNat 32 i =
          a.pageId .log + BitVec.ofNat 32 (i + 1) := by
        rw [BitVec.add_assoc]
        congr 1
        rw [BitVec.ofNat_add, BitVec.add_comm]
        rfl
      have hne : a.pageId .log + BitVec.ofNat 32 (i + 1) ≠ a.pageId .log := by
        intro heq
        have htoNat := congrArg BitVec.toNat heq
        rw [BitVec.toNat_add, BitVec.toNat_ofNat] at htoNat
        omega
      rw [hpage, hid]
      have hlist : (a.cutChunk m .log).1.list .log (a.pageId .log + BitVec.ofNat 32 (i + 1)) =
          a.list .log (a.pageId .log + BitVec.ofNat 32 (i + 1)) := by
        simp [NAlc.cutChunk, hne]
      rw [hlist]
      exact hunused rfl (i + 1) (Nat.succ_lt_succ hi)

theorem getMoreChunk_list_of_ne (n : Nat) (a : NAlc) (m : Headers) {kind' : BlockKind}
    (hne : kind' ≠ kind) : (NAlc.getMoreChunk n a m kind).1.list kind' = a.list kind' := by
  induction n generalizing a m with
  | zero => rfl
  | succ n ih =>
    have hstep : (a.cutChunk m kind).1.list kind' = a.list kind' :=
      setEntry_list_of_ne a kind kind' _ _ hne
    rw [← hstep]
    exact ih (a.cutChunk m kind).1 (a.cutChunk m kind).2

/-- A new allocator owns its eight blocks and touches no header outside its pool. -/
theorem init_owns (start : Nat) (hroom : 1024 + 8 * CHUNK_SIZE ≤ poolLen) (m : Headers) :
    (NAlc.init start m).1.Owns poolLen (NAlc.init start m).2 ∧
    (NAlc.init start m).1.startAddress = start ∧
    ∀ h, h < start ∨ start + poolLen ≤ h → (NAlc.init start m).2 h = m h := by
  let a₀ : NAlc :=
    { list := fun _ _ => none, pageId := fun _ => 0, decisionId := fun _ => 0,
      startAddress := start, endAddress := start + 1024 }
  have hend₀ : a₀.endAddress = blockAt start 0 := by
    rw [blockAt, Nat.zero_mul, Nat.add_zero]
  -- nothing has been cut yet, so the empty lists are complete
  have hnone : ∀ k x, ¬ a₀.Cut m k x := by
    intro k x hx
    obtain ⟨i, rfl⟩ := hx.in_row
    have hlt := hx.below
    rw [hend₀] at hlt
    exact Nat.not_lt_zero i (blockAt_lt_iff.mp hlt)
  have hfresh : a₀.Owns poolLen m := by
    constructor
    · exact ⟨0, hend₀⟩
    · exact Nat.add_le_add_left (Nat.le_trans (Nat.le_add_right _ _) hroom) start
    · exact fun k id x hx => by cases hx
    · exact fun x hx => absurd hx (hnone .log x)
    · exact fun x hx => absurd hx (hnone .log x)
  have hspace : start + 1024 + 8 * CHUNK_SIZE ≤ start + poolLen := by omega
  -- four tree blocks first, then four log blocks, whose ids are all unused
  have hnode : Stays poolLen a₀ m (NAlc.getMoreChunk 4 a₀ m .node).1
      (NAlc.getMoreChunk 4 a₀ m .node).2 := by
    apply hfresh.getMoreChunk (Nat.le_refl 4)
    · exact Nat.le_trans (Nat.add_le_add_left (Nat.mul_le_mul_right _ (by decide)) _) hspace
    · exact fun hk => by cases hk
  have hlog : Stays poolLen (NAlc.getMoreChunk 4 a₀ m .node).1 (NAlc.getMoreChunk 4 a₀ m .node).2
      (NAlc.init start m).1 (NAlc.init start m).2 := by
    apply hnode.owns.getMoreChunk (Nat.le_refl 4)
    · rw [getMoreChunk_endAddress, hnode.start]
      apply Nat.le_trans _ hspace
      exact Nat.le_of_eq (by show start + 1024 + _ + _ = _; omega)
    · intro _ i _
      rw [getMoreChunk_list_of_ne 4 a₀ m (by decide)]
  have hall := hnode.trans hlog
  exact ⟨hall.owns, hall.start, hall.outside⟩

theorem Owns.getFreeBlock (h : a.Owns poolLen m) (hmay : a.MayCut poolLen kind) :
    Stays poolLen a m (a.getFreeBlock m kind).2.1 (a.getFreeBlock m kind).2.2 ∧
    ∀ header, (a.getFreeBlock m kind).1 = some header →
      (a.getFreeBlock m kind).2.1.Cut (a.getFreeBlock m kind).2.2 kind header := by
  unfold NAlc.getFreeBlock
  cases hentry : a.list kind (a.decisionId kind) with
  | some header =>
    refine ⟨Stays.refl h, ?_⟩
    intro x hx
    cases hx
    exact h.listed kind _ header hentry
  | none =>
    have hroom := hmay hentry
    have hmore := h.getMoreChunk (Nat.le_refl 4) hroom.1 hroom.2
    exact ⟨hmore, fun x hx => hmore.owns.listed kind _ x hx⟩

/-! ### The calls -/

theorem Owns.nextDecision (h : a.Owns poolLen m) (k : BlockKind) :
    (a.nextDecision k).Owns poolLen m := h.of_same rfl rfl rfl

theorem Stays.of_nextDecision {k : BlockKind} (h : Stays poolLen (a.nextDecision k) m a' m') :
    Stays poolLen a m a' m' where
  start := h.start
  outside := h.outside
  log_cut x hx := h.log_cut x (hx.of_same rfl rfl)
  owns := h.owns

theorem Stays.nextDecision (h : Stays poolLen a m a' m') (k : BlockKind) :
    Stays poolLen a m (a'.nextDecision k) m' where
  start := h.start
  outside := h.outside
  log_cut x hx := (h.log_cut x hx).of_same rfl rfl
  owns := h.owns.nextDecision k

/-- A log segment starts in the block that it is taken from. -/
theorem Owns.nAllocateLog (h : a.Owns poolLen m) (hmay : a.MayCut poolLen .log) {sz : BitVec 32}
    {logStart : Nat} (hcall : a.nAllocateLog m sz = some (logStart, a', m')) :
    Stays poolLen a m a' m' ∧ ∃ header, a'.Cut m' .log header ∧
      header + baseMetaSize ≤ logStart ∧ logStart < header + CHUNK_SIZE := by
  obtain ⟨hfree, hgot⟩ := h.getFreeBlock hmay
  obtain ⟨header, a₁, m₁, hblock, rfl, rfl, rfl⟩ := nAllocateLog_cases hcall
  rw [hblock] at hfree hgot
  have hcut : a₁.Cut m₁ .log header := hgot header rfl
  have hcut' : (a₁.nextDecision .log).Cut m₁ .log header := hcut.of_same rfl rfl
  have hset := (hfree.owns.nextDecision .log).setHeader hcut'
    (b := { m₁ header with
      blockType := BlockKind.log.code
      blockId := ((a₁.nextDecision .log).decisionId .log).setWidth 30
      bitmap := LOG_MARK }) rfl fun _ => ⟨rfl, Nat.le_refl _⟩
  obtain ⟨hstart, hbitmap⟩ := hfree.owns.data header hcut
  have hmark : LOG_MARK.toNat + baseMetaSize < CHUNK_SIZE := by decide
  refine ⟨hfree.trans hset.of_nextDecision, header, hset.log_cut header hcut', ?_, ?_⟩
  · rw [hstart]
    exact Nat.le_add_right _ _
  · rw [hstart, Nat.add_assoc]
    apply Nat.add_lt_add_left
    rw [Nat.add_comm]
    exact Nat.lt_of_le_of_lt (Nat.add_le_add_right hbitmap _) hmark

theorem Owns.nAllocateTree (h : a.Owns poolLen m) {sz : BitVec 32}
    (hmay : a.MayAllocate m poolLen sz) {q : Nat}
    (hcall : a.nAllocateTree m sz = some (q, a', m')) : Stays poolLen a m a' m' := by
  obtain ⟨first, hfirst, ⟨-, -, rfl, rfl⟩ | ⟨hlacks, block, m₁, hfree, -, rfl⟩⟩ := nAllocateTree_cases hcall
  · have hcut := h.listed .node _ first hfirst
    exact h.setHeader hcut hcut.code fun hk => by cases hk
  · simp only [MayAllocate, hfirst] at hmay
    obtain ⟨hstays, hgot⟩ := (h.nextDecision .node).getFreeBlock (hmay hlacks)
    rw [hfree] at hstays hgot
    exact hstays.of_nextDecision.trans
      (hstays.owns.setHeader (hgot block rfl) rfl fun hk => by cases hk)

theorem nFree_mem (a : NAlc) (m : Headers) (ptr : Nat) : (a.nFree m ptr).2 =
    Function.update m (a.freeAddress ptr)
      { m (a.freeAddress ptr) with blockId := (a.pageId .log).setWidth 30, bitmap := 0 } := rfl

theorem nFree_list (a : NAlc) (m : Headers) (ptr : Nat) (k : BlockKind) (id : BitVec 32) :
    (a.nFree m ptr).1.list k id =
      if k = .log ∧ id = a.pageId .log then some (a.freeAddress ptr)
      else if k = .log ∧ id = (m (a.freeAddress ptr)).blockId.setWidth 32 then none
      else a.list k id := by
  cases k with
  | node => rfl
  | log => simp [NAlc.nFree]

theorem nFree_cut_iff {ptr : Nat} (hown : a.Cut m .log (a.freeAddress ptr)) {k : BlockKind} {x : Nat} :
    (a.nFree m ptr).1.Cut (a.nFree m ptr).2 k x ↔ a.Cut m k x := by
  have hset := hown.setHeader_iff
    (b := { m (a.freeAddress ptr) with blockId := (a.pageId .log).setWidth 30, bitmap := 0 })
    hown.code (k := k) (x := x)
  rw [nFree_mem]
  exact ⟨fun hx => hset.mp (hx.of_same rfl rfl), fun hx => (hset.mpr hx).of_same rfl rfl⟩

/-- A free block is listed again, and no other block loses its last entry. -/
theorem Owns.nFree (h : a.Owns poolLen m) {ptr : Nat} (hmay : a.MayFree m ptr) :
    Stays poolLen a m (a.nFree m ptr).1 (a.nFree m ptr).2 := by
  obtain ⟨hown, hblock, hpage⟩ := hmay
  -- the free drops an entry only of a block that has another one
  have hspared : ∀ id x, a.Overwrites m (a.freeAddress ptr) id → a.list .log id = some x →
      x = a.freeAddress ptr ∨
        ∃ id', ¬ a.Overwrites m (a.freeAddress ptr) id' ∧ a.list .log id' = some x := by
    intro id x hover hid
    have hspares : a.Spares m (a.freeAddress ptr) id := by
      cases hover with
      | inl heq => exact heq ▸ hblock
      | inr heq => exact heq ▸ hpage
    rwa [Spares, hid] at hspares
  have hset := h.setHeader hown
    (b := { m (a.freeAddress ptr) with blockId := (a.pageId .log).setWidth 30, bitmap := 0 }) hown.code
    fun _ => ⟨rfl, Nat.zero_le _⟩
  constructor
  · rfl
  · rw [nFree_mem]
    exact hset.outside
  · intro x hx
    exact (nFree_cut_iff hown).mpr hx
  · constructor
    · exact h.ending
    · exact h.inside
    · intro k id x hx
      rw [nFree_list] at hx
      apply (nFree_cut_iff hown).mpr
      split at hx
      · rename_i hpage
        cases hx
        rw [hpage.1]
        exact hown
      · split at hx
        · cases hx
        · exact h.listed k id x hx
    · intro x hx
      obtain ⟨id, hid⟩ := h.complete x ((nFree_cut_iff hown).mp hx)
      by_cases hover : a.Overwrites m (a.freeAddress ptr) id
      · cases hspared id x hover hid with
        | inl heq =>
          refine ⟨a.pageId .log, ?_⟩
          rw [nFree_list, if_pos ⟨rfl, rfl⟩, heq]
        | inr hother =>
          obtain ⟨id', hnot, hid'⟩ := hother
          refine ⟨id', ?_⟩
          rw [nFree_list, if_neg fun heq => hnot (Or.inr heq.2),
            if_neg fun heq => hnot (Or.inl heq.2)]
          exact hid'
      · refine ⟨id, ?_⟩
        rw [nFree_list, if_neg fun heq => hover (Or.inr heq.2),
          if_neg fun heq => hover (Or.inl heq.2)]
        exact hid
    · intro x hx
      rw [nFree_mem]
      exact hset.owns.data x (hset.log_cut x ((nFree_cut_iff hown).mp hx))

end NAlc

namespace Nvm

variable {p p' : Nvm} {t : Tid}

/-- The allocator of each thread owns the log blocks of its pool, and its segment is one of
them. -/
structure Owned (p : Nvm) : Prop where
  pool : ∀ t a, p.managers t = some a →
    ∃ i, i < p.globalId ∧ a.startAddress = mmapStart + p.poolLen * i
  apart : ∀ t t' a a', p.managers t = some a → p.managers t' = some a' →
    a.startAddress = a'.startAddress → t = t'
  owns : ∀ t a, p.managers t = some a → a.Owns p.poolLen p.mem
  segment : ∀ t, (p.workers t).logVec ≠ 0 → ∃ a header, p.managers t = some a ∧
    a.Cut p.mem .log header ∧ header + baseMetaSize ≤ (p.workers t).logVec ∧
    (p.workers t).logVec < header + CHUNK_SIZE

theorem Owned.pools_apart (h : p.Owned) {t' : Tid} {a a' : NAlc} (ha : p.managers t = some a)
    (ha' : p.managers t' = some a') (hne : t ≠ t') :
    a.startAddress + p.poolLen ≤ a'.startAddress ∨ a'.startAddress + p.poolLen ≤ a.startAddress := by
  obtain ⟨i, -, hi⟩ := h.pool t a ha
  obtain ⟨i', -, hi'⟩ := h.pool t' a' ha'
  have hii : i ≠ i' := by
    rintro rfl
    exact hne (h.apart t t' a a' ha ha' (hi.trans hi'.symm))
  rw [hi, hi']
  cases Nat.lt_or_gt_of_ne hii with
  | inl hlt =>
    have hmul := Nat.mul_le_mul_left p.poolLen (Nat.succ_le_of_lt hlt)
    rw [Nat.mul_succ] at hmul
    exact Or.inl (by omega)
  | inr hlt =>
    have hmul := Nat.mul_le_mul_left p.poolLen (Nat.succ_le_of_lt hlt)
    rw [Nat.mul_succ] at hmul
    exact Or.inr (by omega)

theorem Owned.outside_of_ne (h : p.Owned) {t' : Tid} {a a' : NAlc} (ha : p.managers t = some a)
    (ha' : p.managers t' = some a') (hne : t ≠ t') {x : Nat} (hlow : a.startAddress ≤ x)
    (hhigh : x < a.startAddress + p.poolLen) :
    x < a'.startAddress ∨ a'.startAddress + p.poolLen ≤ x := by
  have hapart := h.pools_apart ha ha' hne
  omega

theorem Owned.cut_outside (h : p.Owned) {t' : Tid} {a a' : NAlc} (ha : p.managers t = some a)
    (ha' : p.managers t' = some a') (hne : t ≠ t') {kind : BlockKind} {header : Nat}
    (hcut : a.Cut p.mem kind header) :
    header < a'.startAddress ∨ a'.startAddress + p.poolLen ≤ header :=
  h.outside_of_ne ha ha' hne hcut.ge_start (Nat.lt_of_lt_of_le hcut.below (h.owns t a ha).inside)

theorem fresh_owned (poolLen : Nat) : (fresh poolLen).Owned where
  pool _ _ ha := by cases ha
  apart _ _ _ _ ha := by cases ha
  owns _ _ ha := by cases ha
  segment _ ht := absurd rfl ht

theorem manager_of_some {a : NAlc} (ha : p.managers t = some a) : p.manager t = (a, p) := by
  unfold manager
  rw [ha]

theorem manager_careful (h : (p.manager t).2.careful) : p.careful := by
  unfold manager at h
  split at h
  · exact h
  · exact (Bool.and_eq_true _ _ ▸ h).1

theorem manager_managers : (p.manager t).2.managers t = some (p.manager t).1 := by
  unfold manager
  split
  · assumption
  · exact Function.update_self ..

/-- A thread without an allocator gets one with a pool of its own. -/
theorem Owned.manager (h : p.Owned) (hcareful : (p.manager t).2.careful) :
    (p.manager t).2.Owned := by
  cases ha : p.managers t with
  | some a => rwa [manager_of_some ha]
  | none =>
    unfold Nvm.manager at hcareful ⊢
    rw [ha] at hcareful ⊢
    obtain ⟨-, hroom⟩ := Bool.and_eq_true_iff.mp hcareful
    rw [decide_eq_true_eq] at hroom
    obtain ⟨howns, hstart, hout⟩ :=
      NAlc.init_owns (mmapStart + p.poolLen * p.globalId) hroom p.mem
    generalize hnew : NAlc.init (mmapStart + p.poolLen * p.globalId) p.mem = new at howns hstart hout
    obtain ⟨a, m⟩ := new
    -- the new pool is mapped behind all pools so far
    have hpool : ∀ t' a', p.managers t' = some a' →
        a'.startAddress + p.poolLen ≤ mmapStart + p.poolLen * p.globalId := by
      intro t' a' ha'
      obtain ⟨i, hi, hstart'⟩ := h.pool t' a' ha'
      have hmul := Nat.mul_le_mul_left p.poolLen (Nat.succ_le_of_lt hi)
      rw [Nat.mul_succ] at hmul
      omega
    have hsame : ∀ t' a', p.managers t' = some a' → ∀ x, a'.startAddress ≤ x →
        x < a'.startAddress + p.poolLen → m x = p.mem x := by
      intro t' a' ha' x hlow hhigh
      exact hout x (Or.inl (Nat.lt_of_lt_of_le hhigh (hpool t' a' ha')))
    have hold : ∀ t' a', t' ≠ t → Function.update p.managers t (some a) t' = some a' →
        p.managers t' = some a' := by
      intro t' a' hne ha'
      rwa [Function.update_of_ne hne] at ha'
    have hat : ∀ a', Function.update p.managers t (some a) t = some a' → a = a' := by
      intro a' ha'
      rw [Function.update_self] at ha'
      exact Option.some.inj ha'
    constructor
    · intro t' a' ha'
      by_cases hne : t' = t
      · subst hne
        rw [← hat a' ha']
        exact ⟨p.globalId, Nat.lt_succ_self _, hstart⟩
      · obtain ⟨i, hi, hstart'⟩ := h.pool t' a' (hold t' a' hne ha')
        exact ⟨i, Nat.lt_succ_of_lt hi, hstart'⟩
    · intro t' t'' a' a'' ha' ha'' heq
      have hpos : 0 < p.poolLen := by omega
      by_cases hne : t' = t
      · by_cases hne' : t'' = t
        · rw [hne, hne']
        · subst hne
          have hlow := hpool t'' a'' (hold t'' a'' hne' ha'')
          rw [← heq, ← hat a' ha', hstart] at hlow
          omega
      · by_cases hne' : t'' = t
        · subst hne'
          have hlow := hpool t' a' (hold t' a' hne ha')
          rw [heq, ← hat a'' ha'', hstart] at hlow
          omega
        · exact h.apart t' t'' a' a'' (hold t' a' hne ha') (hold t'' a'' hne' ha'') heq
    · intro t' a' ha'
      by_cases hne : t' = t
      · subst hne
        rw [← hat a' ha']
        exact howns
      · have ha₀ := hold t' a' hne ha'
        exact (h.owns t' a' ha₀).congr (hsame t' a' ha₀)
    · intro t' ht'
      -- the segments of the other threads lie in their own pools, where nothing has changed
      obtain ⟨a', header, ha', hcut, hlow, hhigh⟩ := h.segment t' ht'
      have hne : t' ≠ t := by
        rintro rfl
        rw [ha] at ha'
        cases ha'
      refine ⟨a', header, ?_, ?_, hlow, hhigh⟩
      · rw [← ha']
        exact Function.update_of_ne hne ..
      · apply hcut.congr
        exact hsame t' a' ha' header hcut.ge_start
          (Nat.lt_of_lt_of_le hcut.below (h.owns t' a' ha').inside)

theorem store_managers (a : NAlc) (m : Headers) (c : Prop) [Decidable c] :
    (p.store t a m c).managers = Function.update p.managers t (some a) := rfl

theorem careful_store {a : NAlc} {m : Headers} {c : Prop} [Decidable c]
    (h : (p.store t a m c).careful) : p.careful ∧ c := by
  obtain ⟨hbefore, hcall⟩ := Bool.and_eq_true_iff.mp h
  exact ⟨hbefore, of_decide_eq_true hcall⟩

/-- A call of an allocator that stays in its pool disturbs no other. -/
theorem Owned.store (h : p.Owned) {a a' : NAlc} {m : Headers} {c : Prop} [Decidable c]
    (ha : p.managers t = some a) (hstays : NAlc.Stays p.poolLen a p.mem a' m) :
    (p.store t a' m c).Owned := by
  have hold : ∀ t' a'', t' ≠ t → (p.store t a' m c).managers t' = some a'' →
      p.managers t' = some a'' := by
    intro t' a'' hne ha''
    rwa [store_managers, Function.update_of_ne hne] at ha''
  have hat : ∀ a'', (p.store t a' m c).managers t = some a'' → a' = a'' := by
    intro a'' ha''
    rw [store_managers, Function.update_self] at ha''
    exact Option.some.inj ha''
  -- a call keeps the start of the pool it works on
  have hstart : ∀ t' a'', (p.store t a' m c).managers t' = some a'' →
      ∃ a₀, p.managers t' = some a₀ ∧ a₀.startAddress = a''.startAddress := by
    intro t' a'' ha''
    by_cases hne : t' = t
    · subst hne
      rw [← hat a'' ha'']
      exact ⟨a, ha, hstays.start.symm⟩
    · exact ⟨a'', hold t' a'' hne ha'', rfl⟩
  have hsame : ∀ t' a'', t' ≠ t → p.managers t' = some a'' → ∀ x, a''.startAddress ≤ x →
      x < a''.startAddress + p.poolLen → m x = p.mem x := by
    intro t' a'' hne ha'' x hlow hhigh
    exact hstays.outside x (h.outside_of_ne ha'' ha hne hlow hhigh)
  constructor
  · intro t' a'' ha''
    obtain ⟨a₀, ha₀, heq⟩ := hstart t' a'' ha''
    rw [← heq]
    exact h.pool t' a₀ ha₀
  · intro t' t'' b b' hb hb' heq
    obtain ⟨a₀, ha₀, heq₀⟩ := hstart t' b hb
    obtain ⟨a₁, ha₁, heq₁⟩ := hstart t'' b' hb'
    exact h.apart t' t'' a₀ a₁ ha₀ ha₁ (heq₀.trans (heq.trans heq₁.symm))
  · intro t' a'' ha''
    by_cases hne : t' = t
    · subst hne
      rw [← hat a'' ha'']
      exact hstays.owns
    · have ha₀ := hold t' a'' hne ha''
      exact (h.owns t' a'' ha₀).congr (hsame t' a'' hne ha₀)
  · intro t' ht'
    -- segments: the calling thread forgets no log block, and the others are out of its reach
    obtain ⟨a₀, header, ha₀, hcut, hlow, hhigh⟩ := h.segment t' ht'
    by_cases hne : t' = t
    · subst hne
      rw [ha] at ha₀
      cases ha₀
      exact ⟨a', header, Function.update_self .., hstays.log_cut header hcut, hlow, hhigh⟩
    · refine ⟨a₀, header, ?_, ?_, hlow, hhigh⟩
      · rw [← ha₀]
        exact Function.update_of_ne hne ..
      · apply hcut.congr
        exact hsame t' a₀ hne ha₀ header hcut.ge_start
          (Nat.lt_of_lt_of_le hcut.below (h.owns t' a₀ ha₀).inside)

theorem Owned.of_same (h : p.Owned) (hlen : p'.poolLen = p.poolLen) (hmem : p'.mem = p.mem)
    (hmanagers : p'.managers = p.managers) (hid : p'.globalId = p.globalId)
    (hworkers : ∀ t, (p'.workers t).logVec = (p.workers t).logVec) : p'.Owned where
  pool t a ha := by
    rw [hid, hlen]
    exact h.pool t a (by rwa [← hmanagers])
  apart t t' a a' ha ha' := by
    rw [hmanagers] at ha ha'
    exact h.apart t t' a a' ha ha'
  owns t a ha := by
    rw [hlen, hmem]
    exact h.owns t a (by rwa [← hmanagers])
  segment t ht := by
    rw [hworkers] at ht
    obtain ⟨a, header, ha, hcut, hlow, hhigh⟩ := h.segment t ht
    refine ⟨a, header, ?_, ?_, ?_, ?_⟩
    · rwa [hmanagers]
    · rwa [hmem]
    · rwa [hworkers]
    · rwa [hworkers]

theorem Owned.resize (h : p.careful → p.Owned) (hcall : p.resize t = some p') :
    p'.careful → p'.Owned := by
  intro hcareful
  obtain ⟨logStart, a₁, m₁, hlog, rfl⟩ := (resize_eq_some Prod.mk.eta.symm).mp hcall
  obtain ⟨hbefore, hmay⟩ := careful_store (t := t) (a := a₁) (m := m₁) hcareful
  have howned := Owned.manager (h (manager_careful hbefore)) hbefore
  have howns := howned.owns t _ manager_managers
  obtain ⟨hstays, header, hcut, hlow, hhigh⟩ := howns.nAllocateLog hmay hlog
  have hstored := howned.store (c := True) manager_managers hstays
  constructor
  · exact hstored.pool
  · exact hstored.apart
  · exact hstored.owns
  · intro t' ht'
    by_cases hne : t' = t
    · subst hne
      refine ⟨_, header, Function.update_self .., hcut, ?_, ?_⟩
      · dsimp only
        rwa [Function.update_self]
      · dsimp only
        rwa [Function.update_self]
    · have hworker : ∀ seg : DSeg, Function.update (p.manager t).2.workers t seg t' =
          (p.manager t).2.workers t' := fun seg => Function.update_of_ne hne ..
      dsimp only at ht' ⊢
      rw [hworker] at ht' ⊢
      exact hstored.segment t' ht'

/-- Every access keeps it, as long as the calls of the allocators are careful. -/
theorem keeps_owned : Pmem.Keeps fun p : Nvm => p.careful → p.Owned where
  append := by
    intro p p' t k v pp op version a hcall h hcareful
    obtain ⟨q, hq, happend⟩ := appendOne_eq_some.mp hcall
    have hq' : q.careful → q.Owned := by
      unfold openSegment at hq
      split at hq
      · exact Owned.resize h hq
      · cases hq
        exact h
    obtain ⟨-, -, rfl⟩ := appendTo_eq_some.mp happend
    apply Owned.of_same (hq' hcareful)
    · rfl
    · rfl
    · rfl
    · rfl
    · intro t'
      by_cases hne : t' = t
      · subst hne
        dsimp only
        rw [Function.update_self]
      · dsimp only
        rw [Function.update_of_ne hne]
  free := by
    intro p p' t a hcall h hcareful
    obtain ⟨-, -, rfl⟩ := (freeRecord_eq_some Prod.mk.eta.symm).mp hcall
    obtain ⟨hbefore, hmay⟩ := careful_store hcareful
    -- the store 64 bytes below the record is not a header, and the free meets `MayFree`
    have hold : p.careful :=
      manager_careful (p := { p with bytes := p.bytes.put32 (a - 64) 0 }) hbefore
    have howned : ({ p with bytes := p.bytes.put32 (a - 64) 0 } : Nvm).Owned :=
      (h hold).of_same rfl rfl rfl rfl fun _ => rfl
    have howned' := howned.manager hbefore
    exact howned'.store manager_managers ((howned'.owns t _ manager_managers).nFree hmay)
  alloc := by
    intro p p' t q hcall h hcareful
    obtain ⟨a', m, htree, rfl⟩ := (nAllocate_eq_some Prod.mk.eta.symm).mp hcall
    obtain ⟨hbefore, hmay⟩ := careful_store hcareful
    have howned := Owned.manager (h (manager_careful hbefore)) hbefore
    exact howned.store manager_managers ((howned.owns t _ manager_managers).nAllocateTree hmay htree)
  setLeaf := by
    intro p p' q l hcall h hcareful
    obtain ⟨-, rfl⟩ := setPleaf_eq_some.mp hcall
    exact (h hcareful).of_same rfl rfl rfl rfl fun _ => rfl

/-! ### One owner

Pools do not overlap, and a log block has its header in the pool of the allocator that lists it. So two
allocators never list the same block, and two threads never append to one segment. -/

def InBlock (header x : Nat) : Prop := header ≤ x ∧ x < header + CHUNK_SIZE

/-- Each log block is listed by the allocator of its pool and by no other, and it is the
active segment of one thread at most. -/
structure OneOwner (p : Nvm) : Prop where
  listed : ∀ t a header, p.managers t = some a → a.Cut p.mem .log header →
    ∃ id, a.list .log id = some header
  nowhere_else : ∀ t a header t' a' id, p.managers t = some a → a.Cut p.mem .log header →
    p.managers t' = some a' → a'.list .log id = some header → t' = t
  one_segment : ∀ t a header t₁ t₂, p.managers t = some a → a.Cut p.mem .log header →
    InBlock header (p.workers t₁).logVec → InBlock header (p.workers t₂).logVec → t₁ = t₂

theorem Owned.segment_owner (h : p.Owned) {a : NAlc} {header : Nat} (ha : p.managers t = some a)
    (hcut : a.Cut p.mem .log header) {t' : Tid} (hin : InBlock header (p.workers t').logVec) :
    t' = t := by
  by_contra hne
  have hpos : (p.workers t').logVec ≠ 0 := by
    obtain ⟨i, hi⟩ := hcut.in_row
    have hlow := hin.1
    rw [hi, blockAt] at hlow
    omega
  obtain ⟨a', header', ha', hcut', hlow, hhigh⟩ := h.segment t' hpos
  have hlimit := (h.owns t a ha).limit hcut
  have hlimit' := (h.owns t' a' ha').limit hcut'
  have hstart := hcut.ge_start
  have hstart' := hcut'.ge_start
  have hapart := h.pools_apart ha' ha hne
  obtain ⟨hin₁, hin₂⟩ := hin
  omega

theorem Owned.oneOwner (h : p.Owned) : p.OneOwner where
  listed t a header ha hcut := (h.owns t a ha).complete header hcut
  nowhere_else t a header t' a' id ha hcut ha' hlist := by
    by_contra hne
    have hcut' := (h.owns t' a' ha').listed .log id header hlist
    have hout := h.cut_outside ha ha' (Ne.symm hne) hcut
    have hstart := hcut'.ge_start
    have hlimit := Nat.lt_of_lt_of_le hcut'.below (h.owns t' a' ha').inside
    omega
  one_segment t a header t₁ t₂ ha hcut h₁ h₂ :=
    (h.segment_owner ha hcut h₁).trans (h.segment_owner ha hcut h₂).symm

end Nvm

/-! ### Runs of several threads -/

def runFresh (poolLen : Nat) (t₀ : Tid) (junkInner : Addr → InnerNode) (junkLeaf : Addr → DLeaf)
    (n : Nat) (ops : List (Tid × ThreadOp)) : Exec (TreeState Nvm) := do
  let s ← init (Nvm.fresh poolLen) t₀ junkInner junkLeaf
  runThreads n s ops

/-- As long as every call of an allocator meets what it needs, each log block has one owner:
what counts is that a removal frees in its own pool and overwrites no other block's entry. -/
theorem log_blocks_one_owner (poolLen : Nat) (t₀ : Tid) (junkInner : Addr → InnerNode)
    (junkLeaf : Addr → DLeaf) (n : Nat) (ops : List (Tid × ThreadOp)) (s : TreeState Nvm)
    (hrun : runFresh poolLen t₀ junkInner junkLeaf n ops = .ok s) (hcareful : s.pm.careful) :
    s.pm.OneOwner := by
  unfold runFresh at hrun
  rw [bind_eq_ok] at hrun
  obtain ⟨s₀, hinit, hrun⟩ := hrun
  have hstart : s₀.pm.careful → s₀.pm.Owned :=
    Nvm.keeps_owned.init hinit fun _ => Nvm.fresh_owned poolLen
  exact (Nvm.keeps_owned.runThreads hrun hstart hcareful).oneOwner

/-- Two threads with a segment each; the first fills four blocks with long values, and removes
the last of its keys. -/
def carefulRun : Exec (TreeState Nvm) :=
  runFresh (32 * CHUNK_SIZE) 0 zeroInner zeroLeaf 3
    [(0, .insert 1 10 0x4000000), (0, .insert 2 20 0x4000000), (0, .insert 3 30 0x4000000),
      (0, .insert 4 40 0x4000000), (1, .insert 5 50 8), (0, .remove 4)]

theorem log_blocks_one_owner_two : ∃ s, carefulRun = .ok s ∧ s.pm.OneOwner := by
  have hcareful : carefulRun.toOption.map (fun s => s.pm.careful) = some true := by
    decide +kernel
  obtain ⟨s, hrun, hs⟩ := exec_of_map hcareful
  exact ⟨s, hrun, log_blocks_one_owner (32 * CHUNK_SIZE) 0 zeroInner zeroLeaf 3 _ s hrun hs⟩

def crossedRun : Exec (TreeState Nvm) :=
  runFresh (32 * CHUNK_SIZE) 0 zeroInner zeroLeaf 3 [(0, .insert 5 50 8), (1, .remove 5)]

/-- What is read of the state after the crossed run: whether the first block of thread 0 is one
of its log blocks, and what thread 1 lists under the id 4. -/
def crossedFacts (s : TreeState Nvm) : Option (Bool × Option Nat) := do
  let a ← s.pm.managers 0
  let a' ← s.pm.managers 1
  return (decide (a.Cut s.pm.mem .log (blockAt mmapStart 4)), a'.list .log 4)

/-- The block with the record is listed by the thread that removed the key, too. -/
theorem log_block_two_owners : ∃ s, crossedRun = .ok s ∧ ¬ s.pm.OneOwner := by
  have hfacts : crossedRun.toOption.map crossedFacts =
      some (some (true, some (blockAt mmapStart 4))) := by
    decide +kernel
  obtain ⟨s, hrun, hs⟩ := exec_of_map hfacts
  refine ⟨s, hrun, ?_⟩
  intro hone
  simp only [crossedFacts, Option.bind_eq_bind, Option.bind_eq_some_iff, Option.pure_def,
    Option.some.injEq, Prod.mk.injEq, decide_eq_true_eq] at hs
  obtain ⟨a, ha, a', ha', hcut, hlist⟩ := hs
  have heq := hone.nowhere_else 0 a (blockAt mmapStart 4) 1 a' 4 ha hcut ha' hlist
  exact absurd heq (by decide)

end ZBTree
