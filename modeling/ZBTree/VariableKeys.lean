import ZBTree.Allocator
import ZBTree.Regions

/-!
# The offsets of variable keys

`D_alc` of `n_alc.cpp`, in the build with `DALC` and `VAR_KEY`. `huge_malloc` packs the id of a block
and a position in it into an offset, and `address_trans` takes the offset apart. The id is a bit-field
of 30 bits, which is promoted to `int` before it is shifted by 26, so that six of its bits are left:
the offsets of block 64 are those of block 0.
-/

namespace ZBTree

def MASK : BitVec 64 := 0x3ffffff

/-- The lists of a `D_alc`: `dfree_list` with position 0 of the counters, `var_list` with
position 1. -/
inductive HugeList where
  | dfree
  | var
deriving DecidableEq, Repr

/-- A `D_alc` (`n_alc.h`), with the headers that it has written. `required` counts the calls of `huge_require`.
A null pointer in a list is not told apart from a missing entry. -/
structure DAlc where
  list : HugeList → BitVec 32 → Option Nat
  pageId : HugeList → BitVec 64
  decisionId : HugeList → BitVec 64
  mem : Headers
  required : Nat

/-- A call of `huge_malloc(size, 1)`: the offset it returns, the address it stands for and its size. -/
structure VarRequest where
  offset : BitVec 64
  address : Nat
  size : Nat
deriving DecidableEq, Repr

namespace DAlc

section Code

-- the block that each call of `huge_require(CHUNK_SIZE)` returns; one that gets no memory throws
variable (blocks : Nat → Nat)

/-- The header of a new block; its type is not set. -/
def newBlock (d : DAlc) (pos : HugeList) : BaseMeta :=
  { d.mem (blocks d.required) with
    bitmap := 0
    startAddress := blocks d.required + baseMetaSize
    blockId := (d.pageId pos).setWidth 30 }

/-- One round of `get_push_back`. -/
def pushBlock (d : DAlc) (pos : HugeList) : DAlc where
  list := Function.update d.list pos
    (Function.update (d.list pos) ((d.pageId pos).setWidth 32) (some (blocks d.required)))
  pageId := Function.update d.pageId pos (d.pageId pos + 1)
  decisionId := d.decisionId
  mem := Function.update d.mem (blocks d.required) (d.newBlock blocks pos)
  required := d.required + 1

/-- `D_alc::get_push_back` (`n_alc.cpp`) for `n` blocks. -/
def getPushBack : Nat → DAlc → HugeList → DAlc
  | 0, d, _ => d
  | n + 1, d, pos => getPushBack n (d.pushBlock blocks pos) pos

/-- `D_alc::get_free_block` (`n_alc.cpp`); `none` is the null pointer. -/
def getFreeBlock (d : DAlc) (pos : HugeList) : Option Nat × DAlc :=
  match d.list pos ((d.decisionId pos).setWidth 32) with
  | some returnBlock => (some returnBlock, d)
  | none =>
    let d := getPushBack blocks 4 d pos
    (d.list pos ((d.decisionId pos).setWidth 32), d)

/-- The lines of `huge_malloc` that find a block with room. -/
def hugeBlock (d : DAlc) (pos : HugeList) (size : BitVec 32) : Option (Nat × DAlc) := do
  let head ← d.list pos ((d.decisionId pos).setWidth 32)
  if CHUNK_SIZE - baseMetaSize < ((d.mem head).bitmap + size).toNat then
    let d := { d with decisionId := Function.update d.decisionId pos (d.decisionId pos + 1) }
    let (head, d) := d.getFreeBlock blocks pos
    let head ← head
    return (head, d)
  else return (head, d)

/-- The bytes of a block that are in use. -/
def useBlock (d : DAlc) (head : Nat) (size : BitVec 32) : DAlc :=
  { d with mem := Function.update d.mem head { d.mem head with bitmap := (d.mem head).bitmap + size } }

/-- `D_alc::huge_malloc` (`n_alc.cpp`): the offset that stands for the memory. -/
def hugeMalloc (d : DAlc) (size : BitVec 32) (variableFlag : Bool) : Option (BitVec 64 × DAlc) := do
  if variableFlag then
    let (head, d) ← d.hugeBlock blocks .var size
    -- `block_id` is promoted to `int`, and the sum with `bitmap` is an unsigned one of 32 bits
    let offset := ((d.mem head).blockId.setWidth 32 <<< CHUNK_SHIFT) + (d.mem head).bitmap + 64
    return (offset.setWidth 64, d.useBlock head size)
  else
    let (thisMeta, d) ← d.hugeBlock blocks .dfree size
    let offset := BitVec.ofNat 64 ((d.mem thisMeta).startAddress + (d.mem thisMeta).bitmap.toNat)
    return (offset, d.useBlock thisMeta size)

/-- `D_alc::address_trans` (`n_alc.cpp`); blocks lie in the address space, so that the sum does not wrap. -/
def addressTrans (d : DAlc) (ptr : BitVec 64) (listFlag : Bool) : Nat :=
  let arcHeader := (d.list (if listFlag then .var else .dfree) ((ptr >>> CHUNK_SHIFT).setWidth 32)).getD 0
  arcHeader + (ptr &&& MASK).toNat

/-- `D_alc::D_alc` (`n_alc.cpp`). -/
def init (junk : Headers) : DAlc :=
  let d : DAlc :=
    { list := fun _ _ => none, pageId := fun _ => 0, decisionId := fun _ => 0, mem := junk, required := 0 }
  let d := getPushBack blocks 4 d .dfree
  getPushBack blocks 16 d .var

/-- A call with the block that the request is carved from, as it is before. -/
def varRequest (d : DAlc) (size : BitVec 32) : Option (VarRequest × DAlc) := do
  let (head, e) ← d.hugeBlock blocks .var size
  let (offset, d) ← d.hugeMalloc blocks size true
  return (⟨offset, (e.mem head).startAddress + (e.mem head).bitmap.toNat, size.toNat⟩, d)

/-- Calls one after another; the last request comes first. -/
def varRun : DAlc → List (BitVec 32) → Option (List VarRequest × DAlc)
  | d, [] => some ([], d)
  | d, size :: rest => do
    let (r, d) ← d.varRequest blocks size
    let (rs, d) ← varRun d rest
    return (rs ++ [r], d)

end Code

/-- Every offset translates to the address that the request was carved at, and the regions do not
overlap. -/
def Translates (requests : List VarRequest) (d : DAlc) : Prop :=
  (∀ r ∈ requests, d.addressTrans r.offset true = r.address) ∧
    requests.Pairwise fun r r' => Region.Disjoint ⟨d.addressTrans r.offset true, r.size⟩
      ⟨d.addressTrans r'.offset true, r'.size⟩

/-- The number of the block that the last of some requests goes to, when block `k` is filled up to
`fill` before. -/
def lastBlock : Nat → Nat → List (BitVec 32) → Nat
  | k, _, [] => k
  | k, fill, size :: rest =>
    if CHUNK_SIZE - baseMetaSize < fill + size.toNat then lastBlock (k + 1) size.toNat rest
    else lastBlock k (fill + size.toNat) rest

/-! ### The blocks for variable keys -/

section Blocks

variable (blocks : Nat → Nat)

/-- The `j`-th block of `var_list`; the first four blocks are those of `dfree_list`. -/
def varBlock (j : Nat) : Nat := blocks (4 + j)

/-- The first `n` blocks of `var_list`. -/
structure VarPages (d : DAlc) (n : Nat) : Prop where
  page : d.pageId .var = BitVec.ofNat 64 n
  required : d.required = 4 + n
  entry : ∀ j, j < n → d.list .var (BitVec.ofNat 32 j) = some (varBlock blocks j)
  unused : ∀ j, n ≤ j → j < 2 ^ 32 → d.list .var (BitVec.ofNat 32 j) = none
  start : ∀ j, j < n → (d.mem (varBlock blocks j)).startAddress = varBlock blocks j + baseMetaSize
  blockId : ∀ j, j < n → (d.mem (varBlock blocks j)).blockId = BitVec.ofNat 30 j

/-- Block `k` is in use up to `fill`, and the blocks behind it are empty. -/
structure VarReady (d : DAlc) (n k fill : Nat) : Prop where
  pages : VarPages blocks d n
  left : k < n
  few : n ≤ k + 16
  decision : d.decisionId .var = BitVec.ofNat 64 k
  filled : (d.mem (varBlock blocks k)).bitmap.toNat = fill
  fill_le : ∀ j, j < n → (d.mem (varBlock blocks j)).bitmap.toNat ≤ CHUNK_SIZE - baseMetaSize
  empty : ∀ j, k < j → j < n → (d.mem (varBlock blocks j)).bitmap = 0

def shelf (d : DAlc) (n : Nat) : Shelf Nat where
  live j := j < n
  block j := ⟨varBlock blocks j, CHUNK_SIZE⟩
  fill j := baseMetaSize + (d.mem (varBlock blocks j)).bitmap.toNat

end Blocks

section Ready

variable {blocks : Nat → Nat} (hapart : ∀ i j, i ≠ j →
    Region.Disjoint ⟨blocks i, CHUNK_SIZE⟩ ⟨blocks j, CHUNK_SIZE⟩)
  {d d' : DAlc} {n k fill : Nat} {size : BitVec 32}

include hapart in
theorem blocks_ne {i j : Nat} (hne : i ≠ j) : blocks i ≠ blocks j := by
  intro heq
  have hin : ∀ i, blocks i ≤ blocks i ∧ blocks i < (⟨blocks i, CHUNK_SIZE⟩ : Region).limit := fun i =>
    ⟨Nat.le_refl _, Nat.lt_add_of_pos_right (by decide : 0 < CHUNK_SIZE)⟩
  have hin' := hin j
  rw [← heq] at hin'
  have hdisjoint := hapart i j hne
  rw [← heq] at hdisjoint
  exact Region.not_disjoint_of_mem (hin i) hin' hdisjoint

include hapart in
theorem varBlock_ne {i j : Nat} (hne : i ≠ j) : varBlock blocks i ≠ varBlock blocks j :=
  blocks_ne hapart fun heq => hne (Nat.add_left_cancel heq)

theorem ofNat_ne {j n : Nat} (hj : j < 2 ^ 32) (hn : n < 2 ^ 32) (hne : j ≠ n) :
    BitVec.ofNat 32 j ≠ BitVec.ofNat 32 n := by
  intro heq
  have hsame := congrArg BitVec.toNat heq
  rw [BitVec.toNat_ofNat, BitVec.toNat_ofNat, Nat.mod_eq_of_lt hj, Nat.mod_eq_of_lt hn] at hsame
  exact hne hsame

include hapart in
/-- One more block. -/
theorem VarPages.push (h : VarPages blocks d n) (hn : n < 2 ^ 30) :
    VarPages blocks (d.pushBlock blocks .var) (n + 1) ∧
      (∀ j, j < n → (d.pushBlock blocks .var).mem (varBlock blocks j) = d.mem (varBlock blocks j)) ∧
      ((d.pushBlock blocks .var).mem (varBlock blocks n)).bitmap = 0 := by
  have hid : (d.pageId .var).setWidth 32 = BitVec.ofNat 32 n := by
    apply BitVec.eq_of_toNat_eq
    rw [h.page, BitVec.toNat_setWidth, BitVec.toNat_ofNat, BitVec.toNat_ofNat,
      Nat.mod_mod_of_dvd _ (by decide)]
  have hid' : (d.pageId .var).setWidth 30 = BitVec.ofNat 30 n := by
    apply BitVec.eq_of_toNat_eq
    rw [h.page, BitVec.toNat_setWidth, BitVec.toNat_ofNat, BitVec.toNat_ofNat,
      Nat.mod_mod_of_dvd _ (by decide)]
  have hblock : blocks d.required = varBlock blocks n := congrArg blocks h.required
  -- the new block is listed under the next id, which is no other block's below `2 ^ 32`
  have hlist : ∀ j, j < 2 ^ 32 → (d.pushBlock blocks .var).list .var (BitVec.ofNat 32 j) =
      if j = n then some (varBlock blocks n) else d.list .var (BitVec.ofNat 32 j) := by
    intro j hj
    simp only [pushBlock, Function.update_self, hid, hblock]
    by_cases hjn : j = n
    · subst hjn
      rw [Function.update_self, if_pos rfl]
    · rw [Function.update_of_ne (ofNat_ne hj (by omega) hjn), if_neg hjn]
  have hold : ∀ j, j < n →
      (d.pushBlock blocks .var).mem (varBlock blocks j) = d.mem (varBlock blocks j) := by
    intro j hj
    simp only [pushBlock, hblock]
    exact Function.update_of_ne (varBlock_ne hapart (Nat.ne_of_lt hj)) _ _
  have hnew : (d.pushBlock blocks .var).mem (varBlock blocks n) = d.newBlock blocks .var := by
    simp only [pushBlock, hblock, Function.update_self]
  refine ⟨⟨?_, ?_, ?_, ?_, ?_, ?_⟩, hold, by rw [hnew]; rfl⟩
  · simp only [pushBlock, Function.update_self, h.page]
    exact (BitVec.ofNat_add n 1).symm
  · exact congrArg (· + 1) h.required
  · intro j hj
    rw [hlist j (by omega)]
    split
    · next heq => rw [heq]
    · exact h.entry j (by omega)
  · intro j hle hlt
    rw [hlist j hlt, if_neg (by omega)]
    exact h.unused j (by omega) hlt
  · intro j hj
    rcases Nat.lt_succ_iff_lt_or_eq.mp hj with hlt | rfl
    · rw [hold j hlt]
      exact h.start j hlt
    · rw [hnew, newBlock, hblock]
  · intro j hj
    rcases Nat.lt_succ_iff_lt_or_eq.mp hj with hlt | rfl
    · rw [hold j hlt]
      exact h.blockId j hlt
    · rw [hnew, newBlock]
      exact hid'

include hapart in
theorem VarPages.getPushBack (h : VarPages blocks d n) (m : Nat) (hm : n + m ≤ 2 ^ 30) :
    VarPages blocks (DAlc.getPushBack blocks m d .var) (n + m) ∧
      (DAlc.getPushBack blocks m d .var).decisionId = d.decisionId ∧
      (∀ j, j < n → (DAlc.getPushBack blocks m d .var).mem (varBlock blocks j) =
        d.mem (varBlock blocks j)) ∧
      ∀ j, n ≤ j → j < n + m → ((DAlc.getPushBack blocks m d .var).mem (varBlock blocks j)).bitmap = 0 := by
  induction m generalizing d n with
  | zero => exact ⟨h, rfl, fun j _ => rfl, fun j hle hlt => absurd hlt (Nat.not_lt.mpr hle)⟩
  | succ m ih =>
    obtain ⟨hpush, hold, hnew⟩ := h.push hapart (by omega)
    obtain ⟨hpages, hdec, hsame, hempty⟩ := ih hpush (by omega)
    rw [DAlc.getPushBack]
    refine ⟨?_, hdec, fun j hj => (hsame j (by omega)).trans (hold j hj), fun j hle hlt => ?_⟩
    · rw [Nat.add_right_comm n 1 m] at hpages
      exact hpages
    · rcases Nat.eq_or_lt_of_le hle with rfl | hlt'
      · rw [hsame n (Nat.lt_succ_self n)]
        exact hnew
      · exact hempty j hlt' (by omega)

include hapart in
theorem init_ready (junk : Headers) : VarReady blocks (init blocks junk) 16 0 0 := by
  have hstart : VarPages blocks (DAlc.getPushBack blocks 4
      { list := fun _ _ => none, pageId := fun _ => 0, decisionId := fun _ => 0, mem := junk,
        required := 0 } .dfree) 0 := by
    refine ⟨?_, rfl, fun j hj => absurd hj (Nat.not_lt_zero j), ?_, fun j hj => absurd hj (Nat.not_lt_zero j),
      fun j hj => absurd hj (Nat.not_lt_zero j)⟩
    · simp [DAlc.getPushBack, pushBlock]
    · intro j _ _
      simp [DAlc.getPushBack, pushBlock]
  obtain ⟨hpages, hdec, -, hempty⟩ := hstart.getPushBack hapart 16 (by decide)
  rw [Nat.zero_add] at hpages hempty
  have hzero : (0 : BitVec 32).toNat = 0 := rfl
  refine ⟨hpages, by decide, by decide, congrFun hdec .var, ?_, ?_, fun j _ hj => hempty j (Nat.zero_le j) hj⟩
  · exact congrArg BitVec.toNat (hempty 0 (Nat.le_refl 0) (by decide))
  · intro j hj
    have hj' := hempty j (Nat.zero_le j) hj
    unfold init
    rw [hj', hzero]
    exact Nat.zero_le _

theorem setWidth_ofNat (m : Nat) : (BitVec.ofNat 64 m).setWidth 32 = BitVec.ofNat 32 m := by
  apply BitVec.eq_of_toNat_eq
  rw [BitVec.toNat_setWidth, BitVec.toNat_ofNat, BitVec.toNat_ofNat, Nat.mod_mod_of_dvd _ (by decide)]

include hapart in
theorem VarPages.getFreeBlock (h : VarPages blocks d n) (hdec : d.decisionId .var = BitVec.ofNat 64 k)
    (hk : k ≤ n) (hn : n + 4 ≤ 2 ^ 30) : ∃ e n', d.getFreeBlock blocks .var = (some (varBlock blocks k), e) ∧
      VarPages blocks e n' ∧ k < n' ∧ n ≤ n' ∧ (n' = n ∨ n' = k + 4) ∧ e.decisionId = d.decisionId ∧
      (∀ j, j < n → e.mem (varBlock blocks j) = d.mem (varBlock blocks j)) ∧
      ∀ j, n ≤ j → j < n' → (e.mem (varBlock blocks j)).bitmap = 0 := by
  unfold DAlc.getFreeBlock
  rw [hdec, setWidth_ofNat]
  rcases Nat.lt_or_eq_of_le hk with hlt | rfl
  · rw [h.entry k hlt]
    exact ⟨d, n, rfl, h, hlt, Nat.le_refl n, Or.inl rfl, rfl, fun j _ => rfl,
      fun j hle hlt => absurd hlt (Nat.not_lt.mpr hle)⟩
  · obtain ⟨hpages, hsame, hold, hempty⟩ := h.getPushBack hapart 4 hn
    rw [h.unused k (Nat.le_refl k) (by omega)]
    refine ⟨_, k + 4, ?_, hpages, by omega, by omega, Or.inr rfl, hsame, hold, hempty⟩
    dsimp only
    rw [hsame, hdec, setWidth_ofNat, hpages.entry k (by omega)]

/-! ### One call -/

/-- Whether block `k` has room, and the block and its filling where a request goes. -/
def goesTo (k fill : Nat) (size : BitVec 32) : Nat × Nat :=
  if CHUNK_SIZE - baseMetaSize < fill + size.toNat then (k + 1, 0) else (k, fill)

theorem lastBlock_cons (rest : List (BitVec 32)) : lastBlock k fill (size :: rest) =
    lastBlock (goesTo k fill size).1 ((goesTo k fill size).2 + size.toNat) rest := by
  rw [lastBlock, goesTo]
  split
  · rw [Nat.zero_add]
  · rfl

include hapart in
/-- The block of a request. -/
theorem VarReady.hugeBlock (h : VarReady blocks d n k fill) (hk : k ≤ 64)
    (hsize : size.toNat ≤ CHUNK_SIZE - baseMetaSize) : ∃ e n', d.hugeBlock blocks .var size =
      some (varBlock blocks (goesTo k fill size).1, e) ∧
      VarReady blocks e n' (goesTo k fill size).1 (goesTo k fill size).2 ∧ n ≤ n' ∧
      (goesTo k fill size).2 + size.toNat ≤ CHUNK_SIZE - baseMetaSize ∧
      ∀ j, j < n → e.mem (varBlock blocks j) = d.mem (varBlock blocks j) := by
  have hchunk : CHUNK_SIZE - baseMetaSize = 67108800 := by decide
  -- the block in use is the one that `decision_id` names
  have hhead : d.list .var ((d.decisionId .var).setWidth 32) = some (varBlock blocks k) := by
    rw [h.decision, setWidth_ofNat]
    exact h.pages.entry k h.left
  have hsum : ((d.mem (varBlock blocks k)).bitmap + size).toNat = fill + size.toNat := by
    have hfill := h.fill_le k h.left
    rw [h.filled] at hfill
    rw [BitVec.toNat_add, h.filled]
    exact Nat.mod_eq_of_lt (by omega)
  unfold DAlc.hugeBlock goesTo
  rw [hhead]
  simp only [Option.bind_eq_bind, Option.bind_some, hsum]
  by_cases hfull : CHUNK_SIZE - baseMetaSize < fill + size.toNat
  · simp only [if_pos hfull]
    -- the counter moves on to block `k + 1`, which may have to be required first
    have hnext : Function.update d.decisionId .var (d.decisionId .var + 1) .var = BitVec.ofNat 64 (k + 1) := by
      rw [Function.update_self, h.decision]
      exact (BitVec.ofNat_add k 1).symm
    have hmoved : VarPages blocks { d with
        decisionId := Function.update d.decisionId .var (d.decisionId .var + 1) } n :=
      ⟨h.pages.page, h.pages.required, h.pages.entry, h.pages.unused, h.pages.start, h.pages.blockId⟩
    have hroom : 0 + size.toNat ≤ CHUNK_SIZE - baseMetaSize := by rwa [Nat.zero_add]
    have hzero : (0 : BitVec 32).toNat = 0 := rfl
    have hfew := h.few
    obtain ⟨e, n', hfree, hpages, hlt, hle, hcount, hsame, hold, hempty⟩ :=
      hmoved.getFreeBlock hapart hnext h.left (by omega)
    rw [hfree]
    -- the blocks behind block `k` are empty, whether they were there before or not
    have hbehind : ∀ j, k < j → j < n' → (e.mem (varBlock blocks j)).bitmap = 0 := by
      intro j hkj hj
      rcases Nat.lt_or_ge j n with hjn | hjn
      · rw [hold j hjn]
        exact h.empty j hkj hjn
      · exact hempty j hjn hj
    refine ⟨e, n', rfl, ⟨hpages, hlt, by omega, ?_, ?_, ?_, fun j hj => hbehind j (by omega)⟩, hle, hroom,
      hold⟩
    · rw [hsame]
      exact hnext
    · rw [hbehind (k + 1) (Nat.lt_succ_self k) hlt, hzero]
    · intro j hj
      rcases Nat.lt_or_ge j n with hjn | hjn
      · rw [hold j hjn]
        exact h.fill_le j hjn
      · rw [hempty j hjn hj, hzero]
        exact Nat.zero_le _
  · simp only [if_neg hfull]
    exact ⟨d, n, rfl, h, Nat.le_refl n, Nat.not_lt.mp hfull, fun j _ => rfl⟩

include hapart in
theorem VarReady.useBlock (h : VarReady blocks d n k fill)
    (hroom : fill + size.toNat ≤ CHUNK_SIZE - baseMetaSize) :
    VarReady blocks (d.useBlock (varBlock blocks k) size) n k (fill + size.toNat) := by
  have hother : ∀ j, j ≠ k → (d.useBlock (varBlock blocks k) size).mem (varBlock blocks j) =
      d.mem (varBlock blocks j) := fun j hj => Function.update_of_ne (varBlock_ne hapart hj) _ _
  have hown : (d.useBlock (varBlock blocks k) size).mem (varBlock blocks k) =
      { d.mem (varBlock blocks k) with bitmap := (d.mem (varBlock blocks k)).bitmap + size } :=
    Function.update_self ..
  have hfilled : ((d.useBlock (varBlock blocks k) size).mem (varBlock blocks k)).bitmap.toNat =
      fill + size.toNat := by
    rw [hown]
    dsimp only
    rw [BitVec.toNat_add, h.filled]
    exact Nat.mod_eq_of_lt (Nat.lt_of_le_of_lt hroom (by decide))
  refine ⟨⟨h.pages.page, h.pages.required, h.pages.entry, h.pages.unused, ?_, ?_⟩, h.left, h.few,
    h.decision, hfilled, ?_, ?_⟩
  · intro j hj
    by_cases hjk : j = k
    · subst hjk
      rw [hown]
      exact h.pages.start j hj
    · rw [hother j hjk]
      exact h.pages.start j hj
  · intro j hj
    by_cases hjk : j = k
    · subst hjk
      rw [hown]
      exact h.pages.blockId j hj
    · rw [hother j hjk]
      exact h.pages.blockId j hj
  · intro j hj
    by_cases hjk : j = k
    · subst hjk
      rw [hfilled]
      exact hroom
    · rw [hother j hjk]
      exact h.fill_le j hj
  · intro j hkj hj
    rw [hother j (Nat.ne_of_gt hkj)]
    exact h.empty j hkj hj

/-- The offset of the place `fill` in block `k`: 6 bits of the id are left. -/
def offsetOf (k fill : Nat) : BitVec 64 := BitVec.ofNat 64 (k % 64 * 2 ^ CHUNK_SHIFT + (baseMetaSize + fill))

theorem offset_eq {bitmap : BitVec 32} (hk : k < 2 ^ 30) (hfill : bitmap.toNat = fill)
    (hroom : fill < CHUNK_SIZE - baseMetaSize) :
    (((BitVec.ofNat 30 k).setWidth 32 <<< CHUNK_SHIFT) + bitmap + 64).setWidth 64 = offsetOf k fill := by
  have hwidth : (64 : BitVec 32).toNat = 64 := rfl
  apply BitVec.eq_of_toNat_eq
  rw [BitVec.toNat_setWidth, BitVec.toNat_add, BitVec.toNat_add, BitVec.toNat_shiftLeft,
    BitVec.toNat_setWidth, BitVec.toNat_ofNat, hfill, hwidth, offsetOf, BitVec.toNat_ofNat,
    Nat.mod_eq_of_lt hk, Nat.mod_eq_of_lt (hk.trans (by decide)), Nat.shiftLeft_eq]
  have hshift : k * 2 ^ CHUNK_SHIFT % 2 ^ 32 = k % 64 * 2 ^ CHUNK_SHIFT := by
    simp only [CHUNK_SHIFT]
    omega
  rw [hshift]
  have hlow : k % 64 < 64 := Nat.mod_lt k (by decide)
  generalize k % 64 = r at hlow
  simp only [CHUNK_SHIFT, CHUNK_SIZE, baseMetaSize] at hroom ⊢
  omega

include hapart in
/-- One request: where it goes, the offset it gets, and that nothing else was in use there. -/
theorem VarReady.varRequest (h : VarReady blocks d n k fill) (hk : k < 64) (hpos : 0 < size.toNat)
    (hsize : size.toNat ≤ CHUNK_SIZE - baseMetaSize) {k' fill' : Nat}
    (hgoes : goesTo k fill size = (k', fill')) : ∃ d' n', d.varRequest blocks size =
      some (⟨offsetOf k' fill', varBlock blocks k' + (baseMetaSize + fill'), size.toNat⟩, d') ∧
      VarReady blocks d' n' k' (fill' + size.toNat) ∧ n ≤ n' ∧
      (d.shelf blocks n).Cut (d'.shelf blocks n') k'
        ⟨varBlock blocks k' + (baseMetaSize + fill'), size.toNat⟩ := by
  obtain ⟨e, n', hblock, hready, hle, hroom, hsame⟩ := h.hugeBlock hapart hk.le hsize
  rw [hgoes] at hblock hready hroom
  dsimp only at hblock hready hroom
  have hk' : k' ≤ 64 := by
    rw [goesTo] at hgoes
    split at hgoes <;> cases hgoes <;> omega
  have hused := hready.useBlock hapart hroom
  have hfill' : (e.mem (varBlock blocks k')).bitmap.toNat = fill' := hready.filled
  refine ⟨e.useBlock (varBlock blocks k') size, n', ?_, hused, hle, ?_⟩
  · unfold DAlc.varRequest hugeMalloc
    rw [hblock]
    simp only [if_true, Option.bind_eq_bind, Option.bind_some, Option.pure_def]
    rw [hready.pages.blockId k' hready.left, hready.pages.start k' hready.left,
      offset_eq (by omega) hfill' (Nat.lt_of_lt_of_le (Nat.lt_add_of_pos_right hpos) hroom), hfill',
      Nat.add_assoc]
  · have hfillAt : ∀ j, j < n → ((e.mem (varBlock blocks j)).bitmap.toNat) ≤
        (((e.useBlock (varBlock blocks k') size).mem (varBlock blocks j)).bitmap.toNat) := by
      intro j hj
      by_cases hjk : j = k'
      · subst hjk
        rw [hused.filled, hready.filled]
        exact Nat.le_add_right _ _
      · have hother : (e.useBlock (varBlock blocks k') size).mem (varBlock blocks j) =
            e.mem (varBlock blocks j) := Function.update_of_ne (varBlock_ne hapart hjk) _ _
        rw [hother]
    refine ⟨⟨fun {j} hj => Nat.lt_of_lt_of_le hj hle, fun _ => rfl, fun {j} hj => ?_⟩, hready.left,
      Nat.le_add_right _ _, fun hlive => ?_, ?_⟩
    · apply Nat.add_le_add_left
      rw [← hsame j hj]
      exact hfillAt j hj
    · simp only [Shelf.inUse, Region.limit, shelf]
      rw [← hsame k' hlive, hfill']
    · simp only [Shelf.inUse, Region.limit, shelf]
      rw [hused.filled, Nat.add_assoc, Nat.add_assoc]

include hapart in
theorem VarReady.sound (h : VarReady blocks d n k fill) : (d.shelf blocks n).Sound where
  apart _ _ hne := hapart _ _ fun heq => hne (Nat.add_left_cancel heq)
  fill_le {j} hj := by
    have hle := h.fill_le j hj
    have hmeta : baseMetaSize ≤ CHUNK_SIZE := by decide
    simp only [shelf]
    omega

/-! ### address_trans -/

theorem VarPages.addressTrans (h : VarPages blocks d n) {j x : Nat} (hj : j < n) (hj' : j < 64)
    (hx : x < 2 ^ CHUNK_SHIFT) :
    d.addressTrans (BitVec.ofNat 64 (j * 2 ^ CHUNK_SHIFT + x)) true = varBlock blocks j + x := by
  have hlt : j * 2 ^ CHUNK_SHIFT + x < 2 ^ 64 := by
    simp only [CHUNK_SHIFT] at hx ⊢
    omega
  have hkey : (BitVec.ofNat 64 (j * 2 ^ CHUNK_SHIFT + x) >>> CHUNK_SHIFT).setWidth 32 = BitVec.ofNat 32 j := by
    apply BitVec.eq_of_toNat_eq
    rw [BitVec.toNat_setWidth, BitVec.toNat_ushiftRight, BitVec.toNat_ofNat, BitVec.toNat_ofNat,
      Nat.mod_eq_of_lt hlt, Nat.shiftRight_eq_div_pow, Nat.add_comm, Nat.add_mul_div_right _ _ (by decide),
      Nat.div_eq_of_lt hx, Nat.zero_add]
  have hplace : (BitVec.ofNat 64 (j * 2 ^ CHUNK_SHIFT + x) &&& MASK).toNat = x := by
    have hmask : MASK.toNat = 2 ^ CHUNK_SHIFT - 1 := by decide
    rw [BitVec.toNat_and, hmask, Nat.and_two_pow_sub_one_eq_mod, BitVec.toNat_ofNat,
      Nat.mod_eq_of_lt hlt, Nat.add_comm, Nat.add_mul_mod_self_right, Nat.mod_eq_of_lt hx]
  unfold DAlc.addressTrans
  rw [if_pos rfl, hkey, hplace, h.entry j hj, Option.getD_some]

/-! ### Runs -/

theorem le_lastBlock (sizes : List (BitVec 32)) (k fill : Nat) : k ≤ lastBlock k fill sizes := by
  induction sizes generalizing k fill with
  | nil => exact Nat.le_refl k
  | cons size rest ih =>
    rw [lastBlock]
    split
    · exact (Nat.le_succ k).trans (ih (k + 1) size.toNat)
    · exact ih k (fill + size.toNat)

/-- A request in one of the first 64 blocks. -/
def Placed (blocks : Nat → Nat) (n : Nat) (r : VarRequest) : Prop :=
  ∃ j f, j < n ∧ j < 64 ∧ baseMetaSize + f < 2 ^ CHUNK_SHIFT ∧ r.offset = offsetOf j f ∧
    r.address = varBlock blocks j + (baseMetaSize + f)

theorem Placed.mono {n' : Nat} {r : VarRequest} (h : Placed blocks n r) (hle : n ≤ n') :
    Placed blocks n' r := by
  obtain ⟨j, f, hj, hrest⟩ := h
  exact ⟨j, f, Nat.lt_of_lt_of_le hj hle, hrest⟩

theorem Placed.translates {r : VarRequest} (h : Placed blocks n r) (hpages : VarPages blocks d n) :
    d.addressTrans r.offset true = r.address := by
  obtain ⟨j, f, hj, hj', hf, hoffset, haddress⟩ := h
  rw [hoffset, haddress, offsetOf, Nat.mod_eq_of_lt hj']
  exact hpages.addressTrans hj hj' hf

include hapart in
/-- Requests that stay in the first 64 blocks. -/
theorem VarReady.run {sizes : List (BitVec 32)} (h : VarReady blocks d n k fill) (hk : k < 64)
    (hsizes : ∀ size ∈ sizes, 0 < size.toNat ∧ size.toNat ≤ CHUNK_SIZE - baseMetaSize)
    (hlast : lastBlock k fill sizes < 64) {taken : List (Nat × Region)}
    (htaken : (d.shelf blocks n).Packed taken) : ∃ rs d' n' k' fill' tags,
      d.varRun blocks sizes = some (rs, d') ∧ VarReady blocks d' n' k' fill' ∧
      (d'.shelf blocks n').Packed (tags ++ taken) ∧
      tags.map Prod.snd = rs.map (fun r => ⟨r.address, r.size⟩) ∧ ∀ r ∈ rs, Placed blocks n' r := by
  -- `n` only grows, which the recursion needs for the requests placed before
  suffices ∃ rs d' n' k' fill' tags, d.varRun blocks sizes = some (rs, d') ∧
      VarReady blocks d' n' k' fill' ∧ n ≤ n' ∧ (d'.shelf blocks n').Packed (tags ++ taken) ∧
      tags.map Prod.snd = rs.map (fun r => ⟨r.address, r.size⟩) ∧ ∀ r ∈ rs, Placed blocks n' r by
    obtain ⟨rs, d', n', k', fill', tags, hrun, hready, -, hrest⟩ := this
    exact ⟨rs, d', n', k', fill', tags, hrun, hready, hrest⟩
  induction sizes generalizing d n k fill taken with
  | nil =>
    exact ⟨[], d, n, k, fill, [], rfl, h, Nat.le_refl n, htaken, rfl, fun r hr => absurd hr List.not_mem_nil⟩
  | cons size rest ih =>
    obtain ⟨hpos, hsize⟩ := hsizes size List.mem_cons_self
    obtain ⟨k₁, f₁, hgoes⟩ : ∃ k₁ f₁, goesTo k fill size = (k₁, f₁) := ⟨_, _, rfl⟩
    rw [lastBlock_cons, hgoes] at hlast
    have hk₁ : k₁ < 64 := (le_lastBlock rest k₁ _).trans_lt hlast
    obtain ⟨d₁, n₁, hcall, hready, hle, hcut⟩ := h.varRequest hapart hk hpos hsize hgoes
    obtain ⟨rs, d', n', k', fill', tags, hrun, hready', hle', hpacked, htags, hplaced⟩ :=
      ih hready hk₁ (fun s hs => hsizes s (List.mem_cons_of_mem _ hs)) hlast
        (hcut.packed (hready.sound hapart) htaken)
    refine ⟨rs ++ [⟨offsetOf k₁ f₁, varBlock blocks k₁ + (baseMetaSize + f₁), size.toNat⟩], d', n', k', fill',
      tags ++ [(k₁, ⟨varBlock blocks k₁ + (baseMetaSize + f₁), size.toNat⟩)], ?_, hready',
      hle.trans hle', ?_, ?_, ?_⟩
    · rw [DAlc.varRun, hcall]
      simp only [Option.bind_eq_bind, Option.bind_some, hrun, Option.pure_def]
    · rw [List.append_assoc]
      exact hpacked
    · rw [List.map_append, List.map_append, htags]
      rfl
    · intro r hr
      rcases List.mem_append.mp hr with hr | hr
      · exact hplaced r hr
      · obtain rfl := List.mem_singleton.mp hr
        have hroom := hready.fill_le k₁ hready.left
        rw [hready.filled] at hroom
        refine ⟨k₁, f₁, Nat.lt_of_lt_of_le hready.left hle', hk₁, ?_, rfl, rfl⟩
        simp only [CHUNK_SIZE, CHUNK_SHIFT, baseMetaSize] at hroom ⊢
        omega

/-! ### The 65th block

`block_id << 26` of an `int` keeps the lowest six bits of the id. Block 64 gets the offsets of block 0, and
`address_trans` answers for block 0. -/

/-- Block 64 has been required and is not listed as the first one. -/
def PastFirst (blocks : Nat → Nat) (d : DAlc) : Prop :=
  68 < d.required ∧ d.list .var 0 ≠ some (varBlock blocks 64)

include hapart in
theorem PastFirst.getPushBack (h : PastFirst blocks d) (m : Nat) :
    PastFirst blocks (DAlc.getPushBack blocks m d .var) := by
  induction m generalizing d with
  | zero => exact h
  | succ m ih =>
    apply ih
    refine ⟨Nat.lt_succ_of_lt h.1, ?_⟩
    simp only [pushBlock, Function.update_self]
    by_cases hid : 0 = (d.pageId .var).setWidth 32
    · rw [← hid, Function.update_self, Ne, Option.some.injEq]
      exact blocks_ne hapart (Nat.ne_of_gt h.1)
    · rw [Function.update_of_ne hid]
      exact h.2

include hapart in
theorem PastFirst.getFreeBlock (h : PastFirst blocks d) : PastFirst blocks (d.getFreeBlock blocks .var).2 := by
  unfold DAlc.getFreeBlock
  split
  · exact h
  · exact h.getPushBack hapart 4

include hapart in
theorem PastFirst.hugeBlock {head : Nat} {e : DAlc} (h : PastFirst blocks d)
    (hcall : d.hugeBlock blocks .var size = some (head, e)) : PastFirst blocks e := by
  unfold DAlc.hugeBlock at hcall
  obtain ⟨first, -, hcall⟩ := Option.bind_eq_some_iff.mp hcall
  by_cases hfull : CHUNK_SIZE - baseMetaSize < ((d.mem first).bitmap + size).toNat
  · rw [if_pos hfull] at hcall
    have hmoved : PastFirst blocks { d with
        decisionId := Function.update d.decisionId .var (d.decisionId .var + 1) } := h
    have hfree := hmoved.getFreeBlock hapart
    rcases hblock : DAlc.getFreeBlock blocks { d with
        decisionId := Function.update d.decisionId .var (d.decisionId .var + 1) } .var with ⟨head', e'⟩
    rw [hblock] at hfree
    simp only [hblock] at hcall
    obtain ⟨head'', -, hcall⟩ := Option.bind_eq_some_iff.mp hcall
    simp only [Option.pure_def, Option.some.injEq, Prod.mk.injEq] at hcall
    obtain ⟨-, rfl⟩ := hcall
    exact hfree
  · rw [if_neg hfull] at hcall
    simp only [Option.pure_def, Option.some.injEq, Prod.mk.injEq] at hcall
    obtain ⟨-, rfl⟩ := hcall
    exact h

include hapart in
theorem PastFirst.varRequest {r : VarRequest} (h : PastFirst blocks d)
    (hcall : d.varRequest blocks size = some (r, d')) : PastFirst blocks d' := by
  unfold DAlc.varRequest hugeMalloc at hcall
  obtain ⟨⟨head, e⟩, hblock, hcall⟩ := Option.bind_eq_some_iff.mp hcall
  simp only [if_true, hblock, Option.bind_eq_bind, Option.bind_some, Option.pure_def, Option.some.injEq,
    Prod.mk.injEq] at hcall
  obtain ⟨-, rfl⟩ := hcall
  have hpast := h.hugeBlock hapart hblock
  exact hpast

include hapart in
theorem PastFirst.run {sizes : List (BitVec 32)} {rs : List VarRequest} (h : PastFirst blocks d)
    (hrun : d.varRun blocks sizes = some (rs, d')) : PastFirst blocks d' := by
  induction sizes generalizing d rs with
  | nil =>
    cases hrun
    exact h
  | cons size rest ih =>
    rw [DAlc.varRun] at hrun
    obtain ⟨⟨r, d₁⟩, hcall, hrun⟩ := Option.bind_eq_some_iff.mp hrun
    obtain ⟨⟨rs', d₂⟩, hrest, hrun⟩ := Option.bind_eq_some_iff.mp hrun
    simp only [Option.pure_def, Option.some.injEq, Prod.mk.injEq] at hrun
    obtain ⟨-, rfl⟩ := hrun
    exact ih (h.varRequest hapart hcall) hrest

include hapart in
/-- The first request that goes to block 64 gets an offset of block 0. -/
theorem VarReady.overrun {sizes : List (BitVec 32)} {rs : List VarRequest}
    (h : VarReady blocks d n k fill) (hk : k < 64)
    (hsizes : ∀ size ∈ sizes, 0 < size.toNat ∧ size.toNat ≤ CHUNK_SIZE - baseMetaSize)
    (hlast : 64 ≤ lastBlock k fill sizes) (hrun : d.varRun blocks sizes = some (rs, d')) :
    PastFirst blocks d' ∧ ∃ r ∈ rs, r.offset = offsetOf 64 0 ∧
      r.address = varBlock blocks 64 + baseMetaSize := by
  induction sizes generalizing d n k fill rs with
  | nil => exact absurd hlast (Nat.not_le.mpr hk)
  | cons size rest ih =>
    obtain ⟨hpos, hsize⟩ := hsizes size List.mem_cons_self
    obtain ⟨k₁, f₁, hgoes⟩ : ∃ k₁ f₁, goesTo k fill size = (k₁, f₁) := ⟨_, _, rfl⟩
    rw [lastBlock_cons, hgoes] at hlast
    obtain ⟨d₁, n₁, hcall, hready, hle, -⟩ := h.varRequest hapart hk hpos hsize hgoes
    rw [DAlc.varRun, hcall] at hrun
    simp only [Option.bind_eq_bind, Option.bind_some] at hrun
    obtain ⟨⟨rs', d₂⟩, hrest, hrun⟩ := Option.bind_eq_some_iff.mp hrun
    simp only [Option.pure_def, Option.some.injEq, Prod.mk.injEq] at hrun
    obtain ⟨rfl, rfl⟩ := hrun
    by_cases hk₁ : k₁ < 64
    · obtain ⟨hpast, r, hr, hoffset, haddress⟩ :=
        ih hready hk₁ (fun s hs => hsizes s (List.mem_cons_of_mem _ hs)) hlast hrest
      exact ⟨hpast, r, List.mem_append_left _ hr, hoffset, haddress⟩
    · have hnext : k₁ = 64 ∧ f₁ = 0 := by
        rw [goesTo] at hgoes
        split at hgoes <;> cases hgoes <;> omega
      obtain ⟨rfl, rfl⟩ := hnext
      have hpast : PastFirst blocks d₁ := by
        have hleft := hready.left
        have hrequired := hready.pages.required
        refine ⟨by omega, ?_⟩
        have hfirst : d₁.list .var 0 = some (varBlock blocks 0) := hready.pages.entry 0 (by omega)
        rw [hfirst, Ne, Option.some.injEq]
        exact varBlock_ne hapart (by decide)
      exact ⟨hpast.run hapart hrest, _, List.mem_append_right _ (List.mem_singleton_self _), rfl, rfl⟩

theorem PastFirst.wrong {r : VarRequest} (hnull : ∀ i, blocks i ≠ 0) (h : PastFirst blocks d)
    (hoffset : r.offset = offsetOf 64 0) (haddress : r.address = varBlock blocks 64 + baseMetaSize) :
    d.addressTrans r.offset true ≠ r.address := by
  have hkey : (offsetOf 64 0 >>> CHUNK_SHIFT).setWidth 32 = (0 : BitVec 32) := by decide
  have hplace : (offsetOf 64 0 &&& MASK).toNat = baseMetaSize := by decide
  intro hsame
  rw [hoffset, haddress, DAlc.addressTrans, if_pos rfl, hkey, hplace] at hsame
  have hheader := Nat.add_right_cancel hsame
  have hlist := h.2
  cases hentry : d.list .var 0 with
  | none =>
    rw [hentry] at hheader
    exact hnull (4 + 64) hheader.symm
  | some header =>
    rw [hentry] at hheader hlist
    exact hlist (congrArg some hheader)

end Ready

end DAlc

/-- All calls of a sequence return, and their offsets translate back to disjoint regions, exactly if the
sequence goes to the first 64 blocks only. -/
theorem variable_offsets_iff (blocks : Nat → Nat) (hnull : ∀ i, blocks i ≠ 0)
    (hapart : ∀ i j, i ≠ j → Region.Disjoint ⟨blocks i, CHUNK_SIZE⟩ ⟨blocks j, CHUNK_SIZE⟩)
    (junk : Headers) (sizes : List (BitVec 32))
    (hsizes : ∀ size ∈ sizes, 0 < size.toNat ∧ size.toNat ≤ CHUNK_SIZE - baseMetaSize) :
    (∃ requests d, (DAlc.init blocks junk).varRun blocks sizes = some (requests, d) ∧
      DAlc.Translates requests d) ↔ DAlc.lastBlock 0 0 sizes < 64 := by
  have hready := DAlc.init_ready hapart junk
  constructor
  · rintro ⟨requests, d, hrun, hback, -⟩
    by_contra hlast
    obtain ⟨hpast, r, hr, hoffset, haddress⟩ :=
      hready.overrun hapart (by decide) hsizes (Nat.not_lt.mp hlast) hrun
    exact hpast.wrong hnull hoffset haddress (hback r hr)
  · intro hlast
    obtain ⟨rs, d, n, k, fill, tags, hrun, hready', hpacked, htags, hplaced⟩ :=
      hready.run hapart (by decide) hsizes hlast (Shelf.Packed.nil _)
    rw [List.append_nil] at hpacked
    have hback : ∀ r ∈ rs, d.addressTrans r.offset true = r.address := fun r hr =>
      (hplaced r hr).translates hready'.pages
    refine ⟨rs, d, hrun, hback, ?_⟩
    have hdisjoint : (rs.map fun r => (⟨r.address, r.size⟩ : Region)).Pairwise Region.Disjoint := by
      rw [← htags, List.pairwise_map]
      exact hpacked.disjoint
    rw [List.pairwise_map] at hdisjoint
    apply hdisjoint.imp_of_mem
    intro r r' hr hr' hr₀
    rw [hback r hr, hback r' hr']
    exact hr₀

def rowBlocks (i : Nat) : Nat := (i + 1) * CHUNK_SIZE

theorem rowBlocks_apart (i j : Nat) (hne : i ≠ j) :
    Region.Disjoint ⟨rowBlocks i, CHUNK_SIZE⟩ ⟨rowBlocks j, CHUNK_SIZE⟩ := by
  simp only [Region.Disjoint, Region.limit, rowBlocks, CHUNK_SIZE]
  omega

theorem rowBlocks_ne_zero (i : Nat) : rowBlocks i ≠ 0 := by
  simp only [rowBlocks, CHUNK_SIZE]
  omega

theorem variable_offsets_iff_two :
    (∃ requests d, (DAlc.init rowBlocks fun _ => BaseMeta.zero).varRun rowBlocks [8, 100] =
        some (requests, d) ∧ DAlc.Translates requests d) ↔ DAlc.lastBlock 0 0 [8, 100] < 64 := by
  have hsizes : ∀ size ∈ ([8, 100] : List (BitVec 32)),
      0 < size.toNat ∧ size.toNat ≤ CHUNK_SIZE - baseMetaSize := by
    intro size hin
    rcases List.mem_cons.mp hin with rfl | hin
    · exact ⟨by decide, Nat.le_of_ble_eq_true rfl⟩
    · obtain rfl := List.mem_singleton.mp hin
      exact ⟨by decide, Nat.le_of_ble_eq_true rfl⟩
  exact variable_offsets_iff rowBlocks rowBlocks_ne_zero rowBlocks_apart (fun _ => BaseMeta.zero) [8, 100]
    hsizes

theorem DAlc.VarReady.whole_blocks (m : Nat) {d : DAlc} {n k fill : Nat}
    (h : VarReady rowBlocks d n k fill) (hfill : 0 < fill) (hm : k + m ≤ 64) :
    ∃ rs d', d.varRun rowBlocks (List.replicate m 0x3ffffc0) = some (rs, d') := by
  induction m generalizing d n k fill with
  | zero => exact ⟨[], d, rfl⟩
  | succ m ih =>
    have hsize : (0x3ffffc0 : BitVec 32).toNat = CHUNK_SIZE - baseMetaSize := by decide
    have hgoes : goesTo k fill 0x3ffffc0 = (k + 1, 0) := by
      rw [goesTo, hsize, if_pos (Nat.lt_add_of_pos_left hfill)]
    have hpos : 0 < (0x3ffffc0 : BitVec 32).toNat := by decide
    obtain ⟨d₁, n₁, hcall, hready, -⟩ := h.varRequest rowBlocks_apart (by omega) hpos hsize.le hgoes
    obtain ⟨rs, d', hrest⟩ := ih hready (Nat.add_pos_right 0 hpos) (by omega)
    rw [List.replicate_succ, DAlc.varRun, hcall]
    simp only [Option.bind_eq_bind, Option.bind_some, hrest, Option.pure_def]
    exact ⟨_, _, rfl⟩

/-- Of 65 requests that take a block each, one translates to a place in another block. -/
theorem last_offset_wrong : ∃ requests d,
    (DAlc.init rowBlocks fun _ => BaseMeta.zero).varRun rowBlocks (List.replicate 65 0x3ffffc0) =
      some (requests, d) ∧ (∃ r ∈ requests, d.addressTrans r.offset true ≠ r.address) ∧
      ¬ DAlc.Translates requests d := by
  have hready := DAlc.init_ready rowBlocks_apart fun _ => BaseMeta.zero
  have hsize : (0x3ffffc0 : BitVec 32).toNat = CHUNK_SIZE - baseMetaSize := by decide
  have hpos : 0 < (0x3ffffc0 : BitVec 32).toNat := by decide
  have hgoes : DAlc.goesTo 0 0 0x3ffffc0 = (0, 0) := by decide
  obtain ⟨d₁, n₁, hcall, hfirst, -⟩ := hready.varRequest rowBlocks_apart (by decide) hpos hsize.le hgoes
  obtain ⟨rs, d, hrest⟩ := hfirst.whole_blocks 64 (Nat.add_pos_right 0 hpos) (Nat.le_refl 64)
  have hrun : ∃ requests, (DAlc.init rowBlocks fun _ => BaseMeta.zero).varRun rowBlocks
      (List.replicate 65 0x3ffffc0) = some (requests, d) := by
    rw [List.replicate_succ, DAlc.varRun, hcall]
    simp only [Option.bind_eq_bind, Option.bind_some, hrest, Option.pure_def]
    exact ⟨_, rfl⟩
  obtain ⟨requests, hrun⟩ := hrun
  have hsizes : ∀ size ∈ List.replicate 65 (0x3ffffc0 : BitVec 32),
      0 < size.toNat ∧ size.toNat ≤ CHUNK_SIZE - baseMetaSize := by
    intro size hin
    rw [List.eq_of_mem_replicate hin]
    exact ⟨hpos, hsize.le⟩
  obtain ⟨hpast, r, hr, hoffset, haddress⟩ :=
    hready.overrun rowBlocks_apart (by decide) hsizes (by decide +kernel) hrun
  have hwrong := hpast.wrong rowBlocks_ne_zero hoffset haddress
  exact ⟨requests, d, hrun, ⟨r, hr, hwrong⟩, fun h => hwrong (h.1 r hr)⟩

end ZBTree
