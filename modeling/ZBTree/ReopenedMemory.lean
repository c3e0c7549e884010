import ZBTree.RestartedPools

/-!
# The memory that recovery works on

While the log is replayed the pools only give out `P_Leaf`s, each from the tree block that its
allocator has found. As long as these blocks have room, the memory keeps the contract that the tree
asks for, with the records of the last process where they were.
-/

namespace ZBTree

open Pmem Rebuilt

namespace Nvm

variable {p p' : Nvm} {t t' : Tid} {a a' : NAlc} {header header' n : Nat}

/-! ### The block in use -/

/-- The tree block in use of thread `t`, in the pool of the thread. -/
structure Block (p : Nvm) (t : Tid) (a : NAlc) (header : Nat) : Prop where
  manager : p.managers t = some a
  listed : a.list .node (a.decisionId .node) = some header
  data : (p.mem header).startAddress = header + baseMetaSize
  base_le : (p.poolAt t).base ≤ header
  le_limit : header + CHUNK_SIZE ≤ (p.poolAt t).limit

def front (p : Nvm) (header : Nat) : Nat := header + baseMetaSize + (p.mem header).bitmap.toNat

/-- `p'` is `p` with `sz` bytes more given out of a block. -/
structure Taken (p p' : Nvm) (header : Nat) (sz : BitVec 32) : Prop where
  poolLen : p'.poolLen = p.poolLen
  globalId : p'.globalId = p.globalId
  managers : p'.managers = p.managers
  bytes : p'.bytes = p.bytes
  pleaves : p'.pleaves = p.pleaves
  mem : p'.mem = Function.update p.mem header { p.mem header with bitmap := (p.mem header).bitmap + sz }

/-- What is known about blocks does not depend on the rest of the memory. -/
structure SameBlocks (p p' : Nvm) : Prop where
  poolLen : p'.poolLen = p.poolLen
  globalId : p'.globalId = p.globalId
  managers : p'.managers = p.managers
  mem : p'.mem = p.mem

theorem SameBlocks.block (h : p.SameBlocks p') : p'.Block t a header ↔ p.Block t a header := by
  have hpool : p'.poolAt t = p.poolAt t := by rw [poolAt, poolAt, h.poolLen]
  constructor
  · rintro ⟨hmanager, hlisted, hstart, hlow, hhigh⟩
    exact ⟨h.managers ▸ hmanager, hlisted, h.mem ▸ hstart, hpool ▸ hlow, hpool ▸ hhigh⟩
  · rintro ⟨hmanager, hlisted, hstart, hlow, hhigh⟩
    exact ⟨h.managers.symm ▸ hmanager, hlisted, h.mem.symm ▸ hstart, hpool.symm ▸ hlow, hpool.symm ▸ hhigh⟩

theorem SameBlocks.front (h : p.SameBlocks p') : p'.front header = p.front header := by
  rw [Nvm.front, Nvm.front, h.mem]

theorem poolAt_apart (hlt : t < t') : (p.poolAt t).limit ≤ (p.poolAt t').base := PoolProcess.pools_apart hlt

theorem Block.unique (h : p.Block t a header) (h' : p.Block t a' header') : header = header' := by
  obtain rfl := Option.some.inj (h.manager.symm.trans h'.manager)
  exact Option.some.inj (h.listed.symm.trans h'.listed)

theorem Block.apart (h : p.Block t a header) (h' : p.Block t' a' header') (ht : t ≠ t') :
    header + CHUNK_SIZE ≤ header' ∨ header' + CHUNK_SIZE ≤ header := by
  have hlow := h.base_le
  have hlow' := h'.base_le
  have hhigh := h.le_limit
  have hhigh' := h'.le_limit
  rcases Nat.lt_or_gt_of_ne ht with hlt | hlt
  · have happart := poolAt_apart (p := p) hlt
    exact Or.inl ((hhigh.trans happart).trans hlow')
  · have happart := poolAt_apart (p := p) hlt
    exact Or.inr ((hhigh'.trans happart).trans hlow)

theorem Taken.block {sz : BitVec 32} (h : p.Taken p' header sz) : p'.Block t a' header' ↔ p.Block t a' header' := by
  have hdata : (p'.mem header').startAddress = (p.mem header').startAddress := by
    rw [h.mem]
    by_cases heq : header' = header
    · rw [heq, Function.update_self]
    · rw [Function.update_of_ne heq]
  have hpool : p'.poolAt t = p.poolAt t := by rw [poolAt, poolAt, h.poolLen]
  constructor
  · rintro ⟨hmanager, hlisted, hstart, hlow, hhigh⟩
    exact ⟨h.managers ▸ hmanager, hlisted, hdata ▸ hstart, hpool ▸ hlow, hpool ▸ hhigh⟩
  · rintro ⟨hmanager, hlisted, hstart, hlow, hhigh⟩
    exact ⟨h.managers.symm ▸ hmanager, hlisted, hdata.symm ▸ hstart, hpool.symm ▸ hlow, hpool.symm ▸ hhigh⟩

theorem Taken.front_of_ne {sz : BitVec 32} (h : p.Taken p' header sz) (hne : header' ≠ header) :
    p'.front header' = p.front header' := by
  rw [front, front, h.mem, Function.update_of_ne hne]

theorem room_add (hroom : (p.mem header).bitmap.toNat + pleafSize ≤ dataSize) :
    ((p.mem header).bitmap + pLeafSize).toNat = (p.mem header).bitmap.toNat + pleafSize := by
  have hsize : dataSize < 2 ^ 32 := by decide
  have hleaf : pLeafSize.toNat = pleafSize := rfl
  rw [BitVec.toNat_add, hleaf, Nat.mod_eq_of_lt (hroom.trans_lt hsize)]

theorem Taken.bitmap (h : p.Taken p' header pLeafSize) (hroom : (p.mem header).bitmap.toNat + pleafSize ≤ dataSize) :
    (p'.mem header).bitmap.toNat = (p.mem header).bitmap.toNat + pleafSize := by
  rw [h.mem, Function.update_self]
  exact room_add hroom

theorem Block.nAllocate (h : p.Block t a header) (hroom : (p.mem header).bitmap.toNat + pleafSize ≤ dataSize) :
    ∃ p', Pmem.nAllocate p t = some (p.front header, p') ∧ p.Taken p' header pLeafSize := by
  have hfits : ¬ NAlc.lacksRoom (p.mem header) pLeafSize := by
    unfold NAlc.lacksRoom
    rw [room_add hroom]
    exact Nat.not_lt.mpr hroom
  have hserve := NAlc.nAllocateTree_of_room h.listed hfits
  rw [h.data] at hserve
  refine ⟨_, (nAllocate_eq_some (manager_of_some h.manager)).mpr ⟨_, _, hserve, rfl⟩, rfl, rfl, ?_, rfl, rfl, rfl⟩
  change Function.update p.managers t (some a) = p.managers
  rw [← h.manager, Function.update_eq_self]

end Nvm

/-! ### The memory -/

/-- The pools after a restart, with the addresses of the records in them and those of the leaves that
have been given out since. -/
structure ReopenedPools (threads : Nat) where
  nvm : Nvm
  logged : Set Addr
  given : Set Addr

namespace ReopenedPools

variable {threads : Nat}

def setNvm (p : ReopenedPools threads) (nvm : Nvm) : ReopenedPools threads := { p with nvm := nvm }

def leafed (p : ReopenedPools threads) (r : Addr × Nvm) : ReopenedPools threads :=
  { p with nvm := r.2, given := Insert.insert r.1 p.given }

def recorded (p : ReopenedPools threads) (key : Key) (val : Word) (r : Addr × Nvm) : ReopenedPools threads where
  nvm := { r.2 with bytes := (r.2.bytes.put64 r.1 key).put64 (r.1 + 8) val }
  logged := Insert.insert r.1 p.logged
  given := p.given

/-- Recovery appends nothing. Here a record takes a piece of the tree block, so that `append_one` keeps
the contract; `map` leaves it out. -/
instance : Pmem (ReopenedPools threads) where
  appendOne p t key val _ _ _ := (nAllocate p.nvm (t % threads)).map fun r => (r.1, p.recorded key val r)
  logKey p := logKey p.nvm
  logVal p := logVal p.nvm
  setLogVal p addr v := (setLogVal p.nvm addr v).map p.setNvm
  freeRecord p t addr := (freeRecord p.nvm t addr).map p.setNvm
  nAllocate p t := (nAllocate p.nvm (t % threads)).map fun r => (r.1, p.leafed r)
  pleaf p := pleaf p.nvm
  setPleaf p q l := (setPleaf p.nvm q l).map p.setNvm

theorem map (threads : Nat) :
    PmemMap (· < threads) (fun _ => False) (nvm : ReopenedPools threads → Nvm) where
  key _ _ := rfl
  val _ _ := rfl
  leaf _ _ := rfl
  append _ hversion _ := hversion.elim
  alloc {p p' t q} ht h := by
    obtain ⟨r, hr, heq⟩ := Option.map_eq_some_iff.mp h
    rw [Nat.mod_eq_of_lt ht] at hr
    cases heq
    exact hr
  setLeaf {p p' q l} h := by
    obtain ⟨r, hr, rfl⟩ := Option.map_eq_some_iff.mp h
    exact hr

/-- The bytes at `x` and behind it, `n` of them, lie in the pools, and have been given out. -/
structure Outside (p : Nvm) (threads x n : Nat) : Prop where
  mapped : p.Mapped x n
  front : ∀ t a header, t < threads → p.Block t a header → x + n ≤ p.front header ∨ header + CHUNK_SIZE ≤ x

/-- Every thread has a tree block with bytes for `n` more leaves. -/
structure Room (n : Nat) (p : ReopenedPools threads) : Prop where
  threads_pos : 0 < threads
  globalId : p.nvm.globalId = threads
  mapped : mmapStart + p.nvm.poolLen * threads ≤ 2 ^ 48
  block : ∀ t, t < threads → ∃ a header, p.nvm.Block t a header ∧
    (p.nvm.mem header).bitmap.toNat + pleafSize * n ≤ dataSize
  record : ∀ addr ∈ p.logged, Outside p.nvm threads addr 16
  apart : ∀ addr ∈ p.logged, ∀ addr' ∈ p.logged, addr ≠ addr' → addr + 16 ≤ addr' ∨ addr' + 16 ≤ addr
  leaf : ∀ q ∈ p.given, Outside p.nvm threads q pleafSize

variable {m n : Nat} {p : ReopenedPools threads} {t : Tid} {x sz : Nat}

theorem Room.mono (h : p.Room n) (hmn : m ≤ n) : p.Room m where
  __ := h
  block t ht := by
    obtain ⟨a, header, hblock, hroom⟩ := h.block t ht
    have hmul := Nat.mul_le_mul_left pleafSize hmn
    exact ⟨a, header, hblock, by omega⟩

theorem Outside.taken {nvm nvm' : Nvm} {header : Nat} (h : Outside nvm threads x sz)
    (htaken : nvm.Taken nvm' header pLeafSize) (hroom : (nvm.mem header).bitmap.toNat + pleafSize ≤ dataSize) :
    Outside nvm' threads x sz := by
  obtain ⟨hmapped, hfront⟩ := h
  refine ⟨?_, fun t' a' header' ht' hblock' => ?_⟩
  · unfold Nvm.Mapped
    rw [htaken.poolLen, htaken.globalId]
    exact hmapped
  · rcases hfront t' a' header' ht' (htaken.block.mp hblock') with hlow | hhigh
    · left
      by_cases heq : header' = header
      · subst heq
        have hbitmap := htaken.bitmap hroom
        unfold Nvm.front at hlow ⊢
        omega
      · rw [htaken.front_of_ne heq]
        exact hlow
    · exact Or.inr hhigh

theorem Outside.same {nvm nvm' : Nvm} (h : Outside nvm threads x sz) (hsame : nvm.SameBlocks nvm') :
    Outside nvm' threads x sz := by
  obtain ⟨hmapped, hfront⟩ := h
  refine ⟨?_, fun t a header ht hblock => ?_⟩
  · unfold Nvm.Mapped
    rw [hsame.poolLen, hsame.globalId]
    exact hmapped
  · rw [hsame.front]
    exact hfront t a header ht (hsame.block.mp hblock)

theorem Outside.mono {nvm : Nvm} {sz' : Nat} (h : Outside nvm threads x sz') (hle : sz ≤ sz') :
    Outside nvm threads x sz := by
  obtain ⟨⟨hlow, hhigh⟩, hfront⟩ := h
  refine ⟨⟨hlow, by omega⟩, fun t a header ht hblock => ?_⟩
  have hbefore := hfront t a header ht hblock
  omega

theorem Room.same (h : p.Room n) {nvm : Nvm} (hsame : p.nvm.SameBlocks nvm) : (p.setNvm nvm).Room n where
  threads_pos := h.threads_pos
  globalId := hsame.globalId.trans h.globalId
  mapped := by
    change mmapStart + nvm.poolLen * threads ≤ 2 ^ 48
    rw [hsame.poolLen]
    exact h.mapped
  block t ht := by
    obtain ⟨a, header, hblock, hroom⟩ := h.block t ht
    refine ⟨a, header, hsame.block.mpr hblock, ?_⟩
    change (nvm.mem header).bitmap.toNat + _ ≤ _
    rw [hsame.mem]
    exact hroom
  record addr haddr := (h.record addr haddr).same hsame
  apart := h.apart
  leaf q hq := (h.leaf q hq).same hsame

/-- A leaf that has been taken from a block does not lie where leaves are still to be taken. -/
theorem Outside.new (h : p.Room n) (ht : t < threads) {a : NAlc} {header : Nat} (hblock : p.nvm.Block t a header)
    {nvm : Nvm} (htaken : p.nvm.Taken nvm header pLeafSize)
    (hroom : (p.nvm.mem header).bitmap.toNat + pleafSize ≤ dataSize) :
    Outside nvm threads (p.nvm.front header) pleafSize := by
  have hbytes : baseMetaSize + dataSize = CHUNK_SIZE := by decide
  have hlow := hblock.base_le
  have hhigh := hblock.le_limit
  have hbitmap := htaken.bitmap hroom
  refine ⟨⟨?_, ?_⟩, fun t' a' header' ht' hblock' => ?_⟩
  · have hpool : mmapStart ≤ (p.nvm.poolAt t).base := Nat.le_add_right _ _
    unfold Nvm.front
    omega
  · have hpool : (p.nvm.poolAt t).limit ≤ mmapStart + p.nvm.poolLen * threads := PoolProcess.pools_apart ht
    rw [htaken.poolLen, htaken.globalId, h.globalId]
    unfold Nvm.front
    omega
  · have hother := htaken.block.mp hblock'
    by_cases heq : t' = t
    · subst heq
      obtain rfl := hblock.unique hother
      left
      unfold Nvm.front
      omega
    · unfold Nvm.front
      rcases hother.apart hblock heq with happart | happart
      · right
        omega
      · left
        omega

theorem Room.taken (h : p.Room (n + 1)) {header : Nat} {nvm : Nvm} (htaken : p.nvm.Taken nvm header pLeafSize)
    (hroom : (p.nvm.mem header).bitmap.toNat + pleafSize ≤ dataSize) : (p.setNvm nvm).Room n where
  threads_pos := h.threads_pos
  globalId := htaken.globalId.trans h.globalId
  mapped := by
    change mmapStart + nvm.poolLen * threads ≤ 2 ^ 48
    rw [htaken.poolLen]
    exact h.mapped
  block t ht := by
    obtain ⟨a', header', hblock', hroom'⟩ := h.block t ht
    have hleaf : pleafSize * (n + 1) = pleafSize * n + pleafSize := Nat.mul_succ _ _
    have hbitmap := htaken.bitmap hroom
    refine ⟨a', header', htaken.block.mpr hblock', ?_⟩
    change (nvm.mem header').bitmap.toNat + _ ≤ _
    by_cases heq : header' = header
    · subst heq
      omega
    · rw [htaken.mem, Function.update_of_ne heq]
      omega
  record addr haddr := (h.record addr haddr).taken htaken hroom
  apart := h.apart
  leaf q hq := (h.leaf q hq).taken htaken hroom

theorem Room.take (h : p.Room (n + 1)) (t : Tid) : ∃ (q : Nat) (nvm : Nvm), nAllocate p.nvm (t % threads) = some (q, nvm) ∧
    (p.setNvm nvm).Room n ∧ nvm.bytes = p.nvm.bytes ∧ nvm.pleaves = p.nvm.pleaves ∧
    Outside nvm threads q pleafSize ∧
    ∀ x sz, 0 < sz → Outside p.nvm threads x sz → x + sz ≤ q ∨ q + pleafSize ≤ x := by
  have ht : t % threads < threads := Nat.mod_lt _ h.threads_pos
  obtain ⟨a, header, hblock, hroom⟩ := h.block _ ht
  have hone : (p.nvm.mem header).bitmap.toNat + pleafSize ≤ dataSize := by
    have hleaf : pleafSize * (n + 1) = pleafSize * n + pleafSize := Nat.mul_succ _ _
    omega
  obtain ⟨nvm, hserve, htaken⟩ := hblock.nAllocate hone
  refine ⟨_, nvm, hserve, h.taken htaken hone, htaken.bytes, htaken.pleaves, Outside.new h ht hblock htaken hone,
    fun x sz hsz houtside => ?_⟩
  rcases houtside.front _ a header ht hblock with hlow | hhigh
  · exact Or.inl hlow
  · right
    have hbytes : baseMetaSize + dataSize = CHUNK_SIZE := by decide
    unfold Nvm.front
    omega

/-! ### The contract

Recovery appends no record, and all that it asks of the pools is one `P_Leaf` for each split. The room for them is
counted in the tree block that each allocator goes on with. -/

theorem Room.record_read (h : p.Room n) {addr : Nat} (haddr : addr ∈ p.logged) :
    logKey p addr = some (p.nvm.bytes.get64 addr) ∧ logVal p addr = some (p.nvm.bytes.get64 (addr + 8)) ∧
      addr < 2 ^ 48 := by
  obtain ⟨⟨hlow, hhigh⟩, -⟩ := h.record addr haddr
  have hmapped := h.mapped
  have hid := h.globalId
  rw [hid] at hhigh
  refine ⟨if_pos ⟨hlow, ?_⟩, if_pos ⟨hlow.trans (Nat.le_add_right _ _), ?_⟩, by omega⟩
  · rw [hid]
    omega
  · rw [hid]
    omega

theorem Room.leaf_read (h : p.Room n) {q : Addr} (hq : q ∈ p.given) :
    q ≠ 0 ∧ pleaf p q = some (p.nvm.pleaves q) := by
  obtain ⟨hmapped, -⟩ := h.leaf q hq
  have hpos : 0 < mmapStart := by decide
  exact ⟨Nat.ne_of_gt (hpos.trans_le hmapped.1), if_pos hmapped⟩

theorem sameRecs {p' : ReopenedPools threads} (h : p.Room m) (h' : p'.Room n) {A : Set Addr}
    (hA : ∀ addr ∈ A, addr ∈ p.logged ∧ addr ∈ p'.logged ∧ p'.nvm.bytes.get64 addr = p.nvm.bytes.get64 addr ∧
      p'.nvm.bytes.get64 (addr + 8) = p.nvm.bytes.get64 (addr + 8)) : SameRecs A p p' := by
  intro addr haddr
  obtain ⟨hmem, hmem', hkey, hval⟩ := hA addr haddr
  obtain ⟨hread, hread', -⟩ := h.record_read hmem
  obtain ⟨hnew, hnew', -⟩ := h'.record_read hmem'
  exact ⟨hnew.trans ((congrArg some hkey).trans hread.symm), hnew'.trans ((congrArg some hval).trans hread'.symm)⟩

theorem sameLeaves {p' : ReopenedPools threads} (h : p.Room m) (h' : p'.Room n) {A : Set Addr}
    (hA : ∀ q ∈ A, q ∈ p.given ∧ q ∈ p'.given ∧ p'.nvm.pleaves q = p.nvm.pleaves q) : SameLeaves A p p' := by
  intro q hq
  obtain ⟨hmem, hmem', hsame⟩ := hA q hq
  exact (h'.leaf_read hmem').2.trans ((congrArg some hsame).trans (h.leaf_read hmem).2.symm)

theorem Room.append (h : p.Room (n + 1)) (t : Tid) (key : Key) (val : Word) (pp : Addr) (op : BitVec 8)
    (version : BitVec 32) : ∃ (a : Nat) (p' : ReopenedPools threads),
      appendOne p t key val pp op version = some (a, p') ∧ p'.Room n ∧ p'.logged = Insert.insert a p.logged ∧
      p'.given = p.given ∧ p'.nvm.pleaves = p.nvm.pleaves ∧
      p'.nvm.bytes = (p.nvm.bytes.put64 a key).put64 (a + 8) val ∧
      ∀ addr ∈ p.logged, addr + 16 ≤ a ∨ a + 16 ≤ addr := by
  obtain ⟨q, nvm, hserve, hroom, hbytes, hpleaves, hnew, hapart⟩ := h.take t
  have hsize : pleafSize = 32 := rfl
  have hbeside : ∀ addr : Nat, addr ∈ p.logged → addr + 16 ≤ q ∨ q + 16 ≤ addr := by
    intro addr haddr
    rcases hapart addr 16 (by decide) (h.record addr haddr) with hlow | hhigh
    · exact Or.inl hlow
    · right
      omega
  have hwritten : nvm.SameBlocks (p.recorded key val (q, nvm)).nvm := ⟨rfl, rfl, rfl, rfl⟩
  have hroom' := hroom.same hwritten
  refine ⟨q, p.recorded key val (q, nvm), Option.map_eq_some_iff.mpr ⟨(q, nvm), hserve, rfl⟩,
    ⟨hroom'.threads_pos, hroom'.globalId, hroom'.mapped, hroom'.block, ?_, ?_, hroom'.leaf⟩, rfl, rfl, hpleaves, ?_,
    hbeside⟩
  · rintro addr (rfl | hold)
    · exact (hnew.mono (by decide)).same hwritten
    · exact hroom'.record addr hold
  · rintro addr (rfl | hold) addr' (rfl | hold') hne
    · exact absurd rfl hne
    · exact (hbeside addr' hold').symm
    · exact hbeside addr hold
    · exact h.apart addr hold addr' hold' hne
  · change (nvm.bytes.put64 q key).put64 (q + 8) val = _
    rw [hbytes]

theorem Room.leafMore (h : p.Room (n + 1)) (t : Tid) : ∃ (q : Nat) (p' : ReopenedPools threads),
    nAllocate p t = some (q, p') ∧ p'.Room n ∧ q ∉ p.given ∧ p'.given = Insert.insert q p.given ∧
      p'.logged = p.logged ∧ p'.nvm.pleaves = p.nvm.pleaves ∧ p'.nvm.bytes = p.nvm.bytes := by
  obtain ⟨q, nvm, hserve, hroom, hbytes, hpleaves, hnew, hapart⟩ := h.take t
  refine ⟨q, p.leafed (q, nvm), Option.map_eq_some_iff.mpr ⟨(q, nvm), hserve, rfl⟩,
    ⟨hroom.threads_pos, hroom.globalId, hroom.mapped, hroom.block, hroom.record, hroom.apart, ?_⟩, ?_, rfl, rfl,
    hpleaves, hbytes⟩
  · rintro q' (rfl | hold)
    · exact hnew
    · exact hroom.leaf q' hold
  · intro hold
    have hsize : 0 < pleafSize := by decide
    have hbeside := hapart q pleafSize hsize (h.leaf q hold)
    omega

theorem Room.setVal (h : p.Room n) {addr : Nat} (haddr : addr ∈ p.logged) (v : Word) :
    ∃ p' : ReopenedPools threads, setLogVal p addr v = some p' ∧ p'.Room n ∧ p'.logged = p.logged ∧
      p'.given = p.given ∧ p'.nvm.pleaves = p.nvm.pleaves ∧ p'.nvm.bytes = p.nvm.bytes.put64 (addr + 8) v := by
  obtain ⟨⟨hlow, hhigh⟩, -⟩ := h.record addr haddr
  have hmapped : p.nvm.Mapped (addr + 8) 8 := ⟨hlow.trans (Nat.le_add_right _ _), by omega⟩
  have hstore : setLogVal p.nvm addr v = some { p.nvm with bytes := p.nvm.bytes.put64 (addr + 8) v } := if_pos hmapped
  exact ⟨p.setNvm _, Option.map_eq_some_iff.mpr ⟨_, hstore, rfl⟩, h.same ⟨rfl, rfl, rfl, rfl⟩, rfl, rfl, rfl, rfl⟩

theorem Room.setLeaf (h : p.Room n) {q : Addr} (hq : q ∈ p.given) (l : PLeaf) :
    ∃ p' : ReopenedPools threads, setPleaf p q l = some p' ∧ p'.Room n ∧ p'.logged = p.logged ∧ p'.given = p.given ∧
      p'.nvm.pleaves = Function.update p.nvm.pleaves q l ∧ p'.nvm.bytes = p.nvm.bytes := by
  have hstore : setPleaf p.nvm q l = some { p.nvm with pleaves := Function.update p.nvm.pleaves q l } :=
    if_pos (h.leaf q hq).mapped
  exact ⟨p.setNvm _, Option.map_eq_some_iff.mpr ⟨_, hstore, rfl⟩, h.same ⟨rfl, rfl, rfl, rfl⟩, rfl, rfl, rfl, rfl⟩

theorem put_beside (o : Bytes) (v : Word) {a addr : Nat} (h : addr + 16 ≤ a ∨ a + 16 ≤ addr) :
    (o.put64 (a + 8) v).get64 addr = o.get64 addr ∧ (o.put64 (a + 8) v).get64 (addr + 8) = o.get64 (addr + 8) :=
  ⟨Bytes.get64_put64_of_ne _ _ _ _ (by omega), Bytes.get64_put64_of_ne _ _ _ _ (by omega)⟩

theorem putBoth_beside (o : Bytes) (k : Key) (v : Word) {a addr : Nat} (h : addr + 16 ≤ a ∨ a + 16 ≤ addr) :
    ((o.put64 a k).put64 (a + 8) v).get64 addr = o.get64 addr ∧
      ((o.put64 a k).put64 (a + 8) v).get64 (addr + 8) = o.get64 (addr + 8) := by
  obtain ⟨hkey, hval⟩ := put_beside (o.put64 a k) v h
  exact ⟨hkey.trans (Bytes.get64_put64_of_ne _ _ _ _ (by omega)),
    hval.trans (Bytes.get64_put64_of_ne _ _ _ _ (by omega))⟩

theorem putBoth_key (o : Bytes) (k : Key) (v : Word) (a : Nat) : ((o.put64 a k).put64 (a + 8) v).get64 a = k := by
  rw [Bytes.get64_put64_of_ne _ _ _ _ (by omega), Bytes.get64_put64_self]

/-- The pools keep the contract while the log is replayed. -/
instance : LawfulPmem (ReopenedPools threads) where
  Ok := Room
  recs := logged
  leaves := given
  ok_mono hmn h := h.mono hmn
  rec_lt h haddr := (h.record_read haddr).2.2
  rec_read h haddr := ⟨_, _, (h.record_read haddr).1, (h.record_read haddr).2.1⟩
  leaf_read h hq := ⟨(h.leaf_read hq).1, _, (h.leaf_read hq).2⟩
  append_spec {n p} t key val pp op version h := by
    obtain ⟨a, p', hrun, hroom, hlogged, hgiven, hpleaves, hbytes, hbeside⟩ := h.append t key val pp op version
    have hmem : a ∈ p'.logged := hlogged ▸ Set.mem_insert _ _
    obtain ⟨hkey, hval, -⟩ := hroom.record_read hmem
    have hnew : a ∉ p.logged := fun hold => by
      have hself : a + 16 ≤ a ∨ a + 16 ≤ a := hbeside a hold
      omega
    refine ⟨a, p', hrun, hroom, hnew, hlogged, hgiven, hkey.trans (congrArg some ?_), hval.trans (congrArg some ?_),
      ?_, ?_⟩
    · rw [hbytes]
      exact putBoth_key _ _ _ _
    · rw [hbytes]
      exact Bytes.get64_put64_self _ _ _
    · refine sameRecs h hroom fun addr haddr => ⟨haddr, hlogged ▸ Set.mem_insert_of_mem _ haddr, ?_⟩
      rw [hbytes]
      exact putBoth_beside _ _ _ (hbeside addr haddr)
    · exact sameLeaves h hroom fun q hq => ⟨hq, hgiven ▸ hq, congrFun hpleaves q⟩
  setVal_spec {n p addr} v h haddr := by
    obtain ⟨p', hrun, hroom, hlogged, hgiven, hpleaves, hbytes⟩ := h.setVal haddr v
    have hmem : addr ∈ p'.logged := hlogged ▸ haddr
    obtain ⟨hkey, hval, -⟩ := hroom.record_read hmem
    refine ⟨p', hrun, hroom, hlogged, hgiven, ?_, hval.trans (congrArg some ?_), ?_, ?_⟩
    · refine hkey.trans (Eq.trans (congrArg some ?_) (h.record_read haddr).1.symm)
      rw [hbytes]
      exact Bytes.get64_put64_of_ne _ _ _ _ (Or.inr (Nat.le_refl _))
    · rw [hbytes]
      exact Bytes.get64_put64_self _ _ _
    · refine sameRecs h hroom fun addr' haddr' => ⟨haddr'.1, hlogged ▸ haddr'.1, ?_⟩
      rw [hbytes]
      exact put_beside _ _ (h.apart addr' haddr'.1 addr haddr fun heq => haddr'.2 heq)
    · exact sameLeaves h hroom fun q hq => ⟨hq, hgiven ▸ hq, congrFun hpleaves q⟩
  alloc_spec {n p} t h := by
    obtain ⟨q, p', hrun, hroom, hnew, hgiven, hlogged, hpleaves, hbytes⟩ := h.leafMore t
    refine ⟨q, p', hrun, hroom, hnew, hgiven, hlogged, ?_, ?_⟩
    · exact sameRecs h hroom fun addr haddr => ⟨haddr, hlogged ▸ haddr, by rw [hbytes], by rw [hbytes]⟩
    · exact sameLeaves h hroom fun q' hq' => ⟨hq', hgiven ▸ Set.mem_insert_of_mem _ hq', congrFun hpleaves q'⟩
  setLeaf_spec {n p q} l h hq := by
    obtain ⟨p', hrun, hroom, hlogged, hgiven, hpleaves, hbytes⟩ := h.setLeaf hq l
    refine ⟨p', hrun, hroom, hlogged, hgiven, ?_, ?_, ?_⟩
    · rw [(hroom.leaf_read (hgiven ▸ hq)).2, hpleaves, Function.update_self]
    · exact sameRecs h hroom fun addr haddr => ⟨haddr, hlogged ▸ haddr, by rw [hbytes], by rw [hbytes]⟩
    · exact sameLeaves h hroom fun q' hq' => ⟨hq'.1, hgiven ▸ hq'.1, by rw [hpleaves, Function.update_of_ne hq'.2]⟩

end ReopenedPools

end ZBTree
