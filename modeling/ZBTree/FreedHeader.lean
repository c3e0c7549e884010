import ZBTree.LogRecords

/-!
# The header that `n_free` finds

`simply_remove` passes `n_free` a pointer 48 bytes before the record, and `n_free` shifts it to the
number of a 64 MB page and subtracts the number of the page where the first block begins. Blocks are
64 MB long but do not begin where pages do, so that the end of every block lies in the page in which
the next one begins, and the header found for a record there is that of the next block. The test for a
pointer below the first block compares an unsigned difference with zero and is never true.
-/

namespace ZBTree

namespace NAlc

/-- `ptr_offset` of `n_free`. -/
def ptrOffset (a : NAlc) (ptr : Nat) : BitVec 64 :=
  BitVec.ofNat 64 ptr >>> CHUNK_SHIFT - BitVec.ofNat 64 (a.startAddress + 1024) >>> CHUNK_SHIFT

/-- The header that `n_free` goes on with; `none` when it calls an address invalid. -/
def freeHeader (a : NAlc) (ptr : Nat) : Option Nat :=
  if a.ptrOffset ptr < 0 then none else some (a.freeAddress ptr)

theorem freeHeader_eq (a : NAlc) (ptr : Nat) : a.freeHeader ptr = some (a.freeAddress ptr) :=
  if_neg BitVec.not_lt_zero

end NAlc

/-- `(uint32_t*)kv_ptr - 16`, for the record at `node`. -/
def removedPtr (node : Nat) : Nat := node + logKeyOffset - 4 * 16

/-- The distance from the beginning of a page to the first block behind it. -/
def pageSkew (start : Nat) : Nat := (start + 1024) % CHUNK_SIZE

theorem freeAddress_of_page (a : NAlc) {ptr k : Nat}
    (hpage : ptr / 2 ^ CHUNK_SHIFT = (a.startAddress + 1024) / 2 ^ CHUNK_SHIFT + k)
    (hend : blockAt a.startAddress k < 2 ^ 64) : a.freeAddress ptr = blockAt a.startAddress k := by
  have hoffset : (a.startAddress + 1024) / 2 ^ CHUNK_SHIFT + k + 2 ^ 64 -
      (a.startAddress + 1024) / 2 ^ CHUNK_SHIFT = k + 2 ^ 64 := by
    omega
  rw [NAlc.freeAddress, hpage, hoffset, Nat.add_mul, Nat.mul_comm (2 ^ 64), ← Nat.add_assoc,
    Nat.add_mul_mod_self_right]
  exact Nat.mod_eq_of_lt hend

/-- A record at offset `o` of the data of block `n` is taken for one of the next block if it lies in
the page where that one begins. -/
theorem freeAddress_record (a : NAlc) {n o : Nat} (ho : o + logNodeSize ≤ dataSize)
    (hend : blockAt a.startAddress (n + 1) < 2 ^ 64) :
    a.freeAddress (removedPtr (blockAt a.startAddress n + baseMetaSize + o)) =
      if pageSkew a.startAddress + 16 + o < CHUNK_SIZE then blockAt a.startAddress n
      else blockAt a.startAddress (n + 1) := by
  have hsize : CHUNK_SIZE = 2 ^ CHUNK_SHIFT := by decide
  have hdata : dataSize < CHUNK_SIZE := by decide
  have hnode : 16 ≤ logNodeSize := by decide
  have hptr : removedPtr (blockAt a.startAddress n + baseMetaSize + o) =
      a.startAddress + 1024 + (16 + o) + n * 2 ^ CHUNK_SHIFT := by
    rw [← hsize]
    simp only [removedPtr, blockAt, baseMetaSize, logKeyOffset]
    omega
  have hpage : removedPtr (blockAt a.startAddress n + baseMetaSize + o) / 2 ^ CHUNK_SHIFT =
      (a.startAddress + 1024 + (16 + o)) / 2 ^ CHUNK_SHIFT + n := by
    rw [hptr, Nat.add_mul_div_right _ _ (Nat.two_pow_pos _)]
  have hbefore : blockAt a.startAddress n < 2 ^ 64 :=
    (blockAt_lt_iff.mpr (Nat.lt_succ_self n)).trans hend
  unfold pageSkew
  split_ifs with hskew
  · apply freeAddress_of_page a _ hbefore
    have hsame : (a.startAddress + 1024 + (16 + o)) / 2 ^ CHUNK_SHIFT =
        (a.startAddress + 1024) / 2 ^ CHUNK_SHIFT := by
      simp only [CHUNK_SIZE, CHUNK_SHIFT] at hskew ⊢
      omega
    rw [hpage, hsame]
  · apply freeAddress_of_page a _ hend
    have hnext : (a.startAddress + 1024 + (16 + o)) / 2 ^ CHUNK_SHIFT =
        (a.startAddress + 1024) / 2 ^ CHUNK_SHIFT + 1 := by
      simp only [CHUNK_SIZE, CHUNK_SHIFT] at hskew hdata ⊢
      omega
    rw [hpage, hnext]
    omega

/-- For a record in the data of block `n` the header found is that of the block exactly if the record
does not lie in the page where the next block begins, and no pointer below the first block is
rejected. -/
theorem freed_header_iff (a : NAlc) (n o : Nat) (ho : o + logNodeSize ≤ dataSize)
    (hend : blockAt a.startAddress (n + 1) < 2 ^ 64) :
    (a.freeHeader (removedPtr (blockAt a.startAddress n + baseMetaSize + o)) =
        some (blockAt a.startAddress n) ↔ pageSkew a.startAddress + 16 + o < CHUNK_SIZE) ∧
      ∀ ptr, ptr < a.startAddress + 1024 → ¬ a.freeHeader ptr = none := by
  constructor
  · rw [NAlc.freeHeader_eq, freeAddress_record a ho hend, Option.some.injEq]
    split_ifs with hpage
    · exact iff_of_true rfl hpage
    · apply iff_of_false _ hpage
      exact fun heq => absurd (blockAt_injective heq) (Nat.succ_ne_self n)
  · intro ptr _
    rw [NAlc.freeHeader_eq]
    exact Option.some_ne_none _

/-- An allocator of the first pool of a process. -/
def firstPool : NAlc where
  list := fun _ _ => none
  pageId := fun _ => 0
  decisionId := fun _ => 0
  startAddress := 0x50000000
  endAddress := 0x50000000 + 1024

theorem freed_header_iff_first :
    (firstPool.freeHeader (removedPtr (blockAt 0x50000000 4 + baseMetaSize + 0)) =
        some (blockAt 0x50000000 4) ↔ pageSkew 0x50000000 + 16 + 0 < CHUNK_SIZE) ∧
      ∀ ptr, ptr < 0x50000000 + 1024 → ¬ firstPool.freeHeader ptr = none :=
  freed_header_iff firstPool 4 0 (by decide) (by decide)

/-- The first block of the first log is filled up to its last page: the header found for record number
2097121 is that of the next block. -/
theorem freed_header_missed :
    ∃ pieces s, (Worker.start 0x50000000 fun _ => BaseMeta.zero).run
        (List.replicate 2097121 (.append 8)) = some (pieces, s) ∧
      (.log, ⟨0x60000440 + 32 * 2097120, logNodeSize⟩) ∈ pieces ∧
      Region.Within ⟨0x60000440 + 32 * 2097120, logNodeSize⟩ ⟨blockAt 0x50000000 4, CHUNK_SIZE⟩ ∧
      s.alc.freeHeader (removedPtr (0x60000440 + 32 * 2097120)) = some (blockAt 0x50000000 5) ∧
      blockAt 0x50000000 5 ≠ blockAt 0x50000000 4 ∧
      s.alc.freeHeader 0x50000000 ≠ none := by
  have hfirst : ((Worker.start 0x50000000 fun _ => BaseMeta.zero).call (.append 8)).map
      (fun r => (r.2.alc.startAddress, r.2.seg.tempOffset, r.2.seg.logVec, r.2.seg.vecStart)) =
      some (0x50000000, 32, 0x60000440, 0x60000460) := by
    decide +kernel
  rw [Option.map_eq_some_iff] at hfirst
  obtain ⟨⟨piece, s₁⟩, hcall, hvalue⟩ := hfirst
  simp only [Prod.mk.injEq] at hvalue
  obtain ⟨hstart, hoffset, hvec, hnext⟩ := hvalue
  obtain ⟨pieces, hrun, hmem⟩ := s₁.run_appends 8 (by rw [hvec]; decide) 2097120
    (by rw [hoffset]; decide)
  obtain ⟨s, hall, halc⟩ : ∃ s, (Worker.start 0x50000000 fun _ => BaseMeta.zero).run
      (List.replicate 2097121 (.append 8)) = some (pieces ++ [piece], s) ∧ s.alc = s₁.alc := by
    rw [List.replicate_succ, Worker.run, hcall]
    simp only [Option.bind_eq_bind, Option.bind_some, hrun, Option.pure_def]
    exact ⟨_, rfl, rfl⟩
  have hlast := hmem 2097119 (by decide)
  rw [hnext] at hlast
  refine ⟨_, s, hall, List.mem_append_left _ hlast, by decide, ?_, by decide, ?_⟩
  · rw [NAlc.freeHeader_eq, halc, NAlc.freeAddress, hstart]
    rfl
  · rw [NAlc.freeHeader_eq]
    exact Option.some_ne_none _

end ZBTree
