import ZBTree.LogRecords
import Mathlib.Data.List.Perm.Lattice

/-!
# Reading the log back

The scan of `DSeg::replay`, which is also that of `recover`: it goes through a log block in
steps of `sizeof(Log_Node)` and stops at the first `version_number` that is zero. A record
whose version is zero therefore hides itself and the records behind it in its segment.
-/

namespace ZBTree

/-- The loop over the records of a block: the addresses that `kv_log` takes. -/
def scanBlock (o : Bytes) : Nat → Nat → List Nat
  | 0, _ => []
  | n + 1, node =>
    if o.get32 (node + 4) = 0 then [] else node :: scanBlock o n (node + logNodeSize)

/-- What this loop reads: version and key. -/
def scanReads (o : Bytes) : Nat → Nat → List Region
  | 0, _ => []
  | n + 1, node =>
    ⟨node + 4, 4⟩ ::
      if o.get32 (node + 4) = 0 then []
      else ⟨node + logKeyOffset, 8⟩ :: scanReads o n (node + logNodeSize)

/-- The loop over the log blocks, in the order in which `nlog_list` has them. -/
def scanLog (m : Headers) (o : Bytes) (blocks : List Nat) : List Nat :=
  blocks.flatMap fun header =>
    if (m header).bitmap = 0 then [] else scanBlock o DSeg.logEnd (m header).startAddress

/-- What `replay` pushes for a record: the fields of the `finger_array` that it sets, and the
key. -/
structure Finger where
  hashByte : BitVec 8
  ptrField : BitVec 48
  key : Key
deriving DecidableEq, Repr

def Finger.of (key : Key) (node : Nat) : Finger :=
  ⟨hashfunc key, BitVec.ofNat 48 (node + logKeyOffset), key⟩

/-- `DSeg::replay` (`zbtree.cpp`). -/
def DSeg.replay (m : Headers) (o : Bytes) (blocks : List Nat) : List Finger :=
  (scanLog m o blocks).map fun node => Finger.of (o.get64 (node + logKeyOffset)) node

/-- The arguments that the lambda of `recover` calls `quick_insert` with. -/
def recoverLog (m : Headers) (o : Bytes) (blocks : List Nat) : List (Key × Nat) :=
  (scanLog m o blocks).map fun node => (o.get64 (node + logKeyOffset), node + logKeyOffset)

/-- `blocks` are the log blocks that a directory lists, perhaps without some that are not
in use. -/
structure NAlc.Lists (a : NAlc) (m : Headers) (blocks : List Nat) : Prop where
  nodup : blocks.Nodup
  listed : ∀ header ∈ blocks, ∃ id, a.list .log id = some header
  all : ∀ id header, a.list .log id = some header → (m header).bitmap ≠ 0 → header ∈ blocks

/-! ### One block -/

section Block

variable {o : Bytes} {base limit n : Nat} {l : List LogEntry} {b : LogBuild} {e : LogEntry}

theorem stored_version (h : b.codec.Stored o base limit (e :: l)) (hlimit : logNodeSize ≤ limit) :
    o.get32 (base + 4) = e.version := by
  have hsize : logNodeSize = 32 := rfl
  have hwidth : b.codec.width e = logNodeSize + b.payload e := rfl
  rw [← b.byte_version e]
  apply Bytes.get32_of_bytes
  intro d hd
  rw [Nat.add_assoc, h _ (by omega), Codec.image_head (by omega)]

theorem stored_key (h : b.codec.Stored o base limit (e :: l)) (hlimit : logNodeSize ≤ limit) :
    o.get64 (base + logKeyOffset) = e.key := by
  have hsize : logNodeSize = 32 := rfl
  have hkey : logKeyOffset = 16 := rfl
  have hwidth : b.codec.width e = logNodeSize + b.payload e := rfl
  rw [← b.byte_key e]
  apply Bytes.get64_of_bytes
  intro d hd
  rw [Nat.add_assoc, h _ (by omega), Codec.image_head (by omega)]

theorem stored_val (h : b.codec.Stored o base limit (e :: l)) (hlimit : logNodeSize ≤ limit) :
    o.get64 (base + logKeyOffset + 8) = e.val := by
  have hsize : logNodeSize = 32 := rfl
  have hkey : logKeyOffset = 16 := rfl
  have hwidth : b.codec.width e = logNodeSize + b.payload e := rfl
  rw [← b.byte_val e]
  apply Bytes.get64_of_bytes
  intro d hd
  rw [Nat.add_assoc base, Nat.add_assoc base, h _ (by omega), Codec.image_head (by omega)]

theorem stored_end (h : b.codec.Stored o base limit []) (hlimit : 8 ≤ limit) :
    o.get32 (base + 4) = 0 := by
  rw [Bytes.get32_eq_zero]
  intro d hd
  rw [Nat.add_assoc]
  exact h _ (by omega)

/-- The records before the first one whose version is zero. -/
def readable (l : List (LogEntry × Nat)) : List (LogEntry × Nat) :=
  l.takeWhile fun p => p.1.version ≠ 0

/-- In the default build the scan visits the records before the first zero version. -/
theorem scanBlock_stored (h : LogBuild.plain.codec.Stored o base limit l)
    (hroom : LogBuild.plain.codec.extent l + 8 ≤ limit) (hfuel : l.length < n) :
    scanBlock o n base = (readable (LogBuild.plain.codec.placed base l)).map Prod.snd := by
  induction l generalizing n base limit with
  | nil =>
    obtain ⟨n, rfl⟩ : ∃ k, n = k + 1 := ⟨n - 1, by simp at hfuel; omega⟩
    rw [scanBlock, if_pos (stored_end h (by simpa using hroom))]
    rfl
  | cons e rest ih =>
    have hwidth : LogBuild.plain.codec.width e = logNodeSize := rfl
    obtain ⟨n, rfl⟩ : ∃ k, n = k + 1 := ⟨n - 1, by simp at hfuel; omega⟩
    rw [Codec.extent_cons, hwidth] at hroom
    rw [scanBlock, stored_version h (by omega), Codec.placed, readable]
    by_cases hz : e.version = 0
    · rw [if_pos hz, List.takeWhile_cons_of_neg (by simpa using hz)]
      rfl
    · rw [if_neg hz, List.takeWhile_cons_of_pos (by simpa using hz), List.map_cons, hwidth]
      congr 1
      apply ih h.tail
      · rw [hwidth]
        omega
      · exact Nat.lt_of_succ_lt_succ hfuel

/-- The scan of a block stays in its data. -/
theorem scanReads_stored (h : LogBuild.plain.codec.Stored o base limit l)
    (hroom : LogBuild.plain.codec.extent l + 8 ≤ limit) (hfuel : l.length < n) :
    ∀ r ∈ scanReads o n base, r.Within ⟨base, limit⟩ := by
  have hsize : logNodeSize = 32 := rfl
  have hkey : logKeyOffset = 16 := rfl
  induction l generalizing n base limit with
  | nil =>
    obtain ⟨n, rfl⟩ : ∃ k, n = k + 1 := ⟨n - 1, by simp at hfuel; omega⟩
    have hlimit : 8 ≤ limit := by simpa using hroom
    rw [scanReads, if_pos (stored_end h hlimit)]
    intro r hr
    rw [List.mem_singleton] at hr
    subst hr
    simp only [Region.Within, Region.limit]
    omega
  | cons e rest ih =>
    have hwidth : LogBuild.plain.codec.width e = logNodeSize := rfl
    obtain ⟨n, rfl⟩ : ∃ k, n = k + 1 := ⟨n - 1, by simp at hfuel; omega⟩
    rw [Codec.extent_cons, hwidth] at hroom
    rw [scanReads, stored_version h (by omega)]
    intro r hr
    have hversion : Region.Within ⟨base + 4, 4⟩ ⟨base, limit⟩ := by
      simp only [Region.Within, Region.limit]
      omega
    have hkeyread : Region.Within ⟨base + logKeyOffset, 8⟩ ⟨base, limit⟩ := by
      simp only [Region.Within, Region.limit]
      omega
    rcases List.mem_cons.mp hr with rfl | hr
    · exact hversion
    · by_cases hz : e.version = 0
      · rw [if_pos hz] at hr
        exact absurd hr List.not_mem_nil
      · rw [if_neg hz] at hr
        rcases List.mem_cons.mp hr with rfl | hr
        · exact hkeyread
        · have hrest := ih h.tail (by rw [hwidth]; omega) (Nat.lt_of_succ_lt_succ hfuel) r hr
          rw [hwidth] at hrest
          exact hrest.trans ⟨Nat.le_add_right _ _, by simp only [Region.limit]; omega⟩

end Block

/-! ### All blocks

The scan walks over the blocks of a directory in any order, so what it pushes is known up to a permutation:
for each block the records before the first one whose version is 0. -/

theorem plain_extent (l : List LogEntry) : LogBuild.plain.codec.extent l = logNodeSize * l.length := by
  induction l with
  | nil => rfl
  | cons e rest ih =>
    have hwidth : LogBuild.plain.codec.width e = logNodeSize := rfl
    rw [Codec.extent_cons, ih, hwidth, List.length_cons, Nat.mul_succ, Nat.add_comm]

/-- The log blocks in use, in the default build, as headers and bytes show them. -/
structure LogImage (m : Headers) (o : Bytes) (start : Nat) (c : BlockCuts) (segs : Nat)
    (content : Nat → List LogEntry) : Prop where
  exact : c.Exact
  segs_le : segs ≤ c.count .log
  used : ∀ j, j < segs → (m (blockAt start (c.place .log j))).bitmap ≠ 0 ∧
    (m (blockAt start (c.place .log j))).startAddress = blockAt start (c.place .log j) + baseMetaSize
  stored : ∀ j, j < segs → LogBuild.plain.codec.Stored o
    (blockAt start (c.place .log j) + baseMetaSize) dataSize (content j)
  room : ∀ j, j < segs → LogBuild.plain.codec.extent (content j) < DSeg.logEnd

/-- `blocks` has the log blocks in use, each once, and no other block in use. -/
structure Covers (m : Headers) (start : Nat) (c : BlockCuts) (segs : Nat) (blocks : List Nat) :
    Prop where
  nodup : blocks.Nodup
  used : ∀ header ∈ blocks, (m header).bitmap ≠ 0 →
    ∃ j, j < segs ∧ header = blockAt start (c.place .log j)
  all : ∀ j, j < segs → blockAt start (c.place .log j) ∈ blocks

namespace LogImage

variable {m : Headers} {o : Bytes} {start : Nat} {c : BlockCuts} {segs : Nat}
  {content : Nat → List LogEntry} {blocks : List Nat}

def recordsAt (start : Nat) (c : BlockCuts) (content : Nat → List LogEntry) (j : Nat) :
    List (LogEntry × Nat) :=
  LogBuild.plain.codec.placed (blockAt start (c.place .log j) + baseMetaSize) (content j)

theorem room_behind (h : LogImage m o start c segs content) {j : Nat} (hj : j < segs) :
    LogBuild.plain.codec.extent (content j) + 8 ≤ dataSize ∧ (content j).length < DSeg.logEnd := by
  have hroom := h.room j hj
  rw [plain_extent] at hroom ⊢
  simp only [DSeg.logEnd, dataSize, CHUNK_SIZE, baseMetaSize, logNodeSize] at hroom ⊢
  omega

theorem place_inj (h : LogImage m o start c segs content) {i j : Nat} (hi : i < segs)
    (hj : j < segs) (heq : c.place .log i = c.place .log j) : i = j :=
  (h.exact.place_inj (hi.trans_le h.segs_le) (hj.trans_le h.segs_le) heq).2

theorem flatMap_filter (used : Nat → Bool) (f : Nat → List Nat) (l : List Nat)
    (hnil : ∀ x, used x = false → f x = []) : (l.filter used).flatMap f = l.flatMap f := by
  induction l with
  | nil => rfl
  | cons x rest ih =>
    rw [List.flatMap_cons, List.filter_cons, ← ih]
    cases hx : used x with
    | true => exact List.flatMap_cons
    | false =>
      rw [hnil x hx]
      rfl

/-- The scan visits the readable records of all segments. -/
theorem scanLog_perm (h : LogImage m o start c segs content) (hcovers : Covers m start c segs blocks) :
    (scanLog m o blocks).Perm
      (((List.range segs).flatMap fun j => readable (recordsAt start c content j)).map Prod.snd) := by
  let f : Nat → List Nat := fun header =>
    if (m header).bitmap = 0 then [] else scanBlock o DSeg.logEnd (m header).startAddress
  let used : Nat → Bool := fun header => (m header).bitmap ≠ 0
  have hperm : (blocks.filter used).Perm
      ((List.range segs).map fun j => blockAt start (c.place .log j)) := by
    apply (List.perm_ext_iff_of_nodup (hcovers.nodup.filter _) ?_).mpr
    · intro header
      rw [List.mem_filter, List.mem_map]
      constructor
      · rintro ⟨hmem, hused⟩
        obtain ⟨j, hj, rfl⟩ := hcovers.used header hmem (by simpa [used] using hused)
        exact ⟨j, List.mem_range.mpr hj, rfl⟩
      · rintro ⟨j, hj, rfl⟩
        have hlt := List.mem_range.mp hj
        exact ⟨hcovers.all j hlt, by simpa [used] using (h.used j hlt).1⟩
    · apply List.nodup_range.map_on
      intro i hi j hj heq
      exact h.place_inj (List.mem_range.mp hi) (List.mem_range.mp hj) (blockAt_injective heq)
  have hf : scanLog m o blocks = (blocks.filter used).flatMap f := by
    rw [flatMap_filter used f]
    · rfl
    · intro header hz
      have hzero : (m header).bitmap = 0 := by simpa [used] using hz
      exact if_pos hzero
  rw [hf, List.map_flatMap]
  refine (hperm.flatMap_right f).trans (List.Perm.of_eq ?_)
  rw [List.flatMap_map]
  apply List.flatMap_congr
  intro j hj
  have hlt := List.mem_range.mp hj
  obtain ⟨hne, hdata⟩ := h.used j hlt
  obtain ⟨hroom, hfuel⟩ := h.room_behind hlt
  change (if _ then _ else _) = _
  rw [if_neg hne, hdata]
  exact scanBlock_stored (h.stored j hlt) hroom hfuel

theorem reads_within (h : LogImage m o start c segs content) (hcovers : Covers m start c segs blocks)
    {header : Nat} (hmem : header ∈ blocks) (hused : (m header).bitmap ≠ 0) :
    ∀ r ∈ scanReads o DSeg.logEnd (m header).startAddress,
      r.Within ⟨header + baseMetaSize, dataSize⟩ := by
  obtain ⟨j, hj, rfl⟩ := hcovers.used header hmem hused
  obtain ⟨hroom, hfuel⟩ := h.room_behind hj
  rw [(h.used j hj).2]
  exact scanReads_stored (h.stored j hj) hroom hfuel

theorem segment_unique (h : LogImage m o start c segs content) {i j : Nat} (hi : i < segs)
    (hj : j < segs) {p q : LogEntry × Nat} (hp : p ∈ recordsAt start c content i)
    (hq : q ∈ recordsAt start c content j) (heq : p.2 = q.2) : i = j := by
  apply h.place_inj hi hj
  by_contra hplace
  have hwithin := Codec.placed_within hp
  have hwithin' := Codec.placed_within hq
  have hpos := LogBuild.plain.width_pos p.1
  have hpos' := LogBuild.plain.width_pos q.1
  have hroom := h.room i hi
  have hroom' := h.room j hj
  have hend : DSeg.logEnd = dataSize := rfl
  obtain ⟨k, hk⟩ := Nat.exists_eq_add_of_le hwithin.1
  have hapart := Logger.data_apart start hplace (k := k) (by omega)
  omega

theorem addresses_nodup (h : LogImage m o start c segs content) :
    (((List.range segs).flatMap fun j => recordsAt start c content j).map Prod.snd).Nodup := by
  rw [List.map_flatMap, List.nodup_flatMap]
  constructor
  · intro j _
    exact Codec.placed_addresses fun e _ => LogBuild.plain.width_pos e
  · apply List.nodup_range.pairwise_of_forall_ne
    intro i hi j hj hne
    refine List.disjoint_left.mpr fun x hx hx' => ?_
    obtain ⟨p, hp, rfl⟩ := List.mem_map.mp hx
    obtain ⟨q, hq, heq⟩ := List.mem_map.mp hx'
    exact hne (h.segment_unique (List.mem_range.mp hi) (List.mem_range.mp hj) hp hq heq.symm)

theorem record_read (h : LogImage m o start c segs content) {j : Nat} (hj : j < segs)
    {p : LogEntry × Nat} (hp : p ∈ recordsAt start c content j) :
    o.get64 (p.2 + logKeyOffset) = p.1.key ∧ o.get64 (p.2 + logKeyOffset + 8) = p.1.val := by
  suffices ∀ {l : List LogEntry} {base limit : Nat}, LogBuild.plain.codec.Stored o base limit l →
      LogBuild.plain.codec.extent l ≤ limit → p ∈ LogBuild.plain.codec.placed base l →
      o.get64 (p.2 + logKeyOffset) = p.1.key ∧ o.get64 (p.2 + logKeyOffset + 8) = p.1.val from
    this (h.stored j hj) ((Nat.le_add_right _ 8).trans (h.room_behind hj).1) hp
  intro l
  induction l with
  | nil => exact fun _ _ hp => absurd hp List.not_mem_nil
  | cons e rest ih =>
    intro base limit hstored hlimit hp
    have hwidth : LogBuild.plain.codec.width e = logNodeSize := rfl
    rw [Codec.extent_cons, hwidth] at hlimit
    rcases List.mem_cons.mp hp with rfl | hp
    · exact ⟨stored_key hstored (by omega), stored_val hstored (by omega)⟩
    · apply ih hstored.tail _ hp
      rw [hwidth]
      omega

def records (start : Nat) (c : BlockCuts) (segs : Nat) (content : Nat → List LogEntry) :
    List (LogEntry × Nat) :=
  (List.range segs).flatMap fun j => recordsAt start c content j

/-- Those that the scan visits. -/
def visited (start : Nat) (c : BlockCuts) (segs : Nat) (content : Nat → List LogEntry) :
    List (LogEntry × Nat) :=
  (List.range segs).flatMap fun j => readable (recordsAt start c content j)

theorem visited_sublist (start : Nat) (c : BlockCuts) (segs : Nat)
    (content : Nat → List LogEntry) :
    (visited start c segs content).Sublist (records start c segs content) := by
  unfold visited records
  induction List.range segs with
  | nil => exact List.Sublist.refl _
  | cons j rest ih =>
    rw [List.flatMap_cons, List.flatMap_cons]
    exact (List.takeWhile_sublist _).append ih

theorem records_nodup (h : LogImage m o start c segs content) :
    (records start c segs content).Nodup := h.addresses_nodup.of_map

theorem eq_of_address (h : LogImage m o start c segs content) {p q : LogEntry × Nat}
    (hp : p ∈ records start c segs content) (hq : q ∈ records start c segs content)
    (heq : p.2 = q.2) : p = q := List.inj_on_of_nodup_map h.addresses_nodup hp hq heq

theorem visited_iff (h : LogImage m o start c segs content) {j : Nat} (hj : j < segs)
    {p : LogEntry × Nat} (hp : p ∈ recordsAt start c content j) :
    p ∈ visited start c segs content ↔ p ∈ readable (recordsAt start c content j) := by
  constructor
  · intro hmem
    obtain ⟨i, hi, hread⟩ := List.mem_flatMap.mp hmem
    have hold := (List.takeWhile_sublist _).subset hread
    have hij := h.segment_unique (List.mem_range.mp hi) hj hold hp rfl
    exact hij ▸ hread
  · exact fun hread => List.mem_flatMap.mpr ⟨j, List.mem_range.mpr hj, hread⟩

/-- The records of one kind are all visited exactly if none of them stands at or behind a zero
version. -/
theorem all_visited_iff (h : LogImage m o start c segs content) (op : BitVec 8) :
    (∀ p ∈ records start c segs content, p.1.op = op → p ∈ visited start c segs content) ↔
      ∀ j, j < segs → ∀ e ∈ (content j).dropWhile fun e => e.version ≠ 0, e.op ≠ op := by
  -- the records of a segment that are not readable
  have hrest : ∀ j,
      ((recordsAt start c content j).dropWhile fun p => p.1.version ≠ 0).map Prod.fst =
        (content j).dropWhile fun e => e.version ≠ 0 := by
    intro j
    have hcontent := Codec.placed_fst LogBuild.plain.codec
      (blockAt start (c.place .log j) + baseMetaSize) (content j)
    conv_rhs => rw [← hcontent, List.dropWhile_map]
    rfl
  have hsplit : ∀ j, readable (recordsAt start c content j) ++
      (recordsAt start c content j).dropWhile (fun p => p.1.version ≠ 0) =
        recordsAt start c content j := fun j => List.takeWhile_append_dropWhile
  constructor
  · intro hall j hj e he hop
    rw [← hrest j] at he
    obtain ⟨p, hp, rfl⟩ := List.mem_map.mp he
    have hmem : p ∈ recordsAt start c content j := (List.dropWhile_sublist _).subset hp
    have hrec : p ∈ records start c segs content :=
      List.mem_flatMap.mpr ⟨j, List.mem_range.mpr hj, hmem⟩
    have hread := (h.visited_iff hj hmem).mp (hall p hrec hop)
    have hnodup := (List.nodup_flatMap.mp h.records_nodup).1 j (List.mem_range.mpr hj)
    rw [← hsplit j] at hnodup
    exact List.disjoint_of_nodup_append hnodup hread hp
  · intro hnone p hp hop
    obtain ⟨j, hj, hmem⟩ := List.mem_flatMap.mp hp
    rw [List.mem_range] at hj
    apply (h.visited_iff hj hmem).mpr
    rw [← hsplit j] at hmem
    rcases List.mem_append.mp hmem with hread | hhidden
    · exact hread
    · have hin : p.1 ∈ (content j).dropWhile fun e => e.version ≠ 0 :=
        hrest j ▸ List.mem_map_of_mem hhidden
      exact absurd hop (hnone j hj _ hin)

/-- What is computed from the visited records, if it tells addresses apart, has each of them
once and no other. -/
theorem count_visited (h : LogImage m o start c segs content) {β : Type} [BEq β] [LawfulBEq β]
    {g : LogEntry × Nat → β}
    (hg : ∀ p ∈ records start c segs content, ∀ q ∈ records start c segs content,
      g p = g q → p.2 = q.2)
    {p : LogEntry × Nat} (hp : p ∈ records start c segs content) :
    ((visited start c segs content).map g).count (g p) = 1 ↔ p ∈ visited start c segs content := by
  have hsub := visited_sublist start c segs content
  constructor
  · intro hcount
    have hmem := List.count_pos_iff.mp (Nat.lt_of_lt_of_eq Nat.zero_lt_one hcount.symm)
    obtain ⟨q, hq, heq⟩ := List.mem_map.mp hmem
    exact h.eq_of_address (hsub.subset hq) hp (hg q (hsub.subset hq) p hp heq) ▸ hq
  · intro hmem
    apply List.count_eq_one_of_mem _ (List.mem_map_of_mem hmem)
    apply (h.records_nodup.sublist hsub).map_on
    intro q hq r hr heq
    exact h.eq_of_address (hsub.subset hq) (hsub.subset hr)
      (hg q (hsub.subset hq) r (hsub.subset hr) heq)

end LogImage

/-! ### The log that a run leaves -/

/-- The directory that opening the pool again rebuilds has the log blocks in use. -/
theorem PoolImage.covers {m : Headers} {start poolLen : Nat} {c : BlockCuts}
    {used : BlockKind → Nat} (h : PoolImage m start c used)
    (hrounds : c.total ≤ NAlc.scanRounds poolLen) {m' : Headers}
    (hsame : ∀ j, j < used .log →
      (m' (blockAt start (c.place .log j))).bitmap ≠ 0) {blocks : List Nat}
    (hlists : (NAlc.reopen m start poolLen).Lists m' blocks) :
    Covers m' start c (used .log) blocks := by
  have hreopened := h.reopen_spec hrounds
  have hshift : BlockKind.log.shift = 1 := rfl
  refine ⟨hlists.nodup, ?_, ?_⟩
  · intro header hmem _
    obtain ⟨id, hid⟩ := hlists.listed header hmem
    rw [hreopened.entry, hshift] at hid
    by_cases hin : 1 ≤ id.toNat ∧ id.toNat - 1 < used .log
    · rw [if_pos hin, Option.some.injEq] at hid
      exact ⟨_, hin.2, hid.symm⟩
    · rw [if_neg hin] at hid
      exact absurd hid (by simp)
  · intro j hj
    have htotal := h.exact.count_le_total .log
    have hle := h.used_le .log
    have hsmall := h.small
    have hid : (BitVec.ofNat 32 (j + 1)).toNat = j + 1 := by
      rw [BitVec.toNat_ofNat]
      omega
    apply hlists.all (BitVec.ofNat 32 (j + 1)) _ _ (hsame j hj)
    rw [hreopened.entry, hid, hshift, if_pos ⟨Nat.le_add_left _ _, hj⟩, Nat.add_sub_cancel]

namespace Logger

variable {b : LogBuild} {s : Logger} {c : BlockCuts} {content : Nat → List LogEntry}
  {recs : List (LogEntry × Nat)} {blocks : List Nat}

theorem Logged.used (h : s.Logged b c content recs) {j : Nat} (hj : j < s.segs) :
    (s.worker.mem (blockAt s.worker.alc.startAddress (c.place .log j))).bitmap ≠ 0 ∧
      (s.worker.mem (blockAt s.worker.alc.startAddress (c.place .log j))).startAddress =
        blockAt s.worker.alc.startAddress (c.place .log j) + baseMetaSize := by
  have hb := h.filled.marked .log j (Nat.lt_of_lt_of_le hj (h.filled.taken_le .log))
  refine ⟨?_, hb.start⟩
  have hmark := (hb.log_used rfl hj).1
  rw [NAlc.header] at hmark
  rw [hmark]
  decide

theorem Logged.image (h : s.Logged .plain c content recs) :
    LogImage s.worker.mem s.bytes s.worker.alc.startAddress c s.segs content where
  exact := h.filled.kept.listed.exact
  segs_le := h.filled.taken_le .log
  used _ hj := h.used hj
  stored := h.stored
  room := h.room

theorem Logged.covers (h : s.Logged b c content recs)
    (hlists : s.worker.alc.Lists s.worker.mem blocks) :
    Covers s.worker.mem s.worker.alc.startAddress c s.segs blocks := by
  have hlisted := h.filled.kept.listed
  refine ⟨hlists.nodup, ?_, ?_⟩
  · intro header hmem hused
    obtain ⟨id, hid⟩ := hlists.listed header hmem
    rw [hlisted.entry] at hid
    by_cases hlt : id.toNat < c.count .log
    · rw [if_pos hlt, Option.some.injEq] at hid
      subst hid
      refine ⟨id.toNat, Nat.not_le.mp fun hle => hused ?_, rfl⟩
      exact (h.filled.marked .log id.toNat hlt).log_unused rfl hle
    · rw [if_neg hlt] at hid
      exact absurd hid (by simp)
  · intro j hj
    have hcount := Nat.lt_of_lt_of_le hj (h.filled.taken_le .log)
    have hid : (BitVec.ofNat 32 j).toNat = j := by
      rw [BitVec.toNat_ofNat]
      exact Nat.mod_eq_of_lt (Nat.lt_of_lt_of_le hcount (hlisted.count_le .log))
    apply hlists.all (BitVec.ofNat 32 j) _ _ (h.used hj).1
    rw [hlisted.entry, hid, if_pos hcount]

/-- The blocks in the order of their cutting are one order to list them in. -/
theorem Logged.lists (h : s.Logged b c content recs) : s.worker.alc.Lists s.worker.mem
    ((List.range (c.count .log)).map fun j => s.worker.alc.header c .log j) := by
  have hlisted := h.filled.kept.listed
  refine ⟨?_, ?_, ?_⟩
  · apply List.nodup_range.map_on
    intro i hi j hj heq
    exact (NAlc.header_injective hlisted.exact (List.mem_range.mp hi) (List.mem_range.mp hj) heq).2
  · intro header hmem
    obtain ⟨j, hj, rfl⟩ := List.mem_map.mp hmem
    have hcount := List.mem_range.mp hj
    have hid : (BitVec.ofNat 32 j).toNat = j := by
      rw [BitVec.toNat_ofNat]
      exact Nat.mod_eq_of_lt (Nat.lt_of_lt_of_le hcount (hlisted.count_le .log))
    refine ⟨BitVec.ofNat 32 j, ?_⟩
    rw [hlisted.entry, hid, if_pos hcount]
    rfl
  · intro id header hid _
    rw [hlisted.entry] at hid
    by_cases hlt : id.toNat < c.count .log
    · rw [if_pos hlt, Option.some.injEq] at hid
      exact List.mem_map.mpr ⟨id.toNat, List.mem_range.mpr hlt, hid⟩
    · rw [if_neg hlt] at hid
      exact absurd hid (by simp)

/-- The pool is mapped behind its start, and the run has stayed in it. -/
structure InPool (s : Logger) (address poolLen : Nat) : Prop where
  mapped : address + poolLen ≤ 2 ^ 48
  fits : s.worker.alc.endAddress ≤ address + poolLen

theorem InPool.total_le {address poolLen : Nat} (h : s.InPool address poolLen)
    (hend : s.worker.alc.endAddress = blockAt address c.total) :
    c.total ≤ NAlc.scanRounds poolLen ∧ c.total < 2 ^ 22 := by
  obtain ⟨hmapped, hfits⟩ := h
  rw [hend] at hfits
  simp only [blockAt, NAlc.scanRounds, CHUNK_SIZE] at hfits ⊢
  omega

theorem Logged.covers_reopened (h : s.Logged b c content recs) {address poolLen : Nat}
    (haddress : s.worker.alc.startAddress = address) (hpool : s.InPool address poolLen)
    (hlists : (NAlc.reopen s.worker.mem address poolLen).Lists s.worker.mem blocks) :
    Covers s.worker.mem address c s.segs blocks := by
  subst haddress
  obtain ⟨hrounds, hsmall⟩ := hpool.total_le h.filled.kept.listed.end_eq
  exact (h.filled.poolImage h.unmarked hsmall).covers hrounds (fun _ hj => (h.used hj).1) hlists

/-- The scan yields every insertion once, with its key and the address of its key field, and
reads nothing outside the data of a block. -/
structure Replays (s : Logger) (recs : List (LogEntry × Nat)) (blocks : List Nat) : Prop where
  replayed : ∀ p ∈ recs, p.1.op = LOG_INSERT →
    (DSeg.replay s.worker.mem s.bytes blocks).count (Finger.of p.1.key p.2) = 1
  recovered : ∀ p ∈ recs, p.1.op = LOG_INSERT →
    (recoverLog s.worker.mem s.bytes blocks).count (p.1.key, p.2 + logKeyOffset) = 1
  inside : ∀ header ∈ blocks, (s.worker.mem header).bitmap ≠ 0 →
    ∀ r ∈ scanReads s.bytes DSeg.logEnd (s.worker.mem header).startAddress,
      r.Within ⟨header + baseMetaSize, dataSize⟩

/-- No insertion has the version zero or stands behind a zero version in its segment. -/
def InsertsReadable (es : List LogEntry) : Prop :=
  ∀ seg ∈ LogBuild.plain.segments es, ∀ e ∈ seg.dropWhile fun e => e.version ≠ 0,
    e.op ≠ LOG_INSERT

instance (es : List LogEntry) : Decidable (InsertsReadable es) :=
  inferInstanceAs (Decidable (∀ seg ∈ _, ∀ e ∈ _, _ ≠ _))

theorem Logged.insertsReadable_iff (h : s.Logged .plain c content recs) :
    InsertsReadable (recs.map Prod.fst) ↔
      ∀ j, j < s.segs → ∀ e ∈ (content j).dropWhile fun e => e.version ≠ 0, e.op ≠ LOG_INSERT := by
  rw [InsertsReadable, h.segments]
  simp only [List.mem_reverse, List.mem_map, List.mem_range, forall_exists_index, and_imp,
    forall_apply_eq_imp_iff₂]

theorem Logged.replays_iff (h : s.Logged .plain c content recs)
    (hend : s.worker.alc.endAddress ≤ 2 ^ 48)
    (hcovers : Covers s.worker.mem s.worker.alc.startAddress c s.segs blocks) :
    s.Replays recs blocks ↔ InsertsReadable (recs.map Prod.fst) := by
  have himage := h.image
  have hrecs : recs = LogImage.records s.worker.alc.startAddress c s.segs content := h.records
  have hperm := himage.scanLog_perm hcovers
  have hsub := LogImage.visited_sublist s.worker.alc.startAddress c s.segs content
  -- what is pushed for a visited record
  have hkey : ∀ p ∈ LogImage.visited s.worker.alc.startAddress c s.segs content,
      s.bytes.get64 (p.2 + logKeyOffset) = p.1.key := by
    intro p hp
    obtain ⟨j, hj, hmem⟩ := List.mem_flatMap.mp (hsub.subset hp)
    exact (himage.record_read (List.mem_range.mp hj) hmem).1
  have hreplay : (DSeg.replay s.worker.mem s.bytes blocks).Perm
      ((LogImage.visited s.worker.alc.startAddress c s.segs content).map fun p =>
        Finger.of p.1.key p.2) := by
    refine (hperm.map _).trans (List.Perm.of_eq ?_)
    rw [List.map_map]
    apply List.map_congr_left
    intro p hp
    exact congrArg (Finger.of · p.2) (hkey p hp)
  have hrecover : (recoverLog s.worker.mem s.bytes blocks).Perm
      ((LogImage.visited s.worker.alc.startAddress c s.segs content).map fun p =>
        (p.1.key, p.2 + logKeyOffset)) := by
    refine (hperm.map _).trans (List.Perm.of_eq ?_)
    rw [List.map_map]
    apply List.map_congr_left
    intro p hp
    exact congrArg (·, p.2 + logKeyOffset) (hkey p hp)
  -- addresses fit into a `ptr_field`
  have hlow : ∀ p ∈ LogImage.records s.worker.alc.startAddress c s.segs content,
      p.2 + logKeyOffset < 2 ^ 48 := by
    intro p hp
    obtain ⟨j, hj, hmem⟩ := List.mem_flatMap.mp hp
    rw [List.mem_range] at hj
    have hwithin := (Codec.placed_within hmem).2
    have hwidth : LogBuild.plain.codec.width p.1 = 32 := rfl
    have hroom := h.room j hj
    have hplace := himage.exact.place_lt (Nat.lt_of_lt_of_le hj himage.segs_le)
    have htotal : blockAt s.worker.alc.startAddress (c.place .log j) + CHUNK_SIZE ≤
        s.worker.alc.endAddress := by
      rw [h.filled.kept.listed.end_eq, ← blockAt_succ]
      exact blockAt_le_iff.mpr (Nat.succ_le_of_lt hplace)
    simp only [DSeg.logEnd, CHUNK_SIZE, baseMetaSize, logKeyOffset] at hroom htotal hwithin ⊢
    omega
  have hfinger : ∀ p ∈ LogImage.records s.worker.alc.startAddress c s.segs content,
      ∀ q ∈ LogImage.records s.worker.alc.startAddress c s.segs content,
        Finger.of p.1.key p.2 = Finger.of q.1.key q.2 → p.2 = q.2 := by
    intro p hp q hq heq
    have hptr := congrArg (fun f => f.ptrField.toNat) heq
    simp only [Finger.of, BitVec.toNat_ofNat, Nat.mod_eq_of_lt (hlow p hp),
      Nat.mod_eq_of_lt (hlow q hq)] at hptr
    exact Nat.add_right_cancel hptr
  have hpair : ∀ p ∈ LogImage.records s.worker.alc.startAddress c s.segs content,
      ∀ q ∈ LogImage.records s.worker.alc.startAddress c s.segs content,
        (p.1.key, p.2 + logKeyOffset) = (q.1.key, q.2 + logKeyOffset) → p.2 = q.2 := by
    intro p _ q _ heq
    exact Nat.add_right_cancel (congrArg Prod.snd heq)
  rw [h.insertsReadable_iff, ← himage.all_visited_iff LOG_INSERT, hrecs]
  -- each insertion is counted once in what is pushed, exactly if the scan visits it
  constructor
  · intro hreplays p hp hop
    have hcount := hreplays.recovered p hp hop
    rw [hrecover.count_eq] at hcount
    exact (himage.count_visited hpair hp).mp hcount
  · intro hvisited
    refine ⟨fun p hp hop => ?_, fun p hp hop => ?_, fun header hmem hused => ?_⟩
    · rw [hreplay.count_eq]
      exact (himage.count_visited hfinger hp).mpr (hvisited p hp hop)
    · rw [hrecover.count_eq]
      exact (himage.count_visited hpair hp).mpr (hvisited p hp hop)
    · exact himage.reads_within hcovers hmem hused

end Logger

/-- After any run in a zero-filled pool, the scans of `replay`, over the live directory, and of
`recover`, over the directory that opening the pool again rebuilds, yield each `LOG_INSERT`
record once exactly if no such record has the version zero or stands behind a zero version in
its segment. -/
theorem log_replays_inserts {address : Nat} {m : Headers} {o : Bytes}
    (hzero : Logger.Zeroed address m o) {ops : List LoggerCall}
    (hfits : ∀ op ∈ ops, op.Fits .plain) :
    ∃ recs s, (Logger.start address m o).run .plain ops = some (recs, s) ∧
      ∀ poolLen, s.InPool address poolLen → ∀ a blocks,
        a = s.worker.alc ∨ a = NAlc.reopen s.worker.mem address poolLen →
        a.Lists s.worker.mem blocks →
        (s.Replays recs blocks ↔ Logger.InsertsReadable (Logger.appended ops)) := by
  have hstart := Logger.start_logged .plain hzero
  have haddress : (Logger.start address m o).worker.alc.startAddress = address :=
    NAlc.init_startAddress address m
  obtain ⟨recs, s, c, hrun, hlater⟩ := Logger.run_returns .plain _ hstart.filled.kept ops
  refine ⟨recs, s, hrun, fun poolLen hpool a blocks ha hlists => ?_⟩
  have hbase : s.worker.alc.startAddress = address := hlater.start.trans haddress
  have hend : s.worker.alc.endAddress ≤ 2 ^ 48 := hpool.fits.trans hpool.mapped
  have hsmall : s.worker.alc.endAddress < blockAt s.worker.alc.startAddress (2 ^ 32) := by
    simp only [blockAt, CHUNK_SIZE]
    omega
  obtain ⟨c', content, h⟩ := hstart.run hfits hrun hsmall
  rw [List.nil_append] at h
  have hcovers : Covers s.worker.mem s.worker.alc.startAddress c' s.segs blocks := by
    rcases ha with rfl | rfl
    · exact h.covers hlists
    · rw [hbase]
      exact h.covers_reopened hbase hpool hlists
  rw [h.replays_iff hend hcovers, Logger.run_entries hrun]

/-- `append_one` as an insertion and as an update call it. -/
def insertEntry (key : Key) (val : Word) (valueLen : BitVec 32) : LogEntry :=
  ⟨key, val, 0, LOG_INSERT, valueLen, Bytes.zero⟩

def updateEntry (key : Key) (val : Word) : LogEntry := ⟨key, val, 0, LOG_UPDATE, 0, Bytes.zero⟩

/-- Two insertions into a new pool of a gigabyte. -/
theorem log_replays_inserts_two :
    ∃ recs s, (Logger.start mmapStart (fun _ => BaseMeta.zero) Bytes.zero).run .plain
        [.append (insertEntry 1 10 8), .append (insertEntry 2 20 8)] = some (recs, s) ∧
      ∀ blocks, s.worker.alc.Lists s.worker.mem blocks → s.Replays recs blocks := by
  let ops : List LoggerCall := [.append (insertEntry 1 10 8), .append (insertEntry 2 20 8)]
  have hfits : ∀ op ∈ ops, op.Fits .plain := by
    intro op hop
    rcases List.mem_pair.mp hop with rfl | rfl <;> exact Nat.zero_le _
  obtain ⟨recs, s, hrun, hreplays⟩ :=
    log_replays_inserts (Logger.zeroed_zero mmapStart) hfits
  have hend : ((Logger.start mmapStart (fun _ => BaseMeta.zero) Bytes.zero).run .plain ops).map
      (fun r => r.2.worker.alc.endAddress) = some (mmapStart + 1024 + 8 * CHUNK_SIZE) := by
    decide +kernel
  rw [hrun, Option.map_some, Option.some.injEq] at hend
  refine ⟨recs, s, hrun, fun blocks hlists => ?_⟩
  apply (hreplays (2 ^ 30) ⟨by decide, ?_⟩ _ blocks (Or.inl rfl) hlists).mpr
  · decide +kernel
  · rw [hend]
    decide

/-- The record of an update has the version zero: the insertion behind it is not yielded. -/
theorem log_hides_insert_after_update :
    ∃ recs s blocks, (Logger.start mmapStart (fun _ => BaseMeta.zero) Bytes.zero).run .plain
        [.append (insertEntry 1 10 8), .append (updateEntry 1 11), .append (insertEntry 2 20 8)] =
          some (recs, s) ∧
      s.worker.alc.Lists s.worker.mem blocks ∧ ¬ s.Replays recs blocks := by
  let ops : List LoggerCall :=
    [.append (insertEntry 1 10 8), .append (updateEntry 1 11), .append (insertEntry 2 20 8)]
  have hfits : ∀ op ∈ ops, op.Fits .plain := by
    intro op hop
    simp only [ops, List.mem_cons, List.not_mem_nil, or_false] at hop
    rcases hop with rfl | rfl | rfl <;> exact Nat.zero_le _
  have hstart := Logger.start_logged .plain (Logger.zeroed_zero mmapStart)
  obtain ⟨recs, s, c, hrun, -⟩ := Logger.run_returns .plain _ hstart.filled.kept ops
  have hend : ((Logger.start mmapStart (fun _ => BaseMeta.zero) Bytes.zero).run .plain ops).map
      (fun r => (r.2.worker.alc.endAddress, r.2.worker.alc.startAddress)) =
        some (mmapStart + 1024 + 8 * CHUNK_SIZE, mmapStart) := by
    decide +kernel
  rw [hrun, Option.map_some, Option.some.injEq, Prod.mk.injEq] at hend
  obtain ⟨hend, hbase⟩ := hend
  obtain ⟨c', content, h⟩ := hstart.run hfits hrun (by rw [hend, hbase]; decide)
  rw [List.nil_append] at h
  refine ⟨recs, s, _, hrun, h.lists, fun hreplays => ?_⟩
  have hlow : s.worker.alc.endAddress ≤ 2 ^ 48 := by
    rw [hend]
    decide
  have hreadable := (h.replays_iff hlow (h.covers h.lists)).mp hreplays
  rw [Logger.run_entries hrun] at hreadable
  revert hreadable
  decide +kernel

end ZBTree
