import ZBTree.LeafEnumeration
import ZBTree.PoolViews

/-!
# What one pool holds

A thread alone on its pool, with the records that it has appended and the `P_Leaf`s that it has
taken. Both are where they were put, nothing overlaps, and the number of blocks is bounded by the
number of records and leaves, so that the size of a pool that is large enough can be computed.
-/

namespace ZBTree

open Rebuilt

/-! ### A new value for a record -/

def LogEntry.withVal (e : LogEntry) (v : Word) : LogEntry := { e with val := v }

theorem LogEntry.storeFirst_withVal (e : LogEntry) (v : Word) (k : Nat) :
    (e.withVal v).storeFirst 5 Bytes.zero 0 k =
      if logKeyOffset + 8 ≤ k ∧ k < logKeyOffset + 16 then v.extractLsb' (8 * (k - (logKeyOffset + 8))) 8
      else e.storeFirst 5 Bytes.zero 0 k := by
  have hlast : ∀ e : LogEntry, e.storeFirst 5 Bytes.zero 0 =
      (e.storeFirst 4 Bytes.zero 0).put64 (logKeyOffset + 8) e.val := by
    intro e
    simp [storeFirst, stores]
  have hsame : (e.withVal v).storeFirst 4 Bytes.zero 0 = e.storeFirst 4 Bytes.zero 0 := rfl
  rw [hlast, hlast e, hsame, Bytes.put64, Bytes.put64]
  by_cases hin : logKeyOffset + 8 ≤ k ∧ k < logKeyOffset + 8 + 8
  · rw [if_pos hin, if_pos hin]
    rfl
  · rw [if_neg hin, if_neg hin, if_neg hin]

namespace LogBuild

/-- The sizes of the segments, the last one first, when records of these versions are appended. -/
def sizes (versions : List (BitVec 32)) : List Nat :=
  versions.foldl (fun segs version =>
    match segs with
    | [] => [1]
    | n :: rest =>
      if DSeg.logEnd ≤ logNodeSize * n + logNodeSize + version.toNat then 1 :: n :: rest
      else (n + 1) :: rest) []

theorem segments_sizes (es : List LogEntry) :
    (plain.segments es).map List.length = sizes (es.map LogEntry.version) := by
  induction es using List.reverseRecOn with
  | nil => rfl
  | append_singleton es e ih =>
    rw [segments_concat, List.map_append, sizes, List.foldl_append]
    change _ = _ at ih
    rw [sizes] at ih
    rw [← ih]
    cases plain.segments es with
    | nil => rfl
    | cons seg rest =>
      simp only [List.map_cons, List.map_nil, List.foldl_cons, List.foldl_nil, fill, plain_extent]
      split
      · rfl
      · simp

theorem segments_flatten (b : LogBuild) (es : List LogEntry) : (b.segments es).reverse.flatten = es := by
  induction es using List.reverseRecOn with
  | nil => rfl
  | append_singleton es e ih =>
    rw [segments_concat]
    cases hsegs : b.segments es with
    | nil =>
      rw [hsegs] at ih
      rw [← ih]
      rfl
    | cons seg rest =>
      rw [hsegs, List.reverse_cons, List.flatten_append] at ih
      unfold fill
      dsimp only
      split
      · simp only [List.reverse_cons, List.flatten_append, ih]
        simp
      · rw [List.reverse_cons, List.flatten_append, ← ih]
        simp

theorem segments_eq {es : List LogEntry} {segs : List (List LogEntry)} (hflat : segs.reverse.flatten = es)
    {es' : List LogEntry} (hversions : es.map LogEntry.version = es'.map LogEntry.version)
    (hsizes : segs.map List.length = (plain.segments es').map List.length) : plain.segments es = segs := by
  have hlengths : (plain.segments es).reverse.map List.length = segs.reverse.map List.length := by
    rw [List.map_reverse, List.map_reverse, hsizes, segments_sizes, segments_sizes, hversions]
  have heq : (plain.segments es).reverse = segs.reverse :=
    List.eq_iff_flatten_eq.mpr ⟨(segments_flatten plain es).trans hflat.symm, hlengths⟩
  exact List.reverse_injective heq

end LogBuild

namespace Logger

variable {s s' : Logger} {c : BlockCuts} {content : Nat → List LogEntry} {recs : List (LogEntry × Nat)}
  {e : LogEntry} {node : Nat}

/-- `kv_ptr[1] = val` for the record at `node`. -/
def setVal (s : Logger) (node : Nat) (v : Word) : Logger :=
  { s with bytes := s.bytes.put64 (node + logKeyOffset + 8) v }

/-- The store changes the bytes of the record from those of one entry to those of the other. -/
theorem stored_setVal {o : Bytes} {base limit : Nat} {l rest : List LogEntry} (v : Word)
    (h : LogBuild.plain.codec.Stored o base limit (l ++ e :: rest))
    (hlimit : LogBuild.plain.codec.extent l + logNodeSize ≤ limit) :
    LogBuild.plain.codec.Stored (o.put64 (base + LogBuild.plain.codec.extent l + logKeyOffset + 8) v) base limit
      (l ++ e.withVal v :: rest) := by
  have hwidth : LogBuild.plain.codec.width e = logNodeSize := rfl
  have hkey : logKeyOffset = 16 := rfl
  have hsize : logNodeSize = 32 := rfl
  have hwidth' : LogBuild.plain.codec.width (e.withVal v) = LogBuild.plain.codec.width e := rfl
  apply h.set hwidth'
  · intro k hk
    rw [hwidth] at hk
    have hold : o (base + LogBuild.plain.codec.extent l + k) = LogBuild.plain.codec.byte e k := by
      have hself : LogBuild.plain.codec.width e = LogBuild.plain.codec.width e := rfl
      have hbyte : LogBuild.plain.codec.image (l ++ e :: rest) (LogBuild.plain.codec.extent l + k) = _ :=
        Codec.image_set hself l (LogBuild.plain.codec.extent l + k)
      rw [if_pos (by omega), Nat.add_sub_cancel_left] at hbyte
      rw [Nat.add_assoc, h _ (by omega), hbyte]
    rw [LogBuild.byte_head _ _ _ hk] at hold
    rw [LogBuild.byte_head _ _ _ hk, LogEntry.storeFirst_withVal]
    by_cases hin : logKeyOffset + 8 ≤ k ∧ k < logKeyOffset + 16
    · have hoffset : base + LogBuild.plain.codec.extent l + k -
          (base + LogBuild.plain.codec.extent l + logKeyOffset + 8) = k - (logKeyOffset + 8) := by omega
      rw [if_pos hin, ← hoffset]
      exact if_pos (by omega)
    · rw [if_neg hin, ← hold]
      exact Bytes.put64_of_outside _ _ _ _ (by omega)
  · intro k hk
    apply Bytes.put64_of_outside
    omega

/-- A store into the value field of a record changes that record. -/
theorem Logged.setVal (h : s.Logged .plain c content recs) (hmem : (e, node) ∈ recs) (v : Word) :
    ∃ before behind content', recs = before ++ (e, node) :: behind ∧
      (s.setVal node v).Logged .plain c content' (before ++ (e.withVal v, node) :: behind) := by
  rw [h.records] at hmem
  obtain ⟨j, hj, hplaced⟩ := List.mem_flatMap.mp hmem
  obtain ⟨l, rest, hl, hnode⟩ := Codec.placed_split hplaced
  dsimp only at hl hnode
  have hlt := List.mem_range.mp hj
  have hend : DSeg.logEnd = dataSize := rfl
  have hwidth : LogBuild.plain.codec.width e = logNodeSize := rfl
  have hroom := h.room j hlt
  have hextent : LogBuild.plain.codec.extent (l ++ e.withVal v :: rest) =
      LogBuild.plain.codec.extent (content j) := by
    rw [hl, plain_extent, plain_extent]
    simp
  have hin : LogBuild.plain.codec.extent l + logNodeSize ≤ LogBuild.plain.codec.extent (content j) := by
    rw [hl, plain_extent, plain_extent, List.length_append, List.length_cons, ← Nat.mul_succ]
    exact Nat.mul_le_mul_left _ (by omega)
  -- the segments before `j` and behind it hold the records they held
  obtain ⟨before, behind, hrange⟩ := List.append_of_mem hj
  have hnodup : (before ++ j :: behind).Nodup := hrange ▸ List.nodup_range
  obtain ⟨hbefore, hbehind⟩ : (∀ i ∈ before, i ≠ j) ∧ ∀ i ∈ behind, i ≠ j := by
    rw [List.nodup_append, List.nodup_cons] at hnodup
    exact ⟨fun i hi => hnodup.2.2 i hi j List.mem_cons_self, fun i hi heq => hnodup.2.1.1 (heq ▸ hi)⟩
  set content' := Function.update content j (l ++ e.withVal v :: rest) with hcontent
  have hself : content' j = l ++ e.withVal v :: rest := Function.update_self _ _ _
  have hother : ∀ i, i ≠ j → content' i = content i := fun i hi => Function.update_of_ne hi _ _
  let place : (Nat → List LogEntry) → Nat → List (LogEntry × Nat) := fun content i =>
    LogBuild.plain.codec.placed (s.dataAt c i) (content i)
  have hold : recs = (before.flatMap (place content) ++ LogBuild.plain.codec.placed (s.dataAt c j) l) ++
      (e, node) :: (LogBuild.plain.codec.placed (s.dataAt c j + LogBuild.plain.codec.extent l +
        LogBuild.plain.codec.width e) rest ++ behind.flatMap (place content)) := by
    have hat : place content j = LogBuild.plain.codec.placed (s.dataAt c j) (l ++ e :: rest) := congrArg _ hl
    rw [h.records, hrange, List.flatMap_append, List.flatMap_cons]
    change _ ++ (place content j ++ _) = _
    rw [hat, Codec.placed_append, Codec.placed, hnode]
    simp only [List.append_assoc, List.cons_append]
    rfl
  have hnew : (before.flatMap (place content) ++ LogBuild.plain.codec.placed (s.dataAt c j) l) ++
      (e.withVal v, node) :: (LogBuild.plain.codec.placed (s.dataAt c j + LogBuild.plain.codec.extent l +
        LogBuild.plain.codec.width e) rest ++ behind.flatMap (place content)) =
      (List.range s.segs).flatMap (place content') := by
    have hat : place content' j =
        LogBuild.plain.codec.placed (s.dataAt c j) (l ++ e.withVal v :: rest) := congrArg _ hself
    have hsame : ∀ is : List Nat, (∀ i ∈ is, i ≠ j) → is.flatMap (place content') = is.flatMap (place content) :=
      fun is his => List.flatMap_congr fun i hi => congrArg _ (hother i (his i hi))
    rw [hrange, List.flatMap_append, List.flatMap_cons, hsame _ hbefore, hsame _ hbehind, hat,
      Codec.placed_append, Codec.placed, hnode]
    simp only [List.append_assoc, List.cons_append]
    rfl
  refine ⟨_, _, content', hold, h.filled, ?_, ?_, ?_, ?_, ?_, hnew, ?_, h.unmarked⟩
  · intro i hi
    change LogBuild.plain.codec.Stored _ (s.dataAt c i) _ _
    by_cases hij : i = j
    · subst hij
      have hstored := h.stored i hi
      rw [hl] at hstored
      rw [hself, Logger.setVal, hnode]
      exact stored_setVal v hstored (by omega)
    · rw [hother i hij]
      refine (h.stored i hi).congr fun k hk => Bytes.put64_of_outside _ _ _ _ ?_
      have hplace : c.place .log i ≠ c.place .log j := fun heq => hij (h.image.place_inj hi hlt heq)
      have hapart := data_apart s.worker.alc.startAddress hplace hk
      have hkey : logKeyOffset = 16 := rfl
      -- the value field ends with the record, so the bytes around it stay
      have hsize : logNodeSize = 32 := rfl
      unfold dataAt NAlc.header at hnode ⊢
      omega
  · intro i hi
    rw [hother i fun heq => by subst heq; exact absurd hlt (Nat.not_lt.mpr hi)]
    exact h.empty i hi
  · intro n hn
    refine (h.blank n hn).congr fun k hk => Bytes.put64_of_outside _ _ _ _ ?_
    have hapart := data_apart s.worker.alc.startAddress (Ne.symm (hn j hlt)) hk
    have hkey : logKeyOffset = 16 := rfl
    have hsize : logNodeSize = 32 := rfl
    unfold dataAt NAlc.header at hnode
    change blockAt s.worker.alc.startAddress n + _ + _ < _ ∨ _ ≤ blockAt s.worker.alc.startAddress n + _ + _
    omega
  · intro hpos
    rw [show (s.setVal node v).worker.seg.tempOffset = s.worker.seg.tempOffset from rfl, h.offset hpos]
    by_cases hij : s.segs - 1 = j
    · exact (congrArg _ (congrArg content hij)).trans
        (hextent.symm.trans (congrArg _ ((congrArg content' hij).trans hself).symm))
    · exact congrArg _ (hother _ hij).symm
  · intro i hi
    by_cases hij : i = j
    · subst hij
      rw [hself, hextent]
      exact hroom
    · rw [hother i hij]
      exact h.room i hi
  · have hversions : (((before.flatMap (place content) ++ LogBuild.plain.codec.placed (s.dataAt c j) l) ++
        (e.withVal v, node) :: (LogBuild.plain.codec.placed (s.dataAt c j + LogBuild.plain.codec.extent l +
          LogBuild.plain.codec.width e) rest ++ behind.flatMap (place content))).map Prod.fst).map
        LogEntry.version = (recs.map Prod.fst).map LogEntry.version := by
      rw [hold]
      simp only [List.map_append, List.map_cons]
      rfl
    apply LogBuild.segments_eq _ hversions
    · rw [h.segments, List.map_reverse, List.map_reverse, List.map_map, List.map_map]
      congr 1
      apply List.map_congr_left
      intro i _
      by_cases hij : i = j
      · subst hij
        simp [hself, hl]
      · exact congrArg List.length (hother i hij)
    · rw [hnew, List.reverse_reverse, List.map_flatMap, ← List.flatMap_def]
      exact List.flatMap_congr fun i _ => (Codec.placed_fst _ _ _).symm

end Logger

/-! ### How large a pool has to be

A record takes `logNodeSize` bytes, and up to its version more stay unused at the end of a segment; a `P_Leaf` takes
a fixed piece of a tree block. So the number of blocks is bounded by the number of requests. -/

/-- Records of at most this version that a log block takes before the next one is opened. -/
def recordsPer (maxVersion : Nat) : Nat := (DSeg.logEnd - logNodeSize - maxVersion) / logNodeSize

def leavesPer : Nat := (dataSize - pleafSize) / pleafSize

/-- Bytes that are enough for `n` records and `n` leaves. -/
def poolFor (maxVersion n : Nat) : Nat :=
  Demand.bytes ⟨n / leavesPer + 1, 0, n / recordsPer maxVersion + 1⟩

theorem Demand.bytes_mono {d d' : Demand} (hnodes : d.nodes ≤ d'.nodes) (hlogs : d.logs ≤ d'.logs) :
    d.bytes ≤ d'.bytes := by
  unfold bytes nodeBlocks logBlocks
  apply Nat.add_le_add_left
  apply Nat.mul_le_mul_right
  omega

/-- What is used of the blocks when `records` records and `leaves` leaves have been handed out. -/
structure Demand.Within (d : Demand) (maxVersion records leaves tempOffset : Nat) : Prop where
  logs : (d.logs - 1) * recordsPer maxVersion + tempOffset / logNodeSize ≤ records
  nodes : (d.nodes - 1) * leavesPer + d.fill.toNat / pleafSize ≤ leaves
  fill : d.fill.toNat ≤ dataSize

theorem Demand.Within.bytes_le {d : Demand} {maxVersion records leaves tempOffset n : Nat}
    (h : d.Within maxVersion records leaves tempOffset) (hversion : 0 < recordsPer maxVersion)
    (hrecords : records ≤ n) (hleaves : leaves ≤ n) : d.bytes ≤ poolFor maxVersion n := by
  have hpos : 0 < leavesPer := by decide
  have hlogs := (Nat.le_add_right _ _).trans (h.logs.trans hrecords)
  have hnodes := (Nat.le_add_right _ _).trans (h.nodes.trans hleaves)
  apply Demand.bytes_mono
  · exact Nat.sub_le_iff_le_add.mp ((Nat.le_div_iff_mul_le hpos).mpr hnodes)
  · exact Nat.sub_le_iff_le_add.mp ((Nat.le_div_iff_mul_le hversion).mpr hlogs)

/-- A leaf more. -/
theorem Demand.Within.leaf {d : Demand} {maxVersion records leaves tempOffset : Nat}
    (h : d.Within maxVersion records leaves tempOffset) (hnodes : 0 < d.nodes) :
    (d.serve ⟨.node, pLeafSize⟩).Within maxVersion records (leaves + 1) tempOffset := by
  have hsize : pLeafSize.toNat = pleafSize := rfl
  have hwhole : CHUNK_SIZE - baseMetaSize = dataSize := rfl
  have hdata : dataSize = 67108800 := by decide
  have hleaf : pleafSize = 32 := rfl
  have hsum : (d.fill + pLeafSize).toNat = d.fill.toNat + pleafSize := by
    have hfill := h.fill
    rw [BitVec.toNat_add, hsize, Nat.mod_eq_of_lt (by omega)]
  have hbefore := h.nodes
  unfold serve
  dsimp only
  split_ifs with hfull
  · rw [hsum, hwhole] at hfull
    have hmany : leavesPer ≤ d.fill.toNat / pleafSize := Nat.div_le_div_right (by omega)
    refine ⟨h.logs, ?_, ?_⟩
    · obtain ⟨n, hn⟩ : ∃ n, d.nodes = n + 1 := ⟨d.nodes - 1, by omega⟩
      dsimp only
      rw [hn, Nat.add_sub_cancel] at hbefore
      rw [hn, Nat.add_sub_cancel, Nat.succ_mul, hsize]
      have hone : pleafSize / pleafSize = 1 := by decide
      omega
    · rw [hsize, hdata, hleaf]
      decide
  · rw [hsum, hwhole] at hfull
    refine ⟨h.logs, ?_, ?_⟩
    · dsimp only
      rw [hsum, Nat.add_div_right _ (by decide)]
      omega
    · dsimp only
      omega

/-- The account of the leaves is about the directories, the headers and the blocks in use. -/
theorem Worker.Enumerated.congr {s s' : Worker} {c c' : BlockCuts} {given : List (BlockKind × Nat)}
    (h : s.Enumerated c given) (hfilled : s'.Filled c') (halc : s'.alc = s.alc) (hmem : s'.mem = s.mem)
    (hlogs : s'.taken .log = s.taken .log) : s'.Enumerated c' given := by
  have hnodes : s'.taken .node = s.taken .node := by rw [hfilled.node_taken, h.filled.node_taken, halc]
  have hheader : ∀ kind j, j < s.taken kind → s'.alc.header c' kind j = s.alc.header c kind j := by
    intro kind j hj
    rw [halc]
    exact h.filled.kept.listed.header_eq (halc ▸ hfilled.kept.listed) (hj.trans_le (h.filled.taken_le kind))
  have hbytes : ∀ j, j < s.taken .node → s'.bytesIn c' j = s.bytesIn c j := by
    intro j hj
    rw [Worker.bytesIn, Worker.bytesIn, hheader _ j hj, hmem]
  refine ⟨hfilled, fun j hj => ?_, ?_, fun p hp => ?_⟩
  · rw [hnodes] at hj
    rw [hbytes j hj]
    exact h.whole j hj
  · rw [h.leaves, hnodes]
    apply List.flatMap_congr
    intro j hj
    have hlt := List.mem_range.mp hj
    rw [hheader _ j hlt, hbytes j hlt]
  · obtain ⟨j, hj, rfl⟩ := h.logs p hp
    exact ⟨j, hlogs ▸ hj, by rw [hheader _ j hj]⟩

namespace Logger

/-- The pool that starts at `start` holds these records and these leaves. -/
structure Stocked (maxVersion : Nat) (s : Logger) (start : Nat) (recs : List (LogEntry × Nat))
    (leaves : List Nat) : Prop where
  logged : ∃ c content, s.Logged .plain c content recs
  enumerated : ∃ c given, s.worker.Enumerated c given ∧ addressesOf .node given = leaves
  served : ∃ d c, s.worker.alc.Serves s.worker.mem start d c ∧
    d.Within maxVersion recs.length leaves.length s.worker.seg.tempOffset

variable {s s' : Logger} {maxVersion start : Nat} {recs : List (LogEntry × Nat)} {leaves : List Nat}
  {e : LogEntry} {node : Nat}

theorem Stocked.startAddress (h : s.Stocked maxVersion start recs leaves) :
    s.worker.alc.startAddress = start := by
  obtain ⟨d, c, hserves, -⟩ := h.served
  exact hserves.start_eq

theorem Stocked.end_le (h : s.Stocked maxVersion start recs leaves) (hversion : 0 < recordsPer maxVersion)
    {n : Nat} (hrecords : recs.length ≤ n) (hleaves : leaves.length ≤ n) :
    s.worker.alc.endAddress ≤ start + poolFor maxVersion n := by
  obtain ⟨d, c, hserves, hwithin⟩ := h.served
  rw [hserves.end_eq]
  exact Nat.add_le_add_left (hwithin.bytes_le hversion hrecords hleaves) _

theorem taken_lt {c : BlockCuts} (h : s.worker.Filled c) (hend : s.worker.alc.endAddress ≤ 2 ^ 48)
    (kind : BlockKind) : s.worker.taken kind < 2 ^ 22 := by
  have htaken := h.taken_le kind
  have hcount := h.kept.listed.exact.count_le_total kind
  rw [h.kept.listed.end_eq] at hend
  simp only [blockAt, CHUNK_SIZE] at hend
  omega

theorem Stocked.demand_lt {d : Demand} {c : BlockCuts} (h : s.worker.alc.Serves s.worker.mem start d c)
    (hend : s.worker.alc.endAddress ≤ 2 ^ 48) : d.nodes < 2 ^ 32 ∧ d.logs + 1 < 2 ^ 32 := by
  rw [h.end_eq] at hend
  have hbytes : d.bytes ≤ 2 ^ 48 := (Nat.le_add_left _ _).trans hend
  exact Demand.lt_of_bytes hbytes (by decide)

/-- One record more. -/
theorem Stocked.append (h : s.Stocked maxVersion start recs leaves) (hend : s.worker.alc.endAddress ≤ 2 ^ 48)
    (he : e.version.toNat ≤ maxVersion) :
    ∃ node s', s.call .plain (.append e) = some ([(e, node)], s') ∧
      s'.Stocked maxVersion start (recs ++ [(e, node)]) leaves := by
  obtain ⟨c, content, hlogged⟩ := h.logged
  obtain ⟨c₁, given, henum, hleaves⟩ := h.enumerated
  obtain ⟨d, c₂, hserves, hwithin⟩ := h.served
  have htaken := fun kind => taken_lt hlogged.filled hend kind
  obtain ⟨-, hids⟩ := Stocked.demand_lt hserves hend
  obtain ⟨new, s', c₃, hcall, -, hnext⟩ := call_returns .plain s hlogged.filled.kept (.append e)
  -- no count of blocks passes `2 ^ 32` in a pool of this size
  have hwrap : ∀ kind, s'.worker.taken kind ≤ 2 ^ 32 := by
    intro kind
    have hlt := htaken kind
    have hle := hnext kind
    omega
  obtain ⟨c', content', hlogged'⟩ := hlogged.call (Nat.zero_le _) hcall hwrap
  obtain ⟨⟨piece, w⟩, hwork, hs'⟩ := Option.bind_eq_some_iff.mp hcall
  rw [Option.pure_def, Option.some.injEq, Prod.mk.injEq] at hs'
  obtain ⟨rfl, rfl⟩ := hs'
  refine ⟨piece.2.base, _, hcall, ⟨c', content', hlogged'⟩, ?_, ?_⟩
  · rcases Worker.call_append_cases hwork with ⟨hseg, logStart, a, m, hlog, -, rfl⟩ | ⟨hseg, -, rfl⟩
    · -- a record that opens a segment is a request for a log block
      obtain ⟨w', c'', hstep⟩ := henum.filled.logStep segmentSize ((htaken .log).trans (by decide))
      obtain ⟨p, heval, henum'⟩ := hstep.enumerated henum
      obtain ⟨-, rfl, rfl⟩ : logStart = p ∧ a = w'.alc ∧ m = w'.mem := by
        simpa only [Option.some.injEq, Prod.mk.injEq] using hlog.symm.trans heval
      refine ⟨c', _, henum'.congr hlogged'.filled rfl rfl ?_, ?_⟩
      · exact (hlogged.filled.append_taken hseg hwork).trans hstep.logs.symm
      · rw [addressesOf_append, addressesOf_of_ne (by decide), List.append_nil, hleaves]
    · exact ⟨c', given, henum.congr hlogged'.filled rfl rfl (congrFun (Worker.account_same rfl) _), hleaves⟩
  · have hone : logNodeSize / logNodeSize = 1 := by decide
    have hpos : 0 < logNodeSize := by decide
    rw [List.length_append, List.length_singleton]
    rcases Worker.call_append_cases hwork with ⟨hseg, logStart, a, m, hlog, -, rfl⟩ | ⟨hseg, -, rfl⟩
    · obtain ⟨p, a', m', c'', heval, hserves', -⟩ := hserves.serve_log segmentSize hids
      obtain ⟨-, rfl, rfl⟩ : logStart = p ∧ a = a' ∧ m = m' := by
        simpa only [Option.some.injEq, Prod.mk.injEq] using hlog.symm.trans heval
      refine ⟨_, c'', hserves', ?_, hwithin.nodes, hwithin.fill⟩
      change (d.logs + 1 - 1) * _ + logNodeSize / logNodeSize ≤ recs.length + 1
      rw [Nat.add_sub_cancel, hone]
      -- a segment that a record of this version does not fit into has taken many records
      have hlogs : d.logs = s.worker.taken .log := by
        rw [← hserves.logs, hlogged.filled.log_taken, BitVec.toNat_ofNat,
          Nat.mod_eq_of_lt ((htaken .log).trans (by decide))]
      rcases Nat.eq_zero_or_pos (s.worker.taken .log) with hz | hsegs
      · rw [hlogs, hz, Nat.zero_mul]
        omega
      · have hvec : s.worker.seg.logVec ≠ 0 := by
          rw [(hlogged.filled.seg_at hsegs).1]
          exact Nat.ne_of_gt (Nat.add_pos_right _ (by decide))
        have hfull := hseg.resolve_right hvec
        have hmany : recordsPer maxVersion ≤ s.worker.seg.tempOffset / logNodeSize :=
          Nat.div_le_div_right (by omega)
        obtain ⟨n, hn⟩ : ∃ n, d.logs = n + 1 := ⟨d.logs - 1, by omega⟩
        have hbefore := hwithin.logs
        rw [hn, Nat.add_sub_cancel] at hbefore
        rw [hn, Nat.succ_mul]
        omega
    · refine ⟨d, c₂, hserves, ?_, hwithin.nodes, hwithin.fill⟩
      change _ + (s.worker.seg.tempOffset + logNodeSize) / logNodeSize ≤ _
      rw [Nat.add_div_right _ hpos]
      exact Nat.succ_le_succ hwithin.logs

/-- One leaf more. -/
theorem Stocked.leaf (h : s.Stocked maxVersion start recs leaves) (hend : s.worker.alc.endAddress ≤ 2 ^ 48) :
    ∃ piece w, s.worker.call (.tree pLeafSize) = some (piece, w) ∧
      Stocked maxVersion ⟨w, s.bytes⟩ start recs (leaves ++ [piece.2.base]) := by
  obtain ⟨c, content, hlogged⟩ := h.logged
  obtain ⟨c₁, given, henum, hleaves⟩ := h.enumerated
  obtain ⟨d, c₂, hserves, hwithin⟩ := h.served
  have htaken := fun kind => taken_lt hlogged.filled hend kind
  obtain ⟨hids, hids'⟩ := Stocked.demand_lt hserves hend
  have hfits : WorkerCall.Fits (.tree pLeafSize) := by decide
  obtain ⟨piece, w, c₃, hcall, -, hnext⟩ := Worker.call_returns hlogged.filled.kept (.tree pLeafSize)
  have hwrap : ∀ kind, w.taken kind ≤ 2 ^ 32 := by
    intro kind
    have hlt := htaken kind
    have hle := hnext kind
    omega
  obtain ⟨c', j, htook⟩ := hlogged.filled.took hfits hcall hwrap
  obtain ⟨⟨address, a, m⟩, hserve, hw⟩ := Option.bind_eq_some_iff.mp hcall
  simp only [Option.pure_def, Option.some.injEq, Prod.mk.injEq] at hw
  obtain ⟨rfl, rfl⟩ := hw
  refine ⟨_, _, hcall, ⟨c', content, hlogged.tree htook⟩, ?_, ?_⟩
  · obtain ⟨w', c'', j', hstep⟩ := henum.filled.treeStep hfits.1 hfits.2 ((htaken .node).trans (by decide))
    obtain ⟨p, heval, henum'⟩ := hstep.enumerated rfl henum
    obtain ⟨rfl, rfl, rfl⟩ : address = p ∧ a = w'.alc ∧ m = w'.mem := by
      simpa only [Option.some.injEq, Prod.mk.injEq] using hserve.symm.trans heval
    refine ⟨c', _, henum'.congr htook.filled rfl rfl ?_, ?_⟩
    · refine Eq.trans ?_ hstep.logs.symm
      change s.worker.account w'.alc .node .log = _
      rw [Worker.account]
      split
      · rfl
      · exact Function.update_of_ne (by decide) _ _
    · rw [addressesOf_append, addressesOf_self, hleaves]
  · obtain ⟨p, a', m', c'', heval, hserves', -⟩ := hserves.serve ⟨.node, pLeafSize⟩ hids hids'
    obtain ⟨-, rfl, rfl⟩ : address = p ∧ a = a' ∧ m = m' := by
      simpa only [Option.some.injEq, Prod.mk.injEq] using hserve.symm.trans heval
    have hnodes : 0 < d.nodes := by
      rw [← hserves.nodes]
      exact Nat.succ_pos _
    rw [List.length_append, List.length_singleton]
    exact ⟨_, c'', hserves', hwithin.leaf hnodes⟩

theorem Stocked.setVal (h : s.Stocked maxVersion start recs leaves) (hmem : (e, node) ∈ recs) (v : Word) :
    ∃ before behind, recs = before ++ (e, node) :: behind ∧
      (s.setVal node v).Stocked maxVersion start (before ++ (e.withVal v, node) :: behind) leaves := by
  obtain ⟨c, content, hlogged⟩ := h.logged
  obtain ⟨before, behind, content', hsplit, hlogged'⟩ := hlogged.setVal hmem v
  refine ⟨before, behind, hsplit, ⟨c, content', hlogged'⟩, h.enumerated, ?_⟩
  have hlength : (before ++ (e.withVal v, node) :: behind).length = recs.length := by
    rw [hsplit, List.length_append, List.length_append, List.length_cons, List.length_cons]
  rw [hlength]
  exact h.served

theorem start_stocked (maxVersion : Nat) {address : Nat} {m : Headers} {o : Bytes} (hzero : Zeroed address m o) :
    (Logger.start address m o).Stocked maxVersion address [] [] := by
  refine ⟨⟨_, _, start_logged .plain hzero⟩, ⟨_, [], Worker.start_enumerated address m, rfl⟩,
    Demand.start, NAlc.firstCuts, (NAlc.init_serves address m).1, ?_⟩
  refine ⟨?_, ?_, Nat.zero_le _⟩
  · change 0 * recordsPer maxVersion + 0 / logNodeSize ≤ 0
    rw [Nat.zero_mul, Nat.zero_div]
  · change 0 * leavesPer + 0 / pleafSize ≤ 0
    rw [Nat.zero_mul, Nat.zero_div]

/-! ### What the pool shows -/

theorem Stocked.record_within (h : s.Stocked maxVersion start recs leaves) (hmem : (e, node) ∈ recs) :
    start + 1024 ≤ node ∧ node + logNodeSize ≤ s.worker.alc.endAddress := by
  obtain ⟨c, content, hlogged⟩ := h.logged
  rw [hlogged.records] at hmem
  obtain ⟨j, hj, hplaced⟩ := List.mem_flatMap.mp hmem
  have hlt := List.mem_range.mp hj
  obtain ⟨hlow, hhigh⟩ := Codec.placed_within hplaced
  have hwidth : LogBuild.plain.codec.width e = logNodeSize := rfl
  have hroom := hlogged.room j hlt
  have hplace := hlogged.filled.kept.listed.exact.place_lt (hlt.trans_le (hlogged.filled.taken_le .log))
  have hnext : blockAt start (c.place .log j) + CHUNK_SIZE ≤ s.worker.alc.endAddress := by
    rw [hlogged.filled.kept.listed.end_eq, h.startAddress, ← blockAt_succ]
    exact blockAt_le_iff.mpr (Nat.succ_le_of_lt hplace)
  have hstart : start + 1024 ≤ blockAt start (c.place .log j) := Nat.le_add_right _ _
  have hblock : baseMetaSize + DSeg.logEnd = CHUNK_SIZE := by decide
  have hdata : s.dataAt c j = blockAt start (c.place .log j) + baseMetaSize := by
    rw [dataAt, NAlc.header, h.startAddress]
  dsimp only at hlow hhigh
  omega

theorem Stocked.record_read (h : s.Stocked maxVersion start recs leaves) (hmem : (e, node) ∈ recs) :
    s.bytes.get64 (node + logKeyOffset) = e.key ∧ s.bytes.get64 (node + logKeyOffset + 8) = e.val := by
  obtain ⟨c, content, hlogged⟩ := h.logged
  rw [hlogged.records] at hmem
  obtain ⟨j, hj, hplaced⟩ := List.mem_flatMap.mp hmem
  exact hlogged.image.record_read (p := (e, node)) (List.mem_range.mp hj) hplaced

theorem Stocked.records_nodup (h : s.Stocked maxVersion start recs leaves) : (recs.map Prod.snd).Nodup := by
  obtain ⟨c, content, hlogged⟩ := h.logged
  rw [hlogged.records]
  exact hlogged.image.addresses_nodup

theorem Stocked.leaf_within (h : s.Stocked maxVersion start recs leaves) {q : Nat} (hq : q ∈ leaves) :
    start + 1024 ≤ q ∧ q + pleafSize ≤ s.worker.alc.endAddress := by
  obtain ⟨c, given, henum, rfl⟩ := h.enumerated
  rw [henum.leaves] at hq
  obtain ⟨j, hj, hleaf⟩ := List.mem_flatMap.mp hq
  have hlt := (List.mem_range.mp hj).trans_le (henum.filled.taken_le .node)
  obtain ⟨i, hi, rfl⟩ := List.mem_map.mp hleaf
  have hlast := List.mem_range.mp hi
  have hbytes : s.worker.bytesIn c j ≤ dataSize := ((henum.filled.marked .node j hlt).node rfl).2.1
  obtain ⟨n, hn⟩ := henum.whole j (List.mem_range.mp hj)
  have hplace := henum.filled.kept.listed.exact.place_lt hlt
  have hnext : blockAt start (c.place .node j) + CHUNK_SIZE ≤ s.worker.alc.endAddress := by
    rw [henum.filled.kept.listed.end_eq, h.startAddress, ← blockAt_succ]
    exact blockAt_le_iff.mpr (Nat.succ_le_of_lt hplace)
  have hstart : start + 1024 ≤ blockAt start (c.place .node j) := Nat.le_add_right _ _
  have hblock : baseMetaSize + dataSize = CHUNK_SIZE := by decide
  have hheader : s.worker.alc.header c .node j = blockAt start (c.place .node j) := by
    rw [NAlc.header, h.startAddress]
  unfold pleafSize at hn hlast ⊢
  omega

theorem Stocked.leaves_nodup (h : s.Stocked maxVersion start recs leaves) : leaves.Nodup := by
  obtain ⟨c, given, henum, rfl⟩ := h.enumerated
  exact henum.nodup

end Logger

end ZBTree
