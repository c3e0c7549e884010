import ZBTree.LogReplay

/-!
# Reading a log of values back

In the `LONGVAL` build `append_one` moves on by the `Log_Node` and the value behind it, but the
scan still moves on by the `Log_Node` alone. It meets the records where they are only in segments
with a single record whose value has zeros where the scan looks for the next version.
-/

namespace ZBTree

section Block

variable {o : Bytes} {base : Nat} {l : List LogEntry}

/-- What the scan takes for the version of a second record is part of the first value. -/
theorem version_in_value {e : LogEntry} (h : LogBuild.longval.codec.Stored o base dataSize [e]) :
    o.get32 (base + logNodeSize + 4) = 0 ↔
      ∀ i, 4 ≤ i → i < 8 → i < e.version.toNat → e.value i = 0 := by
  have hsize : logNodeSize = 32 := rfl
  have hdata : 64 ≤ dataSize := by decide
  have hwidth : LogBuild.longval.codec.width e = logNodeSize + e.version.toNat := rfl
  have hbyte : ∀ d, d < 4 → o (base + logNodeSize + 4 + d) =
      if 4 + d < e.version.toNat then e.value (4 + d) else 0 := by
    intro d hd
    have hread := h (logNodeSize + (4 + d)) (by omega)
    rw [← Nat.add_assoc, ← Nat.add_assoc, Codec.image] at hread
    rw [hread]
    by_cases hin : 4 + d < e.version.toNat
    · rw [if_pos hin, if_pos (by omega), LogBuild.byte_tail]
    · rw [if_neg hin, if_neg (by omega)]
      rfl
  rw [Bytes.get32_eq_zero]
  constructor
  · intro hzero i hlow hhigh hin
    obtain ⟨d, rfl⟩ := Nat.exists_eq_add_of_le hlow
    have hd : d < 4 := by omega
    rw [← hzero d hd, hbyte d hd, if_pos hin]
  · intro hvalue d hd
    rw [hbyte d hd]
    by_cases hin : 4 + d < e.version.toNat
    · rw [if_pos hin, hvalue (4 + d) (Nat.le_add_right _ _) (by omega) hin]
    · rw [if_neg hin]

/-- The scan of a segment visits exactly its records if there is one and its value has zeros
there. -/
theorem scanBlock_long (h : LogBuild.longval.codec.Stored o base dataSize l) (hne : l ≠ [])
    (hversion : ∀ e ∈ l, e.version ≠ 0) {n : Nat} :
    scanBlock o (n + 2) base = (LogBuild.longval.codec.placed base l).map Prod.snd ↔
      ∃ e, l = [e] ∧ ∀ i, 4 ≤ i → i < 8 → i < e.version.toNat → e.value i = 0 := by
  obtain ⟨e, rest, rfl⟩ := List.exists_cons_of_ne_nil hne
  have hfirst : o.get32 (base + 4) = e.version := stored_version h (by decide)
  have he := hversion e List.mem_cons_self
  rw [scanBlock, hfirst, if_neg he, scanBlock, Codec.placed, List.map_cons, List.cons.injEq,
    eq_self, true_and]
  cases rest with
  | nil =>
    rw [Codec.placed, List.map_nil]
    constructor
    · intro hstop
      refine ⟨e, rfl, (version_in_value h).mp ?_⟩
      by_contra hgo
      rw [if_neg hgo] at hstop
      exact absurd hstop (List.cons_ne_nil _ _)
    · rintro ⟨e', heq, hvalue⟩
      rw [List.cons.injEq] at heq
      obtain ⟨rfl, -⟩ := heq
      exact if_pos ((version_in_value h).mpr hvalue)
  | cons e' rest =>
    constructor
    · intro hvisited
      rw [Codec.placed, List.map_cons] at hvisited
      split at hvisited
      · exact absurd hvisited.symm (List.cons_ne_nil _ _)
      · -- the second record stands behind the value of the first one
        have hstep := (List.cons.inj hvisited).1
        have hpos : 0 < e.version.toNat :=
          Nat.pos_of_ne_zero fun hz => he (BitVec.eq_of_toNat_eq hz)
        have hwidth : LogBuild.longval.codec.width e = logNodeSize + e.version.toNat := rfl
        dsimp only at hstep
        omega
    · rintro ⟨e'', heq, -⟩
      exact absurd (List.cons.inj heq).2 (List.cons_ne_nil _ _)

end Block

theorem flatMap_range_single {α : Type*} (x : List α) {n j : Nat} (hj : j < n) :
    (List.range n).flatMap (fun i => if i = j then x else []) = x := by
  induction n with
  | zero => exact absurd hj (Nat.not_lt_zero _)
  | succ n ih =>
    rw [List.range_succ, List.flatMap_append, List.flatMap_singleton]
    rcases Nat.lt_succ_iff_lt_or_eq.mp hj with hlt | rfl
    · rw [ih hlt, if_neg (Nat.ne_of_gt hlt), List.append_nil]
    · have hbefore : (List.range j).flatMap (fun i => if i = j then x else []) = [] := by
        rw [List.flatMap_eq_nil_iff]
        intro i hi
        exact if_neg (Nat.ne_of_lt (List.mem_range.mp hi))
      rw [hbefore, if_pos rfl, List.nil_append]

theorem LogBuild.segments_ne_nil (b : LogBuild) (es : List LogEntry) :
    ∀ seg ∈ b.segments es, seg ≠ [] := by
  induction es using List.reverseRecOn with
  | nil => exact fun seg hseg => absurd hseg List.not_mem_nil
  | append_singleton es e ih =>
    intro seg hseg
    rw [b.segments_concat] at hseg
    unfold LogBuild.fill at hseg
    split at hseg
    · rw [List.mem_singleton.mp hseg]
      exact List.cons_ne_nil _ _
    · rename_i last rest hlast
      rw [hlast] at ih
      split at hseg
      · rcases List.mem_cons.mp hseg with rfl | hold
        · exact List.cons_ne_nil _ _
        · exact ih seg hold
      · rcases List.mem_cons.mp hseg with rfl | hold
        · exact List.append_ne_nil_of_right_ne_nil _ (List.cons_ne_nil _ _)
        · exact ih seg (List.mem_cons_of_mem _ hold)

namespace Logger

variable {s : Logger} {c : BlockCuts} {content : Nat → List LogEntry}
  {recs : List (LogEntry × Nat)} {blocks : List Nat}

def inBlock (recs : List (LogEntry × Nat)) (header : Nat) : List (LogEntry × Nat) :=
  recs.filter fun p => header ≤ p.2 ∧ p.2 < header + CHUNK_SIZE

/-- The scan of each block in use visits exactly the addresses at which records were placed in
it, and reads their keys, in order. -/
structure Decodes (s : Logger) (recs : List (LogEntry × Nat)) (blocks : List Nat) : Prop where
  visited : ∀ header ∈ blocks, (s.worker.mem header).bitmap ≠ 0 →
    scanBlock s.bytes DSeg.logEnd (s.worker.mem header).startAddress =
      (inBlock recs header).map Prod.snd
  keys : ∀ header ∈ blocks, (s.worker.mem header).bitmap ≠ 0 →
    (scanBlock s.bytes DSeg.logEnd (s.worker.mem header).startAddress).map
        (fun node => s.bytes.get64 (node + logKeyOffset)) =
      (inBlock recs header).map fun p => p.1.key

/-- Each segment has one record, and bytes 4 to 7 of its value, as far as there are such, are
zero. -/
def OneShortRead (es : List LogEntry) : Prop :=
  ∀ seg ∈ LogBuild.longval.segments es, ∃ e, seg = [e] ∧
    ∀ i, 4 ≤ i → i < 8 → i < e.version.toNat → e.value i = 0

/-- The records in the block of segment `j` are those of the segment. -/
theorem Logged.inBlock_eq (h : s.Logged .longval c content recs) {j : Nat} (hj : j < s.segs) :
    inBlock recs (blockAt s.worker.alc.startAddress (c.place .log j)) =
      LogBuild.longval.codec.placed (s.dataAt c j) (content j) := by
  have hwithin : ∀ i, i < s.segs → ∀ p ∈ LogBuild.longval.codec.placed (s.dataAt c i) (content i),
      blockAt s.worker.alc.startAddress (c.place .log i) ≤ p.2 ∧
        p.2 < blockAt s.worker.alc.startAddress (c.place .log i + 1) := by
    intro i hi p hp
    have hplaced := Codec.placed_within hp
    have hpos := LogBuild.longval.width_pos p.1
    have hroom := h.room i hi
    have hsize : baseMetaSize + DSeg.logEnd = CHUNK_SIZE := by decide
    have hdata : s.dataAt c i =
      blockAt s.worker.alc.startAddress (c.place .log i) + baseMetaSize := rfl
    rw [blockAt_succ]
    omega
  have hothers : ∀ i, i < s.segs → (LogBuild.longval.codec.placed (s.dataAt c i) (content i)).filter
      (fun p => decide (blockAt s.worker.alc.startAddress (c.place .log j) ≤ p.2 ∧
        p.2 < blockAt s.worker.alc.startAddress (c.place .log j) + CHUNK_SIZE)) =
      if i = j then LogBuild.longval.codec.placed (s.dataAt c j) (content j) else [] := by
    intro i hi
    by_cases hij : i = j
    · subst hij
      rw [if_pos rfl, List.filter_eq_self]
      intro p hp
      rw [← blockAt_succ]
      exact decide_eq_true (hwithin i hi p hp)
    · rw [if_neg hij, List.filter_eq_nil_iff]
      intro p hp hin
      have hpi := hwithin i hi p hp
      rw [← blockAt_succ, decide_eq_true_eq] at hin
      have hlt := blockAt_lt_iff.mp (hpi.1.trans_lt hin.2)
      have hlt' := blockAt_lt_iff.mp (hin.1.trans_lt hpi.2)
      have hcount := fun k (hk : k < s.segs) => Nat.lt_of_lt_of_le hk (h.filled.taken_le .log)
      have hplace : c.place .log i = c.place .log j := by omega
      exact hij (h.filled.kept.listed.exact.place_inj (hcount i hi) (hcount j hj) hplace).2
  rw [inBlock, h.records, List.filter_flatMap]
  rw [List.flatMap_congr fun i hi => hothers i (List.mem_range.mp hi)]
  exact flatMap_range_single _ hj

theorem Logged.decodes_iff (h : s.Logged .longval c content recs)
    (hversion : ∀ p ∈ recs, p.1.version ≠ 0)
    (hcovers : Covers s.worker.mem s.worker.alc.startAddress c s.segs blocks) :
    s.Decodes recs blocks ↔ OneShortRead (recs.map Prod.fst) := by
  have hfuel : DSeg.logEnd = DSeg.logEnd - 2 + 2 := by decide
  -- a segment has records, and they are among those of the run
  have hmem : ∀ j, j < s.segs → content j ∈ LogBuild.longval.segments (recs.map Prod.fst) := by
    intro j hj
    rw [h.segments, List.mem_reverse]
    exact List.mem_map_of_mem (List.mem_range.mpr hj)
  have hversions : ∀ j, j < s.segs → ∀ e ∈ content j, e.version ≠ 0 := by
    intro j hj e he
    rw [← Codec.placed_fst LogBuild.longval.codec (s.dataAt c j) (content j)] at he
    obtain ⟨p, hp, rfl⟩ := List.mem_map.mp he
    apply hversion p
    rw [h.records]
    exact List.mem_flatMap.mpr ⟨j, List.mem_range.mpr hj, hp⟩
  have hblock : ∀ j, j < s.segs →
      (scanBlock s.bytes DSeg.logEnd (s.dataAt c j) =
        (LogBuild.longval.codec.placed (s.dataAt c j) (content j)).map Prod.snd ↔
      ∃ e, content j = [e] ∧ ∀ i, 4 ≤ i → i < 8 → i < e.version.toNat → e.value i = 0) := by
    intro j hj
    rw [hfuel]
    exact scanBlock_long (h.stored j hj) (LogBuild.segments_ne_nil _ _ _ (hmem j hj))
      (hversions j hj)
  have hdata : ∀ j, j < s.segs →
      (s.worker.mem (blockAt s.worker.alc.startAddress (c.place .log j))).startAddress =
        s.dataAt c j := fun j hj => (h.used hj).2
  constructor
  · -- the scan shows all records of a segment, though after the first its stride is wrong
    intro hdecodes seg hseg
    rw [h.segments, List.mem_reverse] at hseg
    obtain ⟨j, hj, rfl⟩ := List.mem_map.mp hseg
    rw [List.mem_range] at hj
    have hvisited := hdecodes.visited _ (hcovers.all j hj) (h.used hj).1
    rw [h.inBlock_eq hj, hdata j hj] at hvisited
    exact (hblock j hj).mp hvisited
  · intro hshort
    -- one record, and what is read behind it has the version 0
    have hvisited : ∀ j, j < s.segs → scanBlock s.bytes DSeg.logEnd (s.dataAt c j) =
        (LogBuild.longval.codec.placed (s.dataAt c j) (content j)).map Prod.snd := fun j hj =>
      (hblock j hj).mpr (hshort _ (hmem j hj))
    constructor
    · intro header hheader hused
      obtain ⟨j, hj, rfl⟩ := hcovers.used header hheader hused
      rw [h.inBlock_eq hj, hdata j hj]
      exact hvisited j hj
    · intro header hheader hused
      obtain ⟨j, hj, rfl⟩ := hcovers.used header hheader hused
      obtain ⟨e, hone, -⟩ := hshort _ (hmem j hj)
      have hstored := h.stored j hj
      rw [h.inBlock_eq hj, hdata j hj, hvisited j hj, hone]
      rw [hone] at hstored
      simp only [Codec.placed, List.map_cons, List.map_nil]
      rw [stored_key hstored (by decide)]

end Logger

/-- After any run of the `LONGVAL` build in a zero-filled pool, with versions from 1 on, the scan
meets exactly the records that were placed exactly if each segment has one record and the word
behind its `Log_Node` that the scan takes for a version is zero. -/
theorem long_log_decodes_iff {address : Nat} {m : Headers} {o : Bytes}
    (hzero : Logger.Zeroed address m o) {ops : List LoggerCall}
    (hfits : ∀ op ∈ ops, op.Fits .longval) (hversion : ∀ e ∈ Logger.appended ops, e.version ≠ 0) :
    ∃ recs s, (Logger.start address m o).run .longval ops = some (recs, s) ∧
      ∀ poolLen, s.InPool address poolLen → ∀ a blocks,
        a = s.worker.alc ∨ a = NAlc.reopen s.worker.mem address poolLen →
        a.Lists s.worker.mem blocks →
        (s.Decodes recs blocks ↔ Logger.OneShortRead (Logger.appended ops)) := by
  have hstart := Logger.start_logged .longval hzero
  have haddress : (Logger.start address m o).worker.alc.startAddress = address :=
    NAlc.init_startAddress address m
  obtain ⟨recs, s, c, hrun, hlater⟩ := Logger.run_returns .longval _ hstart.filled.kept ops
  refine ⟨recs, s, hrun, fun poolLen hpool a blocks ha hlists => ?_⟩
  have hbase : s.worker.alc.startAddress = address := hlater.start.trans haddress
  have hsmall : s.worker.alc.endAddress < blockAt s.worker.alc.startAddress (2 ^ 32) := by
    obtain ⟨-, htotal⟩ := hpool.total_le (hbase ▸ hlater.kept.listed.end_eq)
    rw [hlater.kept.listed.end_eq, blockAt_lt_iff]
    omega
  obtain ⟨c', content, h⟩ := hstart.run hfits hrun hsmall
  rw [List.nil_append] at h
  have hcovers : Covers s.worker.mem s.worker.alc.startAddress c' s.segs blocks := by
    rcases ha with rfl | rfl
    · exact h.covers hlists
    · rw [hbase]
      exact h.covers_reopened hbase hpool hlists
  have hversions : ∀ p ∈ recs, p.1.version ≠ 0 := fun p hp =>
    hversion p.1 (Logger.run_entries hrun ▸ List.mem_map_of_mem hp)
  rw [h.decodes_iff hversions hcovers, Logger.run_entries hrun]

/-- An insertion of a value of `n` zero bytes. -/
def longEntry (key : Key) (n : BitVec 32) : LogEntry := ⟨key, 0, 0, LOG_INSERT, n, Bytes.zero⟩

/-- A value of 100 zero bytes and one that does not fit behind it, in a new pool of a gigabyte: each has a
segment of its own. -/
theorem long_log_decodes_two :
    ∃ recs s, (Logger.start mmapStart (fun _ => BaseMeta.zero) Bytes.zero).run .longval
        [.append (longEntry 1 100), .append (longEntry 2 segmentSize)] = some (recs, s) ∧ recs.length = 2 ∧
      ∀ blocks, s.worker.alc.Lists s.worker.mem blocks → s.Decodes recs blocks := by
  let ops : List LoggerCall := [.append (longEntry 1 100), .append (longEntry 2 segmentSize)]
  have hfits : ∀ op ∈ ops, op.Fits .longval := by
    intro op hop
    rcases List.mem_pair.mp hop with rfl | rfl
    · change (100 : BitVec 32).toNat ≤ segmentSize.toNat
      decide
    · exact Nat.le_refl _
  have hversion : ∀ e ∈ Logger.appended ops, e.version ≠ 0 := by
    intro e he
    rcases List.mem_pair.mp he with rfl | rfl
    · decide
    · decide
  obtain ⟨recs, s, hrun, hdecodes⟩ :=
    long_log_decodes_iff (Logger.zeroed_zero mmapStart) hfits hversion
  have hend : ((Logger.start mmapStart (fun _ => BaseMeta.zero) Bytes.zero).run .longval ops).map
      (fun r => r.2.worker.alc.endAddress) = some (mmapStart + 1024 + 8 * CHUNK_SIZE) := by
    decide +kernel
  rw [hrun, Option.map_some, Option.some.injEq] at hend
  have hlen : recs.length = 2 := by
    rw [← List.length_map (f := Prod.fst), Logger.run_entries hrun]
    rfl
  refine ⟨recs, s, hrun, hlen, fun blocks hlists => ?_⟩
  apply (hdecodes (2 ^ 30) ⟨by decide, by rw [hend]; decide⟩ _ blocks (Or.inl rfl) hlists).mpr
  have hsegments : LogBuild.longval.segments (Logger.appended ops) =
      [[longEntry 2 segmentSize], [longEntry 1 100]] := by
    have hfull : DSeg.logEnd ≤ LogBuild.longval.codec.extent [longEntry 1 100] + logNodeSize +
        (longEntry 2 segmentSize).version.toNat := by
      decide +kernel
    show LogBuild.longval.fill [[longEntry 1 100]] (longEntry 2 segmentSize) = _
    rw [LogBuild.fill, if_pos hfull]
  intro seg hseg
  rw [hsegments] at hseg
  rcases List.mem_pair.mp hseg with rfl | rfl
  · exact ⟨_, rfl, fun _ _ _ _ => rfl⟩
  · exact ⟨_, rfl, fun _ _ _ _ => rfl⟩

/-- Two values of eight bytes: the scan looks for the second record in the first value. -/
theorem long_log_misses_second :
    ∃ recs s blocks, (Logger.start mmapStart (fun _ => BaseMeta.zero) Bytes.zero).run .longval
        [.append (longEntry 1 8), .append (longEntry 2 8)] = some (recs, s) ∧
      s.worker.alc.Lists s.worker.mem blocks ∧ ¬ s.Decodes recs blocks := by
  let ops : List LoggerCall := [.append (longEntry 1 8), .append (longEntry 2 8)]
  have hfits : ∀ op ∈ ops, op.Fits .longval := by
    intro op hop
    rcases List.mem_pair.mp hop with rfl | rfl
    · change (8 : BitVec 32).toNat ≤ segmentSize.toNat
      decide
    · change (8 : BitVec 32).toNat ≤ segmentSize.toNat
      decide
  have hversion : ∀ e ∈ Logger.appended ops, e.version ≠ 0 := by
    intro e he
    rcases List.mem_pair.mp he with rfl | rfl
    · decide
    · decide
  have hstart := Logger.start_logged .longval (Logger.zeroed_zero mmapStart)
  obtain ⟨recs, s, c, hrun, -⟩ := Logger.run_returns .longval _ hstart.filled.kept ops
  have hend : ((Logger.start mmapStart (fun _ => BaseMeta.zero) Bytes.zero).run .longval ops).map
      (fun r => (r.2.worker.alc.endAddress, r.2.worker.alc.startAddress)) =
        some (mmapStart + 1024 + 8 * CHUNK_SIZE, mmapStart) := by
    decide +kernel
  rw [hrun, Option.map_some, Option.some.injEq, Prod.mk.injEq] at hend
  obtain ⟨hend, hbase⟩ := hend
  obtain ⟨c', content, h⟩ := hstart.run hfits hrun (by rw [hend, hbase]; decide)
  rw [List.nil_append] at h
  have hversions : ∀ p ∈ recs, p.1.version ≠ 0 := fun p hp =>
    hversion p.1 (Logger.run_entries hrun ▸ List.mem_map_of_mem hp)
  refine ⟨recs, s, _, hrun, h.lists, fun hdecodes => ?_⟩
  have hshort := (h.decodes_iff hversions (h.covers h.lists)).mp hdecodes
  rw [Logger.run_entries hrun] at hshort
  have hsegments : (LogBuild.longval.segments (Logger.appended ops)).map List.length = [2] := by
    decide +kernel
  obtain ⟨seg, rest, hsegs⟩ := List.exists_cons_of_ne_nil
    (show LogBuild.longval.segments (Logger.appended ops) ≠ [] by
      intro hnil
      rw [hnil] at hsegments
      exact absurd hsegments (by decide))
  obtain ⟨e, rfl, -⟩ := hshort seg (hsegs ▸ List.mem_cons_self)
  rw [hsegs, List.map_cons, List.cons.injEq] at hsegments
  exact absurd hsegments.1 (by simp)

end ZBTree
