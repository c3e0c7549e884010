import ZBTree.PersistentPools
import ZBTree.PoolRecovery
import ZBTree.Packing

/-!
# The records of a log

What `append_one` has written after any run, in the default build and in the `LONGVAL`
build, where the bytes of the value stand behind the `Log_Node`: each segment holds its
records end to end and zeros behind them.
-/

namespace ZBTree

/-- The arguments of an `append_one`; `value` is the memory that `out_val` points to when it
is a pointer. -/
structure LogEntry where
  key : Key
  val : Word
  pptr : Addr
  op : BitVec 8
  version : BitVec 32
  value : Bytes

/-- Whether `LONGVAL` is defined. -/
inductive LogBuild where
  | plain
  | longval
deriving DecidableEq, Repr

/-- The five stores of `append_one` into a `Log_Node`. -/
def LogEntry.stores (e : LogEntry) (node : Nat) : List (Bytes → Bytes) :=
  [fun o => o.put32 (node + 4) e.version,
    fun o => o.put64 (node + 8) (BitVec.ofNat 64 e.pptr),
    fun o => o.put8 (node + 2) e.op,
    fun o => o.put64 (node + logKeyOffset) e.key,
    fun o => o.put64 (node + logKeyOffset + 8) e.val]

/-- The memory after the first `n` stores. -/
def LogEntry.storeFirst (e : LogEntry) (n : Nat) (o : Bytes) (node : Nat) : Bytes :=
  ((e.stores node).take n).foldl (fun o store => store o) o

theorem LogEntry.storeFirst_all (e : LogEntry) (o : Bytes) (node : Nat) :
    e.storeFirst 5 o node = Nvm.writeLogNode o node e.key e.val e.pptr e.op e.version := rfl

namespace LogBuild

/-- The number of bytes behind the `Log_Node`. -/
def payload : LogBuild → LogEntry → Nat
  | plain, _ => 0
  | longval, e => e.version.toNat

/-- What `append_one` writes at `node`. -/
def write (b : LogBuild) (o : Bytes) (node : Nat) (e : LogEntry) : Bytes :=
  (e.storeFirst 5 o node).copyIn (node + logNodeSize) (b.payload e) e.value

end LogBuild

/-- `vec_start += n; temp_offset += n`. -/
def DSeg.skip (seg : DSeg) (n : Nat) : DSeg :=
  { seg with vecStart := seg.vecStart + n, tempOffset := seg.tempOffset + n }

/-- A thread with its allocator and its log segment, and the bytes of its pool. -/
structure Logger where
  worker : Worker
  bytes : Bytes

/-- A request for a tree node, or the appending of a log record. -/
inductive LoggerCall where
  | tree (sz : BitVec 32)
  | append (e : LogEntry)

namespace Logger

/-- One call, with the record that it writes and its address. -/
def call (b : LogBuild) (s : Logger) : LoggerCall → Option (List (LogEntry × Nat) × Logger)
  | .tree sz => do
    let (_, w) ← s.worker.call (.tree sz)
    return ([], ⟨w, s.bytes⟩)
  | .append e => do
    let ((_, piece), w) ← s.worker.call (.append e.version)
    return ([(e, piece.base)],
      ⟨{ w with seg := w.seg.skip (b.payload e) }, b.write s.bytes piece.base e⟩)

/-- The records of a run, in the order of the calls. -/
def run (b : LogBuild) : Logger → List LoggerCall → Option (List (LogEntry × Nat) × Logger)
  | s, [] => some ([], s)
  | s, op :: ops => do
    let (recs, s) ← s.call b op
    let (recs', s) ← s.run b ops
    return (recs ++ recs', s)

def start (address : Nat) (m : Headers) (o : Bytes) : Logger := ⟨Worker.start address m, o⟩

end Logger

/-- The sizes that a block can serve. In the `LONGVAL` build a value is no longer than the
segment that `append_one` asks for. -/
def LoggerCall.Fits (b : LogBuild) : LoggerCall → Prop
  | .tree sz => 0 < sz.toNat ∧ sz.toNat ≤ dataSize
  | .append e => b.payload e ≤ segmentSize.toNat

/-! ### Segments -/

namespace LogBuild

/-- The `Log_Node` and the value behind it. -/
def codec (b : LogBuild) : Codec LogEntry where
  width e := logNodeSize + b.payload e
  byte e k :=
    if k < logNodeSize then e.storeFirst 5 Bytes.zero 0 k else e.value (k - logNodeSize)

/-- A record that does not fit into what is left of the segment in use, the first of the
list, opens a new one. -/
def fill (b : LogBuild) (segs : List (List LogEntry)) (e : LogEntry) : List (List LogEntry) :=
  match segs with
  | [] => [[e]]
  | seg :: rest =>
    if DSeg.logEnd ≤ b.codec.extent seg + logNodeSize + e.version.toNat then [e] :: seg :: rest
    else (seg ++ [e]) :: rest

/-- The records of each segment, the last segment first. -/
def segments (b : LogBuild) (es : List LogEntry) : List (List LogEntry) := es.foldl b.fill []

theorem segments_concat (b : LogBuild) (es : List LogEntry) (e : LogEntry) :
    b.segments (es ++ [e]) = b.fill (b.segments es) e := by
  rw [segments, List.foldl_append]
  rfl

theorem width_pos (b : LogBuild) (e : LogEntry) : 0 < b.codec.width e :=
  Nat.lt_of_lt_of_le (by decide : 0 < logNodeSize) (Nat.le_add_right _ _)

end LogBuild

/-! ### The bytes of a record -/

section Bytes

variable (e : LogEntry) (o o' : Bytes) (node k n : Nat)

theorem LogEntry.storeFirst_of_outside (h : k < node ∨ node + logNodeSize ≤ k) :
    e.storeFirst n o node k = o k := by
  have hstore : ∀ store ∈ e.stores node, ∀ o : Bytes, store o k = o k := by
    have hsize : logNodeSize = 32 := rfl
    have hkey : logKeyOffset = 16 := rfl
    intro store hmem o
    simp only [stores, List.mem_cons, List.not_mem_nil, or_false] at hmem
    rcases hmem with rfl | rfl | rfl | rfl | rfl
    · exact Bytes.put32_of_outside o _ k _ (by omega)
    · exact Bytes.put64_of_outside o _ k _ (by omega)
    · exact Bytes.put8_of_ne o _ k _ (by omega)
    · exact Bytes.put64_of_outside o _ k _ (by omega)
    · exact Bytes.put64_of_outside o _ k _ (by omega)
  suffices h : ∀ l : List (Bytes → Bytes), (∀ store ∈ l, ∀ o : Bytes, store o k = o k) →
      ∀ o : Bytes, l.foldl (fun o store => store o) o k = o k from
    h _ (fun store hmem => hstore store (List.mem_of_mem_take hmem)) o
  intro l hl
  induction l with
  | nil => exact fun _ => rfl
  | cons store rest ih =>
    intro o
    rw [List.foldl_cons, ih (fun s hs => hl s (List.mem_cons_of_mem _ hs)),
      hl store List.mem_cons_self]

/-- The stores of a record do the same wherever the record stands. -/
theorem LogEntry.storeFirst_shift (h : o (node + k) = o' k) :
    e.storeFirst n o node (node + k) = e.storeFirst n o' 0 k := by
  suffices ∀ n, ∀ o o' : Bytes, o (node + k) = o' k →
      ((e.stores node).take n).foldl (fun o store => store o) o (node + k) =
      ((e.stores 0).take n).foldl (fun o store => store o) o' k from this n o o' h
  intro n
  induction n with
  | zero => exact fun o o' h => h
  | succ n ih =>
    intro o o' h
    rw [List.take_add_one, List.take_add_one, List.foldl_append, List.foldl_append]
    by_cases hn : n < 5
    · have hn' : n = 0 ∨ n = 1 ∨ n = 2 ∨ n = 3 ∨ n = 4 := by omega
      have hbefore := ih o o' h
      rcases hn' with rfl | rfl | rfl | rfl | rfl
      all_goals
        simp only [stores, List.getElem?_cons_zero, List.getElem?_cons_succ, Option.toList_some,
          List.foldl_cons, List.foldl_nil, Bytes.put32, Bytes.put64, Bytes.put8,
          Function.update_apply, Nat.zero_add, Nat.add_assoc, Nat.add_le_add_iff_left,
          Nat.add_lt_add_iff_left, Nat.add_sub_add_left, Nat.add_right_inj] at hbefore ⊢
        rw [hbefore]
    · have hnone : ∀ node, (e.stores node)[n]? = none := fun node =>
        List.getElem?_eq_none (Nat.le_of_not_lt hn)
      rw [hnone, hnone]
      exact ih o o' h

theorem LogEntry.storeFirst_version :
    (e.storeFirst n o node).get32 (node + 4) = if n = 0 then o.get32 (node + 4) else e.version := by
  have hkey : logKeyOffset = 16 := rfl
  match n with
  | 0 => rfl
  | 1 | 2 | 3 | 4 | n + 5 =>
    simp [storeFirst, stores, Bytes.get32_put64_of_ne, Bytes.get32_put8, hkey]

theorem LogEntry.storeFirst_key : (e.storeFirst n o node).get64 (node + logKeyOffset) =
    if n < 4 then o.get64 (node + logKeyOffset) else e.key := by
  have hkey : logKeyOffset = 16 := rfl
  match n with
  | 0 => rfl
  | 1 | 2 | 3 | 4 | n + 5 =>
    simp [storeFirst, stores, Bytes.get64_put64_of_ne, Bytes.get64_put32_of_ne, Bytes.get64_put8,
      hkey]

theorem LogEntry.storeFirst_val : (e.storeFirst n o node).get64 (node + logKeyOffset + 8) =
    if n < 5 then o.get64 (node + logKeyOffset + 8) else e.val := by
  have hkey : logKeyOffset = 16 := rfl
  match n with
  | 0 => rfl
  | 1 | 2 | 3 | 4 | n + 5 =>
    simp [storeFirst, stores, Bytes.get64_put64_of_ne, Bytes.get64_put32_of_ne, Bytes.get64_put8,
      hkey]

namespace LogBuild

variable (b : LogBuild)

theorem byte_head (hk : k < logNodeSize) :
    b.codec.byte e k = e.storeFirst 5 Bytes.zero 0 k := if_pos hk

theorem byte_tail (k : Nat) : b.codec.byte e (logNodeSize + k) = e.value k := by
  change (if _ then _ else _) = _
  rw [if_neg (Nat.not_lt.mpr (Nat.le_add_right _ _)), Nat.add_sub_cancel_left]

theorem write_of_outside (h : k < node ∨ node + b.codec.width e ≤ k) :
    b.write o node e k = o k := by
  have hwidth : b.codec.width e = logNodeSize + b.payload e := rfl
  rw [write, Bytes.copyIn_of_outside _ _ _ _ _ (by omega),
    e.storeFirst_of_outside _ _ _ _ (by omega)]

theorem write_self (hk : k < b.codec.width e) (hzero : ∀ d, d < logNodeSize → o (node + d) = 0) :
    b.write o node e (node + k) = b.codec.byte e k := by
  have hwidth : b.codec.width e = logNodeSize + b.payload e := rfl
  rw [write]
  by_cases hin : k < logNodeSize
  · rw [b.byte_head _ _ hin, Bytes.copyIn_of_outside _ _ _ _ _ (by omega)]
    exact e.storeFirst_shift o _ node k 5 (hzero k hin)
  · obtain ⟨d, rfl⟩ := Nat.exists_eq_add_of_le (Nat.le_of_not_lt hin)
    rw [b.byte_tail, Bytes.copyIn, if_pos (by omega), ← Nat.add_assoc, Nat.add_sub_cancel_left]

theorem byte_version : (b.codec.byte e).get32 4 = e.version := by
  have hhead : (b.codec.byte e).get32 4 = (e.storeFirst 5 Bytes.zero 0).get32 (0 + 4) := by
    apply Bytes.get32_of_bytes
    intro d hd
    have hsize : logNodeSize = 32 := rfl
    exact b.byte_head e (4 + d) (by omega)
  rw [hhead, e.storeFirst_version]
  rfl

theorem byte_key : (b.codec.byte e).get64 logKeyOffset = e.key := by
  have hhead : (b.codec.byte e).get64 logKeyOffset =
      (e.storeFirst 5 Bytes.zero 0).get64 (0 + logKeyOffset) := by
    apply Bytes.get64_of_bytes
    intro d hd
    have hsize : logNodeSize = 32 := rfl
    have hkey : logKeyOffset = 16 := rfl
    rw [b.byte_head e _ (by omega), Nat.zero_add]
  rw [hhead, e.storeFirst_key]
  rfl

theorem byte_val : (b.codec.byte e).get64 (logKeyOffset + 8) = e.val := by
  have hhead : (b.codec.byte e).get64 (logKeyOffset + 8) =
      (e.storeFirst 5 Bytes.zero 0).get64 (0 + logKeyOffset + 8) := by
    apply Bytes.get64_of_bytes
    intro d hd
    have hsize : logNodeSize = 32 := rfl
    have hkey : logKeyOffset = 16 := rfl
    rw [b.byte_head e _ (by omega), Nat.zero_add]
  rw [hhead, e.storeFirst_val]
  rfl

end LogBuild

end Bytes

/-! ### What a run leaves

`Logged` describes the log by its segments: each holds records one after the other from the start of its data, and
zeros behind them up to the end of the block. -/

namespace Worker

variable {s s' : Worker} {c : BlockCuts} {version : BitVec 32} {piece : BlockKind × Region}

theorem append_seg (heval : s.call (.append version) = some (piece, s')) :
    s'.seg.vecStart = piece.2.base + logNodeSize ∧
      (s.seg.needsSegment version → s'.seg.tempOffset = logNodeSize) ∧
      (¬ s.seg.needsSegment version →
        s'.seg.tempOffset = s.seg.tempOffset + logNodeSize ∧ s'.taken = s.taken) := by
  rcases call_append_cases heval with ⟨hseg, logStart, a, m, -, rfl, rfl⟩ | ⟨hno, rfl, rfl⟩
  · exact ⟨rfl, fun _ => rfl, fun hnot => absurd hseg hnot⟩
  · exact ⟨rfl, fun hyes => absurd hyes hno, fun _ => ⟨rfl, account_same rfl⟩⟩

theorem Filled.skip (h : s.Filled c) {n : Nat} (htaken : 0 < s.taken .log)
    (hend : s.seg.tempOffset + n ≤ DSeg.logEnd) :
    Filled { s with seg := s.seg.skip n } c :=
  { h with
    offset_le := hend
    seg_none := fun hz => absurd hz (Nat.pos_iff_ne_zero.mp htaken)
    seg_at := fun hpos => by
      obtain ⟨hvec, hat⟩ := h.seg_at hpos
      refine ⟨hvec, ?_⟩
      change s.seg.vecStart + n = _ + (s.seg.tempOffset + n)
      rw [hat, Nat.add_assoc] }

end Worker

namespace Logger

variable {b : LogBuild} {s s' : Logger} {c c' : BlockCuts} {content : Nat → List LogEntry}
  {recs : List (LogEntry × Nat)} {j : Nat}

abbrev segs (s : Logger) : Nat := s.worker.taken .log

/-- The data of the `j`-th log block. -/
def dataAt (s : Logger) (c : BlockCuts) (j : Nat) : Nat :=
  s.worker.alc.header c .log j + baseMetaSize

/-- The records of each segment stand end to end in a log block of its own, and nothing else
has been written. -/
structure Logged (b : LogBuild) (s : Logger) (c : BlockCuts) (content : Nat → List LogEntry)
    (recs : List (LogEntry × Nat)) : Prop where
  filled : s.worker.Filled c
  stored : ∀ j, j < s.segs → b.codec.Stored s.bytes (s.dataAt c j) dataSize (content j)
  empty : ∀ j, s.segs ≤ j → content j = []
  blank : ∀ n, (∀ j, j < s.segs → c.place .log j ≠ n) →
    b.codec.Stored s.bytes (blockAt s.worker.alc.startAddress n + baseMetaSize) dataSize []
  offset : 0 < s.segs → s.worker.seg.tempOffset = b.codec.extent (content (s.segs - 1))
  room : ∀ j, j < s.segs → b.codec.extent (content j) < DSeg.logEnd
  records : recs = (List.range s.segs).flatMap fun j =>
    b.codec.placed (s.dataAt c j) (content j)
  segments : b.segments (recs.map Prod.fst) = ((List.range s.segs).map content).reverse
  unmarked : ∀ n, c.total ≤ n →
    (s.worker.mem (blockAt s.worker.alc.startAddress n)).bitmap = 0

theorem data_apart (start : Nat) {n n' k : Nat} (hne : n ≠ n') (hk : k < dataSize) :
    blockAt start n + baseMetaSize + k < blockAt start n' + baseMetaSize ∨
      blockAt start n' + baseMetaSize + dataSize ≤ blockAt start n + baseMetaSize + k := by
  have hsize : baseMetaSize + dataSize = CHUNK_SIZE := by decide
  rcases Nat.lt_or_gt_of_ne hne with hlt | hlt
  · left
    have hnext : blockAt start (n + 1) ≤ blockAt start n' := blockAt_le_iff.mpr hlt
    rw [blockAt_succ] at hnext
    omega
  · right
    have hnext : blockAt start (n' + 1) ≤ blockAt start n := blockAt_le_iff.mpr hlt
    rw [blockAt_succ] at hnext
    omega

/-- The segment `j` that a record goes to, once it is open: the record stands behind those
that are there. -/
structure Opened (b : LogBuild) (s : Logger) (c : BlockCuts) (content : Nat → List LogEntry)
    (recs : List (LogEntry × Nat)) (e : LogEntry) (node : Nat) (w : Worker) (c' : BlockCuts)
    (j : Nat) : Prop where
  filled : w.Filled c'
  start : w.alc.startAddress = s.worker.alc.startAddress
  cuts : c.Extends c'
  taken : w.taken .log = j + 1
  le_segs : j ≤ s.segs
  segs_le : s.segs ≤ j + 1
  node_eq : node =
    blockAt s.worker.alc.startAddress (c'.place .log j) + baseMetaSize + b.codec.extent (content j)
  offset : w.seg.tempOffset = b.codec.extent (content j) + logNodeSize
  stored : b.codec.Stored s.bytes
    (blockAt s.worker.alc.startAddress (c'.place .log j) + baseMetaSize) dataSize (content j)
  room : b.codec.extent (content j) + b.codec.width e < DSeg.logEnd
  records : recs =
    ((List.range j).flatMap fun i => b.codec.placed (s.dataAt c i) (content i)) ++
      b.codec.placed (blockAt s.worker.alc.startAddress (c'.place .log j) + baseMetaSize) (content j)
  segments : b.fill (b.segments (recs.map Prod.fst)) e =
    (content j ++ [e]) :: ((List.range j).map content).reverse
  beyond : ∀ n, c'.total ≤ n → w.mem (blockAt s.worker.alc.startAddress n) =
    s.worker.mem (blockAt s.worker.alc.startAddress n)

theorem Logged.opened_same (h : s.Logged b c content recs) {e : LogEntry}
    (hseg : ¬ s.worker.seg.needsSegment e.version) {piece : BlockKind × Region} {w : Worker}
    (heval : s.worker.call (.append e.version) = some (piece, w)) :
    s.Opened b c content recs e piece.2.base w c (s.segs - 1) := by
  obtain ⟨piece', w', htook⟩ := h.filled.append_same hseg
  have heq := heval.symm.trans htook.eval
  rw [Option.some.injEq, Prod.mk.injEq] at heq
  obtain ⟨rfl, rfl⟩ := heq
  obtain ⟨hvec, -, hsame⟩ := Worker.append_seg heval
  obtain ⟨hoff, htaken⟩ := hsame hseg
  have hpos : 0 < s.segs :=
    Nat.pos_of_ne_zero fun hz => hseg (Or.inr (h.filled.seg_none hz))
  obtain ⟨j, hj⟩ : ∃ j, s.segs = j + 1 := ⟨s.segs - 1, (Nat.sub_add_cancel hpos).symm⟩
  rw [hj, Nat.add_sub_cancel]
  have hlast : s.segs - 1 = j := by rw [hj, Nat.add_sub_cancel]
  have hoffset := hlast ▸ h.offset hpos
  have hjlt : j < s.segs := hj ▸ Nat.lt_succ_self j
  have hw : w.taken .log = j + 1 := (congrFun htaken .log).trans hj
  have hat := (htook.filled.seg_at (hw ▸ Nat.succ_pos j)).2
  rw [hw, Nat.add_sub_cancel, hvec, hoff, hoffset, ← Nat.add_assoc] at hat
  have hnode := Nat.add_right_cancel hat
  have hheader : w.alc.header c .log j = blockAt s.worker.alc.startAddress (c.place .log j) :=
    congrArg (blockAt · _) htook.within.start
  rw [hheader] at hnode
  have hroom : ¬ DSeg.logEnd ≤
      b.codec.extent (content j) + logNodeSize + e.version.toNat := fun hle =>
    hseg (Or.inl (hoffset ▸ hle))
  refine ⟨htook.filled, htook.within.start, htook.within.cuts, hw, ?_, ?_, hnode, ?_, ?_, ?_, ?_, ?_,
    htook.within.beyond⟩
  · exact Nat.le_of_lt hjlt
  · exact Nat.le_of_eq hj
  · rw [hoff, hoffset]
  · exact h.stored j hjlt
  · have hle : b.payload e ≤ e.version.toNat := by
      cases b with
      | plain => exact Nat.zero_le _
      | longval => exact Nat.le_refl _
    have hwidth : b.codec.width e = logNodeSize + b.payload e := rfl
    omega
  · rw [h.records, hj, List.range_succ, List.flatMap_append, List.flatMap_singleton]
    rfl
  · rw [h.segments, hj, List.range_succ, List.map_append, List.reverse_append]
    exact if_neg hroom

theorem Logged.opened_new (h : s.Logged b c content recs) {e : LogEntry}
    (hfits : b.payload e ≤ segmentSize.toNat)
    (hseg : s.worker.seg.needsSegment e.version) {piece : BlockKind × Region} {w : Worker}
    (heval : s.worker.call (.append e.version) = some (piece, w)) (hwrap : s.segs < 2 ^ 32) :
    ∃ c', s.Opened b c content recs e piece.2.base w c' s.segs := by
  obtain ⟨piece', w', c', htook⟩ := h.filled.append_new hseg hwrap
  have heq := heval.symm.trans htook.eval
  rw [Option.some.injEq, Prod.mk.injEq] at heq
  obtain ⟨rfl, rfl⟩ := heq
  obtain ⟨hvec, hnew, -⟩ := Worker.append_seg heval
  have hw : w.taken .log = s.segs + 1 := h.filled.append_taken hseg heval
  have hat := (htook.filled.seg_at (hw ▸ Nat.succ_pos _)).2
  rw [hw, Nat.add_sub_cancel, hvec, hnew hseg] at hat
  have hnode := Nat.add_right_cancel hat
  have hheader : w.alc.header c' .log s.segs =
      blockAt s.worker.alc.startAddress (c'.place .log s.segs) :=
    congrArg (blockAt · _) htook.within.start
  rw [hheader] at hnode
  have hnone := h.empty s.segs (Nat.le_refl _)
  have hcount : s.segs < c'.count .log :=
    (Nat.le_of_eq hw.symm).trans (htook.filled.taken_le .log)
  refine ⟨c', htook.filled, htook.within.start, htook.within.cuts, hw, ?_, ?_, ?_, ?_, ?_, ?_, ?_, ?_,
    htook.within.beyond⟩
  · exact Nat.le_refl _
  · exact Nat.le_succ _
  · rw [hnone]
    exact hnode
  · rw [hnone, hnew hseg]
    exact (Nat.zero_add _).symm
  · rw [hnone]
    apply h.blank
    intro j hj heq
    have hold := htook.within.cuts.place_eq (Nat.lt_of_lt_of_le hj (h.filled.taken_le .log))
    have := (htook.filled.kept.listed.exact.place_inj (hj.trans hcount) hcount (hold.trans heq)).2
    exact absurd this (Nat.ne_of_lt hj)
  · rw [hnone]
    have hwidth : b.codec.width e = logNodeSize + b.payload e := rfl
    have hsize : segmentSize.toNat + logNodeSize < DSeg.logEnd := by decide
    rw [Codec.extent_nil]
    omega
  · rw [hnone, h.records]
    exact (List.append_nil _).symm
  · rw [h.segments, hnone]
    rcases Nat.eq_zero_or_pos s.segs with hz | hpos
    · rw [hz]
      rfl
    · obtain ⟨j, hj⟩ : ∃ j, s.segs = j + 1 := ⟨s.segs - 1, (Nat.sub_add_cancel hpos).symm⟩
      have hoffset := h.offset hpos
      rw [hj, Nat.add_sub_cancel] at hoffset
      have hvecne : s.worker.seg.logVec ≠ 0 := by
        rw [(h.filled.seg_at hpos).1]
        exact Nat.ne_of_gt (Nat.add_pos_right _ (by decide))
      have hfull : DSeg.logEnd ≤
          b.codec.extent (content j) + logNodeSize + e.version.toNat := by
        -- the segment was full, or there was none
        rcases hseg with hfull | hvec
        · exact hoffset ▸ hfull
        · exact absurd hvec hvecne
      rw [hj, List.range_succ, List.map_append, List.reverse_append]
      exact if_pos hfull

/-- The record is written behind the others of its segment. -/
theorem Opened.write {e : LogEntry} {node : Nat} {w : Worker} {j : Nat}
    (h : s.Logged b c content recs) (ho : s.Opened b c content recs e node w c' j) :
    Logged b ⟨{ w with seg := w.seg.skip (b.payload e) }, b.write s.bytes node e⟩ c'
      (Function.update content j (content j ++ [e])) (recs ++ [(e, node)]) := by
  have hwidth : b.codec.width e = logNodeSize + b.payload e := rfl
  have hend : DSeg.logEnd = dataSize := rfl
  have hroom := ho.room
  have htaken : w.taken .log = j + 1 := ho.taken
  have hdata : ∀ i, blockAt w.alc.startAddress (c'.place .log i) =
      blockAt s.worker.alc.startAddress (c'.place .log i) := by
    intro i
    rw [ho.start]
  -- the blocks of the older segments stay where they are, apart from this one
  have hplace : ∀ {i}, i < j → c'.place .log i = c.place .log i ∧ c'.place .log i ≠ c'.place .log j := by
    intro i hi
    have hcount := Nat.lt_of_lt_of_le (hi.trans_le ho.le_segs) (h.filled.taken_le .log)
    have hlast := Nat.lt_of_lt_of_le (Nat.lt_succ_self j) (ho.taken ▸ ho.filled.taken_le .log)
    refine ⟨ho.cuts.place_eq hcount, fun heq => ?_⟩
    have := (ho.filled.kept.listed.exact.place_inj (hi.trans hlast) hlast heq).2
    exact absurd this (Nat.ne_of_lt hi)
  -- the record touches the data of its own block only
  have hframe : ∀ n k, n ≠ c'.place .log j → k < dataSize →
      b.write s.bytes node e (blockAt s.worker.alc.startAddress n + baseMetaSize + k) =
        s.bytes (blockAt s.worker.alc.startAddress n + baseMetaSize + k) := by
    intro n k hn hk
    apply b.write_of_outside
    rw [ho.node_eq]
    have := data_apart s.worker.alc.startAddress hn hk
    omega
  refine ⟨?_, ?_, ?_, ?_, ?_, ?_, ?_, ?_, ?_⟩
  · apply ho.filled.skip (htaken ▸ Nat.succ_pos j)
    rw [ho.offset]
    omega
  · intro i hi
    change i < w.taken .log at hi
    change b.codec.Stored _ (blockAt w.alc.startAddress (c'.place .log i) + baseMetaSize) _ _
    rw [hdata]
    rw [htaken] at hi
    rcases Nat.lt_succ_iff_lt_or_eq.mp hi with hlt | rfl
    · obtain ⟨hsame, hne⟩ := hplace hlt
      have hold := h.stored i (hlt.trans_le ho.le_segs)
      change b.codec.Stored _ (blockAt s.worker.alc.startAddress (c.place .log i) + _) _ _ at hold
      rw [← hsame] at hold
      rw [Function.update_of_ne (Nat.ne_of_lt hlt)]
      exact hold.congr fun k hk => hframe _ k hne hk
    · rw [Function.update_self]
      apply ho.stored.concat
      · intro k hk
        rw [← ho.node_eq]
        apply b.write_self _ _ _ _ hk
        intro d hd
        rw [ho.node_eq, Nat.add_assoc]
        exact ho.stored.beyond (Nat.le_add_right _ _) (by omega)
      · intro k hk
        apply b.write_of_outside
        rw [ho.node_eq]
        omega
  · intro i hi
    change w.taken .log ≤ i at hi
    rw [htaken] at hi
    rw [Function.update_of_ne (Nat.ne_of_gt hi)]
    -- segments that are not there yet stay empty
    by_cases hle : s.segs ≤ i
    · exact h.empty i hle
    · have := ho.segs_le
      omega
  · intro n hn
    change ∀ i, i < w.taken .log → _ at hn
    change b.codec.Stored _ (blockAt w.alc.startAddress n + baseMetaSize) _ _
    rw [htaken] at hn
    rw [ho.start]
    have hne : n ≠ c'.place .log j := Ne.symm (hn j (Nat.lt_succ_self j))
    refine (h.blank n fun i hi heq => ?_).congr fun k hk => hframe n k hne hk
    have hcount := Nat.lt_of_lt_of_le hi (h.filled.taken_le .log)
    exact hn i (hi.trans_le ho.segs_le) ((ho.cuts.place_eq hcount).trans heq)
  · intro
    change w.seg.tempOffset + b.payload e = b.codec.extent (Function.update content j _ (w.taken .log - 1))
    rw [htaken, Nat.add_sub_cancel, Function.update_self, Codec.extent_concat, ho.offset, hwidth,
      Nat.add_assoc]
  · intro i hi
    change i < w.taken .log at hi
    rw [htaken] at hi
    rcases Nat.lt_succ_iff_lt_or_eq.mp hi with hlt | rfl
    · rw [Function.update_of_ne (Nat.ne_of_lt hlt)]
      exact h.room i (hlt.trans_le ho.le_segs)
    · rw [Function.update_self, Codec.extent_concat]
      exact hroom
  · change _ = (List.range (w.taken .log)).flatMap _
    rw [htaken, List.range_succ, List.flatMap_append, List.flatMap_singleton, Function.update_self,
      Codec.placed_concat, ho.records, List.append_assoc]
    congr 1
    · apply List.flatMap_congr
      intro i hi
      have hlt := List.mem_range.mp hi
      rw [Function.update_of_ne (Nat.ne_of_lt hlt)]
      change b.codec.placed (blockAt _ (c.place .log i) + _) _ =
        b.codec.placed (blockAt w.alc.startAddress (c'.place .log i) + _) _
      rw [hdata, (hplace hlt).1]
    · change _ = b.codec.placed (blockAt w.alc.startAddress (c'.place .log j) + _) _ ++
        [(e, blockAt w.alc.startAddress (c'.place .log j) + _ + _)]
      rw [hdata, ← ho.node_eq]
  · change _ = ((List.range (w.taken .log)).map _).reverse
    rw [htaken, List.map_append, List.map_singleton, b.segments_concat, ho.segments,
      List.range_succ, List.map_append, List.reverse_append, List.map_singleton,
      Function.update_self]
    congr 2
    apply List.map_congr_left
    intro i hi
    rw [Function.update_of_ne (Nat.ne_of_lt (List.mem_range.mp hi))]
  · intro n hn
    change (w.mem (blockAt w.alc.startAddress n)).bitmap = 0
    rw [ho.start, ho.beyond n hn]
    exact h.unmarked n (ho.cuts.total_le.trans hn)

/-- A tree node leaves the log alone. -/
theorem Logged.tree (h : s.Logged b c content recs) {sz : BitVec 32} {piece : BlockKind × Region}
    {w : Worker} (htook : s.worker.Took c (.tree sz) piece w c' j) :
    Logged b ⟨w, s.bytes⟩ c' content recs := by
  -- neither the segment nor the number of log blocks changes
  obtain ⟨hseg, hsegs⟩ : w.seg = s.worker.seg ∧ w.taken .log = s.segs := by
    have heval := htook.eval
    rw [Worker.call] at heval
    obtain ⟨⟨address, a, m⟩, -, heval⟩ := Option.bind_eq_some_iff.mp heval
    rw [Option.pure_def, Option.some.injEq, Prod.mk.injEq] at heval
    obtain ⟨-, rfl⟩ := heval
    refine ⟨rfl, ?_⟩
    change s.worker.account a .node .log = _
    rw [Worker.account]
    split
    · rfl
    · exact Function.update_of_ne (by decide) _ _
  have hplace : ∀ i, i < s.segs → c'.place .log i = c.place .log i := fun i hi =>
    htook.within.cuts.place_eq (Nat.lt_of_lt_of_le hi (h.filled.taken_le .log))
  have hdata : ∀ i, i < s.segs → Logger.dataAt ⟨w, s.bytes⟩ c' i = s.dataAt c i := by
    intro i hi
    change blockAt w.alc.startAddress (c'.place .log i) + _ = blockAt _ (c.place .log i) + _
    rw [htook.within.start, hplace i hi]
  refine ⟨htook.filled, ?_, ?_, ?_, ?_, ?_, ?_, ?_, ?_⟩
  · intro i hi
    change i < w.taken .log at hi
    rw [hsegs] at hi
    rw [hdata i hi]
    exact h.stored i hi
  · intro i hi
    change w.taken .log ≤ i at hi
    exact h.empty i (hsegs ▸ hi)
  · intro n hn
    change ∀ i, i < w.taken .log → _ at hn
    rw [hsegs] at hn
    change b.codec.Stored _ (blockAt w.alc.startAddress n + _) _ _
    rw [htook.within.start]
    exact h.blank n fun i hi heq => hn i hi ((hplace i hi).trans heq)
  · intro hpos
    change 0 < w.taken .log at hpos
    change w.seg.tempOffset = b.codec.extent (content (w.taken .log - 1))
    rw [hseg, hsegs]
    exact h.offset (hsegs ▸ hpos)
  · intro i hi
    change i < w.taken .log at hi
    exact h.room i (hsegs ▸ hi)
  · change _ = (List.range (w.taken .log)).flatMap _
    rw [h.records, hsegs]
    apply List.flatMap_congr
    intro i hi
    rw [hdata i (List.mem_range.mp hi)]
  · change _ = ((List.range (w.taken .log)).map _).reverse
    rw [hsegs]
    exact h.segments
  · intro n hn
    change (w.mem (blockAt w.alc.startAddress n)).bitmap = 0
    rw [htook.within.start, htook.within.beyond n hn]
    exact h.unmarked n (htook.within.cuts.total_le.trans hn)

theorem call_returns (b : LogBuild) (s : Logger) (h : s.worker.alc.Kept c) (op : LoggerCall) :
    ∃ new s' c', s.call b op = some (new, s') ∧ s.worker.Later c s'.worker c' ∧
      ∀ kind, s'.worker.taken kind ≤ s.worker.taken kind + 1 := by
  cases op with
  | tree sz =>
    obtain ⟨piece, w, c', heval, hlater, hnext⟩ := Worker.call_returns h (.tree sz)
    refine ⟨[], ⟨w, s.bytes⟩, c', ?_, hlater, hnext⟩
    rw [call, heval]
    rfl
  | append e =>
    obtain ⟨piece, w, c', heval, hlater, hnext⟩ := Worker.call_returns h (.append e.version)
    refine ⟨[(e, piece.2.base)],
      ⟨{ w with seg := w.seg.skip (b.payload e) }, b.write s.bytes piece.2.base e⟩, c', ?_,
      ⟨hlater.kept, hlater.start, hlater.cuts, hlater.taken⟩, hnext⟩
    rw [call, heval]
    rfl

theorem run_returns (b : LogBuild) (s : Logger) (h : s.worker.alc.Kept c) (ops : List LoggerCall) :
    ∃ recs s' c', s.run b ops = some (recs, s') ∧ s.worker.Later c s'.worker c' := by
  induction ops generalizing s c with
  | nil => exact ⟨[], s, c, rfl, h, rfl, BlockCuts.Extends.refl c, fun _ => Nat.le_refl _⟩
  | cons op ops ih =>
    obtain ⟨new, s₁, c₁, hcall, hlater, -⟩ := call_returns b s h op
    obtain ⟨recs, s', c', hrun, hlater'⟩ := ih s₁ hlater.kept
    refine ⟨new ++ recs, s', c', ?_, hlater.trans hlater'⟩
    rw [run, hcall]
    simp only [Option.bind_eq_bind, Option.bind_some, hrun, Option.pure_def]

theorem Logged.call (h : s.Logged b c content recs) {op : LoggerCall} (hfits : op.Fits b)
    {new : List (LogEntry × Nat)} (heval : s.call b op = some (new, s'))
    (hwrap : ∀ kind, s'.worker.taken kind ≤ 2 ^ 32) :
    ∃ c' content', s'.Logged b c' content' (recs ++ new) := by
  cases op with
  | tree sz =>
    obtain ⟨⟨piece, w⟩, hcall, heval⟩ := Option.bind_eq_some_iff.mp heval
    rw [Option.pure_def, Option.some.injEq, Prod.mk.injEq] at heval
    obtain ⟨rfl, rfl⟩ := heval
    have htree : WorkerCall.Fits (.tree sz) := hfits
    obtain ⟨c', j, htook⟩ := h.filled.took htree hcall hwrap
    rw [List.append_nil]
    exact ⟨c', content, h.tree htook⟩
  | append e =>
    obtain ⟨⟨piece, w⟩, hcall, heval⟩ := Option.bind_eq_some_iff.mp heval
    rw [Option.pure_def, Option.some.injEq, Prod.mk.injEq] at heval
    obtain ⟨rfl, rfl⟩ := heval
    by_cases hseg : s.worker.seg.needsSegment e.version
    · have htaken := h.filled.append_taken hseg hcall
      have hlt : s.segs < 2 ^ 32 := (Nat.le_of_eq htaken.symm).trans (hwrap .log)
      obtain ⟨c', ho⟩ := h.opened_new hfits hseg hcall hlt
      exact ⟨c', _, ho.write h⟩
    · exact ⟨c, _, (h.opened_same hseg hcall).write h⟩

/-- A run whose blocks stay below `2 ^ 32`. -/
theorem Logged.run (h : s.Logged b c content recs) {ops : List LoggerCall}
    (hfits : ∀ op ∈ ops, op.Fits b) {new : List (LogEntry × Nat)}
    (heval : s.run b ops = some (new, s'))
    (hsmall : s'.worker.alc.endAddress < blockAt s'.worker.alc.startAddress (2 ^ 32)) :
    ∃ c' content', s'.Logged b c' content' (recs ++ new) := by
  induction ops generalizing s c content recs new with
  | nil =>
    rw [Logger.run, Option.some.injEq, Prod.mk.injEq] at heval
    obtain ⟨rfl, rfl⟩ := heval
    rw [List.append_nil]
    exact ⟨c, content, h⟩
  | cons op ops ih =>
    obtain ⟨new₁, s₁, c₁, hcall, hlater, hnext⟩ := call_returns b s h.filled.kept op
    obtain ⟨rest, s₂, c₂, hrun, hlater'⟩ := run_returns b s₁ hlater.kept ops
    rw [Logger.run, hcall] at heval
    simp only [Option.bind_eq_bind, Option.bind_some, hrun, Option.pure_def, Option.some.injEq,
      Prod.mk.injEq] at heval
    obtain ⟨rfl, rfl⟩ := heval
    have hwrap : ∀ kind, s₁.worker.taken kind ≤ 2 ^ 32 := by
      have hlt := hsmall
      rw [hlater'.kept.listed.end_eq, blockAt_lt_iff] at hlt
      have htotal := (hlater.cuts.trans hlater'.cuts).total_le
      intro kind
      have hcount := h.filled.kept.listed.exact.count_le_total kind
      have htaken := h.filled.taken_le kind
      have := hnext kind
      omega
    obtain ⟨c₁', content₁, h₁⟩ := h.call (hfits op List.mem_cons_self) hcall hwrap
    obtain ⟨c', content', h'⟩ :=
      ih h₁ (fun o ho => hfits o (List.mem_cons_of_mem _ ho)) hrun
    rw [List.append_assoc] at h'
    exact ⟨c', content', h'⟩

/-- A pool whose headers and blocks hold zeros. -/
structure Zeroed (address : Nat) (m : Headers) (o : Bytes) : Prop where
  headers : ∀ n, (m (blockAt address n)).bitmap = 0
  data : ∀ n k, k < dataSize → o (blockAt address n + baseMetaSize + k) = 0

theorem zeroed_zero (address : Nat) : Zeroed address (fun _ => BaseMeta.zero) Bytes.zero :=
  ⟨fun _ => rfl, fun _ _ _ => rfl⟩

theorem start_logged (b : LogBuild) {address : Nat} {m : Headers} {o : Bytes}
    (hzero : Zeroed address m o) :
    (start address m o).Logged b NAlc.firstCuts (fun _ => []) [] := by
  have hstart : (NAlc.init address m).1.startAddress = address := NAlc.init_startAddress address m
  refine ⟨Worker.start_filled address m, ?_, fun _ _ => rfl, ?_, ?_, ?_, rfl, rfl, ?_⟩
  · exact fun _ hj => absurd hj (Nat.not_lt_zero _)
  · intro n _ k hk
    change o (blockAt (NAlc.init address m).1.startAddress n + baseMetaSize + k) = 0
    rw [hstart]
    exact hzero.data n k hk
  · exact fun hpos => absurd hpos (Nat.lt_irrefl 0)
  · exact fun _ hj => absurd hj (Nat.not_lt_zero _)
  · intro n hn
    change ((NAlc.init address m).2 (blockAt (NAlc.init address m).1.startAddress n)).bitmap = 0
    rw [hstart, NAlc.init_beyond address m hn]
    exact hzero.headers n

def appended (ops : List LoggerCall) : List LogEntry :=
  ops.filterMap fun
    | .tree _ => none
    | .append e => some e

theorem run_entries {ops : List LoggerCall} (heval : s.run b ops = some (recs, s')) :
    recs.map Prod.fst = appended ops := by
  induction ops generalizing s recs with
  | nil =>
    rw [Logger.run, Option.some.injEq, Prod.mk.injEq] at heval
    obtain ⟨rfl, -⟩ := heval
    rfl
  | cons op ops ih =>
    obtain ⟨⟨new, s₁⟩, hcall, heval⟩ := Option.bind_eq_some_iff.mp heval
    obtain ⟨⟨rest, s₂⟩, hrun, heval⟩ := Option.bind_eq_some_iff.mp heval
    rw [Option.pure_def, Option.some.injEq, Prod.mk.injEq] at heval
    obtain ⟨rfl, rfl⟩ := heval
    rw [List.map_append, ih hrun]
    cases op with
    | tree sz =>
      obtain ⟨⟨piece, w⟩, -, hcall⟩ := Option.bind_eq_some_iff.mp hcall
      rw [Option.pure_def, Option.some.injEq, Prod.mk.injEq] at hcall
      obtain ⟨rfl, -⟩ := hcall
      rfl
    | append e =>
      obtain ⟨⟨piece, w⟩, -, hcall⟩ := Option.bind_eq_some_iff.mp hcall
      rw [Option.pure_def, Option.some.injEq, Prod.mk.injEq] at hcall
      obtain ⟨rfl, -⟩ := hcall
      rfl

end Logger

end ZBTree
