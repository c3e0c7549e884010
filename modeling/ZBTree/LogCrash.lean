import ZBTree.LogReplay
import Mathlib.Data.List.TakeWhile

/-!
# A crash while a record is appended

The stores of one `append_one` in program order, those of `n_allocate` into the block headers
included, and what the scan finds after each prefix of them when the pool is opened again. The
version is the first field of a record that is stored, so the scan finds the record before its
key and its value are there.
-/

namespace ZBTree

/-! ### The stores -/

def setHeader (header : Nat) (f : BaseMeta → BaseMeta) (m : Headers) : Headers :=
  Function.update m header (f (m header))

namespace NAlc

/-- The stores of one round of `get_more_chunk`. -/
def chunkStores (a : NAlc) (kind : BlockKind) : List (Headers → Headers) :=
  [setHeader a.endAddress fun b => { b with bitmap := 0 },
    setHeader a.endAddress fun b => { b with startAddress := a.endAddress + baseMetaSize },
    setHeader a.endAddress fun b => { b with blockId := (a.pageId kind).setWidth 30 },
    setHeader a.endAddress fun b => { b with blockType := kind.code }]

def moreChunkStores : Nat → NAlc → Headers → BlockKind → List (Headers → Headers)
  | 0, _, _, _ => []
  | n + 1, a, m, kind =>
    a.chunkStores kind ++ moreChunkStores n (a.cutChunk m kind).1 (a.cutChunk m kind).2 kind

/-- The stores of `get_free_block`. -/
def freeBlockStores (a : NAlc) (m : Headers) (kind : BlockKind) : List (Headers → Headers) :=
  match a.list kind (a.decisionId kind) with
  | some _ => []
  | none => moreChunkStores 4 a m kind

/-- The stores of `n_allocate(sz, 1)` into the header of the block that it hands out. -/
def handOutStores (freeBlock : Nat) (id : BitVec 32) : List (Headers → Headers) :=
  [setHeader freeBlock fun b => { b with blockType := BlockKind.log.code },
    setHeader freeBlock fun b => { b with blockId := id.setWidth 30 },
    setHeader freeBlock fun b => { b with bitmap := LOG_MARK }]

/-- The stores of `n_allocate(sz, 1)`. -/
def logStores (a : NAlc) (m : Headers) : Option (List (Headers → Headers)) := do
  let (freeBlock, a', _) := a.getFreeBlock m .log
  let a' := a'.nextDecision .log
  let freeBlock ← freeBlock
  return a.freeBlockStores m .log ++ handOutStores freeBlock (a'.decisionId .log)

end NAlc

namespace Logger

/-- The stores of `append_one`, for a record at `node`: into the headers, if a segment is
opened, and then into the record. -/
def appendStores (s : Logger) (e : LogEntry) (node : Nat) :
    Option (List (Headers → Headers) × List (Bytes → Bytes)) := do
  let headers ←
    if s.worker.seg.needsSegment e.version then s.worker.alc.logStores s.worker.mem else some []
  return (headers, e.stores node)

/-- The memory after the first `n` of the stores. -/
def afterStores (s : Logger) (stores : List (Headers → Headers) × List (Bytes → Bytes)) (n : Nat) :
    Headers × Bytes :=
  ((stores.1.take n).foldl (fun m store => store m) s.worker.mem,
    (stores.2.take (n - stores.1.length)).foldl (fun o store => store o) s.bytes)

end Logger

/-- What the scan shows: address, key and value of each record. -/
def replayed (m : Headers) (o : Bytes) (blocks : List Nat) : List (Nat × Key × Word) :=
  (scanLog m o blocks).map fun node =>
    (node, o.get64 (node + logKeyOffset), o.get64 (node + logKeyOffset + 8))

def LogEntry.shown (p : LogEntry × Nat) : Nat × Key × Word := (p.2, p.1.key, p.1.val)

/-- After a crash that leaves `m` and `o`, opening the pool again and scanning the log shows
exactly the records `recs`, or exactly these and the new one. -/
def AllOrNothing (m : Headers) (o : Bytes) (address poolLen : Nat)
    (recs : List (LogEntry × Nat)) (new : LogEntry × Nat) : Prop :=
  ∀ blocks, (NAlc.reopen m address poolLen).Lists m blocks →
    (replayed m o blocks).Perm (recs.map LogEntry.shown) ∨
      (replayed m o blocks).Perm ((recs ++ [new]).map LogEntry.shown)

/-! ### Headers that are not in use -/

/-- The headers differ only where both say that the block is not in use. -/
def SameInUse (m m' : Headers) : Prop :=
  ∀ header, m' header = m header ∨ ((m header).bitmap = 0 ∧ (m' header).bitmap = 0)

theorem SameInUse.refl (m : Headers) : SameInUse m m := fun _ => Or.inl rfl

theorem SameInUse.setHeader {m m' : Headers} (h : SameInUse m m') {header : Nat}
    (hzero : (m header).bitmap = 0) {f : BaseMeta → BaseMeta}
    (hf : ∀ b : BaseMeta, b.bitmap = 0 → (f b).bitmap = 0) :
    SameInUse m (ZBTree.setHeader header f m') := by
  intro x
  rw [ZBTree.setHeader]
  by_cases hx : x = header
  · subst hx
    rw [Function.update_self]
    refine Or.inr ⟨hzero, hf _ ?_⟩
    rcases h x with heq | hboth
    · rw [heq]
      exact hzero
    · exact hboth.2
  · rw [Function.update_of_ne hx]
    exact h x

/-- Opening the pool does not look at a header that is not in use. -/
theorem SameInUse.reopen {m m' : Headers} (h : SameInUse m m') (start poolLen : Nat) :
    NAlc.reopen m' start poolLen = NAlc.reopen m start poolLen := by
  have hbitmap : ∀ header, (m' header).bitmap = 0 ↔ (m header).bitmap = 0 := by
    intro header
    rcases h header with heq | ⟨hz, hz'⟩
    · rw [heq]
    · exact ⟨fun _ => hz, fun _ => hz'⟩
  have hadopt : ∀ (a : NAlc) header, a.adopt m' header = a.adopt m header := by
    intro a header
    rcases h header with heq | ⟨hz, hz'⟩
    · rw [NAlc.adopt, NAlc.adopt, heq]
    · rw [PoolImage.adopt_unused a hz, PoolImage.adopt_unused a hz']
  have hend : NAlc.usedEnd m' start poolLen = NAlc.usedEnd m start poolLen := by
    unfold NAlc.usedEnd
    congr 1
    funext e i
    exact if_congr (hbitmap _) rfl rfl
  rw [NAlc.reopen, NAlc.reopen, hend, NAlc.ignoreRecover, NAlc.ignoreRecover]
  congr 1
  funext a i
  exact hadopt a _

/-! ### What the stores into the headers do -/

namespace NAlc

variable {a : NAlc} {m : Headers} {kind : BlockKind}

theorem chunkStores_all (a : NAlc) (m : Headers) (kind : BlockKind) :
    (a.chunkStores kind).foldl (fun m store => store m) m = (a.cutChunk m kind).2 := by
  simp only [chunkStores, setHeader, List.foldl_cons, List.foldl_nil, Function.update_self,
    Function.update_idem, cutChunk, newChunk]

theorem moreChunkStores_all (n : Nat) (a : NAlc) (m : Headers) (kind : BlockKind) :
    (moreChunkStores n a m kind).foldl (fun m store => store m) m = (getMoreChunk n a m kind).2 := by
  induction n generalizing a m with
  | zero => rfl
  | succ n ih =>
    rw [moreChunkStores, List.foldl_append, chunkStores_all]
    exact ih _ _

theorem freeBlockStores_all (a : NAlc) (m : Headers) (kind : BlockKind) :
    (a.freeBlockStores m kind).foldl (fun m store => store m) m = (a.getFreeBlock m kind).2.2 := by
  rw [freeBlockStores, getFreeBlock]
  cases a.list kind (a.decisionId kind) with
  | some header => rfl
  | none => exact moreChunkStores_all 4 a m kind

theorem logStores_all {free : Nat} {a' : NAlc} {m' : Headers} (sz : BitVec 32)
    (hfree : a.getFreeBlock m .log = (some free, a', m')) :
    a.logStores m = some (a.freeBlockStores m .log ++
        handOutStores free ((a'.nextDecision .log).decisionId .log)) ∧
      (a.nAllocateLog m sz).map (fun r => r.2.2) = some
        ((a.freeBlockStores m .log ++ handOutStores free ((a'.nextDecision .log).decisionId .log)).foldl
          (fun m store => store m) m) := by
  constructor
  · rw [logStores, hfree]
    rfl
  · rw [nAllocateLog_of_found hfree, Option.map_some, List.foldl_append, freeBlockStores_all, hfree]
    simp only [handOutStores, setHeader, List.foldl_cons, List.foldl_nil, Function.update_self,
      Function.update_idem]

/-- The store goes to the header of a block that is not in use and leaves it so. -/
def Harmless (m : Headers) (store : Headers → Headers) : Prop :=
  ∃ header f, store = setHeader header f ∧ (m header).bitmap = 0 ∧
    ∀ b : BaseMeta, b.bitmap = 0 → (f b).bitmap = 0

theorem sameInUse_of_harmless {stores : List (Headers → Headers)}
    (h : ∀ store ∈ stores, Harmless m store) {m' : Headers} (hsame : SameInUse m m') :
    SameInUse m (stores.foldl (fun m store => store m) m') := by
  induction stores generalizing m' with
  | nil => exact hsame
  | cons store rest ih =>
    obtain ⟨header, f, rfl, hzero, hf⟩ := h store List.mem_cons_self
    apply ih fun s hs => h s (List.mem_cons_of_mem _ hs)
    exact hsame.setHeader hzero hf

theorem chunkStores_harmless (hzero : (m a.endAddress).bitmap = 0) :
    ∀ store ∈ a.chunkStores kind, Harmless m store := by
  intro store hmem
  simp only [chunkStores, List.mem_cons, List.not_mem_nil, or_false] at hmem
  rcases hmem with rfl | rfl | rfl | rfl
  · exact ⟨_, _, rfl, hzero, fun _ _ => rfl⟩
  · exact ⟨_, _, rfl, hzero, fun _ hb => hb⟩
  · exact ⟨_, _, rfl, hzero, fun _ hb => hb⟩
  · exact ⟨_, _, rfl, hzero, fun _ hb => hb⟩

theorem moreChunkStores_harmless {m₀ : Headers} (n : Nat)
    (hzero : ∀ i, i < n → (m₀ (a.endAddress + i * CHUNK_SIZE)).bitmap = 0) :
    ∀ store ∈ moreChunkStores n a m kind, Harmless m₀ store := by
  induction n generalizing a m with
  | zero => exact fun _ hmem => absurd hmem List.not_mem_nil
  | succ n ih =>
    intro store hmem
    rw [moreChunkStores] at hmem
    rcases List.mem_append.mp hmem with hmem | hmem
    · have hfirst := hzero 0 (Nat.succ_pos n)
      rw [Nat.zero_mul, Nat.add_zero] at hfirst
      exact chunkStores_harmless hfirst store hmem
    · apply ih _ store hmem
      intro i hi
      have hnext := hzero (i + 1) (Nat.succ_lt_succ hi)
      rw [Nat.succ_mul, Nat.add_comm (i * CHUNK_SIZE), ← Nat.add_assoc] at hnext
      exact hnext

end NAlc

/-! ### A record of which the first fields have been stored -/

/-- The record as the first `k` stores leave it over zeros, for `k` from 1 on. -/
def LogEntry.cutTo (e : LogEntry) (k : Nat) : LogEntry :=
  { e with
    pptr := if k < 2 then 0 else e.pptr
    op := if k < 3 then 0 else e.op
    key := if k < 4 then 0 else e.key
    val := if k < 5 then 0 else e.val }

theorem Bytes.put8_zero {o : Bytes} {i : Nat} (h : o i = 0) : o.put8 i 0 = o := by
  rw [Bytes.put8, ← h, Function.update_eq_self]

theorem Bytes.put64_zero {o : Bytes} {i : Nat} (h : ∀ d, d < 8 → o (i + d) = 0) :
    o.put64 i 0 = o := by
  funext k
  rw [Bytes.put64]
  by_cases hk : i ≤ k ∧ k < i + 8
  · rw [if_pos hk]
    obtain ⟨d, rfl⟩ := Nat.exists_eq_add_of_le hk.1
    rw [h d (by omega)]
    exact BitVec.extractLsb'_zero
  · rw [if_neg hk]

theorem LogEntry.storeFirst_clear (e : LogEntry) {o : Bytes} {node j d : Nat}
    (hzero : ∀ d, d < logNodeSize → o (node + d) = 0) (hd : 8 ≤ d) (hd' : d < 32) (hj : j < 5)
    (hpptr : j ≤ 1 ∨ 16 ≤ d) (hkeys : j ≤ 3 ∨ 24 ≤ d) : e.storeFirst j o node (node + d) = 0 := by
  have hkey : logKeyOffset = 16 := rfl
  have hj' : j = 0 ∨ j = 1 ∨ j = 2 ∨ j = 3 ∨ j = 4 := by omega
  have hold := hzero d hd'
  rcases hj' with rfl | rfl | rfl | rfl | rfl
  all_goals
    simp only [storeFirst, stores, List.take_succ_cons, List.take_zero, List.foldl_cons,
      List.foldl_nil, Bytes.put32, Bytes.put64, Bytes.put8, Function.update_apply, hkey]
    grind

theorem LogEntry.storeFirst_clear_op (e : LogEntry) {o : Bytes} {node j : Nat}
    (hzero : ∀ d, d < logNodeSize → o (node + d) = 0) (hj : j < 3) :
    e.storeFirst j o node (node + 2) = 0 := by
  have hj' : j = 0 ∨ j = 1 ∨ j = 2 := by omega
  have hold := hzero 2 (by decide)
  rcases hj' with rfl | rfl | rfl
  all_goals
    simp only [storeFirst, stores, List.take_succ_cons, List.take_zero, List.foldl_cons,
      List.foldl_nil, Bytes.put32, Bytes.put64]
    grind

/-- Storing zeros into zeros changes nothing. -/
theorem LogEntry.storeFirst_cutTo (e : LogEntry) {o : Bytes} {node k : Nat} (hk : 0 < k)
    (hzero : ∀ d, d < logNodeSize → o (node + d) = 0) :
    (e.cutTo k).storeFirst 5 o node = e.storeFirst k o node := by
  have hpptr : k ≤ 1 → (e.storeFirst k o node).put64 (node + 8) 0 = e.storeFirst k o node := by
    intro hle
    apply Bytes.put64_zero
    intro d hd
    rw [Nat.add_assoc]
    exact e.storeFirst_clear hzero (by omega) (by omega) (by omega) (by omega) (by omega)
  have hop : k ≤ 2 → (e.storeFirst k o node).put8 (node + 2) 0 = e.storeFirst k o node :=
    fun hle => Bytes.put8_zero (e.storeFirst_clear_op hzero (by omega))
  have hkey : k ≤ 3 → (e.storeFirst k o node).put64 (node + 16) 0 = e.storeFirst k o node := by
    intro hle
    apply Bytes.put64_zero
    intro d hd
    rw [Nat.add_assoc]
    exact e.storeFirst_clear hzero (by omega) (by omega) (by omega) (by omega) (by omega)
  have hval : k ≤ 4 → (e.storeFirst k o node).put64 (node + 24) 0 = e.storeFirst k o node := by
    intro hle
    apply Bytes.put64_zero
    intro d hd
    rw [Nat.add_assoc]
    exact e.storeFirst_clear hzero (by omega) (by omega) (by omega) (by omega) (by omega)
  match k with
  | 1 =>
    change ((((e.storeFirst 1 o node).put64 (node + 8) 0).put8 (node + 2) 0).put64 (node + 16) 0).put64
      (node + 24) 0 = _
    rw [hpptr (by decide), hop (by decide), hkey (by decide), hval (by decide)]
  | 2 =>
    change (((e.storeFirst 2 o node).put8 (node + 2) 0).put64 (node + 16) 0).put64 (node + 24) 0 = _
    rw [hop (by decide), hkey (by decide), hval (by decide)]
  | 3 =>
    change ((e.storeFirst 3 o node).put64 (node + 16) 0).put64 (node + 24) 0 = _
    rw [hkey (by decide), hval (by decide)]
  | 4 =>
    change (e.storeFirst 4 o node).put64 (node + 24) 0 = _
    rw [hval (by decide)]
  | n + 5 =>
    have hsame : e.cutTo (n + 5) = e := by
      rw [cutTo, if_neg (by omega), if_neg (by omega), if_neg (by omega), if_neg (by omega)]
    rw [hsame]
    simp [storeFirst, stores]

/-! ### The headers after a prefix of the stores -/

namespace Logger

variable {b : LogBuild} {s : Logger} {c c' : BlockCuts} {content : Nat → List LogEntry}
  {recs : List (LogEntry × Nat)} {e : LogEntry}

theorem Logged.next_unused (h : s.Logged b c content recs) (hexact : c'.Exact)
    (hcuts : c.Extends c') (hcount : s.segs < c'.count .log) :
    (s.worker.mem (blockAt s.worker.alc.startAddress (c'.place .log s.segs))).bitmap = 0 := by
  by_cases hold : s.segs < c.count .log
  · rw [hcuts.place_eq hold]
    exact (h.filled.marked .log s.segs hold).log_unused rfl (Nat.le_refl _)
  · apply h.unmarked
    by_contra hlt
    obtain ⟨kind, j, hj, heq⟩ := h.filled.kept.listed.exact.place_onto (Nat.not_le.mp hlt)
    rw [← hcuts.place_eq hj] at heq
    obtain ⟨rfl, rfl⟩ :=
      hexact.place_inj (Nat.lt_of_lt_of_le hj (hcuts.count_le kind)) hcount heq
    exact hold hj

/-- The stores into the headers: together they do what `append_one` does there, and before the
last one of them every header that has changed is out of use. -/
theorem Logged.header_stores (h : s.Logged b c content recs) {piece : BlockKind × Region}
    {w : Worker} (heval : s.worker.call (.append e.version) = some (piece, w))
    (hwrap : s.segs < 2 ^ 32) :
    ∃ stores, s.appendStores e piece.2.base = some (stores, e.stores piece.2.base) ∧
      stores.foldl (fun m store => store m) s.worker.mem = w.mem ∧
      ∀ n, n < stores.length →
        SameInUse s.worker.mem ((stores.take n).foldl (fun m store => store m) s.worker.mem) := by
  rw [Worker.call, DSeg.appendOne] at heval
  -- a new segment costs stores into headers, a record of the active one costs none
  by_cases hseg : s.worker.seg.needsSegment e.version
  · obtain ⟨c', a', m', hgrown, hfour, hlt, hfound, hsome⟩ :=
      h.filled.kept.nAllocateLog s.worker.mem segmentSize
    have hd : (s.worker.alc.decisionId .log).toNat = s.segs := by
      rw [h.filled.log_taken, BitVec.toNat_ofNat, Nat.mod_eq_of_lt hwrap]
    rw [hd] at hlt hfound hsome
    set free := s.worker.alc.header c' .log s.segs with hfree
    have hzero : (s.worker.mem free).bitmap = 0 := by
      have hkept := h.filled.kept.of_grown_log hgrown hfour (hd.symm ▸ hlt)
      exact h.next_unused hkept.listed.exact hgrown.extends_cuts hlt
    obtain ⟨hstores, hall⟩ := NAlc.logStores_all segmentSize
      (show s.worker.alc.getFreeBlock s.worker.mem .log = (some free, _, _) from
        Prod.ext hfound rfl)
    rw [if_pos hseg, DSeg.resize, hsome] at heval
    rw [hsome, Option.map_some, Option.some.injEq] at hall
    simp only [Option.bind_eq_bind, Option.bind_some, Option.pure_def, Option.some.injEq,
      Prod.mk.injEq] at heval
    obtain ⟨-, rfl⟩ := heval
    refine ⟨_, ?_, hall.symm, ?_⟩
    · rw [appendStores, if_pos hseg, hstores]
      rfl
    · -- all stores but the one into the bitmap
      intro n hn
      set last := setHeader free fun b => { b with bitmap := LOG_MARK } with hlast
      set id := (((s.worker.alc.getFreeBlock s.worker.mem .log).2.1.nextDecision .log).decisionId .log)
      have hsplit : s.worker.alc.freeBlockStores s.worker.mem .log ++ NAlc.handOutStores free id =
          (s.worker.alc.freeBlockStores s.worker.mem .log ++
            [setHeader free fun b => { b with blockType := BlockKind.log.code },
              setHeader free fun b => { b with blockId := id.setWidth 30 }]) ++ [last] := by
        rw [List.append_assoc]
        rfl
      rw [hsplit, List.length_append, List.length_singleton] at hn
      rw [hsplit, List.take_append_of_le_length (Nat.le_of_lt_succ hn)]
      refine NAlc.sameInUse_of_harmless (fun store hmem => ?_) (SameInUse.refl _)
      -- four blocks that are cut, or the two fields of the block handed out
      rcases List.mem_append.mp (List.mem_of_mem_take hmem) with hmem | hmem
      · rw [NAlc.freeBlockStores] at hmem
        cases hentry : s.worker.alc.list .log (s.worker.alc.decisionId .log) with
        | some header =>
          rw [hentry] at hmem
          exact absurd hmem List.not_mem_nil
        | none =>
          rw [hentry] at hmem
          refine NAlc.moreChunkStores_harmless 4 (fun i _ => ?_) store hmem
          have hend := h.filled.kept.listed.end_eq
          have hblock : s.worker.alc.endAddress + i * CHUNK_SIZE =
              blockAt s.worker.alc.startAddress (c.total + i) := by
            rw [hend, blockAt, blockAt, Nat.add_mul, Nat.add_assoc]
          rw [hblock]
          exact h.unmarked _ (Nat.le_add_right _ _)
      · rcases List.mem_pair.mp hmem with rfl | rfl
        · exact ⟨_, _, rfl, hzero, fun _ hb => hb⟩
        · exact ⟨_, _, rfl, hzero, fun _ hb => hb⟩
  · rw [if_neg hseg] at heval
    simp only [Option.bind_eq_bind, Option.bind_some, Option.pure_def, Option.some.injEq,
      Prod.mk.injEq] at heval
    obtain ⟨-, rfl⟩ := heval
    refine ⟨[], ?_, rfl, fun n hn => absurd hn (Nat.not_lt_zero n)⟩
    rw [appendStores, if_neg hseg]
    rfl

end Logger

/-! ### What the scan shows

A crash leaves a prefix of the stores. The headers come first and change nothing that the scan looks at until
the bitmap of the block is set; the record follows, its version before its key and its value. -/

/-- The scan shows all records when no version is zero. -/
theorem LogImage.replayed_perm {m : Headers} {o : Bytes} {start : Nat} {c : BlockCuts} {segs : Nat}
    {content : Nat → List LogEntry} {blocks : List Nat} (h : LogImage m o start c segs content)
    (hcovers : Covers m start c segs blocks)
    (hversion : ∀ p ∈ LogImage.records start c segs content, p.1.version ≠ 0) :
    (replayed m o blocks).Perm ((LogImage.records start c segs content).map LogEntry.shown) := by
  have hall : LogImage.visited start c segs content = LogImage.records start c segs content := by
    apply List.flatMap_congr
    intro j hj
    rw [readable, List.takeWhile_eq_self_iff]
    intro p hp
    exact decide_eq_true (hversion p (List.mem_flatMap.mpr ⟨j, hj, hp⟩))
  have hperm := h.scanLog_perm hcovers
  change (scanLog m o blocks).Perm ((LogImage.visited start c segs content).map Prod.snd) at hperm
  rw [hall] at hperm
  refine (hperm.map _).trans (List.Perm.of_eq ?_)
  rw [List.map_map]
  apply List.map_congr_left
  intro p hp
  obtain ⟨j, hj, hmem⟩ := List.mem_flatMap.mp hp
  obtain ⟨hkey, hval⟩ := h.record_read (List.mem_range.mp hj) hmem
  exact Prod.ext rfl (Prod.ext hkey hval)

/-- Some order of the blocks in use is an order to list the rebuilt directory in. -/
theorem PoolImage.lists {m : Headers} {start poolLen : Nat} {c : BlockCuts}
    {used : BlockKind → Nat} (h : PoolImage m start c used)
    (hrounds : c.total ≤ NAlc.scanRounds poolLen) :
    (NAlc.reopen m start poolLen).Lists m
      ((List.range (used .log)).map fun j => blockAt start (c.place .log j)) := by
  have hreopened := h.reopen_spec hrounds
  have hshift : BlockKind.log.shift = 1 := rfl
  have hle := h.used_le .log
  refine ⟨?_, ?_, ?_⟩
  · apply List.nodup_range.map_on
    intro i hi j hj heq
    exact (h.exact.place_inj (Nat.lt_of_lt_of_le (List.mem_range.mp hi) hle)
      (Nat.lt_of_lt_of_le (List.mem_range.mp hj) hle) (blockAt_injective heq)).2
  · intro header hmem
    obtain ⟨j, hj, rfl⟩ := List.mem_map.mp hmem
    have hlt := List.mem_range.mp hj
    have htotal := h.exact.count_le_total .log
    have hsmall := h.small
    have hid : (BitVec.ofNat 32 (j + 1)).toNat = j + 1 := by
      rw [BitVec.toNat_ofNat]
      omega
    refine ⟨BitVec.ofNat 32 (j + 1), ?_⟩
    rw [hreopened.entry, hid, hshift, if_pos ⟨Nat.le_add_left _ _, hlt⟩, Nat.add_sub_cancel]
  · intro id header hid _
    rw [hreopened.entry, hshift] at hid
    by_cases hin : 1 ≤ id.toNat ∧ id.toNat - 1 < used .log
    · rw [if_pos hin, Option.some.injEq] at hid
      exact List.mem_map.mpr ⟨_, List.mem_range.mpr hin.2, hid⟩
    · rw [if_neg hin] at hid
      exact absurd hid (by simp)

namespace Logger

variable {s : Logger} {c : BlockCuts} {content : Nat → List LogEntry}
  {recs : List (LogEntry × Nat)} {e : LogEntry}

/-- Which segment is open depends on the version only. -/
theorem Opened.congr {node : Nat} {w : Worker} {c' : BlockCuts} {j : Nat}
    (h : s.Opened .plain c content recs e node w c' j) {e' : LogEntry}
    (hversion : e'.version = e.version) : s.Opened .plain c content recs e' node w c' j := by
  refine { h with room := h.room, segments := ?_ }
  have hold := h.segments
  unfold LogBuild.fill at hold ⊢
  split at hold
  · rw [List.cons.injEq] at hold ⊢
    obtain ⟨hlast, hrest⟩ := hold
    have hnone : content j = [] := by simpa using hlast.symm
    rw [hnone]
    exact ⟨rfl, hrest⟩
  · rename_i seg rest
    rw [hversion]
    split at hold
    · rename_i hfull
      rw [if_pos hfull]
      rw [List.cons.injEq] at hold ⊢
      obtain ⟨hlast, hrest⟩ := hold
      have hnone : content j = [] := by simpa using hlast.symm
      rw [hnone]
      exact ⟨rfl, hrest⟩
    · rename_i hfits
      rw [if_neg hfits]
      rw [List.cons.injEq] at hold ⊢
      exact ⟨congrArg (· ++ [e']) (List.append_cancel_right hold.1), hold.2⟩

theorem Logged.opened (h : s.Logged .plain c content recs) {piece : BlockKind × Region}
    {w : Worker} (heval : s.worker.call (.append e.version) = some (piece, w))
    (hwrap : s.segs < 2 ^ 32) :
    ∃ c' j, s.Opened .plain c content recs e piece.2.base w c' j := by
  by_cases hseg : s.worker.seg.needsSegment e.version
  · obtain ⟨c', ho⟩ := h.opened_new (Nat.zero_le _) hseg heval hwrap
    exact ⟨c', s.segs, ho⟩
  · exact ⟨c, s.segs - 1, h.opened_same hseg heval⟩

/-- Before the block is in use, the scan shows what it showed before. -/
theorem Logged.replayed_before (h : s.Logged .plain c content recs) {m' : Headers}
    (hsame : SameInUse s.worker.mem m') (hversion : ∀ p ∈ recs, p.1.version ≠ 0)
    {address poolLen : Nat} (haddress : s.worker.alc.startAddress = address)
    (hpool : s.InPool address poolLen) {blocks : List Nat}
    (hlists : (NAlc.reopen m' address poolLen).Lists m' blocks) :
    (replayed m' s.bytes blocks).Perm (recs.map LogEntry.shown) := by
  subst haddress
  obtain ⟨hrounds, hsmall⟩ := hpool.total_le h.filled.kept.listed.end_eq
  have hused : ∀ j, j < s.segs →
      m' (blockAt s.worker.alc.startAddress (c.place .log j)) =
        s.worker.mem (blockAt s.worker.alc.startAddress (c.place .log j)) := by
    intro j hj
    rcases hsame (blockAt s.worker.alc.startAddress (c.place .log j)) with heq | ⟨hz, -⟩
    · exact heq
    · exact absurd hz (h.image.used j hj).1
  have himage : LogImage m' s.bytes s.worker.alc.startAddress c s.segs content :=
    { h.image with
      used := fun j hj => by
        rw [hused j hj]
        exact h.image.used j hj }
  have hcovers : Covers m' s.worker.alc.startAddress c s.segs blocks := by
    rw [hsame.reopen] at hlists
    exact (h.filled.poolImage h.unmarked hsmall).covers hrounds
      (fun j hj => (himage.used j hj).1) hlists
  have hrecs : recs = LogImage.records s.worker.alc.startAddress c s.segs content := h.records
  rw [hrecs] at hversion ⊢
  exact himage.replayed_perm hcovers hversion

/-- With the segment open and nothing stored into the record, it still does. -/
theorem Opened.replayed_opened (h : s.Logged .plain c content recs) {node : Nat} {w : Worker}
    {c' : BlockCuts} {j : Nat} (ho : s.Opened .plain c content recs e node w c' j)
    (hversion : ∀ p ∈ recs, p.1.version ≠ 0) {blocks : List Nat}
    (hcovers : Covers w.mem s.worker.alc.startAddress c' (j + 1) blocks) :
    (replayed w.mem s.bytes blocks).Perm (recs.map LogEntry.shown) := by
  have hplace : ∀ {i}, i < j → c'.place .log i = c.place .log i := fun hi =>
    ho.cuts.place_eq (Nat.lt_of_lt_of_le (hi.trans_le ho.le_segs) (h.filled.taken_le .log))
  have himage : LogImage w.mem s.bytes s.worker.alc.startAddress c' (j + 1) content := by
    refine ⟨ho.filled.kept.listed.exact, ?_, ?_, ?_, ?_⟩
    · exact (Nat.le_of_eq ho.taken.symm).trans (ho.filled.taken_le .log)
    · intro i hi
      have hcount := Nat.lt_of_lt_of_le (ho.taken ▸ hi) (ho.filled.taken_le .log)
      have hb := ho.filled.marked .log i hcount
      rw [NAlc.header, ho.start] at hb
      refine ⟨?_, hb.start⟩
      rw [(hb.log_used rfl (ho.taken ▸ hi)).1]
      decide
    · intro i hi
      rcases Nat.lt_succ_iff_lt_or_eq.mp hi with hlt | rfl
      · rw [hplace hlt]
        exact h.stored i (hlt.trans_le ho.le_segs)
      · exact ho.stored
    · intro i hi
      rcases Nat.lt_succ_iff_lt_or_eq.mp hi with hlt | rfl
      · exact h.room i (hlt.trans_le ho.le_segs)
      · exact Nat.lt_of_le_of_lt (Nat.le_add_right _ _) ho.room
  have hrecs : recs = LogImage.records s.worker.alc.startAddress c' (j + 1) content := by
    rw [ho.records, LogImage.records, List.range_succ, List.flatMap_append, List.flatMap_singleton]
    refine congrArg (· ++ _) (List.flatMap_congr fun i hi => ?_)
    rw [LogImage.recordsAt, hplace (List.mem_range.mp hi)]
    rfl
  rw [hrecs] at hversion ⊢
  exact himage.replayed_perm hcovers hversion

/-- Once the version is there, the scan shows the record as it stands at that moment. -/
theorem Opened.replayed_partial (h : s.Logged .plain c content recs) {node : Nat} {w : Worker}
    {c' : BlockCuts} {j : Nat} (ho : s.Opened .plain c content recs e node w c' j)
    (hversion : ∀ p ∈ recs, p.1.version ≠ 0) (he : e.version ≠ 0) {k : Nat} (hk : 0 < k)
    {blocks : List Nat} (hcovers : Covers w.mem s.worker.alc.startAddress c' (j + 1) blocks) :
    (replayed w.mem (e.storeFirst k s.bytes node) blocks).Perm
      ((recs ++ [(e.cutTo k, node)]).map LogEntry.shown) := by
  have hcut : s.Opened .plain c content recs (e.cutTo k) node w c' j := ho.congr rfl
  have hwritten := hcut.write h
  have hbytes : LogBuild.plain.write s.bytes node (e.cutTo k) = e.storeFirst k s.bytes node := by
    have hnone : LogBuild.plain.payload (e.cutTo k) = 0 := rfl
    rw [LogBuild.write, hnone, Bytes.copyIn_none]
    apply e.storeFirst_cutTo hk
    intro d hd
    have hroom := ho.room
    have hwidth : LogBuild.plain.codec.width e = logNodeSize := rfl
    have hend : DSeg.logEnd = dataSize := rfl
    rw [ho.node_eq, Nat.add_assoc]
    exact ho.stored.beyond (Nat.le_add_right _ _) (by omega)
  rw [hbytes] at hwritten
  have hsegs : w.taken .log = j + 1 := ho.taken
  have himage := hwritten.image
  change LogImage w.mem _ w.alc.startAddress c' (w.taken .log) _ at himage
  rw [ho.start, hsegs] at himage
  have hrecs := hwritten.records
  change _ = LogImage.records w.alc.startAddress c' (w.taken .log) _ at hrecs
  rw [ho.start, hsegs] at hrecs
  have hversions : ∀ p ∈ recs ++ [(e.cutTo k, node)], p.1.version ≠ 0 := by
    intro p hp
    rcases List.mem_append.mp hp with hold | hnew
    · exact hversion p hold
    · rw [List.mem_singleton.mp hnew]
      exact he
  rw [hrecs] at hversions ⊢
  exact himage.replayed_perm hcovers hversions

/-- Every prefix of the stores of an `append_one` is atomic exactly if there is nothing to store
behind the version but zeros. -/
theorem Logged.append_atomic (h : s.Logged .plain c content recs)
    (hversion : ∀ p ∈ recs, p.1.version ≠ 0) (he : e.version ≠ 0) {node : Nat} {s' : Logger}
    (heval : s.call .plain (.append e) = some ([(e, node)], s')) {address poolLen : Nat}
    (haddress : s.worker.alc.startAddress = address) (hpool : s'.InPool address poolLen) :
    ∃ stores, s.appendStores e node = some stores ∧
      s.afterStores stores (stores.1.length + stores.2.length) = (s'.worker.mem, s'.bytes) ∧
      ((∀ n, AllOrNothing (s.afterStores stores n).1 (s.afterStores stores n).2 address poolLen
          recs (e, node)) ↔ e.key = 0 ∧ e.val = 0) := by
  obtain ⟨⟨piece, w⟩, hcall, heval⟩ := Option.bind_eq_some_iff.mp heval
  rw [Option.pure_def, Option.some.injEq, Prod.mk.injEq, List.cons.injEq, Prod.mk.injEq] at heval
  obtain ⟨⟨⟨-, rfl⟩, -⟩, rfl⟩ := heval
  obtain ⟨piece', w', cw, hcall', hlater, hnext⟩ :=
    Worker.call_returns h.filled.kept (.append e.version)
  have heq := hcall.symm.trans hcall'
  rw [Option.some.injEq, Prod.mk.injEq] at heq
  obtain ⟨rfl, rfl⟩ := heq
  have hbase : w.alc.startAddress = address := hlater.start.trans haddress
  obtain ⟨-, hsmall⟩ := hpool.total_le (hbase ▸ hlater.kept.listed.end_eq)
  have htotal := hlater.cuts.total_le
  have hwrap : s.segs < 2 ^ 32 := by
    have hcount := h.filled.kept.listed.exact.count_le_total .log
    have htaken := h.filled.taken_le .log
    change s.worker.taken .log < 2 ^ 32
    omega
  have hpoolBefore : s.InPool address poolLen := by
    refine ⟨hpool.mapped, ?_⟩
    have hend := hpool.fits
    change w.alc.endAddress ≤ _ at hend
    rw [h.filled.kept.listed.end_eq]
    rw [hlater.kept.listed.end_eq, hlater.start] at hend
    exact (blockAt_le_iff.mpr htotal).trans hend
  -- the stores are those into the headers, and then those of the record
  obtain ⟨headers, hstores, hall, hsame⟩ := h.header_stores hcall hwrap
  obtain ⟨c', j, ho⟩ := h.opened hcall hwrap
  have hwritten := ho.write h
  have hcovers : ∀ blocks, (NAlc.reopen w.mem address poolLen).Lists w.mem blocks →
      Covers w.mem s.worker.alc.startAddress c' (j + 1) blocks := by
    intro blocks hlists
    have hcovers := hwritten.covers_reopened hbase hpool hlists
    change Covers w.mem address c' (w.taken .log) blocks at hcovers
    rwa [← haddress, ho.taken] at hcovers
  -- the memory once the headers have been stored
  have hafter : ∀ k, s.afterStores (headers, e.stores piece.2.base) (headers.length + k) =
      (w.mem, e.storeFirst k s.bytes piece.2.base) := by
    intro k
    rw [afterStores, List.take_of_length_le (Nat.le_add_right _ _), hall, Nat.add_sub_cancel_left]
    rfl
  refine ⟨_, hstores, ?_, ?_⟩
  · rw [hafter]
    have hnone : LogBuild.plain.payload e = 0 := rfl
    rw [LogBuild.write, hnone, Bytes.copyIn_none]
    rfl
  · constructor
    · -- the version is there and nothing else
      intro hatomic
      obtain ⟨hrounds, hsmall'⟩ := hpool.total_le (hbase ▸ hwritten.filled.kept.listed.end_eq)
      have himage := hwritten.filled.poolImage hwritten.unmarked hsmall'
      change PoolImage w.mem w.alc.startAddress c' _ at himage
      rw [hbase] at himage
      have hlists := himage.lists hrounds
      have hshown := ho.replayed_partial h hversion he Nat.one_pos (hcovers _ hlists)
      have hone := hatomic (headers.length + 1)
      rw [hafter] at hone
      rcases hone _ hlists with hold | hnew
      · have hlength := (hshown.symm.trans hold).length_eq
        simp at hlength
      · have hperm := hshown.symm.trans hnew
        rw [List.map_append, List.map_append, List.perm_append_left_iff] at hperm
        have hsame := List.singleton_perm_singleton.mp hperm
        simp only [LogEntry.shown, LogEntry.cutTo, Prod.mk.injEq] at hsame
        exact ⟨hsame.2.1.symm, hsame.2.2.symm⟩
    · rintro ⟨hkey, hval⟩ n blocks hlists
      -- a prefix within the headers shows the old records
      rcases Nat.lt_or_ge n headers.length with hlt | hge
      · left
        -- the record area is as it was, so the old records are all there is
        have hbytes : (s.afterStores (headers, e.stores piece.2.base) n).2 = s.bytes := by
          rw [afterStores, Nat.sub_eq_zero_of_le (Nat.le_of_lt hlt)]
          rfl
        rw [hbytes]
        exact h.replayed_before (hsame n hlt) hversion haddress hpoolBefore hlists
      · obtain ⟨k, rfl⟩ := Nat.exists_eq_add_of_le hge
        rw [hafter] at hlists ⊢
        rcases Nat.eq_zero_or_pos k with rfl | hk
        · left
          exact ho.replayed_opened h hversion (hcovers _ hlists)
        · right
          refine (ho.replayed_partial h hversion he hk (hcovers _ hlists)).trans (List.Perm.of_eq ?_)
          have hshown : LogEntry.shown (e.cutTo k, piece.2.base) = LogEntry.shown (e, piece.2.base) := by
            simp [LogEntry.shown, LogEntry.cutTo, hkey, hval]
          rw [List.map_append, List.map_append, List.map_singleton, List.map_singleton, hshown]

end Logger

/-- After any run of `append_one` calls with versions from 1 on, and for any further one: when
the pool is opened again after a prefix of its stores, the scan shows the old records or the old
ones and the new one, for every prefix exactly if the new key and value are zero. -/
theorem append_crash_atomic_iff {address : Nat} {m : Headers} {o : Bytes}
    (hzero : Logger.Zeroed address m o) {ops : List LoggerCall}
    (hfits : ∀ op ∈ ops, op.Fits .plain) (hversion : ∀ e ∈ Logger.appended ops, e.version ≠ 0)
    {e : LogEntry} (he : e.version ≠ 0) :
    ∃ recs s node s', (Logger.start address m o).run .plain ops = some (recs, s) ∧
      s.call .plain (.append e) = some ([(e, node)], s') ∧
      ∀ poolLen, s'.InPool address poolLen →
        ∃ stores, s.appendStores e node = some stores ∧
          s.afterStores stores (stores.1.length + stores.2.length) = (s'.worker.mem, s'.bytes) ∧
          ((∀ n, AllOrNothing (s.afterStores stores n).1 (s.afterStores stores n).2 address poolLen
              recs (e, node)) ↔ e.key = 0 ∧ e.val = 0) := by
  have hstart := Logger.start_logged .plain hzero
  have haddress : (Logger.start address m o).worker.alc.startAddress = address :=
    NAlc.init_startAddress address m
  obtain ⟨recs, s, c, hrun, hlater⟩ := Logger.run_returns .plain _ hstart.filled.kept ops
  obtain ⟨piece, w, cw, hcall, hlater', -⟩ :=
    Worker.call_returns hlater.kept (.append e.version)
  have heval : s.call .plain (.append e) = some ([(e, piece.2.base)],
      ⟨{ w with seg := w.seg.skip 0 }, LogBuild.plain.write s.bytes piece.2.base e⟩) := by
    rw [Logger.call, hcall]
    rfl
  refine ⟨recs, s, piece.2.base, _, hrun, heval, fun poolLen hpool => ?_⟩
  have hbase : s.worker.alc.startAddress = address := hlater.start.trans haddress
  -- the blocks of the run lie in the pool
  have hsmall : s.worker.alc.endAddress < blockAt s.worker.alc.startAddress (2 ^ 32) := by
    have hbase' : w.alc.startAddress = address := hlater'.start.trans hbase
    obtain ⟨-, htotal⟩ := hpool.total_le (hbase' ▸ hlater'.kept.listed.end_eq)
    have hle := hlater'.cuts.total_le
    rw [hlater.kept.listed.end_eq, blockAt_lt_iff]
    omega
  obtain ⟨c', content, h⟩ := hstart.run hfits hrun hsmall
  rw [List.nil_append] at h
  have hversions : ∀ p ∈ recs, p.1.version ≠ 0 := fun p hp =>
    hversion p.1 (Logger.run_entries hrun ▸ List.mem_map_of_mem hp)
  exact h.append_atomic hversions he heval hbase hpool

/-- A record with key and value zero, behind another one, in a new pool of a gigabyte. -/
theorem append_crash_atomic_zero :
    ∃ recs s node s', (Logger.start mmapStart (fun _ => BaseMeta.zero) Bytes.zero).run .plain
        [.append (insertEntry 1 10 8)] = some (recs, s) ∧
      s.call .plain (.append (insertEntry 0 0 8)) = some ([(insertEntry 0 0 8, node)], s') ∧
      ∃ stores, s.appendStores (insertEntry 0 0 8) node = some stores ∧
        ∀ n, AllOrNothing (s.afterStores stores n).1 (s.afterStores stores n).2 mmapStart (2 ^ 30)
          recs (insertEntry 0 0 8, node) := by
  let ops : List LoggerCall := [.append (insertEntry 1 10 8)]
  have hfits : ∀ op ∈ ops, op.Fits .plain := by
    intro op hop
    rw [List.mem_singleton.mp hop]
    exact Nat.zero_le _
  have hversion : ∀ e ∈ Logger.appended ops, e.version ≠ 0 := by
    intro e he
    rw [List.mem_singleton.mp he]
    decide
  obtain ⟨recs, s, node, s', hrun, hcall, hstores⟩ :=
    append_crash_atomic_iff (Logger.zeroed_zero mmapStart) hfits hversion
      (show (insertEntry 0 0 8).version ≠ 0 by decide)
  have hend : ((Logger.start mmapStart (fun _ => BaseMeta.zero) Bytes.zero).run .plain ops).bind
      (fun r => (r.2.call .plain (.append (insertEntry 0 0 8))).map fun r' =>
        r'.2.worker.alc.endAddress) = some (mmapStart + 1024 + 8 * CHUNK_SIZE) := by
    decide +kernel
  rw [hrun, Option.bind_some, hcall, Option.map_some, Option.some.injEq] at hend
  obtain ⟨stores, happend, -, hatomic⟩ := hstores (2 ^ 30) ⟨by decide, by rw [hend]; decide⟩
  exact ⟨recs, s, node, s', hrun, hcall, stores, happend, hatomic.mpr ⟨rfl, rfl⟩⟩

/-- A crash in the first insertion into a new pool: some prefix of its stores shows a record
that is neither absent nor complete. -/
theorem append_crash_shows_half :
    ∃ node s' stores,
      (Logger.start mmapStart (fun _ => BaseMeta.zero) Bytes.zero).call .plain
        (.append (insertEntry 1 10 8)) = some ([(insertEntry 1 10 8, node)], s') ∧
      (Logger.start mmapStart (fun _ => BaseMeta.zero) Bytes.zero).appendStores
        (insertEntry 1 10 8) node = some stores ∧
      ∃ n, ¬ AllOrNothing
        ((Logger.start mmapStart (fun _ => BaseMeta.zero) Bytes.zero).afterStores stores n).1
        ((Logger.start mmapStart (fun _ => BaseMeta.zero) Bytes.zero).afterStores stores n).2
        mmapStart (2 ^ 30) [] (insertEntry 1 10 8, node) := by
  have hstart := Logger.start_logged .plain (Logger.zeroed_zero mmapStart)
  have haddress : (Logger.start mmapStart (fun _ => BaseMeta.zero) Bytes.zero).worker.alc.startAddress =
      mmapStart := NAlc.init_startAddress mmapStart fun _ => BaseMeta.zero
  obtain ⟨piece, w, c, hcall, -, -⟩ :=
    Worker.call_returns hstart.filled.kept (.append (insertEntry 1 10 8).version)
  have heval : (Logger.start mmapStart (fun _ => BaseMeta.zero) Bytes.zero).call .plain
      (.append (insertEntry 1 10 8)) = some ([(insertEntry 1 10 8, piece.2.base)],
        ⟨{ w with seg := w.seg.skip 0 },
          LogBuild.plain.write Bytes.zero piece.2.base (insertEntry 1 10 8)⟩) := by
    rw [Logger.call, hcall]
    rfl
  have hend : ((Logger.start mmapStart (fun _ => BaseMeta.zero) Bytes.zero).call .plain
      (.append (insertEntry 1 10 8))).map (fun r => r.2.worker.alc.endAddress) =
        some (mmapStart + 1024 + 8 * CHUNK_SIZE) := by
    decide +kernel
  rw [heval, Option.map_some, Option.some.injEq] at hend
  have hpool : Logger.InPool ⟨{ w with seg := w.seg.skip 0 },
      LogBuild.plain.write Bytes.zero piece.2.base (insertEntry 1 10 8)⟩ mmapStart (2 ^ 30) :=
    ⟨by decide, by rw [hend]; decide⟩
  obtain ⟨stores, happend, -, hatomic⟩ :=
    hstart.append_atomic (fun p hp => absurd hp List.not_mem_nil)
      (show (insertEntry 1 10 8).version ≠ 0 by decide) heval haddress hpool
  refine ⟨_, _, stores, heval, happend, not_forall.mp fun hall => ?_⟩
  exact absurd (hatomic.mp hall).1 (by decide)

end ZBTree
