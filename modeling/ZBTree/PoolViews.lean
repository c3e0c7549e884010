import ZBTree.BlockOwners
import ZBTree.LogReplay
import ZBTree.PoolBounds

/-!
# One pool seen on its own

An allocator and the log segment of its thread read and write their own pool only. The view of
a pool is the memory with everything outside it blanked; a call on the real memory is the same
call on the view, as long as what it cuts lies in the pool, and leaves the views of the other
pools as they are.
-/

namespace ZBTree

namespace Region

def Has (r : Region) (x : Nat) : Prop := r.base ≤ x ∧ x < r.limit

instance (r : Region) (x : Nat) : Decidable (r.Has x) := inferInstanceAs (Decidable (_ ∧ _))

/-- The part of a memory that lies in the region; elsewhere it is `z`. -/
def clip {α : Type} (r : Region) (z : α) (m : Nat → α) : Nat → α := fun x => if r.Has x then m x else z

variable {α : Type} {r : Region} {z : α} {m m' : Nat → α} {x : Nat}

theorem clip_of_has (h : r.Has x) : r.clip z m x = m x := if_pos h

theorem clip_of_not (h : ¬ r.Has x) : r.clip z m x = z := if_neg h

theorem clip_congr (h : ∀ x, r.Has x → m' x = m x) : r.clip z m' = r.clip z m := by
  funext x
  by_cases hx : r.Has x
  · rw [clip_of_has hx, clip_of_has hx, h x hx]
  · rw [clip_of_not hx, clip_of_not hx]

theorem clip_update (h : r.Has x) (b : α) :
    r.clip z (Function.update m x b) = Function.update (r.clip z m) x b := by
  funext y
  by_cases hy : y = x
  · subst hy
    rw [clip_of_has h, Function.update_self, Function.update_self]
  · rw [Function.update_of_ne hy]
    by_cases hr : r.Has y
    · rw [clip_of_has hr, clip_of_has hr, Function.update_of_ne hy]
    · rw [clip_of_not hr, clip_of_not hr]

theorem Disjoint.not_has {r' : Region} (h : r.Disjoint r') (hx : r.Has x) : ¬ r'.Has x := by
  rintro ⟨hlow, hhigh⟩
  exact not_disjoint_of_mem hx ⟨hlow, hhigh⟩ h

end Region

/-! ### Calls of the allocator -/

namespace NAlc

variable {r : Region} {a a' : NAlc} {m m' : Headers} {kind : BlockKind}

/-- The blocks of the allocator lie in the region. -/
structure Inside (a : NAlc) (r : Region) : Prop where
  base_le : r.base ≤ a.endAddress
  listed : ∀ kind id header, a.list kind id = some header → r.Has header

/-- What a call on the real headers leaves when the same call on the clipped ones leaves `m'`. -/
structure Extends (r : Region) (m m' M' : Headers) : Prop where
  clip : r.clip BaseMeta.zero M' = m'
  outside : ∀ x, ¬ r.Has x → M' x = m x

theorem Extends.update {M' : Headers} (h : Extends r m m' M') {header : Nat} (hin : r.Has header) (b : BaseMeta) :
    Extends r m (Function.update m' header b) (Function.update M' header b) where
  clip := by rw [Region.clip_update hin, h.clip]
  outside x hx := by
    have hne : x ≠ header := by
      rintro rfl
      exact hx hin
    rw [Function.update_of_ne hne, h.outside x hx]

theorem Extends.read {M' : Headers} (h : Extends r m m' M') {header : Nat} (hin : r.Has header) :
    m' header = M' header := by
  rw [← h.clip, Region.clip_of_has hin]

theorem getMoreChunk_extends (kind : BlockKind) (n : Nat) (hbase : r.base ≤ a.endAddress)
    (hend : a.endAddress + n * CHUNK_SIZE ≤ r.limit) {M : Headers} (hM : Extends r m m' M) :
    (getMoreChunk n a m' kind).1 = (getMoreChunk n a M kind).1 ∧
      Extends r m (getMoreChunk n a m' kind).2 (getMoreChunk n a M kind).2 := by
  induction n generalizing a m' M with
  | zero => exact ⟨rfl, hM⟩
  | succ n ih =>
    have hsize : 0 < CHUNK_SIZE := by decide
    rw [Nat.succ_mul] at hend
    have hin : r.Has a.endAddress := ⟨hbase, by omega⟩
    apply ih (a := (a.cutChunk m' kind).1)
    · change r.base ≤ a.endAddress + CHUNK_SIZE
      omega
    · change a.endAddress + CHUNK_SIZE + n * CHUNK_SIZE ≤ r.limit
      omega
    · exact hM.update hin _

/-- A block that is listed after a cut was listed before or has been cut. -/
theorem getMoreChunk_listed (n : Nat) {kind' : BlockKind} {id : BitVec 32} {header : Nat}
    (h : (getMoreChunk n a m kind).1.list kind' id = some header) :
    a.list kind' id = some header ∨
      (a.endAddress ≤ header ∧ header < a.endAddress + n * CHUNK_SIZE) := by
  induction n generalizing a m with
  | zero => exact Or.inl h
  | succ n ih =>
    have hsize : 0 < CHUNK_SIZE := by decide
    rw [Nat.succ_mul]
    rcases ih (a := (a.cutChunk m kind).1) h with hold | hnew
    · change (a.setEntry kind (a.pageId kind) (some a.endAddress)).list kind' id = some header at hold
      by_cases hk : kind' = kind
      · subst hk
        rw [setEntry_list_self] at hold
        split_ifs at hold
        · obtain rfl := Option.some.inj hold
          right
          omega
        · exact Or.inl hold
      · rw [setEntry_list_of_ne _ _ _ _ _ hk] at hold
        exact Or.inl hold
    · change a.endAddress + CHUNK_SIZE ≤ header ∧ header < a.endAddress + CHUNK_SIZE + _ at hnew
      right
      omega

theorem getFreeBlock_extends (h : a.Inside r) {free : Nat} {m₁ : Headers}
    (hcall : a.getFreeBlock (r.clip BaseMeta.zero m) kind = (some free, a', m₁))
    (hend : a'.endAddress ≤ r.limit) :
    ∃ M, a.getFreeBlock m kind = (some free, a', M) ∧ Extends r m m₁ M ∧ r.Has free := by
  have hclip : Extends r m (r.clip BaseMeta.zero m) m := ⟨rfl, fun _ _ => rfl⟩
  unfold getFreeBlock at hcall ⊢
  cases hentry : a.list kind (a.decisionId kind) with
  | some header =>
    rw [hentry] at hcall
    cases hcall
    exact ⟨m, rfl, hclip, h.listed _ _ _ hentry⟩
  | none =>
    rw [hentry] at hcall
    simp only [Prod.mk.injEq] at hcall ⊢
    obtain ⟨hfree, ha, hm⟩ := hcall
    have hlast : (getMoreChunk 4 a (r.clip BaseMeta.zero m) kind).1.endAddress = _ :=
      getMoreChunk_endAddress 4 a _
    rw [ha] at hlast
    obtain ⟨hsame, hext⟩ := getMoreChunk_extends kind 4 h.base_le (by omega) hclip
    refine ⟨_, ⟨hsame ▸ hfree, hsame ▸ ha, rfl⟩, hm ▸ hext, ?_⟩
    rcases getMoreChunk_listed 4 hfree with hold | ⟨hlow, hhigh⟩
    · exact h.listed _ _ _ hold
    · exact ⟨h.base_le.trans hlow, by omega⟩

theorem nAllocateTree_extends (h : a.Inside r) {sz : BitVec 32} {q : Nat}
    (hcall : a.nAllocateTree (r.clip BaseMeta.zero m) sz = some (q, a', m')) (hend : a'.endAddress ≤ r.limit) :
    ∃ M, a.nAllocateTree m sz = some (q, a', M) ∧ Extends r m m' M := by
  have hclip : Extends r m (r.clip BaseMeta.zero m) m := ⟨rfl, fun _ _ => rfl⟩
  obtain ⟨first, hfirst, hcases⟩ := nAllocateTree_cases hcall
  have hin := h.listed _ _ _ hfirst
  have hread : r.clip BaseMeta.zero m first = m first := Region.clip_of_has hin
  rcases hcases with ⟨hroom, rfl, rfl, rfl⟩ | ⟨hlacks, free, m₁, hfree, rfl, rfl⟩
  · rw [hread] at hroom ⊢
    exact ⟨_, nAllocateTree_of_room hfirst hroom, hclip.update hin _⟩
  · rw [hread] at hlacks
    obtain ⟨M, hfree', hext, hin'⟩ :=
      getFreeBlock_extends (a := a.nextDecision .node) ⟨h.base_le, h.listed⟩ hfree hend
    rw [hext.read hin']
    exact ⟨_, nAllocateTree_of_full hfirst hlacks hfree', hext.update hin' _⟩

theorem nAllocateLog_extends (h : a.Inside r) {sz : BitVec 32} {q : Nat}
    (hcall : a.nAllocateLog (r.clip BaseMeta.zero m) sz = some (q, a', m')) (hend : a'.endAddress ≤ r.limit) :
    ∃ M, a.nAllocateLog m sz = some (q, a', M) ∧ Extends r m m' M := by
  obtain ⟨free, a₁, m₁, hfree, rfl, rfl, rfl⟩ := nAllocateLog_cases hcall
  obtain ⟨M, hfree', hext, hin⟩ := getFreeBlock_extends h hfree hend
  rw [hext.read hin]
  exact ⟨_, nAllocateLog_of_found hfree', hext.update hin _⟩

theorem init_extends (hbase : r.base + 1024 + 8 * CHUNK_SIZE ≤ r.limit) :
    (init r.base (r.clip BaseMeta.zero m)).1 = (init r.base m).1 ∧
      Extends r m (init r.base (r.clip BaseMeta.zero m)).2 (init r.base m).2 := by
  let a₀ : NAlc :=
    { list := fun _ _ => none, pageId := fun _ => 0, decisionId := fun _ => 0,
      startAddress := r.base, endAddress := r.base + 1024 }
  have hclip : Extends r m (r.clip BaseMeta.zero m) m := ⟨rfl, fun _ _ => rfl⟩
  have hlow : r.base ≤ a₀.endAddress := Nat.le_add_right _ _
  have hstart : a₀.endAddress = r.base + 1024 := rfl
  obtain ⟨hsame, hext⟩ := getMoreChunk_extends .node 4 hlow (by omega) hclip
  have hnext : (getMoreChunk 4 a₀ m .node).1.endAddress = _ := getMoreChunk_endAddress 4 a₀ m
  obtain ⟨hsame', hext'⟩ := getMoreChunk_extends (a := (getMoreChunk 4 a₀ m .node).1) .log 4
    (by omega) (by omega) hext
  have hinit : ∀ m, init r.base m =
      getMoreChunk 4 (getMoreChunk 4 a₀ m .node).1 (getMoreChunk 4 a₀ m .node).2 .log := fun _ => rfl
  rw [hinit, hinit, hsame]
  exact ⟨hsame', hext'⟩

theorem Kept.inside {c : BlockCuts} (h : a.Kept c) (hbase : r.base = a.startAddress)
    (hend : a.endAddress ≤ r.limit) : a.Inside r := by
  refine ⟨?_, fun kind id header hentry => ?_⟩
  · rw [hbase, h.listed.end_eq]
    unfold blockAt
    omega
  · rw [h.listed.entry] at hentry
    split_ifs at hentry with hlt
    obtain rfl := Option.some.inj hentry
    obtain ⟨hlow, hhigh⟩ := header_bounds h.listed hlt
    unfold NAlc.header at hlow hhigh
    exact ⟨by omega, by omega⟩

end NAlc

/-! ### Threads on their own pools

A thread that is alone on its pool is a `Logger`. `view` takes from the memory of all threads what one of them sees,
with everything outside its pool blanked out. -/

theorem Logger.plain_append {s s' : Logger} {e : LogEntry} {node : Nat}
    (h : s.call .plain (.append e) = some ([(e, node)], s')) :
    s'.bytes = LogBuild.plain.write s.bytes node e ∧
      ((s.worker.seg.needsSegment e.version ∧
          s.worker.alc.nAllocateLog s.worker.mem segmentSize = some (node, s'.worker.alc, s'.worker.mem) ∧
          s'.worker.seg = ⟨logNodeSize, node, node + logNodeSize⟩) ∨
        (¬ s.worker.seg.needsSegment e.version ∧ node = s.worker.seg.vecStart ∧
          s'.worker.alc = s.worker.alc ∧ s'.worker.mem = s.worker.mem ∧
          s'.worker.seg = s.worker.seg.skip logNodeSize)) := by
  obtain ⟨⟨piece, w⟩, hwork, h⟩ := Option.bind_eq_some_iff.mp h
  simp only [Option.pure_def, Option.some.injEq, Prod.mk.injEq, List.cons.injEq, and_true, true_and] at h
  obtain ⟨rfl, rfl⟩ := h
  refine ⟨rfl, ?_⟩
  rcases Worker.call_append_cases hwork with ⟨hseg, logStart, a, m, hlog, rfl, rfl⟩ | ⟨hseg, rfl, rfl⟩
  · exact Or.inl ⟨hseg, hlog, rfl⟩
  · exact Or.inr ⟨hseg, rfl, rfl, rfl, rfl⟩

namespace Nvm

open Pmem

def poolOf (p : Nvm) (a : NAlc) : Region := ⟨a.startAddress, p.poolLen⟩

/-- The thread as it would run alone on its pool. -/
def view (p : Nvm) (t : Tid) (a : NAlc) (taken : BlockKind → Nat) : Logger where
  worker := ⟨a, (p.poolOf a).clip BaseMeta.zero p.mem, p.workers t, taken⟩
  bytes := (p.poolOf a).clip 0 p.bytes

/-- The thread has gone on to `s'` in its pool, and nothing else has changed. -/
structure Worked (p p' : Nvm) (t : Tid) (r : Region) (s' : Logger) : Prop where
  poolLen : p'.poolLen = p.poolLen
  globalId : p'.globalId = p.globalId
  managers : p'.managers = Function.update p.managers t (some s'.worker.alc)
  workers : p'.workers = Function.update p.workers t s'.worker.seg
  pleaves : p'.pleaves = p.pleaves
  headers : NAlc.Extends r p.mem s'.worker.mem p'.mem
  clip : r.clip 0 p'.bytes = s'.bytes
  bytes : ∀ x, ¬ r.Has x → p'.bytes x = p.bytes x

variable {p p' : Nvm} {t t' : Tid} {r : Region} {s' : Logger} {a a' : NAlc} {taken : BlockKind → Nat}

theorem Worked.view_self (h : p.Worked p' t r s') (hr : r = p.poolOf s'.worker.alc) :
    p'.view t s'.worker.alc s'.worker.taken = s' := by
  have hpool : p'.poolOf s'.worker.alc = r := by rw [hr, poolOf, poolOf, h.poolLen]
  unfold view
  rw [hpool, h.headers.clip, h.clip, h.workers, Function.update_self]

theorem Worked.view_other (h : p.Worked p' t r s') (ht : t' ≠ t) (happart : (p.poolOf a').Disjoint r) :
    p'.view t' a' taken = p.view t' a' taken := by
  have hpool : p'.poolOf a' = p.poolOf a' := by rw [poolOf, poolOf, h.poolLen]
  unfold view
  rw [hpool, h.workers, Function.update_of_ne ht,
    Region.clip_congr fun x hx => h.headers.outside x (happart.not_has hx),
    Region.clip_congr fun x hx => h.bytes x (happart.not_has hx)]

theorem mapped_of_within {x n : Nat} (hlow : mmapStart ≤ r.base)
    (hhigh : r.limit ≤ mmapStart + p.poolLen * p.globalId) (hx : r.base ≤ x) (hxn : x + n ≤ r.limit) :
    p.Mapped x n :=
  ⟨hlow.trans hx, hxn.trans hhigh⟩

theorem clip_write {o : Bytes} {node : Nat} (e : LogEntry) (hlow : r.base ≤ node)
    (hhigh : node + logNodeSize ≤ r.limit) :
    r.clip 0 (writeLogNode o node e.key e.val e.pptr e.op e.version) =
      LogBuild.plain.write (r.clip 0 o) node e := by
  have hnone : LogBuild.plain.payload e = 0 := rfl
  rw [LogBuild.write, hnone, Bytes.copyIn_none, ← LogEntry.storeFirst_all]
  funext x
  by_cases hin : node ≤ x ∧ x < node + logNodeSize
  · obtain ⟨k, rfl⟩ := Nat.exists_eq_add_of_le hin.1
    have hx : r.Has (node + k) := ⟨by omega, by omega⟩
    rw [Region.clip_of_has hx, e.storeFirst_shift o (fun k => o (node + k)) node k 5 rfl]
    exact (e.storeFirst_shift _ (fun k => o (node + k)) node k 5 (Region.clip_of_has hx)).symm
  · have hout : x < node ∨ node + logNodeSize ≤ x := by omega
    rw [e.storeFirst_of_outside _ _ _ _ hout]
    by_cases hx : r.Has x
    · rw [Region.clip_of_has hx, Region.clip_of_has hx, e.storeFirst_of_outside _ _ _ _ hout]
    · rw [Region.clip_of_not hx, Region.clip_of_not hx]

/-- A record that the thread appends. -/
theorem appendOne_of_view (hmanager : p.managers t = some a) (hinside : a.Inside (p.poolOf a)) {e : LogEntry}
    {node : Nat} (hcall : (p.view t a taken).call .plain (.append e) = some ([(e, node)], s'))
    (hend : s'.worker.alc.endAddress ≤ (p.poolOf a).limit) (hlow : (p.poolOf a).base ≤ node)
    (hhigh : node + logNodeSize ≤ (p.poolOf a).limit) (hmapped : p.Mapped node logNodeSize) :
    ∃ p', appendOne p t e.key e.val e.pptr e.op e.version = some (node + logKeyOffset, p') ∧
      p.Worked p' t (p.poolOf a) s' := by
  obtain ⟨hbytes, hcases⟩ := Logger.plain_append hcall
  -- the opened pool, and the record written into it
  obtain ⟨p₁, seg, hopen, hworkers, hnode, hfinal, hpool, hids, hmanagers, hleaves, hold, hext⟩ :
      ∃ p₁ seg, p.openSegment t e.version = some p₁ ∧ p₁.workers = Function.update p.workers t seg ∧
        seg.vecStart = node ∧ s'.worker.seg =
          { seg with vecStart := node + logNodeSize, tempOffset := seg.tempOffset + logNodeSize } ∧
        p₁.poolLen = p.poolLen ∧ p₁.globalId = p.globalId ∧
        p₁.managers = Function.update p.managers t (some s'.worker.alc) ∧ p₁.pleaves = p.pleaves ∧
        p₁.bytes = p.bytes ∧ NAlc.Extends (p.poolOf a) p.mem s'.worker.mem p₁.mem := by
    -- a record of the active segment, or of a new one
    rcases hcases with ⟨hseg, hlog, hfinal⟩ | ⟨hseg, hnode, halc, hmem, hfinal⟩
    · obtain ⟨M, hlog', hext⟩ := NAlc.nAllocateLog_extends hinside hlog hend
      refine ⟨{ p.store t s'.worker.alc M (a.MayCut p.poolLen .log) with
        workers := Function.update p.workers t ⟨0, node, node⟩ }, ⟨0, node, node⟩, ?_, rfl, rfl, ?_, rfl, rfl, rfl,
        rfl, rfl, hext⟩
      · exact (if_pos hseg).trans
          ((resize_eq_some (manager_of_some hmanager)).mpr ⟨node, _, M, hlog', rfl⟩)
      · rw [hfinal, Nat.zero_add]
    · refine ⟨p, p.workers t, if_neg hseg, (Function.update_eq_self _ _).symm, hnode.symm, ?_, rfl, rfl, ?_,
        rfl, rfl, ?_⟩
      · rw [hfinal, hnode]
        rfl
      · have hsame : s'.worker.alc = a := halc
        rw [hsame, ← hmanager, Function.update_eq_self]
      · rw [hmem]
        exact ⟨rfl, fun _ _ => rfl⟩
  have hat : (p₁.workers t).vecStart = node := by rw [hworkers, Function.update_self, hnode]
  have hmapped' : p₁.Mapped node logNodeSize := by
    unfold Mapped
    rw [hpool, hids]
    exact hmapped
  refine ⟨_, appendOne_eq_some.mpr ⟨p₁, hopen, appendTo_eq_some.mpr ⟨hat ▸ hmapped', by rw [hat], rfl⟩⟩, ?_⟩
  refine ⟨hpool, hids, hmanagers, ?_, hleaves, hext, ?_, ?_⟩
  · dsimp only
    rw [hat, hworkers, Function.update_idem, Function.update_self, hfinal]
  · dsimp only
    rw [hat, hold, hbytes]
    exact clip_write e hlow hhigh
  · intro x hx
    dsimp only
    rw [hat, hold, ← LogEntry.storeFirst_all]
    exact e.storeFirst_of_outside _ _ _ _ (by unfold Region.Has at hx; omega)

theorem nAllocate_of_view (hmanager : p.managers t = some a) (hinside : a.Inside (p.poolOf a)) {q : Addr}
    {piece : BlockKind × Region} {w : Worker}
    (hcall : (p.view t a taken).worker.call (.tree pLeafSize) = some (piece, w)) (hq : piece.2.base = q)
    (hend : w.alc.endAddress ≤ (p.poolOf a).limit) :
    ∃ p', nAllocate p t = some (q, p') ∧ p.Worked p' t (p.poolOf a) ⟨w, (p.view t a taken).bytes⟩ := by
  obtain ⟨⟨address, a', m⟩, hserve, hcall⟩ := Option.bind_eq_some_iff.mp hcall
  simp only [Option.pure_def, Option.some.injEq, Prod.mk.injEq] at hcall
  obtain ⟨rfl, rfl⟩ := hcall
  obtain rfl : address = q := hq
  obtain ⟨M, hserve', hext⟩ := NAlc.nAllocateTree_extends hinside hserve hend
  refine ⟨_, (nAllocate_eq_some (manager_of_some hmanager)).mpr ⟨a', M, hserve', rfl⟩, rfl, rfl, rfl, ?_, rfl,
    hext, rfl, fun _ _ => rfl⟩
  exact (Function.update_eq_self _ _).symm

/-! ### A new pool -/

def nextPool (p : Nvm) : Region := ⟨poolStart p.poolLen p.globalId, p.poolLen⟩

/-- The thread has been given an allocator on a pool of its own. -/
structure Created (p p' : Nvm) (t : Tid) (a : NAlc) : Prop where
  poolLen : p'.poolLen = p.poolLen
  globalId : p'.globalId = p.globalId + 1
  managers : p'.managers = Function.update p.managers t (some a)
  workers : p'.workers = p.workers
  pleaves : p'.pleaves = p.pleaves
  bytes : p'.bytes = p.bytes
  alc : (NAlc.init p.nextPool.base (p.nextPool.clip BaseMeta.zero p.mem)).1 = a
  headers : NAlc.Extends p.nextPool p.mem
    (NAlc.init p.nextPool.base (p.nextPool.clip BaseMeta.zero p.mem)).2 p'.mem

theorem manager_new (hnone : p.managers t = none) (hlen : 1024 + 8 * CHUNK_SIZE ≤ p.poolLen) :
    ∃ a p', p.manager t = (a, p') ∧ p.Created p' t a := by
  have hlimit : p.nextPool.base + 1024 + 8 * CHUNK_SIZE ≤ p.nextPool.limit := by
    rw [Nat.add_assoc]
    exact Nat.add_le_add_left hlen _
  obtain ⟨hsame, hext⟩ := NAlc.init_extends (m := p.mem) hlimit
  refine ⟨(NAlc.init p.nextPool.base p.mem).1, (p.manager t).2, ?_, ?_⟩
  · rw [manager, hnone]
    rfl
  · rw [manager, hnone]
    exact ⟨rfl, rfl, rfl, rfl, rfl, rfl, hsame, hext⟩

theorem Created.startAddress (h : p.Created p' t a) : a.startAddress = p.nextPool.base := by
  rw [← h.alc]
  exact NAlc.init_startAddress _ _

theorem Created.view_self (h : p.Created p' t a) (hidle : p.workers t = DSeg.empty) :
    p'.view t a (Worker.start 0 p.mem).taken =
      Logger.start p.nextPool.base (p.nextPool.clip BaseMeta.zero p.mem) (p.nextPool.clip 0 p.bytes) := by
  have hpool : p'.poolOf a = p.nextPool := by
    rw [poolOf, h.startAddress, h.poolLen]
    rfl
  unfold view
  rw [hpool, h.headers.clip, h.bytes, h.workers, hidle, ← h.alc]
  rfl

theorem Created.view_other (h : p.Created p' t a) (happart : (p.poolOf a').Disjoint p.nextPool) :
    p'.view t' a' taken = p.view t' a' taken := by
  have hpool : p'.poolOf a' = p.poolOf a' := by rw [poolOf, poolOf, h.poolLen]
  unfold view
  rw [hpool, h.workers, h.bytes, Region.clip_congr fun x hx => h.headers.outside x (happart.not_has hx)]

theorem nAllocate_manager (hmanager : p.manager t = (a, p')) (h' : p'.manager t = (a, p')) :
    nAllocate p t = nAllocate p' t :=
  Option.ext fun _ => (nAllocate_eq_some hmanager).trans (nAllocate_eq_some h').symm

theorem appendOne_manager (hmanager : p.manager t = (a, p')) (h' : p'.manager t = (a, p'))
    (hidle : p.workers t = DSeg.empty) (hidle' : p'.workers t = DSeg.empty) (key : Key) (val : Word) (pp : Addr)
    (op : BitVec 8) (version : BitVec 32) :
    appendOne p t key val pp op version = appendOne p' t key val pp op version := by
  have hseg : DSeg.empty.needsSegment version := Or.inr rfl
  have hresize : p.resize t = p'.resize t :=
    Option.ext fun _ => (resize_eq_some hmanager).trans (resize_eq_some h').symm
  have hopen : p.openSegment t version = p'.openSegment t version := by
    rw [openSegment, openSegment, hidle, hidle', if_pos hseg, if_pos hseg, hresize]
  exact Option.ext fun _ => appendOne_eq_some.trans (hopen ▸ appendOne_eq_some.symm)

end Nvm

end ZBTree
