import ZBTree.PmemMaps
import ZBTree.StockedPools
import Mathlib.Data.Finset.Card

/-!
# The pools keep the contract of the memory

`LawfulPmem` says what the tree asks of persistent memory. The pools, with one allocator and one
log segment for each thread, keep it as long as they are large enough for what is asked of each of
them, no two threads share an allocator, and no record is longer than was reckoned with.
-/

namespace ZBTree

open Pmem

/-- The pools of `threads` threads, with the records and the leaves that each thread has got so
far. A thread whose number is too large stands for another one, and a version that is too large
for the largest one; `PoolMemory.map` leaves such calls out. -/
structure PoolMemory (threads maxVersion : Nat) where
  nvm : Nvm
  log : Tid → List (LogEntry × Nat)
  given : Tid → List Addr

def capped (maxVersion : Nat) (version : BitVec 32) : BitVec 32 := BitVec.ofNat 32 (min version.toNat maxVersion)

theorem capped_le (maxVersion : Nat) (version : BitVec 32) : (capped maxVersion version).toNat ≤ maxVersion := by
  rw [capped, BitVec.toNat_ofNat]
  exact (Nat.mod_le _ _).trans (Nat.min_le_right _ _)

theorem capped_of_le {maxVersion : Nat} {version : BitVec 32} (h : version.toNat ≤ maxVersion) :
    capped maxVersion version = version := by
  rw [capped, Nat.min_eq_left h, BitVec.ofNat_toNat, BitVec.setWidth_eq]

namespace PoolMemory

variable {threads maxVersion : Nat}

def fresh (threads maxVersion poolLen : Nat) : PoolMemory threads maxVersion where
  nvm := Nvm.fresh poolLen
  log := fun _ => []
  given := fun _ => []

def setNvm (p : PoolMemory threads maxVersion) (nvm : Nvm) : PoolMemory threads maxVersion :=
  { p with nvm := nvm }

def logged (p : PoolMemory threads maxVersion) (t : Tid) (e : LogEntry) (r : Addr × Nvm) :
    PoolMemory threads maxVersion :=
  { p with nvm := r.2, log := Function.update p.log t (p.log t ++ [(e, r.1 - logKeyOffset)]) }

/-- The value of the record with the key field at `addr` is replaced. -/
def revalue (addr : Addr) (v : Word) (r : LogEntry × Nat) : LogEntry × Nat :=
  if r.2 + logKeyOffset = addr then (r.1.withVal v, r.2) else r

instance : Pmem (PoolMemory threads maxVersion) where
  appendOne p t key val pptr op version :=
    (appendOne p.nvm (t % threads) key val pptr op (capped maxVersion version)).map fun r =>
      (r.1, p.logged (t % threads) ⟨key, val, pptr, op, capped maxVersion version, Bytes.zero⟩ r)
  logKey p := logKey p.nvm
  logVal p := logVal p.nvm
  setLogVal p addr v := (setLogVal p.nvm addr v).map fun q =>
    { p with nvm := q, log := fun t => (p.log t).map (revalue addr v) }
  freeRecord p t addr := (freeRecord p.nvm t addr).map p.setNvm
  nAllocate p t := (nAllocate p.nvm (t % threads)).map fun r =>
    (r.1, { p with nvm := r.2, given := Function.update p.given (t % threads) (p.given (t % threads) ++ [r.1]) })
  pleaf p := pleaf p.nvm
  setPleaf p q l := (setPleaf p.nvm q l).map p.setNvm

theorem map (threads maxVersion : Nat) :
    PmemMap (· < threads) (·.toNat ≤ maxVersion) (nvm : PoolMemory threads maxVersion → Nvm) where
  key _ _ := rfl
  val _ _ := rfl
  leaf _ _ := rfl
  append {p p' t k v pp op version a} ht hversion h := by
    obtain ⟨r, hr, heq⟩ := Option.map_eq_some_iff.mp h
    rw [Nat.mod_eq_of_lt ht, capped_of_le hversion] at hr
    cases heq
    exact hr
  alloc {p p' t q} ht h := by
    obtain ⟨r, hr, heq⟩ := Option.map_eq_some_iff.mp h
    rw [Nat.mod_eq_of_lt ht] at hr
    cases heq
    exact hr
  setLeaf {p p' q l} h := by
    obtain ⟨r, hr, rfl⟩ := Option.map_eq_some_iff.mp h
    exact hr

/-- The pools have room for `n` records and leaves more in each of them, each thread has its own
one, and what is not mapped is blank. -/
structure Room (n : Nat) (p : PoolMemory threads maxVersion) : Prop where
  threads_pos : 0 < threads
  version : 0 < recordsPer maxVersion
  mapped : mmapStart + p.nvm.poolLen * threads ≤ 2 ^ 48
  large : ∃ total, poolFor maxVersion total ≤ p.nvm.poolLen ∧
    ∀ t, (p.log t).length + n ≤ total ∧ (p.given t).length + n ≤ total
  count : p.nvm.globalId = ((Finset.range threads).filter fun t => (p.nvm.managers t).isSome).card
  pool : ∀ t a, p.nvm.managers t = some a →
    t < threads ∧ ∃ i, i < p.nvm.globalId ∧ a.startAddress = poolStart p.nvm.poolLen i
  own : ∀ t t' a a', p.nvm.managers t = some a → p.nvm.managers t' = some a' → t ≠ t' →
    a.startAddress ≠ a'.startAddress
  idle : ∀ t, p.nvm.managers t = none →
    p.nvm.workers t = DSeg.empty ∧ p.log t = [] ∧ p.given t = []
  stocked : ∀ t a, p.nvm.managers t = some a → ∃ taken,
    (p.nvm.view t a taken).Stocked maxVersion a.startAddress (p.log t) (p.given t)
  blank : ∀ x, poolStart p.nvm.poolLen p.nvm.globalId ≤ x →
    (p.nvm.mem x).bitmap = 0 ∧ p.nvm.bytes x = 0

variable {m n : Nat} {p : PoolMemory threads maxVersion} {t t' : Tid} {a a' : NAlc} {e : LogEntry} {node : Nat}
  {q : Nat}

theorem Room.mono (h : p.Room n) (hmn : m ≤ n) : p.Room m where
  __ := h
  large := by
    obtain ⟨total, hlarge, hroom⟩ := h.large
    exact ⟨total, hlarge, fun t => ⟨by have := hroom t; omega, by have := hroom t; omega⟩⟩

theorem fresh_room {poolLen n : Nat} (hthreads : 0 < threads) (hversion : 0 < recordsPer maxVersion)
    (hmapped : mmapStart + poolLen * threads ≤ 2 ^ 48) (hlarge : poolFor maxVersion n ≤ poolLen) :
    (fresh threads maxVersion poolLen).Room n where
  threads_pos := hthreads
  version := hversion
  mapped := hmapped
  large := ⟨n, hlarge, fun _ => ⟨Nat.le_of_eq (Nat.zero_add n), Nat.le_of_eq (Nat.zero_add n)⟩⟩
  count := by simp [fresh, Nvm.fresh]
  pool t a ha := absurd ha (by simp [fresh, Nvm.fresh])
  own t t' a a' ha := absurd ha (by simp [fresh, Nvm.fresh])
  idle t _ := ⟨rfl, rfl, rfl⟩
  stocked t a ha := absurd ha (by simp [fresh, Nvm.fresh])
  blank _ _ := ⟨rfl, rfl⟩

/-! ### Where the pools are -/

theorem Room.poolLen_ge (h : p.Room n) : 1024 + 8 * CHUNK_SIZE ≤ p.nvm.poolLen := by
  obtain ⟨total, hlarge, -⟩ := h.large
  exact (Demand.bytes_mono (d := ⟨1, 0, 1⟩) (Nat.le_add_left _ _) (Nat.le_add_left _ _)).trans hlarge

theorem Room.globalId_le (h : p.Room n) : p.nvm.globalId ≤ threads := by
  rw [h.count]
  exact (Finset.card_filter_le _ _).trans (Nat.le_of_eq (Finset.card_range _))

theorem Room.pool_within (h : p.Room n) (ha : p.nvm.managers t = some a) :
    mmapStart ≤ (p.nvm.poolOf a).base ∧
      (p.nvm.poolOf a).limit ≤ mmapStart + p.nvm.poolLen * p.nvm.globalId ∧
      (p.nvm.poolOf a).limit ≤ 2 ^ 48 := by
  obtain ⟨-, i, hi, hstart⟩ := h.pool t a ha
  have hnext : p.nvm.poolLen * (i + 1) ≤ p.nvm.poolLen * p.nvm.globalId := Nat.mul_le_mul_left _ hi
  have hall : p.nvm.poolLen * p.nvm.globalId ≤ p.nvm.poolLen * threads := Nat.mul_le_mul_left _ h.globalId_le
  have hmapped := h.mapped
  rw [Nat.mul_succ] at hnext
  unfold Nvm.poolOf Region.limit
  dsimp only
  rw [hstart, poolStart]
  omega

theorem Room.pools_apart (h : p.Room n) (ha : p.nvm.managers t = some a) (ha' : p.nvm.managers t' = some a')
    (ht : t ≠ t') : (p.nvm.poolOf a).Disjoint (p.nvm.poolOf a') := by
  obtain ⟨-, i, -, hi⟩ := h.pool t a ha
  obtain ⟨-, j, -, hj⟩ := h.pool t' a' ha'
  have hne := h.own t t' a a' ha ha' ht
  unfold Nvm.poolOf Region.Disjoint Region.limit
  dsimp only
  rw [hi, hj] at hne ⊢
  rcases Nat.lt_trichotomy i j with hlt | rfl | hlt
  · exact Or.inl (PoolProcess.pools_apart hlt)
  · exact absurd rfl hne
  · exact Or.inr (PoolProcess.pools_apart hlt)

theorem Room.next_apart (h : p.Room n) (ha : p.nvm.managers t = some a) :
    (p.nvm.poolOf a).Disjoint p.nvm.nextPool := by
  obtain ⟨-, i, hi, hstart⟩ := h.pool t a ha
  left
  unfold Nvm.poolOf Region.limit
  dsimp only
  rw [hstart]
  exact PoolProcess.pools_apart hi

theorem Room.end_le (h : p.Room n) {s : Logger} {log : List (LogEntry × Nat)} {given : List Addr}
    (hstocked : s.Stocked maxVersion a.startAddress log given) (hlog : log.length ≤ (p.log t).length + n)
    (hgiven : given.length ≤ (p.given t).length + n) : s.worker.alc.endAddress ≤ (p.nvm.poolOf a).limit := by
  obtain ⟨total, hlarge, hroom⟩ := h.large
  obtain ⟨hrecords, hleaves⟩ := hroom t
  exact (hstocked.end_le h.version (hlog.trans hrecords) (hgiven.trans hleaves)).trans
    (Nat.add_le_add_left hlarge _)

theorem Room.inside (h : p.Room n) (ha : p.nvm.managers t = some a) :
    a.endAddress ≤ (p.nvm.poolOf a).limit ∧ a.Inside (p.nvm.poolOf a) := by
  obtain ⟨taken, hstocked⟩ := h.stocked t a ha
  have hend := h.end_le hstocked (Nat.le_add_right _ _) (Nat.le_add_right _ _)
  obtain ⟨c, content, hlogged⟩ := hstocked.logged
  exact ⟨hend, hlogged.filled.kept.inside rfl hend⟩

/-! ### What the pools show -/

theorem Room.manager_of_log (h : p.Room n) (hmem : (e, node) ∈ p.log t) : ∃ a, p.nvm.managers t = some a := by
  cases ha : p.nvm.managers t with
  | none =>
    rw [(h.idle t ha).2.1] at hmem
    exact absurd hmem List.not_mem_nil
  | some a => exact ⟨a, rfl⟩

theorem Room.manager_of_given (h : p.Room n) (hq : q ∈ p.given t) : ∃ a, p.nvm.managers t = some a := by
  cases ha : p.nvm.managers t with
  | none =>
    rw [(h.idle t ha).2.2] at hq
    exact absurd hq List.not_mem_nil
  | some a => exact ⟨a, rfl⟩

theorem Room.record_within (h : p.Room n) (ha : p.nvm.managers t = some a) (hmem : (e, node) ∈ p.log t) :
    (p.nvm.poolOf a).base ≤ node ∧ node + logNodeSize ≤ (p.nvm.poolOf a).limit := by
  obtain ⟨taken, hstocked⟩ := h.stocked t a ha
  obtain ⟨hlow, hhigh⟩ := hstocked.record_within hmem
  exact ⟨(Nat.le_add_right _ _).trans hlow, hhigh.trans (h.inside ha).1⟩

theorem Room.leaf_within (h : p.Room n) (ha : p.nvm.managers t = some a) (hq : q ∈ p.given t) :
    (p.nvm.poolOf a).base < q ∧ q + 32 ≤ (p.nvm.poolOf a).limit := by
  obtain ⟨taken, hstocked⟩ := h.stocked t a ha
  obtain ⟨hlow, hhigh⟩ := hstocked.leaf_within hq
  exact ⟨(Nat.lt_add_of_pos_right (by decide)).trans_le hlow, hhigh.trans (h.inside ha).1⟩

/-- What the memory says at the address of a record. -/
theorem Room.record_read (h : p.Room n) (hmem : (e, node) ∈ p.log t) :
    logKey p (node + logKeyOffset) = some e.key ∧ logVal p (node + logKeyOffset) = some e.val ∧
      node + logKeyOffset < 2 ^ 48 := by
  obtain ⟨a, ha⟩ := h.manager_of_log hmem
  obtain ⟨hlow, hhigh⟩ := h.record_within ha hmem
  obtain ⟨hbase, hlimit, hend⟩ := h.pool_within ha
  obtain ⟨taken, hstocked⟩ := h.stocked t a ha
  obtain ⟨hkey, hval⟩ := hstocked.record_read hmem
  have hoffset : logKeyOffset = 16 := rfl
  have hsize : logNodeSize = 32 := rfl
  have hsame : ∀ i, node ≤ i → i + 8 ≤ node + logNodeSize →
      p.nvm.bytes.get64 i = Bytes.get64 ((p.nvm.poolOf a).clip 0 p.nvm.bytes) i := by
    intro i hi hi'
    refine Bytes.get64_of_bytes fun d hd => (Region.clip_of_has ⟨?_, ?_⟩).symm
    · omega
    · omega
  have hmapped : ∀ i, node ≤ i → i + 8 ≤ node + logNodeSize → p.nvm.Mapped i 8 := fun i hi hi' =>
    Nvm.mapped_of_within hbase hlimit (hlow.trans hi) (hi'.trans hhigh)
  refine ⟨?_, ?_, by omega⟩
  · refine (if_pos (hmapped _ (by omega) (by omega))).trans (congrArg some ?_)
    exact (hsame _ (by omega) (by omega)).trans hkey
  · refine (if_pos (hmapped _ (by omega) (by omega))).trans (congrArg some ?_)
    exact (hsame _ (by omega) (by omega)).trans hval

theorem Room.leaf_read (h : p.Room n) (hq : q ∈ p.given t) : q ≠ 0 ∧ pleaf p q = some (p.nvm.pleaves q) := by
  obtain ⟨a, ha⟩ := h.manager_of_given hq
  obtain ⟨hlow, hhigh⟩ := h.leaf_within ha hq
  obtain ⟨hbase, hlimit, -⟩ := h.pool_within ha
  exact ⟨Nat.ne_zero_of_lt hlow, if_pos (Nvm.mapped_of_within hbase hlimit hlow.le hhigh)⟩

theorem Room.record_unique (h : p.Room n) {e' : LogEntry} {node' : Nat} (hmem : (e, node) ∈ p.log t)
    (hmem' : (e', node') ∈ p.log t') (heq : node = node') : t = t' ∧ e = e' := by
  subst heq
  obtain ⟨a, ha⟩ := h.manager_of_log hmem
  obtain ⟨a', ha'⟩ := h.manager_of_log hmem'
  by_cases ht : t = t'
  · subst ht
    obtain ⟨taken, hstocked⟩ := h.stocked t a ha
    exact ⟨rfl, congrArg Prod.fst (List.inj_on_of_nodup_map hstocked.records_nodup hmem hmem' rfl)⟩
  · have hsize : logNodeSize = 32 := rfl
    obtain ⟨hlow, hhigh⟩ := h.record_within ha hmem
    obtain ⟨hlow', hhigh'⟩ := h.record_within ha' hmem'
    exact absurd (h.pools_apart ha ha' ht)
      (Region.not_disjoint_of_mem (x := node) ⟨hlow, by omega⟩ ⟨hlow', by omega⟩)

theorem Room.leaf_unique (h : p.Room n) (hq : q ∈ p.given t) (hq' : q ∈ p.given t') : t = t' := by
  obtain ⟨a, ha⟩ := h.manager_of_given hq
  obtain ⟨a', ha'⟩ := h.manager_of_given hq'
  by_contra ht
  obtain ⟨hlow, hhigh⟩ := h.leaf_within ha hq
  obtain ⟨hlow', hhigh'⟩ := h.leaf_within ha' hq'
  exact Region.not_disjoint_of_mem (x := q) ⟨hlow.le, by omega⟩ ⟨hlow'.le, by omega⟩ (h.pools_apart ha ha' ht)

/-! ### What a thread does

A thread works in its own pool, so what it does there is what it would do alone, and nobody else sees a difference.
The pools together keep the contract that the tree asks of persistent memory. -/

/-- A thread that has no allocator yet gets one; nobody sees a difference. -/
theorem Room.opened (h : p.Room n) (ht : t < threads) : ∃ a nvm,
    nvm.managers t = some a ∧ (p.setNvm nvm).Room n ∧
      nAllocate p.nvm t = nAllocate nvm t ∧
      (∀ key val pp op version, appendOne p.nvm t key val pp op version =
        appendOne nvm t key val pp op version) ∧
      nvm.pleaves = p.nvm.pleaves := by
  cases ha : p.nvm.managers t with
  -- the thread has its allocator already
  | some a => exact ⟨a, p.nvm, ha, h, rfl, fun _ _ _ _ _ => rfl, rfl⟩
  | none =>
    obtain ⟨a, nvm, hmanager, hcreated⟩ := Nvm.manager_new ha h.poolLen_ge
    obtain ⟨hworker, hlog, hgiven⟩ := h.idle t ha
    have hself : nvm.managers t = some a := by rw [hcreated.managers, Function.update_self]
    have hother : ∀ t', t' ≠ t → nvm.managers t' = p.nvm.managers t' := fun t' hne => by
      rw [hcreated.managers, Function.update_of_ne hne]
    have hmanager' : nvm.manager t = (a, nvm) := Nvm.manager_of_some hself
    refine ⟨a, nvm, hself, ⟨h.threads_pos, h.version, ?_, ?_, ?_, ?_, ?_, ?_, ?_, ?_⟩,
      Nvm.nAllocate_manager hmanager hmanager', ?_, hcreated.pleaves⟩
    · exact hcreated.poolLen ▸ h.mapped
    · exact hcreated.poolLen ▸ h.large
    · -- one thread more has an allocator, and one pool more is there
      have hmem : t ∉ (Finset.range threads).filter fun t => (p.nvm.managers t).isSome := by simp [ha]
      have hinsert : (Finset.range threads).filter (fun t => (nvm.managers t).isSome) =
          Insert.insert t ((Finset.range threads).filter fun t => (p.nvm.managers t).isSome) := by
        ext t'
        by_cases ht' : t' = t
        · subst ht'
          simp [hself, ht]
        · simp [hother t' ht', ht']
      change nvm.globalId = ((Finset.range threads).filter fun t => (nvm.managers t).isSome).card
      rw [hinsert, Finset.card_insert_of_notMem hmem, ← h.count, hcreated.globalId]
    · intro t' a' ha'
      change nvm.managers t' = some a' at ha'
      change _ ∧ ∃ i, i < nvm.globalId ∧ _ = poolStart nvm.poolLen i
      rw [hcreated.globalId, hcreated.poolLen]
      by_cases ht' : t' = t
      · subst ht'
        obtain rfl := Option.some.inj (ha'.symm.trans hself)
        exact ⟨ht, _, Nat.lt_succ_self _, hcreated.startAddress⟩
      · obtain ⟨hlt, i, hi, hstart⟩ := h.pool t' a' (hother t' ht' ▸ ha')
        exact ⟨hlt, i, Nat.lt_succ_of_lt hi, hstart⟩
    · intro t₁ t₂ a₁ a₂ ha₁ ha₂ hne
      change nvm.managers t₁ = some a₁ at ha₁
      change nvm.managers t₂ = some a₂ at ha₂
      -- the new pool lies behind the others
      have hnew : ∀ t' a', t' ≠ t → nvm.managers t' = some a' → a'.startAddress ≠ a.startAddress := by
        intro t' a' ht' ha'
        obtain ⟨-, i, hi, hstart⟩ := h.pool t' a' (hother t' ht' ▸ ha')
        have hlt : poolStart p.nvm.poolLen i + p.nvm.poolLen ≤ poolStart p.nvm.poolLen p.nvm.globalId :=
          PoolProcess.pools_apart hi
        have hpos := h.poolLen_ge
        have hsize : 0 < CHUNK_SIZE := by decide
        rw [hstart, hcreated.startAddress]
        change poolStart p.nvm.poolLen i ≠ poolStart p.nvm.poolLen p.nvm.globalId
        omega
      by_cases ht₁ : t₁ = t
      · subst ht₁
        obtain rfl := Option.some.inj (ha₁.symm.trans hself)
        exact (hnew t₂ a₂ hne.symm ha₂).symm
      · by_cases ht₂ : t₂ = t
        · subst ht₂
          obtain rfl := Option.some.inj (ha₂.symm.trans hself)
          exact hnew t₁ a₁ ht₁ ha₁
        · exact h.own t₁ t₂ a₁ a₂ (hother t₁ ht₁ ▸ ha₁) (hother t₂ ht₂ ▸ ha₂) hne
    · intro t' ha'
      change nvm.managers t' = none at ha'
      have ht' : t' ≠ t := fun heq => by
        subst heq
        exact absurd (ha'.symm.trans hself) (by simp)
      change nvm.workers t' = _ ∧ _
      rw [hcreated.workers]
      exact h.idle t' (hother t' ht' ▸ ha')
    · intro t' a' ha'
      change nvm.managers t' = some a' at ha'
      change ∃ taken, (nvm.view t' a' taken).Stocked _ _ (p.log t') (p.given t')
      by_cases ht' : t' = t
      · subst ht'
        obtain rfl := Option.some.inj (ha'.symm.trans hself)
        refine ⟨(Worker.start 0 p.nvm.mem).taken, ?_⟩
        rw [hcreated.view_self hworker, hlog, hgiven, hcreated.startAddress]
        apply Logger.start_stocked
        constructor
        · intro i
          by_cases hin : p.nvm.nextPool.Has (blockAt p.nvm.nextPool.base i)
          · rw [Region.clip_of_has hin]
            exact (h.blank _ hin.1).1
          · rw [Region.clip_of_not hin]
            rfl
        · intro i k _
          by_cases hin : p.nvm.nextPool.Has (blockAt p.nvm.nextPool.base i + baseMetaSize + k)
          · rw [Region.clip_of_has hin]
            exact (h.blank _ hin.1).2
          · rw [Region.clip_of_not hin]
      · have ha'' : p.nvm.managers t' = some a' := hother t' ht' ▸ ha'
        -- the pools of the others are not touched
        obtain ⟨taken, hstocked⟩ := h.stocked t' a' ha''
        exact ⟨taken, by rw [hcreated.view_other (h.next_apart ha'')]; exact hstocked⟩
    · intro x hx
      change poolStart nvm.poolLen nvm.globalId ≤ x at hx
      rw [hcreated.poolLen, hcreated.globalId] at hx
      have hbehind : ¬ p.nvm.nextPool.Has x := fun hin =>
        Nat.not_lt.mpr ((PoolProcess.pools_apart (Nat.lt_succ_self _)).trans hx) hin.2
      have hx' : poolStart p.nvm.poolLen p.nvm.globalId ≤ x :=
        (Nat.le_add_right _ _).trans ((PoolProcess.pools_apart (Nat.lt_succ_self _)).trans hx)
      change (nvm.mem x).bitmap = 0 ∧ nvm.bytes x = 0
      rw [hcreated.headers.outside x hbehind, hcreated.bytes]
      exact h.blank x hx'
    · have hworker' : nvm.workers t = DSeg.empty := by rw [hcreated.workers, hworker]
      exact fun key val pp op version => Nvm.appendOne_manager hmanager hmanager' hworker hworker' key val pp op version

/-- What a thread does in its pool leaves room, less what it has taken. -/
theorem Room.worked (h : p.Room m) (ha : p.nvm.managers t = some a) {nvm : Nvm} {s : Logger}
    (hworked : p.nvm.Worked nvm t (p.nvm.poolOf a) s) {log : List (LogEntry × Nat)} {given : List Addr}
    (hstocked : s.Stocked maxVersion a.startAddress log given)
    (hlog : log.length + n ≤ (p.log t).length + m) (hgiven : given.length + n ≤ (p.given t).length + m) (hnm : n ≤ m) :
    Room n (⟨nvm, Function.update p.log t log, Function.update p.given t given⟩ : PoolMemory threads maxVersion) := by
  have hstart : s.worker.alc.startAddress = a.startAddress := hstocked.startAddress
  have hself : nvm.managers t = some s.worker.alc := by rw [hworked.managers, Function.update_self]
  have hother : ∀ t', t' ≠ t → nvm.managers t' = p.nvm.managers t' := fun t' hne => by
    rw [hworked.managers, Function.update_of_ne hne]
  -- a thread has an allocator where it had one, with the same pool
  have hold : ∀ t' a', nvm.managers t' = some a' →
      ∃ a'', p.nvm.managers t' = some a'' ∧ a''.startAddress = a'.startAddress := by
    intro t' a' ha'
    by_cases ht' : t' = t
    · subst ht'
      obtain rfl := Option.some.inj (hself.symm.trans ha')
      exact ⟨a, ha, hstart.symm⟩
    · exact ⟨a', hother t' ht' ▸ ha', rfl⟩
  refine ⟨h.threads_pos, h.version, ?_, ?_, ?_, ?_, ?_, ?_, ?_, ?_⟩
  · exact hworked.poolLen ▸ h.mapped
  · obtain ⟨total, hlarge, hroom⟩ := h.large
    refine ⟨total, hworked.poolLen ▸ hlarge, fun t' => ?_⟩
    have hbefore := hroom t'
    by_cases ht' : t' = t
    · subst ht'
      simp only [Function.update_self]
      omega
    · simp only [Function.update_of_ne ht']
      omega
  · change nvm.globalId = _
    rw [hworked.globalId, h.count]
    congr 1
    apply Finset.filter_congr
    intro t' _
    by_cases ht' : t' = t
    · subst ht'
      simp [hself, ha]
    · simp [hother t' ht']
  · intro t' a' ha'
    obtain ⟨a'', ha'', heq⟩ := hold t' a' ha'
    change _ ∧ ∃ i, i < nvm.globalId ∧ _ = poolStart nvm.poolLen i
    rw [hworked.globalId, hworked.poolLen, ← heq]
    exact h.pool t' a'' ha''
  · intro t₁ t₂ a₁ a₂ ha₁ ha₂ hne
    obtain ⟨b₁, hb₁, heq₁⟩ := hold t₁ a₁ ha₁
    obtain ⟨b₂, hb₂, heq₂⟩ := hold t₂ a₂ ha₂
    rw [← heq₁, ← heq₂]
    exact h.own t₁ t₂ b₁ b₂ hb₁ hb₂ hne
  · intro t' ha'
    change nvm.managers t' = none at ha'
    have ht' : t' ≠ t := fun heq => by
      subst heq
      exact absurd (ha'.symm.trans hself) (by simp)
    change nvm.workers t' = _ ∧ Function.update p.log t log t' = _ ∧ Function.update p.given t given t' = _
    rw [hworked.workers, Function.update_of_ne ht', Function.update_of_ne ht', Function.update_of_ne ht']
    exact h.idle t' (hother t' ht' ▸ ha')
  · intro t' a' ha'
    change nvm.managers t' = some a' at ha'
    change ∃ taken, (nvm.view t' a' taken).Stocked _ _ (Function.update p.log t log t') (Function.update p.given t given t')
    by_cases ht' : t' = t
    · subst ht'
      obtain rfl := Option.some.inj (hself.symm.trans ha')
      refine ⟨s.worker.taken, ?_⟩
      have hregion : p.nvm.poolOf a = p.nvm.poolOf s.worker.alc := by rw [Nvm.poolOf, Nvm.poolOf, hstart]
      rw [hworked.view_self hregion, Function.update_self, Function.update_self, hstart]
      exact hstocked
    · have ha'' : p.nvm.managers t' = some a' := hother t' ht' ▸ ha'
      obtain ⟨taken, hstocked'⟩ := h.stocked t' a' ha''
      rw [Function.update_of_ne ht', Function.update_of_ne ht']
      exact ⟨taken, by rw [hworked.view_other ht' (h.pools_apart ha'' ha ht')]; exact hstocked'⟩
  · intro x hx
    change poolStart nvm.poolLen nvm.globalId ≤ x at hx
    rw [hworked.poolLen, hworked.globalId] at hx
    have hbehind : ¬ (p.nvm.poolOf a).Has x := fun hin =>
      Nat.not_lt.mpr ((h.pool_within ha).2.1.trans hx) hin.2
    change (nvm.mem x).bitmap = 0 ∧ nvm.bytes x = 0
    rw [hworked.headers.outside x hbehind, hworked.bytes x hbehind]
    exact h.blank x hx

theorem Room.log_nodup (h : p.Room n) (t : Tid) : ((p.log t).map Prod.snd).Nodup := by
  cases ha : p.nvm.managers t with
  | none =>
    rw [(h.idle t ha).2.1]
    exact List.nodup_nil
  | some a =>
    obtain ⟨taken, hstocked⟩ := h.stocked t a ha
    exact hstocked.records_nodup

theorem Room.given_nodup (h : p.Room n) (t : Tid) : (p.given t).Nodup := by
  cases ha : p.nvm.managers t with
  | none =>
    rw [(h.idle t ha).2.2]
    exact List.nodup_nil
  | some a =>
    obtain ⟨taken, hstocked⟩ := h.stocked t a ha
    exact hstocked.leaves_nodup

theorem Room.append (h : p.Room (n + 1)) (t : Tid) (key : Key) (val : Word) (pp : Addr) (op : BitVec 8)
    (version : BitVec 32) : ∃ e node p', appendOne p t key val pp op version = some (node + logKeyOffset, p') ∧
      p'.Room n ∧ e.key = key ∧ e.val = val ∧
      p'.log = Function.update p.log (t % threads) (p.log (t % threads) ++ [(e, node)]) ∧ p'.given = p.given ∧
      p'.nvm.pleaves = p.nvm.pleaves := by
  have ht : t % threads < threads := Nat.mod_lt _ h.threads_pos
  obtain ⟨a, nvm, ha, hroom, -, happend, hpleaves⟩ := h.opened ht
  obtain ⟨hend, hinside⟩ := hroom.inside ha
  obtain ⟨taken, hstocked⟩ := hroom.stocked _ a ha
  obtain ⟨hbase, hlimit, hlow⟩ := hroom.pool_within ha
  set e : LogEntry := ⟨key, val, pp, op, capped maxVersion version, Bytes.zero⟩ with he
  obtain ⟨node, s, hcall, hstocked'⟩ := hstocked.append (hend.trans hlow) (e := e) (capped_le maxVersion version)
  have hlength : (p.log (t % threads) ++ [(e, node)]).length ≤ (p.log (t % threads)).length + (n + 1) := by
    rw [List.length_append, List.length_singleton]
    omega
  have hend' := hroom.end_le hstocked' hlength (Nat.le_add_right _ _)
  obtain ⟨hnode, hnode'⟩ := hstocked'.record_within (List.mem_append_right _ List.mem_cons_self)
  have hin : (nvm.poolOf a).base ≤ node := (Nat.le_add_right _ _).trans hnode
  obtain ⟨nvm', hone, hworked⟩ := Nvm.appendOne_of_view ha hinside hcall hend' hin (hnode'.trans hend')
    (Nvm.mapped_of_within hbase hlimit hin (hnode'.trans hend'))
  have hstep : appendOne p t key val pp op version = some (node + logKeyOffset,
      ⟨nvm', Function.update p.log (t % threads) (p.log (t % threads) ++ [(e, node)]), p.given⟩) := by
    refine Option.map_eq_some_iff.mpr ⟨(node + logKeyOffset, nvm'), (happend _ _ _ _ _).trans hone, ?_⟩
    rw [logged, Nat.add_sub_cancel]
  refine ⟨e, node, _, hstep, ?_, rfl, rfl, rfl, rfl, hworked.pleaves.trans hpleaves⟩
  have hdone := Room.worked (n := n) hroom ha hworked hstocked' (by simp [setNvm]; omega) (by simp [setNvm])
    (Nat.le_succ n)
  rwa [show (p.setNvm nvm).given = p.given from rfl, Function.update_eq_self] at hdone

theorem Room.leaf (h : p.Room (n + 1)) (t : Tid) : ∃ q p', nAllocate p t = some (q, p') ∧
    p'.Room n ∧ p'.log = p.log ∧
    p'.given = Function.update p.given (t % threads) (p.given (t % threads) ++ [q]) ∧
    p'.nvm.pleaves = p.nvm.pleaves := by
  have ht : t % threads < threads := Nat.mod_lt _ h.threads_pos
  obtain ⟨a, nvm, ha, hroom, hallocate, -, hpleaves⟩ := h.opened ht
  obtain ⟨hend, hinside⟩ := hroom.inside ha
  obtain ⟨taken, hstocked⟩ := hroom.stocked _ a ha
  obtain ⟨-, -, hlow⟩ := hroom.pool_within ha
  obtain ⟨piece, w, hcall, hstocked'⟩ := hstocked.leaf (hend.trans hlow)
  have hlength : (p.given (t % threads) ++ [piece.2.base]).length ≤ (p.given (t % threads)).length + (n + 1) := by
    rw [List.length_append, List.length_singleton]
    omega
  have hend' := hroom.end_le hstocked' (Nat.le_add_right _ _) hlength
  obtain ⟨nvm', hone, hworked⟩ := Nvm.nAllocate_of_view ha hinside hcall rfl hend'
  refine ⟨piece.2.base, ⟨nvm', p.log, Function.update p.given (t % threads) (p.given (t % threads) ++ [piece.2.base])⟩,
    ?_, ?_, rfl, rfl, ?_⟩
  · exact Option.map_eq_some_iff.mpr ⟨(piece.2.base, nvm'), hallocate.trans hone, rfl⟩
  · have hdone := Room.worked (n := n) hroom ha hworked hstocked' (by simp [setNvm]) (by simp [setNvm]; omega)
      (Nat.le_succ n)
    rwa [show (p.setNvm nvm).log = p.log from rfl, Function.update_eq_self] at hdone
  · exact hworked.pleaves.trans hpleaves

/-- A store into the value field of a record is what a thread does in its pool. -/
theorem worked_setVal {p : Nvm} {a : NAlc} {t : Tid} {taken : BlockKind → Nat} {node : Nat} (v : Word)
    (ha : p.managers t = some a) (hlow : (p.poolOf a).base ≤ node) (hhigh : node + logNodeSize ≤ (p.poolOf a).limit) :
    p.Worked { p with bytes := p.bytes.put64 (node + logKeyOffset + 8) v } t (p.poolOf a)
      ((p.view t a taken).setVal node v) := by
  have hoffset : logKeyOffset = 16 := rfl
  have hsize : logNodeSize = 32 := rfl
  refine ⟨rfl, rfl, ?_, (Function.update_eq_self _ _).symm, rfl, ⟨rfl, fun _ _ => rfl⟩, ?_, ?_⟩
  · change p.managers = Function.update p.managers t (some a)
    rw [← ha, Function.update_eq_self]
  · funext x
    change (p.poolOf a).clip 0 _ x = Bytes.put64 ((p.poolOf a).clip 0 p.bytes) (node + logKeyOffset + 8) v x
    by_cases hin : node + logKeyOffset + 8 ≤ x ∧ x < node + logKeyOffset + 8 + 8
    · have hhas : (p.poolOf a).Has x := ⟨by omega, by omega⟩
      rw [Region.clip_of_has hhas]
      exact (if_pos hin).trans (if_pos hin).symm
    · have hout : x < node + logKeyOffset + 8 ∨ node + logKeyOffset + 8 + 8 ≤ x := by omega
      rw [Bytes.put64_of_outside _ _ _ _ hout]
      by_cases hhas : (p.poolOf a).Has x
      · rw [Region.clip_of_has hhas, Region.clip_of_has hhas]
        exact Bytes.put64_of_outside _ _ _ _ hout
      · rw [Region.clip_of_not hhas, Region.clip_of_not hhas]
  · intro x hx
    apply Bytes.put64_of_outside
    unfold Region.Has at hx
    omega

theorem revalue_self {addr : Addr} {v : Word} (h : node + logKeyOffset = addr) :
    revalue addr v (e, node) = (e.withVal v, node) := if_pos h

theorem revalue_of_ne {addr : Addr} {v : Word} (h : node + logKeyOffset ≠ addr) : revalue addr v (e, node) = (e, node) :=
  if_neg h

/-- A new value for a record. -/
theorem Room.setVal (h : p.Room n) (hmem : (e, node) ∈ p.log t) (v : Word) :
    ∃ p', setLogVal p (node + logKeyOffset) v = some p' ∧ p'.Room n ∧ p'.given = p.given ∧
      p'.nvm.pleaves = p.nvm.pleaves ∧ ∀ t, p'.log t = (p.log t).map (revalue (node + logKeyOffset) v) := by
  obtain ⟨a, ha⟩ := h.manager_of_log hmem
  obtain ⟨hlow, hhigh⟩ := h.record_within ha hmem
  obtain ⟨hbase, hlimit, -⟩ := h.pool_within ha
  obtain ⟨taken, hstocked⟩ := h.stocked t a ha
  obtain ⟨before, behind, hsplit, hstocked'⟩ := hstocked.setVal hmem v
  have hoffset : logKeyOffset = 16 := rfl
  have hsize : logNodeSize = 32 := rfl
  have hmapped : p.nvm.Mapped (node + logKeyOffset + 8) 8 :=
    Nvm.mapped_of_within hbase hlimit (by omega) (by omega)
  -- the other records keep their values
  have hkeep : ∀ l : List (LogEntry × Nat), (∀ r ∈ l, r.2 ≠ node) → l.map (revalue (node + logKeyOffset) v) = l := by
    intro l hl
    refine (List.map_congr_left fun r hr => ?_).trans (List.map_id l)
    exact revalue_of_ne fun heq => hl r hr (Nat.add_right_cancel heq)
  have hself : (p.log t).map (revalue (node + logKeyOffset) v) = before ++ (e.withVal v, node) :: behind := by
    have hnodup := h.log_nodup t
    rw [hsplit, List.map_append, List.map_cons, List.nodup_append, List.nodup_cons] at hnodup
    obtain ⟨-, ⟨hbehind, -⟩, hbefore⟩ := hnodup
    rw [hsplit, List.map_append, List.map_cons, revalue_self rfl, hkeep before, hkeep behind]
    · exact fun r hr heq => hbehind (List.mem_map.mpr ⟨r, hr, heq⟩)
    · exact fun r hr heq => hbefore _ (List.mem_map.mpr ⟨r, hr, rfl⟩) _ List.mem_cons_self heq
  have hlog : (fun t' => (p.log t').map (revalue (node + logKeyOffset) v)) =
      Function.update p.log t (before ++ (e.withVal v, node) :: behind) := by
    funext t'
    by_cases ht' : t' = t
    · subst ht'
      rw [Function.update_self]
      exact hself
    · rw [Function.update_of_ne ht']
      refine hkeep _ ?_
      rintro ⟨e', node'⟩ hr heq
      exact ht' (h.record_unique hr hmem heq).1
  refine ⟨⟨{ p.nvm with bytes := p.nvm.bytes.put64 (node + logKeyOffset + 8) v },
    fun t => (p.log t).map (revalue (node + logKeyOffset) v), p.given⟩, ?_, ?_, rfl, rfl, fun _ => rfl⟩
  · exact Option.map_eq_some_iff.mpr ⟨_, if_pos hmapped, rfl⟩
  · have hlength : (before ++ (e.withVal v, node) :: behind).length = (p.log t).length := by
      rw [hsplit]
      simp
    have hdone := h.worked (n := n) ha (worked_setVal v ha hlow hhigh) hstocked' (Nat.le_of_eq (by rw [hlength]))
      (Nat.le_refl _) (Nat.le_refl n)
    rwa [Function.update_eq_self, ← hlog] at hdone

theorem Room.setLeaf (h : p.Room n) (hq : q ∈ p.given t) (l : PLeaf) :
    ∃ p', setPleaf p q l = some p' ∧ p'.Room n ∧ p'.log = p.log ∧ p'.given = p.given ∧
      p'.nvm.pleaves = Function.update p.nvm.pleaves q l := by
  obtain ⟨a, ha⟩ := h.manager_of_given hq
  obtain ⟨hlow, hhigh⟩ := h.leaf_within ha hq
  obtain ⟨hbase, hlimit, -⟩ := h.pool_within ha
  refine ⟨p.setNvm { p.nvm with pleaves := Function.update p.nvm.pleaves q l }, ?_, ?_, rfl, rfl, rfl⟩
  · exact Option.map_eq_some_iff.mpr ⟨_, if_pos (Nvm.mapped_of_within hbase hlimit hlow.le hhigh), rfl⟩
  · exact ⟨h.threads_pos, h.version, h.mapped, h.large, h.count, h.pool, h.own, h.idle, h.stocked, h.blank⟩

/-! ### The contract -/

def records (p : PoolMemory threads maxVersion) : Set Addr :=
  { addr | ∃ t e node, (e, node) ∈ p.log t ∧ addr = node + logKeyOffset }

def pleafs (p : PoolMemory threads maxVersion) : Set Addr := { q | ∃ t, q ∈ p.given t }

theorem sameRecs {p' : PoolMemory threads maxVersion} (h : p.Room m) (h' : p'.Room n) {A : Set Addr}
    (hA : ∀ addr ∈ A, ∃ t e node, (e, node) ∈ p.log t ∧ (e, node) ∈ p'.log t ∧ addr = node + logKeyOffset) :
    SameRecs A p p' := by
  intro addr haddr
  obtain ⟨t, e, node, hmem, hmem', rfl⟩ := hA addr haddr
  obtain ⟨hkey, hval, -⟩ := h.record_read hmem
  obtain ⟨hkey', hval', -⟩ := h'.record_read hmem'
  exact ⟨hkey'.trans hkey.symm, hval'.trans hval.symm⟩

theorem sameLeaves {p' : PoolMemory threads maxVersion} (h : p.Room m) (h' : p'.Room n) {A : Set Addr}
    (hA : ∀ q ∈ A, ∃ t, q ∈ p.given t ∧ q ∈ p'.given t ∧ p'.nvm.pleaves q = p.nvm.pleaves q) : SameLeaves A p p' := by
  intro q hq
  obtain ⟨t, hmem, hmem', hsame⟩ := hA q hq
  exact (h'.leaf_read hmem').2.trans ((congrArg some hsame).trans (h.leaf_read hmem).2.symm)

theorem mem_appended {α : Type} {f g : Tid → List α} {t : Tid} {x : α}
    (h : g = Function.update f t (f t ++ [x])) (t' : Tid) (y : α) : y ∈ g t' ↔ y ∈ f t' ∨ t' = t ∧ y = x := by
  by_cases ht : t' = t
  · subst ht
    rw [h, Function.update_self, List.mem_append, List.mem_singleton]
    simp
  · rw [h, Function.update_of_ne ht]
    simp [ht]

theorem nodup_appended {α : Type} {f g : Tid → List α} {t : Tid} {x : α}
    (h : g = Function.update f t (f t ++ [x])) {β : Type} (key : α → β) (hnodup : ((g t).map key).Nodup) :
    key x ∉ (f t).map key := by
  rw [h, Function.update_self, List.map_append, List.nodup_append] at hnodup
  exact fun hmem => hnodup.2.2 _ hmem _ List.mem_cons_self rfl

/-- The pools keep the contract. -/
instance : LawfulPmem (PoolMemory threads maxVersion) where
  Ok := Room
  recs := records
  leaves := pleafs
  ok_mono hmn h := h.mono hmn
  rec_lt {n p addr} h haddr := by
    obtain ⟨t, e, node, hmem, rfl⟩ := haddr
    exact (h.record_read hmem).2.2
  rec_read {n p addr} h haddr := by
    obtain ⟨t, e, node, hmem, rfl⟩ := haddr
    exact ⟨_, _, (h.record_read hmem).1, (h.record_read hmem).2.1⟩
  leaf_read {n p q} h hq := by
    obtain ⟨t, hmem⟩ := hq
    exact ⟨(h.leaf_read hmem).1, _, (h.leaf_read hmem).2⟩
  append_spec {n p} t key val pp op version h := by
    obtain ⟨e, node, p', hrun, hroom, rfl, rfl, hlog, hgiven, hpleaves⟩ := h.append t key val pp op version
    have hmem := fun t' r => mem_appended hlog t' r
    have hnew : (e, node) ∈ p'.log (t % threads) := (hmem _ _).mpr (Or.inr ⟨rfl, rfl⟩)
    refine ⟨node + logKeyOffset, p', hrun, hroom, ?_, ?_, ?_, (hroom.record_read hnew).1, (hroom.record_read hnew).2.1,
      ?_, ?_⟩
    · rintro ⟨t', e', node', hold, heq⟩
      obtain rfl := Nat.add_right_cancel heq
      obtain ⟨rfl, -⟩ := hroom.record_unique ((hmem _ _).mpr (Or.inl hold)) hnew rfl
      exact nodup_appended hlog Prod.snd (hroom.log_nodup _) (List.mem_map.mpr ⟨_, hold, rfl⟩)
    · ext addr
      constructor
      · rintro ⟨t', e', node', hin, rfl⟩
        rcases (hmem _ _).mp hin with hold | ⟨-, heq⟩
        · exact Or.inr ⟨t', e', node', hold, rfl⟩
        · exact Or.inl (by rw [(Prod.mk.inj heq).2])
      · rintro (rfl | ⟨t', e', node', hold, rfl⟩)
        · exact ⟨_, _, _, hnew, rfl⟩
        · exact ⟨t', e', node', (hmem _ _).mpr (Or.inl hold), rfl⟩
    · exact congrArg (fun given => { q | ∃ t, q ∈ given t }) hgiven
    · apply sameRecs h hroom
      rintro addr ⟨t', e', node', hold, rfl⟩
      exact ⟨t', e', node', hold, (hmem _ _).mpr (Or.inl hold), rfl⟩
    · apply sameLeaves h hroom
      rintro q ⟨t', hold⟩
      exact ⟨t', hold, hgiven ▸ hold, congrFun hpleaves q⟩
  setVal_spec {n p addr} v h haddr := by
    obtain ⟨t, e, node, hmem, rfl⟩ := haddr
    obtain ⟨p', hrun, hroom, hgiven, hpleaves, hlog⟩ := h.setVal hmem v
    have hself : (e.withVal v, node) ∈ p'.log t := by
      rw [hlog]
      exact List.mem_map.mpr ⟨_, hmem, revalue_self rfl⟩
    refine ⟨p', hrun, hroom, ?_, ?_, ?_, (hroom.record_read hself).2.1, ?_, ?_⟩
    · ext addr
      constructor
      · rintro ⟨t', e', node', hmem', rfl⟩
        rw [hlog, List.mem_map] at hmem'
        obtain ⟨⟨e₀, node₀⟩, hmem₀, heq⟩ := hmem'
        have hat : node₀ = node' := by
          unfold revalue at heq
          split_ifs at heq <;> exact congrArg Prod.snd heq
        exact ⟨t', e₀, node₀, hmem₀, by rw [hat]⟩
      · rintro ⟨t', e', node', hmem', rfl⟩
        by_cases hat : node' + logKeyOffset = node + logKeyOffset
        · exact ⟨t', _, node', (hlog t').symm ▸ List.mem_map.mpr ⟨_, hmem', revalue_self hat⟩, rfl⟩
        · exact ⟨t', _, node', (hlog t').symm ▸ List.mem_map.mpr ⟨_, hmem', revalue_of_ne hat⟩, rfl⟩
    · exact congrArg (fun given => { q | ∃ t, q ∈ given t }) hgiven
    · exact (hroom.record_read hself).1.trans (h.record_read hmem).1.symm
    · apply sameRecs h hroom
      rintro addr ⟨⟨t', e', node', hmem', rfl⟩, hne⟩
      exact ⟨t', e', node', hmem', (hlog t').symm ▸ List.mem_map.mpr ⟨_, hmem', revalue_of_ne hne⟩, rfl⟩
    · apply sameLeaves h hroom
      rintro q ⟨t', hmem'⟩
      exact ⟨t', hmem', hgiven ▸ hmem', congrFun hpleaves q⟩
  alloc_spec {n p} t h := by
    obtain ⟨q, p', hrun, hroom, hlog, hgiven, hpleaves⟩ := h.leaf t
    have hmem := fun t' q' => mem_appended hgiven t' q'
    have hnew : q ∈ p'.given (t % threads) := (hmem _ _).mpr (Or.inr ⟨rfl, rfl⟩)
    refine ⟨q, p', hrun, hroom, ?_, ?_, ?_, ?_, ?_⟩
    · rintro ⟨t', hold⟩
      obtain rfl := hroom.leaf_unique ((hmem _ _).mpr (Or.inl hold)) hnew
      have hnodup := hroom.given_nodup (t % threads)
      rw [← List.map_id (p'.given _)] at hnodup
      exact nodup_appended hgiven id hnodup (List.mem_map.mpr ⟨_, hold, rfl⟩)
    · ext q'
      constructor
      · rintro ⟨t', hin⟩
        rcases (hmem _ _).mp hin with hold | ⟨-, heq⟩
        · exact Or.inr ⟨t', hold⟩
        · exact Or.inl heq
      · rintro (rfl | ⟨t', hold⟩)
        · exact ⟨_, hnew⟩
        · exact ⟨t', (hmem _ _).mpr (Or.inl hold)⟩
    · exact congrArg (fun log => { addr | ∃ t e node, (e, node) ∈ log t ∧ addr = node + logKeyOffset }) hlog
    · apply sameRecs h hroom
      rintro addr ⟨t', e', node', hold, rfl⟩
      exact ⟨t', e', node', hold, hlog ▸ hold, rfl⟩
    · apply sameLeaves h hroom
      rintro q' ⟨t', hold⟩
      exact ⟨t', hold, (hmem _ _).mpr (Or.inl hold), congrFun hpleaves q'⟩
  setLeaf_spec {n p q} l h hq := by
    obtain ⟨t, hmem⟩ := hq
    obtain ⟨p', hrun, hroom, hlog, hgiven, hpleaves⟩ := h.setLeaf hmem l
    refine ⟨p', hrun, hroom, ?_, ?_, ?_, ?_, ?_⟩
    · exact congrArg (fun log => { addr | ∃ t e node, (e, node) ∈ log t ∧ addr = node + logKeyOffset }) hlog
    · exact congrArg (fun given => { q | ∃ t, q ∈ given t }) hgiven
    · rw [(hroom.leaf_read (hgiven ▸ hmem)).2, hpleaves, Function.update_self]
    · apply sameRecs h hroom
      rintro addr ⟨t', e', node', hmem', rfl⟩
      exact ⟨t', e', node', hmem', hlog ▸ hmem', rfl⟩
    · apply sameLeaves h hroom
      rintro q' ⟨⟨t', hmem'⟩, hne⟩
      exact ⟨t', hmem', hgiven ▸ hmem', by rw [hpleaves, Function.update_of_ne hne]⟩

end PoolMemory

end ZBTree
