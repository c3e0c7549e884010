import ZBTree.PoolMemory
import ZBTree.RecordSlots
import Mathlib.Data.List.TakeWhile

/-!
# The logs of all pools, read back

The scan of a pool finds the records that its thread has appended, over the directory in use as
over the one that `ignore_recover` rebuilds. So the logs of all pools together say what has been
inserted, whatever the order in which the threads have taken turns.
-/

namespace ZBTree

open Pmem

/-! ### One pool

A pool shows its records to a scan in two ways: by the directory that the running allocator has, and by the one that
`ignore_recover` makes from the headers after a restart. -/

namespace LogImage

variable {m m' : Headers} {o o' : Bytes} {start : Nat} {c : BlockCuts} {segs : Nat}
  {content : Nat → List LogEntry} {blocks : List Nat}

theorem congr (h : LogImage m o start c segs content)
    (hm : ∀ j, j < segs → m' (blockAt start (c.place .log j)) = m (blockAt start (c.place .log j)))
    (ho : ∀ j k, j < segs → k < dataSize → o' (blockAt start (c.place .log j) + baseMetaSize + k) =
      o (blockAt start (c.place .log j) + baseMetaSize + k)) : LogImage m' o' start c segs content where
  exact := h.exact
  segs_le := h.segs_le
  used j hj := by
    rw [hm j hj]
    exact h.used j hj
  stored j hj := (h.stored j hj).congr fun k hk => ho j k hj hk
  room := h.room

theorem recovers (h : LogImage m o start c segs content) (hcovers : Covers m start c segs blocks)
    (hversions : ∀ r ∈ records start c segs content, r.1.version ≠ 0) :
    (recoverLog m o blocks).Perm
      ((records start c segs content).map fun r => (r.1.key, r.2 + logKeyOffset)) := by
  have hall : (List.range segs).flatMap (fun j => readable (recordsAt start c content j)) =
      records start c segs content := by
    apply List.flatMap_congr
    intro j hj
    refine List.takeWhile_eq_self_iff.mpr fun r hr => ?_
    exact decide_eq_true (hversions r (List.mem_flatMap.mpr ⟨j, hj, hr⟩))
  have hperm := (h.scanLog_perm hcovers).map fun node => (o.get64 (node + logKeyOffset), node + logKeyOffset)
  rw [hall, List.map_map] at hperm
  refine hperm.trans (List.Perm.of_eq (List.map_congr_left fun r hr => ?_))
  obtain ⟨j, hj, hmem⟩ := List.mem_flatMap.mp hr
  exact congrArg (·, r.2 + logKeyOffset) (h.record_read (List.mem_range.mp hj) hmem).1

end LogImage

theorem NAlc.Lists.congr {a : NAlc} {m m' : Headers} {blocks : List Nat} (h : a.Lists m blocks)
    (hsame : ∀ id header, a.list .log id = some header → m' header = m header) : a.Lists m' blocks where
  nodup := h.nodup
  listed := h.listed
  all id header hid hused := h.all id header hid (by rwa [hsame id header hid] at hused)

theorem NAlc.reopen_congr {m m' : Headers} {start poolLen : Nat}
    (hsame : ∀ i, i < scanRounds poolLen → m' (blockAt start i) = m (blockAt start i)) :
    reopen m' start poolLen = reopen m start poolLen := by
  have hfold : ∀ {α : Type} (f g : α → Nat → α) (l : List Nat) (x : α),
      (∀ i ∈ l, ∀ x, f x i = g x i) → l.foldl f x = l.foldl g x := by
    intro α f g l
    induction l with
    | nil => exact fun _ _ => rfl
    | cons i rest ih =>
      intro x h
      rw [List.foldl_cons, List.foldl_cons, h i List.mem_cons_self,
        ih _ fun j hj => h j (List.mem_cons_of_mem _ hj)]
  have hend : usedEnd m' start poolLen = usedEnd m start poolLen :=
    hfold _ _ _ _ fun i hi x => by rw [hsame i (List.mem_range.mp hi)]
  unfold reopen
  rw [hend]
  exact hfold _ _ _ _ fun i hi x => by
    unfold adopt
    dsimp only
    rw [hsame i (List.mem_range.mp hi)]

theorem NAlc.scanned_in {poolLen i : Nat} (start : Nat) (hi : i < scanRounds poolLen) :
    blockAt start i < start + poolLen := by
  have hsize : CHUNK_SIZE = 2 ^ 26 := by decide
  unfold scanRounds at hi
  unfold blockAt
  rw [hsize] at hi ⊢
  omega

namespace Nvm

theorem reopen_view (p : Nvm) (t : Tid) (a : NAlc) (taken : BlockKind → Nat) :
    NAlc.reopen p.mem a.startAddress p.poolLen =
      NAlc.reopen (p.view t a taken).worker.mem a.startAddress p.poolLen := by
  refine NAlc.reopen_congr fun i hi => ?_
  have hin : (p.poolOf a).Has (blockAt a.startAddress i) :=
    ⟨(Nat.le_add_right _ _).trans (Nat.le_add_right _ _), NAlc.scanned_in _ hi⟩
  exact (Region.clip_of_has hin).symm

/-- Where a thread looks for its blocks: the directory in use, or the one that is rebuilt when the
pool is opened again. -/
def Directory (p : Nvm) (a : NAlc) (blocks : List Nat) : Prop :=
  a.Lists p.mem blocks ∨ (NAlc.reopen p.mem a.startAddress p.poolLen).Lists p.mem blocks

/-- `dirs` says for each thread in which order it goes through its log blocks. -/
def Directories (p : Nvm) (dirs : Tid → List Nat) : Prop :=
  ∀ t, match p.managers t with
  | none => dirs t = []
  | some a => p.Directory a (dirs t)

/-- The records that the scans of all pools find: keys, and addresses of the key fields. -/
def found (p : Nvm) (threads : Nat) (dirs : Tid → List Nat) : List (Key × Addr) :=
  (List.range threads).flatMap fun t => recoverLog p.mem p.bytes (dirs t)

end Nvm

namespace PoolMemory

variable {threads maxVersion m n : Nat} {p p' : PoolMemory threads maxVersion} {t : Tid} {a : NAlc}

/-- The scan of a pool finds the records of its thread. -/
theorem Room.recovers (h : p.Room n) (ha : p.nvm.managers t = some a)
    (hversions : ∀ r ∈ p.log t, r.1.version ≠ 0) {blocks : List Nat} (hblocks : p.nvm.Directory a blocks) :
    (recoverLog p.nvm.mem p.nvm.bytes blocks).Perm
      ((p.log t).map fun r => (r.1.key, r.2 + logKeyOffset)) := by
  obtain ⟨taken, hstocked⟩ := h.stocked t a ha
  obtain ⟨hend, hinside⟩ := h.inside ha
  obtain ⟨-, -, hlow⟩ := h.pool_within ha
  obtain ⟨c, content, hlogged⟩ := hstocked.logged
  have hfilled := hlogged.filled
  have hrecords : p.log t = LogImage.records a.startAddress c _ content := hlogged.records
  have hblock : ∀ kind j k, j < c.count kind → k < CHUNK_SIZE →
      (p.nvm.poolOf a).Has (blockAt a.startAddress (c.place kind j) + k) := by
    intro kind j k hj hk
    have hnext : blockAt a.startAddress (c.place kind j) + CHUNK_SIZE ≤ a.endAddress := by
      have hplace := hfilled.kept.listed.exact.place_lt hj
      change _ ≤ (p.nvm.view t a taken).worker.alc.endAddress
      rw [hfilled.kept.listed.end_eq, ← blockAt_succ]
      exact blockAt_le_iff.mpr (Nat.succ_le_of_lt hplace)
    have hfirst : a.startAddress ≤ blockAt a.startAddress (c.place kind j) := by
      unfold blockAt
      omega
    exact ⟨hfirst.trans (Nat.le_add_right _ _), by omega⟩
  have hheader : ∀ kind j, j < c.count kind →
      p.nvm.mem (blockAt a.startAddress (c.place kind j)) =
        (p.nvm.view t a taken).worker.mem (blockAt a.startAddress (c.place kind j)) := by
    intro kind j hj
    have hfirst := hblock kind j 0 hj (by decide)
    rw [Nat.add_zero] at hfirst
    exact (Region.clip_of_has hfirst).symm
  have hlog : ∀ j, j < (p.nvm.view t a taken).segs → j < c.count .log := fun j hj =>
    hj.trans_le (hfilled.taken_le .log)
  -- the pool shows the log of its thread, whatever the other pools hold
  have himage : LogImage p.nvm.mem p.nvm.bytes a.startAddress c (p.nvm.view t a taken).segs content := by
    refine hlogged.image.congr (fun j hj => hheader _ j (hlog j hj)) fun j k hj hk => ?_
    have hsize : baseMetaSize + dataSize = CHUNK_SIZE := by decide
    rw [Nat.add_assoc]
    exact (Region.clip_of_has (hblock _ j _ (hlog j hj) (by omega))).symm
  have hcovers : Covers p.nvm.mem a.startAddress c (p.nvm.view t a taken).segs blocks := by
    -- the directory of the run, or the one that `ignore_recover` makes
    rcases hblocks with hlists | hlists
    · have hclipped : a.Lists (p.nvm.view t a taken).worker.mem blocks :=
        hlists.congr fun id header hid => Region.clip_of_has (hinside.listed _ _ _ hid)
      have hold := hlogged.covers hclipped
      refine ⟨hold.nodup, fun header hmem hused => hold.used header hmem ?_, hold.all⟩
      obtain ⟨id, hid⟩ := hlists.listed header hmem
      have hsame : (p.nvm.view t a taken).worker.mem header = p.nvm.mem header :=
        Region.clip_of_has (hinside.listed _ _ _ hid)
      rw [hsame]
      exact hused
    · have hpool : Logger.InPool (p.nvm.view t a taken) a.startAddress p.nvm.poolLen := ⟨hlow, hend⟩
      obtain ⟨hrounds, hsmall⟩ := hpool.total_le hfilled.kept.listed.end_eq
      rw [Nvm.reopen_view p.nvm t a taken] at hlists
      refine (hfilled.poolImage hlogged.unmarked hsmall).covers hrounds (fun j hj => ?_) hlists
      have hused := (hlogged.used hj).1
      change (p.nvm.mem (blockAt a.startAddress (c.place .log j))).bitmap ≠ 0
      rw [hheader .log j (hlog j hj)]
      exact hused
  rw [hrecords] at hversions ⊢
  exact himage.recovers hcovers hversions

theorem Room.directory (h : p.Room n) (ha : p.nvm.managers t = some a) : ∃ blocks, p.nvm.Directory a blocks := by
  obtain ⟨taken, hstocked⟩ := h.stocked t a ha
  obtain ⟨c, content, hlogged⟩ := hstocked.logged
  exact ⟨_, Or.inl (hlogged.lists.congr fun id header hid =>
    (Region.clip_of_has ((h.inside ha).2.listed _ _ _ hid)).symm)⟩

/-! ### All pools -/

def entries (p : PoolMemory threads maxVersion) : List (LogEntry × Nat) := (List.range threads).flatMap p.log

theorem mem_entries {r : LogEntry × Nat} : r ∈ p.entries ↔ ∃ t, t < threads ∧ r ∈ p.log t := by
  simp [entries]

theorem append_log {key : Key} {val : Word} {pp : Addr} {op : BitVec 8} {version : BitVec 32} {addr : Addr}
    (h : appendOne p t key val pp op version = some (addr, p')) :
    ∃ node, p'.log = Function.update p.log (t % threads) (p.log (t % threads) ++
      [(⟨key, val, pp, op, capped maxVersion version, Bytes.zero⟩, node)]) := by
  obtain ⟨r, -, heq⟩ := Option.map_eq_some_iff.mp h
  cases heq
  exact ⟨_, rfl⟩

theorem alloc_log {q : Addr} (h : nAllocate p t = some (q, p')) : p'.log = p.log := by
  obtain ⟨r, -, heq⟩ := Option.map_eq_some_iff.mp h
  cases heq
  rfl

theorem setLeaf_log {q : Addr} {l : PLeaf} (h : setPleaf p q l = some p') : p'.log = p.log := by
  obtain ⟨r, -, rfl⟩ := Option.map_eq_some_iff.mp h
  rfl

theorem entries_append (hthreads : 0 < threads) {r : LogEntry × Nat}
    (h : p'.log = Function.update p.log (t % threads) (p.log (t % threads) ++ [r])) :
    p'.entries.Perm (r :: p.entries) := by
  obtain ⟨before, behind, hrange⟩ := List.append_of_mem (List.mem_range.mpr (Nat.mod_lt t hthreads))
  have hnodup : (before ++ t % threads :: behind).Nodup := hrange ▸ List.nodup_range
  rw [List.nodup_append, List.nodup_cons] at hnodup
  have hsame : ∀ l : List Nat, (∀ i ∈ l, i ≠ t % threads) → l.flatMap p'.log = l.flatMap p.log := fun l hl =>
    List.flatMap_congr fun i hi => by rw [h, Function.update_of_ne (hl i hi)]
  have hself : p'.log (t % threads) = p.log (t % threads) ++ [r] := by rw [h, Function.update_self]
  rw [entries, entries, hrange, List.flatMap_append, List.flatMap_append, List.flatMap_cons, List.flatMap_cons,
    hsame before fun i hi => hnodup.2.2 i hi _ List.mem_cons_self,
    hsame behind fun i hi heq => hnodup.2.1.1 (heq ▸ hi), hself, List.append_assoc]
  refine (List.Perm.append_left _ ?_).trans List.perm_middle
  rw [List.singleton_append]
  exact List.perm_middle

/-- The log holds these pairs, and the scan can see all of them. -/
structure Holds (p : PoolMemory threads maxVersion) (pairs : List (Key × Word)) : Prop where
  perm : (p.entries.map fun r => (r.1.key, r.1.val)).Perm pairs
  seen : ∀ r ∈ p.entries, r.1.version ≠ 0

variable {pairs : List (Key × Word)}

theorem Holds.of_log (h : p.Holds pairs) (hlog : p'.log = p.log) : p'.Holds pairs := by
  have hentries : p'.entries = p.entries := by rw [entries, entries, hlog]
  exact ⟨hentries ▸ h.perm, hentries ▸ h.seen⟩

/-- The lengths for which the pools have been reckoned, without the one that hides a record. -/
def Lengths (maxVersion : Nat) (version : BitVec 32) : Prop := version ≠ 0 ∧ version.toNat ≤ maxVersion

instance : DecidablePred (Lengths maxVersion) := fun version =>
  inferInstanceAs (Decidable (version ≠ 0 ∧ version.toNat ≤ maxVersion))

theorem Holds.append (h : p.Holds pairs) (hthreads : 0 < threads) {key : Key} {val : Word} {pp : Addr}
    {op : BitVec 8} {version : BitVec 32} {addr : Addr} (hversion : Lengths maxVersion version)
    (happend : appendOne p t key val pp op version = some (addr, p')) : p'.Holds ((key, val) :: pairs) := by
  obtain ⟨node, hlog⟩ := append_log happend
  have hperm := entries_append hthreads hlog
  refine ⟨(hperm.map _).trans (h.perm.cons _), fun r hr => ?_⟩
  rcases List.mem_cons.mp (hperm.mem_iff.mp hr) with rfl | hold
  · rw [capped_of_le hversion.2]
    exact hversion.1
  · exact h.seen r hold

theorem nodeCalls_log (h : NodeCalls t p p') : p'.log = p.log := by
  induction h with
  | done => rfl
  | alloc _ halloc ih => exact (alloc_log halloc).trans ih
  | store _ hset ih => exact (setLeaf_log hset).trans ih

/-! ### One directory for each thread -/

theorem Room.directories (h : p.Room n) : ∃ dirs, p.nvm.Directories dirs := by
  have hone : ∀ t, ∃ blocks, match p.nvm.managers t with
      | none => blocks = []
      | some a => p.nvm.Directory a blocks := by
    intro t
    cases ha : p.nvm.managers t with
    | none => exact ⟨[], rfl⟩
    | some a => exact h.directory ha
  choose dirs hdirs using hone
  exact ⟨dirs, hdirs⟩

theorem Room.found (h : p.Room n) (hseen : ∀ r ∈ p.entries, r.1.version ≠ 0) {dirs : Tid → List Nat}
    (hdirs : p.nvm.Directories dirs) :
    (p.nvm.found threads dirs).Perm (p.entries.map fun r => (r.1.key, r.2 + logKeyOffset)) := by
  unfold Nvm.found entries
  rw [List.map_flatMap]
  apply List.Perm.flatMap_left
  intro t ht
  have hdir := hdirs t
  cases ha : p.nvm.managers t with
  | none =>
    rw [ha] at hdir
    rw [(h.idle t ha).2.1, show dirs t = [] from hdir]
    rfl
  | some a =>
    rw [ha] at hdir
    exact h.recovers ha (fun r hr => hseen r (mem_entries.mpr ⟨t, List.mem_range.mp ht, hr⟩)) hdir

end PoolMemory

end ZBTree
