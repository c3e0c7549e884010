import ZBTree.PoolScans

/-!
# The pools after a restart

`recover` makes an allocator for each of its threads. Where the file of a pool is there, the pool is
mapped and `ignore_recover` scans its headers; the others are new, and the scan finds nothing in them.
The allocators are numbered from 0 again, so the threads get the pools in the order in which they were
made before, whoever used them.
-/

namespace ZBTree

open Pmem

/-! ### Allocators without blocks in use -/

namespace NAlc

variable {a : NAlc} {m : Headers} {kind : BlockKind} {n start poolLen x : Nat}

theorem getMoreChunk_unused (n : Nat) (a : NAlc) (kind : BlockKind) (h : (m x).bitmap = 0) :
    ((getMoreChunk n a m kind).2 x).bitmap = 0 := by
  induction n generalizing a m with
  | zero => exact h
  | succ n ih =>
    apply ih (a.cutChunk m kind).1
    change (Function.update m a.endAddress (a.newChunk kind) x).bitmap = 0
    by_cases hx : x = a.endAddress
    · rw [hx, Function.update_self]
      rfl
    · rw [Function.update_of_ne hx]
      exact h

theorem init_unused (start : Nat) (h : (m x).bitmap = 0) : ((init start m).2 x).bitmap = 0 := by
  let a₀ : NAlc :=
    { list := fun _ _ => none, pageId := fun _ => 0, decisionId := fun _ => 0,
      startAddress := start, endAddress := start + 1024 }
  have hnode := getMoreChunk_unused 4 a₀ .node h
  exact getMoreChunk_unused 4 (getMoreChunk 4 a₀ m .node).1 .log hnode

theorem ignoreRecover_unused (h : ∀ i, i < scanRounds poolLen → (m (blockAt a.startAddress i)).bitmap = 0) :
    a.ignoreRecover m poolLen = a := by
  unfold ignoreRecover
  refine Arrays.foldl_range_induction (fun _ a' => a' = a) _ rfl fun i a' hi ha' => ?_
  rw [ha']
  exact PoolImage.adopt_unused a (h i hi)

end NAlc

namespace Nvm

/-! ### The loop that makes the allocators -/

/-- `new N_alc(pm_pool_size)` and `ignore_recover` (`n_alc.cpp`) for thread `t`; the first `existing` files
are there. -/
def restartPool (existing : Nat) (p : Nvm) (t : Tid) : Nvm :=
  if p.globalId < existing then
    { p with
      managers := Function.update p.managers t (some (NAlc.reopen p.mem (poolStart p.poolLen p.globalId) p.poolLen))
      globalId := p.globalId + 1 }
  else
    let (a, p) := p.manager t
    { p with managers := Function.update p.managers t (some (a.ignoreRecover p.mem p.poolLen)) }

/-- The pool of thread `t`. -/
def poolAt (p : Nvm) (t : Tid) : Region := ⟨poolStart p.poolLen t, p.poolLen⟩

/-- A pool of which no block is in use. -/
structure NewPool (p : Nvm) (t : Tid) (a : NAlc) : Prop where
  node : a.list .node (a.decisionId .node) = some (blockAt (poolStart p.poolLen t) 0)
  data : (p.mem (blockAt (poolStart p.poolLen t) 0)).startAddress = blockAt (poolStart p.poolLen t) 0 + baseMetaSize
  inside : a.Inside (p.poolAt t)
  unused : ∀ x, (p.poolAt t).Has x → (p.mem x).bitmap = 0

/-- The pools of `q` after `i` rounds, when `p` is what the last process has left. -/
structure Restarted (p : Nvm) (i : Nat) (q : Nvm) : Prop where
  poolLen : q.poolLen = p.poolLen
  bytes : q.bytes = p.bytes
  globalId : q.globalId = i
  workers : q.workers = fun _ => DSeg.empty
  existing : ∀ t, t < i → t < p.globalId →
    q.managers t = some (NAlc.reopen p.mem (poolStart p.poolLen t) p.poolLen)
  new : ∀ t, t < i → p.globalId ≤ t → ∃ a, q.managers t = some a ∧ q.NewPool t a
  unopened : ∀ t, i ≤ t → q.managers t = none
  kept : ∀ x, x < poolStart p.poolLen p.globalId → q.mem x = p.mem x
  blank : ∀ x, poolStart p.poolLen (max i p.globalId) ≤ x → (q.mem x).bitmap = 0

variable {p q q' : Nvm} {i t : Nat} {a : NAlc}

theorem NewPool.congr (h : q.NewPool t a) (hlen : q'.poolLen = q.poolLen)
    (hmem : ∀ x, (q.poolAt t).Has x → q'.mem x = q.mem x) : q'.NewPool t a := by
  obtain ⟨hnode, hdata, hinside, hunused⟩ := h
  have hpool : q'.poolAt t = q.poolAt t := by rw [poolAt, poolAt, hlen]
  refine ⟨?_, ?_, hpool ▸ hinside, fun x hx => ?_⟩
  · rw [hlen]
    exact hnode
  · rw [hlen, hmem _ (hinside.listed _ _ _ hnode)]
    exact hdata
  · rw [hpool] at hx
    rw [hmem x hx]
    exact hunused x hx

/-- A pool that has just been made. -/
theorem Created.newPool (h : q.Created q' t a) (hlen : 1024 + 8 * CHUNK_SIZE ≤ q.poolLen)
    (hblank : ∀ x, poolStart q.poolLen q.globalId ≤ x → (q.mem x).bitmap = 0) (ht : q.globalId = t) :
    q'.NewPool t (a.ignoreRecover q'.mem q'.poolLen) := by
  subst ht
  have hpool : q'.poolAt q.globalId = q.nextPool := by
    rw [poolAt, h.poolLen]
    rfl
  have hin : ∀ x, q.nextPool.Has x →
      q'.mem x = (NAlc.init q.nextPool.base (q.nextPool.clip BaseMeta.zero q.mem)).2 x := fun x hx => by
    rw [← h.headers.clip, Region.clip_of_has hx]
  have hunused : ∀ x, q.nextPool.Has x → (q'.mem x).bitmap = 0 := by
    intro x hx
    rw [hin x hx]
    apply NAlc.init_unused
    rw [Region.clip_of_has hx]
    exact hblank x hx.1
  have hsame : a.ignoreRecover q'.mem q'.poolLen = a := by
    refine NAlc.ignoreRecover_unused fun i hi => hunused _ ?_
    rw [h.startAddress]
    rw [h.poolLen] at hi
    exact ⟨(Nat.le_add_right _ _).trans (Nat.le_add_right _ _), NAlc.scanned_in _ hi⟩
  have hkept : a.Kept NAlc.firstCuts := h.alc ▸ NAlc.init_kept _ _
  have hzero : a.decisionId = fun _ => 0 := h.alc ▸ NAlc.init_decisionId _ _
  have hfirst : a.header NAlc.firstCuts .node 0 = blockAt q.nextPool.base 0 := by
    rw [NAlc.header, h.startAddress]
    rfl
  have hnode : a.list .node (a.decisionId .node) = some (blockAt q.nextPool.base 0) := by
    have hentry := hkept.listed.entry_of_lt hkept.node_decided
    rw [hentry, hzero, ← hfirst]
    rfl
  have hend : a.endAddress ≤ q.nextPool.limit := by
    rw [hkept.listed.end_eq, h.startAddress]
    have htotal : NAlc.firstCuts.total = 8 := by decide
    rw [htotal]
    change poolStart q.poolLen q.globalId + 1024 + 8 * CHUNK_SIZE ≤ poolStart q.poolLen q.globalId + q.poolLen
    omega
  have hinside : a.Inside q.nextPool := hkept.inside h.startAddress.symm hend
  rw [hsame]
  refine ⟨h.poolLen ▸ hnode, ?_, hpool ▸ hinside, hpool ▸ hunused⟩
  have hmark := (Worker.init_marked q.nextPool.base (q.nextPool.clip BaseMeta.zero q.mem) .node 0 (by decide)).start
  rw [h.poolLen]
  change (q'.mem (blockAt q.nextPool.base 0)).startAddress = _
  rw [hin _ (hinside.listed _ _ _ hnode)]
  exact hmark

theorem Restarted.opened (h : Restarted p i q) (hold : i < p.globalId) :
    Restarted p (i + 1) { q with
      managers := Function.update q.managers i (some (NAlc.reopen p.mem (poolStart p.poolLen i) p.poolLen))
      globalId := i + 1 } := by
  refine ⟨h.poolLen, h.bytes, rfl, h.workers, fun t ht hexists => ?_, fun t ht hnew => ?_, fun t ht => ?_, h.kept, ?_⟩
  · rcases Nat.lt_succ_iff_lt_or_eq.mp ht with hlt | rfl
    · exact (Function.update_of_ne hlt.ne ..).trans (h.existing t hlt hexists)
    · exact Function.update_self ..
  · exact absurd hold (Nat.not_lt.mpr (hnew.trans (Nat.lt_succ_iff.mp ht)))
  · exact (Function.update_of_ne (Nat.ne_of_gt ht) ..).trans (h.unopened t ((Nat.le_succ i).trans ht))
  · have hblank := h.blank
    rw [Nat.max_eq_right hold.le] at hblank
    rw [Nat.max_eq_right hold]
    exact hblank

/-- A round that makes a pool. -/
theorem Restarted.made (h : Restarted p i q) (hlen : 1024 + 8 * CHUNK_SIZE ≤ p.poolLen) (hnew : p.globalId ≤ i)
    (hcreated : q.Created q' i a) :
    Restarted p (i + 1) { q' with
      managers := Function.update q'.managers i (some (a.ignoreRecover q'.mem q'.poolLen)) } := by
  have hi := h.globalId
  have hblank := h.blank
  rw [Nat.max_eq_left hnew, ← h.poolLen] at hblank
  have hbase : q.nextPool.base = poolStart p.poolLen i := by rw [nextPool, h.poolLen, hi]
  have hnewPool := hcreated.newPool (h.poolLen ▸ hlen) (hi.symm ▸ hblank) hi
  have hlimit : q.nextPool.limit ≤ poolStart p.poolLen (i + 1) := by
    rw [Region.limit, hbase, nextPool, h.poolLen]
    exact PoolProcess.pools_apart (Nat.lt_succ_self i)
  have hother : ∀ b t, t ≠ i → Function.update q'.managers i b t = q.managers t := fun b t hne => by
    rw [Function.update_of_ne hne, hcreated.managers, Function.update_of_ne hne]
  refine ⟨hcreated.poolLen.trans h.poolLen, hcreated.bytes.trans h.bytes, hcreated.globalId.trans (congrArg (· + 1) hi),
    hcreated.workers.trans h.workers, fun t ht hexists => ?_, fun t ht hmade => ?_, fun t ht => ?_, fun x hx => ?_,
    fun x hx => ?_⟩
  · have hne : t ≠ i := by omega
    exact (hother _ t hne).trans (h.existing t (by omega) hexists)
  · rcases Nat.lt_succ_iff_lt_or_eq.mp ht with hlt | rfl
    · -- the pool of an earlier round ends before this one begins
      obtain ⟨b, hb, hpool⟩ := h.new t hlt hmade
      refine ⟨b, (hother _ t hlt.ne).trans hb, hpool.congr hcreated.poolLen fun x hx => ?_⟩
      refine hcreated.headers.outside x fun hin => ?_
      have happart : poolStart p.poolLen t + p.poolLen ≤ poolStart p.poolLen i := PoolProcess.pools_apart hlt
      have hhigh := hx.2
      have hlow := hin.1
      rw [hbase] at hlow
      rw [Region.limit, poolAt, h.poolLen] at hhigh
      dsimp only at hhigh
      omega
    · exact ⟨_, Function.update_self .., hnewPool.congr rfl fun _ _ => rfl⟩
  · have hne : t ≠ i := by omega
    exact (hother _ t hne).trans (h.unopened t (by omega))
  · refine (hcreated.headers.outside x fun hin => ?_).trans (h.kept x hx)
    have hlow := hin.1
    rw [hbase] at hlow
    have hmono : poolStart p.poolLen p.globalId ≤ poolStart p.poolLen i :=
      Nat.add_le_add_left (Nat.mul_le_mul_left _ hnew) _
    omega
  · rw [Nat.max_eq_left (by omega)] at hx
    have hbehind : ¬ q.nextPool.Has x := fun hin => Nat.not_lt.mpr (hlimit.trans hx) hin.2
    change (q'.mem x).bitmap = 0
    rw [hcreated.headers.outside x hbehind]
    refine hblank x ?_
    rw [h.poolLen]
    exact (Nat.le_add_right _ _).trans ((PoolProcess.pools_apart (Nat.lt_succ_self i)).trans hx)

theorem Restarted.round (h : Restarted p i q) (hlen : 1024 + 8 * CHUNK_SIZE ≤ p.poolLen) :
    Restarted p (i + 1) (q.restartPool p.globalId i) := by
  have hi := h.globalId
  by_cases hold : q.globalId < p.globalId
  · rw [restartPool, if_pos hold, hi]
    rw [hi] at hold
    have hself : NAlc.reopen q.mem (poolStart q.poolLen i) q.poolLen =
        NAlc.reopen p.mem (poolStart p.poolLen i) p.poolLen := by
      rw [h.poolLen]
      exact NAlc.reopen_congr fun k hk =>
        h.kept _ ((NAlc.scanned_in _ hk).trans_le (PoolProcess.pools_apart hold))
    rw [hself]
    exact h.opened hold
  · obtain ⟨a, q', hmanager, hcreated⟩ := manager_new (h.unopened i (Nat.le_refl i)) (h.poolLen ▸ hlen)
    rw [restartPool, if_neg hold, hmanager]
    exact h.made hlen (hi ▸ Nat.not_lt.mp hold) hcreated

end Nvm

/-! ### What the last process has left

A pool that was in use has its headers in its file. The allocator that is made on it lists the blocks in use and goes
on behind the last of them, and what it has not listed is blank. -/

namespace PoolMemory

variable {threads maxVersion n : Nat} {p : PoolMemory threads maxVersion} {t t' i : Nat} {a : NAlc}
  {e e' : LogEntry} {node node' : Nat}

/-- Every pool that has been made has been made for some thread. -/
theorem Room.owner (h : p.Room n) (hi : i < p.nvm.globalId) :
    ∃ t a, p.nvm.managers t = some a ∧ a.startAddress = poolStart p.nvm.poolLen i := by
  have hpool : ∀ t, ∃ j, ∀ a, p.nvm.managers t = some a →
      j < p.nvm.globalId ∧ a.startAddress = poolStart p.nvm.poolLen j := by
    intro t
    cases ha : p.nvm.managers t with
    | none => exact ⟨0, fun a ha' => absurd ha' (by simp)⟩
    | some a =>
      obtain ⟨-, j, hj, hstart⟩ := h.pool t a ha
      exact ⟨j, fun a' ha' => Option.some.inj ha' ▸ ⟨hj, hstart⟩⟩
  choose index hindex using hpool
  let owners := (Finset.range threads).filter fun t => (p.nvm.managers t).isSome
  have howner : ∀ t ∈ owners, ∃ a, p.nvm.managers t = some a := fun t ht =>
    Option.isSome_iff_exists.mp (Finset.mem_filter.mp ht).2
  have hmaps : Set.MapsTo index owners (Finset.range p.nvm.globalId) := by
    intro t ht
    obtain ⟨a, ha⟩ := howner t ht
    exact Finset.mem_coe.mpr (Finset.mem_range.mpr (hindex t a ha).1)
  have hinj : Set.InjOn index owners := by
    intro t ht t' ht' heq
    obtain ⟨a, ha⟩ := howner t ht
    obtain ⟨a', ha'⟩ := howner t' ht'
    by_contra hne
    exact h.own t t' a a' ha ha' hne ((hindex t a ha).2.trans (heq ▸ (hindex t' a' ha').2.symm))
  have hcard : (Finset.range p.nvm.globalId).card ≤ owners.card := by
    rw [Finset.card_range, h.count]
  obtain ⟨t, ht, rfl⟩ := Finset.surjOn_of_injOn_of_card_le index hmaps hinj hcard
    (Finset.mem_coe.mpr (Finset.mem_range.mpr hi))
  obtain ⟨a, ha⟩ := howner t ht
  exact ⟨t, a, ha, (hindex t a ha).2⟩

end PoolMemory

end ZBTree
