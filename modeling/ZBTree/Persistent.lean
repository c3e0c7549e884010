import ZBTree.Layout
import Mathlib.Data.Set.Insert
import Mathlib.Logic.Function.Basic

/-!
# What the tree asks of persistent memory

`Pmem P` lists the persistent-memory accesses of the tree code, one field per
kind of access, over an arbitrary memory state `P`; `none` is a fault. The tree is
modelled over any instance. `LawfulPmem` is the contract the tree relies on when
nothing is freed: every record and every `P_Leaf` gets memory of its own, below
`2^48` because a slot keeps 48 bits of its address. `IdealPm` is the smallest
memory with that contract: records are handed out from a given list of addresses.
-/

namespace ZBTree

abbrev Tid := Nat

class Pmem (P : Type) where
  /-- `workers[tid]->append_one(key, val, pptr, op, version)`; the address of the key field. -/
  appendOne : P → Tid → Key → Word → Addr → BitVec 8 → BitVec 32 → Option (Addr × P)
  /-- `kv_ptr[0]` and `kv_ptr[1]`. -/
  logKey : P → Addr → Option Key
  logVal : P → Addr → Option Word
  /-- `kv_ptr[1] = val`. -/
  setLogVal : P → Addr → Word → Option P
  /-- `log_start[0] = 0; mmanagers[tid]->n_free(log_start)` for the record at `kv_ptr`. -/
  freeRecord : P → Tid → Addr → Option P
  /-- `mmanagers[tid]->n_allocate(sizeof(P_Leaf))`. -/
  nAllocate : P → Tid → Option (Addr × P)
  pleaf : P → Addr → Option PLeaf
  setPleaf : P → Addr → PLeaf → Option P

open Pmem

variable {P : Type} [Pmem P]

/-- The records at the addresses `A` read the same in both memories. -/
def SameRecs (A : Set Addr) (p p' : P) : Prop :=
  ∀ a ∈ A, logKey p' a = logKey p a ∧ logVal p' a = logVal p a

/-- The `P_Leaf`s at the addresses `A` read the same in both memories. -/
def SameLeaves (A : Set Addr) (p p' : P) : Prop :=
  ∀ q ∈ A, pleaf p' q = pleaf p q

/-- Persistent memory without frees: `recs` are the records appended so far, `leaves`
the `P_Leaf`s allocated so far, and `Ok n` says that there is room for `n` more. -/
class LawfulPmem (P : Type) [Pmem P] where
  Ok : Nat → P → Prop
  recs : P → Set Addr
  leaves : P → Set Addr
  ok_mono {m n : Nat} {p : P} : m ≤ n → Ok n p → Ok m p
  rec_lt {n : Nat} {p : P} {a : Addr} : Ok n p → a ∈ recs p → a < 2 ^ 48
  rec_read {n : Nat} {p : P} {a : Addr} : Ok n p → a ∈ recs p →
    ∃ k v, logKey p a = some k ∧ logVal p a = some v
  leaf_read {n : Nat} {p : P} {q : Addr} : Ok n p → q ∈ leaves p →
    q ≠ 0 ∧ ∃ l, pleaf p q = some l
  append_spec {n : Nat} {p : P} (t : Tid) (k : Key) (v : Word) (pp : Addr) (op : BitVec 8)
    (version : BitVec 32) : Ok (n + 1) p →
    ∃ a p', appendOne p t k v pp op version = some (a, p') ∧ Ok n p' ∧ a ∉ recs p ∧
      recs p' = insert a (recs p) ∧ leaves p' = leaves p ∧
      logKey p' a = some k ∧ logVal p' a = some v ∧
      SameRecs (recs p) p p' ∧ SameLeaves (leaves p) p p'
  setVal_spec {n : Nat} {p : P} {a : Addr} (v : Word) : Ok n p → a ∈ recs p →
    ∃ p', setLogVal p a v = some p' ∧ Ok n p' ∧ recs p' = recs p ∧ leaves p' = leaves p ∧
      logKey p' a = logKey p a ∧ logVal p' a = some v ∧
      SameRecs (recs p \ {a}) p p' ∧ SameLeaves (leaves p) p p'
  alloc_spec {n : Nat} {p : P} (t : Tid) : Ok (n + 1) p →
    ∃ q p', nAllocate p t = some (q, p') ∧ Ok n p' ∧ q ∉ leaves p ∧
      leaves p' = insert q (leaves p) ∧ recs p' = recs p ∧
      SameRecs (recs p) p p' ∧ SameLeaves (leaves p) p p'
  setLeaf_spec {n : Nat} {p : P} {q : Addr} (l : PLeaf) : Ok n p → q ∈ leaves p →
    ∃ p', setPleaf p q l = some p' ∧ Ok n p' ∧ recs p' = recs p ∧ leaves p' = leaves p ∧
      pleaf p' q = some l ∧ SameRecs (recs p) p p' ∧ SameLeaves (leaves p \ {q}) p p'

/-! ### The smallest lawful memory -/

/-- A log that hands its records out from `pool` and its `P_Leaf`s from `leafPool`,
and that a removal leaves as it is. -/
structure IdealPm where
  pool : List Addr
  leafPool : List Addr
  log : Addr → Option (Key × Word)
  pls : Addr → Option PLeaf

instance : Pmem IdealPm where
  appendOne p _ k v _ _ _ :=
    match p.pool with
    | [] => none
    | a :: rest => some (a, { p with pool := rest, log := Function.update p.log a (some (k, v)) })
  logKey p a := (p.log a).map Prod.fst
  logVal p a := (p.log a).map Prod.snd
  setLogVal p a v :=
    (p.log a).map fun r => { p with log := Function.update p.log a (some (r.1, v)) }
  freeRecord p _ _ := some p
  nAllocate p _ :=
    match p.leafPool with
    | [] => none
    | q :: rest =>
      some (q, { p with leafPool := rest, pls := Function.update p.pls q (some ⟨0, 0, 0⟩) })
  pleaf p q := p.pls q
  setPleaf p q l := (p.pls q).map fun _ => { p with pls := Function.update p.pls q (some l) }

/-- An empty log over the given addresses. -/
def IdealPm.fresh (pool leafPool : List Addr) : IdealPm where
  pool := pool
  leafPool := leafPool
  log := fun _ => none
  pls := fun _ => none

structure IdealPm.Ok (n : Nat) (p : IdealPm) : Prop where
  pool_length : n ≤ p.pool.length
  leafPool_length : n ≤ p.leafPool.length
  pool_nodup : p.pool.Nodup
  leafPool_nodup : p.leafPool.Nodup
  pool_free : ∀ a ∈ p.pool, a < 2 ^ 48 ∧ p.log a = none
  leafPool_free : ∀ q ∈ p.leafPool, q ≠ 0 ∧ p.pls q = none
  log_lt : ∀ a, (p.log a).isSome → a < 2 ^ 48
  pls_ne : ∀ q, (p.pls q).isSome → q ≠ 0

theorem IdealPm.fresh_ok {n : Nat} {pool leafPool : List Addr} (hn : n ≤ pool.length)
    (hn' : n ≤ leafPool.length) (hpool : pool.Nodup) (hleaf : leafPool.Nodup)
    (hlt : ∀ a ∈ pool, a < 2 ^ 48) (hne : ∀ q ∈ leafPool, q ≠ 0) :
    (IdealPm.fresh pool leafPool).Ok n where
  pool_length := hn
  leafPool_length := hn'
  pool_nodup := hpool
  leafPool_nodup := hleaf
  pool_free a ha := ⟨hlt a ha, rfl⟩
  leafPool_free q hq := ⟨hne q hq, rfl⟩
  log_lt a ha := by simp [IdealPm.fresh] at ha
  pls_ne q hq := by simp [IdealPm.fresh] at hq

/-- A log with room for `n` records and `P_Leaf`s. -/
def IdealPm.roomy (n : Nat) : IdealPm := fresh (List.range' 1 n) (List.range' 1 n)

theorem IdealPm.roomy_ok {n : Nat} (hn : n < 2 ^ 48) : (IdealPm.roomy n).Ok n := by
  have hlen : n ≤ (List.range' 1 n).length := by rw [List.length_range']
  have hmem : ∀ a ∈ List.range' 1 n, a < 2 ^ 48 ∧ a ≠ 0 := by
    intro a ha
    rw [List.mem_range'_1] at ha
    omega
  exact fresh_ok hlen hlen List.nodup_range' List.nodup_range' (fun a ha => (hmem a ha).1)
    fun a ha => (hmem a ha).2

instance : LawfulPmem IdealPm where
  Ok := IdealPm.Ok
  recs p := { a | (p.log a).isSome }
  leaves p := { q | (p.pls q).isSome }
  ok_mono hmn h :=
    { h with
      pool_length := hmn.trans h.pool_length
      leafPool_length := hmn.trans h.leafPool_length }
  rec_lt h ha := h.log_lt _ ha
  rec_read {n p a} _ ha := by
    obtain ⟨r, hr⟩ := Option.isSome_iff_exists.mp ha
    exact ⟨r.1, r.2, by simp [logKey, hr], by simp [logVal, hr]⟩
  leaf_read {n p q} h hq := ⟨h.pls_ne q hq, Option.isSome_iff_exists.mp hq⟩
  append_spec {n p} t k v pp op version h := by
    obtain ⟨a, rest, hpool⟩ : ∃ a rest, p.pool = a :: rest :=
      List.exists_cons_of_length_pos (Nat.lt_of_lt_of_le (Nat.succ_pos n) h.pool_length)
    have hlen := h.pool_length
    have hnodup := h.pool_nodup
    have hfree := h.pool_free
    rw [hpool] at hlen hnodup hfree
    obtain ⟨hnot, hrest⟩ := List.nodup_cons.mp hnodup
    obtain ⟨halt, hanone⟩ := hfree a List.mem_cons_self
    have hne : ∀ b, (p.log b).isSome → b ≠ a := by
      rintro b hb rfl
      rw [hanone] at hb
      exact absurd hb (by simp)
    refine ⟨a, { p with pool := rest, log := Function.update p.log a (some (k, v)) }, ?_, ?_, ?_,
      ?_, rfl, ?_, ?_, ?_, fun _ _ => rfl⟩
    · simp [appendOne, hpool]
    · refine { h with
        pool_length := by simpa using hlen
        leafPool_length := (Nat.le_succ n).trans h.leafPool_length
        pool_nodup := hrest
        pool_free := ?_
        log_lt := ?_ }
      · intro b hb
        have hba : b ≠ a := fun heq => hnot (heq ▸ hb)
        obtain ⟨hblt, hbnone⟩ := hfree b (List.mem_cons_of_mem _ hb)
        exact ⟨hblt, by simp only [Function.update_of_ne hba, hbnone]⟩
      · intro b hb
        by_cases hba : b = a
        · exact hba ▸ halt
        · simp only [Function.update_of_ne hba] at hb
          exact h.log_lt b hb
    · exact fun ha => hne a ha rfl
    · ext b
      by_cases hba : b = a
      · simp [hba]
      · simp [hba]
    · simp [logKey]
    · simp [logVal]
    · intro b hb
      simp only [logKey, logVal, Function.update_of_ne (hne b hb), and_self]
  setVal_spec {n p a} v h ha := by
    obtain ⟨r, hr⟩ := Option.isSome_iff_exists.mp ha
    refine ⟨{ p with log := Function.update p.log a (some (r.1, v)) }, ?_, ?_, ?_, rfl, ?_, ?_, ?_,
      fun _ _ => rfl⟩
    · simp [setLogVal, hr]
    · refine { h with pool_free := ?_, log_lt := ?_ }
      · intro b hb
        have hba : b ≠ a := by
          rintro rfl
          rw [(h.pool_free b hb).2] at hr
          exact absurd hr (by simp)
        exact ⟨(h.pool_free b hb).1, by simp only [Function.update_of_ne hba, (h.pool_free b hb).2]⟩
      · intro b hb
        by_cases hba : b = a
        · exact hba ▸ h.log_lt a ha
        · simp only [Function.update_of_ne hba] at hb
          exact h.log_lt b hb
    · ext b
      by_cases hba : b = a
      · simp [hba, hr]
      · simp [Function.update_of_ne hba]
    · simp [logKey, hr]
    · simp [logVal]
    · rintro b ⟨-, hba⟩
      simp only [logKey, logVal, Function.update_of_ne hba, and_self]
  alloc_spec {n p} t h := by
    obtain ⟨q, rest, hpool⟩ : ∃ q rest, p.leafPool = q :: rest :=
      List.exists_cons_of_length_pos (Nat.lt_of_lt_of_le (Nat.succ_pos n) h.leafPool_length)
    have hlen := h.leafPool_length
    have hnodup := h.leafPool_nodup
    have hfree := h.leafPool_free
    rw [hpool] at hlen hnodup hfree
    obtain ⟨hnot, hrest⟩ := List.nodup_cons.mp hnodup
    obtain ⟨hqne, hqnone⟩ := hfree q List.mem_cons_self
    have hne : ∀ b, (p.pls b).isSome → b ≠ q := by
      rintro b hb rfl
      rw [hqnone] at hb
      exact absurd hb (by simp)
    refine ⟨q, { p with leafPool := rest, pls := Function.update p.pls q (some ⟨0, 0, 0⟩) }, ?_, ?_,
      ?_, ?_, rfl, fun _ _ => ⟨rfl, rfl⟩, ?_⟩
    · simp [nAllocate, hpool]
    · refine { h with
        pool_length := (Nat.le_succ n).trans h.pool_length
        leafPool_length := by simpa using hlen
        leafPool_nodup := hrest
        leafPool_free := ?_
        pls_ne := ?_ }
      · intro b hb
        have hbq : b ≠ q := fun heq => hnot (heq ▸ hb)
        obtain ⟨hbne, hbnone⟩ := hfree b (List.mem_cons_of_mem _ hb)
        exact ⟨hbne, by simp only [Function.update_of_ne hbq, hbnone]⟩
      · intro b hb
        by_cases hbq : b = q
        · exact hbq ▸ hqne
        · simp only [Function.update_of_ne hbq] at hb
          exact h.pls_ne b hb
    · exact fun hq => hne q hq rfl
    · ext b
      by_cases hbq : b = q
      · simp [hbq]
      · simp [hbq]
    · intro b hb
      simp only [pleaf, Function.update_of_ne (hne b hb)]
  setLeaf_spec {n p q} l h hq := by
    obtain ⟨l₀, hl₀⟩ := Option.isSome_iff_exists.mp hq
    refine ⟨{ p with pls := Function.update p.pls q (some l) }, ?_, ?_, rfl, ?_, ?_,
      fun _ _ => ⟨rfl, rfl⟩, ?_⟩
    · simp [setPleaf, hl₀]
    · refine { h with leafPool_free := ?_, pls_ne := ?_ }
      · intro b hb
        have hbq : b ≠ q := by
          rintro rfl
          rw [(h.leafPool_free b hb).2] at hl₀
          exact absurd hl₀ (by simp)
        exact ⟨(h.leafPool_free b hb).1,
          by simp only [Function.update_of_ne hbq, (h.leafPool_free b hb).2]⟩
      · intro b hb
        by_cases hbq : b = q
        · exact hbq ▸ h.pls_ne q hq
        · simp only [Function.update_of_ne hbq] at hb
          exact h.pls_ne b hb
    · ext b
      by_cases hbq : b = q
      · simp [hbq, hl₀]
      · simp [Function.update_of_ne hbq]
    · simp [pleaf]
    · rintro b ⟨-, hbq⟩
      simp only [pleaf, Function.update_of_ne hbq]

theorem IdealPm.roomy_lawful {m n : Nat} (hmn : m ≤ n) (hn : n < 2 ^ 48) :
    LawfulPmem.Ok m (IdealPm.roomy n) :=
  LawfulPmem.ok_mono hmn (IdealPm.roomy_ok hn)

end ZBTree
