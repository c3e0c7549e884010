import ZBTree.PersistentPools
import ZBTree.PoolRecovery
import Mathlib.Data.Fintype.Sum

/-!
# Many pools side by side

All allocators of a process, their pools laid out back to back. Nothing in `n_alc.cpp` compares
`end_address` with the end of the pool: the blocks of an allocator stay in its pool, and away
from the blocks of the others, exactly as long as the pool is large enough for the requests that
the allocator has served.
-/

namespace ZBTree

/-- The allocators of a process in the order of their `alc_id`. `cut` is kept for the account:
the blocks that have been cut, each with the `alc_id` of its allocator. -/
structure PoolProcess where
  poolLen : Nat
  mem : Headers
  managers : List NAlc
  cut : List (Nat × Nat)

/-- `new N_alc`, or `n_allocate` on one of the allocators. -/
inductive PoolCall where
  | create
  | allocate (id : Nat) (r : AllocRequest)
deriving DecidableEq, Repr

def poolStart (poolLen id : Nat) : Nat := mmapStart + poolLen * id

/-- The headers from `low` up to `high`. -/
def headersBetween (low high : Nat) : List Nat :=
  (List.range ((high - low) / CHUNK_SIZE)).map fun i => low + i * CHUNK_SIZE

namespace PoolProcess

def fresh (poolLen : Nat) (m : Headers) : PoolProcess := ⟨poolLen, m, [], []⟩

def call (s : PoolProcess) : PoolCall → Option PoolProcess
  | .create =>
    let id := s.managers.length
    let start := poolStart s.poolLen id
    let (a, m) := NAlc.init start s.mem
    some { s with
      mem := m
      managers := s.managers ++ [a]
      cut := s.cut ++ (headersBetween (start + 1024) a.endAddress).map fun h => (id, h) }
  | .allocate id r => do
    let a ← s.managers[id]?
    let (_, a', m) ← r.serve a s.mem
    return { s with
      mem := m
      managers := s.managers.set id a'
      cut := s.cut ++ (headersBetween a.endAddress a'.endAddress).map fun h => (id, h) }

def run (s : PoolProcess) (ops : List PoolCall) : Option PoolProcess := ops.foldlM call s

def pool (s : PoolProcess) (id : Nat) : Region := ⟨poolStart s.poolLen id, s.poolLen⟩

/-- Every block lies in the pool of its allocator, and blocks of different allocators do not
overlap. -/
structure Contained (s : PoolProcess) : Prop where
  inside : ∀ b ∈ s.cut, Region.Within ⟨b.2, CHUNK_SIZE⟩ (s.pool b.1)
  apart : ∀ b ∈ s.cut, ∀ b' ∈ s.cut, b.1 ≠ b'.1 →
    Region.Disjoint ⟨b.2, CHUNK_SIZE⟩ ⟨b'.2, CHUNK_SIZE⟩

end PoolProcess

/-! ### What the requests of an allocator need -/

/-- The tree blocks and log blocks that requests have taken into use, and the bytes taken from
the last of the tree blocks. -/
structure Demand where
  nodes : Nat
  fill : BitVec 32
  logs : Nat
deriving DecidableEq, Repr

namespace Demand

def start : Demand := ⟨1, 0, 0⟩

def serve (d : Demand) (r : AllocRequest) : Demand :=
  match r.kind with
  | .node =>
    if CHUNK_SIZE - baseMetaSize < (d.fill + r.sz).toNat then
      { d with nodes := d.nodes + 1, fill := r.sz }
    else { d with fill := d.fill + r.sz }
  | .log => { d with logs := d.logs + 1 }

/-- The blocks that have to be cut, four at a time; four of each kind are there from the start. -/
def nodeBlocks (d : Demand) : Nat := 4 * ((d.nodes + 3) / 4)
def logBlocks (d : Demand) : Nat := 4 * max 1 ((d.logs + 3) / 4)

def bytes (d : Demand) : Nat := 1024 + (d.nodeBlocks + d.logBlocks) * CHUNK_SIZE

def of (rs : List AllocRequest) : Demand := rs.foldl serve start

theorem of_concat (rs : List AllocRequest) (r : AllocRequest) :
    of (rs ++ [r]) = (of rs).serve r := by
  rw [of, List.foldl_append]
  rfl

/-- The blocks whose ends `bytes` counts. -/
def blocks (d : Demand) : Nat := d.nodeBlocks + d.logBlocks

theorem blocks_le_serve (d : Demand) (r : AllocRequest) : d.blocks ≤ (d.serve r).blocks := by
  have hgrow : d.nodes ≤ (d.serve r).nodes ∧ d.logs ≤ (d.serve r).logs := by
    unfold serve
    cases r.kind with
    | node =>
      dsimp only
      split
      · exact ⟨Nat.le_succ _, Nat.le_refl _⟩
      · exact ⟨Nat.le_refl _, Nat.le_refl _⟩
    | log => exact ⟨Nat.le_refl _, Nat.le_succ _⟩
  unfold blocks nodeBlocks logBlocks
  omega

theorem bytes_le_serve (d : Demand) (r : AllocRequest) : d.bytes ≤ (d.serve r).bytes :=
  Nat.add_le_add_left (Nat.mul_le_mul_right _ (d.blocks_le_serve r)) _

theorem lt_of_bytes {d : Demand} {poolLen : Nat} (h : d.bytes ≤ poolLen) (hlen : poolLen < 2 ^ 58) :
    d.nodes < 2 ^ 32 ∧ d.logs + 1 < 2 ^ 32 := by
  have hsize : CHUNK_SIZE = 2 ^ 26 := by decide
  unfold bytes nodeBlocks logBlocks at h
  rw [hsize] at h
  omega

end Demand

namespace PoolCall

def created (ops : List PoolCall) : Nat := ops.countP fun op => op = .create

def requests (id : Nat) (ops : List PoolCall) : List AllocRequest :=
  ops.filterMap fun
    | .create => none
    | .allocate id' r => if id' = id then some r else none

/-- Each pool is large enough for the requests to its allocator. -/
def LargeEnough (poolLen : Nat) (ops : List PoolCall) : Prop :=
  ∀ id, id < created ops → (Demand.of (requests id ops)).bytes ≤ poolLen

/-- Each request goes to one of the allocators there are then, `n` at the beginning. -/
def Addressed (n : Nat) : List PoolCall → Prop
  | [] => True
  | .create :: rest => Addressed (n + 1) rest
  | .allocate id _ :: rest => id < n ∧ Addressed n rest

instance (poolLen : Nat) (ops : List PoolCall) : Decidable (LargeEnough poolLen ops) :=
  inferInstanceAs (Decidable (∀ id, id < _ → _))

end PoolCall

/-! ### The blocks of a pool by kind -/

theorem BlockCuts.Exact.total_eq {c : BlockCuts} (h : c.Exact) :
    c.total = c.count .node + c.count .log := by
  let f : Fin (c.count .node) ⊕ Fin (c.count .log) → Fin c.total
    | .inl j => ⟨c.place .node j, h.place_lt j.isLt⟩
    | .inr j => ⟨c.place .log j, h.place_lt j.isLt⟩
  have hf : Function.Bijective f := by
    constructor
    · rintro (i | i) (j | j) heq
      · exact congrArg Sum.inl (Fin.ext (h.place_inj i.isLt j.isLt (congrArg Fin.val heq)).2)
      · exact absurd (h.place_inj i.isLt j.isLt (congrArg Fin.val heq)).1 (by decide)
      · exact absurd (h.place_inj i.isLt j.isLt (congrArg Fin.val heq)).1 (by decide)
      · exact congrArg Sum.inr (Fin.ext (h.place_inj i.isLt j.isLt (congrArg Fin.val heq)).2)
    · rintro ⟨n, hn⟩
      obtain ⟨kind, j, hj, rfl⟩ := h.place_onto hn
      cases kind with
      | node => exact ⟨.inl ⟨j, hj⟩, rfl⟩
      | log => exact ⟨.inr ⟨j, hj⟩, rfl⟩
  have hcard := Fintype.card_congr (Equiv.ofBijective f hf)
  rw [Fintype.card_sum, Fintype.card_fin, Fintype.card_fin, Fintype.card_fin] at hcard
  exact hcard.symm

/-! ### One allocator

A `Demand` counts what an allocator has been asked for: the tree blocks, the bytes in the last of them, and the
log blocks. It determines the end of the allocator, since blocks are cut four at a time. -/

namespace NAlc

variable {a : NAlc} {m : Headers} {kind : BlockKind} {x n : Nat}

theorem getMoreChunk_outside (n : Nat) (a : NAlc) (m : Headers) (kind : BlockKind)
    (hx : x < a.endAddress ∨ a.endAddress + n * CHUNK_SIZE ≤ x) :
    (getMoreChunk n a m kind).2 x = m x := by
  induction n generalizing a m with
  | zero => rfl
  | succ n ih =>
    rw [Nat.succ_mul] at hx
    have hsize : 0 < CHUNK_SIZE := by decide
    have hfirst : (a.cutChunk m kind).2 x = m x := by
      apply Function.update_of_ne
      omega
    have hrest : (getMoreChunk n (a.cutChunk m kind).1 (a.cutChunk m kind).2 kind).2 x =
        (a.cutChunk m kind).2 x := by
      apply ih
      change x < a.endAddress + CHUNK_SIZE ∨ a.endAddress + CHUNK_SIZE + n * CHUNK_SIZE ≤ x
      omega
    exact hrest.trans hfirst

/-- `get_free_block`, with the number of blocks that there are then and what it leaves alone. -/
theorem Listed.getFreeBlock_exact {c : BlockCuts} (h : a.Listed c) (m : Headers)
    (hfour : 4 ∣ c.count kind) (hdec : (a.decisionId kind).toNat ≤ c.count kind) :
    ∃ c' a' m', a.getFreeBlock m kind =
        (some (a.header c' kind (a.decisionId kind).toNat), a', m') ∧
      a.Grown m c kind a' m' c' ∧ 4 ∣ c'.count kind ∧
      (a.decisionId kind).toNat < c'.count kind ∧
      c'.count kind =
        (if (a.decisionId kind).toNat < c.count kind then c.count kind else c.count kind + 4) ∧
      ∀ x, x < a.endAddress ∨ a'.endAddress ≤ x → m' x = m x := by
  obtain ⟨c', a', m', heval, hgrown, hfour', hlt⟩ := h.getFreeBlock m hfour hdec
  -- the end of the pool says how many blocks there are of both kinds
  have hcount : ∀ n, a'.endAddress = a.endAddress + n * CHUNK_SIZE →
      c'.count kind = c.count kind + n := by
    intro n hend
    have hblock : blockAt a.startAddress c.total + n * CHUNK_SIZE =
        blockAt a.startAddress (c.total + n) := by
      rw [blockAt, blockAt, Nat.add_mul, Nat.add_assoc]
    rw [hgrown.listed.end_eq, h.end_eq, hgrown.start, hblock] at hend
    have htotal : c'.total = c.total + n := blockAt_injective hend
    rw [hgrown.listed.exact.total_eq, h.exact.total_eq] at htotal
    cases kind with
    | node =>
      have := hgrown.count_of_ne .log (by decide)
      omega
    | log =>
      have := hgrown.count_of_ne .node (by decide)
      omega
  refine ⟨c', a', m', heval, hgrown, hfour', hlt, ?_⟩
  rw [NAlc.getFreeBlock, h.entry] at heval
  by_cases hold : (a.decisionId kind).toNat < c.count kind
  · rw [if_pos hold] at heval ⊢
    obtain ⟨-, rfl, rfl⟩ : _ ∧ a = a' ∧ m = m' := by simpa using heval
    exact ⟨hcount 0 (by rw [Nat.zero_mul, Nat.add_zero]), fun _ _ => rfl⟩
  · rw [if_neg hold] at heval ⊢
    obtain ⟨rfl, rfl⟩ :
        (getMoreChunk 4 a m kind).1 = a' ∧ (getMoreChunk 4 a m kind).2 = m' :=
      ⟨congrArg (fun r => r.2.1) heval, congrArg (fun r => r.2.2) heval⟩
    have hend : (getMoreChunk 4 a m kind).1.endAddress = _ := getMoreChunk_endAddress 4 a m
    refine ⟨hcount 4 hend, fun x hx => ?_⟩
    rw [hend] at hx
    exact getMoreChunk_outside 4 a m kind hx

/-- The allocator has taken into use what its requests needed, and no more blocks than these
have been cut. -/
structure Serves (a : NAlc) (m : Headers) (start : Nat) (d : Demand) (c : BlockCuts) : Prop where
  kept : a.Kept c
  start_eq : a.startAddress = start
  nodes : (a.decisionId .node).toNat + 1 = d.nodes
  logs : (a.decisionId .log).toNat = d.logs
  node_count : c.count .node = d.nodeBlocks
  log_count : c.count .log = d.logBlocks
  fill : (m (a.header c .node (a.decisionId .node).toNat)).bitmap = d.fill
  unused : ∀ j, (a.decisionId .node).toNat < j → j < c.count .node →
    (m (a.header c .node j)).bitmap = 0

/-- What a request writes lies in the blocks of the allocator. -/
def WritesWithin (start limit : Nat) (m m' : Headers) : Prop :=
  ∀ x, x < start + 1024 ∨ limit ≤ x → m' x = m x

variable {start : Nat} {d : Demand} {c : BlockCuts}

theorem Serves.end_eq (h : a.Serves m start d c) : a.endAddress = start + d.bytes := by
  rw [h.kept.listed.end_eq, h.start_eq, h.kept.listed.exact.total_eq, h.node_count, h.log_count,
    blockAt, Demand.bytes, Nat.add_assoc]

theorem header_bounds (h : a.Listed c) {j : Nat} (hj : j < c.count kind) :
    a.startAddress + 1024 ≤ a.header c kind j ∧ a.header c kind j < a.endAddress := by
  refine ⟨Nat.le_add_right _ _, ?_⟩
  rw [h.end_eq, header, blockAt_lt_iff]
  exact h.exact.place_lt hj

theorem Serves.congr (h : a.Serves m start d c) {m' : Headers}
    (hsame : ∀ x, start + 1024 ≤ x → x < a.endAddress → m' x = m x) : a.Serves m' start d c := by
  have hheader : ∀ j, j < c.count .node → m' (a.header c .node j) = m (a.header c .node j) := by
    intro j hj
    obtain ⟨hlow, hhigh⟩ := header_bounds h.kept.listed hj
    exact hsame _ (h.start_eq ▸ hlow) hhigh
  exact { h with
    fill := by rw [hheader _ h.kept.node_decided]; exact h.fill
    unused := fun j hlt hj => by rw [hheader j hj]; exact h.unused j hlt hj }

theorem Serves.serve_fits (h : a.Serves m start d c) {sz : BitVec 32}
    (hroom : ¬ CHUNK_SIZE - baseMetaSize < (d.fill + sz).toNat) :
    ∃ address m', a.nAllocateTree m sz = some (address, a, m') ∧
      a.Serves m' start { d with fill := d.fill + sz } c ∧
      WritesWithin start a.endAddress m m' := by
  set header := a.header c .node (a.decisionId .node).toNat with hheader
  have hlack : ¬ lacksRoom (m header) sz := by
    rw [lacksRoom, h.fill]
    exact hroom
  obtain ⟨hlow, hhigh⟩ := header_bounds h.kept.listed h.kept.node_decided
  rw [h.start_eq] at hlow
  refine ⟨_, _, h.kept.nAllocateTree_fits hlack, ?_, ?_⟩
  · refine ⟨h.kept, h.start_eq, h.nodes, h.logs, h.node_count, h.log_count, ?_, ?_⟩
    · rw [Function.update_self, ← hheader, h.fill]
    · intro j hlt hj
      rw [Function.update_of_ne]
      · exact h.unused j hlt hj
      · intro heq
        have := (header_injective h.kept.listed.exact hj h.kept.node_decided heq).2
        omega
  · intro x hx
    apply Function.update_of_ne
    rintro rfl
    omega

/-- A piece of the next tree block. -/
theorem Serves.serve_moves (h : a.Serves m start d c) {sz : BitVec 32}
    (hroom : CHUNK_SIZE - baseMetaSize < (d.fill + sz).toNat) (hwrap : d.nodes < 2 ^ 32) :
    ∃ address a' m' c', a.nAllocateTree m sz = some (address, a', m') ∧
      a'.Serves m' start { d with nodes := d.nodes + 1, fill := sz } c' ∧
      a.endAddress ≤ a'.endAddress ∧ WritesWithin start a'.endAddress m m' := by
  have hlack : lacksRoom (m (a.header c .node (a.decisionId .node).toNat)) sz := by
    rw [lacksRoom, h.fill]
    exact hroom
  have hnodes := h.nodes
  have hnext : ((a.nextDecision .node).decisionId .node).toNat = d.nodes := by
    have hone : (1 : BitVec 32).toNat = 1 := rfl
    rw [nextDecision_decisionId_self, BitVec.toNat_add, hone, hnodes, Nat.mod_eq_of_lt hwrap]
  have hlisted := h.kept.listed.nextDecision .node
  -- the next block is there or has just been cut
  obtain ⟨c', a', m₁, heval, hgrown, hfour, hlt, hcount, hout⟩ :=
    hlisted.getFreeBlock_exact m (h.kept.four .node) h.kept.node_decided_next
  rw [hnext] at heval hlt hcount
  set header := (a.nextDecision .node).header c' .node d.nodes with hheader
  have hstart : a'.startAddress = start := hgrown.start.trans h.start_eq
  have hsame : ∀ j, a'.header c' .node j = (a.nextDecision .node).header c' .node j := by
    intro j
    rw [NAlc.header, NAlc.header, hgrown.start]
  have hdecision : (a'.decisionId .node).toNat = d.nodes := by rw [hgrown.decision, hnext]
  -- the blocks behind the one in use are empty
  have hempty : ∀ j, d.nodes ≤ j → j < c'.count .node → (m₁ (a'.header c' .node j)).bitmap = 0 := by
    intro j hj hj'
    rw [hsame]
    by_cases hold : j < c.count .node
    · have hkept := hgrown.fresh.old_header _ (hlisted.exact.place_lt hold)
      rw [header_eq_of_extends hgrown.extends_cuts hold]
      rw [NAlc.header, hkept]
      exact h.unused j (by omega) hold
    · rw [hgrown.fresh.new_header .node j (Nat.le_of_not_lt hold) hj']
  obtain ⟨hlow, hhigh⟩ := header_bounds hgrown.listed hlt
  rw [hsame, ← hheader] at hlow hhigh
  rw [hstart] at hlow
  have hle : a.endAddress ≤ a'.endAddress := by
    have hend : (a.nextDecision .node).endAddress = a.endAddress := rfl
    rw [← hend, hlisted.end_eq, hgrown.listed.end_eq, hgrown.start]
    exact blockAt_le_iff.mpr hgrown.extends_cuts.total_le
  refine ⟨_, _, _, c',
    nAllocateTree_of_full (h.kept.listed.entry_of_lt h.kept.node_decided) hlack heval, ?_, hle, ?_⟩
  · have hkept : a'.Kept c' := by
      apply h.kept.of_grown_node hgrown hfour
      rw [← nextDecision_decisionId_self, hnext]
      exact hlt
    refine ⟨hkept, hstart, ?_, ?_, ?_, ?_, ?_, ?_⟩
    · rw [hdecision]
    · rw [hgrown.decision, nextDecision_decisionId_of_ne _ _ _ (by decide)]
      exact h.logs
    · have hold := h.node_count
      rw [hcount]
      unfold Demand.nodeBlocks at hold ⊢
      dsimp only
      split <;> omega
    · rw [hgrown.count_of_ne .log (by decide)]
      exact h.log_count
    · rw [hdecision, hsame, ← hheader, Function.update_self]
      have hz := hempty d.nodes (Nat.le_refl _) hlt
      rw [hsame, ← hheader] at hz
      dsimp only
      rw [hz]
      exact BitVec.zero_add sz
    · intro j hj hj'
      rw [hdecision] at hj
      rw [Function.update_of_ne]
      · exact hempty j (Nat.le_of_lt hj) hj'
      · rw [hheader, ← hsame]
        intro heq
        have := (header_injective hgrown.listed.exact hj' hlt heq).2
        omega
  · intro x hx
    have hne : x ≠ header := by
      rintro rfl
      omega
    rw [Function.update_of_ne hne]
    apply hout
    rcases hx with hx | hx
    · left
      have hend := (header_bounds h.kept.listed h.kept.node_decided)
      rw [h.start_eq] at hend
      change x < a.endAddress
      omega
    · exact Or.inr hx

/-- A log block. -/
theorem Serves.serve_log (h : a.Serves m start d c) (sz : BitVec 32) (hwrap : d.logs + 1 < 2 ^ 32) :
    ∃ address a' m' c', a.nAllocateLog m sz = some (address, a', m') ∧
      a'.Serves m' start { d with logs := d.logs + 1 } c' ∧
      a.endAddress ≤ a'.endAddress ∧ WritesWithin start a'.endAddress m m' := by
  obtain ⟨c', a', m₁, heval, hgrown, hfour, hlt, hcount, hout⟩ :=
    h.kept.listed.getFreeBlock_exact m (h.kept.four .log) h.kept.log_decided
  rw [h.logs] at heval hcount
  set header := a.header c' .log d.logs with hheader
  have hstart : a'.startAddress = start := hgrown.start.trans h.start_eq
  have hsame : ∀ kind j, a'.header c' kind j = a.header c' kind j := by
    intro kind j
    rw [NAlc.header, NAlc.header, hgrown.start]
  have hlt' : d.logs < c'.count .log := h.logs ▸ hlt
  have hle : a.endAddress ≤ a'.endAddress := by
    rw [h.kept.listed.end_eq, hgrown.listed.end_eq, hgrown.start]
    exact blockAt_le_iff.mpr hgrown.extends_cuts.total_le
  -- the tree blocks keep their headers
  have hnode : ∀ j, j < c.count .node →
      ∀ b, Function.update m₁ header b (a.header c .node j) = m (a.header c .node j) := by
    intro j hj b
    have hj' : j < c'.count .node := Nat.lt_of_lt_of_le hj (hgrown.extends_cuts.count_le _)
    rw [Function.update_of_ne]
    · exact hgrown.fresh.old_header _ (h.kept.listed.exact.place_lt hj)
    · rw [hheader, ← header_eq_of_extends hgrown.extends_cuts hj]
      intro heq
      exact absurd (header_injective hgrown.listed.exact hj' hlt' heq).1 (by decide)
  have hdecision : a'.decisionId .node = a.decisionId .node := congrFun hgrown.decision _
  have hheaders : ∀ j, j < c.count .node → a'.header c' .node j = a.header c .node j := by
    intro j hj
    rw [hsame, header_eq_of_extends hgrown.extends_cuts hj]
  obtain ⟨hlow, hhigh⟩ := header_bounds hgrown.listed hlt'
  rw [hsame, ← hheader] at hlow hhigh
  rw [hstart] at hlow
  refine ⟨_, _, _, c', nAllocateLog_of_found heval, ?_, hle, ?_⟩
  · refine ⟨h.kept.of_grown_log hgrown hfour hlt, hstart, ?_, ?_, ?_, ?_, ?_, ?_⟩
    · rw [nextDecision_decisionId_of_ne _ _ _ (by decide), hdecision]
      exact h.nodes
    · have hone : (1 : BitVec 32).toNat = 1 := rfl
      rw [nextDecision_decisionId_self, hgrown.decision, BitVec.toNat_add, hone, h.logs,
        Nat.mod_eq_of_lt hwrap]
    · rw [hgrown.count_of_ne .node (by decide)]
      exact h.node_count
    · have hold := h.log_count
      rw [hcount]
      unfold Demand.logBlocks at hold ⊢
      dsimp only
      split <;> omega
    · have hnext : (a'.nextDecision .log).decisionId .node = a.decisionId .node :=
        (nextDecision_decisionId_of_ne _ _ _ (by decide)).trans hdecision
      rw [hnext]
      change (Function.update m₁ header _ (a'.header c' .node _)).bitmap = d.fill
      rw [hheaders _ h.kept.node_decided, hnode _ h.kept.node_decided]
      exact h.fill
    · intro j hj hj'
      rw [nextDecision_decisionId_of_ne _ _ _ (by decide), hdecision] at hj
      rw [hgrown.count_of_ne .node (by decide)] at hj'
      change (Function.update m₁ header _ (a'.header c' .node j)).bitmap = 0
      rw [hheaders j hj', hnode j hj']
      exact h.unused j hj hj'
  · intro x hx
    have hne : x ≠ header := by
      rintro rfl
      rcases hx with hx | hx
      · omega
      · exact absurd hhigh (Nat.not_lt.mpr hx)
    rw [Function.update_of_ne hne]
    apply hout
    rcases hx with hx | hx
    · left
      have hend := header_bounds h.kept.listed h.kept.node_decided
      rw [h.start_eq] at hend
      omega
    · exact Or.inr hx

theorem Serves.serve (h : a.Serves m start d c) (r : AllocRequest) (hnodes : d.nodes < 2 ^ 32)
    (hlogs : d.logs + 1 < 2 ^ 32) :
    ∃ address a' m' c', r.serve a m = some (address, a', m') ∧
      a'.Serves m' start (d.serve r) c' ∧ a.endAddress ≤ a'.endAddress ∧
      WritesWithin start a'.endAddress m m' := by
  rw [AllocRequest.serve, Demand.serve]
  cases r.kind with
  | node =>
    dsimp only
    by_cases hroom : CHUNK_SIZE - baseMetaSize < (d.fill + r.sz).toNat
    · rw [if_pos hroom]
      exact h.serve_moves hroom hnodes
    · rw [if_neg hroom]
      obtain ⟨address, m', heval, hserves, hwrites⟩ := h.serve_fits hroom
      exact ⟨address, a, m', c, heval, hserves, Nat.le_refl _, hwrites⟩
  | log => exact h.serve_log r.sz hlogs

/-- A new allocator. -/
theorem init_serves (start : Nat) (m : Headers) :
    (init start m).1.Serves (init start m).2 start Demand.start firstCuts ∧
      WritesWithin start (init start m).1.endAddress m (init start m).2 := by
  have hzero := init_decisionId start m
  have hkept := init_kept start m
  have hmarked := Worker.init_marked start m
  constructor
  · refine ⟨hkept, init_startAddress start m, ?_, ?_, ?_, ?_, ?_, ?_⟩
    · rw [hzero]
      rfl
    · rw [hzero]
      rfl
    · decide
    · decide
    · have hb := hmarked .node _ hkept.node_decided
      exact (hb.node rfl).2.2 (Nat.zero_le _)
    · intro j _ hj
      exact ((hmarked .node j hj).node rfl).2.2 (Nat.zero_le _)
  · intro x hx
    let a₀ : NAlc :=
      { list := fun _ _ => none, pageId := fun _ => 0, decisionId := fun _ => 0,
        startAddress := start, endAddress := start + 1024 }
    have hfirst : (getMoreChunk 4 a₀ m .node).1.endAddress = _ := getMoreChunk_endAddress 4 a₀ m
    have hlast : (getMoreChunk 4 (getMoreChunk 4 a₀ m .node).1 (getMoreChunk 4 a₀ m .node).2
      .log).1.endAddress = _ := getMoreChunk_endAddress 4 _ _
    change x < start + 1024 ∨
      (getMoreChunk 4 (getMoreChunk 4 a₀ m .node).1 (getMoreChunk 4 a₀ m .node).2 .log).1.endAddress ≤ x
      at hx
    change (getMoreChunk 4 (getMoreChunk 4 a₀ m .node).1 (getMoreChunk 4 a₀ m .node).2 .log).2 x = m x
    have hbegin : a₀.endAddress = start + 1024 := rfl
    rw [getMoreChunk_outside 4 _ _ _ (by omega), getMoreChunk_outside 4 _ _ _ (by omega)]

end NAlc

/-! ### All allocators -/

theorem mem_headersBetween {low n h : Nat} :
    h ∈ headersBetween low (low + n * CHUNK_SIZE) ↔ ∃ i, i < n ∧ h = low + i * CHUNK_SIZE := by
  rw [headersBetween, Nat.add_sub_cancel_left, Nat.mul_div_cancel _ (by decide), List.mem_map]
  constructor
  · rintro ⟨i, hi, rfl⟩
    exact ⟨i, List.mem_range.mp hi, rfl⟩
  · rintro ⟨i, hi, rfl⟩
    exact ⟨i, List.mem_range.mpr hi, rfl⟩

namespace PoolCall

variable {ops : List PoolCall} {id id' : Nat} {r : AllocRequest}

theorem created_create (ops : List PoolCall) : created (ops ++ [create]) = created ops + 1 := by
  rw [created, List.countP_append]
  rfl

theorem created_allocate (ops : List PoolCall) (id : Nat) (r : AllocRequest) :
    created (ops ++ [allocate id r]) = created ops := by
  rw [created, List.countP_append]
  rfl

theorem requests_create (id : Nat) (ops : List PoolCall) :
    requests id (ops ++ [create]) = requests id ops := by
  rw [requests, List.filterMap_append]
  exact List.append_nil _

theorem requests_self (id : Nat) (ops : List PoolCall) (r : AllocRequest) :
    requests id (ops ++ [allocate id r]) = requests id ops ++ [r] := by
  rw [requests, List.filterMap_append]
  simp [requests]

theorem requests_of_ne (hne : id' ≠ id) (ops : List PoolCall) (r : AllocRequest) :
    requests id (ops ++ [allocate id' r]) = requests id ops := by
  rw [requests, List.filterMap_append]
  simp [requests, hne]

theorem Addressed.concat {n : Nat} {op : PoolCall} (h : Addressed n (ops ++ [op])) :
    Addressed n ops ∧ ∀ id r, op = .allocate id r → id < n + created ops := by
  induction ops generalizing n with
  | nil =>
    refine ⟨trivial, ?_⟩
    rintro id r rfl
    exact h.1
  | cons first rest ih =>
    cases first with
    | create =>
      obtain ⟨hrest, hlast⟩ := ih (n := n + 1) h
      refine ⟨hrest, fun id r heq => ?_⟩
      have hcount : created (create :: rest) = created rest + 1 := by
        rw [created, List.countP_cons]
        rfl
      have hlt := hlast id r heq
      omega
    | allocate id r =>
      obtain ⟨hrest, hlast⟩ := ih h.2
      exact ⟨⟨h.1, hrest⟩, hlast⟩

theorem LargeEnough.before {poolLen : Nat} {op : PoolCall} (h : LargeEnough poolLen (ops ++ [op])) :
    LargeEnough poolLen ops := by
  intro id hid
  cases op with
  | create =>
    have hnow := h id (by rw [created_create]; exact Nat.lt_succ_of_lt hid)
    rwa [requests_create] at hnow
  | allocate id' r =>
    have hnow := h id (by rw [created_allocate]; exact hid)
    by_cases hne : id' = id
    · subst hne
      rw [requests_self, Demand.of_concat] at hnow
      exact (Demand.bytes_le_serve _ r).trans hnow
    · rwa [requests_of_ne hne] at hnow

end PoolCall

namespace PoolProcess

variable {s s' : PoolProcess} {ops : List PoolCall} {op : PoolCall} {id : Nat} {a : NAlc}

/-- Each allocator is where its own requests have brought it, and the blocks that have been cut
lie between the beginning of its pool and its `end_address`. -/
structure Tracked (s : PoolProcess) (ops : List PoolCall) : Prop where
  created : s.managers.length = PoolCall.created ops
  idle : ∀ id, PoolCall.created ops ≤ id → PoolCall.requests id ops = []
  serves : ∀ id (a : NAlc), s.managers[id]? = some a → ∃ c, a.Serves s.mem (poolStart s.poolLen id)
    (Demand.of (PoolCall.requests id ops)) c
  cut : ∀ b ∈ s.cut, ∃ a : NAlc, s.managers[b.1]? = some a ∧
    poolStart s.poolLen b.1 + 1024 ≤ b.2 ∧ b.2 + CHUNK_SIZE ≤ a.endAddress

theorem fresh_tracked (poolLen : Nat) (m : Headers) : (fresh poolLen m).Tracked [] where
  created := rfl
  idle _ _ := rfl
  serves id a h := by
    change ([] : List NAlc)[id]? = some a at h
    rw [List.getElem?_nil] at h
    cases h
  cut _ h := by cases h

theorem Tracked.end_le (h : s.Tracked ops) (hlarge : PoolCall.LargeEnough s.poolLen ops)
    (ha : s.managers[id]? = some a) : a.endAddress ≤ poolStart s.poolLen id + s.poolLen := by
  obtain ⟨c, hserves⟩ := h.serves id a ha
  have hid : id < PoolCall.created ops := h.created ▸ (List.getElem?_eq_some_iff.mp ha).1
  rw [hserves.end_eq]
  exact Nat.add_le_add_left (hlarge id hid) _

theorem pools_apart {poolLen i j : Nat} (h : i < j) :
    poolStart poolLen i + poolLen ≤ poolStart poolLen j := by
  have hmul : poolLen * (i + 1) ≤ poolLen * j := Nat.mul_le_mul_left _ h
  rw [Nat.mul_succ] at hmul
  unfold poolStart
  omega

theorem Tracked.contained (h : s.Tracked ops) (hlarge : PoolCall.LargeEnough s.poolLen ops) :
    s.Contained := by
  have hinside : ∀ b ∈ s.cut, Region.Within ⟨b.2, CHUNK_SIZE⟩ (s.pool b.1) := by
    intro b hb
    obtain ⟨a, ha, hlow, hhigh⟩ := h.cut b hb
    exact ⟨(Nat.le_add_right _ _).trans hlow, hhigh.trans (h.end_le hlarge ha)⟩
  refine ⟨hinside, fun b hb b' hb' hne => ?_⟩
  have hpools : (s.pool b.1).Disjoint (s.pool b'.1) := by
    rcases Nat.lt_or_gt_of_ne hne with hlt | hgt
    · exact Or.inl (pools_apart hlt)
    · exact Or.inr (pools_apart hgt)
  exact hpools.mono (hinside b hb) (hinside b' hb')

/-- What a call does: one allocator goes on to what its requests need with the next one, and the
blocks behind its old `end_address` are cut. -/
structure Advances (s : PoolProcess) (ops : List PoolCall) (op : PoolCall) (s' : PoolProcess)
    (id : Nat) (a : NAlc) : Prop where
  poolLen : s'.poolLen = s.poolLen
  created : s'.managers.length = PoolCall.created (ops ++ [op])
  idle : ∀ i, PoolCall.created (ops ++ [op]) ≤ i → PoolCall.requests i (ops ++ [op]) = []
  manager : s'.managers[id]? = some a
  old_manager : ∀ i, i ≠ id → s'.managers[i]? = s.managers[i]?
  old_requests : ∀ i, i ≠ id → PoolCall.requests i (ops ++ [op]) = PoolCall.requests i ops
  old_created : ∀ i, i ≠ id → i < PoolCall.created (ops ++ [op]) → i < PoolCall.created ops
  serves : ∃ c, a.Serves s'.mem (poolStart s.poolLen id)
    (Demand.of (PoolCall.requests id (ops ++ [op]))) c
  writes : NAlc.WritesWithin (poolStart s.poolLen id) a.endAddress s.mem s'.mem
  grows : ∀ a', s.managers[id]? = some a' → a'.endAddress ≤ a.endAddress
  cut : ∃ low n, a.endAddress = low + n * CHUNK_SIZE ∧ poolStart s.poolLen id + 1024 ≤ low ∧
    (low ≤ poolStart s.poolLen id + s.poolLen ∨ 0 < n) ∧
    s'.cut = s.cut ++ (headersBetween low (low + n * CHUNK_SIZE)).map fun h => (id, h)

theorem Tracked.advances_create (h : s.Tracked ops) :
    ∃ s' a, s.call .create = some s' ∧ s.Advances ops .create s' s.managers.length a := by
  obtain ⟨hserves, hwrites⟩ :=
    NAlc.init_serves (poolStart s.poolLen s.managers.length) s.mem
  have hidle : PoolCall.requests s.managers.length ops = [] :=
    h.idle _ (Nat.le_of_eq h.created.symm)
  have hcreated : PoolCall.created (ops ++ [.create]) = s.managers.length + 1 := by
    rw [PoolCall.created_create, h.created]
  have hend := hserves.end_eq
  have hbytes : Demand.start.bytes = 1024 + 8 * CHUNK_SIZE := by decide
  rw [hbytes, ← Nat.add_assoc] at hend
  rw [call]
  generalize NAlc.init (poolStart s.poolLen s.managers.length) s.mem = new at *
  refine ⟨_, new.1, rfl, ?_⟩
  exact {
    poolLen := rfl
    created := by rw [hcreated]; exact List.length_append
    idle := fun i hi => by
      rw [PoolCall.requests_create]
      rw [PoolCall.created_create] at hi
      exact h.idle i (Nat.le_of_succ_le hi)
    manager := List.getElem?_concat_length
    old_manager := fun i hi => by
      rcases Nat.lt_or_gt_of_ne hi with hlt | hgt
      · exact List.getElem?_append_left hlt
      · rw [List.getElem?_eq_none (Nat.le_of_lt hgt), List.getElem?_eq_none]
        rw [List.length_append]
        exact hgt
    old_requests := fun i _ => PoolCall.requests_create i ops
    old_created := fun i hi hlt => by
      rw [hcreated] at hlt
      rw [← h.created]
      exact Nat.lt_of_le_of_ne (Nat.le_of_lt_succ hlt) hi
    serves := ⟨NAlc.firstCuts, by rw [PoolCall.requests_create, hidle]; exact hserves⟩
    writes := hwrites
    grows := fun a' ha' => by
      rw [List.getElem?_eq_none (Nat.le_refl _)] at ha'
      cases ha'
    cut := ⟨_, 8, hend, Nat.le_refl _, Or.inr (by decide), by rw [← hend]⟩ }

theorem Tracked.advances_allocate (h : s.Tracked ops) (hlarge : PoolCall.LargeEnough s.poolLen ops)
    (hlen : s.poolLen < 2 ^ 58) (ha : s.managers[id]? = some a) (r : AllocRequest) :
    ∃ s' a', s.call (.allocate id r) = some s' ∧ s.Advances ops (.allocate id r) s' id a' := by
  obtain ⟨c, hserves⟩ := h.serves id a ha
  have hid : id < s.managers.length := (List.getElem?_eq_some_iff.mp ha).1
  obtain ⟨hnodes, hlogs⟩ := Demand.lt_of_bytes (hlarge id (h.created ▸ hid)) hlen
  obtain ⟨address, a', m', c', heval, hserves', hle, hwrites⟩ := hserves.serve r hnodes hlogs
  set d := Demand.of (PoolCall.requests id ops) with hd
  -- the end of the pool grows by whole blocks
  have hend : a'.endAddress = a.endAddress + ((d.serve r).blocks - d.blocks) * CHUNK_SIZE := by
    have hsum : d.blocks + ((d.serve r).blocks - d.blocks) = (d.serve r).blocks :=
      Nat.add_sub_of_le (d.blocks_le_serve r)
    rw [hserves'.end_eq, hserves.end_eq, Demand.bytes, Demand.bytes]
    change _ + (_ + (d.serve r).blocks * _) = _ + (_ + d.blocks * _) + _
    rw [← hsum, Nat.add_mul, hsum]
    simp only [Nat.add_assoc]
  refine ⟨_, a', by rw [call, ha, Option.bind_eq_bind, Option.bind_some, heval]; rfl, ?_⟩
  exact {
    poolLen := rfl
    created := by rw [PoolCall.created_allocate, ← h.created]; exact List.length_set
    idle := fun i hi => by
      rw [PoolCall.created_allocate] at hi
      have hne : id ≠ i := by
        rintro rfl
        exact absurd hi (Nat.not_le_of_lt (h.created ▸ hid))
      rw [PoolCall.requests_of_ne hne]
      exact h.idle i hi
    manager := List.getElem?_set_self hid
    old_manager := fun i hi => List.getElem?_set_ne (Ne.symm hi)
    old_requests := fun i hi => PoolCall.requests_of_ne (Ne.symm hi) ops r
    old_created := fun i _ hlt => by rwa [PoolCall.created_allocate] at hlt
    serves := ⟨c', by rw [PoolCall.requests_self, Demand.of_concat]; exact hserves'⟩
    writes := hwrites
    grows := fun a'' ha'' => by
      obtain rfl : a = a'' := Option.some.inj (ha.symm.trans ha'')
      exact hle
    cut := ⟨a.endAddress, _, hend, by
      rw [hserves.end_eq]
      exact Nat.add_le_add_left (Nat.le_add_right _ _) _,
      Or.inl (h.end_le hlarge ha), by rw [← hend]⟩ }

/-- The other allocators are not affected as long as the pool that grows is large enough. -/
theorem Tracked.advance (h : s.Tracked ops) (hlarge : PoolCall.LargeEnough s.poolLen (ops ++ [op]))
    (hadv : s.Advances ops op s' id a) : s'.Tracked (ops ++ [op]) where
  created := hadv.created
  idle := hadv.idle
  serves i b hb := by
    rw [hadv.poolLen]
    by_cases hi : i = id
    · subst hi
      obtain rfl : a = b := Option.some.inj (hadv.manager.symm.trans hb)
      exact hadv.serves
    · rw [hadv.old_manager i hi] at hb
      obtain ⟨c, hserves⟩ := h.serves i b hb
      obtain ⟨c', hserves'⟩ := hadv.serves
      have hid : id < PoolCall.created (ops ++ [op]) :=
        hadv.created ▸ (List.getElem?_eq_some_iff.mp hadv.manager).1
      have hb_end := h.end_le hlarge.before hb
      have ha_end : a.endAddress ≤ poolStart s.poolLen id + s.poolLen := by
        rw [hserves'.end_eq]
        exact Nat.add_le_add_left (hlarge id hid) _
      refine ⟨c, ?_⟩
      rw [hadv.old_requests i hi]
      apply hserves.congr
      intro x hlow hhigh
      apply hadv.writes
      -- another pool lies before the one that grows, or behind it
      rcases Nat.lt_or_gt_of_ne hi with hlt | hgt
      · have hpools : poolStart s.poolLen i + s.poolLen ≤ poolStart s.poolLen id := pools_apart hlt
        left
        omega
      · have hpools : poolStart s.poolLen id + s.poolLen ≤ poolStart s.poolLen i := pools_apart hgt
        right
        omega
  cut b hb := by
    rw [hadv.poolLen]
    obtain ⟨low, n, hend, hlow, -, hcut⟩ := hadv.cut
    rw [hcut, List.mem_append] at hb
    -- a block from before, or one that has been cut now
    rcases hb with hold | hnew
    · obtain ⟨a', ha', hbegin, hlimit⟩ := h.cut b hold
      by_cases hi : b.1 = id
      · rw [hi] at ha' hbegin ⊢
        exact ⟨a, hadv.manager, hbegin, hlimit.trans (hadv.grows a' ha')⟩
      · exact ⟨a', (hadv.old_manager _ hi).trans ha', hbegin, hlimit⟩
    · obtain ⟨x, hx, rfl⟩ := List.mem_map.mp hnew
      obtain ⟨i, hi, rfl⟩ := mem_headersBetween.mp hx
      refine ⟨a, hadv.manager, hlow.trans (Nat.le_add_right _ _), ?_⟩
      rw [hend, Nat.add_assoc, ← Nat.succ_mul]
      exact Nat.add_le_add_left (Nat.mul_le_mul_right _ hi) _

theorem exists_outside {low n : Nat} (hlow : low ≤ poolStart s.poolLen id + s.poolLen ∨ 0 < n)
    (hhigh : poolStart s.poolLen id + s.poolLen < low + n * CHUNK_SIZE) :
    ∃ h ∈ headersBetween low (low + n * CHUNK_SIZE),
      ¬ Region.Within ⟨h, CHUNK_SIZE⟩ (s.pool id) := by
  have hpos : 0 < n := by
    rcases hlow with hle | hpos
    · apply Nat.pos_of_ne_zero
      rintro rfl
      omega
    · exact hpos
  refine ⟨low + (n - 1) * CHUNK_SIZE, mem_headersBetween.mpr ⟨n - 1, by omega, rfl⟩, ?_⟩
  rintro ⟨-, hlimit⟩
  have hlast : low + (n - 1) * CHUNK_SIZE + CHUNK_SIZE = low + n * CHUNK_SIZE := by
    rw [Nat.add_assoc, ← Nat.succ_mul, Nat.succ_eq_add_one, Nat.sub_add_cancel hpos]
  simp only [Region.limit, pool, hlast] at hlimit
  omega

theorem Advances.not_contained (hadv : s.Advances ops op s' id a)
    (hlarge : PoolCall.LargeEnough s.poolLen ops)
    (hsmall : ¬ PoolCall.LargeEnough s.poolLen (ops ++ [op])) :
    ∃ b ∈ s'.cut, ¬ Region.Within ⟨b.2, CHUNK_SIZE⟩ (s'.pool b.1) := by
  obtain ⟨c, hserves⟩ := hadv.serves
  obtain ⟨low, n, hend, -, hlow, hcut⟩ := hadv.cut
  have hbytes : s.poolLen < (Demand.of (PoolCall.requests id (ops ++ [op]))).bytes := by
    refine Nat.lt_of_not_le fun hle => hsmall fun i hi => ?_
    by_cases heq : i = id
    · rw [heq]
      exact hle
    · rw [hadv.old_requests i heq]
      exact hlarge i (hadv.old_created i heq hi)
  have hhigh : poolStart s.poolLen id + s.poolLen < low + n * CHUNK_SIZE := by
    rw [← hend, hserves.end_eq]
    exact Nat.add_lt_add_left hbytes _
  obtain ⟨x, hx, hout⟩ := exists_outside hlow hhigh
  refine ⟨(id, x), ?_, ?_⟩
  · rw [hcut, List.mem_append]
    exact Or.inr (List.mem_map.mpr ⟨x, hx, rfl⟩)
  · rw [pool, hadv.poolLen]
    exact hout

/-! ### Whole runs -/

theorem run_concat (s : PoolProcess) (ops : List PoolCall) (op : PoolCall) :
    s.run (ops ++ [op]) = (s.run ops).bind fun s' => s'.call op := by
  rw [run, List.foldlM_append]
  cases h : s.run ops with
  | none =>
    change List.foldlM call s ops = none at h
    rw [h]
    rfl
  | some s' =>
    change List.foldlM call s ops = some s' at h
    rw [h]
    change (s'.call op >>= fun s'' => pure s'') = _
    rw [bind_pure]
    rfl

theorem call_keeps (h : s.call op = some s') : s'.poolLen = s.poolLen ∧ ∀ b ∈ s.cut, b ∈ s'.cut := by
  cases op with
  | create =>
    obtain rfl := Option.some.inj h
    exact ⟨rfl, fun b hb => List.mem_append_left _ hb⟩
  | allocate id r =>
    rw [call, Option.bind_eq_bind, Option.bind_eq_some_iff] at h
    obtain ⟨a, -, h⟩ := h
    rw [Option.bind_eq_bind, Option.bind_eq_some_iff] at h
    obtain ⟨served, -, h⟩ := h
    obtain rfl := Option.some.inj h
    exact ⟨rfl, fun b hb => List.mem_append_left _ hb⟩

/-- Up to the first call that a pool is too small for, everything is in its place; from then on
there is a block that is not. -/
theorem run_tracked (poolLen : Nat) (hlen : poolLen < 2 ^ 58) (m : Headers) (ops : List PoolCall)
    (s : PoolProcess) (hrun : (fresh poolLen m).run ops = some s) :
    s.poolLen = poolLen ∧ (PoolCall.LargeEnough poolLen ops → s.Tracked ops) ∧
      (¬ PoolCall.LargeEnough poolLen ops →
        ∃ b ∈ s.cut, ¬ Region.Within ⟨b.2, CHUNK_SIZE⟩ (s.pool b.1)) := by
  induction ops using List.reverseRecOn generalizing s with
  | nil =>
    obtain rfl : fresh poolLen m = s := Option.some.inj hrun
    refine ⟨rfl, fun _ => fresh_tracked poolLen m, fun hsmall => ?_⟩
    exact absurd (fun id hid => absurd hid (Nat.not_lt_zero id)) hsmall
  | append_singleton ops op ih =>
    rw [run_concat, Option.bind_eq_some_iff] at hrun
    obtain ⟨s₀, hbefore, hcall⟩ := hrun
    obtain ⟨hpool, htracked, houtside⟩ := ih s₀ hbefore
    obtain ⟨hkeep, hcut⟩ := call_keeps hcall
    refine ⟨hkeep.trans hpool, ?_⟩
    subst hpool
    by_cases hlarge : PoolCall.LargeEnough s₀.poolLen ops
    · have hadv : ∃ id a, s₀.Advances ops op s id a := by
        cases op with
        | create =>
          obtain ⟨s', a, hcall', hadv⟩ := (htracked hlarge).advances_create
          obtain rfl : s' = s := Option.some.inj (hcall'.symm.trans hcall)
          exact ⟨_, a, hadv⟩
        | allocate id r =>
          have ha : ∃ a, s₀.managers[id]? = some a := by
            rw [call, Option.bind_eq_bind, Option.bind_eq_some_iff] at hcall
            obtain ⟨a, ha, -⟩ := hcall
            exact ⟨a, ha⟩
          obtain ⟨a, ha⟩ := ha
          obtain ⟨s', a', hcall', hadv⟩ := (htracked hlarge).advances_allocate hlarge hlen ha r
          obtain rfl : s' = s := Option.some.inj (hcall'.symm.trans hcall)
          exact ⟨_, a', hadv⟩
      obtain ⟨id, a, hadv⟩ := hadv
      exact ⟨fun hlarge' => (htracked hlarge).advance hlarge' hadv,
        fun hsmall => hadv.not_contained hlarge hsmall⟩
    · refine ⟨fun hlarge' => absurd hlarge'.before hlarge, fun _ => ?_⟩
      obtain ⟨b, hb, hout⟩ := houtside hlarge
      refine ⟨b, hcut b hb, ?_⟩
      rw [pool, hkeep]
      exact hout

theorem run_serves (poolLen : Nat) (hlen : poolLen < 2 ^ 58) (m : Headers) (ops : List PoolCall)
    (hcalls : PoolCall.Addressed 0 ops) (hlarge : PoolCall.LargeEnough poolLen ops) :
    ∃ s, (fresh poolLen m).run ops = some s := by
  induction ops using List.reverseRecOn with
  | nil => exact ⟨_, rfl⟩
  | append_singleton ops op ih =>
    obtain ⟨hbefore, hop⟩ := hcalls.concat
    obtain ⟨s, hrun⟩ := ih hbefore hlarge.before
    obtain ⟨rfl, htracked, -⟩ := run_tracked poolLen hlen m ops s hrun
    rw [run_concat, hrun, Option.bind_some]
    cases op with
    | create => exact ⟨_, rfl⟩
    | allocate id r =>
      have hid : id < s.managers.length := by
        rw [(htracked hlarge.before).created]
        simpa using hop id r rfl
      obtain ⟨s', -, hcall, -⟩ := (htracked hlarge.before).advances_allocate hlarge.before hlen
        (List.getElem?_eq_getElem hid) r
      exact ⟨s', hcall⟩

/-- For any number of allocators and any interleaving of their requests: the blocks that have
been cut lie in the pools of their allocators, and those of different allocators do not overlap,
if and only if each pool has room for the requests that its allocator has served; and then
every request is served. -/
theorem blocks_in_own_pools_iff (poolLen : Nat) (hlen : poolLen < 2 ^ 58) (m : Headers)
    (ops : List PoolCall) :
    (∀ s, (fresh poolLen m).run ops = some s →
      (s.Contained ↔ PoolCall.LargeEnough poolLen ops)) ∧
    (PoolCall.Addressed 0 ops → PoolCall.LargeEnough poolLen ops →
      ∃ s, (fresh poolLen m).run ops = some s) := by
  refine ⟨fun s hrun => ?_, run_serves poolLen hlen m ops⟩
  obtain ⟨rfl, htracked, houtside⟩ := run_tracked poolLen hlen m ops s hrun
  constructor
  · intro hcontained
    by_contra hsmall
    obtain ⟨b, hb, hout⟩ := houtside hsmall
    exact hout (hcontained.inside b hb)
  · intro hlarge
    exact (htracked hlarge).contained hlarge

/-- Two pools of one gibibyte, with a block of leaves and five log blocks asked for. -/
def twoUsers : List PoolCall :=
  [.create, .create, .allocate 1 ⟨.node, pLeafSize⟩] ++
    List.replicate 5 (.allocate 0 ⟨.log, segmentSize⟩)

theorem twoUsers_in_own_pools :
    ∃ s, (fresh (16 * CHUNK_SIZE) fun _ => BaseMeta.zero).run twoUsers = some s ∧
      s.Contained := by
  have hlarge : PoolCall.LargeEnough (16 * CHUNK_SIZE) twoUsers := by decide
  obtain ⟨hiff, hserved⟩ := blocks_in_own_pools_iff (16 * CHUNK_SIZE) (by decide)
    (fun _ => BaseMeta.zero) twoUsers
  obtain ⟨s, hrun⟩ := hserved (by simp [twoUsers, PoolCall.Addressed]) hlarge
  exact ⟨s, hrun, (hiff s hrun).mpr hlarge⟩

/-- In pools of 512 MiB the same requests run into the neighbour: the fifth log block lies
across the first block of the second allocator. -/
theorem twoUsers_overlap :
    ∃ s, (fresh (8 * CHUNK_SIZE) fun _ => BaseMeta.zero).run twoUsers = some s ∧
      ∃ b ∈ s.cut, ∃ b' ∈ s.cut, b.1 ≠ b'.1 ∧
        ¬ Region.Within ⟨b.2, CHUNK_SIZE⟩ (s.pool b.1) ∧
        ¬ Region.Disjoint ⟨b.2, CHUNK_SIZE⟩ ⟨b'.2, CHUNK_SIZE⟩ := by
  have hrun : ((fresh (8 * CHUNK_SIZE) fun _ => BaseMeta.zero).run twoUsers).map (fun s =>
      decide (∃ b ∈ s.cut, ∃ b' ∈ s.cut, b.1 ≠ b'.1 ∧
        ¬ Region.Within ⟨b.2, CHUNK_SIZE⟩ (s.pool b.1) ∧
        ¬ Region.Disjoint ⟨b.2, CHUNK_SIZE⟩ ⟨b'.2, CHUNK_SIZE⟩)) = some true := by
    decide +kernel
  obtain ⟨s, hs, htrue⟩ := Option.map_eq_some_iff.mp hrun
  exact ⟨s, hs, of_decide_eq_true htrue⟩

end PoolProcess

end ZBTree
