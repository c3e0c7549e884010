import ZBTree.LeafLayout

/-!
# Which leaves recovery finds

`n_allocate` hands the `P_Leaf`s out one behind the other, from the first tree block to the last, and
the header of a tree block counts the bytes that are gone. So the first loop of `recover_init`, which
collects the tree blocks by their headers, and the second, which goes through the bytes of each of
them, visit the `P_Leaf`s that were handed out and nothing else. The log blocks in between do not
matter: their headers have another type.
-/

namespace ZBTree

open Rebuilt

/-! ### Sequences of requests -/

/-- What a sequence of requests returns. -/
def NAlc.allocateAll : NAlc → Headers → List AllocRequest →
    Option (List (BlockKind × Nat) × NAlc × Headers)
  | a, m, [] => some ([], a, m)
  | a, m, r :: rest => do
    let (address, a, m) ← r.serve a m
    let (given, a, m) ← a.allocateAll m rest
    return ((r.kind, address) :: given, a, m)

/-- The addresses among `given` that requests of one kind have returned. -/
def addressesOf (kind : BlockKind) (given : List (BlockKind × Nat)) : List Nat :=
  given.filterMap fun p => if p.1 = kind then some p.2 else none

theorem addressesOf_append (kind : BlockKind) (given given' : List (BlockKind × Nat)) :
    addressesOf kind (given ++ given') = addressesOf kind given ++ addressesOf kind given' :=
  List.filterMap_append

theorem addressesOf_self (kind : BlockKind) (p : Nat) : addressesOf kind [(kind, p)] = [p] := by
  simp [addressesOf]

theorem addressesOf_of_ne {kind kind' : BlockKind} (hne : kind' ≠ kind) (p : Nat) :
    addressesOf kind [(kind', p)] = [] := by
  simp [addressesOf, hne]

theorem NAlc.allocateAll_returns {a : NAlc} {c : BlockCuts} (h : a.Kept c) (m : Headers)
    (rs : List AllocRequest) :
    ∃ given a' m' c', a.allocateAll m rs = some (given, a', m') ∧ a'.Kept c' ∧
      a'.startAddress = a.startAddress ∧ c.Extends c' := by
  induction rs generalizing a m c with
  | nil => exact ⟨[], a, m, c, rfl, h, rfl, BlockCuts.Extends.refl c⟩
  | cons r rest ih =>
    have hstep : ∃ address a₁ m₁ c₁, r.serve a m = some (address, a₁, m₁) ∧ a₁.Kept c₁ ∧
        a₁.startAddress = a.startAddress ∧ c.Extends c₁ := by
      unfold AllocRequest.serve
      cases r.kind with
      | node =>
        by_cases hroom : NAlc.lacksRoom (m (a.header c .node (a.decisionId .node).toNat)) r.sz
        · obtain ⟨c₁, a₁, m₁, hgrown, hfour, hlt, heval⟩ := h.nAllocateTree_moves hroom
          exact ⟨_, a₁, _, c₁, heval, h.of_grown_node hgrown hfour hlt, hgrown.start,
            hgrown.extends_cuts⟩
        · exact ⟨_, a, _, c, h.nAllocateTree_fits hroom, h, rfl, BlockCuts.Extends.refl c⟩
      | log =>
        obtain ⟨c₁, a₁, m₁, hgrown, hfour, hlt, -, heval⟩ := h.nAllocateLog m r.sz
        exact ⟨_, _, _, c₁, heval, h.of_grown_log hgrown hfour hlt, hgrown.start,
          hgrown.extends_cuts⟩
    obtain ⟨address, a₁, m₁, c₁, hserve, hkept, hstart, hcuts⟩ := hstep
    obtain ⟨given, a', m', c', hrest, hkept', hstart', hcuts'⟩ := ih hkept m₁
    refine ⟨(r.kind, address) :: given, a', m', c', ?_, hkept', hstart'.trans hstart,
      hcuts.trans hcuts'⟩
    rw [allocateAll, hserve]
    simp only [Option.bind_eq_bind, Option.bind_some, hrest]
    rfl

/-! ### The leaves of a block -/

/-- The `P_Leaf`s in the first `bytes` bytes of a block. -/
def leavesFrom (header bytes : Nat) : List Nat :=
  (List.range ((bytes + (pleafSize - 1)) / pleafSize)).map fun i =>
    header + baseMetaSize + pleafSize * i

theorem leavesFrom_zero (header : Nat) : leavesFrom header 0 = [] := rfl

theorem leavesFrom_add (header : Nat) {bytes : Nat} (h : pleafSize ∣ bytes) :
    leavesFrom header (bytes + pleafSize) =
      leavesFrom header bytes ++ [header + baseMetaSize + bytes] := by
  obtain ⟨n, rfl⟩ := h
  have hcount : ∀ k, (pleafSize * k + (pleafSize - 1)) / pleafSize = k := by
    intro k
    unfold pleafSize
    omega
  unfold leavesFrom
  rw [← Nat.mul_succ, hcount, hcount, List.range_succ, List.map_append]
  rfl

theorem mem_leavesFrom {header bytes p : Nat} (hp : p ∈ leavesFrom header bytes) :
    header + baseMetaSize ≤ p ∧ p < header + baseMetaSize + bytes := by
  obtain ⟨i, hi, rfl⟩ := List.mem_map.mp hp
  have hlt := List.mem_range.mp hi
  unfold pleafSize at hlt ⊢
  omega

theorem leavesFrom_nodup (header bytes : Nat) : (leavesFrom header bytes).Nodup := by
  apply List.Nodup.map _ List.nodup_range
  intro i j hij
  simp only [pleafSize] at hij
  omega

/-! ### One request -/

theorem NAlc.Listed.header_eq {a : NAlc} {c c' : BlockCuts} (h : a.Listed c) (h' : a.Listed c')
    {kind : BlockKind} {j : Nat} (hj : j < c.count kind) :
    a.header c' kind j = a.header c kind j := by
  have hentry := h.entry_ofNat hj
  rw [h'.entry] at hentry
  have hword : (BitVec.ofNat 32 j).toNat = j := by
    rw [BitVec.toNat_ofNat, Nat.mod_eq_of_lt (Nat.lt_of_lt_of_le hj (h.count_le kind))]
  rw [hword] at hentry
  split_ifs at hentry
  exact Option.some.inj hentry

namespace Worker

variable {s : Worker} {c : BlockCuts}

/-- The bytes that are gone from the `j`-th tree block. -/
def bytesIn (s : Worker) (c : BlockCuts) (j : Nat) : Nat :=
  (s.mem (s.alc.header c .node j)).bitmap.toNat

/-- What a request for a tree node of `sz` bytes does: it takes them from the block `j`, which is the
last one in use afterwards. -/
structure TreeStep (s : Worker) (c : BlockCuts) (sz : BitVec 32) (s' : Worker) (c' : BlockCuts)
    (j : Nat) : Prop where
  eval : s.alc.nAllocateTree s.mem sz =
    some (s.alc.header c' .node j + baseMetaSize + (s'.bytesIn c' j - sz.toNat), s'.alc, s'.mem)
  filled : s'.Filled c'
  within : s.Within c s' c'
  last : s'.taken .node = j + 1
  logs : s'.taken .log = s.taken .log
  bytes : (s.taken .node = j + 1 ∧ s'.bytesIn c' j = s.bytesIn c j + sz.toNat) ∨
    (s.taken .node = j ∧ s'.bytesIn c' j = sz.toNat)
  others : ∀ i, i < j → s'.bytesIn c' i = s.bytesIn c i

theorem call_tree {sz : BitVec 32} {piece : BlockKind × Region} {s' : Worker}
    (h : s.call (.tree sz) = some (piece, s')) :
    ∃ address, s.alc.nAllocateTree s.mem sz = some (address, s'.alc, s'.mem) ∧
      s'.taken = s.account s'.alc .node := by
  rw [Worker.call] at h
  obtain ⟨⟨address, a, m⟩, heval, h⟩ := Option.bind_eq_some_iff.mp h
  rw [Option.pure_def, Option.some.injEq, Prod.mk.injEq] at h
  obtain ⟨-, rfl⟩ := h
  exact ⟨address, heval, rfl⟩

theorem Filled.treeStep_fits (h : s.Filled c) {sz : BitVec 32} (hsz : sz.toNat ≤ dataSize)
    (hroom : ¬ NAlc.lacksRoom (s.mem (s.alc.header c .node (s.alc.decisionId .node).toNat)) sz) :
    ∃ s', s.TreeStep c sz s' c (s.alc.decisionId .node).toNat := by
  obtain ⟨piece, s', htook⟩ := h.tree_fits hsz hroom
  obtain ⟨address, hcall, -⟩ := call_tree htook.eval
  have htaken := h.tree_taken_same hroom htook.eval
  have heval := h.kept.nAllocateTree_fits hroom
  have hlive := h.kept.node_decided
  set d := (s.alc.decisionId .node).toNat with hd
  have hb := h.marked .node d hlive
  have hsum := bitmap_add (hb.node rfl).2.1 hsz
  dsimp only at heval
  have hsame := heval.symm.trans hcall
  simp only [Option.some.injEq, Prod.mk.injEq] at hsame
  obtain ⟨-, halc, hmem⟩ := hsame
  have hself : s'.bytesIn c d = s.bytesIn c d + sz.toNat := by
    unfold bytesIn
    rw [← halc, ← hmem, Function.update_self]
    exact hsum
  have hother : ∀ i, i < d → s'.bytesIn c i = s.bytesIn c i := by
    intro i hi
    unfold bytesIn
    rw [← halc, ← hmem, Function.update_of_ne]
    exact fun heq => hi.ne (NAlc.header_injective h.kept.listed.exact (hi.trans hlive) hlive heq).2
  refine ⟨s', ?_, htook.filled, htook.within, ?_, by rw [htaken], Or.inl ⟨h.node_taken, hself⟩, hother⟩
  · rw [heval, hself, Nat.add_sub_cancel, ← halc, ← hmem, hb.start]
    rfl
  · rw [htaken]
    exact h.node_taken

/-- From the next block. -/
theorem Filled.treeStep_moves (h : s.Filled c) {sz : BitVec 32} (hpos : 0 < sz.toNat)
    (hsz : sz.toNat ≤ dataSize)
    (hroom : NAlc.lacksRoom (s.mem (s.alc.header c .node (s.alc.decisionId .node).toNat)) sz)
    (hwrap : s.taken .node < 2 ^ 32) :
    ∃ s' c', s.TreeStep c sz s' c' (s.taken .node) := by
  obtain ⟨piece, s', c', htook⟩ := h.tree_moves hpos hsz hroom hwrap
  obtain ⟨address, hcall, haccount⟩ := call_tree htook.eval
  have htaken := h.tree_taken hroom htook.eval
  obtain ⟨c₁, a', m', hgrown, -, hlt, heval⟩ := h.kept.nAllocateTree_moves hroom
  have hd : (s.alc.decisionId .node + 1).toNat = s.taken .node := by
    have hone : (1 : BitVec 32).toNat = 1 := rfl
    rw [BitVec.toNat_add, hone, ← h.node_taken, Nat.mod_eq_of_lt hwrap]
  rw [hd] at hlt heval
  dsimp only at heval
  have hsame := heval.symm.trans hcall
  simp only [Option.some.injEq, Prod.mk.injEq] at hsame
  obtain ⟨-, halc, hmem⟩ := hsame
  have hstart : s'.alc.startAddress = s.alc.startAddress := htook.within.start
  -- both accounts of the blocks are that of the directories
  have hheader : ∀ j, j < c₁.count .node → s'.alc.header c' .node j = s.alc.header c₁ .node j := by
    intro j hj
    have heq := NAlc.Listed.header_eq (halc ▸ hgrown.listed) htook.filled.kept.listed hj
    rw [heq, NAlc.header, NAlc.header, hstart]
  -- the block has been cut but not used, so its bitmap is 0
  have hzero : (m' (s.alc.header c₁ .node (s.taken .node))).bitmap = 0 ∧
      (m' (s.alc.header c₁ .node (s.taken .node))).startAddress =
        s.alc.header c₁ .node (s.taken .node) + baseMetaSize := by
    have hmarked := NAlc.Marked.grown (a := s.alc.nextDecision .node) h.marked h.kept.listed.exact
      hgrown h.taken_le .node (s.taken .node) hlt
    have hsame : a'.header c₁ .node (s.taken .node) = s.alc.header c₁ .node (s.taken .node) := by
      rw [halc, NAlc.header, NAlc.header, hstart]
    rw [hsame] at hmarked
    exact ⟨(hmarked.node rfl).2.2 (Nat.le_refl _), hmarked.start⟩
  have hself : s'.bytesIn c' (s.taken .node) = sz.toNat := by
    unfold bytesIn
    rw [hheader _ hlt, ← hmem, Function.update_self]
    dsimp only
    rw [hzero.1]
    exact congrArg BitVec.toNat (BitVec.zero_add sz)
  have hother : ∀ i, i < s.taken .node → s'.bytesIn c' i = s.bytesIn c i := by
    intro i hi
    have hold : i < c.count .node := hi.trans_le (h.taken_le .node)
    have hnew : i < c₁.count .node := hi.trans hlt
    have hplace : m' (s.alc.header c .node i) = s.mem (s.alc.header c .node i) :=
      hgrown.fresh.old_header _ (h.kept.listed.exact.place_lt hold)
    unfold bytesIn
    rw [hheader _ hnew, ← hmem, Function.update_of_ne,
      NAlc.header_eq_of_extends hgrown.extends_cuts hold, hplace]
    exact fun heq => hi.ne (NAlc.header_injective hgrown.listed.exact hnew hlt heq).2
  refine ⟨s', c', ?_, htook.filled, htook.within, htaken, ?_, Or.inr ⟨rfl, hself⟩, hother⟩
  · have hplace : s.alc.header c' .node (s.taken .node) = s.alc.header c₁ .node (s.taken .node) := by
      rw [← hheader _ hlt, NAlc.header, NAlc.header, hstart]
    rw [heval, hself, hplace, ← halc, ← hmem, hzero.1, hzero.2, Nat.sub_self]
    rfl
  · rw [haccount]
    unfold account
    split
    · rfl
    · rw [Function.update_of_ne (by decide)]

theorem Filled.treeStep (h : s.Filled c) {sz : BitVec 32} (hpos : 0 < sz.toNat)
    (hsz : sz.toNat ≤ dataSize) (hwrap : s.taken .node < 2 ^ 32) :
    ∃ s' c' j, s.TreeStep c sz s' c' j := by
  by_cases hroom : NAlc.lacksRoom (s.mem (s.alc.header c .node (s.alc.decisionId .node).toNat)) sz
  · obtain ⟨s', c', hstep⟩ := h.treeStep_moves hpos hsz hroom hwrap
    exact ⟨s', c', _, hstep⟩
  · obtain ⟨s', hstep⟩ := h.treeStep_fits hsz hroom
    exact ⟨s', c, _, hstep⟩

/-- What a request for a log block does. -/
structure LogStep (s : Worker) (c : BlockCuts) (sz : BitVec 32) (s' : Worker) (c' : BlockCuts) :
    Prop where
  eval : s.alc.nAllocateLog s.mem sz =
    some (s.alc.header c' .log (s.taken .log) + baseMetaSize, s'.alc, s'.mem)
  filled : s'.Filled c'
  within : s.Within c s' c'
  logs : s'.taken .log = s.taken .log + 1
  nodes : s'.taken .node = s.taken .node
  bytes : ∀ i, i < s.taken .node → s'.bytesIn c' i = s.bytesIn c i

theorem call_append {version : BitVec 32} (hseg : s.seg.needsSegment version)
    {piece : BlockKind × Region} {s' : Worker} (h : s.call (.append version) = some (piece, s')) :
    ∃ address, s.alc.nAllocateLog s.mem segmentSize = some (address, s'.alc, s'.mem) ∧
      s'.taken = s.account s'.alc .log := by
  rcases call_append_cases h with ⟨-, logStart, a, m, hlog, -, rfl⟩ | ⟨hno, -⟩
  · exact ⟨logStart, hlog, rfl⟩
  · exact absurd hseg hno

/-- A request for a log block is what a record needs that opens a new segment. -/
theorem Filled.logStep (h : s.Filled c) (sz : BitVec 32) (hwrap : s.taken .log < 2 ^ 32) :
    ∃ s' c', s.LogStep c sz s' c' := by
  -- a record that no segment has room for
  have hseg : s.seg.needsSegment (BitVec.allOnes 32) := by
    left
    have hlarge : DSeg.logEnd ≤ (BitVec.allOnes 32).toNat := by decide
    exact hlarge.trans (Nat.le_add_left _ _)
  obtain ⟨piece, s', c', htook⟩ := h.append_new hseg hwrap
  obtain ⟨address, hcall, haccount⟩ := call_append hseg htook.eval
  have htaken := h.append_taken hseg htook.eval
  obtain ⟨c₁, a', m', hgrown, -, hlt, -, heval⟩ := h.kept.nAllocateLog s.mem segmentSize
  have hd : (s.alc.decisionId .log).toNat = s.taken .log := by
    rw [h.log_taken, BitVec.toNat_ofNat, Nat.mod_eq_of_lt hwrap]
  rw [hd] at hlt heval
  dsimp only at heval
  have hsame := heval.symm.trans hcall
  simp only [Option.some.injEq, Prod.mk.injEq] at hsame
  obtain ⟨-, halc, hmem⟩ := hsame
  have hstart : s'.alc.startAddress = s.alc.startAddress := htook.within.start
  have hheader : ∀ kind j, j < c₁.count kind → s'.alc.header c' kind j = s.alc.header c₁ kind j := by
    intro kind j hj
    have heq := NAlc.Listed.header_eq (halc ▸ hgrown.listed.nextDecision .log)
      htook.filled.kept.listed hj
    rw [heq, NAlc.header, NAlc.header, hstart]
  have hzero : (m' (s.alc.header c₁ .log (s.taken .log))).bitmap = 0 ∧
      (m' (s.alc.header c₁ .log (s.taken .log))).startAddress =
        s.alc.header c₁ .log (s.taken .log) + baseMetaSize := by
    have hmarked := h.marked.grown h.kept.listed.exact hgrown h.taken_le .log (s.taken .log) hlt
    have hsame : a'.header c₁ .log (s.taken .log) = s.alc.header c₁ .log (s.taken .log) := by
      rw [NAlc.header, NAlc.header, hgrown.start]
    rw [hsame] at hmarked
    exact ⟨hmarked.log_unused rfl (Nat.le_refl _), hmarked.start⟩
  refine ⟨s', c', ?_, htook.filled, htook.within, htaken, ?_, ?_⟩
  · have hplace : s.alc.header c' .log (s.taken .log) = s.alc.header c₁ .log (s.taken .log) := by
      rw [← hheader _ _ hlt, NAlc.header, NAlc.header, hstart]
    -- the size is not looked at
    have hsize : s.alc.nAllocateLog s.mem sz = s.alc.nAllocateLog s.mem segmentSize := rfl
    rw [hsize, heval, hplace, ← halc, ← hmem, hzero.1, hzero.2]
    rfl
  · rw [haccount]
    unfold account
    split
    · rfl
    · rw [Function.update_of_ne (by decide)]
  · -- the tree blocks keep their bytes: the header that is written is that of a log block
    intro i hi
    have hold : i < c.count .node := hi.trans_le (h.taken_le .node)
    have hnew : i < c₁.count .node := hold.trans_le (hgrown.extends_cuts.count_le .node)
    have hplace : m' (s.alc.header c .node i) = s.mem (s.alc.header c .node i) :=
      hgrown.fresh.old_header _ (h.kept.listed.exact.place_lt hold)
    unfold bytesIn
    rw [hheader _ _ hnew, ← hmem, Function.update_of_ne,
      NAlc.header_eq_of_extends hgrown.extends_cuts hold, hplace]
    intro heq
    exact absurd (NAlc.header_injective hgrown.listed.exact hnew hlt heq).1 (by decide)

/-! ### All requests

The requests are served one after the other. `Enumerated` lists the leaves and the log blocks given out so
far; the image of the pool is determined by it, and the scan of recovery reads the list back. -/

/-- What the requests have returned so far: the leaves of the tree blocks in use, block by block, and
the data of log blocks in use. -/
structure Enumerated (s : Worker) (c : BlockCuts) (given : List (BlockKind × Nat)) : Prop where
  filled : s.Filled c
  whole : ∀ j, j < s.taken .node → pleafSize ∣ s.bytesIn c j
  leaves : addressesOf .node given =
    (List.range (s.taken .node)).flatMap fun j => leavesFrom (s.alc.header c .node j) (s.bytesIn c j)
  logs : ∀ p ∈ addressesOf .log given,
    ∃ j, j < s.taken .log ∧ p = s.alc.header c .log j + baseMetaSize

theorem leaves_congr {s' : Worker} {c' : BlockCuts} {n : Nat} (hwithin : s.Within c s' c')
    (hn : n ≤ c.count .node) (hbytes : ∀ i, i < n → s'.bytesIn c' i = s.bytesIn c i) :
    ((List.range n).flatMap fun j => leavesFrom (s'.alc.header c' .node j) (s'.bytesIn c' j)) =
      (List.range n).flatMap fun j => leavesFrom (s.alc.header c .node j) (s.bytesIn c j) := by
  apply List.flatMap_congr
  intro j hj
  have hlt := List.mem_range.mp hj
  have hheader : s'.alc.header c' .node j = s.alc.header c .node j := by
    rw [NAlc.header, NAlc.header, hwithin.start, hwithin.cuts.place_eq (hlt.trans_le hn)]
  rw [hheader, hbytes j hlt]

theorem Within.log_header {s' : Worker} {c' : BlockCuts} (h : s.Within c s' c') {j : Nat}
    (hj : j < c.count .log) : s'.alc.header c' .log j = s.alc.header c .log j := by
  rw [NAlc.header, NAlc.header, h.start, h.cuts.place_eq hj]

/-- One more leaf. -/
theorem TreeStep.enumerated {sz : BitVec 32} {s' : Worker} {c' : BlockCuts} {j : Nat}
    (hstep : s.TreeStep c sz s' c' j) (hsz : sz.toNat = pleafSize) {given : List (BlockKind × Nat)}
    (h : s.Enumerated c given) :
    ∃ p, s.alc.nAllocateTree s.mem sz = some (p, s'.alc, s'.mem) ∧
      s'.Enumerated c' (given ++ [(.node, p)]) := by
  have hfilled := h.filled
  have hin : j ≤ s.taken .node ∧ j ≤ c.count .node := by
    have hle := hfilled.taken_le .node
    rcases hstep.bytes with ⟨heq, -⟩ | ⟨heq, -⟩
    · omega
    · omega
  have hheader : s'.alc.header c' .node j = s.alc.header c' .node j := by
    rw [NAlc.header, NAlc.header, hstep.within.start]
  have hbefore := leaves_congr hstep.within hin.2 hstep.others
  -- the bytes that were gone from block `j`, and its leaves at that time
  obtain ⟨bytes, hwhole, hbytes, hold⟩ : ∃ bytes, pleafSize ∣ bytes ∧
      s'.bytesIn c' j = bytes + pleafSize ∧ addressesOf .node given =
        ((List.range j).flatMap fun i => leavesFrom (s.alc.header c .node i) (s.bytesIn c i)) ++
          leavesFrom (s'.alc.header c' .node j) bytes := by
    rcases hstep.bytes with ⟨htaken, hbytes⟩ | ⟨htaken, hbytes⟩
    · have hlt : j < s.taken .node := htaken ▸ Nat.lt_succ_self j
      refine ⟨s.bytesIn c j, h.whole j hlt, by rw [hbytes, hsz], ?_⟩
      have hsame : s'.alc.header c' .node j = s.alc.header c .node j := by
        rw [hheader, NAlc.header_eq_of_extends hstep.within.cuts
          (hlt.trans_le (hfilled.taken_le .node))]
      rw [h.leaves, htaken, List.range_succ, List.flatMap_append, List.flatMap_singleton, hsame]
    · refine ⟨0, Nat.dvd_zero _, by rw [hbytes, hsz, Nat.zero_add], ?_⟩
      rw [h.leaves, htaken, leavesFrom_zero, List.append_nil]
  refine ⟨_, hstep.eval, hstep.filled, ?_, ?_, ?_⟩
  · intro i hi
    rw [hstep.last] at hi
    rcases Nat.lt_succ_iff_lt_or_eq.mp hi with hlt | rfl
    · rw [hstep.others i hlt]
      exact h.whole i (hlt.trans_le hin.1)
    · rw [hbytes]
      exact Nat.dvd_add hwhole (Nat.dvd_refl _)
  · rw [addressesOf_append, addressesOf_self, hold, hstep.last, List.range_succ, List.flatMap_append,
      List.flatMap_singleton, hbefore, hbytes, leavesFrom_add _ hwhole, hsz, Nat.add_sub_cancel, hheader,
      List.append_assoc]
  · intro p hp
    rw [addressesOf_append, addressesOf_of_ne (by decide), List.append_nil] at hp
    obtain ⟨i, hi, hpi⟩ := h.logs p hp
    refine ⟨i, by rw [hstep.logs]; exact hi, ?_⟩
    rw [hstep.within.log_header (hi.trans_le (hfilled.taken_le .log))]
    exact hpi

theorem LogStep.enumerated {sz : BitVec 32} {s' : Worker} {c' : BlockCuts}
    (hstep : s.LogStep c sz s' c') {given : List (BlockKind × Nat)} (h : s.Enumerated c given) :
    ∃ p, s.alc.nAllocateLog s.mem sz = some (p, s'.alc, s'.mem) ∧
      s'.Enumerated c' (given ++ [(.log, p)]) := by
  have hfilled := h.filled
  have hbefore := leaves_congr hstep.within (hfilled.taken_le .node) hstep.bytes
  refine ⟨_, hstep.eval, hstep.filled, ?_, ?_, ?_⟩
  · intro i hi
    rw [hstep.nodes] at hi
    rw [hstep.bytes i hi]
    exact h.whole i hi
  · rw [addressesOf_append, addressesOf_of_ne (by decide), List.append_nil, hstep.nodes, hbefore]
    exact h.leaves
  · intro p hp
    rw [addressesOf_append, addressesOf_self] at hp
    rcases List.mem_append.mp hp with hp | hp
    · obtain ⟨i, hi, hpi⟩ := h.logs p hp
      refine ⟨i, by rw [hstep.logs]; exact Nat.lt_succ_of_lt hi, ?_⟩
      rw [hstep.within.log_header (hi.trans_le (hfilled.taken_le .log))]
      exact hpi
    · refine ⟨s.taken .log, by rw [hstep.logs]; exact Nat.lt_succ_self _, ?_⟩
      rw [List.mem_singleton.mp hp, NAlc.header, NAlc.header, hstep.within.start]

/-- A sequence of requests that a small pool has room for. -/
theorem Enumerated.run {rs : List AllocRequest} :
    ∀ {s : Worker} {c : BlockCuts} {before given : List (BlockKind × Nat)} {a' : NAlc} {m' : Headers},
      s.Enumerated c before → (∀ r ∈ rs, r.kind = .node → r.sz.toNat = pleafSize) →
      s.alc.allocateAll s.mem rs = some (given, a', m') →
      a'.endAddress < blockAt s.alc.startAddress (2 ^ 32) →
      ∃ s' c', s'.alc = a' ∧ s'.mem = m' ∧ s.Within c s' c' ∧ s'.Enumerated c' (before ++ given) := by
  induction rs with
  | nil =>
    intro s c before given a' m' h _ heval _
    rw [NAlc.allocateAll, Option.some.injEq, Prod.mk.injEq, Prod.mk.injEq] at heval
    obtain ⟨rfl, rfl, rfl⟩ := heval
    exact ⟨s, c, rfl, rfl, Within.refl s c, by rwa [List.append_nil]⟩
  | cons r rest ih =>
    intro s c before given a' m' h hsize heval hsmall
    -- no counter wraps in a pool of this size
    have hwrap : ∀ kind, s.taken kind < 2 ^ 32 := by
      intro kind
      obtain ⟨given₁, a₁, m₁, c₁, hrun, hkept, hstart, hcuts⟩ :=
        NAlc.allocateAll_returns h.filled.kept s.mem (r :: rest)
      have hsame := hrun.symm.trans heval
      simp only [Option.some.injEq, Prod.mk.injEq] at hsame
      obtain ⟨-, rfl, -⟩ := hsame
      rw [hkept.listed.end_eq, hstart, blockAt_lt_iff] at hsmall
      have htaken := h.filled.taken_le kind
      have hcount := h.filled.kept.listed.exact.count_le_total kind
      have htotal := hcuts.total_le
      omega
    rw [NAlc.allocateAll] at heval
    obtain ⟨⟨p, a₁, m₁⟩, hserve, heval⟩ := Option.bind_eq_some_iff.mp heval
    obtain ⟨⟨given', a₂, m₂⟩, hrest, heval⟩ := Option.bind_eq_some_iff.mp heval
    rw [Option.pure_def, Option.some.injEq, Prod.mk.injEq, Prod.mk.injEq] at heval
    obtain ⟨rfl, rfl, rfl⟩ := heval
    -- one request, by the kind of block it asks for
    obtain ⟨s₁, c₁, rfl, rfl, hwithin, henum⟩ : ∃ s₁ c₁, s₁.alc = a₁ ∧ s₁.mem = m₁ ∧
        s.Within c s₁ c₁ ∧ s₁.Enumerated c₁ (before ++ [(r.kind, p)]) := by
      unfold AllocRequest.serve at hserve
      cases hkind : r.kind with
      | node =>
        rw [hkind] at hserve
        have hsz := hsize r List.mem_cons_self hkind
        have hpos : 0 < r.sz.toNat := by
          rw [hsz]
          decide
        have hle : r.sz.toNat ≤ dataSize := by
          rw [hsz]
          decide
        obtain ⟨s₁, c₁, j, hstep⟩ := h.filled.treeStep hpos hle (hwrap .node)
        obtain ⟨q, hq, henum⟩ := hstep.enumerated hsz h
        have hsame := hq.symm.trans hserve
        simp only [Option.some.injEq, Prod.mk.injEq] at hsame
        obtain ⟨rfl, rfl, rfl⟩ := hsame
        exact ⟨s₁, c₁, rfl, rfl, hstep.within, henum⟩
      | log =>
        rw [hkind] at hserve
        obtain ⟨s₁, c₁, hstep⟩ := h.filled.logStep r.sz (hwrap .log)
        obtain ⟨q, hq, henum⟩ := hstep.enumerated h
        have hsame := hq.symm.trans hserve
        simp only [Option.some.injEq, Prod.mk.injEq] at hsame
        obtain ⟨rfl, rfl, rfl⟩ := hsame
        exact ⟨s₁, c₁, rfl, rfl, hstep.within, henum⟩
    have hsmall₁ : a₂.endAddress < blockAt s₁.alc.startAddress (2 ^ 32) := by
      rw [hwithin.start]
      exact hsmall
    obtain ⟨s', c', halc, hmem, hwithin', henum'⟩ := ih henum
      (fun r' hr' => hsize r' (List.mem_cons_of_mem _ hr')) hrest hsmall₁
    refine ⟨s', c', halc, hmem, hwithin.trans hwithin', ?_⟩
    rwa [List.append_assoc, List.singleton_append] at henum'

theorem start_enumerated (address : Nat) (m : Headers) :
    (start address m).Enumerated NAlc.firstCuts [] := by
  have hzero : (start address m).bytesIn NAlc.firstCuts 0 = 0 := by
    have hmarked := init_marked address m .node 0 (by decide)
    have hbitmap := (hmarked.node rfl).2.2 (Nat.le_refl 0)
    exact congrArg BitVec.toNat hbitmap
  have htaken : (start address m).taken .node = 1 := rfl
  refine ⟨start_filled address m, ?_, ?_, fun p hp => absurd hp List.not_mem_nil⟩
  · intro j hj
    rw [htaken, Nat.lt_one_iff] at hj
    rw [hj, hzero]
    exact Nat.dvd_zero _
  · rw [htaken, List.range_one, List.flatMap_singleton, hzero]
    rfl

end Worker

/-! ### The image -/

/-- A walk over a directory meets every entry once. -/
def WalksOnce (ids : NAlc → List (BitVec 32)) : Prop :=
  ∀ a : NAlc, (ids a).Nodup ∧ ∀ id, id ∈ ids a ↔ a.list .node id ≠ none

/-- The leaves that recovery visits are those of the tree blocks that hold something. -/
theorem PoolImage.nodeLeaves_perm {m : Headers} {start : Nat} {c : BlockCuts}
    {used : BlockKind → Nat} {e : Nat} {a : NAlc} (h : PoolImage m start c used)
    (hre : PoolImage.Reopened m start c used e a) {ids : NAlc → List (BitVec 32)}
    (hids : WalksOnce ids) :
    (nodeLeaves m ids a).Perm
      ((List.range (used .node)).flatMap fun j => blockLeaves m (blockAt start (c.place .node j))) := by
  have hentry : ∀ id : BitVec 32, a.list .node id =
      if id.toNat < used .node then some (blockAt start (c.place .node id.toNat)) else none := by
    intro id
    have hlist := hre.entry .node id
    simpa only [BlockKind.shift, Nat.zero_le, true_and, Nat.sub_zero] using hlist
  have hsmall : used .node < 2 ^ 32 := by
    have hle := (h.used_le .node).trans (h.exact.count_le_total .node)
    exact (hle.trans_lt h.small).trans (by decide)
  have hword : ∀ j, j < used .node → (BitVec.ofNat 32 j).toNat = j := by
    intro j hj
    rw [BitVec.toNat_ofNat, Nat.mod_eq_of_lt (hj.trans hsmall)]
  obtain ⟨hnodup, hmem⟩ := hids a
  have hperm : (ids a).Perm ((List.range (used .node)).map (BitVec.ofNat 32)) := by
    apply (List.perm_ext_iff_of_nodup hnodup _).mpr
    · intro id
      rw [hmem, hentry, List.mem_map]
      constructor
      · intro hne
        by_cases hlt : id.toNat < used .node
        · exact ⟨id.toNat, List.mem_range.mpr hlt, by simp⟩
        · exact absurd (if_neg hlt) hne
      · rintro ⟨j, hj, rfl⟩
        have hlt := List.mem_range.mp hj
        rw [hword j hlt, if_pos hlt]
        exact Option.some_ne_none _
    · apply List.Nodup.map_on _ List.nodup_range
      intro i hi j hj heq
      have hnat := congrArg BitVec.toNat heq
      rwa [hword i (List.mem_range.mp hi), hword j (List.mem_range.mp hj)] at hnat
  have hheaders : ((List.range (used .node)).map (BitVec.ofNat 32)).filterMap (a.list .node) =
      (List.range (used .node)).map fun j => blockAt start (c.place .node j) := by
    rw [List.filterMap_map, ← List.filterMap_eq_map]
    apply List.filterMap_congr
    intro j hj
    have hlt := List.mem_range.mp hj
    rw [Function.comp_apply, hentry, hword j hlt, if_pos hlt]
    rfl
  have hleaves := (hperm.filterMap (a.list .node)).flatMap_right (blockLeaves m)
  rwa [hheaders, List.flatMap_map] at hleaves

namespace Worker

variable {s : Worker} {c : BlockCuts} {given : List (BlockKind × Nat)}

theorem Enumerated.leaves_inUse (h : s.Enumerated c given) :
    addressesOf .node given = (List.range (s.inUse c .node)).flatMap fun j =>
      blockLeaves s.mem (s.alc.header c .node j) := by
  rw [h.leaves]
  by_cases hnone : s.taken .node = 1 ∧ (s.mem (s.alc.header c .node 0)).bitmap = 0
  · have hzero : s.bytesIn c 0 = 0 := congrArg BitVec.toNat hnone.2
    rw [inUse, if_pos hnone, hnone.1, List.range_one, List.flatMap_singleton, hzero]
    rfl
  · rw [inUse, if_neg hnone]
    rfl

theorem Enumerated.nodup (h : s.Enumerated c given) : (addressesOf .node given).Nodup := by
  have hfilled := h.filled
  rw [h.leaves]
  apply List.nodup_flatMap.mpr
  refine ⟨fun j _ => leavesFrom_nodup _ _, ?_⟩
  apply List.Pairwise.imp_of_mem _ List.nodup_range
  intro i j hi hj hne p hpi hpj
  have hi' := (List.mem_range.mp hi).trans_le (hfilled.taken_le .node)
  have hj' := (List.mem_range.mp hj).trans_le (hfilled.taken_le .node)
  -- one address would lie in two blocks
  obtain ⟨hlow, hhigh⟩ := mem_leavesFrom hpi
  obtain ⟨hlow', hhigh'⟩ := mem_leavesFrom hpj
  have hbytes : s.bytesIn c i ≤ dataSize := ((hfilled.marked .node i hi').node rfl).2.1
  have hbytes' : s.bytesIn c j ≤ dataSize := ((hfilled.marked .node j hj').node rfl).2.1
  have hplace : c.place .node i ≠ c.place .node j := fun heq =>
    hne (hfilled.kept.listed.exact.place_inj hi' hj' heq).2
  simp only [NAlc.header, blockAt, baseMetaSize, dataSize, CHUNK_SIZE] at *
  omega

end Worker

/-- Recovery visits the leaves that the requests for tree nodes have returned, each once, and takes
no log block for a tree block. -/
theorem recovered_leaves_exact (address poolLen : Nat) (hmap : address + poolLen ≤ 2 ^ 48)
    (ids : NAlc → List (BitVec 32)) (hids : WalksOnce ids) (rs : List AllocRequest)
    (hsize : ∀ r ∈ rs, r.kind = .node → r.sz.toNat = pleafSize) :
    ∃ given a m, (NAlc.init address fun _ => BaseMeta.zero).1.allocateAll
        (NAlc.init address fun _ => BaseMeta.zero).2 rs = some (given, a, m) ∧
      (a.endAddress ≤ address + poolLen →
        (nodeLeaves m ids (NAlc.reopen m address poolLen)).Perm (addressesOf .node given) ∧
        (addressesOf .node given).Nodup ∧
        ∀ header, header + baseMetaSize ∈ addressesOf .log given →
          ∀ id, (NAlc.reopen m address poolLen).list .node id ≠ some header) := by
  have hstart := Worker.start_enumerated address fun _ => BaseMeta.zero
  have haddress : (NAlc.init address fun _ => BaseMeta.zero).1.startAddress = address :=
    NAlc.init_startAddress address _
  obtain ⟨given, a, m, c₁, hrun, hkept, hbase, -⟩ := NAlc.allocateAll_returns hstart.filled.kept
    (NAlc.init address fun _ => BaseMeta.zero).2 rs
  refine ⟨given, a, m, hrun, fun hpool => ?_⟩
  have hfit : 1024 + c₁.total * CHUNK_SIZE ≤ poolLen := by
    have hend := hkept.listed.end_eq ▸ hpool
    have hbase' : a.startAddress = address := hbase.trans haddress
    rw [hbase'] at hend
    simp only [blockAt] at hend
    omega
  have htotal : c₁.total < 2 ^ 22 := by
    simp only [CHUNK_SIZE] at hfit
    omega
  have hsmall : a.endAddress <
      blockAt (Worker.start address fun _ => BaseMeta.zero).alc.startAddress (2 ^ 32) := by
    rw [hkept.listed.end_eq, hbase, blockAt_lt_iff]
    omega
  obtain ⟨s, c, rfl, rfl, hwithin, henum⟩ := hstart.run hsize hrun hsmall
  rw [List.nil_append] at henum
  have hbase' : s.alc.startAddress = address := hwithin.start.trans haddress
  have hsame : c.total = c₁.total :=
    blockAt_injective (henum.filled.kept.listed.end_eq.symm.trans hkept.listed.end_eq)
  -- the headers behind the last block are still zero
  have hblank : ∀ n, c.total ≤ n → (s.mem (blockAt s.alc.startAddress n)).bitmap = 0 := by
    intro n hn
    have hbeyond := hwithin.beyond n hn
    have hfirst := NAlc.init_beyond address (fun _ => BaseMeta.zero)
      (hwithin.cuts.total_le.trans hn)
    change s.mem (blockAt (NAlc.init address fun _ => BaseMeta.zero).1.startAddress n) =
      (NAlc.init address fun _ => BaseMeta.zero).2
        (blockAt (NAlc.init address fun _ => BaseMeta.zero).1.startAddress n) at hbeyond
    rw [haddress, hfirst] at hbeyond
    rw [hbase', hbeyond]
    rfl
  have himage := henum.filled.poolImage hblank (hsame ▸ htotal)
  rw [hbase'] at himage
  have hrounds : c.total ≤ NAlc.scanRounds poolLen := by
    unfold NAlc.scanRounds
    rw [hsame]
    simp only [CHUNK_SIZE] at hfit ⊢
    omega
  have hre := himage.reopen_spec hrounds
  refine ⟨?_, henum.nodup, ?_⟩
  · have hperm := himage.nodeLeaves_perm hre hids
    rw [henum.leaves_inUse]
    unfold NAlc.header
    rwa [hbase']
  · -- a log block is not listed as a tree block: the two kinds have different headers
    intro header hlog id hlist
    obtain ⟨j, hj, hheader⟩ := henum.logs _ hlog
    have hj' := hj.trans_le (henum.filled.taken_le .log)
    rw [hre.entry] at hlist
    split_ifs at hlist with hin
    have hnode := hin.2.trans_le (himage.used_le .node)
    rw [NAlc.header, hbase'] at hheader
    have hplace := (Nat.add_right_cancel hheader).symm.trans (Option.some.inj hlist).symm
    exact absurd (himage.exact.place_inj hj' hnode (blockAt_injective hplace)).1 (by decide)

def allIds (a : NAlc) : List (BitVec 32) :=
  ((List.finRange (2 ^ 32)).map BitVec.ofFin).filter fun id => (a.list .node id).isSome

theorem allIds_walksOnce : WalksOnce allIds := by
  intro a
  constructor
  · apply List.Nodup.filter
    apply (List.nodup_finRange _).map
    intro i j hij
    exact congrArg BitVec.toFin hij
  · intro id
    rw [allIds, List.mem_filter, Option.isSome_iff_ne_none]
    refine ⟨fun h => h.2, fun h => ⟨?_, h⟩⟩
    exact List.mem_map.mpr ⟨id.toFin, List.mem_finRange _, rfl⟩

def leavesAndLogs : List AllocRequest :=
  [⟨.node, 32⟩, ⟨.log, segmentSize⟩, ⟨.log, segmentSize⟩, ⟨.node, 32⟩]

theorem recovered_leaves_exact_two :
    ∃ given a m, (NAlc.init 0x50000000 fun _ => BaseMeta.zero).1.allocateAll
        (NAlc.init 0x50000000 fun _ => BaseMeta.zero).2 leavesAndLogs = some (given, a, m) ∧
      given = [(.node, 0x50000440), (.log, 0x60000440), (.log, 0x64000440), (.node, 0x50000460)] ∧
      (nodeLeaves m allIds (NAlc.reopen m 0x50000000 (2 ^ 31))).Perm [0x50000440, 0x50000460] := by
  obtain ⟨given, a, m, hrun, hexact⟩ := recovered_leaves_exact 0x50000000 (2 ^ 31) (by decide) allIds
    allIds_walksOnce leavesAndLogs (by decide)
  have hvalue : ((NAlc.init 0x50000000 fun _ => BaseMeta.zero).1.allocateAll
      (NAlc.init 0x50000000 fun _ => BaseMeta.zero).2 leavesAndLogs).map
        (fun r => (r.1, r.2.1.endAddress)) =
      some ([(.node, 0x50000440), (.log, 0x60000440), (.log, 0x64000440), (.node, 0x50000460)],
        0x70000400) := by
    decide +kernel
  rw [hrun, Option.map_some, Option.some.injEq, Prod.mk.injEq] at hvalue
  obtain ⟨hgiven, hend⟩ := hvalue
  dsimp only at hgiven hend
  subst hgiven
  have hleaves := (hexact (by rw [hend]; decide)).1
  exact ⟨_, a, m, hrun, rfl, hleaves⟩

end ZBTree
