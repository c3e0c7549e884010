import ZBTree.Directory
import ZBTree.Regions

/-!
# Allocation without frees

One thread's allocator and its log segment, taking tree nodes and appending log records
in any order. The blocks are filled from their start (`Shelf`): a tree block up to the
byte count in its header, a log block up to the offset of the segment that stands in it.
-/

namespace ZBTree

def dataSize : Nat := CHUNK_SIZE - baseMetaSize

/-- An allocator with its pool and the log segment of its thread. `taken` is kept for the
account only: the number of blocks of each kind that have been taken into use; the first
tree block is in use from the start. -/
structure Worker where
  alc : NAlc
  mem : Headers
  seg : DSeg
  taken : BlockKind → Nat

/-- A request for a tree node, or the appending of a log record. -/
inductive WorkerCall where
  | tree (sz : BitVec 32)
  | append (version : BitVec 32)
deriving DecidableEq, Repr

/-- The sizes that a block can serve. -/
def WorkerCall.Fits : WorkerCall → Prop
  | .tree sz => 0 < sz.toNat ∧ sz.toNat ≤ dataSize
  | .append version => logNodeSize + version.toNat < CHUNK_SIZE - 64

def WorkerCall.kind : WorkerCall → BlockKind
  | .tree _ => .node
  | .append _ => .log

def WorkerCall.size : WorkerCall → Nat
  | .tree sz => sz.toNat
  | .append _ => logNodeSize

instance : DecidablePred WorkerCall.Fits
  | .tree _ => inferInstanceAs (Decidable (_ ∧ _))
  | .append _ => inferInstanceAs (Decidable (_ < _))

namespace Worker

/-- The account after a call that left the allocator as `a`. -/
def account (s : Worker) (a : NAlc) (kind : BlockKind) : BlockKind → Nat :=
  if a.decisionId kind = s.alc.decisionId kind then s.taken
  else Function.update s.taken kind (s.taken kind + 1)

/-- One call, with the region that it returns or writes. -/
def call (s : Worker) : WorkerCall → Option ((BlockKind × Region) × Worker)
  | .tree sz => do
    let (address, a, m) ← s.alc.nAllocateTree s.mem sz
    return ((.node, ⟨address, sz.toNat⟩), ⟨a, m, s.seg, s.account a .node⟩)
  | .append version => do
    let (address, seg, a, m) ← s.seg.appendOne s.alc s.mem version
    return ((.log, ⟨address, logNodeSize⟩), ⟨a, m, seg, s.account a .log⟩)

/-- The regions of a run, the last one first. -/
def run : Worker → List WorkerCall → Option (List (BlockKind × Region) × Worker)
  | s, [] => some ([], s)
  | s, op :: ops => do
    let (piece, s) ← s.call op
    let (pieces, s) ← s.run ops
    return (pieces ++ [piece], s)

def start (address : Nat) (m : Headers) : Worker where
  alc := (NAlc.init address m).1
  mem := (NAlc.init address m).2
  seg := DSeg.empty
  taken
    | .node => 1
    | .log => 0

end Worker

/-! ### What the headers say -/

/-- The header `b` at address `header` of the `j`-th block of a kind. -/
structure HeaderOf (taken : BlockKind → Nat) (header : Nat) (kind : BlockKind) (j : Nat)
    (b : BaseMeta) : Prop where
  start : b.startAddress = header + baseMetaSize
  code : b.blockType = kind.code
  node : kind = .node → b.blockId = BitVec.ofNat 30 j ∧ b.bitmap.toNat ≤ dataSize ∧
    (taken .node ≤ j → b.bitmap = 0)
  log_used : kind = .log → j < taken .log → b.bitmap = LOG_MARK ∧ b.blockId = BitVec.ofNat 30 (j + 1)
  log_unused : kind = .log → taken .log ≤ j → b.bitmap = 0

def NAlc.Marked (a : NAlc) (m : Headers) (c : BlockCuts) (taken : BlockKind → Nat) : Prop :=
  ∀ kind j, j < c.count kind → HeaderOf taken (a.header c kind j) kind j (m (a.header c kind j))

theorem HeaderOf.fresh {taken : BlockKind → Nat} {header j : Nat} {kind : BlockKind}
    (hj : taken kind ≤ j) :
    HeaderOf taken header kind j ⟨header + baseMetaSize, BitVec.ofNat 30 j, kind.code, 0⟩ where
  start := rfl
  code := rfl
  node _ := ⟨rfl, Nat.zero_le _, fun _ => rfl⟩
  log_used hk hlt := by
    subst hk
    exact absurd hlt (Nat.not_lt.mpr hj)
  log_unused _ _ := rfl

/-- Taking one more block into use changes nothing for the headers of the others. -/
theorem HeaderOf.take {taken : BlockKind → Nat} {header j : Nat} {kind kind' : BlockKind}
    {b : BaseMeta} (h : HeaderOf taken header kind j b) (hne : ¬ (kind = kind' ∧ j = taken kind')) :
    HeaderOf (Function.update taken kind' (taken kind' + 1)) header kind j b where
  start := h.start
  code := h.code
  node hk := by
    obtain ⟨hid, hfill, hunused⟩ := h.node hk
    refine ⟨hid, hfill, fun hle => hunused ?_⟩
    by_cases hk' : kind' = .node
    · subst hk'
      rw [Function.update_self] at hle
      exact Nat.le_of_succ_le hle
    · rwa [Function.update_of_ne (Ne.symm hk')] at hle
  log_used hk hlt := by
    apply h.log_used hk
    by_cases hk' : kind' = .log
    · subst hk'
      rw [Function.update_self] at hlt
      exact Nat.lt_of_le_of_ne (Nat.lt_succ_iff.mp hlt) fun heq => hne ⟨hk, heq⟩
    · rwa [Function.update_of_ne (Ne.symm hk')] at hlt
  log_unused hk hle := by
    apply h.log_unused hk
    by_cases hk' : kind' = .log
    · subst hk'
      rw [Function.update_self] at hle
      exact Nat.le_of_succ_le hle
    · rwa [Function.update_of_ne (Ne.symm hk')] at hle

namespace NAlc

variable {a a' : NAlc} {m m' : Headers} {c c' : BlockCuts} {taken taken' : BlockKind → Nat}
  {kind : BlockKind} {j : Nat}

theorem Marked.grown (h : a.Marked m c taken) (hexact : c.Exact)
    (hgrown : a.Grown m c kind a' m' c') (htaken : ∀ k, taken k ≤ c.count k) :
    a'.Marked m' c' taken := by
  intro k j hj
  have hstart : a'.header c' k j = a.header c' k j := by
    rw [header, header, hgrown.start]
  rw [hstart]
  by_cases hold : j < c.count k
  · have hkept := hgrown.fresh.old_header _ (hexact.place_lt hold)
    rw [header_eq_of_extends hgrown.extends_cuts hold, header, hkept]
    exact h k j hold
  · rw [hgrown.fresh.new_header k j (Nat.le_of_not_lt hold) hj]
    exact HeaderOf.fresh ((htaken k).trans (Nat.le_of_not_lt hold))

theorem Marked.update (h : a.Marked m c taken) (taken' : BlockKind → Nat) (hexact : c.Exact)
    (hj : j < c.count kind) {b : BaseMeta} (hb : HeaderOf taken' (a.header c kind j) kind j b)
    (hothers : ∀ k i b', ¬ (k = kind ∧ i = j) → HeaderOf taken (a.header c k i) k i b' →
      HeaderOf taken' (a.header c k i) k i b') :
    a.Marked (Function.update m (a.header c kind j) b) c taken' := by
  intro k i hi
  by_cases heq : k = kind ∧ i = j
  · obtain ⟨rfl, rfl⟩ := heq
    rw [Function.update_self]
    exact hb
  · have hne : a.header c k i ≠ a.header c kind j :=
      fun hsame => heq (header_injective hexact hi hj hsame)
    rw [Function.update_of_ne hne]
    exact hothers k i _ heq (h k i hi)

end NAlc

/-! ### The worker as a shelf

The blocks of a worker are boxes in a row on a shelf. What the worker gives out lies behind what is in a box already,
so that the pieces of a run never overlap. -/

namespace Worker

variable {s s' : Worker} {c c' : BlockCuts}

/-- The blocks of the pool with the part that is in use. -/
def shelf (s : Worker) (c : BlockCuts) : Shelf (BlockKind × Nat) where
  live i := i.2 < c.count i.1
  block i := ⟨s.alc.header c i.1 i.2 + baseMetaSize, dataSize⟩
  fill
    | (.node, j) => (s.mem (s.alc.header c .node j)).bitmap.toNat
    | (.log, j) =>
      if j + 1 < s.taken .log then dataSize else if j + 1 = s.taken .log then s.seg.tempOffset else 0

/-- What holds after every call, as long as no counter has wrapped. -/
structure Filled (s : Worker) (c : BlockCuts) : Prop where
  kept : s.alc.Kept c
  marked : s.alc.Marked s.mem c s.taken
  taken_le : ∀ kind, s.taken kind ≤ c.count kind
  nodes_used : 1 < s.taken .node →
    ∀ j, j < s.taken .node → (s.mem (s.alc.header c .node j)).bitmap ≠ 0
  node_taken : s.taken .node = (s.alc.decisionId .node).toNat + 1
  log_taken : s.alc.decisionId .log = BitVec.ofNat 32 (s.taken .log)
  offset_le : s.seg.tempOffset ≤ DSeg.logEnd
  seg_none : s.taken .log = 0 → s.seg.logVec = 0
  seg_at : 0 < s.taken .log →
    s.seg.logVec = s.alc.header c .log (s.taken .log - 1) + baseMetaSize ∧
    s.seg.vecStart =
      s.alc.header c .log (s.taken .log - 1) + baseMetaSize + s.seg.tempOffset

theorem blocks_disjoint (start : Nat) {n n' : Nat} (hne : n ≠ n') :
    Region.Disjoint ⟨blockAt start n, CHUNK_SIZE⟩ ⟨blockAt start n', CHUNK_SIZE⟩ := by
  rcases Nat.lt_or_gt_of_ne hne with hlt | hlt
  · left
    simp only [Region.limit, ← blockAt_succ]
    exact blockAt_le_iff.mpr hlt
  · right
    simp only [Region.limit, ← blockAt_succ]
    exact blockAt_le_iff.mpr hlt

theorem data_within (header : Nat) :
    Region.Within ⟨header + baseMetaSize, dataSize⟩ ⟨header, CHUNK_SIZE⟩ := by
  constructor
  · exact Nat.le_add_right _ _
  · simp only [Region.limit, dataSize, baseMetaSize, CHUNK_SIZE]
    omega

theorem Filled.sound (h : s.Filled c) : (s.shelf c).Sound where
  apart {i j} hi hj hne := by
    have hplace : c.place i.1 i.2 ≠ c.place j.1 j.2 := by
      intro heq
      obtain ⟨hk, hn⟩ := h.kept.listed.exact.place_inj hi hj heq
      exact hne (Prod.ext hk hn)
    exact (blocks_disjoint _ hplace).mono (data_within _) (data_within _)
  fill_le {i} hi := by
    obtain ⟨kind, j⟩ := i
    cases kind with
    | node => exact ((h.marked .node j hi).node rfl).2.1
    | log =>
      have hend : DSeg.logEnd = dataSize := rfl
      have hoffset := hend ▸ h.offset_le
      simp only [shelf]
      split
      · exact Nat.le_refl _
      · split
        · exact hoffset
        · exact Nat.zero_le _

/-- The memory behind the blocks has not been touched. -/
structure Within (s : Worker) (c : BlockCuts) (s' : Worker) (c' : BlockCuts) : Prop where
  start : s'.alc.startAddress = s.alc.startAddress
  cuts : c.Extends c'
  beyond : ∀ n, c'.total ≤ n →
    s'.mem (blockAt s.alc.startAddress n) = s.mem (blockAt s.alc.startAddress n)

theorem Within.refl (s : Worker) (c : BlockCuts) : s.Within c s c :=
  ⟨rfl, BlockCuts.Extends.refl c, fun _ _ => rfl⟩

theorem Within.trans {s'' : Worker} {c'' : BlockCuts} (h : s.Within c s' c') (h' : s'.Within c' s'' c'') :
    s.Within c s'' c'' where
  start := h'.start.trans h.start
  cuts := h.cuts.trans h'.cuts
  beyond n hn := by
    have hkept := h'.beyond n hn
    rw [h.start] at hkept
    exact hkept.trans (h.beyond n (h'.cuts.total_le.trans hn))

/-- What one call does: it cuts the region it returns off a block of its kind. -/
structure Took (s : Worker) (c : BlockCuts) (op : WorkerCall) (piece : BlockKind × Region) (s' : Worker)
    (c' : BlockCuts) (j : Nat) : Prop where
  eval : s.call op = some (piece, s')
  filled : s'.Filled c'
  cut : (s.shelf c).Cut (s'.shelf c') (piece.1, j) piece.2
  within : s.Within c s' c'

theorem update_beyond {a : NAlc} {m : Headers} {kind : BlockKind} {j n : Nat} (h : c.Exact)
    (hj : j < c.count kind) (hn : c.total ≤ n) (b : BaseMeta) :
    Function.update m (a.header c kind j) b (blockAt a.startAddress n) =
      m (blockAt a.startAddress n) := by
  rw [Function.update_of_ne]
  intro heq
  have := h.place_lt hj
  have := blockAt_injective heq
  omega

theorem succ_ne (i : BitVec 32) : i + 1 ≠ i := by
  intro h
  have hnat := congrArg BitVec.toNat h
  have hone : (1 : BitVec 32).toNat = 1 := rfl
  rw [BitVec.toNat_add, hone] at hnat
  have := i.isLt
  omega

theorem account_same {a : NAlc} {kind : BlockKind} (h : a.decisionId kind = s.alc.decisionId kind) :
    s.account a kind = s.taken := if_pos h

theorem account_next {a : NAlc} {kind : BlockKind}
    (h : a.decisionId kind = s.alc.decisionId kind + 1) :
    s.account a kind = Function.update s.taken kind (s.taken kind + 1) := by
  rw [account, if_neg]
  rw [h]
  exact succ_ne _

theorem bitmap_add {b sz : BitVec 32} (hb : b.toNat ≤ dataSize) (hsz : sz.toNat ≤ dataSize) :
    (b + sz).toNat = b.toNat + sz.toNat := by
  have hdata : dataSize < 2 ^ 31 := by decide
  rw [BitVec.toNat_add, Nat.mod_eq_of_lt]
  omega

theorem shelf_grows (hstart : s'.alc.startAddress = s.alc.startAddress) (hcuts : c.Extends c')
    (hfill : ∀ kind j, j < c.count kind →
      (s.shelf c).fill (kind, j) ≤ (s'.shelf c').fill (kind, j)) :
    (s.shelf c).Grows (s'.shelf c') where
  live hi := Nat.lt_of_lt_of_le hi (hcuts.count_le _)
  block {i} hi := by
    simp only [shelf, NAlc.header, hstart, hcuts.place_eq hi]
  fill {i} hi := hfill i.1 i.2 hi

/-- A tree node from the block in use. -/
theorem Filled.tree_fits (h : s.Filled c) {sz : BitVec 32} (hsz : sz.toNat ≤ dataSize)
    (hroom : ¬ NAlc.lacksRoom (s.mem (s.alc.header c .node (s.alc.decisionId .node).toNat)) sz) :
    ∃ piece s', s.Took c (.tree sz) piece s' c (s.alc.decisionId .node).toNat := by
  have hlive := h.kept.node_decided
  set d := (s.alc.decisionId .node).toNat with hd
  have hb := h.marked .node d hlive
  obtain ⟨hid, hfill, -⟩ := hb.node rfl
  set b := s.mem (s.alc.header c .node d) with hbdef
  have hle : (b.bitmap + sz).toNat ≤ dataSize := Nat.not_lt.mp hroom
  have hsum := bitmap_add hfill hsz
  refine ⟨(.node, ⟨s.alc.header c .node d + baseMetaSize + b.bitmap.toNat, sz.toNat⟩),
    ⟨s.alc, Function.update s.mem (s.alc.header c .node d) { b with bitmap := b.bitmap + sz },
      s.seg, s.taken⟩, ?_, ?_, ?_, rfl, BlockCuts.Extends.refl c, ?_⟩
  · rw [call, h.kept.nAllocateTree_fits hroom]
    simp only [Option.bind_eq_bind, Option.bind_some, Option.pure_def, account_same]
    rw [← hb.start]
  · refine { h with
      marked := h.marked.update _ h.kept.listed.exact hlive ?_ fun _ _ _ _ => id
      nodes_used := ?_ }
    · refine ⟨hb.start, hb.code, fun _ => ⟨hid, hle, fun htaken => ?_⟩, ?_, ?_⟩
      · rw [h.node_taken] at htaken
        omega
      · exact fun hk => absurd hk (by decide)
      · exact fun hk => absurd hk (by decide)
    · intro hone j hj
      have hused := h.nodes_used hone j hj
      by_cases heq : s.alc.header c .node j = s.alc.header c .node d
      · dsimp only
        rw [heq, Function.update_self]
        rw [heq] at hused
        exact fun hz => hused (BitVec.eq_of_toNat_eq (by
          have hnat := congrArg BitVec.toNat hz
          rw [hsum] at hnat
          exact Nat.eq_zero_of_add_eq_zero_right hnat))
      · dsimp only
        rw [Function.update_of_ne heq]
        exact hused
  · -- only the block in use has grown, by the size of the piece
    have hfilled : ∀ j, j < c.count .node →
        Function.update s.mem (s.alc.header c .node d) { b with bitmap := b.bitmap + sz }
          (s.alc.header c .node j) =
        if j = d then { b with bitmap := b.bitmap + sz } else s.mem (s.alc.header c .node j) := by
      intro j hj
      by_cases hjd : j = d
      · rw [hjd, Function.update_self, if_pos rfl]
      · rw [if_neg hjd, Function.update_of_ne]
        exact fun heq => hjd (NAlc.header_injective h.kept.listed.exact hj hlive heq).2
    refine ⟨shelf_grows rfl (BlockCuts.Extends.refl c) ?_, hlive, ?_, fun _ => ?_, ?_⟩
    · intro kind j hj
      cases kind with
      | node =>
        simp only [shelf, hfilled j hj]
        by_cases hjd : j = d
        · rw [if_pos hjd, hjd, ← hbdef, hsum]
          exact Nat.le_add_right _ _
        · rw [if_neg hjd]
      | log => exact Nat.le_refl _
    · exact Nat.le_add_right _ _
    · exact Nat.le_refl _
    · simp only [shelf, Shelf.inUse, Region.limit, hfilled d hlive, if_pos, hsum]
      omega
  · intro n hn
    have hkept := update_beyond (a := s.alc) (m := s.mem) h.kept.listed.exact hlive hn
      { b with bitmap := b.bitmap + sz }
    exact hkept

theorem Filled.node_used_of_lacksRoom (h : s.Filled c) {sz : BitVec 32} (hsz : sz.toNat ≤ dataSize)
    (hroom : NAlc.lacksRoom (s.mem (s.alc.header c .node (s.alc.decisionId .node).toNat)) sz)
    {j : Nat} (hj : j < s.taken .node) : (s.mem (s.alc.header c .node j)).bitmap ≠ 0 := by
  by_cases hone : 1 < s.taken .node
  · exact h.nodes_used hone j hj
  · have hd := h.node_taken
    have hjd : j = (s.alc.decisionId .node).toNat := by omega
    rw [hjd]
    intro hz
    have hsum : ((0 : BitVec 32) + sz).toNat = sz.toNat := by simp
    rw [NAlc.lacksRoom, hz, hsum] at hroom
    exact absurd hsz (Nat.not_le.mpr hroom)

/-- A tree node from the next block, when the counter of tree blocks does not wrap. -/
theorem Filled.tree_moves (h : s.Filled c) {sz : BitVec 32} (hpos : 0 < sz.toNat)
    (hsz : sz.toNat ≤ dataSize)
    (hroom : NAlc.lacksRoom (s.mem (s.alc.header c .node (s.alc.decisionId .node).toNat)) sz)
    (hwrap : s.taken .node < 2 ^ 32) :
    ∃ piece s' c', s.Took c (.tree sz) piece s' c' (s.taken .node) := by
  obtain ⟨c', a', m', hgrown, hfour, hlt, heval⟩ := h.kept.nAllocateTree_moves hroom
  have hd : (s.alc.decisionId .node + 1).toNat = s.taken .node := by
    have hone : (1 : BitVec 32).toNat = 1 := rfl
    rw [BitVec.toNat_add, hone, ← h.node_taken, Nat.mod_eq_of_lt hwrap]
  rw [hd] at hlt heval
  have hkept := h.kept.of_grown_node hgrown hfour (hd.symm ▸ hlt)
  -- the blocks that have been cut for this are marked as new
  have hmarked : s.alc.Marked m' c' s.taken := by
    intro kind j hj
    have hgrown' := NAlc.Marked.grown (a := s.alc.nextDecision .node) h.marked
      h.kept.listed.exact hgrown h.taken_le kind j hj
    have hheader : a'.header c' kind j = s.alc.header c' kind j := by
      rw [NAlc.header, NAlc.header, hgrown.start]
      rfl
    rwa [hheader] at hgrown'
  have hb := hmarked .node _ hlt
  obtain ⟨hid, -, hunused⟩ := hb.node rfl
  have hzero : (m' (s.alc.header c' .node (s.taken .node))).bitmap = 0 :=
    hunused (Nat.le_refl _)
  have hsum : ((0 : BitVec 32) + sz).toNat = sz.toNat := by simp
  have hstart : ∀ kind j, a'.header c' kind j = s.alc.header c' kind j := by
    intro kind j
    rw [NAlc.header, NAlc.header, hgrown.start]
    rfl
  set free := s.alc.header c' .node (s.taken .node) with hfree
  set b : BaseMeta := { m' free with
    blockType := BlockKind.node.code, bitmap := (m' free).bitmap + sz } with hbdef
  have hbitmap : b.bitmap.toNat = sz.toNat := by
    rw [hbdef]
    dsimp only
    rw [hzero, hsum]
  have hnext : a'.decisionId .node = s.alc.decisionId .node + 1 := by
    rw [hgrown.decision, NAlc.nextDecision_decisionId_self]
  refine ⟨(.node, ⟨free + baseMetaSize, sz.toNat⟩),
    ⟨a', Function.update m' free b, s.seg,
      Function.update s.taken .node (s.taken .node + 1)⟩, c', ?_, ?_, ?_, hgrown.start,
    hgrown.extends_cuts,
    ?_⟩
  · have haddress : (m' free).startAddress + (m' free).bitmap.toNat = free + baseMetaSize := by
      rw [hb.start, hzero]
      rfl
    rw [call, heval]
    simp only [Option.bind_eq_bind, Option.bind_some, Option.pure_def, account_next hnext, haddress]
    rfl
  · refine ⟨hkept, ?_, ?_, ?_, ?_, ?_, h.offset_le, ?_, ?_⟩
    · intro kind j hj
      have hupdated := hmarked.update (Function.update s.taken .node (s.taken .node + 1))
        hkept.listed.exact hlt (b := b) ?_ ?_ kind j hj
      · dsimp only
        rw [hstart]
        exact hupdated
      · refine ⟨hb.start, rfl, fun _ => ⟨hid, ?_, fun htaken => ?_⟩, ?_, ?_⟩
        · rw [hbitmap]
          exact hsz
        · rw [Function.update_self] at htaken
          omega
        · exact fun hk => absurd hk (by decide)
        · exact fun hk => absurd hk (by decide)
      · exact fun k i b' hne hold => hold.take hne
    · intro kind
      by_cases hk : kind = .node
      · subst hk
        dsimp only
        rw [Function.update_self]
        exact hlt
      · dsimp only
        rw [Function.update_of_ne hk, hgrown.count_of_ne kind hk]
        exact h.taken_le kind
    · intro _ j hj
      dsimp only at hj ⊢
      rw [Function.update_self] at hj
      rw [hstart]
      -- an older block keeps its bytes, and the new one has the piece in it
      rcases Nat.lt_succ_iff_lt_or_eq.mp hj with hlt' | rfl
      · have hcount : j < c.count .node := Nat.lt_of_lt_of_le hlt' (h.taken_le .node)
        have hlive : j < c'.count .node :=
          Nat.lt_of_lt_of_le hcount (hgrown.extends_cuts.count_le .node)
        have hne : s.alc.header c' .node j ≠ free := fun heq =>
          Nat.ne_of_lt hlt' (NAlc.header_injective hkept.listed.exact hlive hlt heq).2
        rw [Function.update_of_ne hne, NAlc.header_eq_of_extends hgrown.extends_cuts hcount]
        have hold : m' (s.alc.header c .node j) = s.mem (s.alc.header c .node j) :=
          hgrown.fresh.old_header _ (h.kept.listed.exact.place_lt hcount)
        rw [hold]
        exact h.node_used_of_lacksRoom hsz hroom hlt'
      · rw [Function.update_self]
        intro hz
        rw [hz] at hbitmap
        exact Nat.ne_of_lt hpos hbitmap
    · dsimp only
      rw [Function.update_self, hnext, hd]
    · dsimp only
      rw [hgrown.decision, NAlc.nextDecision_decisionId_of_ne _ _ _ (by decide), h.log_taken,
        Function.update_of_ne (by decide)]
    · exact h.seg_none
    · intro hpos
      -- the active segment lies in a log block, whose header nobody writes
      have hlast : s.taken .log - 1 < c.count .log := by
        have := h.taken_le .log
        have hpos' : 0 < s.taken .log := hpos
        omega
      have hat := h.seg_at hpos
      rw [← NAlc.header_eq_of_extends hgrown.extends_cuts hlast, ← hstart] at hat
      exact hat
  · refine ⟨shelf_grows hgrown.start hgrown.extends_cuts ?_, hlt, ?_, ?_, ?_⟩
    · intro kind j hj
      cases kind with
      | node =>
        have hlive : j < c'.count .node :=
          Nat.lt_of_lt_of_le hj (hgrown.extends_cuts.count_le .node)
        have hold : m' (s.alc.header c' .node j) = s.mem (s.alc.header c .node j) := by
          rw [NAlc.header_eq_of_extends hgrown.extends_cuts hj]
          exact hgrown.fresh.old_header _ (h.kept.listed.exact.place_lt hj)
        simp only [shelf, hstart]
        by_cases hjt : j = s.taken .node
        · subst hjt
          have hbefore := ((h.marked .node _ hj).node rfl).2.2 (Nat.le_refl _)
          rw [hbefore]
          exact Nat.zero_le _
        · rw [Function.update_of_ne, hold]
          exact fun heq => hjt (NAlc.header_injective hkept.listed.exact hlive hlt heq).2
      | log => exact Nat.le_refl _
    · simp only [shelf, hstart]
      exact Nat.le_refl _
    · intro hlive
      have hbefore := ((h.marked .node _ hlive).node rfl).2.2 (Nat.le_refl _)
      simp only [Shelf.inUse, shelf, Region.limit, hbefore]
      rw [hfree, NAlc.header_eq_of_extends hgrown.extends_cuts hlive]
      exact Nat.le_refl _
    · simp only [Shelf.inUse, shelf, Region.limit, hstart, ← hfree, Function.update_self, hbitmap]
      exact Nat.le_refl _
  · intro n hn
    have hwritten := update_beyond (a := s.alc) (m := m') hkept.listed.exact hlt hn b
    have hbeyond : m' (blockAt s.alc.startAddress n) = s.mem (blockAt s.alc.startAddress n) :=
      hgrown.fresh.beyond n hn
    rw [hbeyond, ← hfree] at hwritten
    exact hwritten

/-- A record in the segment in use. -/
theorem Filled.append_same (h : s.Filled c) {version : BitVec 32}
    (hseg : ¬ s.seg.needsSegment version) :
    ∃ piece s', s.Took c (.append version) piece s' c (s.taken .log - 1) := by
  have hvec : s.seg.logVec ≠ 0 := fun hz => hseg (Or.inr hz)
  have hroom : s.seg.tempOffset + logNodeSize + version.toNat < DSeg.logEnd :=
    Nat.not_le.mp fun hle => hseg (Or.inl hle)
  have hpos : 0 < s.taken .log := Nat.pos_of_ne_zero fun hz => hvec (h.seg_none hz)
  obtain ⟨hvec', hat⟩ := h.seg_at hpos
  have hlast : s.taken .log - 1 < c.count .log := by
    have := h.taken_le .log
    omega
  refine ⟨(.log, ⟨s.seg.vecStart, logNodeSize⟩), ⟨s.alc, s.mem,
    { s.seg with
      vecStart := s.seg.vecStart + logNodeSize, tempOffset := s.seg.tempOffset + logNodeSize },
    s.taken⟩, ?_, ?_, ?_, rfl, BlockCuts.Extends.refl c, fun _ _ => rfl⟩
  · rw [call, DSeg.appendOne, if_neg hseg]
    simp only [Option.bind_eq_bind, Option.bind_some, Option.pure_def, account_same]
  · refine { h with offset_le := ?_, seg_none := ?_, seg_at := fun _ => ⟨hvec', ?_⟩ }
    · dsimp only
      omega
    · exact h.seg_none
    · dsimp only
      rw [hat, Nat.add_assoc]
  · have hfill : s.taken .log - 1 + 1 = s.taken .log := Nat.sub_add_cancel hpos
    refine ⟨shelf_grows rfl (BlockCuts.Extends.refl c) ?_, hlast, ?_, fun _ => ?_, ?_⟩
    · intro kind j hj
      cases kind with
      | node => exact Nat.le_refl _
      | log =>
        simp only [shelf]
        split
        · exact Nat.le_refl _
        · split
          · exact Nat.le_add_right _ _
          · exact Nat.le_refl _
    · rw [hat]
      exact Nat.le_add_right _ _
    · simp only [Shelf.inUse, shelf, Region.limit, hfill, Nat.lt_irrefl, if_false, if_true, hat]
      exact Nat.le_refl _
    · simp only [Shelf.inUse, shelf, Region.limit, hfill, Nat.lt_irrefl, if_false, if_true, hat]
      omega

/-- A record in a new segment, when the counter of log blocks has not wrapped. -/
theorem Filled.append_new (h : s.Filled c) {version : BitVec 32}
    (hseg : s.seg.needsSegment version) (hwrap : s.taken .log < 2 ^ 32) :
    ∃ piece s' c', s.Took c (.append version) piece s' c' (s.taken .log) := by
  obtain ⟨c', a', m', hgrown, hfour, hlt, -, heval⟩ := h.kept.nAllocateLog s.mem segmentSize
  have hd : (s.alc.decisionId .log).toNat = s.taken .log := by
    rw [h.log_taken, BitVec.toNat_ofNat, Nat.mod_eq_of_lt hwrap]
  have hkept := h.kept.of_grown_log hgrown hfour hlt
  rw [hd] at hlt heval
  have hstart : ∀ kind j, a'.header c' kind j = s.alc.header c' kind j := by
    intro kind j
    rw [NAlc.header, NAlc.header, hgrown.start]
  have hmarked : s.alc.Marked m' c' s.taken := by
    intro kind j hj
    have hgrown' := h.marked.grown h.kept.listed.exact hgrown h.taken_le kind j hj
    rwa [hstart] at hgrown'
  have hb := hmarked .log _ hlt
  have hzero : (m' (s.alc.header c' .log (s.taken .log))).bitmap = 0 :=
    hb.log_unused rfl (Nat.le_refl _)
  set free := s.alc.header c' .log (s.taken .log) with hfree
  have haddress : (m' free).startAddress + (m' free).bitmap.toNat = free + baseMetaSize := by
    rw [hb.start, hzero]
    rfl
  set b : BaseMeta := { m' free with
    blockType := BlockKind.log.code, blockId := (s.alc.decisionId .log + 1).setWidth 30,
    bitmap := LOG_MARK } with hbdef
  have hnext : (a'.nextDecision .log).decisionId .log = s.alc.decisionId .log + 1 := by
    rw [NAlc.nextDecision_decisionId_self, hgrown.decision]
  refine ⟨(.log, ⟨free + baseMetaSize, logNodeSize⟩), ⟨a'.nextDecision .log,
    Function.update m' free b,
    ⟨logNodeSize, free + baseMetaSize, free + baseMetaSize + logNodeSize⟩,
    Function.update s.taken .log (s.taken .log + 1)⟩, c', ?_, ?_, ?_, hgrown.start,
    hgrown.extends_cuts,
    ?_⟩
  · rw [call, DSeg.appendOne, if_pos hseg, DSeg.resize, heval]
    simp only [Option.bind_eq_bind, Option.bind_some, Option.pure_def, account_next hnext,
      haddress, Nat.zero_add]
    rfl
  · -- the tree blocks are not written
    have hothers : ∀ j, j < c.count .node → Function.update m' free b (s.alc.header c' .node j) =
        s.mem (s.alc.header c .node j) := by
      intro j hj
      have hlive : j < c'.count .node :=
        Nat.lt_of_lt_of_le hj (hgrown.extends_cuts.count_le .node)
      rw [Function.update_of_ne, NAlc.header_eq_of_extends hgrown.extends_cuts hj]
      · exact hgrown.fresh.old_header _ (h.kept.listed.exact.place_lt hj)
      · intro heq
        have hkind := (NAlc.header_injective hgrown.listed.exact hlive hlt heq).1
        exact absurd hkind (by decide)
    refine ⟨hkept, ?_, ?_, ?_, ?_, ?_, ?_, ?_, ?_⟩
    · intro kind j hj
      have hupdated := hmarked.update (Function.update s.taken .log (s.taken .log + 1))
        hgrown.listed.exact hlt (b := b) ?_ ?_ kind j hj
      · have hheader : (a'.nextDecision .log).header c' kind j = s.alc.header c' kind j := hstart kind j
        dsimp only
        rw [hheader]
        exact hupdated
      · refine ⟨hb.start, rfl, ?_, fun _ _ => ⟨rfl, ?_⟩, fun _ hle => ?_⟩
        · exact fun hk => absurd hk (by decide)
        · have hid := NAlc.handed_id (s.alc.decisionId .log)
          rwa [hd] at hid
        · rw [Function.update_self] at hle
          omega
      · exact fun k i b' hne hold => hold.take hne
    · intro kind
      by_cases hk : kind = .log
      · subst hk
        dsimp only
        rw [Function.update_self]
        exact hlt
      · dsimp only
        rw [Function.update_of_ne hk, hgrown.count_of_ne kind hk]
        exact h.taken_le kind
    · intro hone j hj
      dsimp only at hone hj ⊢
      rw [Function.update_of_ne (by decide)] at hone hj
      have hheader : (a'.nextDecision .log).header c' .node j = s.alc.header c' .node j :=
        hstart .node j
      rw [hheader, hothers j (Nat.lt_of_lt_of_le hj (h.taken_le .node))]
      exact h.nodes_used hone j hj
    · dsimp only
      rw [NAlc.nextDecision_decisionId_of_ne _ _ _ (by decide), hgrown.decision,
        Function.update_of_ne (by decide), h.node_taken]
    · dsimp only
      rw [hnext, h.log_taken, Function.update_self, BitVec.ofNat_add]
      rfl
    · have hone : logNodeSize ≤ DSeg.logEnd := by decide
      exact hone
    · dsimp only
      rw [Function.update_self]
      exact fun hz => absurd hz (Nat.succ_ne_zero _)
    · intro _
      have hheader : (a'.nextDecision .log).header c' .log (s.taken .log) = free := hstart .log _
      dsimp only
      rw [Function.update_self, Nat.add_sub_cancel, hheader]
      exact ⟨rfl, rfl⟩
  · refine ⟨shelf_grows hgrown.start hgrown.extends_cuts ?_, hlt, ?_, fun _ => ?_, ?_⟩
    · intro kind j hj
      cases kind with
      | node =>
        have hlive : j < c'.count .node :=
          Nat.lt_of_lt_of_le hj (hgrown.extends_cuts.count_le .node)
        have hold : m' (s.alc.header c' .node j) = s.mem (s.alc.header c .node j) := by
          rw [NAlc.header_eq_of_extends hgrown.extends_cuts hj]
          exact hgrown.fresh.old_header _ (h.kept.listed.exact.place_lt hj)
        have hheader : (a'.nextDecision .log).header c' .node j = s.alc.header c' .node j :=
          hstart .node j
        simp only [shelf, hheader]
        rw [Function.update_of_ne, hold]
        intro heq
        have hkind := (NAlc.header_injective hgrown.listed.exact hlive hlt heq).1
        exact absurd hkind (by decide)
      | log =>
        -- the old segment counts as full from now on
        have hoffset : s.seg.tempOffset ≤ dataSize := h.offset_le
        simp only [shelf, Function.update_self]
        split
        · rw [if_pos (by omega)]
        · split
          · rw [if_pos (by omega)]
            exact hoffset
          · exact Nat.zero_le _
    · have hheader : (a'.nextDecision .log).header c' .log (s.taken .log) = free := hstart .log _
      simp only [shelf, hheader]
      exact Nat.le_refl _
    · have hlast : ¬ s.taken .log + 1 < s.taken .log := by omega
      have hlast' : ¬ s.taken .log + 1 = s.taken .log := by omega
      simp only [Shelf.inUse, shelf, Region.limit, if_neg hlast, if_neg hlast', Nat.add_zero]
      rw [hfree, NAlc.header_eq_of_extends hgrown.extends_cuts ‹_›]
    · have hheader : (a'.nextDecision .log).header c' .log (s.taken .log) = free := hstart .log _
      simp only [Shelf.inUse, shelf, Region.limit, Function.update_self, Nat.lt_irrefl, if_false,
        if_true, hheader, le_refl]
  · intro n hn
    have hwritten := update_beyond (a := s.alc) (m := m') hgrown.listed.exact hlt hn b
    have hbeyond : m' (blockAt s.alc.startAddress n) = s.mem (blockAt s.alc.startAddress n) :=
      hgrown.fresh.beyond n hn
    rw [hbeyond, ← hfree] at hwritten
    exact hwritten

/-! ### Runs -/

theorem Filled.tree_taken (h : s.Filled c) {sz : BitVec 32} {piece : BlockKind × Region}
    (hroom : NAlc.lacksRoom (s.mem (s.alc.header c .node (s.alc.decisionId .node).toNat)) sz)
    (heval : s.call (.tree sz) = some (piece, s')) : s'.taken .node = s.taken .node + 1 := by
  obtain ⟨c', a', m', hgrown, -, -, hsome⟩ := h.kept.nAllocateTree_moves hroom
  have hnext : a'.decisionId .node = s.alc.decisionId .node + 1 := by
    rw [hgrown.decision, NAlc.nextDecision_decisionId_self]
  rw [Worker.call, hsome] at heval
  simp only [Option.bind_eq_bind, Option.bind_some, Option.pure_def, account_next hnext,
    Option.some.injEq, Prod.mk.injEq] at heval
  rw [← heval.2]
  dsimp only
  rw [Function.update_self]

theorem Filled.tree_taken_same (h : s.Filled c) {sz : BitVec 32} {piece : BlockKind × Region}
    (hroom : ¬ NAlc.lacksRoom (s.mem (s.alc.header c .node (s.alc.decisionId .node).toNat)) sz)
    (heval : s.call (.tree sz) = some (piece, s')) : s'.taken = s.taken := by
  rw [Worker.call, h.kept.nAllocateTree_fits hroom] at heval
  simp only [Option.bind_eq_bind, Option.bind_some, Option.pure_def, account_same,
    Option.some.injEq, Prod.mk.injEq] at heval
  rw [← heval.2]

/-- What a call for a log record can do when it returns. -/
theorem call_append_cases {version : BitVec 32} {piece : BlockKind × Region}
    (heval : s.call (.append version) = some (piece, s')) :
    (s.seg.needsSegment version ∧ ∃ logStart a m,
      s.alc.nAllocateLog s.mem segmentSize = some (logStart, a, m) ∧
      piece = (.log, ⟨logStart, logNodeSize⟩) ∧
      s' = ⟨a, m, ⟨logNodeSize, logStart, logStart + logNodeSize⟩, s.account a .log⟩) ∨
    (¬ s.seg.needsSegment version ∧ piece = (.log, ⟨s.seg.vecStart, logNodeSize⟩) ∧
      s' = ⟨s.alc, s.mem, ⟨s.seg.tempOffset + logNodeSize, s.seg.logVec, s.seg.vecStart + logNodeSize⟩,
        s.account s.alc .log⟩) := by
  rw [call, DSeg.appendOne] at heval
  by_cases hseg : s.seg.needsSegment version
  · rw [if_pos hseg, DSeg.resize] at heval
    cases hlog : s.alc.nAllocateLog s.mem segmentSize with
    | none =>
      rw [hlog] at heval
      cases heval
    | some r =>
      obtain ⟨logStart, a, m⟩ := r
      rw [hlog] at heval
      cases heval
      refine Or.inl ⟨hseg, logStart, a, m, rfl, rfl, ?_⟩
      rw [Nat.zero_add]
  · rw [if_neg hseg] at heval
    cases heval
    exact Or.inr ⟨hseg, rfl, rfl⟩

theorem Filled.append_taken (h : s.Filled c) {version : BitVec 32} {piece : BlockKind × Region}
    (hseg : s.seg.needsSegment version) (heval : s.call (.append version) = some (piece, s')) :
    s'.taken .log = s.taken .log + 1 := by
  obtain ⟨c', a', m', hgrown, -, -, -, hsome⟩ := h.kept.nAllocateLog s.mem segmentSize
  have hnext : (a'.nextDecision .log).decisionId .log = s.alc.decisionId .log + 1 := by
    rw [NAlc.nextDecision_decisionId_self, hgrown.decision]
  rcases call_append_cases heval with ⟨-, logStart, a, m, hlog, -, rfl⟩ | ⟨hno, -⟩
  · rw [hsome] at hlog
    cases hlog
    dsimp only
    rw [account_next hnext, Function.update_self]
  · exact absurd hseg hno

/-- As long as no counter wraps, every call takes a region of its own. -/
theorem Filled.took (h : s.Filled c) {op : WorkerCall} (hfits : op.Fits)
    {piece : BlockKind × Region} (heval : s.call op = some (piece, s'))
    (hwrap : ∀ kind, s'.taken kind ≤ 2 ^ 32) :
    ∃ c' j, s.Took c op piece s' c' j := by
  have hsame : ∀ piece' s'' c' j, s.Took c op piece' s'' c' j → ∃ c' j, s.Took c op piece s' c' j := by
    intro piece' s'' c' j htook
    have heq := heval.symm.trans htook.eval
    rw [Option.some.injEq, Prod.mk.injEq] at heq
    obtain ⟨rfl, rfl⟩ := heq
    exact ⟨c', j, htook⟩
  cases op with
  | tree sz =>
    by_cases hroom : NAlc.lacksRoom (s.mem (s.alc.header c .node (s.alc.decisionId .node).toNat)) sz
    · have htaken := h.tree_taken hroom heval
      have hlt : s.taken .node < 2 ^ 32 := by
        have := hwrap .node
        omega
      obtain ⟨piece', s'', c', htook⟩ := h.tree_moves hfits.1 hfits.2 hroom hlt
      exact hsame _ _ _ _ htook
    · obtain ⟨piece', s'', htook⟩ := h.tree_fits hfits.2 hroom
      exact hsame _ _ _ _ htook
  | append version =>
    by_cases hseg : s.seg.needsSegment version
    · have htaken := h.append_taken hseg heval
      have hlt : s.taken .log < 2 ^ 32 := by
        have := hwrap .log
        omega
      obtain ⟨piece', s'', c', htook⟩ := h.append_new hseg hlt
      exact hsame _ _ _ _ htook
    · obtain ⟨piece', s'', htook⟩ := h.append_same hseg
      exact hsame _ _ _ _ htook

/-- `s'` comes from `s` by calls that have returned. -/
structure Later (s : Worker) (c : BlockCuts) (s' : Worker) (c' : BlockCuts) : Prop where
  kept : s'.alc.Kept c'
  start : s'.alc.startAddress = s.alc.startAddress
  cuts : c.Extends c'
  taken : ∀ kind, s.taken kind ≤ s'.taken kind

theorem Later.trans {s'' : Worker} {c'' : BlockCuts} (h : s.Later c s' c') (h' : s'.Later c' s'' c'') :
    s.Later c s'' c'' where
  kept := h'.kept
  start := h'.start.trans h.start
  cuts := h.cuts.trans h'.cuts
  taken kind := (h.taken kind).trans (h'.taken kind)

theorem account_bounds (s : Worker) (a : NAlc) (kind kind' : BlockKind) :
    s.taken kind' ≤ s.account a kind kind' ∧ s.account a kind kind' ≤ s.taken kind' + 1 := by
  unfold account
  split
  · exact ⟨Nat.le_refl _, Nat.le_succ _⟩
  · by_cases hk : kind' = kind
    · subst hk
      rw [Function.update_self]
      exact ⟨Nat.le_succ _, Nat.le_refl _⟩
    · rw [Function.update_of_ne hk]
      exact ⟨Nat.le_refl _, Nat.le_succ _⟩

theorem call_piece {op : WorkerCall} {piece : BlockKind × Region}
    (h : s.call op = some (piece, s')) :
    piece.1 = op.kind ∧ piece.2.size = op.size := by
  cases op with
  | tree sz =>
    rw [Worker.call] at h
    obtain ⟨⟨address, a, m⟩, -, h⟩ := Option.bind_eq_some_iff.mp h
    rw [Option.pure_def, Option.some.injEq, Prod.mk.injEq] at h
    rw [← h.1]
    exact ⟨rfl, rfl⟩
  | append version =>
    rw [Worker.call] at h
    obtain ⟨⟨address, seg, a, m⟩, -, h⟩ := Option.bind_eq_some_iff.mp h
    rw [Option.pure_def, Option.some.injEq, Prod.mk.injEq] at h
    rw [← h.1]
    exact ⟨rfl, rfl⟩

/-- A call always returns, and the account only grows. -/
theorem call_returns (h : s.alc.Kept c) (op : WorkerCall) :
    ∃ piece s' c', s.call op = some (piece, s') ∧ s.Later c s' c' ∧
      ∀ kind, s'.taken kind ≤ s.taken kind + 1 := by
  cases op with
  | tree sz =>
    by_cases hroom : NAlc.lacksRoom (s.mem (s.alc.header c .node (s.alc.decisionId .node).toNat)) sz
    · obtain ⟨c', a', m', hgrown, hfour, hlt, heval⟩ := h.nAllocateTree_moves hroom
      rw [Worker.call, heval]
      exact ⟨_, _, c', rfl, ⟨h.of_grown_node hgrown hfour hlt, hgrown.start, hgrown.extends_cuts,
        fun kind => (s.account_bounds a' .node kind).1⟩,
        fun kind => (s.account_bounds a' .node kind).2⟩
    · rw [Worker.call, h.nAllocateTree_fits hroom]
      exact ⟨_, _, c, rfl, ⟨h, rfl, BlockCuts.Extends.refl c,
        fun kind => (s.account_bounds s.alc .node kind).1⟩,
        fun kind => (s.account_bounds s.alc .node kind).2⟩
  | append version =>
    by_cases hseg : s.seg.needsSegment version
    · obtain ⟨c', a', m', hgrown, hfour, hlt, -, heval⟩ := h.nAllocateLog s.mem segmentSize
      rw [Worker.call, DSeg.appendOne, if_pos hseg, DSeg.resize, heval]
      exact ⟨_, _, c', rfl, ⟨h.of_grown_log hgrown hfour hlt, hgrown.start, hgrown.extends_cuts,
        fun kind => (s.account_bounds _ .log kind).1⟩,
        fun kind => (s.account_bounds _ .log kind).2⟩
    · rw [Worker.call, DSeg.appendOne, if_neg hseg]
      exact ⟨_, _, c, rfl, ⟨h, rfl, BlockCuts.Extends.refl c,
        fun kind => (s.account_bounds s.alc .log kind).1⟩,
        fun kind => (s.account_bounds s.alc .log kind).2⟩

theorem run_returns (h : s.alc.Kept c) (ops : List WorkerCall) :
    ∃ pieces s' c', s.run ops = some (pieces, s') ∧ s.Later c s' c' := by
  induction ops generalizing s c with
  | nil => exact ⟨[], s, c, rfl, h, rfl, BlockCuts.Extends.refl c, fun _ => Nat.le_refl _⟩
  | cons op ops ih =>
    obtain ⟨piece, s₁, c₁, hcall, hlater, -⟩ := call_returns h op
    obtain ⟨pieces, s', c', hrun, hlater'⟩ := ih hlater.kept
    refine ⟨pieces ++ [piece], s', c', ?_, hlater.trans hlater'⟩
    rw [run, hcall]
    simp only [Option.bind_eq_bind, Option.bind_some, hrun, Option.pure_def]

/-- Along a run the regions stay in use and disjoint. -/
theorem Filled.run (h : s.Filled c) {ops : List WorkerCall} (hfits : ∀ op ∈ ops, op.Fits)
    {pieces : List (BlockKind × Region)} (heval : s.run ops = some (pieces, s'))
    (hwrap : ∀ kind, s'.taken kind ≤ 2 ^ 32) {before : List ((BlockKind × Nat) × Region)}
    (hbefore : (s.shelf c).Packed before) :
    ∃ c' new, s'.Filled c' ∧ s.Within c s' c' ∧ (s'.shelf c').Packed (new ++ before) ∧
      pieces = new.map fun p => (p.1.1, p.2) := by
  induction ops generalizing s c before pieces with
  | nil =>
    rw [Worker.run, Option.some.injEq, Prod.mk.injEq] at heval
    obtain ⟨rfl, rfl⟩ := heval
    exact ⟨c, [], h, Within.refl s c, hbefore, rfl⟩
  | cons op ops ih =>
    obtain ⟨piece, s₁, c₁, hcall, hlater, -⟩ := call_returns h.kept op
    obtain ⟨rest, s₂, _, hrun, hlater'⟩ := run_returns hlater.kept ops
    rw [Worker.run, hcall] at heval
    simp only [Option.bind_eq_bind, Option.bind_some, hrun, Option.pure_def, Option.some.injEq,
      Prod.mk.injEq] at heval
    obtain ⟨rfl, rfl⟩ := heval
    obtain ⟨c₁', j, htook⟩ := h.took (hfits op List.mem_cons_self) hcall
      fun kind => (hlater'.taken kind).trans (hwrap kind)
    have hpacked := htook.cut.packed htook.filled.sound hbefore
    obtain ⟨c', new, hfilled, hwithin, hnew, hmap⟩ :=
      ih htook.filled (fun o ho => hfits o (List.mem_cons_of_mem _ ho)) hrun hpacked
    refine ⟨c', new ++ [((piece.1, j), piece.2)], hfilled, htook.within.trans hwithin, ?_, ?_⟩
    · rwa [List.append_assoc]
    · rw [List.map_append, ← hmap]
      rfl

theorem run_sizes {ops : List WorkerCall} (hfits : ∀ op ∈ ops, op.Fits)
    {pieces : List (BlockKind × Region)} (heval : s.run ops = some (pieces, s')) :
    ∀ p ∈ pieces, 0 < p.2.size := by
  induction ops generalizing s pieces with
  | nil =>
    rw [Worker.run, Option.some.injEq, Prod.mk.injEq] at heval
    obtain ⟨rfl, -⟩ := heval
    exact fun p hp => by simp at hp
  | cons op ops ih =>
    rw [Worker.run] at heval
    obtain ⟨⟨piece, s₁⟩, hcall, heval⟩ := Option.bind_eq_some_iff.mp heval
    obtain ⟨⟨rest, s₂⟩, hrun, heval⟩ := Option.bind_eq_some_iff.mp heval
    rw [Option.pure_def, Option.some.injEq, Prod.mk.injEq] at heval
    obtain ⟨rfl, rfl⟩ := heval
    intro p hp
    rcases List.mem_append.mp hp with hp | hp
    · exact ih (fun o ho => hfits o (List.mem_cons_of_mem _ ho)) hrun p hp
    · rw [List.mem_singleton.mp hp, (call_piece hcall).2]
      have hfit := hfits op List.mem_cons_self
      cases op with
      | tree sz => exact hfit.1
      | append version =>
        have hsize : 0 < logNodeSize := by decide
        exact hsize

/-- A run that leaves a small pool has not wrapped a counter. -/
theorem Filled.taken_small (h : s.Filled c) {ops : List WorkerCall} (hfits : ∀ op ∈ ops, op.Fits)
    {pieces : List (BlockKind × Region)} (heval : s.run ops = some (pieces, s'))
    (hsmall : s'.alc.endAddress < blockAt s'.alc.startAddress (2 ^ 32)) (kind : BlockKind) :
    s'.taken kind ≤ 2 ^ 32 := by
  induction ops generalizing s c pieces with
  | nil =>
    rw [Worker.run, Option.some.injEq, Prod.mk.injEq] at heval
    obtain ⟨-, rfl⟩ := heval
    rw [h.kept.listed.end_eq, blockAt_lt_iff] at hsmall
    have hcount := h.kept.listed.exact.count_le_total kind
    have htaken := h.taken_le kind
    omega
  | cons op ops ih =>
    obtain ⟨piece, s₁, c₁, hcall, hlater, hnext⟩ := call_returns h.kept op
    obtain ⟨rest, s₂, c₂, hrun, hlater'⟩ := run_returns hlater.kept ops
    rw [Worker.run, hcall] at heval
    simp only [Option.bind_eq_bind, Option.bind_some, hrun, Option.pure_def, Option.some.injEq,
      Prod.mk.injEq] at heval
    obtain ⟨-, rfl⟩ := heval
    have hlt := hsmall
    rw [hlater'.kept.listed.end_eq, blockAt_lt_iff] at hlt
    have hwrap : ∀ k, s₁.taken k ≤ 2 ^ 32 := by
      intro k
      have hcount := h.kept.listed.exact.count_le_total k
      have htaken := h.taken_le k
      have htotal := (hlater.cuts.trans hlater'.cuts).total_le
      have := hnext k
      omega
    obtain ⟨c₁', j, htook⟩ := h.took (hfits op List.mem_cons_self) hcall hwrap
    exact ih htook.filled (fun o ho => hfits o (List.mem_cons_of_mem _ ho)) hrun

theorem init_marked (address : Nat) (m : Headers) :
    (start address m).alc.Marked (start address m).mem NAlc.firstCuts fun _ => 0 := by
  obtain ⟨a₀, a₁, m₁, -, -, hnode, hlog⟩ := NAlc.init_grown address m
  have hempty : a₀.Marked m ⟨0, fun _ => 0, fun _ _ => 0⟩ fun _ => 0 :=
    fun _ _ hj => absurd hj (Nat.not_lt_zero _)
  have hfirst := hempty.grown BlockCuts.exact_none hnode fun _ => Nat.le_refl _
  exact hfirst.grown hnode.listed.exact hlog fun _ => Nat.zero_le _

theorem start_marked (address : Nat) (m : Headers) :
    (start address m).alc.Marked (start address m).mem NAlc.firstCuts (start address m).taken := by
  intro kind j hj
  have hb := init_marked address m kind j hj
  exact ⟨hb.start, hb.code,
    fun hk => ⟨(hb.node hk).1, (hb.node hk).2.1, fun _ => (hb.node hk).2.2 (Nat.zero_le _)⟩,
    fun _ hlt => absurd hlt (Nat.not_lt_zero _), fun hk _ => hb.log_unused hk (Nat.zero_le _)⟩

theorem start_filled (address : Nat) (m : Headers) : (start address m).Filled NAlc.firstCuts := by
  have hzero : (start address m).alc.decisionId = fun _ => 0 := NAlc.init_decisionId address m
  refine ⟨NAlc.init_kept address m, start_marked address m, ?_,
    fun hone => absurd hone (Nat.lt_irrefl 1), ?_, ?_, Nat.zero_le _,
    fun _ => rfl, fun hpos => absurd hpos (Nat.lt_irrefl 0)⟩
  · have hcount : NAlc.firstCuts.count .node = 4 := by decide
    intro kind
    cases kind with
    | node => exact hcount ▸ Nat.succ_le_succ (Nat.zero_le 3)
    | log => exact Nat.zero_le _
  · rw [hzero]
    rfl
  · rw [hzero]
    rfl

/-- Regions that do not overlap each other or a header, each in the data of a block of its
own kind. -/
structure Separated (s : Worker) (pieces : List (BlockKind × Region)) : Prop where
  disjoint : pieces.Pairwise fun p q => p.2.Disjoint q.2
  off_headers : ∀ p ∈ pieces, ∀ n, blockAt s.alc.startAddress n < s.alc.endAddress →
    p.2.Disjoint ⟨blockAt s.alc.startAddress n, baseMetaSize⟩
  in_block : ∀ p ∈ pieces, ∃ n, blockAt s.alc.startAddress n < s.alc.endAddress ∧
    (s.mem (blockAt s.alc.startAddress n)).blockType = p.1.code ∧
    p.2.Within ⟨blockAt s.alc.startAddress n + baseMetaSize, dataSize⟩

theorem Filled.separated (h : s.Filled c) {taken : List ((BlockKind × Nat) × Region)}
    (hpacked : (s.shelf c).Packed taken) :
    s.Separated (taken.map fun p => (p.1.1, p.2)) := by
  have hwithin : ∀ p ∈ taken, p.1.2 < c.count p.1.1 ∧
      p.2.Within ⟨s.alc.header c p.1.1 p.1.2 + baseMetaSize, dataSize⟩ := by
    intro p hp
    obtain ⟨hlive, hin⟩ := hpacked.within p hp
    exact ⟨hlive, hin.trans (h.sound.inUse_within hlive)⟩
  refine ⟨?_, ?_, ?_⟩
  · rw [List.pairwise_map]
    exact hpacked.disjoint
  · intro p hp n hn
    obtain ⟨q, hq, rfl⟩ := List.mem_map.mp hp
    obtain ⟨hlive, hin⟩ := hwithin q hq
    by_cases heq : n = c.place q.1.1 q.1.2
    · subst heq
      exact Or.inr hin.1
    · have hapart := blocks_disjoint s.alc.startAddress (Ne.symm heq)
      have hsize : baseMetaSize ≤ CHUNK_SIZE := by decide
      exact hapart.mono (hin.trans (data_within _)) ⟨Nat.le_refl _, Nat.add_le_add_left hsize _⟩
  · intro p hp
    obtain ⟨q, hq, rfl⟩ := List.mem_map.mp hp
    obtain ⟨hlive, hin⟩ := hwithin q hq
    refine ⟨c.place q.1.1 q.1.2, ?_, (h.marked _ _ hlive).code, hin⟩
    rw [h.kept.listed.end_eq, blockAt_lt_iff]
    exact h.kept.listed.exact.place_lt hlive

end Worker

/-- While at most `2 ^ 32` blocks of a kind are taken into use, the regions of a run without
frees are disjoint from each other and from all headers, and each lies in the data of one
block of its kind. -/
theorem allocations_separated (address : Nat) (m : Headers) (ops : List WorkerCall)
    (hfits : ∀ op ∈ ops, op.Fits) :
    ∃ pieces s', (Worker.start address m).run ops = some (pieces, s') ∧
      ((∀ kind, s'.taken kind ≤ 2 ^ 32) → s'.Separated pieces) := by
  have hstart := Worker.start_filled address m
  obtain ⟨pieces, s', -, hrun, -⟩ := Worker.run_returns hstart.kept ops
  refine ⟨pieces, s', hrun, fun hwrap => ?_⟩
  obtain ⟨c', new, hfilled, -, hpacked, rfl⟩ := hstart.run hfits hrun hwrap (Shelf.Packed.nil _)
  rw [List.append_nil] at hpacked
  exact hfilled.separated hpacked

/-- One tree node and two records in the first pool of the process. -/
theorem allocations_separated_three :
    ∃ pieces s', (Worker.start 0x50000000 fun _ => BaseMeta.zero).run
        [.tree 32, .append 8, .append 8] = some (pieces, s') ∧ s'.Separated pieces := by
  have hfits : ∀ op ∈ [WorkerCall.tree 32, .append 8, .append 8], op.Fits := by decide
  obtain ⟨pieces, s', hrun, hseparated⟩ :=
    allocations_separated 0x50000000 (fun _ => BaseMeta.zero) _ hfits
  have htaken : ((Worker.start 0x50000000 fun _ => BaseMeta.zero).run
      [.tree 32, .append 8, .append 8]).map (fun r => (r.2.taken .node, r.2.taken .log)) =
        some (1, 1) := by
    decide +kernel
  rw [hrun, Option.map_some, Option.some.injEq, Prod.mk.injEq] at htaken
  refine ⟨pieces, s', hrun, hseparated fun kind => ?_⟩
  cases kind with
  | node => exact htaken.1 ▸ by decide
  | log => exact htaken.2 ▸ by decide

/-! ### The counters wrap -/

namespace Worker

variable {s s' : Worker} {c c' : BlockCuts}

theorem run_snoc (s : Worker) (ops : List WorkerCall) (op : WorkerCall) :
    s.run (ops ++ [op]) = do
      let (pieces, s) ← s.run ops
      let (piece, s) ← s.call op
      return (piece :: pieces, s) := by
  induction ops generalizing s with
  | nil =>
    simp only [List.nil_append, run, Option.bind_eq_bind, Option.bind_some, Option.pure_def]
  | cons o ops ih =>
    simp only [List.cons_append, run, Option.bind_eq_bind, Option.pure_def, ih,
      Option.bind_assoc, Option.bind_some]

/-- Records that fit in the segment in use move nothing but its two cursors. -/
theorem run_appends (s : Worker) (version : BitVec 32) (hvec : s.seg.logVec ≠ 0) (n : Nat)
    (hroom : s.seg.tempOffset + logNodeSize * n + version.toNat < DSeg.logEnd) :
    ∃ pieces, s.run (List.replicate n (.append version)) =
        some (pieces, { s with seg :=
          ⟨s.seg.tempOffset + logNodeSize * n, s.seg.logVec, s.seg.vecStart + logNodeSize * n⟩ }) ∧
      ∀ i, i < n → (.log, ⟨s.seg.vecStart + logNodeSize * i, logNodeSize⟩) ∈ pieces := by
  induction n with
  | zero => exact ⟨[], rfl, fun i hi => absurd hi (Nat.not_lt_zero i)⟩
  | succ n ih =>
    obtain ⟨pieces, hrun, hmem⟩ := ih (by
      rw [Nat.mul_succ] at hroom
      omega)
    set s₁ : Worker := { s with seg :=
      ⟨s.seg.tempOffset + logNodeSize * n, s.seg.logVec, s.seg.vecStart + logNodeSize * n⟩ } with hs
    have hseg : ¬ s₁.seg.needsSegment version := by
      rintro (hfull | hnone)
      · change DSeg.logEnd ≤ s.seg.tempOffset + logNodeSize * n + logNodeSize + version.toNat at hfull
        rw [Nat.mul_succ] at hroom
        omega
      · exact hvec hnone
    refine ⟨(.log, ⟨s.seg.vecStart + logNodeSize * n, logNodeSize⟩) :: pieces, ?_, ?_⟩
    · rw [List.replicate_succ', run_snoc, hrun]
      simp only [Option.bind_eq_bind, Option.bind_some, call, DSeg.appendOne, if_neg hseg,
        Option.pure_def, account_same, Nat.mul_succ, ← Nat.add_assoc]
      rfl
    · intro i hi
      rcases Nat.lt_succ_iff_lt_or_eq.mp hi with hlt | rfl
      · exact List.mem_cons_of_mem _ (hmem i hlt)
      · exact List.mem_cons_self

def wholeBlock : WorkerCall := .tree (BitVec.ofNat 32 dataSize)

theorem wholeBlock_fits : wholeBlock.Fits := by decide

theorem call_tree_eval {sz : BitVec 32} {address : Nat} {a : NAlc} {m : Headers}
    (h : s.alc.nAllocateTree s.mem sz = some (address, a, m)) :
    s.call (.tree sz) =
      some ((.node, ⟨address, sz.toNat⟩), ⟨a, m, s.seg, s.account a .node⟩) := by
  rw [Worker.call, h]
  rfl

/-- After `n` requests for a whole block the first `n` tree blocks are full. -/
structure FullUpTo (s : Worker) (c : BlockCuts) (n : Nat) : Prop where
  filled : s.Filled c
  taken : s.taken .node = n
  full : ∀ j, j < n → (s.shelf c).fill (.node, j) = dataSize

/-- A request for a whole block that is served from block `n` fills it. -/
theorem Took.fullUpTo {piece : BlockKind × Region} {n : Nat}
    (h : s.Took c wholeBlock piece s' c' n) (htaken : s'.taken .node = n + 1)
    (hlive : ∀ j, j < n → (s.shelf c).live (.node, j))
    (hfull : ∀ j, j < n → (s.shelf c).fill (.node, j) = dataSize) : s'.FullUpTo c' (n + 1) where
  filled := h.filled
  taken := htaken
  full j hj := by
    obtain ⟨hnode, hsize⟩ := call_piece h.eval
    have hsize' : piece.2.size = dataSize := hsize.trans (by decide)
    have hcut := h.cut
    have hkind : wholeBlock.kind = .node := rfl
    rw [hnode, hkind] at hcut
    rcases Nat.lt_succ_iff_lt_or_eq.mp hj with hlt | rfl
    · have hgrown := hcut.grows.fill (hlive j hlt)
      have hle := h.filled.sound.fill_le (hcut.grows.live (hlive j hlt))
      have hblock : ((s'.shelf c').block (.node, j)).size = dataSize := rfl
      rw [hfull j hlt] at hgrown
      omega
    · have hle := h.filled.sound.fill_le hcut.live
      have hbase := hcut.base_le
      have hlimit := hcut.limit_le
      have hblock : ((s'.shelf c').block (.node, j)).size = dataSize := rfl
      simp only [Shelf.inUse, Region.limit, hsize'] at hlimit
      omega

theorem FullUpTo.lacksRoom {n : Nat} (h : s.FullUpTo c n) (hn : 0 < n) :
    NAlc.lacksRoom (s.mem (s.alc.header c .node (s.alc.decisionId .node).toNat))
      (BitVec.ofNat 32 dataSize) := by
  have hlast : (s.alc.decisionId .node).toNat = n - 1 := by
    have := h.filled.node_taken
    have := h.taken
    omega
  have hfull : (s.mem (s.alc.header c .node (n - 1))).bitmap.toNat = dataSize :=
    h.full (n - 1) (Nat.sub_lt hn Nat.one_pos)
  have hsum : ((s.mem (s.alc.header c .node (n - 1))).bitmap + BitVec.ofNat 32 dataSize).toNat = _ :=
    bitmap_add (Nat.le_of_eq hfull) (by decide)
  rw [NAlc.lacksRoom, hlast, hsum, hfull]
  decide

theorem FullUpTo.next {n : Nat} (h : s.FullUpTo c n) (hn : 0 < n) (hlt : n < 2 ^ 32) :
    ∃ piece s' c', s.call wholeBlock = some (piece, s') ∧ s'.FullUpTo c' (n + 1) := by
  have hroom := h.lacksRoom hn
  obtain ⟨piece, s', c', htook⟩ :=
    h.filled.tree_moves (by decide) (by decide) hroom (by rw [h.taken]; exact hlt)
  have htaken := h.filled.tree_taken hroom htook.eval
  rw [h.taken] at htook htaken
  refine ⟨piece, s', c', htook.eval, htook.fullUpTo htaken (fun j hj => ?_) h.full⟩
  have hle := h.filled.taken_le .node
  rw [h.taken] at hle
  exact Nat.lt_of_lt_of_le hj hle

theorem start_full (address : Nat) (m : Headers) :
    ∃ piece s' c', (start address m).call wholeBlock = some (piece, s') ∧ s'.FullUpTo c' 1 := by
  have h := start_filled address m
  have hunused := ((init_marked address m .node _ h.kept.node_decided).node rfl).2.2
    (Nat.zero_le _)
  have hroom : ¬ NAlc.lacksRoom ((start address m).mem ((start address m).alc.header NAlc.firstCuts
      .node ((start address m).alc.decisionId .node).toNat)) (BitVec.ofNat 32 dataSize) := by
    rw [NAlc.lacksRoom, hunused]
    decide
  obtain ⟨piece, s', htook⟩ := h.tree_fits (by decide) hroom
  have hzero : ((start address m).alc.decisionId .node).toNat = 0 := by
    have := h.node_taken
    have htaken : (start address m).taken .node = 1 := rfl
    omega
  rw [hzero] at htook
  have htaken : s'.taken .node = 1 := congrFun (h.tree_taken_same hroom htook.eval) .node
  exact ⟨piece, s', _, htook.eval, htook.fullUpTo htaken
    (fun _ hj => absurd hj (Nat.not_lt_zero _)) fun _ hj => absurd hj (Nat.not_lt_zero _)⟩

theorem run_full (address : Nat) (m : Headers) (n : Nat) (hn : n < 2 ^ 32) :
    ∃ pieces s' c', (start address m).run (List.replicate (n + 1) wholeBlock) = some (pieces, s') ∧
      s'.FullUpTo c' (n + 1) := by
  induction n with
  | zero =>
    obtain ⟨piece, s', c', hcall, hfull⟩ := start_full address m
    refine ⟨[] ++ [piece], s', c', ?_, hfull⟩
    rw [List.replicate_succ, List.replicate_zero, run, hcall]
    rfl
  | succ n ih =>
    obtain ⟨pieces, s₁, c₁, hrun, hfull⟩ := ih (Nat.lt_of_succ_lt hn)
    obtain ⟨piece, s', c', hcall, hfull'⟩ := hfull.next (Nat.succ_pos n) hn
    refine ⟨piece :: pieces, s', c', ?_, hfull'⟩
    rw [List.replicate_succ', run_snoc, hrun]
    simp only [Option.bind_eq_bind, Option.bind_some, hcall, Option.pure_def]

/-- When the counter wraps, a request for a whole block is given the bytes behind the first
block, which is full. -/
theorem FullUpTo.wraps (h : s.FullUpTo c (2 ^ 32)) :
    ∃ s', s.call wholeBlock =
      some ((.node, ⟨s.alc.header c .node 0 + CHUNK_SIZE, dataSize⟩), s') ∧
        s'.alc.startAddress = s.alc.startAddress := by
  have hroom := h.lacksRoom (by decide)
  obtain ⟨c', a', m', hgrown, -, -, heval⟩ := h.filled.kept.nAllocateTree_moves hroom
  have hone : (1 : BitVec 32).toNat = 1 := rfl
  have hwrapped : (s.alc.decisionId .node + 1).toNat = 0 := by
    rw [BitVec.toNat_add, hone, ← h.filled.node_taken, h.taken, Nat.mod_self]
  have hlive : 0 < c.count .node :=
    Nat.lt_of_lt_of_le (by rw [h.taken]; decide) (h.filled.taken_le .node)
  have hheader : s.alc.header c' .node 0 = s.alc.header c .node 0 :=
    NAlc.header_eq_of_extends hgrown.extends_cuts hlive
  have hold : m' (s.alc.header c .node 0) = s.mem (s.alc.header c .node 0) :=
    hgrown.fresh.old_header _ (h.filled.kept.listed.exact.place_lt hlive)
  have hfull : (s.mem (s.alc.header c .node 0)).bitmap.toNat = dataSize := h.full 0 (by decide)
  have haddress : (s.mem (s.alc.header c .node 0)).startAddress +
      (s.mem (s.alc.header c .node 0)).bitmap.toNat = s.alc.header c .node 0 + CHUNK_SIZE := by
    rw [hfull, (h.filled.marked .node 0 hlive).start, Nat.add_assoc]
    rfl
  have hsize : (BitVec.ofNat 32 dataSize).toNat = dataSize := by decide
  have hcall := call_tree_eval heval
  simp only [hwrapped, hheader, hold, haddress, hsize] at hcall
  exact ⟨_, hcall, hgrown.start⟩

end Worker

/-- One request more than there are ids: the last region lies behind the block that it is
taken from. -/
theorem allocations_overlap_after_wrap :
    (∀ op ∈ List.replicate (2 ^ 32 + 1) Worker.wholeBlock, op.Fits) ∧
      ¬ ∃ pieces s', (Worker.start 0x50000000 fun _ => BaseMeta.zero).run
        (List.replicate (2 ^ 32 + 1) Worker.wholeBlock) = some (pieces, s') ∧
          s'.Separated pieces := by
  constructor
  · intro op hop
    rw [List.eq_of_mem_replicate hop]
    exact Worker.wholeBlock_fits
  · rintro ⟨pieces, s', hrun, hseparated⟩
    obtain ⟨before, s₁, c₁, hrun₁, hfull⟩ :=
      Worker.run_full 0x50000000 (fun _ => BaseMeta.zero) (2 ^ 32 - 1) (by decide)
    have hpred : 2 ^ 32 - 1 + 1 = 2 ^ 32 := by decide
    rw [hpred] at hrun₁ hfull
    obtain ⟨s₂, hcall, hstart⟩ := hfull.wraps
    have hlast : (Worker.start 0x50000000 fun _ => BaseMeta.zero).run
        (List.replicate (2 ^ 32 + 1) Worker.wholeBlock) =
          some ((.node, ⟨s₁.alc.header c₁ .node 0 + CHUNK_SIZE, dataSize⟩) :: before, s₂) := by
      rw [List.replicate_succ', Worker.run_snoc, hrun₁]
      simp only [Option.bind_eq_bind, Option.bind_some, hcall, Option.pure_def]
    rw [hlast, Option.some.injEq, Prod.mk.injEq] at hrun
    obtain ⟨rfl, rfl⟩ := hrun
    obtain ⟨n, -, -, hbase, hlimit⟩ := hseparated.in_block _ List.mem_cons_self
    rw [hstart] at hbase hlimit
    simp only [Region.limit, NAlc.header, blockAt, dataSize, CHUNK_SIZE, baseMetaSize] at hbase hlimit
    omega

end ZBTree
