import ZBTree.WorkerRuns
import ZBTree.Arrays

/-!
# Opening a pool again

`ignore_recover` (and the first loop of `recover_init`, which is the same) rebuilds the
directories and the counters of an allocator from the block headers of its pool. A tree
block says in its header which id it is listed under, but a log block that has been handed
out has the id after its own, so the counter of log blocks comes back as an id that is
listed: the last segment that was in use is handed out again, from byte 114514 on.
-/

namespace ZBTree

namespace NAlc

/-- The entry and the counters for a block that is in use. -/
def adoptAs (a : NAlc) (kind : BlockKind) (header : Nat) (b : BaseMeta) : NAlc :=
  { (a.setEntry kind (b.blockId.setWidth 32) (some header)).nextPage kind with
    decisionId :=
      if b.bitmap ≠ 0 ∧ a.decisionId kind < b.blockId.setWidth 32 then
        Function.update a.decisionId kind (b.blockId.setWidth 32)
      else a.decisionId }

/-- One round of the scan over the headers. -/
def adopt (m : Headers) (a : NAlc) (header : Nat) : NAlc :=
  let b := m header
  if b.bitmap = 0 then a
  else if b.blockType = BlockKind.node.code then a.adoptAs .node header b
  else if b.bitmap = LOG_MARK then a.adoptAs .log header b
  else a

/-- `while (recover_start < start_address + pool_len)`, in steps of `CHUNK_SIZE` from the
first header on. -/
def scanRounds (poolLen : Nat) : Nat := (poolLen - 1024 + (CHUNK_SIZE - 1)) / CHUNK_SIZE

/-- `N_alc::ignore_recover` (`n_alc.cpp`). -/
def ignoreRecover (a : NAlc) (m : Headers) (poolLen : Nat) : NAlc :=
  (List.range (scanRounds poolLen)).foldl
    (fun a' i => a'.adopt m (blockAt a.startAddress i)) a

/-- The number of the first block behind all those that are in use. -/
def usedEnd (m : Headers) (start poolLen : Nat) : Nat :=
  (List.range (scanRounds poolLen)).foldl
    (fun e i => if (m (blockAt start i)).bitmap = 0 then e else i + 1) 0

/-- The allocator that `N_alc::N_alc` (`n_alc.cpp`) opens on a pool that exists. The constructor leaves
`page_id` and `decision_id` unset; here they are zero. `end_address` is the end of the last block in
use. -/
def reopen (m : Headers) (start poolLen : Nat) : NAlc :=
  ignoreRecover
    { list := fun _ _ => none, pageId := fun _ => 0, decisionId := fun _ => 0,
      startAddress := start, endAddress := blockAt start (usedEnd m start poolLen) }
    m poolLen

end NAlc

/-- A later `n_allocate(sz)` or `n_allocate(sz, 1)`. -/
structure AllocRequest where
  kind : BlockKind
  sz : BitVec 32
deriving DecidableEq, Repr

/-- The sizes that a block can serve. -/
def AllocRequest.Fits (r : AllocRequest) : Prop := 0 < r.sz.toNat ∧ r.sz.toNat ≤ dataSize

def AllocRequest.serve (r : AllocRequest) (a : NAlc) (m : Headers) : Option (Nat × NAlc × Headers) :=
  match r.kind with
  | .node => a.nAllocateTree m r.sz
  | .log => a.nAllocateLog m r.sz

/-- The regions that a sequence of requests returns, up to a request that follows a null
pointer or cuts a block behind the end of the pool. -/
def serveAll (limit : Nat) : NAlc → Headers → List AllocRequest → List Region
  | _, _, [] => []
  | a, m, r :: rest =>
    match r.serve a m with
    | none => []
    | some (address, a, m) =>
      if limit < a.endAddress then []
      else ⟨address, r.sz.toNat⟩ :: serveAll limit a m rest

/-! ### The headers of a pool that is opened again -/

/-- The id that the header of the `j`-th block in use of a kind carries is `j` plus this. -/
def BlockKind.shift : BlockKind → Nat
  | node => 0
  | log => 1

/-- The headers in a pool whose first `used kind` blocks of each kind are in use. -/
structure PoolImage (m : Headers) (start : Nat) (c : BlockCuts) (used : BlockKind → Nat) : Prop where
  exact : c.Exact
  used_le : ∀ kind, used kind ≤ c.count kind
  unused : ∀ kind j, used kind ≤ j → j < c.count kind →
    (m (blockAt start (c.place kind j))).bitmap = 0
  blank : ∀ i, c.total ≤ i → (m (blockAt start i)).bitmap = 0
  in_use : ∀ kind j, j < used kind → (m (blockAt start (c.place kind j))).bitmap ≠ 0 ∧
    (m (blockAt start (c.place kind j))).blockType = kind.code ∧
    (m (blockAt start (c.place kind j))).blockId = BitVec.ofNat 30 (j + kind.shift)
  data_at : ∀ kind j, j < used kind → (m (blockAt start (c.place kind j))).startAddress =
    blockAt start (c.place kind j) + baseMetaSize
  node_fill : ∀ j, j < used .node → (m (blockAt start (c.place .node j))).bitmap.toNat ≤ dataSize
  marked : ∀ j, j < used .log → (m (blockAt start (c.place .log j))).bitmap = LOG_MARK
  small : c.total < 2 ^ 22

namespace PoolImage

variable {m : Headers} {start : Nat} {c : BlockCuts} {used : BlockKind → Nat}

theorem adopt_unused (a : NAlc) {header : Nat} (hz : (m header).bitmap = 0) :
    a.adopt m header = a := if_pos hz

theorem adopt_used (h : PoolImage m start c used) (a : NAlc) {kind : BlockKind} {j : Nat}
    (hj : j < used kind) :
    a.adopt m (blockAt start (c.place kind j)) =
      a.adoptAs kind (blockAt start (c.place kind j)) (m (blockAt start (c.place kind j))) := by
  obtain ⟨hne, hcode, -⟩ := h.in_use kind j hj
  rw [NAlc.adopt, if_neg hne, hcode]
  cases kind with
  | node => rw [if_pos rfl]
  | log => rw [if_neg (by decide), if_pos (h.marked j hj)]

/-- The allocator after the first `i` headers: `seen kind` blocks of each kind were among them. -/
structure Scanned (start : Nat) (c : BlockCuts) (used : BlockKind → Nat) (a₀ : NAlc) (i : Nat)
    (a : NAlc) (seen : BlockKind → Nat) : Prop where
  start_eq : a.startAddress = a₀.startAddress
  end_eq : a.endAddress = a₀.endAddress
  seen_le : ∀ kind, seen kind ≤ used kind
  passed : ∀ kind j, j < used kind → (c.place kind j < i ↔ j < seen kind)
  entry : ∀ kind id, a.list kind id =
    if kind.shift ≤ id.toNat ∧ id.toNat - kind.shift < seen kind
    then some (blockAt start (c.place kind (id.toNat - kind.shift))) else none
  page : ∀ kind, a.pageId kind = BitVec.ofNat 32 (seen kind)
  decision : ∀ kind, (a.decisionId kind).toNat =
    if seen kind = 0 then 0 else seen kind - 1 + kind.shift

theorem Scanned.next_of_used (h : PoolImage m start c used) {a₀ a : NAlc} {seen : BlockKind → Nat}
    {kind : BlockKind} {j : Nat} (hs : Scanned start c used a₀ (c.place kind j) a seen)
    (hj : j < used kind) : j = seen kind := by
  have hnot : ¬ j < seen kind := fun hlt => Nat.lt_irrefl _ ((hs.passed kind j hj).mpr hlt)
  rcases Nat.lt_or_eq_of_le (Nat.le_of_not_lt hnot) with hlt | heq
  · have hplace := h.exact.place_mono hlt (Nat.lt_of_lt_of_le hj (h.used_le kind))
    have := (hs.passed kind (seen kind) (hlt.trans hj)).mp hplace
    exact absurd this (Nat.lt_irrefl _)
  · exact heq.symm

theorem adoptAs_decisionId_of_ne (a : NAlc) {kind kind' : BlockKind} (hne : kind' ≠ kind)
    (header : Nat) (b : BaseMeta) :
    (a.adoptAs kind header b).decisionId kind' = a.decisionId kind' := by
  simp only [NAlc.adoptAs]
  split
  · rw [Function.update_of_ne hne]
  · rfl

theorem adoptAs_decisionId_self (a : NAlc) (kind : BlockKind) (header : Nat) {b : BaseMeta}
    (hb : b.bitmap ≠ 0) : ((a.adoptAs kind header b).decisionId kind).toNat =
      max (a.decisionId kind).toNat (b.blockId.setWidth 32).toNat := by
  simp only [NAlc.adoptAs]
  split
  · rename_i h
    have hlt : (a.decisionId kind).toNat < (b.blockId.setWidth 32).toNat := h.2
    rw [Function.update_self]
    omega
  · rename_i h
    have hle : (b.blockId.setWidth 32).toNat ≤ (a.decisionId kind).toNat :=
      Nat.not_lt.mp fun hlt => h ⟨hb, hlt⟩
    omega

theorem Scanned.skip {a₀ a : NAlc} {seen : BlockKind → Nat} {i : Nat}
    (hs : Scanned start c used a₀ i a seen)
    (hunused : ∀ kind j, j < used kind → c.place kind j ≠ i) :
    Scanned start c used a₀ (i + 1) a seen :=
  { hs with
    passed := fun kind j hj => by
      have hpassed := hs.passed kind j hj
      have hne := hunused kind j hj
      omega }

/-- The header of a block in use is listed under its id. -/
theorem Scanned.meet (h : PoolImage m start c used) {a₀ a : NAlc} {seen : BlockKind → Nat}
    {kind : BlockKind} (hseen : seen kind < used kind)
    (hs : Scanned start c used a₀ (c.place kind (seen kind)) a seen) :
    Scanned start c used a₀ (c.place kind (seen kind) + 1)
      (a.adopt m (blockAt start (c.place kind (seen kind))))
      (Function.update seen kind (seen kind + 1)) := by
  set j := seen kind with hj
  rw [h.adopt_used a hseen]
  obtain ⟨hne, -, hid⟩ := h.in_use kind j hseen
  set b := m (blockAt start (c.place kind j)) with hb
  have hcount : j < c.count kind := Nat.lt_of_lt_of_le hseen (h.used_le kind)
  have hsmall : j < 2 ^ 22 :=
    Nat.lt_trans (Nat.lt_of_lt_of_le hcount (h.exact.count_le_total kind)) h.small
  have hshift : kind.shift ≤ 1 := by cases kind <;> decide
  -- the id in the header fits into 30 bits, since a pool has less than `2 ^ 22` blocks
  have hidNat : (b.blockId.setWidth 32).toNat = j + kind.shift := by
    rw [hid, BitVec.toNat_setWidth, BitVec.toNat_ofNat]
    omega
  refine ⟨?_, ?_, ?_, ?_, ?_, ?_, ?_⟩
  · exact hs.start_eq
  · exact hs.end_eq
  · intro k
    by_cases hk : k = kind
    · subst hk
      rw [Function.update_self]
      exact hseen
    · rw [Function.update_of_ne hk]
      exact hs.seen_le k
  · intro k i hi
    have hpassed := hs.passed k i hi
    have hicount : i < c.count k := Nat.lt_of_lt_of_le hi (h.used_le k)
    by_cases hk : k = kind
    · subst hk
      rw [Function.update_self]
      rcases Nat.lt_trichotomy i j with hlt | heq | hgt
      · have := h.exact.place_mono hlt hcount
        omega
      · subst heq
        omega
      · have := h.exact.place_mono hgt hicount
        omega
    · rw [Function.update_of_ne hk]
      -- a block of the other kind has another place
      have hplace : c.place k i ≠ c.place kind j := fun heq =>
        hk (h.exact.place_inj hicount hcount heq).1
      omega
  · intro k id
    have hlist : (a.adoptAs kind (blockAt start (c.place kind j)) b).list =
        (a.setEntry kind (b.blockId.setWidth 32) (some (blockAt start (c.place kind j)))).list := rfl
    rw [hlist]
    by_cases hk : k = kind
    · subst hk
      rw [NAlc.setEntry_list_self, hs.entry, Function.update_self]
      by_cases heq : id = b.blockId.setWidth 32
      · have hnat : id.toNat = j + k.shift := heq ▸ hidNat
        rw [if_pos heq, if_pos (by omega), hnat, Nat.add_sub_cancel]
      · have hnat : id.toNat ≠ j + k.shift := fun hsame =>
          heq (BitVec.eq_of_toNat_eq (hsame.trans hidNat.symm))
        rw [if_neg heq]
        by_cases hin : k.shift ≤ id.toNat ∧ id.toNat - k.shift < seen k
        · rw [if_pos hin, if_pos (by omega)]
        · rw [if_neg hin, if_neg (by omega)]
    · rw [NAlc.setEntry_list_of_ne _ _ _ _ _ hk, hs.entry, Function.update_of_ne hk]
  · intro k
    have hpage : (a.adoptAs kind (blockAt start (c.place kind j)) b).pageId =
        (a.nextPage kind).pageId := rfl
    rw [hpage]
    by_cases hk : k = kind
    · subst hk
      rw [Function.update_self, NAlc.nextPage]
      dsimp only
      rw [Function.update_self, hs.page, ← hj]
      exact (BitVec.ofNat_add j 1).symm
    · rw [Function.update_of_ne hk, NAlc.nextPage]
      dsimp only
      rw [Function.update_of_ne hk, hs.page]
  · intro k
    by_cases hk : k = kind
    · subst hk
      rw [adoptAs_decisionId_self a k _ hne, hidNat, hs.decision, Function.update_self]
      rw [if_neg (Nat.succ_ne_zero j), Nat.add_sub_cancel]
      split <;> omega
    · rw [adoptAs_decisionId_of_ne a hk, hs.decision, Function.update_of_ne hk]

theorem Scanned.round (h : PoolImage m start c used) {a₀ a : NAlc} {seen : BlockKind → Nat}
    {i : Nat} (hs : Scanned start c used a₀ i a seen) :
    ∃ seen', Scanned start c used a₀ (i + 1) (a.adopt m (blockAt start i)) seen' := by
  by_cases hin : ∃ kind j, j < used kind ∧ c.place kind j = i
  · obtain ⟨kind, j, hj, rfl⟩ := hin
    obtain rfl := hs.next_of_used h hj
    exact ⟨_, hs.meet h hj⟩
  · have hzero : (m (blockAt start i)).bitmap = 0 := by
      by_cases hi : i < c.total
      · obtain ⟨kind, j, hj, rfl⟩ := h.exact.place_onto hi
        exact h.unused kind j (Nat.not_lt.mp fun hlt => hin ⟨kind, j, hlt, rfl⟩) hj
      · exact h.blank i (Nat.le_of_not_lt hi)
    rw [adopt_unused a hzero]
    exact ⟨seen, hs.skip fun kind j hj heq => hin ⟨kind, j, hj, heq⟩⟩

theorem usedEnd_spec (h : PoolImage m start c used) {poolLen : Nat}
    (hrounds : c.total ≤ NAlc.scanRounds poolLen) :
    NAlc.usedEnd m start poolLen ≤ c.total ∧
      ∀ kind j, j < used kind → c.place kind j < NAlc.usedEnd m start poolLen := by
  have hloop : ∀ n e, e = (List.range n).foldl
      (fun e i => if (m (blockAt start i)).bitmap = 0 then e else i + 1) 0 →
      e ≤ c.total ∧ ∀ i, i < n → (m (blockAt start i)).bitmap ≠ 0 → i < e := by
    intro n e he
    subst he
    apply Arrays.foldl_range_induction
      (fun n e => e ≤ c.total ∧ ∀ i, i < n → (m (blockAt start i)).bitmap ≠ 0 → i < e)
    · exact ⟨Nat.zero_le _, fun i hi => absurd hi (Nat.not_lt_zero _)⟩
    · rintro n e - ⟨hle, hbefore⟩
      by_cases hz : (m (blockAt start n)).bitmap = 0
      · rw [if_pos hz]
        refine ⟨hle, fun i hi hne => ?_⟩
        rcases Nat.lt_succ_iff_lt_or_eq.mp hi with hlt | rfl
        · exact hbefore i hlt hne
        · exact absurd hz hne
      · rw [if_neg hz]
        refine ⟨Nat.not_le.mp fun hge => hz (h.blank n hge), fun i hi _ => hi⟩
  obtain ⟨hle, hbefore⟩ := hloop (NAlc.scanRounds poolLen) _ rfl
  refine ⟨hle, fun kind j hj => ?_⟩
  have hplace := h.exact.place_lt (Nat.lt_of_lt_of_le hj (h.used_le kind))
  exact hbefore _ (hplace.trans_le hrounds) (h.in_use kind j hj).1

/-- What opening the pool rebuilds. -/
structure Reopened (m : Headers) (start : Nat) (c : BlockCuts) (used : BlockKind → Nat) (e : Nat)
    (a : NAlc) : Prop where
  start_eq : a.startAddress = start
  end_eq : a.endAddress = blockAt start e
  end_le : e ≤ c.total
  below : ∀ kind j, j < used kind → c.place kind j < e
  entry : ∀ kind id, a.list kind id =
    if kind.shift ≤ id.toNat ∧ id.toNat - kind.shift < used kind
    then some (blockAt start (c.place kind (id.toNat - kind.shift))) else none
  page : ∀ kind, a.pageId kind = BitVec.ofNat 32 (used kind)
  decision : ∀ kind, (a.decisionId kind).toNat =
    if used kind = 0 then 0 else used kind - 1 + kind.shift

theorem reopen_spec (h : PoolImage m start c used) {poolLen : Nat}
    (hrounds : c.total ≤ NAlc.scanRounds poolLen) :
    Reopened m start c used (NAlc.usedEnd m start poolLen) (NAlc.reopen m start poolLen) := by
  let a₀ : NAlc :=
    { list := fun _ _ => none, pageId := fun _ => 0, decisionId := fun _ => 0,
      startAddress := start, endAddress := blockAt start (NAlc.usedEnd m start poolLen) }
  have hscan : ∃ seen, Scanned start c used a₀ (NAlc.scanRounds poolLen)
      (NAlc.reopen m start poolLen) seen := by
    apply Arrays.foldl_range_induction
      (fun i a => ∃ seen, Scanned start c used a₀ i a seen)
    · refine ⟨fun _ => 0, rfl, rfl, fun _ => Nat.zero_le _, fun kind j hj => ?_, ?_, fun _ => rfl,
        fun _ => rfl⟩
      · exact ⟨fun hlt => absurd hlt (Nat.not_lt_zero _), fun hlt => absurd hlt (Nat.not_lt_zero _)⟩
      · intro kind id
        rw [if_neg]
        exact fun hand => absurd hand.2 (Nat.not_lt_zero _)
    · rintro i a - ⟨seen, hs⟩
      exact hs.round h
  obtain ⟨seen, hs⟩ := hscan
  have hseen : seen = used := by
    funext kind
    rcases Nat.lt_or_eq_of_le (hs.seen_le kind) with hlt | heq
    · have hplace := h.exact.place_lt (Nat.lt_of_lt_of_le hlt (h.used_le kind))
      have := (hs.passed kind (seen kind) hlt).mp (hplace.trans_le hrounds)
      exact absurd this (Nat.lt_irrefl _)
    · exact heq
  subst hseen
  obtain ⟨hle, hbelow⟩ := h.usedEnd_spec hrounds
  exact ⟨hs.start_eq, hs.end_eq, hle, hbelow, hs.entry, hs.page, hs.decision⟩

end PoolImage

/-! ### The image that a run leaves -/

namespace Worker

variable {s : Worker} {c : BlockCuts}

def inUse (s : Worker) (c : BlockCuts) : BlockKind → Nat
  | .node =>
    if s.taken .node = 1 ∧ (s.mem (s.alc.header c .node 0)).bitmap = 0 then 0 else s.taken .node
  | .log => s.taken .log

theorem inUse_le_taken (s : Worker) (c : BlockCuts) (kind : BlockKind) :
    s.inUse c kind ≤ s.taken kind := by
  cases kind with
  | node =>
    rw [inUse]
    split
    · exact Nat.zero_le _
    · exact Nat.le_refl _
  | log => exact Nat.le_refl _

theorem Filled.node_bitmap (h : s.Filled c) {j : Nat} (hj : j < c.count .node) :
    (s.mem (s.alc.header c .node j)).bitmap ≠ 0 ↔ j < s.inUse c .node := by
  have hunused := ((h.marked .node j hj).node rfl).2.2
  by_cases hnone : s.taken .node = 1 ∧ (s.mem (s.alc.header c .node 0)).bitmap = 0
  · rw [inUse, if_pos hnone]
    refine ⟨fun hne => ?_, fun hlt => absurd hlt (Nat.not_lt_zero _)⟩
    rcases Nat.eq_zero_or_pos j with rfl | hpos
    · exact absurd hnone.2 hne
    · exact absurd (hunused (by omega)) hne
  · rw [inUse, if_neg hnone]
    constructor
    · exact fun hne => Nat.not_le.mp fun hle => hne (hunused hle)
    · intro hlt
      by_cases hone : 1 < s.taken .node
      · exact h.nodes_used hone j hlt
      · have htaken : s.taken .node = 1 := by omega
        have hjz : j = 0 := by omega
        subst hjz
        exact fun hz => hnone ⟨htaken, hz⟩

theorem Filled.poolImage (h : s.Filled c)
    (hblank : ∀ n, c.total ≤ n → (s.mem (blockAt s.alc.startAddress n)).bitmap = 0)
    (hsmall : c.total < 2 ^ 22) : PoolImage s.mem s.alc.startAddress c (s.inUse c) where
  exact := h.kept.listed.exact
  used_le kind := (s.inUse_le_taken c kind).trans (h.taken_le kind)
  unused kind j hle hj := by
    cases kind with
    | node =>
      by_contra hne
      exact absurd ((h.node_bitmap hj).mp hne) (Nat.not_lt.mpr hle)
    | log => exact (h.marked .log j hj).log_unused rfl hle
  blank := hblank
  in_use kind j hj := by
    have hcount : j < c.count kind :=
      Nat.lt_of_lt_of_le hj ((s.inUse_le_taken c kind).trans (h.taken_le kind))
    have hb := h.marked kind j hcount
    cases kind with
    | node => exact ⟨(h.node_bitmap hcount).mpr hj, hb.code, (hb.node rfl).1⟩
    | log =>
      obtain ⟨hmark, hid⟩ := hb.log_used rfl hj
      refine ⟨?_, hb.code, hid⟩
      change (s.mem (s.alc.header c .log j)).bitmap ≠ 0
      rw [hmark]
      decide
  data_at kind j hj := (h.marked kind j
    (Nat.lt_of_lt_of_le hj ((s.inUse_le_taken c kind).trans (h.taken_le kind)))).start
  node_fill j hj := ((h.marked .node j
    (Nat.lt_of_lt_of_le hj ((s.inUse_le_taken c .node).trans (h.taken_le .node)))).node rfl).2.1
  marked j hj := ((h.marked .log j (Nat.lt_of_lt_of_le hj (h.taken_le .log))).log_used rfl hj).1
  small := hsmall

/-- A region of a run that is not empty lies in a block that holds something. -/
theorem Filled.piece_inUse (h : s.Filled c) {taken : List ((BlockKind × Nat) × Region)}
    (hpacked : (s.shelf c).Packed taken) {p : (BlockKind × Nat) × Region} (hp : p ∈ taken)
    (hsize : 0 < p.2.size) :
    p.1.2 < s.inUse c p.1.1 ∧ p.2.Within ((s.shelf c).inUse p.1) := by
  obtain ⟨hlive, hwithin⟩ := hpacked.within p hp
  refine ⟨?_, hwithin⟩
  have hfill : 0 < (s.shelf c).fill p.1 := by
    obtain ⟨hbase, hlimit⟩ := hwithin
    simp only [Region.limit, Shelf.inUse] at hbase hlimit
    omega
  obtain ⟨⟨kind, j⟩, r⟩ := p
  cases kind with
  | node =>
    apply (h.node_bitmap hlive).mp
    intro hz
    simp only [shelf, hz] at hfill
    exact absurd hfill (by decide)
  | log =>
    simp only [shelf] at hfill
    change j < s.taken .log
    by_contra hge
    rw [if_neg (by omega), if_neg (by omega)] at hfill
    exact absurd hfill (Nat.lt_irrefl 0)

end Worker

/-! ### Requests after the pool has been opened

`Serving` says from where an opened pool serves: tree blocks from what is left of the last one or from new ones,
log blocks from new ones. `page_id` and `decision_id`, which the constructor does not set, begin at 0. -/

/-- The header is that of a block behind all blocks that were in use, and so are its data. -/
def NewBlock (start e : Nat) (m : Headers) (header : Nat) : Prop :=
  blockAt start e ≤ header ∧ blockAt start e ≤ (m header).startAddress

/-- The block has room behind its byte count that none of the old regions reaches into. -/
structure PartlyUsed (old : List Region) (m : Headers) (header : Nat) : Prop where
  code : (m header).blockType = BlockKind.node.code
  data_at : (m header).startAddress = header + baseMetaSize
  fill_le : (m header).bitmap.toNat ≤ dataSize
  free : ∀ p ∈ old, Region.Disjoint
    ⟨header + baseMetaSize + (m header).bitmap.toNat, dataSize - (m header).bitmap.toNat⟩ p

/-- The entries from `first` on: new blocks up to `pages`, nothing behind them. -/
structure FreshFrom (start e : Nat) (a : NAlc) (m : Headers) (kind : BlockKind)
    (first pages : Nat) : Prop where
  page : a.pageId kind = BitVec.ofNat 32 pages
  listed : ∀ id : BitVec 32, first ≤ id.toNat → id.toNat < pages →
    ∃ header, a.list kind id = some header ∧ NewBlock start e m header
  missing : ∀ id : BitVec 32, first ≤ id.toNat → pages ≤ id.toNat → a.list kind id = none

/-- What holds between two requests. `pages` counts the ids that have been given out, and
the pool ends at block `cut`. -/
structure Serving (start e : Nat) (old : List Region) (a : NAlc) (m : Headers)
    (pages : BlockKind → Nat) (cut : Nat) : Prop where
  end_eq : a.endAddress = blockAt start cut
  cut_ge : e ≤ cut
  pages_le : ∀ kind, pages kind ≤ cut
  node : a.list .node (a.decisionId .node) = none ∨
    ∃ header, a.list .node (a.decisionId .node) = some header ∧
      (NewBlock start e m header ∨ (header < blockAt start e ∧ PartlyUsed old m header)) ∧
      (a.decisionId .node).toNat < pages .node ∧
      FreshFrom start e a m .node ((a.decisionId .node).toNat + 1) (pages .node)

/-- The log directory after its first request, or before it when no segment was in use. -/
def LogReady (start e : Nat) (a : NAlc) (m : Headers) (pages : Nat) : Prop :=
  (a.decisionId .log).toNat < pages + 4 ∧
    FreshFrom start e a m .log (a.decisionId .log).toNat pages

/-- The log directory before its first request, when segments were in use: the counter
names the last of them. -/
structure LogPending (start e : Nat) (a : NAlc) (m : Headers) (last : Nat) (pages : Nat) : Prop where
  decision : (a.decisionId .log).toNat = pages
  named : a.list .log (a.decisionId .log) = some last
  last_lt : last < blockAt start e
  code : (m last).blockType = BlockKind.log.code
  data_at : (m last).startAddress = last + baseMetaSize
  mark : (m last).bitmap = LOG_MARK
  fresh : FreshFrom start e a m .log (pages + 1) pages

section Serve

variable {start e : Nat} {old : List Region} {a a' : NAlc} {m m' : Headers}
  {pages : BlockKind → Nat} {cut : Nat} {kind : BlockKind}

theorem NewBlock.update {header h : Nat} (hn : NewBlock start e m header) {b : BaseMeta}
    (hb : b.startAddress = (m h).startAddress) : NewBlock start e (Function.update m h b) header := by
  refine ⟨hn.1, ?_⟩
  by_cases heq : header = h
  · subst heq
    rw [Function.update_self, hb]
    exact hn.2
  · rw [Function.update_of_ne heq]
    exact hn.2

theorem FreshFrom.update {first n h : Nat} (hf : FreshFrom start e a m kind first n) {b : BaseMeta}
    (hb : b.startAddress = (m h).startAddress) :
    FreshFrom start e a (Function.update m h b) kind first n :=
  { hf with
    listed := fun id hfirst hn => by
      obtain ⟨header, hlist, hnew⟩ := hf.listed id hfirst hn
      exact ⟨header, hlist, hnew.update hb⟩ }

theorem FreshFrom.mono {first first' n : Nat} (hf : FreshFrom start e a m kind first n)
    (hle : first ≤ first') : FreshFrom start e a m kind first' n where
  page := hf.page
  listed id hid := hf.listed id (hle.trans hid)
  missing id hid := hf.missing id (hle.trans hid)

/-- `a'` has cut `n` more blocks of a kind, all of them behind block `e`. -/
structure CutMore (start e : Nat) (a : NAlc) (m : Headers) (kind : BlockKind) (n : Nat) (a' : NAlc)
    (m' : Headers) : Prop where
  end_eq : ∀ {cut}, a.endAddress = blockAt start cut → a'.endAddress = blockAt start (cut + n)
  decision : a'.decisionId = a.decisionId
  list_of_ne : ∀ kind', kind' ≠ kind → a'.list kind' = a.list kind'
  page_of_ne : ∀ kind', kind' ≠ kind → a'.pageId kind' = a.pageId kind'
  below : ∀ h, h < blockAt start e → m' h = m h
  newBlock : ∀ h, NewBlock start e m h → NewBlock start e m' h
  fresh : ∀ {first k}, k + n ≤ 2 ^ 32 → FreshFrom start e a m kind first k →
    FreshFrom start e a' m' kind first (k + n)

theorem CutMore.one (hend : ∃ cut, e ≤ cut ∧ a.endAddress = blockAt start cut) :
    CutMore start e a m kind 1 (a.cutChunk m kind).1 (a.cutChunk m kind).2 := by
  obtain ⟨cut, hcut, heq⟩ := hend
  have hge : blockAt start e ≤ a.endAddress := by
    rw [heq]
    exact blockAt_le_iff.mpr hcut
  have hmem : (a.cutChunk m kind).2 = Function.update m a.endAddress (a.newChunk kind) := rfl
  -- new blocks stay new, and the one that has just been cut is new as well
  have hnew : ∀ h, NewBlock start e m h → NewBlock start e (a.cutChunk m kind).2 h := by
    rintro h ⟨hle, hdata⟩
    refine ⟨hle, ?_⟩
    rw [hmem]
    by_cases hh : h = a.endAddress
    · rw [hh, Function.update_self]
      exact hge.trans (Nat.le_add_right _ _)
    · rwa [Function.update_of_ne hh]
  refine ⟨fun {cut'} heq' => ?_, rfl, fun kind' hk => ?_, fun kind' hk => ?_, fun h hlt => ?_, hnew,
    fun {first k} hroom hf => ?_⟩
  · rw [blockAt_succ, ← heq']
    rfl
  · exact NAlc.setEntry_list_of_ne a kind kind' _ _ hk
  · exact Function.update_of_ne hk _ _
  · rw [hmem, Function.update_of_ne]
    exact fun hh => absurd (hh ▸ hlt) (Nat.not_lt.mpr hge)
  · have hpage : (a.pageId kind).toNat = k := by
      rw [hf.page, BitVec.toNat_ofNat, Nat.mod_eq_of_lt (by omega)]
    have hlist : ∀ id, (a.cutChunk m kind).1.list kind id =
        if id = a.pageId kind then some a.endAddress else a.list kind id :=
      fun id => NAlc.setEntry_list_self a kind (a.pageId kind) (some a.endAddress) id
    refine ⟨?_, fun id hfirst hk => ?_, fun id hfirst hk => ?_⟩
    · change Function.update a.pageId kind (a.pageId kind + 1) kind = _
      rw [Function.update_self, hf.page]
      exact (BitVec.ofNat_add k 1).symm
    · rw [hlist]
      by_cases hid : id = a.pageId kind
      · rw [if_pos hid]
        refine ⟨a.endAddress, rfl, hge, ?_⟩
        rw [hmem, Function.update_self]
        exact hge.trans (Nat.le_add_right _ _)
      · have hne : id.toNat ≠ k := fun h => hid (BitVec.eq_of_toNat_eq (h.trans hpage.symm))
        obtain ⟨header, hsome, hblock⟩ := hf.listed id hfirst (by omega)
        rw [if_neg hid]
        exact ⟨header, hsome, hnew header hblock⟩
    · have hne : id ≠ a.pageId kind := by
        intro h
        rw [h, hpage] at hk
        omega
      rw [hlist, if_neg hne]
      exact hf.missing id hfirst (by omega)

theorem CutMore.trans {a'' : NAlc} {m'' : Headers} {n n' : Nat}
    (h : CutMore start e a m kind n a' m') (h' : CutMore start e a' m' kind n' a'' m'') :
    CutMore start e a m kind (n + n') a'' m'' where
  end_eq heq := by
    rw [h'.end_eq (h.end_eq heq), Nat.add_assoc]
  decision := h'.decision.trans h.decision
  list_of_ne kind' hk := (h'.list_of_ne kind' hk).trans (h.list_of_ne kind' hk)
  page_of_ne kind' hk := (h'.page_of_ne kind' hk).trans (h.page_of_ne kind' hk)
  below x hx := (h'.below x hx).trans (h.below x hx)
  newBlock x hx := h'.newBlock x (h.newBlock x hx)
  fresh {first k} hroom hf := by
    rw [← Nat.add_assoc]
    exact h'.fresh (by omega) (h.fresh (by omega) hf)

theorem CutMore.many (n : Nat) (hend : ∃ cut, e ≤ cut ∧ a.endAddress = blockAt start cut) :
    CutMore start e a m kind n (NAlc.getMoreChunk n a m kind).1 (NAlc.getMoreChunk n a m kind).2 := by
  induction n generalizing a m with
  | zero => exact ⟨id, rfl, fun _ _ => rfl, fun _ _ => rfl, fun _ _ => rfl, fun _ => id, fun _ => id⟩
  | succ n ih =>
    have hfirst : CutMore start e a m kind 1 (a.cutChunk m kind).1 (a.cutChunk m kind).2 :=
      CutMore.one hend
    obtain ⟨cut, hcut, heq⟩ := hend
    have hrest := ih (a := (a.cutChunk m kind).1) (m := (a.cutChunk m kind).2)
      ⟨cut + 1, Nat.le_succ_of_le hcut, hfirst.end_eq heq⟩
    have hboth := hfirst.trans hrest
    rwa [Nat.add_comm 1 n] at hboth

theorem FreshFrom.getFreeBlock {first n : Nat} (hf : FreshFrom start e a m kind first n)
    (hfirst : first ≤ (a.decisionId kind).toNat) (hlt : (a.decisionId kind).toNat < n + 4)
    (hroom : n + 4 ≤ 2 ^ 32) (hend : ∃ cut, e ≤ cut ∧ a.endAddress = blockAt start cut) :
    ∃ header a' m' k, a.getFreeBlock m kind = (some header, a', m') ∧
      CutMore start e a m kind k a' m' ∧ (k = 0 ∨ k = 4) ∧ NewBlock start e m' header ∧
      a'.list kind (a.decisionId kind) = some header ∧
      (a.decisionId kind).toNat < n + k ∧ FreshFrom start e a' m' kind first (n + k) := by
  by_cases hin : (a.decisionId kind).toNat < n
  · obtain ⟨header, hsome, hnew⟩ := hf.listed _ hfirst hin
    refine ⟨header, a, m, 0, ?_, CutMore.many 0 hend, Or.inl rfl, hnew, hsome, hin, hf⟩
    rw [NAlc.getFreeBlock, hsome]
  · have hnone := hf.missing _ hfirst (Nat.le_of_not_lt hin)
    have hmore : CutMore start e a m kind 4 (NAlc.getMoreChunk 4 a m kind).1
        (NAlc.getMoreChunk 4 a m kind).2 := CutMore.many 4 hend
    have hfresh := hmore.fresh hroom hf
    obtain ⟨header, hsome, hnew⟩ := hfresh.listed (a.decisionId kind) hfirst hlt
    refine ⟨header, _, _, 4, ?_, hmore, Or.inr rfl, hnew, hsome, hlt, hfresh⟩
    simp only [NAlc.getFreeBlock, hnone, hmore.decision, hsome]

theorem FreshFrom.congr {first n : Nat} (hf : FreshFrom start e a m kind first n)
    (hlist : a'.list kind = a.list kind) (hpage : a'.pageId kind = a.pageId kind)
    (hnew : ∀ h, NewBlock start e m h → NewBlock start e m' h) :
    FreshFrom start e a' m' kind first n where
  page := hpage.trans hf.page
  listed id hfirst hn := by
    obtain ⟨header, hsome, hblock⟩ := hf.listed id hfirst hn
    exact ⟨header, hlist ▸ hsome, hnew header hblock⟩
  missing id hfirst hn := hlist ▸ hf.missing id hfirst hn

theorem PartlyUsed.congr {header : Nat} (h : PartlyUsed old m header)
    (heq : m' header = m header) : PartlyUsed old m' header := by
  refine ⟨?_, ?_, ?_, ?_⟩
  · rw [heq, h.code]
  · rw [heq, h.data_at]
  · rw [heq]
    exact h.fill_le
  · rw [heq]
    exact h.free

theorem disjoint_of_new (hold : ∀ p ∈ old, p.limit ≤ blockAt start e) {base size : Nat}
    (hbase : blockAt start e ≤ base) : ∀ p ∈ old, Region.Disjoint ⟨base, size⟩ p :=
  fun p hp => Or.inr ((hold p hp).trans hbase)

/-- What a request for one kind does that the other kind can see. -/
structure Served (start e : Nat) (old : List Region) (a : NAlc) (m : Headers) (kind : BlockKind)
    (r : Region) (a' : NAlc) (m' : Headers) : Prop where
  disjoint : ∀ p ∈ old, r.Disjoint p
  list_of_ne : ∀ kind', kind' ≠ kind → a'.list kind' = a.list kind'
  page_of_ne : ∀ kind', kind' ≠ kind → a'.pageId kind' = a.pageId kind'
  decision_of_ne : ∀ kind', kind' ≠ kind → a'.decisionId kind' = a.decisionId kind'
  newBlock : ∀ x, NewBlock start e m x → NewBlock start e m' x
  below : ∀ x, x < blockAt start e → (m x).blockType ≠ kind.code → m' x = m x

/-- A piece of the block that is partly used, and what is then left of it. -/
theorem PartlyUsed.take {header : Nat} {sz : BitVec 32} (h : PartlyUsed old m header)
    (hsz : sz.toNat ≤ dataSize) (hroom : ¬ NAlc.lacksRoom (m header) sz) :
    (∀ p ∈ old, Region.Disjoint
      ⟨(m header).startAddress + (m header).bitmap.toNat, sz.toNat⟩ p) ∧
    PartlyUsed old (Function.update m header
      { m header with bitmap := (m header).bitmap + sz }) header := by
  have hsum := Worker.bitmap_add h.fill_le hsz
  have hle : ((m header).bitmap + sz).toNat ≤ dataSize := Nat.not_lt.mp hroom
  have hfree := h.free
  have hdata := h.data_at
  constructor
  · intro p hp
    refine (hfree p hp).mono ⟨?_, ?_⟩ (Region.Within.refl p)
    · rw [hdata]
    · simp only [Region.limit, hdata]
      omega
  · refine ⟨?_, ?_, ?_, ?_⟩
    · rw [Function.update_self]
      exact h.code
    · rw [Function.update_self]
      exact hdata
    · rw [Function.update_self]
      exact hle
    · rw [Function.update_self]
      intro p hp
      refine (hfree p hp).mono ⟨?_, ?_⟩ (Region.Within.refl p)
      · simp only [hsum]
        omega
      · simp only [Region.limit, hsum]
        omega

/-- The node directory serves a request: from the block in use, or from a new one. -/
theorem Serving.node_request (h : Serving start e old a m pages cut)
    (hold : ∀ p ∈ old, p.limit ≤ blockAt start e) (hcut : cut + 4 ≤ 2 ^ 32) {sz : BitVec 32}
    (hsz : sz.toNat ≤ dataSize) {address : Nat}
    (heval : a.nAllocateTree m sz = some (address, a', m')) :
    Served start e old a m .node ⟨address, sz.toNat⟩ a' m' ∧
      ∃ pages' cut', Serving start e old a' m' pages' cut' ∧ pages' .log = pages .log := by
  rcases h.node with hnone | ⟨header, hlist, hblock, hlt, hfresh⟩
  · rw [NAlc.nAllocateTree, hnone] at heval
    simp at heval
  by_cases hroom : NAlc.lacksRoom (m header) sz
  · have hdec : ((a.nextDecision .node).decisionId .node).toNat = (a.decisionId .node).toNat + 1 := by
      have hone : (1 : BitVec 32).toNat = 1 := rfl
      have := h.pages_le .node
      rw [NAlc.nextDecision_decisionId_self, BitVec.toNat_add, hone, Nat.mod_eq_of_lt (by omega)]
    have hfresh' : FreshFrom start e (a.nextDecision .node) m .node
        ((a.decisionId .node).toNat + 1) (pages .node) := hfresh.congr rfl rfl fun _ => id
    have hpages := h.pages_le .node
    -- the block in use is full: the next one is new, so no old region is in it
    obtain ⟨free, a₁, m₁, k, hfree, hmore, hk, hnew, hlist', hlt', hfresh₁⟩ :=
      hfresh'.getFreeBlock (by omega) (by omega) (by omega) ⟨cut, h.cut_ge, h.end_eq⟩
    rw [NAlc.nAllocateTree_of_full hlist hroom hfree] at heval
    simp only [Option.some.injEq, Prod.mk.injEq] at heval
    obtain ⟨rfl, rfl, rfl⟩ := heval
    set b : BaseMeta := { m₁ free with
      blockType := BlockKind.node.code, bitmap := (m₁ free).bitmap + sz } with hb
    have hstart : b.startAddress = (m₁ free).startAddress := rfl
    have hdecision : a₁.decisionId .node = (a.nextDecision .node).decisionId .node := by
      rw [hmore.decision]
    constructor
    · refine ⟨disjoint_of_new hold (hnew.2.trans (Nat.le_add_right _ _)), hmore.list_of_ne,
        hmore.page_of_ne, fun kind' hk' => ?_, fun x hx => (hmore.newBlock x hx).update hstart,
        fun x hx _ => ?_⟩
      · rw [hmore.decision, NAlc.nextDecision_decisionId_of_ne _ _ _ hk']
      · rw [Function.update_of_ne, hmore.below x hx]
        rintro rfl
        exact absurd hnew.1 (Nat.not_le.mpr hx)
    · refine ⟨Function.update pages .node (pages .node + k), cut + k, ⟨hmore.end_eq h.end_eq,
        h.cut_ge.trans (Nat.le_add_right _ _), fun kind' => ?_, Or.inr ⟨free, ?_, ?_, ?_, ?_⟩⟩, ?_⟩
      · by_cases hk' : kind' = .node
        · subst hk'
          rw [Function.update_self]
          omega
        · rw [Function.update_of_ne hk']
          exact (h.pages_le kind').trans (Nat.le_add_right _ _)
      · rw [hdecision]
        exact hlist'
      · exact Or.inl (hnew.update hstart)
      · rw [hdecision, Function.update_self]
        exact hlt'
      · rw [hdecision, hdec, Function.update_self]
        exact (hfresh₁.mono (Nat.le_succ _)).update hstart
      · exact Function.update_of_ne (by decide) _ _
  · rw [NAlc.nAllocateTree_of_room hlist hroom] at heval
    simp only [Option.some.injEq, Prod.mk.injEq] at heval
    obtain ⟨rfl, rfl, rfl⟩ := heval
    set b : BaseMeta := { m header with bitmap := (m header).bitmap + sz } with hb
    have hstart : b.startAddress = (m header).startAddress := rfl
    -- a piece of the block in use, which lies behind what has been given out of it
    have hnext : (∀ p ∈ old, Region.Disjoint
        ⟨(m header).startAddress + (m header).bitmap.toNat, sz.toNat⟩ p) ∧
        (NewBlock start e (Function.update m header b) header ∨
          header < blockAt start e ∧ PartlyUsed old (Function.update m header b) header) := by
      rcases hblock with hnew | ⟨hlow, hpart⟩
      · exact ⟨disjoint_of_new hold (hnew.2.trans (Nat.le_add_right _ _)),
          Or.inl (hnew.update hstart)⟩
      · obtain ⟨hdisjoint, hleft⟩ := hpart.take hsz hroom
        exact ⟨hdisjoint, Or.inr ⟨hlow, hleft⟩⟩
    constructor
    · refine ⟨hnext.1, fun _ _ => rfl, fun _ _ => rfl, fun _ _ => rfl,
        fun x hx => hx.update hstart, fun x hx hcode => ?_⟩
      rw [Function.update_of_ne]
      rintro rfl
      rcases hblock with hnew | ⟨-, hpart⟩
      · exact absurd hnew.1 (Nat.not_le.mpr hx)
      · exact hcode hpart.code
    · exact ⟨pages, cut, { h with
        node := Or.inr ⟨header, hlist, hnext.2, hlt, hfresh.update hstart⟩ }, rfl⟩

/-- The node directory after a request for the log. -/
theorem Serving.of_log_request {r : Region} {k : Nat} {pages' : BlockKind → Nat}
    (h : Serving start e old a m pages cut) (hserved : Served start e old a m .log r a' m')
    (hend : a'.endAddress = blockAt start (cut + k)) (hnode : pages' .node = pages .node)
    (hlog : pages' .log ≤ cut + k) : Serving start e old a' m' pages' (cut + k) := by
  have hlist : a'.list .node = a.list .node := hserved.list_of_ne .node (by decide)
  have hpage : a'.pageId .node = a.pageId .node := hserved.page_of_ne .node (by decide)
  have hdecision : a'.decisionId .node = a.decisionId .node :=
    hserved.decision_of_ne .node (by decide)
  refine ⟨hend, h.cut_ge.trans (Nat.le_add_right _ _), fun kind => ?_, ?_⟩
  · cases kind with
    | node =>
      rw [hnode]
      exact (h.pages_le .node).trans (Nat.le_add_right _ _)
    | log => exact hlog
  · rw [hlist, hdecision, hnode]
    rcases h.node with hnone | ⟨header, hsome, hblock, hlt, hfresh⟩
    · exact Or.inl hnone
    · refine Or.inr ⟨header, hsome, ?_, hlt, hfresh.congr hlist hpage hserved.newBlock⟩
      rcases hblock with hnew | ⟨hlow, hpart⟩
      · exact Or.inl (hserved.newBlock header hnew)
      · refine Or.inr ⟨hlow, hpart.congr (hserved.below header hlow ?_)⟩
        rw [hpart.code]
        decide

/-- The log directory serves a request from a new block. -/
theorem Serving.log_request (h : Serving start e old a m pages cut)
    (hlog : LogReady start e a m (pages .log)) (hold : ∀ p ∈ old, p.limit ≤ blockAt start e)
    (hcut : cut + 5 ≤ 2 ^ 32) {sz : BitVec 32} {address : Nat}
    (heval : a.nAllocateLog m sz = some (address, a', m')) :
    (∀ p ∈ old, Region.Disjoint ⟨address, sz.toNat⟩ p) ∧
      ∃ pages' cut', Serving start e old a' m' pages' cut' ∧ LogReady start e a' m' (pages' .log) := by
  obtain ⟨hlt, hfresh⟩ := hlog
  have hpages := h.pages_le .log
  obtain ⟨free, a₁, m₁, k, hfree, hmore, hk, hnew, hlist', hlt', hfresh₁⟩ :=
    hfresh.getFreeBlock (Nat.le_refl _) hlt (by omega) ⟨cut, h.cut_ge, h.end_eq⟩
  rw [NAlc.nAllocateLog_of_found hfree] at heval
  simp only [Option.some.injEq, Prod.mk.injEq] at heval
  obtain ⟨rfl, rfl, rfl⟩ := heval
  set b : BaseMeta := { m₁ free with
    blockType := BlockKind.log.code
    blockId := ((a₁.nextDecision .log).decisionId .log).setWidth 30, bitmap := LOG_MARK } with hb
  have hstart : b.startAddress = (m₁ free).startAddress := rfl
  have hdec : ((a₁.nextDecision .log).decisionId .log).toNat = (a.decisionId .log).toNat + 1 := by
    have hone : (1 : BitVec 32).toNat = 1 := rfl
    rw [NAlc.nextDecision_decisionId_self, hmore.decision, BitVec.toNat_add, hone,
      Nat.mod_eq_of_lt (by omega)]
  have hdisjoint : ∀ p ∈ old,
      Region.Disjoint ⟨(m₁ free).startAddress + (m₁ free).bitmap.toNat, sz.toNat⟩ p :=
    disjoint_of_new hold (hnew.2.trans (Nat.le_add_right _ (m₁ free).bitmap.toNat))
  have hserved : Served start e old a m .log
      ⟨(m₁ free).startAddress + (m₁ free).bitmap.toNat, sz.toNat⟩ (a₁.nextDecision .log)
      (Function.update m₁ free b) := by
    refine ⟨hdisjoint, hmore.list_of_ne, hmore.page_of_ne, fun kind' hk' => ?_,
      fun x hx => (hmore.newBlock x hx).update hstart, fun x hx _ => ?_⟩
    · rw [NAlc.nextDecision_decisionId_of_ne _ _ _ hk', hmore.decision]
    · rw [Function.update_of_ne, hmore.below x hx]
      rintro rfl
      exact absurd hnew.1 (Nat.not_le.mpr hx)
  refine ⟨hdisjoint, Function.update pages .log (pages .log + k), cut + k, ?_, ?_, ?_⟩
  · refine h.of_log_request hserved (hmore.end_eq h.end_eq)
      (Function.update_of_ne (by decide) _ _) ?_
    rw [Function.update_self]
    omega
  · rw [hdec, Function.update_self]
    omega
  · rw [hdec, Function.update_self]
    have hfresh₂ := (hfresh₁.mono (Nat.le_succ _)).update (b := b) (h := free) hstart
    exact hfresh₂.congr rfl rfl fun _ => id

/-- The first request for the log when segments were in use: the last of them is handed out
again, from byte 114514 on. -/
theorem Serving.pending_request (h : Serving start e old a m pages cut) {last : Nat}
    (hlog : LogPending start e a m last (pages .log)) (hcut : cut + 5 ≤ 2 ^ 32) {sz : BitVec 32}
    (hdisjoint : ∀ p ∈ old,
      Region.Disjoint ⟨last + baseMetaSize + LOG_MARK.toNat, sz.toNat⟩ p)
    {address : Nat} (heval : a.nAllocateLog m sz = some (address, a', m')) :
    (∀ p ∈ old, Region.Disjoint ⟨address, sz.toNat⟩ p) ∧
      ∃ pages' cut', Serving start e old a' m' pages' cut' ∧ LogReady start e a' m' (pages' .log) := by
  have hpages := h.pages_le .log
  have hfree : a.getFreeBlock m .log = (some last, a, m) := by
    rw [NAlc.getFreeBlock, hlog.named]
  rw [NAlc.nAllocateLog_of_found hfree] at heval
  simp only [Option.some.injEq, Prod.mk.injEq] at heval
  obtain ⟨rfl, rfl, rfl⟩ := heval
  set b : BaseMeta := { m last with
    blockType := BlockKind.log.code
    blockId := ((a.nextDecision .log).decisionId .log).setWidth 30, bitmap := LOG_MARK } with hb
  have hstart : b.startAddress = (m last).startAddress := rfl
  have hdec : ((a.nextDecision .log).decisionId .log).toNat = pages .log + 1 := by
    have hone : (1 : BitVec 32).toNat = 1 := rfl
    have := hlog.decision
    rw [NAlc.nextDecision_decisionId_self, BitVec.toNat_add, hone, Nat.mod_eq_of_lt (by omega), this]
  have hdisjoint' : ∀ p ∈ old, Region.Disjoint
      ⟨(m last).startAddress + (m last).bitmap.toNat, sz.toNat⟩ p := by
    rw [hlog.data_at, hlog.mark]
    exact hdisjoint
  have hserved : Served start e old a m .log
      ⟨(m last).startAddress + (m last).bitmap.toNat, sz.toNat⟩ (a.nextDecision .log)
      (Function.update m last b) := by
    refine ⟨hdisjoint', fun _ _ => rfl, fun _ _ => rfl, fun kind' hk' => ?_,
      fun x hx => hx.update hstart, fun x _ hcode => ?_⟩
    · exact NAlc.nextDecision_decisionId_of_ne _ _ _ hk'
    · rw [Function.update_of_ne]
      rintro rfl
      exact hcode hlog.code
  refine ⟨hdisjoint', pages, cut + 0, h.of_log_request hserved h.end_eq rfl hpages, ?_, ?_⟩
  · rw [hdec]
    omega
  · rw [hdec]
    exact (hlog.fresh.update hstart).congr rfl rfl fun _ => id

end Serve

/-- The requests are served from memory that no old region reaches into. -/
theorem serveAll_disjoint {start e limit : Nat} {old : List Region}
    (hold : ∀ p ∈ old, p.limit ≤ blockAt start e) (hlimit : limit ≤ 2 ^ 48) {later : List AllocRequest}
    (hfits : ∀ r ∈ later, r.Fits) {a : NAlc} {m : Headers} {pages : BlockKind → Nat} {cut : Nat}
    (h : Serving start e old a m pages cut) (hend : a.endAddress ≤ limit)
    (hlog : LogReady start e a m (pages .log) ∨ ∃ last, LogPending start e a m last (pages .log) ∧
      ∀ r, later.find? (fun r => r.kind = .log) = some r → ∀ p ∈ old,
        Region.Disjoint ⟨last + baseMetaSize + LOG_MARK.toNat, r.sz.toNat⟩ p) :
    ∀ r ∈ serveAll limit a m later, ∀ p ∈ old, r.Disjoint p := by
  induction later generalizing a m pages cut with
  | nil => exact fun r hr => absurd hr (by simp [serveAll])
  | cons req rest ih =>
    have hrest : ∀ r ∈ rest, r.Fits := fun r hr => hfits r (List.mem_cons_of_mem _ hr)
    have hcut : cut + 5 ≤ 2 ^ 32 := by
      have hle := h.end_eq ▸ hend
      simp only [blockAt, CHUNK_SIZE] at hle
      omega
    cases hserve : req.serve a m with
    | none => exact fun r hr => absurd hr (by simp [serveAll, hserve])
    | some out =>
      obtain ⟨address, a', m'⟩ := out
      intro r hr p hp
      rw [serveAll] at hr
      simp only [hserve] at hr
      by_cases hover : limit < a'.endAddress
      · rw [if_pos hover] at hr
        simp at hr
      rw [if_neg hover] at hr
      have hend' : a'.endAddress ≤ limit := Nat.le_of_not_lt hover
      have hsz := (hfits req List.mem_cons_self).2
      obtain ⟨kind, sz⟩ := req
      cases kind with
      | node =>
        obtain ⟨hserved, pages', cut', h', hpages⟩ :=
          h.node_request hold (Nat.le_of_succ_le hcut) hsz hserve
        rcases List.mem_cons.mp hr with rfl | hr
        · exact hserved.disjoint p hp
        · refine ih hrest h' hend' ?_ r hr p hp
          have hlist := hserved.list_of_ne .log (by decide)
          have hpage := hserved.page_of_ne .log (by decide)
          have hdec := hserved.decision_of_ne .log (by decide)
          rw [hpages]
          -- the log is ready, or the last block of the run is still to be handed out again
          rcases hlog with ⟨hlt, hfresh⟩ | ⟨last, hpending, hfirst⟩
          · left
            refine ⟨hdec ▸ hlt, ?_⟩
            rw [hdec]
            exact hfresh.congr hlist hpage hserved.newBlock
          · right
            have hsame : m' last = m last := hserved.below last hpending.last_lt (by
              rw [hpending.code]
              decide)
            refine ⟨last, ⟨hdec ▸ hpending.decision, ?_, hpending.last_lt, ?_, ?_, ?_,
              hpending.fresh.congr hlist hpage hserved.newBlock⟩, ?_⟩
            · rw [hdec, hlist]
              exact hpending.named
            · rw [hsame, hpending.code]
            · rw [hsame, hpending.data_at]
            · rw [hsame, hpending.mark]
            · intro r' hr'
              apply hfirst
              rw [List.find?_cons_of_neg (by simp)]
              exact hr'
      | log =>
        -- the first log block after the restart may be the one that was in use at the crash
        have hnext : (∀ p ∈ old, Region.Disjoint ⟨address, sz.toNat⟩ p) ∧
            ∃ pages' cut', Serving start e old a' m' pages' cut' ∧
              LogReady start e a' m' (pages' .log) := by
          rcases hlog with hready | ⟨last, hpending, hfirst⟩
          · exact h.log_request hready hold hcut hserve
          · refine h.pending_request hpending hcut ?_ hserve
            exact hfirst ⟨.log, sz⟩ (List.find?_cons_of_pos (by simp))
        obtain ⟨hdisjoint, pages', cut', h', hready⟩ := hnext
        rcases List.mem_cons.mp hr with rfl | hr
        · exact hdisjoint p hp
        · exact ih hrest h' hend' (Or.inl hready) r hr p hp

/-! ### Old regions and new ones -/

/-- Each region lies in the part that is in use of a block that holds something. -/
def Placed (m : Headers) (start : Nat) (c : BlockCuts) (used : BlockKind → Nat)
    (fill : BlockKind → Nat → Nat) (old : List Region) : Prop :=
  ∀ p ∈ old, ∃ kind j, j < used kind ∧ fill kind j ≤ dataSize ∧
    (kind = .node → fill kind j = (m (blockAt start (c.place kind j))).bitmap.toNat) ∧
    p.Within ⟨blockAt start (c.place kind j) + baseMetaSize, fill kind j⟩

namespace PoolImage

variable {m : Headers} {start : Nat} {c : BlockCuts} {used : BlockKind → Nat} {e : Nat} {a : NAlc}
  {fill : BlockKind → Nat → Nat} {old : List Region}

theorem old_below (hreopened : Reopened m start c used e a) (hplaced : Placed m start c used fill old) :
    ∀ p ∈ old, p.limit ≤ blockAt start e := by
  intro p hp
  obtain ⟨kind, j, hj, hfill, -, -, hlimit⟩ := hplaced p hp
  have hbelow := hreopened.below kind j hj
  simp only [Region.limit, blockAt, dataSize, baseMetaSize, CHUNK_SIZE] at *
  omega

theorem node_directory (h : PoolImage m start c used) (hreopened : Reopened m start c used e a)
    (hplaced : Placed m start c used fill old) :
    a.list .node (a.decisionId .node) = none ∨
    ∃ header, a.list .node (a.decisionId .node) = some header ∧
      (NewBlock start e m header ∨ (header < blockAt start e ∧ PartlyUsed old m header)) ∧
      (a.decisionId .node).toNat < used .node ∧
      FreshFrom start e a m .node ((a.decisionId .node).toNat + 1) (used .node) := by
  have hshift : BlockKind.node.shift = 0 := rfl
  have hdec := hreopened.decision .node
  have hentry := hreopened.entry .node
  simp only [hshift, Nat.zero_le, Nat.sub_zero, Nat.add_zero, true_and] at hdec hentry
  by_cases hz : used .node = 0
  · left
    rw [hentry, if_neg]
    omega
  · right
    rw [if_neg hz] at hdec
    have hlast : used .node - 1 < used .node := by omega
    obtain ⟨-, hcode, -⟩ := h.in_use .node _ hlast
    refine ⟨blockAt start (c.place .node (used .node - 1)), ?_, Or.inr ⟨?_, hcode,
      h.data_at .node _ hlast, h.node_fill _ hlast, ?_⟩, by omega, hreopened.page .node, ?_, ?_⟩
    · rw [hentry, hdec, if_pos hlast]
    · exact blockAt_lt_iff.mpr (hreopened.below .node _ hlast)
    · intro p hp
      obtain ⟨kind, j, hj, hfill, hnode, hwithin⟩ := hplaced p hp
      by_cases hsame : kind = .node ∧ j = used .node - 1
      · obtain ⟨rfl, rfl⟩ := hsame
        rw [hnode rfl] at hwithin
        exact Or.inr hwithin.2
      · have hplace : c.place .node (used .node - 1) ≠ c.place kind j := by
          intro heq
          have hboth := h.exact.place_inj (Nat.lt_of_lt_of_le hlast (h.used_le .node))
            (Nat.lt_of_lt_of_le hj (h.used_le kind)) heq
          exact hsame ⟨hboth.1.symm, hboth.2.symm⟩
        have hfree : (m (blockAt start (c.place .node (used .node - 1)))).bitmap.toNat ≤ dataSize :=
          h.node_fill _ hlast
        refine (Worker.blocks_disjoint start hplace).mono ⟨?_, ?_⟩
          (hwithin.trans ⟨?_, ?_⟩)
        all_goals simp only [Region.limit, dataSize, baseMetaSize, CHUNK_SIZE] at *; omega
    · intro id hfirst hlt
      omega
    · intro id hfirst hge
      rw [hentry, if_neg (by omega)]

/-- The log directory: ready when no segment was in use, else naming the last one. -/
theorem log_directory (h : PoolImage m start c used) (hreopened : Reopened m start c used e a) :
    (used .log = 0 → LogReady start e a m (used .log)) ∧
    (0 < used .log →
      LogPending start e a m (blockAt start (c.place .log (used .log - 1))) (used .log)) := by
  have hshift : BlockKind.log.shift = 1 := rfl
  have hdec := hreopened.decision .log
  have hentry := hreopened.entry .log
  simp only [hshift] at hdec hentry
  constructor
  · intro hz
    rw [if_pos hz] at hdec
    refine ⟨by omega, hreopened.page .log, fun id _ hlt => ?_, fun id _ _ => ?_⟩
    · omega
    · rw [hentry, if_neg (by omega)]
  · intro hpos
    have hlast : used .log - 1 < used .log := by omega
    rw [if_neg (by omega)] at hdec
    obtain ⟨-, hcode, -⟩ := h.in_use .log _ hlast
    refine ⟨by omega, ?_, blockAt_lt_iff.mpr (hreopened.below .log _ hlast), hcode,
      h.data_at .log _ hlast, h.marked _ hlast, hreopened.page .log, fun id hfirst hlt => ?_,
      fun id hfirst _ => ?_⟩
    · have hid : (a.decisionId .log).toNat - 1 = used .log - 1 := by omega
      rw [hentry, hid, if_pos (by omega)]
    · omega
    · rw [hentry, if_neg (by omega)]

end PoolImage

namespace Worker

variable {s : Worker} {c : BlockCuts}

/-- The last segment has no record behind byte 114514, and `sz` bytes from there on end before
the data of the next block or meet no tree node in it. -/
def SpareRoom (s : Worker) (sz : BitVec 32) : Prop :=
  s.seg.tempOffset ≤ LOG_MARK.toNat ∧
    (LOG_MARK.toNat + sz.toNat ≤ CHUNK_SIZE ∨
      (s.mem (s.seg.logVec - baseMetaSize + CHUNK_SIZE)).bitmap = 0)

/-- There was no segment, or the first request for a segment after the recovery finds room
in the last one. -/
def RecoversSafely (s : Worker) (later : List AllocRequest) : Prop :=
  s.seg.logVec = 0 ∨
    ∀ r, later.find? (fun r => r.kind = .log) = some r → s.SpareRoom r.sz

theorem Filled.placed (h : s.Filled c) {taken : List ((BlockKind × Nat) × Region)}
    (hpacked : (s.shelf c).Packed taken) (hsizes : ∀ p ∈ taken, 0 < p.2.size) :
    Placed s.mem s.alc.startAddress c (s.inUse c) (fun kind j => (s.shelf c).fill (kind, j))
      (taken.map Prod.snd) := by
  intro r hr
  obtain ⟨p, hp, rfl⟩ := List.mem_map.mp hr
  obtain ⟨hused, hwithin⟩ := h.piece_inUse hpacked hp (hsizes p hp)
  have hlive := (hpacked.within p hp).1
  refine ⟨p.1.1, p.1.2, hused, h.sound.fill_le hlive, fun hk => ?_, hwithin⟩
  obtain ⟨⟨kind, j⟩, r⟩ := p
  dsimp only at hk
  subst hk
  rfl

/-- A segment that is handed out again where there is spare room meets no old region. -/
theorem Filled.spare_disjoint (h : s.Filled c) (himage : PoolImage s.mem s.alc.startAddress c (s.inUse c))
    {old : List Region}
    (hplaced : Placed s.mem s.alc.startAddress c (s.inUse c)
      (fun kind j => (s.shelf c).fill (kind, j)) old)
    (hpos : 0 < s.taken .log) {sz : BitVec 32} (hsz : sz.toNat ≤ dataSize) (hspare : s.SpareRoom sz) :
    ∀ p ∈ old, Region.Disjoint ⟨blockAt s.alc.startAddress (c.place .log (s.taken .log - 1)) +
      baseMetaSize + LOG_MARK.toNat, sz.toNat⟩ p := by
  intro p hp
  obtain ⟨kind, j, hj, hfill, -, hwithin⟩ := hplaced p hp
  dsimp only at hfill hwithin
  obtain ⟨hoffset, hbehind⟩ := hspare
  have hlast : s.taken .log - 1 < c.count .log := by
    have := h.taken_le .log
    omega
  have hmark : LOG_MARK.toNat = 114514 := by decide
  by_cases hsame : kind = .log ∧ j = s.taken .log - 1
  · obtain ⟨rfl, rfl⟩ := hsame
    have hsucc : s.taken .log - 1 + 1 = s.taken .log := Nat.sub_add_cancel hpos
    have hcurrent : (s.shelf c).fill (.log, s.taken .log - 1) = s.seg.tempOffset := by
      simp only [shelf, hsucc, Nat.lt_irrefl, if_false, if_true]
    rw [hcurrent] at hwithin
    refine Or.inr (hwithin.2.trans ?_)
    simp only [Region.limit]
    omega
  · have hplace : c.place kind j ≠ c.place .log (s.taken .log - 1) := by
      intro heq
      have hboth := himage.exact.place_inj (Nat.lt_of_lt_of_le hj (himage.used_le kind)) hlast heq
      exact hsame hboth
    have hnext : c.place kind j = c.place .log (s.taken .log - 1) + 1 →
        LOG_MARK.toNat + sz.toNat ≤ CHUNK_SIZE := by
      intro heq
      rcases hbehind with hle | hzero
      · exact hle
      · have hheader : s.seg.logVec - baseMetaSize + CHUNK_SIZE =
            blockAt s.alc.startAddress (c.place kind j) := by
          rw [(h.seg_at hpos).1, Nat.add_sub_cancel, heq, blockAt_succ]
          rfl
        rw [hheader] at hzero
        exact absurd hzero (himage.in_use kind j hj).1
    obtain ⟨hbase, hlimit⟩ := hwithin
    simp only [Region.Disjoint, Region.limit, blockAt, dataSize, baseMetaSize, CHUNK_SIZE] at *
    omega

end Worker

/-- What a run that fits in its pool leaves: an image with the regions of the run in it. -/
theorem Worker.run_image (address poolLen : Nat) (hmap : address + poolLen ≤ 2 ^ 48)
    {ops : List WorkerCall} (hfits : ∀ op ∈ ops, op.Fits) {pieces : List (BlockKind × Region)}
    {s : Worker} (hrun : (Worker.start address fun _ => BaseMeta.zero).run ops = some (pieces, s))
    (hpool : s.alc.endAddress ≤ address + poolLen) :
    ∃ c, s.Filled c ∧ s.alc.startAddress = address ∧
      PoolImage s.mem s.alc.startAddress c (s.inUse c) ∧ c.total ≤ NAlc.scanRounds poolLen ∧
      Placed s.mem s.alc.startAddress c (s.inUse c) (fun kind j => (s.shelf c).fill (kind, j))
        (pieces.map Prod.snd) := by
  have hstart := Worker.start_filled address fun _ => BaseMeta.zero
  have haddress : (Worker.start address fun _ => BaseMeta.zero).alc.startAddress = address :=
    NAlc.init_startAddress address fun _ => BaseMeta.zero
  obtain ⟨pieces', s', c', hrun', hreturned⟩ := Worker.run_returns hstart.kept ops
  obtain ⟨rfl, rfl⟩ : pieces' = pieces ∧ s' = s := by
    have heq := hrun'.symm.trans hrun
    rw [Option.some.injEq, Prod.mk.injEq] at heq
    exact heq
  have hbase : s'.alc.startAddress = address := hreturned.start.trans haddress
  -- the pool is too small for a counter to wrap
  have hfit : 1024 + c'.total * CHUNK_SIZE ≤ poolLen := by
    have hend := hreturned.kept.listed.end_eq ▸ hpool
    rw [hbase] at hend
    simp only [blockAt] at hend
    omega
  have htotal : c'.total < 2 ^ 22 := by
    simp only [CHUNK_SIZE] at hfit
    omega
  have hsmall : s'.alc.endAddress < blockAt s'.alc.startAddress (2 ^ 32) := by
    rw [hreturned.kept.listed.end_eq, blockAt_lt_iff]
    omega
  obtain ⟨c, new, hfilled, hwithin, hpacked, rfl⟩ := hstart.run hfits hrun
    (hstart.taken_small hfits hrun hsmall) (Shelf.Packed.nil _)
  rw [List.append_nil] at hpacked
  have hsame : c.total = c'.total :=
    blockAt_injective (hfilled.kept.listed.end_eq.symm.trans hreturned.kept.listed.end_eq)
  -- headers behind the last block are as the pool was created, zero
  have hblank : ∀ n, c.total ≤ n → (s'.mem (blockAt s'.alc.startAddress n)).bitmap = 0 := by
    intro n hn
    have hbeyond := hwithin.beyond n hn
    rw [haddress] at hbeyond
    have hfirst := NAlc.init_beyond address (fun _ => BaseMeta.zero)
      (hwithin.cuts.total_le.trans hn)
    rw [hbase, hbeyond]
    change ((NAlc.init address fun _ => BaseMeta.zero).2 (blockAt address n)).bitmap = 0
    rw [hfirst]
    rfl
  have hsizes : ∀ p ∈ new, 0 < p.2.size := fun p hp =>
    Worker.run_sizes hfits hrun (p.1.1, p.2) (List.mem_map.mpr ⟨p, hp, rfl⟩)
  refine ⟨c, hfilled, hbase, hfilled.poolImage hblank (by omega), ?_, ?_⟩
  · rw [hsame, NAlc.scanRounds, Nat.le_div_iff_mul_le (by decide)]
    omega
  · rw [List.map_map]
    exact hfilled.placed hpacked hsizes

/-- Take any run of one allocator that fits in its pool, open the pool again, and serve any
requests. If there was no segment at the crash, or the last one has spare room for the first
request for a segment, then no region that is served meets a tree node or a log record from
before. -/
theorem recovered_requests_fresh (address poolLen : Nat) (hmap : address + poolLen ≤ 2 ^ 48)
    (ops : List WorkerCall) (hfits : ∀ op ∈ ops, op.Fits)
    {pieces : List (BlockKind × Region)} {s : Worker}
    (hrun : (Worker.start address fun _ => BaseMeta.zero).run ops = some (pieces, s))
    (hpool : s.alc.endAddress ≤ address + poolLen) (later : List AllocRequest)
    (hlater : ∀ r ∈ later, r.Fits) (hsafe : s.RecoversSafely later) :
    ∀ r ∈ serveAll (address + poolLen) (NAlc.reopen s.mem address poolLen) s.mem later,
      ∀ p ∈ pieces, r.Disjoint p.2 := by
  obtain ⟨c, hfilled, hbase, himage, hrounds, hplaced⟩ :=
    Worker.run_image address poolLen hmap hfits hrun hpool
  have hreopened := himage.reopen_spec hrounds
  have hbelow := PoolImage.old_below hreopened hplaced
  have hspare := hfilled.spare_disjoint himage hplaced
  rw [hbase] at himage hreopened hplaced hbelow hspare
  set e := NAlc.usedEnd s.mem address poolLen with he
  -- no id in use is as large as the number of blocks
  have hpages : ∀ kind, s.inUse c kind ≤ e := by
    intro kind
    rcases Nat.eq_zero_or_pos (s.inUse c kind) with hz | hpos
    · omega
    · have hlast : s.inUse c kind - 1 < s.inUse c kind := by omega
      have hplace := himage.exact.place_ge (Nat.lt_of_lt_of_le hlast (himage.used_le kind))
      have := hreopened.below kind _ hlast
      omega
  have hserving : Serving address e (pieces.map Prod.snd) (NAlc.reopen s.mem address poolLen) s.mem
      (s.inUse c) e :=
    ⟨hreopened.end_eq, Nat.le_refl _, hpages, himage.node_directory hreopened hplaced⟩
  have hend : (NAlc.reopen s.mem address poolLen).endAddress ≤ address + poolLen := by
    have htotal := hfilled.kept.listed.end_eq ▸ hpool
    rw [hbase] at htotal
    rw [hreopened.end_eq]
    exact (blockAt_le_iff.mpr hreopened.end_le).trans htotal
  obtain ⟨hready, hpending⟩ := himage.log_directory hreopened
  -- with no segment at the crash the directory is ready, else its last block comes once more
  have hlog : LogReady address e (NAlc.reopen s.mem address poolLen) s.mem (s.inUse c .log) ∨
      ∃ last, LogPending address e (NAlc.reopen s.mem address poolLen) s.mem last (s.inUse c .log) ∧
        ∀ r, later.find? (fun r => r.kind = .log) = some r → ∀ p ∈ pieces.map Prod.snd,
          Region.Disjoint ⟨last + baseMetaSize + LOG_MARK.toNat, r.sz.toNat⟩ p := by
    rcases Nat.eq_zero_or_pos (s.taken .log) with hz | hpos
    · exact Or.inl (hready hz)
    · refine Or.inr ⟨_, hpending hpos, fun r hr => ?_⟩
      have hsz := (hlater r (List.mem_of_find?_eq_some hr)).2
      rcases hsafe with hnone | hroom
      · have hvec := (hfilled.seg_at hpos).1
        rw [hnone] at hvec
        exact absurd hvec.symm (Nat.succ_ne_zero _)
      · exact hspare hpos hsz (hroom r hr)
  intro r hr p hp
  exact serveAll_disjoint hbelow hmap hlater hserving hend hlog r hr p.2
    (List.mem_map.mpr ⟨p, hp, rfl⟩)

/-- A tree node and two records before the crash, a segment and a tree node after it. -/
theorem recovered_requests_fresh_two :
    ∃ pieces s, (Worker.start 0x50000000 fun _ => BaseMeta.zero).run
        [.tree 32, .append 8, .append 8] = some (pieces, s) ∧
      ∀ r ∈ serveAll (0x50000000 + 2 ^ 31) (NAlc.reopen s.mem 0x50000000 (2 ^ 31)) s.mem
        [⟨.log, segmentSize⟩, ⟨.node, 32⟩], ∀ p ∈ pieces, r.Disjoint p.2 := by
  obtain ⟨pieces, s, -, hrun, -⟩ := Worker.run_returns
    (Worker.start_filled 0x50000000 fun _ => BaseMeta.zero).kept [.tree 32, .append 8, .append 8]
  have hstate : ((Worker.start 0x50000000 fun _ => BaseMeta.zero).run
      [.tree 32, .append 8, .append 8]).map (fun r => (r.2.alc.endAddress, r.2.seg.tempOffset,
        (r.2.mem (r.2.seg.logVec - baseMetaSize + CHUNK_SIZE)).bitmap)) =
          some (0x70000400, 64, 0) := by
    decide +kernel
  rw [hrun, Option.map_some, Option.some.injEq, Prod.mk.injEq, Prod.mk.injEq] at hstate
  obtain ⟨hend, hoffset, hnext⟩ := hstate
  refine ⟨pieces, s, hrun, ?_⟩
  apply recovered_requests_fresh 0x50000000 (2 ^ 31) (by decide) _ (by decide) hrun
  · rw [hend]
    decide
  · simp only [List.forall_mem_cons, AllocRequest.Fits]
    decide
  · refine Or.inr fun r _ => ⟨?_, Or.inr hnext⟩
    rw [hoffset]
    decide

/-- 3579 records fill the first segment past byte 114514. After the recovery the next segment
is this one again, from byte 114514 on, in the middle of the last record. -/
theorem recovered_segment_overlaps :
    ∃ pieces s, (Worker.start 0x50000000 fun _ => BaseMeta.zero).run
        (List.replicate 3579 (.append 8)) = some (pieces, s) ∧
      s.alc.endAddress ≤ 0x50000000 + 2 ^ 31 ∧
      ∃ r ∈ serveAll (0x50000000 + 2 ^ 31) (NAlc.reopen s.mem 0x50000000 (2 ^ 31)) s.mem
        [⟨.log, segmentSize⟩], ∃ p ∈ pieces, ¬ r.Disjoint p.2 := by
  have hfirst : ((Worker.start 0x50000000 fun _ => BaseMeta.zero).call (.append 8)).map
      (fun r => (r.2.alc.endAddress, r.2.seg.tempOffset, r.2.seg.logVec, r.2.seg.vecStart,
        serveAll (0x50000000 + 2 ^ 31) (NAlc.reopen r.2.mem 0x50000000 (2 ^ 31)) r.2.mem
          [⟨.log, segmentSize⟩])) =
      some (0x70000400, 32, 0x60000440, 0x60000460, [⟨0x60000440 + 114514, 67108736⟩]) := by
    decide +kernel
  rw [Option.map_eq_some_iff] at hfirst
  obtain ⟨⟨piece, s₁⟩, hcall, hvalue⟩ := hfirst
  simp only [Prod.mk.injEq] at hvalue
  obtain ⟨hend, hoffset, hvec, hnext, hserved⟩ := hvalue
  obtain ⟨pieces, hrun, hmem⟩ := s₁.run_appends 8 (by rw [hvec]; decide) 3578
    (by rw [hoffset]; decide)
  obtain ⟨s, hall, halc, hmemory⟩ : ∃ s, (Worker.start 0x50000000 fun _ => BaseMeta.zero).run
      (List.replicate 3579 (.append 8)) = some (pieces ++ [piece], s) ∧
      s.alc = s₁.alc ∧ s.mem = s₁.mem := by
    rw [List.replicate_succ, Worker.run, hcall]
    simp only [Option.bind_eq_bind, Option.bind_some, hrun, Option.pure_def]
    exact ⟨_, rfl, rfl, rfl⟩
  refine ⟨_, s, hall, by rw [halc, hend]; decide, ?_⟩
  rw [hmemory, hserved]
  have hlast := hmem 3577 (by decide)
  rw [hnext] at hlast
  exact ⟨_, List.mem_singleton_self _, _, List.mem_append_left _ hlast, by decide⟩

end ZBTree
