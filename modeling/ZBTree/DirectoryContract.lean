import ZBTree.Directory

/-!
# When the block directory stays consistent

Runs of `n_allocate` and `n_free` on one allocator. Without a free the directory lists
every block under one id, and a block is always found. The first free of a run breaks
this: it erases the entry of another block, or lists its own block a second time.
-/

namespace ZBTree

/-- An allocator with its pool. `handedOut` is kept for the account only: the log blocks that
have been handed out and not freed since. -/
structure Pool where
  alc : NAlc
  mem : Headers
  handedOut : List Nat

inductive AllocCall where
  | tree (sz : BitVec 32)
  | log (sz : BitVec 32)
  | free (ptr : Nat)
deriving DecidableEq, Repr

namespace Pool

def start (address : Nat) (m : Headers) : Pool :=
  ⟨(NAlc.init address m).1, (NAlc.init address m).2, []⟩

/-- One call; `none` is a null pointer that is followed. -/
def call (s : Pool) : AllocCall → Option Pool
  | .tree sz => do
    let (_, a, m) ← s.alc.nAllocateTree s.mem sz
    return { s with alc := a, mem := m }
  | .log sz => do
    let header ← (s.alc.getFreeBlock s.mem .log).1
    let (_, a, m) ← s.alc.nAllocateLog s.mem sz
    return ⟨a, m, header :: s.handedOut⟩
  | .free ptr =>
    let (a, m) := s.alc.nFree s.mem ptr
    some ⟨a, m, s.handedOut.filter (· ≠ s.alc.freeAddress ptr)⟩

/-- A pointer that is freed lies in a log block that is handed out, and the header that
`n_free` computes is the one of that block. -/
def Legal (s : Pool) : AllocCall → Prop
  | .free ptr => ∃ header ∈ s.handedOut, header ≤ ptr ∧ ptr < header + CHUNK_SIZE ∧
      s.alc.freeAddress ptr = header
  | _ => True

def LegalRun : Pool → List AllocCall → Prop
  | _, [] => True
  | s, c :: cs => s.Legal c ∧ ∀ s', s.call c = some s' → s'.LegalRun cs

structure Consistent (s : Pool) : Prop where
  /-- No block is listed under two ids. -/
  single : ∀ kind kind' i j header, s.alc.list kind i = some header →
    s.alc.list kind' j = some header → kind = kind' ∧ i = j
  /-- Every block that has been cut is listed. -/
  listed : ∀ n, blockAt s.alc.startAddress n < s.alc.endAddress →
    ∃ kind i, s.alc.list kind i = some (blockAt s.alc.startAddress n)
  /-- `get_free_block` finds a block, from where `n_allocate` calls it. -/
  log_found : (s.alc.getFreeBlock s.mem .log).1 ≠ none
  node_found : ((s.alc.nextDecision .node).getFreeBlock s.mem .node).1 ≠ none

/-- A free takes no entry away but those of the freed block. -/
def ErasesOwn (s : Pool) : AllocCall → Prop
  | .free ptr => ∀ kind i header, s.alc.list kind i = some header →
      (s.alc.nFree s.mem ptr).1.list kind i ≠ some header → header = s.alc.freeAddress ptr
  | _ => True

/-- Along the run every state is consistent, every free takes only its own entries away, and
no null pointer is followed. -/
def KeepsDirectory : Pool → List AllocCall → Prop
  | s, [] => s.Consistent
  | s, c :: cs => s.Consistent ∧ s.ErasesOwn c ∧ ∃ s', s.call c = some s' ∧ s'.KeepsDirectory cs

theorem KeepsDirectory.consistent {s : Pool} {cs : List AllocCall} (h : s.KeepsDirectory cs) :
    s.Consistent := by
  cases cs with
  | nil => exact h
  | cons c cs => exact h.1

/-- What holds of a pool that nothing has been freed in: the header of a log block that is
handed out has the id after the one it is listed under. -/
structure Unfreed (s : Pool) (c : BlockCuts) : Prop where
  kept : s.alc.Kept c
  handed : ∀ header ∈ s.handedOut, ∃ j, j < c.count .log ∧ header = s.alc.header c .log j ∧
    (s.mem header).blockId = BitVec.ofNat 30 (j + 1)

variable {s s' : Pool} {c : BlockCuts}

theorem start_unfreed (address : Nat) (m : Headers) :
    (start address m).Unfreed NAlc.firstCuts where
  kept := NAlc.init_kept address m
  handed header hmem := by simp [start] at hmem

theorem Unfreed.consistent (h : s.Unfreed c) : s.Consistent where
  single kind kind' i j header hi hj := by
    rw [h.kept.listed.entry] at hi hj
    obtain ⟨hi, hi'⟩ := Option.ite_none_right_eq_some.mp hi
    obtain ⟨hj, hj'⟩ := Option.ite_none_right_eq_some.mp hj
    have heq : s.alc.header c kind i.toNat = s.alc.header c kind' j.toNat :=
      (Option.some.inj hi').trans (Option.some.inj hj').symm
    obtain ⟨hkind, hid⟩ := NAlc.header_injective h.kept.listed.exact hi hj heq
    exact ⟨hkind, BitVec.eq_of_toNat_eq hid⟩
  listed n hn := by
    rw [h.kept.listed.end_eq, blockAt_lt_iff] at hn
    obtain ⟨kind, j, hj, rfl⟩ := h.kept.listed.exact.place_onto hn
    exact ⟨kind, BitVec.ofNat 32 j, h.kept.listed.entry_ofNat hj⟩
  log_found := by
    obtain ⟨c', a', m', heval, -⟩ :=
      h.kept.listed.getFreeBlock s.mem (h.kept.four .log) h.kept.log_decided
    simp [heval]
  node_found := by
    obtain ⟨c', a', m', heval, -⟩ :=
      (h.kept.listed.nextDecision .node).getFreeBlock s.mem (h.kept.four .node)
        h.kept.node_decided_next
    simp [heval]

theorem Unfreed.handed_of_grown {a a' : NAlc} {m' : Headers} {c' : BlockCuts} {kind : BlockKind}
    (h : s.Unfreed c) (hstart : a.startAddress = s.alc.startAddress)
    (hgrown : a.Grown s.mem c kind a' m' c') (header : Nat) (hmem : header ∈ s.handedOut) :
    ∃ j, j < c'.count .log ∧ header = a'.header c' .log j ∧
      (m' header).blockId = BitVec.ofNat 30 (j + 1) := by
  obtain ⟨j, hj, rfl, hid⟩ := h.handed header hmem
  have hplace : c.place .log j < c.total := h.kept.listed.exact.place_lt hj
  have hkept := hgrown.fresh.old_header _ hplace
  rw [hstart] at hkept
  refine ⟨j, Nat.lt_of_lt_of_le hj (hgrown.extends_cuts.count_le _), ?_, ?_⟩
  · rw [NAlc.header, NAlc.header, hgrown.start, hstart, hgrown.extends_cuts.place_eq hj]
  · rw [NAlc.header, hkept]
    exact hid

theorem blockId_update {m : Headers} {free : Nat} {b : BaseMeta}
    (hb : b.blockId = (m free).blockId) (header : Nat) :
    (Function.update m free b header).blockId = (m header).blockId := by
  by_cases heq : header = free
  · rw [heq, Function.update_self, hb]
  · rw [Function.update_of_ne heq]

theorem call_tree (s : Pool) (sz : BitVec 32) : s.call (.tree sz) =
    (s.alc.nAllocateTree s.mem sz).map fun r => ⟨r.2.1, r.2.2, s.handedOut⟩ := by
  rw [call]
  cases s.alc.nAllocateTree s.mem sz <;> rfl

theorem Unfreed.tree (h : s.Unfreed c) (sz : BitVec 32) :
    ∃ s' c', s.call (.tree sz) = some s' ∧ s'.Unfreed c' := by
  rw [call_tree]
  by_cases hroom : NAlc.lacksRoom (s.mem (s.alc.header c .node (s.alc.decisionId .node).toNat)) sz
  · obtain ⟨c', a', m', hgrown, hfour, hlt, heval⟩ := h.kept.nAllocateTree_moves hroom
    rw [heval]
    refine ⟨_, c', rfl, h.kept.of_grown_node hgrown hfour hlt, ?_⟩
    intro header hmem
    obtain ⟨j, hj, hheader, hid⟩ :=
      h.handed_of_grown (a := s.alc.nextDecision .node) rfl hgrown header hmem
    refine ⟨j, hj, hheader, ?_⟩
    rw [← hid]
    apply blockId_update
    rfl
  · rw [h.kept.nAllocateTree_fits hroom]
    refine ⟨_, c, rfl, h.kept, ?_⟩
    intro header hmem
    obtain ⟨j, hj, hheader, hid⟩ := h.handed header hmem
    refine ⟨j, hj, hheader, ?_⟩
    rw [← hid]
    apply blockId_update
    rfl

theorem Unfreed.log (h : s.Unfreed c) (sz : BitVec 32) :
    ∃ s' c', s.call (.log sz) = some s' ∧ s'.Unfreed c' := by
  obtain ⟨c', a', m', hgrown, hfour, hlt, hfound, heval⟩ := h.kept.nAllocateLog s.mem sz
  have hstart : ∀ j, a'.header c' .log j = s.alc.header c' .log j := by
    intro j
    rw [NAlc.header, NAlc.header, hgrown.start]
  have hcall : s.call (.log sz) = (s.alc.nAllocateLog s.mem sz).map fun r =>
      ⟨r.2.1, r.2.2, s.alc.header c' .log (s.alc.decisionId .log).toNat :: s.handedOut⟩ := by
    rw [call, hfound]
    cases s.alc.nAllocateLog s.mem sz <;> rfl
  rw [hcall, heval]
  refine ⟨_, c', rfl, h.kept.of_grown_log hgrown hfour hlt, ?_⟩
  intro header hmem
  by_cases heq : header = s.alc.header c' .log (s.alc.decisionId .log).toNat
  · subst heq
    refine ⟨_, hlt, (hstart _).symm, ?_⟩
    dsimp only
    rw [Function.update_self]
    exact NAlc.handed_id _
  · obtain ⟨j, hj, hheader, hid⟩ := h.handed_of_grown (a := s.alc) rfl hgrown header
      (List.mem_of_ne_of_mem heq hmem)
    refine ⟨j, hj, hheader, ?_⟩
    dsimp only
    rw [Function.update_of_ne heq]
    exact hid

/-- Where nothing has been freed yet, a free takes an entry of another block away or leaves
its own block listed twice. -/
theorem Unfreed.free_breaks (h : s.Unfreed c) {ptr : Nat} (hlegal : s.Legal (.free ptr))
    (howns : s.ErasesOwn (.free ptr)) (hsome : s.call (.free ptr) = some s') :
    ¬ s'.Consistent := by
  obtain ⟨header, hmem, -, -, hfree⟩ := hlegal
  obtain ⟨j, hj, hheader, hid⟩ := h.handed header hmem
  have hlt : j < 2 ^ 32 := Nat.lt_of_lt_of_le hj (h.kept.listed.count_le .log)
  have hjNat : (BitVec.ofNat 32 j).toNat = j := by
    rw [BitVec.toNat_ofNat, Nat.mod_eq_of_lt hlt]
  have hentry : s.alc.list .log (BitVec.ofNat 32 j) = some header := by
    rw [h.kept.listed.entry_ofNat hj, hheader]
  -- the erased id and the new one
  have herased : (BitVec.ofNat 30 (j + 1)).setWidth 32 ≠ BitVec.ofNat 32 j := by
    intro heq
    have hnat := congrArg BitVec.toNat heq
    rw [hjNat, BitVec.toNat_setWidth, BitVec.toNat_ofNat] at hnat
    omega
  -- after `n_free` the block is listed under its new id, and nothing under the id in its header
  have hafter : ∀ i, (s.alc.nFree s.mem ptr).1.list .log i =
      if i = s.alc.pageId .log then some header
      else if i = (BitVec.ofNat 30 (j + 1)).setWidth 32 then none
      else s.alc.list .log i := by
    intro i
    simp only [NAlc.nFree, hfree, hid, NAlc.nextPage_list, NAlc.setEntry_list_self,
      NAlc.setEntry_pageId]
  rw [call, Option.some.injEq] at hsome
  intro hcons
  by_cases hfull : c.count .log = 2 ^ 32
  · -- every id is in use, so that of another block is erased
    let other : BitVec 32 := (BitVec.ofNat 30 (j + 1)).setWidth 32
    have hother : s.alc.list .log other = some (s.alc.header c .log other.toNat) := by
      apply h.kept.listed.entry_of_lt
      rw [hfull]
      exact other.isLt
    have hne : s.alc.header c .log other.toNat ≠ header := by
      intro heq
      have hsame := NAlc.header_injective h.kept.listed.exact
        (by rw [hfull]; exact other.isLt) hj (heq.trans hheader)
      exact herased (BitVec.eq_of_toNat_eq (hsame.2.trans hjNat.symm))
    apply hne
    rw [← hfree]
    apply howns .log other _ hother
    rw [hafter]
    by_cases hpage : other = s.alc.pageId .log
    · rw [if_pos hpage]
      exact fun heq => hne (Option.some.inj heq).symm
    · rw [if_neg hpage, if_pos rfl]
      exact Option.some_ne_none _ |>.symm
  · -- the new id is another one, and the old entry stays
    have hpage : BitVec.ofNat 32 j ≠ s.alc.pageId .log := by
      intro heq
      have hcount : c.count .log < 2 ^ 32 :=
        Nat.lt_of_le_of_ne (h.kept.listed.count_le .log) hfull
      have hnat := congrArg BitVec.toNat heq
      rw [hjNat, h.kept.listed.page, BitVec.toNat_ofNat, Nat.mod_eq_of_lt hcount] at hnat
      omega
    have hlist : s'.alc.list = (s.alc.nFree s.mem ptr).1.list := by rw [← hsome]
    have hold : s'.alc.list .log (BitVec.ofNat 32 j) = some header := by
      rw [hlist, hafter, if_neg hpage, if_neg herased.symm, hentry]
    have hnew : s'.alc.list .log (s.alc.pageId .log) = some header := by
      rw [hlist, hafter, if_pos rfl]
    exact hpage (hcons.single .log .log _ _ header hold hnew).2

/-- The directory stays consistent in exactly the runs that free nothing. -/
theorem Unfreed.keepsDirectory_iff (h : s.Unfreed c) {calls : List AllocCall}
    (hlegal : s.LegalRun calls) :
    s.KeepsDirectory calls ↔ ∀ ptr, AllocCall.free ptr ∉ calls := by
  induction calls generalizing s c with
  | nil => exact ⟨fun _ _ hmem => by simp at hmem, fun _ => h.consistent⟩
  | cons op rest ih =>
    have hstep : ∀ s' c', s.call op = some s' → s'.Unfreed c' → s.ErasesOwn op →
        (∀ ptr, op ≠ .free ptr) →
        (s.KeepsDirectory (op :: rest) ↔ ∀ ptr, AllocCall.free ptr ∉ op :: rest) := by
      intro s' c' hcall hunfreed hown hop
      have hrest := ih hunfreed (hlegal.2 s' hcall)
      constructor
      · rintro ⟨-, -, s'', hcall', hkeeps⟩ ptr hmem
        rw [hcall, Option.some.injEq] at hcall'
        subst hcall'
        rcases List.mem_cons.mp hmem with heq | hmem
        · exact hop ptr heq.symm
        · exact hrest.mp hkeeps ptr hmem
      · intro hnone
        exact ⟨h.consistent, hown, s', hcall,
          hrest.mpr fun ptr hmem => hnone ptr (List.mem_cons_of_mem _ hmem)⟩
    cases op with
    | tree sz =>
      obtain ⟨s', c', hcall, hunfreed⟩ := h.tree sz
      exact hstep s' c' hcall hunfreed trivial (fun _ => by simp)
    | log sz =>
      obtain ⟨s', c', hcall, hunfreed⟩ := h.log sz
      exact hstep s' c' hcall hunfreed trivial (fun _ => by simp)
    | free ptr =>
      constructor
      · rintro ⟨-, howns, s', hcall, hkeeps⟩
        exact absurd hkeeps.consistent (h.free_breaks hlegal.1 howns hcall)
      · exact fun hnone => absurd List.mem_cons_self (hnone ptr)

end Pool

/-- In every run of one allocator from its `init` on, the directory lists no block twice, no
free takes an entry of another block away, every block that was cut stays listed and
`get_free_block` finds a block, if and only if the run frees nothing. -/
theorem directory_consistent_iff (address : Nat) (m : Headers) (calls : List AllocCall)
    (hlegal : (Pool.start address m).LegalRun calls) :
    (Pool.start address m).KeepsDirectory calls ↔ ∀ ptr, AllocCall.free ptr ∉ calls :=
  (Pool.start_unfreed address m).keepsDirectory_iff hlegal

/-- The first pool of the process, after one segment and one tree node. -/
theorem directory_consistent_two :
    (Pool.start 0x50000000 fun _ => BaseMeta.zero).KeepsDirectory [.log segmentSize, .tree 32] := by
  have hlegal : (Pool.start 0x50000000 fun _ => BaseMeta.zero).LegalRun
      [.log segmentSize, .tree 32] := by
    simp only [Pool.LegalRun, Pool.Legal, true_and, implies_true]
  exact (directory_consistent_iff _ _ _ hlegal).mpr fun ptr hmem => by simp at hmem

/-- One segment is handed out and freed again, as the removal of its first record does: its
block is then listed under 0 and under 4. -/
theorem directory_inconsistent_after_free :
    (Pool.start 0x50000000 fun _ => BaseMeta.zero).LegalRun
        [.log segmentSize, .free 0x60000410] ∧
      ¬ (Pool.start 0x50000000 fun _ => BaseMeta.zero).KeepsDirectory
        [.log segmentSize, .free 0x60000410] := by
  have hfirst : ((Pool.start 0x50000000 fun _ => BaseMeta.zero).call (.log segmentSize)).map
      (fun s => (s.handedOut, s.alc.freeAddress 0x60000410)) =
        some ([0x60000400], 0x60000400) := by
    decide +kernel
  have hlegal : (Pool.start 0x50000000 fun _ => BaseMeta.zero).LegalRun
      [.log segmentSize, .free 0x60000410] := by
    refine ⟨trivial, fun s hs => ⟨?_, fun _ _ => trivial⟩⟩
    rw [hs, Option.map_some, Option.some.injEq, Prod.mk.injEq] at hfirst
    refine ⟨0x60000400, ?_, by decide, by decide, hfirst.2⟩
    rw [hfirst.1]
    exact List.mem_singleton_self _
  refine ⟨hlegal, fun hkeeps => ?_⟩
  apply ((Pool.start_unfreed _ _).keepsDirectory_iff hlegal).mp hkeeps 0x60000410
  simp

end ZBTree
