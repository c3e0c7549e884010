import ZBTree.BlockReuse
import ZBTree.RecordSlots

/-!
# Where the records of live keys are

The runs of one thread on a new pool. The records of the slots in use are cells of log blocks, and
the segment being filled ends where the next cell begins. A removal clears four bytes 48 bytes before
its own record, so that it hits the low half of the key of the record two cells before. It also
gives the whole block back, and from then on the block can be handed out while records of other keys
are in it.
-/

namespace ZBTree

open Pmem

/-- A `Log_Node` that `append_one` can write into a log block: they follow one another from the
beginning of its data. -/
structure NAlc.NodeIn (a : NAlc) (m : Headers) (header node : Nat) : Prop where
  cut : a.Cut m .log header
  place : ∃ i, node = header + baseMetaSize + logNodeSize * i
  fits : node + logNodeSize ≤ header + CHUNK_SIZE

/-- The segment is that of a block and has `i` records. -/
structure DSeg.At (seg : DSeg) (header i : Nat) : Prop where
  logVec : seg.logVec = header + baseMetaSize
  vecStart : seg.vecStart = header + baseMetaSize + logNodeSize * i
  tempOffset : seg.tempOffset = logNodeSize * i
  room : logNodeSize * i ≤ DSeg.logEnd

theorem DSeg.At.next {seg : DSeg} {header i : Nat} (h : seg.At header i)
    (hroom : logNodeSize * i + logNodeSize ≤ DSeg.logEnd) :
    ({ seg with vecStart := seg.vecStart + logNodeSize, tempOffset := seg.tempOffset + logNodeSize } :
      DSeg).At header (i + 1) where
  logVec := h.logVec
  vecStart := by rw [h.vecStart, Nat.mul_succ, Nat.add_assoc]
  tempOffset := by rw [h.tempOffset, Nat.mul_succ]
  room := by rwa [Nat.mul_succ]

namespace Nvm

variable {p p' : Nvm} {t : Tid} {a : NAlc}

/-- The pool of a thread and the segment that it fills. -/
structure Laid (p : Nvm) (t : Tid) (a : NAlc) : Prop where
  manager : p.managers t = some a
  start : a.startAddress = mmapStart
  indexed : a.Indexed p.mem
  mapped : mmapStart + p.poolLen * p.globalId ≤ 2 ^ 48
  segment : (p.workers t).logVec ≠ 0 → ∃ header i, a.Cut p.mem .log header ∧ (p.workers t).At header i

theorem Laid.moves {a' : NAlc} (h : p.Laid t a) (hmanager : p'.managers t = some a')
    (hmoves : a.Moves p.mem a' p'.mem) (hlen : p'.poolLen = p.poolLen) (hid : p'.globalId = p.globalId)
    (hworkers : p'.workers = p.workers) : p'.Laid t a' where
  manager := hmanager
  start := hmoves.start.trans h.start
  indexed := hmoves.indexed
  mapped := by rw [hlen, hid]; exact h.mapped
  segment hseg := by
    rw [hworkers] at hseg ⊢
    obtain ⟨header, i, hcut, hat⟩ := h.segment hseg
    exact ⟨header, i, hmoves.log_cut header hcut, hat⟩

/-- What calls of the allocator for `P_Leaf`s leave behind. -/
structure Called (p p' : Nvm) (a a' : NAlc) : Prop where
  moves : a.Moves p.mem a' p'.mem
  comes : a.ComesFrom p.mem a'
  pageId : a'.pageId .log = a.pageId .log
  bytes : p'.bytes = p.bytes
  workers : p'.workers = p.workers

theorem Laid.nodeCalls (h : p.Laid t a) (hcalls : NodeCalls t p p') :
    ∃ a', p'.Laid t a' ∧ p.Called p' a a' := by
  induction hcalls with
  | done => exact ⟨a, h, ⟨rfl, fun x hx => hx, h.indexed⟩, fun x hx => Or.inl hx, rfl, rfl, rfl⟩
  | @alloc p₁ p' q hcalls halloc ih =>
    obtain ⟨a₁, h₁, hcalled⟩ := ih
    obtain ⟨a', m, hcall, rfl⟩ := (nAllocate_eq_some (manager_of_some h₁.manager)).mp halloc
    obtain ⟨hmoves, hcomes⟩ := h₁.indexed.nAllocateTree hcall
    refine ⟨a', h₁.moves (Function.update_self ..) hmoves rfl rfl rfl, hcalled.moves.trans hmoves,
      hcalled.comes.trans hcalled.moves.log_cut hcomes, ?_, hcalled.bytes, hcalled.workers⟩
    exact (NAlc.nAllocateTree_pageId hcall).trans hcalled.pageId
  | @store p₁ p' q l hcalls hset ih =>
    obtain ⟨a₁, h₁, hcalled⟩ := ih
    obtain ⟨-, rfl⟩ := setPleaf_eq_some.mp hset
    exact ⟨a₁, ⟨h₁.manager, h₁.start, h₁.indexed, h₁.mapped, h₁.segment⟩, hcalled.moves, hcalled.comes,
      hcalled.pageId, hcalled.bytes, hcalled.workers⟩

/-- What `append_one` leaves behind: the record has been written behind those of its segment, which is
that of a block taken just now if the old one was full. -/
structure Appended (p p' : Nvm) (t : Tid) (a a' : NAlc) (version : BitVec 32) (header i : Nat) : Prop where
  moves : a.Moves p.mem a' p'.mem
  comes : a.ComesFrom p.mem a'
  cut : a'.Cut p'.mem .log header
  worker : (p'.workers t).At header (i + 1)
  fresh : (p.workers t).needsSegment version →
    i = 0 ∧ (a.Coming header ∨ ¬ a.Cut p.mem .log header) ∧ ¬ a'.Coming header
  same : ¬ (p.workers t).needsSegment version → a' = a ∧ (p.workers t).At header i

/-- The segment that is there or taken by the first lines of `append_one`. -/
theorem Laid.openSegment (h : p.Laid t a) (hids : a.IdsLeft 4) {version : BitVec 32}
    (hopen : p.openSegment t version = some p') : ∃ a' header i, p'.Laid t a' ∧
      a.Moves p.mem a' p'.mem ∧ a.ComesFrom p.mem a' ∧ a'.Cut p'.mem .log header ∧
      (p'.workers t).At header i ∧ logNodeSize * i + logNodeSize ≤ DSeg.logEnd ∧ p'.bytes = p.bytes ∧
      ((p.workers t).needsSegment version →
        i = 0 ∧ (a.Coming header ∨ ¬ a.Cut p.mem .log header) ∧ ¬ a'.Coming header) ∧
      (¬ (p.workers t).needsSegment version → a' = a ∧ (p.workers t).At header i) := by
  unfold Nvm.openSegment at hopen
  split at hopen
  · next hneeds =>
    obtain ⟨logStart, a₁, m₁, hlog, rfl⟩ := (resize_eq_some (manager_of_some h.manager)).mp hopen
    obtain ⟨hmoves, hcomes, header, rfl, hcut, hfrom, hnot⟩ := h.indexed.nAllocateLog hids hlog
    have hat : (⟨0, header + baseMetaSize, header + baseMetaSize⟩ : DSeg).At header 0 :=
      ⟨rfl, rfl, rfl, Nat.zero_le _⟩
    have hworker : ∀ seg : DSeg, Function.update p.workers t seg t = seg := fun seg => Function.update_self ..
    refine ⟨a₁, header, 0, ⟨Function.update_self .., hmoves.start.trans h.start, hmoves.indexed, h.mapped,
      fun _ => ⟨header, 0, hcut, ?_⟩⟩, hmoves, hcomes, hcut, ?_, by decide, rfl,
      fun _ => ⟨rfl, hfrom, hnot⟩, fun hno => absurd hneeds hno⟩
    · show (Function.update p.workers t _ t).At header 0
      rw [hworker]
      exact hat
    · show (Function.update p.workers t _ t).At header 0
      rw [hworker]
      exact hat
  · next hroom =>
    cases hopen
    have hseg : (p.workers t).logVec ≠ 0 := fun hzero => hroom (Or.inr hzero)
    obtain ⟨header, i, hcut, hat⟩ := h.segment hseg
    refine ⟨a, header, i, h, ⟨rfl, fun x hx => hx, h.indexed⟩, fun x hx => Or.inl hx, hcut, hat, ?_, rfl,
      fun hneeds => absurd hneeds hroom, fun _ => ⟨rfl, hat⟩⟩
    rw [← hat.tempOffset]
    have hend : ¬ DSeg.logEnd ≤ (p.workers t).tempOffset + logNodeSize + version.toNat := fun hle =>
      hroom (Or.inl hle)
    omega

theorem Laid.append (h : p.Laid t a) (hids : a.IdsLeft 4) {key : Key} {val : Word} {pp addr : Addr}
    {op : BitVec 8} {version : BitVec 32} (happend : appendOne p t key val pp op version = some (addr, p')) :
    ∃ a' header i, p'.Laid t a' ∧ p.Appended p' t a a' version header i ∧ addr < 2 ^ 48 ∧
      addr = header + baseMetaSize + logNodeSize * i + logKeyOffset ∧
      p'.bytes = writeLogNode p.bytes (header + baseMetaSize + logNodeSize * i) key val pp op version := by
  obtain ⟨p₁, hopen, happend⟩ := appendOne_eq_some.mp happend
  obtain ⟨a', header, i, h₁, hmoves, hcomes, hcut, hat, hroom, hbytes, hfresh, hsame⟩ := h.openSegment hids hopen
  obtain ⟨hmapped, rfl, rfl⟩ := appendTo_eq_some.mp happend
  have hlimit := hmapped.2.trans h₁.mapped
  have hat' := hat.next hroom
  refine ⟨a', header, i, ⟨h₁.manager, h₁.start, h₁.indexed, h₁.mapped, fun _ => ⟨header, i + 1, hcut, ?_⟩⟩,
    ⟨hmoves, hcomes, hcut, ?_, hfresh, hsame⟩, ?_, ?_, ?_⟩
  · show (Function.update p₁.workers t _ t).At header (i + 1)
    rw [Function.update_self]
    exact hat'
  · show (Function.update p₁.workers t _ t).At header (i + 1)
    rw [Function.update_self]
    exact hat'
  · exact lt_of_lt_of_le (Nat.add_lt_add_left (by decide) _) hlimit
  · rw [hat.vecStart]
  · show writeLogNode p₁.bytes _ _ _ _ _ _ = _
    rw [hbytes, hat.vecStart]

/-- What a free leaves behind, when it finds the header of a log block. -/
structure Freed (p p' : Nvm) (a a' : NAlc) (q : Addr) : Prop where
  moves : a.Moves p.mem a' p'.mem
  comes : ∀ x, a'.Coming x → a.Coming x ∨ x = a.freeAddress (q - 64)
  workers : p'.workers = p.workers

theorem Laid.freeRecord (h : p.Laid t a) (hids : a.IdsLeft 4) {q : Addr}
    (hfinds : a.Cut p.mem .log (a.freeAddress (q - 64))) (hfree : Pmem.freeRecord p t q = some p') :
    ∃ a', p'.Laid t a' ∧ p.Freed p' a a' q := by
  obtain ⟨-, -, rfl⟩ := (freeRecord_eq_some (manager_of_some h.manager)).mp hfree
  obtain ⟨hmoves, hcomes⟩ := h.indexed.nFree (hids.mono (by decide)) hfinds
  exact ⟨_, h.moves (Function.update_self ..) hmoves rfl rfl rfl, hmoves, hcomes, rfl⟩

theorem Laid.cut_of_at (h : p.Laid t a) {header i : Nat} (hat : (p.workers t).At header i) :
    a.Cut p.mem .log header := by
  have hseg : (p.workers t).logVec ≠ 0 := by
    rw [hat.logVec]
    exact Nat.ne_of_gt (Nat.add_pos_right header (by decide))
  obtain ⟨header', i', hcut, hat'⟩ := h.segment hseg
  have hsame : header' + baseMetaSize = header + baseMetaSize := hat'.logVec.symm.trans hat.logVec
  exact Nat.add_right_cancel hsame ▸ hcut

theorem fresh_laid {poolLen : Nat} (hpool : mmapStart + poolLen ≤ 2 ^ 48) {q : Addr}
    (halloc : nAllocate (fresh poolLen) t = some (q, p')) : ∃ a, p'.Laid t a ∧ (p'.workers t).logVec = 0 := by
  obtain ⟨hindexed, hstart⟩ := NAlc.init_indexed (mmapStart + poolLen * 0) (fresh poolLen).mem
  obtain ⟨a', m, hcall, rfl⟩ := (nAllocate_eq_some Prod.mk.eta.symm).mp halloc
  obtain ⟨hmoves, -⟩ := hindexed.nAllocateTree hcall
  refine ⟨a', ⟨Function.update_self .., ?_, hmoves.indexed, ?_, fun hseg => absurd rfl hseg⟩, rfl⟩
  · rw [hmoves.start, hstart, Nat.mul_zero, Nat.add_zero]
  · show mmapStart + poolLen * (0 + 1) ≤ 2 ^ 48
    rwa [Nat.zero_add, Nat.mul_one]

end Nvm

/-! ### Runs of one thread -/

section Runs

variable {P : Type} [Pmem P]

/-- Every operation of a run of one thread meets the condition in the state it starts from. -/
def Along (C : TreeState P → ThreadOp → Prop) (n : Nat) (t : Tid) : TreeState P → List ThreadOp → Prop
  | _, [] => True
  | s, op :: rest => C s op ∧ ∀ b s', op.exec n s t = .ok (b, s') → Along C n t s' rest

/-- What every operation keeps that meets the condition, by induction on the run. -/
theorem Along.keeps {C : TreeState P → ThreadOp → Prop} {I : TreeState P → Prop} {n : Nat} {t : Tid}
    (hstep : ∀ s op b s', C s op → I s → op.exec n s t = .ok (b, s') → I s') {ops : List ThreadOp}
    {s s' : TreeState P} (hmeets : Along C n t s ops) (hs : I s)
    (hrun : runThreads n s (ops.map fun op => (t, op)) = .ok s') : I s' := by
  induction ops generalizing s with
  | nil =>
    cases hrun
    exact hs
  | cons op ops ih =>
    obtain ⟨hop, hrest⟩ := hmeets
    rw [List.map_cons, runThreads, bind_eq_ok] at hrun
    obtain ⟨⟨b, s₁⟩, hexec, hrun⟩ := hrun
    exact ih (hrest b s₁ hexec) (hstep s op b s₁ hop hs hexec) hrun

/-- The conditions of a run, evaluated. -/
def along (c : TreeState P → ThreadOp → Bool) (n : Nat) (t : Tid) : TreeState P → List ThreadOp → Bool
  | _, [] => true
  | s, op :: rest => c s op && match op.exec n s t with
    | .error _ => true
    | .ok (_, s') => along c n t s' rest

theorem along_sound {C : TreeState P → ThreadOp → Prop} {c : TreeState P → ThreadOp → Bool} {n : Nat} {t : Tid}
    (hsound : ∀ s op, LeavesBelow s → c s op = true → C s op) {ops : List ThreadOp} {s : TreeState P}
    (hs : LeavesBelow s) (h : along c n t s ops = true) : Along C n t s ops := by
  induction ops generalizing s with
  | nil => trivial
  | cons op ops ih =>
    obtain ⟨hop, hrest⟩ := Bool.and_eq_true_iff.mp h
    refine ⟨hsound s op hs hop, fun b s' hexec => ih (op.exec_below hexec hs) ?_⟩
    rw [hexec] at hrest
    exact hrest

theorem runThreads_below {n : Nat} {t : Tid} {ops : List ThreadOp} {s s' : TreeState P}
    (hrun : runThreads n s (ops.map fun op => (t, op)) = .ok s') (hs : LeavesBelow s) : LeavesBelow s' := by
  have hmeets : ∀ {ops : List ThreadOp} {s : TreeState P}, Along (fun _ _ => True) n t s ops := by
    intro ops
    induction ops with
    | nil => exact trivial
    | cons op ops ih => exact ⟨trivial, fun _ _ _ => ih⟩
  exact Along.keeps (fun s op b s' _ hs hexec => op.exec_below hexec hs) hmeets hs hrun

end Runs

variable {s s' : TreeState Nvm} {t : Tid} {a : NAlc} {n : Nat} {key : Key}

/-- What the calls of an operation need: ids for the blocks that they cut and, for a removal, the header
of a log block where `n_free` looks for it. -/
def FindsBlock (t : Tid) (s : TreeState Nvm) (op : ThreadOp) : Prop :=
  ∀ a, s.pm.managers t = some a → a.IdsLeft 4 ∧ ∀ key b i q, op = .remove key → s.Refers b i q →
    logKey s.pm q = some key → a.Cut s.pm.mem .log (a.freeAddress (q - 64))

def findsBlock (t : Tid) (s : TreeState Nvm) (op : ThreadOp) : Bool :=
  match s.pm.managers t with
  | none => true
  | some a => decide (a.IdsLeft 4) && match op with
    | .insert .. => true
    | .remove key => decide (∀ x ∈ s.slotList, logKey s.pm x.2.2 = some key →
        a.Cut s.pm.mem .log (a.freeAddress (x.2.2 - 64)))

theorem findsBlock_sound {op : ThreadOp} (hs : LeavesBelow s) (h : findsBlock t s op = true) :
    FindsBlock t s op := by
  intro a ha
  cases op with
  | insert key val len =>
    simp only [findsBlock, ha, Bool.and_true, decide_eq_true_eq] at h
    exact ⟨h, fun key b i q hop => by cases hop⟩
  | remove key =>
    simp only [findsBlock, ha, Bool.and_eq_true, decide_eq_true_eq] at h
    refine ⟨h.1, fun key' b i q hop hslot hkey => ?_⟩
    cases hop
    exact h.2 (b, i, q) (hs.mem_slotList.mpr hslot) hkey

/-- The records of the slots in use are cells of log blocks. -/
structure Recording (t : Tid) (s : TreeState Nvm) (a : NAlc) : Prop where
  laid : s.pm.Laid t a
  cells : ∀ q, s.Recorded q → ∃ header node, a.NodeIn s.pm.mem header node ∧ q = node + logKeyOffset

theorem NAlc.NodeIn.moves {a a' : NAlc} {m m' : Headers} {header node : Nat} (h : a.NodeIn m header node)
    (hmoves : a.Moves m a' m') : a'.NodeIn m' header node :=
  ⟨hmoves.log_cut header h.cut, h.place, h.fits⟩

theorem Nvm.Appended.nodeIn {p p' : Nvm} {a' : NAlc} {version : BitVec 32} {header i : Nat}
    (h : p.Appended p' t a a' version header i) :
    a'.NodeIn p'.mem header (header + baseMetaSize + logNodeSize * i) where
  cut := h.cut
  place := ⟨i, rfl⟩
  fits := by
    have hroom := h.worker.room
    have hend : baseMetaSize + DSeg.logEnd ≤ CHUNK_SIZE := by decide
    rw [Nat.mul_succ] at hroom
    omega

theorem recording_init {poolLen : Nat} (hpool : mmapStart + poolLen ≤ 2 ^ 48) {junkInner : Addr → InnerNode}
    {junkLeaf : Addr → DLeaf} (hinit : init (Nvm.fresh poolLen) t junkInner junkLeaf = .ok s) :
    ∃ a, Recording t s a ∧ (s.pm.workers t).logVec = 0 ∧ ∀ q, ¬ s.Recorded q := by
  obtain ⟨-, hnone⟩ := init_recorded hinit
  obtain ⟨q, pm₁, l, pm₂, halloc, -, hset, rfl⟩ := init_eq_ok.mp hinit
  obtain ⟨a, hlaid, hseg⟩ := Nvm.fresh_laid hpool halloc
  obtain ⟨a', hlaid', hcalled⟩ := hlaid.nodeCalls (.store (.done pm₁) hset)
  refine ⟨a', ⟨hlaid', fun q hq => absurd hq (hnone q)⟩, ?_, hnone⟩
  show (pm₂.workers t).logVec = 0
  rw [hcalled.workers]
  exact hseg

theorem Nvm.Laid.insert (h : s.pm.Laid t a) (hids : a.IdsLeft 4) {val : Word} {len : BitVec 32} {b : Bool}
    (hrun : ZBTree.insert n s t key val len = .ok (b, s')) : ∃ pm a₁, NodeCalls t s.pm pm ∧
      pm.Laid t a₁ ∧ s.pm.Called pm a a₁ ∧
      ((b = false ∧ s'.pm = pm ∧ ∀ q, s'.Recorded q → s.Recorded q) ∨
        (b = true ∧ ∃ addr pp a' header i, appendOne pm t key val pp LOG_INSERT len = some (addr, s'.pm) ∧
          addr = header + baseMetaSize + logNodeSize * i + logKeyOffset ∧ s'.pm.Laid t a' ∧
          pm.Appended s'.pm t a₁ a' len header i ∧ ∀ q, s'.Recorded q → q = addr ∨ s.Recorded q)) := by
  obtain ⟨pm, hcalls, hend⟩ := insert_recorded hrun
  obtain ⟨a₁, h₁, hcalled⟩ := h.nodeCalls hcalls
  have hids₁ : a₁.IdsLeft 4 := by
    unfold NAlc.IdsLeft
    rw [hcalled.pageId]
    exact hids
  refine ⟨pm, a₁, hcalls, h₁, hcalled, ?_⟩
  rcases hend with hsame | ⟨hb, addr, pp, happend, hrec⟩
  · exact Or.inl hsame
  · obtain ⟨a', header, i, h', happended, hlt, haddr, -⟩ := h₁.append hids₁ happend
    rw [Nat.mod_eq_of_lt hlt] at hrec
    exact Or.inr ⟨hb, addr, pp, a', header, i, happend, haddr, h', happended, hrec⟩

theorem Nvm.Laid.remove (h : s.pm.Laid t a) (hfinds : FindsBlock t s (.remove key)) {b : Bool}
    (hrun : simplyRemove n s t key = .ok (b, s')) :
    (s'.pm = s.pm ∧ ∀ q, s'.Recorded q → s.Recorded q) ∨
      ∃ leaf i q pm a₁ a', s.Refers leaf i q ∧ logKey s.pm q = some key ∧ s.pm.Freed pm a a₁ q ∧
        pm.Called s'.pm a₁ a' ∧ s'.pm.Laid t a' ∧
        ∀ b' j r, s'.Refers b' j r → ∃ j', s.Refers b' j' r ∧ (b', j') ≠ (leaf, i) := by
  rcases simplyRemove_recorded hrun with ⟨-, hpm, hrec⟩ | ⟨-, leaf, i, q, pm, hslot, hkey, hfree, hcalls, hrec⟩
  · exact Or.inl ⟨hpm, hrec⟩
  · obtain ⟨hids, hblock⟩ := hfinds a h.manager
    obtain ⟨a₁, h₁, hfreed⟩ := h.freeRecord hids (hblock key leaf i q rfl hslot hkey) hfree
    obtain ⟨a', h', hcalled⟩ := h₁.nodeCalls hcalls
    exact Or.inr ⟨leaf, i, q, pm, a₁, a', hslot, hkey, hfreed, hcalled, h', hrec⟩

theorem Recording.insert (h : Recording t s a) (hids : a.IdsLeft 4) {val : Word} {len : BitVec 32} {b : Bool}
    (hrun : ZBTree.insert n s t key val len = .ok (b, s')) : ∃ a', Recording t s' a' := by
  obtain ⟨pm, a₁, -, h₁, hcalled, ⟨-, hpm, hrec⟩ | ⟨-, addr, pp, a', header, i, -, rfl, h', happended, hrec⟩⟩ :=
    h.laid.insert hids hrun
  · subst hpm
    refine ⟨a₁, h₁, fun q hq => ?_⟩
    obtain ⟨header, node, hnode, rfl⟩ := h.cells q (hrec q hq)
    exact ⟨header, node, hnode.moves hcalled.moves, rfl⟩
  · refine ⟨a', h', fun q hq => ?_⟩
    rcases hrec q hq with rfl | hold
    · exact ⟨header, _, happended.nodeIn, rfl⟩
    · obtain ⟨header', node, hnode, rfl⟩ := h.cells q hold
      exact ⟨header', node, hnode.moves (hcalled.moves.trans happended.moves), rfl⟩

theorem Recording.remove (h : Recording t s a) (hfinds : FindsBlock t s (.remove key)) {b : Bool}
    (hrun : simplyRemove n s t key = .ok (b, s')) : ∃ a', Recording t s' a' := by
  rcases h.laid.remove hfinds hrun with ⟨hpm, hrec⟩ | ⟨leaf, i, q, pm, a₁, a', -, -, hfreed, hcalled, h', hrec⟩
  · refine ⟨a, hpm ▸ h.laid, fun q hq => ?_⟩
    rw [hpm]
    exact h.cells q (hrec q hq)
  · refine ⟨a', h', ?_⟩
    rintro r ⟨b', j, hr⟩
    obtain ⟨j', hold, -⟩ := hrec b' j r hr
    obtain ⟨header, node, hnode, rfl⟩ := h.cells r ⟨b', j', hold⟩
    exact ⟨header, node, hnode.moves (hfreed.moves.trans hcalled.moves), rfl⟩

theorem Recording.run {ops : List ThreadOp} (h : Recording t s a) (hfinds : Along (FindsBlock t) n t s ops)
    (hrun : runThreads n s (ops.map fun op => (t, op)) = .ok s') : ∃ a', Recording t s' a' := by
  refine Along.keeps (I := fun s => ∃ a, Recording t s a) ?_ hfinds ⟨a, h⟩ hrun
  rintro s op b s' hop ⟨a, h⟩ hexec
  cases op with
  | insert key val len => exact h.insert (hop a h.laid.manager).1 hexec
  | remove key => exact h.remove hop hexec

/-! ### What a removal writes -/

/-- The `Log_Node`s of the log blocks of a thread. -/
def Nvm.LogNode (p : Nvm) (t : Tid) (node : Nat) : Prop :=
  ∃ a header, p.managers t = some a ∧ a.NodeIn p.mem header node

def Nvm.SameWords (p p' : Nvm) (node : Nat) : Prop :=
  p'.bytes.get64 (node + logKeyOffset) = p.bytes.get64 (node + logKeyOffset) ∧
    p'.bytes.get64 (node + logKeyOffset + 8) = p.bytes.get64 (node + logKeyOffset + 8)

/-- Memory that differs in the headers and `P_Leaf`s only. -/
structure Nvm.SameBytes (p p' : Nvm) : Prop where
  bytes : p'.bytes = p.bytes
  poolLen : p'.poolLen = p.poolLen
  globalId : p'.globalId = p.globalId

theorem nodeCalls_bytes {p p' : Nvm} (hmanager : ∃ a, p.managers t = some a) (h : NodeCalls t p p') :
    p.SameBytes p' ∧ ∃ a, p'.managers t = some a := by
  induction h with
  | done => exact ⟨⟨rfl, rfl, rfl⟩, hmanager⟩
  | @alloc p₁ p' q hcalls halloc ih =>
    obtain ⟨hsame, a₁, ha₁⟩ := ih
    obtain ⟨a', m, -, rfl⟩ := (Nvm.nAllocate_eq_some (Nvm.manager_of_some ha₁)).mp halloc
    exact ⟨⟨hsame.bytes, hsame.poolLen, hsame.globalId⟩, a', Function.update_self ..⟩
  | @store p₁ p' q l hcalls hset ih =>
    obtain ⟨hsame, hmanager₁⟩ := ih
    obtain ⟨-, rfl⟩ := Nvm.setPleaf_eq_some.mp hset
    exact ⟨⟨hsame.bytes, hsame.poolLen, hsame.globalId⟩, hmanager₁⟩

theorem Nvm.freeRecord_bytes {p p' : Nvm} {q : Addr} (hmanager : p.managers t = some a)
    (hfree : Pmem.freeRecord p t q = some p') :
    ({ p with bytes := p.bytes.put32 (q - 64) 0 } : Nvm).SameBytes p' ∧ ∃ a', p'.managers t = some a' := by
  obtain ⟨-, -, rfl⟩ := (Nvm.freeRecord_eq_some (Nvm.manager_of_some hmanager)).mp hfree
  exact ⟨⟨rfl, rfl, rfl⟩, _, Function.update_self ..⟩

theorem Recording.remove_bytes (h : Recording t s a) (hrun : simplyRemove n s t key = .ok (true, s')) :
    ∃ own header, a.NodeIn s.pm.mem header own ∧ s.Recorded (own + logKeyOffset) ∧
      logKey s.pm (own + logKeyOffset) = some key ∧
      ({ s.pm with bytes := s.pm.bytes.put32 (own + logKeyOffset - 64) 0 } : Nvm).SameBytes s'.pm := by
  rcases simplyRemove_recorded hrun with ⟨hb, -⟩ | ⟨-, leaf, i, q, pm, hslot, hkey, hfree, hcalls, -⟩
  · cases hb
  · obtain ⟨header, own, hown, rfl⟩ := h.cells q ⟨leaf, i, hslot⟩
    obtain ⟨hfreed, hmanager⟩ := Nvm.freeRecord_bytes h.laid.manager hfree
    obtain ⟨hsame, -⟩ := nodeCalls_bytes hmanager hcalls
    exact ⟨own, header, hown, ⟨leaf, i, hslot⟩, hkey, hsame.bytes.trans hfreed.bytes,
      hsame.poolLen.trans hfreed.poolLen, hsame.globalId.trans hfreed.globalId⟩

theorem NAlc.NodeIn.apart {m : Headers} {header node header' node' : Nat} (h : a.NodeIn m header node)
    (h' : a.NodeIn m header' node') : node % logNodeSize = node' % logNodeSize := by
  have hmod : ∀ {header node : Nat}, a.NodeIn m header node →
      node % logNodeSize = (a.startAddress + 1024 + baseMetaSize) % logNodeSize := by
    intro header node h
    obtain ⟨k, rfl⟩ := h.cut.in_row
    obtain ⟨i, rfl⟩ := h.place
    simp only [blockAt, CHUNK_SIZE, baseMetaSize, logNodeSize]
    omega
  rw [hmod h, hmod h']

/-- The four bytes lie in the key of the record two cells before, if that is in the block. -/
theorem Recording.frame_iff (h : Recording t s a) {header own : Nat} (hown : a.NodeIn s.pm.mem header own)
    {p : Nvm} (hbytes : p.bytes = s.pm.bytes.put32 (own + logKeyOffset - 64) 0) :
    (∀ node, s.pm.LogNode t node → node ≠ own → s.pm.SameWords p node) ↔
      (s.pm.LogNode t (own - 64) → s.pm.bytes.get32 (own - 64 + logKeyOffset) = 0) := by
  have hlow : 64 ≤ own := by
    obtain ⟨i, rfl⟩ := hown.place
    exact Nat.le_add_right_of_le (Nat.le_add_left 64 header)
  rw [Nat.sub_add_comm hlow] at hbytes
  constructor
  · intro hframe hnode
    obtain ⟨hsame, -⟩ := hframe _ hnode (by omega)
    rw [hbytes] at hsame
    exact (Bytes.get64_put32_zero ..).mp hsame
  · intro hzero node hnode hne
    unfold Nvm.SameWords
    rw [hbytes]
    by_cases htwo : node = own - 64
    · subst htwo
      refine ⟨(Bytes.get64_put32_zero ..).mpr (hzero hnode), ?_⟩
      apply Bytes.get64_put32_of_ne
      omega
    · -- another cell has no byte in common with the four
      obtain ⟨a', header', hmanager, hin⟩ := hnode
      rw [h.laid.manager, Option.some.injEq] at hmanager
      subst hmanager
      have hmod := hin.apart hown
      unfold logKeyOffset logNodeSize at *
      constructor
      · apply Bytes.get64_put32_of_ne
        omega
      · apply Bytes.get64_put32_of_ne
        omega

theorem Nvm.SameWords.reads {p p₁ p' : Nvm} {node : Nat} (h : p.SameWords p₁ node) (hsame : p₁.SameBytes p')
    (hlen : p₁.poolLen = p.poolLen) (hid : p₁.globalId = p.globalId) :
    logKey p' (node + logKeyOffset) = logKey p (node + logKeyOffset) ∧
      logVal p' (node + logKeyOffset) = logVal p (node + logKeyOffset) := by
  obtain ⟨hkey, hval⟩ := h
  rw [← hsame.bytes] at hkey hval
  have hmapped : ∀ x k, p'.Mapped x k ↔ p.Mapped x k := by
    intro x k
    unfold Nvm.Mapped
    rw [hsame.poolLen, hsame.globalId, hlen, hid]
  constructor
  · show (if p'.Mapped (node + logKeyOffset) 8 then _ else none) = if p.Mapped (node + logKeyOffset) 8 then _ else none
    rw [hkey, if_congr (hmapped _ _) rfl rfl]
  · show (if p'.Mapped (node + logKeyOffset + 8) 8 then _ else none) =
      if p.Mapped (node + logKeyOffset + 8) 8 then _ else none
    rw [hval, if_congr (hmapped _ _) rfl rfl]

/-- In every state that insertions and removals of one thread lead to, all of which found their blocks,
for every key: its removal leaves the words of all other records as they are if and only if the record
two places before its own in the block has a key whose low half is zero, or there is none. The records
that the slots of other keys refer to then read the same. -/
theorem removal_frame_iff (poolLen : Nat) (hpool : mmapStart + poolLen ≤ 2 ^ 48) (t : Tid)
    (junkInner : Addr → InnerNode) (junkLeaf : Addr → DLeaf) (n : Nat) (ops : List ThreadOp)
    {s₀ s s' : TreeState Nvm} (hinit : init (Nvm.fresh poolLen) t junkInner junkLeaf = .ok s₀)
    (hfinds : Along (FindsBlock t) n t s₀ ops)
    (hrun : runThreads n s₀ (ops.map fun op => (t, op)) = .ok s) {rounds : Nat} {key : Key}
    (hremove : simplyRemove rounds s t key = .ok (true, s')) :
    ∃ own, s.Recorded (own + logKeyOffset) ∧ logKey s.pm (own + logKeyOffset) = some key ∧
      ((∀ node, s.pm.LogNode t node → node ≠ own → s.pm.SameWords s'.pm node) ↔
        (s.pm.LogNode t (own - 64) → s.pm.bytes.get32 (own - 64 + logKeyOffset) = 0)) ∧
      ((s.pm.LogNode t (own - 64) → s.pm.bytes.get32 (own - 64 + logKeyOffset) = 0) →
        ∀ r, s.Recorded r → r ≠ own + logKeyOffset →
          logKey s'.pm r = logKey s.pm r ∧ logVal s'.pm r = logVal s.pm r) := by
  obtain ⟨a₀, h₀, -⟩ := recording_init hpool hinit
  obtain ⟨a, h⟩ := h₀.run hfinds hrun
  obtain ⟨own, header, hown, hrec, hkey, hsame⟩ := h.remove_bytes hremove
  have hframe := h.frame_iff hown hsame.bytes
  refine ⟨own, hrec, hkey, hframe, fun hcond r hr hne => ?_⟩
  obtain ⟨header', node, hnode, rfl⟩ := h.cells r hr
  have hwords := hframe.mpr hcond node ⟨a, header', h.laid.manager, hnode⟩ fun heq => hne (heq ▸ rfl)
  exact hwords.reads ⟨rfl, rfl, rfl⟩ hsame.poolLen hsame.globalId

def firstCell : Nat := blockAt mmapStart 4 + baseMetaSize

/-- Four records, the second of which is removed; then the key of the first has a low half of zero. -/
def fourRecords : List ThreadOp :=
  [.insert 0x100000000 10 8, .insert 2 20 8, .insert 3 30 8, .insert 4 40 8, .remove 2]

def fourRun : Exec (TreeState Nvm × TreeState Nvm × TreeState Nvm) := do
  let s₀ ← init (Nvm.fresh (32 * CHUNK_SIZE)) 0 zeroInner zeroLeaf
  let s ← runThreads 3 s₀ (fourRecords.map fun op => (0, op))
  let r ← simplyRemove 3 s 0 3
  if r.1 then return (s₀, s, r.2) else .error .spin

/-- The four bytes that the removal of the third record clears are zero already. -/
theorem removal_frame_iff_four : ∃ s s',
    runFresh (32 * CHUNK_SIZE) 0 zeroInner zeroLeaf 3 (fourRecords.map fun op => (0, op)) = .ok s ∧
    simplyRemove 3 s 0 3 = .ok (true, s') ∧ s.Recorded (firstCell + logKeyOffset) ∧
    (∀ node, s.pm.LogNode 0 node → node ≠ firstCell + 2 * logNodeSize → s.pm.SameWords s'.pm node) ∧
    ∀ r, s.Recorded r → r ≠ firstCell + 2 * logNodeSize + logKeyOffset →
      logKey s'.pm r = logKey s.pm r ∧ logVal s'.pm r = logVal s.pm r := by
  have hfacts : fourRun.toOption.map (fun r => (along (findsBlock 0) 3 0 r.1 fourRecords,
      r.2.1.slotList.map fun x => (x.2.2, logKey r.2.1.pm x.2.2),
      r.2.1.pm.bytes.get32 (firstCell + logKeyOffset))) =
      some (true, [(firstCell + logKeyOffset, some 0x100000000),
        (firstCell + 3 * logNodeSize + logKeyOffset, some 4),
        (firstCell + 2 * logNodeSize + logKeyOffset, some 3)], 0) := by
    decide +kernel
  obtain ⟨⟨s₀, s, s'⟩, hrun, hvalues⟩ := exec_of_map hfacts
  rw [Prod.mk.injEq, Prod.mk.injEq] at hvalues
  obtain ⟨hmeets, hslots, hzero⟩ := hvalues
  simp only [fourRun, bind_eq_ok] at hrun
  obtain ⟨s₀', hinit, s₁, hrun, ⟨b, s₂⟩, hremove, hend⟩ := hrun
  cases b with
  | false => cases hend
  | true =>
    cases hend
    have hbelow₀ := init_below hinit
    have hbelow := runThreads_below hrun hbelow₀
    obtain ⟨own, hrec, hkey, hframe, hreads⟩ := removal_frame_iff (32 * CHUNK_SIZE) (by decide) 0 zeroInner
      zeroLeaf 3 fourRecords hinit (along_sound (fun _ _ => findsBlock_sound) hbelow₀ hmeets) hrun hremove
    have hlisted : ∀ q, s.Recorded q → (q, logKey s.pm q) ∈ s.slotList.map fun x => (x.2.2, logKey s.pm x.2.2) := by
      rintro q ⟨a, i, hq⟩
      exact List.mem_map.mpr ⟨_, hbelow.mem_slotList.mpr hq, rfl⟩
    have hown : own = firstCell + 2 * logNodeSize := by
      have hin := hlisted _ hrec
      rw [hkey, hslots] at hin
      simpa using hin
    subst hown
    have hcond : s.pm.LogNode 0 (firstCell + 2 * logNodeSize - 64) →
        s.pm.bytes.get32 (firstCell + 2 * logNodeSize - 64 + logKeyOffset) = 0 := fun _ => hzero
    refine ⟨s, s₂, ?_, hremove, ?_, hframe.mpr hcond, hreads hcond⟩
    · rw [runFresh, hinit]
      exact hrun
    · have hfirst : (firstCell + logKeyOffset, some 0x100000000) ∈
          s.slotList.map fun x => (x.2.2, logKey s.pm x.2.2) := hslots ▸ List.mem_cons_self
      obtain ⟨⟨a, i, q⟩, hq, heq⟩ := List.mem_map.mp hfirst
      exact ⟨a, i, (Prod.mk.inj heq).1 ▸ hbelow.mem_slotList.mp hq⟩

/-- Three records; the third is removed. -/
def threeRecords : Exec (TreeState Nvm × TreeState Nvm × Word × Word) := do
  let s ← runFresh (32 * CHUNK_SIZE) 0 zeroInner zeroLeaf 3
    [(0, .insert 1 10 8), (0, .insert 2 20 8), (0, .insert 3 30 8)]
  let before ← find s 1
  let r ← simplyRemove 3 s 0 3
  let after ← find r.2 1
  if r.1 then return (s, r.2, before.1, after.1) else .error .spin

def cellFacts (s s' : TreeState Nvm) : Option (Bool × Word × Word) := do
  let a ← s.pm.managers 0
  return (decide (a.Cut s.pm.mem .log (blockAt mmapStart 4)), s.pm.bytes.get64 (firstCell + logKeyOffset),
    s'.pm.bytes.get64 (firstCell + logKeyOffset))

/-- The removal of the third key clears the first one in its record, and `find` misses it. -/
theorem removal_clears_key : ∃ s s' u u',
    runFresh (32 * CHUNK_SIZE) 0 zeroInner zeroLeaf 3
      [(0, .insert 1 10 8), (0, .insert 2 20 8), (0, .insert 3 30 8)] = .ok s ∧
    simplyRemove 3 s 0 3 = .ok (true, s') ∧ s.pm.LogNode 0 firstCell ∧
    s.pm.bytes.get64 (firstCell + logKeyOffset) = 1 ∧ s'.pm.bytes.get64 (firstCell + logKeyOffset) = 0 ∧
    find s 1 = .ok (10, u) ∧ find s' 1 = .ok (0, u') := by
  have hfacts : threeRecords.toOption.map (fun r => (cellFacts r.1 r.2.1, r.2.2)) =
      some (some (true, 1, 0), 10, 0) := by
    decide +kernel
  obtain ⟨⟨s, s', v, w⟩, hrun, hvalues⟩ := exec_of_map hfacts
  simp only [threeRecords, bind_eq_ok] at hrun
  obtain ⟨s₁, hrun, ⟨v', u⟩, hfind, ⟨b, s₂⟩, hremove, ⟨w', u'⟩, hfind', hend⟩ := hrun
  cases b with
  | false => cases hend
  | true =>
    cases hend
    rw [Prod.mk.injEq, Prod.mk.injEq] at hvalues
    obtain ⟨hcell, rfl, rfl⟩ := hvalues
    simp only [cellFacts, Option.bind_eq_bind, Option.bind_eq_some_iff, Option.pure_def, Option.some.injEq,
      Prod.mk.injEq, decide_eq_true_eq] at hcell
    obtain ⟨a, hmanager, hcut, hbefore, hafter⟩ := hcell
    exact ⟨s, s₂, u, u', hrun, hremove, ⟨a, _, hmanager, hcut, ⟨0, rfl⟩, by decide⟩, hbefore, hafter, hfind, hfind'⟩

/-! ### Blocks that are not given back

A record is safe when its block has been cut, is not coming again, and lies below the end of the segment if it
is the active one. `Kept` says so for the records of all used slots; a removal that frees a block alone
keeps it, since no other record stands in that block. -/

theorem DSeg.At.unique {seg : DSeg} {header header' i i' : Nat} (h : seg.At header i) (h' : seg.At header' i') :
    header = header' ∧ i = i' := by
  have hvec := h.logVec.symm.trans h'.logVec
  have hoffset := h.tempOffset.symm.trans h'.tempOffset
  exact ⟨Nat.add_right_cancel hvec, Nat.eq_of_mul_eq_mul_left (by decide) hoffset⟩

theorem NAlc.Cut.apart {m m' : Headers} {kind kind' : BlockKind} {a' : NAlc} {header header' : Nat}
    (h : a.Cut m kind header) (h' : a'.Cut m' kind' header') (hstart : a'.startAddress = a.startAddress)
    (hne : header ≠ header') : header + CHUNK_SIZE ≤ header' ∨ header' + CHUNK_SIZE ≤ header := by
  obtain ⟨i, rfl⟩ := h.in_row
  obtain ⟨j, rfl⟩ := h'.in_row
  rw [hstart] at hne ⊢
  have hij : i ≠ j := fun heq => hne (heq ▸ rfl)
  rw [← blockAt_succ, ← blockAt_succ, blockAt_le_iff, blockAt_le_iff]
  omega

theorem Nvm.InBlock.unique {start i j x : Nat} (h : Nvm.InBlock (blockAt start i) x)
    (h' : Nvm.InBlock (blockAt start j) x) : i = j := by
  unfold Nvm.InBlock blockAt CHUNK_SIZE at h h'
  omega

theorem NAlc.NodeIn.in_block {m : Headers} {header node : Nat} (h : a.NodeIn m header node) :
    header + baseMetaSize ≤ node ∧ Nvm.InBlock header (node + logKeyOffset) := by
  obtain ⟨i, rfl⟩ := h.place
  have hfits := h.fits
  unfold Nvm.InBlock
  unfold logKeyOffset logNodeSize at *
  omega

/-- The record is in a block that is not given back and, in the block being filled, behind its end. -/
structure Nvm.Safe (p : Nvm) (t : Tid) (a : NAlc) (header node : Nat) : Prop where
  node_in : a.NodeIn p.mem header node
  spared : ¬ a.Coming header
  before : ∀ i, (p.workers t).At header i → node + logNodeSize ≤ header + baseMetaSize + logNodeSize * i

section Steps

variable {p p' : Nvm} {a' : NAlc} {header node : Nat}

theorem NAlc.ComesFrom.spared {m : Headers} (h : a.ComesFrom m a') (hcut : a.Cut m .log header)
    (hspared : ¬ a.Coming header) : ¬ a'.Coming header := by
  intro hcoming
  rcases h header hcoming with hold | hnew
  · exact hspared hold
  · exact hnew hcut

theorem Nvm.Safe.called (h : p.Safe t a header node) (hcalled : p.Called p' a a') : p'.Safe t a' header node where
  node_in := h.node_in.moves hcalled.moves
  spared := hcalled.comes.spared h.node_in.cut h.spared
  before := by
    rw [hcalled.workers]
    exact h.before

/-- An appended record has no byte in common with the safe ones, which stay safe. -/
theorem Nvm.Safe.appended (h : p.Safe t a header node) {version : BitVec 32} {header' i : Nat}
    (happended : p.Appended p' t a a' version header' i) : p'.Safe t a' header node ∧
      (header' + baseMetaSize + logNodeSize * i + logNodeSize ≤ node ∨
        node + logNodeSize ≤ header' + baseMetaSize + logNodeSize * i) ∧
      ((p.workers t).needsSegment version → header' ≠ header) := by
  have hin := h.node_in.moves happended.moves
  have hspared := happended.comes.spared h.node_in.cut h.spared
  have hnew : (p.workers t).needsSegment version → header' ≠ header := by
    rintro hneeds rfl
    obtain ⟨-, hcoming | hcut, -⟩ := happended.fresh hneeds
    · exact h.spared hcoming
    · exact hcut h.node_in.cut
  by_cases hsame : header' = header
  · subst hsame
    have hno : ¬ (p.workers t).needsSegment version := fun hneeds => hnew hneeds rfl
    obtain ⟨-, hat⟩ := happended.same hno
    have hend := h.before i hat
    refine ⟨⟨hin, hspared, fun j hj => ?_⟩, Or.inr hend, hnew⟩
    obtain ⟨-, rfl⟩ := happended.worker.unique hj
    rw [Nat.mul_succ]
    exact hend.trans (Nat.add_le_add_left (Nat.le_add_right _ _) _)
  · refine ⟨⟨hin, hspared, fun j hj => absurd (happended.worker.unique hj).1 hsame⟩, ?_, hnew⟩
    obtain ⟨hlow, -⟩ := hin.in_block
    obtain ⟨hlow', -⟩ := happended.nodeIn.in_block
    have hfits := hin.fits
    have hfits' := happended.nodeIn.fits
    rcases happended.cut.apart hin.cut rfl hsame with hapart | hapart
    · exact Or.inl (by omega)
    · exact Or.inr (by omega)

end Steps

/-- The records of the slots in use are safe, and the block that is being filled is not given back. -/
structure Kept (t : Tid) (s : TreeState Nvm) (a : NAlc) : Prop where
  laid : s.pm.Laid t a
  cells : ∀ q, s.Recorded q → ∃ header node, q = node + logKeyOffset ∧ s.pm.Safe t a header node
  current : ∀ header i, (s.pm.workers t).At header i → ¬ a.Coming header

/-- The block that a removal gives back holds no record of another slot and is not being filled. -/
def FreesAlone (t : Tid) (s : TreeState Nvm) (op : ThreadOp) : Prop :=
  ∀ a key b i q, s.pm.managers t = some a → op = .remove key → s.Refers b i q → logKey s.pm q = some key →
    ¬ Nvm.InBlock (a.freeAddress (q - 64)) (s.pm.workers t).logVec ∧
      ∀ b' i' r, s.Refers b' i' r → (b', i') ≠ (b, i) → ¬ Nvm.InBlock (a.freeAddress (q - 64)) r

instance (header x : Nat) : Decidable (Nvm.InBlock header x) := inferInstanceAs (Decidable (_ ∧ _))

def freesAlone (t : Tid) (s : TreeState Nvm) (op : ThreadOp) : Bool :=
  match s.pm.managers t, op with
  | some a, .remove key => decide (∀ x ∈ s.slotList, logKey s.pm x.2.2 = some key →
      ¬ Nvm.InBlock (a.freeAddress (x.2.2 - 64)) (s.pm.workers t).logVec ∧
        ∀ y ∈ s.slotList, (y.1, y.2.1) ≠ (x.1, x.2.1) → ¬ Nvm.InBlock (a.freeAddress (x.2.2 - 64)) y.2.2)
  | _, _ => true

theorem freesAlone_sound {op : ThreadOp} (hs : LeavesBelow s) (h : freesAlone t s op = true) :
    FreesAlone t s op := by
  intro a key b i q ha hop hslot hkey
  subst hop
  simp only [freesAlone, ha, decide_eq_true_eq] at h
  obtain ⟨hsegment, hothers⟩ := h (b, i, q) (hs.mem_slotList.mpr hslot) hkey
  exact ⟨hsegment, fun b' i' r hr hne => hothers (b', i', r) (hs.mem_slotList.mpr hr) hne⟩

/-- An insertion keeps it, and what it writes is apart from the records of the slots in use. -/
theorem Kept.insert_steps (h : Kept t s a) (hids : a.IdsLeft 4) {val : Word} {len : BitVec 32} {b : Bool}
    (hrun : ZBTree.insert n s t key val len = .ok (b, s')) : ∃ pm a₁, NodeCalls t s.pm pm ∧
      s.pm.Called pm a a₁ ∧
      ((b = false ∧ s'.pm = pm ∧ Kept t s' a₁) ∨
        (b = true ∧ ∃ addr pp a' header i, appendOne pm t key val pp LOG_INSERT len = some (addr, s'.pm) ∧
          addr = header + baseMetaSize + logNodeSize * i + logKeyOffset ∧
          pm.Appended s'.pm t a₁ a' len header i ∧ Kept t s' a')) := by
  obtain ⟨pm, a₁, hcalls, h₁, hcalled, hend⟩ := h.laid.insert hids hrun
  have hcurrent : ∀ header i, (pm.workers t).At header i → ¬ a₁.Coming header := by
    intro header i hat
    rw [hcalled.workers] at hat
    exact hcalled.comes.spared (h.laid.cut_of_at hat) (h.current header i hat)
  refine ⟨pm, a₁, hcalls, hcalled, ?_⟩
  rcases hend with ⟨hb, rfl, hrec⟩ | ⟨hb, addr, pp, a', header, i, happend, haddr, h', happended, hrec⟩
  · refine Or.inl ⟨hb, rfl, h₁, fun q hq => ?_, hcurrent⟩
    obtain ⟨header, node, rfl, hsafe⟩ := h.cells q (hrec q hq)
    exact ⟨header, node, rfl, hsafe.called hcalled⟩
  · have hnew : ¬ a'.Coming header := by
      by_cases hneeds : (pm.workers t).needsSegment len
      · exact (happended.fresh hneeds).2.2
      · obtain ⟨rfl, hat⟩ := happended.same hneeds
        exact hcurrent header i hat
    refine Or.inr ⟨hb, addr, pp, a', header, i, happend, haddr, happended, h', fun q hq => ?_,
      fun header' j hat => ?_⟩
    · rcases hrec q hq with rfl | hold
      · refine ⟨header, _, haddr, happended.nodeIn, hnew, fun j hat => ?_⟩
        obtain ⟨-, rfl⟩ := happended.worker.unique hat
        rw [Nat.mul_succ, Nat.add_assoc]
      · obtain ⟨header', node, rfl, hsafe⟩ := h.cells q hold
        exact ⟨header', node, rfl, ((hsafe.called hcalled).appended happended).1⟩
    · obtain ⟨rfl, -⟩ := happended.worker.unique hat
      exact hnew

theorem Kept.remove (h : Kept t s a) (hfinds : FindsBlock t s (.remove key)) (halone : FreesAlone t s (.remove key))
    {b : Bool} (hrun : simplyRemove n s t key = .ok (b, s')) : ∃ a', Kept t s' a' := by
  rcases h.laid.remove hfinds hrun with
    ⟨hpm, hrec⟩ | ⟨leaf, i, q, pm, a₁, a', hslot, hkey, hfreed, hcalled, h', hrec⟩
  · refine ⟨a, hpm ▸ h.laid, fun q hq => ?_, hpm ▸ h.current⟩
    rw [hpm]
    exact h.cells q (hrec q hq)
  · obtain ⟨hsegment, hothers⟩ := halone a key leaf i q h.laid.manager rfl hslot hkey
    refine ⟨a', h', ?_, fun header j hat => ?_⟩
    · rintro r ⟨b', j, hr⟩
      obtain ⟨j', hold, hne⟩ := hrec b' j r hr
      obtain ⟨header, node, rfl, hsafe⟩ := h.cells r ⟨b', j', hold⟩
      refine ⟨header, node, rfl, Nvm.Safe.called ⟨hsafe.node_in.moves hfreed.moves, ?_, ?_⟩ hcalled⟩
      · intro hcoming
        rcases hfreed.comes header hcoming with hcoming | rfl
        · exact hsafe.spared hcoming
        · exact hothers b' j' _ hold hne hsafe.node_in.in_block.2
      · rw [hfreed.workers]
        exact hsafe.before
    · rw [hcalled.workers, hfreed.workers] at hat
      apply hcalled.comes.spared (hfreed.moves.log_cut header (h.laid.cut_of_at hat))
      intro hcoming
      rcases hfreed.comes header hcoming with hcoming | rfl
      · exact h.current header j hat hcoming
      · apply hsegment
        rw [hat.logVec]
        exact ⟨Nat.le_add_right _ _, Nat.add_lt_add_left (by decide) _⟩

theorem Kept.run {ops : List ThreadOp} (h : Kept t s a)
    (hmeets : Along (fun s op => FindsBlock t s op ∧ FreesAlone t s op) n t s ops)
    (hrun : runThreads n s (ops.map fun op => (t, op)) = .ok s') : ∃ a', Kept t s' a' := by
  refine Along.keeps (I := fun s => ∃ a, Kept t s a) ?_ hmeets ⟨a, h⟩ hrun
  rintro s op b s' ⟨hfinds, halone⟩ ⟨a, h⟩ hexec
  cases op with
  | insert key val len =>
    obtain ⟨pm, a₁, -, -, ⟨-, -, hkept⟩ | ⟨-, addr, pp, a', header, i, -, -, -, hkept⟩⟩ :=
      h.insert_steps (hfinds a h.laid.manager).1 hexec
    · exact ⟨a₁, hkept⟩
    · exact ⟨a', hkept⟩
  | remove key => exact h.remove hfinds halone hexec

/-- In every state that insertions and removals of one thread lead to, when each removal has given back
a block without another record: the block of a record in use is no block for `P_Leaf`s, and the next
insertion neither takes it for its segment nor writes into the record. -/
theorem live_records_kept (poolLen : Nat) (hpool : mmapStart + poolLen ≤ 2 ^ 48) (t : Tid)
    (junkInner : Addr → InnerNode) (junkLeaf : Addr → DLeaf) (n : Nat) (ops : List ThreadOp)
    {s₀ s : TreeState Nvm} (hinit : init (Nvm.fresh poolLen) t junkInner junkLeaf = .ok s₀)
    (hmeets : Along (fun s op => FindsBlock t s op ∧ FreesAlone t s op) n t s₀ ops)
    (hrun : runThreads n s₀ (ops.map fun op => (t, op)) = .ok s) {q : Addr} (hq : s.Recorded q) :
    (∀ a id header, s.pm.managers t = some a → a.list .node id = some header → ¬ Nvm.InBlock header q) ∧
      ∀ rounds key val len b s', FindsBlock t s (.insert key val len) →
        ZBTree.insert rounds s t key val len = .ok (b, s') → ∃ pm, NodeCalls t s.pm pm ∧
          ((b = false ∧ s'.pm = pm) ∨
            (b = true ∧ ∃ addr pp, appendOne pm t key val pp LOG_INSERT len = some (addr, s'.pm) ∧
              (addr + logNodeSize ≤ q ∨ q + logNodeSize ≤ addr) ∧
              ((pm.workers t).needsSegment len → ∀ i, Nvm.InBlock (blockAt mmapStart i) q →
                ¬ Nvm.InBlock (blockAt mmapStart i) (s'.pm.workers t).logVec))) := by
  obtain ⟨a₀, h₀, hseg, hnone⟩ := recording_init hpool hinit
  have hkept₀ : Kept t s₀ a₀ := by
    refine ⟨h₀.laid, fun q hq => absurd hq (hnone q), fun header i hat => ?_⟩
    rw [hat.logVec] at hseg
    exact absurd hseg (Nat.ne_of_gt (Nat.add_pos_right header (by decide)))
  obtain ⟨a, h⟩ := hkept₀.run hmeets hrun
  obtain ⟨header, node, rfl, hsafe⟩ := h.cells q hq
  constructor
  · -- the block of the record is no tree block of its pool
    intro a' id header' hmanager hlist hin
    rw [h.laid.manager, Option.some.injEq] at hmanager
    subst hmanager
    have hnode := h.laid.indexed.listed .node id header' hlist
    have hown := hsafe.node_in.in_block.2
    have hne : header ≠ header' := by
      rintro rfl
      cases hnode.kind_unique hsafe.node_in.cut
    have hapart := hsafe.node_in.cut.apart hnode rfl hne
    unfold Nvm.InBlock at hin hown
    omega
  · -- an insertion that follows writes beside the record
    intro rounds key val len b s' hfinds hinsert
    obtain ⟨pm, a₁, hcalls, hcalled, hend⟩ := h.insert_steps (hfinds a h.laid.manager).1 hinsert
    refine ⟨pm, hcalls, ?_⟩
    rcases hend with ⟨hb, hpm, -⟩ | ⟨hb, addr, pp, a', header', i, happend, rfl, happended, -⟩
    · exact Or.inl ⟨hb, hpm⟩
    · obtain ⟨-, hapart, hother⟩ := (hsafe.called hcalled).appended happended
      refine Or.inr ⟨hb, _, pp, happend, ?_, fun hneeds j hin hvec => ?_⟩
      · rcases hapart with hlow | hhigh
        · left
          rw [Nat.add_right_comm]
          exact Nat.add_le_add_right hlow _
        · right
          rw [Nat.add_right_comm]
          exact Nat.add_le_add_right hhigh _
      · apply hother hneeds
        obtain ⟨k, hk⟩ := hsafe.node_in.cut.in_row
        obtain ⟨k', hk'⟩ := happended.cut.in_row
        rw [h.laid.start] at hk
        rw [happended.moves.start, hcalled.moves.start, h.laid.start] at hk'
        have hown := hsafe.node_in.in_block.2
        have hsegment : Nvm.InBlock header' (s'.pm.workers t).logVec := by
          rw [happended.worker.logVec]
          exact ⟨Nat.le_add_right _ _, Nat.add_lt_add_left (by decide) _⟩
        rw [hk] at hown
        rw [hk'] at hsegment
        rw [hk, hk', hown.unique hin, hsegment.unique hvec]

/-- Records that fill a block each. The removal of the first gives its block back, and three more blocks
are cut before it can be handed out again. -/
def ownBlocks : List ThreadOp :=
  [.insert 1 10 0x4000000, .insert 2 20 0x4000000, .remove 1, .insert 3 30 0x4000000, .insert 4 40 0x4000000]

def ownBlocksRun : Exec (TreeState Nvm × TreeState Nvm × TreeState Nvm) := do
  let s₀ ← init (Nvm.fresh (32 * CHUNK_SIZE)) 0 zeroInner zeroLeaf
  let s ← runThreads 3 s₀ (ownBlocks.map fun op => (0, op))
  let r ← insert 3 s 0 5 50 0x4000000
  if r.1 then return (s₀, s, r.2) else .error .spin

/-- The next insertion takes the block that was given back, and leaves the records of the other keys as
they are. -/
theorem live_records_kept_recycled : ∃ s s',
    runFresh (32 * CHUNK_SIZE) 0 zeroInner zeroLeaf 3 (ownBlocks.map fun op => (0, op)) = .ok s ∧
    insert 3 s 0 5 50 0x4000000 = .ok (true, s') ∧ (s'.pm.workers 0).logVec = firstCell ∧
    (s.slotList.map fun x => x.2.2) = [5, 6, 7].map (fun i => blockAt mmapStart i + baseMetaSize + logKeyOffset) ∧
    ∀ q, s.Recorded q → ∃ pm addr pp, NodeCalls 0 s.pm pm ∧
      appendOne pm 0 5 50 pp LOG_INSERT 0x4000000 = some (addr, s'.pm) ∧
      (addr + logNodeSize ≤ q ∨ q + logNodeSize ≤ addr) := by
  have hfacts : ownBlocksRun.toOption.map (fun r =>
      (along (fun s op => findsBlock 0 s op && freesAlone 0 s op) 3 0 r.1 ownBlocks,
        findsBlock 0 r.2.1 (.insert 5 50 0x4000000), (r.2.2.pm.workers 0).logVec,
        r.2.1.slotList.map fun x => x.2.2)) =
      some (true, true, firstCell,
        [5, 6, 7].map fun i => blockAt mmapStart i + baseMetaSize + logKeyOffset) := by
    decide +kernel
  obtain ⟨⟨s₀, s, s'⟩, hrun, hvalues⟩ := exec_of_map hfacts
  rw [Prod.mk.injEq, Prod.mk.injEq, Prod.mk.injEq] at hvalues
  obtain ⟨hmeets, hnext, hvec, hslots⟩ := hvalues
  simp only [ownBlocksRun, bind_eq_ok] at hrun
  obtain ⟨s₀', hinit, s₁, hrun, ⟨b, s₂⟩, hinsert, hend⟩ := hrun
  cases b with
  | false => cases hend
  | true =>
    cases hend
    have hbelow₀ := init_below hinit
    have hbelow := runThreads_below hrun hbelow₀
    have halong : Along (fun s op => FindsBlock 0 s op ∧ FreesAlone 0 s op) 3 0 s₀ ownBlocks := by
      refine along_sound (fun s op hs hop => ?_) hbelow₀ hmeets
      obtain ⟨hfinds, halone⟩ := Bool.and_eq_true_iff.mp hop
      exact ⟨findsBlock_sound hs hfinds, freesAlone_sound hs halone⟩
    refine ⟨s, s₂, ?_, hinsert, hvec, hslots, fun q hq => ?_⟩
    · rw [runFresh, hinit]
      exact hrun
    · obtain ⟨-, hkept⟩ := live_records_kept (32 * CHUNK_SIZE) (by decide) 0 zeroInner zeroLeaf 3 ownBlocks
        hinit halong hrun hq
      obtain ⟨pm, hcalls, ⟨hb, -⟩ | ⟨-, addr, pp, happend, hapart, -⟩⟩ :=
        hkept 3 5 50 0x4000000 true s₂ (findsBlock_sound hbelow hnext) hinsert
      · cases hb
      · exact ⟨pm, addr, pp, hcalls, happend, hapart⟩

/-- Two records in the first log block, then four blocks for one record each. The removal of the first
record gives the first block back, before the third and the fourth of these are taken. -/
def reusedBlock : Exec (TreeState Nvm × TreeState Nvm × TreeState Nvm × Word × Word) := do
  let s ← runFresh (32 * CHUNK_SIZE) 0 zeroInner zeroLeaf 3
    [(0, .insert 1 10 8), (0, .insert 2 20 8), (0, .insert 3 30 0x4000000), (0, .remove 1),
      (0, .insert 4 40 0x4000000), (0, .insert 5 50 0x4000000)]
  let before ← find s 2
  let r ← insert 3 s 0 6 60 0x4000000
  let r' ← insert 3 r.2 0 7 70 8
  let after ← find r'.2 2
  if r.1 && r'.1 then return (s, r.2, r'.2, before.1, after.1) else .error .spin

def reusedFacts (s s' : TreeState Nvm) : Option (Nat × Addr) × Nat × Nat :=
  ((s.dleafHeap 1).map fun m => (m.maxUse, m.ptr 1), (s.pm.workers 0).logVec, (s'.pm.workers 0).logVec)

/-- The block of a live record is handed out again, and the record is overwritten. -/
theorem live_block_reused : ∃ s s' s'' u u',
    runFresh (32 * CHUNK_SIZE) 0 zeroInner zeroLeaf 3
      [(0, .insert 1 10 8), (0, .insert 2 20 8), (0, .insert 3 30 0x4000000), (0, .remove 1),
        (0, .insert 4 40 0x4000000), (0, .insert 5 50 0x4000000)] = .ok s ∧
    s.Recorded (firstCell + logNodeSize + logKeyOffset) ∧ find s 2 = .ok (20, u) ∧
    insert 3 s 0 6 60 0x4000000 = .ok (true, s') ∧
    (s.pm.workers 0).logVec = blockAt mmapStart 7 + baseMetaSize ∧ (s'.pm.workers 0).logVec = firstCell ∧
    Nvm.InBlock (blockAt mmapStart 4) (firstCell + logNodeSize + logKeyOffset) ∧
    insert 3 s' 0 7 70 8 = .ok (true, s'') ∧ find s'' 2 = .ok (0, u') := by
  have hfacts : reusedBlock.toOption.map (fun r => (reusedFacts r.1 r.2.1, r.2.2.2)) =
      some ((some (4, firstCell + logNodeSize + logKeyOffset), blockAt mmapStart 7 + baseMetaSize, firstCell),
        20, 0) := by
    decide +kernel
  obtain ⟨⟨s, s', s'', v, w⟩, hrun, hvalues⟩ := exec_of_map hfacts
  simp only [reusedBlock, bind_eq_ok] at hrun
  obtain ⟨s₁, hrun, ⟨v', u⟩, hfind, ⟨b, s₂⟩, hinsert, ⟨b', s₃⟩, hinsert', ⟨w', u'⟩, hfind', hend⟩ := hrun
  cases b with
  | false => cases hend
  | true =>
    cases b' with
    | false => cases hend
    | true =>
      cases hend
      simp only [reusedFacts, Prod.mk.injEq, Option.map_eq_some_iff] at hvalues
      obtain ⟨⟨⟨m, hm, huse, hptr⟩, hvec, hvec'⟩, rfl, rfl⟩ := hvalues
      exact ⟨s, s₂, s₃, u, u', hrun, ⟨1, 1, m, hm, by rw [huse]; decide, hptr⟩, hfind, hinsert, hvec, hvec',
        ⟨by decide, by decide⟩, hinsert', hfind'⟩

end ZBTree
