import ZBTree.BTreeShape
import ZBTree.MapContract
import ZBTree.QuickInsert
import ZBTree.Threads

/-!
# Maps between memories

The tree reaches persistent memory through `Pmem` only. A map of memories that keeps what
the accesses find therefore keeps what the operations do: a run over `P` that returns is a
run over `Q` with the same answers, the same DRAM objects and the image of the memory.
-/

namespace ZBTree

open Pmem

/-- `f p` reads like `p`, and what the other accesses do in `p` they do in `f p`, for the threads
and the record versions named. -/
structure PmemMap {P Q : Type} [Pmem P] [Pmem Q] (threads : Tid → Prop) (versions : BitVec 32 → Prop)
    (f : P → Q) : Prop where
  key (p : P) (a : Addr) : logKey (f p) a = logKey p a
  val (p : P) (a : Addr) : logVal (f p) a = logVal p a
  leaf (p : P) (q : Addr) : pleaf (f p) q = pleaf p q
  append {p p' : P} {t k v pp op version a} : threads t → versions version →
    appendOne p t k v pp op version = some (a, p') →
    appendOne (f p) t k v pp op version = some (a, f p')
  alloc {p p' : P} {t q} : threads t → nAllocate p t = some (q, p') → nAllocate (f p) t = some (q, f p')
  setLeaf {p p' : P} {q l} : setPleaf p q l = some p' → setPleaf (f p) q l = some (f p')

variable {P Q : Type}

def TreeState.mapPm (f : P → Q) (s : TreeState P) : TreeState Q :=
  ⟨s.innerHeap, s.dleafHeap, s.bufHeap, s.brk, s.junkInner, s.junkLeaf, f s.pm, s.root, s.tempLevel,
    s.leafStart, s.dstart⟩

variable {f : P → Q} {s s' : TreeState P} {key splitKey : Key} {leaf : Addr}

@[simp] theorem mapPm_pm : (s.mapPm f).pm = f s.pm := rfl
@[simp] theorem mapPm_innerHeap : (s.mapPm f).innerHeap = s.innerHeap := rfl
@[simp] theorem mapPm_dleafHeap : (s.mapPm f).dleafHeap = s.dleafHeap := rfl
@[simp] theorem mapPm_bufHeap : (s.mapPm f).bufHeap = s.bufHeap := rfl
@[simp] theorem mapPm_root : (s.mapPm f).root = s.root := rfl
@[simp] theorem mapPm_tempLevel : (s.mapPm f).tempLevel = s.tempLevel := rfl

@[simp] theorem mapPm_setLeaf (a : Addr) (m : DLeaf) :
    (s.mapPm f).setLeaf a m = (s.setLeaf a m).mapPm f := rfl

@[simp] theorem mapPm_setPm (p : P) : { s.mapPm f with pm := f p } = { s with pm := p }.mapPm f := rfl

/-! ### Descents and inner nodes -/

theorem findInsertFrom_map (d : Nat) (start : Addr) :
    findInsertFrom (s.mapPm f) key d start = findInsertFrom s key d start := by
  induction d generalizing start with
  | zero => rfl
  | succ d ih => simp only [findInsertFrom, mapPm_innerHeap, ih]

@[simp] theorem findInsert_map : findInsert (s.mapPm f) key = findInsert s key := by
  simp only [findInsert, mapPm_tempLevel, mapPm_root, findInsertFrom_map]

theorem descendFrom_map (d : Nat) (start : Addr) :
    descendFrom (s.mapPm f) key d start = descendFrom s key d start := by
  induction d generalizing start with
  | zero => rfl
  | succ d ih => simp only [descendFrom, mapPm_innerHeap, ih]

theorem splitLevel_map {c : Cursor} {right : Addr} {carry : Option (Key × Addr)}
    (h : splitLevel s c key right = .ok (s', carry)) :
    splitLevel (s.mapPm f) c key right = .ok (s'.mapPm f, carry) := by
  unfold splitLevel at h ⊢
  simp only [bind_eq_ok] at h
  obtain ⟨nd, hnd, h⟩ := h
  simp only [mapPm_innerHeap, hnd, ok_bind]
  split at h
  · cases h
    rw [if_pos ‹_›]
    rfl
  · cases h
    rw [if_neg ‹_›]
    rfl

theorem splitInnerLoop_map {path : List Cursor} {right : Addr}
    (h : splitInnerLoop s path key right = .ok s') :
    splitInnerLoop (s.mapPm f) path key right = .ok (s'.mapPm f) := by
  induction path generalizing s key right with
  | nil =>
    cases h
    rfl
  | cons c above ih =>
    unfold splitInnerLoop at h ⊢
    simp only [bind_eq_ok] at h
    obtain ⟨⟨s₁, carry⟩, hlevel, h⟩ := h
    simp only [splitLevel_map hlevel, ok_bind]
    cases carry with
    | none =>
      cases h
      rfl
    | some up =>
      dsimp only at h ⊢
      split at h
      · cases h
        rw [if_pos ‹_›]
        rfl
      · rw [if_neg ‹_›]
        exact ih h

theorem installSeparator_map {leaf₂ insertLeaf : Addr}
    (h : installSeparator s key splitKey leaf leaf₂ insertLeaf = .ok s') :
    installSeparator (s.mapPm f) key splitKey leaf leaf₂ insertLeaf = .ok (s'.mapPm f) := by
  unfold installSeparator at h ⊢
  simp only [bind_eq_ok, deref_eq_ok] at h
  obtain ⟨s₁, hrecord, m, hm, h⟩ := h
  cases h
  have hrecord' : recordSplit (s.mapPm f) key splitKey leaf leaf₂ = .ok (s₁.mapPm f) := by
    unfold recordSplit at hrecord ⊢
    rw [mapPm_tempLevel, findInsert_map]
    split at hrecord
    · cases hrecord
      rw [if_pos ‹_›]
      rfl
    · obtain ⟨r, hfind, hsplit⟩ := bind_eq_ok.mp hrecord
      rw [if_neg ‹_›, hfind, ok_bind]
      exact splitInnerLoop_map hsplit
  simp only [hrecord', ok_bind, mapPm_dleafHeap, hm, deref_some, pure_eq_ok, mapPm_setLeaf]

theorem lockLeaf_map {b : Bool} (h : lockLeaf s key = .ok (b, leaf, s')) :
    lockLeaf (s.mapPm f) key = .ok (b, leaf, s'.mapPm f) := by
  unfold lockLeaf at h ⊢
  simp only [bind_eq_ok] at h
  obtain ⟨r, hfind, m, hm, h⟩ := h
  simp only [findInsert_map, hfind, mapPm_dleafHeap, ok_bind, hm]
  split at h
  · cases h
    rw [if_pos ‹_›]
    rfl
  · cases h
    rw [if_neg ‹_›]
    rfl

/-! ### Reading records -/

variable [Pmem P] [Pmem Q] {threads : Tid → Prop} {versions : BitVec 32 → Prop}

namespace PmemMap

variable (hf : PmemMap threads versions f) (p : P) (m : DLeaf) (n : Nat)

include hf

theorem duplicate (i : Nat) : ZBTree.duplicate (f p) m key n i = ZBTree.duplicate p m key n i := by
  induction n generalizing i with
  | zero => rfl
  | succ n ih => simp only [ZBTree.duplicate, hf.key, ih]

theorem findRoot (i : Nat) : ZBTree.findRoot (f p) m key n i = ZBTree.findRoot p m key n i := by
  induction n generalizing i with
  | zero => rfl
  | succ n ih => simp only [ZBTree.findRoot, hf.key, hf.val, ih]

theorem findSlots (i : Nat) : ZBTree.findSlots (f p) m key n i = ZBTree.findSlots p m key n i := by
  induction n generalizing i with
  | zero => rfl
  | succ n ih => simp only [ZBTree.findSlots, hf.key, hf.val, ih]

theorem readEntries : ZBTree.readEntries (f p) m n = ZBTree.readEntries p m n := by
  induction n with
  | zero => rfl
  | succ n ih => simp only [ZBTree.readEntries, hf.key, hf.val, ih]

theorem quickScan (i : Nat) (b : Bool) :
    ZBTree.quickScan (f p) key n i b m = ZBTree.quickScan p key n i b m := by
  induction n generalizing i b m with
  | zero => rfl
  | succ n ih => simp only [ZBTree.quickScan, hf.key, ih]

/-! ### Operations -/

variable {p : P} {n : Nat} {t : Tid} {b : Bool} {v : Word}

theorem find (h : find s key = .ok (v, s')) : ZBTree.find (s.mapPm f) key = .ok (v, s'.mapPm f) := by
  unfold ZBTree.find findExamine at h ⊢
  simp only [mapPm_tempLevel, mapPm_root, mapPm_dleafHeap, mapPm_bufHeap, mapPm_pm, descendFrom_map,
    hf.findRoot, hf.findSlots]
  split_ifs at h ⊢
  · simp only [bind_eq_ok, deref_eq_ok] at h
    obtain ⟨m, hm, w, hw, h⟩ := h
    cases h
    simp only [hm, deref_some, ok_bind, hw]
    rfl
  · simp only [bind_eq_ok, deref_eq_ok] at h
    obtain ⟨leaf, hleaf, m, hm, h⟩ := h
    simp only [hleaf, hm, deref_some, ok_bind]
    split_ifs at h ⊢
    · simp only [bind_eq_ok, deref_eq_ok] at h
      obtain ⟨buf, hbuf, h⟩ := h
      cases h
      simp only [hbuf, deref_some, ok_bind]
      rfl
    · obtain ⟨r, hr, h⟩ := bind_eq_ok.mp h
      simp only [hr, ok_bind]
      cases r with
      | none =>
        cases h
        rfl
      | some found =>
        cases h
        rfl

theorem fillSlot (ht : threads t) {valueLen : BitVec 32} (hlen : versions valueLen)
    (h : fillSlot s t key v valueLen leaf = .ok s') :
    ZBTree.fillSlot (s.mapPm f) t key v valueLen leaf = .ok (s'.mapPm f) := by
  unfold ZBTree.fillSlot at h ⊢
  simp only [bind_eq_ok, deref_eq_ok] at h
  obtain ⟨m, hm, ⟨a, p⟩, happend, h⟩ := h
  cases h
  simp only [mapPm_dleafHeap, mapPm_pm, hm, deref_some, ok_bind, hf.append ht hlen happend]
  rfl

theorem splitLeaf (ht : threads t) {pl a : Addr} {dramBuffer : Nat → AdaptiveSlot}
    {keys : Nat → NodeEntry} (h : splitLeaf s t pl leaf dramBuffer keys = .ok (a, s')) :
    ZBTree.splitLeaf (s.mapPm f) t pl leaf dramBuffer keys = .ok (a, s'.mapPm f) := by
  unfold ZBTree.splitLeaf linkPleaf at h ⊢
  simp only [bind_eq_ok, deref_eq_ok] at h
  obtain ⟨⟨newLeaf, p⟩, halloc, old, hold, p₂, ⟨l, hl, p₁, hset, l₁, hl₁, hset₁⟩, h⟩ := h
  cases h
  simp only [mapPm_dleafHeap, mapPm_pm, hf.alloc ht halloc, hold, hf.leaf, hl, hf.setLeaf hset, hl₁,
    hf.setLeaf hset₁, deref_some, ok_bind]
  rfl

theorem splitFull (ht : threads t) {a pl : Addr} (h : splitFull s t leaf = .ok (a, splitKey, pl, s')) :
    ZBTree.splitFull (s.mapPm f) t leaf = .ok (a, splitKey, pl, s'.mapPm f) := by
  unfold ZBTree.splitFull at h ⊢
  simp only [bind_eq_ok, deref_eq_ok] at h
  obtain ⟨m, hm, buf, hbuf, ⟨keys, fingers⟩, hsort, ⟨leaf₂, s₂⟩, hsplit, h⟩ := h
  cases h
  simp only [mapPm_dleafHeap, mapPm_pm, hm, deref_some, ok_bind, hf.readEntries, hbuf, hsort]
  exact bind_eq_ok.mpr ⟨_, hf.splitLeaf ht hsplit, rfl⟩

theorem insert (ht : threads t) {valueLen : BitVec 32} (hlen : versions valueLen)
    (h : insert n s t key v valueLen = .ok (b, s')) :
    ZBTree.insert n (s.mapPm f) t key v valueLen = .ok (b, s'.mapPm f) := by
  induction n generalizing s with
  | zero => cases h
  | succ n ih =>
    unfold ZBTree.insert at h ⊢
    simp only [bind_eq_ok] at h
    obtain ⟨⟨lockState, leaf, s₁⟩, hlock, h⟩ := h
    simp only [lockLeaf_map hlock, ok_bind]
    cases lockState with
    | false => exact ih h
    | true =>
      simp only [Bool.not_true, Bool.false_eq_true, if_false, bind_eq_ok] at h ⊢
      obtain ⟨m, hm, dup, hdup, h⟩ := h
      refine ⟨m, hm, dup, (hf.duplicate _ _ _ _).trans hdup, ?_⟩
      split_ifs at h ⊢
      · cases h
        rfl
      · obtain ⟨s₂, hfill, h⟩ := bind_eq_ok.mp h
        cases h
        exact bind_eq_ok.mpr ⟨_, hf.fillSlot ht hlen hfill, rfl⟩
      · obtain ⟨⟨leaf₂, splitKey, insertLeaf, s₂⟩, hsplit, h⟩ := bind_eq_ok.mp h
        obtain ⟨s₃, hinstall, h⟩ := bind_eq_ok.mp h
        refine bind_eq_ok.mpr ⟨_, hf.splitFull ht hsplit, ?_⟩
        exact bind_eq_ok.mpr ⟨_, installSeparator_map hinstall, ih h⟩

theorem init (ht : threads t) {junkInner : Addr → InnerNode} {junkLeaf : Addr → DLeaf}
    (h : init p t junkInner junkLeaf = .ok s) :
    ZBTree.init (f p) t junkInner junkLeaf = .ok (s.mapPm f) := by
  unfold ZBTree.init at h ⊢
  simp only [bind_eq_ok, deref_eq_ok] at h
  obtain ⟨⟨newRoot, p₁⟩, halloc, l, hl, p₂, hset, h⟩ := h
  cases h
  simp only [hf.alloc ht halloc, hf.leaf, hl, hf.setLeaf hset, deref_some, ok_bind]
  rfl

theorem quickSplit (ht : threads t) {a pl : Addr} (h : quickSplit s t leaf = .ok (a, splitKey, pl, s')) :
    ZBTree.quickSplit (s.mapPm f) t leaf = .ok (a, splitKey, pl, s'.mapPm f) := by
  unfold ZBTree.quickSplit at h ⊢
  simp only [bind_eq_ok, deref_eq_ok] at h
  obtain ⟨m, hm, buf, hbuf, ⟨keys, fingers⟩, hsort, ⟨leaf₂, s₂⟩, hsplit, h⟩ := h
  cases h
  simp only [mapPm_dleafHeap, mapPm_pm, hm, deref_some, ok_bind, hf.readEntries, hbuf, hsort]
  exact bind_eq_ok.mpr ⟨_, hf.splitLeaf ht hsplit, rfl⟩

theorem quickInsert (ht : threads t) {a : Addr} (h : quickInsert n s t key a = .ok s') :
    ZBTree.quickInsert n (s.mapPm f) t key a = .ok (s'.mapPm f) := by
  induction n generalizing s with
  | zero => cases h
  | succ n ih =>
    unfold ZBTree.quickInsert at h ⊢
    simp only [bind_eq_ok] at h
    obtain ⟨⟨lockState, leaf, s₁⟩, hlock, h⟩ := h
    simp only [lockLeaf_map hlock, ok_bind]
    cases lockState with
    | false => exact ih h
    | true =>
      simp only [Bool.not_true, Bool.false_eq_true, if_false, bind_eq_ok] at h ⊢
      obtain ⟨m, hm, ⟨dup, m'⟩, hscan, h⟩ := h
      refine ⟨m, hm, (dup, m'), (hf.quickScan _ _ _ _ _).trans hscan, ?_⟩
      split_ifs at h ⊢
      · cases h
        rfl
      · obtain ⟨⟨leaf₂, splitKey, insertLeaf, s₂⟩, hsplit, h⟩ := bind_eq_ok.mp h
        obtain ⟨s₃, hinstall, h⟩ := bind_eq_ok.mp h
        refine bind_eq_ok.mpr ⟨_, hf.quickSplit ht hsplit, ?_⟩
        exact bind_eq_ok.mpr ⟨_, installSeparator_map hinstall, ih h⟩

/-! ### Runs -/

/-- The lengths that a run of the map passes on to the log. -/
def LengthsIn (versions : BitVec 32 → Prop) (ops : List MapOp) : Prop :=
  ∀ key val len, MapOp.insert key val len ∈ ops → versions len

omit hf in
theorem LengthsIn.of_all {versions : BitVec 32 → Prop} [DecidablePred versions] {ops : List MapOp}
    (h : (ops.all fun
      | .insert _ _ len => decide (versions len)
      | .find _ => true) = true) : LengthsIn versions ops :=
  fun _ _ _ hop => of_decide_eq_true (List.all_eq_true.mp h _ hop)

omit hf in
theorem LengthsIn.cons {op : MapOp} {ops : List MapOp} (h : LengthsIn versions (op :: ops)) :
    LengthsIn versions [op] ∧ LengthsIn versions ops :=
  ⟨fun key val len hmem => h key val len (List.mem_singleton.mp hmem ▸ List.mem_cons_self),
    fun key val len hmem => h key val len (List.mem_cons_of_mem _ hmem)⟩

theorem mapStep (ht : threads t) {op : MapOp} (hlen : LengthsIn versions [op]) {answer : Answer}
    (h : mapStep t s op = .ok (answer, s')) : ZBTree.mapStep t (s.mapPm f) op = .ok (answer, s'.mapPm f) := by
  cases op with
  | insert key val len =>
    unfold ZBTree.mapStep at h ⊢
    obtain ⟨⟨done, s₁⟩, hrun, h⟩ := bind_eq_ok.mp h
    cases h
    exact bind_eq_ok.mpr ⟨_, hf.insert ht (hlen key val len List.mem_cons_self) hrun, rfl⟩
  | find key =>
    unfold ZBTree.mapStep at h ⊢
    obtain ⟨⟨val, s₁⟩, hrun, h⟩ := bind_eq_ok.mp h
    cases h
    exact bind_eq_ok.mpr ⟨_, hf.find hrun, rfl⟩

theorem quickRun (ht : threads t) {records : List (Key × Addr)} (h : quickRun t s records = .ok s') :
    ZBTree.quickRun t (s.mapPm f) records = .ok (s'.mapPm f) := by
  induction records generalizing s with
  | nil =>
    cases h
    rfl
  | cons r rest ih =>
    unfold ZBTree.quickRun at h ⊢
    obtain ⟨s₁, hone, h⟩ := bind_eq_ok.mp h
    exact bind_eq_ok.mpr ⟨_, hf.quickInsert ht hone, ih h⟩

/-! ### Interleaved sections

Runs of several threads are runs of sections, and a section reaches persistent memory like an operation does. So a
map of memories carries a schedule over as well. -/

theorem insertSection (ht : threads t) {pc : Pc} (hlen : versions pc.request.valueLen) {o : Outcome}
    (h : insertSection s t pc = .ok (o, s')) :
    ZBTree.insertSection (s.mapPm f) t pc = .ok (o, s'.mapPm f) := by
  cases pc with
  | searching r =>
    unfold ZBTree.insertSection at h ⊢
    obtain ⟨⟨lockState, leaf, s₁⟩, hlock, h⟩ := bind_eq_ok.mp h
    refine bind_eq_ok.mpr ⟨_, lockLeaf_map hlock, ?_⟩
    dsimp only at h ⊢
    split_ifs at h ⊢ <;> cases h <;> rfl
  | locked r leaf =>
    unfold ZBTree.insertSection at h ⊢
    simp only [bind_eq_ok, deref_eq_ok] at h
    obtain ⟨m, hm, dup, hdup, h⟩ := h
    simp only [mapPm_dleafHeap, mapPm_pm, hm, deref_some, ok_bind, hf.duplicate, hdup]
    split_ifs at h ⊢
    · cases h
      rfl
    · obtain ⟨s₂, hfill, h⟩ := bind_eq_ok.mp h
      cases h
      exact bind_eq_ok.mpr ⟨_, hf.fillSlot ht hlen hfill, rfl⟩
    · obtain ⟨⟨leaf₂, splitKey, insertLeaf, s₂⟩, hsplit, h⟩ := bind_eq_ok.mp h
      cases h
      exact bind_eq_ok.mpr ⟨_, hf.splitFull ht hsplit, rfl⟩
  | splitting r leaf leaf₂ splitKey insertLeaf =>
    unfold ZBTree.insertSection at h ⊢
    obtain ⟨s₁, hinstall, h⟩ := bind_eq_ok.mp h
    cases h
    exact bind_eq_ok.mpr ⟨_, installSeparator_map hinstall, rfl⟩

omit hf [Pmem Q] in
/-- The next section of a call works on the same request. -/
theorem section_request {pc pc' : Pc} (h : ZBTree.insertSection s t pc = .ok (.goto pc', s')) :
    pc'.request = pc.request := by
  cases pc with
  | searching r =>
    obtain ⟨⟨lockState, leaf, s₁⟩, -, h⟩ := bind_eq_ok.mp h
    dsimp only at h
    split_ifs at h <;> cases h <;> rfl
  | locked r leaf =>
    unfold ZBTree.insertSection at h
    simp only [bind_eq_ok] at h
    obtain ⟨m, -, dup, -, h⟩ := h
    split_ifs at h
    · cases h
    · obtain ⟨s₂, -, h⟩ := bind_eq_ok.mp h
      cases h
    · obtain ⟨r₂, -, h⟩ := bind_eq_ok.mp h
      cases h
      rfl
  | splitting r leaf leaf₂ splitKey insertLeaf =>
    obtain ⟨s₁, -, h⟩ := bind_eq_ok.mp h
    cases h
    rfl

end PmemMap

def Config.mapPm (f : P → Q) (c : Config P) : Config Q := ⟨c.tree.mapPm f, c.pc, c.returned⟩

/-- The calls that are made, and those under way, are ones that `f` is promised for. -/
def Event.Within (threads : Tid → Prop) (versions : BitVec 32 → Prop) : Event → Prop
  | .call t r => threads t ∧ versions r.valueLen
  | .run _ => True

instance {threads : Tid → Prop} {versions : BitVec 32 → Prop} [DecidablePred threads] [DecidablePred versions] :
    DecidablePred (Event.Within threads versions)
  | .call _ _ => inferInstanceAs (Decidable (_ ∧ _))
  | .run _ => isTrue trivial

def Config.Within (threads : Tid → Prop) (versions : BitVec 32 → Prop) (c : Config P) : Prop :=
  ∀ t pc, c.pc t = some pc → threads t ∧ versions pc.request.valueLen

theorem Config.Within.step {c c' : Config P} {e : Event} (hc : c.Within threads versions)
    (he : e.Within threads versions) (h : c.step e = .ok c') : c'.Within threads versions := by
  cases e with
  | call t r =>
    cases hpc : c.pc t with
    | none =>
      simp only [Config.step, hpc] at h
      cases h
      intro t' pc hpc'
      rcases Config.enter_pc hpc' with ⟨rfl, rfl⟩ | ⟨-, hold⟩
      · exact he
      · exact hc t' pc hold
    | some pc =>
      simp only [Config.step, hpc] at h
      cases h
      exact hc
  | run t =>
    cases hpc : c.pc t with
    | none =>
      simp only [Config.step, hpc] at h
      cases h
      exact hc
    | some pc =>
      simp only [Config.step, hpc] at h
      obtain ⟨⟨o, s⟩, hsection, h⟩ := bind_eq_ok.mp h
      cases h
      intro t' pc' hpc'
      change (c.after t pc o s).pc t' = some pc' at hpc'
      rcases Config.after_pc hpc' with ⟨rfl, rfl⟩ | ⟨-, hold⟩
      · rw [PmemMap.section_request hsection]
        exact hc t' pc hpc
      · exact hc t' pc' hold

namespace PmemMap

variable (hf : PmemMap threads versions f) {c c' : Config P} {e : Event}

include hf

theorem configStep (hc : c.Within threads versions) (h : c.step e = .ok c') :
    (c.mapPm f).step e = .ok (c'.mapPm f) := by
  cases e with
  | call t r =>
    cases hpc : c.pc t with
    | none =>
      simp only [Config.step, hpc] at h
      cases h
      simp only [Config.step, Config.mapPm, hpc, Config.enter]
    | some pc =>
      simp only [Config.step, hpc] at h
      cases h
      simp only [Config.step, Config.mapPm, hpc]
  | run t =>
    cases hpc : c.pc t with
    | none =>
      simp only [Config.step, hpc] at h
      cases h
      simp only [Config.step, Config.mapPm, hpc]
    | some pc =>
      simp only [Config.step, hpc] at h
      obtain ⟨⟨o, s⟩, hsection, h⟩ := bind_eq_ok.mp h
      cases h
      obtain ⟨ht, hlen⟩ := hc t pc hpc
      simp only [Config.step, Config.mapPm, hpc, hf.insertSection ht hlen hsection, ok_bind, pure_eq_ok]

theorem configRun {es : List Event} (hc : c.Within threads versions) (hes : ∀ e ∈ es, e.Within threads versions)
    (h : c.run es = .ok c') : (c.mapPm f).run es = .ok (c'.mapPm f) := by
  induction es generalizing c with
  | nil =>
    cases h
    rfl
  | cons e es ih =>
    unfold Config.run at h ⊢
    obtain ⟨c₁, hstep, h⟩ := bind_eq_ok.mp h
    have hc₁ := hc.step (hes e List.mem_cons_self) hstep
    exact bind_eq_ok.mpr ⟨_, hf.configStep hc hstep, ih hc₁ (fun e' he' => hes e' (List.mem_cons_of_mem _ he')) h⟩

/-! ### What the image shows -/

theorem hasKey {p : P} {m : DLeaf} {i : Nat} : HasKey (f p) m key i ↔ HasKey p m key i := by
  unfold HasKey
  rw [hf.key]

theorem treeAt {d : Nat} {lo : WithBot Key} {hi : WithTop Key} {a : Addr} {leaves : List Addr}
    (h : TreeAt s d lo hi a leaves) : TreeAt (s.mapPm f) d lo hi a leaves := by
  induction d generalizing lo hi a leaves with
  | zero =>
    obtain ⟨rfl, m, hm, huse, hkeys⟩ := h
    exact ⟨rfl, m, hm, huse, fun i k hk => hkeys i k (hf.hasKey.mp hk)⟩
  | succ d ih =>
    obtain ⟨nd, hnd, hsize, hsorted, hnull, hdistinct, parts, rfl, hparts⟩ := h
    exact ⟨nd, hnd, hsize, hsorted, hnull, hdistinct, parts, rfl, fun j hj => ih (hparts j hj)⟩

theorem wellFormed {leaves : List Addr} (h : WellFormed s leaves) : WellFormed (s.mapPm f) leaves where
  tree := hf.treeAt h.tree
  nodup := h.nodup
  dchain := h.dchain
  pchain i hi := by
    have hnext : pnext (s.mapPm f).pm = pnext s.pm := by
      funext q
      unfold pnext
      rw [mapPm_pm, hf.leaf]
    rw [hnext]
    exact h.pchain i hi

theorem foundAt {v : Word} (h : FoundAt s key v) : FoundAt (s.mapPm f) key v := by
  obtain ⟨path, L, m, hfind, hm, hv⟩ := h
  refine ⟨path, L, m, findInsert_map.trans hfind, hm, ?_⟩
  have hholds : Holds (f s.pm) m key v ↔ Holds s.pm m key v := by
    unfold Holds
    simp only [hf.hasKey, hf.val]
  simp only [mapPm_pm, hholds]
  exact hv

end PmemMap

end ZBTree
