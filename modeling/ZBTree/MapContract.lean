import ZBTree.Sequential
import ZBTree.BTreeShape

/-!
# Insert and find implement a map

A run of `insert`s of distinct keys with `find`s in between, on a fresh tree, answers as
a finite map does, and the tree it reaches is a well-formed B+-tree. The memory is any
`LawfulPmem` with room for the run. `insert 2` is `insert` with two rounds, so at most
one leaf is split on the way.
-/

namespace ZBTree

open RangeIndex Pmem LawfulPmem

/-! ### The map

A run of insertions and searches is compared with a run on a finite map, operation by operation. The tree stands
for a map when its used slots point to the records of exactly the pairs of the map. -/

inductive MapOp where
  | insert (key : Key) (val : Word) (valueLen : BitVec 32)
  | find (key : Key)

inductive Answer where
  | inserted (done : Bool)
  | found (val : Word)
deriving DecidableEq

def insertedKeys : List MapOp → List Key
  | [] => []
  | .insert key _ _ :: ops => key :: insertedKeys ops
  | .find _ :: ops => insertedKeys ops

/-- One operation on a map; a key that is not there is found as `0`. -/
def specStep (M : Key → Option Word) : MapOp → Answer × (Key → Option Word)
  | .insert key val _ => (.inserted true, Function.update M key (some val))
  | .find key => (.found ((M key).getD 0), M)

def specRun (M : Key → Option Word) : List MapOp → List Answer × (Key → Option Word)
  | [] => ([], M)
  | op :: ops =>
    let (answer, M) := specStep M op
    let (answers, M) := specRun M ops
    (answer :: answers, M)

def insertOps (entries : List (Key × Word × BitVec 32)) : List MapOp :=
  entries.map fun e => .insert e.1 e.2.1 e.2.2

theorem insertedKeys_insertOps (entries : List (Key × Word × BitVec 32)) :
    insertedKeys (insertOps entries) = entries.map Prod.fst := by
  induction entries with
  | nil => rfl
  | cons e entries ih => exact congrArg (e.1 :: ·) ih

/-- Every search is for a key that is there at that time. -/
def findsPresent (M : Key → Option Word) : List MapOp → Bool
  | [] => true
  | .insert key val len :: ops => findsPresent (specStep M (.insert key val len)).2 ops
  | .find key :: ops => (M key).isSome && findsPresent M ops

theorem findsPresent_cons {M : Key → Option Word} {op : MapOp} {ops : List MapOp}
    (h : findsPresent M (op :: ops) = true) :
    (∀ key, op = .find key → (M key).isSome) ∧ findsPresent (specStep M op).2 ops = true := by
  cases op with
  | insert key val len => exact ⟨nofun, h⟩
  | find key =>
    obtain ⟨hkey, hrest⟩ := Bool.and_eq_true_iff.mp h
    refine ⟨fun key' heq => ?_, hrest⟩
    cases heq
    exact hkey

/-! ### The tree -/

variable {P : Type} [Pmem P]

def mapStep (t : Tid) (s : TreeState P) : MapOp → Exec (Answer × TreeState P)
  | .insert key val valueLen => do
    let (done, s) ← insert 2 s t key val valueLen
    return (.inserted done, s)
  | .find key => do
    let (val, s) ← find s key
    return (.found val, s)

def mapRun (t : Tid) : TreeState P → List MapOp → Exec (List Answer × TreeState P)
  | s, [] => .ok ([], s)
  | s, op :: ops => do
    let (answer, s) ← mapStep t s op
    let (answers, s) ← mapRun t s ops
    return (answer :: answers, s)

/-- `find` is asked only for keys of `M` while the tree has no inner nodes. -/
def FindsKnown (t : Tid) : TreeState P → (Key → Option Word) → List MapOp → Prop
  | _, _, [] => True
  | s, M, op :: ops =>
    (∀ key, op = .find key → s.tempLevel = 0 → (M key).isSome) ∧
      ∀ answer s', mapStep t s op = .ok (answer, s') → FindsKnown t s' (specStep M op).2 ops

theorem findsPresent_known {t : Tid} {s : TreeState P} {M : Key → Option Word} {ops : List MapOp}
    (h : findsPresent M ops = true) : FindsKnown t s M ops := by
  induction ops generalizing s M with
  | nil => trivial
  | cons op ops ih =>
    obtain ⟨hop, hops⟩ := findsPresent_cons h
    exact ⟨fun key heq _ => hop key heq, fun _ _ _ => ih hops⟩

variable [LawfulPmem P]

/-- The tree stands for the map `M`. -/
structure Represents (n : Nat) (tail : Addr) (s : TreeState P) (M : Key → Option Word) : Prop where
  inv : Inv Cuts.empty tail s
  room : Ok n s.pm
  free : AllFree s
  fresh : PairsFresh s
  content : ∀ k v, s.Contains k v ↔ M k = some v

variable {n : Nat} {tail : Addr} {s : TreeState P} {M : Key → Option Word} {k : Key}

theorem Represents.mono {n' : Nat} (h : Represents n tail s M) (hle : n' ≤ n) : Represents n' tail s M :=
  { h with room := ok_mono hle h.room }

theorem Represents.absent (h : Represents n tail s M) (hk : M k = none) : Absent s k := by
  rw [absent_iff h.inv.data.slots]
  intro v hv
  rw [h.content, hk] at hv
  exact absurd hv (by simp)

theorem Represents.inserted {n' : Nat} {s' : TreeState P} {v : Word} (h : Represents n' tail s M)
    (hk : M k = none) (hdone : Inserted tail s s' k v n) :
    Represents n tail s' (Function.update M k (some v)) := by
  refine ⟨hdone.inv, hdone.room, hdone.free h.free, hdone.grows.fresh h.fresh, ?_⟩
  intro k' v'
  rw [hdone.contains, h.content]
  by_cases hkk : k' = k
  · subst hkk
    simp [hk, eq_comm]
  · simp [hkk]

theorem Represents.insert (h : Represents (n + 2) tail s M) (t : Tid) (hk : M k = none) (v : Word)
    (len : BitVec 32) : ∃ s', ZBTree.insert 2 s t k v len = .ok (true, s') ∧
      Represents n tail s' (Function.update M k (some v)) ∧
      s'.index.length ≤ s.index.length + 1 := by
  obtain ⟨path, L, m, hfind, -, -, hm⟩ := h.inv.reaches k
  obtain ⟨s', hrun, hdone⟩ := insert_spec h.inv h.room t v len hfind hm (h.free L m hm)
    (h.absent hk) 0
  exact ⟨s', hrun, h.inserted hk hdone, hdone.leaves_le⟩

theorem Represents.find (h : Represents n tail s M) (hknown : s.tempLevel = 0 → (M k).isSome) :
    ∃ s', ZBTree.find s k = .ok ((M k).getD 0, s') ∧ Represents n tail s' M := by
  by_cases hlevel : s.tempLevel = 0
  · obtain ⟨v, hv⟩ := Option.isSome_iff_exists.mp (hknown hlevel)
    refine ⟨s, ?_, h⟩
    rw [find_root h.inv hlevel ((h.content k v).mpr hv), hv]
    rfl
  · cases hk : M k with
    | none => exact ⟨s, find_miss h.inv (Nat.pos_of_ne_zero hlevel) (h.absent hk), h⟩
    | some v =>
      obtain ⟨a, m, hm, i, hi, hval⟩ := (h.content k v).mpr hk
      obtain ⟨v', hv', hrun⟩ := find_hit h.inv (Nat.pos_of_ne_zero hlevel) hm hi
      have hcont : s.Contains k v' :=
        (h.fresh a m hm).slotVal (fun w hw => ⟨a, m, hm, hw⟩) hi hv'
      obtain rfl := h.inv.data.contains_unique ⟨a, m, hm, i, hi, hval⟩ hcont
      have hview := sameView_touch m hi.1
      refine ⟨_, hrun, h.inv.touch hm hi.1, h.room, ?_, (Grows.setLeaf hm hview).fresh h.fresh, ?_⟩
      · refine allFree_setLeaf (fun b n' _ hn => h.free b n' hn) ?_
        have hfree := h.free a m hm
        unfold DLeaf.touch
        split_ifs <;> exact hfree
      · intro k' v'
        rw [contains_setLeaf hm hview, h.content]

theorem Represents.step (h : Represents (n + 2) tail s M) (t : Tid) (op : MapOp)
    (hnew : ∀ key val len, op = .insert key val len → M key = none)
    (hknown : ∀ key, op = .find key → s.tempLevel = 0 → (M key).isSome) :
    ∃ s', mapStep t s op = .ok ((specStep M op).1, s') ∧ Represents n tail s' (specStep M op).2 := by
  cases op with
  | insert key val len =>
    obtain ⟨s', hrun, hrep, -⟩ := h.insert t (hnew key val len rfl) val len
    exact ⟨s', by simp only [mapStep, hrun, ok_bind, pure_eq_ok]; rfl, hrep⟩
  | find key =>
    obtain ⟨s', hrun, hrep⟩ := h.find (hknown key rfl)
    exact ⟨s', by simp only [mapStep, hrun, ok_bind, pure_eq_ok]; rfl,
      hrep.inv, ok_mono (Nat.le_add_right n 2) hrep.room, hrep.free, hrep.fresh, hrep.content⟩

omit [Pmem P] [LawfulPmem P] in
theorem specStep_none {op : MapOp} (hk : M k = none) (hne : k ∉ insertedKeys [op]) :
    (specStep M op).2 k = none := by
  cases op with
  | insert key val len =>
    have hkk : k ≠ key := by simpa [insertedKeys] using hne
    simp [specStep, Function.update_of_ne hkk, hk]
  | find key => exact hk

omit [Pmem P] [LawfulPmem P] in
theorem specRun_isSome (ops : List MapOp) (M : Key → Option Word) (k : Key) :
    ((specRun M ops).2 k).isSome ↔ (M k).isSome ∨ k ∈ insertedKeys ops := by
  induction ops generalizing M with
  | nil => simp [specRun, insertedKeys]
  | cons op ops ih =>
    have hstep : (specRun M (op :: ops)).2 = (specRun (specStep M op).2 ops).2 := rfl
    rw [hstep, ih]
    cases op with
    | find key => rfl
    | insert key val len =>
      by_cases hk : k = key
      · simp [specStep, insertedKeys, hk]
      · simp [specStep, insertedKeys, hk]

/-- A whole run, by induction on the operations. -/
theorem Represents.run (t : Tid) (ops : List MapOp) (h : Represents (2 * ops.length + n) tail s M)
    (hkeys : (insertedKeys ops).Nodup) (hnew : ∀ k ∈ insertedKeys ops, M k = none)
    (hfinds : FindsKnown t s M ops) :
    ∃ s', mapRun t s ops = .ok ((specRun M ops).1, s') ∧ Represents n tail s' (specRun M ops).2 := by
  induction ops generalizing s M with
  | nil =>
    rw [List.length_nil, Nat.mul_zero, Nat.zero_add] at h
    exact ⟨s, rfl, h⟩
  | cons op ops ih =>
    have hroom : 2 * (op :: ops).length + n = (2 * ops.length + n) + 2 := by
      simp only [List.length_cons]
      omega
    rw [hroom] at h
    obtain ⟨hknown, hrest⟩ := hfinds
    have hsplit : insertedKeys (op :: ops) = insertedKeys [op] ++ insertedKeys ops := by
      cases op <;> rfl
    rw [hsplit] at hkeys hnew
    obtain ⟨-, hkeys', hcross⟩ := List.nodup_append.mp hkeys
    obtain ⟨s₁, hstep, hrep⟩ := h.step t op
      (fun key val len hop => hnew key (by subst hop; simp [insertedKeys])) hknown
    obtain ⟨s', hrun, hrep'⟩ := ih hrep hkeys'
      (fun k hk => specStep_none (hnew k (List.mem_append_right _ hk))
        fun hop => hcross k hop k hk rfl) (hrest _ _ hstep)
    refine ⟨s', ?_, hrep'⟩
    simp only [mapRun, hstep, ok_bind, hrun, pure_eq_ok]
    rfl

theorem represents_init {pm : P} (hok : Ok (n + 1) pm) (t : Tid) (junkInner : Addr → InnerNode)
    (junkLeaf : Addr → DLeaf) : ∃ s, init pm t junkInner junkLeaf = .ok s ∧
      Represents n (junkLeaf 1).next s fun _ => none := by
  obtain ⟨s, hrun, hinv, hok', hfree, hfresh, hempty⟩ := init_spec hok t junkInner junkLeaf
  exact ⟨s, hrun, hinv, hok', hfree, hfresh, fun k v => by simp [hempty k v]⟩

/-- `insert` and `find` implement a map: a run with distinct keys gives the answers of the
map; afterwards every key is found with its value, a key that was not inserted is not
found, and the next new key goes in with at most one leaf more. -/
theorem insert_find_map (pm : P) (t : Tid) (junkInner : Addr → InnerNode) (junkLeaf : Addr → DLeaf)
    (ops : List MapOp) (hroom : Ok (2 * ops.length + 3) pm) (hkeys : (insertedKeys ops).Nodup)
    (hfinds : ∀ s, init pm t junkInner junkLeaf = .ok s → FindsKnown t s (fun _ => none) ops) :
    ∃ s₀ s, init pm t junkInner junkLeaf = .ok s₀ ∧
      mapRun t s₀ ops = .ok ((specRun (fun _ => none) ops).1, s) ∧
      (∀ k v, (specRun (fun _ => none) ops).2 k = some v → ∃ s', find s k = .ok (v, s')) ∧
      (1 ≤ s.tempLevel → ∀ k, k ∉ insertedKeys ops → find s k = .ok (0, s)) ∧
      ∀ k v len, k ∉ insertedKeys ops → ∃ s', insert 2 s t k v len = .ok (true, s') ∧
        s'.index.length ≤ s.index.length + 1 := by
  obtain ⟨s₀, hinit, hrep₀⟩ := represents_init (n := 2 * ops.length + 2) hroom t junkInner junkLeaf
  obtain ⟨s, hrun, hrep⟩ := hrep₀.run t ops hkeys (fun _ _ => rfl) (hfinds s₀ hinit)
  have hnone : ∀ (ops : List MapOp) (M : Key → Option Word) (k : Key), M k = none →
      k ∉ insertedKeys ops → (specRun M ops).2 k = none := by
    intro ops
    induction ops with
    | nil => exact fun M k hk _ => hk
    | cons op ops ih =>
      intro M k hk hnot
      have hsplit : insertedKeys (op :: ops) = insertedKeys [op] ++ insertedKeys ops := by
        cases op <;> rfl
      rw [hsplit, List.mem_append, not_or] at hnot
      exact ih _ k (specStep_none hk hnot.1) hnot.2
  refine ⟨s₀, s, hinit, hrun, ?_, ?_, ?_⟩
  · intro k v hv
    obtain ⟨s', hfind, -⟩ := hrep.find (k := k) fun _ => by rw [hv]; rfl
    rw [hv] at hfind
    exact ⟨s', hfind⟩
  · intro hlevel k hk
    exact find_miss hrep.inv hlevel (hrep.absent (hnone ops _ k rfl hk))
  · intro k v len hk
    obtain ⟨s', hins, -, hlen⟩ :=
      Represents.insert (n := 0) hrep t (hnone ops _ k rfl hk) v len
    exact ⟨s', hins, hlen⟩

/-- Forty keys, in an order that is neither ascending nor descending. -/
def scattered : List (Key × Word × BitVec 32) :=
  (List.range 40).map fun i => (BitVec.ofNat 64 (17 * i % 41 + 1), BitVec.ofNat 64 (10 * (i + 1)), 8)

/-- The root leaf is split on the way. -/
theorem insert_find_map_split : ∃ s₀ s s',
    init (IdealPm.roomy 100) 0 zeroInner zeroLeaf = .ok s₀ ∧
      mapRun 0 s₀ (insertOps scattered ++ [.find 18]) =
        .ok ((insertOps scattered).map (fun _ => .inserted true) ++ [.found 20], s) ∧
      s.tempLevel = 1 ∧ find s 35 = .ok (30, s') ∧ find s 50 = .ok (0, s) := by
  obtain ⟨s₀, s, hinit, hrun, hfind, hmiss, -⟩ := insert_find_map (IdealPm.roomy 100) 0 zeroInner zeroLeaf
    (insertOps scattered ++ [.find 18]) (IdealPm.roomy_lawful (by decide) (by decide)) (by decide +kernel)
    (fun s₀ _ => findsPresent_known (by decide +kernel))
  have hlevel : (init (IdealPm.roomy 100) 0 zeroInner zeroLeaf >>= fun s₀ =>
      mapRun 0 s₀ (insertOps scattered ++ [.find 18])).toOption.map (fun r => r.2.tempLevel) = some 1 := by
    decide +kernel
  rw [hinit, ok_bind, hrun] at hlevel
  have hone : s.tempLevel = 1 := Option.some.inj hlevel
  obtain ⟨s', hs'⟩ := hfind 35 30 (by decide +kernel)
  exact ⟨s₀, s, s', hinit, hrun, hone, hs', hmiss hone.ge 50 (by decide +kernel)⟩

/-! ### The shape of the tree -/

omit [LawfulPmem P] in
theorem findsKnown_insertOps (t : Tid) (entries : List (Key × Word × BitVec 32)) (s : TreeState P)
    (M : Key → Option Word) : FindsKnown t s M (insertOps entries) := by
  induction entries generalizing s M with
  | nil => trivial
  | cons e entries ih => exact ⟨by simp, fun _ s' _ => ih s' _⟩

/-- Every tree that insertions of distinct keys lead to is a well-formed B+-tree, and its
two leaf chains run along its leaves. -/
theorem inserts_wellFormed (pm : P) (t : Tid) (junkInner : Addr → InnerNode)
    (junkLeaf : Addr → DLeaf) (entries : List (Key × Word × BitVec 32))
    (hroom : Ok (2 * entries.length + 1) pm) (hkeys : (entries.map Prod.fst).Nodup) :
    ∃ s₀ answers s leaves, init pm t junkInner junkLeaf = .ok s₀ ∧
      mapRun t s₀ (insertOps entries) = .ok (answers, s) ∧ WellFormed s leaves ∧
      ∀ a, (s.dleafHeap a).isSome ↔ a ∈ leaves := by
  have hlen : (insertOps entries).length = entries.length := List.length_map ..
  obtain ⟨s₀, hinit, hrep₀⟩ := represents_init (n := 2 * entries.length + 0) hroom t junkInner junkLeaf
  rw [← hlen] at hrep₀
  obtain ⟨s, hrun, hrep⟩ := hrep₀.run t (insertOps entries)
    (by rwa [insertedKeys_insertOps]) (fun _ _ => rfl) (findsKnown_insertOps t entries s₀ _)
  refine ⟨s₀, _, s, _, hinit, hrun, hrep.inv.wellFormed, fun a => ?_⟩
  rw [Option.isSome_iff_exists, hrep.inv.skel.heap a, TreeState.leaves_empty]

theorem inserts_wellFormed_split : ∃ s₀ answers s leaves,
    init (IdealPm.roomy 100) 0 zeroInner zeroLeaf = .ok s₀ ∧
      mapRun 0 s₀ (insertOps scattered) = .ok (answers, s) ∧ s.tempLevel = 1 ∧ WellFormed s leaves := by
  obtain ⟨s₀, answers, s, leaves, hinit, hrun, hwf, -⟩ := inserts_wellFormed (IdealPm.roomy 100) 0 zeroInner
    zeroLeaf scattered (IdealPm.roomy_lawful (by decide) (by decide)) (by decide +kernel)
  have hlevel : (init (IdealPm.roomy 100) 0 zeroInner zeroLeaf >>= fun s₀ =>
      mapRun 0 s₀ (insertOps scattered)).toOption.map (fun r => r.2.tempLevel) = some 1 := by
    decide +kernel
  rw [hinit, ok_bind, hrun] at hlevel
  exact ⟨s₀, answers, s, leaves, hinit, hrun, Option.some.inj hlevel, hwf⟩

end ZBTree
