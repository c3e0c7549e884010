import ZBTree.PoolScans
import ZBTree.ThreadBudgets

/-!
# The tree over the pools

The tree, the allocators and the logs together, with the memory that `Nvm` gives them. Threads that
take turns, in whole operations or in the sections of `insert`, lead to a tree that answers as a map
does, and the scans of their pools find the pairs that have been inserted.
-/

namespace ZBTree

open Pmem LawfulPmem RangeIndex

def pairsOf (returned : List (Request × Bool)) : List (Key × Word) :=
  (returned.filter Prod.snd).map fun x => (x.1.key, x.1.val)

namespace PoolMemory

variable {threads maxVersion n : Nat} {p : PoolMemory threads maxVersion} {t : Tid} {pairs : List (Key × Word)}

/-! ### Sections -/

section Sections

variable {s s' : TreeState (PoolMemory threads maxVersion)} {c c' : Config (PoolMemory threads maxVersion)}

theorem Holds.fillSlot (h : s.pm.Holds pairs) (hthreads : 0 < threads) {key : Key} {val : Word}
    {len : BitVec 32} (hlen : Lengths maxVersion len) {leaf : Addr}
    (hrun : ZBTree.fillSlot s t key val len leaf = .ok s') : s'.pm.Holds ((key, val) :: pairs) := by
  unfold ZBTree.fillSlot at hrun
  simp only [bind_eq_ok, deref_eq_ok] at hrun
  obtain ⟨m, -, ⟨addr, pm⟩, happend, hrun⟩ := hrun
  cases hrun
  exact h.append hthreads hlen happend

theorem Holds.section (h : s.pm.Holds pairs) (hthreads : 0 < threads) {pc : Pc} {o : Outcome}
    (hlen : Lengths maxVersion pc.request.valueLen) (hrun : insertSection s t pc = .ok (o, s')) :
    s'.pm.Holds (pairsOf (o.answer pc.request) ++ pairs) := by
  cases pc with
  | searching r =>
    obtain ⟨⟨lockState, leaf, s₁⟩, hlock, hrun⟩ := bind_eq_ok.mp hrun
    have hsame := h.of_log (congrArg log (lockLeaf_recorded hlock).1)
    dsimp only at hrun
    split_ifs at hrun <;> cases hrun <;> exact hsame
  | locked r leaf =>
    unfold insertSection at hrun
    simp only [bind_eq_ok, deref_eq_ok] at hrun
    obtain ⟨m, hm, dup, -, hrun⟩ := hrun
    split_ifs at hrun with hdup hroom
    · cases hrun
      exact h
    · obtain ⟨s₂, hfill, hrun⟩ := bind_eq_ok.mp hrun
      cases hrun
      exact h.fillSlot hthreads hlen hfill
    · obtain ⟨⟨leaf₂, splitKey, insertLeaf, s₂⟩, hsplit, hrun⟩ := bind_eq_ok.mp hrun
      cases hrun
      exact h.of_log (nodeCalls_log (splitFull_recorded hsplit hm hroom).1)
  | splitting r leaf leaf₂ splitKey insertLeaf =>
    obtain ⟨s₁, hinstall, hrun⟩ := bind_eq_ok.mp hrun
    cases hrun
    exact h.of_log (congrArg log (installSeparator_pm hinstall))

theorem pairsOf_append (xs ys : List (Request × Bool)) : pairsOf (xs ++ ys) = pairsOf xs ++ pairsOf ys := by
  simp [pairsOf]

theorem Holds.configStep (h : c.tree.pm.Holds (pairsOf c.returned)) (hthreads : 0 < threads)
    (hc : c.Within (· < threads) (Lengths maxVersion)) {e : Event} (hstep : c.step e = .ok c') :
    c'.tree.pm.Holds (pairsOf c'.returned) := by
  cases e with
  | call t r =>
    unfold Config.step at hstep
    dsimp only at hstep
    split at hstep <;> cases hstep <;> exact h
  | run t =>
    unfold Config.step at hstep
    dsimp only at hstep
    split at hstep
    · cases hstep
      exact h
    · obtain ⟨⟨o, s⟩, hsection, hstep⟩ := bind_eq_ok.mp hstep
      cases hstep
      rw [pairsOf_append]
      exact h.section hthreads (hc t _ ‹_›).2 hsection

theorem Holds.configRun {es : List Event} (h : c.tree.pm.Holds (pairsOf c.returned)) (hthreads : 0 < threads)
    (hc : c.Within (· < threads) (Lengths maxVersion))
    (hes : ∀ e ∈ es, e.Within (· < threads) (Lengths maxVersion)) (hrun : c.run es = .ok c') :
    c'.tree.pm.Holds (pairsOf c'.returned) := by
  induction es generalizing c with
  | nil =>
    cases hrun
    exact h
  | cons e es ih =>
    unfold Config.run at hrun
    obtain ⟨c₁, hstep, hrun⟩ := bind_eq_ok.mp hrun
    exact ih (h.configStep hthreads hc hstep) (hc.step (hes e List.mem_cons_self) hstep)
      (fun e' he' => hes e' (List.mem_cons_of_mem _ he')) hrun

end Sections

/-! ### What the scans find -/

theorem Room.found_pairs (h : p.Room n) (hholds : p.Holds pairs) {dirs : Tid → List Nat}
    (hdirs : p.nvm.Directories dirs) :
    ((p.nvm.found threads dirs).map fun r => (r.1, logVal p.nvm r.2)).Perm
      (pairs.map fun x => (x.1, some x.2)) := by
  refine ((h.found hholds.seen hdirs).map _).trans ?_
  rw [List.map_map]
  have hread : ∀ r ∈ p.entries, ((fun r : Key × Addr => (r.1, logVal p.nvm r.2)) ∘
      fun r : LogEntry × Nat => (r.1.key, r.2 + logKeyOffset)) r = (r.1.key, some r.1.val) := by
    intro r hr
    obtain ⟨t, -, hmem⟩ := mem_entries.mp hr
    exact congrArg (r.1.key, ·) (h.record_read hmem).2.1
  rw [List.map_congr_left hread]
  have hpairs := hholds.perm.map fun x : Key × Word => (x.1, some x.2)
  rwa [List.map_map] at hpairs

theorem Holds.congr {pairs' : List (Key × Word)} (h : p.Holds pairs) (hperm : pairs.Perm pairs') : p.Holds pairs' :=
  ⟨h.perm.trans hperm, h.seen⟩

theorem fresh_holds (poolLen : Nat) : (fresh threads maxVersion poolLen).Holds [] := by
  have hempty : (fresh threads maxVersion poolLen).entries = [] := by simp [entries, fresh]
  exact ⟨by rw [hempty]; rfl, by simp [hempty]⟩

end PoolMemory

variable {threads maxVersion : Nat}

/-! ### Operations one after the other

A team is a set of threads that call whole operations in turn. The run is one of the map, with the memory of the pools
beneath it; what is asked of the memory is counted by the number of operations. -/

section Team

variable {P : Type} [Pmem P]

/-- Operations of several threads, each after the one before. -/
def teamRun : TreeState P → List (Tid × MapOp) → Exec (List Answer × TreeState P)
  | s, [] => .ok ([], s)
  | s, x :: ops => do
    let (answer, s) ← mapStep x.1 s x.2
    let (answers, s) ← teamRun s ops
    return (answer :: answers, s)

/-- `find` is asked only for keys of `M` while the tree has no inner nodes. -/
def TeamFinds : TreeState P → (Key → Option Word) → List (Tid × MapOp) → Prop
  | _, _, [] => True
  | s, M, x :: ops =>
    (∀ key, x.2 = .find key → s.tempLevel = 0 → (M key).isSome) ∧
      ∀ answer s', mapStep x.1 s x.2 = .ok (answer, s') → TeamFinds s' (specStep M x.2).2 ops

theorem findsPresent_team {s : TreeState P} {M : Key → Option Word} {ops : List (Tid × MapOp)}
    (h : findsPresent M (ops.map Prod.snd) = true) : TeamFinds s M ops := by
  induction ops generalizing s M with
  | nil => trivial
  | cons x ops ih =>
    obtain ⟨hop, hops⟩ := findsPresent_cons h
    exact ⟨fun key heq _ => hop key heq, fun _ _ _ => ih hops⟩

/-- The pairs that are inserted, the last one first. -/
def insertedPairs : List MapOp → List (Key × Word)
  | [] => []
  | .insert key val _ :: ops => insertedPairs ops ++ [(key, val)]
  | .find _ :: ops => insertedPairs ops

theorem insertedPairs_cons (op : MapOp) (ops : List MapOp) :
    insertedPairs (op :: ops) = insertedPairs ops ++ insertedPairs [op] := by
  cases op with
  | insert key val len => rfl
  | find key => exact (List.append_nil _).symm

variable {s s' : TreeState P} {t : Tid} {op : MapOp} {answer : Answer}

theorem find_pm {key : Key} {v : Word} (h : find s key = .ok (v, s')) : s'.pm = s.pm := by
  unfold find findExamine at h
  split_ifs at h
  · simp only [bind_eq_ok] at h
    obtain ⟨m, -, w, -, h⟩ := h
    cases h
    rfl
  · simp only [bind_eq_ok] at h
    obtain ⟨leaf, -, m, -, h⟩ := h
    split_ifs at h
    · obtain ⟨buf, -, h⟩ := bind_eq_ok.mp h
      cases h
      rfl
    · obtain ⟨r, -, h⟩ := bind_eq_ok.mp h
      cases r with
      | none =>
        cases h
        rfl
      | some found =>
        cases h
        rfl

end Team

namespace PmemMap

variable {P Q : Type} [Pmem P] [Pmem Q] {threads : Tid → Prop} {versions : BitVec 32 → Prop} {f : P → Q}
  (hf : PmemMap threads versions f) {s s' : TreeState P} {ops : List (Tid × MapOp)}

include hf

theorem teamRun (hthreads : ∀ x ∈ ops, threads x.1) (hlen : LengthsIn versions (ops.map Prod.snd))
    {answers : List Answer} (h : teamRun s ops = .ok (answers, s')) :
    ZBTree.teamRun (s.mapPm f) ops = .ok (answers, s'.mapPm f) := by
  induction ops generalizing s answers with
  | nil =>
    cases h
    rfl
  | cons x ops ih =>
    unfold ZBTree.teamRun at h ⊢
    simp only [bind_eq_ok] at h
    obtain ⟨⟨answer, s₁⟩, hstep, ⟨answers', s₂⟩, hrun, h⟩ := h
    cases h
    obtain ⟨hone, hrest⟩ := hlen.cons
    exact bind_eq_ok.mpr ⟨_, hf.mapStep (hthreads x List.mem_cons_self) hone hstep,
      bind_eq_ok.mpr ⟨_, ih (fun y hy => hthreads y (List.mem_cons_of_mem _ hy)) hrest hrun, rfl⟩⟩

theorem teamFinds {M : Key → Option Word} (hthreads : ∀ x ∈ ops, threads x.1)
    (hlen : LengthsIn versions (ops.map Prod.snd)) (h : TeamFinds (s.mapPm f) M ops) : TeamFinds s M ops := by
  induction ops generalizing s M with
  | nil => trivial
  | cons x ops ih =>
    obtain ⟨hone, hrest⟩ := hlen.cons
    exact ⟨h.1, fun answer s₁ hstep => ih (fun y hy => hthreads y (List.mem_cons_of_mem _ hy)) hrest
      (h.2 answer (s₁.mapPm f) (hf.mapStep (hthreads x List.mem_cons_self) hone hstep))⟩

end PmemMap

theorem PoolMemory.Holds.mapStep {s s' : TreeState (PoolMemory threads maxVersion)} {pairs : List (Key × Word)}
    {t : Tid} {op : MapOp} {M : Key → Option Word} (h : s.pm.Holds pairs) (hthreads : 0 < threads)
    (hlen : PmemMap.LengthsIn (Lengths maxVersion) [op])
    (hrun : mapStep t s op = .ok ((specStep M op).1, s')) : s'.pm.Holds (insertedPairs [op] ++ pairs) := by
  cases op with
  | insert key val len =>
    obtain ⟨⟨done, s₁⟩, hins, hrun⟩ := bind_eq_ok.mp hrun
    cases hrun
    obtain ⟨pm, hnode, ⟨hfalse, -⟩ | ⟨-, addr, pp, happend, -⟩⟩ := insert_recorded hins
    · exact absurd hfalse (by simp)
    · exact (h.of_log (nodeCalls_log hnode)).append hthreads (hlen key val len List.mem_cons_self) happend
  | find key =>
    obtain ⟨⟨v, s₁⟩, hfind, hrun⟩ := bind_eq_ok.mp hrun
    cases hrun
    exact h.of_log (congrArg log (find_pm hfind))

/-- A run of the team over the pools, by induction on its operations. -/
theorem Represents.teamRun {n : Nat} {tail : Addr} {s : TreeState (PoolMemory threads maxVersion)}
    {M : Key → Option Word} {pairs : List (Key × Word)} (hthreads : 0 < threads) (ops : List (Tid × MapOp))
    (h : Represents (2 * ops.length + n) tail s M) (hholds : s.pm.Holds pairs)
    (hlen : PmemMap.LengthsIn (PoolMemory.Lengths maxVersion) (ops.map Prod.snd))
    (hkeys : (insertedKeys (ops.map Prod.snd)).Nodup)
    (hnew : ∀ k ∈ insertedKeys (ops.map Prod.snd), M k = none) (hfinds : TeamFinds s M ops) :
    ∃ s', ZBTree.teamRun s ops = .ok ((specRun M (ops.map Prod.snd)).1, s') ∧
      Represents n tail s' (specRun M (ops.map Prod.snd)).2 ∧
      s'.pm.Holds (insertedPairs (ops.map Prod.snd) ++ pairs) := by
  induction ops generalizing s M pairs with
  | nil =>
    rw [List.length_nil, Nat.mul_zero, Nat.zero_add] at h
    exact ⟨s, rfl, h, hholds⟩
  | cons x ops ih =>
    have hroom : 2 * (x :: ops).length + n = (2 * ops.length + n) + 2 := by
      rw [List.length_cons, Nat.mul_succ, Nat.add_right_comm]
    rw [hroom] at h
    rw [List.map_cons] at hlen hkeys hnew ⊢
    obtain ⟨hone, hrest⟩ := hlen.cons
    have hsplit : insertedKeys (x.2 :: ops.map Prod.snd) = insertedKeys [x.2] ++ insertedKeys (ops.map Prod.snd) := by
      cases x.2 <;> rfl
    rw [hsplit] at hkeys hnew
    obtain ⟨-, hkeys', hcross⟩ := List.nodup_append.mp hkeys
    obtain ⟨s₁, hstep, hrep⟩ := h.step x.1 x.2
      (fun key val len hop => hnew key (by simp [hop, insertedKeys])) hfinds.1
    obtain ⟨s', hrun, hrep', hholds'⟩ := ih hrep (hholds.mapStep hthreads hone hstep) hrest hkeys'
      (fun k hk => specStep_none (hnew k (List.mem_append_right _ hk)) fun hop => hcross k hop k hk rfl)
      (hfinds.2 _ _ hstep)
    refine ⟨s', ?_, hrep', ?_⟩
    · exact bind_eq_ok.mpr ⟨_, hstep, bind_eq_ok.mpr ⟨_, hrun, rfl⟩⟩
    · rw [insertedPairs_cons, List.append_assoc]
      exact hholds'

/-- Any number of threads take turns with whole operations, each with its own allocator and log in
its own pool: the tree answers as the finite map does, and the scans of the pools find the pairs of
the map and no others. -/
theorem pool_team (poolLen threads maxVersion : Nat) (t₀ : Tid) (junkInner : Addr → InnerNode)
    (junkLeaf : Addr → DLeaf) (ops : List (Tid × MapOp)) (hthread : t₀ < threads)
    (hversion : 0 < recordsPer maxVersion) (hmapped : mmapStart + poolLen * threads ≤ 2 ^ 48)
    (hlarge : poolFor maxVersion (2 * ops.length + 1) ≤ poolLen) (hteam : ∀ x ∈ ops, x.1 < threads)
    (hlen : PmemMap.LengthsIn (PoolMemory.Lengths maxVersion) (ops.map Prod.snd))
    (hkeys : (insertedKeys (ops.map Prod.snd)).Nodup)
    (hfinds : ∀ s₀, init (Nvm.fresh poolLen) t₀ junkInner junkLeaf = .ok s₀ →
      TeamFinds s₀ (fun _ => none) ops) :
    ∃ s₀ s, init (Nvm.fresh poolLen) t₀ junkInner junkLeaf = .ok s₀ ∧
      teamRun s₀ ops = .ok ((specRun (fun _ => none) (ops.map Prod.snd)).1, s) ∧
      WellFormed s (labels s.index) ∧
      (∀ k v, (specRun (fun _ => none) (ops.map Prod.snd)).2 k = some v → ∃ s', find s k = .ok (v, s')) ∧
      (s.tempLevel ≠ 0 → ∀ k, (specRun (fun _ => none) (ops.map Prod.snd)).2 k = none →
        ∃ s', find s k = .ok (0, s')) ∧
      (∃ dirs, s.pm.Directories dirs) ∧
      ∀ dirs, s.pm.Directories dirs →
        ((s.pm.found threads dirs).map fun r => (r.1, logVal s.pm r.2)).Perm
          ((insertedPairs (ops.map Prod.snd)).map fun x => (x.1, some x.2)) := by
  have hthreads : 0 < threads := Nat.zero_lt_of_lt hthread
  have hmap := PoolMemory.map threads maxVersion
  have hroom : Ok (2 * ops.length + 0 + 1) (PoolMemory.fresh threads maxVersion poolLen) :=
    PoolMemory.fresh_room hthreads hversion hmapped hlarge
  obtain ⟨s₀, hinit, hrep₀⟩ := represents_init (n := 2 * ops.length + 0) hroom t₀ junkInner junkLeaf
  have hinit' := hmap.init hthread hinit
  have hholds₀ : s₀.pm.Holds [] :=
    (PoolMemory.fresh_holds poolLen).of_log (PoolMemory.nodeCalls_log (init_recorded hinit).1)
  have hlen' : PmemMap.LengthsIn (·.toNat ≤ maxVersion) (ops.map Prod.snd) := fun key val len hmem =>
    (hlen key val len hmem).2
  obtain ⟨s, hrun, hrep, hholds⟩ := hrep₀.teamRun hthreads ops hholds₀ hlen hkeys (fun _ _ => rfl)
    (hmap.teamFinds hteam hlen' (hfinds _ hinit'))
  rw [List.append_nil] at hholds
  refine ⟨s₀.mapPm PoolMemory.nvm, s.mapPm PoolMemory.nvm, hinit', hmap.teamRun hteam hlen' hrun,
    hmap.wellFormed hrep.inv.wellFormed, ?_, ?_, hrep.room.directories, ?_⟩
  · intro k v hv
    obtain ⟨s', hfind, -⟩ := hrep.find (k := k) fun _ => by rw [hv]; rfl
    rw [hv] at hfind
    exact ⟨_, hmap.find hfind⟩
  · intro hlevel k hk
    obtain ⟨s', hfind, -⟩ := hrep.find (k := k) fun hzero => absurd hzero hlevel
    rw [hk] at hfind
    exact ⟨_, hmap.find hfind⟩
  · intro dirs hdirs
    exact PoolMemory.Room.found_pairs hrep.room hholds hdirs

/-- Two threads take turns with forty insertions; then each searches for a key of the other. -/
def turns : List (Tid × MapOp) :=
  (insertOps scattered).mapIdx (fun i op => (i % 2, op)) ++ [(0, .find 18), (1, .find 1)]

/-- The second thread opens its pool with its first insertion, and the root leaf is split on the way. -/
theorem pool_team_split : ∃ s₀ s, init (Nvm.fresh (2 ^ 30)) 0 zeroInner zeroLeaf = .ok s₀ ∧
    teamRun s₀ turns = .ok ((insertOps scattered).map (fun _ => .inserted true) ++ [.found 20, .found 10], s) ∧
    s.tempLevel = 1 ∧ WellFormed s (labels s.index) ∧ ∀ dirs, s.pm.Directories dirs →
      ((s.pm.found 2 dirs).map fun r => (r.1, logVal s.pm r.2)).Perm
        (scattered.reverse.map fun e => (e.1, some e.2.1)) := by
  obtain ⟨s₀, s, hinit, hrun, hshape, -, -, -, hfound⟩ := pool_team (2 ^ 30) 2 8 0 zeroInner zeroLeaf turns
    (by decide) (by decide) (by decide) (by decide +kernel) (by decide +kernel)
    (PmemMap.LengthsIn.of_all (by decide +kernel)) (by decide +kernel)
    (fun s₀ _ => findsPresent_team (by decide +kernel))
  have hlevel : (init (Nvm.fresh (2 ^ 30)) 0 zeroInner zeroLeaf >>= fun s₀ =>
      teamRun s₀ turns).toOption.map (fun r => r.2.tempLevel) = some 1 := by
    decide +kernel
  rw [hinit, ok_bind, hrun] at hlevel
  exact ⟨s₀, s, hinit, hrun, Option.some.inj hlevel, hshape, hfound⟩

/-! ### Threads between each other's sections -/

theorem Config.start_within {P : Type} (s : TreeState P) {threads : Tid → Prop} {versions : BitVec 32 → Prop} :
    (Config.start s).Within threads versions := fun t pc hpc => absurd hpc (by simp [Config.start])

/-- A schedule over the pools, and over the pools with what is remembered about them. -/
theorem pool_schedule (poolLen threads maxVersion : Nat) (t₀ : Tid) (junkInner : Addr → InnerNode)
    (junkLeaf : Addr → DLeaf) (schedule : List Event) (hthread : t₀ < threads)
    (hversion : 0 < recordsPer maxVersion) (hmapped : mmapStart + poolLen * threads ≤ 2 ^ 48)
    (hlarge : poolFor maxVersion ((calledKeys schedule).length + (calledKeys schedule).length / LEFT_KEY + 2) ≤
      poolLen)
    (hwithin : ∀ e ∈ schedule, e.Within (· < threads) (PoolMemory.Lengths maxVersion))
    (hkeys : (calledKeys schedule).Nodup) :
    ∃ (s₀ : TreeState (PoolMemory threads maxVersion)) (c : Config (PoolMemory threads maxVersion)),
      init (Nvm.fresh poolLen) t₀ junkInner junkLeaf = .ok (s₀.mapPm PoolMemory.nvm) ∧
      (Config.start (s₀.mapPm PoolMemory.nvm)).run schedule = .ok (c.mapPm PoolMemory.nvm) ∧
      (Config.start s₀).run schedule = .ok c ∧
      (∃ cuts A n, Crew (calledKeys schedule).toFinset
        ((calledKeys schedule).length + (calledKeys schedule).length / LEFT_KEY + 1) cuts (junkLeaf 1).next A n c) ∧
      c.tree.pm.Holds (c.returned.map fun x => (x.1.key, x.1.val)) := by
  have hthreads : 0 < threads := Nat.zero_lt_of_lt hthread
  have hmap := PoolMemory.map threads maxVersion
  have hroom : Ok ((calledKeys schedule).length + (calledKeys schedule).length / LEFT_KEY + 1 + 1)
      (PoolMemory.fresh threads maxVersion poolLen) :=
    PoolMemory.fresh_room hthreads hversion hmapped hlarge
  obtain ⟨s₀, c, hinit, hrun, cuts, A, n, hc⟩ :=
    Crew.schedule _ t₀ junkInner junkLeaf schedule hroom (Nat.lt_succ_self _) hkeys
  have hlengths : ∀ e ∈ schedule, e.Within (· < threads) (·.toNat ≤ maxVersion) := by
    intro e he
    have hone := hwithin e he
    cases e with
    | call t r => exact ⟨hone.1, hone.2.2⟩
    | run t => trivial
  have hholds₀ : s₀.pm.Holds [] :=
    (PoolMemory.fresh_holds poolLen).of_log (PoolMemory.nodeCalls_log (init_recorded hinit).1)
  have hholds : c.tree.pm.Holds (pairsOf c.returned) :=
    PoolMemory.Holds.configRun hholds₀ hthreads (Config.start_within s₀) hwithin hrun
  have hreturned : pairsOf c.returned = c.returned.map fun x => (x.1.key, x.1.val) := by
    rw [pairsOf, List.filter_eq_self.mpr fun x hx => hc.exact.returned x hx]
  have hinit' := hmap.init hthread hinit
  exact ⟨s₀, c, hinit', hmap.configRun (Config.start_within s₀) hlengths hrun, hrun, ⟨cuts, A, n, hc⟩,
    hreturned ▸ hholds⟩

/-- Any number of threads insert into one tree, in any order of their sections, each with its own
allocator and log in its own pool. Nothing fails, however long they wait for each other; every pair
whose call has returned is found, and the scans of the pools find these pairs and no others, at every
moment; and when no call is under way the tree is a well-formed B+-tree in which `find` answers for
every key. -/
theorem pool_threads (poolLen threads maxVersion : Nat) (t₀ : Tid) (junkInner : Addr → InnerNode)
    (junkLeaf : Addr → DLeaf) (schedule : List Event) (hthread : t₀ < threads)
    (hversion : 0 < recordsPer maxVersion) (hmapped : mmapStart + poolLen * threads ≤ 2 ^ 48)
    (hlarge : poolFor maxVersion ((calledKeys schedule).length + (calledKeys schedule).length / LEFT_KEY + 2) ≤
      poolLen)
    (hwithin : ∀ e ∈ schedule, e.Within (· < threads) (PoolMemory.Lengths maxVersion))
    (hkeys : (calledKeys schedule).Nodup) :
    ∃ s₀ c, init (Nvm.fresh poolLen) t₀ junkInner junkLeaf = .ok s₀ ∧
      (Config.start s₀).run schedule = .ok c ∧ (∀ x ∈ c.returned, x.2 = true) ∧
      (∀ r, (r, true) ∈ c.returned → FoundAt c.tree r.key r.val) ∧
      ((∀ t, c.pc t = none) → WellFormed c.tree (labels c.tree.index) ∧
        (∀ r, (r, true) ∈ c.returned → ∃ s', find c.tree r.key = .ok (r.val, s')) ∧
        (c.tree.tempLevel ≠ 0 → ∀ k, (∀ x ∈ c.returned, x.1.key ≠ k) → ∃ s', find c.tree k = .ok (0, s'))) ∧
      (∃ dirs, c.tree.pm.Directories dirs) ∧
      ∀ dirs, c.tree.pm.Directories dirs →
        ((c.tree.pm.found threads dirs).map fun r => (r.1, logVal c.tree.pm r.2)).Perm
          (c.returned.map fun x => (x.1.key, some x.1.val)) := by
  have hmap := PoolMemory.map threads maxVersion
  obtain ⟨s₀, c, hinit, hrun, -, ⟨cuts, A, n, hc⟩, hholds⟩ := pool_schedule poolLen threads maxVersion t₀ junkInner
    junkLeaf schedule hthread hversion hmapped hlarge hwithin hkeys
  refine ⟨_, c.mapPm PoolMemory.nvm, hinit, hrun, hc.exact.returned, ?_, ?_, hc.threads.room.directories, ?_⟩
  · intro r hr
    exact hmap.foundAt (hc.threads.inv.foundAt ((hc.exact.content _ _).mpr ⟨r, hr, rfl, rfl⟩))
  · intro hidle
    have hend := hc.represents hidle
    obtain ⟨hknown, hother⟩ := hc.answers hend
    refine ⟨hmap.wellFormed hend.inv.wellFormed, fun r hr => ?_, fun hlevel k hk => ?_⟩
    · obtain ⟨s', hfind⟩ := hknown r hr
      exact ⟨_, hmap.find hfind⟩
    · obtain ⟨s', hfind⟩ := hother hlevel k hk
      exact ⟨_, hmap.find hfind⟩
  · intro dirs hdirs
    have hfound := PoolMemory.Room.found_pairs hc.threads.room hholds hdirs
    rw [List.map_map] at hfound
    exact hfound

/-- The race for the full root leaf over two pools: one thread splits it, and the log of the other gets the
record that comes after. -/
theorem pool_threads_split : ∃ s₀ c, init (Nvm.fresh (2 ^ 30)) 0 zeroInner zeroLeaf = .ok s₀ ∧
    (Config.start s₀).run splitRace = .ok c ∧ c.returned.length = 32 ∧ c.tree.tempLevel = 1 ∧
    ∀ dirs, c.tree.pm.Directories dirs →
      ((c.tree.pm.found 2 dirs).map fun r => (r.1, logVal c.tree.pm r.2)).Perm
        (c.returned.map fun x => (x.1.key, some x.1.val)) := by
  obtain ⟨s₀, c, hinit, hrun, -, -, -, -, hfound⟩ := pool_threads (2 ^ 30) 2 8 0 zeroInner zeroLeaf splitRace
    (by decide) (by decide) (by decide) (by decide +kernel) (by decide +kernel) (by decide +kernel)
  have hfacts : (init (Nvm.fresh (2 ^ 30)) 0 zeroInner zeroLeaf >>= fun s₀ =>
      (Config.start s₀).run splitRace).toOption.map (fun c =>
        (c.returned.length, c.tree.tempLevel)) = some (32, 1) := by
    decide +kernel
  rw [hinit, ok_bind, hrun] at hfacts
  obtain ⟨hlen, hlevel⟩ := Prod.mk.inj (Option.some.inj hfacts)
  exact ⟨s₀, c, hinit, hrun, hlen, hlevel, hfound⟩

end ZBTree
