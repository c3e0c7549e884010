import ZBTree.FairTurns
import ZBTree.RecoveryThreads

/-!
# Replaying the log on many threads

Each thread of `recover` has a list of records, those that it finds in its pool, and calls
`quick_insert` for one after the other. The threads take turns in any order. Next to each state stands
the configuration of the threads of `insert` that would be at the same places.
-/

namespace ZBTree

open RangeIndex Pmem LawfulPmem Rounds

/-- A call of `quick_insert` for the record at `val`. -/
structure QuickCall where
  key : Key
  val : Addr
  stage : Stage

/-- The tree, the calls under way, and the records that each thread has not come to yet. -/
structure Replay (P : Type) where
  tree : TreeState P
  call : Tid → Option QuickCall
  todo : Tid → List (Key × Addr)

variable {P : Type} [Pmem P]

/-- A turn of thread `t`: the next section of its call, or the call for its next record. -/
def Replay.step (r : Replay P) (t : Tid) : Exec (Replay P) :=
  match r.call t with
  | none =>
    match r.todo t with
    | [] => .ok r
    | (key, val) :: rest =>
      .ok { r with
            call := Function.update r.call t (some ⟨key, val, .searching⟩)
            todo := Function.update r.todo t rest }
  | some q => do
    let (o, s) ← quickSection r.tree t q.key q.val q.stage
    return { r with
             tree := s
             call := Function.update r.call t (o.map fun stage => ⟨q.key, q.val, stage⟩) }

def Replay.run : Replay P → List Tid → Exec (Replay P)
  | r, [] => .ok r
  | r, t :: ts => do
    let r ← r.step t
    r.run ts

def Replay.start (s : TreeState P) (todo : Tid → List (Key × Addr)) : Replay P := ⟨s, fun _ => none, todo⟩

def Replay.Done (r : Replay P) (t : Tid) : Prop := r.call t = none ∧ r.todo t = []

/-! ### The threads of insert at the same places -/

def recorded (V : Key → Word) (key : Key) : Request := ⟨key, V key, 0⟩

/-- Where a thread of `insert` would be. -/
def QuickCall.pc (V : Key → Word) (q : QuickCall) : Pc := q.stage.pc (recorded V q.key)

/-- The threads of `insert` at the same places, when the calls for `done` have returned. -/
def Replay.config (V : Key → Word) (done : List Key) (r : Replay P) : Config P where
  tree := r.tree
  pc t := (r.call t).map (QuickCall.pc V)
  returned := done.map fun key => (recorded V key, true)

def doneAfter (key : Key) (done : List Key) : Option Stage → List Key
  | some _ => done
  | none => key :: done

variable {V : Key → Word} {done : List Key} {r r' : Replay P} {t : Tid} {q : QuickCall} {o : Option Stage}
  {s' : TreeState P} {key : Key} {val : Addr} {rest : List (Key × Addr)}

omit [Pmem P] in
@[simp] theorem QuickCall.pc_request (q : QuickCall) : (q.pc V).request = recorded V q.key := by
  obtain ⟨key, val, stage⟩ := q
  cases stage <;> rfl

omit [Pmem P] in
theorem Replay.config_pc {pc : Pc} (h : (r.config V done).pc t = some pc) : ∃ q, r.call t = some q ∧ q.pc V = pc :=
  Option.map_eq_some_iff.mp h

omit [Pmem P] in
theorem Replay.config_section : Replay.config V (doneAfter q.key done o)
    { r with tree := s', call := Function.update r.call t (o.map fun stage => ⟨q.key, q.val, stage⟩) } =
      (r.config V done).after t (q.pc V) (quickOutcome (recorded V q.key) o) s' := by
  have hcalls : (fun t' => (Function.update r.call t (o.map fun stage => (⟨q.key, q.val, stage⟩ : QuickCall)) t').map
      (QuickCall.pc V)) =
      Function.update (fun t' => (r.call t').map (QuickCall.pc V)) t (quickOutcome (recorded V q.key) o).pc := by
    funext t'
    by_cases ht : t' = t
    · subst ht
      rw [Function.update_self, Function.update_self]
      cases o <;> rfl
    · rw [Function.update_of_ne ht, Function.update_of_ne ht]
  have hreturned : (doneAfter q.key done o).map (fun key => (recorded V key, true)) =
      (quickOutcome (recorded V q.key) o).answer (q.pc V).request ++
        done.map fun key => (recorded V key, true) := by
    rw [QuickCall.pc_request]
    cases o <;> rfl
  unfold Replay.config Config.after
  rw [hcalls, hreturned]

omit [Pmem P] in
theorem Replay.config_enter {todo : Tid → List (Key × Addr)} : Replay.config V done
    { r with call := Function.update r.call t (some ⟨key, val, .searching⟩), todo := todo } =
      (r.config V done).enter t (recorded V key) := by
  unfold Replay.config Config.enter
  congr 1
  funext t'
  by_cases ht : t' = t
  · subst ht
    dsimp only
    rw [Function.update_self, Function.update_self]
    rfl
  · dsimp only
    rw [Function.update_of_ne ht, Function.update_of_ne ht]

/-! ### What all threads keep

The threads of recovery are the threads of `insert` at the same places: `Replay.config` maps one to the other,
and the invariant is that of the insertions, with the records that are still to be replayed beside it. -/

variable [LawfulPmem P] {K : Finset Key} {cuts cuts' : Cuts} {tail L : Addr} {A : Finset Addr} {b n : Nat} {c : Config P}
  {pc : Pc}

omit [LawfulPmem P] in
theorem Config.Unused.enter {k : Key} {x : Request} (h : c.Unused k) (hne : x.key ≠ k) : (c.enter t x).Unused k := by
  refine ⟨fun t' pc' hpc' => ?_, h.2⟩
  rcases Config.enter_pc hpc' with ⟨-, rfl⟩ | ⟨-, hold⟩
  · exact hne
  · exact h.1 t' pc' hold

theorem Config.Unused.after {k : Key} {o : Outcome} (h : c.Unused k) (hpc : c.pc t = some pc)
    (hadv : Advanced tail n pc L cuts c.tree o cuts' s') : (c.after t pc o s').Unused k := by
  constructor
  · intro t' pc' hpc'
    rcases Config.after_pc hpc' with ⟨-, ho⟩ | ⟨-, hold⟩
    · rw [(hadv.goto pc' ho).2.1]
      exact h.1 t pc hpc
    · exact h.1 t' pc' hold
  · intro v hv
    rcases hadv.content with ⟨-, hcont⟩ | ⟨-, hcont⟩
    · exact h.2 v ((hcont k v).mp hv)
    · rcases (hcont k v).mp hv with hold | ⟨hkey, -⟩
      · exact h.2 v hold
      · exact h.1 t pc hpc hkey.symm

/-- `V` says what value the record of each key has, and `K` are the keys of all records. -/
structure Replay.Sound (V : Key → Word) (K : Finset Key) (b : Nat) (cuts : Cuts) (tail : Addr) (A : Finset Addr) (n : Nat)
    (done : List Key) (r : Replay P) : Prop where
  crew : Crew K b cuts tail A n (r.config V done)
  logged : ∀ t q, r.call t = some q → InLog r.tree.pm V q.key q.val
  waiting : ∀ t x, x ∈ r.todo t → InLog r.tree.pm V x.1 x.2 ∧ x.1 ∈ K ∧ (r.config V done).Unused x.1
  nodup : ∀ t, ((r.todo t).map Prod.fst).Nodup
  apart : ∀ t t' x x', x ∈ r.todo t → x' ∈ r.todo t' → x.1 = x'.1 → t = t'
  all : ∀ k ∈ K, k ∈ done ∨ (∃ t q, r.call t = some q ∧ q.key = k) ∨ ∃ t x, x ∈ r.todo t ∧ x.1 = k
  calm : r.tree.Calm
  words : ∀ k ∈ K, CalmWord k ∧ CalmWord (V k)

theorem Replay.Sound.calmPairs (h : r.Sound V K b cuts tail A n done) : r.tree.CalmPairs := by
  intro k v hv
  obtain ⟨x, hx, rfl, rfl⟩ := (h.crew.exact.content k v).mp hv
  have hkept := h.crew.kept _ hx
  obtain ⟨key, -, heq⟩ := List.mem_map.mp hx
  obtain rfl : recorded V key = x := congrArg Prod.fst heq
  exact h.words key hkept

omit [LawfulPmem P] in
theorem mem_todo_tail {todo : Tid → List (Key × Addr)} {x y : Key × Addr} (htodo : todo t = x :: rest) {t' : Tid}
    (hmem : y ∈ Function.update todo t rest t') : y ∈ todo t' := by
  by_cases ht : t' = t
  · subst ht
    rw [Function.update_self] at hmem
    exact htodo ▸ List.mem_cons_of_mem _ hmem
  · rwa [Function.update_of_ne ht] at hmem

/-- The call for the next record. -/
theorem Replay.Sound.enter (h : r.Sound V K b cuts tail A n done) (hcall : r.call t = none)
    (htodo : r.todo t = (key, val) :: rest) : Replay.Sound V K b cuts tail A n done
      { r with call := Function.update r.call t (some ⟨key, val, .searching⟩), todo := Function.update r.todo t rest } := by
  obtain ⟨hlogged, hkey, hunused⟩ := h.waiting t (key, val) (htodo ▸ List.mem_cons_self)
  have hnodup := h.nodup t
  rw [htodo, List.map_cons, List.nodup_cons] at hnodup
  have hidle : (r.config V done).pc t = none := congrArg (Option.map (QuickCall.pc V)) hcall
  have hcrew := h.crew.call hidle (r := recorded V key) hunused hkey
  -- the key is not in what is left
  have hleft : ∀ t' x, x ∈ Function.update r.todo t rest t' → key ≠ x.1 := by
    intro t' x hx heq
    have hold := mem_todo_tail htodo hx
    obtain rfl := h.apart t' t x (key, val) hold (htodo ▸ List.mem_cons_self) heq.symm
    rw [Function.update_self] at hx
    exact hnodup.1 (List.mem_map.mpr ⟨x, hx, heq.symm⟩)
  constructor
  · rw [Replay.config_enter]
    exact hcrew
  · intro t' q' hq'
    rcases eq_or_of_update_some hq' with ⟨-, rfl⟩ | ⟨-, hold⟩
    · exact hlogged
    · exact h.logged t' q' hold
  · intro t' x hx
    obtain ⟨hin, hmem, hnew⟩ := h.waiting t' x (mem_todo_tail htodo hx)
    refine ⟨hin, hmem, ?_⟩
    rw [Replay.config_enter]
    exact hnew.enter (hleft t' x hx)
  · intro t'
    by_cases ht : t' = t
    · subst ht
      dsimp only
      rw [Function.update_self]
      exact hnodup.2
    · dsimp only
      rw [Function.update_of_ne ht]
      exact h.nodup t'
  · exact fun t₁ t₂ x₁ x₂ h₁ h₂ => h.apart t₁ t₂ x₁ x₂ (mem_todo_tail htodo h₁) (mem_todo_tail htodo h₂)
  · -- a key of the log is done, under way or still to do: the new call is under way
    intro k hk
    rcases h.all k hk with hdone | ⟨t', q', hq', rfl⟩ | ⟨t', x, hx, rfl⟩
    · exact Or.inl hdone
    · refine Or.inr (Or.inl ⟨t', q', ?_, rfl⟩)
      have ht : t' ≠ t := by
        rintro rfl
        rw [hcall] at hq'
        exact absurd hq' (by simp)
      exact (Function.update_of_ne ht ..).trans hq'
    · by_cases ht : t' = t
      · subst ht
        rw [htodo] at hx
        rcases List.mem_cons.mp hx with rfl | hx
        · exact Or.inr (Or.inl ⟨t', ⟨key, val, .searching⟩, Function.update_self .., rfl⟩)
        · exact Or.inr (Or.inr ⟨t', x, by dsimp only; rwa [Function.update_self], rfl⟩)
      · exact Or.inr (Or.inr ⟨t', x, by dsimp only; rwa [Function.update_of_ne ht], rfl⟩)
  · exact h.calm
  · exact h.words

/-- The next section of a call. -/
theorem Replay.Sound.section (h : r.Sound V K b cuts tail A n done) (hcall : r.call t = some q) :
    quickSection r.tree t q.key q.val q.stage = .ok (some q.stage, r.tree) ∨
      ∃ o s' cuts' A' n', quickSection r.tree t q.key q.val q.stage = .ok (o, s') ∧
        Replay.Sound V K b cuts' tail A' n' (doneAfter q.key done o)
          { r with tree := s', call := Function.update r.call t (o.map fun stage => ⟨q.key, q.val, stage⟩) } ∧
        (quickOutcome (recorded V q.key) o).rank + 3 * splitsLeft K A' < (q.pc V).rank + 3 * splitsLeft K A := by
  obtain ⟨n, rfl⟩ := h.crew.room
  have hpc : (r.config V done).pc t = some (q.pc V) := congrArg (Option.map (QuickCall.pc V)) hcall
  have hinv := h.crew.threads.inv
  obtain ⟨hrec, hkey, hval⟩ := h.logged t q hcall
  have hnew : Absent r.tree (recorded V q.key).key := by
    refine (absent_iff hinv.data.slots).mpr fun v => ?_
    have habsent := h.crew.threads.absent t (q.pc V) v hpc
    rwa [QuickCall.pc_request] at habsent
  rcases quickSection_spec (r := recorded V q.key) hinv h.crew.threads.room h.calm h.calmPairs t
    (h.crew.threads.pcs t _ hpc) hnew hrec hkey hval with hwait | ⟨L, o, cuts', s', hrun, hadv⟩
  · exact Or.inl hwait
  obtain ⟨A', n', hcrew, hrank⟩ := h.crew.advance hpc hadv.advanced hadv.size
  -- the section brings the work down, or it has waited
  rcases hrank with hless | ⟨ho, rfl⟩
  · refine Or.inr ⟨o, s', cuts', A', n', hrun, ?_, hless⟩
    rw [← Replay.config_section] at hcrew
    constructor
    · exact hcrew
    · intro t' q' hq'
      refine InLog.congr ?_ hadv.records hadv.same
      by_cases ht : t' = t
      · subst ht
        dsimp only at hq'
        rw [Function.update_self] at hq'
        obtain ⟨stage, -, rfl⟩ := Option.map_eq_some_iff.mp hq'
        exact ⟨hrec, hkey, hval⟩
      · dsimp only at hq'
        rw [Function.update_of_ne ht] at hq'
        exact h.logged t' q' hq'
    · intro t' x hx
      obtain ⟨hin, hmem, hunused⟩ := h.waiting t' x hx
      refine ⟨hin.congr hadv.records hadv.same, hmem, ?_⟩
      rw [Replay.config_section]
      exact hunused.after hpc hadv.advanced
    · exact h.nodup
    · exact h.apart
    · intro k hk
      -- a call that returns is done
      rcases h.all k hk with hdone | ⟨t', q', hq', rfl⟩ | htodo
      · left
        cases o with
        | none => exact List.mem_cons_of_mem _ hdone
        | some stage => exact hdone
      · by_cases ht : t' = t
        · subst ht
          obtain rfl : q' = q := Option.some.inj (hq'.symm.trans hcall)
          cases o with
          | none => exact Or.inl List.mem_cons_self
          | some stage => exact Or.inr (Or.inl ⟨t', ⟨q'.key, q'.val, stage⟩, Function.update_self .., rfl⟩)
        · exact Or.inr (Or.inl ⟨t', q', (Function.update_of_ne ht ..).trans hq', rfl⟩)
      · exact Or.inr (Or.inr htodo)
    · exact hadv.calm
    · exact h.words
  · left
    obtain ⟨key, val, stage⟩ := q
    cases o with
    | none => exact absurd ho (by simp [quickOutcome])
    | some stage' =>
      have hsame : stage' = stage := by
        cases stage' <;> cases stage <;> simp_all [quickOutcome, Stage.pc, QuickCall.pc]
      rw [hsame] at hrun
      exact hrun

/-! ### Turns -/

def Replay.Turn (t : Tid) (r r' : Replay P) : Prop := r.step t = .ok r'

variable {T : Finset Tid}

omit [LawfulPmem P] in
theorem Replay.Turn.cases (hturn : Replay.Turn t r r') : r.Done t ∧ r' = r ∨
    (r.call t = none ∧ ∃ key val rest, r.todo t = (key, val) :: rest ∧ r' =
      { r with call := Function.update r.call t (some ⟨key, val, .searching⟩), todo := Function.update r.todo t rest }) ∨
    ∃ q o s', r.call t = some q ∧ quickSection r.tree t q.key q.val q.stage = .ok (o, s') ∧ r' =
      { r with tree := s', call := Function.update r.call t (o.map fun stage => ⟨q.key, q.val, stage⟩) } := by
  cases hcall : r.call t with
  | none =>
    cases htodo : r.todo t with
    | nil =>
      simp only [Replay.Turn, Replay.step, hcall, htodo] at hturn
      exact Or.inl ⟨⟨hcall, htodo⟩, (Except.ok.inj hturn).symm⟩
    | cons x rest =>
      simp only [Replay.Turn, Replay.step, hcall, htodo] at hturn
      exact Or.inr (Or.inl ⟨rfl, x.1, x.2, rest, rfl, (Except.ok.inj hturn).symm⟩)
  | some q =>
    simp only [Replay.Turn, Replay.step, hcall] at hturn
    obtain ⟨⟨o, s'⟩, hsection, hturn⟩ := bind_eq_ok.mp hturn
    cases hturn
    exact Or.inr (Or.inr ⟨q, o, s', rfl, hsection, rfl⟩)

omit [LawfulPmem P] in
/-- A section that ends where it began has found its leaf taken. -/
theorem quickSection_back {s : TreeState P} {stage : Stage}
    (h : quickSection s t key val stage = .ok (some stage, s')) :
    stage = .searching ∧ ∃ b m, s.dleafHeap b = some m ∧ m.tempInsert ≠ 0 := by
  cases stage with
  | searching =>
    obtain ⟨⟨lockState, leaf, s₁⟩, hlock, h⟩ := bind_eq_ok.mp h
    dsimp only at h
    split_ifs at h with hfree
    · cases h
    · obtain ⟨path, m, -, hm, ⟨htrue, -⟩ | ⟨-, hmark, -⟩⟩ := lockLeaf_cases hlock
      · exact absurd htrue hfree
      · exact ⟨rfl, leaf, m, hm, hmark⟩
  | locked leaf =>
    unfold quickSection at h
    simp only [bind_eq_ok] at h
    obtain ⟨m, -, ⟨duplicate, m'⟩, -, h⟩ := h
    split_ifs at h
    · cases h
    · obtain ⟨q, -, h⟩ := bind_eq_ok.mp h
      cases h
  | splitting leaf leaf2 splitKey insertLeaf =>
    obtain ⟨s₁, -, h⟩ := bind_eq_ok.mp h
    cases h

def Replay.work (V : Key → Word) (r : Replay P) (T : Finset Tid) : Nat :=
  (r.config V []).work T + 3 * ∑ t ∈ T, (r.todo t).length

/-- The threads, which are those of `T`, are at most `n` moves from the ends of their lists. -/
def Replay.Near (V : Key → Word) (K : Finset Key) (T : Finset Tid) (tail : Addr) (n : Nat) (r : Replay P) : Prop :=
  (∀ t, ¬ r.Done t → t ∈ T) ∧ ∃ cuts A b m done, r.Sound V K b cuts tail A m done ∧
    r.work V T + 3 * splitsLeft K A ≤ n

omit [Pmem P] [LawfulPmem P] in
theorem Replay.work_enter (hcall : r.call t = none) (htodo : r.todo t = (key, val) :: rest) (ht : t ∈ T) :
    Replay.work V { r with
      call := Function.update r.call t (some ⟨key, val, .searching⟩), todo := Function.update r.todo t rest } T <
        r.work V T := by
  have hidle : (r.config V []).pc t = none := congrArg (Option.map (QuickCall.pc V)) hcall
  have hcalls : ((r.config V []).enter t (recorded V key)).work T = (r.config V []).work T + 2 := by
    have hself : ((((r.config V []).enter t (recorded V key)).pc t).map Pc.rank).getD 0 = 2 := by
      simp only [Config.enter, Function.update_self]
      rfl
    have hsum := Bins.sum_off (f := fun t' => ((((r.config V []).enter t (recorded V key)).pc t').map Pc.rank).getD 0)
      (g := fun t' => (((r.config V []).pc t').map Pc.rank).getD 0) ht fun t' ht' =>
        congrArg (fun x => (Option.map Pc.rank x).getD 0) (Function.update_of_ne ht' ..)
    rwa [hself, hidle] at hsum
  have htodos : ∑ t' ∈ T, (Function.update r.todo t rest t').length + 1 = ∑ t' ∈ T, (r.todo t').length := by
    have hsum := Bins.sum_off (f := fun t' => (Function.update r.todo t rest t').length)
      (g := fun t' => (r.todo t').length) ht fun t' ht' => congrArg List.length (Function.update_of_ne ht' ..)
    rw [Function.update_self, htodo, List.length_cons] at hsum
    omega
  unfold Replay.work
  rw [Replay.config_enter, hcalls]
  dsimp only
  omega

omit [Pmem P] [LawfulPmem P] in
theorem Replay.work_section (V : Key → Word) (o : Option Stage) (s' : TreeState P) (hcall : r.call t = some q) (ht : t ∈ T) :
    Replay.work V { r with
      tree := s', call := Function.update r.call t (o.map fun stage => ⟨q.key, q.val, stage⟩) } T + (q.pc V).rank =
        r.work V T + (quickOutcome (recorded V q.key) o).rank := by
  have hpc : (r.config V []).pc t = some (q.pc V) := congrArg (Option.map (QuickCall.pc V)) hcall
  have hafter := Config.work_after (quickOutcome (recorded V q.key) o) s' hpc ht
  have hsame : ((r.config V []).after t (q.pc V) (quickOutcome (recorded V q.key) o) s').work T =
      (Replay.config V [] { r with
        tree := s', call := Function.update r.call t (o.map fun stage => ⟨q.key, q.val, stage⟩) }).work T := by
    rw [← Replay.config_section]
    rfl
  rw [hsame] at hafter
  unfold Replay.work
  dsimp only
  omega

omit [Pmem P] [LawfulPmem P] in
theorem Replay.same_turn (hcall : r.call t = some q) : ({ r with
    tree := r.tree, call := Function.update r.call t ((some q.stage).map fun stage => ⟨q.key, q.val, stage⟩) } :
      Replay P) = r := by
  have hsame : Function.update r.call t ((some q.stage).map fun stage => ⟨q.key, q.val, stage⟩) = r.call := by
    rw [Option.map_some, ← hcall, Function.update_eq_self]
  rw [hsame]

/-- A turn leads on, or the thread has nothing to do, or it finds its leaf taken. -/
theorem Replay.Near.turn (h : r.Near V K T tail n) (hturn : Replay.Turn t r r') :
    (∃ m, m < n ∧ r'.Near V K T tail m) ∨ r' = r ∧ (r.Done t ∨ ∃ q, r.call t = some q ∧ q.stage = .searching ∧
      ∃ b m, r.tree.dleafHeap b = some m ∧ m.tempInsert ≠ 0) := by
  obtain ⟨hT, cuts, A, b, m, done, hsound, hwork⟩ := h
  rcases hturn.cases with ⟨hdone, rfl⟩ | ⟨hcall, key, val, rest, htodo, rfl⟩ | ⟨q, o, s', hcall, hsection, rfl⟩
  · exact Or.inr ⟨rfl, Or.inl hdone⟩
  · left
    have ht : t ∈ T := hT t fun hdone => by
      rw [hdone.2] at htodo
      exact absurd htodo (by simp)
    have hless := Replay.work_enter (V := V) hcall htodo ht
    refine ⟨_, Nat.lt_of_lt_of_le (Nat.add_lt_add_right hless _) hwork, fun t' hbusy => ?_, cuts, A, b, m, done,
      hsound.enter hcall htodo, Nat.le_refl _⟩
    by_cases ht' : t' = t
    · exact ht' ▸ ht
    · refine hT t' fun hdone => hbusy ⟨?_, ?_⟩
      · exact (Function.update_of_ne ht' ..).trans hdone.1
      · exact (Function.update_of_ne ht' ..).trans hdone.2
  · have ht : t ∈ T := hT t fun hdone => by
      rw [hdone.1] at hcall
      exact absurd hcall (by simp)
    rcases hsound.section hcall with hwait | ⟨o₁, s₁, cuts', A', n', hrun, hsound', hrank⟩
    · right
      obtain ⟨rfl, rfl⟩ := Prod.mk.inj (Except.ok.inj (hsection.symm.trans hwait))
      obtain ⟨hstage, hmark⟩ := quickSection_back hwait
      exact ⟨Replay.same_turn hcall, Or.inr ⟨q, hcall, hstage, hmark⟩⟩
    · left
      obtain ⟨rfl, rfl⟩ := Prod.mk.inj (Except.ok.inj (hsection.symm.trans hrun))
      have hafter := Replay.work_section V o s' hcall ht
      refine ⟨_, ?_, fun t' hbusy => ?_, cuts', A', b, n', _, hsound', Nat.le_refl _⟩
      · omega
      · by_cases ht' : t' = t
        · exact ht' ▸ ht
        · exact hT t' fun hdone => hbusy ⟨(Function.update_of_ne ht' ..).trans hdone.1, hdone.2⟩

/-- Turns of the threads lead to the ends of their lists. -/
theorem replay_turns (V : Key → Word) (K : Finset Key) (T : Finset Tid) (tail : Addr) :
    Turns (Replay.Turn (P := P)) (Replay.Near V K T tail) fun r t => ¬ r.Done t where
  idle {t r r'} hidle hturn := by
    obtain ⟨hcall, htodo⟩ := not_not.mp hidle
    simp only [Replay.Turn, Replay.step, hcall, htodo] at hturn
    exact (Except.ok.inj hturn).symm
  moves h hturn := (h.turn hturn).symm.imp_left And.left
  able {n t r} h hbusy := by
    by_cases hmark : ∃ b m, r.tree.dleafHeap b = some m ∧ m.tempInsert ≠ 0
    · -- the call that holds the leaf does not wait
      obtain ⟨b, m, hm, hmark⟩ := hmark
      obtain ⟨-, cuts, A, b', m', done, hsound, -⟩ := id h
      obtain ⟨t', pc', hpc', hleaf⟩ := hsound.crew.threads.held b m hm hmark
      obtain ⟨q, hcall, rfl⟩ := Replay.config_pc hpc'
      refine ⟨t', fun hdone => absurd (hdone.1.symm.trans hcall) (by simp), fun r' hturn => ?_⟩
      rcases h.turn hturn with hless | ⟨-, hdone | ⟨q', hcall', hstage, -⟩⟩
      · exact hless
      · exact absurd (hdone.1.symm.trans hcall) (by simp)
      · obtain rfl := Option.some.inj (hcall'.symm.trans hcall)
        rw [QuickCall.pc, hstage] at hleaf
        exact absurd hleaf (by simp [Stage.pc, Pc.leaf])
    · refine ⟨t, hbusy, fun r' hturn => ?_⟩
      rcases h.turn hturn with hless | ⟨-, hdone | ⟨-, -, -, hfound⟩⟩
      · exact hless
      · exact absurd hdone hbusy
      · exact absurd hfound hmark

/-! ### Runs -/

theorem Replay.Sound.step (h : r.Sound V K b cuts tail A n done) (t : Tid) :
    ∃ cuts' A' n' done' r', r.step t = .ok r' ∧ r'.Sound V K b cuts' tail A' n' done' := by
  cases hcall : r.call t with
  | none =>
    cases htodo : r.todo t with
    | nil => exact ⟨cuts, A, n, done, r, by simp only [Replay.step, hcall, htodo], h⟩
    | cons x rest => exact ⟨cuts, A, n, done, _, by simp only [Replay.step, hcall, htodo], h.enter hcall htodo⟩
  | some q =>
    rcases h.section hcall with hwait | ⟨o, s', cuts', A', n', hrun, hsound, -⟩
    · refine ⟨cuts, A, n, done, r, ?_, h⟩
      simp only [Replay.step, hcall, hwait, ok_bind, pure_eq_ok]
      exact congrArg Except.ok (Replay.same_turn hcall)
    · exact ⟨cuts', A', n', _, _, by simp only [Replay.step, hcall, hrun, ok_bind, pure_eq_ok], hsound⟩

/-- Any turns, by induction on them. -/
theorem Replay.Sound.run (ts : List Tid) (h : r.Sound V K b cuts tail A n done) :
    ∃ cuts' A' n' done' r', r.run ts = .ok r' ∧ r'.Sound V K b cuts' tail A' n' done' := by
  induction ts generalizing r cuts A n done with
  | nil => exact ⟨cuts, A, n, done, r, rfl, h⟩
  | cons t ts ih =>
    obtain ⟨cuts₁, A₁, n₁, done₁, r₁, hstep, h₁⟩ := h.step t
    obtain ⟨cuts', A', n', done', r', hrun, h'⟩ := ih h₁
    exact ⟨cuts', A', n', done', r', by simp only [Replay.run, hstep, ok_bind, hrun], h'⟩

omit [LawfulPmem P] in
theorem Replay.run_turns {ts : List Tid} (hrun : r.run ts = .ok r') : Rounds.Run Replay.Turn ts r r' := by
  induction ts generalizing r with
  | nil =>
    cases hrun
    rfl
  | cons t ts ih =>
    obtain ⟨r₁, hstep, hrun⟩ := bind_eq_ok.mp hrun
    exact ⟨r₁, hstep, ih hrun⟩

/-! ### Beginning and end -/

omit [LawfulPmem P] [Pmem P] in
theorem mapOf_recorded (V : Key → Word) (done : List Key) (k : Key) :
    mapOf (done.map fun key => (recorded V key, true)) k = if k ∈ done then some (V k) else none := by
  induction done with
  | nil => rfl
  | cons key done ih =>
    unfold mapOf at ih ⊢
    rw [List.map_cons, List.find?_cons]
    by_cases hk : key = k
    · subst hk
      simp [recorded]
    · have hkey : (decide ((recorded V key).key = k)) = false := decide_eq_false hk
      dsimp only
      rw [hkey, ih]
      exact if_congr (by simp [Ne.symm hk]) rfl rfl

theorem Replay.Sound.represents (h : r.Sound V K b cuts tail A n done) (hdone : ∀ t, r.Done t) :
    Represents n tail r.tree fun k => if k ∈ K then some (V k) else none := by
  have hidle : ∀ t, (r.config V done).pc t = none := fun t => congrArg (Option.map (QuickCall.pc V)) (hdone t).1
  have hmem : ∀ k, k ∈ done ↔ k ∈ K := by
    intro k
    constructor
    · intro hk
      exact h.crew.kept (recorded V k, true) (List.mem_map.mpr ⟨k, hk, rfl⟩)
    · intro hk
      rcases h.all k hk with hin | ⟨t, q, hcall, -⟩ | ⟨t, x, hx, -⟩
      · exact hin
      · exact absurd ((hdone t).1.symm.trans hcall) (by simp)
      · rw [(hdone t).2] at hx
        exact absurd hx List.not_mem_nil
  have hmap : mapOf (r.config V done).returned = fun k => if k ∈ K then some (V k) else none := by
    funext k
    exact (mapOf_recorded V done k).trans (if_congr (hmem k) rfl rfl)
  exact hmap ▸ h.crew.represents hidle

/-- The lists of the threads have one record for each key of `K`. -/
structure Shares (p : P) (V : Key → Word) (K : Finset Key) (todo : Tid → List (Key × Addr)) : Prop where
  logged : ∀ t x, x ∈ todo t → InLog p V x.1 x.2 ∧ x.1 ∈ K
  nodup : ∀ t, ((todo t).map Prod.fst).Nodup
  apart : ∀ t t' x x', x ∈ todo t → x' ∈ todo t' → x.1 = x'.1 → t = t'
  all : ∀ k ∈ K, ∃ t x, x ∈ todo t ∧ x.1 = k

theorem Represents.sound {s : TreeState P} {todo : Tid → List (Key × Addr)} (h : Represents n tail s fun _ => none)
    {a : Addr} (hsizes : s.sizes = Function.update (fun _ => none) a (some 0)) (hn : K.card + K.card / LEFT_KEY < n)
    (hshares : Shares s.pm V K todo) (hcalm : s.Calm) (hwords : ∀ k ∈ K, CalmWord k ∧ CalmWord (V k)) :
    Replay.Sound V K n Cuts.empty tail {a} n [] (Replay.start s todo) := by
  obtain ⟨hcrew, hunused⟩ := h.crew hsizes hn
  constructor
  · exact hcrew
  · exact fun t q hcall => absurd hcall (by simp [Replay.start])
  · exact fun t x hx => ⟨(hshares.logged t x hx).1, (hshares.logged t x hx).2, hunused x.1⟩
  · exact hshares.nodup
  · exact hshares.apart
  · exact fun k hk => Or.inr (Or.inr (hshares.all k hk))
  · exact hcalm
  · exact hwords

end ZBTree
