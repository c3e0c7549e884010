import ZBTree.PmemMaps
import ZBTree.Rounds
import ZBTree.ThreadBudgets

/-!
# Every call returns

A thread spins while its leaf is taken. The one that has taken the leaf never spins before it gives
the leaf back, so whenever calls are under way one of them moves on. Each move brings a call nearer to
its end, or splits one of the few leaves that can ever be full; in rounds in which every thread has a
turn all calls have returned after a number of rounds that the keys and the threads bound.
-/

namespace ZBTree

open RangeIndex Pmem LawfulPmem Rounds

variable {P : Type} [Pmem P]

/-! ### Waiting -/

section Waiting

variable {s s' : TreeState P} {t : Tid} {pc : Pc}

/-- A section that ends where it began has found its leaf taken. -/
theorem insertSection_back (h : insertSection s t pc = .ok (.goto pc, s')) :
    pc.leaf = none ∧ ∃ b m, s.dleafHeap b = some m ∧ m.tempInsert ≠ 0 := by
  cases pc with
  | searching r =>
    obtain ⟨⟨lockState, leaf, s₁⟩, hlock, h⟩ := bind_eq_ok.mp h
    dsimp only at h
    split_ifs at h with hfree
    · cases h
    · obtain ⟨path, m, -, hm, ⟨htrue, -⟩ | ⟨-, hmark, -⟩⟩ := lockLeaf_cases hlock
      · exact absurd htrue hfree
      · exact ⟨rfl, leaf, m, hm, hmark⟩
  | locked r leaf =>
    unfold insertSection at h
    simp only [bind_eq_ok] at h
    obtain ⟨m, -, dup, -, h⟩ := h
    split_ifs at h
    · cases h
    · obtain ⟨s₂, -, h⟩ := bind_eq_ok.mp h
      cases h
    · obtain ⟨r, -, h⟩ := bind_eq_ok.mp h
      cases h
  | splitting r leaf leaf₂ splitKey insertLeaf =>
    obtain ⟨s₁, -, h⟩ := bind_eq_ok.mp h
    cases h

end Waiting

/-! ### What is left to do

Each call has a rank, the number of sections it still needs when its leaf has room, and each split that can still
happen adds three. A turn of the thread that holds a leaf brings the sum down. -/

variable {K : Finset Key} {T : Finset Tid} {cuts : Cuts} {tail : Addr} {A : Finset Addr} {b n : Nat} {c c' : Config P}
  {t : Tid} {pc : Pc} {o : Outcome} {s' : TreeState P}

/-- The sections that the calls under way need when no leaf is full. -/
def Config.work (c : Config P) (T : Finset Tid) : Nat := ∑ t ∈ T, ((c.pc t).map Pc.rank).getD 0

omit [Pmem P] in
theorem Config.work_after (o : Outcome) (s' : TreeState P) (hpc : c.pc t = some pc) (ht : t ∈ T) :
    (c.after t pc o s').work T + pc.rank = c.work T + o.rank := by
  have hoff : ∀ t', t' ≠ t → (((c.after t pc o s').pc t').map Pc.rank).getD 0 = ((c.pc t').map Pc.rank).getD 0 :=
    fun t' ht' => congrArg (fun x => (Option.map Pc.rank x).getD 0) (Function.update_of_ne ht' ..)
  have hself : (((c.after t pc o s').pc t).map Pc.rank).getD 0 = o.rank := by
    simp only [Config.after, Function.update_self]
    cases o <;> rfl
  have hsum := Bins.sum_off ht hoff
  rwa [hself, hpc] at hsum

theorem Pc.rank_le (pc : Pc) : pc.rank ≤ 3 := by
  cases pc <;> simp [Pc.rank]

omit [Pmem P] in
theorem Config.work_le (c : Config P) (T : Finset Tid) : c.work T ≤ 3 * T.card := by
  rw [Nat.mul_comm, ← smul_eq_mul]
  refine Finset.sum_le_card_nsmul T _ 3 fun t _ => ?_
  cases c.pc t with
  | none => exact Nat.zero_le 3
  | some pc => exact pc.rank_le

variable [LawfulPmem P]

/-- The calls of the threads of `T` are at most `n` moves from their ends. -/
def Near (K : Finset Key) (T : Finset Tid) (tail : Addr) (n : Nat) (c : Config P) : Prop :=
  (∀ t pc, c.pc t = some pc → t ∈ T) ∧
    ∃ cuts A b m, Crew K b cuts tail A m c ∧ c.work T + 3 * splitsLeft K A ≤ n

def Config.Turn (t : Tid) (c c' : Config P) : Prop := c.step (.run t) = .ok c'

omit [LawfulPmem P] in
theorem Config.Turn.idle (hidle : c.pc t = none) (hturn : Config.Turn t c c') : c' = c := by
  simp only [Config.Turn, Config.step, hidle] at hturn
  exact (Except.ok.inj hturn).symm

omit [LawfulPmem P] in
theorem Config.Turn.cases (hturn : Config.Turn t c c') : c.pc t = none ∧ c' = c ∨
    ∃ pc o s', c.pc t = some pc ∧ insertSection c.tree t pc = .ok (o, s') ∧ c' = c.after t pc o s' := by
  cases hpc : c.pc t with
  | none => exact Or.inl ⟨rfl, hturn.idle hpc⟩
  | some pc =>
    simp only [Config.Turn, Config.step, hpc] at hturn
    obtain ⟨⟨o, s'⟩, hsection, hturn⟩ := bind_eq_ok.mp hturn
    cases hturn
    exact Or.inr ⟨pc, o, s', rfl, hsection, rfl⟩

/-- The next section of a thread that is inside a call. -/
theorem Near.section (h : Near K T tail n c) (hpc : c.pc t = some pc) (hturn : Config.Turn t c c') :
    (∃ m, m < n ∧ Near K T tail m c') ∨
      c' = c ∧ pc.leaf = none ∧ ∃ b m, c.tree.dleafHeap b = some m ∧ m.tempInsert ≠ 0 := by
  obtain ⟨hT, cuts, A, b, m, hcrew, hwork⟩ := h
  obtain ⟨cuts', A', m', o, s', hstep, hcrew', hrank⟩ := hcrew.section hpc
  obtain rfl : c' = c.after t pc o s' := Except.ok.inj (hturn.symm.trans hstep)
  rcases hrank with hless | ⟨rfl, rfl⟩
  · left
    have hafter := Config.work_after o s' hpc (hT t pc hpc)
    refine ⟨(c.after t pc o s').work T + 3 * splitsLeft K A', by omega, fun t' pc' hpc' => ?_, cuts', A', b, m',
      hcrew', Nat.le_refl _⟩
    rcases Config.after_pc hpc' with ⟨rfl, -⟩ | ⟨-, hold⟩
    · exact hT _ pc hpc
    · exact hT t' pc' hold
  · right
    refine ⟨Config.after_wait hpc, ?_⟩
    simp only [Config.step, hpc] at hstep
    obtain ⟨⟨o, s₁⟩, hsection, hafter⟩ := bind_eq_ok.mp hstep
    have hback : o.pc = some pc := by
      have hsame := congrArg (fun c : Config P => c.pc t) (Except.ok.inj hafter)
      simpa [Config.after, Outcome.pc] using hsame
    cases o with
    | ret done => exact absurd hback (by simp [Outcome.pc])
    | goto pc' =>
      obtain rfl : pc' = pc := Option.some.inj hback
      exact insertSection_back hsection

/-- Turns of the threads lead to the ends of their calls. -/
theorem insert_turns (K : Finset Key) (T : Finset Tid) (tail : Addr) :
    Turns (Config.Turn (P := P)) (Near K T tail) fun c t => c.pc t ≠ none where
  idle hidle hturn := hturn.idle (not_not.mp hidle)
  moves {n t c c'} h hturn := by
    cases hpc : c.pc t with
    | none => exact Or.inl (hturn.idle hpc)
    | some pc =>
      rcases h.section hpc hturn with hless | ⟨rfl, -⟩
      · exact Or.inr hless
      · exact Or.inl rfl
  able {n t c} h hbusy := by
    obtain ⟨pc, hpc⟩ := Option.ne_none_iff_exists'.mp hbusy
    by_cases hmark : ∃ b m, c.tree.dleafHeap b = some m ∧ m.tempInsert ≠ 0
    · -- the call that holds the leaf does not wait
      obtain ⟨b, m, hm, hmark⟩ := hmark
      obtain ⟨-, cuts, A, b', m', hcrew, -⟩ := id h
      obtain ⟨t', pc', hpc', hleaf⟩ := hcrew.threads.held b m hm hmark
      refine ⟨t', by rw [hpc']; simp, fun c' hturn => ?_⟩
      rcases h.section hpc' hturn with hless | ⟨-, hnone, -⟩
      · exact hless
      · rw [hnone] at hleaf
        exact absurd hleaf (by simp)
    · refine ⟨t, hbusy, fun c' hturn => ?_⟩
      rcases h.section hpc hturn with hless | ⟨-, -, hfound⟩
      · exact hless
      · exact absurd hfound hmark

/-! ### Schedules -/

section Schedules

omit [LawfulPmem P]

/-- The calls under way and those that have returned are those of the schedule. -/
theorem Config.run_calls {Q : Tid → Request → Prop} {es : List Event}
    (hc : ∀ t pc, c.pc t = some pc → Q t pc.request) (hreturned : ∀ x ∈ c.returned, ∃ t, Q t x.1)
    (hes : ∀ t r, Event.call t r ∈ es → Q t r) (hrun : c.run es = .ok c') :
    (∀ t pc, c'.pc t = some pc → Q t pc.request) ∧ ∀ x ∈ c'.returned, ∃ t, Q t x.1 := by
  induction es generalizing c with
  | nil =>
    cases hrun
    exact ⟨hc, hreturned⟩
  | cons e es ih =>
    obtain ⟨c₁, hstep, htail⟩ := bind_eq_ok.mp hrun
    have hrest : ∀ t r, Event.call t r ∈ es → Q t r := fun t r hr => hes t r (List.mem_cons_of_mem _ hr)
    cases e with
    | call t' r =>
      cases hbusy : c.pc t' with
      | some pc' =>
        simp only [Config.step, hbusy] at hstep
        cases hstep
        exact ih hc hreturned hrest htail
      | none =>
        simp only [Config.step, hbusy] at hstep
        cases hstep
        refine ih (c := c.enter t' r) (fun t pc hpc => ?_) hreturned hrest htail
        rcases Config.enter_pc hpc with ⟨rfl, rfl⟩ | ⟨-, hold⟩
        · exact hes _ r List.mem_cons_self
        · exact hc t pc hold
    | run t' =>
      rcases Config.Turn.cases hstep with ⟨-, rfl⟩ | ⟨pc', o, s', hbusy, hsection, rfl⟩
      · exact ih hc hreturned hrest htail
      · refine ih (fun t pc hpc => ?_) (fun x hx => ?_) hrest htail
        · rcases Config.after_pc hpc with ⟨rfl, rfl⟩ | ⟨-, hold⟩
          · rw [PmemMap.section_request hsection]
            exact hc _ pc' hbusy
          · exact hc t pc hold
        · rcases List.mem_append.mp hx with hx | hx
          · cases o with
            | goto pc => exact absurd hx List.not_mem_nil
            | ret done =>
              obtain rfl := List.mem_singleton.mp hx
              exact ⟨t', hc t' pc' hbusy⟩
          · exact hreturned x hx

theorem Config.run_turns {ts : List Tid} (hrun : c.run (ts.map .run) = .ok c') : Run Config.Turn ts c c' := by
  induction ts generalizing c with
  | nil =>
    cases hrun
    rfl
  | cons t ts ih =>
    obtain ⟨c₁, hstep, hrun⟩ := bind_eq_ok.mp hrun
    exact ⟨c₁, hstep, ih hrun⟩

theorem calledKeys_turns (ts : List Tid) : calledKeys (ts.map .run) = [] := by
  induction ts with
  | nil => rfl
  | cons t ts ih => exact ih

/-- The call of `r` is under way on the thread `t`, or it has returned. -/
def Config.Called (c : Config P) (t : Tid) (r : Request) : Prop :=
  (∃ pc, c.pc t = some pc ∧ pc.request = r) ∨ ∃ done, (r, done) ∈ c.returned

theorem Config.Called.turns {ts : List Tid} {r : Request} (h : c.Called t r) (hrun : Run Config.Turn ts c c') :
    c'.Called t r := by
  induction ts generalizing c with
  | nil =>
    obtain rfl : c' = c := hrun
    exact h
  | cons t' ts ih =>
    obtain ⟨c₁, hturn, hrun⟩ := hrun
    refine ih ?_ hrun
    rcases hturn.cases with ⟨-, rfl⟩ | ⟨pc', o, s', hbusy, hsection, rfl⟩
    · exact h
    · rcases h with ⟨pc, hpc, rfl⟩ | ⟨done, hmem⟩
      · by_cases ht : t = t'
        · subst ht
          obtain rfl : pc' = pc := Option.some.inj (hbusy.symm.trans hpc)
          cases o with
          | goto pc₁ => exact Or.inl ⟨pc₁, Function.update_self .., PmemMap.section_request hsection⟩
          | ret done => exact Or.inr ⟨done, List.mem_cons_self⟩
        · exact Or.inl ⟨pc, (Function.update_of_ne ht ..).trans hpc, rfl⟩
      · exact Or.inr ⟨done, List.mem_append_right _ hmem⟩

end Schedules

theorem Crew.turns (h : Crew K b cuts tail A n c) (ts : List Tid) :
    ∃ cuts' A' n' c', c.run (ts.map .run) = .ok c' ∧ Crew K b cuts' tail A' n' c' := by
  have hnone := calledKeys_turns ts
  refine h.run (ts.map .run) (hnone ▸ List.nodup_nil) (fun k hk => ?_) fun k hk => ?_
  · rw [hnone] at hk
    exact absurd hk List.not_mem_nil
  · rw [hnone] at hk
    exact absurd hk List.not_mem_nil

/-- Threads insert into one tree in any order of their sections, and from then on they have turns in
rounds. Whatever the order inside the rounds, after a number of rounds that the number of the threads
and of the leaves bounds, every call that was under way has returned, and `find` has every pair. -/
theorem inserts_return (pm : P) (t₀ : Tid) (junkInner : Addr → InnerNode) (junkLeaf : Addr → DLeaf)
    (schedule : List Event) (T : Finset Tid) (rounds : List (List Tid))
    (hroom : Ok ((calledKeys schedule).length + (calledKeys schedule).length / LEFT_KEY + 2) pm)
    (hkeys : (calledKeys schedule).Nodup) (hT : ∀ t r, Event.call t r ∈ schedule → t ∈ T)
    (hrounds : ∀ round ∈ rounds, ∀ t ∈ T, t ∈ round)
    (hmany : 3 * (T.card + (calledKeys schedule).length / LEFT_KEY) < rounds.length) :
    ∃ s₀ c c', init pm t₀ junkInner junkLeaf = .ok s₀ ∧ (Config.start s₀).run schedule = .ok c ∧
      c.run (rounds.flatten.map .run) = .ok c' ∧ (∀ t, c'.pc t = none) ∧
      (∀ t pc, c.pc t = some pc → (pc.request, true) ∈ c'.returned) ∧
      (∀ r, (r, true) ∈ c.returned → (r, true) ∈ c'.returned) ∧
      ∀ r, (r, true) ∈ c'.returned → ∃ s', find c'.tree r.key = .ok (r.val, s') := by
  obtain ⟨s₀, c, hinit, hrun, cuts, A, n, hc⟩ :=
    Crew.schedule pm t₀ junkInner junkLeaf schedule hroom (Nat.lt_succ_self _) hkeys
  obtain ⟨cuts', A', n', c', hrun', hc'⟩ := hc.turns rounds.flatten
  have hcallers : ∀ t pc, c.pc t = some pc → t ∈ T :=
    (Config.run_calls (fun t pc hpc => absurd hpc (by simp [Config.start]))
      (fun x hx => absurd hx (by simp [Config.start])) hT hrun).1
  have hnear : Near (calledKeys schedule).toFinset T (junkLeaf 1).next
      (3 * (T.card + (calledKeys schedule).length / LEFT_KEY)) c := by
    refine ⟨hcallers, cuts, A, _, n, hc, ?_⟩
    have hsplits : splitsLeft (calledKeys schedule).toFinset A ≤ (calledKeys schedule).length / LEFT_KEY :=
      List.toFinset_card_of_nodup hkeys ▸ Nat.sub_le _ _
    rw [Nat.mul_add]
    exact Nat.add_le_add (c.work_le T) (Nat.mul_le_mul_left 3 hsplits)
  have hidle := (insert_turns _ T _).done rounds hnear hmany
    (fun m c t hm hbusy round hround => by
      obtain ⟨pc, hpc⟩ := Option.ne_none_iff_exists'.mp hbusy
      exact hrounds round hround t (hm.1 t pc hpc)) (Config.run_turns hrun')
  have hnone : ∀ t, c'.pc t = none := fun t => not_not.mp (hidle t)
  have hreturned : ∀ t r, c.Called t r → (r, true) ∈ c'.returned := by
    intro t r hcalled
    rcases hcalled.turns (Config.run_turns hrun') with ⟨pc, hpc, -⟩ | ⟨done, hmem⟩
    · rw [hnone t] at hpc
      exact absurd hpc (by simp)
    · have htrue : done = true := hc'.exact.returned _ hmem
      exact htrue ▸ hmem
  exact ⟨s₀, c, c', hinit, hrun, hrun', hnone, fun t pc hpc => hreturned t _ (Or.inl ⟨pc, hpc, rfl⟩),
    fun r hr => hreturned 0 r (Or.inr ⟨true, hr⟩), (hc'.answers (hc'.represents hnone)).1⟩

def Event.thread : Event → Tid
  | .call t _ => t
  | .run t => t

def raceBegun : List Event := insertsUpTo 30 ++ [.call 0 ⟨31, 7, 8⟩, .call 1 ⟨32, 7, 8⟩, .run 0, .run 1]

/-- The first has still to split the leaf, and the second finds it taken. -/
theorem inserts_return_split : ∃ s₀ c c', init (IdealPm.roomy 250) 0 zeroInner zeroLeaf = .ok s₀ ∧
    (Config.start s₀).run raceBegun = .ok c ∧ c.tree.tempLevel = 0 ∧
      c.run ((List.replicate 13 [1, 0]).flatten.map .run) = .ok c' ∧ (∀ t, c'.pc t = none) ∧ c'.tree.tempLevel = 1 := by
  have hcallers : ∀ t r, Event.call t r ∈ raceBegun → t ∈ ({0, 1} : Finset Tid) := by
    have hall : ∀ e ∈ raceBegun, e.thread ∈ ({0, 1} : Finset Tid) := by decide +kernel
    exact fun t r hmem => hall _ hmem
  obtain ⟨s₀, c, c', hinit, hrun, hrun', hnone, -⟩ := inserts_return (IdealPm.roomy 250) 0 zeroInner zeroLeaf
    raceBegun {0, 1} (List.replicate 13 [1, 0]) (IdealPm.roomy_lawful (by decide +kernel) (by decide))
    (by decide +kernel) hcallers (by simp) (by decide +kernel)
  have hlevels : (init (IdealPm.roomy 250) 0 zeroInner zeroLeaf >>= fun s₀ =>
      (Config.start s₀).run raceBegun >>= fun c => c.run ((List.replicate 13 [1, 0]).flatten.map .run) >>= fun c' =>
        pure (c.tree.tempLevel, c'.tree.tempLevel)).toOption = some (0, 1) := by
    decide +kernel
  rw [hinit, ok_bind, hrun, ok_bind, hrun', ok_bind] at hlevels
  obtain ⟨hlow, hhigh⟩ := Prod.mk.inj (Option.some.inj hlevels)
  exact ⟨s₀, c, c', hinit, hrun, hlow, hrun', hnone, hhigh⟩

end ZBTree
