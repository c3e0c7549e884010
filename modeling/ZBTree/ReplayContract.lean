import ZBTree.ReplayThreads

/-!
# Recovery on many threads builds the same map

The program stops while threads insert. `recover` makes a root leaf and starts a thread for each pool;
the records of the calls that had returned are shared out among these threads. Whatever the order of
their turns, the tree that they build answers for every key as the first one did, and if no thread is
left out they come to an end.
-/

namespace ZBTree

open RangeIndex Pmem LawfulPmem Rounds

variable {P : Type} [Pmem P]

/-! ### The anchors do not matter -/

def Replay.anchored (r : Replay P) (leafStart dstart : Addr) : Replay P :=
  { r with tree := r.tree.anchored leafStart dstart }

section Anchors

variable {s : TreeState P} {r : Replay P} {t : Tid} {key : Key} {val x y : Addr}

theorem quickSection_anchored (stage : Stage) : quickSection (s.anchored x y) t key val stage =
    (quickSection s t key val stage).map fun r => (r.1, r.2.anchored x y) := by
  cases stage with
  | searching =>
    rw [quickSection, quickSection, lockLeaf_anchored]
    cases lockLeaf s key with
    | error e => rfl
    | ok r =>
      obtain ⟨free, leaf, s₁⟩ := r
      cases free <;> rfl
  | locked leaf =>
    rw [quickSection, quickSection]
    show (deref (s.dleafHeap leaf) >>= _) = Except.map _ (deref (s.dleafHeap leaf) >>= _)
    cases s.dleafHeap leaf with
    | none => rfl
    | some m =>
      show (quickScan s.pm key m.maxUse 0 false m >>= _) = Except.map _ (quickScan s.pm key m.maxUse 0 false m >>= _)
      cases quickScan s.pm key m.maxUse 0 false m with
      | error e => rfl
      | ok r =>
        obtain ⟨duplicate, m'⟩ := r
        rw [ok_bind, ok_bind]
        dsimp only
        split
        · rfl
        · show (quickSplit ((s.setLeaf leaf m').anchored x y) t leaf >>= _) = _
          rw [quickSplit_anchored]
          cases quickSplit (s.setLeaf leaf m') t leaf <;> rfl
  | splitting leaf leaf2 splitKey insertLeaf =>
    rw [quickSection, quickSection, installSeparator_anchored]
    cases installSeparator s key splitKey leaf leaf2 insertLeaf <;> rfl

theorem Replay.step_anchored : (r.anchored x y).step t = (r.step t).map (Replay.anchored · x y) := by
  unfold Replay.step
  dsimp only [Replay.anchored]
  cases r.call t with
  | none => cases r.todo t <;> rfl
  | some q =>
    dsimp only
    rw [quickSection_anchored]
    cases quickSection r.tree t q.key q.val q.stage <;> rfl

theorem Replay.run_anchored {ts : List Tid} {r' : Replay P} (h : r.run ts = .ok r') :
    (r.anchored x y).run ts = .ok (r'.anchored x y) := by
  induction ts generalizing r with
  | nil =>
    cases h
    rfl
  | cons t ts ih =>
    obtain ⟨r₁, hstep, hrest⟩ := bind_eq_ok.mp h
    rw [Replay.run, Replay.step_anchored, hstep]
    exact ih hrest

end Anchors

/-! ### The root leaf -/

section Root

variable {pm : P} {t : Tid} {junkInner : Addr → InnerNode} {junkLeaf : Addr → DLeaf} {leafStart dstart : Addr}
  {s : TreeState P}

theorem recoverRoot_leaf (h : recoverRoot pm t junkInner junkLeaf leafStart dstart = .ok s) :
    s.junkLeaf = junkLeaf ∧ ∃ m, s.dleafHeap = Function.update (fun _ => none) 1 (some m) ∧ m.maxUse = 0 ∧
      m.fingerPrint = (junkLeaf 1).fingerPrint := by
  unfold recoverRoot at h
  simp only [TreeState.mallocLeaf, Function.update_self, deref_some, ok_bind] at h
  split at h
  · simp only [bind_eq_ok] at h
    obtain ⟨q, -, l, -, pm', -, h⟩ := h
    cases h
    exact ⟨rfl, _, Function.update_idem .., rfl, rfl⟩
  · cases h
    exact ⟨rfl, _, rfl, rfl, rfl⟩

theorem recoverRoot_sizes (h : recoverRoot pm t junkInner junkLeaf leafStart dstart = .ok s) :
    s.sizes = Function.update (fun _ => none) 1 (some 0) := by
  obtain ⟨-, m, hheap, huse, -⟩ := recoverRoot_leaf h
  funext b
  unfold TreeState.sizes
  rw [hheap]
  by_cases hb : b = 1
  · subst hb
    rw [Function.update_self, Function.update_self, Option.map_some, huse]
  · rw [Function.update_of_ne hb, Function.update_of_ne hb, Option.map_none]

theorem recoverRoot_calm (h : recoverRoot pm t junkInner junkLeaf leafStart dstart = .ok s) (hcalm : CalmJunk junkLeaf) :
    s.Calm := by
  obtain ⟨hjunk, m, hheap, -, hcells⟩ := recoverRoot_leaf h
  refine ⟨fun b n hn => ?_, hjunk ▸ hcalm⟩
  rw [hheap] at hn
  by_cases hb : b = 1
  · subst hb
    rw [Function.update_self] at hn
    obtain rfl := Option.some.inj hn
    intro i hi _
    unfold DLeaf.control
    rw [hcells]
    exact hcalm 1 i hi
  · rw [Function.update_of_ne hb] at hn
    exact absurd hn (by simp)

end Root

/-! ### The records of the tree -/

/-- The lists have one record of each key of the tree. -/
structure TreeState.Divided (s : TreeState P) (todo : Tid → List (Key × Addr)) : Prop where
  record : ∀ t x, x ∈ todo t → s.RecordAt x.1 x.2
  nodup : ∀ t, ((todo t).map Prod.fst).Nodup
  apart : ∀ t t' x x', x ∈ todo t → x' ∈ todo t' → x.1 = x'.1 → t = t'
  all : ∀ k v, s.Contains k v → ∃ t x, x ∈ todo t ∧ x.1 = k

variable [LawfulPmem P] {K : Finset Key} {cuts : Cuts} {tail : Addr} {A : Finset Addr} {b n : Nat} {c : Config P}
  {todo : Tid → List (Key × Addr)}

def Config.returnedKeys (c : Config P) : Finset Key := (c.returned.map fun x => x.1.key).toFinset

theorem Crew.contains_key (h : Crew K b cuts tail A n c) {k : Key} :
    k ∈ c.returnedKeys ↔ ∃ v, c.tree.Contains k v := by
  unfold Config.returnedKeys
  rw [List.mem_toFinset, List.mem_map]
  constructor
  · rintro ⟨x, hx, rfl⟩
    exact ⟨x.1.val, (h.exact.content _ _).mpr ⟨x.1, h.exact.returned x hx ▸ hx, rfl, rfl⟩⟩
  · rintro ⟨v, hv⟩
    obtain ⟨r, hr, rfl, rfl⟩ := (h.exact.content k v).mp hv
    exact ⟨_, hr, rfl⟩

theorem Crew.inLog (h : Crew K b cuts tail A n c) {k : Key} {a : Addr} (hat : c.tree.RecordAt k a) :
    InLog c.tree.pm (fun k => (mapOf c.returned k).getD 0) k a ∧ k ∈ c.returnedKeys := by
  obtain ⟨L, m, i, hm, hi, rfl⟩ := hat
  obtain ⟨v, hv, hholds⟩ := hi.holds (h.threads.inv.data.slots L m hm)
  have hcontains : c.tree.Contains k v := ⟨L, m, hm, hholds⟩
  refine ⟨⟨h.threads.inv.data.recs L m i hm hi.1, hi.2, ?_⟩, h.contains_key.mpr ⟨v, hcontains⟩⟩
  change _ = some ((mapOf c.returned k).getD 0)
  rw [hv, (h.content k v).mp hcontains]
  rfl

theorem Crew.shares (h : Crew K b cuts tail A n c) (hdiv : c.tree.Divided todo) :
    Shares c.tree.pm (fun k => (mapOf c.returned k).getD 0) c.returnedKeys todo where
  logged t x hx := h.inLog (hdiv.record t x hx)
  nodup := hdiv.nodup
  apart := hdiv.apart
  all k hk := by
    obtain ⟨v, hv⟩ := h.contains_key.mp hk
    exact hdiv.all k v hv

theorem Shares.congr {p p' : P} {V : Key → Word} (h : Shares p V K todo) (hrecs : recs p' = recs p)
    (hsame : SameRecs (recs p) p p') : Shares p' V K todo :=
  ⟨fun t x hx => ⟨(h.logged t x hx).1.congr hrecs hsame, (h.logged t x hx).2⟩, h.nodup, h.apart, h.all⟩

theorem Shares.total {p : P} {V : Key → Word} (h : Shares p V K todo) (T : Finset Tid) :
    ∑ t ∈ T, (todo t).length ≤ K.card := by
  have hlength : ∀ t, (todo t).length = ((todo t).map Prod.fst).toFinset.card := fun t => by
    rw [List.toFinset_card_of_nodup (h.nodup t), List.length_map]
  rw [Finset.sum_congr rfl fun t _ => hlength t, ← Finset.card_biUnion]
  · refine Finset.card_le_card fun k hk => ?_
    obtain ⟨t, -, hmem⟩ := Finset.mem_biUnion.mp hk
    obtain ⟨x, hx, rfl⟩ := List.mem_map.mp (List.mem_toFinset.mp hmem)
    exact (h.logged t x hx).2
  · intro t _ t' _ hne
    refine Finset.disjoint_left.mpr fun k hk hk' => hne ?_
    obtain ⟨x, hx, rfl⟩ := List.mem_map.mp (List.mem_toFinset.mp hk)
    obtain ⟨x', hx', heq⟩ := List.mem_map.mp (List.mem_toFinset.mp hk')
    exact h.apart t t' x x' hx hx' heq.symm

theorem Crew.returnedKeys_card (h : Crew K b cuts tail A n c) : c.returnedKeys.card = c.returned.length :=
  (List.toFinset_card_of_nodup h.nodup).trans (List.length_map ..)

/-! ### Recovery -/

/-- The pairs of the calls are calm. -/
def Config.CalmCalls (c : Config P) : Prop := ∀ x ∈ c.returned, CalmWord x.1.key ∧ CalmWord x.1.val

/-- The threads of recovery begin with the root leaf and with records of the pairs whose calls had
returned, in whatever memory these records are. -/
theorem Crew.recovers_in {Q : Type} [Pmem Q] [LawfulPmem Q] {pm : Q} {m : Nat} (h : Crew K b cuts tail A n c)
    (hok : Ok (m + 1) pm) (hm : K.card + K.card / LEFT_KEY < m) (hcalls : c.CalmCalls) (t : Tid)
    (junkInner : Addr → InnerNode) {junkLeaf : Addr → DLeaf} (hzero : junkLeaf 1 = zeroLeaf 1)
    (hcalm : CalmJunk junkLeaf) (leafStart dstart : Addr) :
    ∃ s, recoverRoot pm t junkInner junkLeaf leafStart dstart = .ok (s.anchored leafStart dstart) ∧
      ∀ todo, Shares pm (fun k => (mapOf c.returned k).getD 0) c.returnedKeys todo →
        Replay.Sound (fun k => (mapOf c.returned k).getD 0) c.returnedKeys m Cuts.empty (junkLeaf 1).next {1} m []
          (Replay.start s todo) := by
  obtain ⟨s, hroot, hrep, hrecs, hsame⟩ := recoverRoot_spec hok t junkInner junkLeaf hzero leafStart dstart
  have hsizes : (s.anchored leafStart dstart).sizes = Function.update (fun _ => none) 1 (some 0) :=
    recoverRoot_sizes hroot
  have hroot' : (s.anchored leafStart dstart).Calm := recoverRoot_calm hroot hcalm
  have hcard : c.returnedKeys.card ≤ K.card := h.returnedKeys_card ▸ h.returned_le
  have hleaves : c.returnedKeys.card + c.returnedKeys.card / LEFT_KEY < m := by
    have hdiv := Nat.div_le_div_right (c := LEFT_KEY) hcard
    omega
  have hwords : ∀ k ∈ c.returnedKeys, CalmWord k ∧ CalmWord ((mapOf c.returned k).getD 0) := by
    intro k hk
    obtain ⟨v, hv⟩ := h.contains_key.mp hk
    obtain ⟨r, hr, rfl, rfl⟩ := (h.exact.content k v).mp hv
    rw [(h.content _ _).mp hv]
    exact hcalls (r, true) hr
  exact ⟨s, hroot, fun todo hshares =>
    hrep.sound hsizes hleaves (hshares.congr hrecs hsame) ⟨hroot'.leaf, hroot'.junk⟩ hwords⟩

theorem Crew.recovers (h : Crew K b cuts tail A n c) (hn : K.card + K.card / LEFT_KEY + 1 < n)
    (hcalls : c.CalmCalls) (t : Tid) (junkInner : Addr → InnerNode) {junkLeaf : Addr → DLeaf}
    (hzero : junkLeaf 1 = zeroLeaf 1) (hcalm : CalmJunk junkLeaf) (leafStart dstart : Addr) :
    ∃ s m, recoverRoot c.tree.pm t junkInner junkLeaf leafStart dstart = .ok (s.anchored leafStart dstart) ∧
      ∀ todo, c.tree.Divided todo → Replay.Sound (fun k => (mapOf c.returned k).getD 0) c.returnedKeys m Cuts.empty
        (junkLeaf 1).next {1} m [] (Replay.start s todo) := by
  obtain ⟨m, rfl⟩ := h.room
  obtain ⟨s, hroot, hsound⟩ := h.recovers_in h.threads.room (Nat.lt_of_succ_lt_succ hn) hcalls t junkInner hzero hcalm
    leafStart dstart
  exact ⟨s, m, hroot, fun todo hdiv => hsound todo (h.shares hdiv)⟩

theorem Replay.Sound.finishes {V : Key → Word} {K : Finset Key} {a : Addr} {m : Nat} {pm : P} {s : TreeState P}
    {r : Replay P} (h : Replay.Sound V K m Cuts.empty tail {a} m [] (Replay.start s todo)) (hshares : Shares pm V K todo)
    {T : Finset Tid} {rounds : List (List Tid)} (hT : ∀ t, t ∉ T → todo t = [])
    (hrounds : ∀ round ∈ rounds, ∀ t ∈ T, t ∈ round) (hmany : 3 * (K.card + K.card / LEFT_KEY) < rounds.length)
    (hrun : (Replay.start s todo).run rounds.flatten = .ok r) (t : Tid) : r.Done t := by
  have hbusy : ∀ t, ¬ (Replay.start s todo).Done t → t ∈ T := fun t hbusy => by
    by_contra ht
    exact hbusy ⟨rfl, hT t ht⟩
  have hnear : (Replay.start s todo).Near V K T tail (3 * (K.card + K.card / LEFT_KEY)) := by
    refine ⟨hbusy, _, _, _, _, _, h, ?_⟩
    have htotal := hshares.total T
    have hwork : (Replay.start s todo).work V T = 3 * ∑ t ∈ T, (todo t).length := by
      unfold Replay.work Config.work
      simp [Replay.start, Replay.config]
    have hsplits : splitsLeft K {a} ≤ K.card / LEFT_KEY := Nat.sub_le _ _
    rw [hwork]
    omega
  refine not_not.mp ((replay_turns _ _ T _).done rounds hnear hmany (fun m r t hm hbusy round hround => ?_)
    (Replay.run_turns hrun) t)
  exact hrounds round hround t (hm.1 t hbusy)

theorem Crew.recovered {Q : Type} [Pmem Q] [LawfulPmem Q] (h : Crew K b cuts tail A n c) {cuts' : Cuts} {tail' : Addr}
    {A' : Finset Addr} {b' n' : Nat} {done : List Key} {r : Replay Q}
    (hr : r.Sound (fun k => (mapOf c.returned k).getD 0) c.returnedKeys b' cuts' tail' A' n' done)
    (hdone : ∀ t, r.Done t) : Represents n' tail' r.tree (mapOf c.returned) := by
  have hmap : (fun k => if k ∈ c.returnedKeys then some ((mapOf c.returned k).getD 0) else none) =
      mapOf c.returned := by
    funext k
    by_cases hk : k ∈ c.returnedKeys
    · obtain ⟨v, hv⟩ := h.contains_key.mp hk
      rw [if_pos hk, (h.content k v).mp hv]
      rfl
    · rw [if_neg hk]
      cases hmap : mapOf c.returned k with
      | none => rfl
      | some v => exact absurd (h.contains_key.mpr ⟨v, (h.content k v).mpr hmap⟩) hk
  exact hmap ▸ hr.represents hdone

omit [LawfulPmem P] in
theorem Config.calm_run {s₀ : TreeState P} {schedule : List Event}
    (hwords : ∀ t r, Event.call t r ∈ schedule → CalmWord r.key ∧ CalmWord r.val)
    (hrun : (Config.start s₀).run schedule = .ok c) : c.CalmCalls := by
  intro x hx
  obtain ⟨t, hpair⟩ := (Config.run_calls (Q := fun _ r => CalmWord r.key ∧ CalmWord r.val)
    (fun t pc hpc => absurd hpc (by simp [Config.start])) (fun x hx => absurd hx (by simp [Config.start])) hwords
    hrun).2 x hx
  exact hpair

/-! ### A crash

The records of the calls that had returned are dealt out to the threads of recovery, which end with the tree of the
pairs that they have replayed. -/

section Crash

variable (pm : P) (t₀ : Tid) (junkInner : Addr → InnerNode) (junkLeaf : Addr → DLeaf) (schedule : List Event)
  (hroom : Ok (2 * ((calledKeys schedule).length + (calledKeys schedule).length / LEFT_KEY) + 3) pm)
  (hkeys : (calledKeys schedule).Nodup)
  (hwords : ∀ t r, Event.call t r ∈ schedule → CalmWord r.key ∧ CalmWord r.val)
  (t : Tid) (junkInner' : Addr → InnerNode) (junkLeaf' : Addr → DLeaf) (hzero : junkLeaf' 1 = zeroLeaf 1)
  (hcalm : CalmJunk junkLeaf') (leafStart dstart : Addr)

include hroom hkeys hwords hzero hcalm

theorem recovery_begins :
    ∃ s₀ c s m, init pm t₀ junkInner junkLeaf = .ok s₀ ∧ (Config.start s₀).run schedule = .ok c ∧
      recoverRoot c.tree.pm t junkInner' junkLeaf' leafStart dstart = .ok (s.anchored leafStart dstart) ∧
      (∃ K b cuts tail A n, Crew K b cuts tail A n c) ∧
      ∀ todo, c.tree.Divided todo → Replay.Sound (fun k => (mapOf c.returned k).getD 0) c.returnedKeys m Cuts.empty
        (junkLeaf' 1).next {1} m [] (Replay.start s todo) := by
  obtain ⟨s₀, c, hinit, hrun, cuts, A, n, hc⟩ := Crew.schedule pm t₀ junkInner junkLeaf schedule hroom
    (by omega) hkeys
  have hn : (calledKeys schedule).toFinset.card + (calledKeys schedule).toFinset.card / LEFT_KEY + 1 < n := by
    have hleft := hc.left
    rw [List.toFinset_card_of_nodup hkeys] at hleft ⊢
    omega
  obtain ⟨s, m, hroot, hsound⟩ :=
    hc.recovers hn (Config.calm_run hwords hrun) t junkInner' hzero hcalm leafStart dstart
  exact ⟨s₀, c, s, m, hinit, hrun, hroot, ⟨_, _, _, _, _, _, hc⟩, hsound⟩

/-- The program stops in the middle of any schedule of insertions. Recovery makes its root leaf and
shares out the records of the tree among any number of threads, which call `quick_insert` for them.
Whatever the order of their turns, nothing fails; and when all threads are done, they have built a
well-formed B+-tree, up to the anchors, in which `find` answers as the calls that had returned say. -/
theorem replay_threads :
    ∃ s₀ c r₀, init pm t₀ junkInner junkLeaf = .ok s₀ ∧ (Config.start s₀).run schedule = .ok c ∧
      recoverRoot c.tree.pm t junkInner' junkLeaf' leafStart dstart = .ok r₀ ∧
      ∀ todo, c.tree.Divided todo → ∀ turns, ∃ r, (Replay.start r₀ todo).run turns = .ok r ∧
        ((∀ t, r.Done t) →
          (∃ s, r.tree = s.anchored leafStart dstart ∧ WellFormed s (labels s.index)) ∧
          (∀ q, (q, true) ∈ c.returned → ∃ s', find r.tree q.key = .ok (q.val, s')) ∧
          (r.tree.tempLevel ≠ 0 → ∀ k, (∀ x ∈ c.returned, x.1.key ≠ k) → ∃ s', find r.tree k = .ok (0, s'))) := by
  obtain ⟨s₀, c, s, m, hinit, hrun, hroot, ⟨_, _, _, _, _, _, hc⟩, hsound⟩ :=
    recovery_begins pm t₀ junkInner junkLeaf schedule hroom hkeys hwords t junkInner' junkLeaf' hzero hcalm leafStart
      dstart
  refine ⟨s₀, c, _, hinit, hrun, hroot, fun todo hdiv turns => ?_⟩
  obtain ⟨cuts', A', n', done, r, hturns, hr⟩ := (hsound todo hdiv).run turns
  refine ⟨r.anchored leafStart dstart, Replay.run_anchored hturns, fun hdone => ?_⟩
  have hend := hc.recovered hr hdone
  obtain ⟨hknown, hother⟩ := hc.answers hend
  refine ⟨⟨r.tree, rfl, hend.inv.wellFormed⟩, fun q hq => ?_, fun hlevel k hk => ?_⟩
  · obtain ⟨s', hfind⟩ := hknown q hq
    exact ⟨s'.anchored leafStart dstart, find_anchored.trans (congrArg (Except.map _) hfind)⟩
  · obtain ⟨s', hfind⟩ := hother hlevel k hk
    exact ⟨s'.anchored leafStart dstart, find_anchored.trans (congrArg (Except.map _) hfind)⟩

/-- After a crash at any point of a schedule, rounds in which every thread of recovery has a turn bring
all threads to the ends of their lists, in whatever order the turns of a round are taken. The number of
rounds that it takes is bounded by that of the records and of the leaves for them. -/
theorem replay_finishes :
    ∃ s₀ c r₀, init pm t₀ junkInner junkLeaf = .ok s₀ ∧ (Config.start s₀).run schedule = .ok c ∧
      recoverRoot c.tree.pm t junkInner' junkLeaf' leafStart dstart = .ok r₀ ∧
      ∀ todo, c.tree.Divided todo → ∀ (T : Finset Tid) (rounds : List (List Tid)), (∀ t, t ∉ T → todo t = []) →
        (∀ round ∈ rounds, ∀ t ∈ T, t ∈ round) →
        3 * (c.returned.length + c.returned.length / LEFT_KEY) < rounds.length →
        ∃ r, (Replay.start r₀ todo).run rounds.flatten = .ok r ∧ ∀ t, r.Done t := by
  obtain ⟨s₀, c, s, m, hinit, hrun, hroot, ⟨_, _, _, _, _, _, hc⟩, hsound⟩ :=
    recovery_begins pm t₀ junkInner junkLeaf schedule hroom hkeys hwords t junkInner' junkLeaf' hzero hcalm leafStart
      dstart
  refine ⟨s₀, c, _, hinit, hrun, hroot, fun todo hdiv T rounds hT hrounds hmany => ?_⟩
  obtain ⟨cuts', A', n', done, r, hturns, -⟩ := (hsound todo hdiv).run rounds.flatten
  refine ⟨r.anchored leafStart dstart, Replay.run_anchored hturns, fun t => ?_⟩
  rw [← hc.returnedKeys_card] at hmany
  exact (hsound todo hdiv).finishes (hc.shares hdiv) hT hrounds hmany hturns t

end Crash

theorem calm_of_all {es : List Event} (h : (es.all fun
      | .call _ r => decide (CalmWord r.key ∧ CalmWord r.val)
      | .run _ => true) = true) {t : Tid} {r : Request} (hr : .call t r ∈ es) : CalmWord r.key ∧ CalmWord r.val :=
  of_decide_eq_true (List.all_eq_true.mp h _ hr)

/-- After the race for the full root leaf, the first thread is in the middle of a call when the program
stops. -/
def stoppedSchedule : List Event := splitRace ++ [.call 0 ⟨33, 7, 8⟩, .run 0]

/-- The key of the record at an address: the call for 32 was the first to append after the split. -/
def stoppedKey (i : Addr) : Key := if i = 31 then 32 else if i = 32 then 31 else BitVec.ofNat 64 i

/-- Recovery gives the records at even addresses to one of its threads and those at odd ones to another. -/
def stoppedTodo (t : Tid) : List (Key × Addr) :=
  ((List.range' 1 32).filter (· % 2 = t)).map fun i => (stoppedKey i, i)

theorem mem_stoppedTodo {t : Tid} {x : Key × Addr} :
    x ∈ stoppedTodo t ↔ ∃ i ∈ List.range' 1 32, i % 2 = t ∧ (stoppedKey i, i) = x := by
  simp only [stoppedTodo, List.mem_map, List.mem_filter, decide_eq_true_eq, and_assoc]

/-- These are the records of the tree. -/
theorem stoppedTodo_divided {s₀ : TreeState IdealPm} {c : Config IdealPm}
    (hinit : init (IdealPm.roomy 250) 0 zeroInner zeroLeaf = .ok s₀)
    (hrun : (Config.start s₀).run stoppedSchedule = .ok c) : c.returned.length = 32 ∧ c.tree.Divided stoppedTodo := by
  have hfacts : (init (IdealPm.roomy 250) 0 zeroInner zeroLeaf >>= fun s₀ =>
      (Config.start s₀).run stoppedSchedule).toOption.map (fun c => (c.returned.length,
        (c.returned.all fun x => decide (∃ i ∈ List.range' 1 32, x.1.key = stoppedKey i)),
        (List.range' 1 32).all fun i => c.tree.recordOf (stoppedKey i) = some i)) =
      some (32, true, true) := by
    decide +kernel
  rw [hinit, ok_bind, hrun] at hfacts
  obtain ⟨hlen, hfacts⟩ := Prod.mk.inj (Option.some.inj hfacts)
  obtain ⟨hkeys, hrecords⟩ := Prod.mk.inj hfacts
  obtain ⟨s₀', c', hinit', hrun', cuts, A, n, hc⟩ := Crew.schedule (b := 249) (IdealPm.roomy 250) 0 zeroInner zeroLeaf
    stoppedSchedule (IdealPm.roomy_lawful (by decide) (by decide)) (by decide +kernel) (by decide +kernel)
  obtain rfl : s₀ = s₀' := Except.ok.inj (hinit.symm.trans hinit')
  obtain rfl : c = c' := Except.ok.inj (hrun.symm.trans hrun')
  have hnodup : ((List.range' 1 32).map stoppedKey).Nodup := by decide
  refine ⟨hlen, ?_, fun t => ?_, ?_, fun k v hv => ?_⟩
  · intro t x hx
    obtain ⟨i, hi, -, rfl⟩ := mem_stoppedTodo.mp hx
    exact recordOf_eq_some (of_decide_eq_true (List.all_eq_true.mp hrecords i hi))
  · rw [stoppedTodo, List.map_map]
    exact hnodup.sublist (List.filter_sublist.map _)
  · intro t t' x x' hx hx' heq
    obtain ⟨i, hi, rfl, rfl⟩ := mem_stoppedTodo.mp hx
    obtain ⟨i', hi', rfl, rfl⟩ := mem_stoppedTodo.mp hx'
    rw [List.inj_on_of_nodup_map hnodup hi hi' heq]
  · have hk := hc.contains_key.mpr ⟨v, hv⟩
    rw [Config.returnedKeys, List.mem_toFinset] at hk
    obtain ⟨x, hx, rfl⟩ := List.mem_map.mp hk
    obtain ⟨i, hi, hkey⟩ := of_decide_eq_true (List.all_eq_true.mp hkeys x hx)
    exact ⟨i % 2, (stoppedKey i, i), mem_stoppedTodo.mpr ⟨i, hi, rfl, rfl⟩, hkey.symm⟩

/-- The two threads in turn. -/
theorem replay_threads_split : ∃ s₀ c r₀ r, init (IdealPm.roomy 250) 0 zeroInner zeroLeaf = .ok s₀ ∧
    (Config.start s₀).run stoppedSchedule = .ok c ∧ recoverRoot c.tree.pm 0 zeroInner zeroLeaf 0 0 = .ok r₀ ∧
    (Replay.start r₀ stoppedTodo).run (List.replicate 60 [0, 1]).flatten = .ok r ∧ r.tree.tempLevel = 1 := by
  obtain ⟨s₀, c, r₀, hinit, hrun, hroot, hreplay⟩ := replay_threads (IdealPm.roomy 250) 0 zeroInner zeroLeaf
    stoppedSchedule (IdealPm.roomy_lawful (by decide +kernel) (by decide)) (by decide +kernel)
    (fun _ _ => calm_of_all (by decide +kernel)) 0 zeroInner zeroLeaf rfl (fun _ _ _ => Nat.zero_le _) 0 0
  obtain ⟨r, hturns, -⟩ := hreplay stoppedTodo (stoppedTodo_divided hinit hrun).2 (List.replicate 60 [0, 1]).flatten
  have hlevel : (init (IdealPm.roomy 250) 0 zeroInner zeroLeaf >>= fun s₀ =>
      (Config.start s₀).run stoppedSchedule >>= fun c => recoverRoot c.tree.pm 0 zeroInner zeroLeaf 0 0 >>= fun r₀ =>
        (Replay.start r₀ stoppedTodo).run (List.replicate 60 [0, 1]).flatten).toOption.map
          (fun r => r.tree.tempLevel) = some 1 := by
    decide +kernel
  rw [hinit, ok_bind, hrun, ok_bind, hroot, ok_bind, hturns] at hlevel
  exact ⟨s₀, c, r₀, r, hinit, hrun, hroot, hturns, Option.some.inj hlevel⟩

/-- 103 rounds of the two threads. -/
theorem replay_finishes_split : ∃ s₀ c r₀ r, init (IdealPm.roomy 250) 0 zeroInner zeroLeaf = .ok s₀ ∧
    (Config.start s₀).run stoppedSchedule = .ok c ∧ recoverRoot c.tree.pm 0 zeroInner zeroLeaf 0 0 = .ok r₀ ∧
    (Replay.start r₀ stoppedTodo).run (List.replicate 103 [1, 0]).flatten = .ok r ∧ ∀ t, r.Done t := by
  obtain ⟨s₀, c, r₀, hinit, hrun, hroot, hreplay⟩ := replay_finishes (IdealPm.roomy 250) 0 zeroInner zeroLeaf
    stoppedSchedule (IdealPm.roomy_lawful (by decide +kernel) (by decide)) (by decide +kernel)
    (fun _ _ => calm_of_all (by decide +kernel)) 0 zeroInner zeroLeaf rfl (fun _ _ _ => Nat.zero_le _) 0 0
  obtain ⟨hlen, hdivided⟩ := stoppedTodo_divided hinit hrun
  have hidle : ∀ t, t ∉ ({0, 1} : Finset Tid) → stoppedTodo t = [] := by
    intro t ht
    simp only [Finset.mem_insert, Finset.mem_singleton, not_or] at ht
    refine List.eq_nil_iff_forall_not_mem.mpr fun x hx => ?_
    obtain ⟨i, -, hi, -⟩ := mem_stoppedTodo.mp hx
    rcases Nat.mod_two_eq_zero_or_one i with heven | hodd
    · exact ht.1 (hi.symm.trans heven)
    · exact ht.2 (hi.symm.trans hodd)
  obtain ⟨r, hturns, hdone⟩ := hreplay stoppedTodo hdivided {0, 1} (List.replicate 103 [1, 0]) hidle (by simp)
    (by rw [hlen, List.length_replicate]; decide)
  exact ⟨s₀, c, r₀, r, hinit, hrun, hroot, hturns, hdone⟩

end ZBTree
