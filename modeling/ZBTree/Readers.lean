import ZBTree.Threads
import ZBTree.UpdateSteps

/-!
# Readers among the insertions

`find` and `update` take two steps, the descent to a leaf and the examination of that
leaf, and the sections of any number of insertions may fall in between. A reader that is
parked at a leaf misses its key when the separator of a split of that leaf is installed
meanwhile and the key is in the new leaf. In a run in which that does not happen no key
is missed.
-/

namespace ZBTree

open RangeIndex Pmem LawfulPmem

inductive Query where
  | find (key : Key)
  | update (key : Key) (val : Word)
deriving DecidableEq

inductive Reply where
  | found (val : Word)
  | updated (done : Bool)
deriving DecidableEq

def Query.key : Query → Key
  | find key => key
  | update key _ => key

def Query.vals : Query → List Word
  | find _ => []
  | update _ val => [val]

/-- The reply says that the key is not there. -/
def Reply.Miss : Reply → Prop
  | found val => val = 0
  | updated done => done = false

/-- A call of `find` or `update`; `known` says that an insertion of the key had returned
when the call was made, and `leaf` is where its descent has ended. -/
structure Reader where
  query : Query
  known : Bool
  leaf : Option Addr

/-- How a step of a reader ends. -/
inductive ReadOutcome where
  | goto (leaf : Option Addr)
  | reply (r : Reply)

variable {P : Type} [Pmem P]

/-- One step of a reader on thread `t`. -/
def readerStep (s : TreeState P) (t : Tid) (q : Query) : Option Addr → Exec (ReadOutcome × TreeState P)
  | none => do
    let leaf ← descendFrom s q.key s.tempLevel s.root
    return (.goto (some leaf), s)
  | some leaf =>
    match q with
    | .find key => do
      let (val, s) ← findExamine s key leaf
      return (.reply (.found val), s)
    | .update key val => do
      match ← updateExamine s t key val leaf with
      | none => return (.goto none, s)
      | some (done, s) => return (.reply (.updated done), s)

theorem find_eq_readerSteps (s : TreeState P) (t : Tid) (key : Key) (hlevel : s.tempLevel ≠ 0) :
    find s key = (do
      let (o, s) ← readerStep s t (.find key) none
      match o with
      | .goto leaf => do
        match ← readerStep s t (.find key) leaf with
        | (.reply (.found val), s) => return (val, s)
        | _ => .error .segv
      | .reply _ => .error .segv) := by
  rw [find, if_neg hlevel]
  cases hdesc : descendFrom s key s.tempLevel s.root with
  | error e => simp [readerStep, Query.key, hdesc]
  | ok leaf =>
    cases hexam : findExamine s key leaf with
    | error e => simp [readerStep, Query.key, hdesc, hexam]
    | ok x => simp [readerStep, Query.key, hdesc, hexam]

/-! ### Runs -/

/-- The insertions, the readers and the replies that the readers have had. -/
structure ReadConfig (P : Type) where
  writers : Config P
  reader : Tid → Option Reader
  replies : List (Query × Bool × Reply)

inductive ReadEvent where
  | write (e : Event)
  | ask (t : Tid) (q : Query)
  | read (t : Tid)

def Config.completed (c : Config P) (k : Key) : Bool :=
  c.returned.any fun x => x.1.key = k && x.2

def Reader.after (rd : Reader) : ReadOutcome → Option Reader
  | .goto leaf => some { rd with leaf := leaf }
  | .reply _ => none

def ReadOutcome.replies (rd : Reader) : ReadOutcome → List (Query × Bool × Reply)
  | goto _ => []
  | reply r => [(rd.query, rd.known, r)]

/-- One event. Readers only come once the tree has inner nodes. -/
def ReadConfig.step (c : ReadConfig P) : ReadEvent → Exec (ReadConfig P)
  | .write e => do
    let writers ← c.writers.step e
    return { c with writers := writers }
  | .ask t q =>
    match c.reader t with
    | some _ => .ok c
    | none =>
      if c.writers.tree.tempLevel = 0 then .ok c
      else
        let rd : Reader := ⟨q, c.writers.completed q.key, none⟩
        .ok { c with reader := Function.update c.reader t (some rd) }
  | .read t =>
    match c.reader t with
    | none => .ok c
    | some rd => do
      let (o, s) ← readerStep c.writers.tree t rd.query rd.leaf
      return { writers := { c.writers with tree := s }
               reader := Function.update c.reader t (rd.after o)
               replies := o.replies rd ++ c.replies }

def ReadConfig.run : ReadConfig P → List ReadEvent → Exec (ReadConfig P)
  | c, [] => .ok c
  | c, e :: es => do
    let c ← c.step e
    c.run es

def ReadConfig.start (s : TreeState P) : ReadConfig P := ⟨Config.start s, fun _ => none, []⟩

/-- The insertions among the events. -/
def writeEvents : List ReadEvent → List Event
  | [] => []
  | .write e :: es => e :: writeEvents es
  | .ask _ _ :: es => writeEvents es
  | .read _ :: es => writeEvents es

/-- The values that an event brings along. -/
def ReadEvent.vals : ReadEvent → List Word
  | write (.call _ r) => [r.val]
  | write (.run _) => []
  | ask _ q => q.vals
  | read _ => []

/-- The event does not install a separator below the key of a reader that is parked at
the leaf that was split. -/
def ReadConfig.Spares (c : ReadConfig P) (e : ReadEvent) : Prop :=
  ∀ t r L leaf2 splitKey insertLeaf, e = .write (.run t) →
    c.writers.pc t = some (.splitting r L leaf2 splitKey insertLeaf) →
    ∀ t' rd, c.reader t' = some rd → rd.known = true → rd.leaf = some L → rd.query.key ≤ splitKey

def ReadConfig.Undisturbed : ReadConfig P → List ReadEvent → Prop
  | _, [] => True
  | c, e :: es => c.Spares e ∧ ∀ c', c.step e = .ok c' → c'.Undisturbed es

/-! ### What the examination of a leaf does -/

variable [LawfulPmem P] {cuts cuts' : Cuts} {tail L : Addr} {s s' : TreeState P} {n : Nat}
  {m : DLeaf} {k : Key} {v : Word} {t : Tid}

/-- `find` at a leaf: it touches a slot at most, and what it returns for a key that leads
to the leaf is one of the allowed values. -/
theorem findExamine_spec (h : Inv cuts tail s) (hm : s.dleafHeap L = some m) (hL : L ∈ labels s.index)
    (k : Key) : ∃ v s', findExamine s k L = .ok (v, s') ∧
      (s' = s ∨ ∃ i, i < m.maxUse ∧ s' = s.setLeaf L (m.touch i)) ∧
      ∀ W : Key → Word → Prop, (∀ k v, s.Contains k v → W k v) → PairsIn W s →
        Routes s.index k L → (∃ v, s.Contains k v) → W k v := by
  have hslots := h.data.slots L m hm
  have hlock := (h.skel.leaf L m hm).2
  cases hcut : cuts L with
  | some c =>
    -- the split buffer
    rw [LockOK, hcut, Option.isSome_some, if_pos rfl] at hlock
    have hpend : cuts.pend L = some (c.key, c.right) := by simp [Cuts.pend, hcut]
    obtain ⟨mr, hmr⟩ := (h.skel.heap c.right).mpr
      (mem_labels_expand.mpr (Or.inr ⟨L, hL, c.key, hpend⟩))
    obtain ⟨-, buf, hbuf, -⟩ := h.data.buffer L c m mr hcut hm hmr
    have htwo : 1 < m.tempInsert := by rw [hlock]; decide
    refine ⟨findBuffer buf k MAX_LEAF_KEY 0, s, ?_, Or.inl rfl, ?_⟩
    · simp only [findExamine, hm, deref_some, ok_bind, if_pos htwo, hbuf, pure_eq_ok]
    · rintro W hW - hroute ⟨v, hv⟩
      rcases h.located hroute hm hv with ⟨-, buf', i, hbuf', hi, hentry, huniq⟩ | ⟨hle, -⟩
      · rw [hbuf, Option.some.injEq] at hbuf'
        subst hbuf'
        rw [findBuffer_hit hi hentry huniq]
        exact hW k v hv
      · exact absurd htwo (Nat.not_lt.mpr hle)
  | none =>
    rw [LockOK, hcut, Option.isSome_none, if_neg Bool.false_ne_true] at hlock
    have hfree : ¬ 1 < m.tempInsert := Nat.not_lt.mpr hlock
    by_cases hthere : ∃ i, HasKey s.pm m k i
    · obtain ⟨i, hi⟩ := hthere
      obtain ⟨v, hv, hrun⟩ := findSlots_hit hslots hi
      refine ⟨v, s.setLeaf L (m.touch i), ?_, Or.inr ⟨i, hi.1, rfl⟩, ?_⟩
      · simp only [findExamine, hm, deref_some, ok_bind, if_neg hfree, hrun, pure_eq_ok]
      · intro W hW hpairs _ _
        exact (hpairs L m hm).slotVal (fun w hw => hW k w ⟨L, m, hm, hw⟩) hi hv
    · have hno : ∀ i, ¬ HasKey s.pm m k i := fun i hi => hthere ⟨i, hi⟩
      refine ⟨0, s, ?_, Or.inl rfl, ?_⟩
      · simp only [findExamine, hm, deref_some, ok_bind, if_neg hfree, findSlots_miss hslots hno,
          pure_eq_ok]
      · rintro W - - hroute ⟨v, hv⟩
        rcases h.located hroute hm hv with ⟨htwo, -⟩ | ⟨-, i, hi, -⟩
        · exact absurd (htwo ▸ Nat.one_lt_two) hfree
        · exact absurd hi (hno i)

/-- `update` at a leaf: it asks to start again, or it writes to the memory only and says
`true` when the key is in the leaf. -/
theorem updateExamine_spec (h : Inv cuts tail s) (hm : s.dleafHeap L = some m)
    (hL : L ∈ labels s.index) (hok : Ok (n + MAX_LEAF_KEY) s.pm) (t : Tid) (key : Key) (val : Word) :
    updateExamine s t key val L = .ok none ∨
      ∃ b pm, updateExamine s t key val L = .ok (some (b, { s with pm := pm })) ∧ Ok n pm ∧
        Inv cuts tail { s with pm := pm } ∧
        (∀ k v, ({ s with pm := pm } : TreeState P).Contains k v → v = val ∨ s.Contains k v) ∧
        (∀ k, (∃ v, ({ s with pm := pm } : TreeState P).Contains k v) ↔ ∃ v, s.Contains k v) ∧
        (∀ W, PairsIn W s → PairsIn W { s with pm := pm }) ∧
        (Routes s.index key L → (∃ v, s.Contains key v) → b = true) := by
  have hlock := (h.skel.leaf L m hm).2
  -- a leaf that is cut is marked with 2, and `update` starts again
  cases hcut : cuts L with
  | some c =>
    left
    rw [LockOK, hcut, Option.isSome_some, if_pos rfl] at hlock
    have htwo : 1 < m.tempInsert := by rw [hlock]; decide
    simp only [updateExamine, hm, deref_some, ok_bind, if_pos htwo, pure_eq_ok]
  | none =>
    right
    rw [LockOK, hcut, Option.isSome_none, if_neg Bool.false_ne_true] at hlock
    have hfree : ¬ 1 < m.tempInsert := Nat.not_lt.mpr hlock
    have huse := (h.skel.leaf L m hm).1
    obtain ⟨b, pm, hrun, hok', hext, hends, hother, hinv⟩ := h.updateSlots (c := n) hm hL hcut
      (ok_mono (Nat.add_le_add_left huse n) hok) t key val
    have hcont := contains_updateSlots h hm hext hends hother
    have hkeys : ∀ {a n'}, s.dleafHeap a = some n' → ∀ {k i}, HasKey pm n' k i ↔ HasKey s.pm n' k i :=
      fun {a n'} hn => hext.hasKey_iff fun i hi => h.data.recs a n' i hn hi
    refine ⟨b, pm, ?_, hok', hinv, ?_, ?_, ?_, ?_⟩
    · simp only [updateExamine, hm, deref_some, ok_bind, if_neg hfree, hrun, pure_eq_ok]
    · intro k v hv
      rcases (hcont k v).mp hv with ⟨-, hval⟩ | ⟨-, hv⟩
      · exact Or.inl hval
      · exact Or.inr hv
    · intro k
      constructor
      · rintro ⟨v, hv⟩
        rcases (hcont k v).mp hv with ⟨⟨rfl, j, hj, -⟩, -⟩ | ⟨-, hv⟩
        · obtain ⟨w, -, hw⟩ := hj.holds (h.data.slots L m hm)
          exact ⟨w, L, m, hm, hw⟩
        · exact ⟨v, hv⟩
      · rintro ⟨v, hv⟩
        by_cases hk : k = key ∧ ∃ j, m.ReadAt s.pm key j
        · exact ⟨val, (hcont k val).mpr (Or.inl ⟨hk, rfl⟩)⟩
        · exact ⟨v, (hcont k v).mpr (Or.inr ⟨hk, hv⟩)⟩
    · intro W hpairs a n' hn k i hi hc
      exact hpairs a n' hn k i ((hkeys hn).mp hi) hc
    · rintro hroute ⟨v, hv⟩
      rcases h.located hroute hm hv with ⟨htwo, -⟩ | ⟨-, j, hj, -⟩
      · exact absurd (htwo ▸ Nat.one_lt_two) hfree
      -- the key was found by its record, or not found, which the key being there rules out
      rcases hends with ⟨-, -, -, hb, -⟩ | ⟨hnone, hb, -⟩
      · exact hb
      · -- the slot of the key has not been read, so it counts as updated
        have hacc : (m.fingerPrint j).accessBit = 0 := by
          by_contra hacc
          exact hnone j (Nat.zero_le j) ⟨hj, hacc⟩
        exact hb.mpr (Or.inr ⟨j, Nat.zero_le j, hj.1, (h.data.slots L m hm).hash j key hj, hacc⟩)

/-! ### What readers and insertions keep

A reader that has reached a leaf holds no lock. What it needs is that the key is still to be found there: the
leaf has not been split since, or it is still marked, or the key is one that the split has left in it. -/

/-- What the insertions rely on does not depend on values or access bits. -/
theorem Threads.retree {c : Config P} (h : Threads cuts tail n c) {n' : Nat} (hinv : Inv cuts tail s')
    (hok : Ok n' s'.pm) (hindex : s'.index = c.tree.index)
    (hmark : ∀ b m', s'.dleafHeap b = some m' → ∃ m, c.tree.dleafHeap b = some m ∧
      m'.tempInsert = m.tempInsert)
    (hcont : ∀ k v, s'.Contains k v → ∃ v', c.tree.Contains k v') :
    Threads cuts tail n' { c with tree := s' } where
  inv := hinv
  room := hok
  pcs t pc hpc := by
    have hold := h.pcs t pc hpc
    cases pc with
    | searching r => trivial
    | locked r L =>
      obtain ⟨hroute, hcut, m, hm, hone⟩ := hold
      have hmem : L ∈ labels s'.index := hindex ▸ hroute.mem
      obtain ⟨m', hm'⟩ := hinv.skel.of_index hmem
      obtain ⟨m₀, hm₀, hsame⟩ := hmark L m' hm'
      rw [hm, Option.some.injEq] at hm₀
      subst hm₀
      exact ⟨hindex ▸ hroute, hcut, m', hm', hsame.trans hone⟩
    | splitting r L leaf2 splitKey insertLeaf => exact ⟨hindex ▸ hold.1, hold.2⟩
  owner := h.owner
  held b m' hm' hheld := by
    obtain ⟨m, hm, hsame⟩ := hmark b m' hm'
    exact h.held b m hm (hsame ▸ hheld)
  distinct := h.distinct
  absent t pc v hpc hv := by
    obtain ⟨v', hv'⟩ := hcont _ v hv
    exact h.absent t pc v' hpc hv'

/-- What is known of a reader, whatever has happened since it came. -/
structure Reader.Holds (s : TreeState P) (rd : Reader) : Prop where
  present : rd.known = true → ∃ v, s.Contains rd.query.key v
  parked : ∀ L, rd.leaf = some L → L ∈ labels s.index
  routes : ∀ L, rd.leaf = some L → rd.known = true → Routes s.index rd.query.key L

structure Readers (cuts : Cuts) (tail : Addr) (n : Nat) (c : ReadConfig P) : Prop where
  threads : Threads cuts tail n c.writers
  done : ∀ x ∈ c.writers.returned, ∃ v, c.writers.tree.Contains x.1.key v
  content : ∀ k v, c.writers.tree.Contains k v → v ≠ 0
  pairs : PairsIn (fun _ v => v ≠ 0) c.writers.tree
  requests : ∀ t pc, c.writers.pc t = some pc → pc.request.val ≠ 0
  queries : ∀ t rd, c.reader t = some rd → ∀ v ∈ rd.query.vals, v ≠ 0
  readers : ∀ t rd, c.reader t = some rd → rd.Holds c.writers.tree
  replies : ∀ x ∈ c.replies, x.2.1 = true → ¬ x.2.2.Miss

variable {c c' : ReadConfig P} {rd : Reader} {pc : Pc}

theorem Threads.weaken {w : Config P} {n' : Nat} (h : Threads cuts tail n w) (hle : n' ≤ n) :
    Threads cuts tail n' w :=
  { h with room := ok_mono hle h.room }

/-- A section leaves a reader where it is, unless it takes the key of the reader away from
the leaf. -/
theorem Reader.Holds.advance (h : rd.Holds s) (hinv : Inv cuts tail s) {o : Outcome}
    (hadv : Advanced tail n pc L cuts s o cuts' s')
    (hspare : ∀ r leaf2 splitKey insertLeaf, pc = .splitting r L leaf2 splitKey insertLeaf →
      rd.known = true → rd.leaf = some L → rd.query.key ≤ splitKey) : rd.Holds s' where
  present hknown := by
    obtain ⟨v, hv⟩ := h.present hknown
    exact ⟨v, hadv.grows.mono _ v hv⟩
  parked b hb := by
    rcases hadv.index with hindex | ⟨_, _, _, _, _, hins⟩
    · exact hindex ▸ h.parked b hb
    · exact (hins.mem_labels b).mpr (Or.inl (h.parked b hb))
  routes b hb hknown := by
    have hroute := h.routes b hb hknown
    rcases hadv.index with hindex | ⟨r, leaf2, splitKey, insertLeaf, hpc, hins⟩
    · exact hindex ▸ hroute
    · by_cases hbL : b = L
      · subst hbL
        have hcut := hins.routes_cut hinv.data.sorted.of_expand hadv.inv.data.sorted.of_expand
          hinv.skel.index_nodup hroute
        rwa [if_pos (hspare r leaf2 splitKey insertLeaf hpc hknown hb)] at hcut
      · exact hadv.frame.routes _ b hbL hroute

/-- A section of an insertion. -/
theorem Readers.advance (h : Readers cuts tail (n + MAX_LEAF_KEY) c) (hpc : c.writers.pc t = some pc)
    {o : Outcome}
    (hadv : Advanced tail (n + (MAX_LEAF_KEY - 1)) pc L cuts c.writers.tree o cuts' s')
    (hspares : c.Spares (.write (.run t))) :
    Readers cuts' tail n { c with writers := c.writers.after t pc o s' } where
  threads := (h.threads.advance hpc hadv).weaken (Nat.le_add_right _ _)
  done x hx := by
    rcases List.mem_append.mp hx with hx | hx
    · rcases hadv.content with ⟨⟨pc', rfl⟩, -⟩ | ⟨rfl, hcont⟩
      · exact absurd hx (by simp [Outcome.answer])
      · have hreq : x = (pc.request, true) := by simpa [Outcome.answer] using hx
        subst hreq
        exact ⟨pc.request.val, (hcont _ _).mpr (Or.inr ⟨rfl, rfl⟩)⟩
    · obtain ⟨v, hv⟩ := h.done x hx
      exact ⟨v, hadv.grows.mono _ v hv⟩
  content k v hv := by
    rcases hadv.content with ⟨-, hcont⟩ | ⟨-, hcont⟩
    · exact h.content k v ((hcont k v).mp hv)
    · rcases (hcont k v).mp hv with hold | ⟨-, rfl⟩
      · exact h.content k v hold
      · exact h.requests t pc hpc
  pairs := by
    refine hadv.grows.pairs _ (fun k v hv => ?_) h.pairs
    rcases hadv.content with ⟨-, hcont⟩ | ⟨-, hcont⟩
    · exact h.content k v ((hcont k v).mp hv)
    · rcases (hcont k v).mp hv with hold | ⟨-, rfl⟩
      · exact h.content k v hold
      · exact h.requests t pc hpc
  requests t' pc' hpc' := by
    rcases Config.after_pc hpc' with ⟨-, ho⟩ | ⟨-, hold⟩
    · rw [(hadv.goto pc' ho).2.1]
      exact h.requests t pc hpc
    · exact h.requests t' pc' hold
  queries := h.queries
  readers t' rd hrd := by
    refine (h.readers t' rd hrd).advance h.threads.inv hadv ?_
    rintro r leaf2 splitKey insertLeaf rfl hknown hleaf
    exact hspares t r L leaf2 splitKey insertLeaf rfl hpc t' rd hrd hknown hleaf
  replies := h.replies

/-- An event of the insertions. -/
theorem Readers.write (h : Readers cuts tail (n + MAX_LEAF_KEY) c) (e : Event)
    (hspares : c.Spares (.write e)) (hvals : ∀ v ∈ (ReadEvent.write e).vals, v ≠ 0)
    (hnew : ∀ k ∈ calledKeys [e], c.writers.Unused k) :
    ∃ cuts' c', c.step (.write e) = .ok c' ∧ Readers cuts' tail n c' ∧
      ∀ k, k ∉ calledKeys [e] → c.writers.Unused k → c'.writers.Unused k := by
  have hroom : n + MAX_LEAF_KEY = n + (MAX_LEAF_KEY - 1) + 1 := rfl
  have hthreads : Threads cuts tail (n + (MAX_LEAF_KEY - 1) + 1) c.writers := h.threads
  have hsame : Readers cuts tail n c := { h with threads := h.threads.weaken (Nat.le_add_right _ _) }
  obtain ⟨-, w', hstep', -, -, hunused⟩ := hthreads.step e hnew
  cases e with
  | call t r =>
    cases hpc : c.writers.pc t with
    | some pc =>
      have hrun : c.writers.step (.call t r) = .ok c.writers := by simp only [Config.step, hpc]
      exact ⟨cuts, c, by simp only [ReadConfig.step, hrun, ok_bind, pure_eq_ok], hsame,
        fun _ _ hk => hk⟩
    | none =>
      have hrun : c.writers.step (.call t r) = .ok (c.writers.enter t r) := by
        simp only [Config.step, hpc]
      rw [hrun] at hstep'
      cases hstep'
      refine ⟨cuts, { c with writers := c.writers.enter t r },
        by simp only [ReadConfig.step, hrun, ok_bind, pure_eq_ok], ?_, hunused⟩
      refine { hsame with threads := ?_, requests := ?_ }
      · exact (hthreads.call hpc (hnew r.key (by simp [calledKeys]))).weaken (Nat.le_add_right _ _)
      · intro t' pc' hpc'
        rcases Config.enter_pc hpc' with ⟨-, rfl⟩ | ⟨-, hold⟩
        · exact hvals r.val (by simp [ReadEvent.vals])
        · exact h.requests t' pc' hold
  | run t =>
    cases hpc : c.writers.pc t with
    | none =>
      have hrun : c.writers.step (.run t) = .ok c.writers := by simp only [Config.step, hpc]
      exact ⟨cuts, c, by simp only [ReadConfig.step, hrun, ok_bind, pure_eq_ok], hsame,
        fun _ _ hk => hk⟩
    | some pc =>
      rcases hthreads.section hpc with hrun | ⟨L, o, cuts', s', hrun, hadv⟩
      · exact ⟨cuts, c, by simp only [ReadConfig.step, hrun, ok_bind, pure_eq_ok], hsame,
          fun _ _ hk => hk⟩
      · rw [hrun] at hstep'
        cases hstep'
        exact ⟨cuts', _, by simp only [ReadConfig.step, hrun, ok_bind, pure_eq_ok],
          h.advance hpc hadv hspares, hunused⟩

theorem Readers.move (h : Readers cuts tail n c) (hrd : c.reader t = some rd) {leaf : Option Addr}
    (hleaf : ∀ L, leaf = some L → Routes c.writers.tree.index rd.query.key L) :
    Readers cuts tail n
      { c with reader := Function.update c.reader t (some { rd with leaf := leaf }) } := by
  have hold := h.readers t rd hrd
  refine { h with queries := ?_, readers := ?_ }
  · intro t' rd' hrd'
    rcases eq_or_of_update_some hrd' with ⟨-, rfl⟩ | ⟨-, hrd'⟩
    · exact h.queries t rd hrd
    · exact h.queries t' rd' hrd'
  · intro t' rd' hrd'
    rcases eq_or_of_update_some hrd' with ⟨-, rfl⟩ | ⟨-, hrd'⟩
    · exact ⟨hold.present, fun L hL => (hleaf L hL).mem, fun L hL _ => hleaf L hL⟩
    · exact h.readers t' rd' hrd'

/-- A reader that is answered, and has changed nothing but access bits and values. -/
theorem Readers.reply (h : Readers cuts tail n c) {n' : Nat} (hinv : Inv cuts tail s')
    (hok : Ok n' s'.pm) (hindex : s'.index = c.writers.tree.index)
    (hmark : ∀ b m', s'.dleafHeap b = some m' → ∃ m, c.writers.tree.dleafHeap b = some m ∧
      m'.tempInsert = m.tempInsert)
    (hkeys : ∀ k, (∃ v, s'.Contains k v) ↔ ∃ v, c.writers.tree.Contains k v)
    (hcontent : ∀ k v, s'.Contains k v → v ≠ 0) (hpairs : PairsIn (fun _ v => v ≠ 0) s') {r : Reply}
    (hreply : rd.known = true → ¬ r.Miss) :
    Readers cuts tail n' ⟨{ c.writers with tree := s' }, Function.update c.reader t none,
        (rd.query, rd.known, r) :: c.replies⟩ ∧
      ∀ k, c.writers.Unused k → ({ c.writers with tree := s' } : Config P).Unused k := by
  have hrest : ∀ {t' rd'}, Function.update c.reader t none t' = some rd' → c.reader t' = some rd' := by
    intro t' rd' hrd'
    by_cases ht : t' = t
    · subst ht
      rw [Function.update_self] at hrd'
      exact absurd hrd' (by simp)
    · rwa [Function.update_of_ne ht] at hrd'
  refine ⟨?_, fun k hk => ⟨hk.1, fun v hv => ?_⟩⟩
  · constructor
    · exact h.threads.retree hinv hok hindex hmark fun k v hv => (hkeys k).mp ⟨v, hv⟩
    · exact fun x hx => (hkeys _).mpr (h.done x hx)
    · exact hcontent
    · exact hpairs
    · exact h.requests
    · exact fun t' rd' hrd' => h.queries t' rd' (hrest hrd')
    · intro t' rd' hrd'
      have hold := h.readers t' rd' (hrest hrd')
      refine ⟨fun hknown => (hkeys _).mpr (hold.present hknown), fun L hL => ?_, fun L hL hknown => ?_⟩
      · exact hindex ▸ hold.parked L hL
      · exact hindex ▸ hold.routes L hL hknown
    · intro x hx hknown
      rcases List.mem_cons.mp hx with rfl | hx
      · exact hreply hknown
      · exact h.replies x hx hknown
  · obtain ⟨v', hv'⟩ := (hkeys k).mp ⟨v, hv⟩
    exact hk.2 v' hv'

/-- The examination of a leaf by `find`. -/
theorem Readers.find (h : Readers cuts tail n c) (hrd : c.reader t = some rd) {key : Key}
    (hq : rd.query = .find key) (hleaf : rd.leaf = some L) :
    ∃ c', c.step (.read t) = .ok c' ∧ Readers cuts tail n c' ∧
      ∀ k, c.writers.Unused k → c'.writers.Unused k := by
  have hinv := h.threads.inv
  have hold := h.readers t rd hrd
  have hL := hold.parked L hleaf
  obtain ⟨m, hm⟩ := hinv.skel.of_index hL
  obtain ⟨v, s', hrun, hs', hval⟩ := findExamine_spec hinv hm hL key
  -- a known key leads to the leaf, so one of its values is read
  have hreply : rd.known = true → ¬ (Reply.found v).Miss := by
    intro hknown
    have hroute := hold.routes L hleaf hknown
    have hthere := hold.present hknown
    rw [hq] at hroute hthere
    exact hval _ h.content h.pairs hroute hthere
  refine ⟨⟨{ c.writers with tree := s' }, Function.update c.reader t none,
    (rd.query, rd.known, .found v) :: c.replies⟩, ?_, ?_⟩
  · simp only [ReadConfig.step, hrd, hleaf, hq, readerStep, hrun, ok_bind, pure_eq_ok,
      Reader.after, ReadOutcome.replies, List.singleton_append]
  · rcases hs' with rfl | ⟨i, hi, rfl⟩
    · exact h.reply hinv h.threads.room rfl (fun b m' hm' => ⟨m', hm', rfl⟩) (fun k => Iff.rfl)
        h.content h.pairs hreply
    · have hview := sameView_touch m hi
      have hcont := contains_setLeaf hm hview
      refine h.reply (hinv.touch hm hi) h.threads.room rfl ?_ (fun k => exists_congr (hcont k)) ?_
        (h.pairs.setLeaf hm hview) hreply
      · intro b m' hm'
        by_cases hb : b = L
        · subst hb
          simp only [TreeState.setLeaf, Function.update_self, Option.some.injEq] at hm'
          refine ⟨m, hm, ?_⟩
          rw [← hm', DLeaf.touch]
          split_ifs <;> rfl
        · simp only [TreeState.setLeaf, Function.update_of_ne hb] at hm'
          exact ⟨m', hm', rfl⟩
      · exact fun k v hv => h.content k v ((hcont k v).mp hv)

/-- The examination of a leaf by `update`. -/
theorem Readers.update (h : Readers cuts tail (n + MAX_LEAF_KEY) c) (hrd : c.reader t = some rd)
    {key : Key} {val : Word} (hq : rd.query = .update key val) (hleaf : rd.leaf = some L) :
    ∃ c', c.step (.read t) = .ok c' ∧ Readers cuts tail n c' ∧
      ∀ k, c.writers.Unused k → c'.writers.Unused k := by
  have hinv := h.threads.inv
  have hold := h.readers t rd hrd
  have hL := hold.parked L hleaf
  have hvalne : val ≠ 0 := h.queries t rd hrd val (by simp [hq, Query.vals])
  obtain ⟨m, hm⟩ := hinv.skel.of_index hL
  rcases updateExamine_spec hinv hm hL h.threads.room t key val with
    hrun | ⟨b, pm, hrun, hok, hinv', hcont, hkeys, hpairs, htrue⟩
  · -- the leaf is being split: back to the descent
    refine ⟨{ c with reader := Function.update c.reader t (some { rd with leaf := none }) }, ?_, ?_,
      fun _ hk => hk⟩
    · have hgoto : readerStep c.writers.tree t rd.query rd.leaf = .ok (.goto none, c.writers.tree) := by
        rw [hleaf, hq]
        simp only [readerStep, hrun, ok_bind, pure_eq_ok]
      simp only [ReadConfig.step, hrd, hgoto, ok_bind, pure_eq_ok]
      rfl
    · have hmove := h.move hrd fun L (hL : (none : Option Addr) = some L) => absurd hL (by simp)
      exact { hmove with threads := hmove.threads.weaken (Nat.le_add_right _ _) }
  · have hreply : rd.known = true → ¬ (Reply.updated b).Miss := by
      intro hknown
      have hroute := hold.routes L hleaf hknown
      have hthere := hold.present hknown
      rw [hq] at hroute hthere
      simp [Reply.Miss, htrue hroute hthere]
    refine ⟨⟨{ c.writers with tree := { c.writers.tree with pm := pm } },
      Function.update c.reader t none, (rd.query, rd.known, .updated b) :: c.replies⟩, ?_, ?_⟩
    · simp only [ReadConfig.step, hrd, hleaf, hq, readerStep, hrun, ok_bind, pure_eq_ok,
        Reader.after, ReadOutcome.replies, List.singleton_append]
    · refine h.reply hinv' hok rfl (fun b m' hm' => ⟨m', hm', rfl⟩) hkeys ?_ (hpairs _ h.pairs) hreply
      intro k v hv
      rcases hcont k v hv with rfl | hv
      · exact hvalne
      · exact h.content k v hv

theorem Readers.read (h : Readers cuts tail (n + MAX_LEAF_KEY) c) (t : Tid) :
    ∃ c', c.step (.read t) = .ok c' ∧ Readers cuts tail n c' ∧
      ∀ k, c.writers.Unused k → c'.writers.Unused k := by
  have hsame : Readers cuts tail n c := { h with threads := h.threads.weaken (Nat.le_add_right _ _) }
  cases hrd : c.reader t with
  | none => exact ⟨c, by simp only [ReadConfig.step, hrd], hsame, fun _ hk => hk⟩
  | some rd =>
    cases hleaf : rd.leaf with
    | none =>
      -- the descent
      obtain ⟨path, L, m, -, hdesc, hroute, -⟩ := h.threads.inv.reaches rd.query.key
      refine ⟨{ c with reader := Function.update c.reader t (some { rd with leaf := some L }) }, ?_,
        hsame.move hrd fun b hb => Option.some.inj hb ▸ hroute, fun _ hk => hk⟩
      simp only [ReadConfig.step, hrd, hleaf, readerStep, hdesc, ok_bind, pure_eq_ok]
      rfl
    | some L =>
      cases hq : rd.query with
      | find key => exact hsame.find hrd hq hleaf
      | update key val => exact h.update hrd hq hleaf

theorem Readers.ask (h : Readers cuts tail n c) (t : Tid) {q : Query} (hvals : ∀ v ∈ q.vals, v ≠ 0) :
    ∃ c', c.step (.ask t q) = .ok c' ∧ Readers cuts tail n c' ∧ c'.writers = c.writers := by
  cases hrd : c.reader t with
  | some rd => exact ⟨c, by simp only [ReadConfig.step, hrd], h, rfl⟩
  | none =>
    by_cases hlevel : c.writers.tree.tempLevel = 0
    · exact ⟨c, by simp only [ReadConfig.step, hrd, if_pos hlevel], h, rfl⟩
    · refine ⟨⟨c.writers, Function.update c.reader t (some ⟨q, c.writers.completed q.key, none⟩),
        c.replies⟩, by simp only [ReadConfig.step, hrd, if_neg hlevel], ?_, rfl⟩
      refine { h with queries := ?_, readers := ?_ }
      · intro t' rd' hrd'
        rcases eq_or_of_update_some hrd' with ⟨-, rfl⟩ | ⟨-, hrd'⟩
        · exact hvals
        · exact h.queries t' rd' hrd'
      · intro t' rd' hrd'
        rcases eq_or_of_update_some hrd' with ⟨-, rfl⟩ | ⟨-, hrd'⟩
        · refine ⟨fun hknown => ?_, fun L hL => absurd hL (by simp), fun L hL => absurd hL (by simp)⟩
          obtain ⟨x, hx, hkey⟩ := List.any_eq_true.mp hknown
          obtain ⟨v, hv⟩ := h.done x hx
          have hkey' : x.1.key = q.key := by
            simp only [Bool.and_eq_true, decide_eq_true_eq] at hkey
            exact hkey.1
          exact ⟨v, hkey' ▸ hv⟩
        · exact h.readers t' rd' hrd'

theorem Readers.step (h : Readers cuts tail (n + MAX_LEAF_KEY) c) (e : ReadEvent)
    (hspares : c.Spares e) (hvals : ∀ v ∈ e.vals, v ≠ 0)
    (hnew : ∀ k ∈ calledKeys (writeEvents [e]), c.writers.Unused k) :
    ∃ cuts' c', c.step e = .ok c' ∧ Readers cuts' tail n c' ∧
      ∀ k, k ∉ calledKeys (writeEvents [e]) → c.writers.Unused k → c'.writers.Unused k := by
  cases e with
  | write e => exact h.write e hspares hvals hnew
  | ask t q =>
    obtain ⟨c', hstep, h', hsame⟩ := h.ask t hvals
    exact ⟨cuts, c', hstep, { h' with threads := h'.threads.weaken (Nat.le_add_right _ _) },
      fun k _ hk => hsame ▸ hk⟩
  | read t =>
    obtain ⟨c', hstep, h', hunused⟩ := h.read t
    exact ⟨cuts, c', hstep, h', fun k _ hk => hunused k hk⟩

theorem writeKeys_cons (e : ReadEvent) (es : List ReadEvent) :
    calledKeys (writeEvents (e :: es)) =
      calledKeys (writeEvents [e]) ++ calledKeys (writeEvents es) := by
  cases e with
  | write e => exact calledKeys_cons e _
  | ask t q => rfl
  | read t => rfl

/-- A whole run, by induction on its events. -/
theorem Readers.run (es : List ReadEvent) (h : Readers cuts tail (MAX_LEAF_KEY * es.length + n) c)
    (hcalm : c.Undisturbed es) (hvals : ∀ e ∈ es, ∀ v ∈ e.vals, v ≠ 0)
    (hkeys : (calledKeys (writeEvents es)).Nodup)
    (hnew : ∀ k ∈ calledKeys (writeEvents es), c.writers.Unused k) :
    ∃ cuts' c', c.run es = .ok c' ∧ Readers cuts' tail n c' := by
  induction es generalizing cuts c with
  | nil =>
    rw [List.length_nil, Nat.mul_zero, Nat.zero_add] at h
    exact ⟨cuts, c, rfl, h⟩
  | cons e es ih =>
    have hroom : MAX_LEAF_KEY * (e :: es).length + n = (MAX_LEAF_KEY * es.length + n) + MAX_LEAF_KEY := by
      rw [List.length_cons, Nat.mul_succ, Nat.add_right_comm]
    rw [hroom] at h
    rw [writeKeys_cons] at hkeys hnew
    obtain ⟨-, hkeys', hcross⟩ := List.nodup_append.mp hkeys
    obtain ⟨cuts₁, c₁, hstep, h₁, hrest⟩ := h.step e hcalm.1 (hvals e List.mem_cons_self)
      fun k hk => hnew k (List.mem_append_left _ hk)
    obtain ⟨cuts', c', hrun, h'⟩ := ih h₁ (hcalm.2 c₁ hstep)
      (fun e' he' => hvals e' (List.mem_cons_of_mem _ he')) hkeys' fun k hk =>
        hrest k (fun hk' => hcross k hk' k hk rfl) (hnew k (List.mem_append_right _ hk))
    refine ⟨cuts', c', ?_, h'⟩
    simp only [ReadConfig.run, hstep, ok_bind, hrun]

/-- No reader misses a key that was there when it came, in any run of insertions, searches
and updates in which no separator below the key of a reader is installed at the leaf that
the reader is parked at, and in which no value is the `0` that stands for a miss. -/
theorem readers_never_miss (pm : P) (t₀ : Tid) (junkInner : Addr → InnerNode)
    (junkLeaf : Addr → DLeaf) (schedule : List ReadEvent)
    (hroom : Ok (MAX_LEAF_KEY * schedule.length + 1) pm)
    (hkeys : (calledKeys (writeEvents schedule)).Nodup)
    (hvals : ∀ e ∈ schedule, ∀ v ∈ e.vals, v ≠ 0)
    (hcalm : ∀ s₀, init pm t₀ junkInner junkLeaf = .ok s₀ →
      (ReadConfig.start s₀).Undisturbed schedule) :
    ∃ s₀ c, init pm t₀ junkInner junkLeaf = .ok s₀ ∧ (ReadConfig.start s₀).run schedule = .ok c ∧
      ∀ q r, (q, true, r) ∈ c.replies → ¬ r.Miss := by
  obtain ⟨s₀, hinit, hthreads, hexact, hunused⟩ :=
    threads_start (n := MAX_LEAF_KEY * schedule.length + 0) hroom t₀ junkInner junkLeaf
  have hempty : ∀ k v, ¬ s₀.Contains k v := fun k v => (hunused k).2 v
  have hstart : Readers Cuts.empty (junkLeaf 1).next (MAX_LEAF_KEY * schedule.length + 0)
      (ReadConfig.start s₀) := by
    constructor
    · exact hthreads
    · exact fun x hx => absurd hx (by simp [ReadConfig.start, Config.start])
    · exact fun k v hv => absurd hv (hempty k v)
    · intro a m hm k i hi
      obtain ⟨v, -, hv⟩ := hi.holds (hthreads.inv.data.slots a m hm)
      exact absurd ⟨a, m, hm, hv⟩ (hempty i v)
    · exact fun t pc hpc => absurd hpc (by simp [ReadConfig.start, Config.start])
    · exact fun t rd hrd => absurd hrd (by simp [ReadConfig.start])
    · exact fun t rd hrd => absurd hrd (by simp [ReadConfig.start])
    · exact fun x hx => absurd hx (by simp [ReadConfig.start])
  obtain ⟨cuts, c, hrun, h⟩ := hstart.run schedule (hcalm s₀ hinit) hvals hkeys fun k _ => hunused k
  exact ⟨s₀, c, hinit, hrun, fun q r hqr => h.replies (q, true, r) hqr rfl⟩

/-! ### Two schedules -/

omit [LawfulPmem P]

/-- The condition on an event, evaluated for the readers with these numbers. -/
def ReadConfig.spares (c : ReadConfig P) (readers : List Tid) : ReadEvent → Bool
  | .write (.run t) => match c.writers.pc t with
    | some (.splitting _ L _ splitKey _) => readers.all fun t' =>
        match c.reader t' with
        | none => true
        | some rd => !rd.known || decide (rd.leaf ≠ some L) || decide (rd.query.key ≤ splitKey)
    | _ => true
  | .ask t _ => decide (t ∈ readers)
  | _ => true

def ReadConfig.undisturbed (readers : List Tid) : ReadConfig P → List ReadEvent → Bool
  | _, [] => true
  | c, e :: es => c.spares readers e && match c.step e with
    | .error _ => true
    | .ok c' => c'.undisturbed readers es

omit [Pmem P] in
theorem ReadConfig.spares_sound {readers : List Tid} {e : ReadEvent} (hnone : ∀ t, t ∉ readers → c.reader t = none)
    (h : c.spares readers e = true) : c.Spares e := by
  rintro t r L leaf2 splitKey insertLeaf rfl hpc t' rd hrd hknown hleaf
  simp only [spares, hpc, List.all_eq_true] at h
  have hmem : t' ∈ readers := by
    by_contra hout
    rw [hnone t' hout] at hrd
    cases hrd
  have hkey := h t' hmem
  simpa [hrd, hknown, hleaf] using hkey

/-- Only the readers with these numbers come. -/
theorem ReadConfig.step_readers {readers : List Tid} {e : ReadEvent} (hnone : ∀ t, t ∉ readers → c.reader t = none)
    (h : c.spares readers e = true) (hstep : c.step e = .ok c') : ∀ t, t ∉ readers → c'.reader t = none := by
  intro t ht
  cases e with
  | write w =>
    rw [step, bind_eq_ok] at hstep
    obtain ⟨w', -, hc'⟩ := hstep
    cases hc'
    exact hnone t ht
  | ask t' q =>
    have hne : t ≠ t' := fun heq => ht (heq ▸ of_decide_eq_true h)
    rw [step] at hstep
    split at hstep
    · cases hstep
      exact hnone t ht
    · split at hstep
      · cases hstep
        exact hnone t ht
      · cases hstep
        exact (Function.update_of_ne hne ..).trans (hnone t ht)
  | read t' =>
    rw [step] at hstep
    split at hstep
    · cases hstep
      exact hnone t ht
    · next rd hrd =>
      have hne : t ≠ t' := by
        rintro rfl
        rw [hnone t ht] at hrd
        cases hrd
      obtain ⟨⟨o, s⟩, -, hc'⟩ := bind_eq_ok.mp hstep
      cases hc'
      exact (Function.update_of_ne hne ..).trans (hnone t ht)

theorem ReadConfig.undisturbed_sound {readers : List Tid} {es : List ReadEvent}
    (hnone : ∀ t, t ∉ readers → c.reader t = none) (h : c.undisturbed readers es = true) : c.Undisturbed es := by
  induction es generalizing c with
  | nil => trivial
  | cons e es ih =>
    obtain ⟨hspares, hrest⟩ := Bool.and_eq_true_iff.mp h
    refine ⟨spares_sound hnone hspares, fun c' hstep => ih (step_readers hnone hspares hstep) ?_⟩
    rw [hstep] at hrest
    exact hrest

/-- Three readers that come while an insertion of `46` holds the full leaf from 16 on. It splits the leaf
and installs the separator before they look at their leaves. -/
def parkedReaders : List ReadEvent :=
  (insertsUpTo 45).map .write ++
    [.write (.call 0 ⟨46, 7, 8⟩), .write (.run 0),
      .ask 1 (.find 20), .read 1, .ask 2 (.update 21 8), .read 2, .ask 3 (.find 3), .read 3,
      .write (.run 0), .write (.run 0), .read 1, .read 2, .read 3]

/-- A search and an update that come to the full leaf of the key `45` before an insertion
of `46` splits it, and look at it after the separator has been installed. -/
def movedKey : List ReadEvent :=
  (insertsUpTo 45).map .write ++
    [.write (.call 0 ⟨46, 7, 8⟩), .write (.run 0),
      .ask 1 (.find 45), .read 1, .ask 2 (.update 45 8), .read 2,
      .write (.run 0), .write (.run 0), .read 1, .read 2]

theorem insertsUpTo_vals (n : Nat) :
    ∀ e ∈ (insertsUpTo n).map ReadEvent.write, ∀ v ∈ e.vals, v ≠ 0 := by
  intro e he v hv
  obtain ⟨w, hw, rfl⟩ := List.mem_map.mp he
  obtain ⟨i, -, hw⟩ := List.mem_flatMap.mp hw
  rcases List.mem_cons.mp hw with rfl | hw
  · rw [List.mem_singleton.mp hv]
    show (7 : Word) ≠ 0
    decide
  · rw [List.eq_of_mem_replicate hw] at hv
    exact absurd hv (by simp [ReadEvent.vals])

/-- The keys of the readers stay in their leaves. -/
theorem readers_never_miss_parked : ∃ s₀ c, init (IdealPm.roomy 9000) 0 zeroInner zeroLeaf = .ok s₀ ∧
    (ReadConfig.start s₀).run parkedReaders = .ok c ∧ c.replies.map (fun x => (x.1, x.2.1)) =
      [(.find 3, true), (.update 21 8, true), (.find 20, true)] ∧
    ∀ q r, (q, true, r) ∈ c.replies → ¬ r.Miss := by
  have hvals : ∀ e ∈ parkedReaders, ∀ v ∈ e.vals, v ≠ 0 :=
    List.forall_mem_append.mpr ⟨insertsUpTo_vals 45, by simp [ReadEvent.vals, Query.vals]⟩
  have hfacts : (init (IdealPm.roomy 9000) 0 zeroInner zeroLeaf).toOption.map (fun s₀ =>
      ((ReadConfig.start s₀).undisturbed [1, 2, 3] parkedReaders,
        ((ReadConfig.start s₀).run parkedReaders).toOption.map fun c => c.replies.map fun x => (x.1, x.2.1))) =
      some (true, some [(.find 3, true), (.update 21 8, true), (.find 20, true)]) := by
    decide +kernel
  obtain ⟨s₀, hinit, hfacts⟩ := exec_of_map hfacts
  obtain ⟨hcalm, hreplies⟩ := Prod.mk.inj hfacts
  obtain ⟨s₀', c, hinit', hrun, hnever⟩ := readers_never_miss (IdealPm.roomy 9000) 0 zeroInner zeroLeaf parkedReaders
    (IdealPm.roomy_lawful (by decide +kernel) (by decide)) (by decide +kernel) hvals fun s hs => by
      rw [hinit, Except.ok.injEq] at hs
      exact hs ▸ ReadConfig.undisturbed_sound (fun _ _ => rfl) hcalm
  rw [hinit, Except.ok.injEq] at hinit'
  subst hinit'
  rw [hrun] at hreplies
  exact ⟨s₀, c, hinit, hrun, Option.some.inj hreplies, hnever⟩

/-- Both readers of `movedKey` miss a key that was there when they came. -/
theorem readers_miss_moved_key : ∃ s₀ c, init (IdealPm.roomy 100) 0 zeroInner zeroLeaf = .ok s₀ ∧
    (ReadConfig.start s₀).run movedKey = .ok c ∧
    c.replies = [(.update 45 8, true, .updated false), (.find 45, true, .found 0)] := by
  have h : (do
      let s₀ ← init (IdealPm.roomy 100) 0 zeroInner zeroLeaf
      let c ← (ReadConfig.start s₀).run movedKey
      return c.replies) =
      .ok [(.update 45 8, true, .updated false), (.find 45, true, .found 0)] := by
    decide +kernel
  simp only [bind_eq_ok, pure_eq_ok, Except.ok.injEq] at h
  obtain ⟨s₀, hinit, c, hrun, hreplies⟩ := h
  exact ⟨s₀, c, hinit, hrun, hreplies⟩

end ZBTree
