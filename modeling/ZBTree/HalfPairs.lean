import ZBTree.InsertSteps

/-!
# The pairs that a split puts down

`split_leaf` goes over the slots of a half twice with one cursor that comes down from the last cell:
first it puts down the pairs of the slots that were read more than once, then those of the others, as
long as there are cells left. Seven pairs fit, whatever was read how often, and a half has fifteen
slots, so all seven places are taken. `split_partitions` puts this together with what the sort does.
-/

namespace ZBTree

open Pmem LawfulPmem Arrays

/-! ### One layout -/

/-- The slots `cs` have got their pairs so far, in this order; the other ones among the first `n` have
the `control_bit` they came with. -/
structure PairsOf (off : Nat) (fingers : Nat → AdaptiveSlot) (n : Nat) (cs : List Nat)
    (h : HalfState) : Prop where
  cursor : h.compactPos + 2 * cs.length = MAX_LEAF_KEY - 1
  slots : ∀ i ∈ cs, i < n
  nodup : cs.Nodup
  control : cs.map (fun i => (h.slots i).controlBit.toNat) =
    (List.range cs.length).map fun r => MAX_LEAF_KEY - 2 - 2 * r
  rest : ∀ i, i < n → i ∉ cs → (h.slots i).controlBit = (fingers (i + off)).controlBit

section Layout

variable {off n : Nat} {fingers : Nat → AdaptiveSlot} {keys : Nat → NodeEntry} {h : HalfState}
  {cs : List Nat}

theorem PairsOf.room_iff (hp : PairsOf off fingers n cs h) :
    LEFT_KEY ≤ h.compactPos - 1 ↔ cs.length < 7 := by
  have hcursor := hp.cursor
  simp only [LEFT_KEY, MAX_LEAF_KEY] at hcursor ⊢
  omega

theorem PairsOf.cachePair (hp : PairsOf off fingers n cs h) (hn : n ≤ LEFT_KEY) {i : Nat}
    (hi : i < n) (hnew : i ∉ cs) (hroom : LEFT_KEY ≤ h.compactPos - 1) (e : NodeEntry) :
    PairsOf off fingers n (cs ++ [i]) (h.cachePair i e) := by
  have hcursor := hp.cursor
  have hslots := h.cachePair_slots i e (hi.trans_le hn) hroom
  have hpos : (h.cachePair i e).compactPos = h.compactPos - 1 - 1 := rfl
  have hlength : (cs ++ [i]).length = cs.length + 1 := List.length_append
  simp only [LEFT_KEY, MAX_LEAF_KEY] at hcursor hroom hn
  -- the pair lies behind the slots
  have hother : ∀ j, j < n → j ≠ i → (h.cachePair i e).slots j = h.slots j := by
    intro j hj hne
    rw [hslots, if_neg hne, if_neg (by omega), if_neg (by omega)]
  have hself : ((h.cachePair i e).slots i).controlBit.toNat = h.compactPos - 1 := by
    rw [hslots, if_pos rfl]
    exact Nat.mod_eq_of_lt (by omega)
  refine ⟨?_, ?_, ?_, ?_, ?_⟩
  · rw [hlength, hpos]
    simp only [MAX_LEAF_KEY]
    omega
  · intro j hj
    rcases List.mem_append.mp hj with hj | hj
    · exact hp.slots j hj
    · rw [List.mem_singleton.mp hj]
      exact hi
  · apply List.nodup_append.mpr
    refine ⟨hp.nodup, List.nodup_singleton i, ?_⟩
    intro j hj j' hj' heq
    rw [heq, List.mem_singleton.mp hj'] at hj
    exact hnew hj
  · have hold : cs.map (fun j => ((h.cachePair i e).slots j).controlBit.toNat) =
        cs.map fun j => (h.slots j).controlBit.toNat := by
      apply List.map_congr_left
      intro j hj
      have hne : j ≠ i := fun heq => hnew (heq ▸ hj)
      rw [hother j (hp.slots j hj) hne]
    rw [hlength, List.range_succ, List.map_append, List.map_append, hold, hp.control]
    simp only [List.map_cons, List.map_nil, hself, MAX_LEAF_KEY]
    congr 2
    omega
  · intro j hj hout
    have hne : j ≠ i := fun heq => hout (List.mem_append_right cs (List.mem_singleton.mpr heq))
    rw [hother j hj hne]
    exact hp.rest j hj fun hin => hout (List.mem_append_left [i] hin)

/-! ### The two passes

Each pass walks over the 15 slots of a half and puts pairs down from the end of the block. Seven pairs fit; the
first pass serves the slots that were read more than once, the second one all others, in order. -/

/-- Slot `i` of the half was read more than once. -/
def Hot (off : Nat) (fingers : Nat → AdaptiveSlot) (i : Nat) : Prop :=
  1 < (fingers (i + off)).accessBit

/-- After `n` slots of the first pass. -/
structure HotDone (off : Nat) (fingers : Nat → AdaptiveSlot) (n : Nat) (cs : List Nat)
    (h : HalfState) : Prop where
  pairs : PairsOf off fingers n cs h
  hot : ∀ i ∈ cs, Hot off fingers i
  all : cs.length = 7 ∨ ∀ i, i < n → Hot off fingers i → i ∈ cs

/-- Slot `n` in the first pass. -/
theorem HotDone.hotPass (hd : HotDone off fingers n cs h) (hinv : HalfInv off fingers keys n h)
    (hn : n < LEFT_KEY) :
    ∃ cs', HotDone off fingers (n + 1) cs' (hotPass off fingers keys h n) := by
  have hpairs := hd.pairs
  have hnew : n ∉ cs := fun hin => Nat.lt_irrefl n (hpairs.slots n hin)
  have hcopy : PairsOf off fingers (n + 1) cs
      { h with slots := Function.update h.slots n (fingers (n + off)) } := by
    refine ⟨hpairs.cursor, fun i hi => Nat.lt_succ_of_lt (hpairs.slots i hi), hpairs.nodup, ?_, ?_⟩
    · rw [← hpairs.control]
      apply List.map_congr_left
      intro i hi
      dsimp only
      rw [Function.update_of_ne (hpairs.slots i hi).ne]
    · intro i hi hout
      dsimp only
      by_cases hin : i = n
      · rw [hin, Function.update_self]
      · rw [Function.update_of_ne hin]
        exact hpairs.rest i (by omega) hout
  unfold ZBTree.hotPass
  simp only [Function.update_self]
  by_cases hroom : LEFT_KEY ≤ h.compactPos - 1 ∧ 1 < (fingers (n + off)).accessBit
  · -- a hot slot with room: it gets a pair
    rw [if_pos hroom]
    have hshort : cs.length < 7 := hpairs.room_iff.mp hroom.1
    refine ⟨cs ++ [n], hcopy.cachePair hn (Nat.lt_succ_self n) hnew hroom.1 _, ?_, ?_⟩
    · intro i hi
      rcases List.mem_append.mp hi with hi | hi
      · exact hd.hot i hi
      · rw [List.mem_singleton.mp hi]
        exact hroom.2
    · refine Or.inr fun i hi hhot => ?_
      rcases Nat.lt_succ_iff_lt_or_eq.mp hi with hi | rfl
      · exact List.mem_append_left [n] ((hd.all.resolve_left hshort.ne) i hi hhot)
      · exact List.mem_append_right cs (List.mem_singleton_self i)
  · rw [if_neg hroom]
    refine ⟨cs, hcopy, hd.hot, ?_⟩
    rcases hd.all with hfull | hall
    · exact Or.inl hfull
    · by_cases hhot : 1 < (fingers (n + off)).accessBit
      · -- it was read more than once, so it is the cells that have run out
        have hlo := hinv.cursor_lo
        have hcursor := hpairs.cursor
        have hlong : ¬ cs.length < 7 := fun hshort => hroom ⟨hpairs.room_iff.mpr hshort, hhot⟩
        simp only [LEFT_KEY, MAX_LEAF_KEY] at hlo hcursor
        exact Or.inl (by omega)
      · refine Or.inr fun i hi hi' => ?_
        rcases Nat.lt_succ_iff_lt_or_eq.mp hi with hi | rfl
        · exact hall i hi hi'
        · exact absurd hi' hhot

/-- After `n` slots of the second pass. -/
structure ColdDone (off : Nat) (fingers : Nat → AdaptiveSlot) (n : Nat) (cs : List Nat)
    (h : HalfState) : Prop where
  pairs : PairsOf off fingers LEFT_KEY cs h
  before : ∀ i ∈ cs, Hot off fingers i ∨ i < n
  hot : (∀ i ∈ cs, Hot off fingers i) ∨ ∀ i, i < LEFT_KEY → Hot off fingers i → i ∈ cs
  all : cs.length = 7 ∨ ((∀ i, i < LEFT_KEY → Hot off fingers i → i ∈ cs) ∧ ∀ i, i < n → i ∈ cs)

/-- Slot `n` in the second pass. -/
theorem ColdDone.coldPass (hd : ColdDone off fingers n cs h)
    (hinv : HalfInv off fingers keys LEFT_KEY h) (hn : n < LEFT_KEY) :
    ∃ cs', ColdDone off fingers (n + 1) cs' (coldPass off keys h n) := by
  have hpairs := hd.pairs
  have hbefore : ∀ i ∈ cs, Hot off fingers i ∨ i < n + 1 := fun i hi =>
    (hd.before i hi).imp_right Nat.lt_succ_of_lt
  unfold ZBTree.coldPass
  rw [(hinv.copied n hn).2.1]
  by_cases hroom : LEFT_KEY ≤ h.compactPos - 1 ∧ (fingers (n + off)).accessBit ≤ 1
  · rw [if_pos hroom]
    have hshort : cs.length < 7 := hpairs.room_iff.mp hroom.1
    have hcold : ¬ Hot off fingers n := not_lt.mpr hroom.2
    have hnew : n ∉ cs := fun hin => (hd.before n hin).elim hcold (Nat.lt_irrefl n)
    obtain ⟨hall, hfirst⟩ := hd.all.resolve_left hshort.ne
    have hkeep : ∀ i, i < LEFT_KEY → Hot off fingers i → i ∈ cs ++ [n] := fun i hi hi' =>
      List.mem_append_left [n] (hall i hi hi')
    refine ⟨cs ++ [n], hpairs.cachePair (Nat.le_refl _) hn hnew hroom.1 _, ?_, Or.inr hkeep,
      Or.inr ⟨hkeep, ?_⟩⟩
    · intro i hi
      rcases List.mem_append.mp hi with hi | hi
      · exact hbefore i hi
      · rw [List.mem_singleton.mp hi]
        exact Or.inr (Nat.lt_succ_self n)
    · intro i hi
      rcases Nat.lt_succ_iff_lt_or_eq.mp hi with hi | rfl
      · exact List.mem_append_left [n] (hfirst i hi)
      · exact List.mem_append_right cs (List.mem_singleton_self i)
  · rw [if_neg hroom]
    refine ⟨cs, hpairs, hbefore, hd.hot, ?_⟩
    rcases hd.all with hfull | ⟨hall, hfirst⟩
    · exact Or.inl hfull
    · by_cases hhot : Hot off fingers n
      · refine Or.inr ⟨hall, fun i hi => ?_⟩
        rcases Nat.lt_succ_iff_lt_or_eq.mp hi with hi | rfl
        · exact hfirst i hi
        · exact hall i hn hhot
      · have hlo := hinv.cursor_lo
        have hcursor := hpairs.cursor
        have hlong : ¬ cs.length < 7 := fun hshort =>
          hroom ⟨hpairs.room_iff.mpr hshort, not_lt.mp hhot⟩
        simp only [LEFT_KEY, MAX_LEAF_KEY] at hlo hcursor
        exact Or.inl (by omega)

theorem ColdDone.seven (hd : ColdDone off fingers LEFT_KEY cs h)
    (hinv : HalfInv off fingers keys LEFT_KEY h) : cs.length = 7 := by
  refine hd.all.resolve_right fun hall => ?_
  have hsub : List.range LEFT_KEY ⊆ cs := fun i hi => hall.2 i (List.mem_range.mp hi)
  have hlength := (List.nodup_range.subperm hsub).length_le
  have hlo := hinv.cursor_lo
  have hcursor := hd.pairs.cursor
  rw [List.length_range] at hlength
  simp only [LEFT_KEY, MAX_LEAF_KEY] at hlength hlo hcursor
  omega

/-- Both passes together: seven slots get pairs, and the others only after all the hot ones. -/
theorem fillHalf_pairs (off : Nat) (slots fingers : Nat → AdaptiveSlot) (keys : Nat → NodeEntry) :
    ∃ pos cs, HalfInv off fingers keys LEFT_KEY ⟨fillHalf off slots fingers keys, pos⟩ ∧
      PairsOf off fingers LEFT_KEY cs ⟨fillHalf off slots fingers keys, pos⟩ ∧ cs.length = 7 ∧
      ((∀ i ∈ cs, Hot off fingers i) ∨ ∀ i, i < LEFT_KEY → Hot off fingers i → i ∈ cs) := by
  have hstart : HalfInv off fingers keys 0 ⟨slots, MAX_LEAF_KEY - 1⟩ ∧
      ∃ cs, HotDone off fingers 0 cs ⟨slots, MAX_LEAF_KEY - 1⟩ := by
    refine ⟨⟨Nat.le_add_left 14 15, Nat.lt_succ_self 29, fun i hi => absurd hi (Nat.not_lt_zero i),
      fun i hi => absurd hi (Nat.not_lt_zero i)⟩, [], ⟨rfl, ?_, List.nodup_nil, rfl, ?_⟩, ?_, ?_⟩
    · exact fun i hi => absurd hi List.not_mem_nil
    · exact fun i hi => absurd hi (Nat.not_lt_zero i)
    · exact fun i hi => absurd hi List.not_mem_nil
    · exact Or.inr fun i hi => absurd hi (Nat.not_lt_zero i)
  -- the first pass, by induction on the slots
  obtain ⟨hinv, cs, hhot⟩ := foldl_range_induction
    (fun n h => HalfInv off fingers keys n h ∧ ∃ cs, HotDone off fingers n cs h)
    (hotPass off fingers keys) (n := LEFT_KEY) hstart fun i h hi hs => by
      obtain ⟨hs, cs, hcs⟩ := hs
      exact ⟨hs.hotPass hi, hcs.hotPass hs hi⟩
  have hslots : ∀ h cs, HalfInv off fingers keys LEFT_KEY h → PairsOf off fingers LEFT_KEY cs h →
      cs.length = 7 →
      ((∀ i ∈ cs, Hot off fingers i) ∨ ∀ i, i < LEFT_KEY → Hot off fingers i → i ∈ cs) →
      ∃ pos cs, HalfInv off fingers keys LEFT_KEY ⟨h.slots, pos⟩ ∧
        PairsOf off fingers LEFT_KEY cs ⟨h.slots, pos⟩ ∧ cs.length = 7 ∧
        ((∀ i ∈ cs, Hot off fingers i) ∨ ∀ i, i < LEFT_KEY → Hot off fingers i → i ∈ cs) :=
    fun h cs hinv hpairs hseven hfirst => ⟨h.compactPos, cs, hinv, hpairs, hseven, hfirst⟩
  unfold fillHalf
  dsimp only
  by_cases hroom : LEFT_KEY ≤ ((List.range LEFT_KEY).foldl (hotPass off fingers keys)
      ⟨slots, MAX_LEAF_KEY - 1⟩).compactPos - 1
  · -- cells are left: all hot slots have pairs, and the second pass goes on with the others
    have hall := hhot.all.resolve_left (hhot.pairs.room_iff.mp hroom).ne
    obtain ⟨hinv', cs', hcold⟩ := foldl_range_induction
      (fun n h => HalfInv off fingers keys LEFT_KEY h ∧ ∃ cs, ColdDone off fingers n cs h)
      (coldPass off keys) (n := LEFT_KEY)
      ⟨hinv, cs, hhot.pairs, fun i hi => Or.inl (hhot.hot i hi), Or.inr hall,
        Or.inr ⟨hall, fun i hi => absurd hi (Nat.not_lt_zero i)⟩⟩ fun i h hi hs => by
        obtain ⟨hs, cs, hcs⟩ := hs
        exact ⟨hs.coldPass hi, hcs.coldPass hs hi⟩
    rw [if_pos hroom]
    exact hslots _ cs' hinv' hcold.pairs (hcold.seven hinv') hcold.hot
  · -- seven pairs from the first pass already
    have hlo := hinv.cursor_lo
    have hcursor := hhot.pairs.cursor
    have hlong : ¬ cs.length < 7 := fun hshort => hroom (hhot.pairs.room_iff.mpr hshort)
    rw [if_neg hroom]
    refine hslots _ cs hinv hhot.pairs ?_ (Or.inl hhot.hot)
    simp only [LEFT_KEY, MAX_LEAF_KEY] at hlo hcursor
    omega

end Layout

/-! ### The leaves -/

def AdaptiveSlot.entry (a : AdaptiveSlot) : BitVec 8 × BitVec 2 × BitVec 48 :=
  (a.hashByte, a.accessBit, a.ptrField)

def DLeaf.entries (m : DLeaf) : List (BitVec 8 × BitVec 2 × BitVec 48) :=
  (List.range m.maxUse).map fun i => (m.fingerPrint i).entry

variable {P : Type} [Pmem P]

/-- Seven live slots of a leaf, `cs`, have inline pairs, in the cells from `16` on; each pair is that
of the slot's record, and a slot that was not read more than once has none while one that was has
none. -/
structure SevenCached (p : P) (m : DLeaf) (cs : List Nat) : Prop where
  slots : ∀ i ∈ cs, i < m.maxUse
  control : cs.map m.control = [28, 26, 24, 22, 20, 18, 16]
  rest : ∀ i, i < m.maxUse → i ∉ cs → m.control i = 0
  words : ∀ i ∈ cs, logKey p (m.ptr i) = some (m.fingerPrint (m.control i)).val ∧
    logVal p (m.ptr i) = some (m.fingerPrint (m.control i + 1)).val
  hot : ∀ i ∈ cs, (m.fingerPrint i).accessBit ≤ 1 →
    ∀ j, j < m.maxUse → 1 < (m.fingerPrint j).accessBit → j ∈ cs

section Halves

variable {p : P} {m half : DLeaf} {σ : Equiv.Perm Nat} {buf : Nat → NodeEntry} {off : Nat}

theorem IsHalf.entries (hh : IsHalf m σ buf off half) :
    half.entries = (List.range LEFT_KEY).map fun i => (m.fingerPrint (σ (i + off))).entry := by
  obtain ⟨slots, hslots⟩ := hh.slots
  obtain ⟨pos, hinv⟩ := fillHalf_spec off slots (m.fingerBuffer ∘ σ) (buf ∘ σ)
  rw [← hslots] at hinv
  unfold DLeaf.entries
  rw [hh.use]
  apply List.map_congr_left
  intro i hi
  obtain ⟨hhash, hacc, hptr⟩ := hinv.copied i (List.mem_range.mp hi)
  exact Prod.ext hhash (Prod.ext hacc hptr)

/-- The pairs of a half. -/
theorem IsHalf.sevenCached (hh : IsHalf m σ buf off half) (hσ : PermOn 0 (MAX_LEAF_KEY - 1) σ)
    (hoff : off ≤ LEFT_KEY)
    (hbuf : ∀ i, i < MAX_LEAF_KEY →
      logKey p (m.ptr i) = some (buf i).oneKey ∧ logVal p (m.ptr i) = some (buf i).val) :
    ∃ cs, SevenCached p half cs := by
  have hptr := fun {i : Nat} (hi : i < LEFT_KEY) => hh.ptr hi
  obtain ⟨slots, hslots⟩ := hh.slots
  obtain ⟨pos, cs, hinv, hpairs, hseven, hfirst⟩ :=
    fillHalf_pairs off slots (m.fingerBuffer ∘ σ) (buf ∘ σ)
  rw [← hslots] at hinv hpairs
  have hcontrol : cs.map half.control = [28, 26, 24, 22, 20, 18, 16] := by
    have hmap := hpairs.control
    rw [hseven] at hmap
    exact hmap
  have hacc : ∀ i, i < LEFT_KEY →
      (half.fingerPrint i).accessBit = (m.fingerBuffer (σ (i + off))).accessBit :=
    fun i hi => (hinv.copied i hi).2.1
  refine ⟨cs, ?_, hcontrol, ?_, ?_, ?_⟩
  · rw [hh.use]
    exact hpairs.slots
  · intro i hi hout
    rw [hh.use] at hi
    -- the slots came with a zero `control_bit`
    exact congrArg BitVec.toNat (hpairs.rest i hi hout)
  · intro i hi
    have hlt := hpairs.slots i hi
    rcases hinv.paired i hlt with hzero | ⟨-, -, hkey, hval⟩
    · have hmem : half.control i ∈ cs.map half.control := List.mem_map_of_mem hi
      have hctl : half.control i = 0 := congrArg BitVec.toNat hzero
      rw [hcontrol, hctl] at hmem
      exact absurd hmem (by decide)
    · obtain ⟨hk, hv⟩ := hbuf (σ (i + off)) (IsHalf.source_lt hσ hoff hlt)
      rw [hptr hlt, hk, hv]
      exact ⟨congrArg some hkey.symm, congrArg some hval.symm⟩
  · intro i hi hcold j hj hhot
    rw [hh.use] at hj
    rw [hacc i (hpairs.slots i hi)] at hcold
    rw [hacc j hj] at hhot
    rcases hfirst with hall | hall
    · exact absurd (hall i hi) (not_lt.mpr hcold)
    · exact hall j hj hhot

end Halves

/-! ### The split -/

theorem entries_perm {m left right : DLeaf} {σ : Equiv.Perm Nat} {buf : Nat → NodeEntry}
    (hσ : PermOn 0 (MAX_LEAF_KEY - 1) σ) (hfull : m.maxUse = MAX_LEAF_KEY)
    (hl : IsHalf m σ buf 0 left) (hr : IsHalf m σ buf LEFT_KEY right) :
    (left.entries ++ right.entries).Perm m.entries := by
  have hboth : left.entries ++ right.entries =
      ((List.range MAX_LEAF_KEY).map σ).map fun i => (m.fingerPrint i).entry := by
    have hrange : List.range MAX_LEAF_KEY =
        List.range LEFT_KEY ++ (List.range LEFT_KEY).map (· + LEFT_KEY) := by decide
    rw [hl.entries, hr.entries, hrange, List.map_append, List.map_append, List.map_map,
      List.map_map, List.map_map]
    rfl
  unfold DLeaf.entries at hboth ⊢
  rw [hboth, hfull]
  exact hσ.map_range.map _

variable [LawfulPmem P]

/-- A split of a full leaf whose slots point to records with distinct keys. -/
theorem split_partitions {s : TreeState P} {n : Nat} (hok : Ok (n + 1) s.pm) (t : Tid) {L : Addr}
    {m : DLeaf} (hm : s.dleafHeap L = some m) (hL : L < s.brk) (hfull : m.maxUse = MAX_LEAF_KEY)
    (hrecs : ∀ i, i < MAX_LEAF_KEY → m.ptr i ∈ recs s.pm) (halt : m.altPtr ∈ leaves s.pm)
    (hdistinct : ∀ i j k, HasKey s.pm m k i → HasKey s.pm m k j → i = j) :
    ∃ newMeta splitKey s' left right cs ds,
      splitFull s t L = .ok (newMeta, splitKey, m.altPtr, s') ∧
      s'.dleafHeap L = some left ∧ s'.dleafHeap newMeta = some right ∧ newMeta ≠ L ∧
      left.maxUse = LEFT_KEY ∧ right.maxUse = RIGHT_KEY ∧
      (left.entries ++ right.entries).Perm m.entries ∧
      (∀ i, i < LEFT_KEY → ∃ k, logKey s'.pm (left.ptr i) = some k ∧ k ≤ splitKey) ∧
      (∀ i, i < RIGHT_KEY → ∃ k, logKey s'.pm (right.ptr i) = some k ∧ splitKey < k) ∧
      SevenCached s'.pm left cs ∧ SevenCached s'.pm right ds := by
  obtain ⟨buf, hbuf, hentries⟩ := readEntries_spec MAX_LEAF_KEY fun i hi => rec_read hok (hrecs i hi)
  obtain ⟨σ, hsort, hperm, hsorted⟩ := qsort_spec 29 (2 * MAX_LEAF_KEY) 0 (MAX_LEAF_KEY - 1) buf
    m.fingerBuffer (by decide) (by decide)
  have hsp : SplitOf s L m σ buf := ⟨hm, hfull, hperm, hsorted, hentries⟩
  obtain ⟨q, pm₁, pm₂, l, halloc, hlink, -, -, -, -, hsame, -⟩ := split_memory hok t halt
    ((buf ∘ σ) (LEFT_KEY - 1)).oneKey ((buf ∘ σ) (MAX_LEAF_KEY - 1)).oneKey
  obtain ⟨hleft, hright, -⟩ := splitState_heap m (m.fingerBuffer ∘ σ) (buf ∘ σ) q pm₂ hL
  have hl := isHalf_left m { m with altPtr := s.brk, tempInsert := m.tempInsert + 1 } σ buf (s.brk + 1)
  have hr := isHalf_right m (s.junkLeaf (s.brk + 1)) σ buf q
  -- the records are as before
  have hentries' : ∀ i, i < MAX_LEAF_KEY →
      logKey pm₂ (m.ptr i) = some (buf i).oneKey ∧ logVal pm₂ (m.ptr i) = some (buf i).val := by
    intro i hi
    obtain ⟨hk, hv⟩ := hsame _ (hrecs i hi)
    rw [hk, hv]
    exact hentries i hi
  obtain ⟨cs, hcs⟩ := hl.sevenCached hperm (Nat.zero_le _) hentries'
  obtain ⟨ds, hds⟩ := hr.sevenCached hperm (Nat.le_refl _) hentries'
  refine ⟨s.brk + 1, (buf (σ SPLIT_POS)).oneKey, _, _, _, cs, ds,
    splitFull_eq_ok.mpr ⟨m, buf, _, _, q, pm₁, pm₂, hm, hbuf, hsort, halloc, hlink, rfl⟩, hleft, hright,
    ?_, hl.use, hr.use, entries_perm hperm hfull hl hr, ?_, ?_, hcs, hds⟩
  · exact (hL.trans (Nat.lt_succ_self _)).ne'
  · -- the left half: the slots up to `SPLIT_POS`
    intro i hi
    refine ⟨(buf (σ (i + 0))).oneKey, ?_, hsp.le (Nat.le_pred_of_lt hi) (by decide)⟩
    rw [hl.ptr hi]
    exact (hentries' _ (IsHalf.source_lt hperm (Nat.zero_le _) hi)).1
  · intro i hi
    have hlt : i + LEFT_KEY < MAX_LEAF_KEY := Nat.add_lt_add_right hi LEFT_KEY
    have hpos : SPLIT_POS < i + LEFT_KEY := Nat.lt_of_lt_of_le (by decide) (Nat.le_add_left LEFT_KEY i)
    refine ⟨(buf (σ (i + LEFT_KEY))).oneKey, ?_, ?_⟩
    · rw [hr.ptr hi]
      exact (hentries' _ (IsHalf.source_lt hperm (Nat.le_refl _) hi)).1
    · refine lt_of_le_of_ne (hsp.le hpos.le hlt) fun heq => hpos.ne ?_
      have hkey := hsp.hasKey (i := SPLIT_POS) (by decide)
      rw [heq] at hkey
      exact σ.injective (hdistinct _ _ _ hkey (hsp.hasKey hlt))

/-! ### A full leaf -/

/-- A log with thirty records, the keys from `1` on, and room for one more of each kind. -/
def fullMemory : IdealPm where
  pool := [31]
  leafPool := [2]
  log := fun a => if 1 ≤ a ∧ a ≤ 30 then some (BitVec.ofNat 64 a, BitVec.ofNat 64 (10 * a)) else none
  pls := fun q => if q = 1 then some ⟨0, 0, 0⟩ else none

/-- A root leaf with those records, the later ones in front; every fourth one was read often. -/
def fullLeaf : DLeaf where
  fingerPrint := fun i =>
    ⟨hashfunc (BitVec.ofNat 64 (30 - i)), 0, BitVec.ofNat 2 i, BitVec.ofNat 48 (30 - i)⟩
  tempInsert := 1
  maxUse := MAX_LEAF_KEY
  altPtr := 1
  next := 0
  maxKey := 0

def fullTree : TreeState IdealPm where
  innerHeap := fun _ => none
  dleafHeap := fun a => if a = 1 then some fullLeaf else none
  bufHeap := fun _ => none
  brk := 2
  junkInner := fun _ => ⟨0, 0, 0, fun _ => 0, fun _ => 0⟩
  junkLeaf := fun _ => ⟨fun _ => .zero, 0, 0, 0, 0, 0⟩
  pm := fullMemory
  root := 1
  tempLevel := 0
  leafStart := 1
  dstart := 1

theorem fullMemory_ok : fullMemory.Ok 1 where
  pool_length := Nat.le_refl _
  leafPool_length := Nat.le_refl _
  pool_nodup := List.nodup_singleton _
  leafPool_nodup := List.nodup_singleton _
  pool_free := by decide
  leafPool_free := by decide
  log_lt a ha := by
    by_cases h : 1 ≤ a ∧ a ≤ 30
    · exact h.2.trans_lt (by decide)
    · simp [fullMemory, h] at ha
  pls_ne q hq := by
    by_cases h : q = 1
    · exact h ▸ Nat.one_ne_zero
    · simp [fullMemory, h] at hq

theorem fullLeaf_ptr (i : Nat) : fullLeaf.ptr i = 30 - i := by
  show (30 - i) % 2 ^ 48 = 30 - i
  apply Nat.mod_eq_of_lt
  omega

theorem fullMemory_key {i : Nat} (hi : i < MAX_LEAF_KEY) :
    logKey fullMemory (30 - i) = some (BitVec.ofNat 64 (30 - i)) := by
  have h : 1 ≤ 30 - i ∧ 30 - i ≤ 30 := by
    simp only [MAX_LEAF_KEY] at hi
    omega
  simp [logKey, fullMemory, h]

theorem split_partitions_full :
    ∃ newMeta splitKey s' left right cs ds,
      splitFull fullTree 0 1 = .ok (newMeta, splitKey, fullLeaf.altPtr, s') ∧
      s'.dleafHeap 1 = some left ∧ s'.dleafHeap newMeta = some right ∧ newMeta ≠ 1 ∧
      left.maxUse = LEFT_KEY ∧ right.maxUse = RIGHT_KEY ∧
      (left.entries ++ right.entries).Perm fullLeaf.entries ∧
      (∀ i, i < LEFT_KEY → ∃ k, logKey s'.pm (left.ptr i) = some k ∧ k ≤ splitKey) ∧
      (∀ i, i < RIGHT_KEY → ∃ k, logKey s'.pm (right.ptr i) = some k ∧ splitKey < k) ∧
      SevenCached s'.pm left cs ∧ SevenCached s'.pm right ds := by
  refine split_partitions (s := fullTree) (n := 0) fullMemory_ok 0 (L := 1) (m := fullLeaf) rfl
    (by decide) rfl ?_ rfl ?_
  · intro i hi
    have hread := fullMemory_key hi
    rw [fullLeaf_ptr i]
    show (fullMemory.log (30 - i)).isSome
    by_contra hnone
    rw [Option.not_isSome_iff_eq_none] at hnone
    simp [logKey, hnone] at hread
  · rintro i j k ⟨hi, hki⟩ ⟨hj, hkj⟩
    rw [fullLeaf_ptr i] at hki
    rw [fullLeaf_ptr j] at hkj
    have heq := (fullMemory_key hi).symm.trans (hki.trans (hkj.symm.trans (fullMemory_key hj)))
    have hnat := congrArg BitVec.toNat (Option.some.inj heq)
    simp only [BitVec.toNat_ofNat] at hnat
    change i < 30 at hi
    change j < 30 at hj
    omega

end ZBTree
