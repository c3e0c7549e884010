import Mathlib.Data.Finset.Sort
import ZBTree.LiveKeys
import ZBTree.MapContract

/-!
# What a scan returns

`scan` of `zbtree.cpp` goes along the leaves from the one that `start_key` leads to and takes one word
for each slot, in the order of the slots. It always comes back. What it takes is not what an ordered
scan asks for: the slots of a leaf are not sorted, those below `start_key` are taken too, and for most
slots the word is not read from the record but from the slot `LEFT_KEY` further on, which may hold
anything.

So a scan is right where the leaves that it meets are so: the slots it takes are read from their
records, their keys are not below `start_key`, and no later slot of the same leaf has a key between.
The order across leaves is that of the index. Where values differ, and no word of a free cell is a
value by chance, it is right nowhere else.
-/

namespace ZBTree

open RangeIndex LinkedList Pmem LawfulPmem

variable {P : Type} [Pmem P]

/-! ### The words that are taken -/

/-- The word that `scan` takes for slot `i`. -/
def scanWord (p : P) (m : DLeaf) (i : Nat) : Option Word :=
  if m.maxUse ≤ i + LEFT_KEY + 1 ∧ i + LEFT_KEY + 1 < MAX_LEAF_KEY then
    some (m.fingerPrint (i + LEFT_KEY)).val
  else logVal p (m.ptr i)

omit [Pmem P] in
def TreeState.slotsOf (s : TreeState P) (a : Addr) : List (DLeaf × Nat) :=
  match s.dleafHeap a with
  | none => []
  | some m => (List.range m.maxUse).map fun i => (m, i)

omit [Pmem P] in
/-- The first `n` leaves from `a` on. -/
def TreeState.walk (s : TreeState P) : Nat → Addr → List Addr
  | 0, _ => []
  | n + 1, a => if a = 0 then [] else a :: s.walk n (s.nextOf a)

omit [Pmem P] in
/-- The slots that a scan meets; there are less leaves than allocations so far. -/
def TreeState.met (s : TreeState P) (startKey : Key) : Exec (List (DLeaf × Nat)) := do
  let (_, leaf) ← findInsert s startKey
  return (s.walk s.brk leaf).flatMap s.slotsOf

def words (p : P) (slots : List (DLeaf × Nat)) : List Word :=
  slots.map fun q => (scanWord p q.1 q.2).getD 0

theorem scanSlots_succ (p : P) (m : DLeaf) (scanCount n i : Nat) (out : List Word) {v : Word}
    (hv : logVal p (m.ptr i) = some v) :
    scanSlots p m scanCount (n + 1) i out =
      if scanCount ≤ (out ++ [(scanWord p m i).getD 0]).length then
        .ok (out ++ [(scanWord p m i).getD 0], true)
      else scanSlots p m scanCount n (i + 1) (out ++ [(scanWord p m i).getD 0]) := by
  have hv' : logVal p (m.fingerPrint i).ptrField.toNat = some v := hv
  unfold scanWord
  rw [scanSlots]
  split
  · rfl
  · rw [hv', hv]
    rfl

theorem scanSlots_spec (p : P) (m : DLeaf) (scanCount n i : Nat) (out : List Word)
    (hread : ∀ j, i ≤ j → j < i + n → ∃ v, logVal p (m.ptr j) = some v)
    (hout : out.length < scanCount) :
    scanSlots p m scanCount n i out =
      .ok ((out ++ words p ((List.range' i n).map fun j => (m, j))).take scanCount,
        decide (scanCount ≤ out.length + n)) := by
  induction n generalizing i out with
  | zero =>
    have hnot : ¬ scanCount ≤ out.length + 0 := Nat.not_le.mpr hout
    simp only [scanSlots, words, List.range'_zero, List.map_nil, List.append_nil,
      List.take_of_length_le hout.le, decide_eq_false hnot]
  | succ n ih =>
    obtain ⟨v, hv⟩ := hread i (Nat.le_refl i) (by omega)
    have hwords : words p ((List.range' i (n + 1)).map fun j => (m, j)) =
        (scanWord p m i).getD 0 :: words p ((List.range' (i + 1) n).map fun j => (m, j)) := rfl
    rw [scanSlots_succ p m scanCount n i out hv, hwords]
    rw [List.length_append, List.length_singleton]
    by_cases hfull : scanCount ≤ out.length + 1
    · have hlen : out.length + 1 = scanCount := by omega
      rw [if_pos hfull, List.take_append, ← hlen, Nat.add_sub_cancel_left,
        List.take_of_length_le (Nat.le_succ _), decide_eq_true (by omega)]
      rfl
    · rw [if_neg hfull, ih (i + 1) (out ++ [(scanWord p m i).getD 0])
        (fun j hj hj' => hread j (by omega) (by omega)) (by simpa using Nat.not_le.mp hfull)]
      simp only [List.append_assoc, List.singleton_append, List.length_append,
        List.length_singleton, Nat.add_assoc, Nat.add_comm 1 n]

/-! ### The leaves that are met

`scan` walks along the chain from the leaf that `start_key` leads to, and takes the words of all used slots in their
order, without a look at the keys. -/

section Walk

variable {s : TreeState P} {n : Nat} {a : Addr} {leaves : List Addr}

omit [Pmem P] in
theorem walk_of_seg (h : Seg s.nextOf a leaves 0) (hne : ∀ b ∈ leaves, b ≠ 0)
    (hn : leaves.length < n) : s.walk n a = leaves := by
  induction leaves generalizing a n with
  | nil =>
    obtain ⟨n, rfl⟩ : ∃ k, n = k + 1 := ⟨n - 1, by simp only [List.length_nil] at hn; omega⟩
    have ha : a = 0 := h
    rw [TreeState.walk, if_pos ha]
  | cons b rest ih =>
    obtain ⟨n, rfl⟩ : ∃ k, n = k + 1 := ⟨n - 1, by omega⟩
    obtain ⟨rfl, hrest⟩ := h
    rw [TreeState.walk, if_neg (hne a List.mem_cons_self),
      ih hrest (fun c hc => hne c (List.mem_cons_of_mem _ hc)) (Nat.lt_of_succ_lt_succ hn)]

end Walk

/-- The leaves can be read and none is held. -/
def Readable (s : TreeState P) (leaves : List Addr) : Prop :=
  ∀ a ∈ leaves, a ≠ 0 ∧ ∃ m, s.dleafHeap a = some m ∧ m.tempInsert = 0 ∧
    ∀ i, i < m.maxUse → ∃ v, logVal s.pm (m.ptr i) = some v

omit [Pmem P] in
theorem setLeaf_relock {s : TreeState P} {a : Addr} {m : DLeaf} (hm : s.dleafHeap a = some m)
    (hfree : m.tempInsert = 0) :
    (s.setLeaf a { m with tempInsert := 1 }).setLeaf a { m with tempInsert := 0 } = s := by
  have hsame : ({ m with tempInsert := 0 } : DLeaf) = m := by
    rw [← hfree]
  rw [hsame]
  unfold TreeState.setLeaf
  rw [Function.update_idem, ← hm, Function.update_eq_self]

/-- A scan collects the words of the slots it meets, up to its count, and comes back, if the chain ends
or the leaves before `tail` have slots enough. -/
theorem scanLoop_spec (startKey : Key) (scanCount n : Nat) {s : TreeState P} {a tail : Addr}
    {leaves : List Addr} (hseg : Seg s.nextOf a leaves tail) (hread : Readable s leaves)
    (hn : leaves.length < n) (out : List Word) (hout : out.length ≤ scanCount)
    (henough : tail = 0 ∨ scanCount ≤ out.length + (leaves.flatMap s.slotsOf).length) :
    scanLoop startKey scanCount n s a out =
      .ok ((out ++ words s.pm (leaves.flatMap s.slotsOf)).take scanCount, s) := by
  -- on the leaves of the chain
  induction leaves generalizing a n out with
  | nil =>
    obtain ⟨n, rfl⟩ : ∃ k, n = k + 1 := ⟨n - 1, by simp only [List.length_nil] at hn; omega⟩
    have ha : a = tail := hseg
    subst ha
    have hstop : ¬ (out.length < scanCount ∧ a ≠ 0) := by
      rintro ⟨hlt, hne⟩
      exact not_le.mpr hlt (henough.resolve_left hne)
    rw [scanLoop, if_neg hstop]
    simp only [List.flatMap_nil, words, List.map_nil, List.append_nil,
      List.take_of_length_le hout, pure_eq_ok]
  | cons b rest ih =>
    obtain ⟨n, rfl⟩ : ∃ k, n = k + 1 := ⟨n - 1, by omega⟩
    obtain ⟨rfl, hrest⟩ := hseg
    obtain ⟨hne, m, hm, hfree, hslots⟩ := hread a List.mem_cons_self
    have hread' : Readable s rest := fun c hc => hread c (List.mem_cons_of_mem _ hc)
    have hmine : s.slotsOf a = (List.range' 0 m.maxUse).map fun i => (m, i) := by
      rw [TreeState.slotsOf, hm]
      exact congrArg _ List.range_eq_range'
    have hsplit : words s.pm ((a :: rest).flatMap s.slotsOf) =
        words s.pm (s.slotsOf a) ++ words s.pm (rest.flatMap s.slotsOf) := by
      rw [List.flatMap_cons, words, words, words, List.map_append]
    have huse : (s.slotsOf a).length = m.maxUse := by
      rw [hmine, List.length_map, List.length_range']
    have hlen : (words s.pm (s.slotsOf a)).length = m.maxUse := by
      rw [words, List.length_map, huse]
    rw [scanLoop]
    -- there is room for more words, or the scan is done
    by_cases hroom : out.length < scanCount
    · rw [if_pos ⟨hroom, hne⟩, hm, deref_some, ok_bind, if_neg (by omega), if_pos hfree]
      have hpm : (s.setLeaf a { m with tempInsert := 1 }).pm = s.pm := rfl
      dsimp only
      rw [hpm, scanSlots_spec s.pm m scanCount m.maxUse 0 out
        (fun j _ hj => hslots j (by omega)) hroom, ok_bind, ← hmine]
      dsimp only
      rw [setLeaf_relock hm hfree, hsplit, ← List.append_assoc]
      -- the count is reached in this leaf, or the scan goes on with the next
      by_cases hfull : scanCount ≤ out.length + m.maxUse
      · rw [if_pos (Or.inl (decide_eq_true hfull))]
        have hlong : scanCount ≤ (out ++ words s.pm (s.slotsOf a)).length := by
          rw [List.length_append, hlen]
          exact hfull
        rw [List.take_append_of_le_length hlong]
        rfl
      · have hshort : (out ++ words s.pm (s.slotsOf a)).length ≤ scanCount := by
          rw [List.length_append, hlen]
          omega
        have henough' : tail = 0 ∨ scanCount ≤
            (out ++ words s.pm (s.slotsOf a)).length + (rest.flatMap s.slotsOf).length := by
          refine henough.imp_right fun hle => ?_
          rw [List.flatMap_cons, List.length_append, huse] at hle
          rw [List.length_append, hlen, Nat.add_assoc]
          exact hle
        rw [List.take_of_length_le hshort]
        rw [TreeState.nextOf_some hm] at hrest
        by_cases hend : m.next = 0
        · -- the chain ends here: no leaf has the address `0`
          have hnil : rest = [] := by
            rw [hend] at hrest
            cases rest with
            | nil => rfl
            | cons c rest' => exact absurd hrest.1.symm (hread' c List.mem_cons_self).1
          rw [if_pos (Or.inr hend), hnil]
          simp only [List.flatMap_nil, words, List.map_nil, List.append_nil, pure_eq_ok]
          rw [← words, List.take_of_length_le hshort]
        · rw [if_neg (by simp [hfull, hend])]
          exact ih n hrest hread' (Nat.lt_of_succ_lt_succ hn) _ hshort henough'
    · have heq : out.length = scanCount := by omega
      rw [if_neg fun h => hroom h.1, List.take_append_of_le_length heq.ge,
        List.take_of_length_le heq.le]
      rfl

variable {s : TreeState P} {M : Key → Option Word} {r : Nat}

/-- What a scan asks for: the values of the `scan_count` smallest keys from `start_key` on, in
the order of the keys. -/
def IsScan (M : Key → Option Word) (startKey : Key) (scanCount : Nat) (out : List Word) : Prop :=
  ∃ keys : List Key, keys.Pairwise (· < ·) ∧ (∀ k, k ∈ keys ↔ startKey ≤ k ∧ (M k).isSome) ∧
    out = (keys.take scanCount).map fun k => (M k).getD 0

/-- The leaves from the one that `start_key` leads to. -/
theorem Represents.chain [LawfulPmem P] {tail : Addr} (h : Represents r tail s M) (startKey : Key) :
    ∃ path L X Y, findInsert s startKey = .ok (path, L) ∧ labels s.index = X ++ L :: Y ∧ L ∉ X ∧
      Seg s.nextOf L (L :: Y) tail ∧ Readable s (L :: Y) ∧ (L :: Y).length < s.brk := by
  have hinv := h.inv
  obtain ⟨path, L, m, hfind, -, hroute, hm⟩ := hinv.reaches startKey
  have hchain := hinv.skel.chain
  have hlt := hinv.skel.leaf_lt
  have hnodup := hinv.skel.nodup
  rw [TreeState.leaves_empty] at hchain hlt hnodup
  obtain ⟨X, Y, hXY⟩ := List.append_of_mem hroute.mem
  rw [hXY] at hchain hlt hnodup
  obtain ⟨a, -, hseg⟩ := seg_append.mp hchain
  have haL : a = L := hseg.1
  subst haL
  have hne : ∀ b ∈ a :: Y, b ≠ 0 := fun b hb => (hlt b (List.mem_append_right X hb)).1.ne'
  have hlen : (a :: Y).length < s.brk := by
    have hzero : (0 :: a :: Y).Nodup :=
      List.nodup_cons.mpr ⟨fun hmem => hne 0 hmem rfl, (List.nodup_append.mp hnodup).2.1⟩
    have hsub : 0 :: a :: Y ⊆ List.range s.brk := by
      intro b hb
      rw [List.mem_range]
      cases List.mem_cons.mp hb with
      | inl hb0 => exact hb0 ▸ h.inv.skel.upper.brk_pos
      | inr hb' => exact (hlt b (List.mem_append_right X hb')).2
    have hle := (hzero.subperm hsub).length_le
    rwa [List.length_range] at hle
  have hread : Readable s (a :: Y) := by
    intro b hb
    obtain ⟨m', hm'⟩ : ∃ m', s.dleafHeap b = some m' := by
      apply (hinv.skel.heap b).mpr
      rw [TreeState.leaves_empty, hXY]
      exact List.mem_append_right X hb
    refine ⟨hne b hb, m', hm', h.free b m' hm', ?_⟩
    intro i hi
    obtain ⟨k, v, -, hv⟩ := (hinv.data.slots b m' hm').read i hi
    exact ⟨v, hv⟩
  have hfirst : a ∉ X := fun hmem => (List.nodup_append.mp hnodup).2.2 a hmem a List.mem_cons_self rfl
  exact ⟨path, a, X, Y, hfind, hXY, hfirst, hseg, hread, hlen⟩

/-! ### The order of the slots

The chain runs through the leaves in the order of their ranges, so what remains is a matter of each leaf: that its
slots are in the order of their keys, and that the first leaf has no key below `start_key`. -/

/-- Slot `q` comes before slot `q'` in a walk: in the same leaf, or in an earlier one. -/
def Before (p : P) (q q' : DLeaf × Nat) : Prop :=
  (q.1 = q'.1 ∧ q.2 < q'.2) ∨ (q.1 ≠ q'.1 ∧ keyAt p q.1 q.2 < keyAt p q'.1 q'.2)

/-- The slots that a scan meets: those of the present keys from `start_key` on, and some others of the
first leaf. -/
structure Met (s : TreeState P) (M : Key → Option Word) (startKey : Key) (slots : List (DLeaf × Nat)) :
    Prop where
  used : ∀ q ∈ slots, ∃ a v, s.dleafHeap a = some q.1 ∧ q.2 < q.1.maxUse ∧
    logVal s.pm (q.1.ptr q.2) = some v ∧ M (keyAt s.pm q.1 q.2) = some v
  whole : ∀ q ∈ slots, ∀ j, j < q.1.maxUse → (q.1, j) ∈ slots
  all : ∀ k, startKey ≤ k → (M k).isSome → ∃ q ∈ slots, keyAt s.pm q.1 q.2 = k
  ordered : slots.Pairwise (Before s.pm)
  distinct : slots.Pairwise fun q q' => keyAt s.pm q.1 q.2 ≠ keyAt s.pm q'.1 q'.2

/-- The slots of the leaves that lie one after another in the index. -/
theorem Represents.met [LawfulPmem P] {tail : Addr} (h : Represents r tail s M) (startKey : Key) {X Y : List Addr} {L : Addr}
    {path : List Cursor} (hfind : findInsert s startKey = .ok (path, L)) (hlabels : labels s.index = X ++ L :: Y) :
    Met s M startKey ((L :: Y).flatMap s.slotsOf) := by
  have hinv := h.inv
  have hsorted : Sorted s.index := hinv.data.sorted.of_expand
  have hrange : ∀ {a m k i}, s.dleafHeap a = some m → HasKey s.pm m k i → Routes s.index k a := by
    intro a m k i hm hi
    have hroutes := hinv.data.range a m k i hm hi
    rwa [TreeState.leaves_empty] at hroutes
  have hhas : ∀ {a m i}, s.dleafHeap a = some m → i < m.maxUse → HasKey s.pm m (keyAt s.pm m i) i := by
    intro a m i hm hi
    obtain ⟨k, v, hk, -⟩ := (hinv.data.slots a m hm).read i hi
    exact ⟨hi, by rw [keyAt, hk]; rfl⟩
  have hslot : ∀ {a q}, q ∈ s.slotsOf a → s.dleafHeap a = some q.1 ∧ q.2 < q.1.maxUse := by
    intro a q hq
    unfold TreeState.slotsOf at hq
    cases hm : s.dleafHeap a with
    | none => rw [hm] at hq; cases hq
    | some m =>
      rw [hm] at hq
      obtain ⟨i, hi, rfl⟩ := List.mem_map.mp hq
      exact ⟨rfl, List.mem_range.mp hi⟩
  have hmem : ∀ {a m i}, s.dleafHeap a = some m → i < m.maxUse → (m, i) ∈ s.slotsOf a := by
    intro a m i hm hi
    rw [TreeState.slotsOf, hm]
    exact List.mem_map.mpr ⟨i, List.mem_range.mpr hi, rfl⟩
  -- the leaves are in the order of their keys
  have hleaves := hsorted.routes_lt hinv.skel.index_nodup
  rw [hlabels] at hleaves
  obtain ⟨-, hleaves, hfirst⟩ := List.pairwise_append.mp hleaves
  have hbefore : ((L :: Y).flatMap s.slotsOf).Pairwise (Before s.pm) := by
    refine List.pairwise_flatMap.mpr ⟨fun a _ => ?_, hleaves.imp fun {a b} hab q hq q' hq' => ?_⟩
    · unfold TreeState.slotsOf
      cases hm : s.dleafHeap a with
      | none => exact List.Pairwise.nil
      | some m => exact List.pairwise_map.mpr (List.pairwise_lt_range.imp fun hlt => Or.inl ⟨rfl, hlt⟩)
    · obtain ⟨hm, hi⟩ := hslot hq
      obtain ⟨hm', hi'⟩ := hslot hq'
      refine Or.inr ⟨fun heq => ?_, hab _ _ (hrange hm (hhas hm hi)) (hrange hm' (hhas hm' hi'))⟩
      -- two leaves with the same slots would hold the same keys
      rw [← heq] at hm'
      exact lt_irrefl _ (hab _ _ (hrange hm (hhas hm hi)) (hrange hm' (hhas hm' hi)))
  refine ⟨fun q hq => ?_, fun q hq j hj => ?_, fun k hk hsome => ?_, hbefore, ?_⟩
  · obtain ⟨a, -, hq⟩ := List.mem_flatMap.mp hq
    obtain ⟨hm, hi⟩ := hslot hq
    obtain ⟨v, hv, hholds⟩ := (hhas hm hi).holds (hinv.data.slots a q.1 hm)
    exact ⟨a, v, hm, hi, hv, (h.content _ v).mp ⟨a, q.1, hm, hholds⟩⟩
  · obtain ⟨a, ha, hq⟩ := List.mem_flatMap.mp hq
    exact List.mem_flatMap.mpr ⟨a, ha, hmem (hslot hq).1 hj⟩
  · -- a key from `start_key` on lies in `L` or in a later leaf
    obtain ⟨v, hv⟩ := Option.isSome_iff_exists.mp hsome
    obtain ⟨b, m, hm, i, hi, -⟩ := (h.content k v).mpr hv
    have hb : b ∈ L :: Y := by
      have hlabel := (hrange hm hi).mem
      rw [hlabels] at hlabel
      refine (List.mem_append.mp hlabel).resolve_left fun hX => ?_
      exact not_lt.mpr hk (hfirst b hX L List.mem_cons_self k startKey (hrange hm hi) (hinv.routes_of_find hfind))
    exact ⟨(m, i), List.mem_flatMap.mpr ⟨b, hb, hmem hm hi.1⟩, hi.keyAt⟩
  · -- two slots of one leaf have different keys, and so have slots of two leaves
    refine hbefore.imp_of_mem fun {q q'} hq hq' hlt heq => ?_
    rcases hlt with ⟨hsame, hlt⟩ | ⟨-, hlt⟩
    · obtain ⟨a, -, hq⟩ := List.mem_flatMap.mp hq
      obtain ⟨a', -, hq'⟩ := List.mem_flatMap.mp hq'
      obtain ⟨hm, hi⟩ := hslot hq
      have hi' := (hslot hq').2
      rw [← hsame] at hi' heq
      exact hlt.ne ((hinv.data.slots a q.1 hm).distinct _ _ _ (hhas hm hi) (heq ▸ hhas hm hi'))
    · exact hlt.ne heq

theorem Represents.scan [LawfulPmem P] (h : Represents r 0 s M) (startKey : Key) (scanCount : Nat) :
    ∃ slots, s.met startKey = .ok slots ∧ Met s M startKey slots ∧
      ∀ n, s.brk ≤ n → ZBTree.scan n s startKey scanCount = .ok ((words s.pm slots).take scanCount, s) := by
  obtain ⟨path, L, X, Y, hfind, hlabels, -, hseg, hread, hlen⟩ := h.chain startKey
  have hwalk : s.walk s.brk L = L :: Y := walk_of_seg hseg (fun b hb => (hread b hb).1) hlen
  refine ⟨(L :: Y).flatMap s.slotsOf, ?_, h.met startKey hfind hlabels, fun n hn => ?_⟩
  · rw [TreeState.met, hfind, ok_bind, ← hwalk]
    rfl
  · rw [ZBTree.scan, hfind, ok_bind]
    exact scanLoop_spec startKey scanCount n hseg hread (Nat.lt_of_lt_of_le hlen hn) []
      (Nat.zero_le _) (Or.inl rfl)

theorem exists_keys (M : Key → Option Word) (present : List Key) (startKey : Key)
    (hM : ∀ k, (M k).isSome ↔ k ∈ present) :
    ∃ keys : List Key, keys.Pairwise (· < ·) ∧ ∀ k, k ∈ keys ↔ startKey ≤ k ∧ (M k).isSome := by
  refine ⟨((present.toFinset).filter (startKey ≤ ·)).sort (· ≤ ·), (Finset.sortedLT_sort _).pairwise, fun k => ?_⟩
  rw [Finset.mem_sort, Finset.mem_filter, List.mem_toFinset, hM, and_comm]

/-! ### When the words are the values -/

/-- The slot is not one of those whose word `scan` takes from the cell `LEFT_KEY` further on. -/
def DLeaf.FromRecord (m : DLeaf) (i : Nat) : Prop :=
  i + LEFT_KEY + 1 < m.maxUse ∨ MAX_LEAF_KEY ≤ i + LEFT_KEY + 1

instance (m : DLeaf) (i : Nat) : Decidable (m.FromRecord i) := inferInstanceAs (Decidable (_ ∨ _))

theorem scanWord_record {p : P} {m : DLeaf} {i : Nat} (h : m.FromRecord i) :
    scanWord p m i = logVal p (m.ptr i) := by
  unfold DLeaf.FromRecord at h
  exact if_neg (by omega)

theorem scanWord_raw {p : P} {m : DLeaf} {i : Nat} (h : ¬ m.FromRecord i) :
    scanWord p m i = some (m.fingerPrint (i + LEFT_KEY)).val := by
  unfold DLeaf.FromRecord at h
  exact if_pos (by omega)

/-- A slot that a scan from `start_key` may take: it is read from its record, and no key of a later slot
of the leaf lies from `start_key` up to its own. -/
structure SlotReady (p : P) (startKey : Key) (m : DLeaf) (i : Nat) : Prop where
  record : m.FromRecord i
  from_start : startKey ≤ keyAt p m i
  least : ∀ j, i < j → j < m.maxUse → startKey ≤ keyAt p m j → keyAt p m i < keyAt p m j

instance (p : P) (startKey : Key) (m : DLeaf) (i : Nat) : Decidable (SlotReady p startKey m i) :=
  decidable_of_iff (m.FromRecord i ∧ startKey ≤ keyAt p m i ∧
      ∀ j, j < m.maxUse → i < j → startKey ≤ keyAt p m j → keyAt p m i < keyAt p m j)
    ⟨fun h => ⟨h.1, h.2.1, fun j hlt hj => h.2.2 j hj hlt⟩,
      fun h => ⟨h.record, h.from_start, fun j hj hlt => h.least j hlt hj⟩⟩

/-- The condition on the leaves: the first `scan_count` slots from the leaf of `start_key` on are such. -/
def ScanReady (s : TreeState P) (startKey : Key) (scanCount : Nat) : Prop :=
  ∃ slots, s.met startKey = .ok slots ∧ ∀ q ∈ slots.take scanCount, SlotReady s.pm startKey q.1 q.2

def scanReady (s : TreeState P) (startKey : Key) (scanCount : Nat) : Bool :=
  match s.met startKey with
  | .error _ => false
  | .ok slots => decide (∀ q ∈ slots.take scanCount, SlotReady s.pm startKey q.1 q.2)

theorem scanReady_sound {s : TreeState P} {startKey : Key} {scanCount : Nat}
    (h : scanReady s startKey scanCount = true) : ScanReady s startKey scanCount := by
  unfold scanReady at h
  split at h
  · cases h
  · next slots hmet => exact ⟨slots, hmet, of_decide_eq_true h⟩

/-- The values tell the keys apart, and no word of a free cell is one of them by chance. -/
structure TellApart (s : TreeState P) (M : Key → Option Word) : Prop where
  distinct : ∀ k k' v, M k = some v → M k' = some v → k = k'
  raw : ∀ a m i, s.dleafHeap a = some m → i < m.maxUse → ¬ m.FromRecord i →
    ∀ k, M k ≠ some (m.fingerPrint (i + LEFT_KEY)).val

/-- The first slots hold the smallest keys if each of them is the least of what is left. -/
theorem keys_of_least {p : P} {startKey : Key} {n : Nat} {slots : List (DLeaf × Nat)} {keys : List Key}
    (hleast : slots.Pairwise fun q q' => SlotReady p startKey q.1 q.2 → startKey ≤ keyAt p q'.1 q'.2 →
      keyAt p q.1 q.2 < keyAt p q'.1 q'.2)
    (hready : ∀ q ∈ slots.take n, SlotReady p startKey q.1 q.2) (hsorted : keys.Pairwise (· < ·))
    (hkeys : ∀ k, k ∈ keys ↔ startKey ≤ k ∧ ∃ q ∈ slots, keyAt p q.1 q.2 = k) :
    (slots.take n).map (fun q => keyAt p q.1 q.2) = keys.take n := by
  induction slots generalizing n keys with
  | nil =>
    have hnil : keys = [] := List.eq_nil_iff_forall_not_mem.mpr fun k hk => by
      obtain ⟨-, q, hq, -⟩ := (hkeys k).mp hk
      cases hq
    rw [hnil, List.take_nil, List.take_nil, List.map_nil]
  | cons q rest ih =>
    cases n with
    | zero => rfl
    | succ n =>
      obtain ⟨hq, hrest⟩ := List.pairwise_cons.mp hleast
      have hfirst := hready q List.mem_cons_self
      have hin : keyAt p q.1 q.2 ∈ keys := (hkeys _).mpr ⟨hfirst.from_start, q, List.mem_cons_self, rfl⟩
      -- its key is the head of the sorted keys
      cases keys with
      | nil => cases hin
      | cons k keys =>
        obtain ⟨hk, hsorted'⟩ := List.pairwise_cons.mp hsorted
        have hmin : ∀ k' ∈ k :: keys, keyAt p q.1 q.2 ≤ k' := by
          intro k' hk'
          obtain ⟨hstart, q', hq', rfl⟩ := (hkeys k').mp hk'
          rcases List.mem_cons.mp hq' with rfl | hq'
          · exact le_refl _
          · exact (hq q' hq' hfirst hstart).le
        have hhead : keyAt p q.1 q.2 = k := by
          rcases List.mem_cons.mp hin with heq | hin
          · exact heq
          · exact absurd (hk _ hin) (not_lt.mpr (hmin k List.mem_cons_self))
        rw [List.take_succ_cons, List.map_cons, List.take_succ_cons, hhead,
          ih hrest (fun q' hq' => hready q' (List.mem_cons_of_mem _ hq')) hsorted']
        intro k'
        constructor
        · intro hk'
          obtain ⟨hstart, q', hq', heq⟩ := (hkeys k').mp (List.mem_cons_of_mem _ hk')
          refine ⟨hstart, q', (List.mem_cons.mp hq').resolve_left fun hsame => ?_, heq⟩
          rw [hsame, hhead] at heq
          exact (hk k' hk').ne heq
        · rintro ⟨hstart, q', hq', rfl⟩
          refine (List.mem_cons.mp ((hkeys _).mpr ⟨hstart, q', List.mem_cons_of_mem _ hq', rfl⟩)).resolve_left ?_
          exact fun hsame => (hhead ▸ hq q' hq' hfirst hstart).ne hsame.symm

theorem Met.words_eq {startKey : Key} {slots : List (DLeaf × Nat)} (h : Met s M startKey slots) {n : Nat}
    (hrecord : ∀ q ∈ slots.take n, q.1.FromRecord q.2) : ZBTree.words s.pm (slots.take n) =
      ((slots.take n).map fun q => keyAt s.pm q.1 q.2).map fun k => (M k).getD 0 := by
  rw [ZBTree.words, List.map_map]
  refine List.map_congr_left fun q hq => ?_
  obtain ⟨-, v, -, -, hv, hM⟩ := h.used q (List.mem_of_mem_take hq)
  rw [scanWord_record (hrecord q hq), hv, Function.comp_apply, hM]

/-- The scan is right where the slots that it takes are ready. -/
theorem Met.isScan {startKey : Key} {slots : List (DLeaf × Nat)} (h : Met s M startKey slots) {n : Nat}
    {keys : List Key} (hsorted : keys.Pairwise (· < ·)) (hkeys : ∀ k, k ∈ keys ↔ startKey ≤ k ∧ (M k).isSome)
    (hready : ∀ q ∈ slots.take n, SlotReady s.pm startKey q.1 q.2) :
    (ZBTree.words s.pm slots).take n = (keys.take n).map fun k => (M k).getD 0 := by
  have hkeys' : ∀ k, k ∈ keys ↔ startKey ≤ k ∧ ∃ q ∈ slots, keyAt s.pm q.1 q.2 = k := by
    intro k
    rw [hkeys]
    refine and_congr_right fun hk => ⟨h.all k hk, ?_⟩
    rintro ⟨q, hq, rfl⟩
    obtain ⟨-, v, -, -, -, hM⟩ := h.used q hq
    exact Option.isSome_iff_exists.mpr ⟨v, hM⟩
  have hleast : slots.Pairwise fun q q' => SlotReady s.pm startKey q.1 q.2 →
      startKey ≤ keyAt s.pm q'.1 q'.2 → keyAt s.pm q.1 q.2 < keyAt s.pm q'.1 q'.2 := by
    refine h.ordered.imp_of_mem fun {q q'} _ hq' hlt hq hstart => ?_
    rcases hlt with ⟨hsame, hlt⟩ | ⟨-, hlt⟩
    · obtain ⟨-, -, -, hi', -⟩ := h.used q' hq'
      rw [← hsame] at hi' hstart ⊢
      exact hq.least q'.2 hlt hi' hstart
    · exact hlt
  rw [← keys_of_least hleast hready hsorted hkeys', ← h.words_eq fun q hq => (hready q hq).record, ZBTree.words,
    ZBTree.words, List.map_take]

/-- Where the values tell the slots apart, words that are values come from the records of their keys. -/
theorem Met.keys_of_words {startKey : Key} {slots : List (DLeaf × Nat)} (h : Met s M startKey slots)
    (hapart : TellApart s M) {n : Nat} {keys : List Key} (hkeys : ∀ k ∈ keys, (M k).isSome)
    (hout : (ZBTree.words s.pm slots).take n = (keys.take n).map fun k => (M k).getD 0) :
    (∀ q ∈ slots.take n, q.1.FromRecord q.2) ∧
      (slots.take n).map (fun q => keyAt s.pm q.1 q.2) = keys.take n := by
  have hused := fun q (hq : q ∈ slots.take n) => h.used q (List.mem_of_mem_take hq)
  rw [ZBTree.words, ← List.map_take] at hout
  have hmem : ∀ k ∈ keys.take n, (M k).isSome := fun k hk => hkeys k (List.mem_of_mem_take hk)
  generalize slots.take n = taken at hused hout ⊢
  generalize keys.take n = wanted at hout hmem ⊢
  clear hkeys
  induction taken generalizing wanted with
  | nil =>
    cases wanted with
    | nil => exact ⟨fun q hq => absurd hq List.not_mem_nil, rfl⟩
    | cons k wanted => cases hout
  | cons q taken ih =>
    cases wanted with
    | nil => cases hout
    | cons k wanted =>
      rw [List.map_cons, List.map_cons, List.cons.injEq] at hout
      obtain ⟨hhead, hrest⟩ := hout
      obtain ⟨hrecords, hkeys'⟩ := ih (fun q' hq' => hused q' (List.mem_cons_of_mem _ hq')) wanted hrest
        fun k' hk' => hmem k' (List.mem_cons_of_mem _ hk')
      obtain ⟨v, hv⟩ := Option.isSome_iff_exists.mp (hmem k List.mem_cons_self)
      obtain ⟨a, v', hm, hi, hv', hM⟩ := hused q List.mem_cons_self
      rw [hv, Option.getD_some] at hhead
      have hrecord : q.1.FromRecord q.2 := by
        by_contra hraw
        rw [scanWord_raw hraw, Option.getD_some] at hhead
        exact hapart.raw a q.1 q.2 hm hi hraw k (hv.trans (congrArg some hhead.symm))
      rw [scanWord_record hrecord, hv', Option.getD_some] at hhead
      refine ⟨fun q' hq' => ?_, ?_⟩
      · rcases List.mem_cons.mp hq' with rfl | hq'
        · exact hrecord
        · exact hrecords q' hq'
      · rw [List.map_cons, hkeys', hapart.distinct _ k v (hM.trans (congrArg some hhead)) hv]

/-- So a scan that is right there has taken ready slots only. -/
theorem Met.ready {startKey : Key} {slots : List (DLeaf × Nat)} (h : Met s M startKey slots)
    (hapart : TellApart s M) {n : Nat} {keys : List Key} (hsorted : keys.Pairwise (· < ·))
    (hkeys : ∀ k, k ∈ keys ↔ startKey ≤ k ∧ (M k).isSome)
    (hout : (ZBTree.words s.pm slots).take n = (keys.take n).map fun k => (M k).getD 0) :
    ∀ q ∈ slots.take n, SlotReady s.pm startKey q.1 q.2 := by
  obtain ⟨hrecord, hsame⟩ := h.keys_of_words hapart (fun k hk => ((hkeys k).mp hk).2) hout
  intro q hq
  obtain ⟨A, B, hAB⟩ := List.append_of_mem hq
  have hslots : slots = A ++ q :: (B ++ slots.drop n) := by
    rw [← List.cons_append, ← List.append_assoc, ← hAB, List.take_append_drop]
  -- the keys are those of the slots before `q`, that of `q` and larger ones
  have hcut : keys = (slots.take n).map (fun q => keyAt s.pm q.1 q.2) ++ keys.drop n := by
    rw [hsame, List.take_append_drop]
  rw [hAB, List.map_append, List.map_cons, List.append_assoc, List.cons_append] at hcut
  have hin : keyAt s.pm q.1 q.2 ∈ keys := hcut ▸ List.mem_append_right _ List.mem_cons_self
  refine ⟨hrecord q hq, ((hkeys _).mp hin).1, fun j hlt hj hstart => ?_⟩
  have hqj : (q.1, j) ∈ slots := h.whole q (List.mem_of_mem_take hq) j hj
  obtain ⟨-, v, -, -, -, hM⟩ := h.used _ hqj
  have hjin : keyAt s.pm q.1 j ∈ keys := (hkeys _).mpr ⟨hstart, Option.isSome_iff_exists.mpr ⟨v, hM⟩⟩
  have hordered := h.ordered
  have hdistinct := h.distinct
  rw [hslots] at hqj hordered hdistinct
  obtain ⟨-, -, hA⟩ := List.pairwise_append.mp hordered
  obtain ⟨-, hrest, hA'⟩ := List.pairwise_append.mp hdistinct
  -- slot `j` is met after `q`, so no slot before `q` has its key
  have hafter : (q.1, j) ∈ B ++ slots.drop n := by
    rcases List.mem_append.mp hqj with hjA | hjB
    · rcases hA _ hjA q List.mem_cons_self with ⟨-, hgt⟩ | ⟨hne, -⟩
      · exact absurd hgt (Nat.lt_asymm hlt)
      · exact absurd rfl hne
    · refine (List.mem_cons.mp hjB).resolve_left fun heq => hlt.ne ?_
      exact (congrArg Prod.snd heq).symm
  rw [hcut] at hjin hsorted
  rcases List.mem_append.mp hjin with hjA | hjB
  · obtain ⟨q', hq', heq⟩ := List.mem_map.mp hjA
    exact absurd heq (hA' q' hq' _ (List.mem_cons_of_mem _ hafter))
  · rcases List.mem_cons.mp hjB with heq | hjB
    · exact absurd heq.symm ((List.pairwise_cons.mp hrest).1 _ hafter)
    · exact (List.pairwise_cons.mp (List.pairwise_append.mp hsorted).2.1).1 _ hjB

/-- In every tree that insertions of distinct keys and finds lead to, a scan comes back. It returns what
an ordered scan should if the slots that it takes are ready, and only then if the values tell the slots
apart. -/
theorem scan_returns [LawfulPmem P] (pm : P) (t : Tid) (junkInner : Addr → InnerNode) (junkLeaf : Addr → DLeaf)
    (hjunk : (junkLeaf 1).next = 0) (ops : List MapOp) (hroom : Ok (2 * ops.length + 1) pm)
    (hkeys : (insertedKeys ops).Nodup)
    (hfinds : ∀ s, init pm t junkInner junkLeaf = .ok s → FindsKnown t s (fun _ => none) ops) :
    ∃ s₀ answers s, init pm t junkInner junkLeaf = .ok s₀ ∧ mapRun t s₀ ops = .ok (answers, s) ∧
      ∀ startKey scanCount, ∃ out, (∀ n, s.brk ≤ n → scan n s startKey scanCount = .ok (out, s)) ∧
        (ScanReady s startKey scanCount → IsScan (specRun (fun _ => none) ops).2 startKey scanCount out) ∧
        (TellApart s (specRun (fun _ => none) ops).2 →
          IsScan (specRun (fun _ => none) ops).2 startKey scanCount out → ScanReady s startKey scanCount) := by
  obtain ⟨s₀, hinit, hrep₀⟩ := represents_init (n := 2 * ops.length) hroom t junkInner junkLeaf
  rw [hjunk] at hrep₀
  obtain ⟨s, hrun, hrep⟩ :=
    Represents.run (n := 0) t ops hrep₀ hkeys (fun _ _ => rfl) (hfinds s₀ hinit)
  refine ⟨s₀, _, s, hinit, hrun, ?_⟩
  intro startKey scanCount
  obtain ⟨slots, hmet, hspec, hscan⟩ := hrep.scan startKey scanCount
  refine ⟨(words s.pm slots).take scanCount, hscan, ?_, ?_⟩
  · rintro ⟨slots', hmet', hready⟩
    rw [hmet] at hmet'
    cases hmet'
    obtain ⟨keys, hsorted, hmem⟩ := exists_keys (specRun (fun _ => none) ops).2 (insertedKeys ops) startKey
      fun k => by rw [specRun_isSome]; simp
    exact ⟨keys, hsorted, hmem, hspec.isScan hsorted hmem hready⟩
  · rintro hapart ⟨keys, hsorted, hmem, hout⟩
    exact ⟨slots, hmet, hspec.ready hapart hsorted hmem hout⟩

def fillTwo : List MapOp :=
  insertOps ((List.range 45).map fun i => (BitVec.ofNat 64 (i + 1), BitVec.ofNat 64 (10 * (i + 1)), 8))

/-- They split the first leaf and fill the second in ascending order. All of it is scanned right, though
the walk goes on to the end of the chain. -/
theorem scan_returns_split : ∃ s₀ answers s,
    init (IdealPm.roomy 100) 0 zeroInner zeroLeaf = .ok s₀ ∧ mapRun 0 s₀ fillTwo = .ok (answers, s) ∧
      ∃ out, (∀ n, s.brk ≤ n → scan n s 16 40 = .ok (out, s)) ∧
        IsScan (specRun (fun _ => none) fillTwo).2 16 40 out := by
  obtain ⟨s₀, answers, s, hinit, hrun, hscan⟩ := scan_returns (IdealPm.roomy 100) 0 zeroInner zeroLeaf
    rfl fillTwo (IdealPm.roomy_lawful (by decide) (by decide)) (by decide +kernel)
    (fun s _ => findsKnown_insertOps 0 _ s _)
  refine ⟨s₀, answers, s, hinit, hrun, ?_⟩
  obtain ⟨out, hout, hright, -⟩ := hscan 16 40
  refine ⟨out, hout, hright (scanReady_sound ?_)⟩
  have hready : ((init (IdealPm.roomy 100) 0 zeroInner zeroLeaf >>= fun s₀ =>
      mapRun 0 s₀ fillTwo).toOption.map fun r => scanReady r.2 16 40) = some true := by
    decide +kernel
  rw [hinit, ok_bind, hrun] at hready
  exact Option.some.inj hready

/-- A tree with the one record `1 ↦ 10` is scanned as if its value were the word of a slot
that is not in use. -/
theorem scan_takes_raw_word :
    (do
      let s₀ ← init (IdealPm.roomy 10) 0 zeroInner zeroLeaf
      let (_, s) ← mapRun 0 s₀ [.insert 1 10 8]
      let (out, _) ← scan s.brk s 1 1
      return out) = (.ok [0] : Exec (List Word)) ∧
    ¬ IsScan (specRun (fun _ => none) [.insert 1 10 8]).2 1 1 [0] := by
  constructor
  · decide +kernel
  · rintro ⟨keys, -, hmem, hout⟩
    cases keys with
    | nil => cases hout
    | cons k keys =>
      have hk := (specRun_isSome [.insert 1 10 8] (fun _ => none) k).mp
        ((hmem k).mp List.mem_cons_self).2
      have hk1 : k = 1 := by simpa [insertedKeys] using hk
      rw [hk1, List.take_succ_cons, List.take_zero] at hout
      exact absurd hout (by decide)

end ZBTree
