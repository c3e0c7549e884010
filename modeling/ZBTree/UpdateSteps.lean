import ZBTree.Invariant

/-!
# What update does to a leaf

The slot loop of `update` changes the persistent memory only. It either writes the value
into the record of the key and stops, or it has added log records for the slots that it
took for the key without looking at their records. Either way the invariant stays.
-/

namespace ZBTree

open RangeIndex LinkedList Pmem LawfulPmem

variable {P : Type} [Pmem P]

/-- A slot that `update` takes for the key without looking at its record. -/
def DLeaf.Unread (m : DLeaf) (key : Key) (i : Nat) : Prop :=
  i < m.maxUse ∧ (m.fingerPrint i).hashByte = hashfunc key ∧ (m.fingerPrint i).accessBit = 0

/-- The slot of the key, which has been read since it was filled. -/
def DLeaf.ReadAt (p : P) (m : DLeaf) (key : Key) (i : Nat) : Prop :=
  HasKey p m key i ∧ (m.fingerPrint i).accessBit ≠ 0

variable [LawfulPmem P] {cuts : Cuts} {tail L : Addr} {s : TreeState P} {p p' p'' : P} {m : DLeaf}
  {key k : Key} {val v : Word}

/-- Nothing but values may differ from `p` to `p'`, and records may have been added. -/
structure Extends (p p' : P) : Prop where
  recs_le : recs p ⊆ recs p'
  leaves_eq : leaves p' = leaves p
  same_leaves : SameLeaves (leaves p) p p'
  same_keys : ∀ a ∈ recs p, logKey p' a = logKey p a

theorem Extends.refl (p : P) : Extends p p :=
  ⟨fun _ ha => ha, rfl, fun _ _ => rfl, fun _ _ => rfl⟩

theorem Extends.trans (h : Extends p p') (h' : Extends p' p'') : Extends p p'' where
  recs_le := fun _ ha => h'.recs_le (h.recs_le ha)
  leaves_eq := h'.leaves_eq.trans h.leaves_eq
  same_leaves q hq := (h'.same_leaves q (h.leaves_eq ▸ hq)).trans (h.same_leaves q hq)
  same_keys a ha := (h'.same_keys a (h.recs_le ha)).trans (h.same_keys a ha)

/-- How the slot loop ends when it started at slot `i` with the flag `flag`. -/
def UpdateEnds (p p' : P) (m : DLeaf) (key : Key) (val : Word) (i : Nat) (flag b : Bool) : Prop :=
  (∃ j, i ≤ j ∧ m.ReadAt p key j ∧ b = true ∧ logVal p' (m.ptr j) = some val ∧
    SameRecs (recs p \ {m.ptr j}) p p') ∨
  ((∀ j, i ≤ j → ¬ m.ReadAt p key j) ∧ (b = true ↔ flag = true ∨ ∃ j, i ≤ j ∧ m.Unread key j) ∧
    SameRecs (recs p) p p')

omit [LawfulPmem P] in
theorem readAt_congr (h : SameSlots p p' m) {i : Nat} : m.ReadAt p' key i ↔ m.ReadAt p key i :=
  and_congr_left fun _ => hasKey_congr h

omit [LawfulPmem P] in
theorem sameRecs_trans {A B : Set Addr} (h : SameRecs A p p') (h' : SameRecs B p' p'') (hAB : A ⊆ B) :
    SameRecs A p p'' :=
  fun a ha => ⟨(h' a (hAB ha)).1.trans (h a ha).1, (h' a (hAB ha)).2.trans (h a ha).2⟩

theorem UpdateEnds.skip {i : Nat} {flag flag' b : Bool} (hp : Extends p p') (hsame : SameRecs (recs p) p p')
    (hrecs : ∀ i, i < m.maxUse → m.ptr i ∈ recs p) (hread : ¬ m.ReadAt p key i)
    (hflag : flag' = true ↔ flag = true ∨ m.Unread key i)
    (h : UpdateEnds p' p'' m key val (i + 1) flag' b) : UpdateEnds p p'' m key val i flag b := by
  have hslots : SameSlots p p' m := fun j hj => hsame _ (hrecs j hj)
  rcases h with ⟨j, hj, hjread, hb, hval, hrest⟩ | ⟨hnone, hb, hrest⟩
  · refine Or.inl ⟨j, Nat.le_of_succ_le hj, (readAt_congr hslots).mp hjread, hb, hval, ?_⟩
    exact sameRecs_trans (fun a ha => hsame a ha.1) hrest fun a ha => ⟨hp.recs_le ha.1, ha.2⟩
  · refine Or.inr ⟨?_, ?_, sameRecs_trans hsame hrest hp.recs_le⟩
    · intro j hj hjread
      rcases Nat.lt_or_eq_of_le hj with hlt | rfl
      · exact hnone j hlt ((readAt_congr hslots).mpr hjread)
      · exact hread hjread
    · rw [hb, hflag]
      constructor
      · rintro ((hf | hu) | ⟨j, hj, hu⟩)
        · exact Or.inl hf
        · exact Or.inr ⟨i, Nat.le_refl i, hu⟩
        · exact Or.inr ⟨j, Nat.le_of_succ_le hj, hu⟩
      · rintro (hf | ⟨j, hj, hu⟩)
        · exact Or.inl (Or.inl hf)
        · rcases Nat.lt_or_eq_of_le hj with hlt | rfl
          · exact Or.inr ⟨j, hlt, hu⟩
          · exact Or.inl (Or.inr hu)

/-- The slot loop, by induction on the slots that are left. -/
theorem updateSlots_spec (t : Tid) (key : Key) (val : Word) (hslots : SlotsOK p m)
    (hrecs : ∀ i, i < m.maxUse → m.ptr i ∈ recs p) (n : Nat) {i c : Nat} (flag : Bool) (hi : i + n = m.maxUse) (hok : Ok (c + n) p) :
    ∃ b p', updateSlots m t key val n i flag p = .ok (b, p') ∧ Ok c p' ∧ Extends p p' ∧
      UpdateEnds p p' m key val i flag b := by
  induction n generalizing p i flag with
  -- no slot is left, and none of those before was the one
  | zero =>
    refine ⟨flag, p, rfl, hok, Extends.refl p, Or.inr ⟨?_, ?_, fun _ _ => ⟨rfl, rfl⟩⟩⟩
    · exact fun j hj hread => absurd hread.1.1 (by omega)
    · exact ⟨Or.inl, fun h => h.elim id fun ⟨j, hj, hu⟩ => absurd hu.1 (by omega)⟩
  | succ n ih =>
    have hlt : i < m.maxUse := by omega
    have hrest : i + 1 + n = m.maxUse := by omega
    by_cases hhash : (m.fingerPrint i).hashByte = hashfunc key
    · by_cases hacc : (m.fingerPrint i).accessBit = 0
      · -- a record is added, and the slot is taken for the key
        obtain ⟨a, p₁, happ, hok₁, -, hrecs₁, hleaves₁, -, -, hsame₁, hsameL₁⟩ :=
          append_spec t key val m.altPtr LOG_UPDATE 0 (show Ok (c + n + 1) p from hok)
        have hle : recs p ⊆ recs p₁ := fun x hx => hrecs₁ ▸ Set.mem_insert_of_mem a hx
        have hext : Extends p p₁ := ⟨hle, hleaves₁, hsameL₁, fun x hx => (hsame₁ x hx).1⟩
        have hsame : SameSlots p p₁ m := fun j hj => hsame₁ _ (hrecs j hj)
        obtain ⟨b, p', hrun, hok', hext', hends⟩ :=
          ih (hslots.congr hsame) (fun j hj => hle (hrecs j hj)) true hrest hok₁
        refine ⟨b, p', ?_, hok', hext.trans hext', ?_⟩
        · simp only [updateSlots, if_pos hhash, if_pos hacc, happ, deref_some, ok_bind, hrun]
        · refine hends.skip hext hsame₁ hrecs (fun hread => hread.2 hacc) ?_
          exact iff_of_true rfl (Or.inr ⟨hlt, hhash, hacc⟩)
      · obtain ⟨k, w, hk, hw⟩ := hslots.read i hlt
        by_cases hkey : k = key
        · -- the record of the key is written and the loop left
          subst hkey
          obtain ⟨p', hset, hok', hrecs', hleaves', hkey', hval', hsame', hsameL'⟩ :=
            setVal_spec val (ok_mono (Nat.le_add_right c (n + 1)) hok) (hrecs i hlt)
          refine ⟨true, p', ?_, hok', ⟨hrecs'.ge, hleaves', hsameL', ?_⟩,
            Or.inl ⟨i, Nat.le_refl i, ⟨⟨hlt, hk⟩, hacc⟩, rfl, hval', hsame'⟩⟩
          · have hk' : logKey p (m.fingerPrint i).ptrField.toNat = some k := hk
            have hset' : setLogVal p (m.fingerPrint i).ptrField.toNat val = some p' := hset
            simp only [updateSlots, if_pos hhash, if_neg hacc, hk', hset', deref_some, ok_bind,
              if_true, pure_eq_ok]
          · intro a ha
            by_cases hane : a = m.ptr i
            · rw [hane, hkey']
            · exact (hsame' a ⟨ha, hane⟩).1
        · obtain ⟨b, p', hrun, hok', hext', hends⟩ := ih hslots hrecs flag hrest
            (ok_mono (by omega) hok)
          refine ⟨b, p', ?_, hok', hext', ?_⟩
          · have hk' : logKey p (m.fingerPrint i).ptrField.toNat = some k := hk
            simp only [updateSlots, if_pos hhash, if_neg hacc, hk', deref_some, ok_bind, if_neg hkey,
              hrun]
          · refine hends.skip (Extends.refl p) (fun _ _ => ⟨rfl, rfl⟩) hrecs ?_ ?_
            · rintro ⟨⟨-, hk'⟩, -⟩
              exact hkey (Option.some.inj (hk.symm.trans hk'))
            · exact ⟨Or.inl, fun h => h.elim id fun hu => absurd hu.2.2 hacc⟩
    · obtain ⟨b, p', hrun, hok', hext', hends⟩ := ih hslots hrecs flag hrest
        (ok_mono (by omega) hok)
      refine ⟨b, p', ?_, hok', hext', ?_⟩
      · simp only [updateSlots, if_neg hhash, hrun]
      · refine hends.skip (Extends.refl p) (fun _ _ => ⟨rfl, rfl⟩) hrecs ?_ ?_
        · exact fun hread => hhash (hslots.hash i key hread.1)
        · exact ⟨Or.inl, fun h => h.elim id fun hu => absurd hu.2.1 hhash⟩

/-! ### The invariant -/

theorem Extends.hasKey_iff (h : Extends p p') (hrecs : ∀ i, i < m.maxUse → m.ptr i ∈ recs p) {i : Nat} :
    HasKey p' m k i ↔ HasKey p m k i :=
  and_congr_right fun hi => by rw [h.same_keys _ (hrecs i hi)]

theorem SlotsOK.extends {c : Nat} (hslots : SlotsOK p m) (h : Extends p p') (hok : Ok c p')
    (hrecs : ∀ i, i < m.maxUse → m.ptr i ∈ recs p) : SlotsOK p' m where
  read i hi := rec_read hok (h.recs_le (hrecs i hi))
  hash i k hi := hslots.hash i k ((h.hasKey_iff hrecs).mp hi)
  distinct i j k hi hj := hslots.distinct i j k ((h.hasKey_iff hrecs).mp hi) ((h.hasKey_iff hrecs).mp hj)
  pair i k hi := hslots.pair i k ((h.hasKey_iff hrecs).mp hi)

/-- A memory in which only values of one leaf that is not cut have changed. -/
theorem Inv.extends (h : Inv cuts tail s) {pm : P} {c : Nat} (hext : Extends s.pm pm) (hok : Ok c pm)
    (hL : L ∈ labels s.index) (hcut : cuts L = none)
    (hother : ∀ b n, s.dleafHeap b = some n → b ≠ L → SameSlots s.pm pm n) :
    Inv cuts tail { s with pm := pm } := by
  have hrecs : ∀ {b n}, s.dleafHeap b = some n → ∀ i, i < n.maxUse → n.ptr i ∈ recs s.pm :=
    fun {b n} hn i hi => h.data.recs b n i hn hi
  refine ⟨h.skel.setPm pm, ⟨h.data.sorted, ?_, ?_, ?_, ?_⟩, ⟨?_, h.twin.nodup, ?_⟩⟩
  · exact fun b n hn => (h.data.slots b n hn).extends hext hok (hrecs hn)
  · exact fun b n i hn hi => hext.recs_le (hrecs hn i hi)
  · exact fun b n k i hn hi => h.data.range b n k i hn ((hext.hasKey_iff (hrecs hn)).mp hi)
  · -- the leaf that has changed is neither half of a cut leaf
    intro b cut n nr hc hn hnr
    have hb : b ≠ L := by
      rintro rfl
      rw [hcut] at hc
      exact absurd hc (by simp)
    have hpend : cuts.pend b = some (cut.key, cut.right) := by simp [Cuts.pend, hc]
    have hr : cut.right ≠ L := by
      rintro rfl
      exact right_not_mem h.skel.nodup (h.skel.cut b cut hc).1 hpend hL
    obtain ⟨hlt, buf, hbuf, hbok⟩ := h.data.buffer b cut n nr hc hn hnr
    refine ⟨hlt, buf, hbuf, fun k v => (hbok k v).trans ?_⟩
    exact (or_congr (holds_congr (hother b n hn hb)) (holds_congr (hother cut.right nr hnr hr))).symm
  · intro b hb
    show _ ∈ LawfulPmem.leaves pm
    rw [hext.leaves_eq]
    exact h.twin.mem b hb
  · refine h.twin.chain.congr fun q hq => ?_
    obtain ⟨b, hb, rfl⟩ := List.mem_map.mp hq
    show pnext pm _ = _
    unfold pnext
    rw [hext.same_leaves _ (h.twin.mem b hb)]

theorem Inv.updateSlots (h : Inv cuts tail s) {c : Nat} (hm : s.dleafHeap L = some m)
    (hL : L ∈ labels s.index) (hcut : cuts L = none) (hok : Ok (c + m.maxUse) s.pm) (t : Tid)
    (key : Key) (val : Word) :
    ∃ b pm, ZBTree.updateSlots m t key val m.maxUse 0 false s.pm = .ok (b, pm) ∧ Ok c pm ∧
      Extends s.pm pm ∧ UpdateEnds s.pm pm m key val 0 false b ∧
      (∀ b n, s.dleafHeap b = some n → b ≠ L → SameSlots s.pm pm n) ∧
      Inv cuts tail { s with pm := pm } := by
  obtain ⟨b, pm, hrun, hok', hext, hends⟩ := updateSlots_spec t key val
    (h.data.slots L m hm) (fun i hi => h.data.recs L m i hm hi) m.maxUse false
    (Nat.zero_add _) hok
  have hother : ∀ b n, s.dleafHeap b = some n → b ≠ L → SameSlots s.pm pm n := by
    intro b n hn hb i hi
    have hin := h.data.recs b n i hn hi
    rcases hends with ⟨j, -, hread, -, -, hsame⟩ | ⟨-, -, hsame⟩
    · refine hsame _ ⟨hin, fun heq => hb ?_⟩
      -- the record that was written is that of a slot of `L`
      have hkey : HasKey s.pm n key i := ⟨hi, by rw [heq, hread.1.2]⟩
      exact (h.data.unique hn hm hkey hread.1).1
    · exact hsame _ hin
  exact ⟨b, pm, hrun, hok', hext, hends, hother, h.extends hext hok' hL hcut hother⟩

/-- What the tree holds after the slot loop. -/
theorem contains_updateSlots (h : Inv cuts tail s) {pm : P} {b : Bool} (hm : s.dleafHeap L = some m)
    (hext : Extends s.pm pm) (hends : UpdateEnds s.pm pm m key val 0 false b)
    (hother : ∀ b n, s.dleafHeap b = some n → b ≠ L → SameSlots s.pm pm n) (k : Key) (v : Word) :
    ({ s with pm := pm } : TreeState P).Contains k v ↔
      ((k = key ∧ ∃ j, m.ReadAt s.pm key j) ∧ v = val) ∨
        (¬ (k = key ∧ ∃ j, m.ReadAt s.pm key j) ∧ s.Contains k v) := by
  have hrecs : ∀ i, i < m.maxUse → m.ptr i ∈ recs s.pm := fun i hi => h.data.recs L m i hm hi
  rcases hends with ⟨j, -, hread, -, hval, hsame⟩ | ⟨hnone, -, hsame⟩
  · have hkey' : HasKey pm m key j := (hext.hasKey_iff hrecs).mpr hread.1
    by_cases hk : k = key ∧ ∃ j, m.ReadAt s.pm key j
    · simp only [hk, true_and, not_true_eq_false, false_and, or_false]
      obtain ⟨rfl, -⟩ := hk
      constructor
      · rintro ⟨a, n, hn, i, hi, hv⟩
        have hi' : HasKey s.pm n k i :=
          (hext.hasKey_iff fun i hi => h.data.recs a n i hn hi).mp hi
        -- the key has one slot, whose record now holds the value
        obtain ⟨rfl, rfl⟩ := h.data.unique hn hm hi' hread.1
        have hn' : s.dleafHeap a = some n := hn
        rw [hm, Option.some.injEq] at hn'
        subst hn'
        exact Option.some.inj (hv.symm.trans hval)
      · rintro rfl
        exact ⟨L, m, hm, j, hkey', hval⟩
    · simp only [hk, false_and, not_false_eq_true, true_and, false_or]
      have hkne : k ≠ key := fun heq => hk ⟨heq, j, hread⟩
      -- the record that was written belongs to another key
      have hsame' : ∀ {a n i}, s.dleafHeap a = some n → HasKey s.pm n k i →
          logVal pm (n.ptr i) = logVal s.pm (n.ptr i) := by
        intro a n i hn hi
        refine (hsame _ ⟨h.data.recs a n i hn hi.1, fun heq => hkne ?_⟩).2
        have hk' := hi.2
        rw [heq, hread.1.2] at hk'
        exact (Option.some.inj hk').symm
      constructor
      · rintro ⟨a, n, hn, i, hi, hv⟩
        have hi' : HasKey s.pm n k i :=
          (hext.hasKey_iff fun i hi => h.data.recs a n i hn hi).mp hi
        exact ⟨a, n, hn, i, hi', (hsame' hn hi').symm.trans hv⟩
      · rintro ⟨a, n, hn, i, hi, hv⟩
        exact ⟨a, n, hn, i, (hext.hasKey_iff fun i hi => h.data.recs a n i hn hi).mpr hi,
          (hsame' hn hi).trans hv⟩
  · have hk : ¬ (k = key ∧ ∃ j, m.ReadAt s.pm key j) := fun hk =>
      hk.2.elim fun j hread => hnone j (Nat.zero_le j) hread
    simp only [hk, false_and, not_false_eq_true, true_and, false_or]
    have hslots : ∀ {a n}, s.dleafHeap a = some n → SameSlots s.pm pm n := fun {a n} hn i hi =>
      hsame _ (h.data.recs a n i hn hi)
    constructor
    · rintro ⟨a, n, hn, hv⟩
      exact ⟨a, n, hn, (holds_congr (hslots hn)).mp hv⟩
    · rintro ⟨a, n, hn, hv⟩
      exact ⟨a, n, hn, (holds_congr (hslots hn)).mpr hv⟩

end ZBTree
