import ZBTree.StructLayout

/-!
# The bitmap helpers

The routines of `pm_util.cpp` that see an array of bytes as positions of bits. A byte is promoted
to `int` in every expression: this is harmless where bits are tested or one is set, but the
complement of a promoted byte is never zero, so that `bit_full1` answers `false` for any array
that is not empty. Positions are `int`s too, and a sum that overflows has no value.
-/

namespace ZBTree

/-- The integer promotion of a byte. -/
def promote (x : BitVec 8) : BitVec 32 := x.setWidth 32

/-- The value of an `int` expression; `none` when it overflows. -/
def asInt (x : Int) : Option Int := if -2 ^ 31 ≤ x ∧ x < 2 ^ 31 then some x else none

/-- `__builtin_ffs`: one plus the place of the lowest 1 bit, or 0. -/
def builtinFfs (x : BitVec 32) : Nat :=
  match (List.range 32).find? fun i => x.getLsbD i with
  | some i => i + 1
  | none => 0

def bitGet (bitmap : Bytes) (pos : Nat) : BitVec 32 :=
  let offset := pos % 8
  (promote (bitmap (pos >>> 3)) >>> offset) &&& 1#32

def bitSet (bitmap : Bytes) (pos : Nat) (setVal : BitVec 32) : Bytes :=
  let offset := pos % 8
  if setVal = 1 then
    bitmap.put8 (pos >>> 3) ((promote (bitmap (pos >>> 3)) ||| (1#32 <<< offset)).setWidth 8)
  else if setVal = 0 then
    bitmap.put8 (pos >>> 3) ((promote (bitmap (pos >>> 3)) &&& ~~~(1#32 <<< offset)).setWidth 8)
  else bitmap

/-- The loop of `bit_find0` and `bit_find1` over `n` words from `i` on: `i` and `find_result`. -/
def bitFindLoop (word : Nat → BitVec 32) : Nat → Nat → Nat × Nat
  | 0, i => (i, 0)
  | n + 1, i =>
    let findResult := builtinFfs (word i)
    if findResult ≠ 0 then (i, findResult) else bitFindLoop word n (i + 1)

/-- The two routines, on the words that they look at. -/
def bitFind (word : Nat → BitVec 32) (size : Nat) : Option Int := do
  let (i, findResult) := bitFindLoop word size 0
  if findResult = 0 then return -1
  let pos ← asInt (8 * i)
  let pos ← asInt (pos + findResult)
  asInt (pos - 1)

def bitFind0 (bitmap : Bytes) (size : Nat) : Option Int :=
  bitFind (fun i => promote (bitmap i) ^^^ 0xff) size

def bitFind1 (bitmap : Bytes) (bitSize : Nat) : Option Int := bitFind (fun i => promote (bitmap i)) bitSize

/-- The loop of `bit_full0` and `bit_full1` over `n` words from `i` on. -/
def bitFull (word : Nat → BitVec 32) : Nat → Nat → Bool
  | 0, _ => true
  | n + 1, i => if word i ≠ 0#32 then false else bitFull word n (i + 1)

def bitFull0 (bitmap : Bytes) (size : Nat) : Bool := bitFull (fun i => promote (bitmap i)) size 0

def bitFull1 (bitmap : Bytes) (size : Nat) : Bool := bitFull (fun i => ~~~promote (bitmap i)) size 0

/-- The helpers agree about the first `n` bytes. -/
structure BitmapAgrees (b : Bytes) (n : Nat) : Prop where
  full1 : bitFull1 b n = true ↔ bitFind0 b n = some (-1)
  find0 : bitFind0 b n = some (-1) ↔ ∀ p, p < 8 * n → bitGet b p = 1
  full0 : bitFull0 b n = true ↔ bitFind1 b n = some (-1)
  find1 : bitFind1 b n = some (-1) ↔ ∀ p, p < 8 * n → bitGet b p = 0
  least0 : ∀ p : Nat, bitFind0 b n = some p →
    p < 8 * n ∧ bitGet b p = 0 ∧ ∀ q, q < p → bitGet b q ≠ 0
  least1 : ∀ p : Nat, bitFind1 b n = some p →
    p < 8 * n ∧ bitGet b p = 1 ∧ ∀ q, q < p → bitGet b q ≠ 1
  set_self : ∀ p v, v = 0 ∨ v = 1 → bitGet (bitSet b p v) p = v
  set_other : ∀ p q v, v = 0 ∨ v = 1 → q ≠ p → bitGet (bitSet b p v) q = bitGet b q

/-! ### Bits -/

theorem promote_getLsbD (x : BitVec 8) (i : Nat) : (promote x).getLsbD i = x.getLsbD i := by
  rw [promote, BitVec.getLsbD_setWidth]
  by_cases hi : i < 32
  · simp only [hi, decide_true, Bool.true_and]
  · rw [BitVec.getLsbD_of_ge x i (by omega), Bool.and_false]

theorem builtinFfs_eq_zero {x : BitVec 32} : builtinFfs x = 0 ↔ x = 0#32 := by
  unfold builtinFfs
  constructor
  · intro h
    split at h
    · cases h
    · next hnone =>
      apply BitVec.eq_of_getLsbD_eq
      intro i hi
      have hbit := List.find?_eq_none.mp hnone i (List.mem_range.mpr hi)
      rw [BitVec.getLsbD_zero]
      exact Bool.eq_false_iff.mpr hbit
  · rintro rfl
    rfl

theorem builtinFfs_succ {x : BitVec 32} {r : Nat} (h : builtinFfs x = r + 1) :
    x.getLsbD r = true ∧ ∀ k, k < r → x.getLsbD k = false := by
  unfold builtinFfs at h
  split at h
  · next i hfirst =>
    obtain rfl : i = r := Nat.succ.inj h
    rw [List.find?_range_eq_some] at hfirst
    obtain ⟨hbit, -, hbefore⟩ := hfirst
    refine ⟨hbit, fun k hk => ?_⟩
    have hzero := hbefore k hk
    simpa using hzero
  · cases h

theorem and_one_eq (x : BitVec 32) : x &&& 1#32 = if x.getLsbD 0 then 1 else 0 := by
  apply BitVec.eq_of_getLsbD_eq
  intro i hi
  rw [BitVec.getLsbD_and]
  have hone : (1#32).getLsbD i = decide (i = 0) := by
    rw [BitVec.getLsbD_one]
    simp
  rw [hone]
  by_cases hzero : i = 0
  · subst hzero
    cases x.getLsbD 0 <;> rfl
  · cases x.getLsbD 0 <;> simp [hzero]

theorem bitGet_eq (b : Bytes) (p : Nat) :
    bitGet b p = if (b (p / 8)).getLsbD (p % 8) then 1 else 0 := by
  have hbyte : p >>> 3 = p / 8 := Nat.shiftRight_eq_div_pow p 3
  rw [bitGet, and_one_eq, BitVec.getLsbD_ushiftRight, promote_getLsbD, Nat.add_zero, hbyte]

theorem bitGet_eq_one {b : Bytes} {p : Nat} :
    bitGet b p = 1 ↔ (b (p / 8)).getLsbD (p % 8) = true := by
  rw [bitGet_eq]
  split
  · next h => exact iff_of_true rfl h
  · next h => exact iff_of_false (by decide) h

theorem bitGet_eq_zero {b : Bytes} {p : Nat} :
    bitGet b p = 0 ↔ (b (p / 8)).getLsbD (p % 8) = false := by
  rw [bitGet_eq]
  split
  · next h => exact iff_of_false (by decide) (by rw [h]; decide)
  · next h => exact iff_of_true rfl (Bool.eq_false_iff.mpr h)

/-! ### The searches

`bit_find0` and `bit_find1` are one loop over words that show the zeros or the ones as 1 bits, and so are
`bit_full0` and `bit_full1`. The lemmas are about that loop; the words come in below. -/

theorem bitFindLoop_spec (word : Nat → BitVec 32) (n i : Nat) :
    ((bitFindLoop word n i).2 = 0 ∧ ∀ k, i ≤ k → k < i + n → word k = 0#32) ∨
      ∃ k r, bitFindLoop word n i = (k, r + 1) ∧ i ≤ k ∧ k < i + n ∧ builtinFfs (word k) = r + 1 ∧
        ∀ k', i ≤ k' → k' < k → word k' = 0#32 := by
  induction n generalizing i with
  | zero => exact Or.inl ⟨rfl, fun k hle hlt => absurd hlt (Nat.not_lt.mpr hle)⟩
  | succ n ih =>
    rw [bitFindLoop]
    by_cases hword : builtinFfs (word i) = 0
    · rw [if_neg (not_not.mpr hword)]
      have hzero := builtinFfs_eq_zero.mp hword
      have hfirst : ∀ k, i ≤ k → ¬ i + 1 ≤ k → word k = 0#32 := by
        intro k hle hnot
        obtain rfl : k = i := by omega
        exact hzero
      rcases ih (i + 1) with ⟨hend, hall⟩ | ⟨k, r, heq, hle, hlt, hr, hbefore⟩
      · refine Or.inl ⟨hend, fun k hle hlt => ?_⟩
        by_cases hnext : i + 1 ≤ k
        · exact hall k hnext (by omega)
        · exact hfirst k hle hnext
      · refine Or.inr ⟨k, r, heq, by omega, by omega, hr, fun k' hle' hlt' => ?_⟩
        by_cases hnext : i + 1 ≤ k'
        · exact hbefore k' hnext hlt'
        · exact hfirst k' hle' hnext
    · rw [if_pos hword]
      obtain ⟨r, hr⟩ := Nat.exists_eq_succ_of_ne_zero hword
      refine Or.inr ⟨i, r, by rw [hr], Nat.le_refl i, by omega, hr, fun k' hle hlt => ?_⟩
      exact absurd hlt (Nat.not_lt.mpr hle)

theorem asInt_eq_some {x y : Int} (h : asInt x = some y) : y = x := by
  unfold asInt at h
  split at h
  · exact (Option.some.inj h).symm
  · cases h

/-- Bit `p` of the words, eight in each. -/
def wordBit (word : Nat → BitVec 32) (p : Nat) : Bool := (word (p / 8)).getLsbD (p % 8)

section Find

variable {word : Nat → BitVec 32} (hnarrow : ∀ i k, 8 ≤ k → (word i).getLsbD k = false)

include hnarrow in
theorem word_eq_zero {i : Nat} : word i = 0#32 ↔ ∀ k, k < 8 → wordBit word (8 * i + k) = false := by
  have hplace : ∀ k, k < 8 → wordBit word (8 * i + k) = (word i).getLsbD k := by
    intro k hk
    rw [wordBit, Nat.mul_add_div (by decide), Nat.div_eq_of_lt hk, Nat.mul_add_mod,
      Nat.mod_eq_of_lt hk, Nat.add_zero]
  constructor
  · intro h k hk
    rw [hplace k hk, h]
    exact BitVec.getLsbD_zero
  · intro h
    apply BitVec.eq_of_getLsbD_eq
    intro k hk
    rw [BitVec.getLsbD_zero]
    by_cases hk8 : k < 8
    · rw [← hplace k hk8]
      exact h k hk8
    · exact hnarrow i k (Nat.not_lt.mp hk8)

include hnarrow in
theorem words_eq_zero {n : Nat} :
    (∀ i, i < n → word i = 0#32) ↔ ∀ p, p < 8 * n → wordBit word p = false := by
  constructor
  · intro h p hp
    have hzero := (word_eq_zero hnarrow).mp (h (p / 8) (by omega)) (p % 8) (Nat.mod_lt _ (by decide))
    rwa [Nat.div_add_mod] at hzero
  · intro h i hi
    exact (word_eq_zero hnarrow).mpr fun k hk => h (8 * i + k) (by omega)

include hnarrow in
/-- The search finds nothing, or the lowest bit, or a position that is no `int`. -/
theorem bitFind_cases (n : Nat) :
    (bitFind word n = some (-1) ∧ ∀ p, p < 8 * n → wordBit word p = false) ∨
      ∃ p, p < 8 * n ∧ wordBit word p = true ∧ (∀ q, q < p → wordBit word q = false) ∧
        (bitFind word n = some (p : Int) ∨ bitFind word n = none) := by
  rcases bitFindLoop_spec word n 0 with ⟨hend, hall⟩ | ⟨k, r, heq, -, hlt, hr, hbefore⟩
  · -- no word with a 1: the loop ends with `find_result` 0
    refine Or.inl ⟨?_, (words_eq_zero hnarrow).mp fun i hi => hall i (Nat.zero_le i) (by omega)⟩
    unfold bitFind
    rw [← Prod.eta (bitFindLoop word n 0)]
    simp only [hend, if_true, Option.pure_def]
  · -- the loop stops at word `k`, whose lowest 1 is bit `r`
    obtain ⟨hbit, hlow⟩ := builtinFfs_succ hr
    have hr8 : r < 8 := by
      by_contra hge
      rw [hnarrow k r (Nat.not_lt.mp hge)] at hbit
      cases hbit
    have hplace : ∀ j, j < 8 → wordBit word (8 * k + j) = (word k).getLsbD j := by
      intro j hj
      rw [wordBit, Nat.mul_add_div (by decide), Nat.div_eq_of_lt hj, Nat.mul_add_mod,
        Nat.mod_eq_of_lt hj, Nat.add_zero]
    refine Or.inr ⟨8 * k + r, by omega, (hplace r hr8).trans hbit, ?_, ?_⟩
    · intro q hq
      by_cases hword : q / 8 < k
      · exact (words_eq_zero hnarrow (n := k)).mp (fun i hi => hbefore i (Nat.zero_le i) hi) q (by omega)
      · have hq' : q = 8 * k + q % 8 := by omega
        rw [hq', hplace (q % 8) (Nat.mod_lt _ (by decide))]
        exact hlow (q % 8) (by omega)
    · unfold bitFind
      rw [heq]
      simp only [Nat.succ_ne_zero, if_false, Option.bind_eq_bind]
      -- each of the three sums of the return value may leave the range of `int`
      cases hfirst : asInt (8 * (k : Int)) with
      | none => exact Or.inr rfl
      | some x =>
        rw [Option.bind_some]
        cases hsecond : asInt (x + ((r + 1 : Nat) : Int)) with
        | none => exact Or.inr rfl
        | some y =>
          rw [Option.bind_some]
          cases hthird : asInt (y - 1) with
          | none => exact Or.inr rfl
          | some z =>
            left
            have hx := asInt_eq_some hfirst
            have hy := asInt_eq_some hsecond
            have hz := asInt_eq_some hthird
            have hsum : z = ((8 * k + r : Nat) : Int) := by
              push_cast at hy ⊢
              omega
            rw [hsum]

include hnarrow in
theorem bitFind_eq_none (n : Nat) :
    bitFind word n = some (-1) ↔ ∀ p, p < 8 * n → wordBit word p = false := by
  rcases bitFind_cases hnarrow n with ⟨hfind, hall⟩ | ⟨p, hp, hbit, -, hfind⟩
  · exact iff_of_true hfind hall
  · apply iff_of_false
    · intro heq
      rcases hfind with hfind | hfind
      · exact absurd (Option.some.inj (hfind.symm.trans heq)) (by omega)
      · cases hfind.symm.trans heq
    · intro hall
      rw [hall p hp] at hbit
      cases hbit

include hnarrow in
theorem bitFind_least {n p : Nat} (h : bitFind word n = some (p : Int)) :
    p < 8 * n ∧ wordBit word p = true ∧ ∀ q, q < p → wordBit word q = false := by
  rcases bitFind_cases hnarrow n with ⟨hfind, -⟩ | ⟨p', hp, hbit, hlow, hfind | hfind⟩
  · exact absurd (Option.some.inj (h.symm.trans hfind)) (by omega)
  · obtain rfl : p = p' := Int.ofNat.inj (Option.some.inj (h.symm.trans hfind))
    exact ⟨hp, hbit, hlow⟩
  · cases h.symm.trans hfind

end Find

theorem bitFull_eq_true {word : Nat → BitVec 32} (n i : Nat) :
    bitFull word n i = true ↔ ∀ k, i ≤ k → k < i + n → word k = 0#32 := by
  induction n generalizing i with
  | zero => exact iff_of_true rfl fun k hle hlt => absurd hlt (Nat.not_lt.mpr hle)
  | succ n ih =>
    rw [bitFull]
    by_cases hword : word i = 0#32
    · rw [if_neg (not_not.mpr hword), ih]
      constructor
      · intro h k hle hlt
        by_cases hnext : i + 1 ≤ k
        · exact h k hnext (by omega)
        · obtain rfl : k = i := by omega
          exact hword
      · exact fun h k hle hlt => h k (by omega) (by omega)
    · rw [if_pos hword]
      exact iff_of_false (by decide) fun h => hword (h i (Nat.le_refl i) (by omega))

/-! ### What each of the words shows

A byte is promoted to `int` before it is complemented, so that the complement of `0xff` is not zero but
has 24 ones above the byte. This is where the searches for zeros go wrong. -/

section Words

variable (b : Bytes)

theorem promote_narrow (i k : Nat) (hk : 8 ≤ k) : (promote (b i)).getLsbD k = false := by
  rw [promote_getLsbD]
  exact BitVec.getLsbD_of_ge _ _ hk

theorem maxUint8_getLsbD (k : Nat) : (0xff : BitVec 32).getLsbD k = decide (k < 8) := by
  have hbits : ∀ k, k < 32 → (0xff : BitVec 32).getLsbD k = decide (k < 8) := by decide
  by_cases hk : k < 32
  · exact hbits k hk
  · rw [BitVec.getLsbD_of_ge _ _ (Nat.not_lt.mp hk)]
    exact (decide_eq_false (by omega)).symm

theorem flipped_getLsbD (i k : Nat) :
    (promote (b i) ^^^ 0xff).getLsbD k = ((b i).getLsbD k ^^ decide (k < 8)) := by
  rw [BitVec.getLsbD_xor, promote_getLsbD, maxUint8_getLsbD]

theorem flipped_narrow (i k : Nat) (hk : 8 ≤ k) : (promote (b i) ^^^ 0xff).getLsbD k = false := by
  rw [flipped_getLsbD, BitVec.getLsbD_of_ge _ _ hk, decide_eq_false (Nat.not_lt.mpr hk)]
  rfl

theorem wordBit_promote (p : Nat) : wordBit (fun i => promote (b i)) p = true ↔ bitGet b p = 1 := by
  rw [bitGet_eq_one, wordBit, promote_getLsbD]

theorem wordBit_flipped (p : Nat) :
    wordBit (fun i => promote (b i) ^^^ 0xff) p = true ↔ bitGet b p = 0 := by
  rw [bitGet_eq_zero, wordBit, flipped_getLsbD, decide_eq_true (Nat.mod_lt p (by decide : 0 < 8)),
    Bool.xor_true, Bool.not_eq_true']

theorem bitGet_ne_zero {b : Bytes} {p : Nat} : bitGet b p ≠ 0 ↔ bitGet b p = 1 := by
  rw [bitGet_eq]
  split <;> decide

theorem not_promote_ne_zero (x : BitVec 8) : ~~~promote x ≠ 0#32 := by
  intro h
  have hbit : (~~~promote x).getLsbD 31 = true := by
    rw [BitVec.getLsbD_not, promote_getLsbD, BitVec.getLsbD_of_ge _ _ (by decide)]
    rfl
  rw [h] at hbit
  cases hbit

theorem bitFull1_eq_false {n : Nat} (hn : 1 ≤ n) : bitFull1 b n = false := by
  rw [Bool.eq_false_iff, bitFull1, Ne, bitFull_eq_true]
  exact fun h => not_promote_ne_zero (b 0) (h 0 (Nat.le_refl 0) (by omega))

theorem bitFull0_eq_true (n : Nat) : bitFull0 b n = true ↔ ∀ p, p < 8 * n → bitGet b p = 0 := by
  rw [bitFull0, bitFull_eq_true]
  have hwords : (∀ i, i < n → promote (b i) = 0#32) ↔
      ∀ p, p < 8 * n → wordBit (fun i => promote (b i)) p = false := words_eq_zero (promote_narrow b)
  constructor
  · intro h p hp
    have hzero := hwords.mp (fun i hi => h i (Nat.zero_le i) (by omega)) p hp
    rw [← not_not (a := bitGet b p = 0), ← Ne, bitGet_ne_zero, ← wordBit_promote, hzero]
    exact Bool.false_ne_true
  · intro h i _ hi
    refine hwords.mpr (fun p hp => ?_) i (by omega)
    rw [Bool.eq_false_iff, Ne, wordBit_promote, ← bitGet_ne_zero]
    exact not_not.mpr (h p hp)

theorem bitGet_all_iff (n : Nat) : (∀ p, p < 8 * n → bitGet b p = 1) ↔ ∀ i, i < n → b i = 255 := by
  have hones : ∀ k, k < 8 → (255 : BitVec 8).getLsbD k = true := by decide
  constructor
  · intro h i hi
    apply BitVec.eq_of_getLsbD_eq
    intro k hk
    have hbit := bitGet_eq_one.mp (h (8 * i + k) (by omega))
    rw [Nat.mul_add_div (by decide), Nat.div_eq_of_lt hk, Nat.mul_add_mod, Nat.mod_eq_of_lt hk,
      Nat.add_zero] at hbit
    rw [hbit, hones k hk]
  · intro h p hp
    rw [bitGet_eq_one, h (p / 8) (by omega)]
    exact hones (p % 8) (Nat.mod_lt _ (by decide))

end Words

/-! ### bit_set -/

section Set

variable {b : Bytes} {p q : Nat} {v : BitVec 32}

theorem mask_getLsbD {r k : Nat} (hr : r < 8) (hk : k < 8) :
    (1#32 <<< r).getLsbD k = decide (k = r) := by
  have hbits : ∀ r, r < 8 → ∀ k, k < 8 → (1#32 <<< r).getLsbD k = decide (k = r) := by decide
  exact hbits r hr k hk

theorem bitSet_getLsbD (hv : v = 0 ∨ v = 1) {i k : Nat} (hk : k < 8) :
    (bitSet b p v i).getLsbD k =
      if i = p / 8 ∧ k = p % 8 then decide (v = 1) else (b i).getLsbD k := by
  have hbyte : p >>> 3 = p / 8 := Nat.shiftRight_eq_div_pow p 3
  have hmod : p % 8 < 8 := Nat.mod_lt _ (by decide)
  unfold bitSet
  rw [hbyte]
  by_cases hi : i = p / 8
  · subst hi
    rcases hv with rfl | rfl
    · rw [if_neg (by decide), if_pos rfl, Bytes.put8_self, BitVec.getLsbD_setWidth,
        decide_eq_true hk, Bool.true_and, BitVec.getLsbD_and, promote_getLsbD, BitVec.getLsbD_not,
        mask_getLsbD hmod hk]
      by_cases hkp : k = p % 8
      · simp [hkp]
      · simp [hkp]
        omega
    · rw [if_pos rfl, Bytes.put8_self, BitVec.getLsbD_setWidth, decide_eq_true hk, Bool.true_and,
        BitVec.getLsbD_or, promote_getLsbD, mask_getLsbD hmod hk]
      by_cases hkp : k = p % 8
      · simp [hkp]
      · simp [hkp]
  · have hno : ¬ (i = p / 8 ∧ k = p % 8) := fun h => hi h.1
    rw [if_neg hno]
    split_ifs
    · rw [Bytes.put8_of_ne _ _ _ _ hi]
    · rw [Bytes.put8_of_ne _ _ _ _ hi]
    · rfl

theorem bitGet_bitSet_self (hv : v = 0 ∨ v = 1) : bitGet (bitSet b p v) p = v := by
  have hbit := bitSet_getLsbD (b := b) (p := p) hv (i := p / 8) (k := p % 8) (Nat.mod_lt _ (by decide))
  rw [if_pos ⟨rfl, rfl⟩] at hbit
  rw [bitGet_eq, hbit]
  rcases hv with rfl | rfl
  · rfl
  · rfl

theorem bitGet_bitSet_of_ne (hv : v = 0 ∨ v = 1) (hne : q ≠ p) :
    bitGet (bitSet b p v) q = bitGet b q := by
  have hbit := bitSet_getLsbD (b := b) (p := p) hv (i := q / 8) (k := q % 8) (Nat.mod_lt _ (by decide))
  rw [if_neg (by omega)] at hbit
  rw [bitGet_eq, bitGet_eq, hbit]

end Set

/-! ### The helpers together -/

theorem bitFind0_eq_none (b : Bytes) (n : Nat) :
    bitFind0 b n = some (-1) ↔ ∀ p, p < 8 * n → bitGet b p = 1 := by
  rw [bitFind0, bitFind_eq_none (flipped_narrow b)]
  simp only [Bool.eq_false_iff, Ne, wordBit_flipped]
  exact forall₂_congr fun p _ => bitGet_ne_zero

theorem bitFind1_eq_none (b : Bytes) (n : Nat) :
    bitFind1 b n = some (-1) ↔ ∀ p, p < 8 * n → bitGet b p = 0 := by
  rw [bitFind1, bitFind_eq_none (promote_narrow b)]
  simp only [Bool.eq_false_iff, Ne, wordBit_promote, ← bitGet_ne_zero, not_not]

theorem bitFind0_least {b : Bytes} {n p : Nat} (h : bitFind0 b n = some (p : Int)) :
    p < 8 * n ∧ bitGet b p = 0 ∧ ∀ q, q < p → bitGet b q ≠ 0 := by
  obtain ⟨hp, hbit, hlow⟩ := bitFind_least (flipped_narrow b) h
  refine ⟨hp, (wordBit_flipped b p).mp hbit, fun q hq hzero => ?_⟩
  have hset := (wordBit_flipped b q).mpr hzero
  rw [hlow q hq] at hset
  cases hset

theorem bitFind1_least {b : Bytes} {n p : Nat} (h : bitFind1 b n = some (p : Int)) :
    p < 8 * n ∧ bitGet b p = 1 ∧ ∀ q, q < p → bitGet b q ≠ 1 := by
  obtain ⟨hp, hbit, hlow⟩ := bitFind_least (promote_narrow b) h
  refine ⟨hp, (wordBit_promote b p).mp hbit, fun q hq hone => ?_⟩
  have hset := (wordBit_promote b q).mpr hone
  rw [hlow q hq] at hset
  cases hset

/-- The helpers agree about an array that is not empty exactly if it has a byte other than 255. -/
theorem bitmap_agrees_iff (b : Bytes) (n : Nat) (hn : 1 ≤ n) :
    BitmapAgrees b n ↔ ∃ i, i < n ∧ b i ≠ 255 := by
  have hfull := bitFull1_eq_false b hn
  have hbytes : ¬ (∃ i, i < n ∧ b i ≠ 255) ↔ bitFind0 b n = some (-1) := by
    rw [bitFind0_eq_none, bitGet_all_iff]
    simp only [not_exists, not_and, Ne, not_not]
  constructor
  · intro h
    by_contra hno
    have hfound := h.full1.mpr (hbytes.mp hno)
    rw [hfull] at hfound
    cases hfound
  · intro hsome
    refine ⟨?_, bitFind0_eq_none b n, ?_, bitFind1_eq_none b n, fun p => bitFind0_least,
      fun p => bitFind1_least, fun p v => bitGet_bitSet_self, fun p q v => bitGet_bitSet_of_ne⟩
    · rw [hfull]
      exact iff_of_false Bool.false_ne_true fun hfind => hbytes.mpr hfind hsome
    · rw [bitFull0_eq_true, bitFind1_eq_none]

def mixedBytes : Bytes := fun i => if i = 0 then 255 else if i = 1 then 0x5a else 0

theorem bitmap_agrees_iff_mixed : BitmapAgrees mixedBytes 3 :=
  (bitmap_agrees_iff mixedBytes 3 (by decide)).mpr ⟨1, by decide, by decide⟩

/-- One byte of ones: `bit_find0` finds no zero, and `bit_full1` says that the byte is not full. -/
theorem full_byte_not_full : bitFull1 (fun _ => 255) 1 = false ∧ bitFind0 (fun _ => 255) 1 = some (-1) ∧
    ¬ BitmapAgrees (fun _ => 255) 1 := by
  have hfind : bitFind0 (fun _ => 255) 1 = some (-1) := by decide
  refine ⟨by decide, hfind, fun h => ?_⟩
  have hfull := h.full1.mpr hfind
  rw [bitFull1_eq_false _ (Nat.le_refl 1)] at hfull
  cases hfull

end ZBTree
