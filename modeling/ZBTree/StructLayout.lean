import Mathlib.Logic.Function.Basic
import Mathlib.Data.BitVec

/-!
# Struct layouts and byte objects

Where the members of a C struct stand by the x86-64 SysV rules, and objects as arrays of
bytes that words are stored in and loaded from, low byte first.
-/

namespace ZBTree

/-! ### Layouts -/

/-- Size and alignment of a member. -/
structure Member where
  size : Nat
  align : Nat
deriving DecidableEq, Repr

def Member.byte : Member := ⟨1, 1⟩
def Member.word : Member := ⟨8, 8⟩

/-- The next multiple of `align`. -/
def alignUp (n align : Nat) : Nat := (n + (align - 1)) / align * align

/-- The members of a struct with their names, in the order of the declaration. -/
abbrev StructDecl (ν : Type) := List (ν × Member)

variable {ν : Type} [DecidableEq ν]

/-- The offset of a member when the members before it end at `pos`. -/
def offsetFrom : Nat → StructDecl ν → ν → Option Nat
  | _, [], _ => none
  | pos, (name, mem) :: rest, x =>
    if name = x then some (alignUp pos mem.align) else offsetFrom (alignUp pos mem.align + mem.size) rest x

/-- `offsetof`. -/
def StructDecl.offset (s : StructDecl ν) (x : ν) : Nat := (offsetFrom 0 s x).getD 0

/-- Where the last member ends. -/
def endFrom : Nat → StructDecl ν → Nat
  | pos, [] => pos
  | pos, (_, mem) :: rest => endFrom (alignUp pos mem.align + mem.size) rest

/-- `sizeof`, for a struct whose alignment is `align`. -/
def StructDecl.sizeof (s : StructDecl ν) (align : Nat) : Nat := alignUp (endFrom 0 s) align

/-! ### Byte objects

An object is a map from offsets to bytes. Members are stored and loaded as little-endian words at the offsets that the
declaration gives them. -/

/-- The bytes of an object and of what lies behind it, by offset. -/
abbrev Bytes := Nat → BitVec 8

namespace Bytes

def put8 (o : Bytes) (i : Nat) (b : BitVec 8) : Bytes := Function.update o i b

def put64 (o : Bytes) (i : Nat) (w : BitVec 64) : Bytes :=
  fun k => if i ≤ k ∧ k < i + 8 then w.extractLsb' (8 * (k - i)) 8 else o k

def put32 (o : Bytes) (i : Nat) (w : BitVec 32) : Bytes :=
  fun k => if i ≤ k ∧ k < i + 4 then w.extractLsb' (8 * (k - i)) 8 else o k

def get64 (o : Bytes) (i : Nat) : BitVec 64 :=
  o (i + 7) ++ o (i + 6) ++ o (i + 5) ++ o (i + 4) ++ o (i + 3) ++ o (i + 2) ++ o (i + 1) ++ o i

def get32 (o : Bytes) (i : Nat) : BitVec 32 := o (i + 3) ++ o (i + 2) ++ o (i + 1) ++ o i

def zero : Bytes := fun _ => 0

/-- `memcpy` of `n` bytes. -/
def copyIn (o : Bytes) (i n : Nat) (source : Bytes) : Bytes :=
  fun k => if i ≤ k ∧ k < i + n then source (k - i) else o k

variable (o o' : Bytes) (i j k : Nat) (b : BitVec 8) (w : BitVec 64) (w₃₂ : BitVec 32)

@[simp] theorem put8_self : o.put8 i b i = b := Function.update_self ..

theorem put8_of_ne (h : k ≠ i) : o.put8 i b k = o k := Function.update_of_ne h ..

theorem put64_of_outside (h : k < i ∨ i + 8 ≤ k) : o.put64 i w k = o k := by
  rw [put64, if_neg]
  omega

theorem get64_congr (h : ∀ k, i ≤ k → k < i + 8 → o k = o' k) : o.get64 i = o'.get64 i := by
  unfold get64
  rw [h i (by omega) (by omega), h (i + 1) (by omega) (by omega), h (i + 2) (by omega) (by omega),
    h (i + 3) (by omega) (by omega), h (i + 4) (by omega) (by omega),
    h (i + 5) (by omega) (by omega), h (i + 6) (by omega) (by omega),
    h (i + 7) (by omega) (by omega)]

theorem get64_put8 (h : j < i ∨ i + 8 ≤ j) : (o.put8 j b).get64 i = o.get64 i := by
  apply get64_congr
  intro k hk hk'
  exact put8_of_ne o j k b (by omega)

theorem get64_put64_of_ne (h : j + 8 ≤ i ∨ i + 8 ≤ j) : (o.put64 j w).get64 i = o.get64 i := by
  apply get64_congr
  intro k hk hk'
  exact put64_of_outside o j k w (by omega)

@[simp] theorem get64_put64_self : (o.put64 i w).get64 i = w := by
  have hbyte : ∀ n, n < 8 → o.put64 i w (i + n) = w.extractLsb' (8 * n) 8 := by
    intro n hn
    rw [put64, if_pos (by omega), Nat.add_sub_cancel_left]
  have hzero : o.put64 i w i = w.extractLsb' 0 8 := hbyte 0 (by omega)
  rw [get64, hbyte 7 (by omega), hbyte 6 (by omega), hbyte 5 (by omega), hbyte 4 (by omega),
    hbyte 3 (by omega), hbyte 2 (by omega), hbyte 1 (by omega), hzero]
  apply BitVec.eq_of_getLsbD_eq
  intro n hn
  simp only [BitVec.getLsbD_append, BitVec.getLsbD_extractLsb']
  grind

/-! Loads at one place of two objects, which may stand at different offsets -/

theorem get32_of_bytes {o o' : Bytes} {i i' : Nat} (h : ∀ d, d < 4 → o (i + d) = o' (i' + d)) :
    o.get32 i = o'.get32 i' := by
  have hzero : o i = o' i' := h 0 (by decide)
  unfold get32
  rw [h 3 (by decide), h 2 (by decide), h 1 (by decide), hzero]

theorem get64_of_bytes {o o' : Bytes} {i i' : Nat} (h : ∀ d, d < 8 → o (i + d) = o' (i' + d)) :
    o.get64 i = o'.get64 i' := by
  have hzero : o i = o' i' := h 0 (by decide)
  unfold get64
  rw [h 7 (by decide), h 6 (by decide), h 5 (by decide), h 4 (by decide), h 3 (by decide),
    h 2 (by decide), h 1 (by decide), hzero]

theorem put32_of_outside (h : k < i ∨ i + 4 ≤ k) : o.put32 i w₃₂ k = o k := by
  rw [put32, if_neg]
  omega

@[simp] theorem get32_put32_self : (o.put32 i w₃₂).get32 i = w₃₂ := by
  have hbyte : ∀ n, n < 4 → o.put32 i w₃₂ (i + n) = w₃₂.extractLsb' (8 * n) 8 := by
    intro n hn
    rw [put32, if_pos (by omega), Nat.add_sub_cancel_left]
  have hzero : o.put32 i w₃₂ i = w₃₂.extractLsb' 0 8 := hbyte 0 (by decide)
  rw [get32, hbyte 3 (by decide), hbyte 2 (by decide), hbyte 1 (by decide), hzero]
  apply BitVec.eq_of_getLsbD_eq
  intro n hn
  simp only [BitVec.getLsbD_append, BitVec.getLsbD_extractLsb']
  grind

theorem get32_put8 (h : j < i ∨ i + 4 ≤ j) : (o.put8 j b).get32 i = o.get32 i := by
  apply get32_of_bytes
  intro d hd
  exact put8_of_ne o j (i + d) b (by omega)

theorem get32_put64_of_ne (h : j + 8 ≤ i ∨ i + 4 ≤ j) : (o.put64 j w).get32 i = o.get32 i := by
  apply get32_of_bytes
  intro d hd
  exact put64_of_outside o j (i + d) w (by omega)

theorem get64_put32_of_ne (h : j + 4 ≤ i ∨ i + 8 ≤ j) : (o.put32 j w₃₂).get64 i = o.get64 i := by
  apply get64_of_bytes
  intro d hd
  exact put32_of_outside o j (i + d) w₃₂ (by omega)

theorem get32_eq_zero : o.get32 i = 0 ↔ ∀ d, d < 4 → o (i + d) = 0 := by
  constructor
  · intro h d hd
    have hbyte : o (i + d) = (o.get32 i).extractLsb' (8 * d) 8 := by
      apply BitVec.eq_of_getLsbD_eq
      intro n hn
      have hd' : d = 0 ∨ d = 1 ∨ d = 2 ∨ d = 3 := by omega
      rcases hd' with rfl | rfl | rfl | rfl <;>
        simp only [get32, BitVec.getLsbD_append, BitVec.getLsbD_extractLsb'] <;> grind
    rw [hbyte, h]
    exact BitVec.extractLsb'_zero
  · intro h
    have hzero : o i = 0 := h 0 (by decide)
    rw [get32, h 3 (by decide), h 2 (by decide), h 1 (by decide), hzero]
    rfl

theorem get64_low : (o.get64 i).extractLsb' 0 32 = o.get32 i := by
  apply BitVec.eq_of_getLsbD_eq
  intro n hn
  simp only [get64, get32, BitVec.getLsbD_append, BitVec.getLsbD_extractLsb']
  grind

theorem get64_put32_zero : (o.put32 i 0).get64 i = o.get64 i ↔ o.get32 i = 0 := by
  constructor
  · intro hsame
    have hlow := congrArg (BitVec.extractLsb' 0 32) hsame
    rwa [get64_low, get64_low, get32_put32_self, eq_comm] at hlow
  · intro hzero
    have hbytes := (get32_eq_zero o i).mp hzero
    apply get64_congr
    intro k hk _
    unfold put32
    split
    · next hin =>
      have hbyte := hbytes (k - i) (by omega)
      rw [Nat.add_sub_cancel' hin.1] at hbyte
      rw [hbyte]
      simp
    · rfl

theorem copyIn_of_outside (n : Nat) (source : Bytes) (h : k < i ∨ i + n ≤ k) :
    o.copyIn i n source k = o k := by
  rw [copyIn, if_neg]
  omega

theorem copyIn_none (source : Bytes) : o.copyIn i 0 source = o := by
  funext k
  exact copyIn_of_outside o i k 0 source (Nat.lt_or_ge k i)

end Bytes

end ZBTree
