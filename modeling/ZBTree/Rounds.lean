import Mathlib.Data.List.Basic

/-!
# Processes that take turns

A process whose turn it is moves on, or waits for another and leaves the state as it is. When each
move brings the state nearer to the end, and a process that is not done never waits for processes
that wait themselves, then rounds in which every process has a turn come to an end, in whatever order
the turns are taken.
-/

namespace ZBTree.Rounds

variable {σ τ : Type*}

/-- The states after the turns of a list. -/
def Run (step : τ → σ → σ → Prop) : List τ → σ → σ → Prop
  | [], s, s' => s' = s
  | t :: ts, s, s' => ∃ s₁, step t s s₁ ∧ Run step ts s₁ s'

/-- `inv n` holds of the states that are at most `n` moves from the end, and `busy s t` says that the
process `t` is not done. -/
structure Turns (step : τ → σ → σ → Prop) (inv : Nat → σ → Prop) (busy : σ → τ → Prop) : Prop where
  /-- A process that is done does nothing. -/
  idle : ∀ {t s s'}, ¬ busy s t → step t s s' → s' = s
  /-- A turn is a move or it is spent waiting. -/
  moves : ∀ {n t s s'}, inv n s → step t s s' → s' = s ∨ ∃ m, m < n ∧ inv m s'
  /-- Not all processes wait. -/
  able : ∀ {n t s}, inv n s → busy s t → ∃ t', busy s t' ∧ ∀ s', step t' s s' → ∃ m, m < n ∧ inv m s'

variable {step : τ → σ → σ → Prop} {inv : Nat → σ → Prop} {busy : σ → τ → Prop} {n : Nat} {s s' : σ} {t : τ}

theorem run_append {ts us : List τ} (h : Run step (ts ++ us) s s') : ∃ s₁, Run step ts s s₁ ∧ Run step us s₁ s' := by
  induction ts generalizing s with
  | nil => exact ⟨s, rfl, h⟩
  | cons t ts ih =>
    obtain ⟨s₁, hstep, h⟩ := h
    obtain ⟨s₂, hrun, hrest⟩ := ih h
    exact ⟨s₂, ⟨s₁, hstep, hrun⟩, hrest⟩

namespace Turns

variable (h : Turns step inv busy)

include h

theorem run_le {ts : List τ} (hinv : inv n s) (hrun : Run step ts s s') : ∃ m, m ≤ n ∧ inv m s' := by
  induction ts generalizing s n with
  | nil =>
    obtain rfl : s' = s := hrun
    exact ⟨n, Nat.le_refl n, hinv⟩
  | cons t ts ih =>
    obtain ⟨s₁, hstep, hrun⟩ := hrun
    rcases h.moves hinv hstep with rfl | ⟨m, hlt, hinv₁⟩
    · exact ih hinv hrun
    · obtain ⟨m', hle, hinv'⟩ := ih hinv₁ hrun
      exact ⟨m', Nat.le_of_lt (Nat.lt_of_le_of_lt hle hlt), hinv'⟩

/-- A round with a turn for a process that does not wait, by induction on the turns before its own. -/
theorem run_lt {ts : List τ} (hinv : inv n s) (hrun : Run step ts s s') (hmem : t ∈ ts)
    (hable : ∀ s₁, step t s s₁ → ∃ m, m < n ∧ inv m s₁) : ∃ m, m < n ∧ inv m s' := by
  induction ts with
  | nil => exact absurd hmem (List.not_mem_nil)
  | cons t' ts ih =>
    obtain ⟨s₁, hstep, hrun⟩ := hrun
    have hmoved : (∃ m, m < n ∧ inv m s₁) → ∃ m, m < n ∧ inv m s' := by
      rintro ⟨m, hlt, hinv₁⟩
      obtain ⟨m', hle, hinv'⟩ := h.run_le hinv₁ hrun
      exact ⟨m', Nat.lt_of_le_of_lt hle hlt, hinv'⟩
    rcases List.mem_cons.mp hmem with rfl | hmem
    · exact hmoved (hable s₁ hstep)
    · rcases h.moves hinv hstep with rfl | hless
      · exact ih hrun hmem
      · exact hmoved hless

theorem run_done {ts : List τ} (hdone : ∀ t, ¬ busy s t) (hrun : Run step ts s s') : s' = s := by
  induction ts generalizing s with
  | nil => exact hrun
  | cons t ts ih =>
    obtain ⟨s₁, hstep, hrun⟩ := hrun
    obtain rfl := h.idle (hdone t) hstep
    exact ih hdone hrun

theorem done (rounds : List (List τ)) (hinv : inv n s) (hmany : n < rounds.length)
    (hall : ∀ n s t, inv n s → busy s t → ∀ r ∈ rounds, t ∈ r) (hrun : Run step rounds.flatten s s') :
    ∀ t, ¬ busy s' t := by
  induction rounds generalizing s n with
  | nil => exact absurd hmany (Nat.not_lt_zero n)
  | cons r rounds ih =>
    by_cases hbusy : ∃ t, busy s t
    · obtain ⟨t, ht⟩ := hbusy
      obtain ⟨t', ht', hable⟩ := h.able hinv ht
      obtain ⟨s₁, hround, hrest⟩ := run_append hrun
      obtain ⟨m, hlt, hinv₁⟩ := h.run_lt hinv hround (hall n s t' hinv ht' r List.mem_cons_self) hable
      exact ih hinv₁ (by rw [List.length_cons] at hmany; omega)
        (fun n s t hs ht r' hr' => hall n s t hs ht r' (List.mem_cons_of_mem _ hr')) hrest
    · have hdone : ∀ t, ¬ busy s t := fun t ht => hbusy ⟨t, ht⟩
      rw [h.run_done hdone hrun]
      exact hdone

end Turns

end ZBTree.Rounds
