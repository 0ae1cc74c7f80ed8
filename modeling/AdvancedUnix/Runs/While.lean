import Mathlib.Init

/-!
# While loops

A loop is a condition and a body, and it is run with a bound on its rounds. A loop with
an invariant that counts its rounds ends after as many of them as the invariant says; a
loop whose condition follows from an invariant never ends.
-/

namespace Runs

universe u

variable {S : Type u} (cond : S → Bool) (body : S → S)

/-- The state in which a loop ends, if it takes at most so many rounds. -/
def loop : Nat → S → Option S
  | 0, s => if cond s then none else some s
  | n + 1, s => if cond s then loop n (body s) else some s

variable {cond body}

theorem loop_done {s : S} (done : cond s = false) (n : Nat) : loop cond body n s = some s := by
  cases n <;> exact if_neg (Bool.eq_false_iff.mp done)

theorem loop_round {s : S} (more : cond s = true) (n : Nat) :
    loop cond body (n + 1) s = loop cond body n (body s) :=
  if_pos more

/-- A loop with an invariant for each number of rounds ends after the last of them. -/
theorem loop_counted (inv : Nat → S → Prop) {n : Nat}
    (round : ∀ j s, j < n → inv j s → cond s = true ∧ inv (j + 1) (body s))
    (done : ∀ s, inv n s → cond s = false) {j : Nat} {s : S} (start : inv j s) (le : j ≤ n) :
    ∃ t, loop cond body (n - j) s = some t ∧ inv n t := by
  generalize left : n - j = d
  induction d generalizing j s with
  | zero =>
      have last : j = n := by omega
      subst last
      exact ⟨s, loop_done (done s start) 0, start⟩
  | succ d ih =>
      obtain ⟨more, next⟩ := round j s (by omega) start
      rw [loop_round more]
      exact ih next (by omega) (by omega)

/-- A loop whose condition follows from an invariant takes more rounds than any bound. -/
theorem loop_none (inv : S → Prop) (round : ∀ s, inv s → cond s = true ∧ inv (body s)) {s : S}
    (start : inv s) (n : Nat) : loop cond body n s = none := by
  induction n generalizing s with
  | zero => exact if_pos (round s start).1
  | succ n ih =>
      rw [loop_round (round s start).1]
      exact ih (round s start).2

end Runs
