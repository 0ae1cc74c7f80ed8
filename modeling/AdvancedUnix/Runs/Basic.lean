import Mathlib.Init

/-!
# Runs of a labelled step function

A run is the list of labels it takes. `AllSteps guard` says that each step of
the run meets a condition on the state it is taken from; an invariant that
every step meeting the condition preserves then holds in the state the run
ends in, and so in every state it passes through.
-/

namespace Runs

universe u v w

variable {S : Type u} {L : Type v} (step : S → L → S) (guard : S → L → Prop)

/-- The state that a run ends in. -/
def run : S → List L → S
  | s, [] => s
  | s, l :: ls => run (step s l) ls

/-- Each step of the run meets the condition in the state it is taken from. -/
def AllSteps : S → List L → Prop
  | _, [] => True
  | s, l :: ls => guard s l ∧ AllSteps (step s l) ls

@[simp] theorem run_nil (s : S) : run step s ([] : List L) = s := rfl

@[simp] theorem run_cons (s : S) (l : L) (ls : List L) :
    run step s (l :: ls) = run step (step s l) ls := rfl

theorem run_append (s : S) (ls ms : List L) :
    run step s (ls ++ ms) = run step (run step s ls) ms := by
  induction ls generalizing s with
  | nil => rfl
  | cons l ls ih => exact ih (step s l)

@[simp] theorem allSteps_nil (s : S) : AllSteps step guard s ([] : List L) := trivial

@[simp] theorem allSteps_cons {s : S} {l : L} {ls : List L} :
    AllSteps step guard s (l :: ls) ↔ guard s l ∧ AllSteps step guard (step s l) ls := Iff.rfl

variable {step guard}

theorem allSteps_append {s : S} {ls ms : List L} :
    AllSteps step guard s (ls ++ ms) ↔
      AllSteps step guard s ls ∧ AllSteps step guard (run step s ls) ms := by
  induction ls generalizing s with
  | nil => exact (and_iff_right trivial).symm
  | cons l ls ih => exact (and_congr_right fun _ => ih).trans and_assoc.symm

/-- An invariant preserved by every step that meets the condition holds at the
end of every run whose steps meet it. -/
theorem invariant (inv : S → Prop)
    (preserved : ∀ s l, inv s → guard s l → inv (step s l)) {s : S} {ls : List L}
    (start : inv s) (steps : AllSteps step guard s ls) : inv (run step s ls) := by
  induction ls generalizing s with
  | nil => exact start
  | cons l ls ih => exact ih (preserved s l start steps.1) steps.2

/-- An invariant that every step preserves holds at the end of every run. -/
theorem always (inv : S → Prop) (preserved : ∀ s l, inv s → inv (step s l)) {s : S}
    (ls : List L) (start : inv s) : inv (run step s ls) := by
  induction ls generalizing s with
  | nil => exact start
  | cons l ls ih => exact ih (preserved s l start)

/-- A condition on the labels alone can be checked beforehand. -/
theorem AllSteps.and_labels {Q : L → Prop} {s : S} {ls : List L}
    (h : AllSteps step guard s ls) (labels : ∀ l ∈ ls, Q l) :
    AllSteps step (fun s l => Q l ∧ guard s l) s ls := by
  induction ls generalizing s with
  | nil => trivial
  | cons l ls ih =>
      refine ⟨⟨labels l List.mem_cons_self, h.1⟩, ih h.2 fun m hm => ?_⟩
      exact labels m (List.mem_cons_of_mem _ hm)

/-- A condition that follows from an invariant holds at every step of a run. -/
theorem allSteps_of_invariant {Q : L → Prop} (inv : S → Prop)
    (preserved : ∀ s l, inv s → Q l → inv (step s l)) (holds : ∀ s l, inv s → Q l → guard s l)
    {s : S} {ls : List L} (start : inv s) (labels : ∀ l ∈ ls, Q l) :
    AllSteps step guard s ls := by
  induction ls generalizing s with
  | nil => trivial
  | cons l ls ih =>
      have first := labels l List.mem_cons_self
      refine ⟨holds s l start first, ih (preserved s l start first) ?_⟩
      intro m hm
      exact labels m (List.mem_cons_of_mem _ hm)

theorem AllSteps.mono {guard' : S → L → Prop} (imp : ∀ s l, guard s l → guard' s l)
    {s : S} {ls : List L} (h : AllSteps step guard s ls) : AllSteps step guard' s ls := by
  induction ls generalizing s with
  | nil => trivial
  | cons l ls ih => exact ⟨imp s l h.1, ih h.2⟩

theorem allSteps_congr {guard' : S → L → Prop} (same : ∀ s l, guard s l ↔ guard' s l)
    (s : S) (ls : List L) : AllSteps step guard s ls ↔ AllSteps step guard' s ls :=
  ⟨AllSteps.mono fun s l => (same s l).mp, AllSteps.mono fun s l => (same s l).mpr⟩

/-- Two conditions that agree where an invariant holds are the same for a run. -/
theorem allSteps_congr_of_invariant {guard' : S → L → Prop} {Q : L → Prop} (inv : S → Prop)
    (preserved : ∀ s l, inv s → Q l → inv (step s l))
    (same : ∀ s l, inv s → Q l → (guard s l ↔ guard' s l)) {s : S} {ls : List L}
    (start : inv s) (labels : ∀ l ∈ ls, Q l) :
    AllSteps step guard s ls ↔ AllSteps step guard' s ls := by
  induction ls generalizing s with
  | nil => exact Iff.rfl
  | cons l ls ih =>
      have first := labels l List.mem_cons_self
      apply and_congr (same s l start first)
      apply ih (preserved s l start first)
      intro m hm
      exact labels m (List.mem_cons_of_mem _ hm)

end Runs
