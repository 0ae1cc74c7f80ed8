import Mathlib.Data.List.Basic

/-!
# A partial operation on selected elements

A listing goes over a list, leaves out the elements that a test rejects and applies an
operation that may fail to the others. If the test accepts no more than it should, the
result is the intended one exactly when no element is left out by mistake and the
operation gives what it should on each of the others.
-/

namespace Listing

universe u v

variable {α : Type u} {β : Type v} {f : α → Option β} {g : α → β} {p q : α → Bool} {l : List α}

theorem mapM_eq_some_map_iff : l.mapM f = some (l.map g) ↔ ∀ a ∈ l, f a = some (g a) := by
  induction l with
  | nil => exact iff_of_true rfl fun a h => absurd h List.not_mem_nil
  | cons a l ih =>
      rw [List.mapM_cons, List.map_cons, List.forall_mem_cons, ← ih]
      cases f a with
      | none => exact iff_of_false (fun h => by cases h) fun h => by cases h.1
      | some b =>
          cases l.mapM f with
          | none => exact iff_of_false (fun h => by cases h) fun h => by cases h.2
          | some bs =>
              simp only [Option.bind_eq_bind, Option.bind_some, Option.pure_def, Option.some.injEq,
                List.cons.injEq]

theorem length_of_mapM {bs : List β} (h : l.mapM f = some bs) : bs.length = l.length := by
  induction l generalizing bs with
  | nil =>
      cases h
      rfl
  | cons a l ih =>
      rw [List.mapM_cons] at h
      cases hb : f a with
      | none =>
          rw [hb] at h
          cases h
      | some b =>
          cases hbs : l.mapM f with
          | none =>
              rw [hb, hbs] at h
              cases h
          | some cs =>
              rw [hb, hbs] at h
              cases h
              exact congrArg Nat.succ (ih hbs)

/-- A test that accepts less keeps as many elements only if it accepts the same. -/
theorem accepts_of_length (le : ∀ a, p a → q a)
    (h : (l.filter p).length = (l.filter q).length) : ∀ a ∈ l, q a → p a := by
  induction l with
  | nil => exact fun a mem => absurd mem List.not_mem_nil
  | cons a l ih =>
      have fewer : (l.filter p).length ≤ (l.filter q).length := by
        rw [← List.countP_eq_length_filter, ← List.countP_eq_length_filter]
        exact List.countP_mono_left fun b _ => le b
      rw [List.forall_mem_cons]
      by_cases hq : q a
      · by_cases hp : p a
        · rw [List.filter_cons_of_pos hp, List.filter_cons_of_pos hq] at h
          exact ⟨fun _ => hp, ih (Nat.succ.inj h)⟩
        · rw [List.filter_cons_of_neg hp, List.filter_cons_of_pos hq, List.length_cons] at h
          omega
      · have hp : ¬ p a := fun hp => hq (le a hp)
        rw [List.filter_cons_of_neg hp, List.filter_cons_of_neg hq] at h
        exact ⟨fun accepts => absurd accepts hq, ih h⟩

/-- The listing is the intended one exactly when it is so at each element. -/
theorem mapM_filter_iff (le : ∀ a, p a → q a) :
    (l.filter p).mapM f = some ((l.filter q).map g) ↔
      ∀ a ∈ l, (q a → p a) ∧ (p a → f a = some (g a)) := by
  constructor
  · intro h
    have length := length_of_mapM h
    rw [List.length_map] at length
    have accepts := accepts_of_length le length.symm
    have same : l.filter p = l.filter q :=
      List.filter_congr fun a mem => Bool.eq_iff_iff.mpr ⟨le a, accepts a mem⟩
    rw [← same, mapM_eq_some_map_iff] at h
    exact fun a mem => ⟨accepts a mem, fun hp => h a (List.mem_filter.mpr ⟨mem, hp⟩)⟩
  · intro h
    have same : l.filter p = l.filter q :=
      List.filter_congr fun a mem => Bool.eq_iff_iff.mpr ⟨le a, (h a mem).1⟩
    rw [← same, mapM_eq_some_map_iff]
    intro a mem
    obtain ⟨mem, hp⟩ := List.mem_filter.mp mem
    exact (h a mem).2 hp

end Listing
