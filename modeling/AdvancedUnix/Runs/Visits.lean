import Mathlib.Init

/-!
# What a loop over a list looks at

A loop goes over a list from some position on and is left at the first element that meets
its exit condition. `visits` are the positions that it looks at. What a loop computes is
determined by the elements there: `SameVisited` lists differ only behind the exit, and two
lists of one length that agree at the visited positions are such lists.
-/

namespace Runs

universe u

variable {α : Type u} (exit : Nat → α → Bool)

/-- The positions that a loop looks at, the first of them being `i`. -/
def visits : Nat → List α → List Nat
  | _, [] => []
  | i, x :: xs => i :: if exit i x then [] else visits (i + 1) xs

/-- Lists that are the same as far as the loop goes. -/
def SameVisited : Nat → List α → List α → Prop
  | _, [], ys => ys = []
  | i, x :: xs, ys => ∃ rest, ys = x :: rest ∧ (exit i x = false → SameVisited (i + 1) xs rest)

variable {exit}

theorem le_of_mem_visits {i j : Nat} {xs : List α} (h : j ∈ visits exit i xs) :
    i ≤ j ∧ j < i + xs.length := by
  induction xs generalizing i with
  | nil => cases h
  | cons x xs ih =>
      rw [visits, List.mem_cons] at h
      rw [List.length_cons]
      obtain rfl | later := h
      · omega
      · split at later
        · cases later
        · have bounds := ih later
          omega

/-- A position is looked at when the loop is left at none before it. -/
theorem mem_visits_iff {i j : Nat} {xs : List α} :
    j ∈ visits exit i xs ↔ i ≤ j ∧ j < i + xs.length ∧
      ∀ k x, i ≤ k → k < j → xs[k - i]? = some x → exit k x = false := by
  induction xs generalizing i with
  | nil => exact iff_of_false List.not_mem_nil fun h => by simp at h; omega
  | cons x xs ih =>
      have next : ∀ k, i < k → (x :: xs)[k - i]? = xs[k - (i + 1)]? := by
        intro k hk
        have shift : k - i = k - (i + 1) + 1 := by omega
        rw [shift, List.getElem?_cons_succ]
      rw [visits, List.mem_cons, List.length_cons]
      by_cases here : j = i
      · exact iff_of_true (.inl here) ⟨by omega, by omega, fun k _ low high => by omega⟩
      · rw [or_iff_right here]
        constructor
        · intro later
          split at later
          · cases later
          · rename_i go
            obtain ⟨low, high, before⟩ := ih.mp later
            refine ⟨by omega, by omega, fun k y from_ below at_ => ?_⟩
            by_cases first : k = i
            · subst first
              rw [Nat.sub_self] at at_
              obtain rfl := Option.some.inj at_
              exact Bool.eq_false_iff.mpr go
            · rw [next k (by omega)] at at_
              exact before k y (by omega) below at_
        · rintro ⟨low, high, before⟩
          have go := before i x (Nat.le_refl i) (by omega) (by rw [Nat.sub_self]; rfl)
          rw [if_neg (Bool.eq_false_iff.mp go)]
          refine ih.mpr ⟨by omega, by omega, fun k y from_ below at_ => ?_⟩
          rw [← next k (by omega)] at at_
          exact before k y (by omega) below at_

theorem sameVisited_of_agree {i : Nat} {xs ys : List α} (length : ys.length = xs.length)
    (agree : ∀ j ∈ visits exit i xs, ys[j - i]? = xs[j - i]?) : SameVisited exit i xs ys := by
  induction xs generalizing i ys with
  | nil => exact List.length_eq_zero_iff.mp length
  | cons x xs ih =>
      cases ys with
      | nil => cases length
      | cons y ys =>
          have first := agree i List.mem_cons_self
          rw [Nat.sub_self] at first
          obtain rfl := Option.some.inj first
          refine ⟨ys, rfl, fun go => ih (Nat.succ.inj length) fun j hj => ?_⟩
          have later := agree j (by
            rw [visits, if_neg (Bool.eq_false_iff.mp go)]
            exact List.mem_cons_of_mem _ hj)
          obtain ⟨d, rfl⟩ : ∃ d, j = i + 1 + d := ⟨j - (i + 1), by
            have := (le_of_mem_visits hj).1
            omega⟩
          have here : i + 1 + d - i = d + 1 := by omega
          have rest : i + 1 + d - (i + 1) = d := by omega
          rw [here, List.getElem?_cons_succ, List.getElem?_cons_succ] at later
          rwa [rest]

end Runs
