import AdvancedUnix.Runs.Basic
import Mathlib.Data.Set.Image
import Mathlib.Tactic.Tauto

/-!
# Acquiring and releasing

A program acquires resources and gives them back. Its moves are sound if it never acquires
what it holds already and never releases what it does not hold: nothing is released twice.
`Takes` says that moves are sound and what is held behind them.
-/

namespace Resources

open Runs

universe u v

variable {α : Type u} {β : Type v}

inductive Move (α : Type u) where
  | acquire (a : α)
  | release (a : α)

namespace Move

/-- What is held after a move. -/
def step (held : Set α) : Move α → Set α
  | acquire a => insert a held
  | release a => held \ {a}

def Sound (held : Set α) : Move α → Prop
  | acquire a => a ∉ held
  | release a => a ∈ held

def map (f : α → β) : Move α → Move β
  | acquire a => acquire (f a)
  | release a => release (f a)

end Move

/-- Sound moves from what is held in front of them to what is held behind them. -/
structure Takes (s : Set α) (ms : List (Move α)) (t : Set α) : Prop where
  sound : AllSteps Move.step Move.Sound s ms
  held : run Move.step s ms = t

/-- The resources that are acquired by moves. -/
def acquired (ms : List (Move α)) : Set α := {a | .acquire a ∈ ms}

variable {s t u : Set α} {ms ns : List (Move α)} {a : α}

theorem acquired_append (ms ns : List (Move α)) :
    acquired (ms ++ ns) = acquired ms ∪ acquired ns := by
  ext a
  exact List.mem_append

namespace Takes

theorem nil (s : Set α) : Takes s [] s := ⟨trivial, rfl⟩

theorem append (h : Takes s ms t) (g : Takes t ns u) : Takes s (ms ++ ns) u where
  sound := allSteps_append.mpr ⟨h.sound, by rw [h.held]; exact g.sound⟩
  held := by rw [run_append, h.held, g.held]

theorem acquire (new : a ∉ s) : Takes s [.acquire a] (insert a s) := ⟨⟨new, trivial⟩, rfl⟩

theorem release (old : a ∈ s) : Takes s [.release a] (s \ {a}) := ⟨⟨old, trivial⟩, rfl⟩

theorem cons_acquire (new : a ∉ s) (h : Takes (insert a s) ms t) :
    Takes s (.acquire a :: ms) t := (acquire new).append h

theorem cons_release (old : a ∈ s) (h : Takes (s \ {a}) ms t) :
    Takes s (.release a :: ms) t := (release old).append h

theorem congr (h : Takes s ms t) (same : t = u) : Takes s ms u := same ▸ h

/-- What was acquired last is released. -/
theorem cancel (new : a ∉ s) : Takes s [.acquire a, .release a] s := by
  refine cons_acquire new (.congr (release (Set.mem_insert a s)) ?_)
  rw [Set.insert_sdiff_self_of_notMem new]

/-- Different resources that are held are released one after the other. -/
theorem releases {as : List α} (held : ∀ a ∈ as, a ∈ s) (different : as.Nodup) :
    Takes s (as.map .release) {a | a ∈ s ∧ a ∉ as} := by
  induction as generalizing s with
  | nil => exact (nil s).congr (by simp)
  | cons a as ih =>
      obtain ⟨apart, different⟩ := List.nodup_cons.mp different
      have later : ∀ b ∈ as, b ∈ s \ {a} := by
        intro b mem
        refine ⟨held b (List.mem_cons_of_mem a mem), ?_⟩
        rintro rfl
        exact apart mem
      refine cons_release (held a List.mem_cons_self) ((ih later different).congr ?_)
      ext b
      simp only [Set.mem_ofPred_eq, Set.mem_sdiff, Set.mem_singleton_iff, List.mem_cons]
      tauto

/-- Moves under other names, next to resources that they have nothing to do with. -/
theorem frame (h : Takes s ms t) {f : α → β} (injective : Function.Injective f) {r : Set β}
    (apart : ∀ a, f a ∉ r) : Takes (r ∪ f '' s) (ms.map (Move.map f)) (r ∪ f '' t) := by
  induction ms generalizing s with
  | nil =>
      obtain ⟨-, rfl⟩ := h
      exact nil _
  | cons m ms ih =>
      obtain ⟨⟨first, sound⟩, held⟩ := h
      have rest := ih ⟨sound, held⟩
      have inside : ∀ a, f a ∈ r ∪ f '' s ↔ a ∈ s := by
        intro a
        rw [Set.mem_union, or_iff_right (apart a), injective.mem_set_image]
      cases m with
      | acquire a =>
          rw [Move.step, Set.image_insert_eq, Set.union_insert] at rest
          exact cons_acquire (mt (inside a).mp first) rest
      | release a =>
          have alone : r \ {f a} = r := Set.sdiff_singleton_eq_self (apart a)
          rw [Move.step, Set.image_sdiff injective, Set.image_singleton] at rest
          refine cons_release ((inside a).mpr first) ?_
          rwa [Set.union_sdiff_distrib, alone]

end Takes

end Resources
