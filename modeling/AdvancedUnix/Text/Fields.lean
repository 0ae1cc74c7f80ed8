import Mathlib.Data.List.Forall2

/-!
# Fields with separators behind them

A text is filled from fields, each with a separator behind it. Fields of a kind end before a
separator if they can be told from each other by what is in front of it: because none of them
has the first character of the separator, or because all are of one length. Then the fields are
known from the text, and so is what stands behind it.

Lines that can be told apart in this way are known from all of them one behind the other.
-/

namespace Text

universe u v

variable {α : Type u} {β : Type v} {kind : List α → Prop} {sep : List α}

/-- Fields, each with its separator. -/
def fill : List (List α) → List (List α) → List α
  | sep :: seps, field :: fields => field ++ (sep ++ fill seps fields)
  | _, _ => []

/-- Each of these is known when something stands behind it. -/
def PrefixFree (line : β → List α) (legible : β → Prop) : Prop :=
  ∀ a b, legible a → legible b → ∀ r r', line a ++ r = line b ++ r' → a = b ∧ r = r'

/-- Lines that are told apart when something stands behind them are known from all of them. -/
theorem PrefixFree.flatMap {line : β → List α} {legible : β → Prop} (h : PrefixFree line legible)
    (nonempty : ∀ b, legible b → line b ≠ []) {bs cs : List β} (all : ∀ b ∈ bs, legible b)
    (all' : ∀ c ∈ cs, legible c) (same : bs.flatMap line = cs.flatMap line) : bs = cs := by
  induction bs generalizing cs with
  | nil =>
      cases cs with
      | nil => rfl
      | cons c cs =>
          have empty := List.append_eq_nil_iff.mp (same.symm.trans rfl)
          exact absurd empty.1 (nonempty c (all' c List.mem_cons_self))
  | cons b bs ih =>
      rw [List.forall_mem_cons] at all
      cases cs with
      | nil => exact absurd (List.append_eq_nil_iff.mp same).1 (nonempty b all.1)
      | cons c cs =>
          rw [List.forall_mem_cons] at all'
          rw [List.flatMap_cons, List.flatMap_cons] at same
          obtain ⟨rfl, rest⟩ := h b c all.1 all'.1 _ _ same
          rw [ih all.2 all'.2 rest]

end Text
