import Mathlib.Algebra.Order.Group.Nat
import Mathlib.Data.List.Basic
import Mathlib.Data.Nat.Cast.Defs

/-!
# Linear decoding

A decoder reads one item off the front of a list of units, and the item says which
units it was read from. It reads no further than that: any other list with the
same units in front gives the same item.

Linear decoding takes the next item where the last one ended, up to the first
place where there is none. `sweep` decodes a list; `linear` decodes a memory, of
which not all positions need to hold a unit. A sweep over what was read from a
memory is a piece of the decoding of the memory, however much of it was read.
-/

namespace Decoding

universe u v w

structure Decoder (α : Type u) {β : Type v} {ι : Type w} (units : ι → List β) (most : Nat) where
  /-- The item at the front of these units, which stand at this position. -/
  one : List β → α → Option ι
  units_pos : ∀ {bs a i}, one bs a = some i → 0 < (units i).length
  units_le : ∀ {bs a i}, one bs a = some i → (units i).length ≤ most
  units_front : ∀ {bs a i}, one bs a = some i → units i <+: bs
  one_local : ∀ {bs cs a i}, one bs a = some i → units i <+: cs → one cs a = some i

section Reading

variable {α : Type u} {β : Type v} [AddCommMonoidWithOne α] (mem : α → Option β)

/-- The memory holds these units from a position on. -/
def Holds : α → List β → Prop
  | _, [] => True
  | a, b :: bs => mem a = some b ∧ Holds (a + 1) bs

/-- What stands at a position, up to the first one without a unit, but at most `n` units. -/
def window : Nat → α → List β
  | 0, _ => []
  | n + 1, a =>
      match mem a with
      | none => []
      | some b => b :: window n (a + 1)

variable {mem}

theorem holds_append {bs cs : List β} {a : α} :
    Holds mem a (bs ++ cs) ↔ Holds mem a bs ∧ Holds mem (a + bs.length) cs := by
  induction bs generalizing a with
  | nil => simp [Holds]
  | cons b bs ih =>
      simp only [List.cons_append, Holds, ih, and_assoc, List.length_cons, Nat.cast_add,
        Nat.cast_one, add_assoc, add_comm (1 : α)]

theorem holds_iff {bs : List β} {a : α} :
    Holds mem a bs ↔ ∀ k (h : k < bs.length), mem (a + k) = some (bs.get ⟨k, h⟩) := by
  induction bs generalizing a with
  | nil => exact iff_of_true trivial fun k h => absurd h (Nat.not_lt_zero k)
  | cons b bs ih =>
      rw [Holds, ih]
      constructor
      · rintro ⟨here, rest⟩ k h
        cases k with
        | zero => rwa [Nat.cast_zero, add_zero]
        | succ k =>
            rw [Nat.cast_add, Nat.cast_one, add_comm (k : α), ← add_assoc]
            exact rest k (Nat.lt_of_succ_lt_succ h)
      · intro all
        refine ⟨?_, fun k h => ?_⟩
        · have first := all 0 (Nat.succ_pos _)
          rwa [Nat.cast_zero, add_zero] at first
        · have next := all (k + 1) (Nat.succ_lt_succ h)
          rwa [Nat.cast_add, Nat.cast_one, add_comm (k : α), ← add_assoc] at next

theorem Holds.front {bs cs : List β} {a : α} (h : Holds mem a cs) (front : bs <+: cs) :
    Holds mem a bs := by
  obtain ⟨rest, rfl⟩ := front
  exact (holds_append.mp h).1

/-- Another memory holds what this one does exactly when it agrees with it there. -/
theorem Holds.iff_agrees {bs : List β} {a : α} (h : Holds mem a bs) {mem' : α → Option β} :
    Holds mem' a bs ↔ ∀ k < bs.length, mem (a + k) = mem' (a + k) := by
  rw [holds_iff] at h ⊢
  refine forall₂_congr fun k hk => ?_
  rw [h k hk]
  exact eq_comm

theorem holds_window (n : Nat) (a : α) : Holds mem a (window mem n a) := by
  induction n generalizing a with
  | zero => trivial
  | succ n ih =>
      rw [window]
      cases here : mem a with
      | none => trivial
      | some b => exact ⟨here, ih (a + 1)⟩

/-- What a memory holds is at the front of what is read from it. -/
theorem Holds.front_window {bs : List β} {a : α} (h : Holds mem a bs) {n : Nat}
    (le : bs.length ≤ n) : bs <+: window mem n a := by
  induction bs generalizing a n with
  | nil => exact ⟨_, rfl⟩
  | cons b bs ih =>
      obtain ⟨here, rest⟩ := h
      cases n with
      | zero => exact absurd le (Nat.not_succ_le_zero _)
      | succ n =>
          simp only [window, here]
          exact List.cons_prefix_cons.mpr ⟨rfl, ih rest (Nat.le_of_succ_le_succ le)⟩

end Reading

section Positions

variable {α : Type u} {β : Type v} {ι : Type w} [AddCommMonoidWithOne α] (units : ι → List β)

/-- Where the last one of consecutive items ends. -/
def past (a : α) (is : List ι) : α := is.foldl (fun a i => a + (units i).length) a

theorem past_cons (a : α) (i : ι) (is : List ι) :
    past units a (i :: is) = past units (a + (units i).length) is := rfl

end Positions

namespace Decoder

variable {α : Type u} {β : Type v} {ι : Type w} [AddCommMonoidWithOne α] {units : ι → List β}
  {most : Nat} (D : Decoder α units most) (mem : α → Option β)

/-- The linear decoding of a list that stands at a position, at most `n` items of it. -/
def sweep : Nat → List β → α → List ι
  | 0, _, _ => []
  | n + 1, bs, a =>
      match D.one bs a with
      | none => []
      | some i => i :: sweep n (bs.drop (units i).length) (a + (units i).length)

/-- The item that a memory holds at a position. -/
def item (a : α) : Option ι := D.one (window mem most a) a

/-- The linear decoding of a memory from a position on, at most `n` items of it. -/
def linear : Nat → α → List ι
  | 0, _ => []
  | n + 1, a =>
      match D.item mem a with
      | none => []
      | some i => i :: linear n (a + (units i).length)

variable {D mem}

/-- The item at a position is the one that its units decode to, wherever they were read. -/
theorem item_of_one {bs : List β} {a : α} {i : ι} (h : D.one bs a = some i)
    (held : Holds mem a (units i)) : D.item mem a = some i :=
  D.one_local h (held.front_window (D.units_le h))

theorem holds_of_item {a : α} {i : ι} (h : D.item mem a = some i) : Holds mem a (units i) :=
  (holds_window most a).front (D.units_front h)

omit [AddCommMonoidWithOne α] in
theorem one_nil (a : α) : D.one [] a = none := by
  cases h : D.one [] a with
  | none => rfl
  | some i =>
      have pos := D.units_pos h
      rw [List.prefix_nil.mp (D.units_front h)] at pos
      exact absurd pos (lt_irrefl 0)

/-- Nothing is decoded where the memory holds no unit. -/
theorem item_none {a : α} (h : mem a = none) : D.item mem a = none := by
  have empty : window mem most a = [] := by
    cases most with
    | zero => rfl
    | succ n => simp only [window, h]
  rw [item, empty, one_nil]

theorem linear_none {a : α} (h : D.item mem a = none) (n : Nat) : D.linear mem n a = [] := by
  cases n with
  | zero => rfl
  | succ n => simp only [linear, h]

theorem linear_some {a : α} {i : ι} (h : D.item mem a = some i) (n : Nat) :
    D.linear mem (n + 1) a = i :: D.linear mem n (a + (units i).length) := by
  simp only [linear, h]

/-- The decoding goes on where a part of it ended. -/
theorem linear_append (m n : Nat) (a : α) :
    D.linear mem (m + n) a =
      D.linear mem m a ++ D.linear mem n (past units a (D.linear mem m a)) := by
  induction m generalizing a with
  | zero =>
      rw [Nat.zero_add]
      rfl
  | succ m ih =>
      cases h : D.item mem a with
      | none =>
          rw [linear_none h, linear_none h, List.nil_append]
          exact (linear_none h n).symm
      | some i => rw [Nat.succ_add, linear_some h, linear_some h, ih, past_cons, List.cons_append]

theorem linear_take (k n : Nat) (a : α) :
    (D.linear mem n a).take k = D.linear mem (min k n) a := by
  induction n generalizing k a with
  | zero => rw [Nat.min_zero, linear, List.take_nil]
  | succ n ih =>
      cases k with
      | zero => rw [Nat.zero_min, List.take_zero, linear]
      | succ k =>
          cases h : D.item mem a with
          | none => rw [linear_none h, linear_none h, List.take_nil]
          | some i =>
              rw [Nat.succ_min_succ, linear_some h, linear_some h, List.take_succ_cons, ih]

/-- A sweep over units that a memory holds begins the decoding of the memory. -/
theorem sweep_linear (n : Nat) {bs : List β} {a : α} (held : Holds mem a bs) :
    ∃ m, D.sweep n bs a = D.linear mem m a := by
  induction n generalizing bs a with
  | zero => exact ⟨0, rfl⟩
  | succ n ih =>
      rw [sweep]
      cases h : D.one bs a with
      | none => exact ⟨0, rfl⟩
      | some i =>
          obtain ⟨rest, rfl⟩ := D.units_front h
          obtain ⟨here, behind⟩ := holds_append.mp held
          obtain ⟨m, hm⟩ := ih behind
          refine ⟨m + 1, ?_⟩
          simp only [linear_some (item_of_one h here), ← hm, List.drop_left]

/-- The first item of a sweep is the one at the front of the list. -/
theorem sweep_head? {n : Nat} (pos : 0 < n) (bs : List β) (a : α) :
    (D.sweep n bs a).head? = D.one bs a := by
  obtain ⟨n, rfl⟩ := Nat.exists_eq_succ_of_ne_zero pos.ne'
  rw [sweep]
  cases D.one bs a with
  | none => rfl
  | some i => rfl

end Decoder

end Decoding
