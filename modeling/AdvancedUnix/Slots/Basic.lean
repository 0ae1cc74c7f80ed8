import Mathlib.Data.List.FinRange
import Mathlib.Data.Fin.Basic

/-!
# Bounded tables with stable identifiers

A table holds a value at some of its finitely many identifiers. A value is put at
the lowest identifier that is free, and nowhere when there is none; removing an
identifier frees it and leaves the others where they are.
-/

namespace Slots

/-- A partial map from finitely many identifiers. -/
abbrev Table (n : Nat) (α : Type) := Fin n → Option α

namespace Table

variable {n : Nat} {α : Type} (t : Table n α)

/-- The lowest identifier that is free. -/
def free : Option (Fin n) := (List.finRange n).find? fun i => (t i).isNone

def put (a : α) : Table n α :=
  match t.free with
  | some i => Function.update t i (some a)
  | none => t

/-- Free an identifier. A number that is none changes nothing. -/
def remove (k : Int) : Table n α := fun i => if (i.val : Int) = k then none else t i

/-- The identifiers in use with their values, in order. -/
def entries : List (Fin n × α) := (List.finRange n).filterMap fun i => (t i).map fun a => (i, a)

variable {t}

theorem free_spec {i : Fin n} (h : t.free = some i) : t i = none ∧ ∀ j < i, (t j).isSome := by
  obtain ⟨found, before, after, split, earlier⟩ := List.find?_eq_some_iff_append.mp h
  refine ⟨by simpa using found, ?_⟩
  intro j lower
  have sorted := List.pairwise_lt_finRange n
  have mem : j ∈ before ++ i :: after := split ▸ List.mem_finRange j
  rw [split, List.pairwise_append] at sorted
  obtain hj | hj := List.mem_append.mp mem
  · have used := earlier j hj
    simpa [Option.isSome_iff_ne_none] using used
  · obtain rfl | later := List.mem_cons.mp hj
    · exact absurd lower (lt_irrefl _)
    · exact absurd lower (not_lt_of_gt ((List.pairwise_cons.mp sorted.2.1).1 j later))

theorem put_of_free {i : Fin n} (h : t.free = some i) (a : α) :
    t.put a = Function.update t i (some a) := by
  simp [put, h]

/-- Removing what is not in use changes nothing. -/
theorem remove_unused {k : Int} (h : ∀ i : Fin n, (i.val : Int) = k → t i = none) :
    t.remove k = t := by
  funext i
  by_cases same : (i.val : Int) = k
  · rw [remove, if_pos same, h i same]
  · exact if_neg same

theorem remove_eq_update (i : Fin n) : t.remove i.val = Function.update t i none := by
  funext j
  by_cases same : j = i
  · subst same
    simp [remove]
  · have other : (j.val : Int) ≠ i.val := fun h => same (Fin.ext (Int.natCast_inj.mp h))
    rw [remove, if_neg other, Function.update_of_ne same]

/-- A table that holds the values of a list at its first identifiers. -/
def ofList (as : List α) : Table n α := fun i => as[i.val]?

/-- The identifiers in use are the first ones. -/
def Packed (t : Table n α) : Prop := ∀ i j, i < j → (t j).isSome → (t i).isSome

theorem free_ofList {as : List α} (room : as.length < n) :
    (ofList as : Table n α).free = some ⟨as.length, room⟩ := by
  cases free : (ofList as : Table n α).free with
  | none =>
      have used := List.find?_eq_none.mp free ⟨as.length, room⟩ (List.mem_finRange _)
      simp [ofList] at used
  | some i =>
      obtain ⟨unused, lower⟩ := free_spec free
      have behind : as.length ≤ i.val := List.getElem?_eq_none_iff.mp unused
      congr 1
      apply Fin.ext
      by_contra other
      have earlier : as.length < i.val := Nat.lt_of_le_of_ne behind fun h => other h.symm
      have used := lower ⟨as.length, room⟩ earlier
      simp [ofList] at used

/-- Putting a value goes on with the list. -/
theorem put_ofList {as : List α} (room : as.length < n) (a : α) :
    (ofList as : Table n α).put a = ofList (as ++ [a]) := by
  rw [put_of_free (free_ofList room)]
  funext i
  by_cases last : i = ⟨as.length, room⟩
  · rw [last, Function.update_self]
    simp [ofList]
  · have other : i.val ≠ as.length := fun h => last (Fin.ext h)
    rw [Function.update_of_ne last, ofList, ofList]
    by_cases inside : i.val < as.length
    · rw [List.getElem?_append_left inside]
    · rw [List.getElem?_eq_none (by omega), List.getElem?_eq_none]
      rw [List.length_append, List.length_singleton]
      omega

theorem values_ofList {as : List α} (short : as.length ≤ n) :
    (ofList as : Table n α).entries.map Prod.snd = as := by
  have prefixes : ∀ k, (List.range k).filterMap (fun i => as[i]?) = as.take k := by
    intro k
    induction k with
    | zero => rfl
    | succ k ih =>
        rw [List.range_succ, List.filterMap_append, ih, List.take_add_one]
        cases here : as[k]? <;> simp [here]
  have values : ∀ is : List (Fin n),
      (is.filterMap fun i => ((ofList as : Table n α) i).map fun a => (i, a)).map Prod.snd =
        (is.map Fin.val).filterMap fun i => as[i]? := by
    intro is
    induction is with
    | nil => rfl
    | cons i is ih => cases h : as[i.val]? <;> simp [ofList, h] at ih ⊢ <;> exact ih
  rw [entries, values, List.map_coe_finRange_eq_range, prefixes, List.take_of_length_le short]

theorem packed_ofList (as : List α) : (ofList as : Table n α).Packed := by
  intro i j lower some
  have inside : j.val < as.length := by simpa [ofList] using some
  have before : i.val < as.length := Nat.lt_trans lower inside
  simp [ofList, before]

/-- A table without a gap is the list of its values. -/
theorem Packed.eq_ofList {t : Table n α} (packed : t.Packed) :
    t = ofList (t.entries.map Prod.snd) := by
  obtain ⟨k, short, used⟩ : ∃ k ≤ n, ∀ i : Fin n, (t i).isSome ↔ i.val < k := by
    cases free : t.free with
    | none =>
        refine ⟨n, Nat.le_refl n, fun i => iff_of_true ?_ i.isLt⟩
        have found := List.find?_eq_none.mp free i (List.mem_finRange i)
        simpa [Option.isSome_iff_ne_none] using found
    | some i =>
        obtain ⟨unused, lower⟩ := free_spec free
        refine ⟨i.val, Nat.le_of_lt i.isLt, fun j => ⟨fun some => ?_, lower j⟩⟩
        by_contra behind
        rcases Nat.lt_or_eq_of_le (Nat.le_of_not_lt behind) with later | same
        · have before := packed i j later some
          rw [unused] at before
          cases before
        · rw [← Fin.ext same, unused] at some
          cases some
  let as := List.ofFn fun i : Fin k =>
    (t ⟨i.val, Nat.lt_of_lt_of_le i.isLt short⟩).get ((used _).mpr i.isLt)
  have same : t = ofList as := by
    funext i
    by_cases inside : i.val < k
    · simp [as, ofList, inside]
    · have unused : t i = none := by
        simpa [Option.isSome_iff_ne_none] using mt (used i).mp inside
      simp [as, ofList, inside, unused]
  have length : as.length ≤ n := by
    simpa [as] using short
  calc t = ofList as := same
    _ = ofList (t.entries.map Prod.snd) := by rw [same, values_ofList length]

end Table

end Slots
