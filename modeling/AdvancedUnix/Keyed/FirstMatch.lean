import Mathlib.Data.List.Basic

/-!
# Writes to the first entry with a key

A write has a key and a value; it goes to the first entry of a list that has the key,
and is lost if there is none. After a list of writes the first entry with a key has the
last value that was written for it, and an entry behind one with the same key is as it
was before.
-/

namespace Keyed

universe u v w

variable {α : Type u} {κ : Type v} {β : Type w} [DecidableEq κ]

/-- How entries are looked up and written: a write keeps the key, and only the last one
counts. -/
structure Field (α : Type u) (κ : Type v) (β : Type w) where
  key : α → κ
  set : α → β → α
  key_set : ∀ e b, key (set e b) = key e
  set_set : ∀ e a b, set (set e a) b = set e b

namespace Field

variable (f : Field α κ β)

def setFirst : List α → κ × β → List α
  | [], _ => []
  | e :: es, w => if f.key e = w.1 then f.set e w.2 :: es else e :: setFirst es w

/-- The writes one after the other. -/
def setAll (es : List α) (ws : List (κ × β)) : List α := ws.foldl f.setFirst es

end Field

/-- The last value that is written for a key. -/
def lastFor (k : κ) : List (κ × β) → Option β
  | [] => none
  | w :: ws => (lastFor k ws).or (if w.1 = k then some w.2 else none)

theorem lastFor_append (k : κ) (ws vs : List (κ × β)) :
    lastFor k (ws ++ vs) = (lastFor k vs).or (lastFor k ws) := by
  induction ws with
  | nil => simp [lastFor]
  | cons w ws ih => rw [List.cons_append, lastFor, ih, lastFor, Option.or_assoc]

theorem lastFor_eq_none_iff {k : κ} {ws : List (κ × β)} :
    lastFor k ws = none ↔ ∀ w ∈ ws, w.1 ≠ k := by
  induction ws with
  | nil => simp [lastFor]
  | cons w ws ih => simp [lastFor, ih, and_comm]

theorem mem_of_lastFor {k : κ} {b : β} {ws : List (κ × β)} (h : lastFor k ws = some b) :
    (k, b) ∈ ws := by
  induction ws with
  | nil => cases h
  | cons w ws ih =>
      rw [lastFor, Option.or_eq_some_iff] at h
      obtain h | ⟨-, h⟩ := h
      · exact List.mem_cons_of_mem w (ih h)
      · split at h
        · rename_i same
          obtain rfl := Option.some.inj h
          rw [← same]
          exact List.mem_cons_self
        · cases h

namespace Field

variable (f : Field α κ β)

/-- An entry after writes that all find it first. -/
def written (ws : List (κ × β)) (e : α) : α := (lastFor (f.key e) ws).elim e (f.set e)

theorem written_of_none {ws : List (κ × β)} {e : α} (h : lastFor (f.key e) ws = none) :
    f.written ws e = e := by
  rw [written, h, Option.elim_none]

theorem written_of_some {ws : List (κ × β)} {e : α} {b : β} (h : lastFor (f.key e) ws = some b) :
    f.written ws e = f.set e b := by
  rw [written, h, Option.elim_some]

theorem key_written (ws : List (κ × β)) (e : α) : f.key (f.written ws e) = f.key e := by
  unfold written
  cases lastFor (f.key e) ws with
  | none => rfl
  | some b => exact f.key_set e b

theorem written_other {w : κ × β} {e : α} (other : f.key e ≠ w.1) : f.written [w] e = e := by
  apply f.written_of_none
  rw [lastFor_eq_none_iff]
  intro v mem
  obtain rfl := List.mem_singleton.mp mem
  exact other.symm

theorem written_cons (w : κ × β) (ws : List (κ × β)) (e : α) :
    f.written (w :: ws) e = f.written ws (f.written [w] e) := by
  cases rest : lastFor (f.key e) ws with
  | none =>
      have single : lastFor (f.key e) (w :: ws) = lastFor (f.key e) [w] := by
        rw [lastFor, rest]
        rfl
      rw [f.written_of_none (e := f.written [w] e) (by rwa [key_written]), written, single, written]
  | some b =>
      have single : lastFor (f.key e) (w :: ws) = some b := by
        rw [lastFor, rest, Option.some_or]
      rw [f.written_of_some single, f.written_of_some (by rwa [key_written])]
      unfold written
      cases lastFor (f.key e) [w] with
      | none => rfl
      | some a => exact (f.set_set e a b).symm

theorem map_key_setFirst (es : List α) (w : κ × β) :
    (f.setFirst es w).map f.key = es.map f.key := by
  induction es with
  | nil => rfl
  | cons e es ih =>
      rw [setFirst]
      split
      · rw [List.map_cons, f.key_set, List.map_cons]
      · rw [List.map_cons, ih, List.map_cons]

theorem map_key_setAll (es : List α) (ws : List (κ × β)) :
    (f.setAll es ws).map f.key = es.map f.key := by
  induction ws generalizing es with
  | nil => rfl
  | cons w ws ih => exact (ih (f.setFirst es w)).trans (f.map_key_setFirst es w)

/-- A write changes the first entry with its key. -/
theorem setFirst_getElem? (es : List α) (w : κ × β) (i : Nat) :
    (f.setFirst es w)[i]? = es[i]?.map fun e =>
      if f.key e ∈ (es.map f.key).take i then e else f.written [w] e := by
  induction es generalizing i with
  | nil => rfl
  | cons e es ih =>
      rw [setFirst]
      by_cases here : f.key e = w.1
      · rw [if_pos here]
        cases i with
        | zero => simp [written, lastFor, here]
        | succ i =>
            have kept : (fun e' => if f.key e' ∈ ((e :: es).map f.key).take (i + 1) then e'
                else f.written [w] e') = id := by
              funext e'
              by_cases same : f.key e' = w.1
              · exact if_pos (by simp [same, here])
              · rw [f.written_other same]
                exact ite_self e'
            rw [List.getElem?_cons_succ, List.getElem?_cons_succ, kept, Option.map_id, id]
      · rw [if_neg here]
        cases i with
        | zero => simp [written, lastFor, Ne.symm here]
        | succ i =>
            rw [List.getElem?_cons_succ, List.getElem?_cons_succ, ih]
            congr 1
            funext e'
            by_cases same : f.key e' = f.key e
            · rw [f.written_other (same ▸ here)]
              simp
            · simp [same]

/-- After all writes the first entry with a key has the last value for it. -/
theorem setAll_getElem? (es : List α) (ws : List (κ × β)) (i : Nat) :
    (f.setAll es ws)[i]? = es[i]?.map fun e =>
      if f.key e ∈ (es.map f.key).take i then e else f.written ws e := by
  induction ws generalizing es with
  | nil =>
      have same :
          (fun e => if f.key e ∈ (es.map f.key).take i then e else f.written [] e) = id := by
        funext e
        exact ite_self e
      rw [same, Option.map_id]
      rfl
  | cons w ws ih =>
      rw [setAll, List.foldl_cons]
      refine (ih (f.setFirst es w)).trans ?_
      rw [map_key_setFirst, setFirst_getElem?, Option.map_map]
      congr 1
      funext e
      rw [Function.comp_apply]
      by_cases earlier : f.key e ∈ (es.map f.key).take i
      · simp only [if_pos earlier]
      · simp only [if_neg earlier, key_written]
        exact (f.written_cons w ws e).symm

end Field

end Keyed
