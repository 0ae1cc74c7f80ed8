import AdvancedUnix.Memory.Word

/-!
# Several words written one after the other

Each write of a list either replaces a whole word or, where the word is not mapped,
changes nothing. What is mapped stays the same throughout, so the memory afterwards
can be read off the list: at each address it is the last write over it that counts.
-/

namespace Memory

/-- These words are written in order; a write that fails is passed over. -/
def writeAll (m : Mem) : List (Addr × Word) → Mem
  | [] => m
  | v :: vs => writeAll ((writeWord m v.1 v.2).getD m) vs

/-- The write of a word succeeds and sets the byte at `x`. -/
def Covers (m : Mem) (x : Addr) (v : Addr × Word) : Prop :=
  Mapped m v.1 ∧ (x - v.1).toNat < 8

instance (m : Mem) (x : Addr) (v : Addr × Word) : Decidable (Covers m x v) :=
  inferInstanceAs (Decidable (Mapped m v.1 ∧ (x - v.1).toNat < 8))

/-- The last of these writes that sets the byte at `x`. -/
def lastWrite (m : Mem) (x : Addr) (vs : List (Addr × Word)) : Option (Addr × Word) :=
  vs.reverse.find? fun v => decide (Covers m x v)

/-- The byte at `x` after these writes. -/
def byteAfter (m : Mem) (vs : List (Addr × Word)) (x : Addr) : Option Byte :=
  match lastWrite m x vs with
  | some v => some (byteOf v.2 (x - v.1).toNat)
  | none => m x

theorem mapped_writeOrKeep {m : Mem} (v : Addr × Word) {b : Addr} :
    Mapped ((writeWord m v.1 v.2).getD m) b ↔ Mapped m b := by
  cases write : writeWord m v.1 v.2 with
  | none => exact Iff.rfl
  | some m' => exact mapped_writeWord write

theorem writeOrKeep_apply (m : Mem) (v : Addr × Word) (x : Addr) :
    (writeWord m v.1 v.2).getD m x =
      if Covers m x v then some (byteOf v.2 (x - v.1).toNat) else m x := by
  unfold writeWord
  by_cases mapped : Mapped m v.1
  · rw [if_pos mapped, Option.getD_some]
    exact if_congr (and_iff_right mapped).symm rfl rfl
  · rw [if_neg mapped, Option.getD_none, if_neg fun covers => mapped covers.1]

/-- A write leaves what the writes after it cover as it is. -/
theorem lastWrite_writeOrKeep (m : Mem) (v : Addr × Word) (x : Addr) (vs : List (Addr × Word)) :
    lastWrite ((writeWord m v.1 v.2).getD m) x vs = lastWrite m x vs := by
  have same : ∀ u, Covers ((writeWord m v.1 v.2).getD m) x u ↔ Covers m x u :=
    fun u => and_congr_left fun _ => mapped_writeOrKeep v
  exact congrArg (fun p => vs.reverse.find? p) (funext fun u => decide_eq_decide.mpr (same u))

theorem lastWrite_cons (m : Mem) (x : Addr) (v : Addr × Word) (vs : List (Addr × Word)) :
    lastWrite m x (v :: vs) = (lastWrite m x vs).or (if Covers m x v then some v else none) := by
  rw [lastWrite, List.reverse_cons, List.find?_append, lastWrite, List.find?_cons]
  by_cases covers : Covers m x v
  · rw [decide_eq_true covers, if_pos covers]
  · rw [decide_eq_false covers, if_neg covers]
    rfl

/-- At each address it is the last write over it that counts. -/
theorem writeAll_apply (m : Mem) (vs : List (Addr × Word)) (x : Addr) :
    writeAll m vs x = byteAfter m vs x := by
  induction vs generalizing m with
  | nil => rfl
  | cons v vs ih =>
      rw [writeAll, ih, byteAfter, byteAfter, lastWrite_writeOrKeep, lastWrite_cons,
        writeOrKeep_apply]
      cases lastWrite m x vs with
      | some last => rfl
      | none =>
          rw [Option.none_or]
          by_cases covers : Covers m x v
          · rw [if_pos covers, if_pos covers]
          · rw [if_neg covers, if_neg covers]

theorem mapped_writeAll {m : Mem} {vs : List (Addr × Word)} {b : Addr} :
    Mapped (writeAll m vs) b ↔ Mapped m b := by
  induction vs generalizing m with
  | nil => exact Iff.rfl
  | cons v vs ih => rw [writeAll, ih, mapped_writeOrKeep]

end Memory
