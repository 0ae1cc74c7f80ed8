import AdvancedUnix.Text.Numeral

/-!
# The width of decimal numbers

A negative number is printed with a sign in front of its digits. `Within k` are the numbers
that take at most `k` characters: those between two powers of ten, of which the lower one
has an exponent less for the sign.
-/

namespace Text

/-- What is printed for a number in decimal. -/
def signed (v : Int) : List Char :=
  if v < 0 then '-' :: numeral lowerDigit 10 v.natAbs else numeral lowerDigit 10 v.natAbs

/-- The numbers of at most `k` characters. -/
def Within (k : Nat) (v : Int) : Prop := -(10 ^ (k - 1)) < v ∧ v < 10 ^ k

instance (k : Nat) (v : Int) : Decidable (Within k v) := inferInstanceAs (Decidable (_ ∧ _))

theorem numeral_length_pos (char : Nat → Char) (base n : Nat) :
    0 < (numeral char base n).length := by
  unfold numeral
  split
  · exact Nat.one_pos
  · rename_i pos
    rw [List.length_map, List.length_reverse]
    exact List.length_pos_iff.mpr (Nat.digits_ne_nil_iff_ne_zero.mpr pos)

/-- A numeral has at most `k` digits exactly when its number is below that power. -/
theorem numeral_length_le_iff {char : Nat → Char} {base n k : Nat} (base_gt : 1 < base)
    (pos : 0 < k) : (numeral char base n).length ≤ k ↔ n < base ^ k := by
  unfold numeral
  split
  · rename_i zero
    rw [zero]
    exact iff_of_true pos (Nat.pow_pos (Nat.lt_trans Nat.one_pos base_gt))
  · rw [List.length_map, List.length_reverse]
    exact Nat.digits_length_le_iff base_gt n

theorem signed_length_pos (v : Int) : 0 < (signed v).length := by
  unfold signed
  split
  · exact Nat.succ_pos _
  · exact numeral_length_pos _ _ _

theorem signed_length_le_iff {v : Int} {k : Nat} (pos : 0 < k) :
    (signed v).length ≤ k ↔ Within k v := by
  obtain ⟨k, rfl⟩ : ∃ j, k = j + 1 := ⟨k - 1, by omega⟩
  have power (j : Nat) : (0 : Int) < 10 ^ j := Int.pow_pos (by decide)
  have cast (j : Nat) : ((10 ^ j : Nat) : Int) = 10 ^ j := by push_cast; rfl
  have low := power k
  have high := power (k + 1)
  rw [Within, Nat.add_sub_cancel, signed]
  by_cases sign : v < 0
  · rw [if_pos sign, List.length_cons, Nat.succ_le_succ_iff]
    cases k with
    | zero =>
        have some := numeral_length_pos lowerDigit 10 v.natAbs
        refine iff_of_false (by omega) fun between => ?_
        have above : -(10 ^ 0 : Int) < v := between.1
        omega
    | succ k =>
        rw [numeral_length_le_iff (by decide) (Nat.succ_pos k)]
        have := cast (k + 1)
        omega
  · rw [if_neg sign, numeral_length_le_iff (by decide) pos]
    have := cast (k + 1)
    omega

/-- Two numbers have at most `n` characters together when these can be shared out. -/
theorem signed_length_add_le_iff {v w : Int} {n : Nat} :
    (signed v).length + (signed w).length ≤ n ↔
      ∃ k, 0 < k ∧ k < n ∧ Within k v ∧ Within (n - k) w := by
  have first := signed_length_pos v
  have second := signed_length_pos w
  constructor
  · intro room
    refine ⟨(signed v).length, first, by omega, ?_, ?_⟩
    · exact (signed_length_le_iff first).mp (Nat.le_refl _)
    · exact (signed_length_le_iff (by omega)).mp (by omega)
  · rintro ⟨k, pos, below, left, right⟩
    have := (signed_length_le_iff pos).mpr left
    have := (signed_length_le_iff (by omega)).mpr right
    omega

/-- A sign or a digit. -/
theorem signed_chars {v : Int} {c : Char} (mem : c ∈ signed v) :
    c = '-' ∨ c.isDigit = true := by
  have digits {n : Nat} (h : c ∈ numeral lowerDigit 10 n) : c.isDigit = true :=
    isDigit_of_digit ((spells_numeral (by decide) digit_decimal n).digit_isSome h)
  unfold signed at mem
  split at mem
  · obtain sign | rest := List.mem_cons.mp mem
    · exact .inl sign
    · exact .inr (digits rest)
  · exact .inr (digits mem)

end Text
