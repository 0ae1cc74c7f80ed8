import AdvancedUnix.Text.Numeral
import Mathlib.Data.BitVec

/-!
# Numbers as `sscanf` reads them

A conversion skips blanks, takes a sign, and in base sixteen a `0x`, and then the
digits; what stands behind them is left for the rest of the format. A numeral
without a sign is read as its number.

`%d` and `%x` store the low 32 bits of that number, which is a `long` and an
`unsigned long`: beyond their range it is the nearest `long`, or the largest
`unsigned long`.
-/

namespace Text

/-- `isspace`. -/
def isspace (c : Char) : Bool := c = ' ' || ('\t' ≤ c && c ≤ '\r')

/-- A sign at the front: whether it is a minus, and what follows it. -/
def scanSign : List Char → Bool × List Char
  | '-' :: s => (true, s)
  | '+' :: s => (false, s)
  | s => (false, s)

/-- The prefix of a hexadecimal number is skipped. -/
def skipPrefix : List Char → List Char
  | '0' :: 'x' :: s => s
  | '0' :: 'X' :: s => s
  | s => s

/-- The number at the front of a text, and what stands behind it. -/
def scanNumber (base : Nat) (s : List Char) : Option (Int × List Char) :=
  let signed := scanSign (s.dropWhile isspace)
  let s := if base = 16 then skipPrefix signed.2 else signed.2
  (scan base s).map fun p => (if signed.1 then -(p.1 : Int) else p.1, p.2)

/-- What `%d` stores of a number. -/
def signed32 (n : Int) : BitVec 32 :=
  if 2 ^ 63 ≤ n then -1 else if n < -2 ^ 63 then 0 else BitVec.ofInt 32 n

/-- What `%x` stores of a number. -/
def unsigned32 (n : Int) : BitVec 32 := if 2 ^ 64 ≤ n.natAbs then -1 else BitVec.ofInt 32 n

/-- A digit is neither a blank nor a sign nor an `x`. -/
theorem digit_plain {base : Nat} {c : Char} (h : (digit base c).isSome) :
    isspace c = false ∧ c ≠ '-' ∧ c ≠ '+' ∧ c ≠ 'x' ∧ c ≠ 'X' := by
  have no : ∀ d : Char, d.toNat < 48 ∨ 70 < d.toNat ∧ d.toNat < 97 ∨ 102 < d.toNat → c ≠ d := by
    rintro d range rfl
    rw [digit_none (by omega)] at h
    cases h
  refine ⟨?_, no _ (by decide), no _ (by decide), no _ (by decide), no _ (by decide)⟩
  by_contra space
  simp only [Bool.not_eq_false, isspace, Bool.or_eq_true, Bool.and_eq_true, decide_eq_true_eq,
    Char.le_def, UInt32.le_iff_toNat_le] at space
  have : '\r'.val.toNat = 13 := rfl
  obtain rfl | space := space
  · exact no ' ' (by decide) rfl
  · exact no c (by simp only [Char.toNat]; omega) rfl

section

variable {base n : Nat} {s rest : List Char}

/-- A numeral is a word. -/
theorem Spells.solid (h : Spells base s n) : ∀ c ∈ s, isspace c = false :=
  fun _ mem => (digit_plain (h.digit_isSome mem)).1

/-- A numeral starts with a digit. -/
theorem spells_cons (h : Spells base s n) : ∃ c r, s = c :: r ∧ (digit base c).isSome := by
  cases s with
  | nil => exact absurd rfl h.nonempty
  | cons c r => exact ⟨c, r, rfl, h.digit_isSome List.mem_cons_self⟩

/-- The second character of a numeral is no `x`. -/
theorem spells_second {r : List Char} {c d : Char} (h : Spells base s n)
    (text : s = c :: d :: r) : d ≠ 'x' ∧ d ≠ 'X' := by
  have plain := digit_plain (h.digit_isSome (c := d) (by simp [text]))
  exact plain.2.2.2

theorem scanSign_plain {c : Char} (h : c ≠ '-' ∧ c ≠ '+') (s : List Char) :
    scanSign (c :: s) = (false, c :: s) := by
  unfold scanSign
  split
  · rename_i text
    exact absurd (List.cons.inj text).1 h.1
  · rename_i text
    exact absurd (List.cons.inj text).1 h.2
  · rfl

/-- Without an `x` at the second place there is no prefix. -/
theorem skipPrefix_plain (h : ∀ c d r, s = c :: d :: r → d ≠ 'x' ∧ d ≠ 'X') :
    skipPrefix s = s := by
  unfold skipPrefix
  split
  · exact absurd rfl (h _ _ _ rfl).1
  · exact absurd rfl (h _ _ _ rfl).2
  · rfl

/-- A numeral is read as its number; behind a hexadecimal one there is no `x`. -/
theorem scanNumber_spells (h : Spells base s n) (ends : Ends base rest)
    (noPrefix : ∀ c, rest.head? = some c → c ≠ 'x' ∧ c ≠ 'X') :
    scanNumber base (s ++ rest) = some ((n : Int), rest) := by
  have read := scan_spells h ends
  have second : ∀ c d r, s ++ rest = c :: d :: r → d ≠ 'x' ∧ d ≠ 'X' := by
    intro c d r text
    obtain ⟨c', s', rfl, -⟩ := spells_cons h
    cases s' with
    | nil =>
        obtain ⟨rfl, rfl⟩ := List.cons.inj text
        exact noPrefix d rfl
    | cons d' s' =>
        obtain ⟨rfl, tail⟩ := List.cons.inj text
        obtain ⟨rfl, -⟩ := List.cons.inj tail
        exact spells_second h rfl
  have skipped : (if base = 16 then skipPrefix (s ++ rest) else s ++ rest) = s ++ rest := by
    split
    · exact skipPrefix_plain second
    · rfl
  obtain ⟨c, r, rfl, first⟩ := spells_cons h
  have plain := digit_plain first
  rw [List.cons_append] at skipped read ⊢
  simp only [scanNumber, List.dropWhile_cons, plain.1, Bool.false_eq_true, if_false,
    scanSign_plain ⟨plain.2.1, plain.2.2.1⟩, skipped, read, Option.map_some]

theorem scanNumber_spells_nil (h : Spells base s n) : scanNumber base s = some ((n : Int), []) := by
  have := scanNumber_spells h .nil fun _ none => by cases none
  rwa [List.append_nil] at this

end

theorem signed32_natCast {n : Nat} (h : n < 2 ^ 63) : signed32 n = BitVec.ofNat 32 n := by
  rw [signed32, if_neg (by omega), if_neg (by omega), BitVec.ofInt_natCast]

theorem unsigned32_natCast {n : Nat} (h : n < 2 ^ 64) : unsigned32 n = BitVec.ofNat 32 n := by
  rw [unsigned32, Int.natAbs_natCast, if_neg (by omega), BitVec.ofInt_natCast]

/-- A number that does not fit is read as all ones. -/
theorem unsigned32_large {n : Nat} (h : 2 ^ 64 ≤ n) : unsigned32 n = -1 := by
  rw [unsigned32, Int.natAbs_natCast, if_pos h]

/-- A number of at most 32 bits is stored as it is. -/
theorem signed32_toNat (v : BitVec 32) : signed32 v.toNat = v := by
  rw [signed32_natCast (by omega), BitVec.ofNat_toNat, BitVec.setWidth_eq]

theorem unsigned32_toNat {w : Nat} (v : BitVec w) (h : w ≤ 32) :
    unsigned32 v.toNat = v.setWidth 32 := by
  have range : 2 ^ w ≤ 2 ^ 32 := Nat.pow_le_pow_right (by omega) h
  rw [unsigned32_natCast (by omega), BitVec.ofNat_toNat]

end Text
