import Mathlib.Data.Nat.Digits.Lemmas
import Mathlib.Data.List.Basic
import Mathlib.Tactic.Ring

/-!
# Numerals

Reading takes the longest run of digits at the front of a text; what stands
behind it is left. `Spells` says that a text is a numeral of a number: any digits
with that value, in letters of either case and with any number of leading zeros.
A numeral is read back whatever follows it, as long as no digit does.

`numeral` is the usual one, without leading zeros; `padded` puts characters in
front of a text up to a width.
-/

namespace Text

def digitValue (c : Char) : Option Nat :=
  if '0' ≤ c && c ≤ '9' then some (c.toNat - '0'.toNat)
  else if 'a' ≤ c && c ≤ 'f' then some (c.toNat - 'a'.toNat + 10)
  else if 'A' ≤ c && c ≤ 'F' then some (c.toNat - 'A'.toNat + 10)
  else none

/-- The value of a digit of a base of at most sixteen. -/
def digit (base : Nat) (c : Char) : Option Nat := (digitValue c).filter (· < base)

/-- The digits at the front of a text, and the rest. -/
def digits (base : Nat) : List Char → List Nat × List Char
  | [] => ([], [])
  | c :: s =>
      match digit base c with
      | none => ([], c :: s)
      | some d => (d :: (digits base s).1, (digits base s).2)

/-- The number that has these digits, the most significant one first. -/
def value (base : Nat) (ds : List Nat) : Nat := ds.foldl (fun v d => base * v + d) 0

/-- Read a number at the front of a text. -/
def scan (base : Nat) (s : List Char) : Option (Nat × List Char) :=
  if (digits base s).1 = [] then none
  else some (value base (digits base s).1, (digits base s).2)

/-- A text is a numeral of a number. -/
structure Spells (base : Nat) (s : List Char) (n : Nat) : Prop where
  nonempty : s ≠ []
  value : ∃ ds : List Nat, s.map (digit base) = ds.map some ∧ Text.value base ds = n

/-- No digit stands at the front of a text. -/
def Ends (base : Nat) (s : List Char) : Prop := ∀ c, s.head? = some c → digit base c = none

/-- The characters of digits, with small or capital letters. -/
def lowerDigit (d : Nat) : Char := Char.ofNat (if d < 10 then 48 + d else 87 + d)
def upperDigit (d : Nat) : Char := Char.ofNat (if d < 10 then 48 + d else 55 + d)

/-- The numeral without leading zeros. -/
def numeral (char : Nat → Char) (base n : Nat) : List Char :=
  if n = 0 then [char 0] else (Nat.digits base n).reverse.map char

/-- A text with a character in front of it up to a width. -/
def padded (c : Char) (width : Nat) (s : List Char) : List Char :=
  List.replicate (width - s.length) c ++ s

section

variable {base n : Nat} {s rest : List Char}

theorem Ends.nil : Ends base [] := by
  intro c h
  cases h

theorem Ends.cons {c : Char} (h : digit base c = none) : Ends base (c :: rest) := by
  intro d hd
  cases hd
  exact h

theorem digits_append {ds : List Nat} (h : s.map (digit base) = ds.map some)
    (ends : Ends base rest) : digits base (s ++ rest) = (ds, rest) := by
  induction s generalizing ds with
  | nil =>
      obtain rfl : ds = [] := by simpa using h.symm
      cases rest with
      | nil => rfl
      | cons c rest => simp [digits, ends c rfl]
  | cons c s ih =>
      cases ds with
      | nil => simp at h
      | cons d ds =>
          simp only [List.map_cons, List.cons.injEq] at h
          simp [digits, h.1, ih h.2]

/-- A numeral is read back, and what stands behind it is left. -/
theorem scan_spells (h : Spells base s n) (ends : Ends base rest) :
    scan base (s ++ rest) = some (n, rest) := by
  obtain ⟨nonempty, ds, text, val⟩ := h
  have found : ds ≠ [] := by
    rintro rfl
    simp [nonempty] at text
  rw [scan, digits_append text ends, if_neg found, val]

theorem scan_spells_nil (h : Spells base s n) : scan base s = some (n, []) := by
  have := scan_spells h .nil
  rwa [List.append_nil] at this

/-- Every character of a numeral is a digit. -/
theorem Spells.digit_isSome (h : Spells base s n) {c : Char} (mem : c ∈ s) :
    (digit base c).isSome := by
  obtain ⟨-, ds, text, -⟩ := h
  have image : digit base c ∈ ds.map some := text ▸ List.mem_map_of_mem mem
  obtain ⟨d, -, hd⟩ := List.mem_map.mp image
  rw [← hd]
  rfl

/-- A zero in front does not change the number. -/
theorem Spells.zeros (h : Spells base s n) (pos : 0 < base) (k : Nat) :
    Spells base (List.replicate k '0' ++ s) n := by
  obtain ⟨nonempty, ds, text, val⟩ := h
  have zero : digit base '0' = some 0 := by
    simp [digit, digitValue, pos]
  refine ⟨by simp [nonempty], List.replicate k 0 ++ ds, by simp [text, zero], ?_⟩
  rw [← val]
  unfold Text.value
  rw [List.foldl_append]
  congr 1
  induction k with
  | zero => rfl
  | succ k ih => simpa [List.replicate_succ] using ih

theorem Spells.padded (h : Spells base s n) (pos : 0 < base) (width : Nat) :
    Spells base (padded '0' width s) n :=
  h.zeros pos _

theorem value_append (ds es : List Nat) :
    value base (ds ++ es) = value base ds * base ^ es.length + value base es := by
  have shift : ∀ v, es.foldl (fun v d => base * v + d) v =
      v * base ^ es.length + value base es := by
    induction es with
    | nil => exact fun v => by simp [value]
    | cons e es ih =>
        intro v
        have first : value base (e :: es) = (base * 0 + e) * base ^ es.length + value base es :=
          ih _
        rw [List.foldl_cons, ih, first, List.length_cons]
        ring
  rw [value, List.foldl_append]
  exact shift _

/-- Two numerals one behind the other are one. -/
theorem Spells.append {t : List Char} {m : Nat} (h : Spells base s n) (k : Spells base t m) :
    Spells base (s ++ t) (n * base ^ t.length + m) := by
  obtain ⟨nonempty, ds, text, val⟩ := h
  obtain ⟨-, es, text', val'⟩ := k
  have length : t.length = es.length := by
    have := congrArg List.length text'
    rwa [List.length_map, List.length_map] at this
  refine ⟨List.append_ne_nil_of_left_ne_nil nonempty t, ds ++ es, ?_, ?_⟩
  · rw [List.map_append, List.map_append, text, text']
  · rw [value_append, val, val', length]

theorem value_reverse (ds : List Nat) : value base ds.reverse = Nat.ofDigits base ds := by
  rw [value, List.foldl_reverse, Nat.ofDigits_eq_foldr]
  congr 1
  funext d v
  exact Nat.add_comm _ _

/-- The usual numeral is one, given the characters of the digits. -/
theorem spells_numeral {char : Nat → Char} (base_gt : 1 < base)
    (chars : ∀ d < base, digit base (char d) = some d) (n : Nat) :
    Spells base (numeral char base n) n := by
  unfold numeral
  by_cases zero : n = 0
  · subst zero
    rw [if_pos rfl]
    exact ⟨by simp, [0], by simp [chars 0 (by omega)], rfl⟩
  · rw [if_neg zero]
    have some_digits : Nat.digits base n ≠ [] := Nat.digits_ne_nil_iff_ne_zero.mpr zero
    refine ⟨by simpa using some_digits, (Nat.digits base n).reverse, ?_, ?_⟩
    · rw [List.map_map, List.map_congr_left]
      intro d hd
      exact chars d (Nat.digits_lt_base base_gt (List.mem_reverse.mp hd))
    · rw [value_reverse, Nat.ofDigits_digits]

end

/-- The digits are the characters from `0` to `9`, `a` to `f` and `A` to `F`. -/
theorem digitValue_cases {c : Char} {d : Nat} (h : digitValue c = some d) : d < 16 ∧
    (48 ≤ c.toNat ∧ c.toNat ≤ 57 ∨ 97 ≤ c.toNat ∧ c.toNat ≤ 102 ∨
      65 ≤ c.toNat ∧ c.toNat ≤ 70) := by
  unfold digitValue at h
  simp only [Bool.and_eq_true, decide_eq_true_eq, Char.le_def, UInt32.le_iff_toNat_le] at h
  have : '0'.val.toNat = 48 := rfl
  have : '9'.val.toNat = 57 := rfl
  have : 'a'.val.toNat = 97 := rfl
  have : 'f'.val.toNat = 102 := rfl
  have : 'A'.val.toNat = 65 := rfl
  have : 'F'.val.toNat = 70 := rfl
  simp only [Char.toNat] at h ⊢
  split at h
  · simp only [Option.some.injEq] at h
    omega
  · split at h
    · simp only [Option.some.injEq] at h
      omega
    · split at h
      · simp only [Option.some.injEq] at h
        omega
      · cases h

/-- A hexadecimal digit is less than sixteen anyway. -/
theorem digit_sixteen (c : Char) : digit 16 c = digitValue c := by
  cases h : digitValue c with
  | none => simp [digit, h]
  | some d => simp [digit, h, (digitValue_cases h).1]

/-- What is not among these characters is no digit. -/
theorem digit_none {base : Nat} {c : Char} (h : c.toNat < 48 ∨ 57 < c.toNat ∧ c.toNat < 65 ∨
    70 < c.toNat ∧ c.toNat < 97 ∨ 102 < c.toNat) : digit base c = none := by
  cases hv : digitValue c with
  | none => simp [digit, hv]
  | some d =>
      have range := (digitValue_cases hv).2
      omega

/-- A decimal digit is one of the ten. -/
theorem isDigit_of_digit {c : Char} (h : (digit 10 c).isSome) : c.isDigit = true := by
  obtain ⟨d, hd⟩ := Option.isSome_iff_exists.mp h
  rw [digit, Option.filter_eq_some_iff] at hd
  obtain ⟨value, small⟩ := hd
  unfold digitValue at value
  split at value
  · rename_i range
    exact range
  · split at value
    · cases value
      simp at small
    · split at value
      · cases value
        simp at small
      · cases value

theorem digit_lower (d : Nat) (h : d < 16) : digit 16 (lowerDigit d) = some d := by
  revert d
  decide

theorem digit_upper (d : Nat) (h : d < 16) : digit 16 (upperDigit d) = some d := by
  revert d
  decide

theorem digit_decimal (d : Nat) (h : d < 10) : digit 10 (lowerDigit d) = some d := by
  revert d
  decide

end Text
