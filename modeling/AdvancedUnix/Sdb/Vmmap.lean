import Mathlib.Logic.Function.Basic
import AdvancedUnix.Sdb.Translation

/-!
# Printing the memory map

`vmmap` prints each line of `/proc/<pid>/maps` anew: `print_vm_maps` takes the words of the
line one by one, and prints the range, three letters of the permissions, the offset and the
sixth word. The offset goes through an `unsigned int`, and a name that has blanks in it is
more than one word.

A set of mappings is `Recoverable` when something can tell from a printed line what the
mapping was. What is lost is known exactly: it is what `Alike` mappings may differ in.
-/

namespace Sdb

open Memory Text

/-- What `begin`, `end` and `offset` hold when nothing was read for them. -/
structure MapsUninit where
  begin : Addr
  «end» : Addr
  offset : BitVec 32

/-- `%-8x`. -/
def leftHex (width n : Nat) : List Char :=
  numeral lowerDigit 16 n ++ List.replicate (width - (numeral lowerDigit 16 n).length) ' '

/-- One turn of the loop of `print_vm_maps`. There is no result for a first word without a
dash, where a null pointer is written to, and for permissions of less than three letters,
where the terminator is written behind the word. -/
def printToken (u : MapsUninit) (count : Nat) (token : List Char) : Option (List Char) :=
  match count with
  | 0 =>
    if '-' ∈ token then
      let second := (token.dropWhile (· ≠ '-')).drop 1
      let begin := (scanLlx (token.takeWhile (· ≠ '-'))).getD u.begin
      let «end» := (scanLlx second).getD u.end
      some (lowHex 16 begin.toNat ++ '-' :: (lowHex 16 «end».toNat ++ [' ']))
    else none
  | 1 => if 3 ≤ token.length then some (token.take 3 ++ [' ']) else none
  | 2 =>
    let offset := ((scanNumber 16 token).map fun p => unsigned32 p.1).getD u.offset
    some (leftHex 8 offset.toNat ++ [' '])
  | 5 => some (token ++ [' '])
  | _ => some []

/-- The loop, and `puts("")` behind it. -/
def printTokens (u : MapsUninit) : Nat → List (List Char) → Option (List Char)
  | _, [] => some ['\n']
  | count, token :: tokens =>
    match printToken u count token with
    | none => none
    | some text => (printTokens u (count + 1) tokens).map (text ++ ·)

def printVmMaps (u : MapsUninit) (line : List Char) : Option (List Char) :=
  printTokens u 0 (tokens line)

/-- What can be told from a line of the kernel. -/
structure MapFields where
  first : Addr
  last : Addr
  letters : List Char
  offset : Memory.Word
  name : List Char
  deriving DecidableEq, Inhabited

namespace Mapping

variable (m m' : Mapping)

def shown : MapFields := ⟨m.first, m.last, m.perms.take 3, m.offset, m.name⟩

/-- The sixth word, if there is one, and the end of the line. -/
def lastColumn : List Char :=
  match (tokens m.name)[0]? with
  | some word => word ++ [' ', '\n']
  | none => ['\n']

/-- The line that is printed for a mapping. -/
def printed : List Char :=
  lowHex 16 m.first.toNat ++ '-' :: (lowHex 16 m.last.toNat ++ ' ' :: (m.perms.take 3 ++ ' ' ::
    (leftHex 8 (m.offset.setWidth 32).toNat ++ ' ' :: m.lastColumn)))

/-- Mappings with the same range and letters whose offsets have the same low 32 bits, and
whose names have the same first word. -/
structure Alike : Prop where
  first : m.first = m'.first
  last : m.last = m'.last
  letters : m.perms.take 3 = m'.perms.take 3
  offset : m.offset.setWidth 32 = m'.offset.setWidth 32
  word : (tokens m.name)[0]? = (tokens m'.name)[0]?

end Mapping

/-- What the mappings of a set show can be told from the lines that are printed for them. -/
def Recoverable (S : Set Mapping) : Prop :=
  ∃ read : List Char → MapFields, ∀ m ∈ S, ∀ u, (printVmMaps u m.line).map read = some m.shown

variable {u : MapsUninit} {m m' : Mapping}

theorem printTokens_cons {count : Nat} {token text : List Char} {ts : List (List Char)}
    (h : printToken u count token = some text) :
    printTokens u count (token :: ts) = (printTokens u (count + 1) ts).map (text ++ ·) := by
  rw [printTokens, h]

theorem printTokens_behind {count : Nat} (h : 6 ≤ count) (ts : List (List Char)) :
    printTokens u count ts = some ['\n'] := by
  induction ts generalizing count with
  | nil => rfl
  | cons token ts ih =>
      have silent : printToken u count token = some [] := by
        unfold printToken
        split <;> first | omega | rfl
      rw [printTokens_cons silent, ih (Nat.le_succ_of_le h)]
      rfl

theorem printTokens_name : printTokens u 5 (tokens m.name) = some m.lastColumn := by
  unfold Mapping.lastColumn
  cases tokens m.name with
  | nil => rfl
  | cons word ts =>
      have rest : printTokens u 6 ts = some ['\n'] := printTokens_behind (Nat.le_refl 6) ts
      simp only [printTokens, printToken, rest, Option.map_some, List.getElem?_cons_zero]
      rw [List.append_assoc]
      rfl

theorem printToken_range : printToken u 0 m.range =
    some (lowHex 16 m.first.toNat ++ '-' :: (lowHex 16 m.last.toNat ++ [' '])) := by
  have digits : ∀ c ∈ lowHex 8 m.first.toNat, decide (c ≠ '-') = true := by
    intro c mem
    exact decide_eq_true (digit_plain ((spells_lowHex _ _).digit_isSome mem)).2.1
  have front : m.range.takeWhile (· ≠ '-') = lowHex 8 m.first.toNat := by
    unfold Mapping.range
    rw [List.takeWhile_append_of_pos digits]
    simp
  have back : (m.range.dropWhile (· ≠ '-')).drop 1 = lowHex 8 m.last.toNat := by
    unfold Mapping.range
    rw [List.dropWhile_append_of_pos digits]
    simp
  have dash : '-' ∈ m.range := List.mem_append_right _ List.mem_cons_self
  simp only [printToken, if_pos dash, front, back, scanLlx_spells (spells_lowHex 8 _),
    Option.getD_some]

theorem printToken_offset : printToken u 2 (lowHex 8 m.offset.toNat) =
    some (leftHex 8 (m.offset.setWidth 32).toNat ++ [' ']) := by
  have read := scanNumber_spells_nil (spells_lowHex 8 m.offset.toNat)
  have low : unsigned32 (m.offset.toNat : Int) = m.offset.setWidth 32 := by
    rw [unsigned32_natCast m.offset.isLt, BitVec.ofNat_toNat]
  simp only [printToken, read, Option.map_some, low, Option.getD_some]

/-- The line of a mapping is printed whatever the variables held. -/
theorem printVmMaps_line : printVmMaps u m.line = some m.printed := by
  have perms : 3 ≤ m.perms.length := by
    show 3 ≤ 4
    omega
  have letters : printToken u 1 m.perms = some (m.perms.take 3 ++ [' ']) := by
    rw [printToken, if_pos perms]
  have device : printToken u 3 m.device = some [] := rfl
  have inode : printToken u 4 m.inode = some [] := rfl
  rw [printVmMaps, Mapping.tokens_line, List.cons_append, printTokens_cons printToken_range,
    List.cons_append, printTokens_cons letters, List.cons_append,
    printTokens_cons printToken_offset, List.cons_append, printTokens_cons device,
    List.cons_append, printTokens_cons inode, List.nil_append, printTokens_name]
  simp [Mapping.printed]

/-- Two numerals with the same text, and what stands behind them. -/
theorem spells_cancel {base n n' : Nat} {s s' r r' : List Char} (h : Spells base s n)
    (h' : Spells base s' n') (ends : Ends base r) (ends' : Ends base r')
    (same : s ++ r = s' ++ r') : n = n' ∧ r = r' := by
  have read := scan_spells h ends
  rw [same, scan_spells h' ends'] at read
  obtain ⟨number, rest⟩ := Prod.mk.inj (Option.some.inj read)
  exact ⟨number.symm, rest.symm⟩

theorem ends_blanks (n : Nat) (s : List Char) : Ends 16 (List.replicate n ' ' ++ ' ' :: s) := by
  cases n with
  | zero => exact .cons (by decide)
  | succ n => exact .cons (by decide)

theorem leftHex_cancel {n n' : Nat} {s s' : List Char}
    (same : leftHex 8 n ++ ' ' :: s = leftHex 8 n' ++ ' ' :: s') : n = n' ∧ s = s' := by
  have spells (k : Nat) : Spells 16 (numeral lowerDigit 16 k) k :=
    spells_numeral (by decide) digit_lower k
  unfold leftHex at same
  rw [List.append_assoc, List.append_assoc] at same
  obtain ⟨rfl, rest⟩ :=
    spells_cancel (spells n) (spells n') (ends_blanks _ _) (ends_blanks _ _) same
  exact ⟨rfl, (List.cons.inj (List.append_cancel_left rest)).2⟩

theorem lastColumn_eq (same : m.lastColumn = m'.lastColumn) :
    (tokens m.name)[0]? = (tokens m'.name)[0]? := by
  have longer (w : List Char) : w ++ [' ', '\n'] ≠ ['\n'] := by
    intro h
    have length := congrArg List.length h
    rw [List.length_append] at length
    cases length
  unfold Mapping.lastColumn at same
  cases word : (tokens m.name)[0]? <;> cases word' : (tokens m'.name)[0]? <;>
    rw [word, word'] at same
  · exact absurd same.symm (longer _)
  · exact absurd same (longer _)
  · rw [List.append_cancel_right same]

/-- Only lines of mappings that are alike are printed alike. -/
theorem alike_of_printed (same : m.printed = m'.printed) : m.Alike m' := by
  have dash (s : List Char) : Ends 16 ('-' :: s) := .cons (by decide)
  have blank (s : List Char) : Ends 16 (' ' :: s) := .cons (by decide)
  obtain ⟨first, same⟩ := spells_cancel (spells_lowHex 16 _) (spells_lowHex 16 _)
    (dash _) (dash _) same
  obtain ⟨last, same⟩ := spells_cancel (spells_lowHex 16 _) (spells_lowHex 16 _)
    (blank _) (blank _) (List.cons.inj same).2
  obtain ⟨letters, same⟩ := List.append_inj (List.cons.inj same).2 rfl
  obtain ⟨offset, column⟩ := leftHex_cancel (List.cons.inj same).2
  exact ⟨BitVec.eq_of_toNat_eq first, BitVec.eq_of_toNat_eq last, letters,
    BitVec.eq_of_toNat_eq offset, lastColumn_eq column⟩

theorem printed_of_alike (alike : m.Alike m') : m.printed = m'.printed := by
  unfold Mapping.printed Mapping.lastColumn
  rw [alike.first, alike.last, alike.letters, alike.offset, alike.word]

/-- When alike mappings have the same offset and name, the printed lines can be read. -/
theorem recoverable_of {S : Set Mapping}
    (apart : ∀ m ∈ S, ∀ m' ∈ S, m.Alike m' → m.offset = m'.offset ∧ m.name = m'.name) :
    Recoverable S := by
  -- what is shown depends on the printed line alone
  have factors : Function.FactorsThrough (fun m : S => m.1.shown) (fun m : S => m.1.printed) := by
    intro m m' same
    have alike := alike_of_printed same
    obtain ⟨offset, name⟩ := apart m m.2 m' m'.2 alike
    simp only [Mapping.shown, alike.first, alike.last, alike.letters, offset, name]
  obtain ⟨read, reads⟩ := (Function.factorsThrough_iff _).mp factors
  refine ⟨read, fun m hm u => ?_⟩
  rw [printVmMaps_line, Option.map_some]
  exact congrArg some (congrFun reads ⟨m, hm⟩).symm

/-- With offsets of 32 bits, and names without blanks, everything can be recovered. -/
theorem plain_recoverable : Recoverable
    {m | m.offset.toNat < 2 ^ 32 ∧ (m.name = [] ∨ tokens m.name = [m.name])} := by
  have name {m : Mapping} (plain : m.name = [] ∨ tokens m.name = [m.name]) :
      m.name = ((tokens m.name)[0]?).getD [] := by
    obtain none | one := plain
    · rw [none]
      rfl
    · rw [one]
      rfl
  refine recoverable_of fun m hm m' hm' alike => ⟨?_, ?_⟩
  · have low := congrArg BitVec.toNat alike.offset
    rw [BitVec.toNat_setWidth, BitVec.toNat_setWidth, Nat.mod_eq_of_lt hm.1,
      Nat.mod_eq_of_lt hm'.1] at low
    exact BitVec.eq_of_toNat_eq low
  · rw [name hm.2, name hm'.2, alike.word]

/-- A set of mappings can be recovered exactly when alike ones in it have the same offset
and the same name. -/
theorem recoverable_iff (S : Set Mapping) : Recoverable S ↔
    ∀ m ∈ S, ∀ m' ∈ S, m.Alike m' → m.offset = m'.offset ∧ m.name = m'.name := by
  refine ⟨?_, recoverable_of⟩
  rintro ⟨read, recovers⟩ m hm m' hm' alike
  have u : MapsUninit := ⟨0, 0, 0⟩
  have shown := recovers m hm u
  have shown' := recovers m' hm' u
  rw [printVmMaps_line, printed_of_alike alike] at shown
  rw [printVmMaps_line, shown] at shown'
  have same : m.shown = m'.shown := Option.some.inj shown'
  exact ⟨congrArg MapFields.offset same, congrArg MapFields.name same⟩

namespace Fragment

/-- Two mappings of one range, of places in the file that are 2^32 bytes apart. -/
theorem offsets_notRecoverable : ¬ Recoverable {m | m.first.toNat < m.last.toNat} := by
  rintro ⟨read, recovers⟩
  have ordered (offset : Memory.Word) : (pieMapping 0x1000 0x2000 true offset).first.toNat <
      (pieMapping 0x1000 0x2000 true offset).last.toNat := by
    show (0x1000 : Addr).toNat < (0x2000 : Addr).toNat
    decide
  have low := recovers (pieMapping 0x1000 0x2000 true 0) (ordered _) ⟨0, 0, 0⟩
  have high := recovers (pieMapping 0x1000 0x2000 true 0x100000000) (ordered _) ⟨0, 0, 0⟩
  have same : (pieMapping 0x1000 0x2000 true 0).printed =
      (pieMapping 0x1000 0x2000 true 0x100000000).printed := rfl
  rw [printVmMaps_line, same] at low
  rw [printVmMaps_line, low] at high
  have offset := congrArg MapFields.offset (Option.some.inj high)
  exact absurd offset (by decide)

end Fragment

end Sdb
