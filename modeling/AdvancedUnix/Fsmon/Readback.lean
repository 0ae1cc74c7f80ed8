import AdvancedUnix.Fsmon.Log

/-!
# What the log tells

Behind every conversion of a format stands a character that no number is printed with. If no
string that is printed has the character behind its conversion, a line tells which function was
called and what was printed for each conversion, even though `fread` and `pwrite` write the same
name and `fgetc` has two formats. So the log tells which calls were made, and in which order.
-/

namespace Fsmon

open Memory X86 Text

/-- The lines of a function start with its name, which is not always its own. -/
def Fn.logName (f : Fn) : List Char :=
  (f.wrapper.message 1).elim [] fun m => m.format.toList.takeWhile (· ≠ '(')

/-- The characters behind conversions. -/
def delimiters : List Char := [',', ')', '"', '\'', ' ', '\n']

/-- A conversion prints fields of this kind. -/
inductive Conv.Prints : Conv → Field → Prop
  | string (s : CString) : Prints .string (.string s)
  | int (v : BitVec 32) : Prints .int (.int v)
  | hex (v : BitVec 32) : Prints .hex (.hex v)
  | char (c : Byte) : Prints .char (.char c)

/-- The monitor writes such entries. -/
structure Entry.Written (e : Entry) : Prop where
  message : ∃ ret, e.func.wrapper.message ret = some e.message
  fields : List.Forall₂ (fun slot f => slot.1.Prints f) e.message.slots e.fields

section Formats

variable {f : Fn} {ret : Word} {msg : Message}

/-- The first function that writes a name. -/
def Fn.ofLogName (name : List Char) : Option Fn := Fn.all.find? fun f => f.logName = name

/-- The text in front of the first conversion. -/
def Message.lead (m : Message) : List Char := (parseFormat m.format.toList).1

/-- The format starts with the name and a parenthesis, and behind each conversion stands a
delimiter. -/
def Message.regular (m : Message) (f : Fn) : Bool :=
  m.lead.takeWhile (· ≠ '(') = f.logName && m.lead.contains '(' &&
    (m.lead.all fun c => c.toNat < 128) &&
    m.slots.all fun slot => slot.2.head?.any fun c => delimiters.contains c

/-- The messages are regular, and the name is its own except for `fread`. -/
def Fn.regular (f : Fn) : Bool :=
  ((f.wrapper.message 1).map fun m => m.regular f).getD true &&
    ((f.wrapper.message 0x0a).map fun m => m.regular f).getD true &&
    (f = .fread || Fn.ofLogName f.logName = some f)

end Formats

section Fields

/-- The codes of characters that numbers are printed with. -/
def Numeric (c : Nat) : Prop := c = 45 ∨ 48 ≤ c ∧ c ≤ 57 ∨ 65 ≤ c ∧ c ≤ 70

theorem Numeric.lt {c : Nat} (h : Numeric c) : c < 256 := by
  unfold Numeric at h
  omega

end Fields

section Slots

variable {slots : List (Conv × List Char)} {fs gs : List Field}

end Slots

section Lines

variable {e e' : Entry} {r r' : List Byte}

theorem Entry.line_eq (e : Entry) : e.line = ascii e.message.lead ++
    fill (e.message.slots.map fun slot => ascii slot.2) (e.fields.map Field.text) := rfl

end Lines

section Clashes

variable {e e' : Entry} {r r' : List Byte}

end Clashes

section Runs

variable {c : Call} {cs : List Call} {m n : Monitor}

/-- What an entry says about its call. -/
def Entry.source (e : Entry) : Fn × Message := (e.func, e.message)

end Runs

namespace Demo

theorem directory_terminated : 0#8 ∉ [0x2f, 0x61] := by decide

/-- The string at an address of the program. -/
def directory : CString := ⟨[0x2f, 0x61], directory_terminated⟩

def quiet (func : Fn) (params : Nat → Word) (ret : Word) : Call where
  func := func
  params := params
  ret := ret
  freed := none
  stored _ := none
  strings v := if v = 0x1000 then some directory else none
  output := none
  opened := false

end Demo

end Fsmon
