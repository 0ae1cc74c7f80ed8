import AdvancedUnix.Fsmon.Names
import AdvancedUnix.Fsmon.Newline
import AdvancedUnix.Fsmon.Stat
import AdvancedUnix.Text.Fields

/-!
# The log

A message is printed by its format: what a conversion prints of a value are the lower half of a
number, one byte of it, or the string behind a pointer. The names, the escapes and the texts for
a status come from static arrays, which keep what they hold from one call to the next.

The line goes to the end of the file that the environment names when the message is written, or
to the standard error output.
-/

namespace Fsmon

open Memory X86 Text

/-- The bytes of a text of the source. -/
def ascii (s : List Char) : List Byte := s.map fun c => BitVec.ofNat 8 c.toNat

/-- The conversions in the formats of the monitor. -/
inductive Conv
  | string | int | hex | char
  deriving DecidableEq

def Conv.of : Char → Option Conv
  | 's' => some .string
  | 'd' => some .int
  | 'X' => some .hex
  | 'c' => some .char
  | _ => none

/-- The text in front of the first conversion of a format, and each conversion with the text up
to the next one. -/
def parseFormat : List Char → List Char × List (Conv × List Char)
  | [] => ([], [])
  | [c] => ([c], [])
  | c :: k :: rest =>
      match if c = '%' then Conv.of k else none with
      | some conv =>
          let parsed := parseFormat rest
          ([], (conv, parsed.1) :: parsed.2)
      | none =>
          let parsed := parseFormat (k :: rest)
          (c :: parsed.1, parsed.2)

/-- What is printed for a conversion. -/
inductive Field
  | string (s : CString)
  | int (v : BitVec 32)
  | hex (v : BitVec 32)
  | char (c : Byte)
  deriving DecidableEq

def Field.text : Field → List Byte
  | string s => s.bytes
  | int v => (printed v.toInt).bytes
  | hex v => ascii (numeral upperDigit 16 v.toNat)
  | char c => [c]

/-- What is passed for a conversion: a number or a pointer of the program, or a pointer to a
string that the monitor has found. -/
inductive Argument
  | word (v : Word)
  | text (s : CString)

def null : CString := literal "(null)" (by decide)

/-- What a conversion prints of an argument, given the strings in memory. -/
def Conv.field (strings : Word → Option CString) : Conv → Argument → Option Field
  | string, .word v => if v = 0 then some (.string null) else (strings v).map .string
  | string, .text s => some (.string s)
  | int, .word v => some (.int (v.setWidth 32))
  | hex, .word v => some (.hex (v.setWidth 32))
  | char, .word v => some (.char (v.setWidth 8))
  | _, .text _ => none

def fields (strings : Word → Option CString) : List Conv → List Argument → Option (List Field)
  | [], [] => some []
  | conv :: convs, a :: as =>
      (conv.field strings a).bind fun f => (fields strings convs as).map (f :: ·)
  | _, _ => none

/-- A call of a function of the monitor: its parameters, what the library returns, leaves in an
object that it frees, stores as a status and leaves as strings in memory, the value of
`MONITOR_OUTPUT` and whether the file with this name can be opened. -/
structure Call where
  func : Fn
  params : Nat → Word
  ret : Word
  freed : Option Int
  stored : Word → Option Stat
  strings : Word → Option CString
  output : Option (List Char)
  opened : Bool

/-- The static data of the monitor and what it reads of the program's. -/
structure Monitor where
  world : World
  buffers : Buffers
  stat : StatWorld

/-- The call of `write_msg`: whose message it is, the message, and what is printed. -/
structure Entry where
  func : Fn
  message : Message
  fields : List Field

/-- The name in a directory entry stands behind its other members. -/
def dName : Word := 19

section

variable (c : Call) (m : Monitor)

def Monitor.verbose (v : Word) : Option (Argument × Monitor) :=
  (if v = 0 then some none else (c.strings v).map some).bind fun format =>
    (convertToVerboseNewline format m.buffers).map fun r =>
      (r.1.elim (.word 0) .text, { m with buffers := r.2 })

/-- An argument of `write_msg`, behind the lookups of the names. -/
def Monitor.argument : Shown → Option (Argument × Monitor)
  | .param i => some (.word (c.params i), m)
  | .ret => some (.word c.ret, m)
  | .name _ _ | .filename => m.world.filename.text.map fun t => (.text t, m)
  | .verboseParam i => m.verbose c (c.params i)
  | .verboseRet => m.verbose c c.ret
  | .entryName => some (.word (c.ret + dName), m)
  | .verboseStat i =>
      (getVerboseStat (m.stat.stats (c.params i)) m.stat.arrays).map fun r =>
        (.text r.1, { m with stat := { m.stat with arrays := r.2 } })

end

def Monitor.arguments (c : Call) : List Shown → Monitor → Option (List Argument × Monitor)
  | [], m => some ([], m)
  | s :: ss, m =>
      (m.argument c s).bind fun r =>
        (Monitor.arguments c ss r.2).map fun rest => (r.1 :: rest.1, rest.2)

def Message.slots (m : Message) : List (Conv × List Char) := (parseFormat m.format.toList).2

/-- A step of a function of the monitor, with what it hands to `write_msg`. -/
def Monitor.step (c : Call) (m : Monitor) : Step → Option (List Entry × Monitor)
  | .keep n i => (m.world.lookup n (c.params i)).map fun w => ([], { m with world := w })
  | .call => some ([],
      { m with world := m.world.call c.func c.params c.freed, stat := m.stat.call c.stored })
  | .log msg =>
      (World.lookups c.params msg.lookups m.world).bind fun w =>
        (Monitor.arguments c msg.shown { m with world := w }).bind fun r =>
          if c.output.isSome ∧ ¬ c.opened then none
          else (fields c.strings (msg.slots.map Prod.fst) r.1).map fun fs =>
            ([⟨c.func, msg, fs⟩], r.2)

def Monitor.steps (c : Call) : List Step → Monitor → Option (List Entry × Monitor)
  | [], m => some ([], m)
  | s :: ss, m =>
      (m.step c s).bind fun r =>
        (Monitor.steps c ss r.2).map fun rest => (r.1 ++ rest.1, rest.2)

/-- A call of a function of the monitor. -/
def Monitor.call (c : Call) : Monitor → Option (List Entry × Monitor) :=
  Monitor.steps c (c.func.wrapper.steps c.ret)

/-- Calls one after the other: what each of them hands to `write_msg`, with the value of
`MONITOR_OUTPUT` then. -/
def Monitor.calls : List Call → Monitor → Option (List (Option (List Char) × Entry) × Monitor)
  | [], m => some ([], m)
  | c :: cs, m =>
      (m.call c).bind fun r =>
        (Monitor.calls cs r.2).map fun rest => (r.1.map (Prod.mk c.output) ++ rest.1, rest.2)

/-- What is printed for a message. -/
def Entry.line (e : Entry) : List Byte :=
  ascii (parseFormat e.message.format.toList).1 ++
    fill (e.message.slots.map fun slot => ascii slot.2) (e.fields.map Field.text)

end Fsmon
