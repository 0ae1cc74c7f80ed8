import AdvancedUnix.Fsmon.Log

/-!
# When a message can be written

A function of the monitor puts its message together from what the program hands it, and it
looks at none of that first. An object may have no descriptor, a descriptor no link, a
pointer no string behind it; a line may be too long for its array, or a status; and the file
for the log may not open. `Loggable` is the exact condition for a call to come to its end.
-/

namespace Fsmon

open Memory X86 Text

/-- The string is not empty, and behind the copy of a line the array has a terminator. -/
def Buffers.Takes (b : Buffers) (s : CString) : Prop :=
  s.bytes ≠ [] ∧ (EndsLine s → 0#8 ∈ b.buff1.bytes.drop (body s).length)

/-- A pointer to a string whose newline is made visible. -/
def Shown.line? (c : Call) : Shown → Option Word
  | verboseParam i => some (c.params i)
  | verboseRet => some c.ret
  | _ => none

/-- A value that is printed as a string wherever it comes from. -/
def Shown.isText : Shown → Bool
  | param _ | ret | entryName => false
  | _ => true

/-- The values that a message prints as strings. -/
def Message.strings (m : Message) : List Shown :=
  ((m.slots.map Prod.fst).zip m.shown).filterMap fun p =>
    if p.1 = .string then some p.2 else none

/-- What the monitor reads of the program's after the call of the library. -/
def Monitor.left (c : Call) (m : Monitor) : Monitor :=
  { m with world := m.world.call c.func c.params c.freed, stat := m.stat.call c.stored }

section Arrays

end Arrays

section Arguments

variable {c : Call} {m m' : Monitor} {s : Shown} {ss : List Shown}

/-- The value can be handed to `write_msg`. -/
structure Shown.Ready (c : Call) (m : Monitor) (s : Shown) : Prop where
  line : ∀ v, s.line? c = some v → v = 0 ∨ ∃ t, c.strings v = some t ∧ m.buffers.Takes t
  status : ∀ i, s = .verboseStat i → (m.stat.stats (c.params i)).Fits
  name : s.isName → m.world.filename.text.isSome

end Arguments

section Fields

variable {c : Call} {m m' : Monitor} {s : Shown} {ss : List Shown} {as : List Argument}

end Fields

section Messages

variable {f : Fn} {ret : Word} {msg : Message}

end Messages

section Calls

variable {c : Call} {m : Monitor} {msg : Message}

end Calls

end Fsmon
