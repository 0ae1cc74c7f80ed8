import AdvancedUnix.Slots.Basic

/-!
# A debugger that does not disturb its program

A program is a deterministic machine with an address for each of its states. The user of
a debugger wants to see that machine and nothing else: which breakpoints are set, where
the program stands in its own execution, and what the last command has to show of it.
`View` is this, and `apply` is what the commands should do to it.

There are no traps and no saved words here. A breakpoint is an address of the program's
file, and `place` says where the loader has put it.
-/

namespace Debugging

open Slots

/-- A deterministic program. -/
structure Machine (S A E : Type) where
  next : S → S
  /-- How the instruction at a state ends the program, if it does. -/
  ends : S → Option E
  pc : S → A

/-- Where a program gets to: a stop, its end, or no further than it was watched. -/
inductive Arrival (S E : Type) where
  | hit (s : S)
  | ended (e : E)
  | going (s : S)

/-- A program that stands still. `seen` says that it was reported here, so that the
breakpoint at this place does not stop it again. -/
structure Stand (S A : Type) where
  state : S
  place : A → A
  seen : Bool

inductive Tracee (S A : Type) where
  | none
  | stopped (t : Stand S A)
  | running

/-- What a command shows. -/
inductive Shown (n : Nat) (S A E : Type) where
  | nothing
  | reported (a : A)
  | ended (e : E)
  | waiting
  | entries (es : List (Fin n × A))
  | state (s : S)

structure View (n : Nat) (S A E : Type) where
  table : Table n A
  tracee : Tracee S A
  shown : Shown n S A E

/-- The commands. `look` stands for those that show other things than the state, and
`time` is how long the debugger is watched while it waits. -/
inductive Op (S A : Type) where
  | break (a : A)
  | delete (k : Int)
  | start (s : S) (place : A → A)
  | run (time : Nat) (s : S) (place : A → A)
  | cont (time : Nat)
  | si
  | list
  | state
  | look

section

variable {n : Nat} {S A E : Type} [DecidableEq A]

/-- A breakpoint of the table is at this address. -/
def Hits (t : Table n A) (place : A → A) (a : A) : Prop := ∃ i, (t i).map place = some a

instance (t : Table n A) (place : A → A) (a : A) : Decidable (Hits t place a) :=
  inferInstanceAs (Decidable (∃ i, (t i).map place = some a))

namespace Machine

variable (M : Machine S A E)

/-- Execute up to the next breakpoint, at most so many instructions. -/
def runTo (t : Table n A) (place : A → A) : Nat → S → Arrival S E
  | 0, s => .going s
  | time + 1, s =>
    if Hits t place (M.pc s) then .hit s
    else
      match M.ends s with
      | some e => .ended e
      | none => runTo t place time (M.next s)

/-- Go on from where the program stands. -/
def resume (t : Table n A) (time : Nat) (d : Stand S A) : Arrival S E :=
  if Hits t d.place (M.pc d.state) ∧ d.seen then
    match M.ends d.state with
    | some e => .ended e
    | none => M.runTo t d.place time (M.next d.state)
  else M.runTo t d.place time d.state

/-- What the user sees of a program that was resumed. -/
def arrive (v : View n S A E) (place : A → A) : Arrival S E → View n S A E
  | .hit s => { v with tracee := .stopped ⟨s, place, true⟩, shown := .reported (M.pc s) }
  | .ended e => { v with tracee := .none, shown := .ended e }
  | .going _ => { v with tracee := .running, shown := .waiting }

def cont (v : View n S A E) (time : Nat) (d : Stand S A) : View n S A E :=
  M.arrive v d.place (M.resume v.table time d)

/-- One instruction. -/
def si (v : View n S A E) (d : Stand S A) : View n S A E :=
  match M.ends d.state with
  | some e => { v with tracee := .none, shown := .ended e }
  | none => { v with tracee := .stopped ⟨M.next d.state, d.place, false⟩, shown := .nothing }

/-- What a command does. While the debugger waits for the program it takes none. -/
def apply (v : View n S A E) (op : Op S A) : View n S A E :=
  match v.tracee, op with
  | .running, _ => v
  | _, .break a => { v with table := v.table.put a, shown := .nothing }
  | _, .delete k => { v with table := v.table.remove k, shown := .nothing }
  | _, .start s place => { v with tracee := .stopped ⟨s, place, false⟩, shown := .nothing }
  | .stopped d, .run time _ _ => M.cont v time d
  | .none, .run time s place => M.cont v time ⟨s, place, true⟩
  | .stopped d, .cont time => M.cont v time d
  | .stopped d, .si => M.si v d
  | .stopped d, .state => { v with shown := .state d.state }
  | _, .list => { v with shown := .entries v.table.entries }
  | _, _ => { v with shown := .nothing }

end Machine

/-- A debugger that was just started. -/
def View.initial : View n S A E := ⟨fun _ => none, .none, .nothing⟩

end

end Debugging
