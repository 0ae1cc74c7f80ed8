import AdvancedUnix.Sdb.Commands
import AdvancedUnix.Runs.Basic

/-!
# Sessions

A session is a list of commands, each with what the surroundings decide during
it, and of kills of a child by somebody else. A command is executed only at the
prompt. A child that is killed while the debugger waits for it makes the wait
loop report its end; a child that is killed at another time becomes a zombie.
-/

namespace Sdb

open Memory Traced

variable {K : Type}

/-- A command line of the debugger with its operands as the command loop passes
them on. -/
inductive Cmd where
  | start
  | run
  | cont
  | si
  | «break» (addrStr : List Char)
  | delete (index : Int)
  | disasm (addrStr : List Char)
  | dump (addrStr : List Char)
  | list
  | get (name : List Char)
  | getregs
  | vmmap
  | set (name : List Char) (val : Word)
  | load (filename : List Char)

def Cmd.exec (H : Host K) (env : Env K) : Cmd → World K → Result K
  | .start => sdbStart H env
  | .run => sdbRun H env
  | .cont => sdbCont H env
  | .si => sdbStep H env
  | .break addrStr => sdbSetBreak H env addrStr
  | .delete index => sdbDelete index
  | .disasm addrStr => sdbDisasm H env addrStr
  | .dump addrStr => sdbDump env addrStr
  | .list => sdbList
  | .get name => sdbGet env name
  | .getregs => sdbGetregs env
  | .vmmap => sdbVmmap H
  | .set name val => sdbSet env name val
  | .load filename => sdbLoad env filename

inductive Event (K : Type) where
  | command (cmd : Cmd) (env : Env K)
  | killed (pid : Pid)

/-- The status of a child killed by SIGKILL. -/
def sigkill : Nat := 9

/-- A live child is killed. -/
def World.kill (w : World K) (pid : Pid) : World K :=
  match w.child pid with
  | some (.live _ p) =>
    { w with child := Function.update w.child pid (some (.zombie sigkill (some p))) }
  | _ => w

/-- The wait loop collects the killed tracee, fails to wait again and ends. -/
def World.killWaited (w : World K) : Result K :=
  match w.current with
  | some (.live _ p) => childEnded sigkill (w.setChild (.reaped (some p)))
  | _ => childEnded sigkill w

def step (H : Host K) (r : Result K) : Event K → Result K
  | .command cmd env =>
    match r.ending with
    | .prompt _ => cmd.exec H env r.world
    | _ => r
  | .killed pid =>
    match r.ending with
    | .prompt out => ⟨r.world.kill pid, .prompt out⟩
    | .fault _ => r
    | _ => if pid = r.world.sdb.pid then r.world.killWaited else ⟨r.world.kill pid, r.ending⟩

/-- What an event can do: nothing, a command at the prompt, the end of a child,
or the end of the tracee that the debugger waits for. -/
inductive Stepped (H : Host K) (r : Result K) : Event K → Result K → Prop
  | ignored (e : Event K) : Stepped H r e r
  | command {cmd : Cmd} {env : Env K} {out : Output} (prompt : r.ending = .prompt out) :
      Stepped H r (.command cmd env) (cmd.exec H env r.world)
  | killed {pid : Pid} (noFault : ∀ f, r.ending ≠ .fault f)
      (other : (∃ out, r.ending = .prompt out) ∨ pid ≠ r.world.sdb.pid) :
      Stepped H r (.killed pid) ⟨r.world.kill pid, r.ending⟩
  | killWaited (noFault : ∀ f, r.ending ≠ .fault f) :
      Stepped H r (.killed r.world.sdb.pid) r.world.killWaited

theorem stepped (H : Host K) (r : Result K) (e : Event K) : Stepped H r e (step H r e) := by
  cases e with
  | command cmd env =>
      unfold step
      cases hr : r.ending with
      | prompt out => exact .command hr
      | waiting => exact .ignored _
      | stuck => exact .ignored _
      | fault f => exact .ignored _
  | killed pid =>
      by_cases atPrompt : ∃ out, r.ending = .prompt out
      · obtain ⟨out, hr⟩ := atPrompt
        have he : step H r (.killed pid) = ⟨r.world.kill pid, r.ending⟩ := by
          simp only [step, hr]
        rw [he]
        exact .killed (fun f hf => by rw [hr] at hf; cases hf) (.inl ⟨out, hr⟩)
      · by_cases fault : ∃ f, r.ending = .fault f
        · obtain ⟨f, hr⟩ := fault
          have he : step H r (.killed pid) = r := by simp only [step, hr]
          rw [he]
          exact .ignored _
        · have noFault : ∀ f, r.ending ≠ .fault f := fun f hf => fault ⟨f, hf⟩
          have he : step H r (.killed pid) = if pid = r.world.sdb.pid then r.world.killWaited
              else ⟨r.world.kill pid, r.ending⟩ := by
            unfold step
            cases hr : r.ending with
            | prompt out => exact absurd ⟨out, hr⟩ atPrompt
            | fault f => exact absurd hr (noFault f)
            | waiting => rfl
            | stuck => rfl
          rw [he]
          split
          · rename_i hpid
            subst hpid
            exact .killWaited noFault
          · rename_i other
            exact .killed noFault (.inr other)

/-- `sdb_create`. The slots keep what the allocation held, apart from their flag. -/
def SDB.create (fresh : Slot → Bp) : SDB where
  eh := none
  opened := 0
  strtab := none
  path := []
  pid := -1
  breaks i := { fresh i with isUsed := false }
  lastDisasmAddr := 0

/-- The debugger at its first prompt. -/
def created (fresh : Slot → Bp) : Result K :=
  ⟨{ sdb := SDB.create fresh, child := fun _ => none }, .prompt .silent⟩

/-- A session from a given state on. -/
abbrev session (H : Host K) (r : Result K) (events : List (Event K)) : Result K :=
  Runs.run (step H) r events

/-- A program was loaded and nothing has been done with it yet. -/
structure JustLoaded (w : World K) : Prop where
  handle : w.sdb.eh ≠ none
  loaded : w.sdb.isLoaded
  pid : w.sdb.pid = -1
  noChild : w.child (-1) = none
  unused : ∀ i, (w.sdb.breaks i).isUsed = false

end Sdb
