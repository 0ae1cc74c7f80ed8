import AdvancedUnix.Elf.Load
import AdvancedUnix.Sdb.Scan
import AdvancedUnix.Traced.Basic

/-!
# The debugger, its child processes and what the surroundings decide

`SDB` is the structure of `sdb.h`. A `World` is the debugger together with the
child processes it has started; `Env` holds what one command cannot know in
advance: the outcome of `fork`, `execlp` and each `waitpid`, the files, how many
instructions a resumed tracee executes before we look, and what uninitialised
variables happen to hold.

A child keeps its process record after its death, as a record of what it
executed; only its state says whether the kernel still knows it.
-/

namespace Sdb

open Memory Traced

def maxBreak : Nat := 10

abbrev Slot := Fin maxBreak

/-- `bp_t`. -/
structure Bp where
  isUsed : Bool
  addr : Addr
  originalWord : Word
  deriving DecidableEq

abbrev Pid := Int

/-- A pointer to a node of the string table list of the handle opened as number
`owner`. -/
structure StrtabPtr where
  owner : Nat
  id : Nat
  deriving DecidableEq

/-- `SDB`. `opened` numbers the handles opened so far, the latest one being
`eh`; the Capstone handle never changes and is left out. -/
structure SDB where
  eh : Option Elf.Handle
  opened : Nat
  strtab : Option StrtabPtr
  path : List Char
  pid : Pid
  breaks : Slot → Bp
  lastDisasmAddr : Addr

/-- `sdb_is_loaded`. -/
def SDB.isLoaded (sdb : SDB) : Bool := sdb.path ≠ []

/-- `sdb_is_running`. -/
def SDB.isRunning (sdb : SDB) : Bool := sdb.pid ≠ -1

/-- An instruction as Capstone describes it. -/
structure CsInsn where
  address : Addr
  bytes : List Byte
  mnemonic : List Char
  opStr : List Char

/-- The processor, the kernel's view of an address space, and Capstone. -/
structure Host (K : Type) extends Platform K where
  /-- The lines of `/proc/<pid>/maps`. -/
  maps : K → List (List Char)
  maps_listed : ∀ e, Listed (maps e)
  csDisasm : List Byte → Addr → List CsInsn

inductive RunState where
  /-- in a stop that the debugger has been told about -/
  | stopped
  /-- in a stop that the next `waitpid` reports -/
  | pending (sig : Nat)
  | running

/-- A child process. The record of an ended child is `none` when its `execlp`
failed. -/
inductive Child (K : Type) where
  | live (state : RunState) (proc : Proc K)
  | zombie (status : Nat) (proc : Option (Proc K))
  | reaped (proc : Option (Proc K))

structure World (K : Type) where
  sdb : SDB
  child : Pid → Option (Child K)

/-- The calls of `waitpid`: after `fork`, in the pass over a slot, in the wait
loop (by iteration) and in `sdb_step`. -/
inductive WaitSite where
  | exec
  | slot (i : Slot)
  | loop (n : Nat)
  | step
  deriving DecidableEq

/-- What variables hold that the code reads without having set them. -/
structure Uninit where
  regs : UserRegs
  base : Addr
  addr : Addr
  /-- an operand buffer after its terminator -/
  tail : List Char
  status : Nat
  regVal : Word
  buffer : Nat → Byte

/-- What the surroundings decide during one command. -/
structure Env (K : Type) where
  /-- `fork` fails or returns an identifier. -/
  fork : Option { pid : Pid // 0 < pid }
  /-- `execlp` fails, or starts the program from this image. -/
  exec : Option (Image K)
  /-- `waitpid` is not interrupted. -/
  waits : WaitSite → Bool
  /-- How many instructions a resumed tracee executes at most. -/
  fuel : Nat
  /-- `fopen` and the contents of a file. -/
  read : List Char → Option (List Byte)
  elf : Elf.Env
  uninit : Uninit

/-- Undefined behaviour: the debugger does not go on from here. -/
inductive Fault where
  | nullHandle
  | nullTable
  | deadStrtab
  | outOfBounds
  | noMaps
  | noFile
  | wildSlot
  | pathOverrun
  | elf (fault : Elf.Fault)
  deriving DecidableEq

/-- What a command prints, apart from fixed texts. -/
inductive Output where
  | message (text : String)
  | breakpoint (slot : Slot) (vaddr : Addr) (buffer : Word)
  | ended (pid : Pid) (status : Nat)
  | pid (pid : Pid)
  | breaks (entries : List (Slot × Addr))
  | insns (insns : List CsInsn)
  | dump (addr : Addr) (buffer : List Byte)
  | reg (name : List Char) (val : Word)
  | regs (regs : UserRegs)
  | text (begin «end» offset : Word) (path : List Char)
  | maps (lines : List (List Char))
  | silent

/-- How a command is left: back at the prompt, waiting for a running tracee,
waiting for a tracee that is stopped, or not defined. -/
inductive Ending where
  | prompt (out : Output)
  | waiting
  | stuck
  | fault (fault : Fault)

structure Result (K : Type) where
  world : World K
  ending : Ending

variable {K : Type}

namespace World

def setPid (w : World K) (pid : Pid) : World K := { w with sdb := { w.sdb with pid := pid } }

def setBreak (w : World K) (i : Slot) (bp : Bp) : World K :=
  { w with sdb := { w.sdb with breaks := Function.update w.sdb.breaks i bp } }

def setLastDisasmAddr (w : World K) (a : Addr) : World K :=
  { w with sdb := { w.sdb with lastDisasmAddr := a } }

/-- Replace the record of the child that the debugger holds the identifier of. -/
def setChild (w : World K) (c : Child K) : World K :=
  { w with child := Function.update w.child w.sdb.pid (some c) }

@[simp] theorem setPid_pid (w : World K) (pid : Pid) : (w.setPid pid).sdb.pid = pid := rfl
@[simp] theorem setPid_child (w : World K) (pid : Pid) : (w.setPid pid).child = w.child := rfl
@[simp] theorem setPid_breaks (w : World K) (pid : Pid) :
    (w.setPid pid).sdb.breaks = w.sdb.breaks := rfl
@[simp] theorem setPid_eh (w : World K) (pid : Pid) : (w.setPid pid).sdb.eh = w.sdb.eh := rfl
@[simp] theorem setPid_path (w : World K) (pid : Pid) : (w.setPid pid).sdb.path = w.sdb.path := rfl

@[simp] theorem setBreak_pid (w : World K) (i : Slot) (bp : Bp) :
    (w.setBreak i bp).sdb.pid = w.sdb.pid := rfl
@[simp] theorem setBreak_child (w : World K) (i : Slot) (bp : Bp) :
    (w.setBreak i bp).child = w.child := rfl
@[simp] theorem setBreak_breaks (w : World K) (i : Slot) (bp : Bp) :
    (w.setBreak i bp).sdb.breaks = Function.update w.sdb.breaks i bp := rfl
@[simp] theorem setBreak_eh (w : World K) (i : Slot) (bp : Bp) :
    (w.setBreak i bp).sdb.eh = w.sdb.eh := rfl
@[simp] theorem setBreak_path (w : World K) (i : Slot) (bp : Bp) :
    (w.setBreak i bp).sdb.path = w.sdb.path := rfl

theorem setBreak_self {w : World K} {i : Slot} {bp : Bp} (h : w.sdb.breaks i = bp) :
    w.setBreak i bp = w := by
  subst h
  simp [setBreak]

@[simp] theorem setLastDisasmAddr_pid (w : World K) (a : Addr) :
    (w.setLastDisasmAddr a).sdb.pid = w.sdb.pid := rfl
@[simp] theorem setLastDisasmAddr_child (w : World K) (a : Addr) :
    (w.setLastDisasmAddr a).child = w.child := rfl
@[simp] theorem setLastDisasmAddr_breaks (w : World K) (a : Addr) :
    (w.setLastDisasmAddr a).sdb.breaks = w.sdb.breaks := rfl
@[simp] theorem setLastDisasmAddr_eh (w : World K) (a : Addr) :
    (w.setLastDisasmAddr a).sdb.eh = w.sdb.eh := rfl
@[simp] theorem setLastDisasmAddr_path (w : World K) (a : Addr) :
    (w.setLastDisasmAddr a).sdb.path = w.sdb.path := rfl

@[simp] theorem setChild_sdb (w : World K) (c : Child K) : (w.setChild c).sdb = w.sdb := rfl

@[simp] theorem setChild_child (w : World K) (c : Child K) :
    (w.setChild c).child w.sdb.pid = some c := Function.update_self _ _ _

theorem setChild_child_ne (w : World K) (c : Child K) {q : Pid} (h : q ≠ w.sdb.pid) :
    (w.setChild c).child q = w.child q := Function.update_of_ne h _ _

end World

end Sdb
