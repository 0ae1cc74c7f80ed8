import AdvancedUnix.Sdb.Session

/-!
# A few x86-64 instructions

An executable host for concrete sessions: `nop`, a short `jmp`, `hlt`, `int3`
and the exit system call behave as on the real processor, and every other byte
is an illegal instruction. The memory map of a process never changes.
-/

namespace Sdb.Fragment

open Memory Traced

abbrev Maps := { lines : List (List Char) // Listed lines }

/-- The decoded length of the instruction at a processor state. -/
def len (c : Cpu Maps) : Nat :=
  match c.mem c.rip with
  | some 0xeb => 2
  | some 0x0f => 2
  | _ => 1

/-- `jmp rel8` counts from the end of the instruction. -/
def jumpTarget (a : Addr) (rel : Byte) : Addr := a + 2 + rel.signExtend 64

def exec (c : Cpu Maps) : Cpu Maps × Option Halt :=
  match c.mem c.rip with
  | some 0x90 => (c.setRip (c.rip + 1), none)
  | some 0xcc => (c.setRip (c.rip + 1), some (.signal sigtrap))
  | some 0xeb =>
    match c.mem (byteAddr c.rip 1) with
    | some rel => (c.setRip (jumpTarget c.rip rel), none)
    | none => (c, some (.signal 11))
  | some 0x0f =>
    match c.mem (byteAddr c.rip 1) with
    | some 0x05 =>
      if c.regs.rax = 60 then
        (c.setRip (c.rip + 2), some (.exit (256 * (c.regs.rdi.toNat % 256))))
      else (c.setRip (c.rip + 2), none)
    | some _ => (c, some (.signal 4))
    | none => (c, some (.signal 11))
  | some 0xf4 => (c, some (.signal 11))
  | some _ => (c, some (.signal 4))
  | none => (c, some (.signal 11))

/-- Linear decoding of the same instructions. -/
def csDisasm : List Byte → Addr → List CsInsn
  | 0x90 :: bytes, a => ⟨a, [0x90], "nop".toList, []⟩ :: csDisasm bytes (a + 1)
  | 0xcc :: bytes, a => ⟨a, [0xcc], "int3".toList, []⟩ :: csDisasm bytes (a + 1)
  | 0xf4 :: bytes, a => ⟨a, [0xf4], "hlt".toList, []⟩ :: csDisasm bytes (a + 1)
  | 0xeb :: rel :: bytes, a => ⟨a, [0xeb, rel], "jmp".toList, []⟩ :: csDisasm bytes (a + 2)
  | 0x0f :: 0x05 :: bytes, a =>
    ⟨a, [0x0f, 0x05], "syscall".toList, []⟩ :: csDisasm bytes (a + 2)
  | _, _ => []

def host : Host Maps where
  len := len
  exec := exec
  len_pos c := by unfold len; split <;> decide
  exec_trap c h := by simp [exec, h, trapByte]
  maps e := e.1
  maps_listed e := e.2
  csDisasm := csDisasm

/-- None of these instructions writes memory or moves a mapping. -/
theorem next_frame (c : Cpu Maps) : (host.next c).mem = c.mem ∧ (host.next c).ext = c.ext := by
  simp only [Platform.next, host, exec]
  repeat' split
  all_goals exact ⟨rfl, rfl⟩

def noRegs : UserRegs :=
  ⟨0, 0, 0, 0, 0, 0, 0, 0, 0, 0, 0, 0, 0, 0, 0, 0, 0, 0, 0, 0, 0, 0, 0, 0, 0, 0, 0⟩

/-- One line of a memory map, for a program that is loaded where it was linked. -/
def someMaps : Maps :=
  ⟨["00400000-00401000 r-xp 00000000 08:01 131 /bin/prog".toList], by decide⟩

/-- A process about to execute the first byte of `code`, mapped at `base`. -/
def image (maps : Maps) (base : Addr) (code : List Byte) : Image Maps where
  cpu := ⟨{ noRegs with rip := base, rax := 60 }, fun a => code[(a - base).toNat]?, maps⟩
  text a := (a - base).toNat < code.length

/-- A file with two sections, `.text` and the names of the sections. -/
def file (type : Nat) : Elf.File where
  ident := fun i => if i = 4 then 2 else 0
  ehdr := some ⟨type, 1, 3, 2, 0x400000⟩
  phdrs := some fun _ => ⟨1, 0, 0x400000, 0x400000, 0x1000, 0x1000, 5, 0x1000⟩
  scns := [(1, some ⟨1, 1, 6, 0x400000, 0, 16, 0, 0, 16, 0⟩),
    (2, some ⟨0, Elf.SHT_STRTAB, 0, 0, 0, 7, 0, 0, 1, 0⟩)]
  bytes := [0x00, 0x2e, 0x74, 0x65, 0x78, 0x74, 0x00]

/-- A fixed-address program at `/bin/prog` and a position independent one at `/bin/pie`. -/
def files (filename : List Char) : Option Elf.File :=
  if filename = "/bin/prog".toList then some (file 2)
  else if filename = "/bin/pie".toList then some (file 3)
  else none

/-- Every call succeeds, and a resumed tracee executes at most `fuel` instructions. -/
def env (pid : { pid : Pid // 0 < pid }) (image : Image Maps) (fuel : Nat) : Env Maps where
  fork := some pid
  exec := some image
  waits _ := true
  fuel := fuel
  read _ := none
  elf := ⟨files, fun _ => true, fun _ => true, fun _ => ⟨0, 0, 0, 0, 0, 0, 0, 0, 0, 0⟩, true⟩
  uninit := ⟨noRegs, 0, 0, [], 0, 0, fun _ => 0⟩

theorem seven_pos : (0 : Pid) < 7 := by
  decide

/-- A command in surroundings where every call succeeds. -/
def cmd (image : Image Maps) (fuel : Nat) (c : Cmd) : Event Maps :=
  .command c (env ⟨7, by decide⟩ image fuel)

/-- A program of sixteen `nop`s. -/
def nops : Image Maps := image someMaps 0x400000 (List.replicate 16 0x90)

/-- The debugger at its first prompt. -/
def fresh : Result Maps := created fun _ => ⟨false, 0, 0⟩

/-- The debugger after the fixed-address program was loaded. -/
def loaded : Result Maps := session host fresh [cmd nops 64 (.load "/bin/prog".toList)]

theorem loaded_justLoaded : JustLoaded loaded.world :=
  ⟨Option.some_ne_none _, rfl, rfl, rfl, fun _ => rfl⟩

/-- Two `nop`s, and the program exits. -/
def exiting : Image Maps := image someMaps 0x400000 [0x90, 0x90, 0x0f, 0x05]

/-- Three `nop`s, and the program exits. -/
def exitingLater : Image Maps :=
  image someMaps 0x400000 ([0x90, 0x90, 0x90, 0x0f, 0x05] ++ List.replicate 11 0x90)

end Sdb.Fragment
