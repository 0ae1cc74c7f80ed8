import AdvancedUnix.X86.Call

/-!
# The system call stubs

Each `sys_` function is one expansion of the assembler macro `gensys`: it saves
`r10`, moves the fourth argument there from `rcx`, where the calling convention
has it and the kernel does not look, and makes the call with a fixed number.

A machine keeps the calls that have been made, as the kernel saw them. What the
kernel answers is open: a result, the two registers that the instruction
overwrites, and what becomes of the memory.
-/

namespace Libmini

open Memory X86

/-- A system call: the number and the kernel's six argument registers. -/
structure Request where
  number : Word
  args : List Word
  deriving DecidableEq

/-- What the kernel does on a call. -/
structure Answer where
  ret : Word
  rcx : Word
  r11 : Word
  mem : Bytes → Bytes

/-- A processor and the system calls it has made, the last one at the end. -/
structure Machine where
  cpu : X86.State
  calls : List Request

namespace Machine

/-- Run a block of assembler. -/
def asm (block : List Instr) (m : Machine) : Exit Machine :=
  (exec none block m.cpu).map fun cpu => { m with cpu }

/-- What the kernel reads when the instruction is executed. -/
def request (m : Machine) : Request where
  number := m.cpu.regs .rax
  args := [.rdi, .rsi, .rdx, .r10, .r8, .r9].map m.cpu.regs

/-- The `syscall` instruction. -/
def syscall (a : Answer) (m : Machine) : Machine where
  cpu := (((m.cpu.setReg .rax a.ret).setReg .rcx a.rcx).setReg .r11 a.r11).setMem
    (a.mem m.cpu.mem)
  calls := m.calls ++ [m.request]

/-- Call a function that returns to `site`. -/
def call (site : Addr) (fn : Machine → Exit Machine) (m : Machine) : Exit Machine :=
  match fn { m with cpu := m.cpu.push site } with
  | .left target m => if target = site then .fell m else .left target m
  | .fell m => .fell m

/-- A function that returns to where it was called from. -/
theorem call_of_left {site : Addr} {fn : Machine → Exit Machine} {m m' : Machine}
    (left : fn { m with cpu := m.cpu.push site } = .left site m') : call site fn m = .fell m' := by
  rw [call, left]
  exact if_pos rfl

end Machine

/-- The stubs of the assembler file. -/
inductive Sys
  | read | write | «open» | close | mmap | mprotect | munmap | rtSigaction | rtSigprocmask
  | rtSigreturn | pipe | dup | dup2 | pause | nanosleep | alarm | fork | exit | getcwd | chdir
  | rename | mkdir | rmdir | creat | link | unlink | readlink | chmod | chown | umask
  | gettimeofday | getuid | getgid | setuid | setgid | geteuid | getegid | rtSigpending
  deriving DecidableEq

/-- The first argument of each `gensys`. -/
def Sys.number : Sys → Word
  | read => 0
  | write => 1
  | «open» => 2
  | close => 3
  | mmap => 9
  | mprotect => 10
  | munmap => 11
  | rtSigaction => 13
  | rtSigprocmask => 14
  | rtSigreturn => 15
  | pipe => 22
  | dup => 32
  | dup2 => 33
  | pause => 34
  | nanosleep => 35
  | alarm => 37
  | fork => 57
  | exit => 60
  | getcwd => 79
  | chdir => 80
  | rename => 82
  | mkdir => 83
  | rmdir => 84
  | creat => 85
  | link => 86
  | unlink => 88
  | readlink => 89
  | chmod => 90
  | chown => 92
  | umask => 95
  | gettimeofday => 96
  | getuid => 102
  | getgid => 104
  | setuid => 105
  | setgid => 106
  | geteuid => 107
  | getegid => 108
  | rtSigpending => 127

/-- The macro `gensys`. -/
def gensys (number : Word) (a : Answer) (m : Machine) : Exit Machine :=
  (m.asm [.push .r10, .mov .rcx .r10, .movImm number .rax]).andThen fun m =>
    (m.syscall a).asm [.pop .r10, .ret]

def Sys.stub (s : Sys) (a : Answer) (m : Machine) : Exit Machine := gensys s.number a m

/-- The kernel leaves the `n` bytes below a stack pointer alone. -/
def Answer.Keeps (a : Answer) (sp : Addr) (n : Nat) : Prop :=
  ∀ m x, Below sp n x → a.mem m x = m x

theorem Answer.Keeps.load {a : Answer} {sp b : Addr} {n : Nat} (keeps : a.Keeps sp n) (m : Bytes)
    (inside : ∀ k < 8, Below sp n (byteAddr b k)) : load (a.mem m) b = load m b :=
  load_congr fun k hk => keeps m _ (inside k hk)

/-- The machine after a stub has returned. -/
def stubbed (number : Word) (a : Answer) (m : Machine) : Machine where
  cpu :=
    { m.cpu with
      regs := fun r => match r with
        | .rax => a.ret
        | .rcx => a.rcx
        | .r11 => a.r11
        | .rsp => m.cpu.regs .rsp + 8
        | r => m.cpu.regs r
      mem := a.mem (store m.cpu.mem (m.cpu.regs .rsp - 8) (m.cpu.regs .r10)) }
  calls := m.calls ++ [⟨number, [.rdi, .rsi, .rdx, .rcx, .r8, .r9].map m.cpu.regs⟩]

/-- A stub makes one call, with the arguments it was given, and returns. -/
theorem gensys_spec (number : Word) (a : Answer) (m : Machine)
    (keeps : a.Keeps (m.cpu.regs .rsp + 8) 16) :
    gensys number a m = .left m.cpu.top (stubbed number a m) := by
  have saved : load (a.mem (store m.cpu.mem (m.cpu.regs .rsp - 8) (m.cpu.regs .r10)))
      (m.cpu.regs .rsp - 8) = m.cpu.regs .r10 := by
    rw [keeps.load, load_store_same]
    intro k hk
    unfold Below
    simp only [byteAddr]
    bv_omega
  have back : load (a.mem (store m.cpu.mem (m.cpu.regs .rsp - 8) (m.cpu.regs .r10)))
      (m.cpu.regs .rsp) = m.cpu.top := by
    rw [keeps.load, load_store_of_apart (by bv_omega) (by bv_omega)]
    · rfl
    · intro k hk
      unfold Below
      simp only [byteAddr]
      bv_omega
  have above : m.cpu.regs .rsp - 8 + 8 = m.cpu.regs .rsp := BitVec.sub_add_cancel ..
  simp only [gensys, Machine.asm, exec, step, Exit.map_fell, Exit.andThen_fell, Machine.syscall,
    State.push_regs, State.push_mem, State.setReg_regs, State.setReg_mem, State.setMem_regs,
    State.setMem_mem, State.top, State.drop_regs, State.drop_mem, Exit.map_left, Machine.request,
    Function.update_self, Function.update_of_ne, ne_eq, reduceCtorEq, not_false_eq_true, saved,
    above, back]
  refine congrArg (Exit.left m.cpu.top) ?_
  rw [stubbed, Machine.mk.injEq]
  refine ⟨State.ext (funext fun r => ?_) rfl rfl rfl, ?_⟩
  · cases r <;> simp
  · simp

end Libmini
