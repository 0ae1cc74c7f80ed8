import AdvancedUnix.Libmini.Syscall
import AdvancedUnix.X86.Convention

/-!
# The system call wrappers

Almost every wrapper of the library is the same C function up to its types: it
passes its parameters on to a stub, clears `errno`, and turns a negative result
into minus one or a null pointer with the positive code in `errno`. `open` has
a variable argument list and is written in assembler.

Arguments and results are at the level of the machine's registers. The upper
half of a register that holds a 32-bit value is unspecified, both when it is
passed and when it is read, and so are the frame and the return addresses that
the compiler chooses.
-/

namespace Libmini

open Memory X86

/-- The names of the wrappers. -/
inductive Fn
  | read | write | «open» | close | mmap | mprotect | munmap | pipe | dup | dup2 | pause
  | nanosleep | alarm | fork | getcwd | chdir | rename | mkdir | rmdir | creat | link | unlink
  | readlink | chmod | chown | umask | gettimeofday | getuid | getgid | setuid | setgid
  | geteuid | getegid | sigprocmask | sigpending
  deriving DecidableEq

/-- What a wrapper calls. -/
inductive Target
  | sys (s : Sys)
  | fn (f : Fn)

/-- A wrapper in C: it passes its parameters and then some constants on, and
returns the result or, where that is negative, a failure value. -/
structure Wrapper where
  params : List CType
  target : Target
  consts : List Word
  failure : Word
  result : CType

/-- A wrapper that ends in `WRAPPER_RETval`. -/
def retval (params : List CType) (s : Sys) (result : CType) : Wrapper :=
  ⟨params, .sys s, [], -1, result⟩

/-- A wrapper that ends in `WRAPPER_RETptr`. -/
def retptr (params : List CType) (s : Sys) : Wrapper := ⟨params, .sys s, [], 0, .pointer⟩

namespace Wrapper

def read : Wrapper := retval [.int, .pointer, .longLong] .read .longLong
def write : Wrapper := retval [.int, .pointer, .longLong] .write .longLong
def close : Wrapper := retval [.unsigned] .close .int
def mmap : Wrapper := retptr [.pointer, .longLong, .int, .int, .int, .longLong] .mmap
def mprotect : Wrapper := retval [.pointer, .longLong, .int] .mprotect .int
def munmap : Wrapper := retval [.pointer, .longLong] .munmap .int
def pipe : Wrapper := retval [.pointer] .pipe .int
def dup : Wrapper := retval [.int] .dup .int
def dup2 : Wrapper := retval [.int, .int] .dup2 .int
def pause : Wrapper := retval [] .pause .int

/-- The body calls the function itself where the others call their stub. -/
def nanosleep : Wrapper := ⟨[.pointer, .pointer], .fn .nanosleep, [], -1, .int⟩

def alarm : Wrapper := retval [.unsigned] .alarm .int
def fork : Wrapper := retval [] .fork .int
def getcwd : Wrapper := retptr [.pointer, .longLong] .getcwd
def chdir : Wrapper := retval [.pointer] .chdir .int
def rename : Wrapper := retval [.pointer, .pointer] .rename .int
def mkdir : Wrapper := retval [.pointer, .int] .mkdir .int
def rmdir : Wrapper := retval [.pointer] .rmdir .int
def creat : Wrapper := retval [.pointer, .int] .creat .int
def link : Wrapper := retval [.pointer, .pointer] .link .int
def unlink : Wrapper := retval [.pointer] .unlink .int
def readlink : Wrapper := retval [.pointer, .pointer, .longLong] .readlink .longLong
def chmod : Wrapper := retval [.pointer, .int] .chmod .int
def chown : Wrapper := retval [.pointer, .int, .int] .chown .int
def umask : Wrapper := retval [.int] .umask .int
def gettimeofday : Wrapper := retval [.pointer, .pointer] .gettimeofday .int
def getuid : Wrapper := retval [] .getuid .int
def getgid : Wrapper := retval [] .getgid .int
def setuid : Wrapper := retval [.int] .setuid .int
def setgid : Wrapper := retval [.int] .setgid .int
def geteuid : Wrapper := retval [] .geteuid .int
def getegid : Wrapper := retval [] .getegid .int

/-- The size of a signal set is passed as well. -/
def sigprocmask : Wrapper :=
  { retval [.int, .pointer, .pointer] .rtSigprocmask .int with consts := [8] }

def sigpending : Wrapper := { retval [.pointer] .rtSigpending .int with consts := [8] }

end Wrapper

/-- The C function behind a name. `open` has none. -/
def Fn.wrapper : Fn → Option Wrapper
  | read => some .read
  | write => some .write
  | «open» => none
  | close => some .close
  | mmap => some .mmap
  | mprotect => some .mprotect
  | munmap => some .munmap
  | pipe => some .pipe
  | dup => some .dup
  | dup2 => some .dup2
  | pause => some .pause
  | nanosleep => some .nanosleep
  | alarm => some .alarm
  | fork => some .fork
  | getcwd => some .getcwd
  | chdir => some .chdir
  | rename => some .rename
  | mkdir => some .mkdir
  | rmdir => some .rmdir
  | creat => some .creat
  | link => some .link
  | unlink => some .unlink
  | readlink => some .readlink
  | chmod => some .chmod
  | chown => some .chown
  | umask => some .umask
  | gettimeofday => some .gettimeofday
  | getuid => some .getuid
  | getgid => some .getgid
  | setuid => some .setuid
  | setgid => some .setgid
  | geteuid => some .geteuid
  | getegid => some .getegid
  | sigprocmask => some .sigprocmask
  | sigpending => some .sigpending

/-- What the compiler and the linker choose: the frame of a wrapper, the return
address of the call in it, the upper halves of 32-bit values, and the address of
`errno`. -/
structure Build where
  frame : Frame
  site : Addr
  upper : Reg → BitVec 32
  errno : Addr

/-- The registers of the first six arguments of a C function. -/
def argRegs : List Reg := [.rdi, .rsi, .rdx, .rcx, .r8, .r9]

namespace Wrapper

variable (b : Build) (w : Wrapper)

/-- The arguments of the inner call, from the registers of the outer one. -/
def arguments (s : X86.State) : List Word :=
  List.zipWith (fun t r => t.pass (b.upper r) (s.regs r)) w.params argRegs ++ w.consts

/-- Put the arguments of a call where the convention wants them. -/
def place (args : List Word) (s : X86.State) : X86.State :=
  (argRegs.zip args).foldl (fun s p => s.setReg p.1 p.2) s

/-- The macro at the end of a wrapper, given the result of the call. -/
def conclude (s : X86.State) : X86.State :=
  let ret := s.regs .rax
  let s := s.setMem (store s.mem b.errno 0)
  if ret.slt 0 then
    (s.setMem (store s.mem b.errno (-ret))).setReg .rax (w.result.pass (b.upper .rax) w.failure)
  else s.setReg .rax (w.result.pass (b.upper .rax) ret)

/-- The body of a wrapper, given the function that it calls. -/
def body (callee : Machine → Exit Machine) (m : Machine) : Exit Machine :=
  let args := w.arguments b m.cpu
  let m := { m with cpu := place args (b.frame.enter m.cpu) }
  (m.call b.site callee).andThen fun m =>
    ({ m with cpu := w.conclude b m.cpu }).asm Frame.epilogue

end Wrapper

/-- What follows the call of `sys_open` in the assembler function `open`. -/
def openTail (errno : Addr) : List Instr :=
  [ .cmp 0 .rax,
    .jge 1,
    .label 0,
    .neg .rax,
    .movImm errno .rdi,
    .store .rax 0 .rdi,
    .movImm (-1) .rax,
    .goto 2,
    .label 1,
    .movImm errno .rdi,
    .storeImm 0 0 .rdi,
    .label 2,
    .ret ]

def openAsm (b : Build) (a : Answer) (m : Machine) : Exit Machine :=
  (m.call b.site (Sys.stub .open a)).andThen (Machine.asm (openTail b.errno))

/-- Run a wrapper, with at most so many of them inside one another. -/
def Fn.run (b : Build) (a : Answer) : Nat → Fn → Machine → Option (Exit Machine)
  | 0, _, _ => none
  | fuel + 1, f, m =>
      match f.wrapper with
      | none => some (openAsm b a m)
      | some w =>
          match w.target with
          | .sys s => some (w.body b (s.stub a) m)
          | .fn g =>
              -- the inner call starts where the outer one has got to
              let inner := { m with cpu := (Wrapper.place (w.arguments b m.cpu)
                (b.frame.enter m.cpu)).push b.site }
              (Fn.run b a fuel g inner).map fun e => w.body b (fun _ => e) m

end Libmini
