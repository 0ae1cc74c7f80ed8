import AdvancedUnix.Libmini.Signals

/-!
# Saving and restoring a context

`setjmp` saves the callee-saved registers and its return address in the eight
words of a jump buffer, and the blocked signals in the word after them.
`longjmp` loads the registers back and goes to the saved address. Both are
assembler blocks around a call of `sigprocmask`, inside the frame of an
unoptimised function.

The saved stack and base pointers are those of the caller once `setjmp` has
returned, computed from the frame that `setjmp` itself has set up. A context
is read off in two ways, from the machine that control has come back to and
from a buffer, and the specifications say that `setjmp` makes the second equal
to the first and `longjmp` the first equal to the second.
-/

namespace Libmini

open Memory X86

/-- Run an assembler block of a function's body. -/
def Process.asm (block : List Instr) (p : Process) : Exit Process :=
  (exec none block p.cpu).map fun cpu => { p with cpu }

/-- Enter a function. -/
def Process.enter (f : Frame) (p : Process) : Process := { p with cpu := f.enter p.cpu }

/-- Call a C function from a body, whose result is not used. -/
def Process.call (callee : Callee) (fn : Process → BitVec 32 × Process) (p : Process) : Process :=
  let p := (fn p).2
  { p with cpu := callee.clobber p.cpu }

/-- The bytes of a jump buffer: eight registers and a signal set. -/
def jmpBufSize : Nat := 72

/-- The address of the signal set of a jump buffer. -/
def envMask (env : Addr) : Addr := byteAddr env 64

/-- The assembler of `setjmp`. -/
def saveContext : List Instr :=
  [ .store .rbx 0 .rdi,
    .lea 16 .rbp .rax,
    .store .rax 8 .rdi,
    .load 0 .rbp .rax,
    .store .rax 16 .rdi,
    .store .r12 24 .rdi,
    .store .r13 32 .rdi,
    .store .r14 40 .rdi,
    .store .r15 48 .rdi,
    .load 8 .rbp .rax,
    .store .rax 56 .rdi ]

def setjmp (f : Frame) (p : Process) : Exit Process :=
  let env := p.cpu.regs .rdi
  ((p.enter f).asm saveContext).andThen fun p =>
    (p.call f.callee (sigprocmask sigUnblock 0 (envMask env))).asm
      (.movImm 0 .rax :: Frame.epilogue)

/-- The first assembler block of `longjmp`. -/
def keepArguments : List Instr := [.push .rdi, .push .rsi]

/-- The value `longjmp` makes its target return: `val`, or one instead of zero. -/
def returnValue : List Instr :=
  [.pop .rsi, .pop .rdi, .mov .rsi .rax, .test .rax .rax]

/-- The registers that `longjmp` loads before it jumps. -/
def loadContext : List Instr :=
  [ .load 0 .rdi .rbx,
    .load 8 .rdi .rsp,
    .load 16 .rdi .rbp,
    .load 24 .rdi .r12,
    .load 32 .rdi .r13,
    .load 40 .rdi .r14,
    .load 48 .rdi .r15,
    .load 56 .rdi .rcx ]

/-- The second assembler block of `longjmp`. -/
def jumpBack : List Instr :=
  returnValue ++ (.jnz 1 :: [.inc .rax] ++ .label 1 :: (loadContext ++ [.jmp .rcx]))

def longjmp (f : Frame) (p : Process) : Exit Process :=
  let env := p.cpu.regs .rdi
  ((p.enter f).asm keepArguments).andThen fun p =>
    ((p.call f.callee (sigprocmask sigBlock (envMask env) 0)).asm jumpBack).andThen
      (Process.asm Frame.epilogue)

/-- What a caller finds again when a call of `setjmp` returns. -/
structure Context where
  rbx : Word
  rsp : Word
  rbp : Word
  r12 : Word
  r13 : Word
  r14 : Word
  r15 : Word
  rip : Addr
  deriving DecidableEq

namespace Context

/-- The context of a machine on its way to an address. -/
def of (target : Addr) (s : X86.State) : Context where
  rbx := s.regs .rbx
  rsp := s.regs .rsp
  rbp := s.regs .rbp
  r12 := s.regs .r12
  r13 := s.regs .r13
  r14 := s.regs .r14
  r15 := s.regs .r15
  rip := target

/-- The context that a jump buffer holds. -/
def saved (m : Bytes) (env : Addr) : Context where
  rbx := load m (byteAddr env 0)
  rsp := load m (byteAddr env 8)
  rbp := load m (byteAddr env 16)
  r12 := load m (byteAddr env 24)
  r13 := load m (byteAddr env 32)
  r14 := load m (byteAddr env 40)
  r15 := load m (byteAddr env 48)
  rip := load m (byteAddr env 56)

/-- The context in which a call that has just been made will return. -/
def caller (s : X86.State) : Context :=
  { of s.top s with rsp := s.regs .rsp + 8 }

/-- A context in a buffer depends on the bytes of the buffer alone. -/
theorem saved_congr {m m' : Bytes} {env : Addr}
    (same : ∀ i < 64, m (byteAddr env i) = m' (byteAddr env i)) : saved m env = saved m' env := by
  have word : ∀ off, off + 8 ≤ 64 →
      load m (byteAddr env off) = load m' (byteAddr env off) := by
    intro off hoff
    apply load_congr
    intro k hk
    rw [byteAddr_byteAddr]
    exact same _ (by omega)
  simp only [saved, word, Nat.reduceAdd, Nat.reduceLeDiff]

end Context

end Libmini
