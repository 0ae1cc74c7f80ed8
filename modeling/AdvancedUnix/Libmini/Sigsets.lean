import AdvancedUnix.Libmini.Resume
import AdvancedUnix.Memory.Objects

/-!
# Signal sets in memory

A `sigset_t` is one unsigned long, in which the inline functions of the library
set, clear and test bits. Filled, queried and handed to the kernel by address,
such a word is what `sigprocmask` and `sigpending` work on, and the last word of
a jump buffer is another.

The kernel keeps two sets for a process, the blocked signals and those that
arrived while they were blocked. A signal that is no longer blocked is delivered
and leaves the second set.
-/

namespace Libmini

open Memory X86

/-- The bit of a signal, `1UL << (sig - 1)`; the machine takes the count of a
shift modulo the width of the word. -/
def signalBit (sig : BitVec 32) : Word := 1#64 <<< ((sig - 1).toNat % 64)

def sigemptyset (set : Addr) (m : Bytes) : Bytes := store m set 0

def sigfillset (set : Addr) (m : Bytes) : Bytes := store m set (~~~ 0)

def sigaddset (set : Addr) (sig : BitVec 32) (m : Bytes) : Bytes :=
  store m set (load m set ||| signalBit sig)

def sigdelset (set : Addr) (sig : BitVec 32) (m : Bytes) : Bytes :=
  store m set (load m set &&& ~~~ signalBit sig)

def sigismember (set : Addr) (sig : BitVec 32) (m : Bytes) : BitVec 32 :=
  if load m set &&& signalBit sig ≠ 0 then 1 else 0

/-- The outcome of a call: a value, or a return with the context that control is in. -/
inductive Result
  | value (ret : BitVec 32)
  | returns (context : Context) (ret : BitVec 32)
  deriving DecidableEq

/-- A process with the signals that arrived for it while they were blocked, and
the outcomes of its calls so far. -/
structure Signalled extends Process where
  pending : Word
  results : List Result

def efault : Word := 14

/-- The system call, asked for a whole set. -/
def sysRtSigpending (set : Addr) (p : Signalled) : Word × Process :=
  if set = 0 then (-efault, p.toProcess)
  else (0, { p.toProcess with cpu := putSet set (p.pending &&& p.blocked.set) p.cpu })

def sigpending (set : Addr) (p : Signalled) : BitVec 32 × Process :=
  let (ret, q) := sysRtSigpending set p
  wrapperRetval ret q

theorem sigpending_given {set : Addr} (given : set ≠ 0) (p : Signalled) :
    sigpending set p =
      (0, { cpu := putSet set (p.pending &&& p.blocked.set) p.cpu
            blocked := p.blocked
            errno := 0 }) := by
  rw [sigpending, sysRtSigpending, if_neg given]
  simp [wrapperRetval, retvalInt]

theorem sigpending_null (p : Signalled) :
    sigpending 0 p = (-1, { p.toProcess with errno := efault }) := by
  simp [sigpending, sysRtSigpending, wrapperRetval, retvalInt, efault]

namespace Signalled

variable (p : Signalled)

/-- The kernel delivers what is not blocked any more. -/
def deliver : Signalled := { p with pending := p.pending &&& p.blocked.set }

/-- A signal arrives, and is delivered at once if it is not blocked. -/
def arrive (sig : BitVec 32) : Signalled :=
  deliver { p with pending := p.pending ||| signalBit sig }

/-- The program goes on after a call that returned a value. -/
def after (r : BitVec 32 × Process) : Signalled :=
  deliver { p with toProcess := r.2, results := p.results ++ [.value r.1] }

/-- The program goes on where control has gone to. -/
def landed : Exit Process → Signalled
  | .left target r =>
      deliver { p with
        toProcess := r
        results := p.results ++ [.returns (Context.of target r.cpu) (intResult r.cpu)] }
  | .fell r => { p with toProcess := r }

end Signalled

section

universe u v

/-- What a program with signal sets `V` and jump buffers `E` does about signals,
and what happens to it. A call of `setjmp` is told apart by the context of its
caller, and one of `longjmp` by its value. -/
inductive Act (V : Type u) (E : Type v)
  | sigemptyset (set : V)
  | sigfillset (set : V)
  | sigaddset (set : V) (sig : BitVec 32)
  | sigdelset (set : V) (sig : BitVec 32)
  | sigismember (set : V) (sig : BitVec 32)
  | sigprocmask (how : BitVec 32) (set oset : Option V)
  | sigpending (set : Option V)
  | setjmp (env : E) (caller : Context)
  | longjmp (env : E) (val : BitVec 32)
  | arrival (sig : BitVec 32)

/-- An act, the code that runs before it, and the frame of the function that is called. -/
structure Turn (V : Type u) (E : Type v) where
  before : X86.State → X86.State
  frame : Frame
  act : Act V E

variable {V : Type u} {E : Type v}

/-- The bytes of a signal set and of a jump buffer. -/
def objectSize : V ⊕ E → Nat
  | .inl _ => 8
  | .inr _ => jmpBufSize

/-- Where the signal sets and the jump buffers of a program are. -/
structure Layout (V : Type u) (E : Type v) extends Objects (objectSize (V := V) (E := E)) where
  set_given : ∀ v, address (.inl v) ≠ 0
  mask_given : ∀ e, envMask (address (.inr e)) ≠ 0

namespace Layout

variable (l : Layout V E)

def set (v : V) : Addr := l.address (.inl v)

def env (e : E) : Addr := l.address (.inr e)

theorem set_ne_zero (v : V) : l.set v ≠ 0 := l.set_given v

theorem envMask_ne_zero (e : E) : envMask (l.env e) ≠ 0 := l.mask_given e

/-- The pointer to a set, or a null pointer. -/
def pointer : Option V → Addr
  | none => 0
  | some v => l.set v

end Layout

namespace Signalled

variable (l : Layout V E) (p : Signalled)

/-- Replace the memory. -/
def setMem (m : Bytes) : Signalled := { p with cpu := p.cpu.setMem m }

/-- What an act does, on the machine as it is then. -/
def act (frame : Frame) : Act V E → Signalled
  | .sigemptyset v => p.setMem (Libmini.sigemptyset (l.set v) p.cpu.mem)
  | .sigfillset v => p.setMem (Libmini.sigfillset (l.set v) p.cpu.mem)
  | .sigaddset v sig => p.setMem (Libmini.sigaddset (l.set v) sig p.cpu.mem)
  | .sigdelset v sig => p.setMem (Libmini.sigdelset (l.set v) sig p.cpu.mem)
  | .sigismember v sig =>
      { p with results := p.results ++ [.value (Libmini.sigismember (l.set v) sig p.cpu.mem)] }
  | .sigprocmask how set oset =>
      p.after (Libmini.sigprocmask how (l.pointer set) (l.pointer oset) p.toProcess)
  | .sigpending set => p.after (Libmini.sigpending (l.pointer set) p)
  | .setjmp _ _ => p.landed (Libmini.setjmp frame p.toProcess)
  | .longjmp _ _ => p.landed (Libmini.longjmp frame p.toProcess)
  | .arrival sig => p.arrive sig

/-- A turn: what the program does by itself, and the act that follows. -/
def step (t : Turn V E) : Signalled :=
  act l { p with cpu := t.before p.cpu } t.frame t.act

end Signalled

end

end Libmini
