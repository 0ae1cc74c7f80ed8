import AdvancedUnix.X86.Machine

/-!
# Calls under the System V convention

A function compiled without optimisation saves the base pointer of its caller,
points its own at the stack and makes room for its locals below; it ends by
undoing this and returning. The word at the stack pointer on entry is the
return address.

A call that the function makes keeps the callee-saved registers and the memory
at and above the stack pointer. What it leaves in the other registers, in the
flags and in the bytes it used below the stack pointer is open: `Callee` holds
one choice, and the results are for every choice.
-/

namespace X86

open Memory

/-- The registers that a call hands back as it found them. -/
def calleeSaved : List Reg := [.rbx, .rsp, .rbp, .r12, .r13, .r14, .r15]

/-- What a call leaves where the convention promises nothing. -/
structure Callee where
  regs : Reg → Word
  zf : Bool
  lt : Bool
  /-- The bytes used below the stack pointer, the return address among them. -/
  depth : Nat
  junk : Bytes

/-- The state after a call, seen from the code that made it. -/
def Callee.clobber (c : Callee) (s : State) : State where
  regs r := if r ∈ calleeSaved then s.regs r else c.regs r
  zf := c.zf
  lt := c.lt
  mem := scribble (s.regs .rsp) c.depth c.junk s.mem

theorem Callee.clobber_regs (c : Callee) (s : State) {r : Reg} (saved : r ∈ calleeSaved) :
    (c.clobber s).regs r = s.regs r :=
  if_pos saved

@[simp] theorem Callee.clobber_mem (c : Callee) (s : State) :
    (c.clobber s).mem = scribble (s.regs .rsp) c.depth c.junk s.mem := rfl

/-- The frame of a function: the room below the saved base pointer, what the
compiler keeps there, and what a call from the function leaves. -/
structure Frame where
  size : Nat
  locals : Bytes
  callee : Callee

namespace Frame

/-- Save the caller's base pointer and make room for the locals. -/
def prologue (f : Frame) : List Instr :=
  [.push .rbp, .mov .rsp .rbp, .sub (BitVec.ofNat 64 f.size) .rsp]

/-- The state in which the function's body starts. -/
def enter (f : Frame) (s : State) : State :=
  let s := f.prologue.foldl step s
  s.setMem (scribble (s.regs .rbp) f.size f.locals s.mem)

/-- Give up the frame and return. -/
def epilogue : List Instr := [.leave, .ret]

variable (f : Frame) (s : State)

@[simp] theorem enter_rbp : (f.enter s).regs .rbp = s.regs .rsp - 8 := by
  simp [enter, prologue, step]

@[simp] theorem enter_rsp :
    (f.enter s).regs .rsp = s.regs .rsp - 8 - BitVec.ofNat 64 f.size := by
  simp [enter, prologue, step]

/-- The prologue moves the stack and base pointers only. -/
theorem enter_regs {r : Reg} (base : r ≠ .rbp) (stack : r ≠ .rsp) :
    (f.enter s).regs r = s.regs r := by
  simp [enter, prologue, step, base, stack]

theorem enter_mem : (f.enter s).mem =
    scribble (s.regs .rsp - 8) f.size f.locals (store s.mem (s.regs .rsp - 8) (s.regs .rbp)) := by
  simp [enter, prologue, step]

/-- The frame lies below the stack pointer of the entry. -/
theorem enter_above {x : Addr} (h : ¬ Below (s.regs .rsp) (8 + f.size) x) :
    (f.enter s).mem x = s.mem x := by
  have apart : ¬ Below (s.regs .rsp - BitVec.ofNat 64 8) f.size x :=
    fun below => h (below.mono (by omega))
  rw [enter_mem]
  exact (scribble_outside apart).trans (store_below (d := 8) h (by omega) (by omega))

/-- The saved base pointer is above the locals. -/
theorem load_enter (room : f.size + 8 ≤ 2 ^ 64) :
    load (f.enter s).mem (s.regs .rsp - 8) = s.regs .rbp := by
  rw [enter_mem, load_scribble (clear_self room), load_store_same]

/-- The return address is above the frame. -/
theorem load_enter_top (room : f.size + 16 ≤ 2 ^ 64) :
    load (f.enter s).mem (s.regs .rsp) = s.top := by
  rw [State.top]
  apply load_congr
  intro k hk
  exact f.enter_above s (clear_self (by omega) k hk)

/-- The state in which the caller goes on. -/
def returned : State :=
  ((s.setReg .rsp (s.regs .rbp)).drop.setReg .rbp (load s.mem (s.regs .rbp))).drop

@[simp] theorem returned_mem : (returned s).mem = s.mem := rfl

@[simp] theorem returned_rbp : (returned s).regs .rbp = load s.mem (s.regs .rbp) := by
  simp [returned]

@[simp] theorem returned_rsp : (returned s).regs .rsp = s.regs .rbp + 16 := by
  simp [returned]
  bv_omega

theorem returned_regs {r : Reg} (base : r ≠ .rbp) (stack : r ≠ .rsp) :
    (returned s).regs r = s.regs r := by
  simp [returned, base, stack]

/-- The epilogue returns to the address above the saved base pointer. -/
theorem exec_epilogue :
    exec none epilogue s = .left (load s.mem (s.regs .rbp + 8)) (returned s) := by
  simp [epilogue, exec, step, State.top, returned]

end Frame

end X86
