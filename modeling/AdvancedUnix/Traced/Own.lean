import AdvancedUnix.Traced.Basic

/-!
# The program's own memory

A tracer changes the memory of the process it traces. `Proc.own` is the memory as
the program itself made it: what its image held, and what its instructions have
stored since. An instruction is taken to have stored where the memory differs
after it; the store of a byte that was there already leaves what the program had.
-/

namespace Traced

open Memory

variable {K : Type} (P : Platform K)

/-- The program's own memory after the instruction at `c`, of what it was before. -/
def Platform.carry (c : Cpu K) (own : Mem) : Mem :=
  fun a => if (P.next c).mem a = c.mem a then own a else (P.next c).mem a

/-- A memory after the instructions executed in these states, the first one first. -/
def Platform.carryAll (cs : List (Cpu K)) (own : Mem) : Mem :=
  cs.foldl (fun own c => P.carry c own) own

def Proc.own (p : Proc K) : Mem := p.history.foldr P.carry p.image.cpu.mem

namespace Proc

@[simp] theorem own_load (image : Image K) : image.load.own P = image.cpu.mem := rfl

@[simp] theorem own_advance (p : Proc K) : (p.advance P).own P = P.carry p.cpu (p.own P) := rfl

@[simp] theorem own_setMem (p : Proc K) (m : Mem) : (p.setMem m).own P = p.own P := rfl

@[simp] theorem own_setRegs (p : Proc K) (r : UserRegs) : (p.setRegs r).own P = p.own P := rfl

end Proc

end Traced
