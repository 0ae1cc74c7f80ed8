import AdvancedUnix.Memory.Bytes

/-!
# Straight-line x86-64 code

The general registers, the flags and a memory, with the instructions of short
assembler blocks: moves, stack operations, arithmetic, comparisons and jumps
forward to a local label. Operands are written in the order of the AT&T syntax,
the source first.

A block is executed in place, by structural recursion on its instructions:
while a jump is under way the instructions up to its label are passed over.
Control either falls off the end of the block or leaves it for an address.
-/

namespace X86

open Memory

universe u v

/-- The general registers. -/
inductive Reg
  | rax | rbx | rcx | rdx | rsi | rdi | rbp | rsp
  | r8 | r9 | r10 | r11 | r12 | r13 | r14 | r15
  deriving DecidableEq, Repr

/-- The registers, the flags and the memory. Of the sign and overflow flags only
their difference is kept, which says that a comparison found a smaller value. -/
@[ext] structure State where
  regs : Reg → Word
  zf : Bool
  lt : Bool
  mem : Bytes

namespace State

/-- Replace one register. -/
def setReg (s : State) (r : Reg) (v : Word) : State :=
  { s with regs := Function.update s.regs r v }

/-- Replace the memory. -/
def setMem (s : State) (m : Bytes) : State := { s with mem := m }

/-- Set the flags from a result and the sign of its exact value. -/
def setFlags (s : State) (v : Word) (negative : Bool) : State :=
  { s with zf := v == 0, lt := negative }

@[simp] theorem setReg_regs (s : State) (r : Reg) (v : Word) :
    (s.setReg r v).regs = Function.update s.regs r v := rfl

@[simp] theorem setReg_mem (s : State) (r : Reg) (v : Word) : (s.setReg r v).mem = s.mem := rfl

@[simp] theorem setReg_zf (s : State) (r : Reg) (v : Word) : (s.setReg r v).zf = s.zf := rfl

@[simp] theorem setReg_lt (s : State) (r : Reg) (v : Word) : (s.setReg r v).lt = s.lt := rfl

@[simp] theorem setMem_regs (s : State) (m : Bytes) : (s.setMem m).regs = s.regs := rfl

@[simp] theorem setMem_mem (s : State) (m : Bytes) : (s.setMem m).mem = m := rfl

@[simp] theorem setMem_zf (s : State) (m : Bytes) : (s.setMem m).zf = s.zf := rfl

@[simp] theorem setMem_lt (s : State) (m : Bytes) : (s.setMem m).lt = s.lt := rfl

section

variable (s : State) (v : Word) (negative : Bool)

@[simp] theorem setFlags_regs : (s.setFlags v negative).regs = s.regs := rfl

@[simp] theorem setFlags_mem : (s.setFlags v negative).mem = s.mem := rfl

@[simp] theorem setFlags_zf : (s.setFlags v negative).zf = (v == 0) := rfl

@[simp] theorem setFlags_lt : (s.setFlags v negative).lt = negative := rfl

end

/-- Store a value below the stack pointer, which moves down to it. -/
def push (s : State) (v : Word) : State :=
  (s.setReg .rsp (s.regs .rsp - 8)).setMem (store s.mem (s.regs .rsp - 8) v)

/-- The word on top of the stack. -/
def top (s : State) : Word := load s.mem (s.regs .rsp)

/-- Move the stack pointer above the top word. -/
def drop (s : State) : State := s.setReg .rsp (s.regs .rsp + 8)

@[simp] theorem push_regs (s : State) (v : Word) :
    (s.push v).regs = Function.update s.regs .rsp (s.regs .rsp - 8) := rfl

@[simp] theorem push_mem (s : State) (v : Word) :
    (s.push v).mem = store s.mem (s.regs .rsp - 8) v := rfl

@[simp] theorem drop_regs (s : State) :
    s.drop.regs = Function.update s.regs .rsp (s.regs .rsp + 8) := rfl

@[simp] theorem drop_mem (s : State) : s.drop.mem = s.mem := rfl

end State

/-- Instructions, with local labels for the jumps among them. -/
inductive Instr
  | mov (src dst : Reg)
  | movImm (imm : Word) (dst : Reg)
  | load (disp : Nat) (base dst : Reg)
  | store (src : Reg) (disp : Nat) (base : Reg)
  | lea (disp : Nat) (base dst : Reg)
  | push (src : Reg)
  | pop (dst : Reg)
  | storeImm (imm : Word) (disp : Nat) (base : Reg)
  | sub (imm : Word) (dst : Reg)
  | add (imm : Word) (dst : Reg)
  | inc (dst : Reg)
  | neg (dst : Reg)
  | test (a b : Reg)
  | cmp (imm : Word) (a : Reg)
  | jnz (label : Nat)
  | jge (label : Nat)
  | goto (label : Nat)
  | label (n : Nat)
  | jmp (target : Reg)
  | leave
  | ret
  deriving DecidableEq, Repr

/-- The effect of an instruction that control falls through. -/
def step (s : State) : Instr → State
  | .mov src dst => s.setReg dst (s.regs src)
  | .movImm imm dst => s.setReg dst imm
  | .load disp base dst => s.setReg dst (Memory.load s.mem (byteAddr (s.regs base) disp))
  | .store src disp base =>
      s.setMem (Memory.store s.mem (byteAddr (s.regs base) disp) (s.regs src))
  | .lea disp base dst => s.setReg dst (byteAddr (s.regs base) disp)
  | .push src => s.push (s.regs src)
  | .pop dst => s.drop.setReg dst s.top
  | .storeImm imm disp base => s.setMem (Memory.store s.mem (byteAddr (s.regs base) disp) imm)
  | .sub imm dst =>
      (s.setReg dst (s.regs dst - imm)).setFlags (s.regs dst - imm) ((s.regs dst).slt imm)
  | .add imm dst =>
      (s.setReg dst (s.regs dst + imm)).setFlags (s.regs dst + imm)
        ((s.regs dst).toInt + imm.toInt < 0)
  | .inc dst =>
      (s.setReg dst (s.regs dst + 1)).setFlags (s.regs dst + 1) ((s.regs dst).slt (-1))
  | .neg dst => (s.setReg dst (-s.regs dst)).setFlags (-s.regs dst) (BitVec.slt 0 (s.regs dst))
  | .test a b => s.setFlags (s.regs a &&& s.regs b) (s.regs a &&& s.regs b).msb
  | .cmp imm a => s.setFlags (s.regs a - imm) ((s.regs a).slt imm)
  | .leave =>
      let s := s.setReg .rsp (s.regs .rbp)
      s.drop.setReg .rbp s.top
  | .jnz _ | .jge _ | .goto _ | .label _ | .jmp _ | .ret => s

/-- How control comes out of a stretch of code: off its end, or on its way to
an address. -/
inductive Exit (σ : Type u)
  | fell (s : σ)
  | left (target : Addr) (s : σ)

namespace Exit

variable {σ : Type u} {τ : Type v}

/-- Go on with what follows the code, if control gets there. -/
def andThen : Exit σ → (σ → Exit σ) → Exit σ
  | .fell s, next => next s
  | .left target s, _ => .left target s

def map (f : σ → τ) : Exit σ → Exit τ
  | .fell s => .fell (f s)
  | .left target s => .left target (f s)

@[simp] theorem andThen_fell (s : σ) (next : σ → Exit σ) : (fell s).andThen next = next s := rfl

@[simp] theorem andThen_left (target : Addr) (s : σ) (next : σ → Exit σ) :
    (left target s).andThen next = left target s := rfl

@[simp] theorem map_fell (f : σ → τ) (s : σ) : (fell s).map f = fell (f s) := rfl

@[simp] theorem map_left (f : σ → τ) (target : Addr) (s : σ) :
    (left target s).map f = left target (f s) := rfl

end Exit

/-- Execute a block. The first argument is the label that a jump under way is
looking for. -/
def exec : Option Nat → List Instr → State → Exit State
  | _, [], s => .fell s
  | some l, .label n :: is, s => if n = l then exec none is s else exec (some l) is s
  | some l, _ :: is, s => exec (some l) is s
  | none, .jnz l :: is, s => if s.zf then exec none is s else exec (some l) is s
  | none, .jge l :: is, s => if s.lt then exec none is s else exec (some l) is s
  | none, .goto l :: is, s => exec (some l) is s
  | none, .jmp r :: _, s => .left (s.regs r) s
  | none, .ret :: _, s => .left s.top s.drop
  | none, i :: is, s => exec none is (step s i)

/-- Instructions after which control is at the next one. -/
def Instr.Linear : Instr → Prop
  | .jnz _ | .jge _ | .goto _ | .jmp _ | .ret => False
  | _ => True

instance : DecidablePred Instr.Linear := fun i => by
  cases i <;> first | exact isTrue trivial | exact isFalse id

theorem exec_linear {i : Instr} (linear : i.Linear) (is : List Instr) (s : State) :
    exec none (i :: is) s = exec none is (step s i) := by
  cases i <;> first | rfl | exact linear.elim

/-- A block of linear instructions is executed one after the other, and control
falls off its end. -/
theorem exec_linear_append {is : List Instr} (linear : ∀ i ∈ is, i.Linear) (js : List Instr)
    (s : State) : exec none (is ++ js) s = exec none js (is.foldl step s) := by
  induction is generalizing s with
  | nil => rfl
  | cons i is ih =>
      rw [List.cons_append, exec_linear (linear i List.mem_cons_self),
        ih (fun j hj => linear j (List.mem_cons_of_mem _ hj))]
      rfl

theorem exec_linear_block {is : List Instr} (linear : ∀ i ∈ is, i.Linear) (s : State) :
    exec none is s = .fell (is.foldl step s) := by
  simpa [exec] using exec_linear_append linear [] s

/-- A conditional jump over a linear stretch executes it or not. -/
theorem exec_jnz_over {skip : List Instr} (linear : ∀ i ∈ skip, i.Linear) {l : Nat}
    (inside : ∀ i ∈ skip, i ≠ .label l) (js : List Instr) (s : State) :
    exec none (.jnz l :: skip ++ .label l :: js) s =
      exec none js (if s.zf then skip.foldl step s else s) := by
  have pass : ∀ (is : List Instr), (∀ i ∈ is, i ≠ .label l) →
      exec (some l) (is ++ .label l :: js) s = exec none js s := by
    intro is
    induction is with
    | nil =>
        intro _
        simp [exec]
    | cons i is ih =>
        intro away
        have rest := ih fun j hj => away j (List.mem_cons_of_mem _ hj)
        have hi := away i List.mem_cons_self
        cases i with
        | label n =>
            have hn : n ≠ l := fun e => hi (congrArg Instr.label e)
            simpa [exec, hn] using rest
        | _ => simpa [exec] using rest
  by_cases hz : s.zf
  · simp only [List.cons_append, exec, hz, if_true]
    rw [exec_linear_append linear, exec_linear (by trivial)]
    rfl
  · simp only [List.cons_append, exec, hz, if_false, Bool.false_eq_true]
    exact pass skip inside

end X86
