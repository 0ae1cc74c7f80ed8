import AdvancedUnix.Memory.Word
import Mathlib.Logic.Function.Iterate

/-!
# A deterministic processor that a tracer stops and resumes

A processor state holds the user registers, the memory and everything else the
next instruction may depend on. A platform says what executing one instruction
does: the next state, and whether the process stops for a signal or ends there.
The only instruction whose meaning is fixed is the one-byte trap `0xcc`, which
stops the process with the instruction pointer one past it.

`Proc.history` records the state before every instruction the processor was
made to execute, the latest first. It observes the execution and never
influences it. `resume` executes until the process halts or the bound on the
number of instructions is reached; `after` is the same walk without the stop.
-/

namespace Traced

open Memory

/-- The general registers, as the kernel shows them to a tracer. -/
structure UserRegs where
  (r15 r14 r13 r12 rbp rbx r11 r10 r9 r8 rax rcx rdx rsi rdi : Word)
  (origRax rip cs eflags rsp ss fsBase gsBase ds es fs gs : Word)
  deriving DecidableEq

/-- A processor state. `ext` is whatever else execution depends on: vector
registers, open files, the address space layout, pending input. -/
structure Cpu (K : Type) where
  regs : UserRegs
  mem : Mem
  ext : K

namespace Cpu

variable {K : Type}

abbrev rip (c : Cpu K) : Addr := c.regs.rip

/-- Only the instruction pointer changes. -/
def setRip (c : Cpu K) (a : Addr) : Cpu K := { c with regs := { c.regs with rip := a } }

@[simp] theorem setRip_rip (c : Cpu K) (a : Addr) : (c.setRip a).regs.rip = a := rfl
@[simp] theorem setRip_mem (c : Cpu K) (a : Addr) : (c.setRip a).mem = c.mem := rfl
@[simp] theorem setRip_ext (c : Cpu K) (a : Addr) : (c.setRip a).ext = c.ext := rfl

@[simp] theorem setRip_setRip (c : Cpu K) (a b : Addr) : (c.setRip a).setRip b = c.setRip b := rfl

@[simp] theorem setRip_self (c : Cpu K) : c.setRip c.regs.rip = c := rfl

end Cpu

/-- Why a process stops executing: a stop that its tracer is told about, or
its end, by exit or by a signal that cannot be caught. -/
inductive Halt where
  | signal (sig : Nat)
  | exit (status : Nat)
  deriving DecidableEq

/-- The trap instruction. -/
def trapByte : Byte := 0xcc

/-- The signal that executing the trap instruction raises. -/
def sigtrap : Nat := 5

/-- What one instruction does, and how many bytes it is fetched from. -/
structure Platform (K : Type) where
  len : Cpu K → Nat
  exec : Cpu K → Cpu K × Option Halt
  len_pos : ∀ c, 0 < len c
  exec_trap : ∀ c, c.mem c.rip = some trapByte →
    exec c = (c.setRip (c.rip + 1), some (.signal sigtrap))

/-- A process as it is right after its program was loaded. `text` is the set
of addresses that hold the program's own instructions. -/
structure Image (K : Type) where
  cpu : Cpu K
  text : Addr → Prop

structure Proc (K : Type) where
  cpu : Cpu K
  image : Image K
  history : List (Cpu K)

variable {K : Type}

def Image.load (image : Image K) : Proc K := { cpu := image.cpu, image := image, history := [] }

@[simp] theorem Image.load_cpu (image : Image K) : image.load.cpu = image.cpu := rfl
@[simp] theorem Image.load_image (image : Image K) : image.load.image = image := rfl
@[simp] theorem Image.load_history (image : Image K) : image.load.history = [] := rfl

namespace Proc

def setMem (p : Proc K) (m : Mem) : Proc K := { p with cpu := { p.cpu with mem := m } }
def setRegs (p : Proc K) (r : UserRegs) : Proc K := { p with cpu := { p.cpu with regs := r } }

@[simp] theorem setMem_image (p : Proc K) (m : Mem) : (p.setMem m).image = p.image := rfl
@[simp] theorem setMem_history (p : Proc K) (m : Mem) : (p.setMem m).history = p.history := rfl
@[simp] theorem setMem_mem (p : Proc K) (m : Mem) : (p.setMem m).cpu.mem = m := rfl
@[simp] theorem setMem_regs (p : Proc K) (m : Mem) : (p.setMem m).cpu.regs = p.cpu.regs := rfl
@[simp] theorem setMem_ext (p : Proc K) (m : Mem) : (p.setMem m).cpu.ext = p.cpu.ext := rfl

@[simp] theorem setRegs_image (p : Proc K) (r : UserRegs) : (p.setRegs r).image = p.image := rfl
@[simp] theorem setRegs_history (p : Proc K) (r : UserRegs) :
    (p.setRegs r).history = p.history := rfl
@[simp] theorem setRegs_mem (p : Proc K) (r : UserRegs) :
    (p.setRegs r).cpu.mem = p.cpu.mem := rfl
@[simp] theorem setRegs_regs (p : Proc K) (r : UserRegs) : (p.setRegs r).cpu.regs = r := rfl
@[simp] theorem setRegs_ext (p : Proc K) (r : UserRegs) :
    (p.setRegs r).cpu.ext = p.cpu.ext := rfl

end Proc

namespace Platform

variable (P : Platform K)

def next (c : Cpu K) : Cpu K := (P.exec c).1
def halt (c : Cpu K) : Option Halt := (P.exec c).2

theorem next_trap {c : Cpu K} (h : c.mem c.rip = some trapByte) :
    P.next c = c.setRip (c.rip + 1) := by
  rw [next, P.exec_trap c h]

theorem halt_trap {c : Cpu K} (h : c.mem c.rip = some trapByte) :
    P.halt c = some (.signal sigtrap) := by
  rw [halt, P.exec_trap c h]

end Platform

namespace Proc

variable (P : Platform K)

/-- Execute one instruction and record the state it was executed in. -/
def advance (p : Proc K) : Proc K :=
  { p with cpu := P.next p.cpu, history := p.cpu :: p.history }

/-- Execute `n` instructions, whether or not the process halts in between. -/
def after (n : Nat) (p : Proc K) : Proc K := (advance P)^[n] p

/-- None of the next `n` instructions halts the process. -/
def Unhalted (n : Nat) (p : Proc K) : Prop := ∀ j < n, P.halt (p.after P j).cpu = none

/-- Execute until the process halts, at most `n` instructions. -/
def resume : Nat → Proc K → Proc K × Option Halt
  | 0, p => (p, none)
  | n + 1, p =>
    match P.halt p.cpu with
    | none => resume n (p.advance P)
    | some h => (p.advance P, some h)

@[simp] theorem advance_image (p : Proc K) : (p.advance P).image = p.image := rfl

@[simp] theorem advance_cpu (p : Proc K) : (p.advance P).cpu = P.next p.cpu := rfl

@[simp] theorem advance_history (p : Proc K) :
    (p.advance P).history = p.cpu :: p.history := rfl

@[simp] theorem after_zero (p : Proc K) : p.after P 0 = p := rfl

theorem after_succ (n : Nat) (p : Proc K) : p.after P (n + 1) = (p.advance P).after P n := rfl

theorem after_succ' (n : Nat) (p : Proc K) : p.after P (n + 1) = (p.after P n).advance P :=
  Function.iterate_succ_apply' _ _ _

theorem unhalted_succ {n : Nat} {p : Proc K} :
    p.Unhalted P (n + 1) ↔ P.halt p.cpu = none ∧ (p.advance P).Unhalted P n := by
  constructor
  · intro h
    refine ⟨h 0 (Nat.succ_pos n), fun j hj => ?_⟩
    have := h (j + 1) (Nat.succ_lt_succ hj)
    rwa [after_succ] at this
  · rintro ⟨h0, h⟩ j hj
    cases j with
    | zero => exact h0
    | succ j =>
        rw [after_succ]
        exact h j (Nat.lt_of_succ_lt_succ hj)

theorem Unhalted.mono {P : Platform K} {m n : Nat} {p : Proc K} (h : p.Unhalted P n)
    (hmn : m ≤ n) : p.Unhalted P m := fun j hj => h j (lt_of_lt_of_le hj hmn)

theorem resume_of_unhalted {n : Nat} {p : Proc K} (h : p.Unhalted P n) :
    p.resume P n = (p.after P n, none) := by
  induction n generalizing p with
  | zero => rfl
  | succ n ih =>
      obtain ⟨h0, hrest⟩ := (unhalted_succ P).mp h
      simp only [resume, h0, ih hrest, after_succ]

theorem resume_of_halt {n j : Nat} {p : Proc K} {h : Halt} (hj : j < n)
    (before : p.Unhalted P j) (halts : P.halt (p.after P j).cpu = some h) :
    p.resume P n = (p.after P (j + 1), some h) := by
  induction n generalizing p j with
  | zero => cases hj
  | succ n ih =>
      cases j with
      | zero =>
          rw [after_zero] at halts
          simp only [resume, halts]
          rfl
      | succ j =>
          obtain ⟨h0, hrest⟩ := (unhalted_succ P).mp before
          simp only [resume, h0]
          exact ih (Nat.lt_of_succ_lt_succ hj) hrest halts

/-- A resumed process either uses up the bound or halts at a first instruction. -/
theorem resume_cases (n : Nat) (p : Proc K) :
    (p.Unhalted P n ∧ p.resume P n = (p.after P n, none)) ∨
      ∃ j h, j < n ∧ p.Unhalted P j ∧ P.halt (p.after P j).cpu = some h ∧
        p.resume P n = (p.after P (j + 1), some h) := by
  induction n generalizing p with
  | zero => exact .inl ⟨fun j hj => absurd hj (Nat.not_lt_zero j), rfl⟩
  | succ n ih =>
      cases h0 : P.halt p.cpu with
      | some h =>
          refine .inr ⟨0, h, Nat.succ_pos n, fun j hj => absurd hj (Nat.not_lt_zero j), h0, ?_⟩
          exact resume_of_halt P (Nat.succ_pos n) (fun j hj => absurd hj (Nat.not_lt_zero j)) h0
      | none =>
          rcases ih (p.advance P) with ⟨hrun, -⟩ | ⟨j, h, hj, hrun, halts, -⟩
          · have run := (unhalted_succ P).mpr ⟨h0, hrun⟩
            exact .inl ⟨run, resume_of_unhalted P run⟩
          · have run := (unhalted_succ P).mpr ⟨h0, hrun⟩
            exact .inr ⟨j + 1, h, Nat.succ_lt_succ hj, run, halts,
              resume_of_halt P (Nat.succ_lt_succ hj) run halts⟩

/-- The instruction at which a resumed process halted. -/
theorem exists_of_resume {n : Nat} {p q : Proc K} {h : Halt} (hres : p.resume P n = (q, some h)) :
    ∃ j < n, p.Unhalted P j ∧ P.halt (p.after P j).cpu = some h ∧ q = p.after P (j + 1) := by
  rcases resume_cases P n p with ⟨-, he⟩ | ⟨j, h', hj, before, halts, he⟩
  · rw [he] at hres
    cases hres
  · rw [he] at hres
    cases hres
    exact ⟨j, hj, before, halts, rfl⟩

/-- A property that every executed instruction preserves holds after a resume. -/
theorem resume_induction {motive : Proc K → Prop} (n : Nat) {p : Proc K} (start : motive p)
    (step : ∀ q, motive q → motive (q.advance P)) : motive (p.resume P n).1 := by
  induction n generalizing p with
  | zero => exact start
  | succ n ih =>
      unfold resume
      cases P.halt p.cpu with
      | none => exact ih (step p start)
      | some h => exact step p start

/-- The states that `n` instructions are executed in, the first one first. -/
def dispatched (n : Nat) (p : Proc K) : List (Cpu K) :=
  (List.range n).map fun j => (p.after P j).cpu

theorem after_history (n : Nat) (p : Proc K) :
    (p.after P n).history = (p.dispatched P n).reverse ++ p.history := by
  induction n with
  | zero => rfl
  | succ n ih =>
      rw [after_succ', advance_history, ih, dispatched, dispatched, List.range_succ]
      simp

@[simp] theorem resume_image (n : Nat) (p : Proc K) : (p.resume P n).1.image = p.image :=
  resume_induction (motive := fun q => q.image = p.image) P n rfl fun _ h => h

end Proc

end Traced
