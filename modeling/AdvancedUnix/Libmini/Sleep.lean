import AdvancedUnix.Libmini.Syscall

/-!
# The two versions of sleep

`sleep` is written in assembler, and its C version is kept beside it as the one that
it is equivalent to. Both hand a `timespec` with the seconds to `nanosleep`, and give
back what is left of them when the call was interrupted.

The assembler stores the whole register of its argument, of which the caller only has
to set the lower half. Otherwise the two agree: the frame below the stack pointer holds
the request and the remaining time, and nothing of it is written by the call but the
time.
-/

namespace Libmini

open Memory X86

/-- `struct timespec`. -/
structure Timespec where
  sec : Word
  nsec : Word

/-- The error code of an interrupted call. -/
def eintr : Word := 4

/-- What a call of `nanosleep` comes to. -/
structure Outcome where
  ret : Word
  remaining : Timespec
  rcx : Word
  r11 : Word

/-- The kernel stores the remaining time when the call was interrupted. -/
def Outcome.answer (o : Outcome) (rem : Addr) : Answer where
  ret := o.ret
  rcx := o.rcx
  r11 := o.r11
  mem b :=
    if o.ret = -eintr then store (store b rem o.remaining.sec) (rem + 8) o.remaining.nsec else b

/-- The C version: the request that it makes, and what it returns. -/
def sleepReference (o : Outcome) (seconds : BitVec 32) : Timespec × BitVec 32 :=
  (⟨seconds.setWidth 64, 0⟩,
    if o.ret.slt 0 = false then o.ret.setWidth 32
    else if o.ret = -eintr then o.remaining.sec.setWidth 32
    else 0)

/-- `sleep` up to its call. -/
def sleepHead : List Instr :=
  [ .sub 32 .rsp,
    .store .rdi 0 .rsp,
    .storeImm 0 8 .rsp,
    .mov .rsp .rdi,
    .lea 16 .rsp .rsi ]

/-- What follows the call. -/
def sleepTail : List Instr :=
  [ .cmp 0 .rax,
    .jge 3,
    .label 0,
    .neg .rax,
    .cmp 4 .rax,
    .jnz 2,
    .label 1,
    .lea 16 .rsp .rsi,
    .load 0 .rsi .rax,
    .goto 3,
    .label 2,
    .movImm 0 .rax,
    .label 3,
    .add 32 .rsp,
    .ret ]

/-- `sleep`, called with its return address on the stack. -/
def sleepAsm (site : Addr) (o : Outcome) (m : Machine) : Exit Machine :=
  (m.asm sleepHead).andThen fun m =>
    (m.call site fun m => Sys.nanosleep.stub (o.answer (m.cpu.regs .rsi)) m).andThen
      (Machine.asm sleepTail)

/-- The state in which a stub enters the kernel. -/
def atKernel (number : Word) (s : X86.State) : X86.State :=
  [.push .r10, .mov .rcx .r10, .movImm number .rax].foldl step s

/-- The request that the kernel finds. -/
def sleepRequest (site : Addr) (m : Machine) : Timespec :=
  let s := atKernel Sys.nanosleep.number ((sleepHead.foldl step m.cpu).push site)
  ⟨load s.mem (s.regs .rdi), load s.mem (s.regs .rdi + 8)⟩

/-- The call behaves like the C version with the argument in the lower half of `rdi`. -/
structure AsReference (site : Addr) (o : Outcome) (m m' : Machine) : Prop where
  value : (m'.cpu.regs .rax).setWidth 32 =
    (sleepReference o ((m.cpu.regs .rdi).setWidth 32)).2
  request : sleepRequest site m = (sleepReference o ((m.cpu.regs .rdi).setWidth 32)).1
  call : ∃ args, m'.calls = m.calls ++ [⟨Sys.nanosleep.number, args⟩]
  stack : m'.cpu.regs .rsp = m.cpu.regs .rsp + 8
  saved : ∀ r ∈ calleeSaved, r ≠ .rsp → m'.cpu.regs r = m.cpu.regs r

def SleepsAlike (site : Addr) (o : Outcome) (m : Machine) : Prop :=
  ∃ m', sleepAsm site o m = .left m.cpu.top m' ∧ AsReference site o m m'

/-- What is returned, given the result of the call and the word for the remaining
seconds. -/
def sleepResult (ret sec : Word) : Word :=
  if ret.slt 0 = false then ret else if ret = -eintr then sec else 0

theorem neg_sub_four (ret : Word) : (-ret - 4 == 0) = decide (ret = -eintr) := by
  unfold eintr
  by_cases same : ret = -4
  · subst same
    rfl
  · rw [decide_eq_false same, beq_eq_false_iff_ne]
    intro zero
    apply same
    bv_omega

/-- `sleep` at its return instruction, after a result, an interruption and an error. -/
def sleepDone (s : X86.State) : X86.State := [.cmp 0 .rax, .add 32 .rsp].foldl step s

def sleepInterrupted (s : X86.State) : X86.State :=
  [.cmp 0 .rax, .neg .rax, .cmp 4 .rax, .lea 16 .rsp .rsi, .load 0 .rsi .rax, .add 32 .rsp].foldl
    step s

def sleepFailed (s : X86.State) : X86.State :=
  [.cmp 0 .rax, .neg .rax, .cmp 4 .rax, .movImm 0 .rax, .add 32 .rsp].foldl step s

theorem exec_sleepTail (s : X86.State) :
    exec none sleepTail s =
      if (s.regs .rax).slt 0 then
        if -s.regs .rax - 4 == 0 then .left (sleepInterrupted s).top (sleepInterrupted s).drop
        else .left (sleepFailed s).top (sleepFailed s).drop
      else .left (sleepDone s).top (sleepDone s).drop := rfl

/-- A state at the return instruction of `sleep`, its result in place. -/
structure Quits (s t : X86.State) : Prop where
  mem : t.mem = s.mem
  rsp : t.regs .rsp = byteAddr (s.regs .rsp) 32
  saved : ∀ r ∈ calleeSaved, r ≠ .rsp → t.regs r = s.regs r
  rax : t.regs .rax = sleepResult (s.regs .rax) (load s.mem (byteAddr (s.regs .rsp) 16))

theorem calleeSaved_plain : ∀ r ∈ calleeSaved, r ≠ .rax ∧ r ≠ .rsi := by decide

theorem sleepDone_quits {s : X86.State} (h : (s.regs .rax).slt 0 = false) :
    Quits s (sleepDone s) where
  mem := rfl
  rsp := by simp [sleepDone, step, byteAddr]
  saved r _ stack := by simp [sleepDone, step, stack]
  rax := by
    rw [sleepResult, if_pos h]
    simp [sleepDone, step]

theorem sleepInterrupted_quits {s : X86.State} (h : s.regs .rax = -eintr) :
    Quits s (sleepInterrupted s) where
  mem := rfl
  rsp := by simp [sleepInterrupted, step, byteAddr]
  saved r saved stack := by
    obtain ⟨ax, si⟩ := calleeSaved_plain r saved
    simp [sleepInterrupted, step, stack, ax, si]
  rax := by
    rw [sleepResult, h, if_neg (by decide), if_pos rfl]
    simp [sleepInterrupted, step, byteAddr]

theorem sleepFailed_quits {s : X86.State} (h : (s.regs .rax).slt 0 = true)
    (other : s.regs .rax ≠ -eintr) : Quits s (sleepFailed s) where
  mem := rfl
  rsp := by simp [sleepFailed, step, byteAddr]
  saved r saved stack := by
    obtain ⟨ax, -⟩ := calleeSaved_plain r saved
    simp [sleepFailed, step, stack, ax]
  rax := by
    rw [sleepResult, h, if_neg (by decide), if_neg other]
    simp [sleepFailed, step]

/-- The end of `sleep` gives the frame up and returns. -/
theorem sleepTail_quits (s : X86.State) :
    ∃ t, exec none sleepTail s = .left t.top t.drop ∧ Quits s t := by
  rw [exec_sleepTail, neg_sub_four]
  by_cases neg : (s.regs .rax).slt 0 = true
  · rw [if_pos neg]
    by_cases interrupted : s.regs .rax = -eintr
    · rw [if_pos (decide_eq_true interrupted)]
      exact ⟨_, rfl, sleepInterrupted_quits interrupted⟩
    · rw [if_neg (by simp [interrupted])]
      exact ⟨_, rfl, sleepFailed_quits neg interrupted⟩
  · rw [if_neg neg]
    exact ⟨_, rfl, sleepDone_quits (by simpa using neg)⟩

/-- The machine at the entry of the stub. -/
def sleepCall (site : Addr) (m : Machine) : Machine :=
  { m with cpu := (sleepHead.foldl step m.cpu).push site }

/-- The machine when the stub has returned. -/
def sleepReturn (site : Addr) (o : Outcome) (m : Machine) : Machine :=
  stubbed Sys.nanosleep.number (o.answer ((sleepCall site m).cpu.regs .rsi)) (sleepCall site m)

section

variable (site : Addr) (o : Outcome) (m : Machine)

theorem sleepCall_regs :
    (sleepCall site m).cpu.regs .rsp = m.cpu.regs .rsp - 32 - 8 ∧
      (sleepCall site m).cpu.regs .rdi = m.cpu.regs .rsp - 32 ∧
      (sleepCall site m).cpu.regs .rsi = byteAddr (m.cpu.regs .rsp - 32) 16 := by
  simp [sleepCall, sleepHead, step]

theorem sleepCall_mem :
    (sleepCall site m).cpu.mem =
      store (store (store m.cpu.mem (byteAddr (m.cpu.regs .rsp - 32) 0) (m.cpu.regs .rdi))
        (byteAddr (m.cpu.regs .rsp - 32) 8) 0) (m.cpu.regs .rsp - 32 - 8) site := by
  simp [sleepCall, sleepHead, step]

/-- The words of the frame that the call is given, and the return address above them. -/
theorem load_sleepCall {i : Nat} (below : i + 8 ≤ 2 ^ 32) (v : Word) :
    load (store (sleepCall site m).cpu.mem (m.cpu.regs .rsp - 32 - 8 - 8) v)
        (byteAddr (m.cpu.regs .rsp - 32) i) =
      load (store (store m.cpu.mem (byteAddr (m.cpu.regs .rsp - 32) 0) (m.cpu.regs .rdi))
        (byteAddr (m.cpu.regs .rsp - 32) 8) 0) (byteAddr (m.cpu.regs .rsp - 32) i) := by
  rw [sleepCall_mem, load_store_of_apart, load_store_of_apart]
  all_goals
    simp only [byteAddr]
    bv_omega

/-- The kernel finds the whole register as the seconds. -/
theorem sleepRequest_eq : sleepRequest site m = ⟨m.cpu.regs .rdi, 0⟩ := by
  obtain ⟨rsp, rdi, -⟩ := sleepCall_regs site m
  have entry : sleepRequest site m =
      ⟨load (store (sleepCall site m).cpu.mem ((sleepCall site m).cpu.regs .rsp - 8)
          ((sleepCall site m).cpu.regs .r10)) ((sleepCall site m).cpu.regs .rdi),
        load (store (sleepCall site m).cpu.mem ((sleepCall site m).cpu.regs .rsp - 8)
          ((sleepCall site m).cpu.regs .r10)) ((sleepCall site m).cpu.regs .rdi + 8)⟩ := rfl
  have start : m.cpu.regs .rsp - 32 = byteAddr (m.cpu.regs .rsp - 32) 0 := by
    simp only [byteAddr]
    bv_omega
  have sec := load_sleepCall site m (i := 0) (by decide) ((sleepCall site m).cpu.regs .r10)
  have nsec := load_sleepCall site m (i := 8) (by decide) ((sleepCall site m).cpu.regs .r10)
  rw [load_store_slot (by decide) (by decide) (by decide), load_store_same, ← start] at sec
  rw [load_store_same] at nsec
  rw [entry, rsp, rdi, sec]
  exact congrArg _ nsec

theorem sleep_keeps : (o.answer ((sleepCall site m).cpu.regs .rsi)).Keeps
    ((sleepCall site m).cpu.regs .rsp + 8) 16 := by
  obtain ⟨rsp, -, rsi⟩ := sleepCall_regs site m
  intro mem x below
  rw [rsp] at below
  rw [rsi]
  unfold Below at below
  unfold Outcome.answer
  by_cases interrupted : o.ret = -eintr
  · simp only [interrupted, if_true]
    rw [store_outside, store_outside]
    all_goals
      simp only [byteAddr]
      bv_omega
  · simp only [interrupted, if_false]

theorem call_sleep :
    Machine.call site (fun m => Sys.nanosleep.stub (o.answer (m.cpu.regs .rsi)) m)
        { m with cpu := sleepHead.foldl step m.cpu } = .fell (sleepReturn site o m) := by
  have top : (sleepCall site m).cpu.top = site := by
    rw [State.top, (sleepCall_regs site m).1, sleepCall_mem, load_store_same]
  have stub := gensys_spec Sys.nanosleep.number _ (sleepCall site m) (sleep_keeps site o m)
  rw [top] at stub
  exact Machine.call_of_left stub

theorem sleepAsm_eq : sleepAsm site o m = (sleepReturn site o m).asm sleepTail := by
  have head : m.asm sleepHead = .fell { m with cpu := sleepHead.foldl step m.cpu } := by
    rw [Machine.asm, exec_linear_block (by decide)]
    rfl
  rw [sleepAsm, head, Exit.andThen_fell, call_sleep, Exit.andThen_fell]

/-- What the call leaves on the stack. -/
theorem sleepReturn_mem :
    load (sleepReturn site o m).cpu.mem (byteAddr (m.cpu.regs .rsp - 32) 32) = m.cpu.top ∧
      (o.ret = -eintr → load (sleepReturn site o m).cpu.mem
        (byteAddr (m.cpu.regs .rsp - 32) 16) = o.remaining.sec) := by
  obtain ⟨rsp, -, rsi⟩ := sleepCall_regs site m
  have mem : (sleepReturn site o m).cpu.mem =
      (o.answer (byteAddr (m.cpu.regs .rsp - 32) 16)).mem
        (store (sleepCall site m).cpu.mem (m.cpu.regs .rsp - 32 - 8 - 8)
          ((sleepCall site m).cpu.regs .r10)) := by
    rw [← rsi, ← rsp]
    rfl
  have above : byteAddr (m.cpu.regs .rsp - 32) 32 = m.cpu.regs .rsp := by
    simp only [byteAddr]
    bv_omega
  have next : byteAddr (m.cpu.regs .rsp - 32) 16 + 8 = byteAddr (m.cpu.regs .rsp - 32) 24 := by
    simp only [byteAddr]
    bv_omega
  have top := load_sleepCall site m (i := 32) (by decide) ((sleepCall site m).cpu.regs .r10)
  rw [load_store_slot (by decide) (by decide) (by decide),
    load_store_slot (by decide) (by decide) (by decide)] at top
  rw [mem]
  unfold Outcome.answer
  by_cases interrupted : o.ret = -eintr
  · simp only [interrupted, if_true, next]
    refine ⟨?_, fun _ => ?_⟩
    · rw [load_store_slot (by decide) (by decide) (by decide),
        load_store_slot (by decide) (by decide) (by decide), top, above]
      rfl
    · rw [load_store_slot (by decide) (by decide) (by decide), load_store_same]
  · simp only [interrupted, if_false, false_implies, and_true]
    rw [top, above]
    rfl

theorem sleepReturn_saved {r : Reg} (saved : r ∈ calleeSaved) (stack : r ≠ .rsp) :
    (sleepReturn site o m).cpu.regs r = m.cpu.regs r := by
  simp only [calleeSaved, List.mem_cons, List.not_mem_nil, or_false] at saved
  obtain rfl | rfl | rfl | rfl | rfl | rfl | rfl := saved <;>
    first | exact absurd rfl stack | simp [sleepReturn, stubbed, sleepCall, sleepHead, step]

/-- `sleep` returns to its caller, with the frame gone and the result of the C version. -/
theorem sleepAsm_spec :
    ∃ m', sleepAsm site o m = .left m.cpu.top m' ∧
      (m'.cpu.regs .rax).setWidth 32 = (sleepReference o ((m.cpu.regs .rdi).setWidth 32)).2 ∧
      (∃ args, m'.calls = m.calls ++ [⟨Sys.nanosleep.number, args⟩]) ∧
      m'.cpu.regs .rsp = m.cpu.regs .rsp + 8 ∧
      ∀ r ∈ calleeSaved, r ≠ .rsp → m'.cpu.regs r = m.cpu.regs r := by
  have rsp : (sleepReturn site o m).cpu.regs .rsp = m.cpu.regs .rsp - 32 := by
    show (sleepCall site m).cpu.regs .rsp + 8 = _
    rw [(sleepCall_regs site m).1, BitVec.sub_add_cancel]
  obtain ⟨t, run, quits⟩ := sleepTail_quits (sleepReturn site o m).cpu
  obtain ⟨above, remaining⟩ := sleepReturn_mem site o m
  have top : t.top = m.cpu.top := by
    rw [State.top, quits.rsp, quits.mem, rsp, above]
  have result := quits.rax
  rw [rsp] at result
  refine ⟨⟨t.drop, (sleepReturn site o m).calls⟩, ?_, ?_, ⟨_, rfl⟩, ?_, ?_⟩
  · rw [sleepAsm_eq, Machine.asm, run, top]
    rfl
  · rw [State.drop_regs, Function.update_of_ne (by decide), result]
    show (sleepResult o.ret _).setWidth 32 = _
    unfold sleepResult sleepReference
    by_cases done : o.ret.slt 0 = false
    · rw [if_pos done, if_pos done]
    · rw [if_neg done, if_neg done]
      by_cases interrupted : o.ret = -eintr
      · rw [remaining interrupted, if_pos interrupted, if_pos interrupted]
      · rw [if_neg interrupted, if_neg interrupted]
        rfl
  · rw [State.drop_regs, Function.update_self, quits.rsp, rsp]
    simp only [byteAddr]
    bv_omega
  · intro r saved stack
    rw [State.drop_regs, Function.update_of_ne stack, quits.saved r saved stack,
      sleepReturn_saved site o m saved stack]

/-- A register is its lower half when the upper half is zero. -/
theorem widen_eq_iff (v : Word) : (v.setWidth 32).setWidth 64 = v ↔ v.extractLsb' 32 32 = 0 := by
  have range := v.isLt
  have zero : BitVec.toNat (0 : BitVec 32) = 0 := rfl
  simp only [← BitVec.toNat_inj, BitVec.toNat_setWidth, BitVec.extractLsb'_toNat,
    Nat.shiftRight_eq_div_pow]
  omega

/-- The two versions of `sleep` agree exactly when the caller has cleared the upper half of
the register that holds the argument. -/
theorem sleepsAlike_iff :
    SleepsAlike site o m ↔ (m.cpu.regs .rdi).extractLsb' 32 32 = 0 := by
  rw [← widen_eq_iff]
  constructor
  · rintro ⟨m', -, alike⟩
    have request := alike.request
    rw [sleepRequest_eq] at request
    exact (congrArg Timespec.sec request).symm
  · intro clear
    obtain ⟨m', run, value, call, stack, saved⟩ := sleepAsm_spec site o m
    refine ⟨m', run, value, ?_, call, stack, saved⟩
    rw [sleepRequest_eq, sleepReference, clear]

end

namespace Demo

/-- A call of `sleep(1)` with something left in the upper half of the register. -/
def oneSecond : Machine where
  cpu :=
    { regs := fun r => if r = .rdi then 0x0000000100000001 else 0
      zf := false
      lt := false
      mem := fun _ => 0 }
  calls := []

theorem oneSecond_differs : ¬ SleepsAlike 0x1000 ⟨0, ⟨0, 0⟩, 0, 0⟩ oneSecond := by
  rintro ⟨m', -, alike⟩
  have request := alike.request
  rw [sleepRequest_eq] at request
  exact absurd (congrArg Timespec.sec request) (by decide)

end Demo

end Libmini
