import AdvancedUnix.Libmini.Setjmp

/-!
# What longjmp restores

`longjmp` keeps its two arguments on the stack over the call of `sigprocmask`,
takes them back, puts the value in place and loads the saved context. When the
buffer does not overlap the stack that the call uses, the context that control
arrives in is the one the buffer held when `longjmp` was called. The value is
tested as a 64-bit register, and the blocked signals are joined with the saved
ones.
-/

namespace Libmini

open Memory X86

theorem returnValue_linear : ∀ i ∈ returnValue, i.Linear := by decide

theorem loadContext_linear : ∀ i ∈ loadContext, i.Linear := by decide

theorem loadContext_of (s : X86.State) :
    Context.of ((loadContext.foldl step s).regs .rcx) (loadContext.foldl step s) =
      Context.saved s.mem (s.regs .rdi) := by
  simp [-byteAddr_zero, loadContext, step, Context.of, Context.saved]

theorem loadContext_rax (s : X86.State) :
    (loadContext.foldl step s).regs .rax = s.regs .rax := by
  simp [loadContext, step]

/-- The registers once the arguments are back and the value is in place. -/
def valued (s : X86.State) : X86.State :=
  let t := returnValue.foldl step s
  if t.zf then step t (.inc .rax) else t

theorem exec_jumpBack (s : X86.State) :
    exec none jumpBack s = .left ((loadContext.foldl step (valued s)).regs .rcx)
      (loadContext.foldl step (valued s)) := by
  rw [jumpBack, exec_linear_append returnValue_linear]
  rw [exec_jnz_over (by decide) (by decide), exec_linear_append loadContext_linear]
  rfl

theorem valued_spec (s : X86.State) :
    (valued s).mem = s.mem ∧ (valued s).regs .rdi = load s.mem (s.regs .rsp + 8) ∧
      (valued s).regs .rax = if s.top = 0 then 1 else s.top := by
  by_cases h : s.top = 0
  · simp [valued, returnValue, step, State.top] at h ⊢
    simp [h]
  · simp [valued, returnValue, step, State.top] at h ⊢
    simp [h]

/-- The value that a jump hands to `setjmp`'s caller. -/
def jumpValue (val : Word) : Word := if val = 0 then 1 else val

/-- The state in which the second block of `longjmp` starts. -/
def longjmpReady (f : Frame) (p : Process) : X86.State :=
  f.callee.clobber (keepArguments.foldl step (f.enter p.cpu))

/-- The stack that a call of `longjmp` uses does not overlap the buffer. -/
def LongjmpClear (f : Frame) (s : X86.State) : Prop :=
  Clear (s.regs .rsp) (24 + f.size + f.callee.depth) (s.regs .rdi) jmpBufSize

theorem keepArguments_linear : ∀ i ∈ keepArguments, i.Linear := by decide

section

variable (f : Frame) (p : Process)

theorem keepArguments_rsp : (keepArguments.foldl step (f.enter p.cpu)).regs .rsp =
    p.cpu.regs .rsp - BitVec.ofNat 64 (24 + f.size) := by
  simp only [keepArguments, List.foldl_cons, List.foldl_nil, step, State.push_regs,
    Function.update_self, Frame.enter_rsp, BitVec.ofNat_add]
  bv_omega

theorem keepArguments_mem : (keepArguments.foldl step (f.enter p.cpu)).mem =
    store (store (f.enter p.cpu).mem
      (p.cpu.regs .rsp - BitVec.ofNat 64 (16 + f.size)) (p.cpu.regs .rdi))
      (p.cpu.regs .rsp - BitVec.ofNat 64 (24 + f.size)) (p.cpu.regs .rsi) := by
  have pushes : ∀ s : X86.State, (keepArguments.foldl step s).mem =
      store (store s.mem (s.regs .rsp - 8) (s.regs .rdi)) (s.regs .rsp - 8 - 8) (s.regs .rsi) := by
    intro s
    simp [keepArguments, step]
  have first : (f.enter p.cpu).regs .rsp - 8 =
      p.cpu.regs .rsp - BitVec.ofNat 64 (16 + f.size) := by
    rw [Frame.enter_rsp, show 16 + f.size = 8 + f.size + 8 by omega, ← sub_ofNat_sub,
      ← sub_ofNat_sub]
    rfl
  have second : p.cpu.regs .rsp - BitVec.ofNat 64 (16 + f.size) - 8 =
      p.cpu.regs .rsp - BitVec.ofNat 64 (24 + f.size) := by
    rw [show 24 + f.size = 16 + f.size + 8 by omega]
    exact sub_ofNat_sub ..
  rw [pushes, f.enter_regs _ (r := .rdi) (by decide) (by decide),
    f.enter_regs _ (r := .rsi) (by decide) (by decide), first, second]

theorem longjmpReady_rsp : (longjmpReady f p).regs .rsp =
    p.cpu.regs .rsp - BitVec.ofNat 64 (24 + f.size) := by
  rw [longjmpReady, Callee.clobber_regs _ _ (by decide), keepArguments_rsp]

end

section

variable {f : Frame} {p : Process} (clear : LongjmpClear f p.cpu)
include clear

theorem LongjmpClear.room : 24 + f.size + f.callee.depth < 2 ^ 64 :=
  size_lt_of_not_below (clear 0 (by decide))

/-- What `longjmp` puts on the stack is not in the buffer. -/
theorem keepArguments_buffer {i : Nat} (hi : i < jmpBufSize) :
    (keepArguments.foldl step (f.enter p.cpu)).mem (byteAddr (p.cpu.regs .rdi) i) =
      p.cpu.mem (byteAddr (p.cpu.regs .rdi) i) := by
  have away := clear i hi
  rw [keepArguments_mem, store_below away (by omega) (by omega),
    store_below away (by omega) (by omega)]
  apply f.enter_above
  intro below
  apply away
  unfold Below at below ⊢
  omega

theorem longjmpReady_buffer {i : Nat} (hi : i < jmpBufSize) :
    (longjmpReady f p).mem (byteAddr (p.cpu.regs .rdi) i) =
      p.cpu.mem (byteAddr (p.cpu.regs .rdi) i) := by
  rw [longjmpReady, Callee.clobber_mem, keepArguments_rsp,
    scribble_outside fun below => clear i hi (below.mono (Nat.le_refl _)),
    keepArguments_buffer clear hi]

/-- The call keeps the arguments that `longjmp` has pushed. -/
theorem longjmpReady_top : (longjmpReady f p).top = p.cpu.regs .rsi := by
  have room := clear.room
  rw [State.top, longjmpReady_rsp f p, longjmpReady, Callee.clobber_mem, keepArguments_rsp,
    load_scribble (clear_self (by omega)), keepArguments_mem, load_store_same]

theorem longjmpReady_second :
    load (longjmpReady f p).mem ((longjmpReady f p).regs .rsp + 8) = p.cpu.regs .rdi := by
  have room := clear.room
  have above : p.cpu.regs .rsp - BitVec.ofNat 64 (24 + f.size) + 8 =
      p.cpu.regs .rsp - BitVec.ofNat 64 (16 + f.size) := by
    simp only [BitVec.ofNat_add]
    bv_omega
  have below : p.cpu.regs .rsp - BitVec.ofNat 64 (24 + f.size) =
      p.cpu.regs .rsp - BitVec.ofNat 64 (16 + f.size) - BitVec.ofNat 64 8 := by
    simp only [BitVec.ofNat_add]
    bv_omega
  rw [longjmpReady_rsp f p, above, longjmpReady, Callee.clobber_mem, keepArguments_rsp, below,
    load_scribble (clear_above (by omega)), keepArguments_mem, below,
    load_store_of_apart (by bv_omega) (by bv_omega), load_store_same]

end

/-- What a call of `longjmp` has done when it goes to its target. -/
structure Restored (p : Process) (target : Addr) (r : Process) : Prop where
  context : Context.of target r.cpu = Context.saved p.cpu.mem (p.cpu.regs .rdi)
  value : r.cpu.regs .rax = jumpValue (p.cpu.regs .rsi)
  blocked : envMask (p.cpu.regs .rdi) ≠ 0 →
    r.blocked = p.blocked.union (.ofSet (load p.cpu.mem (envMask (p.cpu.regs .rdi))))

/-- The blocked signals after the call of `sigprocmask` in `longjmp`. -/
def longjmpBlocked (f : Frame) (p : Process) : Blocked :=
  (sigprocmask sigBlock (envMask (p.cpu.regs .rdi)) 0
    { p with cpu := keepArguments.foldl step (f.enter p.cpu) }).2.blocked

theorem longjmp_eq (f : Frame) (p : Process) :
    longjmp f p =
      .left ((loadContext.foldl step (valued (longjmpReady f p))).regs .rcx)
        { cpu := loadContext.foldl step (valued (longjmpReady f p))
          blocked := longjmpBlocked f p
          errno := 0 } := by
  obtain ⟨b, hb⟩ : ∃ b, nextMask sigBlock (envMask (p.cpu.regs .rdi))
      { p with cpu := keepArguments.foldl step (f.enter p.cpu) } = some b := by
    unfold nextMask
    split
    · exact ⟨_, rfl⟩
    · exact ⟨_, if_pos rfl⟩
  simp only [longjmp, longjmpBlocked, Process.asm, Process.enter,
    exec_linear_block keepArguments_linear, Exit.map_fell, Exit.andThen_fell, Process.call,
    sigprocmask_of_nextMask hb, putSet, if_true, exec_jumpBack, Exit.map_left, Exit.andThen_left,
    longjmpReady]

theorem longjmp_spec (f : Frame) (p : Process) (clear : LongjmpClear f p.cpu) :
    ∃ target r, longjmp f p = .left target r ∧ Restored p target r := by
  obtain ⟨mem, rdi, rax⟩ := valued_spec (longjmpReady f p)
  rw [longjmpReady_second clear] at rdi
  rw [longjmpReady_top clear] at rax
  refine ⟨_, _, longjmp_eq f p, ?_, ?_, ?_⟩
  · rw [loadContext_of, mem, rdi]
    exact Context.saved_congr fun i hi =>
      longjmpReady_buffer clear (Nat.lt_of_lt_of_le hi (by decide))
  · rw [loadContext_rax, rax, jumpValue]
  · intro object
    rw [longjmpBlocked, sigprocmask_block object]
    have set : load (keepArguments.foldl step (f.enter p.cpu)).mem (envMask (p.cpu.regs .rdi)) =
        load p.cpu.mem (envMask (p.cpu.regs .rdi)) := by
      apply load_congr
      intro k hk
      rw [envMask, byteAddr_byteAddr]
      exact keepArguments_buffer clear (by unfold jmpBufSize; omega)
    rw [set]

/-- The process that a jump lands in. -/
theorem longjmp_left {f : Frame} {p r : Process} {target : Addr}
    (jump : longjmp f p = .left target r) :
    r = { cpu := loadContext.foldl step (valued (longjmpReady f p))
          blocked := longjmpBlocked f p
          errno := 0 } := by
  rw [longjmp_eq] at jump
  injection jump with _ done
  exact done.symm

/-- Outside the stack that it uses a call of `longjmp` writes nothing. -/
theorem longjmp_outside {f : Frame} {p r : Process} {target x : Addr}
    (jump : longjmp f p = .left target r)
    (stack : ¬ Below (p.cpu.regs .rsp) (24 + f.size + f.callee.depth) x) :
    r.cpu.mem x = p.cpu.mem x := by
  have loads : ∀ s : X86.State, (loadContext.foldl step s).mem = s.mem := by
    intro s
    simp [loadContext, step]
  have above : ¬ Below (p.cpu.regs .rsp - BitVec.ofNat 64 (24 + f.size)) f.callee.depth x :=
    fun h => stack (h.mono (Nat.le_refl _))
  have above' : ¬ Below (p.cpu.regs .rsp) (8 + f.size) x := by
    intro h
    unfold Below at stack h
    omega
  rw [longjmp_left jump, loads, (valued_spec _).1, longjmpReady, Callee.clobber_mem,
    keepArguments_rsp, scribble_outside above, keepArguments_mem, store_below stack (by omega) (by omega),
    store_below stack (by omega) (by omega), f.enter_above _ above']

end Libmini
