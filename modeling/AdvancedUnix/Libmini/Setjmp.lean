import AdvancedUnix.Libmini.Jump

/-!
# What setjmp saves

The assembler of `setjmp` reads two words of its own frame, the saved base
pointer and the return address, and writes the buffer; the query that follows
writes the word after them. When the buffer does not overlap the stack that the
call uses, these writes leave the frame alone and the call of `sigprocmask`
leaves the buffer alone, so the buffer holds the very context that control is
back in.
-/

namespace Libmini

open Memory X86

theorem saveContext_linear : ∀ i ∈ saveContext, i.Linear := by decide

theorem saveContext_regs (s : X86.State) {r : Reg} (h : r ≠ .rax) :
    (saveContext.foldl step s).regs r = s.regs r := by
  simp [saveContext, step, h]

theorem saveContext_outside (s : X86.State) {x : Addr} (h : 64 ≤ (x - s.regs .rdi).toNat) :
    (saveContext.foldl step s).mem x = s.mem x := by
  simp [-byteAddr_zero, saveContext, step, store_slot_outside h]

/-- Neither word at the base pointer is written before it is saved. -/
theorem saveContext_saved (s : X86.State)
    (apart : ∀ k < 16, 64 ≤ (byteAddr (s.regs .rbp) k - s.regs .rdi).toNat) :
    Context.saved (saveContext.foldl step s).mem (s.regs .rdi) =
      { Context.of (load s.mem (byteAddr (s.regs .rbp) 8)) s with
        rsp := byteAddr (s.regs .rbp) 16
        rbp := load s.mem (byteAddr (s.regs .rbp) 0) } := by
  have frame : ∀ (m : Bytes) (off : Nat) (w : Word) (d : Nat), off + 8 ≤ 64 → d + 8 ≤ 16 →
      load (store m (byteAddr (s.regs .rdi) off) w) (byteAddr (s.regs .rbp) d) =
        load m (byteAddr (s.regs .rbp) d) := by
    intro m off w d hoff hd
    apply load_congr
    intro k hk
    rw [byteAddr_byteAddr]
    exact store_slot_outside (apart _ (by omega)) hoff
  simp [-byteAddr_zero, saveContext, step, Context.saved, Context.of, load_store_slot, frame]

/-- The query of `setjmp` leaves the blocked signals in the buffer. -/
theorem putSet_load {a : Addr} (object : a ≠ 0) (set : Word) (s : X86.State) :
    load (putSet a set s).mem a = set := by
  rw [putSet, if_neg object, State.setMem_mem, load_store_same]

@[simp] theorem putSet_regs (a : Addr) (set : Word) (s : X86.State) :
    (putSet a set s).regs = s.regs := by
  unfold putSet
  split <;> rfl

/-- A set stored in an object leaves the bytes outside the object alone. -/
theorem putSet_outside {a x : Addr} {off size : Nat} (set : Word) (s : X86.State)
    (h : size ≤ (x - a).toNat) (inside : off + 8 ≤ size) :
    (putSet (byteAddr a off) set s).mem x = s.mem x := by
  unfold putSet
  split
  · rfl
  · exact store_slot_outside h inside

theorem putSet_saved (env : Addr) (set : Word) (s : X86.State) :
    Context.saved (putSet (envMask env) set s).mem env = Context.saved s.mem env := by
  apply Context.saved_congr
  intro i hi
  unfold putSet envMask
  split
  · rfl
  · apply store_outside
    simp only [byteAddr]
    bv_omega

/-- The state in which the epilogue of `setjmp` starts. -/
def setjmpDone (f : Frame) (p : Process) : X86.State :=
  (f.callee.clobber (putSet (envMask (p.cpu.regs .rdi)) p.blocked.set
    (saveContext.foldl step (f.enter p.cpu)))).setReg .rax 0

theorem setjmp_eq (f : Frame) (p : Process) :
    setjmp f p = (exec none Frame.epilogue (setjmpDone f p)).map fun cpu =>
      { cpu, blocked := p.blocked, errno := 0 } := by
  simp only [setjmp, Process.asm, Process.enter, exec_linear_block saveContext_linear,
    Exit.map_fell, Exit.andThen_fell, Process.call, sigprocmask_query]
  rw [exec_linear (by trivial)]
  rfl

theorem setjmpDone_regs (f : Frame) (p : Process) {r : Reg} (saved : r ∈ calleeSaved) :
    (setjmpDone f p).regs r = (f.enter p.cpu).regs r := by
  have hr : r ≠ .rax := by
    rintro rfl
    exact absurd saved (by decide)
  rw [setjmpDone, State.setReg_regs, Function.update_of_ne hr, Callee.clobber_regs _ _ saved,
    putSet_regs, saveContext_regs _ hr]

/-- The stack around a call of `setjmp`, from the return address down, does not
overlap the buffer. -/
def SetjmpClear (f : Frame) (s : X86.State) : Prop :=
  Clear (s.regs .rsp + 8) (16 + f.size + f.callee.depth) (s.regs .rdi) jmpBufSize

section

variable {f : Frame} {p : Process} (clear : SetjmpClear f p.cpu)
include clear

theorem SetjmpClear.room : 16 + f.size + f.callee.depth < 2 ^ 64 :=
  size_lt_of_not_below (clear 0 (by decide))

/-- The saved base pointer and the return address are not touched. -/
theorem setjmpDone_stack {k : Nat} (hk : k < 16) :
    (setjmpDone f p).mem (byteAddr (p.cpu.regs .rsp - 8) k) =
      (f.enter p.cpu).mem (byteAddr (p.cpu.regs .rsp - 8) k) := by
  have room := clear.room
  have above : ¬ Below (p.cpu.regs .rsp - 8 - BitVec.ofNat 64 f.size) f.callee.depth
      (byteAddr (p.cpu.regs .rsp - 8) k) := by
    unfold Below
    simp only [byteAddr]
    bv_omega
  have inside : Below (p.cpu.regs .rsp + 8) (16 + f.size + f.callee.depth)
      (byteAddr (p.cpu.regs .rsp - 8) k) := by
    unfold Below
    simp only [byteAddr]
    bv_omega
  have away := clear.outside inside
  rw [setjmpDone, State.setReg_mem, Callee.clobber_mem, putSet_regs,
    saveContext_regs _ (by decide), Frame.enter_rsp, scribble_outside above, envMask,
    putSet_outside _ _ away (by decide), saveContext_outside]
  rw [f.enter_regs _ (by decide) (by decide)]
  exact Nat.le_trans (by decide) away

theorem setjmpDone_buffer {i : Nat} (hi : i < jmpBufSize) :
    (setjmpDone f p).mem (byteAddr (p.cpu.regs .rdi) i) =
      (putSet (envMask (p.cpu.regs .rdi)) p.blocked.set
        (saveContext.foldl step (f.enter p.cpu))).mem (byteAddr (p.cpu.regs .rdi) i) := by
  have below : ¬ Below (p.cpu.regs .rsp - 8 - BitVec.ofNat 64 f.size) f.callee.depth
      (byteAddr (p.cpu.regs .rdi) i) := by
    have hsp : p.cpu.regs .rsp - 8 - BitVec.ofNat 64 f.size =
        p.cpu.regs .rsp + 8 - BitVec.ofNat 64 (16 + f.size) := by bv_omega
    rw [hsp]
    exact fun h => clear i hi (h.mono (Nat.le_refl _))
  rw [setjmpDone, State.setReg_mem, Callee.clobber_mem, putSet_regs,
    saveContext_regs _ (by decide), Frame.enter_rsp, scribble_outside below]

theorem setjmpDone_base :
    load (setjmpDone f p).mem (p.cpu.regs .rsp - 8) = p.cpu.regs .rbp := by
  have room := clear.room
  rw [← f.load_enter p.cpu (by omega)]
  exact load_congr fun k hk => setjmpDone_stack clear (by omega)

theorem setjmpDone_top : load (setjmpDone f p).mem (p.cpu.regs .rsp) = p.cpu.top := by
  have room := clear.room
  rw [← f.load_enter_top p.cpu (by omega)]
  apply load_congr
  intro k hk
  have hk' : byteAddr (p.cpu.regs .rsp) k = byteAddr (p.cpu.regs .rsp - 8) (8 + k) := by
    simp only [byteAddr]
    bv_omega
  rw [hk']
  exact setjmpDone_stack clear (by omega)

theorem setjmpDone_saved :
    Context.saved (setjmpDone f p).mem (p.cpu.regs .rdi) = Context.caller p.cpu := by
  have room := clear.room
  have hrdi : (f.enter p.cpu).regs .rdi = p.cpu.regs .rdi :=
    f.enter_regs _ (by decide) (by decide)
  have apart : ∀ k < 16,
      64 ≤ (byteAddr ((f.enter p.cpu).regs .rbp) k - (f.enter p.cpu).regs .rdi).toNat := by
    intro k hk
    rw [Frame.enter_rbp, hrdi]
    refine Nat.le_trans (by decide) (clear.outside (x := byteAddr (p.cpu.regs .rsp - 8) k) ?_)
    unfold Below
    simp only [byteAddr]
    bv_omega
  have saved := saveContext_saved (f.enter p.cpu) apart
  rw [hrdi, Frame.enter_rbp, byteAddr_zero, f.load_enter _ (by omega)] at saved
  rw [Context.saved_congr fun i hi => setjmpDone_buffer clear (Nat.lt_of_lt_of_le hi (by decide)),
    putSet_saved, saved]
  have top : byteAddr (p.cpu.regs .rsp - 8) 8 = p.cpu.regs .rsp := by
    simp only [byteAddr]
    bv_omega
  have above : byteAddr (p.cpu.regs .rsp - 8) 16 = p.cpu.regs .rsp + 8 := by
    simp only [byteAddr]
    bv_omega
  rw [top, above, f.load_enter_top _ (by omega)]
  simp only [Context.caller, Context.of, f.enter_regs, ne_eq, reduceCtorEq, not_false_eq_true]

end

/-- What a call of `setjmp` has done when it returns: the buffer holds the
context that control is back in, and the signals that are blocked. -/
structure Saved (p r : Process) : Prop where
  zero : r.cpu.regs .rax = 0
  blocked : r.blocked = p.blocked
  context : Context.of p.cpu.top r.cpu = Context.caller p.cpu
  buffer : Context.saved r.cpu.mem (p.cpu.regs .rdi) = Context.caller p.cpu
  mask : envMask (p.cpu.regs .rdi) ≠ 0 →
    load r.cpu.mem (envMask (p.cpu.regs .rdi)) = p.blocked.set

theorem setjmp_spec (f : Frame) (p : Process) (clear : SetjmpClear f p.cpu) :
    ∃ r, setjmp f p = .left p.cpu.top r ∧ Saved p r := by
  have base : (setjmpDone f p).regs .rbp = p.cpu.regs .rsp - 8 := by
    rw [setjmpDone_regs f p (by decide), Frame.enter_rbp]
  have target : load (setjmpDone f p).mem ((setjmpDone f p).regs .rbp + 8) = p.cpu.top := by
    rw [base, BitVec.sub_add_cancel, setjmpDone_top clear]
  refine ⟨⟨Frame.returned (setjmpDone f p), p.blocked, 0⟩, ?_, ?_, rfl, ?_, ?_, ?_⟩
  · rw [setjmp_eq, Frame.exec_epilogue, Exit.map_left, target]
  · rw [Frame.returned_regs _ (by decide) (by decide)]
    simp [setjmpDone]
  · have above : p.cpu.regs .rsp - 8 + 16 = p.cpu.regs .rsp + 8 := by bv_omega
    simp (disch := decide) only [Context.of, Context.caller, Frame.returned_rbp,
      Frame.returned_rsp, base, setjmpDone_base clear, above, Frame.returned_regs,
      setjmpDone_regs, Frame.enter_regs]
  · exact setjmpDone_saved clear
  · intro object
    rw [← putSet_load object p.blocked.set (saveContext.foldl step (f.enter p.cpu))]
    apply load_congr
    intro k hk
    rw [envMask, byteAddr_byteAddr]
    exact setjmpDone_buffer clear (by unfold jmpBufSize; omega)

/-- The process that a call of `setjmp` returns in. -/
theorem setjmp_left {f : Frame} {p r : Process} {target : Addr}
    (back : setjmp f p = .left target r) :
    r = { cpu := Frame.returned (setjmpDone f p), blocked := p.blocked, errno := 0 } := by
  rw [setjmp_eq, Frame.exec_epilogue, Exit.map_left] at back
  injection back with _ done
  exact done.symm

/-- Outside its buffer and the stack that it uses a call of `setjmp` writes nothing. -/
theorem setjmp_outside {f : Frame} {p r : Process} {target x : Addr}
    (back : setjmp f p = .left target r)
    (stack : ¬ Below (p.cpu.regs .rsp + 8) (16 + f.size + f.callee.depth) x)
    (buffer : jmpBufSize ≤ (x - p.cpu.regs .rdi).toNat) : r.cpu.mem x = p.cpu.mem x := by
  have entry : p.cpu.regs .rsp = p.cpu.regs .rsp + 8 - BitVec.ofNat 64 8 := by bv_omega
  have frame : p.cpu.regs .rsp - 8 - BitVec.ofNat 64 f.size =
      p.cpu.regs .rsp + 8 - BitVec.ofNat 64 (16 + f.size) := by bv_omega
  have above : ¬ Below (p.cpu.regs .rsp - 8 - BitVec.ofNat 64 f.size) f.callee.depth x := by
    rw [frame]
    exact fun h => stack (h.mono (Nat.le_refl _))
  have above' : ¬ Below (p.cpu.regs .rsp) (8 + f.size) x := by
    rw [entry]
    exact fun h => stack (h.mono (by omega))
  have context : 64 ≤ (x - (f.enter p.cpu).regs .rdi).toNat := by
    rw [f.enter_regs _ (by decide) (by decide)]
    exact Nat.le_trans (by decide) buffer
  rw [setjmp_left back, Frame.returned_mem, setjmpDone, State.setReg_mem, Callee.clobber_mem,
    putSet_regs, saveContext_regs _ (by decide), Frame.enter_rsp, scribble_outside above, envMask,
    putSet_outside _ _ buffer (by decide), saveContext_outside _ context, f.enter_above _ above']

end Libmini
