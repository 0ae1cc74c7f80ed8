import AdvancedUnix.Libmini.Wrapper

/-!
# One law for all wrappers

A wrapper makes one system call of its own number with its own arguments, gives
the callee-saved registers back, and reports the result by the convention of the
kernel, in which the results from -4095 to -1 are errors.

The frame lemma follows the stack through a wrapper: the saved base pointer and
the return address lie above everything that is written below, the kernel leaves
the stack alone, and `errno` is not on it. What remains is a condition on the
name and on the result.
-/

namespace Libmini

open Memory X86

/-- The number of the system call that a wrapper is named after. -/
def Fn.kernelNumber : Fn → Word
  | read => 0
  | write => 1
  | «open» => 2
  | close => 3
  | mmap => 9
  | mprotect => 10
  | munmap => 11
  | sigprocmask => 14
  | pipe => 22
  | dup => 32
  | dup2 => 33
  | pause => 34
  | nanosleep => 35
  | alarm => 37
  | fork => 57
  | getcwd => 79
  | chdir => 80
  | rename => 82
  | mkdir => 83
  | rmdir => 84
  | creat => 85
  | link => 86
  | unlink => 87
  | readlink => 89
  | chmod => 90
  | chown => 92
  | umask => 95
  | gettimeofday => 96
  | getuid => 102
  | getgid => 104
  | setuid => 105
  | setgid => 106
  | geteuid => 107
  | getegid => 108
  | sigpending => 127

/-- The types, constants, failure value and result type of a function. -/
structure Interface where
  params : List CType
  consts : List Word
  failure : Word
  result : CType

def Fn.interface (f : Fn) : Interface :=
  match f.wrapper with
  | some w => ⟨w.params, w.consts, w.failure, w.result⟩
  | none => ⟨[.pointer, .int, .int], [], -1, .int⟩

/-- The arguments that a caller has put into the registers. -/
def Interface.given (i : Interface) (s : X86.State) : List Word :=
  List.zipWith (fun t r => t.value (s.regs r)) i.params argRegs

/-- The kernel's argument registers hold the arguments, then the constants. -/
def Interface.Passed (i : Interface) (s : X86.State) (args : List Word) : Prop :=
  ∃ passed rest, args = passed ++ i.consts ++ rest ∧ passed.length = i.params.length ∧
    List.zipWith CType.value i.params passed = i.given s

/-- Results that stand for an error. -/
def IsError (ret : Word) : Prop := -4095 ≤ ret.toInt ∧ ret.toInt ≤ -1

/-- What a call of a wrapper does, given the kernel's answer. -/
structure Law (f : Fn) (b : Build) (a : Answer) (m : Machine) (target : Addr) (m' : Machine) :
    Prop where
  returns : target = m.cpu.top
  stack : m'.cpu.regs .rsp = m.cpu.regs .rsp + 8
  saved : ∀ r ∈ calleeSaved, r ≠ .rsp → m'.cpu.regs r = m.cpu.regs r
  request : ∃ q, m'.calls = m.calls ++ [q] ∧ q.number = f.kernelNumber ∧
    f.interface.Passed m.cpu q.args
  failed : IsError a.ret → load m'.cpu.mem b.errno = -a.ret ∧
    f.interface.result.value (m'.cpu.regs .rax) = f.interface.result.value f.interface.failure
  succeeded : ¬ IsError a.ret → load m'.cpu.mem b.errno = 0 ∧
    f.interface.result.value (m'.cpu.regs .rax) = f.interface.result.value a.ret

/-- The stack that a wrapper may use, its return address included. -/
def stackRoom (b : Build) : Nat := 32 + b.frame.size

section

variable (rs : List Reg) (args : List Word) (s : X86.State)

/-- Setting other registers leaves a register alone. -/
theorem setRegs_other {r : Reg} (other : r ∉ rs) :
    (((rs.zip args).foldl (fun s p => s.setReg p.1 p.2) s).regs r) = s.regs r := by
  induction rs generalizing args s with
  | nil => rfl
  | cons r' rs ih =>
      cases args with
      | nil => rfl
      | cons v args =>
          rw [List.mem_cons, not_or] at other
          rw [List.zip_cons_cons, List.foldl_cons, ih _ _ other.2, State.setReg_regs,
            Function.update_of_ne other.1]

theorem setRegs_mem : ((rs.zip args).foldl (fun s p => s.setReg p.1 p.2) s).mem = s.mem := by
  induction rs generalizing args s with
  | nil => rfl
  | cons r' rs ih =>
      cases args with
      | nil => rfl
      | cons v args => exact ih args (s.setReg r' v)

/-- Distinct registers hold the values they were set to. -/
theorem setRegs_prefix (distinct : rs.Nodup) (room : args.length ≤ rs.length) :
    ∃ rest, rs.map ((rs.zip args).foldl (fun s p => s.setReg p.1 p.2) s).regs = args ++ rest := by
  induction rs generalizing args s with
  | nil =>
      rw [List.length_nil, Nat.le_zero, List.length_eq_zero_iff] at room
      exact ⟨[], by rw [room]; rfl⟩
  | cons r rs ih =>
      cases args with
      | nil => exact ⟨_, rfl⟩
      | cons v args =>
          rw [List.nodup_cons] at distinct
          obtain ⟨rest, h⟩ := ih args (s.setReg r v) distinct.2 (Nat.le_of_succ_le_succ room)
          refine ⟨rest, ?_⟩
          rw [List.map_cons, List.zip_cons_cons, List.foldl_cons, h,
            setRegs_other rs args _ distinct.1, State.setReg_regs, Function.update_self,
            List.cons_append]

end

/-- A value read after it has been passed is the value before. -/
theorem zipWith_value_pass (upper : Reg → BitVec 32) (s : X86.State) (ts : List CType)
    (rs : List Reg) :
    List.zipWith CType.value ts
        (List.zipWith (fun t r => t.pass (upper r) (s.regs r)) ts rs) =
      List.zipWith (fun t r => t.value (s.regs r)) ts rs := by
  induction ts generalizing rs with
  | nil => rfl
  | cons t ts ih =>
      cases rs with
      | nil => rfl
      | cons r rs => simp only [List.zipWith_cons_cons, CType.value_pass, ih]

/-- Every wrapper fits its arguments into registers. -/
theorem wrapper_fits {f : Fn} {w : Wrapper} (h : f.wrapper = some w) :
    w.params.length + w.consts.length ≤ 6 := by
  cases f <;> cases h <;> decide

theorem arguments_length {f : Fn} {w : Wrapper} (h : f.wrapper = some w) (b : Build)
    (s : X86.State) : (w.arguments b s).length ≤ argRegs.length := by
  have fits := wrapper_fits h
  rw [Wrapper.arguments, List.length_append, List.length_zipWith]
  exact Nat.le_trans (Nat.add_le_add_right (Nat.min_le_left _ _) _) fits

/-- The return address and the word below it. -/
theorem base_below (b : Build) (sp : Addr) {k : Nat} (hk : k < 16) :
    Below (sp + 8) (stackRoom b) (byteAddr (sp - 8) k) := by
  unfold Below stackRoom
  simp only [byteAddr]
  bv_omega

/-- The stack of a wrapper and `errno` do not get in each other's way, and the
kernel writes to neither the stack. -/
structure Sound (b : Build) (a : Answer) (m : Machine) : Prop where
  keeps : a.Keeps (m.cpu.regs .rsp + 8) (stackRoom b)
  clear : Clear (m.cpu.regs .rsp + 8) (stackRoom b) b.errno 8

section

variable {b : Build} {a : Answer} {m : Machine} (sound : Sound b a m)
include sound

theorem Sound.room : stackRoom b < 2 ^ 64 := size_lt_of_not_below (sound.clear 0 (by decide))

/-- The kernel and the assignments to `errno` leave a word at the base alone. -/
theorem Sound.base_kept (mem : Bytes) (v : Word) {k : Nat} (hk : k < 16) :
    store (a.mem mem) b.errno v (byteAddr (m.cpu.regs .rsp - 8) k) =
      mem (byteAddr (m.cpu.regs .rsp - 8) k) := by
  rw [store_outside (sound.clear.outside (base_below b _ hk)), sound.keeps _ _ (base_below b _ hk)]

end

/-- The machine when the stub of a wrapper's call has returned. -/
def afterStub (b : Build) (a : Answer) (number : Word) (args : List Word) (m : Machine) : Machine :=
  stubbed number a
    { m with cpu := (Wrapper.place args (b.frame.enter m.cpu)).push b.site }

theorem place_other {args : List Word} {s : X86.State} {r : Reg} (other : r ∉ argRegs) :
    (Wrapper.place args s).regs r = s.regs r :=
  setRegs_other argRegs args s other

theorem place_mem (args : List Word) (s : X86.State) : (Wrapper.place args s).mem = s.mem :=
  setRegs_mem argRegs args s

/-- Where the inner call of a wrapper has put its return address. -/
theorem inner_rsp (b : Build) (m : Machine) (args : List Word) :
    ((Wrapper.place args (b.frame.enter m.cpu)).push b.site).regs .rsp + 8 =
      m.cpu.regs .rsp + 8 - BitVec.ofNat 64 (16 + b.frame.size) := by
  rw [State.push_regs, Function.update_self, place_other (by decide), Frame.enter_rsp,
    BitVec.sub_add_cancel, BitVec.ofNat_add]
  bv_omega

/-- A word stored further down leaves the base alone. -/
theorem store_under {sp : Addr} {d k : Nat} {m : Bytes} {w : Word} (low : 16 ≤ d)
    (room : d + 8 < 2 ^ 64) (hk : k < 16) :
    store m (sp - BitVec.ofNat 64 d) w (byteAddr (sp - 8) k) = m (byteAddr (sp - 8) k) := by
  apply store_outside
  simp only [byteAddr]
  bv_omega

section

variable {b : Build} {a : Answer} {m : Machine} (sound : Sound b a m) (number : Word)
  (args : List Word)
include sound

theorem inner_keeps :
    a.Keeps (((Wrapper.place args (b.frame.enter m.cpu)).push b.site).regs .rsp + 8) 16 := by
  intro mem x below
  rw [inner_rsp] at below
  exact sound.keeps mem x (below.mono (by unfold stackRoom; omega))

theorem call_gensys :
    Machine.call b.site (gensys number a)
      { m with cpu := Wrapper.place args (b.frame.enter m.cpu) } =
        .fell (afterStub b a number args m) := by
  have top : ((Wrapper.place args (b.frame.enter m.cpu)).push b.site).top = b.site := by
    rw [State.top, State.push_regs, Function.update_self, State.push_mem, load_store_same]
  have stub := gensys_spec number a
    { m with cpu := (Wrapper.place args (b.frame.enter m.cpu)).push b.site }
    (inner_keeps sound args)
  rw [top] at stub
  exact Machine.call_of_left stub

/-- The base of the frame when the stub has returned. -/
theorem afterStub_base (v : Word) {k : Nat} (hk : k < 16) :
    store (afterStub b a number args m).cpu.mem b.errno v (byteAddr (m.cpu.regs .rsp - 8) k) =
      (b.frame.enter m.cpu).mem (byteAddr (m.cpu.regs .rsp - 8) k) := by
  have room := sound.room
  unfold stackRoom at room
  have start : (Wrapper.place args (b.frame.enter m.cpu)).regs .rsp =
      m.cpu.regs .rsp - BitVec.ofNat 64 (8 + b.frame.size) := by
    rw [place_other (by decide), Frame.enter_rsp]
    exact sub_ofNat_sub ..
  have first : (Wrapper.place args (b.frame.enter m.cpu)).regs .rsp - 8 =
      m.cpu.regs .rsp - BitVec.ofNat 64 (8 + b.frame.size + 8) := by
    rw [start]
    exact sub_ofNat_sub ..
  have second : ((Wrapper.place args (b.frame.enter m.cpu)).push b.site).regs .rsp - 8 =
      m.cpu.regs .rsp - BitVec.ofNat 64 (8 + b.frame.size + 8 + 8) := by
    rw [State.push_regs, Function.update_self, first]
    exact sub_ofNat_sub ..
  rw [afterStub, stubbed, sound.base_kept _ _ hk, second,
    store_under (by omega) (by omega) hk, State.push_mem, first,
    store_under (by omega) (by omega) hk, place_mem]

end

theorem afterStub_rbp (b : Build) (a : Answer) (m : Machine) (number : Word) (args : List Word) :
    (afterStub b a number args m).cpu.regs .rbp = m.cpu.regs .rsp - 8 := by
  show (Wrapper.place args (b.frame.enter m.cpu)).regs .rbp = _
  rw [place_other (by decide), Frame.enter_rbp]

/-- The other callee-saved registers are not used. -/
theorem afterStub_saved (b : Build) (a : Answer) (m : Machine) (number : Word) (args : List Word)
    {r : Reg} (saved : r ∈ calleeSaved) (stack : r ≠ .rsp) (base : r ≠ .rbp) :
    (afterStub b a number args m).cpu.regs r = m.cpu.regs r := by
  have kept : ∀ r ∈ calleeSaved, r ≠ .rsp →
      (afterStub b a number args m).cpu.regs r =
        (Wrapper.place args (b.frame.enter m.cpu)).regs r := by
    intro r saved stack
    simp only [calleeSaved, List.mem_cons, List.not_mem_nil, or_false] at saved
    obtain rfl | rfl | rfl | rfl | rfl | rfl | rfl := saved <;>
      first | rfl | exact absurd rfl stack
  have outside : ∀ r ∈ calleeSaved, r ∉ argRegs := by decide
  rw [kept r saved stack, place_other (outside r saved), Frame.enter_regs _ _ base stack]

section

variable (b : Build) (w : Wrapper) (s : X86.State)

theorem conclude_regs {r : Reg} (h : r ≠ .rax) : (w.conclude b s).regs r = s.regs r := by
  unfold Wrapper.conclude
  simp only
  split <;> simp [h]

theorem conclude_failed (h : (s.regs .rax).slt 0 = true) :
    load (w.conclude b s).mem b.errno = -s.regs .rax ∧
      (w.conclude b s).regs .rax = w.result.pass (b.upper .rax) w.failure := by
  unfold Wrapper.conclude
  simp only [h, if_true]
  simp

theorem conclude_succeeded (h : (s.regs .rax).slt 0 = false) :
    load (w.conclude b s).mem b.errno = 0 ∧
      (w.conclude b s).regs .rax = w.result.pass (b.upper .rax) (s.regs .rax) := by
  unfold Wrapper.conclude
  simp only [h, Bool.false_eq_true, if_false]
  simp

/-- The macro writes `errno` only, however often. -/
theorem conclude_mem {x : Addr} (apart : 8 ≤ (x - b.errno).toNat) :
    (w.conclude b s).mem x = store s.mem b.errno 0 x := by
  unfold Wrapper.conclude
  simp only
  split
  · rw [State.setReg_mem, State.setMem_mem, State.setMem_mem, store_outside apart]
  · rfl

end

/-- What a wrapper that makes call `number` has done when it returns. -/
structure Wrapped (f : Fn) (b : Build) (a : Answer) (number : Word) (m m' : Machine) : Prop where
  stack : m'.cpu.regs .rsp = m.cpu.regs .rsp + 8
  saved : ∀ r ∈ calleeSaved, r ≠ .rsp → m'.cpu.regs r = m.cpu.regs r
  request : ∃ args, m'.calls = m.calls ++ [⟨number, args⟩] ∧ f.interface.Passed m.cpu args
  failed : a.ret.slt 0 = true → load m'.cpu.mem b.errno = -a.ret ∧
    f.interface.result.value (m'.cpu.regs .rax) = f.interface.result.value f.interface.failure
  succeeded : a.ret.slt 0 = false → load m'.cpu.mem b.errno = 0 ∧
    f.interface.result.value (m'.cpu.regs .rax) = f.interface.result.value a.ret

theorem passed_of_wrapper {f : Fn} {w : Wrapper} (h : f.wrapper = some w) (b : Build)
    (s t : X86.State) :
    f.interface.Passed s (argRegs.map (Wrapper.place (w.arguments b s) t).regs) := by
  obtain ⟨rest, placed⟩ := setRegs_prefix argRegs (w.arguments b s) t (by decide)
    (arguments_length h b s)
  have interface : f.interface = ⟨w.params, w.consts, w.failure, w.result⟩ := by
    rw [Fn.interface, h]
  have fits : w.params.length ≤ argRegs.length :=
    Nat.le_trans (Nat.le_add_right _ _) (wrapper_fits h)
  rw [interface]
  refine ⟨_, rest, placed, ?_, zipWith_value_pass b.upper s w.params argRegs⟩
  rw [List.length_zipWith]
  exact Nat.min_eq_left fits

theorem body_spec {b : Build} {a : Answer} {m : Machine} (sound : Sound b a m) (number : Word)
    {f : Fn} {w : Wrapper} (h : f.wrapper = some w) :
    ∃ m', w.body b (gensys number a) m = .left m.cpu.top m' ∧ Wrapped f b a number m m' := by
  have interface : f.interface = ⟨w.params, w.consts, w.failure, w.result⟩ := by
    rw [Fn.interface, h]
  obtain ⟨t, ht⟩ : ∃ t, t = afterStub b a number (w.arguments b m.cpu) m := ⟨_, rfl⟩
  have body : w.body b (gensys number a) m =
      ({ t with cpu := w.conclude b t.cpu } : Machine).asm Frame.epilogue := by
    rw [Wrapper.body, call_gensys sound, ht]
    rfl
  have base : (w.conclude b t.cpu).regs .rbp = m.cpu.regs .rsp - 8 := by
    rw [conclude_regs _ _ _ (by decide), ht, afterStub_rbp]
  have word : ∀ k < 16, (w.conclude b t.cpu).mem (byteAddr (m.cpu.regs .rsp - 8) k) =
      (b.frame.enter m.cpu).mem (byteAddr (m.cpu.regs .rsp - 8) k) := by
    intro k hk
    rw [conclude_mem _ _ _ (sound.clear.outside (base_below b _ hk)), ht,
      afterStub_base sound _ _ _ hk]
  have room := sound.room
  unfold stackRoom at room
  have savedBase : load (w.conclude b t.cpu).mem (m.cpu.regs .rsp - 8) = m.cpu.regs .rbp := by
    rw [← b.frame.load_enter m.cpu (by omega)]
    exact load_congr fun k hk => word k (by omega)
  have top : load (w.conclude b t.cpu).mem (m.cpu.regs .rsp) = m.cpu.top := by
    rw [← b.frame.load_enter_top m.cpu (by omega)]
    apply load_congr
    intro k hk
    have hk' : byteAddr (m.cpu.regs .rsp) k = byteAddr (m.cpu.regs .rsp - 8) (8 + k) := by
      simp only [byteAddr]
      bv_omega
    rw [hk']
    exact word _ (by omega)
  have rax : t.cpu.regs .rax = a.ret := by
    rw [ht]
    rfl
  refine ⟨⟨Frame.returned (w.conclude b t.cpu), t.calls⟩, ?_, ?_, ?_, ?_, ?_, ?_⟩
  · rw [body, Machine.asm, Frame.exec_epilogue, base, BitVec.sub_add_cancel, top]
    rfl
  · rw [Frame.returned_rsp, base]
    bv_omega
  · intro r saved stack
    by_cases hr : r = .rbp
    · rw [hr, Frame.returned_rbp, base, savedBase]
    · have other : r ≠ .rax := by
        rintro rfl
        exact absurd saved (by decide)
      rw [Frame.returned_regs _ hr stack, conclude_regs _ _ _ other, ht,
        afterStub_saved _ _ _ _ _ saved stack hr]
  · refine ⟨_, ?_, passed_of_wrapper h b m.cpu (b.frame.enter m.cpu)⟩
    rw [ht]
    rfl
  · intro neg
    obtain ⟨errno, value⟩ := conclude_failed b w t.cpu (by rw [rax]; exact neg)
    rw [rax] at errno
    refine ⟨errno, ?_⟩
    rw [Frame.returned_regs _ (by decide) (by decide), value, interface, CType.value_pass]
  · intro pos
    obtain ⟨errno, value⟩ := conclude_succeeded b w t.cpu (by rw [rax]; exact pos)
    refine ⟨errno, ?_⟩
    rw [Frame.returned_regs _ (by decide) (by decide), value, interface, CType.value_pass, rax]

/-- The machine when `sys_open` has returned to `open`. -/
def afterOpen (b : Build) (a : Answer) (m : Machine) : Machine :=
  stubbed Sys.open.number a { m with cpu := m.cpu.push b.site }

theorem call_open {b : Build} {a : Answer} {m : Machine} (sound : Sound b a m) :
    Machine.call b.site (Sys.stub .open a) m = .fell (afterOpen b a m) := by
  have keeps : a.Keeps ((m.cpu.push b.site).regs .rsp + 8) 16 := by
    intro mem x below
    rw [State.push_regs, Function.update_self, BitVec.sub_add_cancel,
      ← BitVec.add_sub_cancel (m.cpu.regs .rsp) 8] at below
    exact sound.keeps mem x (Below.mono (d := 8) below (by unfold stackRoom; omega))
  have top : (m.cpu.push b.site).top = b.site := by
    rw [State.top, State.push_regs, Function.update_self, State.push_mem, load_store_same]
  have stub := gensys_spec Sys.open.number a { m with cpu := m.cpu.push b.site } keeps
  rw [top] at stub
  exact Machine.call_of_left stub

theorem afterOpen_top {b : Build} {a : Answer} {m : Machine} (sound : Sound b a m) (v : Word) :
    load (store (afterOpen b a m).cpu.mem b.errno v) (m.cpu.regs .rsp) = m.cpu.top := by
  rw [State.top]
  apply load_congr
  intro k hk
  have hk' : byteAddr (m.cpu.regs .rsp) k = byteAddr (m.cpu.regs .rsp - 8) (8 + k) := by
    simp only [byteAddr]
    bv_omega
  rw [hk', afterOpen, stubbed, sound.base_kept _ _ (by omega), ← hk', State.push_mem,
    State.push_regs, Function.update_self]
  rw [store_outside, store_outside]
  · simp only [byteAddr]
    bv_omega
  · simp only [byteAddr]
    bv_omega

/-- `open` at its return instruction, after an error and after success. -/
def openFailed (errno : Addr) (s : X86.State) : X86.State :=
  [.cmp 0 .rax, .neg .rax, .movImm errno .rdi, .store .rax 0 .rdi, .movImm (-1) .rax].foldl step s

def openDone (errno : Addr) (s : X86.State) : X86.State :=
  [.cmp 0 .rax, .movImm errno .rdi, .storeImm 0 0 .rdi].foldl step s

theorem exec_openTail (errno : Addr) (s : X86.State) :
    exec none (openTail errno) s =
      if (s.regs .rax).slt 0 then .left (openFailed errno s).top (openFailed errno s).drop
      else .left (openDone errno s).top (openDone errno s).drop := rfl

theorem openFailed_mem (errno : Addr) (s : X86.State) :
    (openFailed errno s).mem = store s.mem errno (-s.regs .rax) := by
  simp [openFailed, step]

theorem openDone_mem (errno : Addr) (s : X86.State) :
    (openDone errno s).mem = store s.mem errno 0 := by
  simp [openDone, step]

theorem openFailed_regs (errno : Addr) (s : X86.State) {r : Reg} (ax : r ≠ .rax) (di : r ≠ .rdi) :
    (openFailed errno s).regs r = s.regs r := by
  simp [openFailed, step, ax, di]

theorem openDone_regs (errno : Addr) (s : X86.State) {r : Reg} (di : r ≠ .rdi) :
    (openDone errno s).regs r = s.regs r := by
  simp [openDone, step, di]

theorem open_spec {b : Build} {a : Answer} {m : Machine} (sound : Sound b a m) :
    ∃ m', openAsm b a m = .left m.cpu.top m' ∧ Wrapped .open b a Sys.open.number m m' := by
  obtain ⟨t, ht⟩ : ∃ t, t = afterOpen b a m := ⟨_, rfl⟩
  have start : openAsm b a m = t.asm (openTail b.errno) := by
    rw [openAsm, call_open sound, ht]
    rfl
  have rsp : t.cpu.regs .rsp = m.cpu.regs .rsp := by
    rw [ht]
    show (m.cpu.push b.site).regs .rsp + 8 = _
    rw [State.push_regs, Function.update_self, BitVec.sub_add_cancel]
  have rax : t.cpu.regs .rax = a.ret := by
    rw [ht]
    rfl
  have calls : ∃ args, t.calls = m.calls ++ [⟨Sys.open.number, args⟩] ∧
      Fn.open.interface.Passed m.cpu args := by
    rw [ht]
    exact ⟨_, rfl, [m.cpu.regs .rdi, m.cpu.regs .rsi, m.cpu.regs .rdx],
      [m.cpu.regs .rcx, m.cpu.regs .r8, m.cpu.regs .r9], rfl, rfl, rfl⟩
  have kept : ∀ r ∈ calleeSaved, r ≠ .rsp → t.cpu.regs r = m.cpu.regs r := by
    intro r saved hsp
    rw [ht]
    simp only [calleeSaved, List.mem_cons, List.not_mem_nil, or_false] at saved
    obtain rfl | rfl | rfl | rfl | rfl | rfl | rfl := saved <;>
      first | rfl | exact absurd rfl hsp
  have outside : ∀ r ∈ calleeSaved, r ≠ .rax ∧ r ≠ .rdi := by decide
  have back := fun v => ht ▸ afterOpen_top sound v
  rw [start, Machine.asm, exec_openTail, rax]
  cases sign : a.ret.slt 0 with
  | true =>
      have top : (openFailed b.errno t.cpu).top = m.cpu.top := by
        rw [State.top, openFailed_mem, openFailed_regs _ _ (by decide) (by decide), rsp, back]
      rw [if_pos rfl, top]
      refine ⟨_, rfl, ?_, ?_, calls, ?_, fun no => absurd (no.symm.trans sign) (by decide)⟩
      · rw [State.drop_regs, Function.update_self, openFailed_regs _ _ (by decide) (by decide), rsp]
      · intro r saved hsp
        rw [State.drop_regs, Function.update_of_ne hsp,
          openFailed_regs _ _ (outside r saved).1 (outside r saved).2, kept r saved hsp]
      · intro _
        rw [State.drop_mem, openFailed_mem, load_store_same, rax]
        exact ⟨rfl, rfl⟩
  | false =>
      have top : (openDone b.errno t.cpu).top = m.cpu.top := by
        rw [State.top, openDone_mem, openDone_regs _ _ (by decide), rsp, back]
      rw [if_neg Bool.false_ne_true, top]
      refine ⟨_, rfl, ?_, ?_, calls, fun no => absurd (no.symm.trans sign) (by decide), ?_⟩
      · rw [State.drop_regs, Function.update_self, openDone_regs _ _ (by decide), rsp]
      · intro r saved hsp
        rw [State.drop_regs, Function.update_of_ne hsp, openDone_regs _ _ (outside r saved).2,
          kept r saved hsp]
      · intro _
        rw [State.drop_mem, openDone_mem, load_store_same, State.drop_regs,
          Function.update_of_ne (by decide), openDone_regs _ _ (by decide), rax]
        exact ⟨rfl, rfl⟩

/-- A wrapper that never gets to a stub runs out of any fuel. -/
theorem nanosleep_diverges (b : Build) (a : Answer) (fuel : Nat) (m : Machine) :
    Fn.run b a fuel .nanosleep m = none := by
  induction fuel generalizing m with
  | zero => rfl
  | succ fuel ih =>
      simp only [Fn.run, Fn.wrapper, Wrapper.nanosleep, ih, Option.map_none]

theorem run_of_sys {f : Fn} {w : Wrapper} {s : Sys} (h : f.wrapper = some w)
    (target : w.target = .sys s) (b : Build) (a : Answer) (fuel : Nat) (m : Machine) :
    Fn.run b a (fuel + 1) f m = some (w.body b (s.stub a) m) := by
  simp only [Fn.run, h, target]

/-- Each wrapper but one calls a stub, and each stub but one has the number that
the wrapper is named after. -/
theorem stub_number {f : Fn} {w : Wrapper} (h : f.wrapper = some w) (sleep : f ≠ .nanosleep) :
    ∃ s, w.target = .sys s ∧ (s.number = f.kernelNumber ↔ f ≠ .unlink) := by
  cases f <;> cases h <;>
    first | exact absurd rfl sleep | exact ⟨_, rfl, by decide⟩

/-- A wrapper obeys the law exactly when its call is the right one and the result
is none of those below the errors. -/
theorem Wrapped.law_iff {f : Fn} {b : Build} {a : Answer} {number : Word} {m m' : Machine}
    (h : Wrapped f b a number m m') :
    Law f b a m m.cpu.top m' ↔ number = f.kernelNumber ∧ -4095 ≤ a.ret.toInt := by
  have sign : a.ret.slt 0 = true ↔ a.ret.toInt ≤ -1 := by
    rw [BitVec.slt_iff_toInt_lt]
    show a.ret.toInt < 0 ↔ _
    omega
  obtain ⟨args, calls, passed⟩ := h.request
  constructor
  · intro law
    constructor
    · obtain ⟨q, hq, number, -⟩ := law.request
      rw [calls] at hq
      rw [← number, ← List.singleton_injective (List.append_cancel_left hq)]
    · by_contra below
      have negative : a.ret.slt 0 = true := sign.mpr (by omega)
      have zero := (law.succeeded fun e => below e.1).1
      rw [(h.failed negative).1] at zero
      have none : a.ret = 0 := by rw [← neg_neg a.ret, zero]; rfl
      rw [none] at negative
      cases negative
  · rintro ⟨rfl, errors⟩
    have isError : IsError a.ret ↔ a.ret.slt 0 = true := by
      rw [sign]
      exact and_iff_right errors
    refine ⟨rfl, h.stack, h.saved, ⟨_, calls, rfl, passed⟩, fun e => h.failed (isError.mp e), ?_⟩
    intro ok
    exact h.succeeded (Bool.eq_false_iff.mpr fun e => ok (isError.mpr e))

/-- Every wrapper, for every argument and every answer of the kernel: it returns
having obeyed the law exactly when it is neither `nanosleep`, which calls itself,
nor `unlink`, whose stub has another number, and the result is at least -4095. -/
theorem wrapper_law_iff {b : Build} {a : Answer} {m : Machine} (sound : Sound b a m) (f : Fn) :
    (∃ fuel target m', Fn.run b a fuel f m = some (.left target m') ∧ Law f b a m target m') ↔
      f ≠ .nanosleep ∧ f ≠ .unlink ∧ -4095 ≤ a.ret.toInt := by
  by_cases sleep : f = .nanosleep
  · rw [sleep]
    refine iff_of_false ?_ fun h => h.1 rfl
    rintro ⟨fuel, target, m', run, -⟩
    rw [nanosleep_diverges] at run
    cases run
  · -- the one outcome that every run of the wrapper has, and its call
    obtain ⟨number, m', runs, wrapped, right⟩ : ∃ number m',
        (∀ fuel, Fn.run b a (fuel + 1) f m = some (.left m.cpu.top m')) ∧
          Wrapped f b a number m m' ∧ (number = f.kernelNumber ↔ f ≠ .unlink) := by
      cases hw : f.wrapper with
      | none =>
          have hf : f = .open := by cases f <;> first | rfl | cases hw
          obtain ⟨m', returns, wrapped⟩ := open_spec sound
          rw [hf]
          exact ⟨_, m', fun fuel => congrArg some returns, wrapped, by decide⟩
      | some w =>
          obtain ⟨s, target, number⟩ := stub_number hw sleep
          obtain ⟨m', returns, wrapped⟩ := body_spec sound s.number hw
          exact ⟨_, m', fun fuel => (run_of_sys hw target b a fuel m).trans (congrArg some returns),
            wrapped, number⟩
    have law := wrapped.law_iff
    rw [right] at law
    rw [and_iff_right sleep, ← law]
    constructor
    · rintro ⟨fuel, target, m'', run, h⟩
      cases fuel with
      | zero => cases run
      | succ fuel =>
          rw [runs] at run
          cases run
          exact h
    · intro h
      exact ⟨1, _, _, runs 0, h⟩

namespace Demo

/-- A kernel that answers every call with one result and writes nothing. -/
def answering (ret : Word) : Answer := ⟨ret, 0, 0, id⟩

def build : Build := ⟨⟨16, fun _ => 0, ⟨fun _ => 0, false, false, 64, fun _ => 0⟩⟩, 0x401000,
  fun _ => 0, 0x404020⟩

/-- A process about to execute the first instruction of a wrapper. -/
def entering : Machine where
  cpu :=
    { regs := fun r => if r = .rsp then 0x7ffe1000 else 0
      zf := false
      lt := false
      mem := fun _ => 0 }
  calls := []

theorem sound (ret : Word) : Sound build (answering ret) entering where
  keeps _ _ _ := rfl
  clear := by
    show Clear (0x7ffe1000 + 8) (32 + 16) 0x404020 8
    decide

/-- `read` reports a bad descriptor. -/
theorem read_law : ∃ fuel target m',
    Fn.run build (answering (-9)) fuel .read entering = some (.left target m') ∧
      Law .read build (answering (-9)) entering target m' :=
  (wrapper_law_iff (sound (-9)) .read).mpr ⟨by decide, by decide, by decide⟩

/-- `nanosleep` never returns, whatever the kernel would answer. -/
theorem nanosleep_lawless : ¬ ∃ fuel target m',
    Fn.run build (answering 0) fuel .nanosleep entering = some (.left target m') ∧
      Law .nanosleep build (answering 0) entering target m' := by
  rintro ⟨fuel, target, m', run, -⟩
  rw [nanosleep_diverges] at run
  cases run

end Demo

end Libmini
