import AdvancedUnix.Libmini.Longjmp
import AdvancedUnix.Runs.Basic

/-!
# Returning twice

`setjmp` returns once normally and once more for each `longjmp` on its buffer.
Between the two the process may do anything that leaves the buffer alone. The
second return is in the context of the first, but its value is the one asked
for only if the test of `longjmp`, made on the whole of `rsi`, agrees with the
32-bit argument; and the blocked signals are those of the first return only if
none has been added in between, since the saved set is blocked and not set.
-/

namespace Libmini

open Memory X86 Runs

/-- The `int` that a function returns. -/
def intResult (s : X86.State) : BitVec 32 := (s.regs .rax).setWidth 32

/-- The `int` argument in `rsi`, whose upper half is unspecified. -/
def intArgument (s : X86.State) : BitVec 32 := (s.regs .rsi).setWidth 32

/-- The bytes of a buffer are the same in two states. -/
def Kept (env : Addr) (r q : Process) : Prop :=
  ∀ i < jmpBufSize, q.cpu.mem (byteAddr env i) = r.cpu.mem (byteAddr env i)

/-- A jump comes back to where the call of `setjmp` returned, in the same
context, and with the value that `val` asks for. -/
def Resumes (val : BitVec 32) : Exit Process → Exit Process → Prop
  | .left back r, .left target r' =>
      Context.of target r'.cpu = Context.of back r.cpu ∧
        intResult r'.cpu = if val = 0 then 1 else val
  | _, _ => False

theorem jumpValue_eq_iff (v : Word) :
    (jumpValue v).setWidth 32 = (if v.setWidth 32 = (0 : BitVec 32) then 1 else v.setWidth 32) ↔
      v.setWidth 32 ≠ (0 : BitVec 32) ∨ v >>> 32 = 0 := by
  have parts : v = 0 ↔ v.setWidth 32 = (0 : BitVec 32) ∧ v >>> 32 = 0 := by
    constructor
    · rintro rfl
      exact ⟨rfl, rfl⟩
    · rintro ⟨low, high⟩
      have hl := congrArg BitVec.toNat low
      have hh := congrArg BitVec.toNat high
      apply BitVec.eq_of_toNat_eq
      simp only [BitVec.ofNat_eq_ofNat, BitVec.toNat_setWidth, BitVec.toNat_ushiftRight,
        BitVec.toNat_ofNat, Nat.shiftRight_eq_div_pow] at hl hh ⊢
      omega
  unfold jumpValue
  by_cases low : v.setWidth 32 = (0 : BitVec 32)
  · by_cases high : v >>> 32 = 0
    · rw [if_pos (parts.mpr ⟨low, high⟩), if_pos low]
      simp [high]
    · rw [if_neg (fun h => high (parts.mp h).2), if_pos low]
      simp only [low, ne_eq, not_true_eq_false, high, or_self, iff_false]
      decide
  · rw [if_neg (fun h => low (parts.mp h).1), if_neg low]
    exact iff_of_true rfl (Or.inl low)

/-- A buffer that is kept hands back what `setjmp` put into it. -/
theorem Restored.of_saved {p r q r' : Process} {target : Addr} (saved : Saved p r)
    (restored : Restored q target r') (env : q.cpu.regs .rdi = p.cpu.regs .rdi)
    (kept : Kept (p.cpu.regs .rdi) r q) :
    Context.of target r'.cpu = Context.of p.cpu.top r.cpu := by
  rw [restored.context, env, saved.context, ← saved.buffer]
  exact Context.saved_congr fun i hi => kept i (Nat.lt_of_lt_of_le hi (by decide))

/-- Every later jump through the buffer comes back in the context of the first
return, and with the right value exactly when the argument is not zero or the
register that holds it has nothing in its upper half. -/
theorem longjmp_resumes_iff (f : Frame) (p : Process) (clear : SetjmpClear f p.cpu) :
    ∃ r, setjmp f p = .left p.cpu.top r ∧
      ∀ (g : Frame) (q : Process), q.cpu.regs .rdi = p.cpu.regs .rdi →
        LongjmpClear g q.cpu → Kept (p.cpu.regs .rdi) r q →
        (Resumes (intArgument q.cpu) (setjmp f p) (longjmp g q) ↔
          intArgument q.cpu ≠ 0 ∨ q.cpu.regs .rsi >>> 32 = 0) := by
  obtain ⟨r, hback, saved⟩ := setjmp_spec f p clear
  refine ⟨r, hback, ?_⟩
  intro g q env clear' kept
  obtain ⟨target, r', hjump, restored⟩ := longjmp_spec g q clear'
  have context := restored.of_saved saved env kept
  rw [hback, hjump, intArgument, ← jumpValue_eq_iff, Resumes, intResult, restored.value]
  exact and_iff_right context

namespace Demo

/-- A frame of sixteen bytes, and calls that use sixty-four. -/
def frame : Frame := ⟨16, fun _ => 0, ⟨fun _ => 0, false, false, 64, fun _ => 0⟩⟩

/-- A machine that calls with a static buffer, a second argument and a memory. -/
def calling (rsi : Word) (mem : Bytes) : X86.State where
  regs
    | .rdi => 0x404060
    | .rsi => rsi
    | .rsp => 0x7ffe0ff8
    | _ => 0
  zf := false
  lt := false
  mem

def atSetjmp (blocked : Blocked) : Process := ⟨calling 0 fun _ => 0, blocked, 0⟩

theorem clear_setjmp (blocked : Blocked) : SetjmpClear frame (atSetjmp blocked).cpu := by
  show Clear 0x7ffe1000 (16 + 16 + 64) 0x404060 72
  decide

theorem clear_longjmp (rsi : Word) (mem : Bytes) : LongjmpClear frame (calling rsi mem) := by
  show Clear 0x7ffe0ff8 (24 + 16 + 64) 0x404060 72
  decide

def nothing : Blocked := ⟨0, by decide⟩

/-- A jump with the value seven returns seven. -/
theorem seven_resumes :
    ∃ r, setjmp frame (atSetjmp nothing) = .left 0 r ∧
      Resumes 7 (setjmp frame (atSetjmp nothing))
        (longjmp frame { r with cpu := calling 7 r.cpu.mem }) := by
  obtain ⟨r, back, resumes⟩ :=
    longjmp_resumes_iff frame (atSetjmp nothing) (clear_setjmp nothing)
  refine ⟨r, back, ?_⟩
  have jump := resumes frame { r with cpu := calling 7 r.cpu.mem } rfl (clear_longjmp _ _)
    fun _ _ => rfl
  have nonzero : (7 : Word).setWidth 32 ≠ (0 : BitVec 32) := by decide
  exact jump.mpr (Or.inl nonzero)

/-- A jump with the value zero, in a register whose upper half is not, returns
zero. -/
theorem upper_half_not_resumes :
    ∃ r, setjmp frame (atSetjmp nothing) = .left 0 r ∧
      LongjmpClear frame (calling 0x100000000 r.cpu.mem) ∧
      intArgument (calling 0x100000000 r.cpu.mem) = 0 ∧
      ¬ Resumes 0 (setjmp frame (atSetjmp nothing))
        (longjmp frame { r with cpu := calling 0x100000000 r.cpu.mem }) := by
  obtain ⟨r, back, -⟩ := setjmp_spec frame (atSetjmp nothing) (clear_setjmp nothing)
  have zero : (0x100000000 : Word).setWidth 32 = (0 : BitVec 32) := by decide
  refine ⟨r, back, clear_longjmp _ _, zero, ?_⟩
  obtain ⟨target, r', jump, restored⟩ := longjmp_spec frame
    { r with cpu := calling 0x100000000 r.cpu.mem } (clear_longjmp _ _)
  rw [back, jump]
  rintro ⟨-, value⟩
  rw [intResult, restored.value] at value
  have one : (jumpValue 0x100000000).setWidth 32 = (1 : BitVec 32) := value
  exact absurd one (by decide)

end Demo

/-- What a process does between the two returns: a call of `sigprocmask`, or
code that leaves any registers and any memory behind. -/
inductive Event
  | code (cpu : X86.State)
  | sigprocmask (how : BitVec 32) (set oset : Addr)

def Process.after (p : Process) : Event → Process
  | .code cpu => { p with cpu }
  | .sigprocmask how set oset => (Libmini.sigprocmask how set oset p).2

/-- Whatever calls of `sigprocmask` are made in between, a jump brings back the
blocked signals of `setjmp` exactly when no others are blocked when it is made. -/
theorem longjmp_blocked_iff (f : Frame) (p : Process) (clear : SetjmpClear f p.cpu)
    (object : envMask (p.cpu.regs .rdi) ≠ 0) :
    ∃ r, setjmp f p = .left p.cpu.top r ∧ r.blocked = p.blocked ∧
      ∀ (history : List Event) (g : Frame) (q : Process), q = run Process.after r history →
        q.cpu.regs .rdi = p.cpu.regs .rdi → LongjmpClear g q.cpu → Kept (p.cpu.regs .rdi) r q →
        ∃ target r', longjmp g q = .left target r' ∧
          (r'.blocked = p.blocked ↔ q.blocked.signals ⊆ p.blocked.signals) := by
  obtain ⟨r, hback, saved⟩ := setjmp_spec f p clear
  refine ⟨r, hback, saved.blocked, ?_⟩
  intro history g q _ env clear' kept
  obtain ⟨target, r', hjump, restored⟩ := longjmp_spec g q clear'
  refine ⟨target, r', hjump, ?_⟩
  have mask : load q.cpu.mem (envMask (p.cpu.regs .rdi)) = p.blocked.set := by
    rw [← saved.mask object]
    apply load_congr
    intro k hk
    rw [envMask, byteAddr_byteAddr]
    exact kept _ (by unfold jmpBufSize; omega)
  rw [restored.blocked (env ▸ object), env, mask, Blocked.ofSet_set, Blocked.union_eq_right_iff]

namespace Demo

/-- A call of `sigprocmask` with a set that has just been put at an address
outside the buffer. -/
def maskCall (how : BitVec 32) (set : Word) (r : Process) : List Event :=
  [.code (calling 1 (store r.cpu.mem 0x404100 set)), .sigprocmask how 0x404100 0]

theorem maskCall_kept (set : Word) (r : Process) {blocked : Blocked} {errno : Word} :
    Kept 0x404060 r ⟨calling 1 (store r.cpu.mem 0x404100 set), blocked, errno⟩ := by
  intro i hi
  apply store_outside
  unfold jmpBufSize at hi
  simp only [byteAddr]
  bv_omega

theorem run_maskCall (how : BitVec 32) (set : Word) {r : Process} {b : Blocked}
    (after : maskAfter how r.blocked (.ofSet set) = some b) :
    run Process.after r (maskCall how set r) =
      ⟨calling 1 (store r.cpu.mem 0x404100 set), b, 0⟩ := by
  have next : nextMask how 0x404100
      { r with cpu := calling 1 (store r.cpu.mem 0x404100 set) } = some b := by
    have value : load (calling 1 (store r.cpu.mem 0x404100 set)).mem 0x404100 = set :=
      load_store_same ..
    rw [nextMask, if_neg (by decide), value, after]
  simp only [maskCall, run_cons, run_nil, Process.after, sigprocmask_of_nextMask next]
  rfl

/-- `SIGALRM`, blocked when `setjmp` was called and unblocked since, is blocked
again. -/
theorem unblocked_restored :
    ∃ r, setjmp frame (atSetjmp ⟨0x2000, by decide⟩) = .left 0 r ∧
      ∃ target r', longjmp frame (run Process.after r (maskCall sigUnblock 0x2000 r)) =
        .left target r' ∧ r'.blocked = ⟨0x2000, by decide⟩ := by
  obtain ⟨r, back, same, restores⟩ :=
    longjmp_blocked_iff frame (atSetjmp ⟨0x2000, by decide⟩) (clear_setjmp _) (by decide)
  refine ⟨r, back, ?_⟩
  have ran := run_maskCall sigUnblock 0x2000 (r := r) rfl
  obtain ⟨target, r', jump, iff⟩ :=
    restores (maskCall sigUnblock 0x2000 r) frame _ ran.symm rfl (clear_longjmp _ _)
      (maskCall_kept _ r)
  rw [ran]
  refine ⟨target, r', jump, iff.mpr ?_⟩
  rw [← same, Blocked.signals_diff]
  exact Set.sdiff_subset

/-- `SIGINT`, blocked only after `setjmp`, stays blocked. -/
theorem blocked_not_restored :
    ∃ r, setjmp frame (atSetjmp nothing) = .left 0 r ∧
      ∃ q, q = run Process.after r (maskCall sigBlock 2 r) ∧ LongjmpClear frame q.cpu ∧
        Kept 0x404060 r q ∧
        ∃ target r', longjmp frame q = .left target r' ∧ r'.blocked ≠ nothing := by
  obtain ⟨r, back, saved⟩ := setjmp_spec frame (atSetjmp nothing) (clear_setjmp nothing)
  refine ⟨r, back, _, rfl, ?_⟩
  rw [run_maskCall sigBlock 2 (r := r) rfl]
  refine ⟨clear_longjmp _ _, maskCall_kept _ r, ?_⟩
  obtain ⟨target, r', jump, restored⟩ := longjmp_spec frame
    ⟨calling 1 (store r.cpu.mem 0x404100 2), r.blocked.union (.ofSet 2), 0⟩ (clear_longjmp _ _)
  refine ⟨target, r', jump, ?_⟩
  have object : envMask 0x404060 ≠ 0 := by decide
  rw [restored.blocked object, saved.blocked]
  intro same
  have added : 2 ∈ (Blocked.ofSet 2).signals := by
    show 0 < 2 ∧ (2 &&& ~~~ unblockable : Word).getLsbD 1 = true
    decide
  have still : 2 ∈ nothing.signals := by
    rw [← same, Blocked.signals_union, Blocked.signals_union]
    exact Or.inl (Or.inr added)
  exact absurd still.2 (by decide)

end Demo

end Libmini
