import Mathlib.Data.Set.Basic
import AdvancedUnix.X86.Call

/-!
# The blocked signals of a process

A signal set is a word: signal `n` is bit `n - 1`. The kernel keeps one such
word for a process, the set of blocked signals, and never lets `SIGKILL` and
`SIGSTOP` into it; `Blocked` carries this as a field.

`sigprocmask` is the library's wrapper over the system call, which takes its
two sets by address. A null address stands for no set: without a new set the
call only queries.
-/

namespace Libmini

open Memory X86

/-- The signals of a set word. -/
def signals (set : Word) : Set Nat := {n | 0 < n ∧ set.getLsbD (n - 1) = true}

/-- The set word of one signal. -/
def sigmask (n : Nat) : Word := 1#64 <<< (n - 1)

def sigkill : Nat := 9
def sigstop : Nat := 19

/-- The signals that no set can block. -/
def unblockable : Word := sigmask sigkill ||| sigmask sigstop

theorem signals_injective {v w : Word} (h : signals v = signals w) : v = w := by
  apply BitVec.eq_of_getLsbD_eq
  intro i _
  have hv : i + 1 ∈ signals v ↔ v.getLsbD i = true := and_iff_right (Nat.succ_pos i)
  have hw : i + 1 ∈ signals w ↔ w.getLsbD i = true := and_iff_right (Nat.succ_pos i)
  rw [Bool.eq_iff_iff, ← hv, ← hw, h]

theorem signals_or (v w : Word) : signals (v ||| w) = signals v ∪ signals w := by
  ext n
  simp only [signals, Set.mem_union, Set.mem_ofPred_eq, BitVec.getLsbD_or, Bool.or_eq_true]
  exact and_or_left

theorem signals_and_not (v w : Word) : signals (v &&& ~~~ w) = signals v \ signals w := by
  ext n
  simp only [signals, Set.mem_sdiff, Set.mem_ofPred_eq, BitVec.getLsbD_and, BitVec.getLsbD_not,
    Bool.and_eq_true, Bool.not_eq_true', decide_eq_true_eq]
  constructor
  · rintro ⟨pos, hv, -, hw⟩
    exact ⟨⟨pos, hv⟩, fun h => by simp [hw] at h⟩
  · rintro ⟨⟨pos, hv⟩, hw⟩
    have bound : n - 1 < 64 := BitVec.lt_of_getLsbD hv
    exact ⟨pos, hv, bound, by simpa [pos] using hw⟩

/-- A set of blocked signals. -/
structure Blocked where
  set : Word
  blockable : set &&& unblockable = 0#64
  deriving DecidableEq

namespace Blocked

/-- The signals that are blocked. -/
def signals (b : Blocked) : Set Nat := Libmini.signals b.set

/-- A set handed to the kernel, which drops what cannot be blocked. -/
def ofSet (set : Word) : Blocked where
  set := set &&& ~~~ unblockable
  blockable := by
    rw [BitVec.and_assoc, BitVec.not_and_self]
    exact BitVec.and_zero

@[ext] theorem ext {b c : Blocked} (h : b.set = c.set) : b = c := by
  cases b
  cases c
  cases h
  rfl

/-- What a process can block survives being handed to the kernel. -/
@[simp] theorem ofSet_set (b : Blocked) : ofSet b.set = b := by
  apply Blocked.ext
  apply BitVec.eq_of_getLsbD_eq
  intro i hi
  have hbit := congrArg (fun w => w.getLsbD i) b.blockable
  simp only [ofSet, BitVec.getLsbD_and, BitVec.getLsbD_not, hi, decide_true,
    Bool.true_and] at hbit ⊢
  cases h : b.set.getLsbD i <;> simp_all

def union (b c : Blocked) : Blocked where
  set := b.set ||| c.set
  blockable := by
    rw [BitVec.and_comm, BitVec.and_or_distrib_left, BitVec.and_comm _ b.set,
      BitVec.and_comm _ c.set, b.blockable, c.blockable, BitVec.or_zero]

def diff (b c : Blocked) : Blocked where
  set := b.set &&& ~~~ c.set
  blockable := by
    rw [BitVec.and_assoc, BitVec.and_comm (~~~ c.set), ← BitVec.and_assoc, b.blockable,
      BitVec.zero_and]

theorem signals_union (b c : Blocked) : (b.union c).signals = b.signals ∪ c.signals :=
  signals_or b.set c.set

theorem signals_diff (b c : Blocked) : (b.diff c).signals = b.signals \ c.signals :=
  signals_and_not b.set c.set

theorem signals_ofSet (set : Word) :
    (ofSet set).signals = Libmini.signals set \ Libmini.signals unblockable :=
  signals_and_not set unblockable

/-- The union is its second part exactly when it adds nothing to it. -/
theorem union_eq_right_iff (b c : Blocked) : b.union c = c ↔ b.signals ⊆ c.signals := by
  rw [← Set.union_eq_right, ← signals_union]
  constructor
  · intro h
    rw [h]
  · intro h
    exact Blocked.ext (signals_injective h)

end Blocked

/-- A process as the library sees it: the machine, the blocked signals the
kernel holds for it, and the library's `errno`. -/
structure Process where
  cpu : X86.State
  blocked : Blocked
  errno : Word

def sigBlock : BitVec 32 := 0
def sigUnblock : BitVec 32 := 1
def sigSetmask : BitVec 32 := 2

def einval : Word := 22

/-- The size of a signal set. -/
def sigsetSize : Word := 8

/-- The blocked signals that a call asks for, unless its `how` is unknown. -/
def maskAfter (how : BitVec 32) (old new : Blocked) : Option Blocked :=
  if how = sigBlock then some (old.union new)
  else if how = sigUnblock then some (old.diff new)
  else if how = sigSetmask then some new
  else none

/-- Store a set at an address, unless that is null. -/
def putSet (a : Addr) (set : Word) (s : X86.State) : X86.State :=
  if a = 0 then s else s.setMem (store s.mem a set)

/-- The blocked signals after a call whose new set is given by address. -/
def nextMask (how : BitVec 32) (set : Addr) (p : Process) : Option Blocked :=
  if set = 0 then some p.blocked else maskAfter how p.blocked (.ofSet (load p.cpu.mem set))

/-- The system call. The old set is stored after the new one is read. -/
def sysRtSigprocmask (how : BitVec 32) (set oset : Addr) (size : Word) (p : Process) :
    Word × Process :=
  if size ≠ sigsetSize then (-einval, p)
  else match nextMask how set p with
    | none => (-einval, p)
    | some blocked => (0, { p with blocked, cpu := putSet oset p.blocked.set p.cpu })

/-- What a wrapper that returns an `int` returns and leaves in `errno`: a negative
result of the system call goes to `errno`. -/
def retvalInt (ret : Word) : BitVec 32 × Word :=
  if ret.slt 0 then (-1, -ret) else (ret.setWidth 32, 0)

def wrapperRetval (ret : Word) (p : Process) : BitVec 32 × Process :=
  ((retvalInt ret).1, { p with errno := (retvalInt ret).2 })

def sigprocmask (how : BitVec 32) (set oset : Addr) (p : Process) : BitVec 32 × Process :=
  let (ret, p) := sysRtSigprocmask how set oset sigsetSize p
  wrapperRetval ret p

theorem sigprocmask_of_nextMask {how : BitVec 32} {set oset : Addr} {p : Process} {b : Blocked}
    (next : nextMask how set p = some b) :
    sigprocmask how set oset p =
      (0, { cpu := putSet oset p.blocked.set p.cpu, blocked := b, errno := 0 }) := by
  simp [sigprocmask, sysRtSigprocmask, wrapperRetval, retvalInt, next]

/-- Without a new set a call leaves the blocked signals alone and stores them. -/
theorem sigprocmask_query (how : BitVec 32) (oset : Addr) (p : Process) :
    sigprocmask how 0 oset p =
      (0, { cpu := putSet oset p.blocked.set p.cpu, blocked := p.blocked, errno := 0 }) :=
  sigprocmask_of_nextMask (if_pos rfl)

/-- Blocking a set leaves the union. -/
theorem sigprocmask_block {set : Addr} (given : set ≠ 0) (oset : Addr) (p : Process) :
    sigprocmask sigBlock set oset p =
      (0, { cpu := putSet oset p.blocked.set p.cpu
            blocked := p.blocked.union (.ofSet (load p.cpu.mem set))
            errno := 0 }) :=
  sigprocmask_of_nextMask (if_neg given)

end Libmini
