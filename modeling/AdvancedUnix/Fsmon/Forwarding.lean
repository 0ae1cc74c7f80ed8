import AdvancedUnix.Fsmon.Writing

/-!
# What the monitor passes on

A program calls a function under the prototype of the C library, and the
function of the library reads its parameters under the same prototype. Between
them stands the monitor's own declaration. `Transparent` compares what the
program passes with what the library reads, and what the library returns with
what the program reads.

The registers behind the parameters that the monitor passes on hold what was
left in them, so a mode that the program passes to `open` arrives only by chance.
A result declared `int` keeps its lower half; the upper half of the register is
whatever the monitor leaves there. And the program gets its result only when the
monitor comes to the end of its call, names and log included.
-/

namespace Fsmon

open Memory X86

/-- The fixed parameters and the result of a function of the C library. -/
structure Prototype where
  params : List CType
  result : CType

def Fn.prototype : Fn → Prototype
  | closedir => ⟨[.pointer], .int⟩
  | opendir => ⟨[.pointer], .pointer⟩
  | readdir => ⟨[.pointer], .pointer⟩
  | creat => ⟨[.pointer, modeT], .int⟩
  | «open» => ⟨[.pointer, .int], .int⟩
  | read => ⟨[.int, .pointer, sizeT], ssizeT⟩
  | write => ⟨[.int, .pointer, sizeT], ssizeT⟩
  | dup => ⟨[.int], .int⟩
  | dup2 => ⟨[.int, .int], .int⟩
  | close => ⟨[.int], .int⟩
  | lstat => ⟨[.pointer, .pointer], .int⟩
  | stat => ⟨[.pointer, .pointer], .int⟩
  | pwrite => ⟨[.int, .pointer, sizeT, offT], ssizeT⟩
  | fopen => ⟨[.pointer, .pointer], .pointer⟩
  | fclose => ⟨[.pointer], .int⟩
  | fread => ⟨[.pointer, sizeT, sizeT, .pointer], sizeT⟩
  | fwrite => ⟨[.pointer, sizeT, sizeT, .pointer], sizeT⟩
  | fwriteUnlocked => ⟨[.pointer, sizeT, sizeT, .pointer], sizeT⟩
  | fgetc => ⟨[.pointer], .int⟩
  | fgets => ⟨[.pointer, .int, .pointer], .pointer⟩
  | fscanf => ⟨[.pointer, .pointer], .int⟩
  | fprintf => ⟨[.pointer, .pointer], .int⟩
  | chdir => ⟨[.pointer], .int⟩
  | chown => ⟨[.pointer, uidT, gidT], .int⟩
  | chmod => ⟨[.pointer, modeT], .int⟩
  | remove => ⟨[.pointer], .int⟩
  | rename => ⟨[.pointer, .pointer], .int⟩
  | link => ⟨[.pointer, .pointer], .int⟩
  | unlink => ⟨[.pointer], .int⟩
  | readlink => ⟨[.pointer, .pointer, sizeT], ssizeT⟩
  | symlink => ⟨[.pointer, .pointer], .int⟩
  | mkdir => ⟨[.pointer, modeT], .int⟩
  | rmdir => ⟨[.pointer], .int⟩
  | xstat => ⟨[.int, .pointer, .pointer], .int⟩
  | lxstat => ⟨[.int, .pointer, .pointer], .int⟩
  | fputsUnlocked => ⟨[.pointer, .pointer], .int⟩
  | fflush => ⟨[.pointer], .int⟩

def oCreat : Word := 0x40
def oTmpfile : Word := 0x410000

/-- Whether the flags of `open` call for a mode. -/
def NeedsMode (flags : Word) : Prop := flags &&& oCreat ≠ 0 ∨ flags &&& oTmpfile = oTmpfile

instance (flags : Word) : Decidable (NeedsMode flags) := inferInstanceAs (Decidable (_ ∨ _))

/-- The flags that a caller of `open` passes. -/
def flags (a : Args) : Word := CType.int.value (a.int 1)

/-- The types of the arguments behind the fixed ones. `given` is what the caller of
a function that scans or prints chooses by its format. -/
def Fn.rest (given : List Slot) (a : Args) : Fn → List Slot
  | «open» => if NeedsMode (flags a) then [.int modeT] else []
  | fscanf | fprintf => given
  | _ => []

/-- The arguments that a caller passes. -/
def Fn.passed (f : Fn) (given : List Slot) (a : Args) : List Word :=
  a.read 0 0 (f.prototype.params.map .int ++ f.rest given a)

/-- A call of a function of the library. With a list it is a call of the variant
that takes the further arguments as a list. -/
structure Request where
  func : Fn
  args : Args
  va : Option VaList

/-- The arguments that the library reads. -/
def Request.received (r : Request) (given : List Slot) : List Word :=
  r.args.params r.func.prototype.params ++
    match r.va with
    | some va => va.read (r.func.rest given r.args)
    | none => r.args.read r.func.prototype.params.length 0 (r.func.rest given r.args)

/-- What the monitor leaves in the upper halves of 32-bit arguments, in the places
behind its arguments, and in the upper half of a 32-bit result. -/
structure Leftover where
  upper : Nat → BitVec 32
  args : Args
  rax : BitVec 32

/-- What a call meets besides its arguments and its result: the monitor's static data, and
what the library and the surroundings leave, as in `Call`. -/
structure Surroundings where
  monitor : Monitor
  freed : Option Int
  stored : Word → Option Stat
  strings : Word → Option CString
  output : Option (List Char)
  opened : Bool

/-- A call of the library, apart from those that load a function and put texts together: the
one that is passed on, `my_readlink` for a name, and `my_fopen` and `my_fclose` around a line. -/
inductive LibCall
  | forward (r : Request)
  | readlink (fd : Int)
  | openLog (log_name : List Char)
  | closeLog

namespace LibCall

def forwarded? : LibCall → Option Request
  | forward r => some r
  | _ => none

def func : LibCall → Fn
  | forward r => r.func
  | readlink _ => .readlink
  | openLog _ => .fopen
  | closeLog => .fclose

end LibCall

/-- The call of the library in `fd_to_filename`. -/
def World.asked (w : World) (n : Naming) (v : Word) : List LibCall :=
  match w.descriptor n v with
  | some fd => if fd = 1 ∨ fd = 2 then [] else [.readlink fd]
  | none => []

/-- The calls of the library in `write_msg`. -/
def Call.logCalls (c : Call) : List LibCall :=
  match c.output with
  | some log_name => [.openLog log_name, .closeLog]
  | none => []

namespace Wrapper

variable (w : Wrapper) (j : Leftover) (a : Args)

/-- The call that a function of the monitor makes. -/
def request : Request where
  func := w.func
  args := j.args.pass j.upper w.params (a.params w.params)
  va := if w.variadic then some (a.vaStart w.params.length) else none

/-- What the monitor sees of a call, given what the library leaves in `rax`. -/
def seen (rax : Word) (s : Surroundings) : Call where
  func := w.func
  params i := (a.params w.params).getD i 0
  ret := w.result.value rax
  freed := s.freed
  stored := s.stored
  strings := s.strings
  output := s.output
  opened := s.opened

/-- The calls of the library in a step that is taken in `m`. -/
def perform (c : Call) (m : Monitor) : Step → List LibCall
  | .keep n i => m.world.asked n (c.params i)
  | .call => [.forward (w.request j a)]
  | .log msg => msg.lookups.flatMap (fun p => m.world.asked p.1 (c.params p.2)) ++ c.logCalls

/-- The calls of the library in some steps, unless one of them has no meaning. -/
def performAll (c : Call) : List Step → Monitor → Option (List LibCall)
  | [], _ => some []
  | s :: ss, m =>
      (m.step c s).bind fun r => (performAll c ss r.2).map (w.perform j a c m s ++ ·)

/-- Run a function of the monitor on what its caller passes: the calls of the library, and
what the caller finds in `rax`. -/
def run (rax : Word) (s : Surroundings) : Option (List LibCall × Word) :=
  let c := w.seen a rax s
  (w.performAll j a c (w.steps c.ret) s.monitor).map fun cs => (cs, w.result.pass j.rax c.ret)

end Wrapper

/-- One call of the library passes on what the caller passes, and the caller reads the result
of that call. -/
def Transparent (f : Fn) (given : List Slot) (j : Leftover) (a : Args) (rax : Word)
    (s : Surroundings) : Prop :=
  ∃ cs result r, f.wrapper.run j a rax s = some (cs, result) ∧
    cs.filterMap LibCall.forwarded? = [r] ∧ r.func = f ∧ r.received given = f.passed given a ∧
    f.prototype.result.value result = f.prototype.result.value rax

/-- A mode that is called for is already in its place, and a result that is declared
too narrow has its upper half there. -/
def Fits (f : Fn) (j : Leftover) (a : Args) (rax : Word) : Prop :=
  (f = .open → NeedsMode (flags a) → modeT.value (j.args.int 2) = modeT.value (a.int 2)) ∧
    (f = .read ∨ f = .write → j.rax = rax.extractLsb' 32 32)

instance (f : Fn) (j : Leftover) (a : Args) (rax : Word) : Decidable (Fits f j a rax) :=
  inferInstanceAs (Decidable ((_ → _ → _) ∧ (_ → _)))

section

variable (f : Fn) (given : List Slot) (j : Leftover) (a : Args) (rax : Word)

end

section

variable (w : Wrapper) {j : Leftover} {a : Args} {c : Call} {m : Monitor}

end

section

variable {f : Fn} {w : Wrapper} {j : Leftover} {a : Args} {c : Call} {m : Monitor}

/-- How often a step of the wrapper of `g` calls `f`, another one than `readlink`. -/
def Step.callsOf (f g : Fn) (logged : Bool) : Step → Nat
  | .keep _ _ => 0
  | .call => if g = f then 1 else 0
  | .log _ => if logged ∧ (f = .fopen ∨ f = .fclose) then 1 else 0

theorem World.asked_func (w : World) (n : Naming) (v : Word) :
    ∀ call ∈ w.asked n v, call.func = .readlink := by
  intro call mem
  unfold World.asked at mem
  split at mem
  · split at mem
    · cases mem
    · rw [List.mem_singleton.mp mem]
      rfl
  · cases mem

theorem Call.logCalls_count (c : Call) (f : Fn) : c.logCalls.countP (fun call => call.func = f) =
    if c.output.isSome ∧ (f = .fopen ∨ f = .fclose) then 1 else 0 := by
  unfold Call.logCalls
  cases c.output with
  | none => rfl
  | some name => cases f <;> rfl

theorem Wrapper.perform_count (other : f ≠ .readlink) (s : Step) :
    (w.perform j a c m s).countP (fun call => call.func = f) =
      s.callsOf f w.func c.output.isSome := by
  have asked : ∀ (w : World) (n : Naming) (v : Word),
      (w.asked n v).countP (fun call => call.func = f) = 0 := by
    intro w n v
    refine List.countP_eq_zero.mpr fun call mem => ?_
    rw [w.asked_func n v call mem]
    simpa using other.symm
  cases s with
  | keep n i => exact asked _ n _
  | call =>
      rw [perform, List.countP_singleton, Step.callsOf]
      simp only [decide_eq_true_eq]
      rfl
  | log msg =>
      have names : (msg.lookups.flatMap fun p => m.world.asked p.1 (c.params p.2)).countP
          (fun call => call.func = f) = 0 := by
        refine List.countP_eq_zero.mpr fun call mem => ?_
        obtain ⟨p, -, mem⟩ := List.mem_flatMap.mp mem
        exact List.countP_eq_zero.mp (asked _ _ _) call mem
      rw [perform, List.countP_append, names, c.logCalls_count, Nat.zero_add]
      rfl

theorem Wrapper.performAll_count (other : f ≠ .readlink) {ss : List Step} {cs : List LibCall}
    (run : w.performAll j a c ss m = some cs) : cs.countP (fun call => call.func = f) =
      (ss.map fun s => s.callsOf f w.func c.output.isSome).sum := by
  induction ss generalizing m cs with
  | nil =>
      cases run
      rfl
  | cons s ss ih =>
      obtain ⟨r, -, run⟩ := Option.bind_eq_some_iff.mp run
      obtain ⟨rest, later, rfl⟩ := Option.map_eq_some_iff.mp run
      rw [List.countP_append, w.perform_count other, ih later, List.map_cons, List.sum_cons]

/-- Its own function a wrapper calls once; only `fopen` and `fclose` are called again, for the
log. -/
theorem Fn.wrapper_calls {s : Surroundings} {rax v : Word} {cs : List LibCall}
    (run : f.wrapper.run j a rax s = some (cs, v)) : cs.countP (fun call => call.func = f) =
      if s.output.isSome ∧ (f = .fopen ∨ f = .fclose) then 2 else 1 := by
  obtain ⟨cs', performed, pair⟩ := Option.map_eq_some_iff.mp run
  cases pair
  by_cases readlink : f = .readlink
  · subst readlink
    obtain ⟨r, -, performed⟩ := Option.bind_eq_some_iff.mp performed
    obtain ⟨rest, later, rfl⟩ := Option.map_eq_some_iff.mp performed
    obtain ⟨r', -, later⟩ := Option.bind_eq_some_iff.mp later
    obtain ⟨none, last, rfl⟩ := Option.map_eq_some_iff.mp later
    cases last
    have log := (Fn.readlink.wrapper.seen a rax s).logCalls_count .readlink
    rw [if_neg (by simp)] at log
    rw [if_neg (by simp), List.countP_append, List.append_nil]
    exact congrArg (1 + ·) log
  · have written : f = .fopen ∨ f = .fclose →
        (f.wrapper.message (f.wrapper.seen a rax s).ret).isSome := by
      rintro (rfl | rfl) <;> rfl
    have output : (f.wrapper.seen a rax s).output = s.output := rfl
    rw [f.wrapper.performAll_count readlink performed, Wrapper.steps, f.wrapper_func, output]
    by_cases own : f = .fopen ∨ f = .fclose
    · obtain ⟨msg, written⟩ := Option.isSome_iff_exists.mp (written own)
      rw [written]
      cases f.wrapper.filename <;> cases s.output <;> simp [Step.callsOf, own]
    · cases f.wrapper.filename <;> cases f.wrapper.message (f.wrapper.seen a rax s).ret <;>
        simp [Step.callsOf, own]

end

namespace Demo

/-- Everything left in the registers is zero. -/
def cleared : Leftover := ⟨fun _ => 0, ⟨fun _ => 0, fun _ => 0⟩, 0⟩

end Demo

end Fsmon
