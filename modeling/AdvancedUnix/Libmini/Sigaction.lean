import AdvancedUnix.Libmini.Signals
import AdvancedUnix.Runs.Basic

/-!
# Signal dispositions

The kernel holds a disposition for each signal. `sigaction` converts between the
structure of the library and that of the kernel, which order their fields
differently, and always passes a place for the old disposition, from which it
copies only if the caller wants it and the kernel has accepted the call. `signal`
is a call of `sigaction` with an empty mask and fixed flags.

The kernel refuses signals that do not exist and those that cannot be handled.
Of what it accepts it drops `SIGKILL` and `SIGSTOP` from the mask, and from the
flags the bits that it does not know; kernels differ in which these are.
-/

namespace Libmini

open Memory Runs

/-- The library's `struct sigaction`. -/
structure Sigaction where
  saHandler : Word
  saMask : Word
  saFlags : Word
  saRestorer : Word
  deriving DecidableEq

/-- The structure that the system call takes. -/
structure KernelSigaction where
  kSaHandler : Word
  saFlags : Word
  saRestorer : Word
  saMask : Word

/-- What the kernel does with a signal. -/
structure Disposition where
  handler : Word
  flags : Word
  restorer : Word
  mask : Blocked
  deriving DecidableEq

/-- Signals whose disposition can be set. -/
def Accepted (sig : Int) : Prop := 1 ≤ sig ∧ sig ≤ 64 ∧ sig ≠ sigkill ∧ sig ≠ sigstop

instance (sig : Int) : Decidable (Accepted sig) :=
  inferInstanceAs (Decidable (_ ∧ _ ∧ _ ∧ _))

/-- The disposition of every signal, the flags that the kernel knows, and the
library's `errno`. -/
structure Dispositions where
  table : Int → Disposition
  known : Word
  errno : Word

/-- The disposition that the kernel makes of what it is given. -/
def KernelSigaction.disposition (kact : KernelSigaction) (known : Word) : Disposition where
  handler := kact.kSaHandler
  flags := kact.saFlags &&& known
  restorer := kact.saRestorer
  mask := .ofSet kact.saMask

/-- A disposition as the kernel hands it out. -/
def Disposition.handedOut (d : Disposition) : KernelSigaction where
  kSaHandler := d.handler
  saFlags := d.flags
  saRestorer := d.restorer
  saMask := d.mask.set

/-- The system call with an action given: its result, what it leaves in the place
for the old action, and the table. -/
def sysRtSigaction (sig : Int) (kact koact : KernelSigaction) (size : Word) (s : Dispositions) :
    Word × KernelSigaction × Dispositions :=
  if size = sigsetSize ∧ Accepted sig then
    (0, (s.table sig).handedOut,
      { s with table := Function.update s.table sig (kact.disposition s.known) })
  else (-einval, koact, s)

def saRestorer : Word := 0x4000000

/-- The address of `restore_rt`, and the contents of the uninitialised locals. -/
structure Locals where
  restoreRt : Addr
  koact : KernelSigaction
  act : Sigaction
  oact : Sigaction

/-- What a call returns to its caller. -/
structure Reply where
  ret : Word
  oact : Option Sigaction
  deriving DecidableEq

/-- The action in the kernel's order of fields, with the restorer set. -/
def Sigaction.kact (act : Sigaction) (restoreRt : Addr) : KernelSigaction where
  kSaHandler := act.saHandler
  saMask := act.saMask
  saFlags := act.saFlags ||| Libmini.saRestorer
  saRestorer := restoreRt

/-- An old action after the fields of the kernel's are copied into it. -/
def Sigaction.copied (o : Sigaction) (koact : KernelSigaction) : Sigaction :=
  { o with
    saHandler := koact.kSaHandler
    saMask := koact.saMask
    saFlags := koact.saFlags
    saRestorer := koact.saRestorer }

def sigaction (l : Locals) (sig : Int) (act : Sigaction) (oact : Option Sigaction)
    (s : Dispositions) : BitVec 32 × Option Sigaction × Dispositions :=
  let (ret, koact, s) := sysRtSigaction sig (act.kact l.restoreRt) l.koact sigsetSize s
  let oact := if ret.slt 0 then oact else oact.map fun o => o.copied koact
  ((retvalInt ret).1, oact, { s with errno := (retvalInt ret).2 })

def sigDfl : Word := 0
def sigIgn : Word := 1
def sigErr : Word := -1
def saOneshot : Word := 0x10
def saNomask : Word := 0x08

/-- The action that `signal` fills in. -/
def Locals.handlerAct (l : Locals) (handler : Word) : Sigaction :=
  { l.act with saHandler := handler, saMask := 0, saFlags := saOneshot ||| saNomask }

def signal (l : Locals) (signum : Int) (handler : Word) (s : Dispositions) :
    Word × Dispositions :=
  let (ret, oact, s) := sigaction l signum (l.handlerAct handler) (some l.oact) s
  if ret.slt 0 then (sigErr, s)
  else
    let ret := (oact.getD l.oact).saHandler
    if ret.slt 0 then (0, { s with errno := -ret }) else (ret, { s with errno := 0 })

/-- One call of the interface. -/
inductive Call
  | sigaction (sig : Int) (act : Sigaction) (oact : Option Sigaction)
  | signal (sig : Int) (handler : Word)

namespace Call

def sig : Call → Int
  | sigaction sig _ _ => sig
  | signal sig _ => sig

def handler : Call → Word
  | sigaction _ act _ => act.saHandler
  | signal _ handler => handler

/-- What is in the caller's old action before the call. -/
def oact : Call → Option Sigaction
  | sigaction _ _ oact => oact
  | signal _ _ => none

/-- Make a call. An `int` result is read with its sign. -/
def exec (l : Locals) (s : Dispositions) : Call → Reply × Dispositions
  | sigaction sig act oact =>
      let (ret, oact, s) := Libmini.sigaction l sig act oact s
      (⟨ret.signExtend 64, oact⟩, s)
  | signal sig handler =>
      let (ret, s) := Libmini.signal l sig handler s
      (⟨ret, none⟩, s)

/-- The disposition that a call asks for, of a kernel that knows some flags. A mask
blocks what it can. -/
def wanted (known : Word) : Call → Disposition
  | sigaction _ act _ => ⟨act.saHandler, act.saFlags &&& known, act.saRestorer, .ofSet act.saMask⟩
  | signal _ handler => ⟨handler, (saOneshot ||| saNomask) &&& known, 0, .ofSet 0⟩

end Call

/-- Two dispositions are the same but for the restorer and the flag that says
there is one. -/
structure Disposition.Same (d e : Disposition) : Prop where
  handler : d.handler = e.handler
  mask : d.mask = e.mask
  flags : d.flags &&& ~~~ saRestorer = e.flags &&& ~~~ saRestorer

@[refl] theorem Disposition.Same.refl (d : Disposition) : d.Same d := ⟨rfl, rfl, rfl⟩

/-- What an old action says about a disposition. -/
structure Sigaction.Reports (o : Sigaction) (d : Disposition) : Prop where
  handler : o.saHandler = d.handler
  mask : o.saMask = d.mask.set
  flags : o.saFlags = d.flags

/-- The address of a handler in the user range, `SIG_DFL` or `SIG_IGN`. -/
def UserHandler (handler : Word) : Prop := handler.slt 0 = false

instance (handler : Word) : Decidable (UserHandler handler) :=
  inferInstanceAs (Decidable (_ = _))

/-- Every disposition has a handler of the user range and flags that the kernel
knows. -/
structure Dispositions.Ordinary (s : Dispositions) : Prop where
  handler : ∀ sig, UserHandler (s.table sig).handler
  flags : ∀ sig, (s.table sig).flags &&& s.known = (s.table sig).flags

/-- The restorer's flag is all that a call adds to the flags. -/
theorem same_of_restorer (flags known : Word) :
    ((flags ||| saRestorer) &&& known) &&& ~~~ saRestorer =
      (flags &&& known) &&& ~~~ saRestorer := by
  apply BitVec.eq_of_getLsbD_eq
  intro i hi
  simp only [BitVec.getLsbD_and, BitVec.getLsbD_or, BitVec.getLsbD_not, hi, decide_true,
    Bool.true_and]
  cases saRestorer.getLsbD i <;> simp

section

variable (l : Locals) (act : Sigaction) (oact : Option Sigaction) (s : Dispositions)

/-- The disposition that a call of `sigaction` leaves. -/
def installed (known : Word) : Disposition :=
  ⟨act.saHandler, (act.saFlags ||| saRestorer) &&& known, l.restoreRt, .ofSet act.saMask⟩

/-- The old action that the library hands out. -/
def Disposition.report (d : Disposition) : Sigaction :=
  ⟨d.handler, d.mask.set, d.flags, d.restorer⟩

/-- The table with one disposition replaced, after a call that succeeded. -/
def Dispositions.set (sig : Int) (d : Disposition) : Dispositions :=
  { s with table := Function.update s.table sig d, errno := 0 }

@[simp] theorem Dispositions.set_known (sig : Int) (d : Disposition) :
    (s.set sig d).known = s.known := rfl

@[simp] theorem Dispositions.set_self (sig : Int) (d : Disposition) :
    (s.set sig d).table sig = d := by
  simp [Dispositions.set]

theorem Dispositions.set_other {sig n : Int} (d : Disposition) (other : n ≠ sig) :
    (s.set sig d).table n = s.table n := by
  simp [Dispositions.set, other]

theorem Disposition.report_reports (d : Disposition) : d.report.Reports d :=
  ⟨rfl, rfl, rfl⟩

/-- A disposition that is reported can be installed again. -/
theorem installed_report {d : Disposition} {known : Word} (flags : d.flags &&& known = d.flags) :
    (installed l d.report known).Same d where
  handler := rfl
  mask := Blocked.ofSet_set d.mask
  flags := by
    calc (installed l d.report known).flags &&& ~~~ saRestorer
        = (d.flags &&& known) &&& ~~~ saRestorer := same_of_restorer d.flags known
      _ = d.flags &&& ~~~ saRestorer := by rw [flags]

variable {sig : Int}

theorem sysRtSigaction_accepted (kact koact : KernelSigaction) (ok : Accepted sig) :
    sysRtSigaction sig kact koact sigsetSize s =
      (0, (s.table sig).handedOut,
        { s with table := Function.update s.table sig (kact.disposition s.known) }) :=
  if_pos ⟨rfl, ok⟩

theorem sysRtSigaction_refused (kact koact : KernelSigaction) (no : ¬ Accepted sig) :
    sysRtSigaction sig kact koact sigsetSize s = (-einval, koact, s) :=
  if_neg fun h => no h.2

theorem sigaction_accepted (ok : Accepted sig) :
    sigaction l sig act oact s =
      (0, oact.map fun _ => (s.table sig).report, s.set sig (installed l act s.known)) := by
  unfold sigaction
  have zero : (0 : Word).slt 0 = false := by decide
  rw [sysRtSigaction_accepted s _ _ ok]
  simp only [retvalInt, zero, Bool.false_eq_true, if_false]
  rfl

theorem sigaction_refused (no : ¬ Accepted sig) :
    sigaction l sig act oact s = (-1, oact, { s with errno := einval }) := by
  unfold sigaction
  rw [sysRtSigaction_refused s _ _ no]
  rfl

/-- The disposition that a call of `signal` leaves. -/
def handled (handler known : Word) : Disposition :=
  installed l (l.handlerAct handler) known

theorem signal_accepted (ok : Accepted sig) (user : UserHandler (s.table sig).handler)
    (handler : Word) :
    signal l sig handler s =
      ((s.table sig).handler, s.set sig (handled l handler s.known)) := by
  unfold signal
  rw [sigaction_accepted l _ _ s ok]
  exact if_neg (Bool.eq_false_iff.mp user)

theorem signal_refused (no : ¬ Accepted sig) (handler : Word) :
    signal l sig handler s = (sigErr, { s with errno := einval }) := by
  unfold signal
  rw [sigaction_refused l _ _ s no]
  rfl

end

/-- The disposition that a call leaves. -/
def Call.left (l : Locals) (known : Word) : Call → Disposition
  | sigaction _ act _ => installed l act known
  | signal _ handler => handled l handler known

theorem Call.left_same (l : Locals) (known : Word) (c : Call) :
    (c.left l known).Same (c.wanted known) := by
  cases c with
  | sigaction _ act _ => exact ⟨rfl, rfl, same_of_restorer _ _⟩
  | signal _ handler => exact ⟨rfl, rfl, same_of_restorer _ _⟩

/-- What a call replies when it succeeds. -/
def Call.success (s : Dispositions) : Call → Reply
  | sigaction sig _ oact => ⟨0, oact.map fun _ => (s.table sig).report⟩
  | signal sig _ => ⟨(s.table sig).handler, none⟩

section

variable {s : Dispositions} (l : Locals) {c : Call}

theorem Call.exec_accepted (ordinary : s.Ordinary) (ok : Accepted c.sig) :
    c.exec l s = (c.success s, s.set c.sig (c.left l s.known)) := by
  cases c with
  | sigaction sig act oact =>
      have call : Libmini.sigaction l sig act oact s = _ := sigaction_accepted l act oact s ok
      simp only [Call.exec, call]
      rfl
  | signal sig handler =>
      have call : Libmini.signal l sig handler s = _ :=
        signal_accepted l s ok (ordinary.handler sig) handler
      simp only [Call.exec, call]
      rfl

theorem Call.exec_refused (no : ¬ Accepted c.sig) :
    c.exec l s = (⟨-1, c.oact⟩, { s with errno := einval }) := by
  cases c with
  | sigaction sig act oact =>
      have call : Libmini.sigaction l sig act oact s = _ := sigaction_refused l act oact s no
      simp only [Call.exec, call]
      rfl
  | signal sig handler =>
      have call : Libmini.signal l sig handler s = _ := signal_refused l s no handler
      simp only [Call.exec, call]
      rfl

theorem Dispositions.Ordinary.exec (ordinary : s.Ordinary) (user : UserHandler c.handler) :
    (c.exec l s).2.Ordinary := by
  by_cases ok : Accepted c.sig
  · rw [Call.exec_accepted l ordinary ok]
    constructor
    · intro n
      by_cases other : n = c.sig
      · subst other
        rw [Dispositions.set_self]
        cases c <;> exact user
      · rw [Dispositions.set_other s _ other]
        exact ordinary.handler n
    · intro n
      by_cases other : n = c.sig
      · subst other
        rw [Dispositions.set_self, Dispositions.set_known]
        cases c <;> exact (BitVec.and_assoc _ _ _).trans (by rw [BitVec.and_self]; rfl)
      · rw [Dispositions.set_other s _ other]
        exact ordinary.flags n
  · rw [Call.exec_refused l ok]
    exact ⟨ordinary.handler, ordinary.flags⟩

end

end Libmini
