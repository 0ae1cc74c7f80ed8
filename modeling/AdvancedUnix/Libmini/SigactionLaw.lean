import AdvancedUnix.Libmini.Sigaction

/-!
# The library's interface to the signal dispositions

`Faithful` says what one call may do: a refused call changes nothing, an accepted
one sets the disposition of its signal and reports the earlier one, in its old
action or as the handler it returns, so that a second call can put it back.

Every call of a run is faithful. What the run keeps is that the table holds only
handlers of the user range and flags that the kernel knows: `signal` cannot tell
another handler from an error, and other flags would not come back.

A signal set can name `SIGKILL` and `SIGSTOP`, but a disposition never blocks
them, so what a call asks for is its mask without them. A handler alone does not
say which mask and flags it came with: `signal` restores them only for a
disposition of the form that it sets itself.
-/

namespace Libmini

open Memory Runs

/-- The call that gives back what an earlier call returned. -/
def Call.back (r : Reply) : Call → Option Call
  | sigaction sig _ _ => r.oact.map fun o => .sigaction sig o none
  | signal sig _ => some (.signal sig r.ret)

/-- A disposition of the form that `signal` sets. -/
def Disposition.OfSignal (d : Disposition) (known : Word) : Prop :=
  d.Same ((Call.signal 0 d.handler).wanted known)

/-- What a disposition that is put back has in common with the earlier one. -/
def Call.Restores (known : Word) : Call → Disposition → Disposition → Prop
  | sigaction _ _ _, d, earlier => d.Same earlier
  | signal _ _, d, earlier =>
      d.handler = earlier.handler ∧ (earlier.OfSignal known → d.Same earlier)

/-- A call reports the disposition in force before it, unless it is not asked to. -/
def Call.Reported (earlier : Disposition) : Call → Reply → Prop
  | sigaction _ _ none, r => r.ret = 0 ∧ r.oact = none
  | sigaction _ _ (some _), r => r.ret = 0 ∧ ∃ o, r.oact = some o ∧ o.Reports earlier
  | signal _ _, r => r.ret = earlier.handler ∧ r.oact = none

/-- What a call does to the table and tells its caller. -/
structure Faithful (s : Dispositions) (l : Locals) (c : Call) : Prop where
  refused : ¬ Accepted c.sig → (c.exec l s).1 = ⟨sigErr, c.oact⟩ ∧ (c.exec l s).2.table = s.table
  others : ∀ n, n ≠ c.sig → (c.exec l s).2.table n = s.table n
  changed : Accepted c.sig → ((c.exec l s).2.table c.sig).Same (c.wanted s.known)
  reported : Accepted c.sig → c.Reported (s.table c.sig) (c.exec l s).1
  restored : Accepted c.sig → ∀ l' c', c.back (c.exec l s).1 = some c' →
    c.Restores s.known ((c'.exec l' (c.exec l s).2).2.table c.sig) (s.table c.sig) ∧
      ∀ n, n ≠ c.sig → (c'.exec l' (c.exec l s).2).2.table n = s.table n

section

variable {s : Dispositions} (l : Locals) {c : Call}

theorem exec_others (ordinary : s.Ordinary) {n : Int} (other : n ≠ c.sig) :
    (c.exec l s).2.table n = s.table n := by
  by_cases ok : Accepted c.sig
  · rw [Call.exec_accepted l ordinary ok]
    exact Dispositions.set_other s _ other
  · rw [Call.exec_refused l ok]

theorem exec_changed (ordinary : s.Ordinary) (ok : Accepted c.sig) :
    (c.exec l s).2.table c.sig = c.left l s.known := by
  rw [Call.exec_accepted l ordinary ok]
  exact Dispositions.set_self s _ _

theorem exec_known (ordinary : s.Ordinary) : (c.exec l s).2.known = s.known := by
  by_cases ok : Accepted c.sig
  · rw [Call.exec_accepted l ordinary ok]
    rfl
  · rw [Call.exec_refused l ok]

theorem exec_reported (ordinary : s.Ordinary) (ok : Accepted c.sig) :
    c.Reported (s.table c.sig) (c.exec l s).1 := by
  rw [Call.exec_accepted l ordinary ok]
  cases c with
  | sigaction sig act oact =>
      cases oact with
      | none => exact ⟨rfl, rfl⟩
      | some o => exact ⟨rfl, _, rfl, Disposition.report_reports _⟩
  | signal sig handler => exact ⟨rfl, rfl⟩

/-- A second call for the same signal leaves its own disposition there, and every
other signal as it was before the first. -/
theorem exec_again (ordinary : s.Ordinary) (user : UserHandler c.handler) (ok : Accepted c.sig)
    (l' : Locals) {c' : Call} (same : c'.sig = c.sig) :
    (c'.exec l' (c.exec l s).2).2.table c.sig = c'.left l' s.known ∧
      ∀ n, n ≠ c.sig → (c'.exec l' (c.exec l s).2).2.table n = s.table n := by
  have next := ordinary.exec l user
  constructor
  · have own := exec_changed l' next (same ▸ ok)
    rwa [same, exec_known l ordinary] at own
  · intro n other
    rw [exec_others l' next (same ▸ other), exec_others l ordinary other]

theorem back_sig {r : Reply} {c' : Call} (back : c.back r = some c') : c'.sig = c.sig := by
  cases c with
  | sigaction sig act oact =>
      obtain ⟨o, -, rfl⟩ := Option.map_eq_some_iff.mp back
      rfl
  | signal sig handler =>
      cases back
      rfl

/-- Giving back what an accepted call returned leaves the earlier disposition. -/
theorem back_restores (ordinary : s.Ordinary) {c' : Call} (back : c.back (c.success s) = some c')
    (l' : Locals) : c.Restores s.known (c'.left l' s.known) (s.table c.sig) := by
  cases c with
  | sigaction sig act oact =>
      obtain ⟨o, given, rfl⟩ := Option.map_eq_some_iff.mp back
      obtain ⟨-, -, rfl⟩ := Option.map_eq_some_iff.mp given
      exact installed_report l' (ordinary.flags sig)
  | signal sig handler =>
      cases back
      have mine := (Call.signal sig (s.table sig).handler).left_same l' s.known
      refine ⟨rfl, ?_⟩
      intro form
      exact ⟨rfl, mine.mask.trans form.mask.symm, mine.flags.trans form.flags.symm⟩

theorem faithful (ordinary : s.Ordinary) (user : UserHandler c.handler) : Faithful s l c where
  refused := by
    intro no
    rw [Call.exec_refused l no]
    exact ⟨rfl, rfl⟩
  others _ other := exec_others l ordinary other
  changed ok := by
    rw [exec_changed l ordinary ok]
    exact c.left_same l s.known
  reported ok := exec_reported l ordinary ok
  restored := by
    intro ok l' c' back
    have again := exec_again l ordinary user ok l' (back_sig back)
    rw [Call.exec_accepted l ordinary ok] at back
    refine ⟨?_, again.2⟩
    rw [again.1]
    exact back_restores ordinary back l'

end

/-- Every call of every run is faithful, when the handlers given are of the user
range and the table starts with such handlers. -/
theorem sigaction_runs_faithful {s : Dispositions} (start : s.Ordinary)
    {calls : List (Locals × Call)} (user : ∀ call ∈ calls, UserHandler call.2.handler) :
    AllSteps (fun s call => (call.2.exec call.1 s).2)
      (fun s call => Faithful s call.1 call.2) s calls := by
  apply allSteps_of_invariant Dispositions.Ordinary
  · intro s call ordinary handler
    exact ordinary.exec call.1 handler
  · intro s call ordinary handler
    exact faithful call.1 ordinary handler
  · exact start
  · exact user

namespace Demo

/-- Every signal has its default disposition. -/
def defaults : Dispositions where
  table _ := ⟨sigDfl, 0, 0, .ofSet 0⟩
  known := -1
  errno := 0

def fills : Locals := ⟨0x401000, ⟨7, 7, 7, 7⟩, ⟨7, 7, 7, 7⟩, ⟨7, 7, 7, 7⟩⟩

/-- A handler for `SIGINT` with a mask of `SIGKILL`. -/
def masked : Call := .sigaction 2 ⟨0x402000, sigmask sigkill, 0, 0⟩ none

theorem defaults_ordinary : defaults.Ordinary where
  handler _ := (by decide : UserHandler sigDfl)
  flags _ := (by decide : (0 : Word) &&& -1 = 0)

theorem defaults_faithful :
    AllSteps (fun s call => (call.2.exec call.1 s).2)
      (fun s call => Faithful s call.1 call.2) defaults
      [(fills, masked), (fills, .signal 2 0x403000), (fills, .signal 9 sigIgn)] :=
  sigaction_runs_faithful defaults_ordinary (by decide)

/-- The same table in a kernel that knows the flags that Linux does. -/
def linux : Dispositions := { defaults with known := 0xdc000807 }

/-- A handler for `SIGINT` with a flag that is not among them. -/
def flagged : Call := .sigaction 2 ⟨0x402000, 0, saOneshot, 0⟩ none

/-- A handler for `SIGINT` that blocks `SIGUSR1`. -/
def blocking : Call := .sigaction 2 ⟨0x402000, sigmask 10, 0, 0⟩ none

/-- `signal` replaces it, and is then given the handler that it returned. -/
def putBack : Reply × Dispositions :=
  let replaced := (Call.signal 2 0x403000).exec fills (blocking.exec fills linux).2
  (Call.signal 2 replaced.1.ret).exec fills replaced.2

/-- Accepted calls leave another mask and other flags than they were given, and what `signal`
returns brings the handler back and not the mask. -/
theorem dispositions_not_kept :
    (Accepted masked.sig ∧ ((masked.exec fills defaults).2.table 2).mask.set ≠ sigmask sigkill) ∧
    (Accepted flagged.sig ∧
      ((flagged.exec fills linux).2.table 2).flags &&& ~~~ saRestorer ≠ saOneshot) ∧
    (putBack.2.table 2).handler = ((blocking.exec fills linux).2.table 2).handler ∧
      (putBack.2.table 2).mask ≠ ((blocking.exec fills linux).2.table 2).mask := by
  decide

end Demo

end Libmini
