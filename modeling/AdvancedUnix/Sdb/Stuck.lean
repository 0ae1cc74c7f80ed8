import AdvancedUnix.Sdb.Fragment
import AdvancedUnix.Sdb.Outcome

/-!
# Waiting for a tracee that cannot run

The wait loop goes round again after a stop that no slot accounts for, without
having resumed the tracee: the next `waitpid` then waits for a process that
waits for the debugger. `Sdb.session_not_stuck_iff` says exactly when that
does not happen.
-/

namespace Sdb

open Memory Traced

variable {K : Type}

/-- If a signal stops the tracee within the bound, it stops one past the address
of a used slot. -/
def StopsBehindSlot (H : Host K) (fuel : Nat) (sdb : SDB) (p : Proc K) : Prop :=
  ∀ j < fuel, p.Unhalted H.toPlatform j → ∀ sig,
    H.halt (p.after H.toPlatform j).cpu = some (.signal sig) →
      (sdb.slotBehind H (p.after H.toPlatform (j + 1)).cpu.ext
        (p.after H.toPlatform (j + 1)).cpu.rip).isSome

variable {H : Host K} {env : Env K} {w : World K}

theorem waitLoop_not_stuck_iff {status : Nat} :
    (waitLoop H env 3 0 status w.ptraceCont).ending ≠ .stuck ↔
      (env.waits (.loop 0) → env.waits (.loop 1) → ∀ p,
        w.ptraceCont.current = some (.live .running p) → w.sdb.eh ≠ none →
          StopsBehindSlot H env.fuel w.sdb p) := by
  constructor
  · intro notStuck first second p hc heh j hj before sig halts
    obtain ⟨eh, heh⟩ := Option.ne_none_iff_exists'.mp heh
    have stops := Proc.resume_of_halt H.toPlatform hj before halts
    generalize p.after H.toPlatform (j + 1) = q at stops ⊢
    have wait : waitpid H.toPlatform (env.waits (.loop 0)) env.fuel w.ptraceCont = _ :=
      waitpid_of_running first hc
    rw [stops] at wait
    have hsdb : (w.ptraceCont.setChild (.live .stopped q)).sdb = w.sdb := by simp
    have handle : (w.ptraceCont.setChild (.live .stopped q)).sdb.eh = some eh := by rw [hsdb, heh]
    cases behind : w.sdb.slotBehind H q.cpu.ext q.cpu.rip with
    | some i => rfl
    | none =>
        refine absurd ?_ notStuck
        rw [waitLoop_of_stop wait (World.current_setChild _ _) handle, hsdb, behind]
        simp [second]
  · intro behind stuck
    have outcome := waited H env status w.ptraceCont
    generalize waitLoop H env 3 0 status w.ptraceCont = r at outcome stuck
    cases outcome with
    | failed wait => cases stuck
    | busy wait => cases stuck
    | exited wait => cases stuck
    | fault wait stopped noMatch => cases stuck
    | hit wait stopped found => cases stuck
    | dropped wait stopped noSlot ok => cases stuck
    | blocked wait =>
        obtain ⟨p, hc⟩ := waitpid_blocked wait
        cases World.ptraceCont_current hc
    | @again sig v p wait stopped noSlot ok =>
        have first := waitpid_delivered (by rw [wait]; nofun)
        obtain ⟨q, rfl, hc | ⟨r, hc, stops⟩⟩ := waitpid_stopped wait
        · cases World.ptraceCont_current hc
        · rw [World.current_setChild] at stopped
          cases stopped
          have hsdb : (w.ptraceCont.setChild (.live .stopped p)).sdb = w.sdb := by simp
          obtain ⟨heh, none⟩ := matchSlot_none (World.current_setChild _ _) noSlot
          rw [hsdb] at heh none
          obtain ⟨j, hj, before, halts, rfl⟩ := Proc.exists_of_resume H.toPlatform stops
          have := behind first ok r hc heh j hj before sig halts
          rw [none] at this
          cases this

/-- The first stop of the tracee that the command resumes, if it is waited for, is
one past the address of a used slot. -/
def FirstStopBehindSlot (H : Host K) (env : Env K) (cmd : Cmd) (w : World K) : Prop :=
  env.waits (.loop 0) → env.waits (.loop 1) →
    ∀ u v p, cmd.passStart env w = some u → sdbPatchAllBp H env u = (v, none) →
      v.ptraceCont.current = some (.live .running p) → v.sdb.eh ≠ none →
        StopsBehindSlot H env.fuel v.sdb p

theorem not_stuck_iff {cmd : Cmd} (resumes : cmd.resumes) :
    (cmd.exec H env w).ending ≠ .stuck ↔ FirstStopBehindSlot H env cmd w := by
  unfold FirstStopBehindSlot
  rcases Cmd.exec_resumes H env resumes w with
    ⟨u, status, hstart, he⟩ | ⟨hstart, v, text, he⟩
  · rw [he, hstart, contFrom]
    cases hpass : sdbPatchAllBp H env u with
    | mk v fault =>
        cases fault with
        | some f =>
            refine iff_of_true (fun h => by cases h) fun _ _ u' v' p hu hv => ?_
            cases hu
            rw [hpass] at hv
            cases hv
        | none =>
            rw [waitLoop_not_stuck_iff]
            constructor
            · intro h first second u' v' p hu hv hc heh
              cases hu
              rw [hpass] at hv
              cases hv
              exact h first second p hc heh
            · intro h first second p hc heh
              exact h first second u v p rfl hpass hc heh
  · rw [he, hstart]
    exact iff_of_true (fun h => by cases h) fun _ _ u v p hu => by cases hu

/-- Given at the prompt, `cont` or `run` does not end up waiting for a stopped tracee. -/
def Event.NotStuck (H : Host K) (r : Result K) : Event K → Prop
  | .command cmd env => (∃ out, r.ending = .prompt out) → cmd.resumes →
      (cmd.exec H env r.world).ending ≠ .stuck
  | .killed _ => True

/-- `FirstStopBehindSlot` of `cont` or `run` at the prompt. -/
def Event.FirstStopBehindSlot (H : Host K) (r : Result K) : Event K → Prop
  | .command cmd env => (∃ out, r.ending = .prompt out) → cmd.resumes →
      Sdb.FirstStopBehindSlot H env cmd r.world
  | .killed _ => True

variable (H) in
/-- In a session no command waits for a stopped tracee exactly when, each time one
resumes the tracee, its first stop is one past the address of a used slot. -/
theorem session_not_stuck_iff (fresh : Slot → Bp) (events : List (Event K)) :
    Runs.AllSteps (step H) (fun r e => e.NotStuck H r) (created fresh) events ↔
      Runs.AllSteps (step H) (fun r e => e.FirstStopBehindSlot H r) (created fresh) events := by
  refine Runs.allSteps_congr (fun r e => ?_) _ _
  cases e with
  | killed pid => exact Iff.rfl
  | command cmd env => exact forall₂_congr fun _ resumes => not_stuck_iff resumes

namespace Fragment

/-- A breakpoint is set, and the program run up to it. -/
def breakAndRun : List (Event Maps) :=
  [.load "/bin/prog".toList, .break "0x400002".toList, .run].map (cmd nops 64)

theorem breakAndRun_not_stuck :
    Runs.AllSteps (step host) (fun r e => e.NotStuck host r) fresh breakAndRun := by
  refine (session_not_stuck_iff host _ breakAndRun).mpr
    ⟨(fun _ no => nomatch no), (fun _ no => nomatch no),
      fun _ _ _ _ u v p hu hv hc _ => ?_, trivial⟩
  cases hu
  cases hv
  cases hc
  intro j hj before sig halts
  rcases Nat.lt_or_ge 2 j with beyond | upTo
  · exact absurd (before 2 beyond) (by decide)
  · interval_cases j
    · cases halts
    · cases halts
    · rfl

/-- A program whose second instruction faults. -/
def faulty : Image Maps := image someMaps 0x400000 [0x90, 0xf4]

/-- With no breakpoint at all, `run` waits for a tracee that is stopped. -/
theorem faulty_stuck : (session host loaded ([.run].map (cmd faulty 64))).ending = .stuck := by
  rfl

end Fragment

end Sdb
