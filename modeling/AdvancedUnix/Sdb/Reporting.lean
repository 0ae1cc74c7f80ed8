import AdvancedUnix.Sdb.Course
import AdvancedUnix.Sdb.Fragment
import AdvancedUnix.Sdb.Resumption

/-!
# Which arrivals are reported

`CleanRun` is the exact condition on the state before a call of `sdb_cont` or `sdb_run`
for it to report exactly the arrivals at used slots. The pass plants the trap, so the
condition is about what planting does not reach: a second slot that the tracee stands at
after the step over the first one, slots behind a word that cannot be read, traps that the
program overwrites, and stops that no trap makes.
-/

namespace Sdb

open Memory Traced

variable {K : Type}

/-- The tracee that is resumed as `q` executes the instruction at `c` after `n` other ones. -/
structure Executes (H : Host K) (fuel : Nat) (q : Proc K) (n : Nat) (c : Cpu K) : Prop where
  bound : n < fuel
  before : q.Unhalted H.toPlatform n
  here : (q.after H.toPlatform n).cpu = c

/-- After `stepped` steps of the pass the trap is planted at `vs`, and the tracee resumed. Where
it gets to a used slot, not as its very first instruction, and no trap is there, the
instruction stops it as a trap does; and otherwise no instruction stops it one past a used
slot. The trap is missing where planting does not get to, or where the tracee has overwritten
it. -/
structure CleanResume (H : Host K) (s : SDB) (stepped fuel : Nat) (p : Proc K)
    (vs : List (Slot × Addr)) : Prop where
  unplanted : ∀ n c, Executes H fuel (trapped p vs) n c → 0 < stepped + n → AtSlot H s c →
    ¬ PlantsAt p.cpu.mem c.rip vs → c.mem c.rip ≠ some trapByte → StopsAsTrap H s c
  overwritten : ∀ n c, Executes H fuel (trapped p vs) n c → 0 < stepped + n → AtSlot H s c →
    PlantsAt p.cpu.mem c.rip vs → c.mem c.rip ≠ some trapByte → StopsAsTrap H s c
  others : ∀ n c, Executes H fuel (trapped p vs) n c → 0 < stepped + n → ¬ AtSlot H s c →
    c.mem c.rip ≠ some trapByte → ¬ StopsBehind H s c
  first : ∀ c, Executes H fuel (trapped p vs) 0 c → stepped = 0 → ¬ StopsBehind H s c

/-- What the condition is for a stopped tracee. If the pass finds it away from all slots that
it gets to, it plants the trap there; otherwise it does so below the slot where the tracee
stands, steps over that, and plants it at this slot and those behind. It steps over no second
instruction, and what it leaves to be resumed is clean. -/
structure CleanTracee (H : Host K) (env : Env K) (s : SDB) (p : Proc K) : Prop where
  away : (∀ i, ¬ StandsAt H s p i) → env.waits (.loop 0) →
    CleanResume H s 0 env.fuel p (s.visits H p.cpu.ext slots)
  once : ∀ i, StepsOver H s p i → ∀ k, ¬ StandsAgain H s (steppedOver H s p i) p.cpu.rip i k
  past : ∀ i, StepsOver H s p i → env.waits (.loop 0) →
    CleanResume H s 1 env.fuel (steppedOver H s p i)
      ((i, p.cpu.rip) :: s.visits H (steppedOver H s p i).cpu.ext (slotsBehind i))

/-- The condition on the state before a call. At a child that still runs the pass plants
nothing. -/
structure CleanRun (H : Host K) (env : Env K) (u : World K) : Prop where
  stopped : ∀ p, u.tracee = some p → CleanTracee H env u.sdb p
  running : ∀ p, u.current = some (.live .running p) → env.waits (.loop 0) →
    CleanResume H u.sdb 0 env.fuel p []

section

variable {H : Host K} {env : Env K} {s : SDB} {u : World K} {p q : Proc K} {c : Cpu K}
variable {vs : List (Slot × Addr)} {stepped fuel : Nat} {i : Slot}

/-- A trap stops the tracee one past a used slot exactly when it is at one. -/
theorem stopsBehind_of_trap (trap : c.mem c.rip = some trapByte) :
    StopsBehind H s c ↔ AtSlot H s c := by
  have halt : ∃ sig, H.halt c = some (.signal sig) := ⟨_, H.halt_trap trap⟩
  have next : H.next c = c.setRip (c.rip + 1) := H.next_trap trap
  have rip : (c.setRip (c.rip + 1)).rip - 1 = c.rip := add_sub_cancel_right c.rip 1
  rw [StopsBehind, and_iff_right halt, next, Cpu.setRip_ext, ← not_iff_not,
    Option.not_isSome_iff_eq_none, SDB.slotBehind_eq_none, rip]
  simp only [AtSlot, not_exists, not_and, ne_eq]

theorem stopsAsTrap_of_trap (trap : c.mem c.rip = some trapByte) (at_ : AtSlot H s c) :
    StopsAsTrap H s c := by
  have next : H.next c = c.setRip (c.rip + 1) := H.next_trap trap
  exact ⟨(stopsBehind_of_trap trap).mpr at_, by rw [next]; rfl⟩

/-- With the trap at `vs`, the stops are exact exactly when they are where it is missing. -/
theorem exactStops_iff :
    ExactStops H s stepped fuel (trapped p vs) ↔ CleanResume H s stepped fuel p vs := by
  constructor
  · rintro ⟨arrivals, stops⟩
    refine ⟨?_, ?_, ?_, ?_⟩
    · rintro n c ⟨bound, before, rfl⟩ pos at_ - -
      exact arrivals n bound before at_ pos
    · rintro n c ⟨bound, before, rfl⟩ pos at_ - -
      exact arrivals n bound before at_ pos
    · rintro n c ⟨bound, before, rfl⟩ - elsewhere - stop
      exact elsewhere (stops n bound before stop).2.1
    · rintro c ⟨bound, before, rfl⟩ none stop
      have pos := (stops 0 bound before stop).1
      omega
  · rintro ⟨unplanted, overwritten, others, first⟩
    have arrivals : ∀ j < fuel, (trapped p vs).Unhalted H.toPlatform j →
        AtSlot H s ((trapped p vs).after H.toPlatform j).cpu → 0 < stepped + j →
          StopsAsTrap H s ((trapped p vs).after H.toPlatform j).cpu := by
      intro j bound before at_ pos
      generalize hc : ((trapped p vs).after H.toPlatform j).cpu = c at at_
      by_cases trap : c.mem c.rip = some trapByte
      · exact stopsAsTrap_of_trap trap at_
      · by_cases plants : PlantsAt p.cpu.mem c.rip vs
        · exact overwritten j c ⟨bound, before, hc⟩ pos at_ plants trap
        · exact unplanted j c ⟨bound, before, hc⟩ pos at_ plants trap
    refine ⟨arrivals, fun j bound before stop => ?_⟩
    have pos : 0 < stepped + j := by
      by_contra start
      obtain ⟨rfl, rfl⟩ : stepped = 0 ∧ j = 0 := by omega
      exact first _ ⟨bound, before, rfl⟩ rfl stop
    have at_ : AtSlot H s ((trapped p vs).after H.toPlatform j).cpu := by
      by_cases trap : ((trapped p vs).after H.toPlatform j).cpu.mem
          ((trapped p vs).after H.toPlatform j).cpu.rip = some trapByte
      · exact (stopsBehind_of_trap trap).mp stop
      · by_contra elsewhere
        exact others j _ ⟨bound, before, rfl⟩ pos elsewhere trap stop
    exact ⟨pos, at_, (arrivals j bound before at_ pos).2⟩

theorem current_ptraceCont_of_tracee (hp : u.tracee = some p) :
    u.ptraceCont.current = some (.live .running p) := by
  rw [World.ptraceCont, hp, World.current_setChild]

variable (env) in
/-- The stops after a pass, said by its course. -/
theorem resumesExactly_iff_course (hp : u.tracee = some p) (heh : u.sdb.eh ≠ none) :
    ResumesExactly H env u ↔ (u.sdb.course H p).steps.length ≤ 1 ∧
      ∀ q, (u.sdb.course H p).tracee = some q → env.waits (.loop 0) →
        CleanResume H u.sdb (u.sdb.course H p).steps.length env.fuel q
          (u.sdb.course H p).visits := by
  have pass : FollowsCourse H (u.sdb.course H p) (passSteps H env u) (sdbPatchAllBp H env u) :=
    pass_follows hp (.inl heh)
  rw [ResumesExactly, pass.steps]
  refine and_congr_right fun _ => ⟨fun h q hq waits => ?_, fun h v r hv waits hc => ?_⟩
  · obtain ⟨tracee, -⟩ := pass.alive q hq
    have exact := h _ _ (Prod.ext rfl pass.returns) waits (current_ptraceCont_of_tracee tracee)
    rw [trapped_eq] at exact
    exact exactStops_iff.mp exact
  · rw [hv] at pass
    cases hq : (u.sdb.course H p).tracee with
    | none =>
        have gone := pass.dead hq
        rw [World.ptraceCont, World.tracee_of_not_live gone] at hc
        exact absurd hc (gone _ _)
    | some q =>
        obtain ⟨tracee, -⟩ := pass.alive q hq
        rw [current_ptraceCont_of_tracee tracee] at hc
        cases hc
        rw [trapped_eq]
        exact exactStops_iff.mpr (h q hq waits)

/-- The first of the slots at which the tracee stands. -/
theorem exists_first_standsAt (stands : ∃ i, StandsAt H s p i) :
    ∃ i, StandsAt H s p i ∧ ∀ j < i, ¬ StandsAt H s p j := by
  obtain ⟨i, here, first⟩ := WellFounded.has_min wellFounded_lt {i | StandsAt H s p i} stands
  exact ⟨i, here, fun j lt there => first j there lt⟩

theorem CleanTracee.of_away (away : ∀ i, ¬ StandsAt H s p i)
    (clean : env.waits (.loop 0) → CleanResume H s 0 env.fuel p (s.visits H p.cpu.ext slots)) :
    CleanTracee H env s p :=
  ⟨fun _ => clean, fun i past => absurd past.stands (away i),
    fun i past => absurd past.stands (away i)⟩

theorem CleanTracee.of_past (past : StepsOver H s p i)
    (once : ∀ k, ¬ StandsAgain H s (steppedOver H s p i) p.cpu.rip i k)
    (clean : env.waits (.loop 0) → CleanResume H s 1 env.fuel (steppedOver H s p i)
      ((i, p.cpu.rip) :: s.visits H (steppedOver H s p i).cpu.ext (slotsBehind i))) :
    CleanTracee H env s p := by
  refine ⟨fun none => absurd past.stands (none i), fun j past' => ?_, fun j past' => ?_⟩ <;>
    obtain rfl := past'.eq_first past.stands past.first
  · exact once
  · exact clean

variable (H env s p) in
/-- The condition said by the course, and by the slots at which the tracee stands. -/
theorem course_clean_iff : ((s.course H p).steps.length ≤ 1 ∧
      ∀ q, (s.course H p).tracee = some q → env.waits (.loop 0) →
        CleanResume H s (s.course H p).steps.length env.fuel q (s.course H p).visits) ↔
    CleanTracee H env s p := by
  by_cases away : ∀ i, ¬ StandsAt H s p i
  · rw [SDB.course_away away]
    refine ⟨fun h => .of_away away (h.2 p rfl),
      fun clean => ⟨Nat.zero_le 1, fun q hq waits => ?_⟩⟩
    cases hq
    exact clean.away away waits
  · obtain ⟨i, stands, first⟩ := exists_first_standsAt (not_forall_not.mp away)
    by_cases exits : ∃ status,
        H.halt (trapped p (s.visits H p.cpu.ext (slotsBelow i))).cpu = some (.exit status)
    · obtain ⟨status, exits⟩ := exits
      obtain ⟨one, gone⟩ := SDB.course_ended stands first exits
      have ended : ∀ j, ¬ StepsOver H s p j := by
        intro j past
        obtain rfl := past.eq_first stands first
        exact past.stays status exits
      rw [one, gone]
      refine iff_of_true ⟨le_rfl, fun q hq => ?_⟩ ⟨fun none => absurd none away,
        fun j past => absurd past (ended j), fun j past => absurd past (ended j)⟩
      cases hq
    · have past : StepsOver H s p i := ⟨stands, first, fun status here => exits ⟨status, here⟩⟩
      obtain ⟨words, d, course⟩ := SDB.course_past past
      have only : ∀ {rest : Course K}, (d :: rest.steps).length ≤ 1 ↔ rest.steps = [] := by
        intro rest
        rw [List.length_cons, Nat.succ_le_succ_iff, Nat.le_zero, List.length_eq_zero_iff]
      have rest : (∀ k, ¬ StandsAgain H s (steppedOver H s p i) p.cpu.rip i k) →
          courseFrom H s (slotsBehind i) words (steppedOver H s p i) [(i, p.cpu.rip)] =
            ⟨[], words, some (steppedOver H s p i), (i, p.cpu.rip) ::
              s.visits H (steppedOver H s p i).cpu.ext (slotsBehind i)⟩ :=
        fun once => courseFrom_of_steps_eq_nil (courseFrom_behind_steps_iff.mpr once)
      rw [course]
      simp only [only, courseFrom_behind_steps_iff]
      constructor
      · rintro ⟨once, clean⟩
        rw [rest once] at clean
        exact .of_past past once (clean _ rfl)
      · intro clean
        refine ⟨clean.once i past, fun q hq waits => ?_⟩
        rw [rest (clean.once i past)] at hq ⊢
        cases hq
        exact clean.past i past waits

/-- A pass does not get at a child that is not stopped. -/
theorem passInvariant_unstopped (H : Host K) (env : Env K) (u : World K) :
    PassInvariant H env (fun _ => True) (fun _ => True) (fun v => v.tracee = none ∧
      v.record = u.record ∧ ∀ q, v.current = some (.live .running q) ↔
        u.current = some (.live .running q)) where
  step v p i h _ hp _ _ _ := by
    rw [h.1] at hp
    cases hp
  collect v h none := by
    refine ⟨World.tracee_collect none, by rw [World.record_collect, h.2.1], fun q => ?_⟩
    rw [← h.2.2 q, World.collect]
    split
    · rename_i pending
      rw [World.tracee, pending] at none
      cases none
    · rename_i zombie
      rw [World.current_setChild, zombie]
      exact iff_of_false (fun live => by cases live) fun live => by cases live
    · exact Iff.rfl
  patch v p i a word h _ hp _ _ _ _ := by
    rw [h.1] at hp
    cases hp
  giveUp v i h _ _ := h

theorem patchFrom_running_returns (running : u.current = some (.live .running q))
    (heh : u.sdb.eh ≠ none) (is : List Slot) : (patchFrom H env is u).2 = none := by
  induction is with
  | nil => rfl
  | cons i is ih =>
      by_cases used : (u.sdb.breaks i).isUsed
      · obtain ⟨eh, heh⟩ := Option.ne_none_iff_exists'.mp heh
        have none : u.tracee = none := by rw [World.tracee, running]
        have gone : (stepOver H env i (u.sdb.slotAt H q.cpu.ext i) u).tracee = .none := by
          rcases stepOver_eq_of_none H env (i := i) (a := u.sdb.slotAt H q.cpu.ext i) none with
            he | he <;> rw [he]
          · exact none
          · exact World.tracee_collect none
        obtain ⟨v, ended, -⟩ := patchAt_ended rfl gone
        rw [patchFrom, patchSlot_of_used H env used (slotAddr_eq H env.uninit running heh i),
          ended]
      · have slot := patchSlot_of_unused H env used
        rw [patchFrom_cons H env (by rw [slot]), slot]
        exact ih

theorem resumesExactly_iff (hp : u.record = some p) (heh : u.sdb.eh ≠ none) :
    ResumesExactly H env u ↔ CleanRun H env u := by
  cases hq : u.tracee with
  | some q =>
      rw [resumesExactly_iff_course env hq heh, course_clean_iff]
      refine ⟨fun clean => ⟨fun r hr => ?_, fun r running => ?_⟩, fun clean => clean.stopped q hq⟩
      · rw [hq] at hr
        cases hr
        exact clean
      · rw [World.tracee, running] at hq
        cases hq
  | none =>
      obtain ⟨none, record, running⟩ := (passInvariant_unstopped H env u).sdbPatchAllBp
        ⟨hq, rfl, fun _ => Iff.rfl⟩ fun _ _ => trivial
      have steps : passSteps H env u = [] := by
        obtain ⟨r, hr, -, history⟩ := record_patchFrom H env slots hp
        rw [← sdbPatchAllBp, record, hp] at hr
        cases hr
        have executed := List.append_left_eq_self.mp history.symm
        rw [passSteps, List.reverse_eq_nil_iff.mp executed]
      have unmoved : (sdbPatchAllBp H env u).1.ptraceCont = (sdbPatchAllBp H env u).1 := by
        rw [World.ptraceCont, none]
      rw [ResumesExactly, steps, List.length_nil]
      constructor
      · rintro ⟨-, h⟩
        refine ⟨fun r hr => ?_, fun r there waits => ?_⟩
        · rw [hq] at hr
          cases hr
        · have returns : (sdbPatchAllBp H env u).2 = .none :=
            patchFrom_running_returns there heh slots
          have exact := h _ r (Prod.ext rfl returns) waits
            (by rw [unmoved]; exact (running r).mpr there)
          exact exactStops_iff.mp exact
      · intro clean
        refine ⟨Nat.zero_le 1, fun v r hv waits hc => ?_⟩
        rw [hv] at unmoved running
        rw [unmoved] at hc
        have exact := clean.running r ((running r).mp hc) waits
        exact exactStops_iff.mpr exact

theorem stepsFrom_noHandle (heh : u.sdb.eh = none) (is : List Slot) :
    stepsFrom H env is u = [] := by
  induction is with
  | nil => rfl
  | cons i is ih =>
      by_cases used : (u.sdb.breaks i).isUsed
      · have none : slotAddr H env.uninit u i = .error .nullHandle := by rw [slotAddr, heh]
        have fault : patchSlot H env i u = (u, .fault .nullHandle) := by
          rw [patchSlot, if_neg (not_not.mpr used), none]
        rw [stepsFrom, fault, slotSteps, if_neg (not_not.mpr used), none]
        rfl
      · rw [stepsFrom, patchSlot_of_unused H env used, slotSteps, if_pos used]
        exact ih

/-- Without a handle a used slot ends the call, and without one there is nothing to report. -/
theorem resumesExactly_of_noHandle (heh : u.sdb.eh = none) : ResumesExactly H env u := by
  refine ⟨?_, fun v q hv _ _ => ?_⟩
  · rw [passSteps, stepsFrom_noHandle heh]
    exact Nat.zero_le 1
  · have unused : ∀ i, (u.sdb.breaks i).isUsed = false :=
      (handle_of_pass hv).resolve_left (not_not.mpr heh)
    refine ⟨fun j _ _ at_ => ?_, fun j _ _ stop => ?_⟩
    · obtain ⟨i, used, -⟩ := at_
      rw [unused i] at used
      cases used
    · have none := stop.2
      rw [SDB.slotBehind_of_unused unused] at none
      cases none

/-- A call is exact exactly when its run is clean. -/
theorem contFrom_exact_iff {status : Nat} (hp : u.record = some p) :
    Exact H u p (contFrom H env status u) ↔ (u.sdb.eh ≠ none → CleanRun H env u) := by
  rw [contFrom_resumes_iff hp]
  by_cases heh : u.sdb.eh = none
  · exact iff_of_true (resumesExactly_of_noHandle heh) fun some => absurd heh some
  · rw [resumesExactly_iff hp heh, imp_iff_right heh]

/-- A program executes no instruction behind one that halts it. -/
theorem Executes.le {m n : Nat} {halt : Halt}
    (halts : H.halt (q.after H.toPlatform m).cpu = some halt) (here : Executes H fuel q n c) :
    n ≤ m := by
  by_contra beyond
  have going := here.before m (by omega)
  rw [halts] at going
  cases going

end

/-- `Exact` of `cont` or `run` at the prompt, for a tracee there is a record of. -/
def Event.ReportsExactly (H : Host K) (r : Result K) : Event K → Prop
  | .command cmd env => (∃ out, r.ending = .prompt out) → cmd.resumes → ∀ u p,
      cmd.passStart env r.world = some u → u.record = some p → Exact H u p (cmd.exec H env r.world)
  | .killed _ => True

/-- `CleanRun` of `cont` or `run` at the prompt. -/
def Event.CleanRun (H : Host K) (r : Result K) : Event K → Prop
  | .command cmd env => (∃ out, r.ending = .prompt out) → cmd.resumes → ∀ u p,
      cmd.passStart env r.world = some u → u.record = some p → u.sdb.eh ≠ none →
        Sdb.CleanRun H env u
  | .killed _ => True

variable (H) in
/-- The calls of a session report exactly the arrivals at used slots exactly when
each of them steps over one instruction at most and resumes a clean tracee. -/
theorem session_exact_iff (fresh : Slot → Bp) (events : List (Event K)) :
    Runs.AllSteps (step H) (fun r e => e.ReportsExactly H r) (created fresh) events ↔
      Runs.AllSteps (step H) (fun r e => e.CleanRun H r) (created fresh) events := by
  refine Runs.allSteps_congr (fun r e => ?_) _ _
  cases e with
  | killed pid => exact Iff.rfl
  | command cmd env =>
      refine forall₄_congr fun _ resumes u p => forall₂_congr fun hu hp => ?_
      rcases Cmd.exec_resumes H env resumes r.world with ⟨u', status, hu', he⟩ | ⟨none, -⟩
      · rw [hu'] at hu
        cases hu
        rw [he]
        exact contFrom_exact_iff hp
      · rw [none] at hu
        cases hu

namespace Fragment

/-- A breakpoint is hit, and the program goes on to its end. -/
def hitOnce : List (Event Maps) :=
  [.load "/bin/prog".toList, .break "0x400002".toList, .run, .cont].map (cmd exitingLater 64)

/-- `run` finds the tracee at the entry; two instructions later it gets to the trap. -/
theorem hitOnce_run {u : World Maps} {p : Proc Maps}
    (hu : Cmd.run.passStart (env ⟨7, seven_pos⟩ exitingLater 64)
      (session host fresh (hitOnce.take 2)).world = some u) (hp : u.tracee = some p) :
    CleanTracee host (env ⟨7, seven_pos⟩ exitingLater 64) u.sdb p := by
  cases hu
  cases hp
  refine .of_away (by decide) fun _ => ⟨?_, ?_, ?_, ?_⟩
  · intro n c here _ at_ unplanted _
    obtain rfl := here.here
    have upTo := here.le (m := 2) rfl
    interval_cases n
    · exact absurd at_ (by decide)
    · exact absurd at_ (by decide)
    · exact absurd (by decide) unplanted
  · intro n c here _ at_ _ missing
    obtain rfl := here.here
    have upTo := here.le (m := 2) rfl
    interval_cases n
    · exact absurd at_ (by decide)
    · exact absurd at_ (by decide)
    · exact absurd (by decide) missing
  · rintro n c here _ elsewhere _ ⟨⟨sig, halt⟩, -⟩
    obtain rfl := here.here
    have upTo := here.le (m := 2) rfl
    interval_cases n
    · cases halt
    · cases halt
    · exact elsewhere (by decide)
  · rintro c ⟨-, -, rfl⟩ _ ⟨⟨sig, halt⟩, -⟩
    cases halt

/-- `cont` steps over the breakpoint, and the next instruction ends the program. -/
theorem hitOnce_cont {u : World Maps} {p : Proc Maps}
    (hu : Cmd.cont.passStart (env ⟨7, seven_pos⟩ exitingLater 64)
      (session host fresh (hitOnce.take 3)).world = some u) (hp : u.tracee = some p) :
    CleanTracee host (env ⟨7, seven_pos⟩ exitingLater 64) u.sdb p := by
  cases hu
  cases hp
  refine .of_past (i := ⟨0, by decide⟩) ⟨by decide, by decide, fun status exits => ?_⟩
    (fun k again => ?_) fun _ => ⟨?_, ?_, ?_, ?_⟩
  · cases exits
  · have used := again.used
    have behind := again.behind
    clear again
    revert k
    decide
  · intro n c here _ at_ _ _
    obtain rfl := here.here
    obtain rfl := Nat.le_zero.mp (here.le (m := 0) rfl)
    exact absurd at_ (by decide)
  · intro n c here _ at_ _ _
    obtain rfl := here.here
    obtain rfl := Nat.le_zero.mp (here.le (m := 0) rfl)
    exact absurd at_ (by decide)
  · rintro n c here _ _ _ ⟨⟨sig, halt⟩, -⟩
    obtain rfl := here.here
    obtain rfl := Nat.le_zero.mp (here.le (m := 0) rfl)
    cases halt
  · intro c _ none
    cases none

theorem hitOnce_exact :
    Runs.AllSteps (step host) (fun r e => e.ReportsExactly host r) fresh hitOnce := by
  refine (session_exact_iff host _ hitOnce).mpr
    ⟨(fun _ no => nomatch no), (fun _ no => nomatch no), fun _ _ u p hu _ _ => ?_,
      fun _ _ u p hu _ _ => ?_, trivial⟩
  · refine ⟨fun p => hitOnce_run hu, fun p running => ?_⟩
    cases hu
    cases running
  · refine ⟨fun p => hitOnce_cont hu, fun p running => ?_⟩
    cases hu
    cases running

/-- Breakpoints at the entry and the instruction after it. -/
def consecutive : List (Event Maps) :=
  [.load "/bin/prog".toList, .break "0x400000".toList, .break "0x400001".toList].map
    (cmd exitingLater 64)

/-- `run` steps over both of them, and the program gets to its end unreported. -/
theorem consecutive_passed :
    (session host fresh (consecutive ++ [.run].map (cmd exitingLater 64))).ending =
        .prompt (.ended 7 0) ∧
      ¬ (cmd exitingLater 64 .run).ReportsExactly host (session host fresh consecutive) := by
  refine ⟨rfl, fun exact => ?_⟩
  obtain ⟨c, q, ds, hc, hq, history, reported, -⟩ := exact ⟨_, rfl⟩ rfl _ _ rfl rfl
  cases hc
  cases hq
  have rips : ds.reverse.map Cpu.rip = [0x400003, 0x400002, 0x400001, 0x400000] :=
    (congrArg (List.map Cpu.rip) (history.trans (List.append_nil _))).symm
  rw [List.map_reverse, List.reverse_eq_iff] at rips
  have second : ds[1]?.map Cpu.rip = some 0x400001 := by
    rw [← List.getElem?_map, rips]
    rfl
  obtain ⟨d, hd, rip⟩ := Option.map_eq_some_iff.mp second
  have one : 1 < maxBreak := by decide
  have report := (reported.complete 1 d le_rfl hd ⟨⟨1, one⟩, rfl, rip.symm⟩).2
  cases report

end Fragment

end Sdb
