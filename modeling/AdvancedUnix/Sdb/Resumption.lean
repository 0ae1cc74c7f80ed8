import AdvancedUnix.Sdb.Standing

/-!
# What a resumption reports

A call of `sdb_cont` or `sdb_run` makes the tracee execute instructions: those
that its pass steps over, then those after the resumption. `Reported` says what
its report has to do with them: the call ends with a report as soon as the
tracee gets to the address of a used slot, the first instruction apart, and it
reports nothing else. With what the pass leaves, that is a matter of where the
resumed tracee stops.
-/

namespace Sdb

open Memory Traced

variable {K : Type}

/-- The instruction at `c` is at the run-time address of a used slot. -/
def AtSlot (H : Host K) (s : SDB) (c : Cpu K) : Prop :=
  ∃ i, (s.breaks i).isUsed ∧ s.slotAt H c.ext i = c.rip

instance (H : Host K) (s : SDB) (c : Cpu K) : Decidable (AtSlot H s c) :=
  inferInstanceAs (Decidable (∃ i, (s.breaks i).isUsed ∧ s.slotAt H c.ext i = c.rip))

/-- The address of the breakpoint that the command reports. -/
def Result.reported (r : Result K) : Option Addr :=
  match r.ending with
  | .prompt (.breakpoint _ vaddr _) => some vaddr
  | _ => none

/-- Of the instructions `ds` those at a used slot, the first one apart, come last and
are reported; and what is reported is such an instruction. -/
structure Reported (H : Host K) (s : SDB) (ds : List (Cpu K)) (report : Option Addr) : Prop where
  complete : ∀ n d, 1 ≤ n → ds[n]? = some d → AtSlot H s d →
    n + 1 = ds.length ∧ report = some d.rip
  sound : ∀ vaddr, report = some vaddr →
    2 ≤ ds.length ∧ ∃ d, ds.getLast? = some d ∧ AtSlot H s d ∧ d.rip = vaddr

/-- The call that began in `u` with the tracee `p` and ended with `r` has reported
exactly the arrivals at used slots; a tracee that is reported stands there. -/
def Exact (H : Host K) (u : World K) (p : Proc K) (r : Result K) : Prop :=
  ∃ c q ds, r.world.child u.sdb.pid = some c ∧ c.record = some q ∧
    q.history = ds.reverse ++ p.history ∧ Reported H u.sdb ds r.reported ∧
    ∀ vaddr, r.reported = some vaddr → c = .live .stopped q ∧ q.cpu.rip = vaddr

section Lists

variable {H : Host K} {s : SDB}

/-- With steps over used slots in front, at most one of them is allowed; the rest is
about the instructions after them. -/
theorem reported_append_iff {steps : List (Cpu K)} (atSlot : ∀ c ∈ steps, AtSlot H s c)
    (m : Nat) (d : Nat → Cpu K) (report : Option Addr) (executed : report.isSome → 0 < m) :
    Reported H s (steps ++ (List.range m).map d) report ↔ steps.length ≤ 1 ∧
      (∀ j < m, AtSlot H s (d j) → 0 < steps.length + j → j + 1 = m ∧ report = some (d j).rip) ∧
      ∀ vaddr, report = some vaddr →
        2 ≤ steps.length + m ∧ AtSlot H s (d (m - 1)) ∧ (d (m - 1)).rip = vaddr := by
  have length : (steps ++ (List.range m).map d).length = steps.length + m := by simp
  have last : 0 < m → (steps ++ (List.range m).map d).getLast? = some (d (m - 1)) := by
    intro pos
    obtain ⟨k, rfl⟩ := Nat.exists_eq_succ_of_ne_zero pos.ne'
    simp [List.range_succ, ← List.append_assoc]
  have later : ∀ j < m, (steps ++ (List.range m).map d)[steps.length + j]? = some (d j) := by
    intro j hj
    rw [List.getElem?_append_right (Nat.le_add_right _ _)]
    simp [hj]
  constructor
  · rintro ⟨complete, sound⟩
    refine ⟨?_, fun j hj at_ pos => ?_, fun vaddr hv => ?_⟩
    · by_contra many
      have second : (steps ++ (List.range m).map d)[1]? = some steps[1] := by
        rw [List.getElem?_append_left (by omega), List.getElem?_eq_getElem]
      obtain ⟨len, report⟩ := complete 1 _ le_rfl second (atSlot _ (List.getElem_mem _))
      have pos := executed (by rw [report]; rfl)
      omega
    · obtain ⟨len, report⟩ := complete _ _ pos (later j hj) at_
      exact ⟨by omega, report⟩
    · obtain ⟨two, c, hc, at_, rip⟩ := sound vaddr hv
      rw [last (executed (by rw [hv]; rfl))] at hc
      cases hc
      exact ⟨length ▸ two, at_, rip⟩
  · rintro ⟨one, complete, sound⟩
    refine ⟨fun n c pos hc at_ => ?_, fun vaddr hv => ?_⟩
    · have beyond : steps.length ≤ n := by omega
      obtain ⟨j, rfl⟩ := Nat.exists_eq_add_of_le beyond
      have hj : j < m := by
        have := (List.getElem?_eq_some_iff.mp hc).1
        omega
      rw [later j hj] at hc
      cases hc
      obtain ⟨len, report⟩ := complete j hj at_ pos
      exact ⟨by omega, report⟩
    · obtain ⟨two, at_, rip⟩ := sound vaddr hv
      exact ⟨length ▸ two, _, last (executed (by rw [hv]; rfl)), at_, rip⟩

end Lists

variable {H : Host K} {env : Env K} {u w : World K} {p q : Proc K}

theorem AtSlot.sameTable {s t : SDB} (same : s.SameTable t) {c : Cpu K} :
    AtSlot H t c ↔ AtSlot H s c := by
  simp only [AtSlot, same.isUsed, same.slotAt]

/-- A pass steps over instructions at used slots. -/
theorem stepsFrom_atSlot {is : List Slot} {c : Cpu K} (hc : c ∈ stepsFrom H env is w) :
    AtSlot H w.sdb c := by
  induction is generalizing w with
  | nil => cases hc
  | cons i is ih =>
      rw [stepsFrom, List.mem_append] at hc
      rcases hc with here | rest
      · unfold slotSteps at here
        split at here
        · cases here
        · rename_i used
          split at here
          · rename_i a r ha hr
            split at here
            · rename_i rip
              cases List.mem_singleton.mp here
              exact ⟨i, not_not.mp used, (slotAddr_ok hr ha).symm.trans rip.symm⟩
            · cases here
          · cases here
      · have same : w.sdb.SameTable (patchSlot H env i w).1.sdb :=
          (passInvariant_sameTable (S := fun _ => True) w.sdb).patchSlot (.refl _) trivial
            fun _ _ => trivial
        split at rest
        · rename_i v hres
          rw [hres] at same
          exact (AtSlot.sameTable same).mp (ih rest)
        · cases rest

/-- The instruction stops the tracee one past the address of a used slot. -/
def StopsBehind (H : Host K) (s : SDB) (c : Cpu K) : Prop :=
  (∃ sig, H.halt c = some (.signal sig)) ∧
    (s.slotBehind H (H.next c).ext (H.next c).rip).isSome

theorem StopsBehind.sameTable {s t : SDB} (same : s.SameTable t) {c : Cpu K} :
    StopsBehind H t c ↔ StopsBehind H s c := by
  simp only [StopsBehind, SDB.slotBehind, same.isUsed, same.slotAt]

/-- The instruction stops the tracee as a trap at a used slot does. -/
def StopsAsTrap (H : Host K) (s : SDB) (c : Cpu K) : Prop :=
  StopsBehind H s c ∧ (H.next c).rip = c.rip + 1

/-- Of the tracee that is resumed as `q` after `stepped` steps of the pass, the stops one past
a used slot are the arrivals at used slots, its very first instruction apart. -/
structure ExactStops (H : Host K) (s : SDB) (stepped fuel : Nat) (q : Proc K) : Prop where
  arrivals : ∀ j < fuel, q.Unhalted H.toPlatform j → AtSlot H s (q.after H.toPlatform j).cpu →
    0 < stepped + j → StopsAsTrap H s (q.after H.toPlatform j).cpu
  stops : ∀ j < fuel, q.Unhalted H.toPlatform j →
    StopsBehind H s (q.after H.toPlatform j).cpu → 0 < stepped + j ∧
      AtSlot H s (q.after H.toPlatform j).cpu ∧
      (H.next (q.after H.toPlatform j).cpu).rip = (q.after H.toPlatform j).cpu.rip + 1

/-- The pass makes one step at most, and the stops of the tracee that it leaves are exact. -/
def ResumesExactly (H : Host K) (env : Env K) (u : World K) : Prop :=
  (passSteps H env u).length ≤ 1 ∧ ∀ v q, sdbPatchAllBp H env u = (v, none) →
    env.waits (.loop 0) → v.ptraceCont.current = some (.live .running q) →
      ExactStops H u.sdb (passSteps H env u).length env.fuel q

/-- What a call has to do with the `m` instructions that a resumed tracee executed in it. -/
structure Resumption (H : Host K) (env : Env K) (w : World K) (q : Proc K) (r : Result K)
    (m : Nat) : Prop where
  record : ∃ c q', r.world.child w.sdb.pid = some c ∧ c.record = some q' ∧
    q'.history = (q.dispatched H.toPlatform m).reverse ++ q.history ∧
    ∀ vaddr, r.reported = some vaddr → c = .live .stopped q' ∧ q'.cpu.rip = vaddr
  executed : ∀ j, j < m ↔ j < env.fuel ∧ q.Unhalted H.toPlatform j
  reported : ∀ vaddr, r.reported = some vaddr ↔ 0 < m ∧
    StopsBehind H w.sdb (q.after H.toPlatform (m - 1)).cpu ∧
      vaddr = (H.next (q.after H.toPlatform (m - 1)).cpu).rip - 1

/-- With no slot in use nothing is behind any address. -/
theorem SDB.slotBehind_of_unused {s : SDB} (unused : ∀ i, (s.breaks i).isUsed = false) (ext : K)
    (rip : Addr) : s.slotBehind H ext rip = none := by
  refine SDB.slotBehind_eq_none.mpr fun i used => ?_
  rw [unused i] at used
  cases used

/-- A tracee that halts within the bound has executed what is before the halt, and
the instruction that halts it. -/
theorem executed_of_halt {fuel j : Nat} {halt : Halt} (hj : j < fuel)
    (before : q.Unhalted H.toPlatform j) (halts : H.halt (q.after H.toPlatform j).cpu = some halt)
    (i : Nat) : i < j + 1 ↔ i < fuel ∧ q.Unhalted H.toPlatform i := by
  constructor
  · intro hi
    exact ⟨by omega, before.mono (Nat.lt_succ_iff.mp hi)⟩
  · rintro ⟨-, unhalted⟩
    by_contra beyond
    have going := unhalted j (by omega)
    rw [halts] at going
    cases going

theorem waitLoop_resumption (status : Nat) (first : env.waits (.loop 0))
    (hc : w.current = some (.live .running q))
    (handle : w.sdb.eh ≠ none ∨ ∀ i, (w.sdb.breaks i).isUsed = false) :
    ∃ m, Resumption H env w q (waitLoop H env 3 0 status w) m := by
  have wait : waitpid H.toPlatform (env.waits (.loop 0)) env.fuel w = _ :=
    waitpid_of_running first hc
  rcases Proc.resume_cases H.toPlatform env.fuel q with
    ⟨unhalted, res⟩ | ⟨j, halt, hj, before, halts, res⟩
  · rw [res] at wait
    refine ⟨env.fuel, ?_⟩
    rw [waitLoop, wait]
    refine ⟨⟨_, _, World.setChild_child _ _, rfl, Proc.after_history _ _ _,
        fun vaddr hv => by cases hv⟩,
      fun j => ⟨fun hj => ⟨hj, unhalted.mono hj.le⟩, fun h => h.1⟩,
      fun vaddr => iff_of_false (fun hv => by cases hv) ?_⟩
    rintro ⟨pos, ⟨⟨sig, halt⟩, -⟩, -⟩
    rw [unhalted (env.fuel - 1) (by omega)] at halt
    cases halt
  · have history := Proc.after_history H.toPlatform (j + 1) q
    have executed := executed_of_halt hj before halts
    have next : (q.after H.toPlatform (j + 1)).cpu = H.next (q.after H.toPlatform j).cpu := by
      rw [Proc.after_succ', Proc.advance_cpu]
    generalize hq' : q.after H.toPlatform (j + 1) = q' at res history next
    rw [res] at wait
    refine ⟨j + 1, ?_⟩
    cases halt with
    | exit st =>
        have ended : waitLoop H env 3 0 status w =
            childEnded st (w.setChild (.reaped (some q'))) := by
          rw [waitLoop, wait]
          simp only
          rw [waitLoop, waitpid_of_reaped (World.current_setChild _ _)]
        rw [ended]
        refine ⟨⟨_, q', World.setChild_child _ _, rfl, history, fun vaddr hv => by cases hv⟩,
          executed,
          fun vaddr => iff_of_false (fun hv => by cases hv) ?_⟩
        rintro ⟨-, ⟨⟨sig, halt⟩, -⟩, -⟩
        rw [Nat.add_sub_cancel, halts] at halt
        cases halt
    | signal sig =>
        have stopped := World.current_setChild w (.live .stopped q')
        -- what the loop over the slots makes of the stop
        have silent : ∀ {r : Result K}, r.world.child w.sdb.pid = some (.live .stopped q') →
            r.reported = none → w.sdb.slotBehind H q'.cpu.ext q'.cpu.rip = none →
            Resumption H env w q r (j + 1) := by
          intro r child none behind
          refine ⟨⟨_, q', child, rfl, history, fun vaddr hv => ?_⟩, executed,
            fun vaddr => iff_of_false (fun hv => ?_) ?_⟩
          · rw [none] at hv
            cases hv
          · rw [none] at hv
            cases hv
          · rintro ⟨-, ⟨-, some⟩, -⟩
            rw [Nat.add_sub_cancel, ← next, behind] at some
            cases some
        cases heh : w.sdb.eh with
        | none =>
            have unused := handle.resolve_left (not_not.mpr heh)
            have ended : waitLoop H env 3 0 status w =
                ⟨w.setChild (.live .stopped q'), .fault .nullHandle⟩ := by
              have gone : (w.setChild (.live .stopped q')).sdb.eh = none := heh
              rw [waitLoop, wait]
              simp only
              rw [matchSlot_of_noHandle H env.uninit gone]
            rw [ended]
            exact silent (World.setChild_child _ _) rfl (SDB.slotBehind_of_unused unused _ _)
        | some eh =>
            rw [waitLoop_of_stop wait stopped heh, World.setChild_sdb]
            cases behind : w.sdb.slotBehind H q'.cpu.ext q'.cpu.rip with
            | none =>
                simp only
                split
                · exact silent (World.setChild_child _ _) rfl behind
                · exact silent (World.setChild_child _ _) rfl behind
            | some i =>
                simp only
                obtain ⟨m, he, -⟩ := reportBp_world stopped i (q'.cpu.rip - 1)
                have reported : (reportBp (w.setChild (.live .stopped q')) i (q'.cpu.rip - 1)
                    q'.cpu.regs).reported = some (q'.cpu.rip - 1) := rfl
                refine ⟨?_, executed, fun vaddr => ?_⟩
                · rw [he, World.setTracee, stopped]
                  refine ⟨_, _, World.setChild_child _ _, rfl, history, fun vaddr hv => ?_⟩
                  rw [reported] at hv
                  cases hv
                  exact ⟨rfl, rfl⟩
                · rw [reported, Option.some.injEq, Nat.add_sub_cancel, ← next]
                  refine ⟨fun hv => ⟨Nat.succ_pos j, ⟨⟨sig, halts⟩, ?_⟩, hv.symm⟩,
                    fun h => h.2.2.symm⟩
                  rw [← next, behind]
                  rfl

/-- Without a running tracee, or with a `waitpid` that fails, nothing is executed
and nothing reported. -/
theorem waitLoop_idle (status : Nat) {v : World K} (hr : v.record = some q)
    (idle : ¬ (env.waits (.loop 0) ∧ ∃ q, v.ptraceCont.current = some (.live .running q))) :
    (∃ c, (waitLoop H env 3 0 status v.ptraceCont).world.child v.sdb.pid = some c ∧
        c.record = some q) ∧ (waitLoop H env 3 0 status v.ptraceCont).reported = none := by
  have pid : v.ptraceCont.sdb.pid = v.sdb.pid := by rw [World.ptraceCont_sdb]
  have record : ∃ c, v.ptraceCont.current = some c ∧ c.record = some q := by
    rw [← World.record_ptraceCont] at hr
    exact Option.bind_eq_some_iff.mp hr
  obtain ⟨c, hc, hq⟩ := record
  have child : v.ptraceCont.child v.sdb.pid = some c := by rw [← pid]; exact hc
  have noStop : ∀ sig v', waitpid H.toPlatform (env.waits (.loop 0)) env.fuel v.ptraceCont ≠
      .stopped sig v' := by
    intro sig v' wait
    obtain ⟨r, -, pending | ⟨r, hr, -⟩⟩ := waitpid_stopped wait
    · cases World.ptraceCont_current pending
    · exact idle ⟨waitpid_delivered (by rw [wait]; nofun), r, hr⟩
  have outcome := waited H env status v.ptraceCont
  generalize waitLoop H env 3 0 status v.ptraceCont = r at outcome ⊢
  cases outcome with
  | failed wait => exact ⟨⟨c, child, hq⟩, rfl⟩
  | blocked wait => exact ⟨⟨c, child, hq⟩, rfl⟩
  | busy wait =>
      obtain ⟨r, hr, -⟩ := waitpid_busy wait
      exact absurd ⟨waitpid_delivered (by rw [wait]; nofun), r, hr⟩ idle
  | exited wait =>
      obtain ⟨r, rfl, zombie | ⟨r, -, -, hr, -⟩⟩ := waitpid_exited wait
      · rw [hc] at zombie
        cases zombie
        exact ⟨⟨.reaped r, by rw [← pid]; exact World.setChild_child _ _, hq⟩, rfl⟩
      · exact absurd ⟨waitpid_delivered (by rw [wait]; nofun), r, hr⟩ idle
  | fault wait stopped noMatch => exact absurd wait (noStop _ _)
  | hit wait stopped found => exact absurd wait (noStop _ _)
  | again wait stopped noSlot ok => exact absurd wait (noStop _ _)
  | dropped wait stopped noSlot ok => exact absurd wait (noStop _ _)

/-- Exactly the arrivals are reported of a resumption whose stops are exact. -/
theorem Resumption.exact_iff {r : Result K} {m : Nat} (res : Resumption H env w q r m)
    (stepped : Nat) :
    ((∀ j < m, AtSlot H w.sdb (q.after H.toPlatform j).cpu → 0 < stepped + j →
        j + 1 = m ∧ r.reported = some (q.after H.toPlatform j).cpu.rip) ∧
      ∀ vaddr, r.reported = some vaddr → 2 ≤ stepped + m ∧
        AtSlot H w.sdb (q.after H.toPlatform (m - 1)).cpu ∧
          (q.after H.toPlatform (m - 1)).cpu.rip = vaddr) ↔
      ExactStops H w.sdb stepped env.fuel q := by
  -- a stop is the last thing that happens
  have last : ∀ {j}, j < m → StopsBehind H w.sdb (q.after H.toPlatform j).cpu → m = j + 1 := by
    rintro j hj ⟨⟨sig, halts⟩, -⟩
    by_contra other
    have unhalted := ((res.executed (j + 1)).mp (by omega)).2
    rw [unhalted j (Nat.lt_succ_self j)] at halts
    cases halts
  constructor
  · rintro ⟨complete, sound⟩
    refine ⟨fun j hj unhalted at_ pos => ?_, fun j hj unhalted stop => ?_⟩
    · obtain ⟨rfl, report⟩ := complete j ((res.executed j).mpr ⟨hj, unhalted⟩) at_ pos
      obtain ⟨-, stop, rip⟩ := (res.reported _).mp report
      exact ⟨stop, (eq_sub_iff_add_eq.mp rip).symm⟩
    · obtain rfl := last ((res.executed j).mpr ⟨hj, unhalted⟩) stop
      obtain ⟨two, at_, rip⟩ := sound _ ((res.reported _).mpr ⟨Nat.succ_pos j, stop, rfl⟩)
      exact ⟨by omega, at_, (eq_sub_iff_add_eq.mp rip).symm⟩
  · rintro ⟨arrivals, stops⟩
    refine ⟨fun j hj at_ pos => ?_, fun vaddr report => ?_⟩
    · obtain ⟨bound, unhalted⟩ := (res.executed j).mp hj
      obtain ⟨stop, rip⟩ := arrivals j bound unhalted at_ pos
      obtain rfl := last hj stop
      exact ⟨rfl, (res.reported _).mpr ⟨Nat.succ_pos j, stop, eq_sub_iff_add_eq.mpr rip.symm⟩⟩
    · obtain ⟨pos, stop, hv⟩ := (res.reported vaddr).mp report
      obtain ⟨bound, unhalted⟩ := (res.executed (m - 1)).mp (by omega)
      obtain ⟨later, at_, rip⟩ := stops (m - 1) bound unhalted stop
      exact ⟨by omega, at_, (eq_sub_iff_add_eq.mpr rip.symm).trans hv.symm⟩

theorem ExactStops.congr {s t : SDB} {stepped fuel : Nat}
    (at_ : ∀ c, AtSlot H s c ↔ AtSlot H t c) (stops : ∀ c, StopsBehind H s c ↔ StopsBehind H t c)
    (h : ExactStops H s stepped fuel q) : ExactStops H t stepped fuel q := by
  refine ⟨fun j hj unhalted arrives pos => ?_, fun j hj unhalted stop => ?_⟩
  · obtain ⟨stop, rip⟩ := h.arrivals j hj unhalted ((at_ _).mpr arrives) pos
    exact ⟨(stops _).mp stop, rip⟩
  · obtain ⟨pos, arrives, rip⟩ := h.stops j hj unhalted ((stops _).mpr stop)
    exact ⟨pos, (at_ _).mp arrives, rip⟩

theorem ExactStops.sameTable {s t : SDB} (same : s.SameTable t) {stepped fuel : Nat} :
    ExactStops H t stepped fuel q ↔ ExactStops H s stepped fuel q :=
  ⟨.congr (fun _ => AtSlot.sameTable same) fun _ => StopsBehind.sameTable same,
    .congr (fun _ => (AtSlot.sameTable same).symm) fun _ => (StopsBehind.sameTable same).symm⟩

/-- The history determines what was executed during the call. -/
theorem exact_iff {r : Result K} {c : Child K} {q : Proc K} {ds : List (Cpu K)}
    (hc : r.world.child u.sdb.pid = some c) (hq : c.record = some q)
    (history : q.history = ds.reverse ++ p.history)
    (stands : ∀ vaddr, r.reported = some vaddr → c = .live .stopped q ∧ q.cpu.rip = vaddr) :
    Exact H u p r ↔ Reported H u.sdb ds r.reported := by
  constructor
  · rintro ⟨c', q', ds', hc', hq', history', reported, -⟩
    rw [hc] at hc'
    cases hc'
    rw [hq] at hq'
    cases hq'
    rw [history] at history'
    have same := List.reverse_injective (List.append_cancel_right history')
    rwa [same]
  · intro reported
    exact ⟨c, q, ds, hc, hq, history, reported, stands⟩

/-- A pass that returns has the handle that it needs. -/
theorem handle_of_pass {v : World K} (hpass : sdbPatchAllBp H env u = (v, none)) :
    u.sdb.eh ≠ none ∨ ∀ i, (u.sdb.breaks i).isUsed = false := by
  by_contra lacks
  simp only [not_or, not_not, not_forall, Bool.not_eq_false] at lacks
  obtain ⟨noHandle, i, used⟩ := lacks
  have fault : (patchFrom H env slots u).2 = some .nullHandle :=
    patchFrom_noHandle noHandle ⟨i, mem_slots i, used⟩
  rw [← sdbPatchAllBp, hpass] at fault
  cases fault

/-- A call is exact exactly when the stops after its pass are. -/
theorem contFrom_resumes_iff {status : Nat} (hp : u.record = some p) :
    Exact H u p (contFrom H env status u) ↔ ResumesExactly H env u := by
  obtain ⟨q, hq, -, history⟩ := record_patchFrom H env slots hp
  have pid := pass_pid H env u
  have atSlot : ∀ c ∈ passSteps H env u, AtSlot H u.sdb c := fun c hc => stepsFrom_atSlot hc
  rw [← sdbPatchAllBp] at hq
  rw [← passSteps] at history
  -- nothing executed after the pass, and nothing reported
  have quiet : ∀ {r : Result K}, (∃ c, r.world.child u.sdb.pid = some c ∧ c.record = some q) →
      r.reported = none → (Exact H u p r ↔ (passSteps H env u).length ≤ 1) := by
    rintro r ⟨c, hc, hq⟩ nothing
    rw [exact_iff hc hq history (by rw [nothing]; exact fun v hv => by cases hv), nothing]
    simpa using reported_append_iff atSlot 0 (fun _ => p.cpu) none fun some => by cases some
  unfold contFrom ResumesExactly
  cases hpass : sdbPatchAllBp H env u with
  | mk v fault =>
      rw [hpass] at hq pid
      simp only at hq pid
      cases fault with
      | some f =>
          have child : ∃ c, v.child u.sdb.pid = some c ∧ c.record = some q := by
            rw [← pid]
            exact Option.bind_eq_some_iff.mp hq
          rw [quiet (r := ⟨v, .fault f⟩) child rfl]
          refine ⟨fun one => ⟨one, fun v' q' hv => ?_⟩, fun h => h.1⟩
          cases hv
      | none =>
          simp only
          have table : u.sdb.SameTable (sdbPatchAllBp H env u).1.sdb :=
            (passInvariant_sameTable u.sdb).sdbPatchAllBp (.refl _) fun _ _ => trivial
          rw [hpass] at table
          simp only at table
          by_cases resumes : env.waits (.loop 0) = true ∧
              ∃ q, v.ptraceCont.current = some (.live .running q)
          · obtain ⟨first, q', hc⟩ := resumes
            have same : q' = q := by
              rw [← World.record_ptraceCont, World.record, hc] at hq
              exact Option.some.inj hq
            subst same
            have handle : v.ptraceCont.sdb.eh ≠ none ∨
                ∀ i, (v.ptraceCont.sdb.breaks i).isUsed = false := by
              rw [World.ptraceCont_sdb, table.eh]
              simp only [table.isUsed]
              exact handle_of_pass hpass
            obtain ⟨m, res⟩ : ∃ m, Resumption H env v.ptraceCont q'
                (waitLoop H env 3 0 status v.ptraceCont) m :=
              waitLoop_resumption status first hc handle
            obtain ⟨c, q, child, record, executed, stands⟩ := res.record
            have stops := res.exact_iff (passSteps H env u).length
            rw [World.ptraceCont_sdb] at child stops
            rw [history, ← List.append_assoc, ← List.reverse_append] at executed
            simp only [AtSlot.sameTable table, ExactStops.sameTable table] at stops
            rw [exact_iff (pid ▸ child) record executed stands, Proc.dispatched,
              reported_append_iff atSlot m _ _ fun some => ?_, stops]
            · refine and_congr_right fun _ =>
                ⟨fun h v' q' hv _ hc' => ?_, fun h => h v q' rfl first hc⟩
              cases hv
              rw [hc] at hc'
              cases hc'
              exact h
            · obtain ⟨vaddr, hv⟩ := Option.isSome_iff_exists.mp some
              exact ((res.reported vaddr).mp hv).1
          · obtain ⟨child, nothing⟩ := waitLoop_idle status hq resumes
            rw [pid] at child
            rw [quiet child nothing]
            refine ⟨fun one => ⟨one, fun v' q' hv first hc => ?_⟩, fun h => h.1⟩
            cases hv
            exact absurd ⟨first, q', hc⟩ resumes

end Sdb
