import AdvancedUnix.Sdb.Loaded
import AdvancedUnix.Sdb.Standing

/-!
# The two ways to run

From a running tracee `run` is `cont`. With nothing running, `start` and `cont`
make the pass twice where `run` makes it once, so they agree exactly when the
second pass has nothing left to do: `Settled` says so slot by slot, about the
tracee that `start` leaves.
-/

namespace Sdb

open Memory Traced

variable {K : Type}

/-- A pass that gets to the slot finds nothing to do: the tracee stands elsewhere,
and the trap is in place or the word has been found unreadable before. -/
structure SettledSlot (H : Host K) (s : SDB) (p : Proc K) (i : Slot) : Prop where
  away : s.slotAt H p.cpu.ext i ≠ p.cpu.rip
  trapped : Mapped p.cpu.mem (s.slotAt H p.cpu.ext i) →
    p.cpu.mem (s.slotAt H p.cpu.ext i) = some trapByte
  unreadable : ¬ Mapped p.cpu.mem (s.slotAt H p.cpu.ext i) → (s.breaks i).originalWord = -1

/-- A pass has the handle that it needs, and every used slot that it gets to is
settled. -/
def Settled (H : Host K) (s : SDB) (p : Proc K) : Prop :=
  (s.eh ≠ none ∨ ∀ i, (s.breaks i).isUsed = false) ∧
    ∀ i, Reached H s p slots i → (s.breaks i).isUsed → SettledSlot H s p i

variable {H : Host K} {env : Env K} {w v : World K} {p : Proc K}

/-- A trap that is in place stays there while a pass executes nothing. -/
theorem trapped_of_quiet {is : List Slot} {a : Addr} (hp : w.tracee = some p)
    (trap : p.cpu.mem a = some trapByte) (quiet : stepsFrom H env is w = []) :
    ∃ m, (patchFrom H env is w).1.tracee = some (p.setMem m) ∧ m a = some trapByte := by
  have inv : PassInvariant H env (fun _ => True) (fun _ => False)
      (fun v => ∃ m, v.tracee = some (p.setMem m) ∧ m a = some trapByte) := by
    refine ⟨fun _ _ _ _ _ _ _ _ none => none.elim, ?_, ?_, fun v i h _ _ => h⟩
    · rintro v ⟨m, hm, -⟩ none
      rw [hm] at none
      cases none
    · rintro v q i b word ⟨m, hm, hma⟩ - hq - - - -
      rw [hm] at hq
      cases hq
      refine ⟨_, World.tracee_setTracee (w := v.setBreak i
        { (v.sdb.breaks i) with originalWord := word }) hm _, ?_⟩
      by_cases hab : a = b
      · subst hab
        exact Function.update_self _ _ _
      · rw [Function.update_of_ne hab]
        exact hma
  refine inv.patchFrom ⟨p.cpu.mem, hp, trap⟩ (fun _ _ => trivial) fun c hc => ?_
  rw [quiet] at hc
  cases hc

/-- A pass that changes nothing has executed nothing. -/
theorem quiet_of_eq_self {is : List Slot} (hp : w.tracee = some p)
    (self : patchFrom H env is w = (w, none)) : stepsFrom H env is w = [] := by
  obtain ⟨q, hq, -, history⟩ := record_patchFrom H env is (World.record_of_tracee hp)
  rw [self, World.record_of_tracee hp] at hq
  cases hq
  simpa using history

variable (env) in
theorem patchFrom_eq_self_iff {is : List Slot} (sorted : is.Pairwise (· < ·))
    (hp : w.tracee = some p) {eh : Elf.Handle} (heh : w.sdb.eh = some eh) :
    patchFrom H env is w = (w, none) ↔ ∀ i ∈ is, Reached H w.sdb p is i →
      (w.sdb.breaks i).isUsed → SettledSlot H w.sdb p i := by
  induction is with
  | nil => simp [patchFrom]
  | cons i is ih =>
      obtain ⟨first, sorted⟩ := List.pairwise_cons.mp sorted
      rw [forall_reached_cons first]
      by_cases used : (w.sdb.breaks i).isUsed
      · by_cases at_ : w.sdb.slotAt H p.cpu.ext i = p.cpu.rip
        · refine iff_of_false (fun self => ?_) fun h => (h.1 used).away at_
          have quiet := quiet_of_eq_self hp self
          obtain ⟨state, hc⟩ := World.tracee_live hp
          rw [stepsFrom, slotSteps_of_used H env used (slotAddr_eq H env.uninit hc heh i) hp,
            if_pos at_.symm] at quiet
          cases quiet
        · have slot := (patchSlot_away env hp heh used at_).2
          cases hread : readWord p.cpu.mem (w.sdb.slotAt H p.cpu.ext i) with
          | none =>
              have unmapped := readWord_eq_none.mp hread
              rw [hread] at slot
              have left : patchFrom H env (i :: is) w =
                  (w.setBreak i { w.sdb.breaks i with originalWord := -1 }, none) := by
                rw [patchFrom, slot]
              rw [left]
              constructor
              · intro self
                refine ⟨fun _ => ⟨at_, fun mapped => absurd mapped unmapped, fun _ => ?_⟩,
                  fun mapped => absurd (mapped used) unmapped⟩
                have := congrArg (fun r => (r.1.sdb.breaks i).originalWord) self
                simpa using this.symm
              · rintro ⟨here, -⟩
                have word := (here used).unreadable unmapped
                rw [World.setBreak_self (by rw [← word])]
          | some word =>
              have mapped : Mapped p.cpu.mem (w.sdb.slotAt H p.cpu.ext i) :=
                readWord_isSome.mp (by rw [hread]; rfl)
              have low := readWord_eq_some_iff.mp hread 0 (by decide)
              rw [byteAddr_zero] at low
              rw [hread] at slot
              simp only at slot
              by_cases trap : byteOf word 0 = trapByte
              · rw [if_pos trap] at slot
                rw [patchFrom_cons H env (by rw [slot]), slot, ih sorted]
                have here : SettledSlot H w.sdb p i :=
                  ⟨at_, fun _ => by rw [low, trap], fun unmapped => absurd mapped unmapped⟩
                exact ⟨fun h => ⟨fun _ => here, fun _ => h⟩, fun h => h.2 fun _ => mapped⟩
              · rw [if_neg trap] at slot
                refine iff_of_false (fun self => ?_) fun h => trap ?_
                · have quiet := quiet_of_eq_self hp self
                  rw [stepsFrom, slot, List.append_eq_nil_iff] at quiet
                  rw [patchFrom_cons H env (by rw [slot]), slot] at self
                  obtain ⟨m, hm, hma⟩ := trapped_of_quiet (World.tracee_setTracee (w := w.setBreak i
                    { w.sdb.breaks i with originalWord := word }) hp _)
                    (Function.update_self _ _ _) quiet.2
                  rw [self] at hm
                  have hpm : p.cpu.mem = m := congrArg (fun q => q.cpu.mem)
                    (Option.some.inj (hp.symm.trans hm))
                  rw [← hpm, low] at hma
                  exact trap (Option.some.inj hma)
                · exact Option.some.inj (low.symm.trans ((h.1 used).trapped mapped))
      · have slot := patchSlot_of_unused H env used
        rw [patchFrom_cons H env (by rw [slot]), slot, ih sorted]
        exact ⟨fun h => ⟨fun hu => absurd hu used, fun _ => h⟩,
          fun h => h.2 fun hu => absurd hu used⟩

variable (H env) in
theorem pass_eq_self_iff (hp : w.tracee = some p) :
    sdbPatchAllBp H env w = (w, none) ↔ Settled H w.sdb p := by
  cases heh : w.sdb.eh with
  | some eh =>
      rw [sdbPatchAllBp, patchFrom_eq_self_iff env slots_sorted hp heh]
      exact ⟨fun h => ⟨.inl (by simp [heh]), fun i => h i (mem_slots i)⟩, fun h i _ => h.2 i⟩
  | none =>
      by_cases unused : ∀ i, (w.sdb.breaks i).isUsed = false
      · refine iff_of_true (patchFrom_unused fun i _ => unused i) ⟨.inr unused, fun i _ used => ?_⟩
        rw [unused i] at used
        cases used
      · have used : ∃ i ∈ slots, (w.sdb.breaks i).isUsed := by simpa [mem_slots] using unused
        have fault : (patchFrom H env slots w).2 = some .nullHandle := patchFrom_noHandle heh used
        refine iff_of_false (fun self => ?_) fun h => ?_
        · rw [← sdbPatchAllBp, self] at fault
          cases fault
        · rcases h.1 with handle | none
          · exact handle heh
          · exact unused none

/-- The child is stopped and the debugger knows it, or it is gone. -/
def Collected (w : World K) : Prop :=
  (∃ p, w.current = some (.live .stopped p)) ∨ ∃ r, w.current = some (.reaped r)

theorem Collected.reaped (h : Collected w) (dead : w.tracee = none) :
    ∃ r, w.current = some (.reaped r) := by
  rcases h with ⟨p, hc⟩ | gone
  · rw [World.tracee_of_current hc] at dead
    cases dead
  · exact gone

theorem Collected.stopped (h : Collected w) (hp : w.tracee = some p) :
    w.current = some (.live .stopped p) := by
  rcases h with ⟨q, hc⟩ | ⟨r, hc⟩
  · rw [World.tracee_of_current hc] at hp
    cases hp
    exact hc
  · rw [World.tracee, hc] at hp
    cases hp

variable (H) in
/-- A pass whose `waitpid` calls succeed leaves nothing to be collected. -/
theorem Collected.pass (env : Env K) (h : Collected w) (ok : ∀ site, env.waits site = true) :
    Collected (sdbPatchAllBp H env w).1 := by
  have inv : PassInvariant H env (fun _ => True) (fun _ => True) Collected := by
    refine ⟨?_, ?_, ?_, fun v i h _ _ => h⟩
    · intro v p i _ _ _ _ _ _
      rw [ok, Collected, World.current_setChild]
      unfold Child.stepped
      split
      · exact .inl ⟨_, rfl⟩
      · exact .inl ⟨_, rfl⟩
      · exact .inr ⟨_, rfl⟩
    · intro v h dead
      obtain ⟨r, hc⟩ := h.reaped dead
      have same : v.collect = v := by simp only [World.collect, hc]
      rwa [same]
    · intro v p i a word h _ hp _ _ _ _
      have hc : (v.setBreak i { (v.sdb.breaks i) with originalWord := word }).current =
          some (.live .stopped p) := h.stopped hp
      refine .inl ⟨p.setMem (Function.update p.cpu.mem a (some trapByte)), ?_⟩
      simp only [World.setTracee, hc, World.current_setChild]
  exact inv.sdbPatchAllBp h fun _ _ => trivial

/-- The same surroundings with the tracee observed after `fuel` instructions, and
another value in the status variable of `sdb_cont` before it is set. -/
def Env.observed (env : Env K) (fuel status : Nat) : Env K :=
  { env with fuel := fuel, uninit := { env.uninit with status := status } }

theorem sdbPatchAllBp_observed (env : Env K) (fuel status : Nat) (w : World K) :
    sdbPatchAllBp H (env.observed fuel status) w = sdbPatchAllBp H env w :=
  patchFrom_congr H rfl rfl rfl slots w

/-- The first status matters only when the first `waitpid` fails. -/
theorem waitLoop_status (s t : Nat)
    (wait : waitpid H.toPlatform (env.waits (.loop 0)) env.fuel w ≠ .error) :
    waitLoop H env 3 0 s w = waitLoop H env 3 0 t w := by
  rw [waitLoop, waitLoop]
  cases hw : waitpid H.toPlatform (env.waits (.loop 0)) env.fuel w with
  | error => exact absurd hw wait
  | _ => rfl

theorem ptraceCont_of_stopped (hc : w.current = some (.live .stopped p)) :
    w.ptraceCont = w.setChild (.live .running p) := by
  rw [World.ptraceCont, World.tracee_of_current hc]

/-- `contFrom` after a pass that changes nothing is the wait loop. -/
theorem contFrom_of_self {status : Nat} (self : sdbPatchAllBp H env w = (w, none)) :
    contFrom H env status w = waitLoop H env 3 0 status w.ptraceCont := by
  rw [contFrom, self]

/-- Looked at before it has executed anything, a resumed tracee is running. -/
theorem waitLoop_at_once {s t : Nat} (ok : env.waits (.loop 0) = true)
    (hc : w.current = some (.live .stopped p)) :
    waitLoop H (env.observed 0 t) 3 0 s w.ptraceCont =
      ⟨w.setChild (.live .running p), .waiting⟩ := by
  have ok' : (env.observed 0 t).waits (.loop 0) = true := ok
  rw [waitLoop, ptraceCont_of_stopped hc, waitpid_of_running ok' (World.current_setChild _ _)]
  simp only [Env.observed, Proc.resume, World.setChild_setChild]

/-- Two stopped tracees that are the same once they run were the same. -/
theorem eq_of_running {p' : Proc K} (hc : v.current = some (.live .stopped p))
    (hc' : w.current = some (.live .stopped p'))
    (same : v.setChild (.live .running p) = w.setChild (.live .running p')) : w = v := by
  have sdb : v.sdb = w.sdb := by simpa using congrArg World.sdb same
  have child : ∀ q, (v.setChild (.live .running p)).child q =
      (w.setChild (.live .running p')).child q := fun q => by rw [same]
  have here : p = p' := by
    have := child v.sdb.pid
    rw [World.setChild_child, sdb, World.setChild_child] at this
    cases this
    rfl
  have others : w.child = v.child := by
    funext q
    by_cases hq : q = v.sdb.pid
    · subst hq
      exact (sdb ▸ hc' : w.child v.sdb.pid = _).trans (here ▸ hc.symm)
    · have := child q
      rw [World.setChild_child_ne _ _ hq, World.setChild_child_ne _ _ (sdb ▸ hq)] at this
      exact this.symm
  cases v
  cases w
  simp only at sdb others
  rw [sdb, others]

/-- A tracee that is gone makes the wait loop end with the first status. -/
theorem waitLoop_of_reaped {s : Nat} {r : Option (Proc K)} (hc : w.current = some (.reaped r)) :
    waitLoop H env 3 0 s w.ptraceCont = childEnded s w := by
  have same : w.ptraceCont = w := by simp only [World.ptraceCont, World.tracee, hc]
  rw [same, waitLoop, waitpid_of_reaped hc]

variable (H env) in
/-- A pass brings nobody back. -/
theorem dead_pass (dead : w.tracee = none) : (sdbPatchAllBp H env w).1.tracee = none := by
  have inv : PassInvariant H env (fun _ => True) (fun _ => True) (fun v => v.tracee = none) := by
    refine ⟨?_, fun v _ none => World.tracee_collect none, ?_, fun v i h _ _ => h⟩
    · intro v p i dead _ hp _ _ _
      rw [dead] at hp
      cases hp
    · intro v p i a word dead _ hp _ _ _ _
      rw [dead] at hp
      cases hp
  exact inv.sdbPatchAllBp dead fun _ _ => trivial

/-- Resumed from `v`, the tracee and the debugger go on as if `cont` had been
given, however long they are observed, exactly when its pass would do nothing. -/
theorem waitLoop_eq_contFrom_iff (ok : ∀ site, env.waits site = true) (collected : Collected v)
    (s : Nat) :
    (∀ fuel t, waitLoop H (env.observed fuel t) 3 0 s v.ptraceCont =
        contFrom H (env.observed fuel t) t v) ↔
      ∃ p, v.tracee = some p ∧ Settled H v.sdb p := by
  constructor
  · intro same
    cases hp : v.tracee with
    | none =>
        have first := same 0 (s + 1)
        obtain ⟨r, hc⟩ := collected.reaped hp
        rw [waitLoop_of_reaped hc, contFrom] at first
        have dead := dead_pass H (env.observed 0 (s + 1)) hp
        have gone := collected.pass H (env.observed 0 (s + 1)) ok
        generalize sdbPatchAllBp H (env.observed 0 (s + 1)) v = res at first dead gone
        obtain ⟨v', fault⟩ := res
        cases fault with
        | some f => cases congrArg Result.ending first
        | none =>
            obtain ⟨r', hc'⟩ := gone.reaped dead
            simp only [waitLoop_of_reaped hc'] at first
            have := congrArg Result.ending first
            simp [childEnded] at this
    | some p =>
        refine ⟨p, rfl, (pass_eq_self_iff H env hp).mp ?_⟩
        have first := same 0 0
        have hc := collected.stopped hp
        rw [waitLoop_at_once (ok _) hc, contFrom, sdbPatchAllBp_observed] at first
        have after := collected.pass H env ok
        generalize sdbPatchAllBp H env v = res at first after
        obtain ⟨v', fault⟩ := res
        cases fault with
        | some f => cases congrArg Result.ending first
        | none =>
            rcases after with ⟨p', hc'⟩ | ⟨r', hc'⟩
            · simp only [waitLoop_at_once (ok _) hc'] at first
              exact Prod.ext (eq_of_running hc hc' (congrArg Result.world first)) rfl
            · simp only [waitLoop_of_reaped hc'] at first
              cases congrArg Result.ending first
  · rintro ⟨p, hp, settled⟩ fuel t
    have self : sdbPatchAllBp H (env.observed fuel t) v = (v, none) := by
      rw [sdbPatchAllBp_observed]
      exact (pass_eq_self_iff H env hp).mpr settled
    rw [contFrom_of_self self]
    refine waitLoop_status s t fun wait => ?_
    refine waitpid_error (ok (.loop 0)) wait .running p ?_
    rw [ptraceCont_of_stopped (collected.stopped hp), World.current_setChild]

/-- `run` does what `start` and `cont` do, however long the tracee is observed. -/
def RunAgrees (H : Host K) (env : Env K) (w : World K) : Prop :=
  ∀ fuel status out, sdbRun H (env.observed fuel status) w =
    session H ⟨w, .prompt out⟩ [.command .start (env.observed fuel status),
      .command .cont (env.observed fuel status)]

/-- The pass that begins here crashes, or leaves a tracee with which the next pass
has nothing to do. -/
def PassSettles (H : Host K) (env : Env K) (u : World K) : Prop :=
  ∀ v, sdbPatchAllBp H env u = (v, none) → ∃ p, v.tracee = some p ∧ Settled H v.sdb p

theorem launched_collected {u : World K} (h : launched env w = some u) : Collected u := by
  obtain ⟨pid, -, rfl⟩ := launched_eq_some h
  unfold Collected
  rw [World.current_setChild]
  cases env.exec with
  | some image => exact .inl ⟨_, rfl⟩
  | none => exact .inr ⟨_, rfl⟩

theorem run_agrees_iff (ok : ∀ site, env.waits site = true) (loaded : w.sdb.isLoaded)
    (idle : ¬ w.sdb.isRunning) {u : World K} (hu : launched env w = some u) :
    RunAgrees H env w ↔ PassSettles H env u := by
  obtain ⟨s, hl⟩ : ∃ s, launch env w = (u, .ok s) := by
    unfold launched at hu
    split at hu
    · rename_i s hl
      cases hu
      exact ⟨s, hl⟩
    · cases hu
  have launches : ∀ fuel t, launch (env.observed fuel t) w = (u, .ok s) := fun _ _ => hl
  have running : u.sdb.isRunning := launched_running hu
  -- both sides make the same first pass
  cases hpass : sdbPatchAllBp H env u with
  | mk v fault =>
      have run : ∀ fuel t, sdbRun H (env.observed fuel t) w =
          contFrom H (env.observed fuel t) s u := fun fuel t => by
        simp only [sdbRun, if_neg (not_not.mpr loaded), if_pos idle, launches]
      cases fault with
      | some f =>
          have start : ∀ fuel t, sdbStart H (env.observed fuel t) w = ⟨v, .fault f⟩ := by
            intro fuel t
            simp only [sdbStart, if_neg (not_not.mpr loaded), launches, sdbPatchAllBp_observed,
              hpass]
          refine iff_of_true (fun fuel t out => ?_) fun v' hv => by rw [hpass] at hv; cases hv
          rw [run, contFrom, sdbPatchAllBp_observed, hpass]
          simp only [session, Runs.run_cons, Runs.run_nil, step, Cmd.exec, start]
      | none =>
          have start : ∀ fuel t, sdbStart H (env.observed fuel t) w =
              ⟨v, .prompt (.pid v.sdb.pid)⟩ := by
            intro fuel t
            simp only [sdbStart, if_neg (not_not.mpr loaded), launches, sdbPatchAllBp_observed,
              hpass]
          have still : v.sdb.isRunning := by
            have := pass_pid H env u
            rw [hpass] at this
            rwa [SDB.isRunning, this]
          have both : ∀ fuel t out, session H ⟨w, .prompt out⟩
              [.command .start (env.observed fuel t), .command .cont (env.observed fuel t)] =
                contFrom H (env.observed fuel t) t v := fun fuel t out => by
            simp only [session, Runs.run_cons, Runs.run_nil, step, Cmd.exec, start, sdbCont, still]
            rfl
          have collected := (launched_collected hu).pass H env ok
          rw [hpass] at collected
          have first : ∀ fuel t, contFrom H (env.observed fuel t) s u =
              waitLoop H (env.observed fuel t) 3 0 s v.ptraceCont := fun fuel t => by
            rw [contFrom, sdbPatchAllBp_observed, hpass]
          have settles : PassSettles H env u ↔ ∃ p, v.tracee = some p ∧ Settled H v.sdb p :=
            ⟨fun h => h v hpass, fun h v' hv => by rw [hpass] at hv; cases hv; exact h⟩
          rw [settles, ← waitLoop_eq_contFrom_iff ok collected s]
          simp only [RunAgrees, both, run, first]
          exact ⟨fun h fuel t => h fuel t .silent, fun h fuel t _ => h fuel t⟩

section Sessions

/-- A program runs only while one is loaded, unless the debugger has crashed. -/
def Result.RunsLoaded (r : Result K) : Prop :=
  (∀ f, r.ending ≠ .fault f) → r.world.sdb.isRunning → r.world.sdb.isLoaded

/-- Without a loaded program and without a tracee nothing starts to run. -/
theorem exec_idle {cmd : Cmd} (noLoad : ∀ filename, cmd ≠ .load filename)
    (unloaded : ¬ w.sdb.isLoaded) (idle : ¬ w.sdb.isRunning) :
    (cmd.exec H env w).world.sdb.pid = w.sdb.pid := by
  cases cmd with
  | start => rw [Cmd.exec, sdbStart, if_pos unloaded]
  | run => rw [Cmd.exec, sdbRun, if_pos unloaded]
  | cont => rw [Cmd.exec, sdbCont, if_pos idle]
  | si => rw [Cmd.exec, sdbStep, if_pos idle]
  | «break» addrStr => rw [Cmd.exec, sdbSetBreak, if_pos unloaded]
  | delete index =>
      rw [Cmd.exec, sdbDelete]
      split
      · simp only [deleteSlot]
        split
        · split <;> simp
        · rfl
      · rfl
  | disasm addrStr =>
      rcases sdbDisasm_cases H env addrStr w with ⟨-, a, he⟩ | ⟨addr, a, running, -, -⟩
      · rw [Cmd.exec, he, World.setLastDisasmAddr_pid]
      · exact absurd running idle
  | dump addrStr => rw [Cmd.exec, sdbDump_world]
  | list => rfl
  | get name => rfl
  | getregs => rfl
  | vmmap => rw [Cmd.exec, sdbVmmap_world]
  | set name val =>
      have same := World.setregs_sdb w (setIfMatched name val (w.getregs.getD env.uninit.regs))
      rw [Cmd.exec, sdbSet]
      split
      · rfl
      · rename_i hset
        rw [hset] at same
        exact congrArg SDB.pid same
  | load filename => exact absurd rfl (noLoad filename)

theorem step_runsLoaded (r : Result K) (e : Event K) (h : r.RunsLoaded) :
    (step H r e).RunsLoaded := by
  have outcome := stepped H r e
  generalize step H r e = r' at outcome ⊢
  cases outcome with
  | ignored => exact h
  | @command cmd env out prompt =>
      have before := h fun f hf => by rw [prompt] at hf; cases hf
      intro noFault running
      by_cases load : ∃ filename, cmd = .load filename
      · obtain ⟨filename, rfl⟩ := load
        rcases sdbLoad_cases env filename r.world with
          ⟨s, f, he⟩ | ⟨s, text, he, -, pid, path⟩ | ⟨eh, tab, -, -, -, -, he⟩
        · exact absurd (congrArg Result.ending he) (noFault f)
        · rw [Cmd.exec, he] at running ⊢
          rw [SDB.isRunning, pid] at running
          rw [SDB.isLoaded, path]
          exact before running
        · rw [Cmd.exec, he] at running
          cases running
      · have noLoad : ∀ filename, cmd ≠ .load filename := fun filename he => load ⟨filename, he⟩
        have same : r.world.sdb.SameProgram (cmd.exec H env r.world).world.sdb :=
          sameProgram_exec noLoad
        by_contra unloaded
        have unloaded' : ¬ r.world.sdb.isLoaded := by
          rwa [SDB.isLoaded, same.path] at unloaded
        have idle : ¬ r.world.sdb.isRunning := fun running => unloaded' (before running)
        rw [SDB.isRunning, exec_idle noLoad unloaded' idle] at running
        exact idle running
  | killed noFault =>
      intro _
      rw [World.kill_sdb]
      exact h noFault
  | killWaited noFault =>
      intro _ running
      unfold World.killWaited at running
      split at running <;> cases running

variable (H env) in
/-- `run` and `cont` do the same from every running tracee, and `run` does what
`start` and `cont` do from a program that is not running exactly when the pass
of `start` leaves the next pass nothing to do. -/
theorem session_run_agrees (fresh : Slot → Bp) (events : List (Event K)) (out : Output)
    (prompt : (session H (created fresh) events).ending = .prompt out)
    (ok : ∀ site, env.waits site = true) :
    ((session H (created fresh) events).world.sdb.isRunning →
        sdbRun H env (session H (created fresh) events).world =
          sdbCont H env (session H (created fresh) events).world) ∧
      ((session H (created fresh) events).world.sdb.isLoaded →
        ¬ (session H (created fresh) events).world.sdb.isRunning →
          ∀ u, launched env (session H (created fresh) events).world = some u →
            (RunAgrees H env (session H (created fresh) events).world ↔ PassSettles H env u)) := by
  refine ⟨fun running => ?_, fun loaded idle u hu => run_agrees_iff ok loaded idle hu⟩
  have initial : (created fresh : Result K).RunsLoaded := fun _ running => by cases running
  have always := Runs.always Result.RunsLoaded (step_runsLoaded (H := H)) events initial
  have loaded := always (fun f hf => by rw [prompt] at hf; cases hf) running
  rw [sdbRun, sdbCont, if_neg (not_not.mpr loaded), if_neg (not_not.mpr running),
    if_neg (not_not.mpr running)]

end Sessions

namespace Fragment

/-- A breakpoint beyond the entry is set. -/
def setBeyond : List (Event Maps) :=
  [.load "/bin/prog".toList, .break "0x400002".toList].map (cmd exitingLater 64)

theorem setBeyond_agrees :
    RunAgrees host (Fragment.env ⟨7, by decide⟩ exitingLater 64)
      (session host fresh setBeyond).world := by
  have agrees := session_run_agrees host (Fragment.env ⟨7, by decide⟩ exitingLater 64)
    (fun _ => ⟨false, 0, 0⟩) setBeyond _ rfl fun _ => rfl
  refine (agrees.2 rfl (by decide) _ rfl).mpr fun v hv => ?_
  cases hv
  refine ⟨_, rfl, .inl (Option.some_ne_none _), fun i reached used => ?_⟩
  clear reached
  obtain rfl : i = ⟨0, by decide⟩ := by
    revert i
    decide
  exact ⟨by decide, fun _ => rfl, fun unmapped => absurd (by decide) unmapped⟩

/-- The instruction after the entry is in a lower slot than the entry. -/
def setAtEntry : List (Event Maps) :=
  [.load "/bin/prog".toList, .break "0x400001".toList, .break "0x400000".toList].map
    (cmd exitingLater 64)

/-- `run` stops at the second instruction; `start` and `cont` step over it and get
to the end of the program. -/
theorem setAtEntry_disagrees :
    (∃ word, (session host fresh (setAtEntry ++ [.run].map (cmd exitingLater 64))).ending =
        .prompt (.breakpoint ⟨0, by decide⟩ 0x400001 word)) ∧
      (session host fresh (setAtEntry ++ [.start, .cont].map (cmd exitingLater 64))).ending =
        .prompt (.ended 7 0) ∧
      ¬ RunAgrees host (Fragment.env ⟨7, by decide⟩ exitingLater 64)
        (session host fresh setAtEntry).world := by
  refine ⟨⟨_, rfl⟩, rfl, fun agrees => ?_⟩
  have ending := congrArg Result.ending (agrees 64 0 .silent)
  cases ending

end Fragment

end Sdb
