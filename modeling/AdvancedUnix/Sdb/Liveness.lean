import AdvancedUnix.Sdb.Fragment
import AdvancedUnix.Sdb.Live

/-!
# Whether the debugger knows that its child is alive

`sdb_is_running` tests the identifier that the debugger holds. It should hold
one exactly when a child that it started is alive, and then the one of that
child. `FlagSafe` lists what a step must not do for this: launch over a running
child or a program that cannot be executed, step the tracee to its end at the
prompt, replace the program of a running child, or lose a `waitpid`.
-/

namespace Sdb

open Memory Traced

variable {K : Type}

/-- The child with this identifier is alive. -/
def World.Alive (w : World K) (q : Pid) : Prop := ∃ state p, w.child q = some (.live state p)

/-- The debugger takes exactly the living children for running: one at most. -/
def LiveFlag (w : World K) : Prop := ∀ q, w.Alive q ↔ (w.sdb.isRunning ∧ q = w.sdb.pid)

/-- The same identifier, and the same children alive. -/
structure SameLiveness (w v : World K) : Prop where
  pid : v.sdb.pid = w.sdb.pid
  alive : ∀ q, v.Alive q ↔ w.Alive q

/-- The same identifier, and the same other children alive. -/
structure SameOthers (w v : World K) : Prop where
  pid : v.sdb.pid = w.sdb.pid
  alive : ∀ q, q ≠ w.sdb.pid → (v.Alive q ↔ w.Alive q)

variable {u v w : World K} {p : Proc K}

theorem SameLiveness.refl (w : World K) : SameLiveness w w := ⟨rfl, fun _ => Iff.rfl⟩

theorem SameLiveness.trans (h : SameLiveness u v) (g : SameLiveness v w) : SameLiveness u w :=
  ⟨g.pid.trans h.pid, fun q => (g.alive q).trans (h.alive q)⟩

theorem SameLiveness.others (h : SameLiveness w v) : SameOthers w v := ⟨h.pid, fun q _ => h.alive q⟩

theorem SameOthers.trans (h : SameOthers u v) (g : SameOthers v w) : SameOthers u w :=
  ⟨g.pid.trans h.pid, fun q hq => (g.alive q (h.pid ▸ hq)).trans (h.alive q hq)⟩

theorem LiveFlag.same (h : LiveFlag w) (same : SameLiveness w v) : LiveFlag v := by
  intro q
  rw [same.alive, h q, same.pid, SDB.isRunning, SDB.isRunning, same.pid]

/-- With no child alive the debugger must hold no identifier. -/
theorem LiveFlag.nobody (pid : w.sdb.pid = -1) (none : ∀ q, ¬ w.Alive q) : LiveFlag w := by
  intro q
  refine iff_of_false (none q) fun h => ?_
  simp [SDB.isRunning, pid] at h

theorem SameOthers.setChild (w : World K) (c : Child K) : SameOthers w (w.setChild c) := by
  refine ⟨rfl, fun q hq => ?_⟩
  rw [World.Alive, World.setChild_child_ne w c hq]
  rfl

/-- The child is as alive as before. -/
theorem SameLiveness.setChild (c : Child K)
    (alive : (∃ state p, c = .live state p) ↔ w.Alive w.sdb.pid) :
    SameLiveness w (w.setChild c) := by
  refine ⟨rfl, fun q => ?_⟩
  by_cases hq : q = w.sdb.pid
  · subst hq
    rw [← alive, World.Alive, World.setChild_child]
    simp only [Option.some.injEq]
  · exact (SameOthers.setChild w c).alive q hq

theorem SameLiveness.setChild_live {state state' : RunState} {q : Proc K}
    (hc : w.current = some (.live state p)) : SameLiveness w (w.setChild (.live state' q)) :=
  .setChild _ (iff_of_true ⟨_, _, rfl⟩ ⟨_, _, hc⟩)

theorem SameLiveness.setBreak (w : World K) (i : Slot) (bp : Bp) :
    SameLiveness w (w.setBreak i bp) := ⟨rfl, fun _ => Iff.rfl⟩

theorem SameLiveness.setLastDisasmAddr (w : World K) (a : Addr) :
    SameLiveness w (w.setLastDisasmAddr a) := ⟨rfl, fun _ => Iff.rfl⟩

theorem SameLiveness.setTracee (w : World K) (q : Proc K) : SameLiveness w (w.setTracee q) := by
  unfold World.setTracee
  split
  · rename_i hc
    exact .setChild_live hc
  · exact .refl w

theorem SameLiveness.collect (w : World K) : SameLiveness w w.collect := by
  unfold World.collect
  split
  · rename_i hc
    exact .setChild_live hc
  · rename_i hc
    refine .setChild _ (iff_of_false ?_ ?_)
    · rintro ⟨state, p, he⟩
      cases he
    · rintro ⟨state, p, he⟩
      rw [World.current] at hc
      rw [hc] at he
      cases he
  · exact .refl w

theorem SameLiveness.ptraceCont (w : World K) : SameLiveness w w.ptraceCont := by
  unfold World.ptraceCont
  split
  · rename_i p hp
    obtain ⟨state, hc⟩ := World.tracee_live hp
    exact .setChild_live hc
  · exact .refl w

theorem SameLiveness.poke (w : World K) (a : Addr) (word : Word) :
    SameLiveness w (w.pokeOrIgnore a word) := by
  unfold World.pokeOrIgnore World.poke
  cases w.tracee with
  | none => exact .refl w
  | some p =>
      rw [Option.bind_some]
      cases writeWord p.cpu.mem a word with
      | none => exact .refl w
      | some m => exact .setTracee w _

theorem SameLiveness.setregs (w : World K) (regs : UserRegs) :
    SameLiveness w ((w.setregs regs).getD w) := by
  unfold World.setregs
  cases w.tracee with
  | none => exact .refl w
  | some p => exact .setTracee w _

/-- The instruction does not end the process. -/
def GoesOn (P : Platform K) (c : Cpu K) : Prop := ∀ status, P.halt c ≠ some (.exit status)

theorem SameLiveness.stepped {P : Platform K} (ok : Bool) (hp : w.tracee = some p)
    (goesOn : GoesOn P p.cpu) : SameLiveness w (w.setChild (Child.stepped P ok p)) := by
  obtain ⟨state, hc⟩ := World.tracee_live hp
  unfold Child.stepped
  split
  · exact .setChild_live hc
  · exact .setChild_live hc
  · rename_i status halt
    exact absurd halt (goesOn status)

section Pass

variable (H : Host K) (env : Env K)

/-- A pass that does not step the tracee to its end leaves everybody alive. -/
theorem SameLiveness.pass {w : World K}
    (goesOn : ∀ c ∈ passSteps H env w, GoesOn H.toPlatform c) :
    SameLiveness w (sdbPatchAllBp H env w).1 := by
  have inv : PassInvariant H env (fun _ => True) (GoesOn H.toPlatform) (SameLiveness w) := by
    refine ⟨?_, fun v h _ => h.trans (.collect v), ?_, fun v i h _ _ => h.trans (.setBreak v i _)⟩
    · intro v p i h _ hp _ _ goesOn
      exact h.trans (.stepped _ hp goesOn)
    · intro v p i a word h _ _ _ _ _ _
      exact h.trans ((SameLiveness.setBreak v i _).trans (.setTracee _ _))
  exact inv.sdbPatchAllBp (.refl w) goesOn

/-- A pass concerns no other child. -/
theorem SameOthers.pass (w : World K) : SameOthers w (sdbPatchAllBp H env w).1 := by
  have inv : PassInvariant H env (fun _ => True) (fun _ => True) (SameOthers w) := by
    refine ⟨?_, fun v h _ => h.trans (SameLiveness.collect v).others, ?_,
      fun v i h _ _ => h.trans (SameLiveness.setBreak v i _).others⟩
    · intro v p i h _ _ _ _ _
      exact h.trans (.setChild v _)
    · intro v p i a word h _ _ _ _ _ _
      exact h.trans ((SameLiveness.setBreak v i _).trans (.setTracee _ _)).others
  exact inv.sdbPatchAllBp (SameLiveness.refl w).others fun _ _ => trivial

end Pass

/-- What a command must not do for the flag to stay right. -/
def FlagSafe (H : Host K) (env : Env K) : Cmd → World K → Prop
  | .start, w => w.sdb.isLoaded → Launches w ∧ PassGoesOn .start w
  | .run, w => w.sdb.isLoaded → (¬ w.sdb.isRunning → Launches w) ∧ Delivers
  | .cont, _ => Delivers
  | .si, w => ∀ p, w.tracee = some p → GoesOn H.toPlatform p.cpu
  | .break addrStr, w => PassGoesOn (.break addrStr) w
  | .disasm addrStr, w => PassGoesOn (.disasm addrStr) w
  | .load filename, w => Loadable env filename → ¬ w.sdb.isRunning
  | _, _ => True
where
  /-- Nothing is running, and if `fork` succeeds so does `execlp`. -/
  Launches (w : World K) : Prop := ¬ w.sdb.isRunning ∧ (env.fork.isSome → env.exec.isSome)
  /-- The pass does not step the tracee to its end. -/
  PassGoesOn (cmd : Cmd) (w : World K) : Prop :=
    ∀ u, cmd.passStart env w = some u → ∀ c ∈ passSteps H env u, GoesOn H.toPlatform c
  /-- The wait loop is not interrupted. -/
  Delivers : Prop := ∀ n, env.waits (.loop n) = true

/-- `FlagSafe` of a command at the prompt; the child is not killed there. -/
def Event.FlagSafe (H : Host K) (r : Result K) : Event K → Prop
  | .command cmd env =>
    match r.ending with
    | .prompt _ => Sdb.FlagSafe H env cmd r.world
    | _ => True
  | .killed pid =>
    match r.ending with
    | .prompt _ => ¬ (r.world.sdb.isRunning ∧ pid = r.world.sdb.pid)
    | _ => True

/-- The flag is right, unless the debugger has crashed. -/
def Result.LiveFlag (r : Result K) : Prop := (∀ f, r.ending ≠ .fault f) → Sdb.LiveFlag r.world

section Commands

variable {H : Host K} {env : Env K}

theorem LiveFlag.launch (h : LiveFlag w) (safe : FlagSafe.Launches env w) :
    LiveFlag (launch env w).1 := by
  have nobody : ∀ q, ¬ w.Alive q := fun q alive => safe.1 ((h q).mp alive).1
  obtain ⟨-, gone⟩ | ⟨pid, c, forked, born, world⟩ := launch_cases env w
  · rw [gone]
    exact .nobody rfl nobody
  · obtain ⟨image, himage⟩ := Option.isSome_iff_exists.mp (safe.2 (by rw [forked]; rfl))
    have alive : LiveFlag ((w.setPid pid).setChild c) := by
      cases born with
      | failed exec =>
          rw [himage] at exec
          cases exec
      | started exec =>
          intro q
          by_cases hq : q = pid.1
          · subst hq
            refine iff_of_true ⟨_, _, World.setChild_child (w.setPid pid) _⟩ ⟨?_, rfl⟩
            have := pid.2
            refine decide_eq_true (show pid.1 ≠ -1 from fun he => ?_)
            rw [he] at this
            exact absurd this (by decide)
          · refine iff_of_false (fun alive => nobody q ?_) fun h => hq h.2
            exact ((SameOthers.setChild (w.setPid pid) _).alive q hq).mp alive
    obtain world | world := world
    · rw [world]
      exact alive.same (.collect _)
    · rw [world]
      exact alive

/-- The tracee has been resumed, and no other child is alive: the loop ends with
the flag right. -/
theorem waitLoop_flag {status : Nat} (running : w.sdb.isRunning)
    (others : ∀ q, q ≠ w.sdb.pid → ¬ w.Alive q) (delivers : FlagSafe.Delivers env) :
    (waitLoop H env 3 0 status w.ptraceCont).LiveFlag := by
  have outcome := waited H env status w.ptraceCont
  generalize waitLoop H env 3 0 status w.ptraceCont = r at outcome ⊢
  have same := SameLiveness.ptraceCont w
  have others : ∀ q, q ≠ w.ptraceCont.sdb.pid → ¬ w.ptraceCont.Alive q := by
    intro q hq alive
    exact others q (same.pid ▸ hq) ((same.alive q).mp alive)
  have one : ∀ state p, LiveFlag (w.ptraceCont.setChild (.live state p)) := by
    intro state p q
    by_cases hq : q = w.ptraceCont.sdb.pid
    · subst hq
      refine iff_of_true ⟨_, _, World.setChild_child _ _⟩ ⟨?_, rfl⟩
      rwa [World.setChild_sdb, World.ptraceCont_sdb]
    · exact iff_of_false (fun alive => others q hq
        (((SameOthers.setChild _ _).alive q hq).mp alive)) fun h => hq h.2
  have gone : ∀ p, LiveFlag ((w.ptraceCont.setChild (.reaped p)).setPid (-1)) := by
    refine fun p => .nobody rfl fun q alive => ?_
    by_cases hq : q = w.ptraceCont.sdb.pid
    · subst hq
      obtain ⟨state, r, hc⟩ := alive
      rw [World.setPid_child, World.setChild_child] at hc
      cases hc
    · exact others q hq (((SameOthers.setChild _ _).alive q hq).mp alive)
  intro noFault
  cases outcome with
  | failed wait =>
      refine .nobody rfl fun q alive => ?_
      by_cases hq : q = w.ptraceCont.sdb.pid
      · subst hq
        obtain ⟨state, p, hc⟩ := alive
        exact waitpid_error (delivers 0) wait state p hc
      · exact others q hq alive
  | busy wait =>
      obtain ⟨p, -, -, rfl⟩ := waitpid_busy wait
      exact one _ _
  | blocked wait =>
      obtain ⟨p, hc⟩ := waitpid_blocked wait
      cases World.ptraceCont_current hc
  | exited wait =>
      obtain ⟨p, rfl, -⟩ := waitpid_exited wait
      exact gone _
  | fault wait stopped noMatch => exact absurd rfl (noFault _)
  | hit wait stopped found =>
      obtain ⟨p, rfl, -⟩ := waitpid_stopped wait
      have stops := one .stopped p
      exact (stops.same (.poke _ _ _)).same (.setregs _ _)
  | again wait stopped noSlot ok =>
      obtain ⟨p, rfl, -⟩ := waitpid_stopped wait
      exact one _ _
  | dropped wait stopped noSlot ok =>
      rw [delivers 1] at ok
      cases ok

theorem contFrom_flag {status : Nat} (h : LiveFlag w) (running : w.sdb.isRunning)
    (delivers : FlagSafe.Delivers env) : (contFrom H env status w).LiveFlag := by
  have pass := SameOthers.pass H env w
  unfold contFrom
  cases hpass : sdbPatchAllBp H env w with
  | mk v fault =>
      rw [hpass] at pass
      cases fault with
      | some f => exact fun noFault => absurd rfl (noFault f)
      | none =>
          refine waitLoop_flag ?_ (fun q hq alive => ?_) delivers
          · rwa [SDB.isRunning, pass.pid]
          · rw [pass.pid] at hq
            exact hq ((h q).mp ((pass.alive q hq).mp alive)).2

/-- A pass that ends a command. -/
theorem LiveFlag.passed (h : LiveFlag w)
    (goesOn : ∀ c ∈ passSteps H env w, GoesOn H.toPlatform c) :
    LiveFlag (sdbPatchAllBp H env w).1 := h.same (.pass H env goesOn)

theorem sdbStart_flag (h : LiveFlag w) (safe : FlagSafe H env .start w) :
    LiveFlag (sdbStart H env w).world := by
  unfold sdbStart
  simp only [FlagSafe, FlagSafe.PassGoesOn, Cmd.passStart] at safe
  split
  · exact h
  · rename_i loaded
    obtain ⟨launches, goesOn⟩ := safe (not_not.mp loaded)
    rw [if_pos (not_not.mp loaded)] at goesOn
    have born := h.launch launches
    split
    · rename_i hl
      rwa [hl] at born
    · rename_i v status hl
      rw [hl] at born
      have passed := born.passed (goesOn v (by rw [launched, hl]))
      split <;> rename_i hpass <;> rwa [hpass] at passed

theorem sdbRun_flag (h : LiveFlag w) (safe : FlagSafe H env .run w) :
    (sdbRun H env w).LiveFlag := by
  unfold sdbRun
  split
  · exact fun _ => h
  · rename_i loaded
    obtain ⟨launches, delivers⟩ := safe (not_not.mp loaded)
    split
    · rename_i running
      have born := h.launch (launches running)
      split
      · rename_i hl
        rw [hl] at born
        exact fun _ => born
      · rename_i v status hl
        rw [hl] at born
        have hu : launched env w = some v := by rw [launched, hl]
        exact contFrom_flag born (launched_running hu) delivers
    · rename_i running
      exact contFrom_flag h (not_not.mp running) delivers

theorem SameLiveness.restoreAll (is : List Slot) (w : World K) :
    SameLiveness w (restoreAll is w) := by
  induction is generalizing w with
  | nil => exact .refl w
  | cons i is ih =>
      refine SameLiveness.trans ?_ (ih _)
      split
      · exact .poke w _ _
      · exact .refl w

theorem sdbDisasm_flag (addrStr : List Char) (h : LiveFlag w)
    (safe : FlagSafe H env (.disasm addrStr) w) :
    LiveFlag (sdbDisasm H env addrStr w).world := by
  rcases sdbDisasm_cases H env addrStr w with ⟨-, a, he⟩ | ⟨addr, a, -, hstart, he⟩
  · rw [he]
    exact h.same (.setLastDisasmAddr w a)
  · rw [he]
    have restored := (h.same (.setLastDisasmAddr w a)).same (.restoreAll slots _)
    have passed := restored.passed (safe _ hstart)
    unfold disasmLive
    simp only
    split
    · rename_i hpass
      rwa [hpass] at passed
    · rename_i v hpass
      rw [hpass] at passed
      obtain ⟨b, out, hp⟩ := printInsns_eq H
        (peekWords (Sdb.restoreAll slots (w.setLastDisasmAddr a)) (addr + 64) 8 addr) addr v
      rw [hp]
      exact passed.same (.setLastDisasmAddr v b)

theorem sdbSetBreak_flag (addrStr : List Char) (h : LiveFlag w)
    (safe : FlagSafe H env (.break addrStr) w) :
    LiveFlag (sdbSetBreak H env addrStr w).world := by
  unfold sdbSetBreak
  simp only [FlagSafe, FlagSafe.PassGoesOn, Cmd.passStart] at safe
  split
  · exact h
  · rename_i loaded
    simp only
    cases free : freeSlot w.sdb with
    | none => exact h
    | some i =>
        simp only
        split
        · rename_i running
          have running : w.sdb.isRunning := running
          rw [if_pos ⟨not_not.mp loaded, running⟩, free] at safe
          have passed := (h.same (.setBreak w i _)).passed (safe _ rfl)
          split <;> rename_i hpass <;> rwa [hpass] at passed
        · exact h.same (.setBreak w i _)

theorem sdbDelete_flag (index : Int) (h : LiveFlag w) : LiveFlag (sdbDelete index w).world := by
  unfold sdbDelete
  split
  · simp only
    split
    · refine LiveFlag.same ?_ (.setBreak _ _ _)
      split
      · exact h.same (.poke w _ _)
      · exact h
    · exact h
  · exact h

theorem sdbStep_flag (h : LiveFlag w) (safe : FlagSafe H env .si w) :
    LiveFlag (sdbStep H env w).world := by
  cases hp : w.tracee with
  | none => rwa [sdbStep_world_of_none hp]
  | some p =>
      by_cases running : w.sdb.isRunning
      · rw [sdbStep_world running hp]
        exact h.same (.stepped _ hp (safe p hp))
      · simpa [sdbStep, running] using h

theorem sdbSet_flag (name : List Char) (val : Word) (h : LiveFlag w) :
    LiveFlag (sdbSet env name val w).world := by
  have set := h.same (.setregs w (setIfMatched name val (w.getregs.getD env.uninit.regs)))
  unfold sdbSet
  split
  · exact h
  · rename_i hset
    rwa [hset] at set

theorem sdbLoad_flag (filename : List Char) (h : LiveFlag w)
    (safe : FlagSafe H env (.load filename) w) : (sdbLoad env filename w).LiveFlag := by
  rcases sdbLoad_cases env filename w with
    ⟨s, f, he⟩ | ⟨s, text, he, -, pid, -⟩ | ⟨eh, tab, loadable, -, -, -, he⟩
  · rw [he]
    exact fun noFault => absurd rfl (noFault f)
  · rw [he]
    exact fun _ => h.same ⟨pid, fun _ => Iff.rfl⟩
  · rw [he]
    exact fun _ => .nobody rfl fun q alive => safe loadable ((h q).mp alive).1

/-- A command that is safe for the flag leaves it right. -/
theorem exec_flag {cmd : Cmd} (h : LiveFlag w) (safe : FlagSafe H env cmd w) :
    (cmd.exec H env w).LiveFlag := by
  cases cmd with
  | start => exact fun _ => sdbStart_flag h safe
  | run => exact sdbRun_flag h safe
  | cont =>
      rw [Cmd.exec, sdbCont]
      split
      · exact fun _ => h
      · rename_i running
        exact contFrom_flag h (not_not.mp running) safe
  | si => exact fun _ => sdbStep_flag h safe
  | «break» addrStr => exact fun _ => sdbSetBreak_flag addrStr h safe
  | delete index => exact fun _ => sdbDelete_flag index h
  | disasm addrStr => exact fun _ => sdbDisasm_flag addrStr h safe
  | dump addrStr =>
      rw [Cmd.exec, Result.LiveFlag, sdbDump_world]
      exact fun _ => h
  | list => exact fun _ => h
  | get name => exact fun _ => h
  | getregs => exact fun _ => h
  | vmmap =>
      rw [Cmd.exec, Result.LiveFlag, sdbVmmap_world]
      exact fun _ => h
  | set name val => exact fun _ => sdbSet_flag name val h
  | load filename => exact sdbLoad_flag filename h safe

end Commands

/-- A child that is not the debugger's is not alive, and cannot be killed. -/
theorem LiveFlag.kill (h : LiveFlag w) {pid : Pid} (other : ¬ (w.sdb.isRunning ∧ pid = w.sdb.pid)) :
    w.kill pid = w := by
  unfold World.kill
  split
  · rename_i state p hc
    exact absurd ((h pid).mp ⟨state, p, hc⟩) other
  · rfl

theorem LiveFlag.killWaited (h : LiveFlag w) : LiveFlag w.killWaited.world := by
  unfold World.killWaited
  split
  · rename_i state p hc
    refine .nobody rfl fun q alive => ?_
    by_cases hq : q = w.sdb.pid
    · subst hq
      obtain ⟨state, r, hr⟩ := alive
      simp only [childEnded, World.setPid_child, World.setChild_child] at hr
      cases hr
    · have alive : (w.setChild (.reaped (some p))).Alive q := alive
      exact hq ((h q).mp (((SameOthers.setChild w _).alive q hq).mp alive)).2
  · rename_i dead
    refine .nobody rfl fun q alive => ?_
    have alive : w.Alive q := alive
    obtain ⟨-, rfl⟩ := (h q).mp alive
    obtain ⟨state, p, hc⟩ := alive
    exact dead state p hc

variable {H : Host K}

theorem step_flag (r : Result K) (e : Event K) (h : r.LiveFlag) (safe : e.FlagSafe H r) :
    (step H r e).LiveFlag := by
  have outcome := stepped H r e
  generalize step H r e = r' at outcome ⊢
  cases outcome with
  | ignored => exact h
  | @command cmd env out prompt =>
      simp only [Event.FlagSafe, prompt] at safe
      exact exec_flag (h fun f hf => by rw [prompt] at hf; cases hf) safe
  | killWaited noFault => exact fun _ => (h noFault).killWaited
  | @killed pid noFault other =>
      intro _
      have flag := h noFault
      show LiveFlag (r.world.kill pid)
      rw [flag.kill fun both => ?_]
      · exact flag
      · rcases other with ⟨out, prompt⟩ | other
        · simp only [Event.FlagSafe, prompt] at safe
          exact safe both
        · exact other both.2

theorem created_flag (fresh : Slot → Bp) : LiveFlag (created fresh : Result K).world := by
  refine .nobody rfl fun q alive => ?_
  obtain ⟨state, p, hc⟩ := alive
  cases hc

/-- In every session whose steps are safe for it the debugger takes exactly the
living child for running, if there is one, and there is never a second one. -/
theorem session_liveFlag (fresh : Slot → Bp) (events : List (Event K))
    (safe : Runs.AllSteps (step H) (fun r e => e.FlagSafe H r) (created fresh) events)
    (noFault : ∀ f, (session H (created fresh) events).ending ≠ .fault f) :
    LiveFlag (session H (created fresh) events).world :=
  Runs.invariant Result.LiveFlag step_flag (fun _ => created_flag fresh) safe noFault

namespace Fragment

theorem exit_liveFlag : LiveFlag (session host fresh
    ([.load "/bin/prog".toList, .start, .si, .cont].map (cmd exiting 64))).world := by
  refine session_liveFlag _ _ ⟨fun _ => by decide, fun _ => ⟨⟨by decide, fun _ => rfl⟩, ?_⟩, ?_,
    fun _ => rfl, trivial⟩ fun f hf => by cases hf
  · intro u hu c hc
    cases hu
    cases hc
  · intro p hp status halt
    cases hp
    cases halt

/-- The last instruction of the program is stepped at the prompt: the debugger
takes a child for running that is gone. -/
theorem step_to_exit_flag : ¬ LiveFlag (session host fresh
    ([.load "/bin/prog".toList, .start, .si, .si, .si].map (cmd exiting 64))).world := by
  intro flag
  obtain ⟨state, p, hc⟩ := (flag 7).mpr ⟨rfl, rfl⟩
  cases hc

end Fragment

end Sdb
