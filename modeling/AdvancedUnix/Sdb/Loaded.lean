import AdvancedUnix.Sdb.Fragment
import AdvancedUnix.Sdb.Live

/-!
# What a loaded program is

A command that finds a program loaded goes through the handle, its section
headers and the string table that the debugger points to. `ProgramOk` says that
they are all there, for the file that the path names. Only `load` changes any of
them; a `load` that fails after another one succeeded leaves the path of the
first one and loses the rest.
-/

namespace Sdb

open Memory Traced

variable {K : Type}

/-- With a path, the handle is open for the file of that path, its section headers
are loaded, and the string table is the one that names the sections. -/
def SDB.ProgramOk (s : SDB) : Prop :=
  s.isLoaded → ∃ eh tab, s.eh = some eh ∧ eh.filename = s.path ∧ eh.shdr.isSome ∧
    s.strtabNode = some tab ∧ tab ∈ eh.strtab ∧ tab.id = eh.shstrndx

/-- The handle, the string table and the path are as they were. -/
structure SDB.SameProgram (s t : SDB) : Prop where
  eh : t.eh = s.eh
  opened : t.opened = s.opened
  strtab : t.strtab = s.strtab
  path : t.path = s.path

theorem SDB.SameProgram.refl (s : SDB) : s.SameProgram s := ⟨rfl, rfl, rfl, rfl⟩

theorem SDB.SameProgram.trans {s t u : SDB} (h : s.SameProgram t) (g : t.SameProgram u) :
    s.SameProgram u :=
  ⟨g.eh.trans h.eh, g.opened.trans h.opened, g.strtab.trans h.strtab, g.path.trans h.path⟩

theorem SDB.ProgramOk.same {s t : SDB} (h : s.ProgramOk) (same : s.SameProgram t) :
    t.ProgramOk := by
  simpa only [SDB.ProgramOk, SDB.isLoaded, SDB.strtabNode, same.eh, same.path, same.strtab,
    same.opened] using h

section Commands

variable {H : Host K} {env : Env K} {w : World K}

theorem sameProgram_setBreak (w : World K) (i : Slot) (bp : Bp) :
    w.sdb.SameProgram (w.setBreak i bp).sdb := ⟨rfl, rfl, rfl, rfl⟩

theorem sameProgram_setLastDisasmAddr (w : World K) (a : Addr) :
    w.sdb.SameProgram (w.setLastDisasmAddr a).sdb := ⟨rfl, rfl, rfl, rfl⟩

theorem passInvariant_sameProgram (s : SDB) :
    PassInvariant H env (fun _ => True) (fun _ => True) (fun v => s.SameProgram v.sdb) := by
  refine ⟨fun v p i h _ _ _ _ _ => h, fun v h _ => by rwa [World.collect_sdb], ?_,
    fun v i h _ _ => h.trans (sameProgram_setBreak v i _)⟩
  intro v p i a word h _ _ _ _ _ _
  rw [World.setTracee_sdb]
  exact h.trans (sameProgram_setBreak v i _)

variable (H env) in
theorem sameProgram_pass (w : World K) : w.sdb.SameProgram (sdbPatchAllBp H env w).1.sdb :=
  (passInvariant_sameProgram w.sdb).sdbPatchAllBp (.refl _) fun _ _ => trivial

variable (env) in
theorem sameProgram_launch (w : World K) : w.sdb.SameProgram (launch env w).1.sdb := by
  unfold launch
  cases env.fork with
  | none => exact ⟨rfl, rfl, rfl, rfl⟩
  | some pid =>
      simp only
      split
      · rw [World.collect_sdb]
        exact ⟨rfl, rfl, rfl, rfl⟩
      · exact ⟨rfl, rfl, rfl, rfl⟩

variable (H env) in
theorem sameProgram_waitLoop (status : Nat) (w : World K) :
    w.sdb.SameProgram (waitLoop H env 3 0 status w).world.sdb := by
  have ended : ∀ (v : World K) (status : Nat), v.sdb = w.sdb →
      w.sdb.SameProgram (childEnded status v).world.sdb := by
    intro v status hv
    rw [← hv]
    exact ⟨rfl, rfl, rfl, rfl⟩
  have outcome := waited H env status w
  generalize waitLoop H env 3 0 status w = r at outcome ⊢
  cases outcome with
  | failed wait => exact ended w _ rfl
  | busy wait =>
      obtain ⟨q, -, -, rfl⟩ := waitpid_busy wait
      exact .refl _
  | blocked wait => exact .refl _
  | exited wait =>
      obtain ⟨p, rfl, -⟩ := waitpid_exited wait
      exact ended _ _ rfl
  | fault wait stopped noMatch =>
      obtain ⟨p, rfl, -⟩ := waitpid_stopped wait
      exact .refl _
  | hit wait stopped found =>
      obtain ⟨p, rfl, -⟩ := waitpid_stopped wait
      rw [World.reportBp_sdb]
      exact .refl _
  | again wait stopped noSlot ok =>
      obtain ⟨p, rfl, -⟩ := waitpid_stopped wait
      exact .refl _
  | dropped wait stopped noSlot ok =>
      obtain ⟨p, rfl, -⟩ := waitpid_stopped wait
      exact ended _ _ rfl

theorem sameProgram_contFrom {status : Nat} (w : World K) :
    w.sdb.SameProgram (contFrom H env status w).world.sdb := by
  have passed := sameProgram_pass H env w
  unfold contFrom
  split
  · rename_i hpass
    rwa [hpass] at passed
  · rename_i v hpass
    rw [hpass] at passed
    have resumed := sameProgram_waitLoop H env status v.ptraceCont
    rw [World.ptraceCont_sdb] at resumed
    exact passed.trans resumed

theorem restoreAll_sdb (is : List Slot) (w : World K) : (restoreAll is w).sdb = w.sdb := by
  induction is generalizing w with
  | nil => rfl
  | cons i is ih =>
      rw [restoreAll, ih]
      split
      · exact World.pokeOrIgnore_sdb _ _ _
      · rfl

theorem sameProgram_disasm (addrStr : List Char) (w : World K) :
    w.sdb.SameProgram (sdbDisasm H env addrStr w).world.sdb := by
  rcases sdbDisasm_cases H env addrStr w with ⟨-, a, he⟩ | ⟨addr, a, -, -, he⟩
  · rw [he]
    exact ⟨rfl, rfl, rfl, rfl⟩
  · rw [he]
    have passed := sameProgram_pass H env
      (restoreAll slots (w.setLastDisasmAddr a))
    rw [restoreAll_sdb] at passed
    unfold disasmLive
    simp only
    split
    · rename_i hpass
      rw [hpass] at passed
      exact (sameProgram_setLastDisasmAddr w a).trans passed
    · rename_i v hpass
      rw [hpass] at passed
      obtain ⟨b, out, hp⟩ := printInsns_eq H
        (peekWords (restoreAll slots (w.setLastDisasmAddr a)) (addr + 64) 8 addr) addr v
      rw [hp]
      exact ((sameProgram_setLastDisasmAddr w a).trans passed).trans
        (sameProgram_setLastDisasmAddr v b)

/-- Every command but `load` keeps the program. -/
theorem sameProgram_exec {cmd : Cmd} (noLoad : ∀ filename, cmd ≠ .load filename) :
    w.sdb.SameProgram (cmd.exec H env w).world.sdb := by
  cases cmd with
  | start =>
      rw [Cmd.exec, sdbStart]
      split
      · exact .refl _
      · have launched := sameProgram_launch env w
        split
        · rename_i hl
          rwa [hl] at launched
        · rename_i v status hl
          rw [hl] at launched
          have passed := launched.trans (sameProgram_pass H env v)
          split <;> rename_i hpass <;> rwa [hpass] at passed
  | run =>
      rw [Cmd.exec, sdbRun]
      split
      · exact .refl _
      · split
        · have launched := sameProgram_launch env w
          split
          · rename_i hl
            rwa [hl] at launched
          · rename_i v status hl
            rw [hl] at launched
            exact launched.trans (sameProgram_contFrom v)
        · exact sameProgram_contFrom w
  | cont =>
      rw [Cmd.exec, sdbCont]
      split
      · exact .refl _
      · exact sameProgram_contFrom w
  | si =>
      rw [Cmd.exec]
      cases hp : w.tracee with
      | none =>
          rw [sdbStep_world_of_none hp]
          exact .refl _
      | some p =>
          by_cases running : w.sdb.isRunning
          · rw [sdbStep_world running hp]
            exact .refl _
          · simpa [sdbStep, running] using SDB.SameProgram.refl w.sdb
  | «break» addrStr =>
      rw [Cmd.exec, sdbSetBreak]
      split
      · exact .refl _
      · simp only
        cases freeSlot w.sdb with
        | none => exact .refl _
        | some i =>
            have passed := sameProgram_pass H env (w.setBreak i
              { w.sdb.breaks i with isUsed := true,
                                    addr :=
                                      (hexOperand addrStr env.uninit.tail).getD env.uninit.addr })
            simp only
            split
            · split <;> rename_i hpass <;> rw [hpass] at passed <;>
                exact (sameProgram_setBreak w i _).trans passed
            · exact sameProgram_setBreak w i _
  | delete index =>
      rw [Cmd.exec, sdbDelete]
      split
      · simp only
        split
        · simp only [deleteSlot, World.setBreak]
          split
          · rw [World.pokeOrIgnore_sdb]
            exact ⟨rfl, rfl, rfl, rfl⟩
          · exact ⟨rfl, rfl, rfl, rfl⟩
        · exact .refl _
      · exact .refl _
  | disasm addrStr => exact sameProgram_disasm addrStr w
  | dump addrStr =>
      rw [Cmd.exec, sdbDump_world]
      exact .refl _
  | list => exact .refl _
  | get name => exact .refl _
  | getregs => exact .refl _
  | vmmap =>
      rw [Cmd.exec, sdbVmmap_world]
      exact .refl _
  | set name val =>
      have set := World.setregs_sdb w (setIfMatched name val (w.getregs.getD env.uninit.regs))
      rw [Cmd.exec, sdbSet]
      split
      · exact .refl _
      · rename_i hset
        rw [hset] at set
        rw [← set]
        exact .refl _
  | load filename => exact absurd rfl (noLoad filename)

/-- A load that returns leaves a program that is whole, or, if there was none,
no program. -/
theorem sdbLoad_programOk {filename : List Char} (safe : w.sdb.isLoaded → Loadable env filename)
    (noFault : ∀ f, (sdbLoad env filename w).ending ≠ .fault f) :
    (sdbLoad env filename w).world.sdb.ProgramOk := by
  rcases sdbLoad_cases env filename w with
    ⟨s, f, he⟩ | ⟨s, text, he, failed, -, path⟩ | ⟨eh, tab, -, name, shdr, htab, he⟩
  · rw [he] at noFault
    exact absurd rfl (noFault f)
  · rw [he]
    intro loaded
    refine absurd (safe ?_) failed
    rwa [SDB.isLoaded, ← path]
  · rw [he]
    intro _
    have id : tab.id = eh.shstrndx := by simpa using List.find?_some htab
    refine ⟨eh, tab, rfl, name, shdr, ?_, List.mem_of_find?_eq_some htab, id⟩
    simp only [SDB.strtabNode, SDB.reset, if_true, id]
    exact htab

/-- The faults of following a handle or a table that is not there. -/
def Fault.dangling : Fault → Bool
  | .nullHandle | .nullTable | .deadStrtab => true
  | _ => false

theorem slotAddr_not_dangling {u : Uninit} {i : Slot} {f : Fault} (heh : w.sdb.eh ≠ none)
    (h : slotAddr H u w i = .error f) : f.dangling = false := by
  unfold slotAddr at h
  split at h
  · rename_i none
    exact absurd none heh
  · split at h
    · unfold convertDynamicAddr at h
      split at h
      · cases h
        rfl
      · cases h
    · cases h

/-- A pass that does not come to its end could not translate the address of a slot. -/
theorem patchFrom_fault {is : List Slot} {f : Fault} (h : (patchFrom H env is w).2 = some f) :
    ∃ v i, w.sdb.SameProgram v.sdb ∧ slotAddr H env.uninit v i = .error f := by
  induction is generalizing w with
  | nil => cases h
  | cons i is ih =>
      have same : w.sdb.SameProgram (patchSlot H env i w).1.sdb :=
        (passInvariant_sameProgram w.sdb).patchSlot (.refl _) trivial fun _ _ => trivial
      rw [patchFrom] at h
      cases hres : patchSlot H env i w with
      | mk v go =>
          rw [hres] at h same
          cases go with
          | next =>
              obtain ⟨u, j, later, error⟩ := ih h
              exact ⟨u, j, same.trans later, error⟩
          | «return» => cases h
          | fault f' =>
              cases h
              by_cases used : (w.sdb.breaks i).isUsed
              · cases ha : slotAddr H env.uninit w i with
                | error f' =>
                    rw [patchSlot, if_neg (not_not.mpr used), ha] at hres
                    cases hres
                    exact ⟨w, i, .refl _, ha⟩
                | ok a =>
                    rw [patchSlot_of_used H env used ha] at hres
                    rcases patchAt_cases H env i a w with
                      ⟨_, _, _, he⟩ | ⟨_, _, _, _, _, he⟩ | ⟨_, he⟩ <;> rw [he] at hres <;>
                      cases hres
              · rw [patchSlot_of_unused H env used] at hres
                cases hres

theorem pass_fault {v : World K} {f : Fault} (hpass : sdbPatchAllBp H env w = (v, some f)) :
    ∃ u i, w.sdb.SameProgram u.sdb ∧ slotAddr H env.uninit u i = .error f := by
  have fault : (patchFrom H env slots w).2 = some f := by rw [← sdbPatchAllBp, hpass]
  exact patchFrom_fault fault

theorem pass_not_dangling {v : World K} {f : Fault} (heh : w.sdb.eh ≠ none)
    (hpass : sdbPatchAllBp H env w = (v, some f)) : f.dangling = false := by
  obtain ⟨u, i, same, error⟩ := pass_fault hpass
  exact slotAddr_not_dangling (same.eh ▸ heh) error

theorem contFrom_not_dangling {status : Nat} {f : Fault} (heh : w.sdb.eh ≠ none)
    (h : (contFrom H env status w).ending = .fault f) : f.dangling = false := by
  have same := sameProgram_pass H env w
  unfold contFrom at h
  cases hpass : sdbPatchAllBp H env w with
  | mk v fault =>
      rw [hpass] at h same
      cases fault with
      | some f' =>
          cases h
          exact pass_not_dangling heh hpass
      | none =>
          have outcome := waited H env status v.ptraceCont
          simp only at h
          generalize waitLoop H env 3 0 status v.ptraceCont = r at outcome h
          cases outcome with
          | failed wait => cases h
          | busy wait => cases h
          | blocked wait => cases h
          | exited wait => cases h
          | hit wait stopped found => cases h
          | again wait stopped noSlot ok => cases h
          | dropped wait stopped noSlot ok => cases h
          | fault wait stopped noMatch =>
              obtain ⟨p, rfl, -⟩ := waitpid_stopped wait
              obtain ⟨eh, heh⟩ := Option.ne_none_iff_exists'.mp heh
              have handle : (v.ptraceCont.setChild (.live .stopped p)).sdb.eh = some eh := by
                rw [World.setChild_sdb, World.ptraceCont_sdb]
                exact same.eh.trans heh
              rw [matchSlot_eq H env.uninit stopped handle] at noMatch
              cases noMatch

theorem findText_error {data : List Byte} {shdr : List Elf.Shdr} {f : Fault}
    (h : findText data shdr = .error f) : f = .outOfBounds := by
  induction shdr with
  | nil => cases h
  | cons s shdr ih =>
      rw [findText] at h
      split at h
      · cases h
        rfl
      · cases h
      · exact ih h

/-- The commands that test first whether a program is loaded. -/
def Cmd.checksLoaded : Cmd → Bool
  | .start | .run | .break _ | .vmmap => true
  | _ => false

/-- With a program that is whole these commands follow no null or released pointer. -/
theorem not_dangling {cmd : Cmd} (checks : cmd.checksLoaded) (ok : w.sdb.ProgramOk) {f : Fault}
    (h : (cmd.exec H env w).ending = .fault f) : f.dangling = false := by
  by_cases loaded : w.sdb.isLoaded
  · obtain ⟨eh, tab, heh, -, hshdr, hnode, -⟩ := ok loaded
    have heh' : w.sdb.eh ≠ none := by simp [heh]
    cases cmd with
    | start =>
        rw [Cmd.exec, sdbStart, if_neg (not_not.mpr loaded)] at h
        have same := sameProgram_launch env w
        split at h
        · cases h
        · rename_i v status hl
          rw [hl] at same
          split at h
          · rename_i f' hpass
            cases h
            exact pass_not_dangling (same.eh ▸ heh') hpass
          · cases h
    | run =>
        rw [Cmd.exec, sdbRun, if_neg (not_not.mpr loaded)] at h
        have same := sameProgram_launch env w
        split at h
        · split at h
          · cases h
          · rename_i v status hl
            rw [hl] at same
            exact contFrom_not_dangling (same.eh ▸ heh') h
        · exact contFrom_not_dangling heh' h
    | «break» addrStr =>
        rw [Cmd.exec, sdbSetBreak, if_neg (not_not.mpr loaded)] at h
        simp only at h
        split at h
        · cases h
          rfl
        · rename_i i free
          split at h
          · split at h
            · rename_i hpass
              cases h
              exact pass_not_dangling (w := w.setBreak i _) heh' hpass
            · cases h
          · cases h
    | vmmap =>
        rw [Cmd.exec, sdbVmmap, if_neg (not_not.mpr loaded)] at h
        obtain ⟨table, htable⟩ := Option.isSome_iff_exists.mp hshdr
        split at h
        · split at h
          · rename_i f' hfind
            cases h
            simp only [sdbFindText, heh, htable, hnode] at hfind
            split at hfind
            · cases hfind
            · rw [findText_error hfind]
              rfl
          · cases h
          · cases h
        · split at h <;> cases h
          rfl
    | _ => cases checks
  · cases cmd with
    | start =>
        rw [Cmd.exec, sdbStart, if_pos loaded] at h
        cases h
    | run =>
        rw [Cmd.exec, sdbRun, if_pos loaded] at h
        cases h
    | «break» addrStr =>
        rw [Cmd.exec, sdbSetBreak, if_pos loaded] at h
        cases h
    | vmmap =>
        rw [Cmd.exec, sdbVmmap, if_pos loaded] at h
        cases h
    | _ => cases checks

end Commands

/-- A load at the prompt fails only while no program is loaded. -/
def Event.LoadSafe (r : Result K) : Event K → Prop
  | .command (.load filename) env =>
    (∃ out, r.ending = .prompt out) → r.world.sdb.isLoaded → Loadable env filename
  | _ => True

/-- The program is whole, unless the debugger has crashed. -/
def Result.ProgramOk (r : Result K) : Prop := (∀ f, r.ending ≠ .fault f) → r.world.sdb.ProgramOk

variable {H : Host K}

@[simp] theorem World.kill_sdb (w : World K) (pid : Pid) : (w.kill pid).sdb = w.sdb := by
  unfold World.kill
  split <;> rfl

theorem killWaited_sameProgram (w : World K) : w.sdb.SameProgram w.killWaited.world.sdb := by
  unfold World.killWaited
  split <;> exact ⟨rfl, rfl, rfl, rfl⟩

theorem step_programOk (r : Result K) (e : Event K) (h : r.ProgramOk) (safe : e.LoadSafe r) :
    (step H r e).ProgramOk := by
  have outcome := stepped H r e
  generalize step H r e = r' at outcome ⊢
  cases outcome with
  | ignored => exact h
  | @command cmd env out prompt =>
      have ok := h fun f hf => by rw [prompt] at hf; cases hf
      intro noFault
      by_cases load : ∃ filename, cmd = .load filename
      · obtain ⟨filename, rfl⟩ := load
        exact sdbLoad_programOk (safe ⟨out, prompt⟩) noFault
      · exact ok.same (sameProgram_exec fun filename he => load ⟨filename, he⟩)
  | killed noFault => exact fun _ => by rw [World.kill_sdb]; exact h noFault
  | killWaited noFault => exact fun _ => (h noFault).same (killWaited_sameProgram r.world)

/-- In every session in which a load fails only while no program is loaded, a
loaded program is whole, and no command that tests for one follows a pointer
that is not there. -/
theorem session_programOk (fresh : Slot → Bp) (events : List (Event K))
    (safe : Runs.AllSteps (step H) (fun r e => e.LoadSafe r) (created fresh) events)
    (noFault : ∀ f, (session H (created fresh) events).ending ≠ .fault f) :
    (session H (created fresh) events).world.sdb.ProgramOk ∧
      ∀ (cmd : Cmd) (env : Env K), cmd.checksLoaded → ∀ f,
        (cmd.exec H env (session H (created fresh) events).world).ending = .fault f →
          f.dangling = false := by
  have initial : (created fresh : Result K).ProgramOk := fun _ loaded => by cases loaded
  have ok := Runs.invariant Result.ProgramOk step_programOk initial safe noFault
  exact ⟨ok, fun cmd env checks f hf => not_dangling checks ok hf⟩

namespace Fragment

theorem loads_programOk : (session host fresh ([.load "/bin/none".toList,
    .load "/bin/prog".toList, .load "/bin/pie".toList].map (cmd nops 64))).world.sdb.ProgramOk := by
  refine (session_programOk _ _ ?_ fun f hf => by cases hf).1
  refine ⟨fun _ h => ?_, fun _ h => ?_, fun _ _ => ⟨_, _, _, rfl, rfl, rfl⟩, trivial⟩
  · cases h
  · cases h

/-- A load that cannot open its file leaves a path and no handle, and the next
`vmmap` follows a null pointer. -/
theorem failedLoad_programOk : ¬ (session host fresh ([.load "/bin/prog".toList,
    .load "/bin/none".toList].map (cmd nops 64))).world.sdb.ProgramOk ∧
    (session host fresh ([.load "/bin/prog".toList, .load "/bin/none".toList,
      .vmmap].map (cmd nops 64))).ending = .fault .nullHandle := by
  refine ⟨fun ok => ?_, rfl⟩
  obtain ⟨eh, tab, heh, -⟩ := ok rfl
  cases heh

end Fragment

end Sdb
