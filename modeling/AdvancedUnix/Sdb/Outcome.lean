import AdvancedUnix.Sdb.Session

/-!
# What a command can do

One inversion lemma for each command with more than one way to end, so that no
later proof takes the functions apart again. `Waited` is the one for the wait
loop: at most two calls of `waitpid` matter, since after a stop that no slot
accounts for and after the end of the tracee the second one blocks or fails.

`Cmd.passStart` is the state in which a command that makes a pass begins it.
-/

namespace Sdb

open Memory Traced

variable {K : Type}

/-- The first used slot whose run-time address is one below `rip`. -/
def SDB.slotBehind (H : Host K) (sdb : SDB) (ext : K) (rip : Addr) : Option Slot :=
  slots.find? fun i => (sdb.breaks i).isUsed && (sdb.slotAt H ext i == rip - 1)

theorem SDB.slotBehind_eq_some {H : Host K} {sdb : SDB} {ext : K} {rip : Addr} {i : Slot}
    (h : sdb.slotBehind H ext rip = some i) :
    (sdb.breaks i).isUsed ∧ sdb.slotAt H ext i = rip - 1 := by
  have := List.find?_some h
  simpa using this

theorem SDB.slotBehind_eq_none {H : Host K} {sdb : SDB} {ext : K} {rip : Addr} :
    sdb.slotBehind H ext rip = none ↔
      ∀ i, (sdb.breaks i).isUsed → sdb.slotAt H ext i ≠ rip - 1 := by
  simp [slotBehind, slots]

/-- For a live tracee the loop over the slots finds the first slot behind `rip`. -/
theorem matchSlot_eq (H : Host K) (u : Uninit) {w : World K} {p : Proc K} {state : RunState}
    (h : w.current = some (.live state p)) {eh : Elf.Handle} (heh : w.sdb.eh = some eh)
    (rip : Addr) :
    matchSlot H u w rip slots =
      .ok ((w.sdb.slotBehind H p.cpu.ext rip).map fun i => (i, rip - 1)) := by
  unfold SDB.slotBehind
  generalize slots = is
  induction is with
  | nil => rfl
  | cons i is ih =>
      simp only [matchSlot, slotAddr_eq H u h heh, List.find?_cons]
      by_cases hi : (w.sdb.breaks i).isUsed = true ∧ w.sdb.slotAt H p.cpu.ext i = rip - 1
      · simp [hi.1, hi.2]
      · have hd : ((w.sdb.breaks i).isUsed && (w.sdb.slotAt H p.cpu.ext i == rip - 1)) = false := by
          simpa using hi
        rw [if_neg hi, ih, hd]

/-- Without a handle the loop over the slots follows a null pointer at once. -/
theorem matchSlot_of_noHandle (H : Host K) (u : Uninit) {w : World K} (h : w.sdb.eh = none)
    (rip : Addr) : matchSlot H u w rip slots = .error .nullHandle := by
  simp [slots, List.finRange, maxBreak, matchSlot, slotAddr, h]

/-- What a found slot is: the first one behind `rip` for the live tracee. -/
theorem matchSlot_found {H : Host K} {u : Uninit} {w : World K} {p : Proc K} {state : RunState}
    (h : w.current = some (.live state p)) {rip : Addr} {i : Slot} {vaddr : Addr}
    (found : matchSlot H u w rip slots = .ok (some (i, vaddr))) :
    w.sdb.slotBehind H p.cpu.ext rip = some i ∧ vaddr = rip - 1 := by
  cases heh : w.sdb.eh with
  | none =>
      rw [matchSlot_of_noHandle H u heh] at found
      cases found
  | some eh =>
      rw [matchSlot_eq H u h heh, Except.ok.injEq, Option.map_eq_some_iff] at found
      obtain ⟨j, hj, he⟩ := found
      cases he
      exact ⟨hj, rfl⟩

theorem matchSlot_none {H : Host K} {u : Uninit} {w : World K} {p : Proc K} {state : RunState}
    (h : w.current = some (.live state p)) {rip : Addr}
    (noSlot : matchSlot H u w rip slots = .ok none) :
    w.sdb.eh ≠ none ∧ w.sdb.slotBehind H p.cpu.ext rip = none := by
  cases heh : w.sdb.eh with
  | none =>
      rw [matchSlot_of_noHandle H u heh] at noSlot
      cases noSlot
  | some eh =>
      rw [matchSlot_eq H u h heh, Except.ok.injEq, Option.map_eq_none_iff] at noSlot
      exact ⟨Option.some_ne_none eh, noSlot⟩

section Waitpid

variable {P : Platform K} {ok : Bool} {fuel : Nat} {w v : World K}

theorem waitpid_of_stopped {p : Proc K} (hok : ok = true)
    (h : w.current = some (.live .stopped p)) : waitpid P ok fuel w = .blocked := by
  simp [waitpid, hok, h]

theorem waitpid_of_reaped {p : Option (Proc K)} (h : w.current = some (.reaped p)) :
    waitpid P ok fuel w = .error := by
  cases ok <;> simp [waitpid, h]

theorem waitpid_of_running {p : Proc K} (hok : ok = true)
    (h : w.current = some (.live .running p)) :
    waitpid P ok fuel w =
      match p.resume P fuel with
      | (p, none) => .busy (w.setChild (.live .running p))
      | (p, some (.signal sig)) => .stopped sig (w.setChild (.live .stopped p))
      | (p, some (.exit status)) => .exited status (w.setChild (.reaped (some p))) := by
  cases resumed : p.resume P fuel with
  | mk q halt =>
      cases halt with
      | none => simp [waitpid, hok, h, resumed]
      | some halt => cases halt <;> simp [waitpid, hok, h, resumed]

/-- An interrupted call reports an error. -/
theorem waitpid_delivered (h : waitpid P ok fuel w ≠ .error) : ok = true := by
  by_contra no
  exact h (by simp [waitpid, no])

/-- A reported stop was pending, or is where the running tracee got to. -/
theorem waitpid_stopped {sig : Nat} (h : waitpid P ok fuel w = .stopped sig v) :
    ∃ p, v = w.setChild (.live .stopped p) ∧
      (w.current = some (.live (.pending sig) p) ∨
        ∃ q, w.current = some (.live .running q) ∧
          q.resume P fuel = (p, some (.signal sig))) := by
  unfold waitpid at h
  split at h
  · cases h
  · split at h
    · cases h
    · cases h
    · cases h
    · rename_i p hc
      cases h
      exact ⟨p, rfl, .inl hc⟩
    · cases h
    · rename_i q hc
      split at h
      · cases h
      · rename_i p sig' hres
        cases h
        exact ⟨p, rfl, .inr ⟨q, hc, hres⟩⟩
      · cases h

/-- A reported end was there to be collected, or is where the running tracee got to. -/
theorem waitpid_exited {status : Nat} (h : waitpid P ok fuel w = .exited status v) :
    ∃ p, v = w.setChild (.reaped p) ∧
      (w.current = some (.zombie status p) ∨
        ∃ q r, p = some r ∧ w.current = some (.live .running q) ∧
          q.resume P fuel = (r, some (.exit status))) := by
  unfold waitpid at h
  split at h
  · cases h
  · split at h
    · cases h
    · cases h
    · rename_i p hc
      cases h
      exact ⟨p, rfl, .inl hc⟩
    · cases h
    · cases h
    · rename_i q hc
      split at h
      · cases h
      · cases h
      · rename_i r status' hres
        cases h
        exact ⟨some r, rfl, .inr ⟨q, r, rfl, hc, hres⟩⟩

/-- A call that is not interrupted fails only for a child that is gone. -/
theorem waitpid_error (hok : ok = true) (h : waitpid P ok fuel w = .error) :
    ∀ state p, w.current ≠ some (.live state p) := by
  intro state p hc
  unfold waitpid at h
  rw [if_neg (not_not.mpr hok), hc] at h
  cases state with
  | stopped => cases h
  | pending sig => cases h
  | running =>
      simp only at h
      split at h <;> cases h

theorem waitpid_blocked (h : waitpid P ok fuel w = .blocked) :
    ∃ p, w.current = some (.live .stopped p) := by
  unfold waitpid at h
  split at h
  · cases h
  · split at h
    · cases h
    · cases h
    · cases h
    · cases h
    · rename_i p hc
      exact ⟨p, hc⟩
    · split at h <;> cases h

theorem waitpid_busy (h : waitpid P ok fuel w = .busy v) :
    ∃ q, w.current = some (.live .running q) ∧ (q.resume P fuel).2 = none ∧
      v = w.setChild (.live .running (q.resume P fuel).1) := by
  unfold waitpid at h
  split at h
  · cases h
  · split at h
    · cases h
    · cases h
    · cases h
    · cases h
    · cases h
    · rename_i q hc
      split at h
      · rename_i p hres
        cases h
        exact ⟨q, hc, by rw [hres], by rw [hres]⟩
      · cases h
      · cases h

end Waitpid

/-- How the wait loop can end. The first `waitpid` fails, finds the tracee still
running, blocks, or reports the end of the tracee or a stop; a stop is
reported for a slot, or the loop waits for the stopped tracee once more. -/
inductive Waited (H : Host K) (env : Env K) (status : Nat) (w : World K) : Result K → Prop
  | failed (wait : waitpid H.toPlatform (env.waits (.loop 0)) env.fuel w = .error) :
      Waited H env status w (childEnded status w)
  | busy {v : World K} (wait : waitpid H.toPlatform (env.waits (.loop 0)) env.fuel w = .busy v) :
      Waited H env status w ⟨v, .waiting⟩
  | blocked (wait : waitpid H.toPlatform (env.waits (.loop 0)) env.fuel w = .blocked) :
      Waited H env status w ⟨w, .stuck⟩
  | exited {st : Nat} {v : World K}
      (wait : waitpid H.toPlatform (env.waits (.loop 0)) env.fuel w = .exited st v) :
      Waited H env status w (childEnded st v)
  | fault {sig : Nat} {v : World K} {p : Proc K} {f : Fault}
      (wait : waitpid H.toPlatform (env.waits (.loop 0)) env.fuel w = .stopped sig v)
      (stopped : v.current = some (.live .stopped p))
      (noMatch : matchSlot H env.uninit v p.cpu.rip slots = .error f) :
      Waited H env status w ⟨v, .fault f⟩
  | hit {sig : Nat} {v : World K} {p : Proc K} {i : Slot} {vaddr : Addr}
      (wait : waitpid H.toPlatform (env.waits (.loop 0)) env.fuel w = .stopped sig v)
      (stopped : v.current = some (.live .stopped p))
      (found : matchSlot H env.uninit v p.cpu.rip slots = .ok (some (i, vaddr))) :
      Waited H env status w (reportBp v i vaddr p.cpu.regs)
  | again {sig : Nat} {v : World K} {p : Proc K}
      (wait : waitpid H.toPlatform (env.waits (.loop 0)) env.fuel w = .stopped sig v)
      (stopped : v.current = some (.live .stopped p))
      (noSlot : matchSlot H env.uninit v p.cpu.rip slots = .ok none)
      (ok : env.waits (.loop 1) = true) :
      Waited H env status w ⟨v, .stuck⟩
  | dropped {sig : Nat} {v : World K} {p : Proc K}
      (wait : waitpid H.toPlatform (env.waits (.loop 0)) env.fuel w = .stopped sig v)
      (stopped : v.current = some (.live .stopped p))
      (noSlot : matchSlot H env.uninit v p.cpu.rip slots = .ok none)
      (ok : env.waits (.loop 1) = false) :
      Waited H env status w (childEnded (256 * sig + 0x7f) v)

theorem waited (H : Host K) (env : Env K) (status : Nat) (w : World K) :
    Waited H env status w (waitLoop H env 3 0 status w) := by
  rw [waitLoop]
  cases wait : waitpid H.toPlatform (env.waits (.loop 0)) env.fuel w with
  | error => exact .failed wait
  | busy v => exact .busy wait
  | blocked => exact .blocked wait
  | exited st v =>
      obtain ⟨p, rfl, -⟩ := waitpid_exited wait
      have gone : waitLoop H env 2 1 st (w.setChild (.reaped p)) =
          childEnded st (w.setChild (.reaped p)) := by
        rw [waitLoop, waitpid_of_reaped (World.current_setChild _ _)]
      simp only [gone]
      exact .exited wait
  | stopped sig v =>
      obtain ⟨p, rfl, -⟩ := waitpid_stopped wait
      have hc := World.current_setChild w (.live .stopped p)
      have hregs := World.getregs_eq (World.tracee_of_current hc)
      simp only [hregs, Option.getD_some]
      cases hm : matchSlot H env.uninit (w.setChild (.live .stopped p)) p.cpu.rip slots with
      | error f => exact .fault wait hc hm
      | ok found =>
          cases found with
          | some at_ => exact .hit wait hc hm
          | none =>
              simp only
              rw [waitLoop]
              cases hok : env.waits (.loop 1) with
              | true =>
                  rw [waitpid_of_stopped rfl hc]
                  exact .again wait hc hm hok
              | false =>
                  simp only [waitpid, Bool.false_eq_true, not_false_eq_true, if_true]
                  exact .dropped wait hc hm hok

theorem sdbVmmap_world (H : Host K) (w : World K) : (sdbVmmap H w).world = w := by
  unfold sdbVmmap
  repeat' split
  all_goals rfl

theorem sdbDump_world (env : Env K) (addrStr : List Char) (w : World K) :
    (sdbDump env addrStr w).world = w := by
  unfold sdbDump
  repeat' split
  all_goals rfl

/-- What the loop makes of a stop: a report for the slot behind it, or another wait. -/
theorem waitLoop_of_stop {H : Host K} {env : Env K} {status sig : Nat} {w v : World K}
    {p : Proc K} {eh : Elf.Handle}
    (wait : waitpid H.toPlatform (env.waits (.loop 0)) env.fuel w = .stopped sig v)
    (stopped : v.current = some (.live .stopped p)) (heh : v.sdb.eh = some eh) :
    waitLoop H env 3 0 status w =
      match v.sdb.slotBehind H p.cpu.ext p.cpu.rip with
      | some i => reportBp v i (p.cpu.rip - 1) p.cpu.regs
      | none =>
        if env.waits (.loop 1) then ⟨v, .stuck⟩ else childEnded (256 * sig + 0x7f) v := by
  have hregs := World.getregs_eq (World.tracee_of_current stopped)
  rw [waitLoop, wait]
  simp only [hregs, Option.getD_some, matchSlot_eq H env.uninit stopped heh]
  cases v.sdb.slotBehind H p.cpu.ext p.cpu.rip with
  | some i => rfl
  | none =>
      simp only [Option.map_none]
      rw [waitLoop]
      cases hok : env.waits (.loop 1) with
      | true => rw [waitpid_of_stopped rfl stopped]; rfl
      | false => simp [waitpid]

/-- `si` steps the tracee once and is back at the prompt. -/
theorem sdbStep_world {H : Host K} {env : Env K} {w : World K} {p : Proc K}
    (running : w.sdb.isRunning) (hp : w.tracee = some p) :
    (sdbStep H env w).world =
      w.setChild (Child.stepped H.toPlatform (env.waits .step) p) := by
  have hstep : w.singlestep H.toPlatform =
      some (w.setChild (.halted (p.advance H.toPlatform) (H.halt p.cpu))) := by
    rw [World.singlestep, hp, Option.map_some]
  rw [← World.stepAndWait_eq _ _ hp, sdbStep, if_neg (not_not.mpr running)]
  simp only [World.stepAndWait, hstep, Option.getD_some]
  split <;> rfl

theorem sdbStep_world_of_none {H : Host K} {env : Env K} {w : World K} (hp : w.tracee = none) :
    (sdbStep H env w).world = w := by
  simp only [sdbStep, World.singlestep, hp, Option.map_none]
  split <;> rfl

/-- Printing changes at most the address to go on from. -/
theorem printInsns_eq (H : Host K) (buffer : List Byte) (addr : Addr) (w : World K) :
    ∃ a out, printInsns H buffer addr w = ⟨w.setLastDisasmAddr a, .prompt out⟩ := by
  unfold printInsns
  split
  · exact ⟨w.sdb.lastDisasmAddr, _, rfl⟩
  · exact ⟨_, _, rfl⟩

theorem disasmFile_world (H : Host K) (env : Env K) (addr : Addr) (w : World K) :
    ∃ a, (disasmFile H env addr w).world = w.setLastDisasmAddr a := by
  unfold disasmFile
  split
  · exact ⟨w.sdb.lastDisasmAddr, rfl⟩
  · split
    · exact ⟨w.sdb.lastDisasmAddr, rfl⟩
    · split
      · exact ⟨w.sdb.lastDisasmAddr, rfl⟩
      · split
        · exact ⟨w.sdb.lastDisasmAddr, rfl⟩
        · obtain ⟨a, out, he⟩ := printInsns_eq H (readFile _ _ 64) addr w
          exact ⟨a, by rw [he]⟩

/-- When the pass begun here is over and the tracee resumed: the slot that it
stops at, and the state at that stop. -/
def World.hit (H : Host K) (env : Env K) (w : World K) : Option (World K × Slot) :=
  match waitpid H.toPlatform (env.waits (.loop 0)) env.fuel
      (sdbPatchAllBp H env w).1.ptraceCont with
  | .stopped _ v =>
    v.tracee.bind fun p => (v.sdb.slotBehind H p.cpu.ext p.cpu.rip).map fun i => (v, i)
  | _ => none

/-- The state after a successful launch. -/
def launched (env : Env K) (w : World K) : Option (World K) :=
  match launch env w with
  | (w, .ok _) => some w
  | (_, .error _) => none

/-- The state in which the command begins its pass over the slots, if it makes one. -/
def Cmd.passStart (env : Env K) : Cmd → World K → Option (World K)
  | .start, w => if w.sdb.isLoaded then launched env w else none
  | .run, w =>
    if w.sdb.isLoaded then if w.sdb.isRunning then some w else launched env w else none
  | .cont, w => if w.sdb.isRunning then some w else none
  | .break addrStr, w =>
    if w.sdb.isLoaded ∧ w.sdb.isRunning then
      (freeSlot w.sdb).map fun i =>
        let addr := (hexOperand addrStr env.uninit.tail).getD env.uninit.addr
        w.setBreak i { w.sdb.breaks i with isUsed := true, addr := addr }
    else none
  | .disasm addrStr, w =>
    if ¬ w.sdb.isRunning then none
    else if addrStr = [] then
      if w.sdb.lastDisasmAddr = 0 then none else some (restoreAll slots w)
    else
      let addr := (hexOperand addrStr env.uninit.tail).getD env.uninit.addr
      some (restoreAll slots (w.setLastDisasmAddr addr))
  | _, _ => none

/-- A new child: about to report the trap of `execlp`, or gone because that failed. -/
inductive Born (env : Env K) : Child K → Prop
  | started {image : Image K} (exec : env.exec = some image) :
      Born env (.live (.pending sigtrap) image.load)
  | failed (exec : env.exec = none) : Born env (.zombie 0xff00 none)

/-- No child is started, or a new one that was waited for or not. -/
theorem launch_cases (env : Env K) (w : World K) :
    (env.fork = none ∧ (launch env w).1 = w.setPid (-1)) ∨
      ∃ pid c, env.fork = some pid ∧ Born env c ∧
        ((launch env w).1 = ((w.setPid pid).setChild c).collect ∨
          (launch env w).1 = (w.setPid pid).setChild c) := by
  unfold launch
  cases fork : env.fork with
  | none => exact .inl ⟨rfl, rfl⟩
  | some pid =>
      cases exec : env.exec with
      | none =>
          refine .inr ⟨pid, _, rfl, .failed exec, ?_⟩
          by_cases wait : env.waits .exec
          · simp [wait]
          · simp [wait]
      | some image =>
          refine .inr ⟨pid, _, rfl, .started exec, ?_⟩
          by_cases wait : env.waits .exec
          · simp [wait]
          · simp [wait]

/-- A launched program stands at its start, stopped, and nothing else changed. -/
theorem launched_eq_some {env : Env K} {w v : World K} (h : launched env w = some v) :
    ∃ pid : { pid : Pid // 0 < pid }, env.fork = some pid ∧
      v = (w.setPid pid).setChild
        (match env.exec with
        | some image => .live .stopped image.load
        | none => .reaped none) := by
  unfold launched launch at h
  cases hfork : env.fork with
  | none => simp [hfork] at h
  | some pid =>
      refine ⟨pid, rfl, ?_⟩
      cases hwait : env.waits .exec with
      | false => simp [hfork, hwait] at h
      | true =>
          cases hexec : env.exec with
          | none =>
              simp only [hfork, hexec, hwait, if_true, World.collect, World.current_setChild,
                World.setChild_setChild, Option.some.injEq] at h
              exact h.symm
          | some image =>
              simp only [hfork, hexec, hwait, if_true, World.collect, World.current_setChild,
                World.setChild_setChild, Option.some.injEq] at h
              exact h.symm

/-- `load` crashes, returns early with the program it had and the path of that, or
replaces the program. -/
theorem sdbLoad_cases (env : Env K) (filename : List Char) (w : World K) :
    (∃ s f, sdbLoad env filename w = ⟨{ w with sdb := s }, .fault f⟩) ∨
      (∃ s text, sdbLoad env filename w = ⟨{ w with sdb := s }, .prompt (.message text)⟩ ∧
        ¬ Loadable env filename ∧ s.pid = w.sdb.pid ∧ s.path = w.sdb.path) ∨
      ∃ (eh : Elf.Handle) (tab : Elf.Strtab), Loadable env filename ∧
        eh.filename = filename ∧ eh.shdr.isSome ∧
        eh.strtab.find? (fun tab => tab.id = eh.shstrndx) = some tab ∧
        sdbLoad env filename w = ⟨{ w with sdb := { w.sdb with
          eh := some eh, opened := w.sdb.opened + 1
          strtab := some ⟨w.sdb.opened + 1, tab.id⟩ }.reset filename }, .prompt .silent⟩ := by
  unfold sdbLoad
  cases hopen : Elf.elfOpen env.elf filename with
  | error fault => exact .inl ⟨_, _, rfl⟩
  | ok opened =>
      cases opened with
      | none =>
          refine .inr (.inl ⟨_, _, rfl, ?_, rfl, rfl⟩)
          rintro ⟨eh, -, -, h, -⟩
          rw [hopen] at h
          cases h
      | some eh =>
          simp only
          cases hall : Elf.elfLoadAll env.elf eh with
          | error fault => exact .inl ⟨_, _, rfl⟩
          | ok all =>
              obtain ⟨eh', loaded⟩ := all
              -- what `Loadable` says about this file
              have same : ∀ {eh₁ eh₂ b}, Elf.elfOpen env.elf filename = .ok (some eh₁) →
                  Elf.elfLoadAll env.elf eh₁ = .ok (eh₂, b) → eh₂ = eh' ∧ b = loaded := by
                intro eh₁ eh₂ b h h'
                rw [hopen] at h
                cases h
                rw [hall] at h'
                cases h'
                exact ⟨rfl, rfl⟩
              cases loaded with
              | false =>
                  refine .inr (.inl ⟨_, _, rfl, ?_, rfl, rfl⟩)
                  rintro ⟨eh₁, eh₂, -, h, h', -⟩
                  cases (same h h').2
              | true =>
                  simp only [not_true_eq_false, if_false]
                  cases htab : eh'.strtab.find? fun tab => tab.id = eh'.shstrndx with
                  | none =>
                      refine .inr (.inl ⟨_, _, rfl, ?_, rfl, rfl⟩)
                      rintro ⟨eh₁, eh₂, tab, h, h', h''⟩
                      obtain ⟨rfl, -⟩ := same h h'
                      rw [htab] at h''
                      cases h''
                  | some tab =>
                      simp only
                      split
                      · exact .inl ⟨_, _, rfl⟩
                      · split
                        · exact .inl ⟨_, _, rfl⟩
                        · obtain ⟨name, shdr⟩ := Elf.elfLoadAll_loaded hall
                          exact .inr (.inr ⟨eh', tab, ⟨eh, eh', tab, hopen, hall, htab⟩,
                            name.trans (Elf.elfOpen_filename hopen), shdr, htab, rfl⟩)

theorem launched_running {env : Env K} {w v : World K} (h : launched env w = some v) :
    v.sdb.isRunning := by
  obtain ⟨pid, -, rfl⟩ := launched_eq_some h
  refine decide_eq_true (show pid.1 ≠ -1 from fun he => ?_)
  have := pid.2
  rw [he] at this
  exact absurd this (by decide)

/-- `disasm` makes a pass exactly when it reads from a tracee. -/
theorem sdbDisasm_cases (H : Host K) (env : Env K) (addrStr : List Char) (w : World K) :
    ((Cmd.disasm addrStr).passStart env w = none ∧
        ∃ a, (sdbDisasm H env addrStr w).world = w.setLastDisasmAddr a) ∨
      ∃ addr a, w.sdb.isRunning ∧
        (Cmd.disasm addrStr).passStart env w = some (restoreAll slots (w.setLastDisasmAddr a)) ∧
        sdbDisasm H env addrStr w = disasmLive H env addr (w.setLastDisasmAddr a) := by
  simp only [sdbDisasm, Cmd.passStart]
  by_cases operand : addrStr = []
  · by_cases noAddr : w.sdb.lastDisasmAddr = 0
    · refine .inl ⟨by rw [if_pos operand, if_pos noAddr, ite_self], w.sdb.lastDisasmAddr, ?_⟩
      simp only [if_pos operand, if_pos noAddr]
      rfl
    · by_cases running : w.sdb.isRunning
      · refine .inr ⟨w.sdb.lastDisasmAddr, w.sdb.lastDisasmAddr, running, ?_, ?_⟩
        · rw [if_neg (not_not.mpr running), if_pos operand, if_neg noAddr]
          rfl
        · simp only [if_pos operand, if_neg noAddr, if_pos running]
          rfl
      · refine .inl ⟨by rw [if_pos running], ?_⟩
        simp only [if_pos operand, if_neg noAddr, if_neg running]
        exact disasmFile_world H env _ w
  · generalize (hexOperand addrStr env.uninit.tail).getD env.uninit.addr = addr
    by_cases running : w.sdb.isRunning
    · refine .inr ⟨addr, addr, running, ?_, ?_⟩
      · rw [if_neg (not_not.mpr running), if_neg operand]
      · have same : (w.setLastDisasmAddr addr).sdb.isRunning = true := running
        simp only [if_neg operand, if_pos same]
    · refine .inl ⟨by rw [if_pos running], ?_⟩
      have same : ¬ (w.setLastDisasmAddr addr).sdb.isRunning = true := running
      simp only [if_neg operand, if_neg same]
      exact disasmFile_world H env addr (w.setLastDisasmAddr addr)

/-- `cont` and `run`: the commands that resume the tracee and wait for it. -/
def Cmd.resumes : Cmd → Bool
  | .cont | .run => true
  | _ => false

/-- Such a command either is its pass and what follows, or ends with a message. -/
theorem Cmd.exec_resumes (H : Host K) (env : Env K) {cmd : Cmd} (resumes : cmd.resumes)
    (w : World K) :
    (∃ u status, cmd.passStart env w = some u ∧ cmd.exec H env w = contFrom H env status u) ∨
      (cmd.passStart env w = none ∧
        ∃ v text, cmd.exec H env w = ⟨v, .prompt (.message text)⟩) := by
  cases cmd with
  | cont =>
      simp only [passStart, exec, sdbCont]
      by_cases running : w.sdb.isRunning
      · exact .inl ⟨w, _, by rw [if_pos running], by rw [if_neg (not_not.mpr running)]⟩
      · exact .inr ⟨by rw [if_neg running], _, _, by rw [if_pos running]⟩
  | run =>
      simp only [passStart, exec, sdbRun]
      by_cases loaded : w.sdb.isLoaded
      · rw [if_pos loaded, if_neg (not_not.mpr loaded)]
        by_cases running : w.sdb.isRunning
        · exact .inl ⟨w, _, by rw [if_pos running], by rw [if_neg (not_not.mpr running)]⟩
        · rw [if_neg running, if_pos running, launched]
          cases hl : launch env w with
          | mk v status =>
              cases status with
              | error text => exact .inr ⟨rfl, v, text, rfl⟩
              | ok status => exact .inl ⟨v, status, rfl, rfl⟩
      · exact .inr ⟨by rw [if_neg loaded], _, _, by rw [if_pos loaded]⟩
  | _ => cases resumes

/-- The tracee that the wait loop begins with is running. -/
theorem World.ptraceCont_current {w : World K} {state : RunState} {p : Proc K}
    (h : w.ptraceCont.current = some (.live state p)) : state = .running := by
  unfold ptraceCont at h
  split at h
  · rw [current_setChild] at h
    cases h
    rfl
  · rename_i none
    cases state with
    | running => rfl
    | stopped => simp [tracee, h] at none
    | pending sig => simp [tracee, h] at none

end Sdb
