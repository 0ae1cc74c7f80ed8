import AdvancedUnix.Sdb.Basic

/-!
# The requests that reach the child

`ptrace` and `waitpid` for the child whose identifier the debugger holds. A
request fails unless that child is alive and stopped; `tracee` is the process
that requests reach. A single step or a resumption changes the run state of the
child, and `waitpid` is what turns a stop into one the debugger knows of, or
removes a child that has ended.
-/

namespace Sdb

open Memory Traced

variable {K : Type}

/-- What a child goes through when it halts before the tracer has been told. -/
def Child.halted (p : Proc K) : Option Halt → Child K
  | none => .live (.pending sigtrap) p
  | some (.signal sig) => .live (.pending sig) p
  | some (.exit status) => .zombie status (some p)

/-- What the child has executed so far, dead or alive. -/
def Child.record : Child K → Option (Proc K)
  | .live _ p => some p
  | .zombie _ p => p
  | .reaped p => p

/-- A child after a single step and its `waitpid`, if that was not interrupted. -/
def Child.stepped (P : Platform K) (ok : Bool) (p : Proc K) : Child K :=
  match P.halt p.cpu with
  | none => .live (if ok then .stopped else .pending sigtrap) (p.advance P)
  | some (.signal sig) => .live (if ok then .stopped else .pending sig) (p.advance P)
  | some (.exit status) =>
    if ok then .reaped (some (p.advance P)) else .zombie status (some (p.advance P))

@[simp] theorem Child.record_stepped (P : Platform K) (ok : Bool) (p : Proc K) :
    (Child.stepped P ok p).record = some (p.advance P) := by
  unfold stepped
  split
  · rfl
  · rfl
  · split <;> rfl

namespace World

/-- The child whose identifier the debugger holds. -/
def current (w : World K) : Option (Child K) := w.child w.sdb.pid

/-- The process that ptrace requests reach: alive and stopped. -/
def tracee (w : World K) : Option (Proc K) :=
  match w.current with
  | some (.live .stopped p) => some p
  | some (.live (.pending _) p) => some p
  | _ => none

/-- The child that the debugger takes for its running program, if it is alive. -/
def live (w : World K) : Option (Proc K) :=
  if w.sdb.isRunning then
    match w.current with
    | some (.live _ p) => some p
    | _ => none
  else none

/-- Replace the process of a live child and leave its run state as it is. -/
def setTracee (w : World K) (p : Proc K) : World K :=
  match w.current with
  | some (.live state _) => w.setChild (.live state p)
  | _ => w

/-- `PTRACE_GETREGS`. -/
def getregs (w : World K) : Option UserRegs := w.tracee.map fun p => p.cpu.regs

/-- `PTRACE_SETREGS`, which is taken to store the whole register file. -/
def setregs (w : World K) (regs : UserRegs) : Option (World K) :=
  w.tracee.map fun p => w.setTracee (p.setRegs regs)

/-- `PTRACE_PEEKTEXT`. -/
def peek (w : World K) (a : Addr) : Option Word :=
  w.tracee.bind fun p => readWord p.cpu.mem a

/-- The value of a peek whose failure nobody looks at. -/
def peekOrError (w : World K) (a : Addr) : Word := (w.peek a).getD (-1)

/-- `PTRACE_POKETEXT`, which is taken to write all eight bytes or to fail and write none. -/
def poke (w : World K) (a : Addr) (word : Word) : Option (World K) :=
  w.tracee.bind fun p =>
    (writeWord p.cpu.mem a word).map fun mem => w.setTracee (p.setMem mem)

/-- A poke whose failure nobody looks at. -/
def pokeOrIgnore (w : World K) (a : Addr) (word : Word) : World K := (w.poke a word).getD w

/-- `PTRACE_SINGLESTEP`: one instruction, after which the child stops again. -/
def singlestep (P : Platform K) (w : World K) : Option (World K) :=
  w.tracee.map fun p => w.setChild (.halted (p.advance P) (P.halt p.cpu))

/-- `PTRACE_CONT`. -/
def ptraceCont (w : World K) : World K :=
  match w.tracee with
  | some p => w.setChild (.live .running p)
  | none => w

/-- A `waitpid` that finds something to report. The calls after a single step
do not look at what it was. -/
def collect (w : World K) : World K :=
  match w.current with
  | some (.live (.pending _) p) => w.setChild (.live .stopped p)
  | some (.zombie _ p) => w.setChild (.reaped p)
  | _ => w

/-- A single step and the `waitpid` after it. -/
def stepAndWait (P : Platform K) (ok : Bool) (w : World K) : World K :=
  let w := (w.singlestep P).getD w
  if ok then w.collect else w

end World

/-- What `waitpid` does in the wait loop. -/
inductive WaitResult (K : Type) where
  | error
  /-- the tracee stopped -/
  | stopped (sig : Nat) (w : World K)
  /-- the tracee exited or was killed -/
  | exited (status : Nat) (w : World K)
  /-- the tracee is still running -/
  | busy (w : World K)
  /-- the tracee is stopped and the debugger already knows: there is nothing
  to wait for -/
  | blocked

/-- `waitpid(sdb->pid, &status, 0)`, after at most `fuel` instructions of a
running tracee. -/
def waitpid (P : Platform K) (ok : Bool) (fuel : Nat) (w : World K) : WaitResult K :=
  if ¬ ok then .error
  else
    match w.current with
    | none => .error
    | some (.reaped _) => .error
    | some (.zombie status p) => .exited status (w.setChild (.reaped p))
    | some (.live (.pending sig) p) => .stopped sig (w.setChild (.live .stopped p))
    | some (.live .stopped _) => .blocked
    | some (.live .running p) =>
      match p.resume P fuel with
      | (p, none) => .busy (w.setChild (.live .running p))
      | (p, some (.signal sig)) => .stopped sig (w.setChild (.live .stopped p))
      | (p, some (.exit status)) => .exited status (w.setChild (.reaped (some p)))

/-- The lines of `/proc/<pid>/maps`; the file is empty for a child that has
ended and gone once it has been waited for. -/
def World.maps (H : Host K) (w : World K) : Option (List (List Char)) :=
  match w.current with
  | some (.live _ p) => some (H.maps p.cpu.ext)
  | some (.zombie _ _) => some []
  | _ => none

/-- `convert_dynamic_addr`. -/
def convertDynamicAddr (H : Host K) (u : Uninit) (w : World K) (addr : Addr) :
    Except Fault Addr :=
  match w.maps H with
  | none => .error .noMaps
  | some lines => .ok ((mapsBase w.sdb.path lines none).getD u.base + addr)

/-- The address a slot is patched at: translated when the file's type is 3. -/
def slotAddr (H : Host K) (u : Uninit) (w : World K) (i : Slot) : Except Fault Addr :=
  match w.sdb.eh with
  | none => .error .nullHandle
  | some eh =>
    if eh.type = 3 then convertDynamicAddr H u w (w.sdb.breaks i).addr
    else .ok (w.sdb.breaks i).addr

/-- The run-time address of a file address in a process with these mappings. -/
def SDB.runtime (H : Host K) (sdb : SDB) (ext : K) (addr : Addr) : Addr :=
  match sdb.eh with
  | some eh => if eh.type = 3 then (mapsBase sdb.path (H.maps ext) none).getD 0 + addr else addr
  | none => addr

/-- The run-time address of a slot in a process with these mappings. -/
def SDB.slotAt (H : Host K) (sdb : SDB) (ext : K) (i : Slot) : Addr :=
  sdb.runtime H ext (sdb.breaks i).addr

/-- The same program and the same breakpoints; the saved words may differ. -/
structure SDB.SameTable (s t : SDB) : Prop where
  eh : t.eh = s.eh
  path : t.path = s.path
  isUsed : ∀ i, (t.breaks i).isUsed = (s.breaks i).isUsed
  addr : ∀ i, (t.breaks i).addr = (s.breaks i).addr

theorem SDB.SameTable.slotAt {H : Host K} {s t : SDB} (h : s.SameTable t) (ext : K) (i : Slot) :
    t.slotAt H ext i = s.slotAt H ext i := by
  simp only [SDB.slotAt, SDB.runtime, h.eh, h.path, h.addr]

theorem SDB.SameTable.refl (s : SDB) : s.SameTable s := ⟨rfl, rfl, fun _ => rfl, fun _ => rfl⟩

theorem SDB.SameTable.trans {s t u : SDB} (h : s.SameTable t) (g : t.SameTable u) :
    s.SameTable u :=
  ⟨g.eh.trans h.eh, g.path.trans h.path, fun i => (g.isUsed i).trans (h.isUsed i),
    fun i => (g.addr i).trans (h.addr i)⟩

namespace World

variable {w : World K} {p : Proc K}

/-- The tracee is alive and stopped, in one of the two run states. -/
theorem tracee_eq_some_iff : w.tracee = some p ↔
    w.current = some (.live .stopped p) ∨ ∃ sig, w.current = some (.live (.pending sig) p) := by
  unfold tracee
  constructor
  · intro h
    split at h
    · rename_i hc
      exact .inl (by rw [hc, Option.some.inj h])
    · rename_i hc
      exact .inr ⟨_, by rw [hc, Option.some.inj h]⟩
    · cases h
  · rintro (h | ⟨sig, h⟩) <;> rw [h]

theorem tracee_live (h : w.tracee = some p) : ∃ state, w.current = some (.live state p) := by
  rcases tracee_eq_some_iff.mp h with h | ⟨sig, h⟩
  · exact ⟨_, h⟩
  · exact ⟨_, h⟩

theorem live_eq_some_iff :
    w.live = some p ↔ w.sdb.isRunning ∧ ∃ state, w.current = some (.live state p) := by
  unfold live
  split
  · rename_i hrun
    split
    · rename_i hc
      constructor
      · intro h
        exact ⟨hrun, _, by rw [hc, Option.some.inj h]⟩
      · rintro ⟨-, state, h⟩
        rw [hc] at h
        cases h
        rfl
    · rename_i hc
      constructor
      · intro h
        cases h
      · rintro ⟨-, state, h⟩
        exact absurd h (hc state p)
  · rename_i hrun
    simp [hrun]

theorem live_of_tracee (hrun : w.sdb.isRunning) (h : w.tracee = some p) : w.live = some p :=
  live_eq_some_iff.mpr ⟨hrun, tracee_live h⟩

@[simp] theorem current_setChild (w : World K) (c : Child K) : (w.setChild c).current = some c :=
  setChild_child w c

@[simp] theorem current_setBreak (w : World K) (i : Slot) (bp : Bp) :
    (w.setBreak i bp).current = w.current := rfl

@[simp] theorem tracee_setBreak (w : World K) (i : Slot) (bp : Bp) :
    (w.setBreak i bp).tracee = w.tracee := rfl

@[simp] theorem current_setLastDisasmAddr (w : World K) (a : Addr) :
    (w.setLastDisasmAddr a).current = w.current := rfl

@[simp] theorem tracee_setLastDisasmAddr (w : World K) (a : Addr) :
    (w.setLastDisasmAddr a).tracee = w.tracee := rfl

@[simp] theorem setTracee_sdb (w : World K) (p : Proc K) : (w.setTracee p).sdb = w.sdb := by
  unfold setTracee
  split <;> rfl

theorem tracee_setTracee (h : w.tracee = some p) (q : Proc K) :
    (w.setTracee q).tracee = some q := by
  unfold setTracee
  rcases tracee_eq_some_iff.mp h with hc | ⟨sig, hc⟩ <;> rw [hc] <;>
    simp only [tracee, current_setChild]

theorem tracee_of_current (h : w.current = some (.live .stopped p)) : w.tracee = some p :=
  tracee_eq_some_iff.mpr (.inl h)

@[simp] theorem setChild_setChild (w : World K) (c d : Child K) :
    (w.setChild c).setChild d = w.setChild d := by
  simp [setChild]

theorem current_setTracee (h : w.tracee = some p) (q : Proc K) :
    ∃ state, (w.setTracee q).current = some (.live state q) := by
  unfold setTracee
  rcases tracee_eq_some_iff.mp h with hc | ⟨sig, hc⟩ <;> rw [hc] <;>
    exact ⟨_, current_setChild _ _⟩

theorem stepAndWait_eq (P : Platform K) (ok : Bool) (h : w.tracee = some p) :
    w.stepAndWait P ok = w.setChild (Child.stepped P ok p) := by
  have hstep : (w.singlestep P).getD w =
      w.setChild (.halted (p.advance P) (P.halt p.cpu)) := by
    rw [singlestep, h, Option.map_some, Option.getD_some]
  simp only [stepAndWait, hstep, Child.stepped]
  cases ok with
  | false => cases P.halt p.cpu with
    | none => rfl
    | some halt => cases halt <;> rfl
  | true =>
      simp only [if_true, collect, current_setChild]
      cases P.halt p.cpu with
      | none => simp [Child.halted]
      | some halt => cases halt <;> simp [Child.halted]

theorem stepAndWait_eq_of_none (P : Platform K) (ok : Bool) (h : w.tracee = none) :
    w.stepAndWait P ok = if ok then w.collect else w := by
  simp only [stepAndWait, singlestep, h, Option.map_none, Option.getD_none]

@[simp] theorem collect_sdb (w : World K) : w.collect.sdb = w.sdb := by
  unfold collect
  split <;> rfl

@[simp] theorem stepAndWait_sdb (P : Platform K) (ok : Bool) (w : World K) :
    (w.stepAndWait P ok).sdb = w.sdb := by
  cases h : w.tracee with
  | none =>
      rw [stepAndWait_eq_of_none P ok h]
      split
      · exact collect_sdb w
      · rfl
  | some p => rw [stepAndWait_eq P ok h, setChild_sdb]

@[simp] theorem ptraceCont_sdb (w : World K) : w.ptraceCont.sdb = w.sdb := by
  unfold ptraceCont
  split <;> rfl

/-- Collecting a child that requests do not reach leaves it out of reach. -/
theorem tracee_collect (h : w.tracee = none) : w.collect.tracee = none := by
  unfold collect
  split
  · rename_i hc
    rw [tracee, hc] at h
    cases h
  · simp only [tracee, current_setChild]
  · exact h

theorem getregs_eq (h : w.tracee = some p) : w.getregs = some p.cpu.regs := by
  rw [getregs, h, Option.map_some]

theorem peek_eq (h : w.tracee = some p) (a : Addr) : w.peek a = readWord p.cpu.mem a := by
  rw [peek, h, Option.bind_some]

theorem poke_eq (h : w.tracee = some p) (a : Addr) (word : Word) :
    w.poke a word = (writeWord p.cpu.mem a word).map fun mem => w.setTracee (p.setMem mem) := by
  rw [poke, h, Option.bind_some]

theorem peek_eq_some {a : Addr} {word : Word} (h : w.peek a = some word) :
    ∃ p, w.tracee = some p ∧ readWord p.cpu.mem a = some word := by
  unfold peek at h
  cases hp : w.tracee with
  | none => simp [hp] at h
  | some p => exact ⟨p, rfl, by simpa [hp] using h⟩

/-- A word that can be read can be written. -/
theorem pokeOrIgnore_eq (h : w.tracee = some p) {a : Addr} {old : Word}
    (read : readWord p.cpu.mem a = some old) (word : Word) :
    ∃ m, writeWord p.cpu.mem a word = some m ∧
      w.pokeOrIgnore a word = w.setTracee (p.setMem m) := by
  have mapped : Mapped p.cpu.mem a := readWord_isSome.mp (by simp [read])
  obtain ⟨m, hm⟩ : ∃ m, writeWord p.cpu.mem a word = some m :=
    Option.ne_none_iff_exists'.mp fun hn => writeWord_eq_none.mp hn mapped
  refine ⟨m, hm, ?_⟩
  rw [pokeOrIgnore, poke_eq h, hm, Option.map_some, Option.getD_some]

theorem setregs_eq (h : w.tracee = some p) (regs : UserRegs) :
    w.setregs regs = some (w.setTracee (p.setRegs regs)) := by
  rw [setregs, h, Option.map_some]

theorem maps_eq (H : Host K) {state : RunState} (h : w.current = some (.live state p)) :
    w.maps H = some (H.maps p.cpu.ext) := by
  rw [maps, h]

end World

theorem convertDynamicAddr_eq (H : Host K) (u : Uninit) {w : World K} {p : Proc K}
    {state : RunState} (h : w.current = some (.live state p)) (addr : Addr) :
    convertDynamicAddr H u w addr =
      .ok ((mapsBase w.sdb.path (H.maps p.cpu.ext) none).getD 0 + addr) := by
  obtain ⟨nonempty, begins⟩ := H.maps_listed p.cpu.ext
  obtain ⟨base, hbase⟩ := Option.isSome_iff_exists.mp
    (mapsBase_isSome w.sdb.path none begins (.inl nonempty))
  simp only [convertDynamicAddr, World.maps_eq H h, hbase, Option.getD_some]

/-- For a live child the translated address of a slot is its run-time address. -/
theorem slotAddr_eq (H : Host K) (u : Uninit) {w : World K} {p : Proc K} {state : RunState}
    (h : w.current = some (.live state p)) {eh : Elf.Handle} (heh : w.sdb.eh = some eh)
    (i : Slot) : slotAddr H u w i = .ok (w.sdb.slotAt H p.cpu.ext i) := by
  simp only [slotAddr, SDB.slotAt, SDB.runtime, heh]
  split
  · exact convertDynamicAddr_eq H u h _
  · rfl

end Sdb
