import AdvancedUnix.Debugging.Ideal
import AdvancedUnix.Sdb.Armed

/-!
# Where a resumed tracee arrives

With all its traps in place the tracee executes what the program executes alone, up to the
first breakpoint on its way. There it executes the trap; the wait loop finds the slot,
puts the word back and moves the tracee to where the program stands.
-/

namespace Sdb

open Memory Traced Debugging Slots

variable {K : Type}

/-- The traced program as a machine of its own. -/
def program (H : Host K) : Machine (Cpu K) Addr Nat where
  next := H.next
  ends c :=
    match H.halt c with
    | some (.exit status) => some status
    | _ => none
  pc := Cpu.rip

/-- How the resumption of a tracee ends, seen from where the program gets to. -/
inductive Arrived (H : Host K) (s : SDB) (image : Image K) (T : Slot → Prop) :
    Proc K × Option Halt → Arrival (Cpu K) Nat → Prop
  | hit {p : Proc K} {n : Nat} {i : Slot} (same : p.image = image)
      (inStep : p.InStep H.toPlatform n) (armed : Armed H s T p) (set : T i)
      (here : s.site H image i = (H.native image.cpu n).rip) :
      Arrived H s image T (p.advance H.toPlatform, some (.signal sigtrap))
        (.hit (H.native image.cpu n))
  | ended {p : Proc K} {status : Nat} : Arrived H s image T (p, some (.exit status)) (.ended status)
  | going {p : Proc K} {c : Cpu K} : Arrived H s image T (p, none) (.going c)

variable {H : Host K} {env : Env K} {B : Addr → Prop} {s : SDB} {w : World K} {p : Proc K}
variable {image : Image K} {n : Nat} {T : Slot → Prop} {i : Slot}

/-- An entry of the table as the address of a slot in use. -/
theorem entry_iff {a : Addr} :
    (s.table i).map (s.runtime H image.cpu.ext) = some a ↔
      (s.breaks i).isUsed ∧ s.site H image i = a := by
  unfold SDB.table
  by_cases used : (s.breaks i).isUsed
  · rw [if_pos used, Option.map_some, Option.some_inj, and_iff_right used]
    rfl
  · rw [if_neg used, Option.map_none]
    exact iff_of_false nofun fun h => used h.1

theorem hits_iff {a : Addr} :
    Hits s.table (s.runtime H image.cpu.ext) a ↔
      ∃ i, (s.breaks i).isUsed ∧ s.site H image i = a :=
  exists_congr fun _ => entry_iff

theorem program_ends_none {c : Cpu K} (noSignal : ∀ sig, H.halt c ≠ some (.signal sig))
    (goesOn : (program H).ends c = none) : H.halt c = none := by
  cases halt : H.halt c with
  | none => rfl
  | some halts =>
      cases halts with
      | signal sig => exact absurd halt (noSignal sig)
      | exit status => simp [program, halt] at goesOn

theorem program_ends_some {c : Cpu K} {status : Nat} (ends : (program H).ends c = some status) :
    H.halt c = some (.exit status) := by
  simp only [program] at ends
  split at ends
  · rename_i halt
    rw [halt, Option.some.inj ends]
  · cases ends

namespace Debugged

theorem rip (h : Debugged H B w p n T) : p.cpu.rip = (H.native p.image.cpu n).rip := by
  rw [Cpu.rip, Cpu.rip, h.regs]

theorem trap_at (h : Debugged H B w p n T) (set : T i)
    (here : w.sdb.site H p.image i = (H.native p.image.cpu n).rip) :
    p.cpu.mem p.cpu.rip = some trapByte := by
  rw [h.rip, ← here]
  exact h.armed.trap i set

theorem goesOn (h : Debugged H B w p n T)
    (ends : (program H).ends (H.native p.image.cpu n) = none) :
    H.halt (H.native p.image.cpu n) = none :=
  program_ends_none (h.good.self.noSignal n h.inStep.reaches) ends

/-- Where the program ends at its next instruction, so does the tracee. -/
theorem halt_own (h : Debugged H B w p n T)
    (free : ∀ i, T i → w.sdb.site H p.image i ≠ (H.native p.image.cpu n).rip) :
    H.halt p.cpu = H.halt (H.native p.image.cpu n) :=
  (h.inStep.fetch h.good.self (h.ownInsn free)).2.1

/-- The run of a tracee whose traps are all in place. -/
theorem resume (h : Debugged H B w p n T) (all : ∀ i, (w.sdb.breaks i).isUsed → T i) (time : Nat) :
    Arrived H w.sdb p.image T (p.resume H.toPlatform time)
      ((program H).runTo w.sdb.table (w.sdb.runtime H p.image.cpu.ext) time
        (H.native p.image.cpu n)) := by
  induction time generalizing w p n with
  | zero => exact .going
  | succ time ih =>
      unfold Proc.resume Machine.runTo
      by_cases hit : Hits w.sdb.table (w.sdb.runtime H p.image.cpu.ext)
          ((program H).pc (H.native p.image.cpu n))
      · rw [if_pos hit]
        obtain ⟨i, used, here⟩ := hits_iff.mp hit
        rw [H.halt_trap (h.trap_at (all i used) here)]
        exact .hit rfl h.inStep h.armed (all i used) here
      · rw [if_neg hit]
        have free : ∀ i, T i → w.sdb.site H p.image i ≠ (H.native p.image.cpu n).rip :=
          fun i set here => hit (hits_iff.mpr ⟨i, h.armed.used i set, here⟩)
        cases ends : (program H).ends (H.native p.image.cpu n) with
        | some status =>
            rw [h.halt_own free, program_ends_some ends]
            exact .ended
        | none =>
            obtain ⟨halt, inStep, armed⟩ := h.advance free (h.goesOn ends)
            have next := h.setChild (q := p.advance H.toPlatform) rfl inStep armed
            rw [halt]
            have rest := ih next all
            rwa [World.setChild_sdb, Proc.advance_image, H.native_succ] at rest

end Debugged

/-- A process that has executed a trap, moved back by one and with this memory. -/
def backFrom (P : Platform K) (p : Proc K) (m : Mem) : Proc K :=
  ((p.advance P).setMem m).setRegs
    { (p.advance P).cpu.regs with rip := (p.advance P).cpu.regs.rip - 1 }

@[simp] theorem backFrom_image (P : Platform K) (p : Proc K) (m : Mem) :
    (backFrom P p m).image = p.image := rfl

@[simp] theorem backFrom_mem (P : Platform K) (p : Proc K) (m : Mem) :
    (backFrom P p m).cpu.mem = m := rfl

/-- Back from the trap that it executed, a process is where it was. -/
theorem inStep_back {P : Platform K} (h : p.InStep P n)
    (trap : p.cpu.mem p.cpu.rip = some trapByte) {m : Mem}
    (outside : ∀ a, ¬ p.image.text a → m a = p.cpu.mem a) : (backFrom P p m).InStep P n := by
  have next := P.next_trap trap
  refine ⟨h.reaches, ⟨?_, ?_, fun a ha => (outside a ha).trans (h.mirrors.mem a ha)⟩, ?_⟩
  · have regs : { p.cpu.regs with rip := p.cpu.regs.rip + 1 - 1 } = p.cpu.regs := by
      rw [BitVec.add_sub_cancel]
    rw [backFrom, Proc.setRegs_regs, Proc.advance_cpu, next]
    exact regs.trans h.mirrors.regs
  · rw [backFrom, Proc.setRegs_ext, Proc.setMem_ext, Proc.advance_cpu, next]
    exact h.mirrors.ext
  · exact (Proc.executed_advance_trap trap).trans h.executed

/-- The word of a slot is written back, and its trap is gone. -/
theorem Armed.restore (h : Armed H s T p) (good : Debuggable H s B p.image) (within : s.Within B)
    (distinct : s.Distinct) (used : (s.breaks i).isUsed) (word : OwnWord H s p.image i) {m : Mem}
    (write : writeWord p.cpu.mem (s.site H p.image i) (s.breaks i).originalWord = some m)
    (q : Proc K) (image : q.image = p.image) (mem : q.cpu.mem = m) :
    Armed H s (fun j => T j ∧ j ≠ i) q := by
  have inside : ∀ k < 8, m (byteAddr (s.site H p.image i) k) =
      p.image.cpu.mem (byteAddr (s.site H p.image i) k) := by
    intro k hk
    rw [writeWord_inside write hk, word k hk]
  refine ⟨fun j set => h.used j set.1, fun j set => ?_, fun a inText free => ?_, fun j set => ?_⟩
  · rw [image, mem]
    have apart : ∀ k < 8, s.site H p.image j ≠ byteAddr (s.site H p.image i) k := fun k hk =>
      (good.apart_slots within distinct used (h.used j set.1) (Ne.symm set.2) hk).symm
    rw [writeWord_outside write apart]
    exact h.trap j set.1
  · rw [image] at inText free ⊢
    rw [mem]
    by_cases here : ∃ k < 8, a = byteAddr (s.site H p.image i) k
    · obtain ⟨k, hk, rfl⟩ := here
      exact inside k hk
    · simp only [not_exists, not_and] at here
      rw [writeWord_outside write here]
      refine h.own a inText fun j set there => free j ⟨set, ?_⟩ there
      rintro rfl
      exact here 0 (by decide) (by rw [byteAddr_zero, there])
  · rw [image]
    exact h.saved j set.1

/-- The report of a stop puts the word back and moves the tracee back by one. -/
theorem reportBp_mapped (hc : w.current = some (.live .stopped p)) {vaddr : Addr}
    (mapped : Mapped p.cpu.mem vaddr) (i : Slot) :
    ∃ m, writeWord p.cpu.mem vaddr (w.sdb.breaks i).originalWord = some m ∧
      reportBp w i vaddr p.cpu.regs =
        ⟨w.setChild (.live .stopped
            ((p.setMem m).setRegs { p.cpu.regs with rip := p.cpu.regs.rip - 1 })),
          .prompt (.breakpoint i vaddr (w.sdb.breaks i).originalWord)⟩ := by
  have hp := World.tracee_of_current hc
  obtain ⟨old, read⟩ := Option.isSome_iff_exists.mp (readWord_isSome.mpr mapped)
  obtain ⟨m, write, poke⟩ := World.pokeOrIgnore_eq hp read (w.sdb.breaks i).originalWord
  refine ⟨m, write, ?_⟩
  have poked := World.tracee_setTracee hp (p.setMem m)
  have last : ((w.setTracee (p.setMem m)).setTracee
        ((p.setMem m).setRegs { p.cpu.regs with rip := p.cpu.regs.rip - 1 })) =
      w.setChild (.live .stopped
        ((p.setMem m).setRegs { p.cpu.regs with rip := p.cpu.regs.rip - 1 })) := by
    simp only [World.setTracee, hc, World.current_setChild, World.setChild_setChild]
  have peek : (w.setChild (.live .stopped
      ((p.setMem m).setRegs { p.cpu.regs with rip := p.cpu.regs.rip - 1 }))).peekOrError vaddr =
        (w.sdb.breaks i).originalWord := by
    have here := World.tracee_of_current (World.current_setChild w (.live .stopped
      ((p.setMem m).setRegs { p.cpu.regs with rip := p.cpu.regs.rip - 1 })))
    rw [World.peekOrError, World.peek_eq here, Proc.setRegs_mem, Proc.setMem_mem,
      readWord_eq_some_iff.mpr fun k hk => writeWord_inside write hk, Option.getD_some]
  simp only [reportBp, poke, World.setregs_eq poked, Option.getD_some, last, peek]

/-- What the wait loop returns with, seen from where the program gets to. -/
inductive Returned (H : Host K) (B : Addr → Prop) (s : SDB) (image : Image K) :
    Result K → Arrival (Cpu K) Nat → Prop
  | hit {u : World K} {p : Proc K} {n : Nat} {T : Slot → Prop} {i : Slot} (same : p.image = image)
      (sdb : u.sdb = s) (ready : Debugged H B u p n T) (used : (s.breaks i).isUsed)
      (here : s.site H image i = (H.native image.cpu n).rip)
      (word : ∀ j, (s.breaks j).isUsed → OwnWord H s image j)
      (free : ∀ j, T j → s.site H image j ≠ (H.native image.cpu n).rip) :
      Returned H B s image
        ⟨u, .prompt (.breakpoint i (s.site H image i) (s.breaks i).originalWord)⟩
        (.hit (H.native image.cpu n))
  | ended {u : World K} {pid : Pid} {status : Nat} (sdb : u.sdb = { s with pid := -1 })
      (alone : u.child (-1) = none) :
      Returned H B s image ⟨u, .prompt (.ended pid status)⟩ (.ended status)
  | going {u : World K} {c : Cpu K} (sdb : u.sdb = s) (alone : u.child (-1) = none) :
      Returned H B s image ⟨u, .waiting⟩ (.going c)

theorem Debugged.ptraceCont (h : Debugged H B w p n T) :
    w.ptraceCont = w.setChild (.live .running p) := by
  rw [World.ptraceCont, h.tracee]

/-- The wait loop finds the slot of an executed trap. -/
theorem Debugged.slotBehind (h : Debugged H B w p n T) (set : T i)
    (here : w.sdb.site H p.image i = (H.native p.image.cpu n).rip) :
    ∃ j, w.sdb.slotBehind H (p.advance H.toPlatform).cpu.ext (p.advance H.toPlatform).cpu.rip =
        some j ∧ (w.sdb.breaks j).isUsed ∧
      w.sdb.site H p.image j = (H.native p.image.cpu n).rip := by
  have trap := h.trap_at set here
  have back : (p.advance H.toPlatform).cpu.rip - 1 = (H.native p.image.cpu n).rip := by
    rw [Proc.advance_cpu, H.next_trap trap, Cpu.rip, Cpu.setRip_rip, BitVec.add_sub_cancel]
    exact h.rip
  have place : ∀ j, w.sdb.slotAt H (p.advance H.toPlatform).cpu.ext j = w.sdb.site H p.image j := by
    intro j
    rw [Proc.advance_cpu, H.next_trap trap, Cpu.setRip_ext, h.slotAt]
  cases found : w.sdb.slotBehind H (p.advance H.toPlatform).cpu.ext
      (p.advance H.toPlatform).cpu.rip with
  | none =>
      have none := SDB.slotBehind_eq_none.mp found i (h.armed.used i set)
      rw [place, back] at none
      exact absurd here none
  | some j =>
      obtain ⟨used, at_⟩ := SDB.slotBehind_eq_some found
      rw [place, back] at at_
      exact ⟨j, rfl, used, at_⟩

theorem waitLoop_exited {status st : Nat} {v : World K} {q : Option (Proc K)}
    (wait : waitpid H.toPlatform (env.waits (.loop 0)) env.fuel w = .exited st v)
    (gone : v.current = some (.reaped q)) :
    waitLoop H env 3 0 status w = childEnded st v := by
  rw [waitLoop, wait]
  simp only
  rw [waitLoop, waitpid_of_reaped gone]

/-- What becomes of a tracee that is resumed with all its traps in place. -/
theorem Debugged.waitLoop (h : Debugged H B w p n T) (all : ∀ i, (w.sdb.breaks i).isUsed → T i)
    (waits : env.waits (.loop 0)) (status : Nat) :
    Returned H B w.sdb p.image (waitLoop H env 3 0 status w.ptraceCont)
      ((program H).runTo w.sdb.table (w.sdb.runtime H p.image.cpu.ext) env.fuel
        (H.native p.image.cpu n)) := by
  have arrived := h.resume all env.fuel
  have running : w.ptraceCont.current = some (.live .running p) := by
    rw [h.ptraceCont]
    exact World.current_setChild _ _
  have wait := @waitpid_of_running _ H.toPlatform _ env.fuel _ _ waits running
  have replaced : ∀ c, w.ptraceCont.setChild c = w.setChild c := by
    intro c
    rw [h.ptraceCont, World.setChild_setChild]
  generalize p.resume H.toPlatform env.fuel = resumed at arrived wait
  generalize (program H).runTo _ _ _ _ = arrival at arrived ⊢
  cases arrived with
  | @going q c =>
      simp only [replaced] at wait
      rw [Sdb.waitLoop, wait]
      exact .going (World.setChild_sdb _ _) (h.setChild_alone _)
  | @ended q status' =>
      simp only [replaced] at wait
      rw [waitLoop_exited wait (World.current_setChild _ _)]
      refine .ended rfl ?_
      rw [World.setPid_child]
      exact h.setChild_alone _
  | @hit q m i same inStep armed set here =>
      simp only [replaced] at wait
      -- the state in which the trap was executed
      have before : Debugged H B (w.setChild (.live .stopped q)) q m T :=
        h.setChild same inStep armed
      rw [← same] at here ⊢
      obtain ⟨j, found, used, at_⟩ := before.slotBehind set here
      have trap := before.trap_at set here
      obtain ⟨eh, handle⟩ := Option.ne_none_iff_exists'.mp h.handle
      have mem : (q.advance H.toPlatform).cpu.mem = q.cpu.mem := by
        rw [Proc.advance_cpu, H.next_trap trap, Cpu.setRip_mem]
      have vaddr : (q.advance H.toPlatform).cpu.rip - 1 = w.sdb.site H q.image j := by
        have behind := (SDB.slotBehind_eq_some found).2
        rw [← behind, Proc.advance_cpu, H.next_trap trap, Cpu.setRip_ext]
        exact before.slotAt j
      have word : ∀ k, (w.sdb.breaks k).isUsed → OwnWord H w.sdb q.image k :=
        fun k used => armed.saved k (all k used)
      have mapped : Mapped (q.advance H.toPlatform).cpu.mem (w.sdb.site H q.image j) := by
        rw [mem]
        exact before.mapped used
      obtain ⟨m', write, report⟩ := reportBp_mapped
        (World.current_setChild w (.live .stopped (q.advance H.toPlatform))) mapped j
      rw [waitLoop_of_stop wait (World.current_setChild _ _) handle]
      have slot : (w.setChild (.live .stopped (q.advance H.toPlatform))).sdb.slotBehind H
          (q.advance H.toPlatform).cpu.ext (q.advance H.toPlatform).cpu.rip = some j := found
      simp only [slot, vaddr]
      rw [report, World.setChild_setChild]
      rw [mem] at write
      have outside : ∀ a, ¬ q.image.text a → m' a = q.cpu.mem a := by
        intro a away
        refine writeWord_outside write fun k hk here => away ?_
        rw [here]
        exact before.good.inside _ (before.within j used) k hk
      have restored := armed.restore before.good before.within before.distinct used
        (word j used) write (backFrom H.toPlatform q m') rfl rfl
      have ready := h.setChild (q := backFrom H.toPlatform q m') same
        (inStep_back inStep trap outside) restored
      refine .hit (p := backFrom H.toPlatform q m') rfl rfl ready used at_ word
        fun k set here' => ?_
      have apart := before.good.apart_slots before.within before.distinct (armed.used k set.1) used
        set.2 (k := 0) (by decide)
      rw [byteAddr_zero] at apart
      exact apart (here'.trans at_.symm)

/-- The pass before a resumption steps the program at most over the breakpoint that it was
reported at, and not on to one behind that in the table. -/
def Passable (H : Host K) (t : Table maxBreak Addr) (d : Stand (Cpu K) Addr) : Prop :=
  ∀ i, (t i).map d.place = some d.state.rip →
    d.seen ∧ (program H).ends d.state = none ∧
      ∀ j, i < j → (t j).map d.place ≠ some (H.next d.state).rip

/-- The pass, the resumption and the wait for what comes of it. -/
theorem Debugged.contFrom (h : Debugged H B w p n T) (waits : ∀ site, env.waits site) (status : Nat)
    {seen : Bool} (unset : seen → ∀ i, T i → w.sdb.site H p.image i ≠ (H.native p.image.cpu n).rip)
    (passable : Passable H w.sdb.table
      ⟨H.native p.image.cpu n, w.sdb.runtime H p.image.cpu.ext, seen⟩) :
    ∃ s, w.sdb.SameTable s ∧ Returned H B s p.image (contFrom H env status w)
      ((program H).resume w.sdb.table env.fuel
        ⟨H.native p.image.cpu n, w.sdb.runtime H p.image.cpu.ext, seen⟩) := by
  -- where the tracee is after the pass, the machine goes on from
  have finish : ∀ m, (∃ u, sdbPatchAllBp H env w = (u, none) ∧
      Passed H B w.sdb p.image m (fun i => (w.sdb.breaks i).isUsed) u) →
      ∃ s, w.sdb.SameTable s ∧ Returned H B s p.image (Sdb.contFrom H env status w)
        ((program H).runTo w.sdb.table (w.sdb.runtime H p.image.cpu.ext) env.fuel
          (H.native p.image.cpu m)) := by
    rintro m ⟨u, pass, same, q, image, ready⟩
    have waited := ready.waitLoop (fun i used => (same.isUsed i) ▸ used)
      (waits _) status
    have runtime : u.sdb.runtime H = w.sdb.runtime H := SDB.runtime_congr same.eh same.path
    rw [same.table, runtime, image] at waited
    rw [Sdb.contFrom, pass]
    exact ⟨u.sdb, same, waited⟩
  unfold Machine.resume
  by_cases hit : Hits w.sdb.table (w.sdb.runtime H p.image.cpu.ext)
      ((program H).pc (H.native p.image.cpu n))
  · obtain ⟨i, entry⟩ := hit
    obtain ⟨hseen, goesOn, clear⟩ := passable i entry
    obtain ⟨used, here⟩ := entry_iff.mp entry
    rw [if_pos ⟨⟨i, entry⟩, hseen⟩, goesOn]
    have next : (program H).next (H.native p.image.cpu n) = H.native p.image.cpu (n + 1) :=
      (H.native_succ _ _).symm
    simp only [next]
    refine finish (n + 1) (h.pass_at used ?_ here (h.goesOn goesOn) (waits _) ?_)
    · intro set
      exact unset hseen i set here
    · intro j later hj there
      rw [H.native_succ] at there
      exact clear j later (entry_iff.mpr ⟨hj, there⟩)
  · rw [if_neg fun both => hit both.1]
    exact finish n (h.pass_away env fun i used here => hit (hits_iff.mpr ⟨i, used, here⟩))

end Sdb
