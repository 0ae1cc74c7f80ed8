import AdvancedUnix.Sdb.Capstone
import AdvancedUnix.Sdb.Reporting
import AdvancedUnix.Traced.Own

/-!
# How a stop is described

The report of a breakpoint puts the saved word back and shows one instruction of it.
`Described` says that the tracee stands at the slot, that the memory holds the
program's own instruction there, and that the line which is printed is the line of
that instruction.

`Faithful` is the exact condition, on the state in which the tracee stopped: the
instruction has at most five bytes, the saved word begins with it, and the
instruction whose number is that of the slot has the same operands.
-/

namespace Sdb

open Memory Traced Decoding

variable {K : Type} {H : Host K} (C : Capstone H)

/-- The state in which the tracee stopped at a slot, and the slot, for a call that
made its pass and resumed it. -/
def World.stop (H : Host K) (env : Env K) (u : World K) : Option (World K × Slot) :=
  if (sdbPatchAllBp H env u).2 = none then u.hit H env else none

/-- The program's own instruction at an address. -/
def ownInsn (p : Proc K) (a : Addr) : Option CsInsn :=
  C.decoder.item (p.own H.toPlatform) a

/-- The report of slot `i`, left in this state, is about the program's own
instruction at the slot. -/
def Described (w : World K) (i : Slot) (vaddr : Addr) (buffer : Word) : Prop :=
  ∃ q, w.tracee = some q ∧ q.cpu.rip = w.sdb.slotAt H q.cpu.ext i ∧
    ∀ insn, ownInsn C q q.cpu.rip = some insn →
      Decoding.Holds q.cpu.mem q.cpu.rip insn.bytes ∧
        printBreakpoint H i vaddr buffer = .line (insn.line insn)

/-- The word that a report shows: the saved one, if it can be put back. -/
def shownWord (w : World K) (p : Proc K) (i : Slot) : Word :=
  if Mapped p.cpu.mem (p.cpu.rip - 1) then (w.sdb.breaks i).originalWord else -1

/-- What the report of slot `i` needs of the state in which the tracee stopped. -/
def Faithful (w : World K) (p : Proc K) (i : Slot) : Prop :=
  ∀ insn, ownInsn C p (p.cpu.rip - 1) = some insn →
    insn.bytes.length ≤ 5 ∧ insn.bytes <+: bytesOf (shownWord w p i) ∧
      (¬ Mapped p.cpu.mem (p.cpu.rip - 1) → Decoding.Holds p.cpu.mem (p.cpu.rip - 1) insn.bytes) ∧
      ((H.csDisasm (bytesOf (shownWord w p i)) (p.cpu.rip - 1))[i.val]?).map CsInsn.opStr =
        some insn.opStr

section Reports

variable {env : Env K} {u w : World K} {p : Proc K}

/-- A report leaves the tracee at the slot, with the saved word in place if there is
room for it. -/
theorem reportBp_eq (hc : w.current = some (.live .stopped p)) (i : Slot) :
    ∃ m, (reportBp w i (p.cpu.rip - 1) p.cpu.regs).world.tracee =
        some ((p.setMem m).setRegs { p.cpu.regs with rip := p.cpu.rip - 1 }) ∧
      (reportBp w i (p.cpu.rip - 1) p.cpu.regs).ending =
        .prompt (.breakpoint i (p.cpu.rip - 1) (shownWord w p i)) ∧
      ((Mapped p.cpu.mem (p.cpu.rip - 1) ∧
          Decoding.Holds m (p.cpu.rip - 1) (bytesOf (shownWord w p i))) ∨
        ¬ Mapped p.cpu.mem (p.cpu.rip - 1) ∧ m = p.cpu.mem) := by
  have hp := World.tracee_of_current hc
  unfold reportBp shownWord
  simp only [World.pokeOrIgnore, World.poke_eq hp]
  cases write : writeWord p.cpu.mem (p.cpu.rip - 1) (w.sdb.breaks i).originalWord with
  | none =>
      have unmapped := writeWord_eq_none.mp write
      have read := readWord_eq_none.mpr unmapped
      simp only [Option.map_none, Option.getD_none, World.setregs_eq hp, Option.getD_some]
      have moved := World.tracee_setTracee hp
        (p.setRegs { p.cpu.regs with rip := p.cpu.regs.rip - 1 })
      refine ⟨p.cpu.mem, moved, ?_, .inr ⟨unmapped, rfl⟩⟩
      rw [World.peekOrError, World.peek_eq moved, Proc.setRegs_mem, read, if_neg unmapped]
      rfl
  | some m =>
      have mapped : Mapped p.cpu.mem (p.cpu.rip - 1) := by
        by_contra unmapped
        rw [writeWord_eq_none.mpr unmapped] at write
        cases write
      have read : readWord m (p.cpu.rip - 1) = some (w.sdb.breaks i).originalWord :=
        readWord_eq_some_iff.mpr fun k hk => writeWord_inside write hk
      have poked := World.tracee_setTracee hp (p.setMem m)
      simp only [Option.map_some, Option.getD_some, World.setregs_eq poked]
      have moved := World.tracee_setTracee poked
        ((p.setMem m).setRegs { p.cpu.regs with rip := p.cpu.regs.rip - 1 })
      refine ⟨m, moved, ?_, .inl ⟨mapped, ?_⟩⟩
      · rw [World.peekOrError, World.peek_eq moved, Proc.setRegs_mem, Proc.setMem_mem, read,
          if_pos mapped]
        rfl
      · rw [if_pos mapped]
        exact holds_bytesOf_iff.mpr read

/-- What is reported is about the program's own instruction exactly when the stop is
a faithful one. -/
theorem reportBp_described_iff (hc : w.current = some (.live .stopped p)) {i : Slot}
    (behind : w.sdb.slotBehind H p.cpu.ext p.cpu.rip = some i) {vaddr : Addr} {buffer : Word}
    (out : (reportBp w i (p.cpu.rip - 1) p.cpu.regs).ending =
      .prompt (.breakpoint i vaddr buffer)) :
    Described C (reportBp w i (p.cpu.rip - 1) p.cpu.regs).world i vaddr buffer ↔
      Faithful C w p i := by
  obtain ⟨m, tracee, ending, restored⟩ := reportBp_eq hc i
  rw [ending] at out
  cases out
  have stands := (SDB.slotBehind_eq_some behind).2
  have line : ∀ insn, ownInsn C p (p.cpu.rip - 1) = some insn →
      (printBreakpoint H i (p.cpu.rip - 1) (shownWord w p i) = .line (insn.line insn) ↔ _) :=
    fun insn own => C.printBreakpoint_iff own i (shownWord w p i)
  -- the memory holds what the saved word brought, or what it held before
  have holds : ∀ insn : CsInsn, insn.bytes <+: bytesOf (shownWord w p i) →
      (Decoding.Holds m (p.cpu.rip - 1) insn.bytes ↔
        (¬ Mapped p.cpu.mem (p.cpu.rip - 1) →
          Decoding.Holds p.cpu.mem (p.cpu.rip - 1) insn.bytes)) := by
    intro insn front
    rcases restored with ⟨mapped, held⟩ | ⟨unmapped, rfl⟩
    · exact iff_of_true (held.front front) fun no => absurd mapped no
    · exact ⟨fun h _ => h, fun h => h unmapped⟩
  constructor
  · rintro ⟨q, hq, -, described⟩ insn own
    rw [tracee] at hq
    cases hq
    obtain ⟨held, printed⟩ := described insn own
    obtain ⟨short, front, operands⟩ := (line insn own).mp printed
    exact ⟨short, front, (holds insn front).mp held, operands⟩
  · intro faithful
    refine ⟨_, tracee, ?_, fun insn own => ?_⟩
    · rw [World.reportBp_sdb]
      exact stands.symm
    · obtain ⟨short, front, kept, operands⟩ := faithful insn own
      exact ⟨(holds insn front).mpr kept, (line insn own).mpr ⟨short, front, operands⟩⟩

variable (H env) in
/-- A call reports the slot behind which the tracee stopped, or it reports nothing. -/
theorem contFrom_reports (status : Nat) (u : World K) :
    (∃ w p i, u.stop H env = some (w, i) ∧ w.current = some (.live .stopped p) ∧
        w.sdb.slotBehind H p.cpu.ext p.cpu.rip = some i ∧
        contFrom H env status u = reportBp w i (p.cpu.rip - 1) p.cpu.regs) ∨
      u.stop H env = none ∧ (contFrom H env status u).reported = none := by
  unfold contFrom World.stop
  cases hpass : sdbPatchAllBp H env u with
  | mk v fault =>
      cases fault with
      | some f => exact .inr ⟨rfl, rfl⟩
      | none =>
          have handle := handle_of_pass hpass
          have table : u.sdb.SameTable (sdbPatchAllBp H env u).1.sdb :=
            (passInvariant_sameTable u.sdb).sdbPatchAllBp (.refl _) fun _ _ => trivial
          rw [hpass] at table
          simp only [if_true, World.hit, hpass]
          have outcome := waited H env status v.ptraceCont
          generalize waitLoop H env 3 0 status v.ptraceCont = r at outcome ⊢
          cases outcome with
          | failed wait => exact .inr ⟨by simp only [wait], rfl⟩
          | busy wait => exact .inr ⟨by simp only [wait], rfl⟩
          | blocked wait => exact .inr ⟨by simp only [wait], rfl⟩
          | exited wait => exact .inr ⟨by simp only [wait], rfl⟩
          | @fault sig w p f wait stopped noMatch =>
              obtain ⟨q, rfl, -⟩ := waitpid_stopped wait
              refine .inr ⟨?_, rfl⟩
              cases heh : v.sdb.eh with
              | none =>
                  have unused : ∀ i, (v.sdb.breaks i).isUsed = false := by
                    intro i
                    rw [table.isUsed]
                    refine handle.resolve_left (fun some => some ?_) i
                    rw [← table.eh, heh]
                  simp only [wait, World.tracee_of_current stopped, Option.bind_some,
                    World.setChild_sdb, World.ptraceCont_sdb, SDB.slotBehind_of_unused unused,
                    Option.map_none]
              | some eh =>
                  have heh' : (v.ptraceCont.setChild (.live .stopped q)).sdb.eh = some eh := by
                    rw [World.setChild_sdb, World.ptraceCont_sdb, heh]
                  rw [matchSlot_eq H env.uninit stopped heh'] at noMatch
                  cases noMatch
          | @hit sig w p i vaddr wait stopped found =>
              obtain ⟨behind, rfl⟩ := matchSlot_found stopped found
              refine .inl ⟨w, p, i, ?_, stopped, behind, rfl⟩
              simp only [wait, World.tracee_of_current stopped, Option.bind_some, behind,
                Option.map_some]
          | @again sig w p wait stopped noSlot ok =>
              refine .inr ⟨?_, rfl⟩
              simp only [wait, World.tracee_of_current stopped, Option.bind_some,
                (matchSlot_none stopped noSlot).2, Option.map_none]
          | @dropped sig w p wait stopped noSlot ok =>
              refine .inr ⟨?_, rfl⟩
              simp only [wait, World.tracee_of_current stopped, Option.bind_some,
                (matchSlot_none stopped noSlot).2, Option.map_none]

end Reports

/-- Whatever `cont` or `run` reports is `Described`. -/
def Event.Describes (r : Result K) : Event K → Prop
  | .command cmd env => (∃ out, r.ending = .prompt out) → cmd.resumes → ∀ i vaddr buffer,
      (cmd.exec H env r.world).ending = .prompt (.breakpoint i vaddr buffer) →
        Described C (cmd.exec H env r.world).world i vaddr buffer
  | .killed _ => True

/-- The tracee that `cont` or `run` resumes stops at a slot only where that is `Faithful`. -/
def Event.StopsFaithfully (r : Result K) : Event K → Prop
  | .command cmd env => (∃ out, r.ending = .prompt out) → cmd.resumes → ∀ u w i p,
      cmd.passStart env r.world = some u → u.stop H env = some (w, i) → w.tracee = some p →
        Faithful C w p i
  | .killed _ => True

/-- The reports of a session describe the program's own instructions exactly when
the tracee stops at faithful slots only. -/
theorem session_described_iff (fresh : Slot → Bp) (events : List (Event K)) :
    Runs.AllSteps (step H) (fun r e => e.Describes C r) (created fresh) events ↔
      Runs.AllSteps (step H) (fun r e => e.StopsFaithfully C r) (created fresh) events := by
  refine Runs.allSteps_congr (fun r e => ?_) _ _
  cases e with
  | killed pid => exact Iff.rfl
  | command cmd env =>
      refine forall₂_congr fun _ resumes => ?_
      rcases Cmd.exec_resumes H env resumes r.world with ⟨u, status, hu, he⟩ | ⟨none, v, text, he⟩
      · rw [he]
        rcases contFrom_reports H env status u with
          ⟨w, p, i, stop, stopped, behind, report⟩ | ⟨stop, report⟩
        · obtain ⟨m, -, ending, -⟩ := reportBp_eq stopped i
          rw [report]
          constructor
          · intro h u' w' j q hu' stop' hq
            rw [hu] at hu'
            cases hu'
            rw [stop] at stop'
            cases stop'
            rw [World.tracee_of_current stopped] at hq
            cases hq
            exact (reportBp_described_iff C stopped behind ending).mp (h _ _ _ ending)
          · intro h j vaddr buffer out
            have same := out
            rw [ending] at same
            cases same
            exact (reportBp_described_iff C stopped behind out).mpr
              (h u w i p hu stop (World.tracee_of_current stopped))
        · refine iff_of_true (fun i vaddr buffer out => ?_) fun u' w i p hu' stop' _ => ?_
          · rw [Result.reported, out] at report
            cases report
          · rw [hu] at hu'
            cases hu'
            rw [stop] at stop'
            cases stop'
      · refine iff_of_true (fun i vaddr buffer out => ?_) fun u w i p hu _ _ => ?_
        · rw [he] at out
          cases out
        · rw [none] at hu
          cases hu

namespace Fragment

/-- Two `nop`s; no instruction begins with the bytes behind them. -/
def twoNops : Image Maps :=
  image someMaps 0x400000 ([0x90, 0x90] ++ List.replicate 14 0x06)

/-- The breakpoint at the second `nop` is in slot 1. -/
def secondSlot : List (Event Maps) :=
  [.load "/bin/prog".toList, .break "0x400008".toList, .break "0x400001".toList].map
    (cmd twoNops 64)

theorem secondSlot_reported :
    (session host fresh (secondSlot ++ [cmd twoNops 64 .run])).ending =
      .prompt (.breakpoint ⟨1, by decide⟩ 0x400001 0xcc06060606060690) := rfl

/-- The word of slot 1 holds one instruction, and the operands are looked for in the
second one. -/
theorem secondSlot_notDescribed :
    ¬ (cmd twoNops 64 .run).Describes capstone (session host fresh secondSlot) := by
  have wild : printBreakpoint host ⟨1, by decide⟩ 0x400001 0xcc06060606060690 = .wild := by decide
  intro describes
  obtain ⟨q, hq, -, described⟩ := describes ⟨_, rfl⟩ rfl _ _ _ secondSlot_reported
  cases hq
  obtain ⟨-, printed⟩ := described ⟨0x400001, [0x90], "nop".toList, []⟩ rfl
  rw [wild] at printed
  cases printed

end Fragment

end Sdb
