import AdvancedUnix.Sdb.Fragment
import AdvancedUnix.Sdb.Live

/-!
# Registers by name

`get` and `set` compare a name with two lists that are written separately. `Gp` has the
registers of both; each of them is a lens on the register file, and the two lists are that
lens for the same names.

With a tracee and a name of the list the two commands are the lens. For other names, and
without a tracee, `set` does nothing, but `get` prints a value that nobody has assigned.
-/

namespace Sdb

open Memory Traced

/-- The registers that have a name. -/
inductive Gp
  | rax | rbx | rcx | rdx | r8 | r9 | r10 | r11 | r12 | r13 | r14 | r15 | rdi | rsi | rbp | rsp
  | rip | eflags
  deriving DecidableEq

namespace Gp

def get (regs : UserRegs) : Gp → Word
  | rax => regs.rax
  | rbx => regs.rbx
  | rcx => regs.rcx
  | rdx => regs.rdx
  | r8 => regs.r8
  | r9 => regs.r9
  | r10 => regs.r10
  | r11 => regs.r11
  | r12 => regs.r12
  | r13 => regs.r13
  | r14 => regs.r14
  | r15 => regs.r15
  | rdi => regs.rdi
  | rsi => regs.rsi
  | rbp => regs.rbp
  | rsp => regs.rsp
  | rip => regs.rip
  | eflags => regs.eflags

def set (val : Word) (regs : UserRegs) : Gp → UserRegs
  | rax => { regs with rax := val }
  | rbx => { regs with rbx := val }
  | rcx => { regs with rcx := val }
  | rdx => { regs with rdx := val }
  | r8 => { regs with r8 := val }
  | r9 => { regs with r9 := val }
  | r10 => { regs with r10 := val }
  | r11 => { regs with r11 := val }
  | r12 => { regs with r12 := val }
  | r13 => { regs with r13 := val }
  | r14 => { regs with r14 := val }
  | r15 => { regs with r15 := val }
  | rdi => { regs with rdi := val }
  | rsi => { regs with rsi := val }
  | rbp => { regs with rbp := val }
  | rsp => { regs with rsp := val }
  | rip => { regs with rip := val }
  | eflags => { regs with eflags := val }

def name : Gp → String
  | rax => "rax"
  | rbx => "rbx"
  | rcx => "rcx"
  | rdx => "rdx"
  | r8 => "r8"
  | r9 => "r9"
  | r10 => "r10"
  | r11 => "r11"
  | r12 => "r12"
  | r13 => "r13"
  | r14 => "r14"
  | r15 => "r15"
  | rdi => "rdi"
  | rsi => "rsi"
  | rbp => "rbp"
  | rsp => "rsp"
  | rip => "rip"
  | eflags => "eflags"

/-- The registers in the order in which the code compares their names. -/
def all : List Gp :=
  [rax, rbx, rcx, rdx, r8, r9, r10, r11, r12, r13, r14, r15, rdi, rsi, rbp, rsp, rip, eflags]

/-- The register with a name. -/
def find (name : List Char) : Option Gp := all.find? fun r => r.name = String.ofList name

theorem get_set (r : Gp) (v : Word) (regs : UserRegs) : r.get (r.set v regs) = v := by
  cases r <;> rfl

theorem set_get (r : Gp) (regs : UserRegs) : r.set (r.get regs) regs = regs := by
  cases r <;> rfl

theorem set_set (r : Gp) (v v' : Word) (regs : UserRegs) :
    r.set v' (r.set v regs) = r.set v' regs := by
  cases r <;> rfl

theorem get_set_other {r r' : Gp} (other : r' ≠ r) (v : Word) (regs : UserRegs) :
    r'.get (r.set v regs) = r'.get regs := by
  cases r <;> cases r' <;> first | rfl | exact absurd rfl other

end Gp

theorem find_eq_some_iff {name : List Char} {r : Gp} :
    Gp.find name = some r ↔ name = r.name.toList := by
  constructor
  · intro h
    have named : r.name = String.ofList name := by simpa using List.find?_some h
    rw [named, String.toList_ofList]
  · rintro rfl
    cases r <;> rfl

theorem matchRegName_eq (name : List Char) (regs : UserRegs) :
    matchRegName name regs = (Gp.find name).map fun r => r.get regs := by
  cases h : Gp.find name with
  | some r =>
      rw [find_eq_some_iff.mp h]
      cases r <;> rfl
  | none =>
      unfold matchRegName
      split <;> rename_i e <;> first | rfl | (rw [Gp.find, e] at h; exact absurd h (by decide))

theorem setIfMatched_eq (name : List Char) (val : Word) (regs : UserRegs) :
    setIfMatched name val regs = ((Gp.find name).map fun r => r.set val regs).getD regs := by
  cases h : Gp.find name with
  | some r =>
      rw [find_eq_some_iff.mp h]
      cases r <;> rfl
  | none =>
      unfold setIfMatched
      split <;> rename_i e <;> first | rfl | (rw [Gp.find, e] at h; exact absurd h (by decide))

variable {K : Type}

/-- The laws of `set` and `get` for a name. The calls are made in surroundings of their own,
and what variables hold that nobody has set is part of these. -/
structure RegisterLaws (env env' : Env K) (w : World K) (name : List Char) : Prop where
  get_set : (Gp.find name).isSome → w.tracee.isSome → ∀ v,
    (sdbGet env' name (sdbSet env name v w).world).ending = .prompt (.reg name v)
  get_set_other : ∀ v other, other ≠ name →
    (sdbGet env' other (sdbSet env name v w).world).ending = (sdbGet env' other w).ending
  set_set : ∀ v v', sdbSet env' name v' (sdbSet env name v w).world = sdbSet env' name v' w
  set_get : ∀ v, (sdbGet env name w).ending = .prompt (.reg name v) →
    (sdbSet env' name v w).world = w
  /-- Another name, or no tracee. -/
  refused : ¬ ((Gp.find name).isSome ∧ w.tracee.isSome) → ∀ v,
    (sdbSet env name v w).world = w ∧ (sdbGet env name w).ending ≠ .prompt (.reg name v)

section Laws

variable {env env' : Env K} {w : World K} {p : Proc K} {name : List Char}

theorem sdbGet_eq (hp : w.tracee = some p) (name : List Char) :
    (sdbGet env name w).ending = .prompt (.reg name
      (((Gp.find name).map fun r => r.get p.cpu.regs).getD env.uninit.regVal)) := by
  rw [sdbGet, World.getregs_eq hp, Option.getD_some, matchRegName_eq]

theorem sdbSet_eq (hp : w.tracee = some p) (name : List Char) (v : Word) :
    sdbSet env name v w = ⟨w.setTracee (p.setRegs
      (((Gp.find name).map fun r => r.set v p.cpu.regs).getD p.cpu.regs)), .prompt .silent⟩ := by
  rw [sdbSet, World.getregs_eq hp, Option.getD_some, World.setregs_eq hp, setIfMatched_eq]

/-- `get` prints some value for every name. -/
theorem sdbGet_reg (env : Env K) (w : World K) (name : List Char) :
    ∃ v, (sdbGet env name w).ending = .prompt (.reg name v) := ⟨_, rfl⟩

/-- The process of a live child is replaced by the last of two. -/
theorem setTracee_setTracee (hp : w.tracee = some p) (q q' : Proc K) :
    (w.setTracee q).setTracee q' = w.setTracee q' := by
  unfold World.setTracee
  rcases World.tracee_eq_some_iff.mp hp with hc | ⟨sig, hc⟩ <;> rw [hc] <;>
    simp only [World.current_setChild, World.setChild_setChild]

/-- A process that is put back as it is changes nothing. -/
theorem setTracee_self (hp : w.tracee = some p) : w.setTracee p = w := by
  have same : ∀ c, w.current = some c → w.setChild c = w := by
    intro c hc
    have unchanged : Function.update w.child w.sdb.pid (some c) = w.child :=
      Function.update_eq_self_iff.mpr hc.symm
    rw [World.setChild, unchanged]
  unfold World.setTracee
  rcases World.tracee_eq_some_iff.mp hp with hc | ⟨sig, hc⟩
  · rw [hc]
    exact same _ hc
  · rw [hc]
    exact same _ hc

theorem tracee_sdbSet (hp : w.tracee = some p) (name : List Char) (v : Word) :
    (sdbSet env name v w).world.tracee = some (p.setRegs
      (((Gp.find name).map fun r => r.set v p.cpu.regs).getD p.cpu.regs)) := by
  rw [sdbSet_eq hp]
  exact World.tracee_setTracee hp _

/-- The laws hold exactly for the names of the list, and with a tracee. -/
theorem register_laws_iff (env env' : Env K) (w : World K) (name : List Char) :
    RegisterLaws env env' w name ↔ (Gp.find name).isSome ∧ w.tracee.isSome := by
  constructor
  · intro laws
    by_contra unknown
    obtain ⟨v, printed⟩ := sdbGet_reg env w name
    exact (laws.refused unknown v).2 printed
  · rintro ⟨listed, tracee⟩
    obtain ⟨r, hr⟩ := Option.isSome_iff_exists.mp listed
    obtain ⟨p, hp⟩ := Option.isSome_iff_exists.mp tracee
    refine ⟨fun _ _ v => ?_, fun v other ne => ?_, fun v v' => ?_, fun v got => ?_,
      fun refused => absurd ⟨listed, tracee⟩ refused⟩
    · rw [sdbGet_eq (tracee_sdbSet hp name v), hr]
      simp only [Option.map_some, Option.getD_some, Proc.setRegs_regs, Gp.get_set]
    · rw [sdbGet_eq (tracee_sdbSet hp name v), sdbGet_eq hp, hr]
      cases ho : Gp.find other with
      | none => rfl
      | some r' =>
          have distinct : r' ≠ r := by
            rintro rfl
            exact ne ((find_eq_some_iff.mp ho).trans (find_eq_some_iff.mp hr).symm)
          simp only [Option.map_some, Option.getD_some, Proc.setRegs_regs,
            Gp.get_set_other distinct]
    · rw [sdbSet_eq (tracee_sdbSet hp name v), sdbSet_eq hp, sdbSet_eq hp, hr]
      simp only [Option.map_some, Option.getD_some, Proc.setRegs_regs, Gp.set_set]
      rw [setTracee_setTracee hp]
      rfl
    · rw [sdbGet_eq hp, hr] at got
      simp only [Ending.prompt.injEq, Output.reg.injEq, Option.map_some, Option.getD_some] at got
      rw [sdbSet_eq hp, hr, ← got.2]
      simp only [Option.map_some, Option.getD_some, Gp.set_get]
      exact setTracee_self hp

end Laws

namespace Fragment

/-- `get` prints a value for a register that the list does not have. -/
theorem cs_lawless : ¬ RegisterLaws (env ⟨7, seven_pos⟩ nops 64) (env ⟨7, seven_pos⟩ nops 64)
    (session host fresh ([.load "/bin/prog".toList, .start].map (cmd nops 64))).world
    "cs".toList := by
  intro laws
  have unknown : Gp.find "cs".toList = none := rfl
  exact (laws.refused (by rw [unknown]; decide) 0).2 rfl

end Fragment

end Sdb
