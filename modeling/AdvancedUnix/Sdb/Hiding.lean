import AdvancedUnix.Memory.Writes
import AdvancedUnix.Sdb.Sweep
import AdvancedUnix.Traced.Own

/-!
# Breakpoints in a disassembly

Before it reads a running program, `sdb_disasm` puts the saved word of every used slot
back, in the order of the slots. `Hides` says that each byte it then hands to the
disassembler is the program's own.

The words go to the addresses as they were typed, and a word may hold the trap of
another slot. `Restored` is the exact condition on the slots: at each address that is
read, the last word over it has the program's own byte there, and where there is no such
word the memory has that byte.
-/

namespace Sdb

open Memory Traced Decoding

variable {K : Type}

/-- The words that are put back, each with its address. -/
def SDB.savedWords (sdb : SDB) (is : List Slot) : List (Addr × Word) :=
  (is.filter fun i => (sdb.breaks i).isUsed).map fun i =>
    ((sdb.breaks i).addr, (sdb.breaks i).originalWord)

/-- The byte at distance `k` from `a` is one that is read: all words up to the one that
holds it can be. -/
def Reads (m : Mem) (a : Addr) (k : Nat) : Prop :=
  k < 64 ∧ ∀ j ≤ k / 8, a + (8 * j : Nat) < a + 64 ∧ Mapped m (a + (8 * j : Nat))

/-- A command disassembles the running program from `a` on. The pass that comes before
the call of the disassembler may crash; then there is no call. -/
structure Disassembles (H : Host K) (env : Env K) (w : World K) (s : List Char) (a : Addr) :
    Prop where
  running : w.sdb.isRunning
  used : Verb.disasm.used w.sdb env.uninit s = some a
  passed : (sdbPatchAllBp H env (restoreAll slots (w.setLastDisasmAddr a))).2 = none

/-- The bytes that are then handed to the disassembler. -/
def handed (w : World K) (a : Addr) : List Byte :=
  peekWords (restoreAll slots (w.setLastDisasmAddr a)) (a + 64) 8 a

/-- The words that are put back leave the program's own bytes at all places that are read
from `a` on. -/
def Restored (H : Host K) (sdb : SDB) (p : Proc K) (a : Addr) : Prop :=
  ∀ k, Reads p.cpu.mem a k →
    byteAfter p.cpu.mem (sdb.savedWords slots) (a + k) = p.own H.toPlatform (a + k)

/-- The bytes that `disasm` hands to the disassembler are the program's own. -/
def Event.Hides (H : Host K) (r : Result K) : Event K → Prop
  | .command (.disasm s) env => (∃ out, r.ending = .prompt out) → ∀ p, r.world.live = some p →
      ∀ a, Disassembles H env r.world s a →
        Decoding.Holds (p.own H.toPlatform) a (handed r.world a)
  | _ => True

/-- The slots are `Restored` when `disasm` goes over them and does not crash. -/
def Event.Restores (H : Host K) (r : Result K) : Event K → Prop
  | .command (.disasm s) env => (∃ out, r.ending = .prompt out) → ∀ p, r.world.tracee = some p →
      ∀ a, Disassembles H env r.world s a → Restored H r.world.sdb p a
  | _ => True

section Reading

variable {H : Host K} {env : Env K} {w : World K} {p : Proc K} {a : Addr}

theorem Disassembles.printed {s : List Char} (h : Disassembles H env w s a) :
    ∃ v, sdbDisasm H env s w = printInsns H (handed w a) a v := by
  have running : (w.setLastDisasmAddr a).sdb.isRunning = true := h.running
  rw [sdbDisasm_of_used h.used, disasmAt, if_pos running, disasmLive]
  have passed := h.passed
  generalize sdbPatchAllBp H env (restoreAll slots (w.setLastDisasmAddr a)) = pass at passed
  obtain ⟨v, rfl⟩ : ∃ v, pass = (v, none) := ⟨pass.1, Prod.ext rfl passed⟩
  exact ⟨v, rfl⟩

theorem pokeOrIgnore_tracee (hp : w.tracee = some p) (v : Addr × Word) :
    (w.pokeOrIgnore v.1 v.2).tracee =
      some (p.setMem ((writeWord p.cpu.mem v.1 v.2).getD p.cpu.mem)) := by
  rw [World.pokeOrIgnore, World.poke_eq hp]
  cases writeWord p.cpu.mem v.1 v.2 with
  | none => exact hp
  | some m => exact World.tracee_setTracee hp _

/-- Putting the words back is one write after the other. -/
theorem restoreAll_tracee (hp : w.tracee = some p) (is : List Slot) :
    (restoreAll is w).tracee =
      some (p.setMem (writeAll p.cpu.mem (w.sdb.savedWords is))) := by
  induction is generalizing w p with
  | nil => exact hp
  | cons i is ih =>
      rw [restoreAll, SDB.savedWords, List.filter_cons]
      by_cases used : (w.sdb.breaks i).isUsed
      · rw [if_pos used, if_pos used]
        have poked := pokeOrIgnore_tracee hp ((w.sdb.breaks i).addr, (w.sdb.breaks i).originalWord)
        rw [ih poked, World.pokeOrIgnore_sdb]
        rfl
      · rw [if_neg used, if_neg used]
        exact ih hp

theorem restoreAll_tracee_none (away : w.tracee = none) (is : List Slot) :
    (restoreAll is w).tracee = none := by
  have failed : ∀ b word, w.pokeOrIgnore b word = w := by
    intro b word
    rw [World.pokeOrIgnore, World.poke, away, Option.bind_none, Option.getD_none]
  induction is with
  | nil => exact away
  | cons i is ih =>
      rw [restoreAll, failed, ite_self]
      exact ih

theorem peekWords_none (away : w.tracee = none) (stop : Addr) (n : Nat) (a : Addr) :
    peekWords w stop n a = [] := by
  have failed : w.peek a = none := by rw [World.peek, away, Option.bind_none]
  cases n with
  | zero => rfl
  | succ n =>
      rw [peekWords, failed]
      exact ite_self _

/-- How far the reading gets. -/
theorem lt_length_peekWords (hp : w.tracee = some p) {stop : Addr} {n k : Nat} {a : Addr} :
    k < (peekWords w stop n a).length ↔
      k < 8 * n ∧ ∀ j ≤ k / 8, a + (8 * j : Nat) < stop ∧ Mapped p.cpu.mem (a + (8 * j : Nat)) := by
  induction n generalizing k a with
  | zero => exact iff_of_false (Nat.not_lt_zero k) fun h => absurd h.1 (by omega)
  | succ n ih =>
      have here : a + ((8 * 0 : Nat) : Addr) = a := add_zero a
      rw [peekWords, World.peek_eq hp]
      by_cases inside : a < stop
      · rw [if_pos inside]
        cases read : readWord p.cpu.mem a with
        | none =>
            refine iff_of_false (Nat.not_lt_zero k) fun h => ?_
            have mapped := (h.2 0 (Nat.zero_le _)).2
            rw [here] at mapped
            exact readWord_eq_none.mp read mapped
        | some word =>
            have mapped : Mapped p.cpu.mem a := readWord_isSome.mp (by simp [read])
            have length : ((List.range 8).map (byteOf word)).length = 8 := by simp
            simp only [List.length_append, length]
            have next : ∀ j : Nat,
                a + ((8 * (j + 1) : Nat) : Addr) = a + 8 + ((8 * j : Nat) : Addr) := by
              intro j
              rw [Nat.mul_succ, Nat.cast_add, add_comm ((8 * j : Nat) : Addr), ← add_assoc]
              rfl
            by_cases first : k < 8
            · refine iff_of_true (by omega) ⟨by omega, fun j hj => ?_⟩
              obtain rfl : j = 0 := by omega
              rw [here]
              exact ⟨inside, mapped⟩
            · have rest := ih (k := k - 8) (a := a + 8)
              constructor
              · intro h
                obtain ⟨bound, all⟩ := rest.mp (by omega)
                refine ⟨by omega, fun j hj => ?_⟩
                cases j with
                | zero =>
                    rw [here]
                    exact ⟨inside, mapped⟩
                | succ j =>
                    rw [next]
                    exact all j (by omega)
              · rintro ⟨bound, all⟩
                have := rest.mpr ⟨by omega, fun j hj => by
                  rw [← next]
                  exact all (j + 1) (by omega)⟩
                omega
      · rw [if_neg inside]
        refine iff_of_false (Nat.not_lt_zero k) fun h => inside ?_
        have first := (h.2 0 (Nat.zero_le _)).1
        rwa [here] at first

/-- What is handed to the disassembler is the program's own exactly when the slots are
`Restored`. -/
theorem handed_iff (hp : w.tracee = some p) :
    Decoding.Holds (p.own H.toPlatform) a (handed w a) ↔ Restored H w.sdb p a := by
  have restored := restoreAll_tracee (w := w.setLastDisasmAddr a) hp slots
  have held := holds_peekWords restored (a + 64) 8 a
  rw [handed, held.iff_agrees, Restored]
  refine forall_congr' fun k => ?_
  have reads : k < (handed w a).length ↔ Reads p.cpu.mem a k := by
    rw [handed, lt_length_peekWords restored]
    simp only [Proc.setMem_mem, mapped_writeAll]
    rfl
  rw [← handed, reads, Proc.setMem_mem, writeAll_apply]
  rfl

end Reading

/-- The disassemblies of a session show the program's own bytes exactly when the words
that they put back are the right ones. -/
theorem session_hides_iff (H : Host K) (fresh : Slot → Bp) (events : List (Event K)) :
    Runs.AllSteps (step H) (fun r e => e.Hides H r) (created fresh) events ↔
      Runs.AllSteps (step H) (fun r e => e.Restores H r) (created fresh) events := by
  refine Runs.allSteps_congr (fun r e => ?_) _ _
  cases e with
  | killed pid => exact Iff.rfl
  | command cmd env =>
      cases cmd with
      | disasm s =>
          refine forall_congr' fun _ => ⟨fun h p hp a disassembles => ?_,
            fun h p hlive a disassembles => ?_⟩
          · have hlive := World.live_of_tracee disassembles.running hp
            exact (handed_iff hp).mp (h p hlive a disassembles)
          · cases hp : r.world.tracee with
            | some q =>
                have same := World.live_of_tracee disassembles.running hp
                rw [hlive] at same
                cases same
                exact (handed_iff hp).mpr (h p hp a disassembles)
            | none =>
                have away : (r.world.setLastDisasmAddr a).tracee = none := hp
                rw [handed, peekWords_none (restoreAll_tracee_none away slots)]
                trivial
      | _ => exact Iff.rfl

namespace Fragment

/-- Two breakpoints, the one at the higher address in the lower slot, and the start of the
program. -/
def twoBreaks : Result Maps :=
  session host fresh ([.load "/bin/prog".toList, .break "0x400002".toList,
    .break "0x400001".toList, .start].map (cmd nops 64))

/-- The word of slot 1 holds the trap of slot 0. -/
theorem twoBreaks_handed : (handed twoBreaks.world 0x400001).take 2 = [0x90, 0xcc] := rfl

theorem twoBreaks_live : ∃ p, twoBreaks.world.live = some p ∧
    p.own host.toPlatform = nops.cpu.mem := ⟨_, rfl, rfl⟩

theorem twoBreaks_disassembles : Disassembles host (env ⟨7, seven_pos⟩ nops 64) twoBreaks.world
    "0x400001".toList 0x400001 := ⟨rfl, rfl, rfl⟩

theorem twoBreaks_notHidden :
    ¬ (cmd nops 64 (.disasm "0x400001".toList)).Hides host twoBreaks := by
  intro hides
  obtain ⟨p, live, own⟩ := twoBreaks_live
  have held := hides ⟨_, rfl⟩ p live 0x400001 twoBreaks_disassembles
  rw [own] at held
  have front := held.front (List.take_prefix 2 _)
  rw [twoBreaks_handed] at front
  obtain ⟨-, trap, -⟩ := front
  have nop : nops.cpu.mem (0x400001 + 1) = some 0x90 := rfl
  rw [nop] at trap
  exact absurd (Option.some.inj trap) (by decide)

end Fragment

end Sdb
