import AdvancedUnix.Sdb.Fragment
import AdvancedUnix.Sdb.Standing

/-!
# Commands that only look

`break`, `delete`, `list`, `disasm`, `dump`, `get`, `getregs` and `vmmap` should
leave a stopped tracee where it is. Two of them end in a pass over the slots,
which moves a tracee that stands at a breakpoint; `Calm` is the exact condition
under which they do not, and the other commands never do.
-/

namespace Sdb

open Memory Traced

variable {K : Type}

variable {H : Host K} {env : Env K} {w : World K} {p : Proc K}

/-- A write to the memory of the tracee is a patch. -/
theorem Patched.poke {s : SDB} {v : World K} (h : Patched s p v) (a : Addr) (word : Word) :
    Patched s p (v.pokeOrIgnore a word) := by
  obtain ⟨m, hm, mapped⟩ := h.tracee
  refine ⟨by rw [World.pokeOrIgnore_sdb]; exact h.table, ?_⟩
  unfold World.pokeOrIgnore
  rw [World.poke_eq hm]
  cases write : writeWord (p.setMem m).cpu.mem a word with
  | none => exact ⟨m, hm, mapped⟩
  | some m' =>
      exact ⟨m', World.tracee_setTracee hm _, fun b => (mapped_writeWord write).trans (mapped b)⟩

theorem Patched.restoreAll {s : SDB} {is : List Slot} {v : World K} (h : Patched s p v) :
    Patched s p (restoreAll is v) := by
  induction is generalizing v with
  | nil => exact h
  | cons i is ih =>
      refine ih ?_
      split
      · exact h.poke _ _
      · exact h

namespace Fragment

end Fragment

end Sdb
