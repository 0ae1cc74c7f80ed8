import AdvancedUnix.Sdb.Ptrace

/-!
# The pass that patches all breakpoints

`sdb_patch_all_bp` walks the slots in order. A tracee that stands at the address
of a used slot is first stepped over it; then the byte there is replaced by a
trap, unless it already is one. A failed write ends the whole pass.
-/

namespace Sdb

open Memory Traced

variable {K : Type}

/-- How the loop goes on after one slot. -/
inductive Go where
  | next
  | return
  | fault (fault : Fault)
  deriving DecidableEq

/-- The word with a trap in its low byte. -/
def trapWord (word : Word) : Word := (word &&& 0xffffffffffffff00) ||| 0xcc

/-- A tracee that stands at `addr` executes one instruction. -/
def stepOver (H : Host K) (env : Env K) (i : Slot) (addr : Addr) (w : World K) : World K :=
  let regs := w.getregs.getD env.uninit.regs
  if regs.rip = addr then w.stepAndWait H.toPlatform (env.waits (.slot i)) else w

/-- The loop body of `sdb_patch_all_bp` after the address was translated. -/
def patchAt (H : Host K) (env : Env K) (i : Slot) (addr : Addr) (w : World K) : World K × Go :=
  let w := stepOver H env i addr w
  let word := w.peekOrError addr
  if word &&& 0xff = 0xcc then (w, .next)
  else
    let w := w.setBreak i { w.sdb.breaks i with originalWord := word }
    match w.poke addr (trapWord word) with
    | none => (w, .return)
    | some w => (w, .next)

/-- One round of the loop of `sdb_patch_all_bp`. -/
def patchSlot (H : Host K) (env : Env K) (i : Slot) (w : World K) : World K × Go :=
  if ¬ (w.sdb.breaks i).isUsed then (w, .next)
  else
    match slotAddr H env.uninit w i with
    | .error fault => (w, .fault fault)
    | .ok addr => patchAt H env i addr w

def patchFrom (H : Host K) (env : Env K) : List Slot → World K → World K × Option Fault
  | [], w => (w, none)
  | i :: slots, w =>
    match patchSlot H env i w with
    | (w, .next) => patchFrom H env slots w
    | (w, .return) => (w, none)
    | (w, .fault fault) => (w, some fault)

def slots : List Slot := List.finRange maxBreak

theorem mem_slots (i : Slot) : i ∈ slots := List.mem_finRange i

theorem slots_sorted : slots.Pairwise (· < ·) := List.pairwise_lt_finRange maxBreak

theorem slots_nodup : slots.Nodup := List.nodup_finRange maxBreak

/-- `sdb_patch_all_bp`. -/
def sdbPatchAllBp (H : Host K) (env : Env K) (w : World K) : World K × Option Fault :=
  patchFrom H env slots w

end Sdb
