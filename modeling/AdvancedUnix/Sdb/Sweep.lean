import AdvancedUnix.Sdb.Capstone
import AdvancedUnix.Sdb.Rejected

/-!
# Continued disassembly

`disasm` with an operand, and then without one again and again, goes through the
memory from the operand on. Each call reads what it can of 64 bytes, prints at most
ten instructions and moves the address to go on from past them. `Swept` says that
what is printed is the linear decoding of the memory, with nothing left out.

The instructions always are. What can go wrong is the printing: an instruction of
more than five bytes is written beyond `bytes_str`. And a section header may put the
address at an offset that `fseek` rejects; the file is then read from its start.
-/

namespace Sdb

open Memory Traced Decoding

variable {K : Type}

/-- The first section header whose range holds an address. -/
def sectionOf (shdr : List Elf.Shdr) (a : Addr) : Option Elf.Shdr :=
  shdr.find? fun s => s.addr ≤ a ∧ a < s.addr + s.size

/-- The file offset of an address by a section header. -/
def place (s : Elf.Shdr) (a : Addr) : Word := s.offset + a - s.addr

/-- The bytes of a file, by the addresses that a section header gives them. -/
def sectionMem (data : List Byte) (s : Elf.Shdr) : Mem := fun a => data[(place s a).toNat]?

/-- The memory that a disassembly from `a` on goes through: that of a stopped tracee with
no slot in use, or what the program's file holds for the section of `a`. -/
inductive Source (w : World K) (envs : List (Env K)) (a : Addr) : Mem → Prop
  | live {p : Proc K} (running : w.sdb.isRunning) (tracee : w.tracee = some p)
      (unused : ∀ i, ¬ (w.sdb.breaks i).isUsed) : Source w envs a p.cpu.mem
  | file {eh : Elf.Handle} {s : Elf.Shdr} {data : List Byte} (idle : ¬ w.sdb.isRunning)
      (handle : w.sdb.eh = some eh) (found : sectionOf (eh.shdr.getD []) a = some s)
      (read : ∀ env ∈ envs, env.read w.sdb.path = some data) (size : data.length < 2 ^ 63) :
      Source w envs a (sectionMem data s)

/-- Without a running program, an address is resolved by the section header of `a` or by
none. -/
def Inside (a : Addr) (sdb : SDB) (x : Addr) : Prop :=
  ¬ sdb.isRunning → ∀ eh, sdb.eh = some eh → ∀ s, sectionOf (eh.shdr.getD []) x = some s →
    sectionOf (eh.shdr.getD []) a = some s

/-- The offset of an address without a running program is one that `fseek` accepts. -/
def Seekable (sdb : SDB) (a : Addr) : Prop :=
  ¬ sdb.isRunning → ∀ eh, sdb.eh = some eh → ∀ offset,
    fileOffset a (eh.shdr.getD []) = some offset → 0 ≤ offset.toInt

/-- The bytes that `sdb_disasm` decodes for an address, if it is a valid one. -/
def windowBytes (env : Env K) (w : World K) (x : Addr) : Option (List Byte) :=
  if w.sdb.isRunning then some (Verb.disasm.bytes w x) else fileBytes env w.sdb x

/-- The first ten instructions of these bytes. -/
def windowInsns (H : Host K) (env : Env K) (w : World K) (x : Addr) : List CsInsn :=
  ((windowBytes env w x).map fun bytes => (H.csDisasm bytes x).take 10).getD []

/-- The instructions that a command prints. -/
def Result.insns (r : Result K) : List CsInsn :=
  match r.ending with
  | .prompt (.insns insns) => insns
  | _ => []

/-- The instructions that a session prints, from the first command on. -/
def printedInsns (H : Host K) : Result K → List (Event K) → List CsInsn
  | _, [] => []
  | r, e :: events => (step H r e).insns ++ printedInsns H (step H r e) events

/-- The lines that are printed are those of a linear decoding from `a` on. -/
def Swept {H : Host K} (C : Capstone H) (mem : Mem) (a : Addr) (insns : List CsInsn) : Prop :=
  ∃ n, printLines insns = some ((C.decoder.linear mem n a).map fun insn => insn.line insn)

/-- A command that goes on with the disassembly. -/
def more (env : Env K) : Event K := .command (.disasm []) env

/-- The address from which it goes on is `Inside`. -/
def Event.Inside (a : Addr) (r : Result K) (_ : Event K) : Prop :=
  Sdb.Inside a r.world.sdb r.world.sdb.lastDisasmAddr

/-- Of the bytes that a `disasm` command decodes, the first ten instructions have at most
five bytes each. -/
def Event.Short (H : Host K) (r : Result K) : Event K → Prop
  | .command (.disasm s) env => ∀ x, Verb.disasm.used r.world.sdb env.uninit s = some x →
      ∀ insn ∈ windowInsns H env r.world x, insn.bytes.length ≤ 5
  | _ => True

theorem fileOffset_eq (a : Addr) (shdr : List Elf.Shdr) :
    fileOffset a shdr = (sectionOf shdr a).map fun s => place s a := by
  induction shdr with
  | nil => rfl
  | cons s shdr ih =>
      rw [fileOffset, sectionOf, List.find?_cons]
      by_cases here : s.addr ≤ a ∧ a < s.addr + s.size
      · rw [if_pos here, decide_eq_true here]
        rfl
      · rw [if_neg here, decide_eq_false here]
        exact ih

section Calls

variable {H : Host K} {env : Env K} {w : World K} {a x : Addr}

/-- What a call needs so that it does not crash and patches nothing. -/
def Ready (env : Env K) (w : World K) : Prop :=
  (w.sdb.isRunning → ∀ i, ¬ (w.sdb.breaks i).isUsed) ∧
    (¬ w.sdb.isRunning → ∀ x, FileReady env w.sdb x)

theorem printInsns_window (bytes : List Byte) (w : World K) (x : Addr) :
    ∃ out, printInsns H bytes x (w.setLastDisasmAddr x) =
        ⟨w.setLastDisasmAddr (past CsInsn.bytes x ((H.csDisasm bytes x).take 10)), .prompt out⟩ ∧
      Result.insns ⟨w, .prompt out⟩ = (H.csDisasm bytes x).take 10 := by
  unfold printInsns
  cases (H.csDisasm bytes x).take 10 with
  | nil => exact ⟨_, rfl, rfl⟩
  | cons insn insns => exact ⟨_, rfl, rfl⟩

/-- One call prints the instructions of its window and goes past them. -/
theorem disasmAt_window (ready : Ready env w) (x : Addr) :
    ∃ out, disasmAt H env x (w.setLastDisasmAddr x) =
        ⟨w.setLastDisasmAddr (past CsInsn.bytes x (windowInsns H env w x)), .prompt out⟩ ∧
      Result.insns ⟨w, .prompt out⟩ = windowInsns H env w x := by
  obtain ⟨unused, file⟩ := ready
  unfold disasmAt windowInsns windowBytes
  by_cases running : w.sdb.isRunning
  · have unused := unused running
    have unused' : ∀ i, ¬ ((w.setLastDisasmAddr x).sdb.breaks i).isUsed := unused
    have running' : (w.setLastDisasmAddr x).sdb.isRunning = true := running
    rw [if_pos running', if_pos running, Verb.bytes, if_pos running, restoreAll_unused unused]
    unfold disasmLive
    simp only [restoreAll_unused unused', pass_unused unused', peekWords_setLastDisasmAddr]
    exact printInsns_window _ w x
  · have idle : ¬ (w.setLastDisasmAddr x).sdb.isRunning = true := running
    rw [if_neg idle, if_neg running]
    obtain ⟨notReady, -⟩ | ⟨-, ⟨invalid, rejected⟩ | ⟨data, bytes, printed⟩⟩ :=
      disasmFile_cases H env (w.setLastDisasmAddr x) x
    · exact absurd (file running x) notReady
    · have invalid : fileBytes env w.sdb x = none := invalid
      rw [invalid, rejected]
      exact ⟨_, rfl, rfl⟩
    · have bytes : fileBytes env w.sdb x = some data := bytes
      rw [bytes, printed]
      exact printInsns_window data w x

/-- A call with an operand, or one that goes on at an address that is not zero. -/
theorem step_disasm (ready : Ready env w) {s : List Char} (out : Output) {v : World K}
    (same : v.setLastDisasmAddr x = w.setLastDisasmAddr x)
    (used : Verb.disasm.used v.sdb env.uninit s = some x) :
    ∃ out', step H ⟨v, .prompt out⟩ (.command (.disasm s) env) =
        ⟨w.setLastDisasmAddr (past CsInsn.bytes x (windowInsns H env w x)), .prompt out'⟩ ∧
      Result.insns ⟨w, .prompt out'⟩ = windowInsns H env w x := by
  have call : step H ⟨v, .prompt out⟩ (.command (.disasm s) env) =
      disasmAt H env x (w.setLastDisasmAddr x) := by
    rw [← same, ← sdbDisasm_of_used used]
    rfl
  rw [call]
  exact disasmAt_window ready x

theorem World.setLastDisasmAddr_setLastDisasmAddr (w : World K) (x y : Addr) :
    (w.setLastDisasmAddr x).setLastDisasmAddr y = w.setLastDisasmAddr y := rfl

/-- A call without an operand goes on at the address that is kept. -/
theorem used_more (w : World K) (env : Env K) (nonzero : x ≠ 0) :
    Verb.disasm.used (w.setLastDisasmAddr x).sdb env.uninit [] = some x := if_neg nonzero

theorem used_zero (w : World K) (env : Env K) (zero : x = 0) :
    Verb.disasm.used (w.setLastDisasmAddr x).sdb env.uninit [] = none := if_pos zero

/-- There is no address to go on from. -/
theorem step_zero {out : Output} (zero : x = 0) :
    step H ⟨w.setLastDisasmAddr x, .prompt out⟩ (more env) =
      ⟨w.setLastDisasmAddr x, .prompt (.message "** no addr is given")⟩ := by
  subst zero
  rfl

/-- The bytes that are decoded are those that the memory of the sweep holds there. -/
def Served (env : Env K) (w : World K) (mem : Mem) (x : Addr) : Prop :=
  ∀ bytes, windowBytes env w x = some bytes → Decoding.Holds mem x bytes

theorem windowInsns_linear (C : Capstone H) {mem : Mem} (served : Served env w mem x) :
    ∃ n, windowInsns H env w x = C.decoder.linear mem n x := by
  unfold windowInsns
  cases h : windowBytes env w x with
  | none => exact ⟨0, rfl⟩
  | some bytes =>
      obtain ⟨n, hn⟩ := C.decoder.sweep_linear bytes.length (served bytes h)
      refine ⟨min 10 n, ?_⟩
      rw [Option.map_some, Option.getD_some, C.disasm, hn, Decoder.linear_take]

/-- Calls at these addresses are served, and the decoding does not get to others. -/
structure Serves (C : Capstone H) (envs : List (Env K)) (w : World K) (a : Addr) (mem : Mem)
    (Reach : Addr → Prop) : Prop where
  ready : ∀ env ∈ envs, Ready env w
  served : ∀ env ∈ envs, ∀ x, Reach x → Inside a w.sdb x → Served env w mem x
  closed : ∀ n x, Reach x → Reach (past CsInsn.bytes x (C.decoder.linear mem n x))

theorem Serves.rest {C : Capstone H} {envs : List (Env K)} {mem : Mem} {Reach : Addr → Prop}
    (h : Serves C (env :: envs) w a mem Reach) : Serves C envs w a mem Reach :=
  ⟨fun e he => h.ready e (List.mem_cons_of_mem _ he),
    fun e he => h.served e (List.mem_cons_of_mem _ he), h.closed⟩

/-- Calls without an operand go on with the decoding from where it stands. -/
theorem printed_more {C : Capstone H} {mem : Mem} {Reach : Addr → Prop} {envs : List (Env K)}
    (serves : Serves C envs w a mem Reach) {out : Output} (reach : Reach x)
    (inside : Runs.AllSteps (step H) (fun r e => e.Inside a r) ⟨w.setLastDisasmAddr x, .prompt out⟩
      (envs.map more)) :
    ∃ n, printedInsns H ⟨w.setLastDisasmAddr x, .prompt out⟩ (envs.map more) =
      C.decoder.linear mem n x := by
  induction envs generalizing x out with
  | nil => exact ⟨0, rfl⟩
  | cons env envs ih =>
      have here := serves.ready env List.mem_cons_self
      rw [List.map_cons, Runs.allSteps_cons] at inside
      rw [List.map_cons, printedInsns]
      obtain ⟨first, later⟩ := inside
      by_cases zero : x = 0
      · rw [step_zero zero] at later ⊢
        exact ih serves.rest reach later
      · obtain ⟨out', call, insns⟩ := step_disasm (H := H) (w := w) here out
          (World.setLastDisasmAddr_setLastDisasmAddr w x x) (used_more w env zero)
        obtain ⟨m, hm⟩ :=
          windowInsns_linear C (serves.served env List.mem_cons_self x reach first)
        rw [← more] at call
        rw [call, hm] at later
        obtain ⟨n, hn⟩ := ih serves.rest (serves.closed m x reach) later
        refine ⟨m + n, ?_⟩
        rw [call, hm, hn, Decoder.linear_append, ← hm]
        exact congrArg (· ++ _) insns

theorem windowInsns_setLastDisasmAddr (ready : Ready env w) (x y : Addr) :
    windowInsns H env (w.setLastDisasmAddr y) x = windowInsns H env w x := by
  have same : windowBytes env (w.setLastDisasmAddr y) x = windowBytes env w x := by
    unfold windowBytes
    by_cases running : w.sdb.isRunning
    · have unused := ready.1 running
      have unused' : ∀ i, ¬ ((w.setLastDisasmAddr y).sdb.breaks i).isUsed := unused
      have running' : (w.setLastDisasmAddr y).sdb.isRunning = true := running
      simp only [if_pos running, if_pos running', Verb.bytes, restoreAll_unused unused,
        restoreAll_unused unused', peekWords_setLastDisasmAddr]
    · have idle : ¬ (w.setLastDisasmAddr y).sdb.isRunning = true := running
      rw [if_neg running, if_neg idle]
      rfl
  rw [windowInsns, same, windowInsns]

/-- What is printed is short exactly when each call meets the condition. -/
theorem short_more {envs : List (Env K)} (ready : ∀ env ∈ envs, Ready env w) {out : Output} :
    (∀ insn ∈ printedInsns H ⟨w.setLastDisasmAddr x, .prompt out⟩ (envs.map more),
        insn.bytes.length ≤ 5) ↔
      Runs.AllSteps (step H) (fun r e => e.Short H r) ⟨w.setLastDisasmAddr x, .prompt out⟩
        (envs.map more) := by
  induction envs generalizing x out with
  | nil => exact iff_of_true (fun _ h => by cases h) trivial
  | cons env envs ih =>
      have here := ready env List.mem_cons_self
      have rest := fun env h => ready env (List.mem_cons_of_mem _ h)
      rw [List.map_cons, printedInsns, Runs.allSteps_cons]
      simp only [List.mem_append, or_imp, forall_and]
      by_cases zero : x = 0
      · rw [step_zero zero]
        refine and_congr (iff_of_true (fun _ h => by cases h) fun y used => ?_) (ih rest)
        rw [used_zero w env zero] at used
        cases used
      · obtain ⟨out', call, insns⟩ := step_disasm (H := H) (w := w) here out
          (World.setLastDisasmAddr_setLastDisasmAddr w x x) (used_more w env zero)
        rw [← more] at call
        rw [call]
        refine and_congr ⟨fun short y used => ?_, fun short => ?_⟩ (ih rest)
        · rw [used_more w env zero] at used
          cases used
          rw [windowInsns_setLastDisasmAddr here, ← insns]
          exact short
        · have short := short x (used_more w env zero)
          rw [windowInsns_setLastDisasmAddr here, ← insns] at short
          exact short

end Calls

section Sources

variable {H : Host K} {env : Env K} {w : World K} {a x : Addr}

theorem holds_peekWords {p : Proc K} (hp : w.tracee = some p) (stop : Addr) (n : Nat) (x : Addr) :
    Decoding.Holds p.cpu.mem x (peekWords w stop n x) := by
  induction n generalizing x with
  | zero => trivial
  | succ n ih =>
      rw [peekWords]
      split
      · rw [World.peek_eq hp]
        cases read : readWord p.cpu.mem x with
        | none => trivial
        | some word => exact holds_append.mpr ⟨holds_bytesOf_iff.mpr read, ih (x + 8)⟩
      · trivial

theorem served_live {p : Proc K} (running : w.sdb.isRunning) (hp : w.tracee = some p)
    (unused : ∀ i, ¬ (w.sdb.breaks i).isUsed) (env : Env K) (x : Addr) :
    Served env w p.cpu.mem x := by
  intro bytes h
  rw [windowBytes, if_pos running, Verb.bytes, if_pos running, restoreAll_unused unused] at h
  cases h
  exact holds_peekWords hp _ _ _

variable {s : Elf.Shdr} {data : List Byte}

theorem place_add (s : Elf.Shdr) (x y : Addr) : place s (x + y) = place s x + y := by
  rw [place, place, ← add_assoc, add_sub_right_comm]

theorem place_toNat {k : Nat} (seek : (place s x).toNat < 2 ^ 63) (le : k ≤ 2 ^ 63) :
    (place s (x + (k : Addr))).toNat = (place s x).toNat + k := by
  have small : ((k : Addr)).toNat = k := Nat.mod_eq_of_lt (by omega)
  rw [place_add, BitVec.toNat_add, small]
  exact Nat.mod_eq_of_lt (by omega)

theorem toInt_nonneg_iff (offset : Word) : 0 ≤ offset.toInt ↔ offset.toNat < 2 ^ 63 := by
  rw [BitVec.toInt_eq_toNat_cond]
  split <;> omega

/-- What is read at an offset that is not negative is what the section has there. -/
theorem served_file {eh : Elf.Handle} (idle : ¬ w.sdb.isRunning) (handle : w.sdb.eh = some eh)
    (found : sectionOf (eh.shdr.getD []) a = some s) (read : env.read w.sdb.path = some data)
    (seek : (place s x).toNat < 2 ^ 63)
    (inside : Inside a w.sdb x) : Served env w (sectionMem data s) x := by
  intro bytes h
  rw [windowBytes, if_neg idle, fileBytes, handle, Option.bind_some] at h
  split at h
  · cases h
  · rw [fileOffset_eq] at h
    cases at_ : sectionOf (eh.shdr.getD []) x with
    | none =>
        rw [at_] at h
        cases h
    | some t =>
        have same := inside idle eh handle t at_
        rw [found] at same
        cases same
        rw [at_, read] at h
        cases h
        have nonneg : ¬ (place s x).toInt < 0 := not_lt.mpr ((toInt_nonneg_iff _).mpr seek)
        simp only [readFile, if_neg nonneg]
        rw [holds_iff]
        intro k hk
        rw [List.length_take, List.length_drop] at hk
        rw [sectionMem, place_toNat seek (by omega), List.getElem?_eq_getElem (by omega)]
        simp

/-- The decoding of a section does not get to an offset that is negative. -/
theorem seek_past (C : Capstone H) (size : data.length < 2 ^ 63)
    (seek : (place s x).toNat < 2 ^ 63) (n : Nat) :
    (place s (past CsInsn.bytes x (C.decoder.linear (sectionMem data s) n x))).toNat < 2 ^ 63 := by
  induction n generalizing x with
  | zero => exact seek
  | succ n ih =>
      cases h : C.decoder.item (sectionMem data s) x with
      | none =>
          rw [Decoder.linear_none h]
          exact seek
      | some insn =>
          rw [Decoder.linear_some h, past_cons]
          apply ih
          have most := C.decoder.units_le h
          have pos := C.decoder.units_pos h
          have held := holds_iff.mp (Decoder.holds_of_item h) (insn.bytes.length - 1) (by omega)
          rw [sectionMem] at held
          have bound := (List.getElem?_eq_some_iff.mp held).1
          rw [place_toNat seek (by omega)] at bound ⊢
          omega

theorem Source.ready {envs : List (Env K)} {mem : Mem} (source : Source w envs a mem) :
    ∀ env ∈ envs, Ready env w := by
  intro env henv
  cases source with
  | live running tracee unused => exact ⟨fun _ => unused, fun idle => absurd running idle⟩
  | @file eh s data idle handle found read size =>
      refine ⟨fun running => absurd running idle, fun _ x => ⟨eh, handle, fun none => ?_, ?_⟩⟩
      · rw [none] at found
        cases found
      · intro _
        rw [read env henv]
        rfl

/-- A call that prints nothing is followed by calls that print nothing. -/
theorem printed_nothing {envs : List (Env K)} (ready : ∀ env ∈ envs, Ready env w)
    (nothing : ∀ env ∈ envs, windowInsns H env w x = []) (out : Output) :
    printedInsns H ⟨w.setLastDisasmAddr x, .prompt out⟩ (envs.map more) = [] := by
  induction envs generalizing out with
  | nil => rfl
  | cons env envs ih =>
      have rest := ih (fun env h => ready env (List.mem_cons_of_mem _ h))
        (fun env h => nothing env (List.mem_cons_of_mem _ h))
      rw [List.map_cons, printedInsns]
      by_cases zero : x = 0
      · rw [step_zero zero, rest]
        rfl
      · obtain ⟨out', call, insns⟩ := step_disasm (H := H) (w := w)
          (ready env List.mem_cons_self) out
          (World.setLastDisasmAddr_setLastDisasmAddr w x x) (used_more w env zero)
        rw [nothing env List.mem_cons_self] at call insns
        rw [← more] at call
        rw [call]
        exact List.append_eq_nil_iff.mpr ⟨insns, rest out'⟩

/-- Instructions that are those of the decoding are `Swept` exactly when they are short. -/
theorem swept_iff (C : Capstone H) {mem : Mem} {insns : List CsInsn}
    (linear : ∃ n, insns = C.decoder.linear mem n a) :
    Swept C mem a insns ↔ ∀ insn ∈ insns, insn.bytes.length ≤ 5 := by
  obtain ⟨n, hn⟩ := linear
  constructor
  · rintro ⟨m, lines⟩
    by_contra long
    rw [printLines_eq, if_neg long] at lines
    cases lines
  · intro short
    refine ⟨n, ?_⟩
    rw [← hn, printLines_eq, if_pos short]

/-- A memory that is read at its place serves the sweep. -/
theorem Source.serves {envs : List (Env K)} {mem : Mem} (source : Source w envs a mem)
    (C : Capstone H) (seek : Seekable w.sdb a) :
    ∃ Reach : Addr → Prop, Reach a ∧ Serves C envs w a mem Reach := by
  have ready := source.ready
  cases source with
  | live running tracee unused =>
      exact ⟨fun _ => True, trivial, ready,
        fun env _ x _ _ => served_live running tracee unused env x, fun _ _ _ => trivial⟩
  | @file eh s data idle handle found read size =>
      have place : 0 ≤ (place s a).toInt := by
        apply seek idle eh handle
        rw [fileOffset_eq, found]
        rfl
      refine ⟨fun x => (Sdb.place s x).toNat < 2 ^ 63, ?_, ready, ?_, ?_⟩
      · exact (toInt_nonneg_iff _).mp place
      · intro env henv x reach inside
        exact served_file idle handle found (read env henv) reach inside
      · intro n x reach
        exact seek_past C size reach n

/-- At a place that `fseek` rejects the section has nothing. -/
theorem Source.unread {envs : List (Env K)} {mem : Mem} (source : Source w envs a mem)
    (C : Capstone H) (seek : ¬ Seekable w.sdb a) (n : Nat) : C.decoder.linear mem n a = [] := by
  apply Decoder.linear_none
  apply Decoder.item_none
  cases source with
  | live running tracee unused => exact absurd (fun idle => absurd running idle) seek
  | @file eh s data idle handle found read size =>
      rw [sectionMem, List.getElem?_eq_none]
      by_contra within
      apply seek
      intro _ eh' heh offset at_
      rw [handle] at heh
      cases heh
      rw [fileOffset_eq, found] at at_
      cases at_
      apply (toInt_nonneg_iff (place s a)).mpr
      omega

/-- All calls would read the same at an address. -/
theorem Source.same {envs : List (Env K)} {mem : Mem} (source : Source w envs a mem)
    {env env' : Env K} (h : env ∈ envs) (h' : env' ∈ envs) (x : Addr) :
    windowInsns H env w x = windowInsns H env' w x := by
  unfold windowInsns windowBytes
  cases source with
  | live running tracee unused => rw [if_pos running, if_pos running]
  | @file eh s data idle handle found read size =>
      rw [if_neg idle, if_neg idle, fileBytes, fileBytes, read env h, read env' h']

/-- A disassembly that is continued prints the linear decoding of the memory exactly when
each instruction has room in `bytes_str`, and the file is read at the place of the
address or nothing decodes at its start. -/
theorem continued_sweep_iff (C : Capstone H) {mem : Mem} {envs : List (Env K)}
    {addrStr : List Char} (typed : addrStr ≠ []) (operand : operandAddr env.uninit addrStr = a)
    (source : Source w (env :: envs) a mem) (out : Output)
    (inside : Runs.AllSteps (step H) (fun r e => e.Inside a r)
      (step H ⟨w, .prompt out⟩ (.command (.disasm addrStr) env)) (envs.map more)) :
    Swept C mem a (printedInsns H ⟨w, .prompt out⟩
        (.command (.disasm addrStr) env :: envs.map more)) ↔
      (Seekable w.sdb a ∨ windowInsns H env w a = []) ∧
        Runs.AllSteps (step H) (fun r e => e.Short H r) ⟨w, .prompt out⟩
          (.command (.disasm addrStr) env :: envs.map more) := by
  have ready := source.ready
  have here := ready env List.mem_cons_self
  have rest := fun env h => ready env (List.mem_cons_of_mem _ h)
  have used : Verb.disasm.used w.sdb env.uninit addrStr = some a :=
    (if_neg typed).trans (congrArg some operand)
  obtain ⟨out', call, insns⟩ := step_disasm (H := H) (w := w) here out rfl used
  -- what is printed is short exactly when the calls meet the condition
  have short : (∀ insn ∈ printedInsns H ⟨w, .prompt out⟩
      (.command (.disasm addrStr) env :: envs.map more), insn.bytes.length ≤ 5) ↔
        Runs.AllSteps (step H) (fun r e => e.Short H r) ⟨w, .prompt out⟩
          (.command (.disasm addrStr) env :: envs.map more) := by
    rw [printedInsns, Runs.allSteps_cons, call]
    simp only [List.mem_append, or_imp, forall_and]
    refine and_congr ⟨fun first y used' => ?_, fun first => ?_⟩ (short_more rest)
    · rw [used] at used'
      cases used'
      rw [← insns]
      exact first
    · have first := first a used
      rw [← insns] at first
      exact first
  rw [← short]
  by_cases seek : Seekable w.sdb a
  · rw [and_iff_right (.inl seek)]
    apply swept_iff
    obtain ⟨Reach, reach, serves⟩ := source.serves C seek
    have first := serves.served env List.mem_cons_self a reach fun _ _ _ _ found => found
    obtain ⟨m, hm⟩ := windowInsns_linear C first
    rw [call, hm] at inside
    obtain ⟨n, hn⟩ := printed_more serves.rest (serves.closed m a reach) inside
    refine ⟨m + n, ?_⟩
    rw [printedInsns, call, hm, hn, Decoder.linear_append, ← hm]
    exact congrArg (· ++ _) insns
  · have nothing : printedInsns H ⟨w, .prompt out⟩
        (.command (.disasm addrStr) env :: envs.map more) = [] ↔ windowInsns H env w a = [] := by
      have printed : Result.insns ⟨w.setLastDisasmAddr
          (past CsInsn.bytes a (windowInsns H env w a)), .prompt out'⟩ = windowInsns H env w a :=
        insns
      rw [printedInsns, List.append_eq_nil_iff, call, printed]
      refine and_iff_left_of_imp fun first => ?_
      have stays : past CsInsn.bytes a [] = a := rfl
      rw [first, stays]
      refine printed_nothing rest (fun e he => ?_) out'
      rw [source.same (List.mem_cons_of_mem _ he) List.mem_cons_self, first]
    constructor
    · rintro ⟨n, lines⟩
      rw [source.unread C seek, List.map_nil, printLines_eq] at lines
      split at lines
      · rename_i short
        have empty := List.map_eq_nil_iff.mp (Option.some.inj lines)
        exact ⟨.inr (nothing.mp empty), short⟩
      · cases lines
    · rintro ⟨valid, -⟩
      rw [nothing.mpr (valid.resolve_left seek)]
      exact ⟨0, rfl⟩

end Sources

namespace Fragment

def manyNops : Image Maps := image someMaps 0x400000 (List.replicate 32 0x90)

/-- The program has just been started. -/
def started : Result Maps :=
  session host fresh ([.load "/bin/prog".toList, .start].map (cmd manyNops 64))

/-- The program is disassembled by two calls, which print ten instructions each. -/
theorem manyNops_swept :
    Swept capstone manyNops.cpu.mem 0x400000
      (printedInsns host ⟨started.world, .prompt .silent⟩
        (.command (.disasm "0x400000".toList) (env ⟨7, seven_pos⟩ manyNops 64) ::
          [env ⟨7, seven_pos⟩ manyNops 64].map more)) := by
  have running : started.world.sdb.isRunning := rfl
  have source : Source started.world
      [env ⟨7, seven_pos⟩ manyNops 64, env ⟨7, seven_pos⟩ manyNops 64] 0x400000
      manyNops.cpu.mem := .live (p := manyNops.load) rfl rfl (by decide)
  refine (continued_sweep_iff capstone (by decide) rfl source .silent ?_).mpr ⟨.inl ?_, ?_, ?_, ?_⟩
  · exact ⟨fun idle => absurd rfl idle, trivial⟩
  · exact fun idle => absurd running idle
  · intro x used
    cases used
    decide
  · intro x used
    cases used
    decide
  · trivial

/-- `nop word ptr [rax + rax]`. -/
def longNop : List Byte := [0x66, 0x0f, 0x1f, 0x44, 0x00, 0x00]

/-- The first instruction of a text that may begin with the long `nop`. -/
def oneWide (bs : List Byte) (a : Addr) : Option CsInsn :=
  if longNop <+: bs then some ⟨a, longNop, "nop".toList, "word ptr [rax + rax]".toList⟩
  else one bs a

theorem oneWide_cases {bs : List Byte} {a : Addr} {insn : CsInsn} (h : oneWide bs a = some insn) :
    (longNop <+: bs ∧ insn = ⟨a, longNop, "nop".toList, "word ptr [rax + rax]".toList⟩) ∨
      One insn ∧ insn.address = a ∧ insn.bytes <+: bs := by
  unfold oneWide at h
  split at h
  · rename_i long
    exact .inl ⟨long, (Option.some.inj h).symm⟩
  · exact .inr (one_eq_some_iff.mp h)

/-- No other instruction is at the front of a text that begins with the long `nop`. -/
theorem One.notLong {bs : List Byte} {insn : CsInsn} (known : One insn)
    (front : insn.bytes <+: bs) : ¬ longNop <+: bs := by
  rintro ⟨rest, rfl⟩
  obtain ⟨tail, same⟩ := front
  cases known <;> exact absurd (List.cons.inj same).1 (by decide)

def wide : Decoder Addr CsInsn.bytes 15 where
  one := oneWide
  units_pos h := by
    rcases oneWide_cases h with ⟨-, rfl⟩ | ⟨known, address, front⟩
    · exact Nat.succ_pos _
    · exact decoder.units_pos (one_eq_some_iff.mpr ⟨known, address, front⟩)
  units_le h := by
    rcases oneWide_cases h with ⟨-, rfl⟩ | ⟨known, address, front⟩
    · exact Nat.le_of_lt_succ (by simp [longNop])
    · exact decoder.units_le (one_eq_some_iff.mpr ⟨known, address, front⟩)
  units_front h := by
    rcases oneWide_cases h with ⟨long, rfl⟩ | ⟨-, -, front⟩
    · exact long
    · exact front
  one_local h front := by
    rcases oneWide_cases h with ⟨-, rfl⟩ | ⟨known, address, -⟩
    · exact if_pos front
    · exact (if_neg (known.notLong front)).trans (one_eq_some_iff.mpr ⟨known, address, front⟩)

/-- The fragment with a disassembler that knows the long `nop`. -/
def wideHost : Host Maps := { host with csDisasm := fun bs a => wide.sweep bs.length bs a }

theorem oneWide_address {bs : List Byte} {a : Addr} {insn : CsInsn}
    (h : oneWide bs a = some insn) : insn.address = a := by
  rcases oneWide_cases h with ⟨-, rfl⟩ | ⟨-, address, -⟩
  · rfl
  · exact address

def wideCapstone : Capstone wideHost where
  decoder := wide
  address h := oneWide_address h
  disasm _ _ := rfl

/-- The long `nop`, and short ones behind it. -/
def aligned : Image Maps := image someMaps 0x400000 (longNop ++ List.replicate 10 0x90)

/-- Its six bytes are eighteen characters, and `bytes_str` has room for fifteen. -/
theorem aligned_notSwept :
    ¬ Swept wideCapstone aligned.cpu.mem 0x400000
      (printedInsns wideHost
        (session wideHost fresh ([.load "/bin/prog".toList, .start].map (cmd aligned 64)))
        [cmd aligned 64 (.disasm "0x400000".toList)]) := by
  rintro ⟨n, lines⟩
  have overrun : printLines (printedInsns wideHost
      (session wideHost fresh ([.load "/bin/prog".toList, .start].map (cmd aligned 64)))
      [cmd aligned 64 (.disasm "0x400000".toList)]) = none := rfl
  rw [overrun] at lines
  cases lines

end Fragment

end Sdb
