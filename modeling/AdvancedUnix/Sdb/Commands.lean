import AdvancedUnix.Sdb.Patch

/-!
# The commands of the debugger

The functions of `sdb.h`, one for each command. `sdb_cont` and the second half
of `sdb_run` are the same code; it is `contFrom` here, with the value that the
status variable holds before the wait loop. `sdb_start` and the first half of
`sdb_run` share `launch` in the same way.
-/

namespace Sdb

open Memory Traced

variable {K : Type}

/-- `fork`, `execlp` in the child and the first `waitpid`: its status, or the
message with which the caller returns early. -/
def launch (env : Env K) (w : World K) : World K × Except String Nat :=
  match env.fork with
  | none => (w.setPid (-1), .error "Failed to fork")
  | some pid =>
    let child : Child K :=
      match env.exec with
      | some image => .live (.pending sigtrap) image.load
      | none => .zombie 0xff00 none
    let status := if env.exec.isSome then 0x057f else 0xff00
    let w := (w.setPid pid).setChild child
    if env.waits .exec then (w.collect, .ok status) else (w, .error "waitpid failed")

/-- `sdb_start`. -/
def sdbStart (H : Host K) (env : Env K) (w : World K) : Result K :=
  if ¬ w.sdb.isLoaded then ⟨w, .prompt (.message "No program loaded")⟩
  else
    match launch env w with
    | (w, .error text) => ⟨w, .prompt (.message text)⟩
    | (w, .ok _) =>
      match sdbPatchAllBp H env w with
      | (w, some fault) => ⟨w, .fault fault⟩
      | (w, none) => ⟨w, .prompt (.pid w.sdb.pid)⟩

/-- The loop over the slots after a stop: the first used slot whose address is
`rip - 1`. The handle is looked at for every slot, used or not. -/
def matchSlot (H : Host K) (u : Uninit) (w : World K) (rip : Addr) :
    List Slot → Except Fault (Option (Slot × Addr))
  | [] => .ok none
  | i :: slots =>
    match slotAddr H u w i with
    | .error fault => .error fault
    | .ok vaddr =>
      if (w.sdb.breaks i).isUsed ∧ vaddr = rip - 1 then .ok (some (i, vaddr))
      else matchSlot H u w rip slots

/-- The original word is put back, the tracee is moved back to the breakpoint,
and the word there is read for the report. -/
def reportBp (w : World K) (i : Slot) (vaddr : Addr) (regs : UserRegs) : Result K :=
  let w := w.pokeOrIgnore vaddr (w.sdb.breaks i).originalWord
  let w := (w.setregs { regs with rip := regs.rip - 1 }).getD w
  ⟨w, .prompt (.breakpoint i vaddr (w.peekOrError vaddr))⟩

/-- After the loop: the tracee is gone. -/
def childEnded (status : Nat) (w : World K) : Result K :=
  ⟨w.setPid (-1), .prompt (.ended w.sdb.pid status)⟩

/-- The wait loop, at its iteration `n`. The bound on the iterations is never
used up: a tracee that has stopped or ended makes the next `waitpid` block or fail. -/
def waitLoop (H : Host K) (env : Env K) : Nat → Nat → Nat → World K → Result K
  | 0, _, _, w => ⟨w, .waiting⟩
  | bound + 1, n, status, w =>
    match waitpid H.toPlatform (env.waits (.loop n)) env.fuel w with
    | .error => childEnded status w
    | .busy w => ⟨w, .waiting⟩
    | .blocked => ⟨w, .stuck⟩
    | .exited status w => waitLoop H env bound (n + 1) status w
    | .stopped sig w =>
      let regs := w.getregs.getD env.uninit.regs
      match matchSlot H env.uninit w regs.rip slots with
      | .error fault => ⟨w, .fault fault⟩
      | .ok (some (i, vaddr)) => reportBp w i vaddr regs
      | .ok none => waitLoop H env bound (n + 1) (256 * sig + 0x7f) w

/-- The pass, `PTRACE_CONT` and the wait loop. -/
def contFrom (H : Host K) (env : Env K) (status : Nat) (w : World K) : Result K :=
  match sdbPatchAllBp H env w with
  | (w, some fault) => ⟨w, .fault fault⟩
  | (w, none) => waitLoop H env 3 0 status w.ptraceCont

/-- `sdb_cont`. -/
def sdbCont (H : Host K) (env : Env K) (w : World K) : Result K :=
  if ¬ w.sdb.isRunning then ⟨w, .prompt (.message "not running")⟩
  else contFrom H env env.uninit.status w

/-- `sdb_run`. -/
def sdbRun (H : Host K) (env : Env K) (w : World K) : Result K :=
  if ¬ w.sdb.isLoaded then ⟨w, .prompt (.message "No program loaded")⟩
  else if ¬ w.sdb.isRunning then
    match launch env w with
    | (w, .error text) => ⟨w, .prompt (.message text)⟩
    | (w, .ok status) => contFrom H env status w
  else contFrom H env env.uninit.status w

/-- `sdb_step`. -/
def sdbStep (H : Host K) (env : Env K) (w : World K) : Result K :=
  if ¬ w.sdb.isRunning then ⟨w, .prompt (.message "Not running")⟩
  else
    match w.singlestep H.toPlatform with
    | none => ⟨w, .prompt (.message "Step failed")⟩
    | some w =>
      if env.waits .step then ⟨w.collect, .prompt .silent⟩
      else ⟨w, .prompt (.message "Failed to wait")⟩

/-- The first slot that is not in use. -/
def freeSlot (sdb : SDB) : Option Slot := slots.find? fun i => ! (sdb.breaks i).isUsed

/-- `sdb_set_break`. With all slots in use the slot pointer is never set. -/
def sdbSetBreak (H : Host K) (env : Env K) (addrStr : List Char) (w : World K) : Result K :=
  if ¬ w.sdb.isLoaded then ⟨w, .prompt (.message "No program loaded")⟩
  else
    let addr := (hexOperand addrStr env.uninit.tail).getD env.uninit.addr
    match freeSlot w.sdb with
    | none => ⟨w, .fault .wildSlot⟩
    | some i =>
      let w := w.setBreak i { w.sdb.breaks i with isUsed := true, addr := addr }
      if w.sdb.isRunning then
        match sdbPatchAllBp H env w with
        | (w, some fault) => ⟨w, .fault fault⟩
        | (w, none) => ⟨w, .prompt .silent⟩
      else ⟨w, .prompt .silent⟩

/-- `sdb_list`. -/
def sdbList (w : World K) : Result K :=
  ⟨w, .prompt (.breaks ((slots.filter fun i => (w.sdb.breaks i).isUsed).map fun i =>
    (i, (w.sdb.breaks i).addr)))⟩

/-- The body of `sdb_delete` for a slot in use: the word is put back at the
address of the slot, which is not translated here. -/
def deleteSlot (w : World K) (i : Slot) : World K :=
  let bp := w.sdb.breaks i
  let w :=
    if w.peekOrError bp.addr &&& 0xff = 0xcc then w.pokeOrIgnore bp.addr bp.originalWord else w
  w.setBreak i { bp with isUsed := false }

/-- `sdb_delete`. -/
def sdbDelete (index : Int) (w : World K) : Result K :=
  if h : 0 ≤ index ∧ index < maxBreak then
    let i : Slot := ⟨index.toNat, by omega⟩
    if (w.sdb.breaks i).isUsed then ⟨deleteSlot w i, .prompt (.message "breakpoint deleted")⟩
    else ⟨w, .prompt .silent⟩
  else ⟨w, .prompt .silent⟩

/-- The loop that reads the tracee word by word, up to the end of the buffer or
the first word that cannot be read. -/
def peekWords (w : World K) («end» : Addr) : Nat → Addr → List Byte
  | 0, _ => []
  | n + 1, ptr =>
    if ptr < «end» then
      match w.peek ptr with
      | none => []
      | some word => (List.range 8).map (byteOf word) ++ peekWords w «end» n (ptr + 8)
    else []

/-- The original words are put back at the addresses of the used slots, which
are not translated here. -/
def restoreAll : List Slot → World K → World K
  | [], w => w
  | i :: slots, w =>
    let bp := w.sdb.breaks i
    restoreAll slots (if bp.isUsed then w.pokeOrIgnore bp.addr bp.originalWord else w)

/-- The file offset of an address, through the first section header whose range
holds it. -/
def fileOffset (addr : Addr) : List Elf.Shdr → Option Word
  | [] => none
  | s :: shdr =>
    if s.addr ≤ addr ∧ addr < s.addr + s.size then some (s.offset + addr - s.addr)
    else fileOffset addr shdr

/-- `fopen`, `fseek` and `fread` of one buffer. `fseek` is taken to fail for a negative
offset and for no other; it then leaves the position at the start of the file. -/
def readFile (data : List Byte) (offset : Word) (size : Nat) : List Byte :=
  (data.drop (if offset.toInt < 0 then 0 else offset.toNat)).take size

/-- The printing half of `sdb_disasm`: at most ten instructions, and the address
to go on from moves past each of them. -/
def printInsns (H : Host K) (buffer : List Byte) (addr : Addr) (w : World K) : Result K :=
  match (H.csDisasm buffer addr).take 10 with
  | [] => ⟨w, .prompt (.message "ERROR: Failed to disassemble given code!")⟩
  | insns =>
    let last := insns.foldl (fun a insn => a + BitVec.ofNat 64 insn.bytes.length)
      w.sdb.lastDisasmAddr
    ⟨w.setLastDisasmAddr last, .prompt (.insns insns)⟩

/-- `sdb_disasm` for an address, with a tracee: breakpoints are undone, the
bytes read, and all breakpoints patched again. -/
def disasmLive (H : Host K) (env : Env K) (addr : Addr) (w : World K) : Result K :=
  let w := restoreAll slots w
  let buffer := peekWords w (addr + 64) 8 addr
  match sdbPatchAllBp H env w with
  | (w, some fault) => ⟨w, .fault fault⟩
  | (w, none) => printInsns H buffer addr w

/-- `sdb_disasm` for an address, with nothing running: the bytes come from the file. -/
def disasmFile (H : Host K) (env : Env K) (addr : Addr) (w : World K) : Result K :=
  match w.sdb.eh with
  | none => ⟨w, .fault .nullHandle⟩
  | some eh =>
    if eh.shdr = none ∧ eh.shnum ≠ 0 then ⟨w, .fault .nullTable⟩
    else
      match fileOffset addr (eh.shdr.getD []) with
      | none => ⟨w, .prompt (.message "Invalid addr!")⟩
      | some offset =>
        match env.read w.sdb.path with
        | none => ⟨w, .fault .noFile⟩
        | some data => printInsns H (readFile data offset 64) addr w

/-- `sdb_disasm`. An operand moves the address to go on from before it is used. -/
def sdbDisasm (H : Host K) (env : Env K) (addrStr : List Char) (w : World K) : Result K :=
  let disasm := fun (addr : Addr) (w : World K) =>
    if w.sdb.isRunning then disasmLive H env addr w else disasmFile H env addr w
  if addrStr = [] then
    if w.sdb.lastDisasmAddr = 0 then ⟨w, .prompt (.message "** no addr is given")⟩
    else disasm w.sdb.lastDisasmAddr w
  else
    let addr := (hexOperand addrStr env.uninit.tail).getD env.uninit.addr
    disasm addr (w.setLastDisasmAddr addr)

/-- `sdb_dump`. The positions that were not read show what the buffer held. -/
def sdbDump (env : Env K) (addrStr : List Char) (w : World K) : Result K :=
  if addrStr = [] then ⟨w, .prompt (.message "** no addr is given")⟩
  else if ¬ w.sdb.isRunning then ⟨w, .prompt (.message "not running")⟩
  else
    let addr := (hexOperand addrStr env.uninit.tail).getD env.uninit.addr
    let read := peekWords w (addr + 80) 10 addr
    let rest := (List.range' read.length (80 - read.length)).map env.uninit.buffer
    ⟨w, .prompt (.dump addr (read ++ rest))⟩

/-- The names that `sdb_get` compares with, and the value of each. -/
def matchRegName (name : List Char) (regs : UserRegs) : Option Word :=
  match String.ofList name with
  | "rax" => some regs.rax
  | "rbx" => some regs.rbx
  | "rcx" => some regs.rcx
  | "rdx" => some regs.rdx
  | "r8" => some regs.r8
  | "r9" => some regs.r9
  | "r10" => some regs.r10
  | "r11" => some regs.r11
  | "r12" => some regs.r12
  | "r13" => some regs.r13
  | "r14" => some regs.r14
  | "r15" => some regs.r15
  | "rdi" => some regs.rdi
  | "rsi" => some regs.rsi
  | "rbp" => some regs.rbp
  | "rsp" => some regs.rsp
  | "rip" => some regs.rip
  | "eflags" => some regs.eflags
  | _ => none

/-- `sdb_get`. Neither a failed request nor an unknown name is noticed. -/
def sdbGet (env : Env K) (name : List Char) (w : World K) : Result K :=
  let regs := w.getregs.getD env.uninit.regs
  ⟨w, .prompt (.reg name ((matchRegName name regs).getD env.uninit.regVal))⟩

/-- The names that `sdb_set` compares with, and the assignment for each. -/
def setIfMatched (name : List Char) (val : Word) (regs : UserRegs) : UserRegs :=
  match String.ofList name with
  | "rax" => { regs with rax := val }
  | "rbx" => { regs with rbx := val }
  | "rcx" => { regs with rcx := val }
  | "rdx" => { regs with rdx := val }
  | "r8" => { regs with r8 := val }
  | "r9" => { regs with r9 := val }
  | "r10" => { regs with r10 := val }
  | "r11" => { regs with r11 := val }
  | "r12" => { regs with r12 := val }
  | "r13" => { regs with r13 := val }
  | "r14" => { regs with r14 := val }
  | "r15" => { regs with r15 := val }
  | "rdi" => { regs with rdi := val }
  | "rsi" => { regs with rsi := val }
  | "rbp" => { regs with rbp := val }
  | "rsp" => { regs with rsp := val }
  | "rip" => { regs with rip := val }
  | "eflags" => { regs with eflags := val }
  | _ => regs

/-- `sdb_set`. -/
def sdbSet (env : Env K) (name : List Char) (val : Word) (w : World K) : Result K :=
  match w.setregs (setIfMatched name val (w.getregs.getD env.uninit.regs)) with
  | none => ⟨w, .prompt (.message "Failed to set regs")⟩
  | some w => ⟨w, .prompt .silent⟩

/-- `sdb_getregs`. -/
def sdbGetregs (env : Env K) (w : World K) : Result K :=
  ⟨w, .prompt (.regs (w.getregs.getD env.uninit.regs))⟩

/-- `strcmp(&data[offset], ".text") == 0`, or `none` when the comparison runs
past the end of the table. -/
def isText (data : List Byte) (offset : Nat) : Option Bool :=
  let rec go : List Byte → List Byte → Option Bool
    | _, [] => some true
    | [], _ => none
    | d :: data, c :: text => if d = c then go data text else some false
  go (data.drop offset) [0x2e, 0x74, 0x65, 0x78, 0x74, 0x00]

/-- The search for the section named `.text`, from section 1 on. -/
def findText (data : List Byte) : List Elf.Shdr → Except Fault (Option Elf.Shdr)
  | [] => .ok none
  | s :: shdr =>
    match isText data s.name.toNat with
    | none => .error .outOfBounds
    | some true => .ok (some s)
    | some false => findText data shdr

/-- The node that a string table pointer leads to, unless it was released. -/
def SDB.strtabNode (sdb : SDB) : Option Elf.Strtab :=
  match sdb.strtab, sdb.eh with
  | some ptr, some eh =>
    if ptr.owner = sdb.opened then eh.strtab.find? fun tab => tab.id = ptr.id else none
  | _, _ => none

/-- The search of `sdb_vmmap` and `sdb_load`, through the pointers of the debugger. -/
def sdbFindText (sdb : SDB) : Except Fault (Option Elf.Shdr) :=
  match sdb.eh with
  | none => .error .nullHandle
  | some eh =>
    if eh.shnum ≤ 1 then .ok none
    else
      match eh.shdr, sdb.strtabNode with
      | none, _ => .error .nullTable
      | some _, none => .error .deadStrtab
      | some shdr, some tab => findText tab.data (shdr.drop 1)

/-- `sdb_vmmap`. -/
def sdbVmmap (H : Host K) (w : World K) : Result K :=
  if ¬ w.sdb.isLoaded then ⟨w, .prompt (.message "No program loaded")⟩
  else if ¬ w.sdb.isRunning then
    match sdbFindText w.sdb with
    | .error fault => ⟨w, .fault fault⟩
    | .ok none => ⟨w, .prompt .silent⟩
    | .ok (some s) => ⟨w, .prompt (.text s.addr (s.addr + s.size) s.offset w.sdb.path)⟩
  else
    match w.maps H with
    | none => ⟨w, .fault .noMaps⟩
    | some lines => ⟨w, .prompt (.maps lines)⟩

/-- The size of the path buffer of the debugger, terminator included. -/
def pathSize : Nat := 128

/-- The end of `sdb_load`, after all tables were found. -/
def SDB.reset (sdb : SDB) (filename : List Char) : SDB :=
  { sdb with
    pid := -1, path := filename, lastDisasmAddr := 0
    breaks := fun i => { sdb.breaks i with isUsed := false } }

/-- `sdb_load`. Each of the first three failures returns with part of the
debugger already updated. -/
def sdbLoad (env : Env K) (filename : List Char) (w : World K) : Result K :=
  match Elf.elfOpen env.elf filename with
  | .error fault => ⟨{ w with sdb := { w.sdb with eh := none } }, .fault (.elf fault)⟩
  | .ok none =>
    ⟨{ w with sdb := { w.sdb with eh := none } }, .prompt (.message "unabel to open")⟩
  | .ok (some eh) =>
    match Elf.elfLoadAll env.elf eh with
    | .error fault =>
      ⟨{ w with sdb := { w.sdb with eh := some eh, opened := w.sdb.opened + 1 } },
        .fault (.elf fault)⟩
    | .ok (eh, loaded) =>
      let sdb := { w.sdb with eh := some eh, opened := w.sdb.opened + 1 }
      if ¬ loaded then ⟨{ w with sdb := sdb }, .prompt (.message "unable to load")⟩
      else
        match eh.strtab.find? fun tab => tab.id = eh.shstrndx with
        | none =>
          ⟨{ w with sdb := { sdb with strtab := none } },
            .prompt (.message "section header string table not found")⟩
        | some tab =>
          let sdb := { sdb with strtab := some ⟨sdb.opened, tab.id⟩ }
          match sdbFindText sdb with
          | .error fault => ⟨{ w with sdb := sdb }, .fault fault⟩
          | .ok _ =>
            if pathSize ≤ filename.length then ⟨{ w with sdb := sdb }, .fault .pathOverrun⟩
            else ⟨{ w with sdb := sdb.reset filename }, .prompt .silent⟩

/-- None of the three early returns of `sdb_load` is taken. -/
def Loadable (env : Env K) (filename : List Char) : Prop :=
  ∃ eh eh' tab, Elf.elfOpen env.elf filename = .ok (some eh) ∧
    Elf.elfLoadAll env.elf eh = .ok (eh', true) ∧
    eh'.strtab.find? (fun tab => tab.id = eh'.shstrndx) = some tab

end Sdb
