import AdvancedUnix.Sdb.CommandLine
import AdvancedUnix.Sdb.Table

/-!
# Requests that cannot be served

`break`, `disasm` and `dump` are about an address: the one that is typed, or for
`disasm` without an operand the one where the last one stopped. A request can be
served if it has such an address and the debugger has what the command needs.

The three handlers differ in what they look at first, and what they go on with is
not always an address that was typed. `Verb.used` is that address, from the same
tests as in the handlers; each handler is then a fixed function of it.
-/

namespace Sdb

open Memory Traced Text Runs Slots

variable {K : Type}

/-- The commands about an address. -/
inductive Verb
  | break | disasm | dump
  deriving DecidableEq

def Verb.keyword : Verb → Keyword
  | .break => .break
  | .disasm => .disasm
  | .dump => .dump

def Verb.cmd (addrStr : List Char) : Verb → Cmd
  | .break => .break addrStr
  | .disasm => .disasm addrStr
  | .dump => .dump addrStr

/-- What the array for the operand holds before it is read into. -/
def Verb.held (l : Locals) : Verb → List Char
  | .break => l.bpAddr
  | .disasm => []
  | .dump => l.addr

/-- A line with one of these commands, with an operand or without. -/
structure Request where
  verb : Verb
  operand : Option (Token isSpace)
  locals : Locals

namespace Request

/-- The string that the handler gets, unless the operand is too long for its array. -/
def addrStr (q : Request) : Option (List Char) :=
  scanS 16 (q.verb.held q.locals) (q.operand.map Token.text)

def Fits (q : Request) : Prop := ∀ t, q.operand = some t → t.text.length ≤ 15

/-- The address that the request is about. -/
def target (sdb : SDB) (q : Request) : Option Addr :=
  match q.operand with
  | some t => hexOperand t.text []
  | none =>
    if q.verb = .disasm ∧ sdb.lastDisasmAddr ≠ 0 then some sdb.lastDisasmAddr else none

/-- The command line of a request calls its handler with that string. -/
theorem action_eq (q : Request) :
    q.verb.keyword.action q.locals (q.operand.toList.map Token.text) =
      .ofOption (q.addrStr.map fun addrStr => q.verb.cmd addrStr) := by
  obtain ⟨verb, operand, l⟩ := q
  cases verb <;> cases operand <;> rfl

end Request

/-- What the handlers read from a string, or keep from before. -/
def operandAddr (u : Uninit) (addrStr : List Char) : Addr :=
  (hexOperand addrStr u.tail).getD u.addr

/-- The address that a handler goes on with, unless it returns at once. -/
def Verb.used (sdb : SDB) (u : Uninit) (addrStr : List Char) : Verb → Option Addr
  | .break => if sdb.isLoaded then some (operandAddr u addrStr) else none
  | .disasm =>
    if addrStr = [] then if sdb.lastDisasmAddr = 0 then none else some sdb.lastDisasmAddr
    else some (operandAddr u addrStr)
  | .dump => if addrStr = [] ∨ ¬ sdb.isRunning then none else some (operandAddr u addrStr)

/-- The slots that a handler with an address goes over in the tracee, to put the words
there back or to patch them. -/
def Verb.Visits (sdb : SDB) (i : Slot) : Verb → Prop
  | .break => sdb.isRunning ∧ ((sdb.breaks i).isUsed ∨ freeSlot sdb = some i)
  | .disasm => sdb.isRunning ∧ (sdb.breaks i).isUsed
  | .dump => False

/-- The bytes that a handler with an address reads from the tracee. -/
def Verb.bytes (w : World K) (a : Addr) : Verb → List Byte
  | .break => []
  | .disasm => if w.sdb.isRunning then peekWords (restoreAll slots w) (a + 64) 8 a else []
  | .dump => peekWords w (a + 80) 10 a

/-- The bytes of the program file at an address. -/
def fileBytes (env : Env K) (sdb : SDB) (a : Addr) : Option (List Byte) :=
  sdb.eh.bind fun eh =>
    if eh.shdr = none ∧ eh.shnum ≠ 0 then none
    else
      (fileOffset a (eh.shdr.getD [])).bind fun offset =>
        (env.read sdb.path).map fun data => readFile data offset 64

/-- The handle and the file have what the search for an address needs. -/
def FileReady (env : Env K) (sdb : SDB) (a : Addr) : Prop :=
  ∃ eh, sdb.eh = some eh ∧ (eh.shdr = none → eh.shnum = 0) ∧
    ((fileOffset a (eh.shdr.getD [])).isSome → (env.read sdb.path).isSome)

/-- The debugger has what a command needs for an address: `break` a free slot, and in a
running program a word to patch; `disasm` bytes that decode; `dump` bytes. -/
def Verb.Serves (H : Host K) (env : Env K) (w : World K) (a : Addr) : Verb → Prop
  | .break =>
    w.sdb.isLoaded ∧ (freeSlot w.sdb).isSome ∧
      (w.sdb.isRunning → w.sdb.eh ≠ none ∧ ∃ p, w.tracee = some p ∧
        (readWord p.cpu.mem (w.sdb.runtime H p.cpu.ext a)).isSome)
  | .disasm =>
    if w.sdb.isRunning then
      (w.sdb.eh = none → ∀ i, ¬ (w.sdb.breaks i).isUsed) ∧
        H.csDisasm (Verb.disasm.bytes w a) a ≠ []
    else ∃ data, fileBytes env w.sdb a = some data ∧ H.csDisasm data a ≠ []
  | .dump => w.sdb.isRunning ∧ Verb.dump.bytes w a ≠ []

/-- Nothing stands in the way of looking for the bytes at an address in vain. -/
def Idle (env : Env K) (w : World K) (a : Addr) : Prop :=
  if w.sdb.isRunning then
    (∀ i, ¬ (w.sdb.breaks i).isUsed) ∧ Verb.disasm.bytes w a = []
  else FileReady env w.sdb a

/-- A request can be served. -/
def Request.Served (H : Host K) (env : Env K) (w : World K) (q : Request) : Prop :=
  q.Fits ∧ ∃ a, q.target w.sdb = some a ∧ q.verb.Serves H env w a

/-- What a command that cannot be served is kept from: `break` from an address without a
program, `dump` from another one than was typed, and `disasm` from a new address, from
slots in use and from a missing handle or file. -/
def Verb.Harmless (H : Host K) (env : Env K) (w : World K) (q : Request) : Verb → Prop
  | .break => w.sdb.isLoaded → ∃ a, q.target w.sdb = some a ∧ Verb.break.Serves H env w a
  | .disasm =>
    (q.operand = none ∧ w.sdb.lastDisasmAddr = 0) ∨
      ∃ a, q.target w.sdb = some a ∧
        (Verb.disasm.Serves H env w a ∨ a = w.sdb.lastDisasmAddr ∧ Idle env w a)
  | .dump =>
    w.sdb.isRunning →
      (q.operand = none ∧ q.locals.addr = []) ∨ (q.target w.sdb).isSome

/-- A request that fits and does no harm if it cannot be served. -/
def Request.Harmless (H : Host K) (env : Env K) (w : World K) (q : Request) : Prop :=
  q.Fits ∧ q.verb.Harmless H env w q

/-- A request has left the debugger as it was. -/
structure LeftAlone (u : Uninit) (q : Request) (w : World K) (r : Result K) : Prop where
  prompt : r.atPrompt
  breaks : r.world.sdb.breaks = w.sdb.breaks
  last : r.world.sdb.lastDisasmAddr = w.sdb.lastDisasmAddr
  untouched : ∀ s a, q.addrStr = some s → q.verb.used w.sdb u s = some a →
    (∀ i, ¬ q.verb.Visits w.sdb i) ∧ q.verb.bytes w a = []
  given : ∀ s a, q.addrStr = some s → q.verb.used w.sdb u s = some a →
    q.target w.sdb = some a

theorem hexOperand_tail {s : List Char} (typed : s ≠ []) (tail : List Char) :
    hexOperand s tail = hexOperand s [] := by
  cases s with
  | nil => exact absurd rfl typed
  | cons c r =>
      cases r with
      | nil => rfl
      | cons d r => by_cases x : d = 'x' <;> simp [hexOperand, x]

section

variable {H : Host K} {env : Env K} {w : World K}

theorem restoreAll_unused (unused : ∀ i, ¬ (w.sdb.breaks i).isUsed) (is : List Slot) :
    restoreAll is w = w := by
  induction is with
  | nil => rfl
  | cons i is ih =>
      rw [restoreAll]
      simp only [unused i, Bool.false_eq_true, if_false]
      exact ih

theorem pass_unused (unused : ∀ i, ¬ (w.sdb.breaks i).isUsed) :
    sdbPatchAllBp H env w = (w, none) :=
  patchFrom_unused fun i _ => Bool.eq_false_iff.mpr (unused i)

theorem peekWords_setLastDisasmAddr (w : World K) (b stop : Addr) (n : Nat) (a : Addr) :
    peekWords (w.setLastDisasmAddr b) stop n a = peekWords w stop n a := by
  induction n generalizing a with
  | zero => rfl
  | succ n ih =>
      have same : (w.setLastDisasmAddr b).peek a = w.peek a := rfl
      simp only [peekWords, same, ih]

theorem printInsns_empty {buffer : List Byte} {a : Addr} (empty : H.csDisasm buffer a = []) :
    printInsns H buffer a w =
      ⟨w, .prompt (.message "ERROR: Failed to disassemble given code!")⟩ := by
  simp only [printInsns, empty, List.take_nil]

/-- `sdb_disasm` once it has its address. -/
def disasmAt (H : Host K) (env : Env K) (a : Addr) (w : World K) : Result K :=
  if w.sdb.isRunning then disasmLive H env a w else disasmFile H env a w

theorem sdbDisasm_of_used {s : List Char} {a : Addr}
    (used : Verb.disasm.used w.sdb env.uninit s = some a) :
    sdbDisasm H env s w = disasmAt H env a (w.setLastDisasmAddr a) := by
  unfold Verb.used at used
  unfold sdbDisasm
  by_cases empty : s = []
  · rw [if_pos empty] at used ⊢
    by_cases none : w.sdb.lastDisasmAddr = 0
    · rw [if_pos none] at used
      cases used
    · rw [if_neg none] at used ⊢
      cases used
      rfl
  · rw [if_neg empty] at used ⊢
    cases used
    rfl

/-- A handler that does not go on has printed a message. -/
theorem exec_of_unused {verb : Verb} {s : List Char}
    (unused : verb.used w.sdb env.uninit s = none) :
    ∃ text, (verb.cmd s).exec H env w = ⟨w, .prompt (.message text)⟩ := by
  cases verb with
  | «break» =>
      have loaded : ¬ w.sdb.isLoaded := by
        intro loaded
        rw [Verb.used, if_pos loaded] at unused
        cases unused
      exact ⟨_, if_pos loaded⟩
  | disasm =>
      unfold Verb.used at unused
      by_cases empty : s = []
      · rw [if_pos empty] at unused
        by_cases none : w.sdb.lastDisasmAddr = 0
        · refine ⟨"** no addr is given", ?_⟩
          simp only [Verb.cmd, Cmd.exec, sdbDisasm, if_pos empty, if_pos none]
        · rw [if_neg none] at unused
          cases unused
      · rw [if_neg empty] at unused
        cases unused
  | dump =>
      unfold Verb.used at unused
      by_cases refused : s = [] ∨ ¬ w.sdb.isRunning
      · simp only [Verb.cmd, Cmd.exec, sdbDump]
        by_cases empty : s = []
        · exact ⟨_, if_pos empty⟩
        · rw [if_neg empty]
          exact ⟨_, if_pos (refused.resolve_left empty)⟩
      · rw [if_neg refused] at unused
        cases unused

theorem sdbDump_prompt (env : Env K) (s : List Char) (w : World K) :
    ∃ out, sdbDump env s w = ⟨w, .prompt out⟩ := by
  unfold sdbDump
  split
  · exact ⟨_, rfl⟩
  · split
    · exact ⟨_, rfl⟩
    · exact ⟨_, rfl⟩

/-- The search for the bytes in the file fails without a handle, a table or the file,
or finds no section, or finds the bytes. -/
theorem disasmFile_cases (H : Host K) (env : Env K) (w : World K) (a : Addr) :
    (¬ FileReady env w.sdb a ∧ ∃ f, disasmFile H env a w = ⟨w, .fault f⟩) ∨
      FileReady env w.sdb a ∧
        ((fileBytes env w.sdb a = none ∧
            disasmFile H env a w = ⟨w, .prompt (.message "Invalid addr!")⟩) ∨
          ∃ data, fileBytes env w.sdb a = some data ∧
            disasmFile H env a w = printInsns H data a w) := by
  unfold disasmFile fileBytes FileReady
  cases handle : w.sdb.eh with
  | none => simp
  | some eh =>
      by_cases table : eh.shdr = none ∧ eh.shnum ≠ 0
      · simp [table]
      · have given : eh.shdr = none → eh.shnum = 0 := by
          intro h
          by_contra rest
          exact table ⟨h, rest⟩
        cases offset : fileOffset a (eh.shdr.getD []) with
        | none => simpa [table, offset] using given
        | some o =>
            cases file : env.read w.sdb.path with
            | none => simp [table, offset]
            | some data => simpa [table, offset] using given

theorem disasmAt_idle {a : Addr} (idle : Idle env w a)
    (unserved : ¬ Verb.disasm.Serves H env w a) :
    ∃ text, disasmAt H env a (w.setLastDisasmAddr a) =
      ⟨w.setLastDisasmAddr a, .prompt (.message text)⟩ := by
  unfold disasmAt
  by_cases running : w.sdb.isRunning
  · rw [Verb.Serves, if_pos running] at unserved
    rw [Idle, if_pos running] at idle
    obtain ⟨unused, -⟩ := idle
    have unused' : ∀ i, ¬ ((w.setLastDisasmAddr a).sdb.breaks i).isUsed := unused
    have undecoded : H.csDisasm (peekWords w (a + 64) 8 a) a = [] := by
      by_contra decoded
      refine unserved ⟨fun _ => unused, ?_⟩
      rwa [Verb.bytes, if_pos running, restoreAll_unused unused]
    refine ⟨"ERROR: Failed to disassemble given code!", (if_pos running).trans ?_⟩
    unfold disasmLive
    simp only [restoreAll_unused unused', pass_unused unused', peekWords_setLastDisasmAddr]
    exact printInsns_empty undecoded
  · rw [Verb.Serves, if_neg running] at unserved
    rw [Idle, if_neg running] at idle
    have stopped : ¬ (w.setLastDisasmAddr a).sdb.isRunning := running
    rw [if_neg stopped]
    obtain ⟨notReady, -⟩ | ⟨-, ⟨-, rejected⟩ | ⟨data, bytes, printed⟩⟩ :=
      disasmFile_cases H env (w.setLastDisasmAddr a) a
    · exact absurd idle notReady
    · exact ⟨_, rejected⟩
    · have undecoded : H.csDisasm data a = [] := by
        by_contra decoded
        exact unserved ⟨data, bytes, decoded⟩
      exact ⟨_, printed.trans (printInsns_empty undecoded)⟩

end

namespace Request

variable {q : Request}

theorem addrStr_of_fits (fits : q.Fits) : ∃ s, q.addrStr = some s := by
  unfold addrStr
  cases typed : q.operand with
  | none => exact ⟨_, rfl⟩
  | some t => exact ⟨t.text, scanS_fits _ (Nat.lt_succ_of_le (fits t typed))⟩

theorem fits_of_addrStr {s : List Char} (str : q.addrStr = some s) : q.Fits := by
  intro t typed
  by_contra long
  rw [addrStr, typed, Option.map_some, scanS_overrun _ (by omega)] at str
  cases str

theorem addrStr_typed {s : List Char} (str : q.addrStr = some s) {t : Token isSpace}
    (typed : q.operand = some t) : s = t.text := by
  have fits := fits_of_addrStr str t typed
  rw [addrStr, typed, Option.map_some, scanS_fits _ (by omega)] at str
  exact (Option.some.inj str).symm

theorem addrStr_missing {s : List Char} (str : q.addrStr = some s) (missing : q.operand = none) :
    s = q.verb.held q.locals := by
  rw [addrStr, missing] at str
  exact (Option.some.inj str).symm

/-- A handler of a request with an address goes on with no other one. -/
theorem used_eq_target {sdb : SDB} {u : Uninit} {s : List Char} {a b : Addr}
    (str : q.addrStr = some s) (used : q.verb.used sdb u s = some a)
    (given : q.target sdb = some b) : a = b := by
  unfold target at given
  cases typed : q.operand with
  | some t =>
      obtain rfl := addrStr_typed str typed
      simp only [typed] at given
      have read : operandAddr u t.text = b := by
        rw [operandAddr, hexOperand_tail t.nonempty, given, Option.getD_some]
      generalize q.verb = verb at used
      cases verb with
      | «break» =>
          by_cases loaded : sdb.isLoaded
          · rw [Verb.used, if_pos loaded, read] at used
            exact (Option.some.inj used).symm
          · rw [Verb.used, if_neg loaded] at used
            cases used
      | disasm =>
          rw [Verb.used, if_neg t.nonempty, read] at used
          exact (Option.some.inj used).symm
      | dump =>
          by_cases refused : t.text = [] ∨ ¬ sdb.isRunning
          · rw [Verb.used, if_pos refused] at used
            cases used
          · rw [Verb.used, if_neg refused, read] at used
            exact (Option.some.inj used).symm
  | none =>
      have empty := addrStr_missing str typed
      simp only [typed] at given
      by_cases last : q.verb = .disasm ∧ sdb.lastDisasmAddr ≠ 0
      · rw [if_pos last] at given
        rw [last.1] at used empty
        simp only [empty, Verb.held, Verb.used, if_true, last.2, if_false] at used
        exact Option.some.inj (used.symm.trans given)
      · rw [if_neg last] at given
        cases given

theorem missing_of_empty (str : q.addrStr = some []) :
    q.operand = none ∧ q.verb.held q.locals = [] := by
  cases typed : q.operand with
  | some t => exact absurd (addrStr_typed str typed).symm t.nonempty
  | none => exact ⟨rfl, (addrStr_missing str typed).symm⟩

section

variable {H : Host K} {env : Env K} {w : World K} {s : List Char}

theorem leftAlone_of_unused (str : q.addrStr = some s)
    (unused : q.verb.used w.sdb env.uninit s = none) :
    LeftAlone env.uninit q w ((q.verb.cmd s).exec H env w) := by
  obtain ⟨text, rejected⟩ := exec_of_unused (H := H) unused
  have never : ∀ s' a, q.addrStr = some s' → q.verb.used w.sdb env.uninit s' ≠ some a := by
    intro s' a str' used
    obtain rfl := Option.some.inj (str.symm.trans str')
    rw [unused] at used
    cases used
  rw [rejected]
  exact ⟨rfl, rfl, rfl, fun s' a str' used => absurd used (never s' a str'),
    fun s' a str' used => absurd used (never s' a str')⟩

/-- The clauses about the address of a handler, for a request with that address. -/
theorem leftAlone_of_used {a : Addr} {r : Result K} (str : q.addrStr = some s)
    (used : q.verb.used w.sdb env.uninit s = some a) (given : q.target w.sdb = some a)
    (prompt : r.atPrompt) (breaks : r.world.sdb.breaks = w.sdb.breaks)
    (last : r.world.sdb.lastDisasmAddr = w.sdb.lastDisasmAddr)
    (untouched : (∀ i, ¬ q.verb.Visits w.sdb i) ∧ q.verb.bytes w a = []) :
    LeftAlone env.uninit q w r := by
  refine ⟨prompt, breaks, last, ?_, ?_⟩
  · intro s' a' str' used'
    obtain rfl := Option.some.inj (str.symm.trans str')
    obtain rfl := Option.some.inj (used.symm.trans used')
    exact untouched
  · intro s' a' str' used'
    obtain rfl := Option.some.inj (str.symm.trans str')
    obtain rfl := Option.some.inj (used.symm.trans used')
    exact given

/-- A request without an address is not left alone by a handler that goes on. -/
theorem target_of_spared {a : Addr} (str : q.addrStr = some s)
    (used : q.verb.used w.sdb env.uninit s = some a) {r : Result K}
    (spared : ¬ q.Served H env w → LeftAlone env.uninit q w r) : q.target w.sdb = some a := by
  cases given : q.target w.sdb with
  | some b => rw [used_eq_target str used given]
  | none =>
      have unserved : ¬ q.Served H env w := by
        rintro ⟨-, b, other, -⟩
        rw [given] at other
        cases other
      exact given.symm.trans ((spared unserved).given s a str used)

/-- `break` that takes a slot, or finds none, does not leave the table alone. -/
theorem break_takes (loaded : w.sdb.isLoaded) (prompt : (sdbSetBreak H env s w).atPrompt) :
    (sdbSetBreak H env s w).world.sdb.breaks ≠ w.sdb.breaks := by
  intro same
  cases free : freeSlot w.sdb with
  | none =>
      rw [sdbSetBreak_full H loaded free] at prompt
      cases prompt
  | some i =>
      have table : (sdbSetBreak H env s w).world.sdb.table = w.sdb.table := by
        funext j
        simp only [SDB.table, same]
      rw [sdbSetBreak_table H loaded free] at table
      rw [freeSlot_eq] at free
      rw [Table.put_of_free free] at table
      have taken := congrFun table i
      rw [Function.update_self, (Table.free_spec free).1] at taken
      cases taken

theorem break_spared_iff (str : q.addrStr = some s) (verb : q.verb = .break) :
    (¬ q.Served H env w → LeftAlone env.uninit q w ((q.verb.cmd s).exec H env w)) ↔
      q.verb.Harmless H env w q := by
  have fits := fits_of_addrStr str
  have served : q.Served H env w ↔ ∃ a, q.target w.sdb = some a ∧
      Verb.break.Serves H env w a := by
    rw [Served, verb]
    exact and_iff_right fits
  rw [served]
  by_cases loaded : w.sdb.isLoaded
  · have taken : ¬ LeftAlone env.uninit q w ((q.verb.cmd s).exec H env w) := by
      rw [verb]
      intro left
      exact break_takes loaded left.prompt left.breaks
    rw [verb, Verb.Harmless]
    rw [verb] at taken
    exact ⟨fun h _ => not_not.mp fun unserved => taken (h unserved),
      fun h unserved => absurd (h loaded) unserved⟩
  · refine iff_of_true (fun _ => leftAlone_of_unused str ?_) ?_
    · rw [verb]
      exact if_neg loaded
    · rw [verb]
      exact fun h => absurd h loaded

theorem dump_spared_iff (str : q.addrStr = some s) (verb : q.verb = .dump) :
    (¬ q.Served H env w → LeftAlone env.uninit q w ((q.verb.cmd s).exec H env w)) ↔
      q.verb.Harmless H env w q := by
  have fits := fits_of_addrStr str
  cases used : q.verb.used w.sdb env.uninit s with
  | none =>
      refine iff_of_true (fun _ => leftAlone_of_unused str used) ?_
      rw [verb] at used ⊢
      intro running
      refine .inl ?_
      by_cases empty : s = []
      · subst empty
        have missing := missing_of_empty str
        rw [verb] at missing
        exact missing
      · have goesOn : ¬ (s = [] ∨ ¬ w.sdb.isRunning) := by
          rintro (h | h)
          · exact empty h
          · exact h running
        rw [Verb.used, if_neg goesOn] at used
        cases used
  | some a =>
      have goesOn : ¬ (s = [] ∨ ¬ w.sdb.isRunning) := by
        intro refused
        rw [verb, Verb.used, if_pos refused] at used
        cases used
      have running : w.sdb.isRunning := not_not.mp fun h => goesOn (.inr h)
      have typed : ¬ (q.operand = none ∧ q.locals.addr = []) := by
        rintro ⟨missing, empty⟩
        have held := addrStr_missing str missing
        rw [verb] at held
        exact goesOn (.inl (held.trans empty))
      have harmless : q.verb.Harmless H env w q ↔ (q.target w.sdb).isSome := by
        rw [verb]
        exact ⟨fun h => (h running).resolve_left typed, fun h _ => .inr h⟩
      rw [harmless]
      constructor
      · intro spared
        rw [target_of_spared str used spared]
        rfl
      · intro h unserved
        obtain ⟨b, given⟩ := Option.isSome_iff_exists.mp h
        obtain rfl := used_eq_target str used given
        have unread : Verb.dump.bytes w a = [] := by
          by_contra read
          refine unserved ⟨fits, a, given, ?_⟩
          rw [verb]
          exact ⟨running, read⟩
        obtain ⟨out, printed⟩ := sdbDump_prompt env s w
        have same : (q.verb.cmd s).exec H env w = ⟨w, .prompt out⟩ := by
          rw [verb]
          exact printed
        rw [same]
        refine leftAlone_of_used str used given rfl rfl rfl ?_
        rw [verb]
        exact ⟨fun _ => not_false, unread⟩

theorem disasm_spared_iff (str : q.addrStr = some s) (verb : q.verb = .disasm) :
    (¬ q.Served H env w → LeftAlone env.uninit q w ((q.verb.cmd s).exec H env w)) ↔
      q.verb.Harmless H env w q := by
  have fits := fits_of_addrStr str
  cases used : q.verb.used w.sdb env.uninit s with
  | none =>
      refine iff_of_true (fun _ => leftAlone_of_unused str used) ?_
      rw [verb, Verb.used] at used
      rw [verb]
      refine .inl ?_
      by_cases empty : s = []
      · rw [if_pos empty] at used
        subst empty
        refine ⟨(missing_of_empty str).1, ?_⟩
        by_contra last
        rw [if_neg last] at used
        cases used
      · rw [if_neg empty] at used
        cases used
  | some a =>
      have goesOn : ¬ (q.operand = none ∧ w.sdb.lastDisasmAddr = 0) := by
        rintro ⟨missing, last⟩
        have empty := addrStr_missing str missing
        rw [verb, Verb.held] at empty
        rw [verb] at used
        rw [Verb.used, if_pos empty, if_pos last] at used
        cases used
      have result : (q.verb.cmd s).exec H env w = disasmAt H env a (w.setLastDisasmAddr a) := by
        rw [verb] at used ⊢
        exact sdbDisasm_of_used used
      have serves : q.target w.sdb = some a →
          (q.Served H env w ↔ Verb.disasm.Serves H env w a) := by
        intro given
        rw [Served, verb, given]
        simp [fits]
      rw [result]
      constructor
      · intro spared
        have given := target_of_spared str used spared
        rw [serves given] at spared
        rw [verb]
        refine .inr ⟨a, given, ?_⟩
        by_cases unserved : Verb.disasm.Serves H env w a
        · exact .inl unserved
        · have left := spared unserved
          have idle : Idle env w a := by
            unfold Idle
            obtain ⟨unvisited, unread⟩ := left.untouched s a str used
            rw [verb] at unvisited unread
            by_cases running : w.sdb.isRunning
            · rw [if_pos running]
              exact ⟨fun i inUse => unvisited i ⟨running, inUse⟩, unread⟩
            · rw [if_neg running]
              by_contra notReady
              have prompt := left.prompt
              have stopped : ¬ (w.setLastDisasmAddr a).sdb.isRunning := running
              rw [disasmAt, if_neg stopped] at prompt
              obtain ⟨-, f, faulted⟩ | ⟨ready, -⟩ :=
                disasmFile_cases H env (w.setLastDisasmAddr a) a
              · rw [faulted] at prompt
                cases prompt
              · exact notReady ready
          obtain ⟨text, rejected⟩ := disasmAt_idle (H := H) idle unserved
          have last := left.last
          rw [rejected] at last
          exact .inr ⟨last, idle⟩
      · intro harmless
        rw [verb] at harmless
        obtain ⟨b, given, able⟩ := harmless.resolve_left goesOn
        obtain rfl := used_eq_target str used given
        rw [serves given]
        intro unserved
        obtain ⟨last, idle⟩ := able.resolve_left unserved
        obtain ⟨text, rejected⟩ := disasmAt_idle (H := H) idle unserved
        rw [rejected]
        refine leftAlone_of_used str used given rfl rfl last ?_
        rw [verb]
        by_cases running : w.sdb.isRunning
        · rw [Idle, if_pos running] at idle
          exact ⟨fun i visited => idle.1 i visited.2, idle.2⟩
        · exact ⟨fun i visited => running visited.1, if_neg running⟩

end

end Request

/-- What the user of the debugger can do next: a request, or any other event. -/
inductive Line (K : Type) where
  | request (q : Request) (env : Env K)
  | event (e : Event K)

/-- A request whose operand does not fit writes beyond the array. -/
def lineStep (H : Host K) (r : Result K) : Line K → Result K
  | .event e => step H r e
  | .request q env =>
    match q.addrStr with
    | some s => step H r (.command (q.verb.cmd s) env)
    | none => if r.atPrompt then ⟨r.world, .fault .outOfBounds⟩ else r

/-- A request that cannot be served leaves the debugger as it was. -/
def Spared (H : Host K) (r : Result K) : Line K → Prop
  | .event _ => True
  | .request q env => r.atPrompt → ¬ q.Served H env r.world →
    LeftAlone env.uninit q r.world (lineStep H r (.request q env))

def Harmless (H : Host K) (r : Result K) : Line K → Prop
  | .event _ => True
  | .request q env => r.atPrompt → q.Harmless H env r.world

theorem spared_iff (H : Host K) (r : Result K) (line : Line K) :
    Spared H r line ↔ Harmless H r line := by
  cases line with
  | event e => exact Iff.rfl
  | request q env =>
      refine imp_congr_right fun prompt => ?_
      cases str : q.addrStr with
      | none =>
          have long : ¬ q.Fits := by
            intro fits
            obtain ⟨s, h⟩ := Request.addrStr_of_fits fits
            rw [str] at h
            cases h
          have overrun : lineStep H r (.request q env) = ⟨r.world, .fault .outOfBounds⟩ := by
            simp only [lineStep, str, prompt, if_true]
          rw [overrun]
          refine iff_of_false ?_ fun harmless => long harmless.1
          intro spared
          have atPrompt := (spared fun served => long served.1).prompt
          cases atPrompt
      | some s =>
          have called : lineStep H r (.request q env) = (q.verb.cmd s).exec H env r.world := by
            simp only [lineStep, str]
            exact step_of_prompt prompt _ env
          rw [called, Request.Harmless, and_iff_right (Request.fits_of_addrStr str)]
          cases verb : q.verb with
          | «break» => exact verb ▸ Request.break_spared_iff str verb
          | disasm => exact verb ▸ Request.disasm_spared_iff str verb
          | dump => exact verb ▸ Request.dump_spared_iff str verb

/-- In a session from any state on, all requests that cannot be served leave the
debugger as it was exactly when all of them are harmless. -/
theorem rejected_requests_iff (H : Host K) (r : Result K) (lines : List (Line K)) :
    AllSteps (lineStep H) (Spared H) r lines ↔ AllSteps (lineStep H) (Harmless H) r lines :=
  allSteps_congr (spared_iff H) r lines

namespace Fragment

theorem entry_solid : ∀ c ∈ "400000".toList, isSpace c = false := by
  simp [isSpace]

/-- `disasm 400000` before any program was loaded. -/
def disasmFirst : Line Maps :=
  .request
    { verb := .disasm
      operand := some ⟨"400000".toList, List.cons_ne_nil _ _, entry_solid⟩
      locals := emptyLocals }
    (env ⟨7, seven_pos⟩ nops 0)

theorem disasmFirst_crashes : ¬ AllSteps (lineStep host) (Spared host) fresh [disasmFirst] := by
  rintro ⟨spared, -⟩
  have left := spared rfl ?_
  · exact absurd left.prompt (by decide)
  · rintro ⟨-, a, -, data, bytes, -⟩
    cases bytes

end Fragment

end Sdb
