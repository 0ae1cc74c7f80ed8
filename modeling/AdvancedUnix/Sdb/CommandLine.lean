import AdvancedUnix.Sdb.Session
import AdvancedUnix.Text.Scanf
import AdvancedUnix.Text.Words

/-!
# The command line

The loop of `main` reads a line, takes its first word for the name of the
command, and reads the operands that the command has into arrays of 16 or 64
characters. An operand that the line does not have leaves its array, or its
number, as it was; the arrays belong to the loop body, so that is what the stack
held there. Only `disasm` clears its array first. A line without any word leaves
the name of the command before.

A word that does not fit its array is stored beyond it, and then nothing is known
about how the debugger goes on. An address is passed on as it was typed, and the
command reads it; only `set` reads its value here.
-/

namespace Sdb

open Memory Text

/-- The commands, by what they are called on the line. -/
inductive Keyword
  | break | cont | delete | disasm | dump | exit | get | getregs | help | list | load | run
  | vmmap | set | si | start
  deriving DecidableEq

/-- The comparisons with the names of the commands. -/
def keyword (command : List Char) : Option Keyword :=
  match String.ofList command with
  | "break" | "b" => some .break
  | "cont" | "c" => some .cont
  | "delete" => some .delete
  | "disasm" | "d" => some .disasm
  | "dump" => some .dump
  | "exit" | "q" => some .exit
  | "get" | "g" => some .get
  | "getregs" => some .getregs
  | "help" | "h" => some .help
  | "list" | "l" => some .list
  | "load" => some .load
  | "run" | "r" => some .run
  | "vmmap" | "m" => some .vmmap
  | "set" | "s" => some .set
  | "si" => some .si
  | "start" => some .start
  | _ => none

/-- `sscanf(s, "%d", ..)`. -/
def scanD (s : List Char) : Option Int := (scanNumber 10 s).map fun p => (signed32 p.1).toInt

/-- `sscanf(s, "%llu", ..)`. A value beyond the range is read as the largest one. -/
def scanLlu (s : List Char) : Option Memory.Word :=
  (scanNumber 10 s).map fun p => if 2 ^ 64 ≤ p.1.natAbs then -1 else BitVec.ofInt 64 p.1

/-- What the arrays and numbers of the loop body hold before they are read into. -/
structure Locals where
  bpAddr : List Char
  index : Int
  addr : List Char
  oprand : List Char
  newFilename : List Char
  oprand1 : List Char
  oprand2 : List Char
  val : Memory.Word

/-- How the loop goes on after a line: with a handler, by itself, or not defined. -/
inductive Action
  | call (cmd : Cmd)
  | exit
  | help
  | unknown (command : List Char)
  | overrun

/-- Read a word of the line into an array, which keeps what it holds if there is none. -/
def scanS (size : Nat) (held : List Char) : Option (List Char) → Option (List Char)
  | none => some held
  | some t => if t.length < size then some t else none

/-- The value that `set` reads: in hexadecimal behind `0x`. -/
def scanVal (oprand2 : List Char) (held : Memory.Word) : Memory.Word :=
  match oprand2 with
  | '0' :: 'x' :: r => (scanLlx r).getD held
  | _ => (scanLlu oprand2).getD held

def Action.ofOption (cmd : Option Cmd) : Action :=
  match cmd with
  | some cmd => .call cmd
  | none => .overrun

/-- The operands of a command, from the words behind its name. -/
def Keyword.action (l : Locals) (operands : List (List Char)) : Keyword → Action
  | .break => .ofOption ((scanS 16 l.bpAddr operands[0]?).map .break)
  | .cont => .call .cont
  | .delete => .call (.delete ((operands[0]?.bind scanD).getD l.index))
  | .disasm => .ofOption ((scanS 16 [] operands[0]?).map .disasm)
  | .dump => .ofOption ((scanS 16 l.addr operands[0]?).map .dump)
  | .exit => .exit
  | .get => .ofOption ((scanS 16 l.oprand operands[0]?).map .get)
  | .getregs => .call .getregs
  | .help => .help
  | .list => .call .list
  | .load => .ofOption ((scanS 64 l.newFilename operands[0]?).map .load)
  | .run => .call .run
  | .vmmap => .call .vmmap
  | .set => .ofOption ((scanS 16 l.oprand1 operands[0]?).bind fun oprand1 =>
      (scanS 16 l.oprand2 operands[1]?).map fun oprand2 => .set oprand1 (scanVal oprand2 l.val))
  | .si => .call .si
  | .start => .call .start

/-- The loop body of `main`, given what `command` holds: how it goes on, and what
`command` holds then. -/
def mainLoop (l : Locals) (line command : List Char) : Action × List Char :=
  let ws := words isSpace line
  match scanS 64 command ws[0]? with
  | none => (.overrun, command)
  | some command =>
      match keyword command with
      | some k => (k.action l (ws.drop 1), command)
      | none => (.unknown command, command)

/-- The names of a command. -/
def Keyword.names : Keyword → List String
  | .break => ["break", "b"]
  | .cont => ["cont", "c"]
  | .delete => ["delete"]
  | .disasm => ["disasm", "d"]
  | .dump => ["dump"]
  | .exit => ["exit", "q"]
  | .get => ["get", "g"]
  | .getregs => ["getregs"]
  | .help => ["help", "h"]
  | .list => ["list", "l"]
  | .load => ["load"]
  | .run => ["run", "r"]
  | .vmmap => ["vmmap", "m"]
  | .set => ["set", "s"]
  | .si => ["si"]
  | .start => ["start"]

/-- A name is recognised, and it is a word that fits. -/
theorem keyword_names {k : Keyword} {name : String} (h : name ∈ k.names) :
    keyword name.toList = some k ∧ name.toList ≠ [] ∧ name.toList.length < 64 ∧
      ∀ c ∈ name.toList, isSpace c = false := by
  cases k <;> simp only [Keyword.names, List.mem_cons, List.not_mem_nil, or_false] at h <;>
    obtain rfl | rfl := h <;>
    exact ⟨by decide, by decide, by decide, by simp [isSpace]⟩

theorem hexDigit_eq (c : Char) : hexDigit c = digit 16 c := (digit_sixteen c).symm

theorem hexDigits_eq (s : List Char) : hexDigits s = (digits 16 s).1 := by
  induction s with
  | nil => rfl
  | cons c s ih =>
      simp only [hexDigits, digits, hexDigit_eq]
      cases digit 16 c with
      | none => rfl
      | some d => exact congrArg _ ih

/-- Digits with `0x` in front of them are a word of the line. -/
theorem prefixed_solid {n : Nat} {ds : List Char} (h : Spells 16 ds n) :
    ∀ c ∈ '0' :: 'x' :: ds, isSpace c = false := by
  intro c mem
  simp only [List.mem_cons] at mem
  obtain rfl | rfl | mem := mem
  · rfl
  · rfl
  · exact h.solid c mem

/-- A numeral in one of the two notations is a word. -/
def numberToken {base n : Nat} {s : List Char}
    (reads : Spells base s n ∨ ∃ ds, s = '0' :: 'x' :: ds ∧ Spells 16 ds n) : Token isSpace where
  text := s
  nonempty := by
    obtain plain | ⟨ds, rfl, -⟩ := reads
    · exact plain.nonempty
    · exact List.cons_ne_nil _ _
  solid := by
    obtain plain | ⟨ds, rfl, plain⟩ := reads
    · exact plain.solid
    · exact prefixed_solid plain

/-- An address as it can be typed, with or without `0x`. -/
structure AddrText where
  text : List Char
  addr : Addr
  reads : Spells 16 text addr.toNat ∨ ∃ ds, text = '0' :: 'x' :: ds ∧ Spells 16 ds addr.toNat

def AddrText.token (a : AddrText) : Token isSpace := numberToken a.reads

/-- A value as it can be typed for `set`, in decimal or in hexadecimal behind `0x`. -/
structure ValText where
  text : List Char
  val : Memory.Word
  reads : Spells 10 text val.toNat ∨ ∃ ds, text = '0' :: 'x' :: ds ∧ Spells 16 ds val.toNat

def ValText.token (v : ValText) : Token isSpace := numberToken v.reads

/-- An identifier of a breakpoint as it can be typed. -/
structure IdText where
  text : List Char
  id : Slot
  reads : Spells 10 text id.val

def IdText.token (i : IdText) : Token isSpace := numberToken (.inl i.reads)

@[simp] theorem AddrText.token_text (a : AddrText) : a.token.text = a.text := rfl
@[simp] theorem ValText.token_text (v : ValText) : v.token.text = v.text := rfl
@[simp] theorem IdText.token_text (i : IdText) : i.token.text = i.text := rfl

/-- A command with its operands as they are typed. -/
inductive Order
  | break (addr : AddrText)
  | delete (id : IdText)
  | disasm (addr : AddrText)
  | dump (addr : AddrText)
  | get (name : Token isSpace)
  | set (name : Token isSpace) (val : ValText)
  | load (path : Token isSpace)
  | cont | exit | getregs | help | list | run | vmmap | si | start

namespace Order

def keyword : Order → Keyword
  | .break _ => .break
  | .delete _ => .delete
  | .disasm _ => .disasm
  | .dump _ => .dump
  | .get _ => .get
  | .set _ _ => .set
  | .load _ => .load
  | cont => .cont
  | exit => .exit
  | getregs => .getregs
  | help => .help
  | list => .list
  | run => .run
  | vmmap => .vmmap
  | si => .si
  | start => .start

/-- The operands as words of the line. -/
def operands : Order → List (Token isSpace)
  | .break a | .disasm a | .dump a => [a.token]
  | .delete i => [i.token]
  | .get n | .load n => [n]
  | .set n v => [n, v.token]
  | _ => []

/-- The handler of an order with its operands. -/
def action : Order → Action
  | .break a => .call (.break a.text)
  | .delete i => .call (.delete i.id.val)
  | .disasm a => .call (.disasm a.text)
  | .dump a => .call (.dump a.text)
  | .get n => .call (.get n.text)
  | .set n v => .call (.set n.text v.val)
  | .load p => .call (.load p.text)
  | cont => .call .cont
  | exit => .exit
  | getregs => .call .getregs
  | help => .help
  | list => .call .list
  | run => .call .run
  | vmmap => .call .vmmap
  | si => .call .si
  | start => .call .start

/-- The handler reads the address that was typed, whatever stands behind it in the
array. -/
def Read : Order → Prop
  | .break a | .disasm a | .dump a => ∀ tail, hexOperand a.text tail = some a.addr
  | _ => True

/-- Every operand that is stored has room for its terminator in its array. -/
def Fits : Order → Prop
  | .break a | .disasm a | .dump a => a.text.length ≤ 15
  | .get n => n.text.length ≤ 15
  | .set n v => n.text.length ≤ 15 ∧ v.text.length ≤ 15
  | .load p => p.text.length ≤ 63
  | _ => True

end Order

/-- A line for an order: one of its names and its operands with blanks around them. -/
structure Typed (o : Order) where
  lead : List Char
  lead_blank : ∀ c ∈ lead, isSpace c = true
  name : String
  named : name ∈ o.keyword.names
  operands : List (Gap isSpace × Token isSpace)
  operands_eq : operands.map Prod.snd = o.operands
  tail : List Char
  tail_blank : ∀ c ∈ tail, isSpace c = true

def Typed.line {o : Order} (t : Typed o) : List Char :=
  t.lead ++ (t.name.toList ++ spaced isSpace t.tail t.operands)

/-- The loop body calls the handler of the order, which finds the operands that
were typed. -/
def Decodes (l : Locals) (command : List Char) {o : Order} (t : Typed o) : Prop :=
  (mainLoop l t.line command).1 = o.action ∧ o.Read

theorem scanLlx_spells {s : List Char} {v : Memory.Word} (h : Spells 16 s v.toNat) :
    scanLlx s = some v := by
  have second := fun c d r => spells_second (c := c) (d := d) (r := r) h
  have read := scan_spells_nil h
  obtain ⟨c, r, rfl, first⟩ := spells_cons h
  have plain := digit_plain first
  have solid : isSpace c = false := plain.1
  have drop : (c :: r).dropWhile isSpace = c :: r := by simp [solid]
  have range := v.isLt
  have found : (digits 16 (c :: r)).1 ≠ [] ∧ value 16 (digits 16 (c :: r)).1 = v.toNat := by
    unfold scan at read
    split at read
    · cases read
    · rename_i found
      exact ⟨found, congrArg Prod.fst (Option.some.inj read)⟩
  unfold scanLlx
  rw [drop]
  simp [plain.2.1, plain.2.2.1]
  split
  · rename_i text
    exact absurd rfl (second _ _ _ text).1
  · rename_i text
    exact absurd rfl (second _ _ _ text).2
  · have fold : (hexDigits (c :: r)).foldl (fun v d => 16 * v + d) 0 = v.toNat := by
      rw [hexDigits_eq]
      exact found.2
    refine ⟨hexDigits_eq _ ▸ found.1, ?_⟩
    rw [fold, if_neg (by omega)]
    simp

theorem scanLlu_spells {s : List Char} {v : Memory.Word} (h : Spells 10 s v.toNat) :
    scanLlu s = some v := by
  have range := v.isLt
  rw [scanLlu, scanNumber_spells_nil h, Option.map_some, if_neg (by simp only; omega)]
  simp

theorem scanD_spells {s : List Char} {i : Slot} (h : Spells 10 s i.val) :
    scanD s = some (i.val : Int) := by
  have small : ∀ i : Slot, (signed32 (i.val : Int)).toInt = i.val := by decide
  rw [scanD, scanNumber_spells_nil h, Option.map_some, small]

theorem hexOperand_addrText (a : AddrText) (tail : List Char) :
    hexOperand a.text tail = some a.addr := by
  obtain ⟨text, addr, reads⟩ := a
  simp only
  obtain plain | ⟨ds, rfl, plain⟩ := reads
  · unfold hexOperand
    split
    · exact absurd rfl plain.nonempty
    · exact absurd rfl (spells_second plain rfl).1
    · exact scanLlx_spells plain
  · exact scanLlx_spells plain

theorem scanVal_valText (v : ValText) (held : Memory.Word) : scanVal v.text held = v.val := by
  obtain ⟨text, val, reads⟩ := v
  simp only
  obtain plain | ⟨ds, rfl, plain⟩ := reads
  · unfold scanVal
    split
    · exact absurd rfl (spells_second plain rfl).1
    · rw [scanLlu_spells plain, Option.getD_some]
  · simp only [scanVal, scanLlx_spells plain, Option.getD_some]

variable {o : Order} (l : Locals) (command : List Char)

theorem words_typed (t : Typed o) :
    words isSpace t.line = t.name.toList :: o.operands.map Token.text := by
  have name := keyword_names t.named
  have ends : ∀ c, t.tail.head? = some c → isSpace c = true := by
    intro c h
    exact t.tail_blank c (List.mem_of_mem_head? h)
  rw [Typed.line, words_seps _ t.lead_blank,
    words_word ⟨t.name.toList, name.2.1, name.2.2.2⟩ (head?_spaced ends t.operands),
    words_spaced ends, words_blank t.tail_blank, List.append_nil, ← t.operands_eq, List.map_map]
  rfl

theorem mainLoop_typed (t : Typed o) :
    mainLoop l t.line command =
      (o.keyword.action l (o.operands.map Token.text), t.name.toList) := by
  have name := keyword_names t.named
  simp [mainLoop, words_typed, scanS, name.1, name.2.2.1]

theorem scanS_fits {size : Nat} (held : List Char) {t : List Char} (h : t.length < size) :
    scanS size held (some t) = some t := if_pos h

theorem scanS_overrun {size : Nat} (held : List Char) {t : List Char} (h : ¬ t.length < size) :
    scanS size held (some t) = none := if_neg h

/-- A command with one operand gets it exactly when the array has room for it. -/
theorem stored_iff (size : Nat) (held t : List Char) (cmd : List Char → Cmd) :
    Action.ofOption ((scanS size held (some t)).map cmd) = .call (cmd t) ↔ t.length < size := by
  by_cases fits : t.length < size
  · rw [scanS_fits held fits]
    exact iff_of_true rfl fits
  · rw [scanS_overrun held fits]
    exact iff_of_false (fun h => by cases h) fits

theorem action_iff : o.keyword.action l (o.operands.map Token.text) = o.action ↔ o.Fits := by
  cases o with
  | «break» a => exact (stored_iff 16 l.bpAddr a.text .break).trans Nat.lt_succ_iff
  | disasm a => exact (stored_iff 16 [] a.text .disasm).trans Nat.lt_succ_iff
  | dump a => exact (stored_iff 16 l.addr a.text .dump).trans Nat.lt_succ_iff
  | get n => exact (stored_iff 16 l.oprand n.text .get).trans Nat.lt_succ_iff
  | load p => exact (stored_iff 64 l.newFilename p.text .load).trans Nat.lt_succ_iff
  | delete i =>
      refine iff_of_true ?_ trivial
      show Action.call (.delete ((scanD i.text).getD l.index)) = _
      rw [scanD_spells i.reads]
      rfl
  | set n v =>
      show Action.ofOption ((scanS 16 l.oprand1 (some n.text)).bind fun oprand1 =>
        (scanS 16 l.oprand2 (some v.text)).map fun oprand2 =>
          Cmd.set oprand1 (scanVal oprand2 l.val)) = .call (.set n.text v.val) ↔
        n.text.length ≤ 15 ∧ v.text.length ≤ 15
      by_cases name : n.text.length < 16
      · rw [scanS_fits _ name, Option.bind_some]
        have second := stored_iff 16 l.oprand2 v.text fun oprand2 =>
          .set n.text (scanVal oprand2 l.val)
        rw [scanVal_valText] at second
        rw [second]
        omega
      · rw [scanS_overrun _ name]
        refine iff_of_false ?_ (by omega)
        intro h
        cases h
  | _ => exact iff_of_true rfl trivial

theorem read_order (o : Order) : o.Read := by
  cases o <;> first | exact hexOperand_addrText _ | trivial

/-- A line of the debugger is decoded exactly when its operands fit their arrays. -/
theorem decodes_iff (t : Typed o) : Decodes l command t ↔ o.Fits := by
  rw [Decodes, mainLoop_typed, action_iff]
  exact and_iff_left (read_order o)

namespace Fragment

/-- The address at which the memory map shows the vsyscall page. -/
def vsyscall : AddrText where
  text := "ffffffffff600000".toList
  addr := 0xffffffffff600000#64
  reads := .inl
    { nonempty := by decide
      value := ⟨[15, 15, 15, 15, 15, 15, 15, 15, 15, 15, 6, 0, 0, 0, 0, 0],
        by decide, by decide⟩ }

def dumpVsyscall : Typed (.dump vsyscall) where
  lead := []
  lead_blank := by simp
  name := "dump"
  named := by decide
  operands :=
    [({ text := [' '], nonempty := by decide, separates := by simp [isSpace] }, vsyscall.token)]
  operands_eq := rfl
  tail := ['\n']
  tail_blank := by simp [isSpace]

def emptyLocals : Locals where
  bpAddr := []
  index := 0
  addr := []
  oprand := []
  newFilename := []
  oprand1 := []
  oprand2 := []
  val := 0

/-- The sixteen digits of the page leave no room for the terminator. -/
theorem dump_overruns : ¬ Decodes emptyLocals [] dumpVsyscall := by
  rintro ⟨called, -⟩
  rw [mainLoop_typed] at called
  have fits : 16 ≤ 15 := (action_iff (o := .dump vsyscall) emptyLocals).mp called
  omega

end Fragment

end Sdb
