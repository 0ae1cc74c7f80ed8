import AdvancedUnix.Sdb.CommandLine
import AdvancedUnix.Sdb.Registers
import AdvancedUnix.Sdb.Table
import AdvancedUnix.Sdb.Vmmap
import AdvancedUnix.Text.Decimal

/-!
# What list and getregs print

The lines of `list` have an identifier and an address, those of `getregs` up to four
registers each, whose values are padded to a width that leaves two blanks behind the longest
ones. `RIP` is padded likewise, and the flags have leading zeros.

A user who goes by the words of these texts finds the addresses and the values again. They
can be typed as `break` and `set` take them, which is in other words: `set` wants its names
in small letters, and has another one for the flags.
-/

namespace Sdb

open Memory Text Slots Traced

/-- `%llx`. -/
def llx (v : Memory.Word) : List Char := numeral lowerDigit 16 v.toNat

/-- `"%4d: %llx\n"`. -/
def listLine (entry : Slot × Addr) : List Char :=
  padded ' ' 4 (numeral lowerDigit 10 entry.1.val) ++ ':' :: ' ' :: (llx entry.2 ++ ['\n'])

/-- What `sdb_list` prints. -/
def listText (entries : List (Slot × Addr)) : List Char := entries.flatMap listLine

namespace Gp

/-- What stands before the value of a register in the formats. -/
def heading : Gp → String
  | rax => "RAX "
  | rbx => "RBX "
  | rcx => "RCX "
  | rdx => "RDX "
  | r8 => "R8  "
  | r9 => "R9  "
  | r10 => "R10 "
  | r11 => "R11 "
  | r12 => "R12 "
  | r13 => "R13 "
  | r14 => "R14 "
  | r15 => "R15 "
  | rdi => "RDI "
  | rsi => "RSI "
  | rbp => "RBP "
  | rsp => "RSP "
  | rip => "RIP "
  | eflags => "FLAGS "

/-- `"RAX %-18llx"`. -/
def cell (regs : UserRegs) (r : Gp) : List Char :=
  r.heading.toList ++ leftHex 18 (r.get regs).toNat

end Gp

/-- What `sdb_getregs` prints. -/
def getregsText (regs : UserRegs) : List Char :=
  [.rax, .rbx, .rcx, .rdx].flatMap (Gp.cell regs) ++ '\n' ::
  ([.r8, .r9, .r10, .r11].flatMap (Gp.cell regs) ++ '\n' ::
  ([.r12, .r13, .r14, .r15].flatMap (Gp.cell regs) ++ '\n' ::
  ([.rdi, .rsi, .rbp, .rsp].flatMap (Gp.cell regs) ++ '\n' ::
  (Gp.cell regs .rip ++
    (Gp.eflags.heading.toList ++ (padded '0' 16 (llx regs.eflags) ++ ['\n']))))))

/-! ### Reading the texts -/

/-- The name of a register as it is printed. -/
def Gp.label (r : Gp) : List Char := (words isSpace r.heading.toList).headD []

/-- The addresses behind the identifiers. -/
def readAddrs : List (List Char) → List Addr
  | _ :: addr :: ws =>
      match scan 16 addr with
      | some (n, _) => BitVec.ofNat 64 n :: readAddrs ws
      | none => readAddrs ws
  | _ => []

/-- The registers before the values. -/
def readFields : List (List Char) → List (Gp × Memory.Word)
  | label :: val :: ws =>
      match Gp.all.find? (fun r => r.label = label), scan 16 val with
      | some r, some (n, _) => (r, BitVec.ofNat 64 n) :: readFields ws
      | _, _ => readFields ws
  | _ => []

theorem llx_spells (v : Memory.Word) : Spells 16 (llx v) v.toNat :=
  spells_numeral (by decide) digit_lower v.toNat

/-- A value is a word of its own. -/
def llxToken (v : Memory.Word) : Token isSpace where
  text := llx v
  nonempty := (llx_spells v).nonempty
  solid := (llx_spells v).solid

theorem llx_length (v : Memory.Word) : (llx v).length ≤ 16 :=
  (numeral_length_le_iff (by decide) (by decide)).mpr v.isLt

theorem leftHex_eq (v : Memory.Word) :
    leftHex 18 v.toNat = llx v ++ List.replicate (18 - (llx v).length) ' ' := rfl

theorem blanks_space (n : Nat) : ∀ c ∈ List.replicate n ' ', isSpace c = true := by
  intro c mem
  rw [List.eq_of_mem_replicate mem]
  rfl

/-- A value that is padded is a word, and leaves what follows it apart. -/
theorem words_leftHex (v : Memory.Word) (s : List Char) :
    words isSpace (leftHex 18 v.toNat ++ s) = llx v :: words isSpace s := by
  have short := llx_length v
  obtain ⟨n, hn⟩ : ∃ n, 18 - (llx v).length = n + 1 := ⟨17 - (llx v).length, by omega⟩
  have word := words_word (llxToken v) (s := []) (by simp)
  rw [List.append_nil] at word
  rw [leftHex_eq, hn, List.replicate_succ, List.append_assoc, List.cons_append, words_append _ rfl,
    words_seps s (blanks_space n)]
  exact congrArg (· ++ words isSpace s) word

theorem Gp.words_heading (r : Gp) (s : List Char) :
    words isSpace (r.heading.toList ++ s) = r.label :: words isSpace s := by
  have last : r.heading.toList = r.heading.toList.dropLast ++ [' '] := by
    cases r <;> decide
  have word : words isSpace r.heading.toList.dropLast = [r.label] := by
    cases r <;> decide
  rw [last, List.append_assoc, List.singleton_append, words_append _ rfl, word]
  rfl

theorem Gp.words_cell (regs : UserRegs) (r : Gp) (s : List Char) :
    words isSpace (r.cell regs ++ s) = r.label :: llx (r.get regs) :: words isSpace s := by
  rw [Gp.cell, List.append_assoc, Gp.words_heading, words_leftHex]

theorem Gp.find_label (r : Gp) : Gp.all.find? (fun r' => r'.label = r.label) = some r := by
  cases r <;> decide

theorem readFields_cons (r : Gp) {v : Memory.Word} {val : List Char}
    (spells : Spells 16 val v.toNat) (ws : List (List Char)) :
    readFields (r.label :: val :: ws) = (r, v) :: readFields ws := by
  rw [readFields, r.find_label, scan_spells_nil spells]
  simp

/-- The registers and their values are read from what is printed. -/
theorem readFields_getregsText (regs : UserRegs) :
    readFields (words isSpace (getregsText regs)) = Gp.all.map fun r => (r, r.get regs) := by
  have newline : isSpace '\n' = true := rfl
  have spells := (llx_spells regs.eflags).padded (by decide) 16
  have flags : words isSpace (padded '0' 16 (llx regs.eflags) ++ ['\n']) =
      [padded '0' 16 (llx regs.eflags)] := by
    have alone : words isSpace (padded '0' 16 (llx regs.eflags)) =
        [padded '0' 16 (llx regs.eflags)] := words_solid ⟨_, spells.nonempty, spells.solid⟩
    rw [words_append _ newline, alone]
    rfl
  simp only [getregsText, List.flatMap_cons, List.flatMap_nil, List.append_assoc,
    List.nil_append, Gp.words_cell, words_sep newline, Gp.words_heading, flags]
  simp only [readFields_cons _ (llx_spells _), readFields_cons _ spells]
  rfl

theorem readAddrs_cons (w : List Char) (a : Addr) (ws : List (List Char)) :
    readAddrs (w :: llx a :: ws) = a :: readAddrs ws := by
  rw [readAddrs, scan_spells_nil (llx_spells a)]
  simp

/-- An identifier with its colon is a word, and the address behind it is another. -/
theorem words_listLine (entry : Slot × Addr) (s : List Char) :
    ∃ w, words isSpace (listLine entry ++ s) = w :: llx entry.2 :: words isSpace s := by
  have id := spells_numeral (by decide) digit_decimal entry.1.val
  have solid : ∀ c ∈ numeral lowerDigit 10 entry.1.val ++ [':'], isSpace c = false := by
    intro c mem
    rcases List.mem_append.mp mem with digit | colon
    · exact id.solid c digit
    · rw [List.mem_singleton.mp colon]
      rfl
  have first : words isSpace (numeral lowerDigit 10 entry.1.val ++ [':']) =
      [numeral lowerDigit 10 entry.1.val ++ [':']] :=
    words_solid ⟨_, List.concat_ne_nil _ _, solid⟩
  have second : words isSpace (llx entry.2) = [llx entry.2] := words_solid (llxToken entry.2)
  refine ⟨numeral lowerDigit 10 entry.1.val ++ [':'], ?_⟩
  have parts : listLine entry ++ s =
      List.replicate (4 - (numeral lowerDigit 10 entry.1.val).length) ' ' ++
      (numeral lowerDigit 10 entry.1.val ++ [':'] ++ ' ' :: (llx entry.2 ++ '\n' :: s)) := by
    simp [listLine, padded]
  rw [parts, words_seps _ (blanks_space _), words_append _ rfl, first, words_append _ rfl, second]
  rfl

/-- The addresses are read from what is printed. -/
theorem readAddrs_listText (entries : List (Slot × Addr)) :
    readAddrs (words isSpace (listText entries)) = entries.map Prod.snd := by
  induction entries with
  | nil => rfl
  | cons e entries ih =>
      obtain ⟨w, line⟩ := words_listLine e (listText entries)
      rw [listText, List.flatMap_cons, ← listText, line, readAddrs_cons, ih]
      rfl

end Sdb
