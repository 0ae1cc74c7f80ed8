import AdvancedUnix.Decoding.Linear
import AdvancedUnix.Sdb.Fragment
import AdvancedUnix.Text.Numeral

/-!
# Capstone, and how instructions are printed

`Capstone` is what the debugger relies on: `cs_disasm` is the linear decoding of the
bytes it is given, one instruction of at most fifteen bytes after the other.

The bytes of an instruction are rendered into `bytes_str`, which has room for
sixteen characters. `strcat` does not look at that size, so there is nothing to
say about what is printed once the rendering gets longer.
-/

namespace Sdb

open Memory Text Decoding

variable {K : Type}

/-- The documented behaviour of `cs_disasm`. -/
structure Capstone (H : Host K) where
  decoder : Decoder Addr CsInsn.bytes 15
  address : ∀ {bs a insn}, decoder.one bs a = some insn → insn.address = a
  disasm : ∀ bs a, H.csDisasm bs a = decoder.sweep bs.length bs a

/-- `sprintf(byte, "%02x ", b)`. -/
def byteText (b : Byte) : List Char :=
  [lowerDigit (b.toNat / 16), lowerDigit (b.toNat % 16), ' ']

def bytesText (bytes : List Byte) : List Char := bytes.flatMap byteText

/-- The size of `bytes_str`, terminator included. -/
def bytesStrSize : Nat := 16

/-- `strcat(bytes_str, byte)`, or `none` when that writes beyond the buffer. -/
def strcat (bytesStr : List Char) (b : Byte) : Option (List Char) :=
  if (bytesStr ++ byteText b).length < bytesStrSize then some (bytesStr ++ byteText b) else none

/-- The loop that renders the bytes of an instruction into `bytes_str`. -/
def bytesStr (bytes : List Byte) : Option (List Char) := bytes.foldlM strcat []

/-- One line of a disassembly. -/
structure InsnLine where
  address : Addr
  bytes : List Char
  mnemonic : List Char
  opStr : List Char
  deriving DecidableEq

/-- The line of an instruction, with the operands of another one. -/
def CsInsn.line (insn other : CsInsn) : InsnLine :=
  ⟨insn.address, bytesText insn.bytes, insn.mnemonic, other.opStr⟩

/-- What the printing of an instruction comes to: a line, the message that there is
none, a write beyond `bytes_str`, or a read behind the last instruction. -/
inductive Printed where
  | line (line : InsnLine)
  | failed
  | overrun
  | wild
  deriving DecidableEq

/-- The eight bytes of the word that is passed to `cs_disasm`. -/
def bytesOf (word : Word) : List Byte := (List.range 8).map (byteOf word)

/-- What `sdb_cont` and `sdb_run` print of a breakpoint: the first instruction of
the word, with the operands of the one that has the number of the slot. -/
def printBreakpoint (H : Host K) (i : Slot) (vaddr : Addr) (buffer : Word) : Printed :=
  match H.csDisasm (bytesOf buffer) vaddr with
  | [] => .failed
  | insn :: insns =>
      match bytesStr insn.bytes with
      | none => .overrun
      | some bytes =>
          match (insn :: insns)[i.val]? with
          | none => .wild
          | some other => .line ⟨insn.address, bytes, insn.mnemonic, other.opStr⟩

/-- What `sdb_disasm` prints of its instructions, or `none` once it writes beyond
the buffer. -/
def printLines : List CsInsn → Option (List InsnLine)
  | [] => some []
  | insn :: insns =>
      match bytesStr insn.bytes with
      | none => none
      | some bytes =>
          (printLines insns).map (⟨insn.address, bytes, insn.mnemonic, insn.opStr⟩ :: ·)

theorem holds_bytesOf_iff {m : Mem} {a : Addr} {word : Word} :
    Decoding.Holds m a (bytesOf word) ↔ readWord m a = some word := by
  rw [holds_iff, readWord_eq_some_iff]
  have length : (bytesOf word).length = 8 := by simp [bytesOf]
  constructor
  · intro h k hk
    have held := h k (by omega)
    simp only [bytesOf, List.get_eq_getElem, List.getElem_map, List.getElem_range] at held
    exact held
  · intro h k hk
    simp only [bytesOf, List.get_eq_getElem, List.getElem_map, List.getElem_range]
    exact h k (by omega)

theorem bytesText_length (bytes : List Byte) : (bytesText bytes).length = 3 * bytes.length := by
  induction bytes with
  | nil => rfl
  | cons b bytes ih =>
      show (byteText b ++ bytesText bytes).length = _
      rw [List.length_append, ih, List.length_cons]
      show 3 + 3 * bytes.length = _
      omega

theorem lowerDigit_injective {d e : Nat} (hd : d < 16) (he : e < 16)
    (same : lowerDigit d = lowerDigit e) : d = e := by
  have both := digit_lower d hd
  rw [same, digit_lower e he] at both
  exact (Option.some.inj both).symm

theorem byteText_injective {b c : Byte} (same : byteText b = byteText c) : b = c := by
  obtain ⟨high, low, -⟩ := List.cons_eq_cons.mp same |>.imp id fun h => List.cons_eq_cons.mp h
  have bound := b.isLt
  have bound' := c.isLt
  have high := lowerDigit_injective (by omega) (by omega) high
  have low := lowerDigit_injective (by omega) (by omega) low
  exact BitVec.eq_of_toNat_eq (by omega)

theorem bytesText_injective : Function.Injective bytesText := by
  intro bytes
  induction bytes with
  | nil =>
      intro other same
      have := congrArg List.length same
      rw [bytesText_length, bytesText_length] at this
      exact (List.length_eq_zero_iff.mp (by simpa using this.symm)).symm
  | cons b bytes ih =>
      intro other same
      cases other with
      | nil => cases same
      | cons c other =>
          obtain ⟨first, rest⟩ := List.append_inj same rfl
          rw [byteText_injective first, ih rest]

theorem foldlM_strcat (bytes : List Byte) (text : List Char) (h : text.length < bytesStrSize) :
    bytes.foldlM strcat text =
      if (text ++ bytesText bytes).length < bytesStrSize then some (text ++ bytesText bytes)
      else none := by
  induction bytes generalizing text with
  | nil =>
      have last : text ++ bytesText [] = text := List.append_nil text
      rw [last, if_pos h]
      rfl
  | cons b bytes ih =>
      have split : text ++ bytesText (b :: bytes) = text ++ byteText b ++ bytesText bytes :=
        (List.append_assoc _ _ _).symm
      rw [List.foldlM_cons, split]
      by_cases room : (text ++ byteText b).length < bytesStrSize
      · rw [strcat, if_pos room]
        exact ih _ room
      · rw [strcat, if_neg room, if_neg]
        · rfl
        · rw [List.length_append]
          omega

/-- There is room for five bytes. -/
theorem bytesStr_eq (bytes : List Byte) :
    bytesStr bytes = if bytes.length ≤ 5 then some (bytesText bytes) else none := by
  have loop := foldlM_strcat bytes [] (by decide)
  have five : (bytesText bytes).length < bytesStrSize ↔ bytes.length ≤ 5 := by
    rw [bytesText_length]
    show 3 * bytes.length < 16 ↔ _
    omega
  rw [List.nil_append] at loop
  rw [bytesStr, loop]
  simp only [five]

theorem printLines_eq (insns : List CsInsn) :
    printLines insns = if ∀ insn ∈ insns, insn.bytes.length ≤ 5
      then some (insns.map fun insn => insn.line insn) else none := by
  induction insns with
  | nil => rfl
  | cons insn insns ih =>
      rw [printLines, bytesStr_eq, ih]
      simp only [List.forall_mem_cons]
      by_cases here : insn.bytes.length ≤ 5
      · rw [if_pos here]
        by_cases rest : ∀ insn ∈ insns, insn.bytes.length ≤ 5
        · rw [if_pos rest, if_pos (And.intro here rest)]
          rfl
        · rw [if_neg rest, if_neg fun h : _ ∧ _ => rest h.2]
          rfl
      · rw [if_neg here, if_neg fun h : _ ∧ _ => here h.1]

namespace Capstone

variable {H : Host K} (C : Capstone H) {bs : List Byte} {a : Addr} {insn : CsInsn}

theorem csDisasm_head? (bs : List Byte) (a : Addr) :
    (H.csDisasm bs a).head? = C.decoder.one bs a := by
  rw [C.disasm]
  cases bs with
  | nil => exact (C.decoder.one_nil a).symm
  | cons b bs => exact C.decoder.sweep_head? (Nat.succ_pos _) _ _

/-- The report of a breakpoint is about the instruction there exactly when that is
short, the word begins with it, and the instruction that the operands are taken
from has the same ones. -/
theorem printBreakpoint_iff (own : C.decoder.one bs a = some insn) (i : Slot) (word : Word) :
    printBreakpoint H i a word = .line (insn.line insn) ↔
      insn.bytes.length ≤ 5 ∧ insn.bytes <+: bytesOf word ∧
        ((H.csDisasm (bytesOf word) a)[i.val]?).map CsInsn.opStr = some insn.opStr := by
  have head := C.csDisasm_head? (bytesOf word) a
  have decoded : insn.bytes <+: bytesOf word ↔
      (C.decoder.one (bytesOf word) a).map CsInsn.bytes = some insn.bytes := by
    constructor
    · intro front
      rw [C.decoder.one_local own front, Option.map_some]
    · intro same
      obtain ⟨other, one, bytes⟩ := Option.map_eq_some_iff.mp same
      rw [← bytes]
      exact C.decoder.units_front one
  rw [decoded, ← head]
  unfold printBreakpoint
  generalize H.csDisasm (bytesOf word) a = decoding at head ⊢
  cases decoding with
  | nil =>
      refine iff_of_false (fun h => ?_) fun h => ?_
      · cases h
      · cases h.2.1
  | cons first insns =>
      rw [List.head?_cons] at head
      rw [List.head?_cons, Option.map_some, Option.some.injEq]
      simp only
      by_cases short : first.bytes.length ≤ 5
      · rw [bytesStr_eq, if_pos short]
        simp only
        cases at_ : (first :: insns)[i.val]? with
        | none =>
            refine iff_of_false (fun h => ?_) fun h => ?_
            · cases h
            · cases h.2.2
        | some other =>
            rw [Option.map_some, Option.some.injEq]
            constructor
            · intro same
              have line := Printed.line.inj same
              have bytes := bytesText_injective (congrArg InsnLine.bytes line)
              exact ⟨bytes ▸ short, bytes, congrArg InsnLine.opStr line⟩
            · rintro ⟨-, bytes, operands⟩
              have front : insn.bytes <+: bytesOf word := bytes ▸ C.decoder.units_front head.symm
              have same : first = insn :=
                Option.some.inj (head.trans (C.decoder.one_local own front))
              simp only [same, operands]
              rfl
      · rw [bytesStr_eq, if_neg short]
        refine iff_of_false (fun h => ?_) fun h => ?_
        · cases h
        · exact short (h.2.1 ▸ h.1)

end Capstone

namespace Fragment

/-- The first instruction of a text. -/
def one : List Byte → Addr → Option CsInsn
  | 0x90 :: _, a => some ⟨a, [0x90], "nop".toList, []⟩
  | 0xcc :: _, a => some ⟨a, [0xcc], "int3".toList, []⟩
  | 0xf4 :: _, a => some ⟨a, [0xf4], "hlt".toList, []⟩
  | 0xeb :: rel :: _, a => some ⟨a, [0xeb, rel], "jmp".toList, []⟩
  | 0x0f :: 0x05 :: _, a => some ⟨a, [0x0f, 0x05], "syscall".toList, []⟩
  | _, _ => none

/-- The instructions of the fragment. -/
inductive One : CsInsn → Prop
  | nop (a : Addr) : One ⟨a, [0x90], "nop".toList, []⟩
  | int3 (a : Addr) : One ⟨a, [0xcc], "int3".toList, []⟩
  | hlt (a : Addr) : One ⟨a, [0xf4], "hlt".toList, []⟩
  | jmp (a : Addr) (rel : Byte) : One ⟨a, [0xeb, rel], "jmp".toList, []⟩
  | syscall (a : Addr) : One ⟨a, [0x0f, 0x05], "syscall".toList, []⟩

theorem one_eq_some_iff {bs : List Byte} {a : Addr} {insn : CsInsn} :
    one bs a = some insn ↔ One insn ∧ insn.address = a ∧ insn.bytes <+: bs := by
  constructor
  · intro h
    unfold one at h
    split at h <;> cases h
    · exact ⟨.nop a, rfl, _, rfl⟩
    · exact ⟨.int3 a, rfl, _, rfl⟩
    · exact ⟨.hlt a, rfl, _, rfl⟩
    · exact ⟨.jmp a _, rfl, _, rfl⟩
    · exact ⟨.syscall a, rfl, _, rfl⟩
  · rintro ⟨known, rfl, rest, rfl⟩
    cases known <;> rfl

def decoder : Decoder Addr CsInsn.bytes 15 where
  one := one
  units_pos h := by
    obtain ⟨known, -⟩ := one_eq_some_iff.mp h
    cases known <;> exact Nat.succ_pos _
  units_le h := by
    obtain ⟨known, -⟩ := one_eq_some_iff.mp h
    cases known <;> exact Nat.le_of_lt_succ (by simp)
  units_front h := (one_eq_some_iff.mp h).2.2
  one_local h front := by
    obtain ⟨known, address, -⟩ := one_eq_some_iff.mp h
    exact one_eq_some_iff.mpr ⟨known, address, front⟩

theorem csDisasm_none {bs : List Byte} {a : Addr} (h : one bs a = none) : csDisasm bs a = [] := by
  unfold csDisasm
  split
  all_goals first | rfl | cases h

theorem csDisasm_some {bs : List Byte} {a : Addr} {insn : CsInsn} (h : one bs a = some insn) :
    csDisasm bs a =
      insn :: csDisasm (bs.drop insn.bytes.length) (a + (insn.bytes.length : Addr)) := by
  obtain ⟨known, rfl, rest, rfl⟩ := one_eq_some_iff.mp h
  cases known <;> rfl

theorem csDisasm_sweep (n : Nat) {bs : List Byte} (le : bs.length ≤ n) (a : Addr) :
    csDisasm bs a = decoder.sweep n bs a := by
  induction n generalizing bs a with
  | zero =>
      rw [List.length_eq_zero_iff.mp (Nat.le_zero.mp le)]
      rfl
  | succ n ih =>
      rw [Decoder.sweep]
      cases h : decoder.one bs a with
      | none => exact csDisasm_none h
      | some insn =>
          have pos := decoder.units_pos h
          rw [csDisasm_some h]
          refine congrArg (insn :: ·) (ih ?_ _)
          rw [List.length_drop]
          omega

/-- The disassembler of the fragment is a linear decoding. -/
def capstone : Capstone host where
  decoder := decoder
  address h := (one_eq_some_iff.mp h).2.1
  disasm _ a := csDisasm_sweep _ le_rfl a

end Fragment

end Sdb
