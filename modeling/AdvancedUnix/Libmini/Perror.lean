import AdvancedUnix.Libmini.WrapperLaw
import AdvancedUnix.Memory.Buffer

/-!
# perror

`perror` copies `errno` at its entry, writes the prefix, and then chooses the message. The
index into the table is the copy, but the range test looks at `errno` itself, which each
call of `write` has set to zero or to its own error.

Without a prefix nothing is written in between and the two are the same. With one they
agree on the range exactly when the second write leaves `errno` on the same side of it.
-/

namespace Libmini

open Memory

/-- A call of `write`: the descriptor and the bytes. -/
structure Written where
  fd : Nat
  bytes : List Byte
  deriving DecidableEq

/-- The variable `errno` and what has been written, the last call at the end. -/
structure Terminal where
  errno : Word
  written : List Written

/-- What a wrapper leaves in `errno`, given the result of its system call. -/
def errnoOf (ret : Word) : Word := if ret.slt 0 then -ret else 0

/-- The length of the string at the start of an array. -/
def strlen : List Byte → Option Nat
  | [] => none
  | c :: s => if c = 0#8 then some 0 else (strlen s).map (· + 1)

/-- The array of a string literal. -/
def literal (s : String) : List Byte := s.toList.map (fun c => BitVec.ofNat 8 c.toNat) ++ [0#8]

/-- The array that a string is held in. -/
def array (s : CString) : List Byte := s.bytes ++ [0#8]

namespace Terminal

variable (ret : Nat → Word)

/-- `write`, where `ret` has the results of the calls in their order. -/
def write (fd : Nat) (buf : List Byte) (count : Nat) (t : Terminal) : Terminal where
  errno := errnoOf (ret t.written.length)
  written := t.written ++ [⟨fd, buf.take count⟩]

/-- `write(2, s, strlen(s))`. -/
def puts (s : List Byte) (t : Terminal) : Option Terminal :=
  (strlen s).map fun count => t.write ret 2 s count

end Terminal

abbrev PERRMSG_MIN : Word := 0
abbrev PERRMSG_MAX : Word := 34

def errmsg : List String :=
  [ "Success",
    "Operation not permitted",
    "No such file or directory",
    "No such process",
    "Interrupted system call",
    "I/O error",
    "No such device or address",
    "Argument list too long",
    "Exec format error",
    "Bad file number",
    "No child processes",
    "Try again",
    "Out of memory",
    "Permission denied",
    "Bad address",
    "Block device required",
    "Device or resource busy",
    "File exists",
    "Cross-device link",
    "No such device",
    "Not a directory",
    "Is a directory",
    "Invalid argument",
    "File table overflow",
    "Too many open files",
    "Not a typewriter",
    "Text file busy",
    "File too large",
    "No space left on device",
    "Illegal seek",
    "Read-only file system",
    "Too many links",
    "Broken pipe",
    "Math argument out of domain of func",
    "Math result not representable" ]

/-- `errmsg[i]`, which is only defined inside the table. -/
def errmsgAt (i : Word) : Option (List Byte) :=
  if 0 ≤ i.toInt then (errmsg[i.toInt.toNat]?).map literal else none

/-- The test that `perror` makes before it takes a message from the table. -/
def outOfRange (errno : Word) : Bool := errno.slt PERRMSG_MIN || PERRMSG_MAX.slt errno

/-- The prefix, if there is one, and a colon. -/
def Terminal.begin (ret : Nat → Word) : Option CString → Terminal → Option Terminal
  | none, t => some t
  | some s, t => (t.puts ret (array s)).map fun t => t.write ret 2 (literal ": ") 2

/-- `perror`. -/
def perror (ret : Nat → Word) (pfx : Option CString) (t : Terminal) : Option Terminal :=
  let backup := t.errno
  (t.begin ret pfx).bind fun t =>
    (if outOfRange t.errno then t.puts ret (literal "Unknown")
      else (errmsgAt backup).bind fun text => t.puts ret text).map fun t =>
        t.write ret 2 (literal "\n") 1

/-- The error codes that the table has a message for. -/
def Listed (errno : Word) : Prop := 0 ≤ errno.toInt ∧ errno.toInt ≤ 34

instance (errno : Word) : Decidable (Listed errno) := inferInstanceAs (Decidable (_ ∧ _))

/-- The message for an error. -/
def message (errno : Word) : String :=
  if Listed errno then errmsg.getD errno.toInt.toNat "" else "Unknown"

/-- The text of a literal as it is written. -/
def textOf (s : String) : Written := ⟨2, s.toList.map fun c => BitVec.ofNat 8 c.toNat⟩

/-- What is written before the message. -/
def heading : Option CString → List Written
  | none => []
  | some s => [⟨2, s.bytes⟩, textOf ": "]

/-- `perror` never leaves the table, and writes the message of the error at its entry. -/
def Reports (ret : Nat → Word) (pfx : Option CString) (t : Terminal) : Prop :=
  ∃ t', perror ret pfx t = some t' ∧
    t'.written = t.written ++ heading pfx ++ [textOf (message t.errno), textOf "\n"]

/-- The wrapper that `write` stands for leaves the same in `errno`. -/
theorem conclude_errno (b : Build) (s : X86.State) :
    load (Wrapper.write.conclude b s).mem b.errno = errnoOf (s.regs .rax) := by
  rw [errnoOf]
  cases sign : (s.regs .rax).slt 0 with
  | true => exact (conclude_failed b Wrapper.write s sign).1
  | false => exact (conclude_succeeded b Wrapper.write s sign).1

theorem strlen_terminated {bytes : List Byte} (text : 0#8 ∉ bytes) :
    strlen (bytes ++ [0#8]) = some bytes.length := by
  induction bytes with
  | nil => rfl
  | cons c bytes ih =>
      obtain ⟨here, rest⟩ := not_or.mp (mt List.mem_cons.mpr text)
      rw [List.cons_append, strlen, if_neg (Ne.symm here), ih rest]
      rfl

section

variable (ret : Nat → Word) (t : Terminal)

/-- A string is written without its terminator. -/
theorem puts_terminated {bytes : List Byte} (text : 0#8 ∉ bytes) :
    t.puts ret (bytes ++ [0#8]) =
      some ⟨errnoOf (ret t.written.length), t.written ++ [⟨2, bytes⟩]⟩ := by
  rw [Terminal.puts, strlen_terminated text, Option.map_some, Terminal.write, List.take_left]

/-- The messages, and the texts beside them, contain no terminator. -/
theorem text_of_mem {s : String} (h : s ∈ "Unknown" :: errmsg) :
    0#8 ∉ s.toList.map fun c => BitVec.ofNat 8 c.toNat := by
  revert s
  decide

theorem puts_literal {s : String} (h : s ∈ "Unknown" :: errmsg) :
    t.puts ret (literal s) = some ⟨errnoOf (ret t.written.length), t.written ++ [textOf s]⟩ :=
  puts_terminated ret t (text_of_mem h)

/-- The state in which `perror` makes its test. -/
def Terminal.headed (pfx : Option CString) : Terminal where
  errno := if pfx.isSome then errnoOf (ret (t.written.length + 1)) else t.errno
  written := t.written ++ heading pfx

/-- `perror` behind its prefix. -/
theorem perror_eq (pfx : Option CString) :
    perror ret pfx t =
      ((if outOfRange (t.headed ret pfx).errno then (t.headed ret pfx).puts ret (literal "Unknown")
        else (errmsgAt t.errno).bind fun text => (t.headed ret pfx).puts ret text).map
          fun t => t.write ret 2 (literal "\n") 1) := by
  have headed : t.begin ret pfx = some (t.headed ret pfx) := by
    cases pfx with
    | none => simp [Terminal.begin, Terminal.headed, heading]
    | some s =>
        rw [Terminal.begin, array, puts_terminated ret t s.terminated]
        simp [Terminal.headed, Terminal.write, heading, textOf, literal]
  rw [perror, headed]
  rfl

theorem outOfRange_iff (errno : Word) : outOfRange errno = true ↔ ¬ Listed errno := by
  have low : (PERRMSG_MIN).toInt = 0 := rfl
  have high : (PERRMSG_MAX).toInt = 34 := rfl
  rw [outOfRange, Bool.or_eq_true, BitVec.slt_iff_toInt_lt, BitVec.slt_iff_toInt_lt, low, high,
    Listed]
  omega

/-- The table has one message for each error that is `Listed`. -/
theorem errmsgAt_listed {errno : Word} (h : Listed errno) :
    errmsgAt errno = some (literal (message errno)) ∧ message errno ∈ errmsg := by
  obtain ⟨low, high⟩ := h
  have size : errmsg.length = 35 := rfl
  have inside : errno.toInt.toNat < errmsg.length := by omega
  have entry : errmsg[errno.toInt.toNat]? = some (message errno) := by
    rw [message, if_pos ⟨low, high⟩, List.getD_eq_getElem?_getD,
      List.getElem?_eq_getElem inside]
    rfl
  rw [errmsgAt, if_pos low, entry]
  exact ⟨rfl, List.mem_of_getElem? entry⟩

theorem errmsgAt_none {errno : Word} (h : ¬ Listed errno) : errmsgAt errno = none := by
  unfold errmsgAt
  split
  · rename_i low
    have size : errmsg.length = 35 := rfl
    rw [List.getElem?_eq_none]
    · rfl
    · by_contra inside
      apply h
      exact ⟨low, by omega⟩
  · rfl

/-- No message of the table is the one for unknown errors. -/
theorem textOf_ne {s : String} (h : s ∈ errmsg) : textOf s ≠ textOf "Unknown" := by
  revert s
  decide

/-- The range test is right about the table exactly when the errors before and after the
prefix are on the same side of it. -/
theorem reports_iff_headed (pfx : Option CString) :
    Reports ret pfx t ↔ (Listed (t.headed ret pfx).errno ↔ Listed t.errno) := by
  unfold Reports
  rw [perror_eq]
  by_cases now : Listed (t.headed ret pfx).errno
  · rw [if_neg (fun out => (outOfRange_iff _).mp out now), iff_true_left now]
    by_cases before : Listed t.errno
    · obtain ⟨entry, known⟩ := errmsgAt_listed before
      rw [entry, Option.bind_some, puts_literal ret _ (List.mem_cons_of_mem _ known)]
      refine iff_of_true ⟨_, rfl, ?_⟩ before
      exact List.append_assoc _ _ _
    · rw [errmsgAt_none before]
      refine iff_of_false ?_ before
      rintro ⟨t', none, -⟩
      cases none
  · rw [if_pos ((outOfRange_iff _).mpr now), iff_false_left now,
      puts_literal ret _ List.mem_cons_self]
    constructor
    · rintro ⟨t', done, written⟩ before
      cases done
      obtain ⟨-, known⟩ := errmsgAt_listed before
      have last := List.append_cancel_left ((List.append_assoc _ _ _).symm.trans written)
      exact textOf_ne known (List.cons.inj last).1.symm
    · intro unlisted
      refine ⟨_, rfl, ?_⟩
      rw [message, if_neg unlisted]
      exact List.append_assoc _ _ _

theorem errnoOf_listed (r : Word) : Listed (errnoOf r) ↔ -34 ≤ r.toInt := by
  unfold errnoOf
  cases sign : r.slt 0 with
  | false =>
      have nonneg : ¬ r.toInt < 0 := fun lt => by
        rw [BitVec.slt_iff_toInt_lt.mpr lt] at sign
        cases sign
      exact iff_of_true (show Listed 0 by decide) (by omega)
  | true =>
      have negative : r.toInt < 0 := BitVec.slt_iff_toInt_lt.mp sign
      rw [if_pos rfl, Listed]
      by_cases least : r = BitVec.intMin 64
      · subst least
        decide
      · rw [BitVec.toInt_neg_of_ne_intMin least]
        omega

/-- `perror` reports the error at its entry exactly when it has no prefix, or its second
write leaves the range test as it was: for a listed error the write must not fail with an
error above 34, and for another one it must. -/
theorem perror_reports_iff (pfx : Option CString) :
    Reports ret pfx t ↔
      pfx = none ∨ (Listed t.errno ↔ -34 ≤ (ret (t.written.length + 1)).toInt) := by
  rw [reports_iff_headed]
  cases pfx with
  | none => exact iff_of_true Iff.rfl (.inl rfl)
  | some s =>
      have some_ne : some s ≠ none := Option.some_ne_none s
      rw [or_iff_right some_ne, ← errnoOf_listed]
      exact iff_comm

end

namespace Demo

/-- What the writes of `f`, the colon, a message of seven bytes and the newline return. -/
def wholeWrites : Nat → Word
  | 0 => 1
  | 1 => 2
  | 2 => 7
  | _ => 1

/-- `perror` with an error that has no message, and a prefix that is written. -/
theorem unlisted_notReports : ¬ Reports wholeWrites (some ⟨[0x66#8], by decide⟩) ⟨110, []⟩ := by
  rintro ⟨t', done, -⟩
  have outside : perror wholeWrites (some ⟨[0x66#8], by decide⟩) ⟨110, []⟩ = none := rfl
  rw [outside] at done
  cases done

end Demo

end Libmini
