import AdvancedUnix.Memory.Word

/-!
# Reading numbers and the lines of a memory map

The parts of the C library that the debugger's parsers rest on, over strings
without their terminator, and the loop of `convert_dynamic_addr` over the lines
of `/proc/<pid>/maps`.
-/

namespace Sdb

open Memory

def isSpace (c : Char) : Bool := c = ' ' || ('\t' ≤ c && c ≤ '\r')

def hexDigit (c : Char) : Option Nat :=
  if '0' ≤ c && c ≤ '9' then some (c.toNat - '0'.toNat)
  else if 'a' ≤ c && c ≤ 'f' then some (c.toNat - 'a'.toNat + 10)
  else if 'A' ≤ c && c ≤ 'F' then some (c.toNat - 'A'.toNat + 10)
  else none

/-- The longest run of hexadecimal digits at the front. -/
def hexDigits : List Char → List Nat
  | [] => []
  | c :: s =>
    match hexDigit c with
    | none => []
    | some d => d :: hexDigits s

/-- `sscanf(s, "%llx", ..)`: blanks, a sign, an optional `0x` and digits. A
value beyond the range is read as the largest one. -/
def scanLlx (s : List Char) : Option Addr :=
  let s := s.dropWhile isSpace
  let (neg, s) :=
    match s with
    | '-' :: r => (true, r)
    | '+' :: r => (false, r)
    | _ => (false, s)
  let s :=
    match s with
    | '0' :: 'x' :: r => r
    | '0' :: 'X' :: r => r
    | _ => s
  let digits := hexDigits s
  if digits = [] then none
  else
    let value := digits.foldl (fun v d => 16 * v + d) 0
    if 2 ^ 64 ≤ value then some (-1)
    else if neg then some (-BitVec.ofNat 64 value)
    else some (BitVec.ofNat 64 value)

/-- The operand of `break`, `disasm` and `dump`: two characters are skipped when
the second one is an `x`. With an empty operand that character is the first one
after the terminator, and `tail` is what the buffer still holds there. -/
def hexOperand (s tail : List Char) : Option Addr :=
  match s with
  | [] =>
    match tail with
    | 'x' :: r => scanLlx r
    | _ => scanLlx []
  | _ :: 'x' :: r => scanLlx r
  | _ => scanLlx s

/-- The tokens that `strtok` finds with blanks and newlines as delimiters. -/
def tokens (line : List Char) : List (List Char) :=
  (line.splitOnP fun c => c = ' ' || c = '\n').filter (· ≠ [])

/-- The last component of a path, without trailing slashes. -/
def basename (path : List Char) : List Char :=
  match path.reverse.dropWhile (· = '/') with
  | [] => if path = [] then ['.'] else ['/']
  | r => (r.takeWhile (· ≠ '/')).reverse

/-- The first address of the range at the front of a line of the map. -/
def lineBegin (line : List Char) : Option Addr :=
  match tokens line with
  | [] => none
  | range :: _ => scanLlx (range.takeWhile (· ≠ '-'))

/-- The line maps the program at `path` executable: its permissions start with
`r-x` and its sixth token names a file of the same base name. -/
def isExeLine (path line : List Char) : Bool :=
  ((tokens line)[1]?.map (·.take 3) = some ['r', '-', 'x']) &&
    ((tokens line)[5]?.map basename = some (basename path))

/-- The loop over the lines: the base is overwritten by every line until the
first one that maps the program executable. -/
def mapsBase (path : List Char) : List (List Char) → Option Addr → Option Addr
  | [], base => base
  | line :: lines, base =>
    let base := if tokens line = [] then base else lineBegin line
    if isExeLine path line then base else mapsBase path lines base

/-- A memory map as the kernel prints it for a live process: at least one line,
each with a range at its front. -/
def Listed (lines : List (List Char)) : Prop :=
  lines ≠ [] ∧ ∀ line ∈ lines, (lineBegin line).isSome

instance (lines : List (List Char)) : Decidable (Listed lines) :=
  inferInstanceAs (Decidable (lines ≠ [] ∧ ∀ line ∈ lines, (lineBegin line).isSome))

theorem mapsBase_isSome (path : List Char) {lines : List (List Char)} (base : Option Addr)
    (h : ∀ line ∈ lines, (lineBegin line).isSome) (hb : lines ≠ [] ∨ base.isSome) :
    (mapsBase path lines base).isSome := by
  induction lines generalizing base with
  | nil => exact hb.resolve_left (· rfl)
  | cons line lines ih =>
      have hline := h line List.mem_cons_self
      have hnext : (if tokens line = [] then base else lineBegin line).isSome := by
        split
        · rename_i hempty
          simp [lineBegin, hempty] at hline
        · exact hline
      unfold mapsBase
      simp only
      split
      · exact hnext
      · exact ih _ (fun l hl => h l (List.mem_cons_of_mem _ hl)) (.inr hnext)

end Sdb
