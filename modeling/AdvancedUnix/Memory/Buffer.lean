import Mathlib.Data.List.TakeWhile
import AdvancedUnix.Memory.Word

/-!
# Character arrays and the strings in them

A C string is a list of bytes without a null; a character array has a fixed size
and any bytes. What a function of the library does with an array is given by the
bytes that it writes, and it is `none` when these do not fit, or when a string is
read from an array that holds no terminator.

`Text` says that a string and its terminator start an array.
-/

namespace Memory

/-- A string without its terminator. -/
structure CString where
  bytes : List Byte
  terminated : 0#8 ∉ bytes
  deriving DecidableEq

namespace CString

def length (s : CString) : Nat := s.bytes.length

theorem ext {s t : CString} (h : s.bytes = t.bytes) : s = t := by
  cases s
  cases t
  cases h
  rfl

def empty : CString := ⟨[], by simp⟩

def append (s t : CString) : CString :=
  ⟨s.bytes ++ t.bytes, by simp [s.terminated, t.terminated]⟩

def take (s : CString) (n : Nat) : CString :=
  ⟨s.bytes.take n, fun h => s.terminated (List.mem_of_mem_take h)⟩

def drop (s : CString) (n : Nat) : CString :=
  ⟨s.bytes.drop n, fun h => s.terminated (List.mem_of_mem_drop h)⟩

@[simp] theorem append_bytes (s t : CString) : (s.append t).bytes = s.bytes ++ t.bytes := rfl
@[simp] theorem take_bytes (s : CString) (n : Nat) : (s.take n).bytes = s.bytes.take n := rfl
@[simp] theorem drop_bytes (s : CString) (n : Nat) : (s.drop n).bytes = s.bytes.drop n := rfl

end CString

/-- A character array. -/
structure Buffer (size : Nat) where
  bytes : List Byte
  length_eq : bytes.length = size

namespace Buffer

variable {size : Nat}

/-- An array of static storage before it is written. -/
def zero (size : Nat) : Buffer size := ⟨List.replicate size 0#8, List.length_replicate⟩

/-- Write bytes from an index on. -/
def write (b : Buffer size) (i : Nat) (s : List Byte) : Option (Buffer size) :=
  if h : i + s.length ≤ size then
    some
      { bytes := b.bytes.take i ++ s ++ b.bytes.drop (i + s.length)
        length_eq := by simp [b.length_eq]; omega }
  else none

/-- Write a byte at an index that may be negative. -/
def set (b : Buffer size) (i : Int) (c : Byte) : Option (Buffer size) :=
  if 0 ≤ i then b.write i.toNat [c] else none

/-- Read the string at the start of an array. -/
def text (b : Buffer size) : Option CString :=
  if 0#8 ∈ b.bytes then some ⟨b.bytes.takeWhile (· ≠ 0#8), fun h => by
    simpa using List.mem_takeWhile_imp h⟩
  else none

/-- Copy at most `n` bytes of a string, and fill up with nulls. -/
def strncpy (b : Buffer size) (s : CString) (n : Nat) : Option (Buffer size) :=
  b.write 0 (s.bytes.take n ++ List.replicate (n - s.length) 0#8)

/-- Print a text and its terminator into an array. -/
def sprint (b : Buffer size) (s : CString) : Option (Buffer size) := b.write 0 (s.bytes ++ [0#8])

/-- Print a text into an array, cut to fit its terminator. -/
def snprint (b : Buffer size) (s : CString) : Option (Buffer size) :=
  b.write 0 ((s.take (size - 1)).bytes ++ [0#8])

/-- A string and its terminator start the array. -/
def Text (b : Buffer size) (s : CString) : Prop := ∃ rest, b.bytes = s.bytes ++ 0#8 :: rest

theorem text_of_Text {b : Buffer size} {s : CString} (h : b.Text s) : b.text = some s := by
  obtain ⟨rest, bytes⟩ := h
  have found : 0#8 ∈ b.bytes := by simp [bytes]
  have prefix_ : b.bytes.takeWhile (· ≠ 0#8) = s.bytes := by
    rw [bytes, List.takeWhile_append_of_pos]
    · simp
    · intro c hc
      have : c ≠ 0#8 := fun h => s.terminated (h ▸ hc)
      simpa using this
  rw [text, if_pos found]
  exact congrArg some (CString.ext prefix_)

theorem write_bytes {b : Buffer size} {s : List Byte} (fits : s.length ≤ size) :
    ∃ b', b.write 0 s = some b' ∧ b'.bytes = s ++ b.bytes.drop s.length := by
  have h : 0 + s.length ≤ size := by omega
  exact ⟨_, dif_pos h, by simp⟩

theorem write_none {b : Buffer size} {s : List Byte} (long : size < s.length) :
    b.write 0 s = none :=
  dif_neg (by omega)

/-- A string that is written without its terminator ends where one is set. -/
theorem set_text {b : Buffer size} {s : CString} (fits : s.length < size) :
    ∃ b' b'', b.write 0 s.bytes = some b' ∧ b'.set s.length 0 = some b'' ∧ b''.text = some s := by
  have len : s.bytes.length < size := fits
  obtain ⟨b', written, bytes⟩ := write_bytes (b := b) (Nat.le_of_lt len)
  have room : s.length + [0#8].length ≤ size := fits
  have start : b'.bytes.take s.length = s.bytes := by
    rw [bytes]
    exact List.take_left
  refine ⟨b', _, written, (if_pos (Int.natCast_nonneg s.length)).trans (dif_pos room), ?_⟩
  apply text_of_Text
  refine ⟨b'.bytes.drop (s.length + 1), ?_⟩
  change b'.bytes.take s.length ++ [0#8] ++ b'.bytes.drop (s.length + 1) = _
  rw [start, List.append_assoc]
  rfl

/-- A string is printed when there is room for its terminator too. -/
theorem sprint_text {b : Buffer size} {s : CString} (fits : s.length < size) :
    ∃ b', b.sprint s = some b' ∧ b'.text = some s := by
  have len : (s.bytes ++ [0#8]).length ≤ size := by
    simpa [CString.length, Nat.succ_le_iff] using fits
  obtain ⟨b', written, bytes⟩ := write_bytes (b := b) len
  exact ⟨b', written, text_of_Text ⟨_, bytes.trans (List.append_assoc _ _ _)⟩⟩

theorem sprint_none {b : Buffer size} {s : CString} (long : size ≤ s.length) :
    b.sprint s = none := by
  apply write_none
  rw [List.length_append]
  exact Nat.lt_succ_of_le long

/-- A string that fits is printed whole. -/
theorem snprint_text {b : Buffer size} {s : CString} (fits : s.length < size) :
    ∃ b', b.snprint s = some b' ∧ b'.text = some s := by
  have whole : (s.take (size - 1)).bytes = s.bytes :=
    List.take_of_length_le (by simp only [CString.length] at fits; omega)
  have same : b.snprint s = b.sprint s := by rw [snprint, whole, sprint]
  rw [same]
  exact sprint_text fits

end Buffer

end Memory
