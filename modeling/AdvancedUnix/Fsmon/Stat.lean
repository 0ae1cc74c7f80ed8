import AdvancedUnix.Fsmon.Wrappers
import AdvancedUnix.Memory.Buffer
import AdvancedUnix.Text.Decimal

/-!
# The text for a file's status

`__xstat` and `__lxstat` show the type, the mode and the size of the structure that they are
given, whether the function of the library has filled it or not. The text is put together
with `sprintf` in two static arrays, one for the name of the type and one for all of it.

Beside the name there is room for forty-two characters less its own. Modes and sizes that no
file has can take more than that: it depends on the type how much more.
-/

namespace Fsmon

open Memory Text X86

/-- A literal of the source. -/
def literal (s : String) (terminated : 0#8 ∉ s.toList.map fun c => BitVec.ofNat 8 c.toNat) :
    CString := ⟨_, terminated⟩

/-- What `%d` and `%ld` print. -/
def printed (v : Int) : CString where
  bytes := (signed v).map fun c => BitVec.ofNat 8 c.toNat
  terminated h := by
    obtain ⟨c, mem, null⟩ := List.mem_map.mp h
    have value := congrArg BitVec.toNat null
    obtain rfl | digit := signed_chars mem
    · cases value
    · have range := Char.isDigit_iff_toNat.mp digit
      have zero : '0'.toNat = 48 := rfl
      have nine : '9'.toNat = 57 := rfl
      rw [BitVec.toNat_ofNat] at value
      change c.toNat % 256 = 0 at value
      omega

/-- The fields of `struct stat` that are shown. -/
structure Stat where
  mode : BitVec 32
  size : BitVec 64

abbrev S_IFMT : BitVec 32 := 0xf000
abbrev S_IFBLK : BitVec 32 := 0x6000
abbrev S_IFCHR : BitVec 32 := 0x2000
abbrev S_IFDIR : BitVec 32 := 0x4000
abbrev S_IFIFO : BitVec 32 := 0x1000
abbrev S_IFLNK : BitVec 32 := 0xa000
abbrev S_IFREG : BitVec 32 := 0x8000
abbrev S_IFSOCK : BitVec 32 := 0xc000

/-- The name of the type that the mode has. -/
def typeName (mode : BitVec 32) : CString :=
  if mode &&& S_IFMT = S_IFBLK then literal "block device" (by decide)
  else if mode &&& S_IFMT = S_IFCHR then literal "character device" (by decide)
  else if mode &&& S_IFMT = S_IFDIR then literal "directory" (by decide)
  else if mode &&& S_IFMT = S_IFIFO then literal "FIFO/pipe" (by decide)
  else if mode &&& S_IFMT = S_IFLNK then literal "symlink" (by decide)
  else if mode &&& S_IFMT = S_IFREG then literal "regular file" (by decide)
  else if mode &&& S_IFMT = S_IFSOCK then literal "socket" (by decide)
  else literal "unknown" (by decide)

/-- `"{type=%s, mode=%d, size=%ld}"`. -/
def statText (type : CString) (mode : BitVec 32) (size : BitVec 64) : CString :=
  ((((((literal "\x7btype=" (by decide)).append type).append
    (literal ", mode=" (by decide))).append (printed mode.toInt)).append
    (literal ", size=" (by decide))).append (printed size.toInt)).append
    (literal "\x7d" (by decide))

/-- The static arrays. -/
structure StatArrays where
  buff : Buffer 64
  type : Buffer 32

/-- The text that is returned, and the arrays. A byte outside them is not written. -/
def getVerboseStat (s : Stat) (a : StatArrays) : Option (CString × StatArrays) :=
  (a.type.sprint (typeName s.mode)).bind fun type =>
    type.text.bind fun name =>
      (a.buff.sprint (statText name s.mode s.size)).bind fun buff =>
        buff.text.map fun text => (text, ⟨buff, type⟩)

/-- The structures of the program by their addresses, and the arrays. -/
structure StatWorld where
  stats : Word → Stat
  arrays : StatArrays

/-- The call of the library: what it stores, where it stores anything. A call that fails
leaves a structure with the bytes that it had. -/
def StatWorld.call (w : StatWorld) (stored : Word → Option Stat) : StatWorld :=
  { w with stats := fun a => (stored a).getD (w.stats a) }

/-- The parameter that a message shows the status of. -/
def Message.stat? (m : Message) : Option Nat :=
  m.shown.findSome? fun
    | .verboseStat i => some i
    | _ => none

/-- A step of a function of the monitor, behind the texts that it has shown. -/
def StatWorld.step (p : Nat → Word) (stored : Word → Option Stat) :
    List CString × StatWorld → Step → Option (List CString × StatWorld)
  | (texts, w), .keep _ _ => some (texts, w)
  | (texts, w), .call => some (texts, w.call stored)
  | (texts, w), .log m =>
      match m.stat? with
      | none => some (texts, w)
      | some i => (getVerboseStat (w.stats (p i)) w.arrays).map fun r =>
          (texts ++ [r.1], { w with arrays := r.2 })

/-- The texts that a call shows, given its parameters, what the library stores and its
result. -/
def StatWorld.shown (w : StatWorld) (f : Fn) (p : Nat → Word) (stored : Word → Option Stat)
    (ret : Word) : Option (List CString) :=
  ((f.wrapper.steps ret).foldlM (StatWorld.step p stored) ([], w)).map Prod.fst

/-- The text for a structure. -/
def Stat.verbose (s : Stat) : CString := statText (typeName s.mode) s.mode s.size

/-- The name of the type and the text fit their arrays with their terminators. -/
structure Stat.Fits (s : Stat) : Prop where
  type : (typeName s.mode).length < 32
  text : s.verbose.length < 64

/-- The mode and the size are not too long for the type. -/
structure Stat.Short (s : Stat) : Prop where
  file : s.mode &&& S_IFMT = S_IFBLK ∨ s.mode &&& S_IFMT = S_IFREG →
    -(10 ^ 9) < s.mode.toInt ∨ -(10 ^ 18) < s.size.toInt
  device : s.mode &&& S_IFMT = S_IFCHR →
    ∃ k, 0 < k ∧ k < 26 ∧ Within k s.mode.toInt ∧ Within (26 - k) s.size.toInt

section

variable {s : Stat} {a : StatArrays}

/-- How long the name of a type is, as far as it matters. -/
theorem typeName_length (mode : BitVec 32) :
    mode &&& S_IFMT = S_IFCHR ∧ (typeName mode).length = 16 ∨
      (mode &&& S_IFMT = S_IFBLK ∨ mode &&& S_IFMT = S_IFREG) ∧ (typeName mode).length = 12 ∨
      mode &&& S_IFMT ≠ S_IFCHR ∧ ¬ (mode &&& S_IFMT = S_IFBLK ∨ mode &&& S_IFMT = S_IFREG) ∧
        (typeName mode).length ≤ 9 := by
  unfold typeName
  generalize mode &&& S_IFMT = kind
  by_cases device : kind = S_IFCHR
  · subst device
    exact .inl ⟨rfl, rfl⟩
  · by_cases file : kind = S_IFBLK ∨ kind = S_IFREG
    · obtain rfl | rfl := file
      · exact .inr (.inl ⟨.inl rfl, rfl⟩)
      · exact .inr (.inl ⟨.inr rfl, rfl⟩)
    · obtain ⟨block, regular⟩ := not_or.mp file
      refine .inr (.inr ⟨device, file, ?_⟩)
      rw [if_neg block, if_neg device, if_neg regular]
      repeat' split
      all_goals decide

theorem printed_length (v : Int) : (printed v).length = (signed v).length := List.length_map _

theorem verbose_length (s : Stat) : s.verbose.length = 21 + (typeName s.mode).length +
    (signed s.mode.toInt).length + (signed s.size.toInt).length := by
  have first := printed_length s.mode.toInt
  have second := printed_length s.size.toInt
  simp only [CString.length] at first second
  simp only [Stat.verbose, statText, CString.length, CString.append_bytes, List.length_append,
    first, second, literal, List.length_map]
  have : "\x7btype=".toList.length = 6 := rfl
  have : ", mode=".toList.length = 7 := rfl
  have : ", size=".toList.length = 7 := rfl
  have : "\x7d".toList.length = 1 := rfl
  omega

/-- The widths of a mode and of a size. -/
theorem width_bounds (s : Stat) :
    (signed s.mode.toInt).length ≤ 11 ∧ (signed s.size.toInt).length ≤ 20 ∧
      ((signed s.mode.toInt).length ≤ 10 ↔ -(10 ^ 9) < s.mode.toInt) ∧
      ((signed s.size.toInt).length ≤ 19 ↔ -(10 ^ 18) < s.size.toInt) := by
  have lowMode := s.mode.le_toInt
  have highMode := s.mode.toInt_lt
  have lowSize := s.size.le_toInt
  have highSize := s.size.toInt_lt
  rw [signed_length_le_iff (by decide), signed_length_le_iff (by decide),
    signed_length_le_iff (by decide), signed_length_le_iff (by decide)]
  unfold Within
  omega

/-- The text fits exactly when mode and size are not too long for the type. -/
theorem fits_iff_short : s.Fits ↔ s.Short := by
  obtain ⟨mode, size, shortMode, shortSize⟩ := width_bounds s
  have type := typeName_length s.mode
  have length := verbose_length s
  have room : s.Fits ↔ (typeName s.mode).length + (signed s.mode.toInt).length +
      (signed s.size.toInt).length ≤ 42 := by
    constructor
    · rintro ⟨-, text⟩
      omega
    · intro room
      exact ⟨by omega, by omega⟩
  rw [room]
  obtain ⟨device, name⟩ | ⟨file, name⟩ | ⟨device, file, name⟩ := type
  · have sum := @signed_length_add_le_iff s.mode.toInt s.size.toInt 26
    constructor
    · intro room
      refine ⟨fun file => ?_, fun _ => sum.mp (by omega)⟩
      exact absurd file (by rw [device]; decide)
    · intro short
      have := sum.mpr (short.device device)
      omega
  · constructor
    · intro room
      refine ⟨fun _ => ?_, fun device => ?_⟩
      · rw [← shortMode, ← shortSize]
        omega
      · exact absurd file (by rw [device]; decide)
    · intro short
      have one := short.file file
      rw [← shortMode, ← shortSize] at one
      omega
  · exact iff_of_true (by omega)
      ⟨fun other => absurd other file, fun other => absurd other device⟩

/-- A mode of sixteen bits, as every file has one, is never too long. -/
theorem short_of_mode (h : s.mode.toNat < 2 ^ 16) : s.Short := by
  have mode : s.mode.toInt = s.mode.toNat := BitVec.toInt_eq_toNat_of_lt (by omega)
  have lowSize := s.size.le_toInt
  have highSize := s.size.toInt_lt
  refine ⟨fun _ => .inl (by omega), fun _ => ⟨6, by decide, by decide, ?_, ?_⟩⟩
  · rw [mode]
    exact ⟨by omega, by omega⟩
  · exact ⟨by omega, by omega⟩

/-- The text is returned when it fits, and otherwise a byte outside the arrays is written. -/
theorem getVerboseStat_cases (s : Stat) (a : StatArrays) :
    s.Fits ∧ (∃ a', getVerboseStat s a = some (s.verbose, a')) ∨
      ¬ s.Fits ∧ getVerboseStat s a = none := by
  have short : (typeName s.mode).length < 32 := by
    have := typeName_length s.mode
    omega
  obtain ⟨type, first, name⟩ := Buffer.sprint_text (b := a.type) short
  have rest : getVerboseStat s a = (a.buff.sprint s.verbose).bind fun buff =>
      buff.text.map fun text => (text, ⟨buff, type⟩) := by
    simp only [getVerboseStat, first, name, Option.bind_some, Stat.verbose]
  rw [rest]
  by_cases fits : s.verbose.length < 64
  · obtain ⟨buff, second, text⟩ := Buffer.sprint_text (b := a.buff) fits
    refine .inl ⟨⟨short, fits⟩, ⟨buff, type⟩, ?_⟩
    rw [second, Option.bind_some, text, Option.map_some]
  · refine .inr ⟨fun both => fits both.text, ?_⟩
    rw [Buffer.sprint_none (not_lt.mp fits), Option.bind_none]

end

/-- A call shows the text of the structure as it is after the call of the library, and the
arrays have room for it. -/
structure StatWorld.Renders (w : StatWorld) (f : Fn) (p : Nat → Word)
    (stored : Word → Option Stat) (ret : Word) : Prop where
  fits : ((w.call stored).stats (p 2)).Fits
  shown : w.shown f p stored ret = some [((w.call stored).stats (p 2)).verbose]

section

variable {w : StatWorld} {f : Fn} {p : Nat → Word} {stored : Word → Option Stat} {ret : Word}

/-- The structure is shown after the call, whatever the result is. -/
theorem steps_stat (stat : f = .xstat ∨ f = .lxstat) (ret : Word) :
    ∃ m, f.wrapper.steps ret = [.call, .log m] ∧ m.stat? = some 2 := by
  obtain rfl | rfl := stat
  · exact ⟨_, rfl, rfl⟩
  · exact ⟨_, rfl, rfl⟩

theorem shown_eq (stat : f = .xstat ∨ f = .lxstat) : w.shown f p stored ret =
    (getVerboseStat ((w.call stored).stats (p 2)) w.arrays).map fun r => [r.1] := by
  obtain ⟨m, steps, param⟩ := steps_stat stat ret
  have log : StatWorld.step p stored ([], w.call stored) (.log m) =
      (getVerboseStat ((w.call stored).stats (p 2)) w.arrays).map fun r =>
        ([r.1], { w.call stored with arrays := r.2 }) := by
    rw [StatWorld.step, param]
    rfl
  have run : (f.wrapper.steps ret).foldlM (StatWorld.step p stored) ([], w) =
      StatWorld.step p stored ([], w.call stored) (.log m) := by
    simp only [steps, List.foldlM_cons, List.foldlM_nil, bind_pure]
    rfl
  rw [StatWorld.shown, run, log, Option.map_map]
  rfl

/-- Each call of the two functions stays inside the arrays exactly when the structure that it
is left with is short. -/
theorem stat_renders_iff (stat : f = .xstat ∨ f = .lxstat) :
    w.Renders f p stored ret ↔ ((w.call stored).stats (p 2)).Short := by
  rw [← fits_iff_short]
  constructor
  · exact fun renders => renders.fits
  · intro fits
    refine ⟨fits, ?_⟩
    obtain ⟨-, arrays, text⟩ | ⟨long, -⟩ :=
      getVerboseStat_cases ((w.call stored).stats (p 2)) w.arrays
    · rw [shown_eq stat, text, Option.map_some]
    · exact absurd fits long

end

namespace Demo

/-- A program that has these bytes in its structures. -/
def statWorld (s : Stat) : StatWorld := ⟨fun _ => s, .zero 64, .zero 32⟩

/-- The status of a file of 4096 bytes, which is stored by the call. -/
theorem file_renders : (statWorld ⟨0, 0⟩).Renders .xstat (fun _ => 0)
    (fun _ => some ⟨0x81a4, 4096⟩) 0 :=
  (stat_renders_iff (.inl rfl)).mpr (short_of_mode (by decide))

/-- A call that fails, and a structure that is full of quotation marks: they are the mode of
a character device and a size of nineteen digits. -/
theorem failed_notRenders : ¬ (statWorld ⟨0x22222222, 0x2222222222222222⟩).Renders .xstat
    (fun _ => 0) (fun _ => none) (-1) := by
  intro renders
  have text := renders.fits.text
  have mode : ¬ (signed (0x22222222#32).toInt).length ≤ 8 := by
    rw [signed_length_le_iff (by decide)]
    decide
  have size : ¬ (signed (0x2222222222222222#64).toInt).length ≤ 18 := by
    rw [signed_length_le_iff (by decide)]
    decide
  have type : (typeName 0x22222222).length = 16 := rfl
  rw [verbose_length] at text
  change 21 + (typeName 0x22222222).length + (signed (0x22222222#32).toInt).length +
    (signed (0x2222222222222222#64).toInt).length < 64 at text
  omega

end Demo

end Fsmon
