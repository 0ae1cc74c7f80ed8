import AdvancedUnix.Sdb.CommandLine
import AdvancedUnix.Sdb.Fragment

/-!
# Addresses of position-independent programs

A line of `/proc/<pid>/maps` shows a range of addresses, what may be done with it,
and the file that it was mapped from with the place in it. The kernel tells files
apart by their device and inode.

The debugger takes the first line with the permissions `r-x` whose sixth word has
the base name of the program, and the last line when there is none, and adds the
address to the beginning of the range. The load bias is that beginning less the
page of the segment's virtual address, which the offset on the line would give.
-/

namespace Sdb

open Memory Text

/-- A file as the kernel identifies it. -/
structure FileId where
  major : Nat
  minor : Nat
  inode : BitVec 64
  deriving DecidableEq

/-- What the kernel shows of a range of addresses. An anonymous one has inode 0; the
text behind the inode is a path or whatever else the kernel calls the range, with its
newlines escaped. -/
structure Mapping where
  first : Addr
  last : Addr
  read : Bool
  write : Bool
  exec : Bool
  shared : Bool
  offset : Memory.Word
  file : FileId
  name : List Char
  name_line : '\n' ∉ name

def lowHex (width n : Nat) : List Char := padded '0' width (numeral lowerDigit 16 n)

namespace Mapping

variable (m : Mapping)

def range : List Char := lowHex 8 m.first.toNat ++ '-' :: lowHex 8 m.last.toNat

def perms : List Char :=
  [if m.read then 'r' else '-', if m.write then 'w' else '-', if m.exec then 'x' else '-',
    if m.shared then 's' else 'p']

def device : List Char := lowHex 2 m.file.major ++ ':' :: lowHex 2 m.file.minor

def inode : List Char := numeral lowerDigit 10 m.file.inode.toNat

/-- The columns up to the name, each with a blank behind it. -/
def columns : List Char :=
  m.range ++ ' ' :: (m.perms ++ ' ' :: (lowHex 8 m.offset.toNat ++ ' ' :: (m.device ++ ' ' ::
    (m.inode ++ [' ']))))

/-- The line of the file. A name starts behind column 73. -/
def line : List Char :=
  if m.name = [] then m.columns ++ ['\n']
  else m.columns ++ (List.replicate (72 - m.columns.length) ' ' ++ ' ' :: (m.name ++ ['\n']))

end Mapping

/-- A segment of the program, from its header. -/
structure Segment where
  offset : Memory.Word
  vaddr : Addr

/-- The beginning of a page. -/
def pageStart (a : Memory.Word) : Memory.Word := a &&& 0xfffffffffffff000

/-- An executable mapping of a file. -/
def Mapping.Runs (exe : FileId) (m : Mapping) : Prop := m.file = exe ∧ m.exec = true

/-- A mapping in which a segment of the file begins. -/
def Mapping.Holds (exe : FileId) (seg : Segment) (m : Mapping) : Prop :=
  m.Runs exe ∧ m.offset = pageStart seg.offset

/-- The address is the one that the kernel has mapped the file address at, or is based on
no mapping if no code of the program is mapped. -/
structure Translated (maps : List Mapping) (exe : FileId) (seg : Segment) (addr a : Addr) :
    Prop where
  biased : ∀ m ∈ maps, m.Holds exe seg → a = m.first - pageStart seg.vaddr + addr
  unmapped : (∀ m ∈ maps, ¬ m.Runs exe) → ∀ m ∈ maps, a ≠ m.first + addr

/-- The permissions and the name that the debugger looks for. -/
def Mapping.Accepted (path : List Char) (m : Mapping) : Prop :=
  m.read = true ∧ m.write = false ∧ m.exec = true ∧
    ∃ word, (tokens m.name)[0]? = some word ∧ basename word = basename path

/-- The first mapping that is accepted, or the last one if none is. -/
def Selected (path : List Char) (maps : List Mapping) (m : Mapping) : Prop :=
  ∃ before after, maps = before ++ m :: after ∧ (∀ k ∈ before, ¬ k.Accepted path) ∧
    (m.Accepted path ∨ after = [])

/-- The selected mapping begins at the load bias of the segment, and code of the program
is mapped if anything is. -/
structure Biased (path : List Char) (maps : List Mapping) (exe : FileId) (seg : Segment) :
    Prop where
  bias : ∀ m ∈ maps, m.Holds exe seg →
    ∃ k, Selected path maps k ∧ k.first + pageStart seg.vaddr = m.first
  runs : maps = [] ∨ ∃ m ∈ maps, m.Runs exe

theorem tokens_append {c : Char} (delim : (decide (c = ' ') || decide (c = '\n')) = true)
    (s t : List Char) : tokens (s ++ c :: t) = tokens s ++ tokens t := by
  unfold tokens
  rw [List.splitOnP_append_cons s t delim, List.filter_append]

theorem tokens_blank (s t : List Char) : tokens (s ++ ' ' :: t) = tokens s ++ tokens t :=
  tokens_append rfl s t

theorem tokens_blanks (n : Nat) (s : List Char) :
    tokens (List.replicate n ' ' ++ s) = tokens s := by
  induction n with
  | zero => rfl
  | succ n ih => exact (tokens_blank [] _).trans ih

/-- Behind the last word of a line there is nothing but its end. -/
theorem tokens_feed (s : List Char) : tokens (s ++ ['\n']) = tokens s := by
  rw [tokens_append rfl]
  exact List.append_nil _

/-- A text without blanks is one word. -/
theorem tokens_solid {s : List Char} (nonempty : s ≠ []) (solid : ∀ c ∈ s, isSpace c = false) :
    tokens s = [s] := by
  unfold tokens
  rw [List.splitOnP_eq_singleton]
  · simp [nonempty]
  · intro c mem
    have plain := solid c mem
    have blank : c ≠ ' ' := by
      rintro rfl
      cases plain
    have feed : c ≠ '\n' := by
      rintro rfl
      cases plain
    simp [blank, feed]

theorem spells_lowHex (width n : Nat) : Spells 16 (lowHex width n) n :=
  (spells_numeral (by decide) digit_lower n).padded (by decide) width

theorem solid_lowHex (width n : Nat) : ∀ c ∈ lowHex width n, isSpace c = false :=
  (spells_lowHex width n).solid

/-- Two columns with a mark between them. -/
theorem solid_join {s t : List Char} {mark : Char} (first : ∀ c ∈ s, isSpace c = false)
    (plain : isSpace mark = false) (second : ∀ c ∈ t, isSpace c = false) :
    ∀ c ∈ s ++ mark :: t, isSpace c = false := by
  intro c mem
  simp only [List.mem_append, List.mem_cons] at mem
  obtain mem | rfl | mem := mem
  · exact first c mem
  · exact plain
  · exact second c mem

namespace Mapping

variable (m : Mapping)

theorem solid_perms : ∀ c ∈ m.perms, isSpace c = false := by
  have chosen : ∀ (b : Bool) (x y : Char), isSpace x = false → isSpace y = false →
      isSpace (if b then x else y) = false := by
    intro b x y hx hy
    cases b with
    | true => exact hx
    | false => exact hy
  intro c mem
  simp only [perms, List.mem_cons, List.not_mem_nil, or_false] at mem
  obtain rfl | rfl | rfl | rfl := mem <;> exact chosen _ _ _ rfl rfl

theorem tokens_columns (rest : List Char) :
    tokens (m.columns ++ rest) =
      [m.range, m.perms, lowHex 8 m.offset.toNat, m.device, m.inode] ++ tokens rest := by
  have range : tokens m.range = [m.range] := by
    refine tokens_solid ?_ (solid_join (solid_lowHex _ _) rfl (solid_lowHex _ _))
    exact List.append_ne_nil_of_left_ne_nil (spells_lowHex _ _).nonempty _
  have perms : tokens m.perms = [m.perms] :=
    tokens_solid (List.cons_ne_nil _ _) m.solid_perms
  have offset := tokens_solid (spells_lowHex 8 m.offset.toNat).nonempty (solid_lowHex _ _)
  have device : tokens m.device = [m.device] := by
    refine tokens_solid ?_ (solid_join (solid_lowHex _ _) rfl (solid_lowHex _ _))
    exact List.append_ne_nil_of_left_ne_nil (spells_lowHex _ _).nonempty _
  have spells := spells_numeral (by decide) digit_decimal m.file.inode.toNat
  have inode : tokens m.inode = [m.inode] := tokens_solid spells.nonempty spells.solid
  have text : m.columns ++ rest = m.range ++ ' ' :: (m.perms ++ ' ' ::
      (lowHex 8 m.offset.toNat ++ ' ' :: (m.device ++ ' ' :: (m.inode ++ ' ' :: rest)))) := by
    simp [columns]
  rw [text, tokens_blank, tokens_blank, tokens_blank, tokens_blank, tokens_blank, range, perms,
    offset, device, inode]
  rfl

theorem tokens_line :
    tokens m.line =
      [m.range, m.perms, lowHex 8 m.offset.toNat, m.device, m.inode] ++ tokens m.name := by
  unfold line
  by_cases none : m.name = []
  · rw [if_pos none, tokens_columns, none]
    rfl
  · rw [if_neg none, tokens_columns, tokens_blanks]
    have name : tokens (' ' :: (m.name ++ ['\n'])) = tokens m.name :=
      (tokens_blank [] _).trans (tokens_feed m.name)
    rw [name]

theorem lineBegin_line : lineBegin m.line = some m.first := by
  have digits : ∀ c ∈ lowHex 8 m.first.toNat, decide (c ≠ '-') = true := by
    intro c mem
    exact decide_eq_true (digit_plain ((spells_lowHex _ _).digit_isSome mem)).2.1
  have front : m.range.takeWhile (· ≠ '-') = lowHex 8 m.first.toNat := by
    unfold range
    rw [List.takeWhile_append_of_pos digits]
    simp
  unfold lineBegin
  rw [tokens_line]
  show scanLlx (m.range.takeWhile (· ≠ '-')) = _
  rw [front]
  exact scanLlx_spells (spells_lowHex 8 m.first.toNat)

/-- The debugger accepts the line exactly when the mapping has what it looks for. -/
theorem isExeLine_line (path : List Char) : isExeLine path m.line = true ↔ m.Accepted path := by
  have perms : m.perms.take 3 = ['r', '-', 'x'] ↔
      m.read = true ∧ m.write = false ∧ m.exec = true := by
    unfold Mapping.perms
    cases m.read <;> cases m.write <;> cases m.exec <;> simp
  unfold isExeLine Accepted
  rw [tokens_line]
  show (decide (some (m.perms.take 3) = some ['r', '-', 'x']) &&
    decide ((tokens m.name)[0]?.map basename = some (basename path))) = true ↔ _
  simp only [Bool.and_eq_true, decide_eq_true_eq, Option.some_inj, perms, Option.map_eq_some_iff,
    and_assoc]

end Mapping

section

variable {path : List Char} {maps : List Mapping} {m : Mapping}

/-- The loop over the lines finds the selected mapping. -/
theorem mapsBase_selected (h : Selected path maps m) (base : Option Addr) :
    mapsBase path (maps.map Mapping.line) base = some m.first := by
  obtain ⟨before, after, rfl, rejected, found⟩ := h
  have begins : ∀ (k : Mapping) (base : Option Addr),
      (if tokens k.line = [] then base else lineBegin k.line) = some k.first := by
    intro k base
    rw [if_neg (by rw [k.tokens_line]; exact List.cons_ne_nil _ _), k.lineBegin_line]
  induction before generalizing base with
  | nil =>
      rw [List.nil_append, List.map_cons, mapsBase]
      simp only [begins]
      by_cases accepted : m.Accepted path
      · rw [if_pos ((m.isExeLine_line path).mpr accepted)]
      · rw [if_neg (mt (m.isExeLine_line path).mp accepted), found.resolve_left accepted]
        rfl
  | cons k before ih =>
      rw [List.cons_append, List.map_cons, mapsBase]
      simp only [begins]
      have other := rejected k List.mem_cons_self
      rw [if_neg (mt (k.isExeLine_line path).mp other)]
      exact ih _ fun j mem => rejected j (List.mem_cons_of_mem k mem)

/-- Some mapping is selected if there is any. -/
theorem exists_selected (path : List Char) (some_line : maps ≠ []) :
    ∃ m ∈ maps, Selected path maps m := by
  induction maps with
  | nil => exact absurd rfl some_line
  | cons m maps ih =>
      by_cases accepted : m.Accepted path
      · exact ⟨m, List.mem_cons_self, [], maps, rfl, (fun _ none => by cases none), .inl accepted⟩
      · by_cases last : maps = []
        · subst last
          exact ⟨m, List.mem_cons_self, [], [], rfl, (fun _ none => by cases none), .inr rfl⟩
        · obtain ⟨k, mem, before, after, rfl, rejected, found⟩ := ih last
          refine ⟨k, List.mem_cons_of_mem m mem, m :: before, after, rfl, ?_, found⟩
          intro j inside
          obtain rfl | inside := List.mem_cons.mp inside
          · exact accepted
          · exact rejected j inside

end

section

variable {K : Type} (H : Host K) (u : Uninit) {w : World K} {maps : List Mapping}

theorem convertDynamicAddr_maps (shown : w.maps H = some (maps.map Mapping.line)) (addr : Addr) :
    convertDynamicAddr H u w addr =
      .ok ((mapsBase w.sdb.path (maps.map Mapping.line) none).getD u.base + addr) := by
  unfold convertDynamicAddr
  rw [shown]

/-- A file address is translated correctly exactly when the selected mapping begins at the
load bias, and nothing is mapped where no code of the program is. -/
theorem translated_iff (shown : w.maps H = some (maps.map Mapping.line)) (exe : FileId)
    (seg : Segment) (addr : Addr) :
    (∃ a, convertDynamicAddr H u w addr = .ok a ∧ Translated maps exe seg addr a) ↔
      Biased w.sdb.path maps exe seg := by
  rw [convertDynamicAddr_maps H u shown]
  by_cases empty : maps = []
  · subst empty
    refine iff_of_true ⟨_, rfl, ?_, ?_⟩ ⟨?_, .inl rfl⟩
    · exact fun m mem => by cases mem
    · exact fun _ m mem => by cases mem
    · exact fun m mem => by cases mem
  · obtain ⟨k, mem, selected⟩ := exists_selected w.sdb.path empty
    rw [mapsBase_selected selected, Option.getD_some]
    constructor
    · rintro ⟨a, ⟨⟩, translated⟩
      refine ⟨fun m inside holds => ⟨k, selected, ?_⟩, .inr ?_⟩
      · have := translated.biased m inside holds
        bv_omega
      · by_contra absent
        exact translated.unmapped (fun j mem runs => absent ⟨j, mem, runs⟩) k mem rfl
    · intro biased
      refine ⟨_, rfl, ?_, ?_⟩
      · intro m inside holds
        obtain ⟨j, same, bias⟩ := biased.bias m inside holds
        have first := (mapsBase_selected selected none).symm.trans (mapsBase_selected same none)
        rw [Option.some.inj first, ← bias]
        bv_omega
      · intro absent
        obtain empty' | ⟨m, inside, runs⟩ := biased.runs
        · exact absurd empty' empty
        · exact absurd runs (absent m inside)

/-- What the kernel shows of a process that has mappings is a memory map. -/
theorem listed_lines (some_line : maps ≠ []) : Listed (maps.map Mapping.line) := by
  refine ⟨?_, ?_⟩
  · simpa using some_line
  · intro line mem
    obtain ⟨m, -, rfl⟩ := List.mem_map.mp mem
    rw [m.lineBegin_line]
    rfl

end

namespace Fragment

/-- The program at `/bin/pie`. -/
def pieFile : FileId := ⟨8, 1, 131⟩

/-- A mapping of the program for reading, and for execution if `exec` is set. -/
def pieMapping (first last : Addr) (exec : Bool) (offset : Memory.Word) : Mapping where
  first := first
  last := last
  read := true
  write := false
  exec := exec
  shared := false
  offset := offset
  file := pieFile
  name := "/bin/pie".toList
  name_line := by simp

/-- The headers and the code in one segment, and the code in a segment of its own. -/
def oneSegment : List Mapping := [pieMapping 0x555555554000 0x555555556000 true 0]

def twoSegments : List Mapping :=
  [pieMapping 0x555555554000 0x555555555000 false 0,
    pieMapping 0x555555555000 0x555555556000 true 0x1000]

/-- The program stopped at its first instruction. -/
def pieWorld (maps : List Mapping) (h : maps ≠ []) : World Maps where
  sdb := ⟨none, 0, none, "/bin/pie".toList, 7, fun _ => ⟨false, 0, 0⟩, 0⟩
  child _ := some (.live .stopped
    (image ⟨maps.map Mapping.line, listed_lines h⟩ 0x555555555000 [0x90]).load)

def pieEnv : Uninit := ⟨noRegs, 0, 0, [], 0, 0, fun _ => 0⟩

theorem oneSegment_biased : Biased "/bin/pie".toList oneSegment pieFile ⟨0, 0⟩ where
  bias m mem _ := by
    obtain rfl := List.mem_singleton.mp mem
    exact ⟨_, ⟨[], [], rfl, (fun _ none => by cases none), .inr rfl⟩, by decide⟩
  runs := .inr ⟨_, List.mem_singleton_self _, rfl, rfl⟩

/-- Where the code is mapped from the beginning of the file it is found. -/
theorem oneSegment_translated :
    ∃ a, convertDynamicAddr host pieEnv (pieWorld oneSegment (List.cons_ne_nil _ _)) 0x1136 =
      .ok a ∧ Translated oneSegment pieFile ⟨0, 0⟩ 0x1136 a :=
  (translated_iff host pieEnv rfl pieFile ⟨0, 0⟩ 0x1136).mpr oneSegment_biased

/-- The code in a segment of its own is looked for a page too high. -/
theorem twoSegments_missed :
    ¬ ∃ a, convertDynamicAddr host pieEnv (pieWorld twoSegments (List.cons_ne_nil _ _)) 0x1136 =
      .ok a ∧ Translated twoSegments pieFile ⟨0x1000, 0x1000⟩ 0x1136 a := by
  have selected : Selected "/bin/pie".toList twoSegments
      (pieMapping 0x555555555000 0x555555556000 true 0x1000) := by
    refine ⟨[_], [], rfl, ?_, .inr rfl⟩
    intro k mem
    obtain rfl := List.mem_singleton.mp mem
    rintro ⟨-, -, exec, -⟩
    cases exec
  have shown : (pieWorld twoSegments (List.cons_ne_nil _ _)).maps host =
      some (twoSegments.map Mapping.line) := rfl
  have path : (pieWorld twoSegments (List.cons_ne_nil _ _)).sdb.path = "/bin/pie".toList := rfl
  rw [convertDynamicAddr_maps host pieEnv shown, path, mapsBase_selected selected,
    Option.getD_some]
  rintro ⟨a, found, translated⟩
  have right := translated.biased _ (List.mem_cons_of_mem _ (List.mem_singleton_self _))
    ⟨⟨rfl, rfl⟩, by decide⟩
  rw [right] at found
  exact absurd (Except.ok.inj found) (by decide)

end Fragment

end Sdb
