import AdvancedUnix.Sdb.Sweep

/-!
# Disassembly before and after the start

With nothing running `disasm` reads the file of the program, through the first section
header whose range holds the address; in a program that was just started it reads the
memory of the process. `KernelMaps` is what the kernel makes of the file: the contents of
each loadable segment are mapped at its addresses. What else the pages of a segment show
is left to `source`, which gives the place in the file that an address is mapped from.

The two agree where the header is that of an allocated section with contents in the file,
and where the 64 bytes that are read do not run into a part of the file that is not mapped
there. The search looks at neither the type nor the flags of a header, and the reading at
no size.
-/

namespace Elf

open Memory

abbrev PT_LOAD : Word := 1
abbrev SHT_NOBITS : Word := 8
abbrev SHF_ALLOC : Word := 2

/-- An allocated section with contents in the file. -/
def Shdr.Loaded (s : Shdr) : Prop := s.type ≠ SHT_NOBITS ∧ s.flags &&& SHF_ALLOC ≠ 0

/-- An address that the contents of a loadable segment are mapped at. -/
def Phdr.Maps (p : Phdr) (x : Addr) : Prop :=
  p.type = PT_LOAD ∧ (x - p.vaddr).toNat < p.filesz.toNat

/-- The place in the file that a segment gives an address. -/
def Phdr.place (p : Phdr) (x : Addr) : Nat := p.offset.toNat + (x - p.vaddr).toNat

/-- The contents of a segment go on in the file as in the memory. -/
theorem Phdr.Maps.add {p : Phdr} {x : Addr} {k : Nat} (h : p.Maps x)
    (room : (x - p.vaddr).toNat + k < p.filesz.toNat) :
    p.Maps (x + (k : Addr)) ∧ p.place (x + (k : Addr)) = p.place x + k := by
  have bound := p.filesz.isLt
  have small : ((k : Addr)).toNat = k := Nat.mod_eq_of_lt (by omega)
  have along : (x + (k : Addr) - p.vaddr).toNat = (x - p.vaddr).toNat + k := by
    rw [add_sub_right_comm, BitVec.toNat_add, small]
    exact Nat.mod_eq_of_lt (by omega)
  refine ⟨⟨h.1, ?_⟩, ?_⟩
  · rwa [along]
  · rw [place, place, along, Nat.add_assoc]

end Elf

namespace Sdb

open Memory Traced

variable {K : Type}

/-- A program that is started is mapped at the addresses of its headers. -/
structure KernelMaps (eh : Elf.Handle) (data : List Byte) (mem : Mem)
    (source : Addr → Option Nat) : Prop where
  segment : ∀ p ∈ eh.phdr.getD [], ∀ x, p.Maps x → source x = some (p.place x)
  shows : ∀ x o, source x = some o → o < data.length → mem x = data[o]?
  /-- The headers of the allocated sections agree with the program headers. -/
  sections : ∀ s ∈ eh.shdr.getD [], s.Loaded → ∀ x, s.addr ≤ x → x < s.addr + s.size →
    ∃ p ∈ eh.phdr.getD [], p.Maps x ∧ p.place x = (place s x).toNat

/-- A loaded program that is not running and has no breakpoint, its file as `env` reads
it, and the image from which `start` starts it. -/
structure Unstarted (env start : Env K) (w : World K) (eh : Elf.Handle) (data : List Byte)
    (image : Image K) : Prop where
  idle : ¬ w.sdb.isRunning
  loaded : w.sdb.isLoaded
  handle : w.sdb.eh = some eh
  unused : ∀ i, ¬ (w.sdb.breaks i).isUsed
  read : env.read w.sdb.path = some data
  size : data.length < 2 ^ 63
  fork : start.fork.isSome
  exec : start.exec = some image
  waits : start.waits .exec

/-- The position from which an offset is read: `fseek` rejects a negative one. -/
def readPlace (offset : Word) : Nat := if offset.toInt < 0 then 0 else offset.toNat

/-- What the file gives for an address is what the started program has there. -/
structure StaticAgrees (env : Env K) (w v : World K) (eh : Elf.Handle)
    (source : Addr → Option Nat) (a : Addr) : Prop where
  agree : ∀ bytes live : List Byte, windowBytes env w a = some bytes →
    windowBytes env v a = some live → ∀ (k : Nat) (b c : Byte), bytes[k]? = some b →
      live[k]? = some c → b = c
  occupied : ∀ s, sectionOf (eh.shdr.getD []) a = some s → s.Loaded
  mapped : ∀ (s : Elf.Shdr) (bytes : List Byte), sectionOf (eh.shdr.getD []) a = some s →
    windowBytes env w a = some bytes →
      ∀ k < bytes.length, source (a + (k : Addr)) = some (readPlace (place s a) + k)

/-- The header that an address is found by is that of an allocated section with contents in
the file, at an offset that `fseek` accepts, and behind the contents of its segment the
file goes on as far as it is read only where it is mapped too. -/
structure Resolved (eh : Elf.Handle) (data : List Byte) (source : Addr → Option Nat) (a : Addr)
    (s : Elf.Shdr) : Prop where
  loaded : s.Loaded
  seekable : data ≠ [] → 0 ≤ (place s a).toInt
  slack : ∀ p ∈ eh.phdr.getD [], p.Maps a → p.place a = (place s a).toNat →
    ∀ k : Nat, k < 64 → (place s a).toNat + k < data.length →
      p.filesz.toNat ≤ (a - p.vaddr).toNat + k →
        source (a + (k : Addr)) = some ((place s a).toNat + k)

section Started

variable {H : Host K} {env start : Env K} {w : World K} {eh : Elf.Handle} {data : List Byte}
  {image : Image K} {source : Addr → Option Nat} {a : Addr} {s : Elf.Shdr}

/-- A program with no breakpoint is started as its image, and nothing is patched. -/
theorem Unstarted.started (h : Unstarted env start w eh data image) :
    (sdbStart H start w).world.sdb.isRunning ∧
      (sdbStart H start w).world.tracee = some image.load ∧
      ∀ i, ¬ ((sdbStart H start w).world.sdb.breaks i).isUsed := by
  obtain ⟨pid, fork⟩ := Option.isSome_iff_exists.mp h.fork
  have launch : launch start w =
      ((w.setPid pid).setChild (.live .stopped image.load), .ok 0x057f) := by
    simp only [launch, fork, h.exec, h.waits, Option.isSome_some, if_true, World.collect,
      World.current_setChild, World.setChild_setChild]
  have delivered : launched start w =
      some ((w.setPid pid).setChild (.live .stopped image.load)) := by
    rw [launched, launch]
  have running := launched_running delivered
  have unused : ∀ i, ¬ (((w.setPid pid).setChild
      (.live .stopped image.load)).sdb.breaks i).isUsed := h.unused
  have started : (sdbStart H start w).world =
      (w.setPid pid).setChild (.live .stopped image.load) := by
    rw [sdbStart, if_neg (not_not.mpr h.loaded), launch]
    simp only [pass_unused unused]
  rw [started]
  exact ⟨running, by rw [World.tracee, World.current_setChild], unused⟩

/-- What the started program shows at an address is what its image has there. -/
theorem Unstarted.served (h : Unstarted env start w eh data image) (x : Addr) :
    Served env (sdbStart H start w).world image.cpu.mem x := by
  obtain ⟨running, tracee, unused⟩ := h.started (H := H)
  exact served_live running tracee unused env x

theorem length_readFile (data : List Byte) (offset : Word) (size : Nat) :
    (readFile data offset size).length = min size (data.length - readPlace offset) := by
  rw [readFile, List.length_take, List.length_drop, readPlace]

theorem getElem?_readFile {data : List Byte} {offset : Word} {size k : Nat} (h : k < size) :
    (readFile data offset size)[k]? = data[readPlace offset + k]? := by
  rw [readFile, List.getElem?_take_of_lt h, List.getElem?_drop, readPlace]

/-- The bytes that the file gives for an address with a section. -/
theorem Unstarted.windowBytes_of_section (h : Unstarted env start w eh data image)
    (found : sectionOf (eh.shdr.getD []) a = some s) :
    windowBytes env w a = some (readFile data (place s a) 64) := by
  have table : ¬ (eh.shdr = none ∧ eh.shnum ≠ 0) := by
    rintro ⟨null, -⟩
    rw [null] at found
    cases found
  rw [windowBytes, if_neg h.idle, fileBytes, h.handle, Option.bind_some, if_neg table,
    fileOffset_eq, found, h.read]
  rfl

/-- An address without a section is not accepted. -/
theorem Unstarted.section_of_windowBytes (h : Unstarted env start w eh data image)
    {bytes : List Byte} (read : windowBytes env w a = some bytes) :
    ∃ s, sectionOf (eh.shdr.getD []) a = some s := by
  rw [windowBytes, if_neg h.idle, fileBytes, h.handle, Option.bind_some, fileOffset_eq] at read
  split at read
  · cases read
  · cases found : sectionOf (eh.shdr.getD []) a with
    | none =>
        rw [found] at read
        cases read
    | some s => exact ⟨s, rfl⟩

theorem sectionOf_mem (found : sectionOf (eh.shdr.getD []) a = some s) :
    s ∈ eh.shdr.getD [] ∧ s.addr ≤ a ∧ a < s.addr + s.size := by
  have range := List.find?_some found
  exact ⟨List.mem_of_find?_eq_some found, of_decide_eq_true range⟩

/-- A loaded section is mapped from its own place in the file. -/
theorem KernelMaps.source_section (maps : KernelMaps eh data image.cpu.mem source)
    (found : sectionOf (eh.shdr.getD []) a = some s) (loaded : s.Loaded) :
    ∃ p ∈ eh.phdr.getD [], p.Maps a ∧ p.place a = (place s a).toNat ∧
      source a = some (place s a).toNat := by
  obtain ⟨member, low, high⟩ := sectionOf_mem found
  obtain ⟨p, hp, at_, same⟩ := maps.sections s member loaded a low high
  refine ⟨p, hp, at_, same, ?_⟩
  rw [maps.segment p hp a at_, same]

/-- At an offset that is negative the first byte of the file is not what is mapped. -/
theorem seekable_of_mapped (size : data.length < 2 ^ 63) (nonempty : data ≠ [])
    (own : source a = some (place s a).toNat)
    (mapped : ∀ k < (readFile data (place s a) 64).length,
      source (a + (k : Addr)) = some (readPlace (place s a) + k)) :
    0 ≤ (place s a).toInt := by
  by_contra negative
  have zero : readPlace (place s a) = 0 := if_pos (not_le.mp negative)
  have pos : 0 < data.length := List.length_pos_iff.mpr nonempty
  have first := mapped 0 (by rw [length_readFile, zero]; omega)
  rw [Nat.cast_zero, add_zero, own, zero] at first
  have large := mt (toInt_nonneg_iff (place s a)).mpr negative
  have null := Option.some.inj first
  omega

/-- The bytes that are read are mapped from where they are read. -/
theorem Resolved.mapped (h : Resolved eh data source a s)
    (maps : KernelMaps eh data image.cpu.mem source)
    (found : sectionOf (eh.shdr.getD []) a = some s) {k : Nat}
    (hk : k < (readFile data (place s a) 64).length) :
    source (a + (k : Addr)) = some (readPlace (place s a) + k) := by
  rw [length_readFile] at hk
  have nonempty : data ≠ [] := by
    rintro rfl
    simp at hk
  have nonneg : readPlace (place s a) = (place s a).toNat :=
    if_neg (not_lt.mpr (h.seekable nonempty))
  rw [nonneg] at hk ⊢
  obtain ⟨p, hp, at_, same, -⟩ := maps.source_section found h.loaded
  by_cases room : (a - p.vaddr).toNat + k < p.filesz.toNat
  · obtain ⟨along, next⟩ := at_.add room
    rw [maps.segment p hp _ along, next, same]
  · exact h.slack p hp at_ same k (by omega) (by omega) (by omega)

/-- Before and after the start `disasm` shows the same bytes of a program, and only bytes of
the section that is there, exactly when the header that it finds is `Resolved`. -/
theorem static_agrees_iff (h : Unstarted env start w eh data image)
    (maps : KernelMaps eh data image.cpu.mem source) (a : Addr) :
    StaticAgrees env w (sdbStart H start w).world eh source a ↔
      ∀ s, sectionOf (eh.shdr.getD []) a = some s → Resolved eh data source a s := by
  constructor
  · intro static s found
    have mapped := static.mapped s _ found (h.windowBytes_of_section found)
    have loaded := static.occupied s found
    obtain ⟨-, -, -, -, own⟩ := maps.source_section found loaded
    have seekable := fun nonempty => seekable_of_mapped h.size nonempty own mapped
    refine ⟨loaded, seekable, fun p _ _ _ k hk inside _ => ?_⟩
    have nonempty : data ≠ [] := by
      rintro rfl
      exact absurd inside (Nat.not_lt_zero _)
    have nonneg : readPlace (place s a) = (place s a).toNat :=
      if_neg (not_lt.mpr (seekable nonempty))
    have here := mapped k (by rw [length_readFile, nonneg]; omega)
    rwa [nonneg] at here
  · intro resolved
    refine ⟨fun bytes live read shown k b c hb hc => ?_, fun s found => (resolved s found).loaded,
      fun s bytes found read k hk => ?_⟩
    · obtain ⟨s, found⟩ := h.section_of_windowBytes read
      rw [h.windowBytes_of_section found] at read
      cases read
      obtain ⟨hk, -⟩ := List.getElem?_eq_some_iff.mp hb
      have own := (resolved s found).mapped maps found hk
      rw [length_readFile] at hk
      rw [getElem?_readFile (by omega)] at hb
      -- the memory of the process has the byte of the file at this address
      have mem := maps.shows _ _ own (by omega)
      obtain ⟨hl, at_⟩ := List.getElem?_eq_some_iff.mp hc
      have held := Decoding.holds_iff.mp (h.served (H := H) a live shown) k hl
      rw [mem, hb] at held
      rw [Option.some.inj held]
      exact at_
    · rw [h.windowBytes_of_section found] at read
      cases read
      exact (resolved s found).mapped maps found hk


end Started

namespace Fragment

/-- Sixteen `nop`s, and the names of the sections behind them. -/
def contents : List Byte :=
  List.replicate 16 0x90 ++ [0x00, 0x2e, 0x74, 0x65, 0x78, 0x74, 0x00]

/-- A fixed-address program with one segment, whose last section has the names. -/
def segmentFile (segment : Elf.Phdr) (sections : List Elf.Shdr) : Elf.File where
  ident := fun i => if i = 4 then 2 else 0
  ehdr := some ⟨2, 1, sections.length + 1, sections.length, 0x400000⟩
  phdrs := some fun _ => segment
  scns := (List.range' 1 sections.length).zip (sections.map some)
  bytes := contents

/-- What the debugger holds after this program was loaded. -/
def handleOf (segment : Elf.Phdr) (sections : List Elf.Shdr) : Elf.Handle where
  filename := "/bin/prog".toList
  elf := segmentFile segment sections
  clazz := 2
  phnum := 1
  shnum := sections.length + 1
  shstrndx := sections.length
  entrypoint := 0x400000
  type := 2
  phdr := some [segment]
  shdr := some (⟨0, 0, 0, 0, 0, 0, 0, 0, 0, 0⟩ :: sections)
  strtab := [⟨sections.length, 7, [0x00, 0x2e, 0x74, 0x65, 0x78, 0x74, 0x00]⟩]
  sym := none
  dsym := none

/-- Surroundings in which the only file is this one, and a start is from this image. -/
def fileEnv (file : Elf.File) (image : Image Maps) : Env Maps :=
  { env ⟨7, seven_pos⟩ image 64 with
    read := fun _ => some file.bytes
    elf := ⟨fun _ => some file, fun _ => true, fun _ => true,
      fun _ => ⟨0, 0, 0, 0, 0, 0, 0, 0, 0, 0⟩, true⟩ }

/-- The debugger after this file was loaded. -/
def opened (file : Elf.File) : World Maps :=
  (session host fresh [.command (.load "/bin/prog".toList) (fileEnv file nops)]).world

/-- `.text`, which is at the start of the file. -/
def textSection : Elf.Shdr := ⟨1, 1, 6, 0x400000, 0, 16, 0, 0, 16, 0⟩

/-- The names of the sections, behind it. -/
def namesSection : Elf.Shdr := ⟨0, Elf.SHT_STRTAB, 0, 0, 16, 7, 0, 0, 1, 0⟩

/-- `.bss`, which is behind `.text` in the memory and has no contents. -/
def bssSection : Elf.Shdr := ⟨0, Elf.SHT_NOBITS, 3, 0x400010, 16, 16, 0, 0, 16, 0⟩

/-- A segment with these many bytes of the file and of the memory. -/
def segment (filesz memsz : Word) : Elf.Phdr := ⟨1, 0, 0x400000, 0x400000, filesz, memsz, 5, 0x1000⟩

/-- Where an address of such a segment is in the file. -/
def mappedFrom (filesz : Word) (x : Addr) : Option Nat :=
  if (x - 0x400000).toNat < filesz.toNat then some (x - 0x400000).toNat else none

theorem place_segment (filesz memsz : Word) (x : Addr) :
    (segment filesz memsz).place x = (x - 0x400000).toNat := Nat.zero_add _

theorem place_textSection (x : Addr) : place textSection x = x - 0x400000 :=
  congrArg (fun y => y - 0x400000) (BitVec.zero_add x)

/-- The kernel maps the contents of the segment, and `.text` is the only section there. -/
theorem kernelMaps {filesz memsz : Word} {sections : List Elf.Shdr} {code : List Byte}
    (room : 16 ≤ filesz.toNat)
    (same : ∀ o < filesz.toNat, o < contents.length → code[o]? = contents[o]?)
    (only : ∀ s ∈ sections, s.Loaded → s = textSection) :
    KernelMaps (handleOf (segment filesz memsz) sections) contents
      (image someMaps 0x400000 code).cpu.mem (mappedFrom filesz) where
  segment p hp x maps := by
    cases List.mem_singleton.mp hp
    exact (if_pos maps.2).trans (congrArg some (place_segment filesz memsz x).symm)
  shows x o at_ inside := by
    rw [mappedFrom] at at_
    split at at_
    · rename_i within
      cases at_
      exact same _ within inside
    · cases at_
  sections s hs loaded x low high := by
    have text : s = textSection := by
      rcases List.mem_cons.mp hs with rfl | hs
      · exact absurd rfl loaded.2
      · exact only s hs loaded
    subst text
    have within : (x - 0x400000).toNat < 16 := by
      simp only [textSection] at low high
      bv_omega
    refine ⟨_, List.mem_singleton.mpr rfl, ⟨rfl, Nat.lt_of_lt_of_le within room⟩, ?_⟩
    rw [place_segment, place_textSection]

def wholeSections : List Elf.Shdr := [textSection, namesSection]

def wholeFile : Elf.File := segmentFile (segment 23 23) wholeSections

/-- A program whose file is mapped as a whole. -/
def whole : Image Maps := image someMaps 0x400000 contents

theorem whole_unstarted :
    Unstarted (fileEnv wholeFile whole) (fileEnv wholeFile whole) (opened wholeFile)
      (handleOf (segment 23 23) wholeSections) contents whole :=
  ⟨by decide, rfl, rfl, by decide, rfl, by decide, rfl, rfl, rfl⟩

theorem namesSection_notLoaded : ¬ namesSection.Loaded := fun loaded => loaded.2 rfl

theorem bssSection_notLoaded : ¬ bssSection.Loaded := fun loaded => loaded.1 rfl

/-- The start of this program is shown alike before and after the start. -/
theorem whole_agrees :
    StaticAgrees (fileEnv wholeFile whole) (opened wholeFile)
      (sdbStart host (fileEnv wholeFile whole) (opened wholeFile)).world
      (handleOf (segment 23 23) wholeSections) (mappedFrom 23) 0x400000 := by
  have maps : KernelMaps (handleOf (segment 23 23) wholeSections) contents whole.cpu.mem
      (mappedFrom 23) := by
    refine kernelMaps (by decide) (fun _ _ _ => rfl) fun s hs loaded => ?_
    rcases List.mem_cons.mp hs with rfl | hs
    · rfl
    · cases List.mem_singleton.mp hs
      exact absurd loaded namesSection_notLoaded
  refine (static_agrees_iff (H := host) whole_unstarted maps 0x400000).mpr fun s found => ?_
  have text : s = textSection := (Option.some.inj found).symm
  subst text
  refine ⟨⟨by decide, by decide⟩, fun _ => by decide, fun p hp maps' same k _ inside beyond => ?_⟩
  cases List.mem_singleton.mp hp
  -- the segment ends with the file
  simp [segment, place, textSection, contents] at inside beyond
  omega

def bssSections : List Elf.Shdr := [textSection, bssSection, namesSection]

def bssFile : Elf.File := segmentFile (segment 16 32) bssSections

/-- Behind the contents of the segment the memory is cleared. -/
def cleared : Image Maps :=
  image someMaps 0x400000 (List.replicate 16 0x90 ++ List.replicate 16 0x00)

theorem cleared_unstarted :
    Unstarted (fileEnv bssFile cleared) (fileEnv bssFile cleared) (opened bssFile)
      (handleOf (segment 16 32) bssSections) contents cleared :=
  ⟨by decide, rfl, rfl, by decide, rfl, by decide, rfl, rfl, rfl⟩

/-- In `.bss`, which has no contents, the file shows the names of the sections. -/
theorem cleared_notAgree :
    KernelMaps (handleOf (segment 16 32) bssSections) contents cleared.cpu.mem (mappedFrom 16) ∧
      ¬ StaticAgrees (fileEnv bssFile cleared) (opened bssFile)
        (sdbStart host (fileEnv bssFile cleared) (opened bssFile)).world
        (handleOf (segment 16 32) bssSections) (mappedFrom 16) 0x400010 := by
  constructor
  · refine kernelMaps (by decide) (by decide) fun s hs loaded => ?_
    rcases List.mem_cons.mp hs with rfl | hs
    · rfl
    · rcases List.mem_cons.mp hs with rfl | hs
      · exact absurd loaded bssSection_notLoaded
      · cases List.mem_singleton.mp hs
        exact absurd loaded namesSection_notLoaded
  · intro static
    have read : windowBytes (fileEnv bssFile cleared) (opened bssFile) 0x400010 =
        some [0x00, 0x2e, 0x74, 0x65, 0x78, 0x74, 0x00] := rfl
    have shown : windowBytes (fileEnv bssFile cleared)
        (sdbStart host (fileEnv bssFile cleared) (opened bssFile)).world 0x400010 =
          some (List.replicate 16 0x00) := rfl
    have dot := static.agree _ _ read shown 1 0x2e 0x00 rfl rfl
    exact absurd dot (by decide)

end Fragment

end Sdb
