import AdvancedUnix.Memory.Word

/-!
# The tables of an ELF handle

These are the structures of `elftool.h` with the fields the debugger reads,
and the view of a file that libelf gives to the code that fills them.

A pointer to a table is `none` (or the empty list, for the linked list of
string tables) where the C pointer is null. What the allocator, the file system
and fresh memory decide is an `Env`, one for each call of the outermost
function; each place that allocates or reads has its own entry there.
-/

namespace Elf

open Memory

abbrev ELFCLASS32 : Nat := 1
abbrev ELFCLASS64 : Nat := 2

abbrev SHT_SYMTAB : Word := 2
abbrev SHT_STRTAB : Word := 3
abbrev SHT_DYNSYM : Word := 11

/-- `elf_phdr_t`. A 32-bit file's fields are zero-extended. -/
structure Phdr where
  (type offset vaddr paddr filesz memsz flags align : Word)

/-- `elf_shdr_t`. A 32-bit file's fields are zero-extended. -/
structure Shdr where
  (name type flags addr offset size link info addralign entsize : Word)

/-- One node of the list of string tables, `elf_strtab_t`. -/
structure Strtab where
  id : Nat
  datasize : BitVec 32
  data : List Byte

/-- `elf_symbol_t`. -/
structure Symbol where
  name : BitVec 32
  info : Byte
  other : Byte
  shndx : BitVec 32
  value : Word
  size : Word
  bind : Byte
  type : Byte
  visibility : Byte

/-- The string table a symbol table points to: a node of the handle's list, or
whatever the fresh memory held. -/
inductive StrtabLink where
  | node (id : Nat)
  | wild

/-- `elf_symtab_t`. -/
structure Symtab where
  count : BitVec 32
  strtab : StrtabLink
  symbol : List Symbol

/-- The fields of the file header that `elf_open` copies. -/
structure Ehdr where
  type : Nat
  phnum : Nat
  shnum : Nat
  shstrndx : Nat
  entry : Word

/-- A file as libelf and `pread` show it. Header lookups may give a null
pointer; `scns` lists the sections in the order of `elf_nextscn`, each with the
index that `elf_ndxscn` gives for it. -/
structure File where
  ident : Nat → Byte
  ehdr : Option Ehdr
  phdrs : Option (Nat → Phdr)
  scns : List (Nat × Option Shdr)
  bytes : List Byte

/-- The places in `elftool.c` that allocate memory or read the file. -/
inductive Site where
  | handle
  | phdr
  | shdr
  | strtabNode (i : Nat)
  | strtabData (i : Nat)
  | symtab (type : Word)
  | symbol (type : Word)

/-- What the surroundings decide during one call. -/
structure Env where
  /-- `open`, `elf_begin` and `elf_getident` succeed and give this file. -/
  file : List Char → Option File
  malloc : Site → Bool
  pread : Site → Bool
  /-- What a fresh array of section headers holds. -/
  freshShdr : Nat → Shdr
  /-- Whether the string table pointer of a fresh symbol table is null. -/
  freshStrtabNull : Bool

/-- A null pointer that libelf returned is dereferenced, or a negative number of symbols
puts the raw table in front of its buffer. -/
inductive Fault where
  | nullEhdr
  | nullPhdr
  | nullShdr
  | symbolUnderrun
  deriving DecidableEq

/-- `elf_handle_t`, with the name of the file it was opened from. -/
structure Handle where
  filename : List Char
  elf : File
  clazz : Nat
  phnum : Nat
  shnum : Nat
  shstrndx : Nat
  entrypoint : Word
  type : Nat
  phdr : Option (List Phdr)
  shdr : Option (List Shdr)
  strtab : List Strtab
  sym : Option Symtab
  dsym : Option Symtab

end Elf
