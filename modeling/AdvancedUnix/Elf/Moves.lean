import AdvancedUnix.Elf.Opening
import AdvancedUnix.Resources.Ledger

/-!
# What is acquired and released for a handle

The functions of `elftool.c` acquire a descriptor, a handle of libelf and blocks of memory,
and release them on their error exits and when the handle is closed. Each of them is given
here the moves that it makes, next to the definition of what it computes.

Two kinds of blocks are never released. A symbol table is freed without the array of its
symbols, and where the loop over the string tables gives up, the node that it was filling is
not in the list yet that it frees.
-/

namespace Elf

open Memory Resources

/-- What belongs to one handle. -/
inductive Resource where
  | descriptor
  | libelf
  | block (site : Site)

/-- The first call on a file that fails, where the file is not shown. -/
inductive Refusal where
  | open
  | begin
  | getident

section Moves

variable (env : Env)

def elfOpenMoves (refusal : Refusal) (filename : List Char) : List (Move Resource) :=
  match env.file filename with
  | none =>
    match refusal with
    | .open => []
    | .begin => [.acquire .descriptor, .release .descriptor]
    | .getident =>
      [.acquire .descriptor, .acquire .libelf, .release .libelf, .release .descriptor]
  | some file =>
    .acquire .descriptor :: .acquire .libelf ::
      if ¬ env.malloc .handle then [.release .libelf, .release .descriptor]
      else .acquire (.block .handle) ::
        if file.ident 4 = 0x01 ∨ file.ident 4 = 0x02 then []
        else [.release .libelf, .release .descriptor, .release (.block .handle)]

def elfLoadPhdrMoves (e : Handle) : List (Move Resource) :=
  if e.phdr.isSome then []
  else if e.phnum = 0 ∨ ¬ e.knownClass ∨ ¬ env.malloc .phdr then []
  else [.acquire (.block .phdr)]

def elfLoadShdrMoves (e : Handle) : List (Move Resource) :=
  if e.shdr.isSome then []
  else if e.shnum = 0 ∨ ¬ e.knownClass ∨ ¬ env.malloc .shdr then []
  else [.acquire (.block .shdr)]

/-- The blocks of a list of string tables, in the order in which they are freed. -/
def blocksOf (strtab : List Strtab) : List Resource :=
  strtab.flatMap fun tab => [.block (.strtabData tab.id), .block (.strtabNode tab.id)]

def elfFreeStrtabMoves (strtab : List Strtab) : List (Move Resource) :=
  (blocksOf strtab).map .release

/-- The loop over the section headers from index `i` on. -/
def loadStrtabsMoves (e : Handle) : Nat → List Shdr → List Strtab → List (Move Resource)
  | _, [], _ => []
  | i, s :: shdr, strtab =>
    if s.type ≠ SHT_STRTAB then loadStrtabsMoves e (i + 1) shdr strtab
    else if ¬ env.malloc (.strtabNode i) then elfFreeStrtabMoves strtab
    else .acquire (.block (.strtabNode i)) ::
      if ¬ env.malloc (.strtabData i) then elfFreeStrtabMoves strtab
      else .acquire (.block (.strtabData i)) ::
        match preadAll env (.strtabData i) e s.size s.offset with
        | none => elfFreeStrtabMoves strtab
        | some data =>
          loadStrtabsMoves e (i + 1) shdr
            ({ id := i, datasize := s.size.setWidth 32, data := data } :: strtab)

def elfLoadStrtabMoves (e : Handle) : List (Move Resource) :=
  if e.strtab ≠ [] then []
  else
    elfLoadShdrMoves env e ++
      match elfLoadShdr env e with
      | .ok (e, true) => loadStrtabsMoves env e 0 (e.shdr.getD []) []
      | _ => []

/-- A table whose string table is not found, whose array is not allocated or whose symbols
cannot be read is freed, without the array. -/
def elfLoadSymtabInternalMoves (e : Handle) (shdr : Shdr) : List (Move Resource) :=
  elfLoadStrtabMoves env e ++
    match elfLoadStrtab env e with
    | .ok (e, true) =>
      if ¬ env.malloc (.symtab shdr.type) then []
      else .acquire (.block (.symtab shdr.type)) ::
        if ¬ e.knownClass then []
        else if (e.strtab.find? fun tab => shdr.link = BitVec.ofNat 64 tab.id).isNone ∧
            env.freshStrtabNull then
          [.release (.block (.symtab shdr.type))]
        else if ¬ env.malloc (.symbol shdr.type) then [.release (.block (.symtab shdr.type))]
        else .acquire (.block (.symbol shdr.type)) ::
          match preadAll env (.symbol shdr.type) e shdr.size shdr.offset with
          | none => [.release (.block (.symtab shdr.type))]
          | some _ => []
    | _ => []

/-- `elf_load_symtab` and `elf_load_dsymtab`. -/
def SymbolTable.loadMoves (e : Handle) (t : SymbolTable) : List (Move Resource) :=
  if (t.get e).isSome then []
  else
    elfLoadShdrMoves env e ++
      match elfLoadShdr env e with
      | .ok (e, true) =>
        match firstOfType e t.type with
        | some shdr => elfLoadSymtabInternalMoves env e shdr
        | none => []
      | _ => []

/-- The tables of a handle that are freed, in this order. -/
def Handle.tables (e : Handle) : List Resource :=
  (if e.dsym.isSome then [.block (.symtab SHT_DYNSYM)] else []) ++
    (if e.sym.isSome then [.block (.symtab SHT_SYMTAB)] else []) ++ blocksOf e.strtab ++
      (if e.shdr.isSome then [.block .shdr] else []) ++
        if e.phdr.isSome then [.block .phdr] else []

def Handle.releaseTablesMoves (e : Handle) : List (Move Resource) := e.tables.map .release

def elfLoadAllMoves (e : Handle) : List (Move Resource) :=
  elfLoadPhdrMoves env e ++
    match elfLoadPhdr env e with
    | .error _ => []
    | .ok (e, false) => e.releaseTablesMoves
    | .ok (e, true) =>
      elfLoadShdrMoves env e ++
        match elfLoadShdr env e with
        | .error _ => []
        | .ok (e, false) => e.releaseTablesMoves
        | .ok (e, true) =>
          elfLoadStrtabMoves env e ++
            match elfLoadStrtab env e with
            | .error _ => []
            | .ok (e, false) => e.releaseTablesMoves
            | .ok (e, true) =>
              SymbolTable.loadMoves env e .symtab ++
                match elfLoadSymtab env e with
                | .error _ => []
                | .ok (e, _) => SymbolTable.loadMoves env e .dsymtab

def elfCloseMoves (e : Handle) : List (Move Resource) :=
  e.releaseTablesMoves ++
    [.release .libelf, .release .descriptor, .release (.block .handle)]

end Moves

/-- What the fields of a handle lead to, and the handle itself. The arrays of symbols are not
among it. -/
def Handle.Owns (e : Handle) : Resource → Prop
  | .descriptor => True
  | .libelf => True
  | .block .handle => True
  | .block .phdr => e.phdr.isSome
  | .block .shdr => e.shdr.isSome
  | .block (.strtabNode i) => i ∈ e.strtab.map Strtab.id
  | .block (.strtabData i) => i ∈ e.strtab.map Strtab.id
  | .block (.symtab type) =>
    type = SHT_SYMTAB ∧ e.sym.isSome ∨ type = SHT_DYNSYM ∧ e.dsym.isSome
  | .block (.symbol _) => False

def Handle.owned (e : Handle) : Set Resource := {x | e.Owns x}

/-- The array of a symbol table. -/
def Resource.IsArray (x : Resource) : Prop := ∃ type, x = .block (.symbol type)

/-- A node of the list of string tables, or its data. -/
def Resource.IsStrtab (x : Resource) : Prop :=
  ∃ i, x = .block (.strtabNode i) ∨ x = .block (.strtabData i)

/-- The blocks for the string table that the loop gives up at. -/
def strandedFrom (env : Env) (e : Handle) : Nat → List Shdr → List Resource
  | _, [] => []
  | i, s :: shdr =>
    if s.type ≠ SHT_STRTAB then strandedFrom env e (i + 1) shdr
    else if ¬ env.malloc (.strtabNode i) then []
    else if ¬ env.malloc (.strtabData i) then [.block (.strtabNode i)]
    else if (preadAll env (.strtabData i) e s.size s.offset).isSome then
      strandedFrom env e (i + 1) shdr
    else [.block (.strtabNode i), .block (.strtabData i)]

/-- What `elf_load_strtab` strands. -/
def elfLoadStrtabStranded (env : Env) (e : Handle) : Set Resource :=
  match elfLoadShdr env e with
  | .ok (e, true) => {x | x ∈ strandedFrom env e 0 (e.shdr.getD [])}
  | _ => ∅

/-- What `elf_load_all` strands on a handle that was opened. -/
def elfLoadAllStranded (env : Env) (e : Handle) : Set Resource :=
  match elfLoadPhdr env e with
  | .ok (e, true) => elfLoadStrtabStranded env e
  | _ => ∅

/-- The blocks that no call releases any more. -/
def elfLoadAllLost (env : Env) (e : Handle) : Set Resource :=
  {x | x ∈ acquired (elfLoadAllMoves env e) ∧ x.IsArray} ∪ elfLoadAllStranded env e

section Owned

variable {e : Handle} {x : Resource}

theorem mem_blocksOf {strtab : List Strtab} :
    x ∈ blocksOf strtab ↔ ∃ i ∈ strtab.map Strtab.id,
      x = .block (.strtabData i) ∨ x = .block (.strtabNode i) := by
  simp [blocksOf]

/-- A list of at most one resource. -/
theorem mem_optional {c : Prop} [Decidable c] {y : Resource} :
    x ∈ (if c then [y] else []) ↔ c ∧ x = y := by
  split <;> simp [*]

theorem nodup_optional (c : Prop) [Decidable c] (y : Resource) :
    (if c then [y] else []).Nodup := by
  split <;> simp

theorem mem_tables : x ∈ e.tables ↔
    e.Owns x ∧ x ≠ .descriptor ∧ x ≠ .libelf ∧ x ≠ .block .handle := by
  simp only [Handle.tables, List.mem_append, mem_optional, mem_blocksOf]
  cases x with
  | descriptor => simp
  | libelf => simp
  | block site => cases site <;> simp [Handle.Owns]; tauto

theorem nodup_blocksOf {strtab : List Strtab} (different : (strtab.map Strtab.id).Nodup) :
    (blocksOf strtab).Nodup := by
  induction strtab with
  | nil => exact List.nodup_nil
  | cons tab strtab ih =>
      obtain ⟨new, different⟩ := List.nodup_cons.mp different
      have data : .block (.strtabData tab.id) ∉ blocksOf strtab := by
        simpa [mem_blocksOf] using new
      have node : .block (.strtabNode tab.id) ∉ blocksOf strtab := by
        simpa [mem_blocksOf] using new
      show (Resource.block (.strtabData tab.id) :: .block (.strtabNode tab.id) ::
        blocksOf strtab).Nodup
      refine List.nodup_cons.mpr ⟨?_, List.nodup_cons.mpr ⟨node, ih different⟩⟩
      rw [List.mem_cons, not_or]
      refine ⟨?_, data⟩
      intro same
      cases same

/-- Nothing is freed twice if the string tables are different ones. -/
theorem nodup_tables (different : (e.strtab.map Strtab.id).Nodup) : e.tables.Nodup := by
  have blocks := nodup_blocksOf different
  simp only [Handle.tables, List.nodup_append, List.mem_append, mem_optional, mem_blocksOf,
    nodup_optional, blocks, true_and]
  refine ⟨⟨⟨?_, ?_⟩, ?_⟩, ?_⟩
  · rintro a ⟨-, rfl⟩ b ⟨-, rfl⟩ same
    exact absurd (Site.symtab.inj (Resource.block.inj same)) (by decide)
  · rintro a (⟨-, rfl⟩ | ⟨-, rfl⟩) b ⟨i, -, rfl | rfl⟩ same <;> cases same
  · rintro a ((⟨-, rfl⟩ | ⟨-, rfl⟩) | ⟨i, -, rfl | rfl⟩) b ⟨-, rfl⟩ same <;> cases same
  · rintro a (((⟨-, rfl⟩ | ⟨-, rfl⟩) | ⟨i, -, rfl | rfl⟩) | ⟨-, rfl⟩) b ⟨-, rfl⟩ same <;>
      cases same

end Owned

end Elf
