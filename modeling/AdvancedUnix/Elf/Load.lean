import AdvancedUnix.Elf.Basic

/-!
# Opening a file and loading its tables

Each loader of `elftool.c` caches its table in the handle and returns the
cached one when it is called again. The loaders below return the handle with
the tables they left in it, and whether the C function returned a table; they
stop with a fault where the C code dereferences a null pointer from libelf.

`elfLoadAll` is the only one that releases tables: its error exit clears
everything that the calls before it left in the handle.
-/

namespace Elf

open Memory

variable (env : Env)

/-- The bytes that `pread` stores, if it delivers all of them. -/
def preadAll (site : Site) (e : Handle) (size offset : Word) : Option (List Byte) :=
  let data := (e.elf.bytes.drop offset.toNat).take size.toNat
  if env.pread site ∧ data.length = size.toNat then some data else none

def elfOpen (filename : List Char) : Except Fault (Option Handle) :=
  match env.file filename with
  | none => .ok none
  | some file =>
    if ¬ env.malloc .handle then .ok none
    else if file.ident 4 = 0x01 ∨ file.ident 4 = 0x02 then
      match file.ehdr with
      | none => .error .nullEhdr
      | some ehdr => .ok <| some
          { filename := filename, elf := file
            clazz := if file.ident 4 = 0x01 then ELFCLASS32 else ELFCLASS64
            phnum := ehdr.phnum, shnum := ehdr.shnum, shstrndx := ehdr.shstrndx
            entrypoint := ehdr.entry, type := ehdr.type
            phdr := none, shdr := none, strtab := [], sym := none, dsym := none }
    else .ok none

/-- The class test that the loaders repeat. -/
def Handle.knownClass (e : Handle) : Bool := e.clazz = ELFCLASS32 || e.clazz = ELFCLASS64

def elfLoadPhdr (e : Handle) : Except Fault (Handle × Bool) :=
  if e.phdr.isSome then .ok (e, true)
  else if e.phnum = 0 ∨ ¬ e.knownClass ∨ ¬ env.malloc .phdr then .ok (e, false)
  else
    match e.elf.phdrs with
    | none => .error .nullPhdr
    | some p => .ok ({ e with phdr := some ((List.range e.phnum).map p) }, true)

/-- The loop over the sections, each stored at its index modulo the header's count. -/
def assignShdr (shnum : Nat) : List (Nat × Option Shdr) → List Shdr → Except Fault (List Shdr)
  | [], shdr => .ok shdr
  | (_, none) :: _, _ => .error .nullShdr
  | (ndx, some s) :: scns, shdr => assignShdr shnum scns (shdr.set (ndx % shnum) s)

def elfLoadShdr (e : Handle) : Except Fault (Handle × Bool) :=
  if e.shdr.isSome then .ok (e, true)
  else if e.shnum = 0 ∨ ¬ e.knownClass ∨ ¬ env.malloc .shdr then .ok (e, false)
  else
    match assignShdr e.shnum e.elf.scns ((List.range e.shnum).map env.freshShdr) with
    | .error f => .error f
    | .ok shdr => .ok ({ e with shdr := some shdr }, true)

/-- The loop over the section headers from index `i` on. `none` is the error
exit, which frees the nodes built so far. -/
def loadStrtabs (e : Handle) : Nat → List Shdr → List Strtab → Option (List Strtab)
  | _, [], strtab => some strtab
  | i, s :: shdr, strtab =>
    if s.type ≠ SHT_STRTAB then loadStrtabs e (i + 1) shdr strtab
    else if ¬ env.malloc (.strtabNode i) ∨ ¬ env.malloc (.strtabData i) then none
    else
      match preadAll env (.strtabData i) e s.size s.offset with
      | none => none
      | some data =>
        loadStrtabs e (i + 1) shdr
          ({ id := i, datasize := s.size.setWidth 32, data := data } :: strtab)

def elfLoadStrtab (e : Handle) : Except Fault (Handle × Bool) :=
  if e.strtab ≠ [] then .ok (e, true)
  else
    match elfLoadShdr env e with
    | .error f => .error f
    | .ok (e, false) => .ok (e, false)
    | .ok (e, true) =>
      match loadStrtabs env e 0 (e.shdr.getD []) [] with
      | none => .ok (e, false)
      | some strtab => .ok ({ e with strtab := strtab }, strtab ≠ [])

/-- The little-endian number in `n` bytes of the raw table. -/
def field (data : List Byte) (offset n : Nat) : Word :=
  wordOf fun k => if k < n then data.getD (offset + k) 0 else 0

/-- `ASSIGN_SYM(32)` and `ASSIGN_SYM(64)`: entry `i` of the raw table. -/
def assignSym (clazz : Nat) (data : List Byte) (i : Nat) : Symbol :=
  let (info, other, shndx, value, size) :=
    if clazz = ELFCLASS32 then
      (field data (16 * i + 12) 1, field data (16 * i + 13) 1, field data (16 * i + 14) 2,
        field data (16 * i + 4) 4, field data (16 * i + 8) 4)
    else
      (field data (24 * i + 4) 1, field data (24 * i + 5) 1, field data (24 * i + 6) 2,
        field data (24 * i + 8) 8, field data (24 * i + 16) 8)
  let name := if clazz = ELFCLASS32 then field data (16 * i) 4 else field data (24 * i) 4
  { name := name.setWidth 32, info := info.setWidth 8, other := other.setWidth 8
    shndx := shndx.setWidth 32, value := value, size := size
    bind := info.setWidth 8 >>> 4, type := info.setWidth 8 &&& 0xf
    visibility := other.setWidth 8 &&& 0x3 }

/-- The size of one raw entry of the class. -/
def symSize (clazz : Nat) : Nat := if clazz = ELFCLASS32 then 16 else 24

/-- `elf_load_symtab_internal` for a handle whose section headers are loaded.
The search leaves the fresh pointer in place when no table has the linked id. -/
def elfLoadSymtabInternal (e : Handle) (shdr : Shdr) :
    Except Fault (Handle × Option Symtab) :=
  match elfLoadStrtab env e with
  | .error f => .error f
  | .ok (e, false) => .ok (e, none)
  | .ok (e, true) =>
    if ¬ env.malloc (.symtab shdr.type) ∨ ¬ e.knownClass then .ok (e, none)
    else
      let link : Option StrtabLink :=
        match e.strtab.find? fun tab => shdr.link = BitVec.ofNat 64 tab.id with
        | some tab => some (.node tab.id)
        | none => if env.freshStrtabNull then none else some .wild
      match link with
      | none => .ok (e, none)
      | some link =>
        let count := BitVec.ofNat 32 (shdr.size.toNat / symSize e.clazz)
        if ¬ env.malloc (.symbol shdr.type) then .ok (e, none)
        else if count.toInt < 0 then .error .symbolUnderrun
        else
          match preadAll env (.symbol shdr.type) e shdr.size shdr.offset with
          | none => .ok (e, none)
          | some data =>
            .ok (e, some { count := count, strtab := link
                           symbol := (List.range count.toInt.toNat).map (assignSym e.clazz data) })

/-- The first section header of a type. -/
def firstOfType (e : Handle) (type : Word) : Option Shdr :=
  (e.shdr.getD []).find? fun s => s.type = type

def elfLoadSymtab (e : Handle) : Except Fault (Handle × Bool) :=
  if e.sym.isSome then .ok (e, true)
  else
    match elfLoadShdr env e with
    | .error f => .error f
    | .ok (e, false) => .ok (e, false)
    | .ok (e, true) =>
      match firstOfType e SHT_SYMTAB with
      | none => .ok (e, false)
      | some shdr =>
        match elfLoadSymtabInternal env e shdr with
        | .error f => .error f
        | .ok (e, sym) => .ok ({ e with sym := sym }, sym.isSome)

def elfLoadDsymtab (e : Handle) : Except Fault (Handle × Bool) :=
  if e.dsym.isSome then .ok (e, true)
  else
    match elfLoadShdr env e with
    | .error f => .error f
    | .ok (e, false) => .ok (e, false)
    | .ok (e, true) =>
      match firstOfType e SHT_DYNSYM with
      | none => .ok (e, false)
      | some shdr =>
        match elfLoadSymtabInternal env e shdr with
        | .error f => .error f
        | .ok (e, dsym) => .ok ({ e with dsym := dsym }, dsym.isSome)

/-- The error exit of `elf_load_all`. -/
def Handle.releaseTables (e : Handle) : Handle :=
  { e with dsym := none, sym := none, strtab := [], shdr := none, phdr := none }

/-- The symbol tables are optional: their failure is not looked at. -/
def elfLoadAll (e : Handle) : Except Fault (Handle × Bool) :=
  match elfLoadPhdr env e with
  | .error f => .error f
  | .ok (e, false) => .ok (e.releaseTables, false)
  | .ok (e, true) =>
    match elfLoadShdr env e with
    | .error f => .error f
    | .ok (e, false) => .ok (e.releaseTables, false)
    | .ok (e, true) =>
      match elfLoadStrtab env e with
      | .error f => .error f
      | .ok (e, false) => .ok (e.releaseTables, false)
      | .ok (e, true) =>
        match elfLoadSymtab env e with
        | .error f => .error f
        | .ok (e, _) =>
          match elfLoadDsymtab env e with
          | .error f => .error f
          | .ok (e, _) => .ok (e, true)

/-- The two tables of symbols, which are loaded alike. -/
inductive SymbolTable where
  | symtab
  | dsymtab

namespace SymbolTable

def type : SymbolTable → Word
  | symtab => SHT_SYMTAB
  | dsymtab => SHT_DYNSYM

def get (e : Handle) : SymbolTable → Option Symtab
  | symtab => e.sym
  | dsymtab => e.dsym

def set (e : Handle) (table : Option Symtab) : SymbolTable → Handle
  | symtab => { e with sym := table }
  | dsymtab => { e with dsym := table }

def load (e : Handle) : SymbolTable → Except Fault (Handle × Bool)
  | symtab => elfLoadSymtab env e
  | dsymtab => elfLoadDsymtab env e

@[simp] theorem get_set (e : Handle) (table : Option Symtab) (t : SymbolTable) :
    t.get (t.set e table) = table := by
  cases t <;> rfl

theorem load_eq (e : Handle) (t : SymbolTable) :
    t.load env e =
      if (t.get e).isSome then .ok (e, true)
      else
        match elfLoadShdr env e with
        | .error f => .error f
        | .ok (e, false) => .ok (e, false)
        | .ok (e, true) =>
          match firstOfType e t.type with
          | none => .ok (e, false)
          | some shdr =>
            match elfLoadSymtabInternal env e shdr with
            | .error f => .error f
            | .ok (e, table) => .ok (t.set e table, table.isSome) := by
  cases t <;> rfl

end SymbolTable

/-- A loader keeps the handle that it is given, and the section headers once they
are loaded. -/
structure Handle.Extends (e e' : Handle) : Prop where
  filename : e'.filename = e.filename
  shdr : e.shdr.isSome → e'.shdr = e.shdr

theorem Handle.Extends.refl (e : Handle) : e.Extends e := ⟨rfl, fun _ => rfl⟩

theorem Handle.Extends.trans {e e' e'' : Handle} (h : e.Extends e') (g : e'.Extends e'') :
    e.Extends e'' where
  filename := g.filename.trans h.filename
  shdr loaded := by
    have kept := h.shdr loaded
    rw [g.shdr (by rwa [kept]), kept]

/-- A loader keeps the header of the handle, and every table that is loaded. -/
structure Handle.Keeps (e e' : Handle) : Prop extends e.Extends e' where
  header : e'.releaseTables = e.releaseTables
  phdr : e.phdr.isSome → e'.phdr = e.phdr
  strtab : e.strtab ≠ [] → e'.strtab = e.strtab
  sym : e.sym.isSome → e'.sym = e.sym
  dsym : e.dsym.isSome → e'.dsym = e.dsym

theorem Handle.Keeps.refl (e : Handle) : e.Keeps e :=
  ⟨.refl e, rfl, fun _ => rfl, fun _ => rfl, fun _ => rfl, fun _ => rfl⟩

theorem Handle.Keeps.trans {e e' e'' : Handle} (h : e.Keeps e') (g : e'.Keeps e'') :
    e.Keeps e'' where
  toExtends := h.toExtends.trans g.toExtends
  header := g.header.trans h.header
  phdr loaded := by
    have kept := h.phdr loaded
    rw [g.phdr (by rwa [kept]), kept]
  strtab loaded := by
    have kept := h.strtab loaded
    rw [g.strtab (by rwa [kept]), kept]
  sym loaded := by
    have kept := h.sym loaded
    rw [g.sym (by rwa [kept]), kept]
  dsym loaded := by
    have kept := h.dsym loaded
    rw [g.dsym (by rwa [kept]), kept]

theorem Handle.Keeps.elf {e e' : Handle} (h : e.Keeps e') : e'.elf = e.elf := by
  have header := h.header
  show e'.releaseTables.elf = e.releaseTables.elf
  rw [header]

theorem Handle.Keeps.shstrndx {e e' : Handle} (h : e.Keeps e') : e'.shstrndx = e.shstrndx := by
  have header := h.header
  show e'.releaseTables.shstrndx = e.releaseTables.shstrndx
  rw [header]

/-- A loader that leaves the symbol tables alone. -/
structure Handle.Grows (e e' : Handle) : Prop extends e.Keeps e' where
  sym_eq : e'.sym = e.sym
  dsym_eq : e'.dsym = e.dsym

theorem Handle.Grows.refl (e : Handle) : e.Grows e := ⟨.refl e, rfl, rfl⟩

theorem Handle.Grows.trans {e e' e'' : Handle} (h : e.Grows e') (g : e'.Grows e'') :
    e.Grows e'' :=
  ⟨h.toKeeps.trans g.toKeeps, g.sym_eq.trans h.sym_eq, g.dsym_eq.trans h.dsym_eq⟩

/-- A table that is null is filled. -/
theorem Handle.grows_phdr {e : Handle} (null : ¬ e.phdr.isSome) (phdr : Option (List Phdr)) :
    e.Grows { e with phdr := phdr } :=
  ⟨⟨⟨rfl, fun _ => rfl⟩, rfl, fun h => absurd h null, fun _ => rfl, fun _ => rfl, fun _ => rfl⟩,
    rfl, rfl⟩

theorem Handle.grows_shdr {e : Handle} (null : ¬ e.shdr.isSome) (shdr : Option (List Shdr)) :
    e.Grows { e with shdr := shdr } :=
  ⟨⟨⟨rfl, fun h => absurd h null⟩, rfl, fun _ => rfl, fun _ => rfl, fun _ => rfl, fun _ => rfl⟩,
    rfl, rfl⟩

theorem Handle.grows_strtab {e : Handle} (null : ¬ e.strtab ≠ []) (strtab : List Strtab) :
    e.Grows { e with strtab := strtab } :=
  ⟨⟨⟨rfl, fun _ => rfl⟩, rfl, fun _ => rfl, fun h => absurd h null, fun _ => rfl, fun _ => rfl⟩,
    rfl, rfl⟩

theorem SymbolTable.keeps_set {e : Handle} {t : SymbolTable} (null : ¬ (t.get e).isSome)
    (table : Option Symtab) : e.Keeps (t.set e table) := by
  cases t with
  | symtab =>
      exact ⟨⟨rfl, fun _ => rfl⟩, rfl, fun _ => rfl, fun _ => rfl, fun h => absurd h null,
        fun _ => rfl⟩
  | dsymtab =>
      exact ⟨⟨rfl, fun _ => rfl⟩, rfl, fun _ => rfl, fun _ => rfl, fun _ => rfl,
        fun h => absurd h null⟩

theorem Handle.Grows.get {e e' : Handle} (h : e.Grows e') (t : SymbolTable) :
    t.get e' = t.get e := by
  cases t with
  | symtab => exact h.sym_eq
  | dsymtab => exact h.dsym_eq

variable {env} {e e' : Handle} {ok : Bool}

/-- A read that succeeds delivers the bytes of the file, and all that was asked for. -/
theorem preadAll_eq_some {site : Site} {size offset : Word}
    {data : List Byte} (h : preadAll env site e size offset = some data) :
    data = (e.elf.bytes.drop offset.toNat).take size.toNat ∧ data.length = size.toNat := by
  rw [preadAll] at h
  split at h
  · rename_i read
    cases h
    exact ⟨rfl, read.2⟩
  · cases h

theorem elfLoadPhdr_grows (h : elfLoadPhdr env e = .ok (e', ok)) :
    e.Grows e' ∧ (ok = true → e'.phdr.isSome) := by
  unfold elfLoadPhdr at h
  split at h
  · rename_i loaded
    cases h
    exact ⟨.refl e, fun _ => loaded⟩
  · rename_i unloaded
    split at h
    · cases h
      exact ⟨.refl e, fun hok => by cases hok⟩
    · split at h
      · cases h
      · cases h
        exact ⟨Handle.grows_phdr unloaded _, fun _ => rfl⟩

theorem elfLoadShdr_grows (h : elfLoadShdr env e = .ok (e', ok)) :
    e.Grows e' ∧ (ok = true → e'.shdr.isSome) := by
  unfold elfLoadShdr at h
  split at h
  · rename_i loaded
    cases h
    exact ⟨.refl e, fun _ => loaded⟩
  · rename_i unloaded
    split at h
    · cases h
      exact ⟨.refl e, fun hok => by cases hok⟩
    · split at h
      · cases h
      · cases h
        exact ⟨Handle.grows_shdr unloaded _, fun _ => rfl⟩

/-- The section headers are all that their loader changes. -/
theorem elfLoadShdr_strtab (h : elfLoadShdr env e = .ok (e', ok)) : e'.strtab = e.strtab := by
  unfold elfLoadShdr at h
  split at h
  · cases h
    rfl
  · split at h
    · cases h
      rfl
    · split at h
      · cases h
      · cases h
        rfl

theorem elfLoadStrtab_grows (h : elfLoadStrtab env e = .ok (e', ok)) :
    e.Grows e' ∧ (ok = true → e'.strtab ≠ []) := by
  unfold elfLoadStrtab at h
  split at h
  · rename_i loaded
    cases h
    exact ⟨.refl e, fun _ => loaded⟩
  · rename_i unloaded
    split at h
    · cases h
    · rename_i hshdr
      cases h
      exact ⟨(elfLoadShdr_grows hshdr).1, fun hok => by cases hok⟩
    · rename_i e₁ hshdr
      have first := (elfLoadShdr_grows hshdr).1
      split at h
      · cases h
        exact ⟨first, fun hok => by cases hok⟩
      · cases h
        rw [← elfLoadShdr_strtab hshdr] at unloaded
        exact ⟨first.trans (Handle.grows_strtab unloaded _), of_decide_eq_true⟩

theorem elfLoadSymtabInternal_grows {shdr : Shdr} {sym : Option Symtab}
    (h : elfLoadSymtabInternal env e shdr = .ok (e', sym)) :
    e.Grows e' ∧ (sym.isSome → e'.strtab ≠ []) := by
  unfold elfLoadSymtabInternal at h
  split at h
  · cases h
  · rename_i hstrtab
    cases h
    exact ⟨(elfLoadStrtab_grows hstrtab).1, fun none => by cases none⟩
  · rename_i hstrtab
    obtain ⟨first, loaded⟩ := elfLoadStrtab_grows hstrtab
    simp only at h
    repeat' split at h
    all_goals cases h <;> exact ⟨first, fun _ => loaded rfl⟩

/-- A symbol table is there only with the section headers and the string tables. -/
def Handle.Linked (e : Handle) : Prop :=
  e.sym.isSome ∨ e.dsym.isSome → e.shdr.isSome ∧ e.strtab ≠ []

theorem Handle.Linked.grows (h : e.Linked) (g : e.Grows e') : e'.Linked := by
  intro symbols
  rw [g.sym_eq, g.dsym_eq] at symbols
  obtain ⟨shdr, strtab⟩ := h symbols
  rw [g.shdr shdr, g.strtab strtab]
  exact ⟨shdr, strtab⟩

/-- A handle with its section headers, and behind it one that may have string tables too. -/
theorem Handle.Linked.symbols {e₁ : Handle} {table : Option Symtab} (h : e.Linked)
    (g : e.Grows e₁) (shdr : e.shdr.isSome) (strtab : table.isSome → e₁.strtab ≠ [])
    (t : SymbolTable) : (t.set e₁ table).Linked := by
  have headers : e₁.shdr.isSome := by rwa [g.shdr shdr]
  cases t with
  | symtab =>
      rintro (some | other)
      · exact ⟨headers, strtab some⟩
      · exact ⟨headers, (h.grows g (.inr other)).2⟩
  | dsymtab =>
      rintro (other | some)
      · exact ⟨headers, (h.grows g (.inl other)).2⟩
      · exact ⟨headers, strtab some⟩

theorem SymbolTable.load_keeps {t : SymbolTable} (h : t.load env e = .ok (e', ok)) :
    e.Keeps e' ∧ (e.Linked → e'.Linked) := by
  rw [t.load_eq] at h
  split at h
  · cases h
    exact ⟨.refl e, id⟩
  · rename_i unloaded
    split at h
    · cases h
    · rename_i hshdr
      cases h
      have first := (elfLoadShdr_grows hshdr).1
      exact ⟨first.toKeeps, fun linked => linked.grows first⟩
    · rename_i e₁ hshdr
      obtain ⟨first, headers⟩ := elfLoadShdr_grows hshdr
      split at h
      · cases h
        exact ⟨first.toKeeps, fun linked => linked.grows first⟩
      · split at h
        · cases h
        · rename_i e₂ table htable
          cases h
          obtain ⟨second, strtab⟩ := elfLoadSymtabInternal_grows htable
          have unloaded : ¬ (t.get e₂).isSome := by rwa [second.get, first.get]
          refine ⟨(first.trans second).toKeeps.trans (t.keeps_set unloaded table), ?_⟩
          exact fun linked => (linked.grows first).symbols second (headers rfl) strtab t

theorem elfLoadSymtab_keeps (h : elfLoadSymtab env e = .ok (e', ok)) :
    e.Keeps e' ∧ (e.Linked → e'.Linked) := SymbolTable.load_keeps (t := .symtab) h

theorem elfLoadDsymtab_keeps (h : elfLoadDsymtab env e = .ok (e', ok)) :
    e.Keeps e' ∧ (e.Linked → e'.Linked) := SymbolTable.load_keeps (t := .dsymtab) h

/-- Everything was loaded, or nothing is left. -/
theorem elfLoadAll_cases (h : elfLoadAll env e = .ok (e', ok)) :
    (ok = true ∧ e.Keeps e' ∧ (e.Linked → e'.Linked) ∧
        e'.phdr.isSome ∧ e'.shdr.isSome ∧ e'.strtab ≠ []) ∨
      ok = false ∧ e' = e.releaseTables := by
  unfold elfLoadAll at h
  split at h
  · cases h
  · rename_i hphdr
    cases h
    exact .inr ⟨rfl, (elfLoadPhdr_grows hphdr).1.header⟩
  · rename_i e₁ hphdr
    obtain ⟨one, phdr⟩ := elfLoadPhdr_grows hphdr
    split at h
    · cases h
    · rename_i hshdr
      cases h
      exact .inr ⟨rfl, (one.trans (elfLoadShdr_grows hshdr).1).header⟩
    · rename_i e₂ hshdr
      obtain ⟨two, shdr⟩ := elfLoadShdr_grows hshdr
      split at h
      · cases h
      · rename_i hstrtab
        cases h
        exact .inr ⟨rfl, ((one.trans two).trans (elfLoadStrtab_grows hstrtab).1).header⟩
      · rename_i e₃ hstrtab
        obtain ⟨three, strtab⟩ := elfLoadStrtab_grows hstrtab
        have before := (one.trans two).trans three
        split at h
        · cases h
        · rename_i e₄ _ hsym
          split at h
          · cases h
          · rename_i e₅ _ hdsym
            cases h
            obtain ⟨four, linked⟩ := elfLoadSymtab_keeps hsym
            obtain ⟨five, linked'⟩ := elfLoadDsymtab_keeps hdsym
            have after := four.trans five
            have headers : e₃.shdr.isSome := by
              rw [three.shdr (shdr rfl)]
              exact shdr rfl
            have segments : e₃.phdr.isSome := by
              rw [(two.trans three).phdr (phdr rfl)]
              exact phdr rfl
            refine .inl ⟨rfl, before.toKeeps.trans after,
              fun h => linked' (linked (h.grows before)), ?_, ?_, ?_⟩
            · rwa [after.phdr segments]
            · rwa [after.shdr headers]
            · rw [after.strtab (strtab rfl)]
              exact strtab rfl

/-- When everything was loaded, the handle is the one that was opened and its
section headers are there. -/
theorem elfLoadAll_loaded (h : elfLoadAll env e = .ok (e', true)) :
    e'.filename = e.filename ∧ e'.shdr.isSome := by
  obtain ⟨-, keeps, -, -, shdr, -⟩ | ⟨failed, -⟩ := elfLoadAll_cases h
  · exact ⟨keeps.filename, shdr⟩
  · cases failed

theorem elfOpen_filename {filename : List Char} (h : elfOpen env filename = .ok (some e)) :
    e.filename = filename := by
  unfold elfOpen at h
  repeat' split at h
  all_goals cases h <;> rfl

end Elf
