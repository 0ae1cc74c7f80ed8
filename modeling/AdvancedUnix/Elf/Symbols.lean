import AdvancedUnix.Elf.Tables
import AdvancedUnix.Memory.Fields

/-!
# Decoding the symbol tables

The symbols and the raw entries of the file share one block of memory: the raw entries are
read behind the place of the symbols, and the loop computes each field of a symbol from the
raw entry. `loadSymbols` is this loop on the bytes of the block, for the two layouts of
`elf_symbol_t` and of the entries of the two classes; it finds `assignSym` of each entry,
whatever the block held before.

`EntryAt` says what an entry of the file means, and `Decodes` that a loader delivers exactly
that.
-/

namespace Elf

open Memory

/-- The bytes that `pread` delivers, as a block. -/
def blockOf (data : List Byte) : Block := fun o => data.getD o 0

/-- `sizeof(elf_symbol_t)`. -/
abbrev sizeofSymbol : Nat := 40

/-- `ASSIGN_SYM(32)` and `ASSIGN_SYM(64)` by the offsets of the fields: name, info, other,
shndx, value, size, bind, type and visibility. -/
def symbolMoves (clazz : Nat) : List Move :=
  if clazz = ELFCLASS32 then
    [⟨0, 4, 0, 4, id⟩, ⟨4, 1, 12, 1, id⟩, ⟨5, 1, 13, 1, id⟩, ⟨8, 4, 14, 2, id⟩,
      ⟨16, 8, 4, 4, id⟩, ⟨24, 8, 8, 4, id⟩,
      ⟨32, 1, 12, 1, (· >>> 4)⟩, ⟨33, 1, 12, 1, (· &&& 0xf)⟩, ⟨34, 1, 13, 1, (· &&& 0x3)⟩]
  else
    [⟨0, 4, 0, 4, id⟩, ⟨4, 1, 4, 1, id⟩, ⟨5, 1, 5, 1, id⟩, ⟨8, 4, 6, 2, id⟩,
      ⟨16, 8, 8, 8, id⟩, ⟨24, 8, 16, 8, id⟩,
      ⟨32, 1, 4, 1, (· >>> 4)⟩, ⟨33, 1, 4, 1, (· &&& 0xf)⟩, ⟨34, 1, 5, 1, (· &&& 0x3)⟩]

/-- The symbol in the block at an index. -/
def symbolAt (m : Block) (i : Nat) : Symbol where
  name := (m.number (sizeofSymbol * i) 4).setWidth 32
  info := (m.number (sizeofSymbol * i + 4) 1).setWidth 8
  other := (m.number (sizeofSymbol * i + 5) 1).setWidth 8
  shndx := (m.number (sizeofSymbol * i + 8) 4).setWidth 32
  value := m.number (sizeofSymbol * i + 16) 8
  size := m.number (sizeofSymbol * i + 24) 8
  bind := (m.number (sizeofSymbol * i + 32) 1).setWidth 8
  type := (m.number (sizeofSymbol * i + 33) 1).setWidth 8
  visibility := (m.number (sizeofSymbol * i + 34) 1).setWidth 8

/-- The block after `pread` stored the raw entries behind the place of the symbols. -/
def placeRaw (count : Nat) (data : List Byte) (fresh : Block) : Block := fun x =>
  if sizeofSymbol * count ≤ x ∧ x < sizeofSymbol * count + data.length then
    blockOf data (x - sizeofSymbol * count)
  else fresh x

/-- The block after the loop. -/
def loadSymbols (clazz count : Nat) (data : List Byte) (fresh : Block) : Block :=
  Move.convertAll (symbolMoves clazz) sizeofSymbol (symSize clazz) (sizeofSymbol * count) count
    (placeRaw count data fresh)

theorem symbolMoves_fits (clazz : Nat) :
    Move.Fits (symbolMoves clazz) sizeofSymbol (symSize clazz) := by
  unfold symbolMoves symSize
  split
  · exact ⟨by decide, by decide, by decide⟩
  · exact ⟨by decide, by decide, by decide⟩

/-- After the loop a field of a symbol has the value that is computed from its entry. -/
theorem loadSymbols_field {clazz count i : Nat} {data : List Byte} (fresh : Block)
    (whole : symSize clazz * count ≤ data.length) (hi : i < count) {v : Move}
    (hv : v ∈ symbolMoves clazz) {k : Nat} (hk : k < v.width) :
    loadSymbols clazz count data fresh (sizeofSymbol * i + v.target + k) =
      byteOf (v.value (field data (symSize clazz * i + v.source) v.size)) k := by
  have fits := symbolMoves_fits clazz
  rw [loadSymbols, Move.convertAll_inside fits (Nat.le_refl _) hi hv hk, Move.result]
  have inside := fits.source v hv
  have entry : symSize clazz * i + symSize clazz ≤ symSize clazz * count := by
    rw [← Nat.mul_succ]
    exact Nat.mul_le_mul_left _ hi
  have read : Block.number (placeRaw count data fresh)
      (sizeofSymbol * count + symSize clazz * i + v.source) v.size =
      field data (symSize clazz * i + v.source) v.size := by
    show _ = (blockOf data).number _ _
    refine Block.number_congr fun b hb => ?_
    have offset : sizeofSymbol * count + symSize clazz * i + v.source + b =
        sizeofSymbol * count + (symSize clazz * i + v.source + b) := by omega
    rw [offset, placeRaw, if_pos (by omega), Nat.add_sub_cancel_left]
  rw [read]

/-- A byte can be shifted before or after it is cut out of the word. -/
theorem setWidth_shiftRight_byte (data : List Byte) (o : Nat) :
    ((field data o 1) >>> 4).setWidth 8 = ((field data o 1).setWidth 8 : Byte) >>> 4 := by
  have byte : (field data o 1).toNat < 2 ^ (8 * 1) := Block.number_lt (blockOf data) o
  apply BitVec.eq_of_toNat_eq
  simp only [BitVec.toNat_setWidth, BitVec.toNat_ushiftRight, Nat.shiftRight_eq_div_pow]
  omega

/-- The loop leaves the symbols that its entries describe, whatever the memory held. -/
theorem symbolAt_loadSymbols {clazz count i : Nat} {data : List Byte} (fresh : Block)
    (known : clazz = ELFCLASS32 ∨ clazz = ELFCLASS64)
    (whole : symSize clazz * count ≤ data.length) (hi : i < count) :
    symbolAt (loadSymbols clazz count data fresh) i = assignSym clazz data i := by
  have narrow (n : Nat) {v : Move} (at_ : (symbolMoves clazz)[n]? = some v) (size : v.width ≤ 8) :
      ((loadSymbols clazz count data fresh).number (sizeofSymbol * i + v.target)
        v.width).setWidth (8 * v.width) =
        (v.value (field data (symSize clazz * i + v.source) v.size)).setWidth (8 * v.width) :=
    Block.setWidth_number size fun k hk =>
      loadSymbols_field fresh whole hi (List.mem_of_getElem? at_) hk
  have full (n : Nat) {v : Move} (at_ : (symbolMoves clazz)[n]? = some v) (size : v.width = 8) :
      (loadSymbols clazz count data fresh).number (sizeofSymbol * i + v.target) 8 =
        v.value (field data (symSize clazz * i + v.source) v.size) :=
    Block.number_eq fun k hk =>
      loadSymbols_field fresh whole hi (List.mem_of_getElem? at_) (by omega)
  have mask (o : Nat) (b : Word) : ((field data o 1) &&& b).setWidth 8 =
      (field data o 1).setWidth 8 &&& b.setWidth 8 := BitVec.setWidth_and
  obtain rfl | rfl := known
  all_goals
    rw [symbolAt, assignSym, Symbol.mk.injEq]
    have name := narrow 0 rfl (by decide)
    have info := narrow 1 rfl (by decide)
    have other := narrow 2 rfl (by decide)
    have shndx := narrow 3 rfl (by decide)
    have value := full 4 rfl rfl
    have size := full 5 rfl rfl
    have bind := (narrow 6 rfl (by decide)).trans (setWidth_shiftRight_byte data _)
    have type := (narrow 7 rfl (by decide)).trans (mask _ _)
    have visibility := (narrow 8 rfl (by decide)).trans (mask _ _)
    exact ⟨name, info, other, shndx, value, size, bind, type, visibility⟩

/-- `Elf32_Sym` and `Elf64_Sym`. A 32-bit file's values are zero-extended. -/
structure Sym where
  name : BitVec 32
  info : Byte
  other : Byte
  shndx : BitVec 16
  value : Word
  size : Word

/-- The entry at an offset of a file. -/
def Sym.read (clazz : Nat) (bytes : List Byte) (o : Nat) : Sym :=
  if clazz = ELFCLASS32 then
    { name := (field bytes o 4).setWidth 32, value := field bytes (o + 4) 4
      size := field bytes (o + 8) 4, info := (field bytes (o + 12) 1).setWidth 8
      other := (field bytes (o + 13) 1).setWidth 8
      shndx := (field bytes (o + 14) 2).setWidth 16 }
  else
    { name := (field bytes o 4).setWidth 32, info := (field bytes (o + 4) 1).setWidth 8
      other := (field bytes (o + 5) 1).setWidth 8, shndx := (field bytes (o + 6) 2).setWidth 16
      value := field bytes (o + 8) 8, size := field bytes (o + 16) 8 }

/-- The symbol that an entry describes. -/
def Sym.symbol (s : Sym) : Symbol where
  name := s.name
  info := s.info
  other := s.other
  shndx := s.shndx.setWidth 32
  value := s.value
  size := s.size
  bind := s.info >>> 4
  type := s.info &&& 0xf
  visibility := s.other &&& 0x3

theorem field_file {bytes : List Byte} {offset size o n : Nat}
    (inside : o + n ≤ ((bytes.drop offset).take size).length) :
    field ((bytes.drop offset).take size) o n = field bytes (offset + o) n := by
  show (blockOf _).number o n = (blockOf bytes).number (offset + o) n
  refine Block.number_congr fun k hk => ?_
  rw [List.length_take] at inside
  rw [blockOf, blockOf, List.getD_eq_getElem?_getD, List.getD_eq_getElem?_getD,
    List.getElem?_take_of_lt (by omega), List.getElem?_drop, Nat.add_assoc]

theorem setWidth_half (data : List Byte) (o : Nat) :
    ((field data o 2).setWidth 16).setWidth 32 = (field data o 2).setWidth 32 := by
  have half : (field data o 2).toNat < 2 ^ (8 * 2) := Block.number_lt (blockOf data) o
  apply BitVec.eq_of_toNat_eq
  simp only [BitVec.toNat_setWidth]
  omega

/-- What `ASSIGN_SYM` computes from the bytes that were read is the entry of the file. -/
theorem assignSym_eq {clazz i : Nat} {bytes : List Byte} {offset size : Nat}
    (inside : symSize clazz * i + symSize clazz ≤ ((bytes.drop offset).take size).length) :
    assignSym clazz ((bytes.drop offset).take size) i =
      (Sym.read clazz bytes (offset + symSize clazz * i)).symbol := by
  have read {o n : Nat} (h : o + n ≤ symSize clazz * i + symSize clazz) :
      field ((bytes.drop offset).take size) o n = field bytes (offset + o) n :=
    field_file (h.trans inside)
  unfold symSize at read ⊢
  by_cases class32 : clazz = ELFCLASS32
  · simp only [class32, if_true] at read ⊢
    simp only [assignSym, Sym.read, Sym.symbol, if_true, setWidth_half, Nat.add_assoc]
    rw [read (by omega), read (by omega), read (by omega), read (by omega), read (by omega),
      read (by omega)]
  · simp only [class32, if_false] at read ⊢
    simp only [assignSym, Sym.read, Sym.symbol, class32, if_false, setWidth_half, Nat.add_assoc]
    rw [read (by omega), read (by omega), read (by omega), read (by omega), read (by omega),
      read (by omega)]

/-- The number of whole entries in a section. -/
def Handle.entries (e : Handle) (s : Shdr) : Nat := s.size.toNat / symSize e.clazz

/-- No loaded string table has the index that the section links to. -/
def Handle.Unlinked (e : Handle) (s : Shdr) : Prop :=
  ∀ tab ∈ e.strtab, s.link ≠ BitVec.ofNat 64 tab.id

/-- The reasons for which there is no table. -/
def SymbolTable.Missing (env : Env) (e : Handle) (t : SymbolTable) : Prop :=
  firstOfType e t.type = none ∨ ∃ s, firstOfType e t.type = some s ∧
    (e.Unlinked s ∨ ¬ env.malloc (.symtab t.type) ∨ ¬ env.malloc (.symbol t.type) ∨
      preadAll env (.symbol t.type) e s.size s.offset = none)

/-- A table holds what its section describes. -/
structure Symtab.Decoded (table : Symtab) (e : Handle) (s : Shdr) : Prop where
  strtab : ∃ tab ∈ e.strtab, s.link = BitVec.ofNat 64 tab.id ∧ table.strtab = .node tab.id
  count : table.count.toInt = e.entries s
  symbol : ∀ i < e.entries s, table.symbol[i]? = some
    (Sym.read e.clazz e.elf.bytes (s.offset.toNat + symSize e.clazz * i)).symbol
  /-- the conversion in place, from any memory -/
  inPlace : ∀ fresh, ∀ i < e.entries s, table.symbol[i]? = some (symbolAt (loadSymbols e.clazz
    table.count.toInt.toNat ((e.elf.bytes.drop s.offset.toNat).take s.size.toNat) fresh) i)

/-- A loader returns null for a reason, and otherwise the decoded table. -/
structure SymbolTable.Decodes (env : Env) (e : Handle) (t : SymbolTable) : Prop where
  returns : ∃ e' ok, t.load env e = .ok (e', ok)
  null_iff : (∃ e', t.load env e = .ok (e', false)) ↔ t.Missing env e
  decoded : ∀ e', t.load env e = .ok (e', true) → ∃ s table, firstOfType e t.type = some s ∧
    t.get e' = some table ∧ table.Decoded e s

section

variable {env : Env} {e : Handle} {t : SymbolTable} {s : Shdr}

/-- The string table that a symbol table gets, and the fresh pointer if there is none. -/
def linkOf (env : Env) (e : Handle) (s : Shdr) : Option StrtabLink :=
  match e.strtab.find? fun tab => s.link = BitVec.ofNat 64 tab.id with
  | some tab => some (.node tab.id)
  | none => if env.freshStrtabNull then none else some .wild

theorem linkOf_unlinked (h : e.Unlinked s) :
    linkOf env e s = if env.freshStrtabNull then none else some .wild := by
  have none : (e.strtab.find? fun tab => s.link = BitVec.ofNat 64 tab.id) = none :=
    List.find?_eq_none.mpr fun tab ht => by simpa using h tab ht
  rw [linkOf, none]

theorem linkOf_linked (h : ¬ e.Unlinked s) :
    ∃ tab ∈ e.strtab, s.link = BitVec.ofNat 64 tab.id ∧ linkOf env e s = some (.node tab.id) := by
  cases found : e.strtab.find? fun tab => s.link = BitVec.ofNat 64 tab.id with
  | none => exact absurd (fun tab ht => by simpa using List.find?_eq_none.mp found tab ht) h
  | some tab =>
      have same : s.link = BitVec.ofNat 64 tab.id := by simpa using List.find?_some found
      exact ⟨tab, List.mem_of_find?_eq_some found, same, by rw [linkOf, found]⟩

/-- The table that the loop leaves. -/
def decode (e : Handle) (s : Shdr) (link : StrtabLink) (data : List Byte) : Symtab where
  count := BitVec.ofNat 32 (e.entries s)
  strtab := link
  symbol := (List.range (BitVec.ofNat 32 (e.entries s)).toInt.toNat).map (assignSym e.clazz data)

/-- The loader when the tables that it needs are there. -/
theorem elfLoadSymtabInternal_loaded (strtab : e.strtab ≠ []) (known : e.knownClass) :
    elfLoadSymtabInternal env e s =
      if ¬ env.malloc (.symtab s.type) then .ok (e, none)
      else
        match linkOf env e s with
        | none => .ok (e, none)
        | some link =>
          if ¬ env.malloc (.symbol s.type) then .ok (e, none)
          else if (BitVec.ofNat 32 (e.entries s)).toInt < 0 then .error .symbolUnderrun
          else
            .ok (e, (preadAll env (.symbol s.type) e s.size s.offset).map (decode e s link)) := by
  rw [elfLoadSymtabInternal, elfLoadStrtab, if_pos strtab]
  simp only [known, not_true_eq_false, or_false]
  congr 1
  show (match linkOf env e s with | none => _ | some link => _) = _
  cases linkOf env e s with
  | none => rfl
  | some link =>
      simp only
      congr 2
      cases preadAll env (.symbol s.type) e s.size s.offset <;> rfl

theorem SymbolTable.load_loaded (headers : e.shdr.isSome) (null : t.get e = none) :
    t.load env e =
      match firstOfType e t.type with
      | none => .ok (e, false)
      | some s =>
        match elfLoadSymtabInternal env e s with
        | .error f => .error f
        | .ok (e', table) => .ok (t.set e' table, table.isSome) := by
  have shdr : elfLoadShdr env e = .ok (e, true) := by rw [elfLoadShdr, if_pos headers]
  have unloaded : ¬ (t.get e).isSome := by
    rw [null]
    exact Bool.false_ne_true
  have load := t.load_eq env e
  rw [if_neg unloaded, shdr] at load
  exact load

theorem toInt_entries : (BitVec.ofNat 32 (e.entries s)).toInt < 0 ↔
    2 ^ 31 ≤ e.entries s % 2 ^ 32 := by
  have int := BitVec.toInt_eq_toNat_cond (BitVec.ofNat 32 (e.entries s))
  rw [BitVec.toNat_ofNat] at int
  split at int <;> omega

/-- With fewer than 2^31 entries, all of them read, the table is decoded. -/
theorem decode_decoded {site : Site} {data : List Byte} {tab : Strtab} (known : e.knownClass)
    (node : tab ∈ e.strtab) (same : s.link = BitVec.ofNat 64 tab.id)
    (read : preadAll env site e s.size s.offset = some data) (few : e.entries s < 2 ^ 31) :
    (decode e s (.node tab.id) data).Decoded e s := by
  have count : (BitVec.ofNat 32 (e.entries s)).toInt = e.entries s := by
    have int := BitVec.toInt_eq_toNat_cond (BitVec.ofNat 32 (e.entries s))
    rw [BitVec.toNat_ofNat] at int
    split at int <;> omega
  have known : e.clazz = ELFCLASS32 ∨ e.clazz = ELFCLASS64 := by
    simpa [Handle.knownClass] using known
  have whole : symSize e.clazz * e.entries s ≤ s.size.toNat := Nat.mul_div_le _ _
  obtain ⟨rfl, length⟩ := preadAll_eq_some read
  have entry : ∀ i < e.entries s, (decode e s (.node tab.id)
      ((e.elf.bytes.drop s.offset.toNat).take s.size.toNat)).symbol[i]? = some
        (assignSym e.clazz ((e.elf.bytes.drop s.offset.toNat).take s.size.toNat) i) := by
    intro i hi
    show ((List.range _).map _)[i]? = _
    rw [count, Int.toNat_natCast, List.getElem?_map, List.getElem?_range hi]
    rfl
  refine ⟨⟨tab, node, same, rfl⟩, count, fun i hi => ?_, fun fresh i hi => ?_⟩
  · have inside : symSize e.clazz * i + symSize e.clazz ≤ symSize e.clazz * e.entries s := by
      rw [← Nat.mul_succ]
      exact Nat.mul_le_mul_left _ hi
    rw [entry i hi, assignSym_eq (by omega)]
  · show _ = some (symbolAt (loadSymbols e.clazz
      (BitVec.ofNat 32 (e.entries s)).toInt.toNat _ fresh) i)
    rw [entry i hi, count, Int.toNat_natCast, symbolAt_loadSymbols fresh known (by omega) hi]

/-- A loader that returns null decodes the tables when there is a reason for it. -/
theorem SymbolTable.decodes_of_null {e' : Handle} (h : t.load env e = .ok (e', false)) :
    t.Decodes env e ↔ t.Missing env e := by
  refine ⟨fun decodes => decodes.null_iff.mp ⟨e', h⟩, fun missing => ⟨⟨e', false, h⟩, ?_, ?_⟩⟩
  · exact iff_of_true ⟨e', h⟩ missing
  · intro e'' h'
    rw [h] at h'
    cases h'

/-- One that returns a table, when there is none and the table is decoded. -/
theorem SymbolTable.decodes_of_table {e' : Handle} {table : Symtab}
    (h : t.load env e = .ok (e', true)) (found : firstOfType e t.type = some s)
    (left : t.get e' = some table) :
    t.Decodes env e ↔ ¬ t.Missing env e ∧ table.Decoded e s := by
  have filled : ¬ ∃ e', t.load env e = .ok (e', false) := by
    rintro ⟨e'', h'⟩
    rw [h] at h'
    cases h'
  constructor
  · intro decodes
    refine ⟨fun missing => filled (decodes.null_iff.mpr missing), ?_⟩
    obtain ⟨s', table', found', left', decoded⟩ := decodes.decoded e' h
    obtain rfl := Option.some.inj (found.symm.trans found')
    obtain rfl := Option.some.inj (left.symm.trans left')
    exact decoded
  · rintro ⟨there, decoded⟩
    refine ⟨⟨e', true, h⟩, iff_of_false filled there, fun e'' h' => ?_⟩
    rw [h] at h'
    cases h'
    exact ⟨s, table, found, left, decoded⟩

theorem SymbolTable.missing_iff (found : firstOfType e t.type = some s) :
    t.Missing env e ↔ e.Unlinked s ∨ ¬ env.malloc (.symtab t.type) ∨
      ¬ env.malloc (.symbol t.type) ∨ preadAll env (.symbol t.type) e s.size s.offset = none := by
  rw [SymbolTable.Missing, found]
  constructor
  · rintro (other | ⟨s', same, reason⟩)
    · cases other
    · exact Option.some.inj same ▸ reason
  · exact fun reason => .inr ⟨s, rfl, reason⟩

/-- A pointer that is not null, and the node if there is one. -/
theorem linkOf_reached (h : ¬ (e.Unlinked s ∧ env.freshStrtabNull)) :
    ∃ link, linkOf env e s = some link ∧ (¬ e.Unlinked s →
      ∃ tab ∈ e.strtab, s.link = BitVec.ofNat 64 tab.id ∧ link = .node tab.id) := by
  by_cases unlinked : e.Unlinked s
  · have fresh : ¬ env.freshStrtabNull := fun null => h ⟨unlinked, null⟩
    exact ⟨.wild, by rw [linkOf_unlinked unlinked, if_neg fresh], absurd unlinked⟩
  · obtain ⟨tab, member, same, linked⟩ := @linkOf_linked env e s unlinked
    exact ⟨_, linked, fun _ => ⟨tab, member, same, rfl⟩⟩

section Loaded

variable (headers : e.shdr.isSome) (strtab : e.strtab ≠ []) (known : e.knownClass)
  (null : t.get e = none) (found : firstOfType e t.type = some s)

include headers strtab known null found

theorem SymbolTable.load_refused
    (refused : ¬ (env.malloc (.symtab t.type) ∧ env.malloc (.symbol t.type))) :
    ∃ e', t.load env e = .ok (e', false) := by
  rw [t.load_loaded headers null, found]
  simp only [elfLoadSymtabInternal_loaded strtab known, firstOfType_type found]
  by_cases first : env.malloc (.symtab t.type)
  · have second : ¬ env.malloc (.symbol t.type) := fun second => refused ⟨first, second⟩
    rw [if_neg (not_not.mpr first)]
    cases linkOf env e s with
    | none => exact ⟨_, rfl⟩
    | some link =>
        simp only [if_pos second]
        exact ⟨_, rfl⟩
  · rw [if_pos first]
    exact ⟨_, rfl⟩

theorem SymbolTable.load_hidden (first : env.malloc (.symtab t.type))
    (hidden : e.Unlinked s ∧ env.freshStrtabNull) : ∃ e', t.load env e = .ok (e', false) := by
  rw [t.load_loaded headers null, found]
  simp only [elfLoadSymtabInternal_loaded strtab known, firstOfType_type found]
  rw [if_neg (not_not.mpr first), linkOf_unlinked hidden.1, if_pos hidden.2]
  exact ⟨_, rfl⟩

theorem SymbolTable.load_linked {link : StrtabLink} (first : env.malloc (.symtab t.type))
    (second : env.malloc (.symbol t.type)) (linked : linkOf env e s = some link) :
    t.load env e =
      if 2 ^ 31 ≤ e.entries s % 2 ^ 32 then .error .symbolUnderrun
      else
        match preadAll env (.symbol t.type) e s.size s.offset with
        | none => .ok (t.set e none, false)
        | some data => .ok (t.set e (some (decode e s link data)), true) := by
  rw [t.load_loaded headers null, found]
  simp only [elfLoadSymtabInternal_loaded strtab known, firstOfType_type found]
  rw [if_neg (not_not.mpr first), linked]
  simp only [not_not.mpr second, if_false, toInt_entries]
  by_cases negative : 2 ^ 31 ≤ e.entries s % 2 ^ 32
  · rw [if_pos negative, if_pos negative]
  · rw [if_neg negative, if_neg negative]
    cases preadAll env (.symbol t.type) e s.size s.offset <;> rfl

end Loaded

/-- The raw entries of the first section of the type would be put in front of their buffer. -/
def SymbolTable.Underruns (env : Env) (e : Handle) (t : SymbolTable) : Prop :=
  ∃ s, firstOfType e t.type = some s ∧ env.malloc (.symtab t.type) ∧ env.malloc (.symbol t.type) ∧
    ¬ (e.Unlinked s ∧ env.freshStrtabNull) ∧ 2 ^ 31 ≤ e.entries s % 2 ^ 32

theorem elfLoadSymtabInternal_self (strtab : e.strtab ≠ []) (known : e.knownClass) {e' : Handle}
    {table : Option Symtab} (h : elfLoadSymtabInternal env e s = .ok (e', table)) : e' = e := by
  rw [elfLoadSymtabInternal_loaded strtab known] at h
  repeat' split at h
  all_goals cases h <;> rfl

/-- Nothing but its own table is changed by a loader. -/
theorem SymbolTable.load_set (headers : e.shdr.isSome) (strtab : e.strtab ≠ [])
    (known : e.knownClass) (null : t.get e = none) {e' : Handle} {ok : Bool}
    (h : t.load env e = .ok (e', ok)) : ∃ table, e' = t.set e table := by
  rw [t.load_loaded headers null] at h
  split at h
  · cases h
    refine ⟨none, ?_⟩
    rw [← null]
    cases t <;> rfl
  · split at h
    · cases h
    · rename_i e'' table loaded
      cases h
      exact ⟨table, by rw [elfLoadSymtabInternal_self strtab known loaded]⟩

variable (env) in
/-- A loader returns, unless the raw entries are put in front of their buffer. -/
theorem SymbolTable.load_cases (headers : e.shdr.isSome) (strtab : e.strtab ≠ [])
    (known : e.knownClass) (null : t.get e = none) :
    t.Underruns env e ∧ t.load env e = .error .symbolUnderrun ∨
      ¬ t.Underruns env e ∧ ∃ table ok, t.load env e = .ok (t.set e table, ok) := by
  have set {e' : Handle} {ok : Bool} (h : t.load env e = .ok (e', ok)) :
      ∃ table ok, t.load env e = .ok (t.set e table, ok) := by
    obtain ⟨table, rfl⟩ := t.load_set headers strtab known null h
    exact ⟨table, ok, h⟩
  cases found : firstOfType e t.type with
  | none =>
      have load := @SymbolTable.load_loaded env e t headers null
      rw [found] at load
      refine .inr ⟨?_, set load⟩
      rintro ⟨s, some, -⟩
      rw [found] at some
      cases some
  | some s =>
      have only : t.Underruns env e ↔ env.malloc (.symtab t.type) ∧ env.malloc (.symbol t.type) ∧
          ¬ (e.Unlinked s ∧ env.freshStrtabNull) ∧ 2 ^ 31 ≤ e.entries s % 2 ^ 32 := by
        constructor
        · rintro ⟨s', same, reason⟩
          obtain rfl := Option.some.inj (found.symm.trans same)
          exact reason
        · exact fun reason => ⟨s, found, reason⟩
      rw [only]
      by_cases granted : env.malloc (.symtab t.type) ∧ env.malloc (.symbol t.type)
      · obtain ⟨first, second⟩ := granted
        by_cases hidden : e.Unlinked s ∧ env.freshStrtabNull
        · obtain ⟨e', load⟩ := t.load_hidden headers strtab known null found first hidden
          exact .inr ⟨fun reason => reason.2.2.1 hidden, set load⟩
        · obtain ⟨link, linked, -⟩ := linkOf_reached hidden
          have load := t.load_linked headers strtab known null found first second linked
          by_cases negative : 2 ^ 31 ≤ e.entries s % 2 ^ 32
          · rw [if_pos negative] at load
            exact .inl ⟨⟨first, second, hidden, negative⟩, load⟩
          · rw [if_neg negative] at load
            refine .inr ⟨fun reason => negative reason.2.2.2, ?_⟩
            cases read : preadAll env (.symbol t.type) e s.size s.offset <;> rw [read] at load
            · exact set load
            · exact set load
      · obtain ⟨e', load⟩ := t.load_refused headers strtab known null found granted
        exact .inr ⟨fun reason => granted ⟨reason.1, reason.2.1⟩, set load⟩

/-- The tables are decoded exactly when fresh memory hides no missing link, and the number
of entries is an `int` that is not negative. -/
theorem symbols_decoded_iff (headers : e.shdr.isSome) (strtab : e.strtab ≠ [])
    (known : e.knownClass) (null : t.get e = none) :
    t.Decodes env e ↔ ∀ s, firstOfType e t.type = some s →
      env.malloc (.symtab t.type) ∧ env.malloc (.symbol t.type) →
        e.Unlinked s ∧ env.freshStrtabNull ∨
        e.entries s % 2 ^ 32 < 2 ^ 31 ∧
          (preadAll env (.symbol t.type) e s.size s.offset = none ∨
            ¬ e.Unlinked s ∧ e.entries s < 2 ^ 31) := by
  cases found : firstOfType e t.type with
  | none =>
      have load := @SymbolTable.load_loaded env e t headers null
      rw [found] at load
      rw [SymbolTable.decodes_of_null load]
      exact iff_of_true (.inl found) fun s some => by cases some
  | some s =>
      have only {p : Shdr → Prop} : (∀ s', some s = some s' → p s') ↔ p s :=
        ⟨fun h => h s rfl, fun h s' same => Option.some.inj same ▸ h⟩
      rw [only]
      have missing := @SymbolTable.missing_iff env e t s found
      by_cases granted : env.malloc (.symtab t.type) ∧ env.malloc (.symbol t.type)
      · obtain ⟨first, second⟩ := granted
        rw [or_iff_right (not_not.mpr first), or_iff_right (not_not.mpr second)] at missing
        rw [forall_prop_of_true ⟨first, second⟩]
        by_cases hidden : e.Unlinked s ∧ env.freshStrtabNull
        · obtain ⟨e', load⟩ := t.load_hidden headers strtab known null found first hidden
          rw [SymbolTable.decodes_of_null load, missing]
          exact iff_of_true (.inl hidden.1) (.inl hidden)
        · obtain ⟨link, linked, node⟩ := linkOf_reached hidden
          have load := t.load_linked headers strtab known null found first second linked
          rw [or_iff_right hidden]
          by_cases negative : 2 ^ 31 ≤ e.entries s % 2 ^ 32
          · rw [if_pos negative] at load
            refine iff_of_false (fun decodes => ?_) fun h => absurd h.1 (not_lt.mpr negative)
            obtain ⟨e', ok, returns⟩ := decodes.returns
            rw [load] at returns
            cases returns
          · rw [if_neg negative] at load
            rw [and_iff_right (not_le.mp negative)]
            cases read : preadAll env (.symbol t.type) e s.size s.offset with
            | none =>
                rw [read] at load
                rw [SymbolTable.decodes_of_null load, missing]
                exact iff_of_true (.inr read) (.inl rfl)
            | some data =>
                rw [read] at load missing
                rw [or_iff_left (fun none => by cases none)] at missing
                rw [SymbolTable.decodes_of_table load found (SymbolTable.get_set ..), missing,
                  or_iff_right (fun none => by cases none)]
                refine and_congr_right fun reached => ⟨fun decoded => ?_, fun few => ?_⟩
                · have count : (BitVec.ofNat 32 (e.entries s)).toInt = e.entries s := decoded.count
                  have bound := (BitVec.ofNat 32 (e.entries s)).toInt_lt
                  omega
                · obtain ⟨tab, member, same, rfl⟩ := node reached
                  exact decode_decoded known member same read few
      · obtain ⟨e', load⟩ := t.load_refused headers strtab known null found granted
        rw [SymbolTable.decodes_of_null load, missing]
        refine iff_of_true (.inr ?_) fun given => absurd given granted
        exact (not_and_or.mp granted).imp id .inl

end

namespace Demo

/-- The handle with its section headers and string tables. -/
def withTables : Handle := after (elfLoadStrtab env handle)

/-- The entry of the symbol table is decoded. -/
theorem symtab_decodes : SymbolTable.symtab.Decodes env withTables := by
  have strtab : withTables.strtab ≠ [] := List.cons_ne_nil _ _
  refine (symbols_decoded_iff rfl strtab rfl rfl).mpr fun s found _ => .inr ⟨?_, .inr ⟨?_, ?_⟩⟩
  all_goals cases found
  · decide
  · exact fun unlinked => unlinked _ List.mem_cons_self rfl
  · decide

/-- The same handle, with a symbol table whose string table is not there. -/
def unlinkedTables : Handle :=
  { withTables with shdr := some [⟨0, SHT_SYMTAB, 0, 0, 8, 24, 5, 0, 8, 24⟩] }

/-- Fresh memory makes up a string table. -/
theorem unlinked_notDecodes : ¬ SymbolTable.symtab.Decodes env unlinkedTables := by
  intro decodes
  have missing : SymbolTable.symtab.Missing env unlinkedTables := by
    refine .inr ⟨_, rfl, .inl fun tab member => ?_⟩
    obtain rfl := List.mem_singleton.mp member
    decide
  obtain ⟨e', null⟩ := decodes.null_iff.mpr missing
  have filled : ∃ e'', SymbolTable.symtab.load env unlinkedTables = .ok (e'', true) := ⟨_, rfl⟩
  obtain ⟨e'', filled⟩ := filled
  rw [filled] at null
  cases null

end Demo

end Elf
