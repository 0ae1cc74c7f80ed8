import AdvancedUnix.Elf.Sections
import AdvancedUnix.Elf.Tables
import AdvancedUnix.Runs.Visits
import AdvancedUnix.Sdb.Sweep

/-!
# Which section headers are consulted

Six loops read the array of section headers: those that look for the string tables, for a
symbol table or for an address begin at entry zero, and the two searches for `.text` begin
at entry one. Entry zero is the one that nobody has filled.
-/

namespace Sdb

open Elf Memory Runs

/-- The loops that read the section headers. The searches for `.text` have the names of the
sections, and that of `sdb_disasm` an address. -/
inductive Reader where
  | elfLoadStrtab (env : Elf.Env)
  | elfLoadSymtab
  | elfLoadDsymtab
  | sdbLoad (names : List Byte)
  | sdbVmmap (names : List Byte)
  | sdbDisasm (addr : Addr)

namespace Reader

/-- The index at which the loop begins. -/
def first : Reader → Nat
  | sdbLoad _ => 1
  | sdbVmmap _ => 1
  | _ => 0

/-- The loaders are left at once when their own table is there. -/
def Entered (e : Handle) : Reader → Prop
  | elfLoadStrtab _ => e.strtab = []
  | elfLoadSymtab => e.sym = none
  | elfLoadDsymtab => e.dsym = none
  | _ => True

/-- The entry at which the loop is left, by an error or with what it looks for. -/
def exit (e : Handle) : Reader → Nat → Shdr → Bool
  | elfLoadStrtab env, i, s =>
    s.type = SHT_STRTAB && (! env.malloc (.strtabNode i) || ! env.malloc (.strtabData i) ||
      (preadAll env (.strtabData i) e s.size s.offset).isNone)
  | elfLoadSymtab, _, s => s.type = SHT_SYMTAB
  | elfLoadDsymtab, _, s => s.type = SHT_DYNSYM
  | sdbLoad names, _, s => isText names s.name.toNat ≠ some false
  | sdbVmmap names, _, s => isText names s.name.toNat ≠ some false
  | sdbDisasm a, _, s => s.addr ≤ a ∧ a < s.addr + s.size

/-- The entries that the loop reads. -/
def reads (e : Handle) (table : List Shdr) (r : Reader) : List Nat :=
  visits (r.exit e) r.first (table.drop r.first)

/-- All entries that the loop reads were filled. -/
def OnlyAssigned (e : Handle) (r : Reader) : Prop :=
  ∀ table, e.shdr = some table → r.Entered e → ∀ i ∈ r.reads e table, e.Assigned i

/-- What the loop computes is the same for two arrays. -/
def SameFor (e : Handle) (table table' : List Shdr) : Reader → Prop
  | elfLoadStrtab env => loadStrtabs env e 0 table [] = loadStrtabs env e 0 table' []
  | elfLoadSymtab => (table.find? fun s => s.type = SHT_SYMTAB) =
      table'.find? fun s => s.type = SHT_SYMTAB
  | elfLoadDsymtab => (table.find? fun s => s.type = SHT_DYNSYM) =
      table'.find? fun s => s.type = SHT_DYNSYM
  | sdbLoad names => findText names (table.drop 1) = findText names (table'.drop 1)
  | sdbVmmap names => findText names (table.drop 1) = findText names (table'.drop 1)
  | sdbDisasm a => fileOffset a table = fileOffset a table'

theorem loadStrtabs_visited {env : Elf.Env} {e : Handle} {i : Nat} {table table' : List Shdr}
    (same : SameVisited ((elfLoadStrtab env).exit e) i table table') (strtab : List Strtab) :
    loadStrtabs env e i table strtab = loadStrtabs env e i table' strtab := by
  induction table generalizing i table' strtab with
  | nil => rw [show table' = [] from same]
  | cons s table ih =>
      obtain ⟨rest, rfl, later⟩ := same
      rw [loadStrtabs, loadStrtabs]
      by_cases names : s.type ≠ SHT_STRTAB
      · rw [if_pos names, if_pos names]
        refine ih (later ?_) strtab
        rw [exit, decide_eq_false names, Bool.false_and]
      · rw [if_neg names, if_neg names]
        split
        · rfl
        · rename_i allocated
          cases data : preadAll env (.strtabData i) e s.size s.offset with
          | none => rfl
          | some data' =>
              refine ih (later ?_) _
              simpa [exit, data] using fun _ => allocated

theorem find_visited {stop : Shdr → Bool} {i : Nat} {table table' : List Shdr}
    (same : SameVisited (fun _ => stop) i table table') :
    table.find? stop = table'.find? stop := by
  induction table generalizing i table' with
  | nil => rw [show table' = [] from same]
  | cons s table ih =>
      obtain ⟨rest, rfl, later⟩ := same
      rw [List.find?_cons, List.find?_cons]
      cases here : stop s with
      | true => rfl
      | false => exact ih (later here)

theorem findText_visited {names : List Byte} {i : Nat} {table table' : List Shdr}
    (same : SameVisited (fun _ s => isText names s.name.toNat ≠ some false) i table table') :
    findText names table = findText names table' := by
  induction table generalizing i table' with
  | nil => rw [show table' = [] from same]
  | cons s table ih =>
      obtain ⟨rest, rfl, later⟩ := same
      rw [findText, findText]
      cases here : isText names s.name.toNat with
      | none => rfl
      | some found =>
          cases found with
          | true => rfl
          | false => exact ih (later (by simp [here]))

/-- A loop depends on no entry but those that it reads. -/
theorem sameFor_of_reads {e : Handle} {table table' : List Shdr} (r : Reader)
    (length : table'.length = table.length)
    (agree : ∀ i ∈ r.reads e table, table'[i]? = table[i]?) : r.SameFor e table table' := by
  have same : SameVisited (r.exit e) r.first (table.drop r.first) (table'.drop r.first) := by
    refine sameVisited_of_agree (by rw [List.length_drop, List.length_drop, length]) fun i hi => ?_
    have from_ := (le_of_mem_visits hi).1
    rw [List.getElem?_drop, List.getElem?_drop, Nat.add_sub_cancel' from_]
    exact agree i hi
  cases r with
  | elfLoadStrtab env => exact loadStrtabs_visited same []
  | elfLoadSymtab => exact find_visited same
  | elfLoadDsymtab => exact find_visited same
  | sdbLoad names => exact findText_visited same
  | sdbVmmap names => exact findText_visited same
  | sdbDisasm a =>
      have found : sectionOf table a = sectionOf table' a := find_visited same
      show fileOffset a table = fileOffset a table'
      rw [fileOffset_eq, fileOffset_eq, found]

end Reader

/-- A loop reads only entries that were filled exactly when it begins at entry one, or is
not entered. -/
theorem onlyAssigned_iff {env : Elf.Env} {e e' : Handle} {header : Nat → Option Shdr}
    (null : e.shdr = none) (iterates : Iterates e.elf e.shnum header)
    (loaded : Elf.elfLoadShdr env e = .ok (e', true)) (r : Reader) :
    r.OnlyAssigned e' ↔ r.first = 1 ∨ ¬ r.Entered e' := by
  obtain ⟨table, filled, length, -, -⟩ := elfLoadShdr_entries null iterates loaded
  obtain ⟨⟨pos, -⟩, _, -, same⟩ := (elfLoadShdr_of_null null).mp loaded
  have count : e'.shnum = e.shnum := by rw [same]
  have iterates : Iterates e'.elf e'.shnum header := by
    rw [same]
    exact iterates
  rw [← count] at length pos
  constructor
  · intro assigned
    by_contra other
    obtain ⟨start, entered⟩ := not_or.mp other
    -- a loop that begins at entry zero reads it
    have zero : r.first = 0 := by
      cases r <;> first | rfl | exact absurd rfl start
    have first : 0 ∈ r.reads e' table := by
      obtain ⟨s, rest, rfl⟩ := List.exists_cons_of_length_pos (length ▸ pos)
      rw [Reader.reads, zero, List.drop_zero, visits]
      exact List.mem_cons_self
    exact (assigned_iff iterates pos).mp (assigned table filled (not_not.mp entered) 0 first) rfl
  · rintro (start | closed)
    · intro table' at_ _ i hi
      rw [filled] at at_
      cases at_
      obtain ⟨low, high⟩ := le_of_mem_visits hi
      rw [List.length_drop, start] at high
      rw [start] at low
      exact (assigned_iff iterates (by omega)).mpr (by omega)
    · exact fun _ _ entered => absurd entered closed

namespace Fragment

/-- The handle of a small file after its section headers were loaded. -/
def withHeaders : Handle := Elf.Demo.after (Elf.elfLoadShdr Elf.Demo.env Elf.Demo.handle)

theorem demo_iterates : Iterates Elf.Demo.handle.elf Elf.Demo.handle.shnum
    fun ndx => Elf.Demo.sections[ndx - 1]? := rfl

/-- The search for `.text` reads only entries that were filled. -/
theorem load_onlyAssigned :
    (Reader.sdbLoad [0x00, 0x2e, 0x74, 0x65, 0x78, 0x74, 0x00]).OnlyAssigned withHeaders :=
  (@onlyAssigned_iff Elf.Demo.env _ _ _ rfl demo_iterates rfl _).mpr (.inl rfl)

/-- The loop over the string tables reads the entry that nobody has filled. -/
theorem strtab_notAssigned : ¬ (Reader.elfLoadStrtab Elf.Demo.env).OnlyAssigned withHeaders := by
  intro assigned
  have first : some none = some (some 0) := assigned _ rfl rfl 0 List.mem_cons_self
  cases first

end Fragment

end Sdb
