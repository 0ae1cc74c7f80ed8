import AdvancedUnix.Elf.Opening
import AdvancedUnix.Sdb.Headers

/-!
# Looking up section names

The string tables are loaded into a list of nodes, the node of the section names is found
by its index, and the searches for `.text` compare each name in place. Neither the offset
of a name nor the size of the table is looked at by the comparison: it ends at the first
byte that differs from `.text` or behind its terminator.

The loop over the headers begins at entry zero, which nobody has filled. If its type happens
to be that of a string table, the list has a node too many.
-/

namespace Sdb

open Elf Memory Runs

/-- `.text` with its terminator. -/
def textName : List Byte := [0x2e, 0x74, 0x65, 0x78, 0x74, 0x00]

/-- How many bytes of the first string `strcmp` reads, where the second one is given with
its terminator: up to the first byte that differs. -/
def compared : List Byte → List Byte → Nat
  | _, [] => 0
  | [], _ :: _ => 1
  | d :: data, c :: text => if d = c then compared data text + 1 else 1

/-- The offsets that are read when a name is compared with `.text`. -/
def comparedAt (data : List Byte) (name : Nat) : List Nat :=
  List.range' name (compared (data.drop name) textName)

theorem compared_pos (data : List Byte) (c : Byte) (text : List Byte) :
    0 < compared data (c :: text) := by
  cases data with
  | nil => exact Nat.one_pos
  | cons d data =>
      rw [compared]
      split <;> omega

theorem isText_go_compared {data data' text : List Byte}
    (same : ∀ k < compared data text, data'[k]? = data[k]?) :
    isText.go data' text = isText.go data text := by
  induction text generalizing data data' with
  | nil => simp only [isText.go]
  | cons c text ih =>
      cases data with
      | nil =>
          have none := same 0 (compared_pos _ _ _)
          rw [List.getElem?_nil, List.getElem?_eq_none_iff] at none
          rw [List.length_eq_zero_iff.mp (Nat.le_zero.mp none)]
      | cons d data =>
          have first := same 0 (compared_pos _ _ _)
          cases data' with
          | nil => cases first
          | cons d' data' =>
              obtain rfl : d' = d := Option.some.inj first
              simp only [isText.go]
              by_cases equal : d' = c
              · rw [if_pos equal, if_pos equal]
                refine ih fun k hk => ?_
                have next := same (k + 1) (by rw [compared, if_pos equal]; omega)
                rwa [List.getElem?_cons_succ, List.getElem?_cons_succ] at next
              · rw [if_neg equal, if_neg equal]

/-- The comparison depends on no other bytes. -/
theorem isText_compared {data data' : List Byte} {name : Nat}
    (same : ∀ o ∈ comparedAt data name, data'[o]? = data[o]?) :
    isText data' name = isText data name := by
  refine isText_go_compared fun k hk => ?_
  rw [List.getElem?_drop, List.getElem?_drop]
  exact same _ (List.mem_range'_1.mpr ⟨Nat.le_add_right _ _, Nat.add_lt_add_left hk _⟩)

/-- A name in a table reads on inside the table. -/
def ReadsInside (tab : Strtab) (name : Nat) : Prop :=
  ∀ o ∈ comparedAt tab.data name, (o : Int) < tab.datasize.toInt

/-- What the table holds from the offset of a name on is not a proper beginning of `.text`
and its terminator, and not nothing. -/
def EndsInside (tab : Strtab) (name : Nat) : Prop :=
  ¬ ((tab.data.take tab.datasize.toInt.toNat).drop name <+: textName ∧
    (tab.data.take tab.datasize.toInt.toNat).drop name ≠ textName)

theorem compared_le_iff {data text : List Byte} {m : Nat} (bound : m ≤ data.length) :
    compared data text ≤ m ↔ ¬ (data.take m <+: text ∧ data.take m ≠ text) := by
  induction text generalizing data m with
  | nil =>
      rw [compared]
      refine iff_of_true (Nat.zero_le m) fun h => h.2 (List.prefix_nil.mp h.1)
  | cons c text ih =>
      cases data with
      | nil =>
          have zero : m = 0 := Nat.le_zero.mp bound
          subst zero
          refine iff_of_false (by rw [compared]; omega) fun h => h ⟨List.nil_prefix, ?_⟩
          exact List.cons_ne_nil c text |>.symm
      | cons d data =>
          rw [compared]
          cases m with
          | zero =>
              refine iff_of_false (by split <;> omega) fun h => h ⟨List.nil_prefix, ?_⟩
              exact List.cons_ne_nil c text |>.symm
          | succ m =>
              rw [List.take_succ_cons, List.cons_prefix_cons]
              by_cases equal : d = c
              · subst equal
                rw [if_pos rfl, Nat.succ_le_succ_iff, ih (Nat.le_of_succ_le_succ bound)]
                simp
              · rw [if_neg equal]
                exact iff_of_true (by omega) fun h => equal h.1.1

/-- All offsets that are read lie in the table when the last of them does. -/
theorem readsInside_iff {tab : Strtab} {name : Nat}
    (bound : tab.datasize.toInt ≤ tab.data.length) :
    ReadsInside tab name ↔ EndsInside tab name := by
  have pos : 0 < compared (tab.data.drop name) textName := compared_pos _ _ _
  have last : ReadsInside tab name ↔
      (name + compared (tab.data.drop name) textName : Int) ≤ tab.datasize.toInt := by
    constructor
    · intro reads
      have := reads (name + (compared (tab.data.drop name) textName - 1))
        (List.mem_range'_1.mpr (by omega))
      omega
    · intro fits o ho
      have := List.mem_range'_1.mp ho
      omega
  rw [last, EndsInside]
  by_cases inside : name < tab.datasize.toInt.toNat
  · rw [List.drop_take, ← compared_le_iff (by rw [List.length_drop]; omega)]
    omega
  · have beyond : (tab.data.take tab.datasize.toInt.toNat).drop name = [] := by
      rw [List.drop_eq_nil_iff, List.length_take]
      omega
    rw [beyond]
    refine iff_of_false (by omega) fun ends => ends ⟨List.nil_prefix, ?_⟩
    exact (List.cons_ne_nil _ _).symm

/-- The searches for `.text` compare the names of all entries from one on, up to the
first that does not differ. -/
theorem mem_reads_iff {names : List Byte} {e : Handle} {table : List Shdr} {i : Nat} :
    i ∈ (Reader.sdbLoad names).reads e table ↔ 0 < i ∧ i < table.length ∧
      ∀ j s, 0 < j → j < i → table[j]? = some s → isText names s.name.toNat = some false := by
  rw [Reader.reads, mem_visits_iff, Reader.first, List.length_drop]
  have entry : ∀ j, 0 < j → (table.drop 1)[j - 1]? = table[j]? := by
    intro j pos
    rw [List.getElem?_drop, Nat.add_sub_cancel' pos]
  constructor
  · rintro ⟨pos, inside, before⟩
    refine ⟨pos, by omega, fun j s first earlier at_ => ?_⟩
    have go := before j s first earlier (by rw [entry j first, at_])
    simpa [Reader.exit] using go
  · rintro ⟨pos, inside, before⟩
    refine ⟨pos, by omega, fun j s first earlier at_ => ?_⟩
    rw [entry j first] at at_
    simpa [Reader.exit] using before j s first earlier at_

variable {K : Type} {env : Env K} {filename : List Char} {header : Nat → Option Shdr}
  {e e' : Handle}

/-- The lookup of section names, from the list of tables to the comparisons. -/
structure NamesFaithful (env : Env K) (filename : List Char) (header : Nat → Option Shdr)
    (e : Handle) : Prop where
  nodes : ∃ e₁ ok, elfLoadStrtab env.elf e = .ok (e₁, ok) ∧
    (ok = true → e₁.strtab = (nodesOf e.elf.bytes header 1 (e.shnum - 1)).reverse)
  selects : ∀ w : World K, (∃ text, (sdbLoad env filename w).ending = .prompt (.message text)) ∨
    ∃ tab, (sdbLoad env filename w).world.sdb.strtabNode = some tab ∧ tab.id = e.shstrndx
  inside : ∀ e' tab table, elfLoadAll env.elf e = .ok (e', true) →
    e'.strtab.find? (fun tab => tab.id = e'.shstrndx) = some tab → e'.shdr = some table →
      ∀ r ∈ [Reader.sdbLoad tab.data, .sdbVmmap tab.data],
        ∀ i ∈ r.reads e' table, ∀ s, table[i]? = some s → ReadsInside tab s.name.toNat

/-- `sdb_load` reports a failure, or the debugger has the table of the section names. -/
theorem sdbLoad_selects {ok : Bool} (opened : elfOpen env.elf filename = .ok (some e))
    (returns : elfLoadAll env.elf e = .ok (e', ok)) (w : World K) :
    (∃ text, (sdbLoad env filename w).ending = .prompt (.message text)) ∨
      ∃ tab, (sdbLoad env filename w).world.sdb.strtabNode = some tab ∧ tab.id = e.shstrndx := by
  have index : e'.shstrndx = e.shstrndx := by
    obtain ⟨-, keeps, -⟩ | ⟨-, released⟩ := elfLoadAll_cases returns
    · exact keeps.shstrndx
    · rw [released, Handle.releaseTables]
  unfold sdbLoad
  rw [opened]
  simp only [returns]
  split
  · exact .inl ⟨_, rfl⟩
  · cases found : e'.strtab.find? fun tab => tab.id = e'.shstrndx with
    | none => exact .inl ⟨_, rfl⟩
    | some tab =>
        have id : tab.id = e'.shstrndx := by simpa using List.find?_some found
        refine .inr ⟨tab, ?_, id.trans index⟩
        simp only
        split <;> [skip; split] <;>
          simp only [SDB.strtabNode, SDB.reset, if_true, id] <;> exact found

/-- When `elf_load_all` does not return, a debugger without a table is left without one. -/
theorem sdbLoad_faulted {f : Elf.Fault} (opened : elfOpen env.elf filename = .ok (some e))
    (faults : elfLoadAll env.elf e = .error f) {w : World K} (none : w.sdb.strtab = none) :
    ¬ ((∃ text, (sdbLoad env filename w).ending = .prompt (.message text)) ∨
      ∃ tab, (sdbLoad env filename w).world.sdb.strtabNode = some tab ∧ tab.id = e.shstrndx) := by
  unfold sdbLoad
  rw [opened]
  simp only [faults]
  rintro (⟨text, message⟩ | ⟨tab, node, -⟩)
  · cases message
  · rw [SDB.strtabNode, none] at node
    cases node

/-- Each name that is compared ends in the table, or differs from `.text` before its end. -/
def NamesEnd (header : Nat → Option Shdr) (shnum : Nat) (tab : Strtab) : Prop :=
  ∀ i s, 0 < i → i < shnum → header i = some s →
    (∀ j s', 0 < j → j < i → header j = some s' → isText tab.data s'.name.toNat = some false) →
      EndsInside tab s.name.toNat

/-- With the headers in the array, the comparisons stay inside exactly when the names end. -/
theorem reads_inside_iff {table : List Shdr} {shnum : Nat} {tab : Strtab}
    (length : table.length = shnum) (entries : ∀ i, 0 < i → i < shnum → table[i]? = header i)
    (bound : tab.datasize.toInt ≤ tab.data.length) :
    (∀ r ∈ [Reader.sdbLoad tab.data, .sdbVmmap tab.data], ∀ i ∈ r.reads e table,
      ∀ s, table[i]? = some s → ReadsInside tab s.name.toNat) ↔ NamesEnd header shnum tab := by
  constructor
  · intro inside i s pos below at_ before
    rw [← entries i pos below] at at_
    refine (readsInside_iff bound).mp (inside _ List.mem_cons_self i ?_ s at_)
    refine mem_reads_iff.mpr ⟨pos, length ▸ below, fun j s' first earlier at' => ?_⟩
    rw [entries j first (by omega)] at at'
    exact before j s' first earlier at'
  · intro ends r hr i hi s at_
    -- both searches go through the same entries
    have visited : i ∈ (Reader.sdbLoad tab.data).reads e table := by
      obtain rfl | rest := List.mem_cons.mp hr
      · exact hi
      · obtain rfl := List.mem_singleton.mp rest
        exact hi
    obtain ⟨pos, below, before⟩ := mem_reads_iff.mp visited
    rw [length] at below
    rw [entries i pos below] at at_
    refine (readsInside_iff bound).mpr (ends i s pos below at_ fun j s' first earlier at' => ?_)
    rw [← entries j first (by omega)] at at'
    exact before j s' first earlier at'

/-- What the lookup asks of the file, the allocator and fresh memory. -/
structure NamesSound (env : Elf.Env) (header : Nat → Option Shdr) (e : Handle) : Prop where
  headers : 0 < e.shnum ∧ env.malloc .shdr → e.Given header
  segments : 0 < e.phnum ∧ env.malloc .phdr → e.elf.phdrs.isSome
  fresh : StrtabsLoad env e header → (env.freshShdr 0).type ≠ SHT_STRTAB
  counts : PhdrsLoad env e ∧ StrtabsLoad env e header → ∀ t, ¬ NegativeCount env e header t
  names : PhdrsLoad env e ∧ StrtabsLoad env e header → 0 < e.shstrndx → e.shstrndx < e.shnum →
    ∀ tab, (header e.shstrndx).bind (nodeOf e.elf.bytes e.shstrndx) = some tab →
      NamesEnd header e.shnum tab

/-- The tables that `elf_load_all` leaves when entry zero is no string table. -/
theorem elfLoadAll_tables (fresh : e.Fresh) (iterates : Iterates e.elf e.shnum header)
    (returns : elfLoadAll env.elf e = .ok (e', true))
    (free : (env.elf.freshShdr 0).type ≠ SHT_STRTAB) :
    ∃ table, e'.shdr = some table ∧ table.length = e.shnum ∧
      (∀ i, 0 < i → i < e.shnum → table[i]? = header i) ∧
      (∀ tab ∈ e'.strtab, tab.datasize.toInt ≤ tab.data.length) ∧
      (e'.strtab.find? fun tab => tab.id = e'.shstrndx) =
        if 1 ≤ e.shstrndx ∧ e.shstrndx < 1 + (e.shnum - 1) then
          (header e.shstrndx).bind (nodeOf e.elf.bytes e.shstrndx) else none := by
  obtain ⟨-, keeps, -⟩ | ⟨failed, -⟩ := elfLoadAll_cases returns
  · obtain ⟨e₁, loaded, list, headers⟩ := elfLoadAll_strtab fresh.shdr fresh.strtab returns
    obtain ⟨table, filled, length, entries, loop, nodes⟩ :=
      elfLoadStrtab_nodes fresh.shdr fresh.strtab iterates loaded
    rw [nodeOf_eq_none.mpr free, Option.toList_none, List.append_nil] at nodes
    refine ⟨table, headers.trans filled, length, entries, ?_, ?_⟩
    · rw [list]
      exact loadStrtabs_bound loop fun tab none => absurd none List.not_mem_nil
    · rw [list, nodes, keeps.shstrndx, find_nodesOf]
  · cases failed

/-- The list has a node for entry zero exactly when memory held the type of one. -/
theorem nodes_iff_fresh (fresh : e.Fresh) (iterates : Iterates e.elf e.shnum header)
    {e₁ : Handle} (loaded : elfLoadStrtab env.elf e = .ok (e₁, true)) :
    e₁.strtab = (nodesOf e.elf.bytes header 1 (e.shnum - 1)).reverse ↔
      (env.elf.freshShdr 0).type ≠ SHT_STRTAB := by
  obtain ⟨_, -, -, -, -, nodes⟩ :=
    elfLoadStrtab_nodes fresh.shdr fresh.strtab iterates loaded
  rw [nodes, List.append_right_eq_self, Option.toList_eq_nil_iff, nodeOf_eq_none]

/-- The lookup is faithful exactly when libelf gives the headers that are dereferenced, fresh
memory does not look like a string table, no symbol table has a negative count, and the names
that are compared end inside the table that the file names. -/
theorem names_faithful_iff (opened : elfOpen env.elf filename = .ok (some e))
    (iterates : Iterates e.elf e.shnum header) :
    NamesFaithful env filename header e ↔ NamesSound env.elf header e := by
  have fresh := elfOpen_fresh opened
  have strtabs := elfLoadStrtab_cases env.elf fresh.shdr fresh.strtab fresh.known iterates
  constructor
  · intro faithful
    have given : 0 < e.shnum ∧ env.elf.malloc .shdr → e.Given header := by
      obtain ⟨-, f, faults⟩ | ⟨loads, -⟩ | ⟨given, -⟩ := strtabs
      · obtain ⟨e₁, ok, load, -⟩ := faithful.nodes
        rw [faults] at load
        cases load
      · exact fun _ => loads.given
      · exact given
    have free : StrtabsLoad env.elf e header → (env.elf.freshShdr 0).type ≠ SHT_STRTAB := by
      intro loads
      obtain ⟨⟨array, missing⟩, -⟩ | ⟨-, e₁, loaded⟩ | ⟨-, missing, -⟩ := strtabs
      · exact absurd (given array) missing
      · obtain ⟨_, _, load, nodes⟩ := faithful.nodes
        rw [loaded] at load
        cases load
        exact (nodes_iff_fresh fresh iterates loaded).mp (nodes rfl)
      · exact absurd loads missing
    have returns : ∀ f, elfLoadAll env.elf e ≠ .error f := fun f faults =>
      sdbLoad_faulted opened faults (w := (created fun _ => ⟨false, 0, 0⟩).world) rfl
        (faithful.selects _)
    have outcome := elfLoadAll_outcome fresh iterates given
    generalize result : elfLoadAll env.elf e = r at outcome
    cases outcome with
    | segments f _ _ => exact absurd result (returns f)
    | underrun f _ _ _ => exact absurd result (returns f)
    | refused e' missing segments =>
        exact ⟨given, segments, free, fun loads => absurd loads missing,
          fun loads => absurd loads missing⟩
    | loaded e' loads counts =>
        refine ⟨given, fun _ => loads.1.given, free, fun _ => counts, ?_⟩
        intro _ pos below tab node
        obtain ⟨table, filled, length, entries, bound, find⟩ :=
          elfLoadAll_tables fresh iterates result (free loads.2)
        rw [if_pos (by omega), node] at find
        have size := bound tab (List.mem_of_find?_eq_some find)
        exact (reads_inside_iff length entries size).mp
          (faithful.inside e' tab table result find filled)
  · intro sound
    have outcome := elfLoadAll_outcome fresh iterates sound.headers
    refine ⟨?_, fun w => ?_, fun e' tab table returns find filled => ?_⟩
    · obtain ⟨⟨array, missing⟩, -⟩ | ⟨loads, e₁, loaded⟩ | ⟨-, -, e₁, failed⟩ := strtabs
      · exact absurd (sound.headers array) missing
      · exact ⟨e₁, true, loaded, fun _ =>
          (nodes_iff_fresh fresh iterates loaded).mpr (sound.fresh loads)⟩
      · exact ⟨e₁, false, failed, fun ok => absurd ok Bool.false_ne_true⟩
    · generalize result : elfLoadAll env.elf e = r at outcome
      cases outcome with
      | segments f wanted null =>
          have given := sound.segments wanted
          rw [null] at given
          cases given
      | underrun f loads t negative => exact absurd negative (sound.counts loads t)
      | refused e' _ _ => exact sdbLoad_selects opened result w
      | loaded e' _ _ => exact sdbLoad_selects opened result w
    · rw [returns] at outcome
      cases outcome with
      | loaded _ loads _ =>
          obtain ⟨table', filled', length, entries, bound, find'⟩ :=
            elfLoadAll_tables fresh iterates returns (sound.fresh loads.2)
          obtain rfl : table = table' := Option.some.inj (filled.symm.trans filled')
          have size := bound tab (List.mem_of_find?_eq_some find)
          rw [find] at find'
          split at find'
          · exact (reads_inside_iff length entries size).mpr
              (sound.names loads (by omega) (by omega) tab find'.symm)
          · cases find'

namespace Fragment

/-- A file whose table of section names ends with the last letter of `.text`. -/
def unterminated : Elf.File :=
  { file 2 with
    scns := [(1, some ⟨1, 1, 6, 0x400000, 0, 16, 0, 0, 16, 0⟩),
      (2, some ⟨0, SHT_STRTAB, 0, 0, 0, 6, 0, 0, 1, 0⟩)]
    bytes := [0x00, 0x2e, 0x74, 0x65, 0x78, 0x74] }

/-- Surroundings in which every name is that of one file. -/
def onlyFile (file : Elf.File) : Env Maps :=
  { Fragment.env ⟨7, seven_pos⟩ nops 64 with
    elf := ⟨fun _ => some file, fun _ => true, fun _ => true,
      fun _ => ⟨0, 0, 0, 0, 0, 0, 0, 0, 0, 0⟩, true⟩ }

/-- The header of a section, as libelf gives it. -/
def givenHeader (file : Elf.File) (ndx : Nat) : Option Shdr :=
  (file.scns.lookup ndx).bind id

/-- A handle that was just opened. -/
def openedHandle (file : Elf.File) : Handle :=
  { Elf.Demo.handle with elf := file, shnum := 3 }

/-- The names of the fixed-address program end inside their table. -/
theorem prog_namesFaithful :
    NamesFaithful (onlyFile (file 2)) "/bin/prog".toList (givenHeader (file 2))
      (openedHandle (file 2)) := by
  have opened : elfOpen (onlyFile (file 2)).elf "/bin/prog".toList =
      .ok (some (openedHandle (file 2))) := rfl
  have iterates : Iterates (file 2) 3 (givenHeader (file 2)) := rfl
  have two (i : Nat) (pos : 0 < i) (below : i < 3) : i = 1 ∨ i = 2 := by omega
  refine (names_faithful_iff opened iterates).mpr
    ⟨fun _ i pos below => ?_, fun _ => rfl, fun _ => by decide, fun _ t => ?_,
      fun _ _ _ tab node i s pos below at_ _ => ?_⟩
  · obtain rfl | rfl := two i pos below <;> rfl
  · rintro ⟨s, ⟨i, below, at_, type, -⟩, -⟩
    have three : i = 0 ∨ i = 1 ∨ i = 2 := by
      have : i < 3 := below
      omega
    obtain rfl | rfl | rfl := three <;> cases at_ <;> cases t <;> exact absurd type (by decide)
  · cases node
    obtain rfl | rfl := two i pos below <;> cases at_ <;> unfold EndsInside <;> decide

/-- Without a terminator the search reads the byte behind the table. -/
theorem unterminated_notFaithful :
    ¬ NamesFaithful (onlyFile unterminated) "/bin/prog".toList (givenHeader unterminated)
      (openedHandle unterminated) := by
  intro faithful
  have text : ∀ r ∈ [Reader.sdbLoad unterminated.bytes, .sdbVmmap unterminated.bytes],
      ∀ i ∈ r.reads _ _, ∀ s : Shdr, _ → ReadsInside ⟨2, 6, unterminated.bytes⟩ s.name.toNat :=
    faithful.inside _ _ _ rfl rfl rfl
  have behind := text _ List.mem_cons_self 1 List.mem_cons_self _ rfl 6 (by decide)
  exact absurd behind (by decide)

end Fragment

end Sdb
