import AdvancedUnix.Elf.Sections
import AdvancedUnix.Elf.Symbols

/-!
# Loading the tables of a file that was just opened

Which tables the loaders find in a fresh handle is decided by the headers that libelf gives,
by what entry zero of the array happens to hold, by the allocator and by `pread`.
`StrtabsLoad` says of these when the string tables load, and `elf_load_all` returns with
all tables exactly when the segments load too and no symbol table has a negative count.
-/

namespace Elf

open Memory

/-- The node for a section, if it is a string table. -/
def nodeOf (bytes : List Byte) (i : Nat) (s : Shdr) : Option Strtab :=
  if s.type = SHT_STRTAB then
    some ⟨i, s.size.setWidth 32, (bytes.drop s.offset.toNat).take s.size.toNat⟩
  else none

theorem nodeOf_id {bytes : List Byte} {i : Nat} {s : Option Shdr} {tab : Strtab}
    (h : s.bind (nodeOf bytes i) = some tab) : tab.id = i := by
  obtain ⟨s, -, node⟩ := Option.bind_eq_some_iff.mp h
  rw [nodeOf] at node
  split at node
  · cases node
    rfl
  · cases node

/-- The nodes for a range of sections, in the order of their indices. -/
def nodesOf (bytes : List Byte) (header : Nat → Option Shdr) (first count : Nat) : List Strtab :=
  (List.range' first count).filterMap fun i => (header i).bind (nodeOf bytes i)

theorem nodesOf_succ (bytes : List Byte) (header : Nat → Option Shdr) (first count : Nat) :
    nodesOf bytes header first (count + 1) =
      ((header first).bind (nodeOf bytes first)).toList ++
        nodesOf bytes header (first + 1) count := by
  rw [nodesOf, List.range'_succ, List.filterMap_cons]
  cases (header first).bind (nodeOf bytes first) <;> rfl

/-- The loop puts the nodes in front of the list, one after the other. -/
theorem loadStrtabs_nodes {env : Env} {e : Handle} {header : Nat → Option Shdr} {i : Nat}
    {table : List Shdr} {strtab strtab' : List Strtab}
    (entries : ∀ k < table.length, table[k]? = header (i + k))
    (h : loadStrtabs env e i table strtab = some strtab') :
    strtab' = (nodesOf e.elf.bytes header i table.length).reverse ++ strtab := by
  induction table generalizing i strtab with
  | nil =>
      cases h
      rfl
  | cons s table ih =>
      have first : header i = some s := (entries 0 (Nat.succ_pos _)).symm
      have rest : ∀ k < table.length, table[k]? = header (i + 1 + k) := by
        intro k hk
        rw [Nat.add_assoc, Nat.add_comm 1 k]
        exact entries (k + 1) (Nat.succ_lt_succ hk)
      rw [List.length_cons, nodesOf_succ, first, Option.bind_some, nodeOf]
      rw [loadStrtabs] at h
      by_cases names : s.type ≠ SHT_STRTAB
      · rw [if_pos names] at h
        rw [if_neg names]
        exact ih rest h
      · rw [if_neg names] at h
        rw [if_pos (not_not.mp names), List.reverse_append]
        split at h
        · cases h
        · cases read : preadAll env (.strtabData i) e s.size s.offset with
          | none =>
              rw [read] at h
              cases h
          | some data =>
              rw [read] at h
              obtain ⟨rfl, -⟩ := preadAll_eq_some read
              rw [List.append_assoc]
              exact ih rest h

/-- The node with an index, among those of consecutive sections. -/
theorem find_nodesOf {bytes : List Byte} {header : Nat → Option Shdr} {first count : Nat}
    (k : Nat) : ((nodesOf bytes header first count).reverse.find? fun tab => tab.id = k) =
      if first ≤ k ∧ k < first + count then (header k).bind (nodeOf bytes k) else none := by
  induction count generalizing first with
  | zero => rw [if_neg (by omega)]; rfl
  | succ count ih =>
      rw [nodesOf_succ, List.reverse_append, List.find?_append, ih]
      by_cases here : k = first
      · subst here
        have before : ¬ (k + 1 ≤ k ∧ k < k + 1 + count) := by omega
        have inside : k ≤ k ∧ k < k + (count + 1) := by omega
        rw [if_neg before, if_pos inside, Option.none_or]
        cases node : (header k).bind (nodeOf bytes k) with
        | none => rfl
        | some tab =>
            show [tab].find? _ = _
            rw [List.find?_singleton, if_pos (decide_eq_true (nodeOf_id node))]
      · have rest : (((header first).bind (nodeOf bytes first)).toList.reverse.find?
            fun tab => tab.id = k) = none := by
          cases node : (header first).bind (nodeOf bytes first) with
          | none => rfl
          | some tab =>
              show [tab].find? _ = _
              have other : ¬ decide (tab.id = k) = true := fun same =>
                here ((of_decide_eq_true same).symm.trans (nodeOf_id node))
              rw [List.find?_singleton, if_neg other]
        rw [rest, Option.or_none]
        exact if_congr (by omega) rfl rfl

/-- The loop looks at nothing of the handle but the file. -/
theorem loadStrtabs_elf {env : Env} {e e₁ : Handle} (same : e₁.elf = e.elf) (i : Nat)
    (table : List Shdr) (strtab : List Strtab) :
    loadStrtabs env e₁ i table strtab = loadStrtabs env e i table strtab := by
  induction table generalizing i strtab with
  | nil => rfl
  | cons s table ih =>
      rw [loadStrtabs, loadStrtabs, ih, preadAll, preadAll, same]
      congr 2
      split <;> simp only [ih]

theorem elfLoadStrtab_of_null {env : Env} {e e' : Handle} (null : e.strtab = []) :
    elfLoadStrtab env e = .ok (e', true) ↔
      ∃ e₁ strtab, elfLoadShdr env e = .ok (e₁, true) ∧
        loadStrtabs env e 0 (e₁.shdr.getD []) [] = some strtab ∧ strtab ≠ [] ∧
        e' = { e₁ with strtab := strtab } := by
  rw [elfLoadStrtab, if_neg (not_not.mpr null)]
  constructor
  · intro h
    split at h
    · cases h
    · cases h
    · rename_i e₁ headers
      have elf : e₁.elf = e.elf := (elfLoadShdr_grows headers).1.elf
      split at h
      · cases h
      · rename_i strtab loaded
        rw [loadStrtabs_elf elf] at loaded
        obtain ⟨same, nodes⟩ := Prod.mk.inj (Except.ok.inj h)
        exact ⟨e₁, strtab, headers, loaded, of_decide_eq_true nodes, same.symm⟩
  · rintro ⟨e₁, strtab, headers, loaded, nodes, rfl⟩
    have elf : e₁.elf = e.elf := (elfLoadShdr_grows headers).1.elf
    rw [headers]
    simp only
    rw [loadStrtabs_elf elf, loaded]
    simp only [decide_eq_true nodes]

theorem elfLoadPhdr_eq {env : Env} {e e' : Handle} (h : elfLoadPhdr env e = .ok (e', true)) :
    e' = { e with phdr := e'.phdr } := by
  unfold elfLoadPhdr at h
  split at h
  · cases h
    rfl
  · split at h
    · cases h
    · split at h
      · cases h
      · cases h
        rfl

/-- The segments do not matter for the section headers. -/
theorem elfLoadShdr_phdr {env : Env} {e e' : Handle} {phdr : Option (List Phdr)}
    (null : e.shdr = none) (h : elfLoadShdr env { e with phdr := phdr } = .ok (e', true)) :
    ∃ e₁, elfLoadShdr env e = .ok (e₁, true) ∧ e' = { e₁ with phdr := phdr } := by
  have null' : ({ e with phdr := phdr } : Handle).shdr = none := null
  obtain ⟨ready, table, filled, rfl⟩ := (elfLoadShdr_of_null null').mp h
  exact ⟨_, (elfLoadShdr_of_null null).mpr ⟨ready, table, filled, rfl⟩, rfl⟩

/-- The string tables that `elf_load_all` leaves are those of `elf_load_strtab`. -/
theorem elfLoadAll_strtab {env : Env} {e e' : Handle} (shdr : e.shdr = none)
    (strtab : e.strtab = []) (h : elfLoadAll env e = .ok (e', true)) :
    ∃ e₁, elfLoadStrtab env e = .ok (e₁, true) ∧ e'.strtab = e₁.strtab ∧ e'.shdr = e₁.shdr := by
  unfold elfLoadAll at h
  split at h
  · cases h
  · cases h
  · rename_i e₁ hphdr
    split at h
    · cases h
    · cases h
    · rename_i e₂ hshdr
      split at h
      · cases h
      · cases h
      · rename_i e₃ hstrtab
        split at h
        · cases h
        · rename_i e₄ _ hsym
          split at h
          · cases h
          · rename_i e₅ _ hdsym
            cases h
            rw [elfLoadPhdr_eq hphdr] at hshdr
            obtain ⟨e₆, headers, rfl⟩ := elfLoadShdr_phdr shdr hshdr
            have loaded := (elfLoadShdr_grows headers).2 rfl
            have empty : e₆.strtab = [] := (elfLoadShdr_strtab headers).trans strtab
            obtain ⟨_, nodes, again, names, some, rfl⟩ :=
              (elfLoadStrtab_of_null (e := { e₆ with phdr := e₁.phdr }) empty).mp hstrtab
            rw [elfLoadShdr, if_pos loaded] at again
            cases again
            have after := (elfLoadSymtab_keeps hsym).1.trans (elfLoadDsymtab_keeps hdsym).1
            refine ⟨{ e₆ with strtab := nodes }, ?_, after.strtab some, after.shdr loaded⟩
            have elf : ({ e₆ with phdr := e₁.phdr } : Handle).elf = e.elf :=
              (elfLoadShdr_grows headers).1.elf
            rw [loadStrtabs_elf elf] at names
            exact (elfLoadStrtab_of_null strtab).mpr ⟨e₆, nodes, headers, names, some, rfl⟩

theorem nodeOf_eq_none {bytes : List Byte} {i : Nat} {s : Shdr} :
    nodeOf bytes i s = none ↔ s.type ≠ SHT_STRTAB := by
  rw [nodeOf, ite_eq_right_iff]
  exact forall_congr' fun _ => iff_of_false (fun same => by cases same) id

/-- The list of a fresh handle has the nodes of the sections, and one for entry zero if
memory happens to say so. -/
theorem elfLoadStrtab_nodes {env : Env} {e e' : Handle} {header : Nat → Option Shdr}
    (shdr : e.shdr = none) (strtab : e.strtab = []) (iterates : Iterates e.elf e.shnum header)
    (h : elfLoadStrtab env e = .ok (e', true)) :
    ∃ table, e'.shdr = some table ∧ table.length = e.shnum ∧
      (∀ i, 0 < i → i < e.shnum → table[i]? = header i) ∧
      loadStrtabs env e 0 table [] = some e'.strtab ∧
      e'.strtab = (nodesOf e.elf.bytes header 1 (e.shnum - 1)).reverse ++
        (nodeOf e.elf.bytes 0 (env.freshShdr 0)).toList := by
  obtain ⟨e₁, nodes, headers, loaded, -, rfl⟩ := (elfLoadStrtab_of_null strtab).mp h
  obtain ⟨table, filled, length, zero, entries⟩ := elfLoadShdr_entries shdr iterates headers
  rw [filled, Option.getD_some] at loaded
  refine ⟨table, filled, length, entries, loaded, ?_⟩
  have all : nodes = (nodesOf e.elf.bytes (fun i => table[i]?) 0 table.length).reverse ++ [] :=
    loadStrtabs_nodes (fun k _ => by rw [Nat.zero_add]) loaded
  obtain ⟨⟨pos, -⟩, -⟩ := (elfLoadShdr_of_null shdr).mp headers
  obtain ⟨count, counted⟩ : ∃ count, e.shnum = count + 1 := ⟨e.shnum - 1, by omega⟩
  have rest : nodesOf e.elf.bytes (fun i => table[i]?) 1 count =
      nodesOf e.elf.bytes header 1 count := by
    refine List.filterMap_congr fun i hi => ?_
    have range := List.mem_range'_1.mp hi
    show (table[i]?).bind _ = _
    rw [entries i (by omega) (by omega)]
  rw [length, counted, nodesOf_succ, zero, Option.bind_some, rest, List.append_nil,
    List.reverse_append] at all
  rw [counted, Nat.add_sub_cancel]
  show nodes = _
  rw [all]
  cases nodeOf e.elf.bytes 0 (env.freshShdr 0) <;> rfl

/-- The size of a node is never more than what it holds. -/
theorem loadStrtabs_bound {env : Env} {e : Handle} {i : Nat} {table : List Shdr}
    {strtab strtab' : List Strtab} (h : loadStrtabs env e i table strtab = some strtab')
    (before : ∀ tab ∈ strtab, tab.datasize.toInt ≤ tab.data.length) :
    ∀ tab ∈ strtab', tab.datasize.toInt ≤ tab.data.length := by
  induction table generalizing i strtab with
  | nil =>
      cases h
      exact before
  | cons s table ih =>
      rw [loadStrtabs] at h
      split at h
      · exact ih h before
      · split at h
        · cases h
        · split at h
          · cases h
          · rename_i data read
            refine ih h fun tab ht => ?_
            obtain rfl | old := List.mem_cons.mp ht
            · have all := (preadAll_eq_some read).2
              have int := BitVec.toInt_eq_toNat_cond (s.size.setWidth 32)
              have nat : (s.size.setWidth 32).toNat = s.size.toNat % 2 ^ 32 :=
                BitVec.toNat_setWidth 32 s.size
              show (s.size.setWidth 32).toInt ≤ data.length
              split at int <;> omega
            · exact before tab old

/-- A handle that `elf_open` returned, before any table is loaded. -/
structure Handle.Fresh (e : Handle) : Prop where
  known : e.knownClass
  phdr : e.phdr = none
  shdr : e.shdr = none
  strtab : e.strtab = []
  sym : e.sym = none
  dsym : e.dsym = none

theorem elfOpen_fresh {env : Env} {filename : List Char} {e : Handle}
    (h : elfOpen env filename = .ok (some e)) : e.Fresh := by
  unfold elfOpen at h
  repeat' split at h
  all_goals cases h
  all_goals
    refine ⟨?_, rfl, rfl, rfl, rfl, rfl⟩
    unfold Handle.knownClass
    simp

/-- There are segments, memory for them, and a table of them from libelf. -/
structure PhdrsLoad (env : Env) (e : Handle) : Prop where
  count : 0 < e.phnum
  array : env.malloc .phdr
  given : e.elf.phdrs.isSome

/-- The allocator and `pread` deliver a string table. -/
def Delivered (env : Env) (e : Handle) (i : Nat) (s : Shdr) : Prop :=
  env.malloc (.strtabNode i) ∧ env.malloc (.strtabData i) ∧
    (preadAll env (.strtabData i) e s.size s.offset).isSome

/-- The section headers load, there is a string table among them, and each is delivered. -/
structure StrtabsLoad (env : Env) (e : Handle) (header : Nat → Option Shdr) : Prop where
  array : 0 < e.shnum ∧ env.malloc .shdr
  given : e.Given header
  delivered : ∀ i < e.shnum, ∀ s, entryOf env header i = some s → s.type = SHT_STRTAB →
    Delivered env e i s
  some : ∃ i < e.shnum, ∃ s, entryOf env header i = some s ∧ s.type = SHT_STRTAB

/-- The first entry of a type has this header. -/
def FirstEntry (env : Env) (e : Handle) (header : Nat → Option Shdr) (type : Word) (s : Shdr) :
    Prop :=
  ∃ i < e.shnum, entryOf env header i = some s ∧ s.type = type ∧
    ∀ j < i, ∀ s', entryOf env header j = some s' → s'.type ≠ type

/-- A section links to the entry of a string table. -/
def Links (env : Env) (e : Handle) (header : Nat → Option Shdr) (s : Shdr) : Prop :=
  ∃ i < e.shnum, ∃ s', entryOf env header i = some s' ∧ s'.type = SHT_STRTAB ∧
    s.link = BitVec.ofNat 64 i

/-- The first symbol table of the kind is reached by its loader, and has so many entries that
their number is a negative `int`. -/
def NegativeCount (env : Env) (e : Handle) (header : Nat → Option Shdr) (t : SymbolTable) :
    Prop :=
  ∃ s, FirstEntry env e header t.type s ∧ env.malloc (.symtab t.type) ∧
    env.malloc (.symbol t.type) ∧ (Links env e header s ∨ ¬ env.freshStrtabNull) ∧
      2 ^ 31 ≤ e.entries s % 2 ^ 32

section Outcome

variable {env : Env} {e e' : Handle} {header : Nat → Option Shdr} {table : List Shdr}

theorem StrtabsLoad.of_eq (h : StrtabsLoad env e header) (shnum : e'.shnum = e.shnum)
    (elf : e'.elf = e.elf) : StrtabsLoad env e' header := by
  obtain ⟨array, given, delivered, some⟩ := h
  simp only [Handle.Given, Delivered, preadAll, ← shnum, ← elf] at array given delivered some
  exact ⟨array, given, delivered, some⟩

variable (env) in
theorem elfLoadPhdr_cases (fresh : e.Fresh) :
    ¬ (0 < e.phnum ∧ env.malloc .phdr) ∧ elfLoadPhdr env e = .ok (e, false) ∨
      (0 < e.phnum ∧ env.malloc .phdr) ∧ e.elf.phdrs = none ∧
        (∃ f, elfLoadPhdr env e = .error f) ∨
      PhdrsLoad env e ∧ ∃ phdr, elfLoadPhdr env e = .ok ({ e with phdr := some phdr }, true) := by
  have null : ¬ e.phdr.isSome := by
    rw [fresh.phdr]
    exact Bool.false_ne_true
  by_cases ready : 0 < e.phnum ∧ env.malloc .phdr
  · have start := ready_iff.mpr ⟨ready.1, fresh.known, ready.2⟩
    rw [elfLoadPhdr, if_neg null, if_neg start]
    cases given : e.elf.phdrs with
    | none => exact .inr (.inl ⟨ready, rfl, _, rfl⟩)
    | some p => exact .inr (.inr ⟨⟨ready.1, ready.2, by rw [given]; rfl⟩, _, rfl⟩)
  · refine .inl ⟨ready, ?_⟩
    have stop : e.phnum = 0 ∨ ¬ e.knownClass ∨ ¬ env.malloc .phdr := by
      by_contra start
      obtain ⟨count, -, array⟩ := ready_iff.mp start
      exact ready ⟨count, array⟩
    rw [elfLoadPhdr, if_neg null, if_pos stop]

/-- The loop ends without an error when each string table is delivered. -/
theorem loadStrtabs_isSome_iff {i : Nat} {strtab : List Strtab} :
    (loadStrtabs env e i table strtab).isSome ↔
      ∀ k s, table[k]? = some s → s.type = SHT_STRTAB → Delivered env e (i + k) s := by
  induction table generalizing i strtab with
  | nil => exact iff_of_true rfl fun k s at_ => by cases at_
  | cons s table ih =>
      have split : (∀ k s', (s :: table)[k]? = some s' → s'.type = SHT_STRTAB →
          Delivered env e (i + k) s') ↔ (s.type = SHT_STRTAB → Delivered env e i s) ∧
            ∀ k s', table[k]? = some s' → s'.type = SHT_STRTAB →
              Delivered env e (i + 1 + k) s' := by
        constructor
        · intro all
          refine ⟨all 0 s rfl, fun k s' at_ => ?_⟩
          rw [Nat.add_assoc, Nat.add_comm 1 k]
          exact all (k + 1) s' at_
        · rintro ⟨first, rest⟩ k s' at_
          cases k with
          | zero => exact Option.some.inj at_ ▸ first
          | succ k =>
              rw [Nat.add_comm k 1, ← Nat.add_assoc]
              exact rest k s' at_
      rw [split, loadStrtabs]
      by_cases names : s.type ≠ SHT_STRTAB
      · rw [if_pos names, ih, and_iff_right fun same => absurd same names]
      · rw [if_neg names, forall_prop_of_true (not_not.mp names), Delivered]
        by_cases allocated : ¬ env.malloc (.strtabNode i) ∨ ¬ env.malloc (.strtabData i)
        · rw [if_pos allocated]
          refine iff_of_false Bool.false_ne_true fun h => ?_
          obtain first | second := allocated
          · exact first h.1.1
          · exact second h.1.2.1
        · rw [if_neg allocated]
          simp only [not_or, not_not] at allocated
          cases preadAll env (.strtabData i) e s.size s.offset with
          | none => exact iff_of_false Bool.false_ne_true fun h => Bool.false_ne_true h.1.2.2
          | some data =>
              simp only [ih]
              exact (and_iff_right ⟨allocated.1, allocated.2, rfl⟩).symm

/-- The nodes have the indices of the string tables. -/
theorem exists_mem_nodesOf {bytes : List Byte} {count : Nat} {p : Nat → Prop} :
    (∃ tab ∈ nodesOf bytes header 0 count, p tab.id) ↔
      ∃ i < count, ∃ s, header i = some s ∧ s.type = SHT_STRTAB ∧ p i := by
  constructor
  · rintro ⟨tab, member, here⟩
    obtain ⟨i, range, node⟩ := List.mem_filterMap.mp member
    have id := nodeOf_id node
    obtain ⟨s, at_, node⟩ := Option.bind_eq_some_iff.mp node
    refine ⟨i, by have := List.mem_range'_1.mp range; omega, s, at_, ?_, id ▸ here⟩
    by_contra other
    rw [nodeOf_eq_none.mpr other] at node
    cases node
  · rintro ⟨i, inside, s, at_, names, here⟩
    have node : (header i).bind (nodeOf bytes i) = some
        ⟨i, s.size.setWidth 32, (bytes.drop s.offset.toNat).take s.size.toNat⟩ := by
      rw [at_, Option.bind_some, nodeOf, if_pos names]
    exact ⟨_, List.mem_filterMap.mpr ⟨i, List.mem_range'_1.mpr (by omega), node⟩, here⟩

section Filled

variable (filled : e.shdr = some table) (length : table.length = e.shnum)
  (entries : ∀ i < e.shnum, table[i]? = entryOf env header i)

include filled length entries

variable (env) in
/-- With the headers in the array, the string tables load or their loader fails. -/
theorem elfLoadStrtab_filled (array : 0 < e.shnum ∧ env.malloc .shdr) (given : e.Given header)
    (null : e.strtab = []) :
    StrtabsLoad env e header ∧ elfLoadStrtab env e =
        .ok ({ e with strtab := (nodesOf e.elf.bytes (entryOf env header) 0 e.shnum).reverse },
          true) ∨
      ¬ StrtabsLoad env e header ∧ ∃ e', elfLoadStrtab env e = .ok (e', false) := by
  have headers : elfLoadShdr env e = .ok (e, true) := by
    rw [elfLoadShdr, filled]
    rfl
  have load := elfLoadStrtab.eq_def env e
  rw [if_neg (not_not.mpr null), headers] at load
  simp only [show e.shdr.getD [] = table by rw [filled, Option.getD_some]] at load
  have read := @loadStrtabs_isSome_iff env e table 0 []
  cases loop : loadStrtabs env e 0 table [] with
  | none =>
      rw [loop] at load read
      refine .inr ⟨fun loads => Bool.false_ne_true (read.mpr fun k s at_ names => ?_), e, load⟩
      have inside : k < e.shnum := length ▸ (List.getElem?_eq_some_iff.mp at_).1
      rw [Nat.zero_add]
      exact loads.delivered k inside s (entries k inside ▸ at_) names
  | some strtab =>
      rw [loop] at load read
      have nodes := @loadStrtabs_nodes env e (entryOf env header) 0 table [] strtab
        (fun k hk => by rw [Nat.zero_add]; exact entries k (length ▸ hk)) loop
      rw [List.append_nil, length] at nodes
      have delivered : ∀ i < e.shnum, ∀ s, entryOf env header i = some s → s.type = SHT_STRTAB →
          Delivered env e i s := by
        intro i inside s at_ names
        rw [← entries i inside] at at_
        have here := read.mp rfl i s at_ names
        rwa [Nat.zero_add] at here
      have names : strtab ≠ [] ↔
          ∃ i < e.shnum, ∃ s, entryOf env header i = some s ∧ s.type = SHT_STRTAB := by
        have indices := @exists_mem_nodesOf (entryOf env header) e.elf.bytes e.shnum fun _ => True
        simp only [and_true] at indices
        rw [nodes, ne_eq, List.reverse_eq_nil_iff, ← indices]
        constructor
        · exact List.exists_mem_of_ne_nil _
        · rintro ⟨tab, member⟩
          exact List.ne_nil_of_mem member
      by_cases some : strtab ≠ []
      · refine .inl ⟨⟨array, given, delivered, names.mp some⟩, ?_⟩
        rw [← nodes, load]
        simp only [decide_eq_true some]
      · refine .inr ⟨fun loads => some (names.mpr loads.some), { e with strtab := strtab }, ?_⟩
        rw [load]
        simp only [decide_eq_false some]

theorem firstOfType_eq_some_iff {type : Word} {s : Shdr} :
    firstOfType e type = some s ↔ FirstEntry env e header type s := by
  rw [firstOfType, filled, Option.getD_some, List.find?_eq_some_iff_getElem]
  constructor
  · rintro ⟨same, i, inside, at_, before⟩
    refine ⟨i, length ▸ inside, ?_, of_decide_eq_true same, fun j earlier s' at' => ?_⟩
    · rw [← entries i (length ▸ inside), List.getElem?_eq_getElem inside, at_]
    · have below : j < table.length := earlier.trans inside
      rw [← entries j (length ▸ below), List.getElem?_eq_getElem below] at at'
      have other := before j earlier
      rw [Option.some.inj at'] at other
      simpa using other
  · rintro ⟨i, inside, at_, same, before⟩
    rw [← entries i inside] at at_
    obtain ⟨inside', at_⟩ := List.getElem?_eq_some_iff.mp at_
    refine ⟨decide_eq_true same, i, inside', at_, fun j earlier => ?_⟩
    have below : j < table.length := earlier.trans inside'
    have other := before j earlier table[j] (by
      rw [← entries j (length ▸ below), List.getElem?_eq_getElem below])
    simpa using other

omit filled length entries in
theorem unlinked_iff {s : Shdr}
    (nodes : e.strtab = (nodesOf e.elf.bytes (entryOf env header) 0 e.shnum).reverse) :
    e.Unlinked s ↔ ¬ Links env e header s := by
  unfold Handle.Unlinked Links
  rw [← exists_mem_nodesOf (p := fun i => s.link = BitVec.ofNat 64 i), not_exists, nodes]
  refine forall_congr' fun tab => ?_
  rw [List.mem_reverse, not_and]

theorem underruns_iff (t : SymbolTable)
    (nodes : e.strtab = (nodesOf e.elf.bytes (entryOf env header) 0 e.shnum).reverse) :
    t.Underruns env e ↔ NegativeCount env e header t := by
  unfold SymbolTable.Underruns NegativeCount
  simp only [firstOfType_eq_some_iff filled length entries, unlinked_iff nodes, not_and_or,
    not_not]

end Filled

variable (env) in
/-- The loader of the string tables returns unless libelf does not give a header. -/
theorem elfLoadStrtab_cases (shdr : e.shdr = none) (strtab : e.strtab = []) (known : e.knownClass)
    (iterates : Iterates e.elf e.shnum header) :
    ((0 < e.shnum ∧ env.malloc .shdr) ∧ ¬ e.Given header) ∧
        (∃ f, elfLoadStrtab env e = .error f) ∨
      StrtabsLoad env e header ∧ (∃ e', elfLoadStrtab env e = .ok (e', true)) ∨
      (0 < e.shnum ∧ env.malloc .shdr → e.Given header) ∧ ¬ StrtabsLoad env e header ∧
        ∃ e', elfLoadStrtab env e = .ok (e', false) := by
  have null : ¬ e.strtab ≠ [] := not_not.mpr strtab
  obtain ⟨refused, load⟩ | ⟨array, missing, f, load⟩ |
      ⟨array, given, table, load, length, entries⟩ :=
    elfLoadShdr_cases env shdr known iterates
  · refine .inr (.inr ⟨fun array => absurd array refused, fun loads => refused loads.array, e, ?_⟩)
    rw [elfLoadStrtab, if_neg null, load]
  · refine .inl ⟨⟨array, missing⟩, f, ?_⟩
    rw [elfLoadStrtab, if_neg null, load]
  · have same : elfLoadStrtab env e = elfLoadStrtab env { e with shdr := some table } := by
      rw [elfLoadStrtab, if_neg null, load, elfLoadStrtab, if_neg null]
      rfl
    rw [same]
    obtain ⟨loads, load⟩ | ⟨missing, e', load⟩ :=
      elfLoadStrtab_filled env (e := { e with shdr := some table }) rfl length entries
        array given strtab
    · exact .inr (.inl ⟨loads.of_eq rfl rfl, _, load⟩)
    · exact .inr (.inr ⟨fun _ => given, fun loads => missing (loads.of_eq rfl rfl), e', load⟩)

/-- The end of `elf_load_all`, where the symbol tables are loaded. -/
theorem elfLoadAll_symbols {e₁ e₂ e₃ : Handle} (first : elfLoadPhdr env e = .ok (e₁, true))
    (second : elfLoadShdr env e₁ = .ok (e₂, true)) (third : elfLoadStrtab env e₂ = .ok (e₃, true))
    (headers : e₃.shdr.isSome) (known : e₃.knownClass) (sym : e₃.sym = none)
    (dsym : e₃.dsym = none) :
    (∃ t : SymbolTable, t.Underruns env e₃ ∧ ∃ f, elfLoadAll env e = .error f) ∨
      (∀ t : SymbolTable, ¬ t.Underruns env e₃) ∧ ∃ e', elfLoadAll env e = .ok (e', true) := by
  have strtab := (elfLoadStrtab_grows third).2 rfl
  simp only [elfLoadAll, first, second, third]
  obtain ⟨under, fourth⟩ | ⟨here, table, ok, fourth⟩ :=
    SymbolTable.load_cases env (t := .symtab) headers strtab known sym
  · simp only [show elfLoadSymtab env e₃ = _ from fourth]
    exact .inl ⟨.symtab, under, _, rfl⟩
  simp only [show elfLoadSymtab env e₃ = _ from fourth]
  -- the first symbol table does not matter for the second loader
  obtain ⟨under, fifth⟩ | ⟨there, table', ok', fifth⟩ :=
    SymbolTable.load_cases env (e := SymbolTable.symtab.set e₃ table) (t := .dsymtab)
      headers strtab known dsym
  · simp only [show elfLoadDsymtab env _ = _ from fifth]
    exact .inl ⟨.dsymtab, under, _, rfl⟩
  · simp only [show elfLoadDsymtab env _ = _ from fifth]
    refine .inr ⟨fun t under => ?_, _, rfl⟩
    cases t with
    | symtab => exact here under
    | dsymtab => exact there under

/-- How `elf_load_all` ends for a fresh handle whose section headers libelf gives. -/
inductive AllOutcome (env : Env) (e : Handle) (header : Nat → Option Shdr) :
    Except Fault (Handle × Bool) → Prop where
  | segments (f : Fault) (wanted : 0 < e.phnum ∧ env.malloc .phdr) (null : e.elf.phdrs = none) :
      AllOutcome env e header (.error f)
  | refused (e' : Handle) (missing : ¬ (PhdrsLoad env e ∧ StrtabsLoad env e header))
      (segments : 0 < e.phnum ∧ env.malloc .phdr → e.elf.phdrs.isSome) :
      AllOutcome env e header (.ok (e', false))
  | underrun (f : Fault) (loads : PhdrsLoad env e ∧ StrtabsLoad env e header) (t : SymbolTable)
      (negative : NegativeCount env e header t) : AllOutcome env e header (.error f)
  | loaded (e' : Handle) (loads : PhdrsLoad env e ∧ StrtabsLoad env e header)
      (counts : ∀ t, ¬ NegativeCount env e header t) : AllOutcome env e header (.ok (e', true))

theorem elfLoadAll_outcome (fresh : e.Fresh) (iterates : Iterates e.elf e.shnum header)
    (given : 0 < e.shnum ∧ env.malloc .shdr → e.Given header) :
    AllOutcome env e header (elfLoadAll env e) := by
  obtain ⟨refused, first⟩ | ⟨wanted, null, f, first⟩ | ⟨phdrs, phdr, first⟩ :=
    elfLoadPhdr_cases env fresh
  · simp only [elfLoadAll, first]
    refine .refused _ (fun loads => refused ⟨loads.1.count, loads.1.array⟩) ?_
    exact fun wanted => absurd wanted refused
  · simp only [elfLoadAll, first]
    exact .segments f wanted null
  obtain ⟨refused, second⟩ | ⟨array, missing, -⟩ | ⟨array, -, table, second, length, entries⟩ :=
    elfLoadShdr_cases env (e := { e with phdr := some phdr }) fresh.shdr fresh.known
      iterates
  · simp only [elfLoadAll, first, second]
    exact .refused _ (fun loads => refused loads.2.array) fun _ => phdrs.given
  · exact absurd (given array) missing
  obtain ⟨strtabs, third⟩ | ⟨missing, e', third⟩ :=
    elfLoadStrtab_filled env (e := { e with phdr := some phdr, shdr := some table })
      rfl length entries array (given array) fresh.strtab
  · have loads : PhdrsLoad env e ∧ StrtabsLoad env e header := ⟨phdrs, strtabs.of_eq rfl rfl⟩
    have counts := fun t => underruns_iff (e := { e with
      phdr := some phdr, shdr := some table,
      strtab := (nodesOf e.elf.bytes (entryOf env header) 0 e.shnum).reverse })
      rfl length entries t rfl
    obtain ⟨t, under, f, last⟩ | ⟨fine, e', last⟩ :=
      elfLoadAll_symbols first second third rfl fresh.known fresh.sym fresh.dsym
    · rw [last]
      exact .underrun f loads t ((counts t).mp under)
    · rw [last]
      exact .loaded e' loads fun t negative => fine t ((counts t).mpr negative)
  · simp only [elfLoadAll, first, second, third]
    exact .refused _ (fun loads => missing (loads.2.of_eq rfl rfl)) fun _ => phdrs.given

end Outcome

end Elf
