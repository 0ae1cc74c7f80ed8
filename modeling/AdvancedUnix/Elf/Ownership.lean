import AdvancedUnix.Elf.Moves

/-!
# What a handle owns

The moves of each loader lead from what the handle owned before, and what was lost on the way
to it, to the same for the handle that the loader returns. Closing the handle then leaves what
was lost.
-/

namespace Elf

open Memory Resources

section Loaders

variable {env : Env} {e e' : Handle} {ok : Bool} {l : Set Resource}

theorem owned_phdr (e : Handle) (p : List Phdr) :
    ({ e with phdr := some p } : Handle).owned = insert (.block .phdr) e.owned := by
  ext x
  cases x with
  | descriptor => simp [Handle.owned, Handle.Owns]
  | libelf => simp [Handle.owned, Handle.Owns]
  | block site => cases site <;> simp [Handle.owned, Handle.Owns]

theorem owned_shdr (e : Handle) (s : List Shdr) :
    ({ e with shdr := some s } : Handle).owned = insert (.block .shdr) e.owned := by
  ext x
  cases x with
  | descriptor => simp [Handle.owned, Handle.Owns]
  | libelf => simp [Handle.owned, Handle.Owns]
  | block site => cases site <;> simp [Handle.owned, Handle.Owns]

/-- The program headers become one more block of the handle. -/
theorem elfLoadPhdr_takes (h : elfLoadPhdr env e = .ok (e', ok)) (new : .block .phdr ∉ l) :
    Takes (e.owned ∪ l) (elfLoadPhdrMoves env e) (e'.owned ∪ l) := by
  unfold elfLoadPhdr at h
  unfold elfLoadPhdrMoves
  split at h
  · rename_i loaded
    cases h
    rw [if_pos loaded]
    exact .nil _
  · rename_i null
    rw [if_neg null]
    split at h
    · rename_i refused
      cases h
      rw [if_pos refused]
      exact .nil _
    · rename_i taken
      rw [if_neg taken]
      split at h
      · cases h
      · cases h
        rw [owned_phdr, Set.insert_union]
        exact .acquire fun held => held.elim null new

theorem elfLoadShdr_takes (h : elfLoadShdr env e = .ok (e', ok)) (new : .block .shdr ∉ l) :
    Takes (e.owned ∪ l) (elfLoadShdrMoves env e) (e'.owned ∪ l) := by
  unfold elfLoadShdr at h
  unfold elfLoadShdrMoves
  split at h
  · rename_i loaded
    cases h
    rw [if_pos loaded]
    exact .nil _
  · rename_i null
    rw [if_neg null]
    split at h
    · rename_i refused
      cases h
      rw [if_pos refused]
      exact .nil _
    · rename_i taken
      rw [if_neg taken]
      split at h
      · cases h
      · cases h
        rw [owned_shdr, Set.insert_union]
        exact .acquire fun held => held.elim null new

/-- The blocks of a list of string tables. -/
def blocks (strtab : List Strtab) : Set Resource := {x | x ∈ blocksOf strtab}

@[simp] theorem mem_blocks {strtab : List Strtab} {x : Resource} :
    x ∈ blocks strtab ↔ x ∈ blocksOf strtab := Iff.rfl

@[simp] theorem blocks_nil : blocks [] = ∅ := by
  ext x
  simp [blocksOf]

theorem blocks_cons (tab : Strtab) (strtab : List Strtab) :
    blocks (tab :: strtab) = insert (.block (.strtabData tab.id))
      (insert (.block (.strtabNode tab.id)) (blocks strtab)) := by
  ext x
  simp [blocksOf]

theorem node_mem_blocks {strtab : List Strtab} {i : Nat} :
    .block (.strtabNode i) ∈ blocks strtab ↔ i ∈ strtab.map Strtab.id := by
  show _ ∈ blocksOf strtab ↔ _
  simp [mem_blocksOf]

theorem data_mem_blocks {strtab : List Strtab} {i : Nat} :
    .block (.strtabData i) ∈ blocks strtab ↔ i ∈ strtab.map Strtab.id := by
  show _ ∈ blocksOf strtab ↔ _
  simp [mem_blocksOf]

/-- A list of string tables is freed. -/
theorem elfFreeStrtab_takes {strtab : List Strtab} (different : (strtab.map Strtab.id).Nodup)
    (apart : ∀ x ∈ blocks strtab, x ∉ l) :
    Takes (l ∪ blocks strtab) (elfFreeStrtabMoves strtab) l := by
  refine (Takes.releases (fun x mem => .inr mem) (nodup_blocksOf different)).congr ?_
  ext x
  constructor
  · rintro ⟨held | held, freed⟩
    · exact held
    · exact absurd held freed
  · exact fun held => ⟨.inl held, fun freed => apart x freed held⟩

/-- The loop builds the list of string tables, or frees what it has built and strands the table
that it gives up at. -/
theorem loadStrtabs_takes (i : Nat) (shdr : List Shdr) {strtab : List Strtab}
    (different : (strtab.map Strtab.id).Nodup) (below : ∀ j ∈ strtab.map Strtab.id, j < i)
    (apart : ∀ x ∈ l, ¬ x.IsStrtab) :
    Takes (l ∪ blocks strtab) (loadStrtabsMoves env e i shdr strtab)
        (l ∪ blocks ((loadStrtabs env e i shdr strtab).getD []) ∪
          {x | x ∈ strandedFrom env e i shdr}) ∧
      (((loadStrtabs env e i shdr strtab).getD []).map Strtab.id).Nodup := by
  induction shdr generalizing i strtab with
  | nil => exact ⟨(Takes.nil _).congr (by simp [loadStrtabs, strandedFrom]), different⟩
  | cons s shdr ih =>
      have freed : ∀ x ∈ blocks strtab, x ∉ l := by
        intro x mem held
        obtain ⟨j, -, same⟩ := mem_blocksOf.mp mem
        exact apart x held ⟨j, same.symm⟩
      have fresh : i ∉ strtab.map Strtab.id := fun mem => (below i mem).false
      have node : .block (.strtabNode i) ∉ l ∪ blocks strtab := by
        rintro (held | mem)
        · exact apart _ held ⟨i, .inl rfl⟩
        · exact fresh (node_mem_blocks.mp mem)
      have data : .block (.strtabData i) ∉ insert (.block (.strtabNode i)) (l ∪ blocks strtab) := by
        rintro (same | held | mem)
        · cases same
        · exact apart _ held ⟨i, .inr rfl⟩
        · exact fresh (data_mem_blocks.mp mem)
      unfold loadStrtabsMoves loadStrtabs strandedFrom
      by_cases other : s.type ≠ SHT_STRTAB
      · simp only [if_pos other]
        exact ih (i + 1) different fun j mem => (below j mem).trans (Nat.lt_succ_self i)
      simp only [if_neg other]
      by_cases noNode : ¬ env.malloc (.strtabNode i)
      · simp only [if_pos noNode, if_pos (Or.inl noNode)]
        exact ⟨(elfFreeStrtab_takes different freed).congr (by simp), List.nodup_nil⟩
      simp only [if_neg noNode]
      by_cases noData : ¬ env.malloc (.strtabData i)
      · simp only [if_pos noData, if_pos (Or.inr noData)]
        refine ⟨.cons_acquire node ?_, List.nodup_nil⟩
        rw [← Set.insert_union]
        refine (elfFreeStrtab_takes different ?_).congr (by simp)
        rintro x mem (rfl | held)
        · exact fresh (node_mem_blocks.mp mem)
        · exact freed x mem held
      simp only [if_neg noData, if_neg (not_or.mpr ⟨noNode, noData⟩)]
      cases read : preadAll env (.strtabData i) e s.size s.offset with
      | none =>
          refine ⟨.cons_acquire node (.cons_acquire data ?_), List.nodup_nil⟩
          rw [← Set.insert_union, ← Set.insert_union]
          refine (elfFreeStrtab_takes different ?_).congr ?_
          · rintro x mem (rfl | rfl | held)
            · exact fresh (data_mem_blocks.mp mem)
            · exact fresh (node_mem_blocks.mp mem)
            · exact freed x mem held
          · ext x
            simp
            tauto
      | some data' =>
          have later : ∀ j ∈ i :: strtab.map Strtab.id, j < i + 1 := by
            rintro j (_ | ⟨_, mem⟩)
            · exact Nat.lt_succ_self i
            · exact (below j mem).trans (Nat.lt_succ_self i)
          have step := @ih (i + 1) (⟨i, s.size.setWidth 32, data'⟩ :: strtab)
            (List.nodup_cons.mpr ⟨fresh, different⟩) later
          refine ⟨.cons_acquire node (.cons_acquire data ?_), step.2⟩
          have built := step.1
          rw [blocks_cons, Set.union_insert, Set.union_insert] at built
          exact built

theorem owned_strtab {e : Handle} (null : e.strtab = []) (strtab : List Strtab) :
    ({ e with strtab := strtab } : Handle).owned = e.owned ∪ blocks strtab := by
  ext x
  cases x with
  | descriptor => simp [Handle.owned, Handle.Owns]
  | libelf => simp [Handle.owned, Handle.Owns]
  | block site => cases site <;> simp [Handle.owned, Handle.Owns, mem_blocksOf, null]

/-- The string tables are loaded, or one of them is stranded. -/
theorem elfLoadStrtab_takes (h : elfLoadStrtab env e = .ok (e', ok)) (null : e.strtab = [])
    (shdr : .block .shdr ∉ l) (apart : ∀ x ∈ l, ¬ x.IsStrtab) :
    Takes (e.owned ∪ l) (elfLoadStrtabMoves env e)
        (e'.owned ∪ (l ∪ elfLoadStrtabStranded env e)) ∧
      (e'.strtab.map Strtab.id).Nodup := by
  unfold elfLoadStrtab at h
  unfold elfLoadStrtabMoves elfLoadStrtabStranded
  rw [if_neg (not_not.mpr null)] at h ⊢
  split at h
  · cases h
  · rename_i e₁ first
    cases h
    simp only [first, List.append_nil, Set.union_empty]
    refine ⟨elfLoadShdr_takes first shdr, ?_⟩
    rw [elfLoadShdr_strtab first, null]
    exact List.nodup_nil
  · rename_i e₁ first
    have empty : e₁.strtab = [] := (elfLoadShdr_strtab first).trans null
    have free : ∀ x ∈ e₁.owned ∪ l, ¬ x.IsStrtab := by
      rintro x (owned | held)
      · rintro ⟨i, rfl | rfl⟩ <;> simp [Handle.owned, Handle.Owns, empty] at owned
      · exact apart x held
    have loop := @loadStrtabs_takes env e₁ (e₁.owned ∪ l) 0 (e₁.shdr.getD []) [] List.nodup_nil
      (fun i mem => absurd mem List.not_mem_nil) free
    rw [blocks_nil, Set.union_empty] at loop
    simp only [first]
    have takes := (elfLoadShdr_takes first shdr).append loop.1
    split at h
    · rename_i failed
      cases h
      simp only [failed, Option.getD_none, blocks_nil, Set.union_empty, Set.union_assoc] at takes
      refine ⟨takes, ?_⟩
      rw [empty]
      exact List.nodup_nil
    · rename_i strtab built
      cases h
      simp only [built, Option.getD_some] at takes loop
      have grown := owned_strtab empty strtab
      refine ⟨takes.congr ?_, loop.2⟩
      rw [grown]
      ext x
      simp only [Set.mem_union]
      tauto

/-- What is acquired and never released: the arrays. -/
def arrays (ms : List (Move Resource)) : Set Resource := {x | x ∈ acquired ms ∧ x.IsArray}

theorem arrays_cons_release {x : Resource} {ms : List (Move Resource)} :
    arrays (.release x :: ms) = arrays ms := by
  ext y
  simp [arrays, acquired]

theorem arrays_cons_table {type : Word} {ms : List (Move Resource)} :
    arrays (.acquire (.block (.symtab type)) :: ms) = arrays ms := by
  ext y
  simp [arrays, acquired, Resource.IsArray]
  grind

theorem arrays_cons_array {type : Word} {ms : List (Move Resource)} :
    arrays (.acquire (.block (.symbol type)) :: ms) =
      insert (.block (.symbol type)) (arrays ms) := by
  ext y
  simp [arrays, acquired, Resource.IsArray]
  grind

@[simp] theorem arrays_nil : arrays [] = ∅ := by
  ext y
  simp [arrays, acquired]

/-- A symbol table is loaded; its array, once it is there, stays. -/
theorem elfLoadSymtabInternal_takes {shdr : Shdr} {table : Option Symtab}
    (h : elfLoadSymtabInternal env e shdr = .ok (e', table)) (strtab : e.strtab ≠ [])
    (known : e.knownClass) (new : .block (.symtab shdr.type) ∉ l)
    (array : .block (.symbol shdr.type) ∉ l) :
    e' = e ∧ Takes l (elfLoadSymtabInternalMoves env e shdr)
      ((if table.isSome then insert (.block (.symtab shdr.type)) l else l) ∪
        arrays (elfLoadSymtabInternalMoves env e shdr)) := by
  have loaded : elfLoadStrtab env e = .ok (e, true) := if_pos strtab
  have still : elfLoadStrtabMoves env e = [] := if_pos strtab
  unfold elfLoadSymtabInternal at h
  unfold elfLoadSymtabInternalMoves
  simp only [loaded, still, List.nil_append, known, not_true_eq_false, or_false, if_false] at h ⊢
  by_cases noTable : ¬ env.malloc (.symtab shdr.type)
  · rw [if_pos noTable] at h ⊢
    cases h
    exact ⟨rfl, (Takes.nil l).congr (by simp)⟩
  rw [if_neg noTable] at h ⊢
  split at h
  · rename_i unlinked
    have unfound : (e.strtab.find? fun tab => shdr.link = BitVec.ofNat 64 tab.id).isNone ∧
        env.freshStrtabNull := by
      split at unlinked
      · cases unlinked
      · rename_i unfound
        rw [unfound]
        exact ⟨rfl, by_contra fun fresh => by simp [fresh] at unlinked⟩
    cases h
    rw [if_pos unfound]
    exact ⟨rfl, (Takes.cancel new).congr (by simp [arrays_cons_table, arrays_cons_release])⟩
  · rename_i link linked
    have found : ¬ ((e.strtab.find? fun tab => shdr.link = BitVec.ofNat 64 tab.id).isNone ∧
        env.freshStrtabNull) := by
      rintro ⟨unfound, fresh⟩
      rw [Option.isNone_iff_eq_none.mp unfound] at linked
      simp [fresh] at linked
    rw [if_neg found]
    by_cases noArray : ¬ env.malloc (.symbol shdr.type)
    · rw [if_pos noArray] at h ⊢
      cases h
      exact ⟨rfl, (Takes.cancel new).congr (by simp [arrays_cons_table, arrays_cons_release])⟩
    rw [if_neg noArray] at h ⊢
    have beside : .block (.symbol shdr.type) ∉ insert (.block (.symtab shdr.type)) l := by
      rintro (same | held)
      · cases same
      · exact array held
    split at h
    · cases h
    · cases read : preadAll env (.symbol shdr.type) e shdr.size shdr.offset with
      | none =>
          simp only [read] at h ⊢
          cases h
          refine ⟨rfl, .cons_acquire new (.cons_acquire beside (.congr (.release (.inr (.inl rfl)))
            ?_))⟩
          have beside' : Resource.block (.symbol shdr.type) ∉
              ({.block (.symtab shdr.type)} : Set Resource) := fun same => by cases same
          rw [arrays_cons_table, arrays_cons_array, arrays_cons_release, arrays_nil,
            Set.insert_sdiff_of_notMem _ beside', Set.insert_sdiff_self_of_notMem new]
          simp
      | some data =>
          simp only [read] at h ⊢
          cases h
          refine ⟨rfl, .cons_acquire new (.cons_acquire beside ((Takes.nil _).congr ?_))⟩
          simp [arrays_cons_table, arrays_cons_array]

theorem SymbolTable.set_get (e : Handle) (t : SymbolTable) : t.set e (t.get e) = e := by
  cases t <;> rfl

theorem owns_symtab {t : SymbolTable} {e : Handle} :
    e.Owns (.block (.symtab t.type)) ↔ (t.get e).isSome := by
  cases t <;> simp [Handle.Owns, SymbolTable.type, SymbolTable.get]

theorem owned_set {t : SymbolTable} {e : Handle} (null : ¬ (t.get e).isSome)
    (table : Option Symtab) : (t.set e table).owned =
      if table.isSome then insert (.block (.symtab t.type)) e.owned else e.owned := by
  cases t <;> cases table <;> simp only [SymbolTable.get, Option.not_isSome_iff_eq_none] at null <;>
    ext x <;> rcases x with _ | _ | _ | _ | _ | _ | _ | _ | _ <;>
    simp [Handle.owned, Handle.Owns, SymbolTable.set, SymbolTable.type, null]
  · exact or_comm

/-- A table of symbols is loaded with the section headers and the string tables. -/
theorem SymbolTable.load_takes {t : SymbolTable} (h : t.load env e = .ok (e', ok))
    (shdr : e.shdr.isSome) (strtab : e.strtab ≠ []) (known : e.knownClass)
    (null : ¬ (t.get e).isSome) (new : .block (.symtab t.type) ∉ l)
    (array : .block (.symbol t.type) ∉ l) :
    (∃ table, e' = t.set e table) ∧
      Takes (e.owned ∪ l) (t.loadMoves env e) (e'.owned ∪ (l ∪ arrays (t.loadMoves env e))) := by
  have loaded : elfLoadShdr env e = .ok (e, true) := if_pos shdr
  have still : elfLoadShdrMoves env e = [] := if_pos shdr
  rw [t.load_eq, if_neg null] at h
  unfold SymbolTable.loadMoves
  simp only [if_neg null, loaded, still, List.nil_append] at h ⊢
  cases first : firstOfType e t.type with
  | none =>
      simp only [first] at h ⊢
      cases h
      exact ⟨⟨t.get e, (t.set_get e).symm⟩, (Takes.nil _).congr (by simp)⟩
  | some s =>
      have type := firstOfType_type first
      simp only [first] at h ⊢
      split at h
      · cases h
      · rename_i e₁ table load
        cases h
        have symtab : .block (.symtab s.type) ∉ e.owned ∪ l := by
          rw [type]
          exact fun held => held.elim (mt owns_symtab.mp null) new
        have symbol : .block (.symbol s.type) ∉ e.owned ∪ l := by
          rw [type]
          exact fun held => held.elim id array
        obtain ⟨rfl, takes⟩ := elfLoadSymtabInternal_takes load strtab known symtab symbol
        refine ⟨⟨table, rfl⟩, takes.congr ?_⟩
        rw [owned_set null, type]
        split
        · rw [Set.insert_union, Set.union_assoc, Set.insert_union]
        · rw [Set.union_assoc]

theorem arrays_append (ms ns : List (Move Resource)) :
    arrays (ms ++ ns) = arrays ms ∪ arrays ns := by
  ext x
  simp only [arrays, acquired_append, Set.mem_ofPred_eq, Set.mem_union]
  tauto

theorem arrays_releases (xs : List Resource) : arrays (xs.map .release) = ∅ := by
  ext x
  simp [arrays, acquired]

/-- No symbol table is among the moves of the first three loaders. -/
theorem arrays_other {site : Site} (other : ∀ type, site ≠ .symbol type)
    (ms : List (Move Resource)) : arrays (.acquire (.block site) :: ms) = arrays ms := by
  ext x
  simp only [arrays, acquired, List.mem_cons, Move.acquire.injEq, Set.mem_ofPred_eq]
  refine and_congr_left fun array => or_iff_right ?_
  rintro rfl
  obtain ⟨type, array⟩ := array
  exact other type (Resource.block.inj array)

theorem arrays_phdr (env : Env) (e : Handle) : arrays (elfLoadPhdrMoves env e) = ∅ := by
  unfold elfLoadPhdrMoves
  split
  · exact arrays_nil
  · split
    · exact arrays_nil
    · rw [arrays_other (by simp), arrays_nil]

theorem arrays_shdr (env : Env) (e : Handle) : arrays (elfLoadShdrMoves env e) = ∅ := by
  unfold elfLoadShdrMoves
  split
  · exact arrays_nil
  · split
    · exact arrays_nil
    · rw [arrays_other (by simp), arrays_nil]

theorem arrays_loadStrtabs (env : Env) (e : Handle) (i : Nat) (shdr : List Shdr)
    (strtab : List Strtab) : arrays (loadStrtabsMoves env e i shdr strtab) = ∅ := by
  induction shdr generalizing i strtab with
  | nil => exact arrays_nil
  | cons s shdr ih =>
      unfold loadStrtabsMoves
      split
      · exact ih _ _
      split
      · exact arrays_releases _
      rw [arrays_other (by simp)]
      split
      · exact arrays_releases _
      rw [arrays_other (by simp)]
      split
      · exact arrays_releases _
      · exact ih _ _

theorem arrays_strtab (env : Env) (e : Handle) : arrays (elfLoadStrtabMoves env e) = ∅ := by
  unfold elfLoadStrtabMoves
  split
  · exact arrays_nil
  · rw [arrays_append, arrays_shdr, Set.empty_union]
    split
    · exact arrays_loadStrtabs _ _ _ _ _
    · exact arrays_nil

theorem owns_releaseTables {x : Resource} : e.releaseTables.Owns x ↔ e.Owns x ∧ x ∉ e.tables := by
  rw [mem_tables]
  rcases x with _ | _ | _ | _ | _ | _ | _ | _ | _ <;>
    simp [Handle.Owns, Handle.releaseTables, Option.isSome_iff_ne_none]
  tauto

/-- The tables of a handle are released, and the rest stays. -/
theorem releaseTables_takes (different : (e.strtab.map Strtab.id).Nodup)
    (apart : ∀ x ∈ e.tables, x ∉ l) :
    Takes (e.owned ∪ l) e.releaseTablesMoves (e.releaseTables.owned ∪ l) := by
  refine (Takes.releases (fun x mem => .inl (mem_tables.mp mem).1)
    (nodup_tables different)).congr ?_
  ext x
  show (e.Owns x ∨ x ∈ l) ∧ x ∉ e.tables ↔ e.releaseTables.Owns x ∨ x ∈ l
  have other := apart x
  rw [owns_releaseTables]
  tauto

/-- The handle is closed: nothing of it is left but what was lost. -/
theorem elfClose_takes (different : (e.strtab.map Strtab.id).Nodup)
    (apart : ∀ x, e.Owns x → x ∉ l) : Takes (e.owned ∪ l) (elfCloseMoves e) l := by
  have first := @releaseTables_takes e l different fun x mem => apart x (mem_tables.mp mem).1
  have held : ∀ x ∈ [Resource.libelf, .descriptor, .block .handle],
      x ∈ e.releaseTables.owned ∪ l := by
    rintro x (_ | ⟨_, _ | ⟨_, _ | ⟨_, ⟨⟩⟩⟩⟩) <;> exact .inl trivial
  refine first.append ((Takes.releases held (by simp)).congr ?_)
  ext x
  have other := apart x
  have rest : e.releaseTables.Owns x ↔ x ∈ [Resource.libelf, .descriptor, .block .handle] := by
    rw [owns_releaseTables, mem_tables]
    simp only [List.mem_cons, List.not_mem_nil, or_false]
    constructor
    · tauto
    · rintro (rfl | rfl | rfl) <;> simp [Handle.Owns]
  show (e.releaseTables.Owns x ∨ x ∈ l) ∧ _ ↔ x ∈ l
  have owned := @owns_releaseTables e x
  rw [rest] at owned ⊢
  tauto

/-- Without string tables nothing of them was loaded. -/
theorem elfLoadStrtab_failed (h : elfLoadStrtab env e = .ok (e', false)) : e'.strtab = [] := by
  unfold elfLoadStrtab at h
  split at h
  · cases h
  · rename_i null
    split at h
    · cases h
    · rename_i first
      cases h
      rw [elfLoadShdr_strtab first]
      exact not_not.mp null
    · rename_i first
      split at h
      · cases h
        rw [elfLoadShdr_strtab first]
        exact not_not.mp null
      · obtain ⟨rfl, empty⟩ := Prod.mk.inj (Except.ok.inj h)
        simpa using empty

theorem strandedFrom_isStrtab {i : Nat} {shdr : List Shdr} :
    ∀ x ∈ strandedFrom env e i shdr, x.IsStrtab := by
  induction shdr generalizing i with
  | nil => exact fun x mem => absurd mem (List.not_mem_nil)
  | cons s shdr ih =>
      unfold strandedFrom
      split
      · exact ih
      split
      · exact fun x mem => absurd mem (List.not_mem_nil)
      split
      · rintro x (_ | ⟨_, ⟨⟩⟩)
        exact ⟨i, .inl rfl⟩
      split
      · exact ih
      · rintro x (_ | ⟨_, _ | ⟨_, ⟨⟩⟩⟩)
        · exact ⟨i, .inl rfl⟩
        · exact ⟨i, .inr rfl⟩

theorem elfLoadStrtabStranded_isStrtab : ∀ x ∈ elfLoadStrtabStranded env e, x.IsStrtab := by
  unfold elfLoadStrtabStranded
  split
  · exact strandedFrom_isStrtab
  · exact fun x mem => absurd mem ((Set.notMem_empty x))

/-- Where the string tables are missing, what the tables are is not what was stranded. -/
theorem tables_of_null (null : e.strtab = []) : ∀ x ∈ e.tables, ¬ x.IsStrtab := by
  rintro x mem ⟨i, rfl | rfl⟩ <;> simpa [Handle.Owns, null] using (mem_tables.mp mem).1

theorem elfLoadPhdr_strtab (h : elfLoadPhdr env e = .ok (e', ok)) : e'.strtab = e.strtab := by
  unfold elfLoadPhdr at h
  split at h
  · cases h
    rfl
  · split at h
    · cases h
      rfl
    · split at h
      · cases h
      · cases h
        rfl

theorem Handle.Keeps.known (h : e.Keeps e') : e'.knownClass = e.knownClass := by
  have header := h.header
  show e'.releaseTables.knownClass = e.releaseTables.knownClass
  rw [header]

theorem arrays_internal {shdr : Shdr} :
    ∀ x ∈ arrays (elfLoadSymtabInternalMoves env e shdr), x = .block (.symbol shdr.type) := by
  have none : ∀ x ∈ (∅ : Set Resource), x = .block (.symbol shdr.type) := fun x mem => mem.elim
  unfold elfLoadSymtabInternalMoves
  rw [arrays_append, arrays_strtab, Set.empty_union]
  split
  · split
    · rwa [arrays_nil]
    rw [arrays_cons_table]
    split
    · rwa [arrays_nil]
    split
    · rwa [arrays_cons_release, arrays_nil]
    split
    · rwa [arrays_cons_release, arrays_nil]
    rw [arrays_cons_array]
    rintro x (same | later)
    · exact same
    · split at later
      · rw [arrays_cons_release, arrays_nil] at later
        exact later.elim
      · rw [arrays_nil] at later
        exact later.elim
  · rwa [arrays_nil]

/-- The only array that is allocated for a table of symbols is its own. -/
theorem arrays_load {t : SymbolTable} :
    ∀ x ∈ arrays (t.loadMoves env e), x = .block (.symbol t.type) := by
  unfold SymbolTable.loadMoves
  intro x
  split
  · rw [arrays_nil]
    exact fun mem => mem.elim
  · rw [arrays_append, arrays_shdr, Set.empty_union]
    split
    · rename_i e₁ headers
      cases first : firstOfType e₁ t.type with
      | none =>
          rw [arrays_nil]
          exact fun mem => mem.elim
      | some s =>
          rw [← firstOfType_type first]
          exact arrays_internal x
    · rw [arrays_nil]
      exact fun mem => mem.elim

/-- The two tables of symbols, with the tables that they need. -/
theorem symbols_takes {e₁ e₂ : Handle} {ok' : Bool} (hsym : elfLoadSymtab env e = .ok (e₁, ok))
    (hdsym : elfLoadDsymtab env e₁ = .ok (e₂, ok')) (shdr : e.shdr.isSome) (strtab : e.strtab ≠ [])
    (known : e.knownClass) (sym : e.sym = none) (dsym : e.dsym = none)
    (new : ∀ type, .block (.symtab type) ∉ l ∧ .block (.symbol type) ∉ l) :
    Takes (e.owned ∪ l)
        (SymbolTable.loadMoves env e .symtab ++ SymbolTable.loadMoves env e₁ .dsymtab)
        (e₂.owned ∪ (l ∪ arrays
          (SymbolTable.loadMoves env e .symtab ++ SymbolTable.loadMoves env e₁ .dsymtab))) ∧
      e₂.strtab = e.strtab := by
  have load : SymbolTable.load env e .symtab = .ok (e₁, ok) := hsym
  have load' : SymbolTable.load env e₁ .dsymtab = .ok (e₂, ok') := hdsym
  obtain ⟨⟨table, same⟩, first⟩ := SymbolTable.load_takes (l := l) load shdr strtab known
    (by simp [SymbolTable.get, sym]) (new _).1 (new _).2
  -- the first table's array is another one than that of the second table
  have table' : .block (.symtab SHT_DYNSYM) ∉
      l ∪ arrays (SymbolTable.loadMoves env e .symtab) := by
    rintro (held | array)
    · exact (new _).1 held
    · cases arrays_load _ array
  have array' : .block (.symbol SHT_DYNSYM) ∉
      l ∪ arrays (SymbolTable.loadMoves env e .symtab) := by
    rintro (held | array)
    · exact (new _).2 held
    · exact absurd (Site.symbol.inj (Resource.block.inj (arrays_load _ array))) (by decide)
  subst same
  obtain ⟨⟨table₂, same⟩, second⟩ := SymbolTable.load_takes (t := .dsymtab) load' shdr strtab known
    (by simp [SymbolTable.get, SymbolTable.set, dsym]) table' array'
  subst same
  rw [arrays_append, ← Set.union_assoc l]
  exact ⟨first.append second, rfl⟩

/-- All tables are loaded, or none: what is acquired on the way belongs to the handle, was
released or is lost. -/
theorem elfLoadAll_takes (fresh : e.Fresh) (h : elfLoadAll env e = .ok (e', ok)) :
    Takes e.owned (elfLoadAllMoves env e) (e'.owned ∪ elfLoadAllLost env e) ∧
      (e'.strtab.map Strtab.id).Nodup := by
  have nodup : ∀ {e : Handle}, e.strtab = [] → (e.strtab.map Strtab.id).Nodup := by
    intro e null
    rw [null]
    exact List.nodup_nil
  have lost : {x | x ∈ acquired (elfLoadAllMoves env e) ∧ x.IsArray} =
    arrays (elfLoadAllMoves env e) := rfl
  unfold elfLoadAll at h
  unfold elfLoadAllLost elfLoadAllStranded
  rw [lost]
  split at h
  · cases h
  · rename_i e₁ hphdr
    cases h
    have null := (elfLoadPhdr_strtab hphdr).trans fresh.strtab
    have one := @elfLoadPhdr_takes env e e₁ false ∅ hphdr id
    have freed := @releaseTables_takes e₁ ∅ (nodup null) fun _ _ => id
    simp only [elfLoadAllMoves, hphdr, arrays_append, arrays_phdr, Handle.releaseTablesMoves,
      arrays_releases, Set.union_empty] at one freed ⊢
    exact ⟨one.append freed, List.nodup_nil⟩
  · rename_i e₁ hphdr
    have null := (elfLoadPhdr_strtab hphdr).trans fresh.strtab
    have one := @elfLoadPhdr_takes env e e₁ true ∅ hphdr id
    split at h
    · cases h
    · rename_i e₂ hshdr
      cases h
      have null' := (elfLoadShdr_strtab hshdr).trans null
      have two := @elfLoadShdr_takes env e₁ e₂ false ∅ hshdr id
      have freed := @releaseTables_takes e₂ ∅ (nodup null') fun _ _ => id
      simp only [elfLoadAllMoves, hphdr, hshdr, arrays_append, arrays_phdr, arrays_shdr,
        elfLoadStrtabStranded, Handle.releaseTablesMoves, arrays_releases, Set.union_empty]
        at one two freed ⊢
      exact ⟨one.append (two.append freed), List.nodup_nil⟩
    · rename_i e₂ hshdr
      have null' := (elfLoadShdr_strtab hshdr).trans null
      have two := @elfLoadShdr_takes env e₁ e₂ true ∅ hshdr id
      have headers := (elfLoadShdr_grows hshdr).2 rfl
      have again : elfLoadShdr env e₂ = .ok (e₂, true) := if_pos headers
      have stranded : elfLoadStrtabStranded env e₁ = elfLoadStrtabStranded env e₂ := by
        unfold elfLoadStrtabStranded
        rw [hshdr, again]
      have pieces := @elfLoadStrtabStranded_isStrtab env e₂
      have three := fun {e₃ ok} (hstrtab : elfLoadStrtab env e₂ = .ok (e₃, ok)) =>
        elfLoadStrtab_takes (l := ∅) hstrtab null' id fun _ held => held.elim
      generalize elfLoadStrtabStranded env e₂ = left at stranded pieces three
      split at h
      · cases h
      · rename_i e₃ hstrtab
        cases h
        have empty := elfLoadStrtab_failed hstrtab
        have third := (three hstrtab).1
        have freed := releaseTables_takes (l := left) (nodup empty) fun x mem held =>
          tables_of_null empty x mem (pieces x held)
        simp only [elfLoadAllMoves, hphdr, hshdr, hstrtab, arrays_append, arrays_phdr, arrays_shdr,
          arrays_strtab, Handle.releaseTablesMoves, arrays_releases, Set.union_empty,
          Set.empty_union, stranded] at one two third freed ⊢
        exact ⟨one.append (two.append (third.append freed)), List.nodup_nil⟩
      · rename_i e₃ hstrtab
        obtain ⟨third, ids⟩ := three hstrtab
        obtain ⟨grows, some⟩ := elfLoadStrtab_grows hstrtab
        have before := ((elfLoadPhdr_grows hphdr).1.trans (elfLoadShdr_grows hshdr).1).trans grows
        have shdr : e₃.shdr.isSome := by rwa [grows.shdr headers]
        have known : e₃.knownClass := before.known.trans fresh.known
        have new : ∀ type, (Resource.block (.symtab type)) ∉ left ∧
            (Resource.block (.symbol type)) ∉ left := by
          refine fun type => ⟨fun held => ?_, fun held => ?_⟩ <;>
            obtain ⟨i, same | same⟩ := pieces _ held <;> cases same
        split at h
        · cases h
        · rename_i e₄ ok₄ hsym
          split at h
          · cases h
          · rename_i e₅ ok₅ hdsym
            cases h
            obtain ⟨last, same⟩ := symbols_takes (l := left) hsym hdsym shdr (some rfl) known
              (before.sym_eq.trans fresh.sym) (before.dsym_eq.trans fresh.dsym) new
            rw [same]
            simp only [elfLoadAllMoves, hphdr, hshdr, hstrtab, hsym, arrays_append, arrays_phdr,
              arrays_shdr, arrays_strtab, Set.union_empty, Set.empty_union, stranded] at one two third last ⊢
            refine ⟨(one.append (two.append (third.append last))).congr ?_, ids⟩
            rw [Set.union_comm left]

/-- A loop that comes to its end strands nothing. -/
theorem strandedFrom_of_some {i : Nat} {shdr : List Shdr} {strtab tabs : List Strtab}
    (h : loadStrtabs env e i shdr strtab = some tabs) : strandedFrom env e i shdr = [] := by
  induction shdr generalizing i strtab with
  | nil => rfl
  | cons s shdr ih =>
      unfold loadStrtabs at h
      unfold strandedFrom
      split at h
      · rename_i other
        rw [if_pos other]
        exact ih h
      · rename_i table
        rw [if_neg table]
        split at h
        · cases h
        · rename_i taken
          obtain ⟨node, data⟩ := not_or.mp taken
          rw [if_neg node, if_neg data]
          split at h
          · cases h
          · rename_i read
            rw [read, Option.isSome_some, if_pos rfl]
            exact ih h

theorem elfLoadStrtab_whole (h : elfLoadStrtab env e = .ok (e', true)) (null : e.strtab = []) :
    elfLoadStrtabStranded env e = ∅ := by
  unfold elfLoadStrtab at h
  unfold elfLoadStrtabStranded
  rw [if_neg (not_not.mpr null)] at h
  split at h
  · cases h
  · cases h
  · rename_i first
    simp only [first]
    split at h
    · cases h
    · rename_i built
      rw [strandedFrom_of_some built]
      ext x
      simp

/-- Where all tables are loaded only arrays are lost. -/
theorem elfLoadAll_whole (h : elfLoadAll env e = .ok (e', true)) (null : e.strtab = []) :
    elfLoadAllStranded env e = ∅ := by
  unfold elfLoadAll at h
  unfold elfLoadAllStranded
  split at h
  · cases h
  · cases h
  · rename_i e₁ hphdr
    simp only [hphdr]
    have null₁ := (elfLoadPhdr_strtab hphdr).trans null
    split at h
    · cases h
    · cases h
    · rename_i e₂ hshdr
      have null₂ := (elfLoadShdr_strtab hshdr).trans null₁
      have again : elfLoadShdr env e₂ = .ok (e₂, true) := if_pos ((elfLoadShdr_grows hshdr).2 rfl)
      split at h
      · cases h
      · cases h
      · rename_i hstrtab
        have whole := elfLoadStrtab_whole hstrtab null₂
        unfold elfLoadStrtabStranded at whole ⊢
        rw [again] at whole
        rw [hshdr]
        exact whole

theorem elfLoadAllLost_kinds : ∀ x ∈ elfLoadAllLost env e, x.IsArray ∨ x.IsStrtab := by
  rintro x (array | stranded)
  · exact .inl array.2
  · unfold elfLoadAllStranded at stranded
    split at stranded
    · exact .inr (elfLoadStrtabStranded_isStrtab x stranded)
    · exact stranded.elim

/-- What is lost does not belong to the handle. -/
theorem elfLoadAllLost_apart (null : e.strtab = []) (h : elfLoadAll env e = .ok (e', ok)) :
    ∀ x ∈ elfLoadAllLost env e, ¬ e'.Owns x := by
  rintro x lost owns
  rcases elfLoadAllLost_kinds x lost with ⟨type, rfl⟩ | ⟨i, piece⟩
  · exact owns
  · obtain ⟨rfl, -⟩ | ⟨-, rfl⟩ := elfLoadAll_cases h
    · rcases lost with ⟨-, type, rfl⟩ | stranded
      · rcases piece with same | same <;> cases same
      · rw [elfLoadAll_whole h null] at stranded
        exact stranded
    · rcases piece with rfl | rfl <;> simp [Handle.Owns, Handle.releaseTables] at owns

/-- A new handle has no tables. -/
theorem Handle.Fresh.owned (fresh : e.Fresh) :
    e.owned = {.descriptor, .libelf, .block .handle} := by
  ext x
  rcases x with _ | _ | _ | _ | _ | _ | _ | _ | _ <;>
    simp [Handle.owned, Handle.Owns, fresh.phdr, fresh.shdr, fresh.strtab, fresh.sym, fresh.dsym]

/-- What belongs to the handle, if there is one. -/
def ownedBy (handle : Option Handle) : Set Resource := handle.elim ∅ Handle.owned

/-- A file that is opened is held by its handle; where opening it fails nothing is left. -/
theorem elfOpen_takes {filename : List Char} {opened : Option Handle} (refusal : Refusal)
    (h : elfOpen env filename = .ok opened) :
    Takes ∅ (elfOpenMoves env refusal filename) (ownedBy opened) := by
  have two : Takes (∅ : Set Resource) [.acquire .descriptor, .acquire .libelf]
      {.libelf, .descriptor} :=
    .cons_acquire id ((Takes.acquire (by simp)).congr (by simp))
  have closed : Takes ({.libelf, .descriptor} : Set Resource)
      [.release .libelf, .release .descriptor] ∅ := by
    refine .cons_release (by simp) ((Takes.release (by simp)).congr ?_)
    ext x
    simp
  have three := two.append (Takes.acquire (a := .block .handle) (by simp))
  unfold elfOpenMoves
  have fresh : ∀ e, opened = some e → e.Fresh := fun e he => elfOpen_fresh (he ▸ h)
  unfold elfOpen at h
  cases shown : env.file filename with
  | none =>
      simp only [shown] at h ⊢
      cases h
      cases refusal with
      | «open» => exact .nil _
      | begin => exact .cancel id
      | getident => exact two.append closed
  | some file =>
      simp only [shown] at h ⊢
      by_cases noBlock : ¬ env.malloc .handle
      · rw [if_pos noBlock] at h ⊢
        cases h
        exact two.append closed
      rw [if_neg noBlock] at h ⊢
      by_cases known : file.ident 4 = 0x01 ∨ file.ident 4 = 0x02
      · rw [if_pos known] at h ⊢
        split at h
        · cases h
        · cases h
          refine three.congr ?_
          have owned := (fresh _ rfl).owned
          rw [ownedBy, Option.elim_some, owned]
          ext x
          simp only [Set.mem_insert_iff, Set.mem_singleton_iff]
          tauto
      · rw [if_neg known] at h ⊢
        cases h
        refine three.append ?_
        refine .cons_release (by simp) (.cons_release (by simp) ?_)
        refine (Takes.release (by simp)).congr ?_
        ext x
        simp only [ownedBy, Option.elim_none, Set.mem_sdiff, Set.mem_insert_iff,
          Set.mem_singleton_iff, Set.mem_empty_iff_false]
        tauto

end Loaders

end Elf
