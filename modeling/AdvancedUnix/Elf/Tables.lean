import AdvancedUnix.Elf.Load

/-!
# Loading all tables or none

Five loaders leave their tables in one handle and call each other when a table they need is
missing; `elf_load_all` calls all of them, and takes everything back when one of the first
three fails. A run is any sequence of calls, each in surroundings of its own, in which every
allocation and every read may fail.

A table that is loaded is never looked at again: `Needed` are the places of the code that
allocate or read for a table that is null, and a call depends on no others.
-/

namespace Elf

/-- The functions that load tables. -/
inductive Loader where
  | phdr
  | shdr
  | strtab
  | symtab
  | dsymtab
  | all
  deriving DecidableEq

def Loader.call (env : Env) (e : Handle) : Loader → Except Fault (Handle × Bool)
  | phdr => elfLoadPhdr env e
  | shdr => elfLoadShdr env e
  | strtab => elfLoadStrtab env e
  | symtab => elfLoadSymtab env e
  | dsymtab => elfLoadDsymtab env e
  | all => elfLoadAll env e

/-- A sequence of calls that return; `quiet` says that no `elf_load_all` fails in it. -/
inductive Run : Bool → Handle → Handle → Prop where
  | refl (e : Handle) : Run true e e
  | call {quiet ok : Bool} {e e' e'' : Handle} (before : Run quiet e e') (l : Loader) (env : Env)
      (returns : l.call env e' = .ok (e'', ok)) : Run (quiet && (l ≠ .all || ok)) e e''

/-- A place that allocates or reads for a table that is null. -/
def Handle.Needed (e : Handle) : Site → Prop
  | .handle => False
  | .phdr => e.phdr = none
  | .shdr => e.shdr = none
  | .strtabNode _ => e.strtab = []
  | .strtabData _ => e.strtab = []
  | .symtab type => type = SHT_SYMTAB ∧ e.sym = none ∨ type = SHT_DYNSYM ∧ e.dsym = none
  | .symbol type => type = SHT_SYMTAB ∧ e.sym = none ∨ type = SHT_DYNSYM ∧ e.dsym = none

/-- Surroundings that may differ where a table is loaded that is not null. -/
structure Handle.SameFor (e : Handle) (env env' : Env) : Prop where
  malloc : ∀ site, e.Needed site → env.malloc site = env'.malloc site
  pread : ∀ site, e.Needed site → env.pread site = env'.pread site
  freshShdr : e.shdr = none → env.freshShdr = env'.freshShdr
  freshStrtabNull : env.freshStrtabNull = env'.freshStrtabNull

/-- What holds of the tables of a handle at every point. -/
structure Consistent (e : Handle) : Prop where
  linked : e.sym.isSome ∨ e.dsym.isSome → e.shdr.isSome ∧ e.strtab ≠ []
  /-- after an `elf_load_all` that returns zero -/
  loaded : ∀ env e', elfLoadAll env e = .ok (e', true) →
    e'.phdr.isSome ∧ e'.shdr.isSome ∧ e'.strtab ≠ []
  /-- after one that returns minus one: the other fields are as before -/
  failed : ∀ env e', elfLoadAll env e = .ok (e', false) → e' =
    { e with phdr := none, shdr := none, strtab := [], sym := none, dsym := none }
  /-- a table that is not null is not read again by any call -/
  unread : ∀ (l : Loader) env env', e.SameFor env env' → l.call env e = l.call env' e

theorem Loader.call_keeps {l : Loader} {env : Env} {e e' : Handle} {ok : Bool}
    (h : l.call env e = .ok (e', ok)) (kept : l = .all → ok = true) : e.Keeps e' := by
  cases l with
  | phdr => exact (elfLoadPhdr_grows h).1.toKeeps
  | shdr => exact (elfLoadShdr_grows h).1.toKeeps
  | strtab => exact (elfLoadStrtab_grows h).1.toKeeps
  | symtab => exact (elfLoadSymtab_keeps h).1
  | dsymtab => exact (elfLoadDsymtab_keeps h).1
  | all =>
      obtain ⟨-, keeps, -⟩ | ⟨failed, -⟩ := elfLoadAll_cases h
      · exact keeps
      · rw [kept rfl] at failed
        cases failed

theorem Loader.call_linked {l : Loader} {env : Env} {e e' : Handle} {ok : Bool}
    (h : l.call env e = .ok (e', ok)) (linked : e.Linked) : e'.Linked := by
  cases l with
  | phdr => exact linked.grows (elfLoadPhdr_grows h).1
  | shdr => exact linked.grows (elfLoadShdr_grows h).1
  | strtab => exact linked.grows (elfLoadStrtab_grows h).1
  | symtab => exact (elfLoadSymtab_keeps h).2 linked
  | dsymtab => exact (elfLoadDsymtab_keeps h).2 linked
  | all =>
      obtain ⟨-, -, kept, -⟩ | ⟨-, rfl⟩ := elfLoadAll_cases h
      · exact kept linked
      · intro symbols
        simp [Handle.releaseTables] at symbols

/-- What was loaded stays what it is until an `elf_load_all` fails. -/
theorem Run.keeps {quiet : Bool} {e e' : Handle} (run : Run quiet e e') (still : quiet = true) :
    e.Keeps e' := by
  induction run with
  | refl e => exact .refl e
  | @call quiet ok e e' e'' before l env returns ih =>
      obtain ⟨still, last⟩ := Bool.and_eq_true_iff.mp still
      refine (ih still).trans (Loader.call_keeps returns fun all => ?_)
      subst all
      simpa using last

theorem Run.linked {quiet : Bool} {e e' : Handle} (run : Run quiet e e') (linked : e.Linked) :
    e'.Linked := by
  induction run with
  | refl e => exact linked
  | call before l env returns ih => exact Loader.call_linked returns (ih linked)

section Unread

variable {e e' : Handle} {env env' : Env} {ok : Bool}

/-- A call needs no more than the one before it. -/
theorem Handle.Keeps.needed (h : e.Keeps e') {site : Site} (needed : e'.Needed site) :
    e.Needed site := by
  have null : ∀ {α : Type} {s t : Option α}, (s.isSome → t = s) → t = none → s = none := by
    intro α s t kept none
    cases s with
    | none => rfl
    | some x => rw [kept rfl] at none; exact none
  have empty : e'.strtab = [] → e.strtab = [] := by
    intro none
    by_contra loaded
    rw [h.strtab loaded] at none
    exact loaded none
  cases site with
  | handle => exact needed
  | phdr => exact null h.phdr needed
  | shdr => exact null h.shdr needed
  | strtabNode i => exact empty needed
  | strtabData i => exact empty needed
  | symtab type => exact needed.imp (And.imp_right (null h.sym)) (And.imp_right (null h.dsym))
  | symbol type => exact needed.imp (And.imp_right (null h.sym)) (And.imp_right (null h.dsym))

theorem Handle.SameFor.later (h : e.SameFor env env') (keeps : e.Keeps e') :
    e'.SameFor env env' where
  malloc site needed := h.malloc site (keeps.needed needed)
  pread site needed := h.pread site (keeps.needed needed)
  freshShdr null := h.freshShdr (keeps.needed (show e'.Needed .shdr from null))
  freshStrtabNull := h.freshStrtabNull

theorem elfLoadPhdr_unread (h : e.SameFor env env') : elfLoadPhdr env e = elfLoadPhdr env' e := by
  unfold elfLoadPhdr
  by_cases loaded : e.phdr.isSome
  · rw [if_pos loaded, if_pos loaded]
  · rw [if_neg loaded, if_neg loaded, h.malloc .phdr (Option.not_isSome_iff_eq_none.mp loaded)]

theorem elfLoadShdr_unread (h : e.SameFor env env') : elfLoadShdr env e = elfLoadShdr env' e := by
  unfold elfLoadShdr
  by_cases loaded : e.shdr.isSome
  · rw [if_pos loaded, if_pos loaded]
  · have null := Option.not_isSome_iff_eq_none.mp loaded
    rw [if_neg loaded, if_neg loaded, h.malloc .shdr null, h.freshShdr null]

theorem preadAll_unread {site : Site} (h : env.pread site = env'.pread site) (e : Handle)
    (size offset : Memory.Word) :
    preadAll env site e size offset = preadAll env' site e size offset := by
  unfold preadAll
  rw [h]

theorem loadStrtabs_unread (h : e.SameFor env env') (null : e.strtab = []) (e₁ : Handle)
    (i : Nat) (shdr : List Shdr) (strtab : List Strtab) :
    loadStrtabs env e₁ i shdr strtab = loadStrtabs env' e₁ i shdr strtab := by
  induction shdr generalizing i strtab with
  | nil => rfl
  | cons s shdr ih =>
      simp only [loadStrtabs, h.malloc (.strtabNode i) null, h.malloc (.strtabData i) null,
        preadAll_unread (h.pread (.strtabData i) null), ih]

theorem elfLoadStrtab_unread (h : e.SameFor env env') :
    elfLoadStrtab env e = elfLoadStrtab env' e := by
  unfold elfLoadStrtab
  by_cases loaded : e.strtab ≠ []
  · rw [if_pos loaded, if_pos loaded]
  · have null := not_not.mp loaded
    rw [if_neg loaded, if_neg loaded, elfLoadShdr_unread h]
    simp only [loadStrtabs_unread h null]

theorem elfLoadSymtabInternal_unread (h : e.SameFor env env') (shdr : Shdr)
    (null : shdr.type = SHT_SYMTAB ∧ e.sym = none ∨ shdr.type = SHT_DYNSYM ∧ e.dsym = none) :
    elfLoadSymtabInternal env e shdr = elfLoadSymtabInternal env' e shdr := by
  unfold elfLoadSymtabInternal
  simp only [elfLoadStrtab_unread h, h.malloc (.symtab shdr.type) null,
    h.malloc (.symbol shdr.type) null, preadAll_unread (h.pread (.symbol shdr.type) null),
    h.freshStrtabNull]

theorem firstOfType_type {type : Memory.Word} {s : Shdr} (h : firstOfType e type = some s) :
    s.type = type := by
  simpa using List.find?_some h

theorem SymbolTable.load_unread (h : e.SameFor env env') (t : SymbolTable) :
    t.load env e = t.load env' e := by
  rw [t.load_eq, t.load_eq]
  by_cases loaded : (t.get e).isSome
  · rw [if_pos loaded, if_pos loaded]
  · rw [if_neg loaded, if_neg loaded, elfLoadShdr_unread h]
    cases hshdr : elfLoadShdr env' e with
    | error f => rfl
    | ok r =>
        obtain ⟨e₁, ok⟩ := r
        cases ok with
        | false => rfl
        | true =>
            have first := (elfLoadShdr_grows hshdr).1
            have null : t.get e₁ = none := by
              rw [first.get]
              exact Option.not_isSome_iff_eq_none.mp loaded
            simp only
            cases hs : firstOfType e₁ t.type with
            | none => rfl
            | some s =>
                have needed : s.type = SHT_SYMTAB ∧ e₁.sym = none ∨
                    s.type = SHT_DYNSYM ∧ e₁.dsym = none := by
                  cases t with
                  | symtab => exact .inl ⟨firstOfType_type hs, null⟩
                  | dsymtab => exact .inr ⟨firstOfType_type hs, null⟩
                simp only [elfLoadSymtabInternal_unread (h.later first.toKeeps) s needed]

theorem elfLoadSymtab_unread (h : e.SameFor env env') :
    elfLoadSymtab env e = elfLoadSymtab env' e := SymbolTable.load_unread h .symtab

theorem elfLoadDsymtab_unread (h : e.SameFor env env') :
    elfLoadDsymtab env e = elfLoadDsymtab env' e := SymbolTable.load_unread h .dsymtab

theorem elfLoadAll_unread (h : e.SameFor env env') : elfLoadAll env e = elfLoadAll env' e := by
  unfold elfLoadAll
  rw [elfLoadPhdr_unread h]
  cases hphdr : elfLoadPhdr env' e with
  | error f => rfl
  | ok r =>
      obtain ⟨e₁, ok⟩ := r
      have h₁ := h.later (elfLoadPhdr_grows hphdr).1.toKeeps
      cases ok with
      | false => rfl
      | true =>
          simp only [elfLoadShdr_unread h₁]
          cases hshdr : elfLoadShdr env' e₁ with
          | error f => rfl
          | ok r =>
              obtain ⟨e₂, ok⟩ := r
              have h₂ := h₁.later (elfLoadShdr_grows hshdr).1.toKeeps
              cases ok with
              | false => rfl
              | true =>
                  simp only [elfLoadStrtab_unread h₂]
                  cases hstrtab : elfLoadStrtab env' e₂ with
                  | error f => rfl
                  | ok r =>
                      obtain ⟨e₃, ok⟩ := r
                      have h₃ := h₂.later (elfLoadStrtab_grows hstrtab).1.toKeeps
                      cases ok with
                      | false => rfl
                      | true =>
                          simp only [elfLoadSymtab_unread h₃]
                          cases hsym : elfLoadSymtab env' e₃ with
                          | error f => rfl
                          | ok r =>
                              have h₄ := h₃.later (elfLoadSymtab_keeps hsym).1
                              simp only [elfLoadDsymtab_unread h₄]

end Unread

/-- After every sequence of calls on an opened file the tables are `Consistent`, and what
is loaded then is kept by all further calls until an `elf_load_all` fails. -/
theorem tables_consistent {env : Env} {filename : List Char} {e : Handle}
    (opened : elfOpen env filename = .ok (some e)) {quiet : Bool} {e' : Handle}
    (run : Run quiet e e') : Consistent e' ∧ ∀ e'', Run true e' e'' → e'.Keeps e'' := by
  have start : e.Linked := by
    unfold elfOpen at opened
    repeat' split at opened
    all_goals cases opened <;> exact fun symbols => by simp at symbols
  refine ⟨⟨run.linked start, fun env e'' h => ?_, fun env e'' h => ?_, fun l env env' h => ?_⟩,
    fun e'' later => later.keeps rfl⟩
  · obtain ⟨-, -, -, tables⟩ | ⟨failed, -⟩ := elfLoadAll_cases h
    · exact tables
    · cases failed
  · obtain ⟨loaded, -⟩ | ⟨-, cleared⟩ := elfLoadAll_cases h
    · cases loaded
    · exact cleared
  · cases l with
    | phdr => exact elfLoadPhdr_unread h
    | shdr => exact elfLoadShdr_unread h
    | strtab => exact elfLoadStrtab_unread h
    | symtab => exact elfLoadSymtab_unread h
    | dsymtab => exact elfLoadDsymtab_unread h
    | all => exact elfLoadAll_unread h

namespace Demo

/-- `.text`, the names of the sections, and a symbol table with one entry. -/
def sections : List Shdr :=
  [⟨1, 1, 6, 0x400000, 0, 16, 0, 0, 16, 0⟩, ⟨0, SHT_STRTAB, 0, 0, 0, 7, 0, 0, 1, 0⟩,
    ⟨0, SHT_SYMTAB, 0, 0, 8, 24, 2, 0, 8, 24⟩]

/-- An executable with these sections. -/
def file : File where
  ident := fun i => if i = 4 then 2 else 0
  ehdr := some ⟨2, 1, 4, 2, 0x400000⟩
  phdrs := some fun _ => ⟨1, 0, 0x400000, 0x400000, 32, 32, 5, 0x1000⟩
  scns := [1, 2, 3].zip (sections.map some)
  bytes := [0x00, 0x2e, 0x74, 0x65, 0x78, 0x74, 0x00, 0x00, 0x01, 0x00, 0x00, 0x00, 0x12, 0x00,
    0x01, 0x00, 0x00, 0x00, 0x40, 0x00, 0x00, 0x00, 0x00, 0x00, 0x10, 0x00, 0x00, 0x00, 0x00, 0x00,
    0x00, 0x00]

/-- Every call succeeds, and fresh memory is full of ones. -/
def env : Env where
  file := fun _ => some file
  malloc _ := true
  pread _ := true
  freshShdr _ := ⟨-1, -1, -1, -1, -1, -1, -1, -1, -1, -1⟩
  freshStrtabNull := false

def handle : Handle where
  filename := "/bin/prog".toList
  elf := file
  clazz := 2
  phnum := 1
  shnum := 4
  shstrndx := 2
  entrypoint := 0x400000
  type := 2
  phdr := none
  shdr := none
  strtab := []
  sym := none
  dsym := none

/-- What a call that returns leaves in the handle. -/
def after (result : Except Fault (Handle × Bool)) : Handle :=
  match result with
  | .ok (e, _) => e
  | .error _ => handle

theorem handle_opened : elfOpen env "/bin/prog".toList = .ok (some handle) := rfl

/-- The tables are loaded by one call. -/
theorem handle_consistent :
    Consistent (after (elfLoadAll env handle)) ∧
      ∀ e, Run true (after (elfLoadAll env handle)) e →
        (after (elfLoadAll env handle)).Keeps e :=
  tables_consistent handle_opened (.call (.refl handle) .all env rfl)

end Demo

end Elf
