import AdvancedUnix.Elf.Load

/-!
# Filling the array of section headers

The array comes from `malloc`, and the loop that fills it follows libelf, which has no
section zero. `origins` follows the filling, with the index of the section where the loop
stores its header. An entry is `Assigned` when it holds the header of its own section.
-/

namespace Elf

/-- libelf goes through the sections from section one on, and gives each its index. -/
def Iterates (file : File) (shnum : Nat) (header : Nat → Option Shdr) : Prop :=
  file.scns = (List.range' 1 (shnum - 1)).map fun ndx => (ndx, header ndx)

/-- For each entry of the array the section whose header was stored there last. -/
def origins (shnum : Nat) : List (Nat × Option Shdr) → List (Option Nat) → List (Option Nat)
  | [], origin => origin
  | (ndx, _) :: scns, origin => origins shnum scns (origin.set (ndx % shnum) (some ndx))

/-- An entry was filled with the header of the section of the same index. -/
def Handle.Assigned (e : Handle) (i : Nat) : Prop :=
  (origins e.shnum e.elf.scns (List.replicate e.shnum none))[i]? = some (some i)

/-- What the filling leaves in an entry: the header of its origin, or what was there. -/
theorem assignShdr_origins {shnum : Nat} {scns : List (Nat × Option Shdr)} {shdr table : List Shdr}
    {origin : List (Option Nat)} (length : origin.length = shdr.length)
    (h : assignShdr shnum scns shdr = .ok table) (i : Nat) :
    (∃ k s, (origins shnum scns origin)[i]? = some (some k) ∧ (k, some s) ∈ scns ∧
        table[i]? = some s) ∨
      (origins shnum scns origin)[i]? = origin[i]? ∧ table[i]? = shdr[i]? := by
  induction scns generalizing shdr origin with
  | nil =>
      cases h
      exact .inr ⟨rfl, rfl⟩
  | cons scn scns ih =>
      obtain ⟨ndx, header⟩ := scn
      cases header with
      | none => cases h
      | some s =>
          rw [assignShdr] at h
          rw [origins]
          have length' : (origin.set (ndx % shnum) (some ndx)).length =
              (shdr.set (ndx % shnum) s).length := by
            rw [List.length_set, List.length_set, length]
          obtain ⟨k, s', at_, member, entry⟩ | ⟨at_, entry⟩ := ih length' h
          · exact .inl ⟨k, s', at_, List.mem_cons_of_mem _ member, entry⟩
          · by_cases here : ndx % shnum = i ∧ i < shdr.length
            · obtain ⟨rfl, inside⟩ := here
              refine .inl ⟨ndx, s, ?_, List.mem_cons_self, ?_⟩
              · rw [at_, List.getElem?_set_self (by omega)]
              · rw [entry, List.getElem?_set_self inside]
            · have kept : ∀ {β : Type} (xs : List β) (x : β), xs.length = shdr.length →
                  (xs.set (ndx % shnum) x)[i]? = xs[i]? := by
                intro β xs x same
                by_cases other : ndx % shnum = i
                · have beyond : shdr.length ≤ i := not_lt.mp fun inside => here ⟨other, inside⟩
                  rw [List.getElem?_eq_none, List.getElem?_eq_none]
                  · omega
                  · rw [List.length_set]
                    omega
                · exact List.getElem?_set_ne other
              exact .inr ⟨at_.trans (kept _ _ length), entry.trans (kept _ _ rfl)⟩

theorem assignShdr_length {shnum : Nat} {scns : List (Nat × Option Shdr)} {shdr table : List Shdr}
    (h : assignShdr shnum scns shdr = .ok table) : table.length = shdr.length := by
  induction scns generalizing shdr with
  | nil =>
      cases h
      rfl
  | cons scn scns ih =>
      obtain ⟨ndx, header⟩ := scn
      cases header with
      | none => cases h
      | some s =>
          rw [assignShdr] at h
          rw [ih h, List.length_set]

/-- Sections with consecutive indices are each stored at their own. -/
theorem origins_range' {shnum first count : Nat} (header : Nat → Option Shdr)
    (bound : first + count ≤ shnum) {origin : List (Option Nat)} (length : origin.length = shnum)
    (i : Nat) :
    (origins shnum ((List.range' first count).map fun ndx => (ndx, header ndx)) origin)[i]? =
      if first ≤ i ∧ i < first + count then some (some i) else origin[i]? := by
  induction count generalizing first origin with
  | zero => rw [List.range'_zero, List.map_nil, origins, if_neg (by omega)]
  | succ count ih =>
      have index : first % shnum = first := Nat.mod_eq_of_lt (by omega)
      rw [List.range'_succ, List.map_cons, origins, index,
        ih (by omega) (by rw [List.length_set, length])]
      by_cases here : i = first
      · subst here
        rw [if_neg (by omega), if_pos (by omega), List.getElem?_set_self (by omega)]
      · rw [List.getElem?_set_ne (Ne.symm here)]
        exact if_congr (by omega) rfl rfl

/-- Every entry but the first is filled with the header of its section. -/
theorem assigned_iff {e : Handle} {header : Nat → Option Shdr}
    (iterates : Iterates e.elf e.shnum header) {i : Nat} (inside : i < e.shnum) :
    e.Assigned i ↔ i ≠ 0 := by
  rw [Handle.Assigned, iterates,
    origins_range' header (by omega) (List.length_replicate) i]
  by_cases first : i = 0
  · rw [if_neg (by omega), List.getElem?_replicate, if_pos inside]
    exact iff_of_false (fun same => by cases same) (not_not.mpr first)
  · rw [if_pos (by omega)]
    exact iff_of_true rfl first

/-- A loader of headers goes on when there are any and it has memory for them. -/
theorem ready_iff {count : Nat} {known granted : Bool} :
    ¬ (count = 0 ∨ ¬ known ∨ ¬ granted) ↔ 0 < count ∧ known ∧ granted := by
  rw [not_or, not_or, not_not, not_not, Nat.pos_iff_ne_zero]

/-- The headers are loaded when there are any, and libelf gives all of them. -/
theorem elfLoadShdr_of_null {env : Env} {e e' : Handle} (null : e.shdr = none) :
    elfLoadShdr env e = .ok (e', true) ↔ (0 < e.shnum ∧ e.knownClass ∧ env.malloc .shdr) ∧
      ∃ table, assignShdr e.shnum e.elf.scns ((List.range e.shnum).map env.freshShdr) = .ok table ∧
        e' = { e with shdr := some table } := by
  rw [← ready_iff, elfLoadShdr, null, if_neg (show ¬ (none : Option (List Shdr)).isSome by decide)]
  constructor
  · intro h
    split at h
    · cases h
    · rename_i ready
      split at h
      · cases h
      · rename_i table filled
        cases h
        exact ⟨ready, table, filled, rfl⟩
  · rintro ⟨ready, table, filled, rfl⟩
    rw [if_neg ready, filled]

/-- An entry that was filled has the header that libelf gives for its section, and the
first entry has what fresh memory held. -/
theorem elfLoadShdr_entries {env : Env} {e e' : Handle} {header : Nat → Option Shdr}
    (null : e.shdr = none) (iterates : Iterates e.elf e.shnum header)
    (h : elfLoadShdr env e = .ok (e', true)) :
    ∃ table, e'.shdr = some table ∧ table.length = e.shnum ∧ table[0]? = some (env.freshShdr 0) ∧
      ∀ i, 0 < i → i < e.shnum → table[i]? = header i := by
  obtain ⟨⟨pos, -⟩, table, filled, rfl⟩ := (elfLoadShdr_of_null null).mp h
  have length : table.length = e.shnum := by
    rw [assignShdr_length filled, List.length_map, List.length_range]
  have unfilled : (List.replicate e.shnum (none : Option Nat)).length = e.shnum :=
    List.length_replicate
  have bound : 1 + (e.shnum - 1) ≤ e.shnum := by omega
  have origin := origins_range' header bound unfilled
  have entries := assignShdr_origins
    (unfilled.trans (by rw [List.length_map, List.length_range])) filled
  refine ⟨table, rfl, length, ?_, fun i first inside => ?_⟩
  · obtain ⟨k, s, at_, -⟩ | ⟨-, entry⟩ := entries 0
    · rw [iterates, origin, if_neg (by omega), List.getElem?_replicate, if_pos pos] at at_
      cases at_
    · rw [entry, List.getElem?_map, List.getElem?_range pos]
      rfl
  · obtain ⟨k, s, at_, member, entry⟩ | ⟨at_, -⟩ := entries i
    · rw [iterates, origin, if_pos (by omega)] at at_
      cases at_
      rw [iterates] at member
      obtain ⟨ndx, -, same⟩ := List.mem_map.mp member
      obtain ⟨rfl, value⟩ := Prod.mk.inj same
      rw [entry, value]
    · rw [iterates, origin, if_pos (by omega), List.getElem?_replicate, if_pos inside] at at_
      cases at_

/-- What an entry of the array holds once it is filled. -/
def entryOf (env : Env) (header : Nat → Option Shdr) (i : Nat) : Option Shdr :=
  if i = 0 then some (env.freshShdr 0) else header i

/-- libelf gives the header of each section. -/
def Handle.Given (e : Handle) (header : Nat → Option Shdr) : Prop :=
  ∀ i, 0 < i → i < e.shnum → (header i).isSome

theorem assignShdr_ok_iff {shnum : Nat} {scns : List (Nat × Option Shdr)} (shdr : List Shdr) :
    (∃ table, assignShdr shnum scns shdr = .ok table) ↔ ∀ scn ∈ scns, scn.2.isSome := by
  induction scns generalizing shdr with
  | nil => exact iff_of_true ⟨shdr, rfl⟩ fun scn none => absurd none List.not_mem_nil
  | cons scn scns ih =>
      obtain ⟨ndx, header⟩ := scn
      rw [List.forall_mem_cons]
      cases header with
      | none =>
          refine iff_of_false ?_ fun h => Bool.false_ne_true h.1
          rintro ⟨table, filled⟩
          cases filled
      | some s =>
          rw [and_iff_right (show (ndx, some s).2.isSome from rfl), assignShdr]
          exact ih (shdr.set (ndx % shnum) s)

/-- The array is filled exactly when libelf gives all headers. -/
theorem assignShdr_given {e : Handle} {header : Nat → Option Shdr}
    (iterates : Iterates e.elf e.shnum header) (shdr : List Shdr) :
    (∃ table, assignShdr e.shnum e.elf.scns shdr = .ok table) ↔ e.Given header := by
  rw [assignShdr_ok_iff, iterates, List.forall_mem_map]
  refine forall_congr' fun i => ?_
  rw [List.mem_range'_1, and_imp]
  exact forall_congr' fun first => imp_congr_left (by omega)

/-- The loader is refused at its beginning, stops at a header that libelf does not give, or
leaves an array with all entries. -/
theorem elfLoadShdr_cases (env : Env) {e : Handle} {header : Nat → Option Shdr}
    (null : e.shdr = none) (known : e.knownClass) (iterates : Iterates e.elf e.shnum header) :
    ¬ (0 < e.shnum ∧ env.malloc .shdr) ∧ elfLoadShdr env e = .ok (e, false) ∨
      (0 < e.shnum ∧ env.malloc .shdr) ∧ ¬ e.Given header ∧ (∃ f, elfLoadShdr env e = .error f) ∨
      (0 < e.shnum ∧ env.malloc .shdr) ∧ e.Given header ∧
        ∃ table, elfLoadShdr env e = .ok ({ e with shdr := some table }, true) ∧
          table.length = e.shnum ∧ ∀ i < e.shnum, table[i]? = entryOf env header i := by
  by_cases ready : 0 < e.shnum ∧ env.malloc .shdr
  · have load := @elfLoadShdr_of_null env e
    have given := assignShdr_given iterates ((List.range e.shnum).map env.freshShdr)
    cases filled : assignShdr e.shnum e.elf.scns ((List.range e.shnum).map env.freshShdr) with
    | error f =>
        refine .inr (.inl ⟨ready, fun all => ?_, f, ?_⟩)
        · obtain ⟨table, filled'⟩ := given.mpr all
          rw [filled] at filled'
          cases filled'
        · have start := ready_iff.mpr ⟨ready.1, known, ready.2⟩
          rw [elfLoadShdr, null, if_neg (show ¬ (none : Option (List Shdr)).isSome by decide),
            if_neg start, filled]
    | ok table =>
        have loaded := (load null).mpr ⟨⟨ready.1, known, ready.2⟩, table, filled, rfl⟩
        obtain ⟨_, same, length, zero, entries⟩ := elfLoadShdr_entries null iterates loaded
        cases same
        refine .inr (.inr ⟨ready, given.mp ⟨table, filled⟩, table, loaded, length, ?_⟩)
        intro i inside
        unfold entryOf
        split
        · rename_i first
          rw [first, zero]
        · exact entries i (by omega) inside
  · refine .inl ⟨ready, ?_⟩
    have stop : e.shnum = 0 ∨ ¬ e.knownClass ∨ ¬ env.malloc .shdr := by
      by_contra start
      obtain ⟨count, -, array⟩ := ready_iff.mp start
      exact ready ⟨count, array⟩
    rw [elfLoadShdr, null, if_neg (show ¬ (none : Option (List Shdr)).isSome by decide),
      if_pos stop]

end Elf
