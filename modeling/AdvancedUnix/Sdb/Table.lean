import AdvancedUnix.Runs.Basic
import AdvancedUnix.Sdb.Fragment
import AdvancedUnix.Sdb.Live
import AdvancedUnix.Sdb.Loaded
import AdvancedUnix.Slots.Basic

/-!
# The breakpoint table as a map

What the table says to its user is which identifiers are in use and for which
addresses: a bounded table with stable identifiers. `break` puts an address into
it, `delete` removes an identifier and `list` prints the entries.

The commands follow the map as long as `break` finds a free slot. In a full table
its slot pointer is never set, and the breakpoint is written to wherever that
happens to point. The pass that follows a `break` touches only saved words.
-/

namespace Sdb

open Memory Traced Runs Slots

variable {K : Type} (H : Host K)

/-- The addresses of the slots in use. -/
def SDB.table (sdb : SDB) : Table maxBreak Addr := fun i =>
  if (sdb.breaks i).isUsed then some (sdb.breaks i).addr else none

theorem SDB.table_isNone (sdb : SDB) (i : Slot) :
    (sdb.table i).isNone = !(sdb.breaks i).isUsed := by
  unfold table
  cases (sdb.breaks i).isUsed <;> rfl

theorem freeSlot_eq (sdb : SDB) : freeSlot sdb = sdb.table.free := by
  simp only [freeSlot, Table.free, slots, SDB.table_isNone]

theorem SDB.SameTable.table {s t : SDB} (h : s.SameTable t) : t.table = s.table := by
  funext i
  simp only [SDB.table, h.isUsed, h.addr]

theorem table_setBreak (w : World K) (i : Slot) (bp : Bp) :
    (w.setBreak i bp).sdb.table =
      Function.update w.sdb.table i (if bp.isUsed then some bp.addr else none) := by
  funext j
  by_cases same : j = i
  · subst same
    simp [SDB.table]
  · simp [SDB.table, same]

theorem entries_eq (sdb : SDB) :
    sdb.table.entries = (slots.filter fun i => (sdb.breaks i).isUsed).map fun i =>
      (i, (sdb.breaks i).addr) := by
  unfold Table.entries
  change slots.filterMap _ = _
  induction slots with
  | nil => rfl
  | cons i is ih =>
      have entry : (sdb.table i).map (fun a => (i, a)) =
          if (sdb.breaks i).isUsed then some (i, (sdb.breaks i).addr) else none := by
        unfold SDB.table
        split <;> rfl
      cases used : (sdb.breaks i).isUsed <;> simp [entry, used, ih]

theorem pass_table (env : Env K) (w : World K) :
    (sdbPatchAllBp H env w).1.sdb.table = w.sdb.table :=
  ((passInvariant_sameTable w.sdb).sdbPatchAllBp (.refl _) fun _ _ => trivial).table

theorem pokeOrIgnore_table (w : World K) (a : Addr) (word : Word) :
    (w.pokeOrIgnore a word).sdb.table = w.sdb.table := by
  rw [World.pokeOrIgnore_sdb]

theorem deleteSlot_table (w : World K) (i : Slot) :
    (deleteSlot w i).sdb.table = w.sdb.table.remove i.val := by
  rw [Table.remove_eq_update]
  unfold deleteSlot
  simp only [table_setBreak]
  split
  · rw [pokeOrIgnore_table]
    rfl
  · rfl

theorem sdbDelete_table (index : Int) (w : World K) :
    (sdbDelete index w).world.sdb.table = w.sdb.table.remove index := by
  unfold sdbDelete
  by_cases bounds : 0 ≤ index ∧ index < maxBreak
  · rw [dif_pos bounds]
    have slot : ((index.toNat : Nat) : Int) = index := Int.toNat_of_nonneg bounds.1
    generalize hi : (⟨index.toNat, by omega⟩ : Slot) = i
    have same : (i.val : Int) = index := by
      subst hi
      exact slot
    rw [← same]
    by_cases used : (w.sdb.breaks i).isUsed
    · rw [if_pos used]
      exact deleteSlot_table w i
    · rw [if_neg used]
      refine (Table.remove_unused ?_).symm
      intro j hj
      obtain rfl : j = i := Fin.ext (Int.natCast_inj.mp hj)
      exact if_neg used
  · rw [dif_neg bounds]
    refine (Table.remove_unused ?_).symm
    intro j hj
    have := j.isLt
    exact absurd ⟨by omega, by omega⟩ bounds

/-- `break` with a free slot puts its address into the table. -/
theorem sdbSetBreak_table {env : Env K} {addrStr : List Char} {w : World K}
    (loaded : w.sdb.isLoaded) {i : Slot} (free : freeSlot w.sdb = some i) :
    (sdbSetBreak H env addrStr w).world.sdb.table =
      w.sdb.table.put ((hexOperand addrStr env.uninit.tail).getD env.uninit.addr) := by
  rw [Table.put_of_free (freeSlot_eq w.sdb ▸ free)]
  unfold sdbSetBreak
  simp only [loaded, not_true, if_false, free]
  generalize (hexOperand addrStr env.uninit.tail).getD env.uninit.addr = addr
  generalize slot : w.setBreak i _ = v
  have table : v.sdb.table = Function.update w.sdb.table i (some addr) := by
    rw [← slot, table_setBreak]
    rfl
  split
  · have pass := pass_table H env v
    split
    · rename_i u f h
      rw [h] at pass
      exact pass.trans table
    · rename_i u h
      rw [h] at pass
      exact pass.trans table
  · exact table

/-- In a full table `break` writes to wherever its slot pointer happens to point. -/
theorem sdbSetBreak_full {env : Env K} {addrStr : List Char} {w : World K}
    (loaded : w.sdb.isLoaded) (full : freeSlot w.sdb = none) :
    sdbSetBreak H env addrStr w = ⟨w, .fault .wildSlot⟩ := by
  simp [sdbSetBreak, loaded, full]

/-- With a free slot nothing is written to a wild slot. -/
theorem sdbSetBreak_tame {env : Env K} {addrStr : List Char} {w : World K}
    (loaded : w.sdb.isLoaded) {i : Slot} (free : freeSlot w.sdb = some i) :
    (sdbSetBreak H env addrStr w).ending ≠ .fault .wildSlot := by
  unfold sdbSetBreak
  simp only [loaded, not_true, if_false, free]
  split
  · split
    · rename_i f hpass
      obtain ⟨u, j, -, error⟩ := pass_fault hpass
      intro wild
      cases wild
      unfold slotAddr convertDynamicAddr at error
      split at error
      · cases error
      · split at error
        · split at error <;> cases error
        · cases error
    · exact fun wild => by cases wild
  · exact fun wild => by cases wild

/-- The commands that the table is about, with an address for `break`, and kills. -/
def OfTable : Event K → Prop
  | .command (.break addrStr) env => (hexOperand addrStr env.uninit.tail).isSome
  | .command (.delete _) _ | .command .list _ | .killed _ => True
  | _ => False

/-- What an event does to the map. -/
def Table.apply (t : Table maxBreak Addr) : Event K → Table maxBreak Addr
  | .command (.break addrStr) env =>
      t.put ((hexOperand addrStr env.uninit.tail).getD env.uninit.addr)
  | .command (.delete index) _ => t.remove index
  | _ => t

/-- A list prints the entries of the map. -/
def Listing (t : Table maxBreak Addr) (e : Event K) (r : Result K) : Prop :=
  ∀ env, e = .command .list env → r.ending = .prompt (.breaks t.entries)

def Result.atPrompt (r : Result K) : Bool :=
  match r.ending with
  | .prompt _ => true
  | _ => false

/-- An event that is executed does to the table what it does to the map, and any other
event leaves it alone. -/
structure Follows (r : Result K) (e : Event K) : Prop where
  table : (step H r e).world.sdb.table =
    if r.atPrompt then Table.apply r.world.sdb.table e else r.world.sdb.table
  tame : r.atPrompt → (step H r e).ending ≠ .fault .wildSlot
  listing : r.atPrompt → Listing r.world.sdb.table e (step H r e)

/-- A `break` that is executed finds a free slot. -/
def HasRoom (r : Result K) (e : Event K) : Prop :=
  r.atPrompt → ∀ addrStr env, e = .command (.break addrStr) env →
    (freeSlot r.world.sdb).isSome

/-- The events of a run that come while the debugger is at its prompt. -/
def executed : Result K → List (Event K) → List (Event K)
  | _, [] => []
  | r, e :: es => (if r.atPrompt then [e] else []) ++ executed (step H r e) es

section

variable {H} {r : Result K}

theorem atPrompt_iff : r.atPrompt ↔ ∃ out, r.ending = .prompt out := by
  unfold Result.atPrompt
  cases r.ending <;> simp

theorem step_of_prompt (prompt : r.atPrompt) (cmd : Cmd) (env : Env K) :
    step H r (.command cmd env) = cmd.exec H env r.world := by
  obtain ⟨out, h⟩ := atPrompt_iff.mp prompt
  simp only [step, h]

/-- Away from the prompt the table stays as it is. -/
theorem step_table_away (away : ¬ r.atPrompt) (e : Event K) :
    (step H r e).world.sdb.table = r.world.sdb.table := by
  have outcome := stepped H r e
  generalize step H r e = r' at outcome ⊢
  cases outcome with
  | ignored => rfl
  | command prompt => exact absurd (atPrompt_iff.mpr ⟨_, prompt⟩) away
  | killed => rw [World.kill_sdb]
  | killWaited =>
      unfold World.killWaited
      split <;> rfl

theorem step_kill (prompt : r.atPrompt) (pid : Pid) :
    step H r (.killed pid) = ⟨r.world.kill pid, r.ending⟩ := by
  obtain ⟨out, h⟩ := atPrompt_iff.mp prompt
  simp only [step, h]

theorem kill_follows (pid : Pid) : Follows H r (.killed pid) := by
  by_cases prompt : r.atPrompt
  · have same := step_kill (H := H) prompt pid
    refine ⟨?_, ?_, fun _ env h => by cases h⟩
    · rw [if_pos prompt, same, World.kill_sdb]
      rfl
    · intro _ wild
      obtain ⟨out, h⟩ := atPrompt_iff.mp prompt
      rw [same] at wild
      exact absurd (h.symm.trans wild) (fun h => by cases h)
  · refine ⟨?_, fun h => absurd h prompt, fun h => absurd h prompt⟩
    rw [if_neg prompt]
    exact step_table_away prompt _

theorem delete_follows (index : Int) (env : Env K) :
    Follows H r (.command (.delete index) env) := by
  by_cases prompt : r.atPrompt
  · have same := step_of_prompt (H := H) prompt (.delete index) env
    refine ⟨?_, ?_, fun _ env h => by cases h⟩
    · rw [if_pos prompt, same]
      exact sdbDelete_table index r.world
    · intro _ wild
      rw [same] at wild
      simp only [Cmd.exec, sdbDelete] at wild
      split at wild
      · split at wild <;> cases wild
      · cases wild
  · refine ⟨?_, fun h => absurd h prompt, fun h => absurd h prompt⟩
    rw [if_neg prompt]
    exact step_table_away prompt _

theorem list_follows (env : Env K) : Follows H r (.command .list env) := by
  by_cases prompt : r.atPrompt
  · have same := step_of_prompt (H := H) prompt .list env
    refine ⟨?_, ?_, ?_⟩
    · rw [if_pos prompt, same]
      rfl
    · intro _ wild
      rw [same] at wild
      cases wild
    · intro _ env' _
      rw [same, entries_eq]
      rfl
  · refine ⟨?_, fun h => absurd h prompt, fun h => absurd h prompt⟩
    rw [if_neg prompt]
    exact step_table_away prompt _

theorem break_follows_iff (loaded : r.world.sdb.isLoaded) (addrStr : List Char) (env : Env K) :
    Follows H r (.command (.break addrStr) env) ↔ HasRoom r (.command (.break addrStr) env) := by
  by_cases prompt : r.atPrompt
  · have same := step_of_prompt (H := H) prompt (.break addrStr) env
    have room : HasRoom r (.command (.break addrStr) env) ↔ (freeSlot r.world.sdb).isSome := by
      refine ⟨fun h => h prompt addrStr env rfl, ?_⟩
      intro h _ _ _ he
      exact h
    rw [room]
    cases free : freeSlot r.world.sdb with
    | none =>
        refine iff_of_false ?_ (by simp)
        intro h
        apply h.tame prompt
        rw [same, Cmd.exec, sdbSetBreak_full H loaded free]
    | some i =>
        refine iff_of_true ⟨?_, ?_, fun _ env h => by cases h⟩ rfl
        · rw [if_pos prompt, same]
          exact sdbSetBreak_table H loaded free
        · intro _
          rw [same]
          exact sdbSetBreak_tame H loaded free
  · refine iff_of_true ⟨?_, fun h => absurd h prompt, fun h => absurd h prompt⟩
      fun h => absurd h prompt
    rw [if_neg prompt]
    exact step_table_away prompt _

/-- An event of the table follows the map exactly when it has room. -/
theorem follows_iff (loaded : r.world.sdb.isLoaded) {e : Event K} (ofTable : OfTable e) :
    Follows H r e ↔ HasRoom r e := by
  cases e with
  | killed pid => exact iff_of_true (kill_follows pid) fun _ _ _ h => by cases h
  | command cmd env =>
      cases cmd with
      | «break» addrStr => exact break_follows_iff loaded addrStr env
      | delete index => exact iff_of_true (delete_follows index env) fun _ _ _ h => by cases h
      | list => exact iff_of_true (list_follows env) fun _ _ _ h => by cases h
      | _ => exact ofTable.elim

theorem step_loaded (loaded : r.world.sdb.isLoaded) {e : Event K} (ofTable : OfTable e) :
    (step H r e).world.sdb.isLoaded := by
  have outcome := stepped H r e
  generalize step H r e = r' at outcome ⊢
  cases outcome with
  | ignored => exact loaded
  | @command cmd env out prompt =>
      have noLoad : ∀ filename, cmd ≠ .load filename := by
        rintro filename rfl
        exact ofTable
      have same : r.world.sdb.SameProgram (cmd.exec H env r.world).world.sdb :=
        sameProgram_exec noLoad
      rwa [SDB.isLoaded, same.path]
  | killed => rwa [World.kill_sdb]
  | killWaited => rwa [SDB.isLoaded, (killWaited_sameProgram r.world).path]

/-- Where every event follows the map, the table is the map after the executed ones. -/
theorem table_of_follows {events : List (Event K)}
    (follows : AllSteps (step H) (Follows H) r events) :
    (session H r events).world.sdb.table =
      (executed H r events).foldl Table.apply r.world.sdb.table := by
  induction events generalizing r with
  | nil => rfl
  | cons e es ih =>
      have rest := ih follows.2
      rw [follows.1.table] at rest
      rw [session, run_cons, rest, executed]
      by_cases prompt : r.atPrompt <;> simp [prompt]

end

/-- On a loaded program the table follows the map in a whole session of breaks, deletes
and lists exactly when each `break` finds a free slot, and then it is the map. -/
theorem session_table_iff {r : Result K} (loaded : r.world.sdb.isLoaded) {events : List (Event K)}
    (ofTable : ∀ e ∈ events, OfTable e) :
    (AllSteps (step H) (Follows H) r events ↔ AllSteps (step H) HasRoom r events) ∧
      (AllSteps (step H) HasRoom r events → (session H r events).world.sdb.table =
        (executed H r events).foldl Table.apply r.world.sdb.table) := by
  have same : AllSteps (step H) (Follows H) r events ↔ AllSteps (step H) HasRoom r events := by
    apply allSteps_congr_of_invariant (Q := OfTable) fun r => r.world.sdb.isLoaded
    · intro r e loaded ofTable
      exact step_loaded loaded ofTable
    · intro r e loaded ofTable
      exact follows_iff loaded ofTable
    · exact loaded
    · exact ofTable
  exact ⟨same, fun room => table_of_follows (same.mpr room)⟩

namespace Fragment

/-- A breakpoint at the entry, with nothing running. -/
def breakEntry : Event Maps := cmd nops 0 (.break "400000".toList)

/-- Two breakpoints, the first is deleted, its slot is used again, and a list. -/
def reuse : List (Event Maps) :=
  [breakEntry, breakEntry, cmd nops 0 (.delete 0), breakEntry, cmd nops 0 .list]

theorem reuse_table :
    (AllSteps (step host) (Follows host) loaded reuse ↔
        AllSteps (step host) HasRoom loaded reuse) ∧
      (AllSteps (step host) HasRoom loaded reuse →
        (session host loaded reuse).world.sdb.table =
          (executed host loaded reuse).foldl Table.apply loaded.world.sdb.table) := by
  apply session_table_iff host rfl
  intro e he
  simp only [reuse, List.mem_cons, List.not_mem_nil, or_false] at he
  obtain rfl | rfl | rfl | rfl | rfl := he <;> first | rfl | trivial

/-- Ten breakpoints. -/
def ten : Result Maps := session host loaded (List.replicate 10 breakEntry)

theorem ten_full : freeSlot ten.world.sdb = none := by
  decide

theorem eleven_breaks_wild :
    ¬ AllSteps (step host) (Follows host) loaded (List.replicate 11 breakEntry) := by
  intro follows
  have split : List.replicate 11 breakEntry = List.replicate 10 breakEntry ++ [breakEntry] := rfl
  rw [split, allSteps_append] at follows
  have last : Follows host ten breakEntry := follows.2.1
  have prompt : ten.atPrompt := by decide
  apply last.tame prompt
  rw [breakEntry, cmd, step_of_prompt prompt, Cmd.exec,
    sdbSetBreak_full host (by decide) ten_full]

end Fragment

end Sdb
