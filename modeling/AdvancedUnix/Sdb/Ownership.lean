import AdvancedUnix.Elf.Ownership
import AdvancedUnix.Sdb.Loaded

/-!
# The files of a session

Only `load` opens files that stay open. It closes the handle before it opens another one,
so at most one handle is there at a time, and what it holds is released by the next `load`.
Resources carry the number of the handle that they belong to.

What is lost with a handle stays lost: every array of symbols that was allocated for it, and
the blocks of the string table at which loading it gave up.
-/

namespace Sdb

open Memory Traced Resources Elf

variable {K : Type}

/-- The moves of `sdb_load`: the handle that is there is closed and another one opened. -/
def sdbLoadMoves (env : Env K) (refusal : Refusal) (filename : List Char) (s : SDB) :
    List (Move (Nat × Resource)) :=
  ((s.eh.elim [] elfCloseMoves).map (Move.map (Prod.mk s.opened))) ++
    (elfOpenMoves env.elf refusal filename ++
      match elfOpen env.elf filename with
      | .ok (some eh) => elfLoadAllMoves env.elf eh
      | _ => []).map (Move.map (Prod.mk (s.opened + 1)))

/-- The blocks that `sdb_load` loses. -/
def sdbLoadLost (env : Env K) (filename : List Char) (s : SDB) : Set (Nat × Resource) :=
  match elfOpen env.elf filename with
  | .ok (some eh) => Prod.mk (s.opened + 1) '' elfLoadAllLost env.elf eh
  | _ => ∅

/-- The moves of an event, for the call that opening a file fails at. -/
def Event.moves (r : Result K) (refusal : Refusal) : Event K → List (Move (Nat × Resource))
  | .command (.load filename) env =>
    match r.ending with
    | .prompt _ => sdbLoadMoves env refusal filename r.world.sdb
    | _ => []
  | _ => []

def Event.lost (r : Result K) : Event K → Set (Nat × Resource)
  | .command (.load filename) env =>
    match r.ending with
    | .prompt _ => sdbLoadLost env filename r.world.sdb
    | _ => ∅
  | _ => ∅

/-- A session with the moves that are made in it and the blocks that are lost. -/
structure Books (K : Type) where
  result : Result K
  moves : List (Move (Nat × Resource))
  lost : Set (Nat × Resource)

def Books.step (H : Host K) (b : Books K) (e : Event K × Refusal) : Books K where
  result := Sdb.step H b.result e.1
  moves := b.moves ++ e.1.moves b.result e.2
  lost := b.lost ∪ e.1.lost b.result

/-- The books of a session from the start of the debugger on. -/
def books (H : Host K) (fresh : Slot → Bp) (events : List (Event K × Refusal)) : Books K :=
  Runs.run (Books.step H) ⟨created fresh, [], ∅⟩ events

/-- What the handle of the debugger holds. -/
def SDB.files (s : SDB) : Set (Nat × Resource) := Prod.mk s.opened '' ownedBy s.eh

/-- The books are balanced: what was acquired and not released belongs to the handle, or it is
lost and one of the two kinds of blocks that nobody releases. -/
structure Books.Balanced (b : Books K) : Prop where
  takes : Takes ∅ b.moves (b.result.world.sdb.files ∪ b.lost)
  kinds : ∀ x ∈ b.lost, x.2.IsArray ∨ x.2.IsStrtab
  /-- the numbers of the handles so far -/
  numbers : ∀ x ∈ b.lost, x.1 ≤ b.result.world.sdb.opened
  /-- what is lost is not in the tables of the handle -/
  apart : ∀ x ∈ b.lost, x ∉ b.result.world.sdb.files
  /-- each string table of the handle has an index of its own -/
  different : ∀ eh, b.result.world.sdb.eh = some eh → (eh.strtab.map Strtab.id).Nodup

variable {H : Host K} {env : Env K} {w : World K} {b : Books K}

/-- A load that returns has opened no file, or one that its handle stands for. -/
theorem sdbLoad_handle {filename : List Char}
    (noFault : ∀ f, (sdbLoad env filename w).ending ≠ .fault f) :
    elfOpen env.elf filename = .ok none ∧
        (sdbLoad env filename w).world.sdb.eh = none ∧
          (sdbLoad env filename w).world.sdb.opened = w.sdb.opened ∨
      ∃ e e' ok, elfOpen env.elf filename = .ok (some e) ∧ elfLoadAll env.elf e = .ok (e', ok) ∧
        (sdbLoad env filename w).world.sdb.eh = some e' ∧
          (sdbLoad env filename w).world.sdb.opened = w.sdb.opened + 1 := by
  unfold sdbLoad at noFault ⊢
  split at noFault
  · exact absurd rfl (noFault _)
  · rename_i closed
    exact .inl ⟨closed, rfl, rfl⟩
  · rename_i e opened
    split at noFault
    · exact absurd rfl (noFault _)
    · rename_i e' ok loaded
      refine .inr ⟨e, e', ok, opened, loaded, ?_⟩
      split
      · exact ⟨rfl, rfl⟩
      split
      · exact ⟨rfl, rfl⟩
      simp only
      split
      · exact ⟨rfl, rfl⟩
      split <;> exact ⟨rfl, rfl⟩

/-- The handle that is there is closed. -/
theorem Books.Balanced.close (h : b.Balanced) :
    Takes (b.result.world.sdb.files ∪ b.lost)
      ((b.result.world.sdb.eh.elim [] elfCloseMoves).map
        (Move.map (Prod.mk b.result.world.sdb.opened))) b.lost := by
  cases handle : b.result.world.sdb.eh with
  | none =>
      have files : b.result.world.sdb.files = ∅ := by
        rw [SDB.files, handle, ownedBy, Option.elim_none, Set.image_empty]
      rw [files, Set.empty_union]
      exact .nil _
  | some e =>
      set n := b.result.world.sdb.opened with number
      have files : b.result.world.sdb.files = Prod.mk n '' e.owned := by
        rw [SDB.files, handle]
        rfl
      have apart : ∀ x, e.Owns x → x ∉ {x | (n, x) ∈ b.lost} := by
        intro x owns lost
        refine h.apart _ lost ?_
        rw [files]
        exact ⟨x, owns, rfl⟩
      have plain := elfClose_takes (l := {x | (n, x) ∈ b.lost}) (h.different e handle) apart
      have framed := plain.frame (Prod.mk_right_injective n) (r := {x | x ∈ b.lost ∧ x.1 ≠ n})
        fun _ other => other.2 rfl
      have joined : {x | x ∈ b.lost ∧ x.1 ≠ n} ∪ Prod.mk n '' {x | (n, x) ∈ b.lost} = b.lost := by
        ext ⟨m, x⟩
        by_cases same : m = n
        · subst same
          simp
        · simp [same, Ne.symm same]
      rw [Set.image_union, Set.union_left_comm, joined] at framed
      rwa [files]

/-- A handle is opened under a new number and its tables are loaded, or neither. -/
theorem sdbLoad_takes {filename : List Char} (refusal : Refusal)
    (noFault : ∀ f, (sdbLoad env filename w).ending ≠ .fault f) {r : Set (Nat × Resource)}
    (new : ∀ x, (w.sdb.opened + 1, x) ∉ r) :
    Takes r ((elfOpenMoves env.elf refusal filename ++
        match elfOpen env.elf filename with
        | .ok (some eh) => elfLoadAllMoves env.elf eh
        | _ => []).map (Move.map (Prod.mk (w.sdb.opened + 1))))
      ((sdbLoad env filename w).world.sdb.files ∪ (r ∪ sdbLoadLost env filename w.sdb)) := by
  unfold SDB.files sdbLoadLost
  obtain ⟨closed, eh, number⟩ | ⟨e, e', ok, opened, loaded, eh, number⟩ := sdbLoad_handle noFault
  · have plain := elfOpen_takes refusal closed
    have framed := plain.frame (Prod.mk_right_injective (w.sdb.opened + 1)) new
    simp only [closed, eh, ownedBy, Option.elim_none, Set.image_empty, Set.union_empty,
      Set.empty_union, List.append_nil] at framed ⊢
    exact framed
  · have fresh := elfOpen_fresh opened
    have plain := (elfOpen_takes refusal opened).append (elfLoadAll_takes fresh loaded).1
    have framed := plain.frame (Prod.mk_right_injective (w.sdb.opened + 1)) new
    simp only [opened, eh, number, ownedBy, Option.elim_some, Set.image_empty, Set.union_empty,
      Set.image_union] at framed ⊢
    rwa [Set.union_left_comm]

/-- Where the handle is not touched the books stay as they are. -/
theorem Books.Balanced.same {c : Books K} (h : b.Balanced)
    (eh : c.result.world.sdb.eh = b.result.world.sdb.eh)
    (opened : c.result.world.sdb.opened = b.result.world.sdb.opened)
    (moves : c.moves = b.moves) (lost : c.lost = b.lost) : c.Balanced := by
  have files : c.result.world.sdb.files = b.result.world.sdb.files := by
    rw [SDB.files, SDB.files, eh, opened]
  refine ⟨?_, ?_, ?_, ?_, ?_⟩
  · rw [moves, files, lost]
    exact h.takes
  · rw [lost]
    exact h.kinds
  · rw [lost, opened]
    exact h.numbers
  · rw [lost, files]
    exact h.apart
  · rw [eh]
    exact h.different

/-- The books are balanced, unless the debugger has crashed. -/
def Books.Sound (b : Books K) : Prop := (∀ f, b.result.ending ≠ .fault f) → b.Balanced

/-- An event that is no load at the prompt changes nothing. -/
theorem Books.Sound.idle (h : b.Sound) {e : Event K} (refusal : Refusal)
    (moves : e.moves b.result refusal = []) (lost : e.lost b.result = ∅)
    (before : (∀ f, (Sdb.step H b.result e).ending ≠ .fault f) → ∀ f, b.result.ending ≠ .fault f)
    (same : b.result.world.sdb.SameProgram (Sdb.step H b.result e).world.sdb) :
    (b.step H (e, refusal)).Sound := by
  intro noFault
  refine (h (before noFault)).same same.eh same.opened ?_ ?_
  · show b.moves ++ e.moves b.result refusal = b.moves
    rw [moves, List.append_nil]
  · show b.lost ∪ e.lost b.result = b.lost
    rw [lost, Set.union_empty]

/-- A load that returns keeps the books balanced. -/
theorem Books.Balanced.load (h : b.Balanced) {filename : List Char} {out : Output}
    (prompt : b.result.ending = .prompt out) (refusal : Refusal)
    (noFault : ∀ f, (sdbLoad env filename b.result.world).ending ≠ .fault f) :
    (b.step H (.command (.load filename) env, refusal)).Balanced := by
  have result : Sdb.step H b.result (.command (.load filename) env) =
      sdbLoad env filename b.result.world := by
    simp only [Sdb.step, prompt, Cmd.exec]
  have moves : (Event.command (.load filename) env).moves b.result refusal =
      sdbLoadMoves env refusal filename b.result.world.sdb := by
    simp only [Event.moves, prompt]
  have lost : (Event.command (.load filename) env).lost b.result =
      sdbLoadLost env filename b.result.world.sdb := by
    simp only [Event.lost, prompt]
  have new : ∀ x, (b.result.world.sdb.opened + 1, x) ∉ b.lost := by
    intro x mem
    exact absurd (h.numbers _ mem) (Nat.not_succ_le_self _)
  have takes := h.takes.append (h.close.append (sdbLoad_takes refusal noFault new))
  unfold Books.step
  rw [result, moves, lost]
  obtain ⟨closed, eh, number⟩ | ⟨e, e', ok, opened, loaded, eh, number⟩ := sdbLoad_handle noFault
  · have nothing : sdbLoadLost env filename b.result.world.sdb = ∅ := by
      simp only [sdbLoadLost, closed]
    have files : (sdbLoad env filename b.result.world).world.sdb.files = ∅ := by
      rw [SDB.files, eh, ownedBy, Option.elim_none, Set.image_empty]
    rw [nothing, Set.union_empty] at takes ⊢
    refine ⟨takes, h.kinds, ?_, ?_, ?_⟩
    · rw [number]
      exact h.numbers
    · rw [files]
      exact fun x _ mem => mem
    · rw [eh]
      intro handle none
      cases none
  · have fresh := elfOpen_fresh opened
    have lost' : sdbLoadLost env filename b.result.world.sdb =
        Prod.mk (b.result.world.sdb.opened + 1) '' elfLoadAllLost env.elf e := by
      simp only [sdbLoadLost, opened]
    have files : (sdbLoad env filename b.result.world).world.sdb.files =
        Prod.mk (b.result.world.sdb.opened + 1) '' e'.owned := by
      rw [SDB.files, eh, number]
      rfl
    refine ⟨takes, ?_, ?_, ?_, ?_⟩
    · rw [lost']
      rintro x (old | ⟨y, mem, rfl⟩)
      · exact h.kinds x old
      · exact elfLoadAllLost_kinds y mem
    · rw [lost', number]
      rintro x (old | ⟨y, -, rfl⟩)
      · exact (h.numbers x old).trans (Nat.le_succ _)
      · exact le_rfl
    · rw [lost', files]
      rintro x (old | ⟨y, mem, rfl⟩) ⟨z, owns, same⟩
      · rw [← same] at old
        exact new z old
      · obtain rfl := (Prod.mk.inj same).2
        exact elfLoadAllLost_apart fresh.strtab loaded z mem owns
    · intro other here
      obtain rfl := Option.some.inj (eh.symm.trans here)
      exact (elfLoadAll_takes fresh loaded).2

theorem step_sound (h : b.Sound) (e : Event K × Refusal) : (b.step H e).Sound := by
  obtain ⟨event, refusal⟩ := e
  have outcome := stepped H b.result event
  cases event with
  | killed pid =>
      refine h.idle refusal rfl rfl ?_ ?_ <;> generalize Sdb.step H b.result _ = r' at outcome ⊢
      · intro after
        cases outcome with
        | ignored => exact after
        | killed noFault => exact noFault
        | killWaited noFault => exact noFault
      · cases outcome with
        | ignored => exact .refl _
        | killed =>
            rw [World.kill_sdb]
            exact .refl _
        | killWaited => exact killWaited_sameProgram b.result.world
  | command cmd env =>
      by_cases prompt : ∃ out, b.result.ending = .prompt out
      · obtain ⟨out, prompt⟩ := prompt
        have result : Sdb.step H b.result (.command cmd env) = cmd.exec H env b.result.world := by
          simp only [Sdb.step, prompt]
        have before : ∀ f, b.result.ending ≠ .fault f := by
          intro f fault
          rw [prompt] at fault
          cases fault
        by_cases load : ∃ filename, cmd = .load filename
        · obtain ⟨filename, rfl⟩ := load
          intro noFault
          refine (h before).load prompt refusal ?_
          rwa [Books.step, result] at noFault
        · have other : ∀ filename, cmd ≠ .load filename := fun name same => load ⟨name, same⟩
          refine h.idle refusal ?_ ?_ (fun _ => before) ?_
          · cases cmd with
            | load filename => exact absurd rfl (other filename)
            | _ => rfl
          · cases cmd with
            | load filename => exact absurd rfl (other filename)
            | _ => rfl
          · rw [result]
            exact sameProgram_exec other
      · have result : Sdb.step H b.result (.command cmd env) = b.result := by
          cases ending : b.result.ending with
          | prompt out => exact absurd ⟨out, ending⟩ prompt
          | _ => simp only [Sdb.step, ending]
        refine h.idle refusal ?_ ?_ (by rw [result]; exact id) (by rw [result]; exact .refl _)
        · unfold Event.moves
          split
          · split
            · rename_i out here
              exact absurd ⟨out, here⟩ prompt
            · rfl
          · rfl
        · unfold Event.lost
          split
          · split
            · rename_i out here
              exact absurd ⟨out, here⟩ prompt
            · rfl
          · rfl

theorem books_result (H : Host K) (fresh : Slot → Bp) (events : List (Event K × Refusal)) :
    (books H fresh events).result = session H (created fresh) (events.map Prod.fst) := by
  have all : ∀ b : Books K, (Runs.run (Books.step H) b events).result =
      Runs.run (step H) b.result (events.map Prod.fst) := by
    induction events with
    | nil => exact fun b => rfl
    | cons e events ih => exact fun b => ih (b.step H e)
  exact all _

/-- A file is open where there is a handle, and for this handle only. -/
theorem descriptor_mem_iff {s : SDB} {lost : Set (Nat × Resource)}
    (kinds : ∀ x ∈ lost, x.2.IsArray ∨ x.2.IsStrtab) (n : Nat) :
    (n, .descriptor) ∈ s.files ∪ lost ↔ s.eh ≠ none ∧ n = s.opened := by
  have other : (n, Resource.descriptor) ∉ lost := by
    intro mem
    obtain ⟨type, same⟩ | ⟨i, same | same⟩ := kinds _ mem <;> cases same
  rw [Set.mem_union, or_iff_left other, SDB.files, ownedBy]
  cases s.eh with
  | none => simp
  | some e =>
      constructor
      · rintro ⟨x, -, same⟩
        exact ⟨Option.some_ne_none e, (Prod.mk.inj same).1.symm⟩
      · rintro ⟨-, rfl⟩
        exact ⟨.descriptor, trivial, rfl⟩

/-- In every session nothing is released twice or without being held. What is held at a prompt
is what the handle of the debugger owns, under the number of this handle, and what was lost:
arrays of symbols, and blocks of string tables that could not be loaded. So at most one file is
open, that of the handle. -/
theorem session_owned (H : Host K) (fresh : Slot → Bp) (events : List (Event K × Refusal))
    (noFault : ∀ f, (session H (created fresh) (events.map Prod.fst)).ending ≠ .fault f) {s : SDB}
    (now : (session H (created fresh) (events.map Prod.fst)).world.sdb = s) :
    Takes ∅ (books H fresh events).moves (s.files ∪ (books H fresh events).lost) ∧
      (∀ x ∈ (books H fresh events).lost, x.2.IsArray ∨ x.2.IsStrtab) ∧
      ∀ n, (n, .descriptor) ∈ s.files ∪ (books H fresh events).lost ↔
        s.eh ≠ none ∧ n = s.opened := by
  have start : (⟨created fresh, [], ∅⟩ : Books K).Sound := by
    intro _
    have none : ∀ x, x ∉ (∅ : Set (Nat × Resource)) := Set.notMem_empty
    refine ⟨?_, fun x mem => absurd mem (none x), fun x mem => absurd mem (none x),
      fun x mem => absurd mem (none x), fun eh here => by cases here⟩
    have files : (created fresh : Result K).world.sdb.files = ∅ := Set.image_empty _
    rw [files, Set.empty_union]
    exact .nil ∅
  have balanced : (books H fresh events).Sound :=
    Runs.always Books.Sound (fun b e h => step_sound h e) events start
  rw [← books_result] at noFault now
  obtain ⟨takes, kinds, -, -, -⟩ := balanced noFault
  rw [now] at takes
  exact ⟨takes, kinds, descriptor_mem_iff kinds⟩

namespace Fragment

/-- A file that is not there, an executable and another one. -/
def threeLoads : List (Event Maps × Refusal) :=
  ([.load "/bin/none".toList, .load "/bin/prog".toList, .load "/bin/pie".toList].map
    (cmd nops 64)).map fun e => (e, .open)

def unset : Slot → Bp := fun _ => ⟨false, 0, 0⟩

/-- What the session leaves. -/
def afterLoads : SDB := (session host (created unset) (threeLoads.map Prod.fst)).world.sdb

theorem threeLoads_owned :
    Takes ∅ (books host unset threeLoads).moves
        (afterLoads.files ∪ (books host unset threeLoads).lost) ∧
      (∀ x ∈ (books host unset threeLoads).lost, x.2.IsArray ∨ x.2.IsStrtab) ∧
      ∀ n, (n, .descriptor) ∈ afterLoads.files ∪ (books host unset threeLoads).lost ↔
        afterLoads.eh ≠ none ∧ n = afterLoads.opened :=
  session_owned host unset threeLoads (fun f fault => by cases fault) rfl

end Fragment

end Sdb
