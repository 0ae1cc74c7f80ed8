import AdvancedUnix.Sdb.Course
import AdvancedUnix.Sdb.Fragment
import AdvancedUnix.Traced.Own

/-!
# What a pass leaves behind

After `sdb_patch_all_bp` a trap should stand at each used slot whose word is mapped, the
slot should have saved the program's own byte, and nothing else should have changed.
`PassPost` says so.

The course of the pass says which instructions it executes, and what is planted before them and
after the last one. `Plantable` is the exact condition on that: the slots behind a word that
cannot be read already have their trap, and what a slot saves or has saved is the program's own
byte.
-/

namespace Sdb

open Memory Traced

section Passes

variable {K : Type} (H : Host K) (env : Env K)

/-- The slots of a table have their traps in the memory of `q` and have saved the program's
own bytes, and nothing else differs from a memory that is `plain`. -/
structure TrapsSet (s : SDB) (words : Slot → Word) (q : Proc K) (plain : Mem) : Prop where
  trapped : ∀ i, (s.breaks i).isUsed → Mapped q.cpu.mem (s.slotAt H q.cpu.ext i) →
    q.cpu.mem (s.slotAt H q.cpu.ext i) = some trapByte
  saved : ∀ i, (s.breaks i).isUsed → Mapped q.cpu.mem (s.slotAt H q.cpu.ext i) →
    some (byteOf (words i) 0) = q.own H.toPlatform (s.slotAt H q.cpu.ext i)
  others : ∀ x, (∀ i, (s.breaks i).isUsed → s.slotAt H q.cpu.ext i ≠ x) →
    q.cpu.mem x = plain x

/-- The pass returns, and if there still is a tracee, which was `p` before, the traps are
set in a memory where else only the stepped instructions have stored. -/
structure PassPost (w : World K) (p : Proc K) : Prop where
  returns : (sdbPatchAllBp H env w).2 = none
  left : ∀ q, (sdbPatchAllBp H env w).1.tracee = some q →
    TrapsSet H w.sdb (sdbPatchAllBp H env w).1.sdb.words q
      (H.carryAll (passSteps H env w) p.cpu.mem)

/-- What planting at these addresses needs, in a memory that would be `plain` without the
traps that the pass has put there. -/
structure Plantable (s : SDB) (words : Slot → Word) (q : Proc K) (vs : List (Slot × Addr))
    (plain : Mem) : Prop where
  trapped : ∀ i, (s.breaks i).isUsed → Mapped q.cpu.mem (s.slotAt H q.cpu.ext i) →
    PlantsAt q.cpu.mem (s.slotAt H q.cpu.ext i) vs ∨
      q.cpu.mem (s.slotAt H q.cpu.ext i) = some trapByte
  read : ∀ i, (s.breaks i).isUsed → Mapped q.cpu.mem (s.slotAt H q.cpu.ext i) →
    ∀ a, SavesAt trapByte q.cpu.mem i a vs →
      (if Mapped q.cpu.mem a then q.cpu.mem a else some (byteOf (-1) 0)) =
        q.own H.toPlatform (s.slotAt H q.cpu.ext i)
  kept : ∀ i, (s.breaks i).isUsed → Mapped q.cpu.mem (s.slotAt H q.cpu.ext i) →
    (∀ a, ¬ SavesAt trapByte q.cpu.mem i a vs) →
      some (byteOf (words i) 0) = q.own H.toPlatform (s.slotAt H q.cpu.ext i)
  others : ∀ x, (∀ i, (s.breaks i).isUsed → s.slotAt H q.cpu.ext i ≠ x) →
    (if PlantsAt q.cpu.mem x vs then some trapByte else q.cpu.mem x) = plain x

variable {env}

/-- Planting sets the traps exactly when the addresses are plantable. -/
theorem trapsSet_iff {s : SDB} {words : Slot → Word} {q : Proc K} {vs : List (Slot × Addr)}
    {plain : Mem} (nodup : (vs.map Prod.fst).Nodup) :
    TrapsSet H s (planted words q vs).words (q.setMem (planted words q vs).mem) plain ↔
      Plantable H s words q vs plain := by
  have mem : ∀ x, (planted words q vs).mem x =
      if PlantsAt q.cpu.mem x vs then some trapByte else q.cpu.mem x := plant_mem _ vs
  have mapped : ∀ c, Mapped (planted words q vs).mem c ↔ Mapped q.cpu.mem c :=
    fun c => planted_mapped words q vs c
  have fresh : ∀ i a, SavesAt trapByte q.cpu.mem i a vs →
      some (byteOf ((planted words q vs).words i) 0) =
        if Mapped q.cpu.mem a then q.cpu.mem a else some (byteOf (-1) 0) :=
    fun i a saves => plant_words_of_savesAt ⟨words, q.cpu.mem⟩ nodup saves
  have stale : ∀ i, (∀ a, ¬ SavesAt trapByte q.cpu.mem i a vs) →
      (planted words q vs).words i = words i :=
    fun i none => plant_words_of_not_savesAt ⟨words, q.cpu.mem⟩ none
  constructor
  · rintro ⟨trapped, saved, others⟩
    simp only [Proc.setMem_mem, Proc.setMem_ext, mapped,
      Proc.own_setMem] at trapped saved others
    refine ⟨fun i used there => ?_, fun i used there a saves => ?_, fun i used there none => ?_,
      fun x away => ?_⟩
    · have trap := trapped i used there
      rw [mem] at trap
      by_cases plants : PlantsAt q.cpu.mem (s.slotAt H q.cpu.ext i) vs
      · exact .inl plants
      · rw [if_neg plants] at trap
        exact .inr trap
    · rw [← fresh i a saves]
      exact saved i used there
    · rw [← stale i none]
      exact saved i used there
    · rw [← mem]
      exact others x away
  · rintro ⟨trapped, read, kept, others⟩
    refine ⟨?_, ?_, ?_⟩ <;> simp only [Proc.setMem_mem,
      Proc.setMem_ext, mapped, Proc.own_setMem]
    · intro i used there
      rw [mem]
      by_cases plants : PlantsAt q.cpu.mem (s.slotAt H q.cpu.ext i) vs
      · rw [if_pos plants]
      · rw [if_neg plants]
        exact (trapped i used there).resolve_left plants
    · intro i used there
      by_cases saves : ∃ a, SavesAt trapByte q.cpu.mem i a vs
      · obtain ⟨a, saves⟩ := saves
        rw [fresh i a saves]
        exact read i used there a saves
      · have none := fun a h => saves ⟨a, h⟩
        rw [stale i none]
        exact kept i used there none
    · intro x away
      rw [mem]
      exact others x away

/-- A pass fulfils its postcondition exactly when it has a handle, should it need one, and
the slots that are left after the last instruction of its course are plantable. -/
theorem pass_post_iff {w : World K} {p : Proc K} (hp : w.tracee = some p) :
    PassPost H env w p ↔ (w.sdb.eh ≠ none ∨ ∀ i, (w.sdb.breaks i).isUsed = false) ∧
      ∀ q, (w.sdb.course H p).tracee = some q →
        Plantable H w.sdb (w.sdb.course H p).words q (w.sdb.course H p).visits
          (H.carryAll (w.sdb.course H p).steps p.cpu.mem) := by
  by_cases handle : w.sdb.eh ≠ none ∨ ∀ i, (w.sdb.breaks i).isUsed = false
  · rw [and_iff_right handle]
    have pass : FollowsCourse H (w.sdb.course H p) (passSteps H env w) (sdbPatchAllBp H env w) :=
      pass_follows hp handle
    have nodup := w.sdb.course_nodup H p
    rw [← pass.steps]
    constructor
    · intro post q hq
      obtain ⟨tracee, words⟩ := pass.alive q hq
      have set := post.left _ tracee
      rw [words] at set
      exact (trapsSet_iff H nodup).mp set
    · intro plantable
      refine ⟨pass.returns, fun r hr => ?_⟩
      cases hq : (w.sdb.course H p).tracee with
      | none =>
          rw [World.tracee_of_not_live (pass.dead hq)] at hr
          cases hr
      | some q =>
          obtain ⟨tracee, words⟩ := pass.alive q hq
          rw [tracee] at hr
          cases hr
          rw [words]
          exact (trapsSet_iff H nodup).mpr (plantable q hq)
  · refine iff_of_false (fun post => ?_) fun h => handle h.1
    have heh : w.sdb.eh = none := by
      by_contra some
      exact handle (.inl some)
    have used : ∃ i ∈ slots, (w.sdb.breaks i).isUsed := by
      by_contra none
      refine handle (.inr fun i => ?_)
      by_contra here
      exact none ⟨i, mem_slots i, by simpa using here⟩
    have fault : (patchFrom H env slots w).2 = some .nullHandle := patchFrom_noHandle heh used
    have returns : (patchFrom H env slots w).2 = none := post.returns
    rw [fault] at returns
    cases returns

end Passes

namespace Fragment

/-- The surroundings of a pass over the program of `nop`s. -/
def nopsEnv : Env Maps := env ⟨7, seven_pos⟩ nops 64

def slot0 : Slot := ⟨0, by decide⟩

def slot1 : Slot := ⟨1, by decide⟩

/-- The program stands at its first `nop`, and a breakpoint is at the second one. -/
def oneSet : World Maps :=
  (session host fresh ([.load "/bin/prog".toList, .start].map (cmd nops 64))).world.setBreak slot0
    ⟨true, 0x400001, 0⟩

theorem oneSet_used {i : Slot} (used : (oneSet.sdb.breaks i).isUsed) : i = slot0 := by
  have only : ∀ i : Slot, (oneSet.sdb.breaks i).isUsed → i = slot0 := by decide
  exact only i used

theorem oneSet_post : PassPost host nopsEnv oneSet nops.load := by
  have tracee : oneSet.tracee = some nops.load := rfl
  refine (pass_post_iff host tracee).mpr ⟨.inl (Option.some_ne_none _), fun q hq => ?_⟩
  have course : oneSet.sdb.course host nops.load =
      ⟨[], oneSet.sdb.words, some nops.load, [(slot0, 0x400001)]⟩ := rfl
  rw [course] at hq ⊢
  obtain rfl : nops.load = q := Option.some.inj hq
  refine ⟨fun i used there => ?_, fun i used there a saves => ?_, fun i used there none => ?_,
    fun x away => ?_⟩
  · obtain rfl := oneSet_used used
    exact .inl (by decide)
  · obtain rfl := oneSet_used used
    rcases saves with ⟨same, -⟩ | ⟨-, -, more⟩
    · cases same
      exact if_pos there
    · exact more.elim
  · obtain rfl := oneSet_used used
    exact absurd (.inl ⟨rfl, by decide⟩) (none 0x400001)
  · rw [if_neg]
    · rfl
    · rintro ⟨-, rfl | more⟩
      · exact away slot0 rfl rfl
      · exact more

/-- A breakpoint at an address where nothing is mapped was set before one at a `nop`. -/
def blocked : World Maps :=
  (session host fresh ([.load "/bin/prog".toList, .start, .break "0x10".toList].map
    (cmd nops 64))).world.setBreak slot1 ⟨true, 0x400001, 0⟩

/-- That is how `break` hands the table to the pass. -/
theorem blocked_passStart : (Cmd.break "0x400001".toList).passStart nopsEnv
    (session host fresh ([.load "/bin/prog".toList, .start, .break "0x10".toList].map
      (cmd nops 64))).world = some blocked := rfl

/-- The slot that cannot be patched keeps the other one from being patched. -/
theorem blocked_notPost : ¬ PassPost host nopsEnv blocked nops.load := by
  intro post
  have trap := (post.left nops.load rfl).trapped slot1 rfl (by decide)
  have nop : nops.cpu.mem 0x400001 = some 0x90 := rfl
  exact absurd (Option.some.inj (nop.symm.trans trap)) (by decide)

end Fragment

end Sdb
