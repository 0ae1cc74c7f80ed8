import AdvancedUnix.Memory.Plant
import AdvancedUnix.Sdb.Standing

/-!
# The course of a pass

A pass plants the trap at one used slot after the other. Where the tracee stands at a slot,
and the pass gets that far, it executes one instruction first, and planting begins anew from
there. `course` says this over the table, the saved words and the tracee before the pass: the
instructions, and what is left to be planted after the last of them.

The loop of `sdb_patch_all_bp` follows its course. A pass without a step therefore is planting
alone, and one whose first step leads to no slot behind it is planting, a step and planting.
-/

namespace Sdb

open Memory Traced

variable {K : Type}

def SDB.words (sdb : SDB) (i : Slot) : Word := (sdb.breaks i).originalWord

/-- The used ones of these slots, with their addresses under these mappings. -/
def SDB.visits (H : Host K) (s : SDB) (ext : K) (is : List Slot) : List (Slot × Addr) :=
  (is.filter fun i => (s.breaks i).isUsed).map fun i => (i, s.slotAt H ext i)

/-- The saved words and the memory when the trap was planted at these addresses. -/
def planted (words : Slot → Word) (p : Proc K) (vs : List (Slot × Addr)) : Planted Slot :=
  plant trapByte (-1) ⟨words, p.cpu.mem⟩ vs

/-- The states in which a pass executes an instruction; the saved words and the tracee after the
last one, or at the start, unless that ended the process; and the addresses from there on. -/
structure Course (K : Type) where
  steps : List (Cpu K)
  words : Slot → Word
  tracee : Option (Proc K)
  visits : List (Slot × Addr)

instance decidableAllMapped (mem : Mem) (vs : List (Slot × Addr)) :
    Decidable (∀ v ∈ vs, Mapped mem v.2) := List.decidableBAll (fun v => Mapped mem v.2) vs

/-- The course over some slots, when `vs` has been visited since the last step. -/
def courseFrom (H : Host K) (s : SDB) :
    List Slot → (Slot → Word) → Proc K → List (Slot × Addr) → Course K
  | [], words, p, vs => ⟨[], words, some p, vs⟩
  | i :: is, words, p, vs =>
    if ¬ (s.breaks i).isUsed then courseFrom H s is words p vs
    else if s.slotAt H p.cpu.ext i = p.cpu.rip ∧ ∀ v ∈ vs, Mapped p.cpu.mem v.2 then
      let q := p.setMem (planted words p vs).mem
      match H.halt q.cpu with
      | some (.exit _) => ⟨[q.cpu], (planted words p vs).words, none, [(i, p.cpu.rip)]⟩
      | _ =>
        let rest := courseFrom H s is (planted words p vs).words (q.advance H.toPlatform)
          [(i, p.cpu.rip)]
        { rest with steps := q.cpu :: rest.steps }
    else courseFrom H s is words p (vs ++ [(i, s.slotAt H p.cpu.ext i)])

/-- The course of a pass over all slots. -/
def SDB.course (H : Host K) (s : SDB) (p : Proc K) : Course K := courseFrom H s slots s.words p []

/-- The tracee with the trap at the addresses that planting gets to. -/
def trapped (p : Proc K) (vs : List (Slot × Addr)) : Proc K :=
  p.setMem fun x => if PlantsAt p.cpu.mem x vs then some trapByte else p.cpu.mem x

def slotsBelow (i : Slot) : List Slot := slots.filter (· < i)

def slotsBehind (i : Slot) : List Slot := slots.filter (i < ·)

/-- A pass steps the tracee over slot `i`: it is the first one at which the tracee stands, and
with the traps below it the instruction there does not end the process. -/
structure StepsOver (H : Host K) (s : SDB) (p : Proc K) (i : Slot) : Prop where
  stands : StandsAt H s p i
  first : ∀ j < i, ¬ StandsAt H s p j
  stays : ∀ status, H.halt (trapped p (s.visits H p.cpu.ext (slotsBelow i))).cpu ≠
    some (.exit status)

/-- The tracee after that step. -/
def steppedOver (H : Host K) (s : SDB) (p : Proc K) (i : Slot) : Proc K :=
  (trapped p (s.visits H p.cpu.ext (slotsBelow i))).advance H.toPlatform

/-- The tracee `q` has executed the instruction at `a`, where it stood at slot `i`, and now is
at the address of a used slot behind it that the pass gets to. -/
structure StandsAgain (H : Host K) (s : SDB) (q : Proc K) (a : Addr) (i k : Slot) : Prop where
  behind : i < k
  used : (s.breaks k).isUsed
  there : s.slotAt H q.cpu.ext k = q.cpu.rip
  past : Mapped q.cpu.mem a
  between : ∀ j, i < j → j < k → (s.breaks j).isUsed → Mapped q.cpu.mem (s.slotAt H q.cpu.ext j)

/-- A pass made the steps of its course, and left what planting from there on leaves. -/
structure FollowsCourse (H : Host K) (c : Course K) (steps : List (Cpu K))
    (res : World K × Option Fault) : Prop where
  steps : steps = c.steps
  returns : res.2 = none
  dead : c.tracee = none → ∀ state q, res.1.current ≠ some (.live state q)
  alive : ∀ q, c.tracee = some q →
    res.1.tracee = some (q.setMem (planted c.words q c.visits).mem) ∧
      res.1.sdb.words = (planted c.words q c.visits).words

/-- The last step, or the start, left these words and this tracee, and since then the trap was
planted at `vs`. -/
structure PlantedSince (s : SDB) (w : World K) (words : Slot → Word) (p : Proc K)
    (vs : List (Slot × Addr)) : Prop where
  tracee : w.tracee = some (p.setMem (planted words p vs).mem)
  saved : w.sdb.words = (planted words p vs).words
  table : s.SameTable w.sdb

/-- What the loop does at slot `i` is the last one of these plantings, and a word that could not
be read ends it. -/
def PlantsNext (H : Host K) (env : Env K) (s : SDB) (i : Slot) (w : World K) (words : Slot → Word)
    (p : Proc K) (vs : List (Slot × Addr)) : Prop :=
  ∃ u, patchSlot H env i w = (u, if ∀ v ∈ vs, Mapped p.cpu.mem v.2 then .next else .return) ∧
    PlantedSince s u words p vs

section

variable {H : Host K} {env : Env K} {s : SDB} {w v u : World K} {p q : Proc K}
variable {words : Slot → Word} {vs : List (Slot × Addr)} {i : Slot} {is : List Slot} {a : Addr}

theorem SDB.words_setWord (w : World K) (i : Slot) (word : Word) :
    (w.setBreak i { w.sdb.breaks i with originalWord := word }).sdb.words =
      Function.update w.sdb.words i word := by
  funext j
  by_cases hj : j = i
  · subst hj
    simp [SDB.words]
  · simp [SDB.words, Function.update_of_ne hj]

theorem SDB.visits_cons_used (used : (s.breaks i).isUsed) (ext : K) (is : List Slot) :
    s.visits H ext (i :: is) = (i, s.slotAt H ext i) :: s.visits H ext is := by
  rw [visits, List.filter_cons_of_pos (by exact used), List.map_cons]
  rfl

theorem SDB.visits_cons_unused (unused : ¬ (s.breaks i).isUsed) (ext : K) (is : List Slot) :
    s.visits H ext (i :: is) = s.visits H ext is := by
  rw [visits, List.filter_cons_of_neg (by exact unused)]
  rfl

/-- Behind a word that cannot be read a course executes nothing. -/
theorem courseFrom_blocked (blocked : ¬ ∀ v ∈ vs, Mapped p.cpu.mem v.2) (is : List Slot) :
    courseFrom H s is words p vs =
      ⟨[], words, some p, vs ++ s.visits H p.cpu.ext is⟩ := by
  induction is generalizing vs with
  | nil => rw [courseFrom, SDB.visits, List.filter_nil, List.map_nil, List.append_nil]
  | cons i is ih =>
      rw [courseFrom]
      by_cases used : (s.breaks i).isUsed
      · rw [if_neg (not_not.mpr used), if_neg fun here => blocked here.2,
          ih fun all => blocked fun v mem => all v (List.mem_append_left _ mem),
          SDB.visits_cons_used used, List.append_assoc]
        rfl
      · rw [if_pos used, ih blocked, SDB.visits_cons_unused used]

theorem planted_blocked (words : Slot → Word) (blocked : ¬ ∀ v ∈ vs, Mapped p.cpu.mem v.2)
    (us : List (Slot × Addr)) : planted words p (vs ++ us) = planted words p vs :=
  plant_blocked trapByte (-1) ⟨words, p.cpu.mem⟩ blocked us

/-- Planting at one more address. -/
theorem planted_concat (words : Slot → Word) (mapped : ∀ v ∈ vs, Mapped p.cpu.mem v.2) (i : Slot)
    (a : Addr) : planted words p (vs ++ [(i, a)]) =
      planted (planted words p vs).words (p.setMem (planted words p vs).mem) [(i, a)] :=
  plant_append trapByte (-1) ⟨words, p.cpu.mem⟩ mapped [(i, a)]

theorem planted_mapped (words : Slot → Word) (p : Proc K) (vs : List (Slot × Addr)) (a : Addr) :
    Mapped (planted words p vs).mem a ↔ Mapped p.cpu.mem a := mapped_plant _ vs

theorem courseFrom_unused (unused : ∀ i, (s.breaks i).isUsed = false) (is : List Slot) :
    courseFrom H s is words p vs = ⟨[], words, some p, vs⟩ := by
  induction is with
  | nil => rfl
  | cons i is ih => rw [courseFrom, if_pos (by simp [unused i]), ih]

theorem stepsFrom_unused (unused : ∀ i, ¬ (w.sdb.breaks i).isUsed) (is : List Slot) :
    stepsFrom H env is w = [] := by
  induction is with
  | nil => rfl
  | cons i is ih =>
      rw [stepsFrom, slotSteps, if_pos (unused i), patchSlot_of_unused H env (unused i)]
      exact ih

/-- What the pass does at a slot after the step over it, if there still is a tracee. -/
theorem patchAt_stepped (past : stepOver H env i a w = v) (hq : v.tracee = some q) :
    (readWord q.cpu.mem a = none ∧
        patchAt H env i a w =
          (v.setBreak i { v.sdb.breaks i with originalWord := -1 }, .return)) ∨
      (∃ word, readWord q.cpu.mem a = some word ∧ byteOf word 0 = trapByte ∧
        patchAt H env i a w = (v, .next)) ∨
      ∃ word, readWord q.cpu.mem a = some word ∧ byteOf word 0 ≠ trapByte ∧
        patchAt H env i a w = ((v.setBreak i { v.sdb.breaks i with originalWord := word }).setTracee
          (q.setMem (Function.update q.cpu.mem a (some trapByte))), .next) := by
  have breaks : v.sdb = w.sdb := by rw [← past, stepOver_sdb]
  rcases patchAt_cases H env i a w with
    ⟨word, hpeek, low, he⟩ | ⟨r, word, hr, read, low, he⟩ | ⟨hpeek, he⟩
  · rw [past] at hpeek he
    rw [World.peek_eq hq] at hpeek
    exact .inr (.inl ⟨word, hpeek, low, he⟩)
  · rw [past] at hr he
    rw [hq] at hr
    cases hr
    rw [← breaks] at he
    exact .inr (.inr ⟨word, read, low, he⟩)
  · rw [past] at hpeek he
    rw [World.peek_eq hq] at hpeek
    rw [← breaks] at he
    exact .inl ⟨hpeek, he⟩

/-- That is planting at one address. -/
theorem patchAt_plants (past : stepOver H env i a w = v) (hq : v.tracee = some q) :
    ∃ u, patchAt H env i a w = (u, if Mapped q.cpu.mem a then .next else .return) ∧
      u.tracee = some (q.setMem (planted v.sdb.words q [(i, a)]).mem) ∧
      u.sdb.words = (planted v.sdb.words q [(i, a)]).words ∧ v.sdb.SameTable u.sdb := by
  rcases patchAt_stepped past hq with ⟨read, he⟩ | ⟨word, read, low, he⟩ | ⟨word, read, low, he⟩
  · have ended : planted v.sdb.words q [(i, a)] =
        ⟨Function.update v.sdb.words i (-1), q.cpu.mem⟩ := by
      rw [planted, plant, read]
    rw [if_neg (readWord_eq_none.mp read), ended]
    exact ⟨_, he, hq, SDB.words_setWord v i (-1), v.sdb.sameTable_setWord i (-1)⟩
  · have mapped : Mapped q.cpu.mem a := readWord_isSome.mp (by rw [read]; rfl)
    have there : planted v.sdb.words q [(i, a)] = ⟨v.sdb.words, q.cpu.mem⟩ := by
      rw [planted, plant, read]
      exact if_pos low
    rw [if_pos mapped, there]
    exact ⟨v, he, hq, rfl, .refl _⟩
  · have mapped : Mapped q.cpu.mem a := readWord_isSome.mp (by rw [read]; rfl)
    have fresh : planted v.sdb.words q [(i, a)] = ⟨Function.update v.sdb.words i word,
        Function.update q.cpu.mem a (some trapByte)⟩ := by
      rw [planted, plant, read]
      exact if_neg low
    have hq' : (v.setBreak i { v.sdb.breaks i with originalWord := word }).tracee = some q := hq
    rw [if_pos mapped, fresh]
    refine ⟨_, he, World.tracee_setTracee hq' _, ?_, ?_⟩
    · rw [World.setTracee_sdb]
      exact SDB.words_setWord v i word
    · rw [World.setTracee_sdb]
      exact v.sdb.sameTable_setWord i word

/-- A step keeps the tracee, unless the instruction ends the process. -/
theorem World.tracee_stepped (w : World K) (ok : Bool) (p : Proc K)
    (stays : ∀ status, H.halt p.cpu ≠ some (.exit status)) :
    (w.setChild (Child.stepped H.toPlatform ok p)).tracee = some (p.advance H.toPlatform) := by
  rw [World.tracee, World.current_setChild, Child.stepped]
  cases halt : H.halt p.cpu with
  | none => cases ok <;> rfl
  | some reason =>
      cases reason with
      | exit status => exact absurd halt (stays status)
      | signal sig => cases ok <;> rfl

theorem World.tracee_of_not_live (gone : ∀ state q, w.current ≠ some (.live state q)) :
    w.tracee = none := by
  cases hq : w.tracee with
  | none => rfl
  | some q =>
      obtain ⟨state, hc⟩ := World.tracee_live hq
      exact absurd hc (gone state q)

theorem World.current_stepped_exit (w : World K) (ok : Bool) {status : Nat}
    (exits : H.halt p.cpu = some (.exit status)) (state : RunState) (q : Proc K) :
    (w.setChild (Child.stepped H.toPlatform ok p)).current ≠ some (.live state q) := by
  rw [World.current_setChild, Child.stepped, exits]
  cases ok <;> exact fun live => by cases live

/-- After a step that ended the process the pass gives up. -/
theorem patchAt_ended (past : stepOver H env i a w = v) (hv : v.tracee = none) :
    ∃ u, patchAt H env i a w = (u, .return) ∧ u.current = v.current := by
  rcases patchAt_cases H env i a w with
    ⟨word, hpeek, -⟩ | ⟨r, word, hr, -⟩ | ⟨-, he⟩
  · obtain ⟨r, hr, -⟩ := World.peek_eq_some hpeek
    rw [past, hv] at hr
    cases hr
  · rw [past, hv] at hr
    cases hr
  · rw [past] at he
    exact ⟨_, he, rfl⟩

theorem FollowsCourse.cons {c : Course K} {steps : List (Cpu K)} {res : World K × Option Fault}
    (h : FollowsCourse H c steps res) (d : Cpu K) :
    FollowsCourse H { c with steps := d :: c.steps } (d :: steps) res :=
  ⟨congrArg (d :: ·) h.steps, h.returns, h.dead, h.alive⟩

/-- A loop that gets to no further slot has come to the end of its course. -/
theorem followsCourse_planted (hu : PlantedSince s u words p vs) :
    FollowsCourse H ⟨[], words, some p, vs⟩ [] (u, none) := by
  refine ⟨rfl, rfl, fun none => ?_, fun q hq => ?_⟩
  · cases none
  · cases hq
    exact ⟨hu.tracee, hu.saved⟩

/-- A used slot is patched at its address, with a step before if the tracee stands there. -/
theorem patchSlot_planted (hw : PlantedSince s w words p vs) (heh : s.eh ≠ none)
    (used : (s.breaks i).isUsed) (env : Env K) :
    patchSlot H env i w = patchAt H env i (s.slotAt H p.cpu.ext i) w ∧
      (slotSteps H env i w = if p.cpu.rip = s.slotAt H p.cpu.ext i
        then [(p.setMem (planted words p vs).mem).cpu] else []) ∧
      stepOver H env i (s.slotAt H p.cpu.ext i) w = if p.cpu.rip = s.slotAt H p.cpu.ext i
        then w.setChild (Child.stepped H.toPlatform (env.waits (.slot i))
          (p.setMem (planted words p vs).mem))
        else w := by
  have used' : (w.sdb.breaks i).isUsed := by rwa [hw.table.isUsed]
  obtain ⟨state, hc⟩ := World.tracee_live hw.tracee
  obtain ⟨eh, heh'⟩ := Option.ne_none_iff_exists'.mp (hw.table.eh ▸ heh)
  have ha := slotAddr_eq H env.uninit hc heh' i
  rw [hw.table.slotAt, Proc.setMem_ext] at ha
  exact ⟨patchSlot_of_used H env used' ha, slotSteps_of_used H env used' ha hw.tracee,
    stepOver_eq H env hw.tracee⟩

/-- Away from the tracee a slot is planted at. -/
theorem plantsNext_away (hw : PlantedSince s w words p vs) (heh : s.eh ≠ none)
    (used : (s.breaks i).isUsed) (env : Env K)
    (mapped : ∀ v ∈ vs, Mapped p.cpu.mem v.2) (away : p.cpu.rip ≠ s.slotAt H p.cpu.ext i) :
    slotSteps H env i w = [] ∧
      PlantsNext H env s i w words p (vs ++ [(i, s.slotAt H p.cpu.ext i)]) := by
  obtain ⟨slot, steps, past⟩ := patchSlot_planted hw heh used env
  rw [if_neg away] at steps past
  obtain ⟨u, patch, hu, saved, table⟩ := patchAt_plants past hw.tracee
  rw [hw.saved, ← planted_concat words mapped] at hu saved
  have one : (∀ v ∈ vs ++ [(i, s.slotAt H p.cpu.ext i)], Mapped p.cpu.mem v.2) ↔
      Mapped (planted words p vs).mem (s.slotAt H p.cpu.ext i) := by
    rw [planted_mapped, List.forall_mem_append, List.forall_mem_singleton, and_iff_right mapped]
  rw [← slot] at patch
  simp only [Proc.setMem_mem, ← one] at patch
  exact ⟨steps, u, patch, hu, saved, hw.table.trans table⟩

/-- The slot at which the tracee stands is planted at when the tracee has made a step. -/
theorem plantsNext_stood (hw : PlantedSince s w words p vs) (heh : s.eh ≠ none)
    (used : (s.breaks i).isUsed) (env : Env K)
    (here : s.slotAt H p.cpu.ext i = p.cpu.rip)
    (stays : ∀ status, H.halt (p.setMem (planted words p vs).mem).cpu ≠ some (.exit status)) :
    slotSteps H env i w = [(p.setMem (planted words p vs).mem).cpu] ∧
      PlantsNext H env s i w (planted words p vs).words
        ((p.setMem (planted words p vs).mem).advance H.toPlatform) [(i, p.cpu.rip)] := by
  obtain ⟨slot, steps, past⟩ := patchSlot_planted hw heh used env
  rw [here] at slot steps past
  rw [if_pos rfl] at steps past
  have hv := World.tracee_stepped w (env.waits (.slot i)) _ stays
  obtain ⟨u, patch, hu, saved, table⟩ := patchAt_plants past hv
  rw [World.setChild_sdb, hw.saved] at hu saved
  rw [World.setChild_sdb] at table
  refine ⟨steps, u, ?_, hu, saved, hw.table.trans table⟩
  rw [slot, patch]
  simp only [List.forall_mem_singleton]

/-- If that step ends the process, the loop is left. -/
theorem patchSlot_ended (hw : PlantedSince s w words p vs) (heh : s.eh ≠ none)
    (used : (s.breaks i).isUsed) (env : Env K)
    (here : s.slotAt H p.cpu.ext i = p.cpu.rip) {status : Nat}
    (exits : H.halt (p.setMem (planted words p vs).mem).cpu = some (.exit status)) :
    slotSteps H env i w = [(p.setMem (planted words p vs).mem).cpu] ∧
      ∃ u, patchSlot H env i w = (u, .return) ∧ ∀ state q, u.current ≠ some (.live state q) := by
  obtain ⟨slot, steps, past⟩ := patchSlot_planted hw heh used env
  rw [here] at slot steps past
  rw [if_pos rfl] at steps past
  have gone := World.current_stepped_exit w (env.waits (.slot i)) exits
  obtain ⟨u, ended, same⟩ := patchAt_ended past (World.tracee_of_not_live gone)
  refine ⟨steps, u, slot.trans ended, ?_⟩
  rw [same]
  exact gone

/-- The loop over slots follows its course, where `vs` has been planted. -/
theorem patchFrom_follows (hw : PlantedSince s w words p vs) (heh : s.eh ≠ none)
    (mapped : ∀ v ∈ vs, Mapped p.cpu.mem v.2) (is : List Slot) :
    FollowsCourse H (courseFrom H s is words p vs) (stepsFrom H env is w)
      (patchFrom H env is w) := by
  induction is generalizing w words p vs with
  | nil => exact followsCourse_planted hw
  | cons i is ih =>
      -- behind a slot that was planted at, the loop goes on if all words could be read
      have onward : ∀ {words q us}, PlantsNext H env s i w words q us →
          ∃ later, stepsFrom H env (i :: is) w = slotSteps H env i w ++ later ∧
            FollowsCourse H (courseFrom H s is words q us) later (patchFrom H env (i :: is) w) := by
        rintro words q us ⟨u, slot, hu⟩
        rw [stepsFrom, patchFrom, slot]
        split_ifs with all
        · exact ⟨_, rfl, ih hu all⟩
        · rw [courseFrom_blocked all]
          refine ⟨[], rfl, followsCourse_planted ⟨?_, ?_, hu.table⟩⟩
          · rw [planted_blocked words all]
            exact hu.tracee
          · rw [planted_blocked words all]
            exact hu.saved
      rw [courseFrom]
      by_cases used : (s.breaks i).isUsed
      · rw [if_neg (not_not.mpr used)]
        by_cases here : s.slotAt H p.cpu.ext i = p.cpu.rip
        · rw [if_pos ⟨here, mapped⟩]
          simp only
          split
          · rename_i status exits
            obtain ⟨steps, u, ended, gone⟩ := patchSlot_ended hw heh used env here exits
            rw [stepsFrom, patchFrom, ended, steps]
            exact ⟨rfl, rfl, fun _ => gone, fun q hq => by cases hq⟩
          · rename_i stays
            obtain ⟨steps, next⟩ := plantsNext_stood hw heh used env here stays
            obtain ⟨later, all, follows⟩ := onward next
            rw [all, steps]
            exact follows.cons _
        · rw [if_neg fun both => here both.1]
          obtain ⟨steps, next⟩ := plantsNext_away hw heh used env mapped (Ne.symm here)
          obtain ⟨later, all, follows⟩ := onward next
          rw [all, steps]
          exact follows
      · have unused : ¬ (w.sdb.breaks i).isUsed := by rwa [hw.table.isUsed]
        have slot := patchSlot_of_unused H env unused
        have next : (patchSlot H env i w).2 = .next := by rw [slot]
        rw [if_pos used, patchFrom_cons H env next, stepsFrom, slotSteps, if_pos unused, slot]
        exact ih hw mapped

/-- A pass that has the handle which it needs follows its course. -/
theorem pass_follows (hp : w.tracee = some p)
    (handle : w.sdb.eh ≠ none ∨ ∀ i, (w.sdb.breaks i).isUsed = false) :
    FollowsCourse H (w.sdb.course H p) (passSteps H env w) (sdbPatchAllBp H env w) := by
  by_cases heh : w.sdb.eh = none
  · have unused := handle.resolve_left (not_not.mpr heh)
    rw [SDB.course, courseFrom_unused unused, passSteps,
      stepsFrom_unused fun i => by simp [unused i], sdbPatchAllBp,
      patchFrom_unused fun i _ => unused i]
    refine ⟨rfl, rfl, fun none => ?_, fun q hq => ?_⟩
    · cases none
    · cases hq
      exact ⟨hp, rfl⟩
  · exact patchFrom_follows ⟨hp, rfl, .refl _⟩ heh (List.forall_mem_nil _) slots

/-- The labels of what is left to be planted are slots of the list, in its order. -/
theorem courseFrom_labels (s : SDB) (is : List Slot) (words : Slot → Word) (p : Proc K)
    (vs : List (Slot × Addr)) :
    ((courseFrom H s is words p vs).visits.map Prod.fst).Sublist (vs.map Prod.fst ++ is) := by
  induction is generalizing words p vs with
  | nil =>
      rw [courseFrom, List.append_nil]
  | cons i is ih =>
      have more : (vs.map Prod.fst ++ is).Sublist (vs.map Prod.fst ++ i :: is) :=
        (List.sublist_cons_self i is).append_left _
      have only : [i].Sublist (vs.map Prod.fst ++ i :: is) :=
        List.singleton_sublist.mpr (List.mem_append_right _ List.mem_cons_self)
      have rest : ([i] ++ is).Sublist (vs.map Prod.fst ++ i :: is) := List.sublist_append_right _ _
      rw [courseFrom]
      split
      · exact (ih words p vs).trans more
      · split
        · simp only
          split
          · exact only
          · exact (ih _ _ _).trans rest
        · have labels := ih words p (vs ++ [(i, s.slotAt H p.cpu.ext i)])
          rwa [List.map_append, List.append_assoc] at labels

theorem SDB.course_nodup (H : Host K) (s : SDB) (p : Proc K) :
    ((s.course H p).visits.map Prod.fst).Nodup :=
  (courseFrom_labels s slots s.words p []).nodup slots_nodup

/-- Slots at which the tracee does not stand are collected. -/
theorem courseFrom_append
    (away : ∀ i ∈ is, (s.breaks i).isUsed → s.slotAt H p.cpu.ext i ≠ p.cpu.rip)
    (js : List Slot) : courseFrom H s (is ++ js) words p vs =
      courseFrom H s js words p (vs ++ s.visits H p.cpu.ext is) := by
  induction is generalizing vs with
  | nil => rw [SDB.visits, List.filter_nil, List.map_nil, List.append_nil, List.nil_append]
  | cons i is ih =>
      have rest := fun j mem => away j (List.mem_cons_of_mem i mem)
      rw [List.cons_append, courseFrom]
      by_cases used : (s.breaks i).isUsed
      · rw [if_neg (not_not.mpr used), if_neg fun both => away i List.mem_cons_self used both.1,
          ih rest, SDB.visits_cons_used used, List.append_assoc]
        rfl
      · rw [if_pos used, ih rest, SDB.visits_cons_unused used]

/-- A course over slots in order executes nothing exactly when it gets to no slot at which the
tracee stands. -/
theorem courseFrom_steps_eq_nil_iff (sorted : is.Pairwise (· < ·)) :
    (courseFrom H s is words p vs).steps = [] ↔ (∀ v ∈ vs, Mapped p.cpu.mem v.2) →
      ∀ i ∈ is, Reached H s p is i →
        ¬ ((s.breaks i).isUsed ∧ s.slotAt H p.cpu.ext i = p.cpu.rip) := by
  induction is generalizing vs with
  | nil => exact iff_of_true rfl fun _ i mem => absurd mem List.not_mem_nil
  | cons i is ih =>
      obtain ⟨first, sorted⟩ := List.pairwise_cons.mp sorted
      rw [courseFrom, forall_reached_cons first]
      by_cases used : (s.breaks i).isUsed
      · rw [if_neg (not_not.mpr used)]
        by_cases here : s.slotAt H p.cpu.ext i = p.cpu.rip ∧ ∀ v ∈ vs, Mapped p.cpu.mem v.2
        · rw [if_pos here]
          refine iff_of_false (fun none => ?_) fun h => (h here.2).1 ⟨used, here.1⟩
          simp only at none
          split at none <;> cases none
        · rw [if_neg here, ih sorted, List.forall_mem_append, List.forall_mem_singleton, and_imp]
          refine forall_congr' fun mapped => ?_
          have away : ¬ ((s.breaks i).isUsed ∧ s.slotAt H p.cpu.ext i = p.cpu.rip) :=
            fun both => here ⟨both.2, mapped⟩
          rw [and_iff_right away, imp_iff_right used]
      · have away : ¬ ((s.breaks i).isUsed ∧ s.slotAt H p.cpu.ext i = p.cpu.rip) :=
          fun both => used both.1
        have goes : (s.breaks i).isUsed → Mapped p.cpu.mem (s.slotAt H p.cpu.ext i) :=
          fun here => absurd here used
        rw [if_pos used, ih sorted, and_iff_right away, imp_iff_right goes]

theorem courseFrom_of_steps_eq_nil (none : (courseFrom H s is words p vs).steps = []) :
    courseFrom H s is words p vs = ⟨[], words, some p, vs ++ s.visits H p.cpu.ext is⟩ := by
  induction is generalizing vs with
  | nil => rw [courseFrom, SDB.visits, List.filter_nil, List.map_nil, List.append_nil]
  | cons i is ih =>
      rw [courseFrom] at none ⊢
      by_cases used : (s.breaks i).isUsed
      · rw [if_neg (not_not.mpr used)] at none ⊢
        by_cases here : s.slotAt H p.cpu.ext i = p.cpu.rip ∧ ∀ v ∈ vs, Mapped p.cpu.mem v.2
        · rw [if_pos here] at none
          simp only at none
          split at none <;> cases none
        · rw [if_neg here] at none ⊢
          rw [ih none, SDB.visits_cons_used used, List.append_assoc]
          rfl
      · rw [if_pos used] at none ⊢
        rw [ih none, SDB.visits_cons_unused used]

theorem trapped_eq (words : Slot → Word) (p : Proc K) (vs : List (Slot × Addr)) :
    p.setMem (planted words p vs).mem = trapped p vs := by
  have mem : (planted words p vs).mem =
      fun x => if PlantsAt p.cpu.mem x vs then some trapByte else p.cpu.mem x :=
    funext fun x => plant_mem ⟨words, p.cpu.mem⟩ vs x
  rw [trapped, mem]

theorem mem_slotsBelow {j : Slot} : j ∈ slotsBelow i ↔ j < i := by
  simp [slotsBelow, mem_slots]

theorem mem_slotsBehind {j : Slot} : j ∈ slotsBehind i ↔ i < j := by
  simp [slotsBehind, mem_slots]

/-- A list in order is what is below an element, the element and what is behind it. -/
theorem filter_lt_append (sorted : is.Pairwise (· < ·)) (mem : i ∈ is) :
    is = is.filter (· < i) ++ i :: is.filter (i < ·) := by
  induction is with
  | nil => cases mem
  | cons j is ih =>
      obtain ⟨first, sorted⟩ := List.pairwise_cons.mp sorted
      rcases List.mem_cons.mp mem with rfl | mem
      · have none : is.filter (· < i) = [] :=
          List.filter_eq_nil_iff.mpr fun k hk => by simpa using (first k hk).le
        have all : is.filter (i < ·) = is :=
          List.filter_eq_self.mpr fun k hk => by simpa using first k hk
        rw [List.filter_cons_of_neg (by simp), List.filter_cons_of_neg (by simp), none, all]
        rfl
      · have lt := first i mem
        rw [List.filter_cons_of_pos (by simpa using lt),
          List.filter_cons_of_neg (by simpa using lt.le), List.cons_append]
        exact congrArg (j :: ·) (ih sorted mem)

theorem slots_split (i : Slot) : slots = slotsBelow i ++ i :: slotsBehind i :=
  filter_lt_append slots_sorted (mem_slots i)

theorem SDB.visits_mapped {m : Mem} {ext : K} :
    (∀ v ∈ s.visits H ext is, Mapped m v.2) ↔
      ∀ i ∈ is, (s.breaks i).isUsed → Mapped m (s.slotAt H ext i) := by
  rw [visits, List.forall_mem_map]
  simp only [List.mem_filter, and_imp]

/-- A pass that gets to no slot at which the tracee stands plants the trap. -/
theorem SDB.course_away (away : ∀ i, ¬ StandsAt H s p i) :
    s.course H p = ⟨[], s.words, some p, s.visits H p.cpu.ext slots⟩ := by
  refine courseFrom_of_steps_eq_nil ((courseFrom_steps_eq_nil_iff slots_sorted).mpr ?_)
  intro _ i _ reached at_
  exact away i ⟨at_.1, at_.2, fun j lt => reached j (mem_slots j) lt⟩

/-- The pass plants the trap at the slots below the first one at which the tracee stands. -/
theorem SDB.course_first (stands : StandsAt H s p i) (first : ∀ j < i, ¬ StandsAt H s p j) :
    s.course H p = courseFrom H s (i :: slotsBehind i) s.words p
      (s.visits H p.cpu.ext (slotsBelow i)) := by
  rw [course, slots_split i, courseFrom_append fun j mem used at_ => ?_, List.nil_append]
  have lt := mem_slotsBelow.mp mem
  exact first j lt ⟨used, at_, fun k below => stands.2.2 k (below.trans lt)⟩

/-- The pass steps over no slot but the first one at which the tracee stands. -/
theorem StepsOver.eq_first {j : Slot} (h : StepsOver H s p j) (stands : StandsAt H s p i)
    (first : ∀ j < i, ¬ StandsAt H s p j) : j = i := by
  rcases lt_trichotomy j i with lt | same | lt
  · exact absurd h.stands (first j lt)
  · exact same
  · exact absurd stands (h.first i lt)

/-- There the tracee executes an instruction, and planting begins anew. -/
theorem SDB.course_past (past : StepsOver H s p i) : ∃ words d, s.course H p =
    let rest := courseFrom H s (slotsBehind i) words (steppedOver H s p i) [(i, p.cpu.rip)]
    { rest with steps := d :: rest.steps } := by
  obtain ⟨stands, first, stays⟩ := past
  have mapped : ∀ v ∈ s.visits H p.cpu.ext (slotsBelow i), Mapped p.cpu.mem v.2 :=
    visits_mapped.mpr fun j mem => stands.2.2 j (mem_slotsBelow.mp mem)
  rw [course_first stands first, courseFrom, if_neg (not_not.mpr stands.1),
    if_pos ⟨stands.2.1, mapped⟩]
  simp only [trapped_eq]
  exact ⟨_, _, rfl⟩

/-- An instruction that ends the process ends the pass. -/
theorem SDB.course_ended (stands : StandsAt H s p i) (first : ∀ j < i, ¬ StandsAt H s p j)
    {status : Nat} (exits : H.halt (trapped p (s.visits H p.cpu.ext (slotsBelow i))).cpu =
      some (.exit status)) : (s.course H p).steps.length = 1 ∧ (s.course H p).tracee = none := by
  have mapped : ∀ v ∈ s.visits H p.cpu.ext (slotsBelow i), Mapped p.cpu.mem v.2 :=
    visits_mapped.mpr fun j mem => stands.2.2 j (mem_slotsBelow.mp mem)
  rw [course_first stands first, courseFrom, if_neg (not_not.mpr stands.1),
    if_pos ⟨stands.2.1, mapped⟩]
  simp only [trapped_eq, exits, List.length_singleton, and_self]

/-- Behind slot `i` the pass executes nothing more unless the tracee stands at a slot again. -/
theorem courseFrom_behind_steps_iff {a : Addr} :
    (courseFrom H s (slotsBehind i) words q [(i, a)]).steps = [] ↔
      ∀ k, ¬ StandsAgain H s q a i k := by
  have sorted : (slotsBehind i).Pairwise (· < ·) := slots_sorted.filter _
  rw [courseFrom_steps_eq_nil_iff sorted, List.forall_mem_singleton]
  constructor
  · intro h k again
    refine h again.past k (mem_slotsBehind.mpr again.behind) (fun j mem lt => ?_)
      ⟨again.used, again.there⟩
    exact again.between j (mem_slotsBehind.mp mem) lt
  · intro h past k mem reached at_
    refine h k ⟨mem_slotsBehind.mp mem, at_.1, at_.2, past, fun j behind lt => ?_⟩
    exact reached j (mem_slotsBehind.mpr behind) lt

end

end Sdb
