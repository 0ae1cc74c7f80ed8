import AdvancedUnix.Sdb.Live

/-!
# When a pass moves the tracee

A pass single-steps the tracee exactly when it gets to a used slot at whose
address the tracee stands. It gets to a slot unless an earlier one ends the
pass, because the word there cannot be read. `StandsAt` says this of the
state before the pass; a pass that finds the tracee elsewhere changes its memory
only.
-/

namespace Sdb

open Memory Traced

variable {K : Type}

/-- The tracee stands at the address of a used slot, and the words of all
earlier used slots are mapped. -/
def StandsAt (H : Host K) (s : SDB) (p : Proc K) (i : Slot) : Prop :=
  (s.breaks i).isUsed ∧ s.slotAt H p.cpu.ext i = p.cpu.rip ∧
    ∀ j < i, (s.breaks j).isUsed → Mapped p.cpu.mem (s.slotAt H p.cpu.ext j)

instance (H : Host K) (s : SDB) (p : Proc K) (i : Slot) : Decidable (StandsAt H s p i) :=
  inferInstanceAs (Decidable ((s.breaks i).isUsed ∧ s.slotAt H p.cpu.ext i = p.cpu.rip ∧
    ∀ j < i, (s.breaks j).isUsed → Mapped p.cpu.mem (s.slotAt H p.cpu.ext j)))

variable (H : Host K) (env : Env K)

/-- A pass records every instruction that it executes in the history. -/
theorem record_stepOver {i : Slot} {a : Addr} {w : World K} {p : Proc K}
    (h : w.record = some p) (used : (w.sdb.breaks i).isUsed)
    (ha : slotAddr H env.uninit w i = .ok a) :
    ∃ q, (stepOver H env i a w).record = some q ∧ q.image = p.image ∧
      q.history = (slotSteps H env i w).reverse ++ p.history := by
  cases hp : w.tracee with
  | none =>
      have nothing : slotSteps H env i w = [] := by
        rw [slotSteps, if_neg (not_not.mpr used), ha, hp]
      refine ⟨p, ?_, rfl, by rw [nothing]; rfl⟩
      rcases stepOver_eq_of_none H env (i := i) (a := a) hp with he | he <;> rw [he]
      · exact h
      · rwa [World.record_collect]
  | some q =>
      rw [World.record_of_tracee hp] at h
      cases h
      rw [stepOver_eq H env hp, slotSteps_of_used H env used ha hp]
      split
      · refine ⟨p.advance H.toPlatform, ?_, rfl, rfl⟩
        rw [World.record, World.current_setChild, Option.bind_some, Child.record_stepped]
      · exact ⟨p, World.record_of_tracee hp, rfl, rfl⟩

theorem record_patchSlot {i : Slot} {w : World K} {p : Proc K} (h : w.record = some p) :
    ∃ q, (patchSlot H env i w).1.record = some q ∧ q.image = p.image ∧
      q.history = (slotSteps H env i w).reverse ++ p.history := by
  by_cases used : (w.sdb.breaks i).isUsed
  · cases ha : slotAddr H env.uninit w i with
    | error fault =>
        refine ⟨p, ?_, rfl, ?_⟩
        · rw [patchSlot, if_neg (not_not.mpr used), ha]
          exact h
        · rw [slotSteps, if_neg (not_not.mpr used), ha]
          rfl
    | ok a =>
        rw [patchSlot_of_used H env used ha]
        obtain ⟨q, hq, image, history⟩ := record_stepOver H env h used ha
        rcases patchAt_cases H env i a w with
          ⟨word, _, _, he⟩ | ⟨r, word, hr, _, _, he⟩ | ⟨_, he⟩ <;> rw [he]
        · exact ⟨q, hq, image, history⟩
        · have hr' : ((stepOver H env i a w).setBreak i
              { (w.sdb.breaks i) with originalWord := word }).tracee = some r := hr
          rw [World.record_of_tracee hr] at hq
          cases hq
          exact ⟨_, World.record_setTracee hr' _, image, history⟩
        · exact ⟨q, hq, image, history⟩
  · refine ⟨p, ?_, rfl, ?_⟩
    · rw [patchSlot_of_unused H env used]
      exact h
    · rw [slotSteps, if_pos used]
      rfl

theorem record_patchFrom (is : List Slot) {w : World K} {p : Proc K} (h : w.record = some p) :
    ∃ q, (patchFrom H env is w).1.record = some q ∧ q.image = p.image ∧
      q.history = (stepsFrom H env is w).reverse ++ p.history := by
  induction is generalizing w p with
  | nil => exact ⟨p, h, rfl, rfl⟩
  | cons i is ih =>
      obtain ⟨q, hq, image, history⟩ := record_patchSlot H env (i := i) h
      rw [patchFrom, stepsFrom]
      cases hres : patchSlot H env i w with
      | mk v go =>
          rw [hres] at hq
          cases go with
          | next =>
              obtain ⟨r, hr, image', history'⟩ := ih hq
              refine ⟨r, hr, image'.trans image, ?_⟩
              rw [history', history, List.reverse_append, List.append_assoc]
          | «return» => exact ⟨q, hq, image, by simpa using history⟩
          | fault f => exact ⟨q, hq, image, by simpa using history⟩

/-- The same breakpoints, and nothing but the contents of mapped memory differs
in the tracee. -/
structure Patched (s : SDB) (p : Proc K) (v : World K) : Prop where
  table : s.SameTable v.sdb
  tracee : ∃ m, v.tracee = some (p.setMem m) ∧ ∀ a, Mapped m a ↔ Mapped p.cpu.mem a

theorem Patched.refl {w : World K} {p : Proc K} (hp : w.tracee = some p) : Patched w.sdb p w :=
  ⟨.refl _, p.cpu.mem, hp, fun _ => Iff.rfl⟩

variable {H env}

variable (env) in
/-- At a slot where the tracee does not stand, the pass leaves a trap alone, puts
one in place, or ends because the word there cannot be read. -/
theorem patchSlot_away {i : Slot} {w : World K} {p : Proc K} (hp : w.tracee = some p)
    {eh : Elf.Handle} (heh : w.sdb.eh = some eh) (used : (w.sdb.breaks i).isUsed)
    (away : w.sdb.slotAt H p.cpu.ext i ≠ p.cpu.rip) :
    slotSteps H env i w = [] ∧ patchSlot H env i w =
      match readWord p.cpu.mem (w.sdb.slotAt H p.cpu.ext i) with
      | none => (w.setBreak i { w.sdb.breaks i with originalWord := -1 }, .return)
      | some word =>
        if byteOf word 0 = trapByte then (w, .next)
        else
          ((w.setBreak i { w.sdb.breaks i with originalWord := word }).setTracee (p.setMem
            (Function.update p.cpu.mem (w.sdb.slotAt H p.cpu.ext i) (some trapByte))), .next) := by
  obtain ⟨state, hc⟩ := World.tracee_live hp
  have ha := slotAddr_eq H env.uninit hc heh i
  have past : stepOver H env i (w.sdb.slotAt H p.cpu.ext i) w = w := by
    rw [stepOver_eq H env hp, if_neg away.symm]
  refine ⟨by rw [slotSteps_of_used H env used ha hp, if_neg away.symm], ?_⟩
  rw [patchSlot_of_used H env used ha]
  rcases patchAt_cases H env i (w.sdb.slotAt H p.cpu.ext i) w with
    ⟨word, hpeek, hlow, he⟩ | ⟨q, word, hq, hread, hlow, he⟩ | ⟨hpeek, he⟩ <;> rw [he, past]
  · rw [past, World.peek_eq hp] at hpeek
    simp only [hpeek, hlow, if_true]
  · rw [past, hp] at hq
    cases hq
    simp only [hread, hlow, if_false]
  · rw [past, World.peek_eq hp] at hpeek
    simp only [hpeek]

/-- A pass over these slots gets to slot `i`: no used one before it ends the pass. -/
def Reached (H : Host K) (s : SDB) (p : Proc K) (is : List Slot) (i : Slot) : Prop :=
  ∀ j ∈ is, j < i → (s.breaks j).isUsed → Mapped p.cpu.mem (s.slotAt H p.cpu.ext j)

/-- What holds of the slots that a pass gets to holds of the first one, and of
those that the pass gets to after it. -/
theorem forall_reached_cons {s : SDB} {p : Proc K} {i : Slot} {is : List Slot}
    {P : Slot → Prop} (first : ∀ j ∈ is, i < j) :
    (∀ j ∈ i :: is, Reached H s p (i :: is) j → P j) ↔
      P i ∧ (((s.breaks i).isUsed → Mapped p.cpu.mem (s.slotAt H p.cpu.ext i)) →
        ∀ j ∈ is, Reached H s p is j → P j) := by
  constructor
  · intro h
    refine ⟨h i List.mem_cons_self fun j hj hlt => ?_,
      fun mapped j hj reached => h j (List.mem_cons_of_mem _ hj) fun k hk hlt => ?_⟩
    · rcases List.mem_cons.mp hj with rfl | hj
      · exact absurd hlt (lt_irrefl _)
      · exact absurd (first j hj) (lt_asymm hlt)
    · rcases List.mem_cons.mp hk with rfl | hk
      · exact mapped
      · exact reached k hk hlt
  · rintro ⟨here, rest⟩ j hj reached
    rcases List.mem_cons.mp hj with rfl | hj
    · exact here
    · exact rest (reached i List.mem_cons_self (first j hj)) j hj fun k hk =>
        reached k (List.mem_cons_of_mem _ hk)

/-- Patching changes nothing of what decides which slots a pass gets to. -/
theorem Patched.reached {s : SDB} {p q : Proc K} {v : World K} (h : Patched s p v)
    (hq : v.tracee = some q) {is : List Slot} {i : Slot} :
    Reached H v.sdb q is i ↔ Reached H s p is i := by
  obtain ⟨m, hm, mapped⟩ := h.tracee
  rw [hm] at hq
  cases hq
  simp only [Reached, h.table.isUsed, h.table.slotAt, Proc.setMem_ext, Proc.setMem_mem, mapped]

theorem Patched.standsAt {s : SDB} {p q : Proc K} {v : World K} (h : Patched s p v)
    (hq : v.tracee = some q) {i : Slot} : StandsAt H v.sdb q i ↔ StandsAt H s p i := by
  obtain ⟨m, hm, mapped⟩ := h.tracee
  rw [hm] at hq
  cases hq
  simp only [StandsAt, h.table.isUsed, h.table.slotAt, Proc.setMem_ext, Proc.setMem_mem, mapped,
    Cpu.rip, Proc.setMem_regs]

/-- Without a handle a pass faults at the first slot in use. -/
theorem patchFrom_noHandle {is : List Slot} {w : World K} (heh : w.sdb.eh = none)
    (used : ∃ i ∈ is, (w.sdb.breaks i).isUsed) :
    (patchFrom H env is w).2 = some .nullHandle := by
  induction is with
  | nil =>
      obtain ⟨i, hi, -⟩ := used
      cases hi
  | cons i is ih =>
      by_cases here : (w.sdb.breaks i).isUsed
      · rw [patchFrom, patchSlot, if_neg (not_not.mpr here), slotAddr, heh]
      · have slot := patchSlot_of_unused H env here
        rw [patchFrom_cons H env (by rw [slot]), slot]
        obtain ⟨j, hj, usedj⟩ := used
        rcases List.mem_cons.mp hj with rfl | hj
        · exact absurd usedj here
        · exact ih ⟨j, hj, usedj⟩

/-- A pass has the handle that it needs, and gets to no slot at which the tracee
stands. -/
def PassCalm (H : Host K) (s : SDB) (p : Proc K) : Prop :=
  (s.eh ≠ none ∨ ∀ i, (s.breaks i).isUsed = false) ∧ ∀ i, ¬ StandsAt H s p i

theorem PassCalm.patched {s : SDB} {p q : Proc K} {v : World K} (h : Patched s p v)
    (hq : v.tracee = some q) : PassCalm H v.sdb q ↔ PassCalm H s p := by
  simp only [PassCalm, h.standsAt hq, h.table.eh, h.table.isUsed]

end Sdb
