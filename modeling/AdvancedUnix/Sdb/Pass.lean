import AdvancedUnix.Sdb.Patch

/-!
# What the pass does

`patchAt_cases` says once what the pass can do at one slot; the lemmas about
whole passes follow from it by induction over the slots. `passSteps` lists the
processor states that the pass executes an instruction in, `Patches` says which
slots get their word saved, and `PassInvariant` is the rule for whole passes:
it lets an invariant use a condition on the states that are stepped from.
-/

namespace Sdb

open Memory Traced

variable {K : Type} (H : Host K) (env : Env K)

theorem peekOrError_trap_iff {w : World K} {a : Addr} :
    w.peekOrError a &&& 0xff = 0xcc ↔ ∃ word, w.peek a = some word ∧ byteOf word 0 = trapByte := by
  have low : ∀ word : Word, word &&& 0xff = 0xcc ↔ byteOf word 0 = trapByte :=
    fun word => low_byte_eq_iff word trapByte
  rw [low, World.peekOrError]
  cases h : w.peek a with
  | some word => simp
  | none =>
      have : byteOf (-1) 0 ≠ trapByte := by decide
      simpa using this

theorem trapWord_eq (word : Word) :
    trapWord word = (word &&& 0xffffffffffffff00) ||| trapByte.setWidth 64 := rfl

/-- The record of the child whose identifier the debugger holds. -/
def World.record (w : World K) : Option (Proc K) := w.current.bind Child.record

theorem World.record_of_tracee {w : World K} {p : Proc K} (h : w.tracee = some p) :
    w.record = some p := by
  obtain ⟨state, hc⟩ := tracee_live h
  simp [record, hc, Child.record]

@[simp] theorem World.record_setBreak (w : World K) (i : Slot) (bp : Bp) :
    (w.setBreak i bp).record = w.record := rfl

@[simp] theorem World.record_collect (w : World K) : w.collect.record = w.record := by
  unfold collect
  split
  · rename_i hc
    simp [record, current_setChild, hc, Child.record]
  · rename_i hc
    simp [record, current_setChild, hc, Child.record]
  · rfl

@[simp] theorem World.record_ptraceCont (w : World K) : w.ptraceCont.record = w.record := by
  unfold ptraceCont
  split
  · rename_i p hp
    rw [record_of_tracee hp, record, current_setChild]
    rfl
  · rfl

theorem World.record_setTracee {w : World K} {p : Proc K} (h : w.tracee = some p) (q : Proc K) :
    (w.setTracee q).record = some q :=
  record_of_tracee (tracee_setTracee h q)

@[simp] theorem stepOver_sdb (i : Slot) (a : Addr) (w : World K) :
    (stepOver H env i a w).sdb = w.sdb := by
  unfold stepOver
  simp only
  split
  · exact World.stepAndWait_sdb _ _ _
  · rfl

/-- A tracee is stepped exactly when it stands at the address. -/
theorem stepOver_eq {i : Slot} {a : Addr} {w : World K} {p : Proc K} (h : w.tracee = some p) :
    stepOver H env i a w =
      if p.cpu.rip = a then w.setChild (Child.stepped H.toPlatform (env.waits (.slot i)) p)
      else w := by
  simp only [stepOver, World.getregs_eq h, Option.getD_some]
  split
  · exact World.stepAndWait_eq _ _ h
  · rfl

/-- Without a tracee at most a zombie is collected. -/
theorem stepOver_eq_of_none {i : Slot} {a : Addr} {w : World K} (h : w.tracee = none) :
    stepOver H env i a w = w ∨ stepOver H env i a w = w.collect := by
  simp only [stepOver]
  split
  · rw [World.stepAndWait_eq_of_none _ _ h]
    split
    · exact .inr rfl
    · exact .inl rfl
  · exact .inl rfl

/-- One round of the pass after the step: the byte already is a trap, the word
is saved and its low byte replaced, or the word cannot be read and the pass ends. -/
theorem patchAt_cases (i : Slot) (a : Addr) (w : World K) :
    (∃ word, (stepOver H env i a w).peek a = some word ∧ byteOf word 0 = trapByte ∧
        patchAt H env i a w = (stepOver H env i a w, .next)) ∨
      (∃ p word, (stepOver H env i a w).tracee = some p ∧ readWord p.cpu.mem a = some word ∧
        byteOf word 0 ≠ trapByte ∧
        patchAt H env i a w =
          (((stepOver H env i a w).setBreak i
              { (w.sdb.breaks i) with originalWord := word }).setTracee
            (p.setMem (Function.update p.cpu.mem a (some trapByte))), .next)) ∨
      ((stepOver H env i a w).peek a = none ∧
        patchAt H env i a w =
          ((stepOver H env i a w).setBreak i { (w.sdb.breaks i) with originalWord := -1 },
            .return)) := by
  generalize hw : stepOver H env i a w = v
  have hbreaks : v.sdb.breaks = w.sdb.breaks := by rw [← hw, stepOver_sdb]
  unfold patchAt
  simp only [hw]
  by_cases htrap : v.peekOrError a &&& 0xff = 0xcc
  · obtain ⟨word, hword, hlow⟩ := peekOrError_trap_iff.mp htrap
    exact .inl ⟨word, hword, hlow, by rw [if_pos htrap]⟩
  · rw [if_neg htrap, hbreaks]
    refine .inr ?_
    cases hp : v.tracee with
    | none =>
        refine .inr ⟨by rw [World.peek, hp, Option.bind_none], ?_⟩
        simp [World.peekOrError, World.peek, World.poke, hp]
    | some p =>
        have hpeek := World.peek_eq hp a
        have hpoke : ∀ u, (v.setBreak i u).poke a = fun word =>
            (writeWord p.cpu.mem a word).map fun mem => (v.setBreak i u).setTracee (p.setMem mem) :=
          fun u => funext fun word => World.poke_eq (w := v.setBreak i u) hp a word
        cases hword : readWord p.cpu.mem a with
        | none =>
            refine .inr ⟨hpeek.trans hword, ?_⟩
            simp [World.peekOrError, hpeek, hword, hpoke,
              writeWord_eq_none.mpr (readWord_eq_none.mp hword)]
        | some word =>
            have hval : v.peekOrError a = word := by
              simp [World.peekOrError, hpeek, hword]
            have hlow : byteOf word 0 ≠ trapByte := fun he =>
              htrap (peekOrError_trap_iff.mpr ⟨word, hpeek.trans hword, he⟩)
            have mapped : Mapped p.cpu.mem a := readWord_isSome.mp (by simp [hword])
            obtain ⟨mem, hmem⟩ : ∃ mem, writeWord p.cpu.mem a (trapWord word) = some mem :=
              Option.ne_none_iff_exists'.mp fun hn => writeWord_eq_none.mp hn mapped
            have hupdate := writeWord_replace_low hword (trapWord_eq word ▸ hmem)
            refine .inl ⟨p, word, rfl, hword, hlow, ?_⟩
            simp [hval, hpoke, hmem, hupdate]

/-- The states that the pass executes an instruction in at one slot. -/
def slotSteps (i : Slot) (w : World K) : List (Cpu K) :=
  if ¬ (w.sdb.breaks i).isUsed then []
  else
    match slotAddr H env.uninit w i, w.tracee with
    | .ok a, some p => if p.cpu.rip = a then [p.cpu] else []
    | _, _ => []

/-- The states that the pass executes an instruction in, the first one first. -/
def stepsFrom : List Slot → World K → List (Cpu K)
  | [], _ => []
  | i :: slots, w =>
    slotSteps H env i w ++
      match patchSlot H env i w with
      | (w, .next) => stepsFrom slots w
      | _ => []

/-- The states that a whole pass single-steps the tracee in. -/
def passSteps (w : World K) : List (Cpu K) := stepsFrom H env slots w

/-- At this slot the pass saves the word and puts a trap in its place. -/
def Saves (i : Slot) (w : World K) : Prop :=
  (w.sdb.breaks i).isUsed ∧ ∃ a word, slotAddr H env.uninit w i = .ok a ∧
    (stepOver H env i a w).peek a = some word ∧ byteOf word 0 ≠ trapByte

/-- The pass over these slots saves the word of slot `i`. -/
def Patches (i : Slot) : List Slot → World K → Prop
  | [], _ => False
  | j :: slots, w =>
    (j = i ∧ Saves H env j w) ∨
      ((patchSlot H env j w).2 = .next ∧ Patches i slots (patchSlot H env j w).1)

theorem patchSlot_of_unused {i : Slot} {w : World K} (h : ¬ (w.sdb.breaks i).isUsed) :
    patchSlot H env i w = (w, .next) := by
  rw [patchSlot, if_pos h]

theorem patchSlot_of_used {i : Slot} {w : World K} {a : Addr} (h : (w.sdb.breaks i).isUsed)
    (ha : slotAddr H env.uninit w i = .ok a) : patchSlot H env i w = patchAt H env i a w := by
  rw [patchSlot, if_neg (not_not.mpr h), ha]

theorem slotSteps_of_used {i : Slot} {w : World K} {a : Addr} {p : Proc K}
    (h : (w.sdb.breaks i).isUsed) (ha : slotAddr H env.uninit w i = .ok a)
    (hp : w.tracee = some p) : slotSteps H env i w = if p.cpu.rip = a then [p.cpu] else [] := by
  rw [slotSteps, if_neg (not_not.mpr h), ha, hp]

theorem slotAddr_ok {H : Host K} {u : Uninit} {w : World K} {p : Proc K} {i : Slot} {a : Addr}
    (hp : w.tracee = some p) (ha : slotAddr H u w i = .ok a) : a = w.sdb.slotAt H p.cpu.ext i := by
  obtain ⟨state, hc⟩ := World.tracee_live hp
  cases heh : w.sdb.eh with
  | none =>
      rw [slotAddr, heh] at ha
      cases ha
  | some eh =>
      rw [slotAddr_eq H u hc heh i] at ha
      exact (Except.ok.inj ha).symm

/-- A pass looks at the surroundings for its own `waitpid` calls and for two
variables that it reads unset. -/
theorem patchFrom_congr {env env' : Env K} (waits : env'.waits = env.waits)
    (regs : env'.uninit.regs = env.uninit.regs) (base : env'.uninit.base = env.uninit.base)
    (is : List Slot) (w : World K) : patchFrom H env' is w = patchFrom H env is w := by
  have addr : ∀ i w, slotAddr H env'.uninit w i = slotAddr H env.uninit w i := by
    intro i w
    simp only [slotAddr, convertDynamicAddr, base]
  have past : ∀ i a w, stepOver H env' i a w = stepOver H env i a w := by
    intro i a w
    simp only [stepOver, waits, regs]
  have slot : ∀ i w, patchSlot H env' i w = patchSlot H env i w := by
    intro i w
    unfold patchSlot patchAt
    rw [addr]
    simp only [past]
  induction is generalizing w with
  | nil => rfl
  | cons i is ih => simp only [patchFrom, slot, ih]

theorem patchFrom_cons {i : Slot} {is : List Slot} {w : World K}
    (next : (patchSlot H env i w).2 = .next) :
    patchFrom H env (i :: is) w = patchFrom H env is (patchSlot H env i w).1 := by
  rw [patchFrom]
  split
  · rename_i he
    rw [he]
  · rename_i he
    rw [he] at next
    cases next
  · rename_i he
    rw [he] at next
    cases next

/-- With no slot in use a pass does nothing. -/
theorem patchFrom_unused {H : Host K} {env : Env K} {is : List Slot} {w : World K}
    (unused : ∀ i ∈ is, (w.sdb.breaks i).isUsed = false) : patchFrom H env is w = (w, none) := by
  induction is with
  | nil => rfl
  | cons i is ih =>
      have here := unused i List.mem_cons_self
      have slot := patchSlot_of_unused H env (i := i) (w := w) (by simp [here])
      rw [patchFrom_cons H env (by rw [slot]), slot]
      exact ih fun j hj => unused j (List.mem_cons_of_mem _ hj)

/-- The translated address belongs to the state before the step over it. -/
theorem stepOver_slotAt {i : Slot} {a : Addr} {w : World K} {p : Proc K}
    (ha : slotAddr H env.uninit w i = .ok a) (hp : (stepOver H env i a w).tracee = some p) :
    a = w.sdb.slotAt H p.cpu.ext i ∨
      ∃ q : Proc K, p = q.advance H.toPlatform ∧ a = w.sdb.slotAt H q.cpu.ext i := by
  cases hw : w.tracee with
  | none =>
      rcases stepOver_eq_of_none H env (i := i) (a := a) hw with he | he <;> rw [he] at hp
      · rw [hw] at hp
        cases hp
      · rw [World.tracee_collect hw] at hp
        cases hp
  | some q =>
      have hq := slotAddr_ok hw ha
      rw [stepOver_eq H env hw] at hp
      split at hp
      · refine .inr ⟨q, ?_, hq⟩
        have := World.record_of_tracee hp
        simpa [World.record] using this.symm
      · rw [hw] at hp
        cases hp
        exact .inl hq

section Induction

variable {H env} {S : Slot → Prop} {Q : Cpu K → Prop} {motive : World K → Prop}

/-- A property of the world that survives the four things a pass does survives
the pass. It visits slots in `S`, and the single steps are taken in states that
satisfy `Q`. -/
structure PassInvariant (H : Host K) (env : Env K) (S : Slot → Prop) (Q : Cpu K → Prop)
    (motive : World K → Prop) : Prop where
  step : ∀ w p i, motive w → S i → w.tracee = some p → (w.sdb.breaks i).isUsed →
    w.sdb.slotAt H p.cpu.ext i = p.cpu.rip → Q p.cpu →
    motive (w.setChild (Child.stepped H.toPlatform (env.waits (.slot i)) p))
  collect : ∀ w, motive w → w.tracee = none → motive w.collect
  patch : ∀ w p i a word, motive w → S i → w.tracee = some p → (w.sdb.breaks i).isUsed →
    (a = w.sdb.slotAt H p.cpu.ext i ∨
      ∃ q : Proc K, p = q.advance H.toPlatform ∧ a = w.sdb.slotAt H q.cpu.ext i) →
    readWord p.cpu.mem a = some word → byteOf word 0 ≠ trapByte →
    motive ((w.setBreak i { (w.sdb.breaks i) with originalWord := word }).setTracee
      (p.setMem (Function.update p.cpu.mem a (some trapByte))))
  giveUp : ∀ w i, motive w → S i → (w.sdb.breaks i).isUsed →
    motive (w.setBreak i { (w.sdb.breaks i) with originalWord := -1 })

theorem PassInvariant.stepOver (inv : PassInvariant H env S Q motive) {i : Slot} {w : World K}
    {a : Addr} (h : motive w) (hi : S i) (used : (w.sdb.breaks i).isUsed)
    (ha : slotAddr H env.uninit w i = .ok a) (hQ : ∀ c ∈ slotSteps H env i w, Q c) :
    motive (stepOver H env i a w) := by
  cases hp : w.tracee with
  | none =>
      rcases stepOver_eq_of_none H env (i := i) (a := a) hp with he | he <;> rw [he]
      · exact h
      · exact inv.collect w h hp
  | some p =>
      rw [stepOver_eq H env hp]
      rw [slotSteps_of_used H env used ha hp] at hQ
      split
      · rename_i hrip
        rw [if_pos hrip] at hQ
        exact inv.step w p i h hi hp used ((slotAddr_ok hp ha).symm.trans hrip.symm)
          (hQ _ (List.mem_singleton_self _))
      · exact h

theorem PassInvariant.patchSlot (inv : PassInvariant H env S Q motive) {i : Slot} {w : World K}
    (h : motive w) (hi : S i) (hQ : ∀ c ∈ slotSteps H env i w, Q c) :
    motive (patchSlot H env i w).1 := by
  by_cases used : (w.sdb.breaks i).isUsed
  · cases ha : slotAddr H env.uninit w i with
    | error fault =>
        rw [Sdb.patchSlot, if_neg (not_not.mpr used), ha]
        exact h
    | ok a =>
        rw [patchSlot_of_used H env used ha]
        have past := inv.stepOver h hi used ha hQ
        have hsdb := stepOver_sdb H env i a w
        have used' : ((Sdb.stepOver H env i a w).sdb.breaks i).isUsed := by rw [hsdb]; exact used
        rcases patchAt_cases H env i a w with
          ⟨word, _, _, he⟩ | ⟨p, word, hp, hread, hlow, he⟩ | ⟨_, he⟩ <;> rw [he]
        · exact past
        · have patched :=
            inv.patch (Sdb.stepOver H env i a w) p i a word past hi hp used' ?_ hread hlow
          · rwa [hsdb] at patched
          · rw [hsdb]
            exact stepOver_slotAt H env ha hp
        · have := inv.giveUp _ i past hi used'
          rwa [hsdb] at this
  · rw [patchSlot_of_unused H env used]
    exact h

theorem PassInvariant.patchFrom (inv : PassInvariant H env S Q motive) {is : List Slot}
    {w : World K} (h : motive w) (his : ∀ i ∈ is, S i)
    (hQ : ∀ c ∈ stepsFrom H env is w, Q c) :
    motive (patchFrom H env is w).1 := by
  induction is generalizing w with
  | nil => exact h
  | cons i is ih =>
      simp only [stepsFrom, List.mem_append] at hQ
      have one := inv.patchSlot h (his i List.mem_cons_self) fun c hc => hQ c (.inl hc)
      unfold Sdb.patchFrom
      cases hres : Sdb.patchSlot H env i w with
      | mk v go =>
          rw [hres] at one
          cases go with
          | next =>
              exact ih one (fun j hj => his j (List.mem_cons_of_mem _ hj)) fun c hc =>
                hQ c (.inr (by rw [hres]; exact hc))
          | «return» => exact one
          | fault fault => exact one

theorem PassInvariant.sdbPatchAllBp (inv : PassInvariant H env (fun _ => True) Q motive)
    {w : World K} (h : motive w) (hQ : ∀ c ∈ passSteps H env w, Q c) :
    motive (sdbPatchAllBp H env w).1 :=
  inv.patchFrom h (fun _ _ => trivial) hQ

end Induction

theorem pass_pid (w : World K) : (sdbPatchAllBp H env w).1.sdb.pid = w.sdb.pid := by
  have inv : PassInvariant H env (fun _ => True) (fun _ => True)
      (fun v => v.sdb.pid = w.sdb.pid) := by
    refine ⟨fun v p i h _ _ _ _ _ => h, fun v h _ => ?_, ?_, fun v i h _ _ => h⟩
    · rwa [World.collect_sdb]
    · intro v p i a word h _ _ _ _ _ _
      rwa [World.setTracee_sdb, World.setBreak_pid]
  exact inv.sdbPatchAllBp rfl fun _ _ => trivial

end Sdb
