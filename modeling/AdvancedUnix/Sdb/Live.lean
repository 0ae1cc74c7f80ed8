import AdvancedUnix.Sdb.Pass
import AdvancedUnix.Sdb.Outcome

/-!
# What holds of the live tracee

`World.Holds R` says that the debugger and the child it takes for its running
program are related by `R`, if that child is alive. The lemmas follow the
requests: each one needs only what the request does to the process or to the
table.
-/

namespace Sdb

open Memory Traced

variable {K : Type}

def World.Holds (R : SDB → Proc K → Prop) (w : World K) : Prop :=
  ∀ p, w.live = some p → R w.sdb p

/-- Another saved word in a slot. -/
def SDB.setWord (s : SDB) (i : Slot) (word : Word) : SDB :=
  { s with breaks := Function.update s.breaks i { s.breaks i with originalWord := word } }

theorem SDB.sameTable_setWord (s : SDB) (i : Slot) (word : Word) :
    s.SameTable (s.setWord i word) := by
  refine ⟨rfl, rfl, fun j => ?_, fun j => ?_⟩ <;>
  · by_cases hj : j = i
    · subst hj
      simp [SDB.setWord]
    · simp [SDB.setWord, hj]

@[simp] theorem SDB.setWord_self (s : SDB) (i : Slot) (word : Word) :
    ((s.setWord i word).breaks i).originalWord = word := by simp [SDB.setWord]

theorem SDB.setWord_ne (s : SDB) {i j : Slot} (word : Word) (h : j ≠ i) :
    (s.setWord i word).breaks j = s.breaks j := Function.update_of_ne h _ _

namespace World

variable {R : SDB → Proc K → Prop} {w : World K} {p : Proc K}

theorem live_setChild (w : World K) (c : Child K) :
    (w.setChild c).live =
      if w.sdb.isRunning then (match c with | .live _ p => some p | _ => none) else none := by
  simp only [live, setChild_sdb, current_setChild]
  cases c <;> rfl

theorem live_of_not_running (h : ¬ w.sdb.isRunning) : w.live = none := by
  rw [live, if_neg h]

theorem live_setPid_none (w : World K) : (w.setPid (-1)).live = none :=
  live_of_not_running (by simp [SDB.isRunning, setPid])

/-- Collecting makes no difference to whether the tracee is alive. -/
@[simp] theorem live_collect (w : World K) : w.collect.live = w.live := by
  unfold collect
  split
  · rename_i hc
    simp [live, hc]
  · rename_i hc
    simp [live, hc]
  · rfl

@[simp] theorem live_ptraceCont (w : World K) : w.ptraceCont.live = w.live := by
  unfold ptraceCont
  split
  · rename_i p hp
    obtain ⟨state, hc⟩ := tracee_live hp
    simp [live, hc]
  · rfl

@[simp] theorem live_setBreak (w : World K) (i : Slot) (bp : Bp) :
    (w.setBreak i bp).live = w.live := rfl

@[simp] theorem live_setLastDisasmAddr (w : World K) (a : Addr) :
    (w.setLastDisasmAddr a).live = w.live := rfl

theorem live_setTracee (hp : w.tracee = some p) (q : Proc K) :
    (w.setTracee q).live = if w.sdb.isRunning then some q else none := by
  obtain ⟨state, hc⟩ := current_setTracee hp q
  simp only [live, setTracee_sdb, hc]

theorem Holds.of_dead (h : w.live = none) : w.Holds R := by
  intro p hp
  rw [h] at hp
  cases hp

/-- A change of the debugger alone. -/
theorem Holds.of_live {v : World K} (h : w.Holds R) (live : v.live = w.live)
    (imp : ∀ p, R w.sdb p → R v.sdb p) : v.Holds R := by
  intro p hp
  exact imp p (h p (live ▸ hp))

theorem Holds.tracee (h : w.Holds R) (running : w.sdb.isRunning) (hp : w.tracee = some p) :
    R w.sdb p := h p (live_of_tracee running hp)

theorem Holds.current (h : w.Holds R) (running : w.sdb.isRunning) {state : RunState}
    (hc : w.current = some (.live state p)) : R w.sdb p :=
  h p (live_eq_some_iff.mpr ⟨running, state, hc⟩)

theorem Holds.setChild {state : RunState} (h : w.sdb.isRunning → R w.sdb p) :
    (w.setChild (.live state p)).Holds R := by
  intro q hq
  rw [live_setChild] at hq
  split at hq
  · rename_i running
    cases hq
    exact h running
  · cases hq

theorem Holds.setChild_reaped (w : World K) (p : Option (Proc K)) :
    (w.setChild (.reaped p)).Holds R :=
  .of_dead (by simp [live_setChild])

theorem Holds.stepped (h : w.Holds R) (hp : w.tracee = some p) (P : Platform K) (ok : Bool)
    (imp : R w.sdb p → R w.sdb (p.advance P)) :
    (w.setChild (Child.stepped P ok p)).Holds R := by
  unfold Child.stepped
  split
  · exact .setChild fun running => imp (h.tracee running hp)
  · exact .setChild fun running => imp (h.tracee running hp)
  · refine .of_dead ?_
    cases ok <;> simp [live_setChild]

theorem Holds.setTracee (h : w.Holds R) (hp : w.tracee = some p) {q : Proc K}
    (imp : R w.sdb p → R w.sdb q) : (w.setTracee q).Holds R := by
  intro r hr
  rw [live_setTracee hp] at hr
  split at hr
  · rename_i running
    cases hr
    rw [setTracee_sdb]
    exact imp (h.tracee running hp)
  · cases hr

theorem Holds.collect (h : w.Holds R) : w.collect.Holds R :=
  h.of_live (live_collect w) fun p hp => by rwa [collect_sdb]

theorem Holds.ptraceCont (h : w.Holds R) : w.ptraceCont.Holds R :=
  h.of_live (live_ptraceCont w) fun p hp => by rwa [ptraceCont_sdb]

theorem Holds.poke (h : w.Holds R) (a : Addr) (word : Word)
    (imp : ∀ p m, w.tracee = some p → R w.sdb p → writeWord p.cpu.mem a word = some m →
      R w.sdb (p.setMem m)) : (w.pokeOrIgnore a word).Holds R := by
  unfold pokeOrIgnore
  cases hp : w.tracee with
  | none => simpa [World.poke, hp] using h
  | some p =>
      rw [poke_eq hp]
      cases hm : writeWord p.cpu.mem a word with
      | none => exact h
      | some m => exact h.setTracee hp fun hr => imp p m hp hr hm

theorem Holds.setregs (h : w.Holds R) (regs : UserRegs) (imp : ∀ p, w.tracee = some p →
    R w.sdb p → R w.sdb (p.setRegs regs)) : ((w.setregs regs).getD w).Holds R := by
  cases hp : w.tracee with
  | none => simpa [World.setregs, hp] using h
  | some p =>
      rw [setregs_eq hp]
      exact h.setTracee hp (imp p hp)

@[simp] theorem pokeOrIgnore_sdb (w : World K) (a : Addr) (word : Word) :
    (w.pokeOrIgnore a word).sdb = w.sdb := by
  unfold pokeOrIgnore
  cases hp : w.tracee with
  | none => simp [World.poke, hp]
  | some p =>
      rw [poke_eq hp]
      cases writeWord p.cpu.mem a word with
      | none => rfl
      | some m => exact setTracee_sdb w _

/-- What every executed instruction keeps holds at the stop that is reported. -/
theorem Holds.waitpid_stopped {P : Platform K} {ok : Bool} {fuel sig : Nat} {v : World K}
    (h : w.Holds R) (resume : ∀ q, R w.sdb q → R w.sdb (q.resume P fuel).1)
    (wait : waitpid P ok fuel w = .stopped sig v) : v.Holds R := by
  obtain ⟨p, rfl, hc | ⟨q, hc, hres⟩⟩ := Sdb.waitpid_stopped wait
  · exact .setChild fun running => h.current running hc
  · refine .setChild fun running => ?_
    have := resume q (h.current running hc)
    rwa [hres] at this

theorem Holds.waitpid_busy {P : Platform K} {ok : Bool} {fuel : Nat} {v : World K}
    (h : w.Holds R) (resume : ∀ q, R w.sdb q → R w.sdb (q.resume P fuel).1)
    (wait : waitpid P ok fuel w = .busy v) : v.Holds R := by
  obtain ⟨q, hc, -, rfl⟩ := Sdb.waitpid_busy wait
  exact .setChild fun running => resume q (h.current running hc)

theorem Holds.childEnded (w : World K) (status : Nat) : (childEnded status w).world.Holds R :=
  .of_dead (live_setPid_none w)

/-- A report writes the saved word and moves the instruction pointer. -/
theorem Holds.reportBp (h : w.Holds R) {i : Slot} {vaddr : Addr} {regs : UserRegs}
    (poke : ∀ p m, w.tracee = some p → R w.sdb p →
      writeWord p.cpu.mem vaddr (w.sdb.breaks i).originalWord = some m → R w.sdb (p.setMem m))
    (setregs : ∀ p, R w.sdb p → R w.sdb (p.setRegs { regs with rip := regs.rip - 1 })) :
    (Sdb.reportBp w i vaddr regs).world.Holds R := by
  unfold Sdb.reportBp
  refine (h.poke vaddr _ poke).setregs _ fun p _ hr => ?_
  rw [pokeOrIgnore_sdb] at hr ⊢
  exact setregs p hr

@[simp] theorem setregs_sdb (w : World K) (regs : UserRegs) :
    ((w.setregs regs).getD w).sdb = w.sdb := by
  cases hp : w.tracee with
  | none => simp [World.setregs, hp]
  | some p => rw [setregs_eq hp, Option.getD_some, setTracee_sdb]

@[simp] theorem reportBp_sdb (w : World K) (i : Slot) (vaddr : Addr) (regs : UserRegs) :
    (reportBp w i vaddr regs).world.sdb = w.sdb := by
  simp [reportBp]

/-- A process that is killed, or another one, leaves what holds of the tracee. -/
theorem Holds.kill (h : w.Holds R) (pid : Pid) : (w.kill pid).Holds R := by
  intro p hp
  unfold World.kill at hp ⊢
  split at hp
  · rename_i state q hq
    refine h p ?_
    simp only [live_eq_some_iff, World.current] at hp ⊢
    refine ⟨hp.1, ?_⟩
    obtain ⟨st, hst⟩ := hp.2
    by_cases hpid : w.sdb.pid = pid
    · subst hpid
      simp at hst
    · exact ⟨st, by rwa [Function.update_of_ne hpid] at hst⟩
  · exact h p hp

end World

/-- A report replaces the process of the tracee: the saved word is written if its
place is mapped, and the instruction pointer moves back by one. -/
theorem reportBp_world {w : World K} {p : Proc K} (hc : w.current = some (.live .stopped p))
    (i : Slot) (vaddr : Addr) :
    ∃ m, (reportBp w i vaddr p.cpu.regs).world = w.setTracee
        ((p.setMem m).setRegs { p.cpu.regs with rip := p.cpu.regs.rip - 1 }) ∧
      (m = p.cpu.mem ∨ writeWord p.cpu.mem vaddr (w.sdb.breaks i).originalWord = some m) := by
  have hp := World.tracee_of_current hc
  unfold reportBp
  simp only [World.pokeOrIgnore, World.poke_eq hp]
  cases write : writeWord p.cpu.mem vaddr (w.sdb.breaks i).originalWord with
  | none =>
      refine ⟨p.cpu.mem, ?_, .inl rfl⟩
      rw [Option.map_none, Option.getD_none, World.setregs_eq hp, Option.getD_some]
      rfl
  | some m =>
      refine ⟨m, ?_, .inr rfl⟩
      have poked := World.tracee_setTracee hp (p.setMem m)
      rw [Option.map_some, Option.getD_some, World.setregs_eq poked, Option.getD_some]
      simp only [World.setTracee, hc, World.current_setChild, World.setChild_setChild]

/-- The rule for a pass, for a relation between the table and the tracee. -/
theorem passInvariant_holds {H : Host K} {env : Env K} {S : Slot → Prop} {Q : Cpu K → Prop}
    {R : SDB → Proc K → Prop}
    (step : ∀ s p i, R s p → S i → (s.breaks i).isUsed → s.slotAt H p.cpu.ext i = p.cpu.rip →
      Q p.cpu → R s (p.advance H.toPlatform))
    (patch : ∀ s p i a word, R s p → S i → (s.breaks i).isUsed →
      (a = s.slotAt H p.cpu.ext i ∨
        ∃ q : Proc K, p = q.advance H.toPlatform ∧ a = s.slotAt H q.cpu.ext i) →
      readWord p.cpu.mem a = some word → byteOf word 0 ≠ trapByte →
      R (s.setWord i word) (p.setMem (Function.update p.cpu.mem a (some trapByte))))
    (giveUp : ∀ s p i, R s p → S i → (s.breaks i).isUsed → R (s.setWord i (-1)) p) :
    PassInvariant H env S Q (World.Holds R) where
  step w p i h hi hp used at_ hq :=
    h.stepped hp _ _ fun hr => step w.sdb p i hr hi used at_ hq
  collect w h _ := h.collect
  patch w p i a word h hi hp used at_ hread hlow := by
    intro q hq
    have hp' : (w.setBreak i { (w.sdb.breaks i) with originalWord := word }).tracee = some p := hp
    rw [World.live_setTracee hp'] at hq
    split at hq
    · rename_i running
      cases hq
      rw [World.setTracee_sdb]
      exact patch w.sdb p i a word (h.tracee running hp) hi used at_ hread hlow
    · cases hq
  giveUp w i h hi used := h.of_live rfl fun p hr => giveUp w.sdb p i hr hi used

/-- A pass keeps the table, the saved words apart. -/
theorem passInvariant_sameTable {H : Host K} {env : Env K} {S : Slot → Prop} (s : SDB) :
    PassInvariant H env S (fun _ => True) (fun v => s.SameTable v.sdb) := by
  refine ⟨fun v p i h _ _ _ _ _ => h, fun v h _ => by rwa [World.collect_sdb], ?_,
    fun v i h _ _ => h.trans (v.sdb.sameTable_setWord i _)⟩
  intro v p i a word h _ _ _ _ _ _
  rw [World.setTracee_sdb]
  exact h.trans (v.sdb.sameTable_setWord i word)

end Sdb
