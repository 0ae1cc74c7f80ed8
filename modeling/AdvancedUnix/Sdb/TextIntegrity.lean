import AdvancedUnix.Sdb.Fragment
import AdvancedUnix.Sdb.Text

/-!
# Text integrity over whole sessions

The text of the tracee stays intact in every session whose commands write back
sound words only, `WordsSound`. The condition is on the words that a slot still
has from before: such a word may hold a trap of a slot that is no longer in
use, or belong to another address, and then it must not be written.
-/

namespace Sdb

open Memory Traced

variable {K : Type}

/-- The words that a command writes back are sound, those apart that its own
pass has saved; a deleted slot leaves no trap behind, and a new breakpoint
finds a free slot. -/
def WordsSound (H : Host K) (env : Env K) : Cmd → World K → Prop
  | .break _, w => w.sdb.isLoaded → (freeSlot w.sdb).isSome
  | .delete index, w =>
    ∀ i : Slot, (i : Int) = index → (w.sdb.breaks i).isUsed → ∀ p, w.live = some p →
      let bp := w.sdb.breaks i
      let writes := ∃ word, w.peek bp.addr = some word ∧ byteOf word 0 = trapByte
      let here := w.sdb.slotAt H p.cpu.ext i
      (writes → SoundWord H w.sdb (· ≠ i) p bp.addr bp.originalWord) ∧
        (p.image.text here → (writes ∧ ∃ k < 8, here = byteAddr bp.addr k) ∨
          p.cpu.mem here = p.image.cpu.mem here ∨
          ∃ j, j ≠ i ∧ (w.sdb.breaks j).isUsed ∧ w.sdb.slotAt H p.cpu.ext j = here)
  | .disasm addrStr, w =>
    (Cmd.passStart env (.disasm addrStr) w).isSome → ∀ p, w.live = some p → ∀ i,
      (w.sdb.breaks i).isUsed → Mapped p.cpu.mem (w.sdb.breaks i).addr →
        SoundWord H w.sdb (fun _ => True) p (w.sdb.breaks i).addr (w.sdb.breaks i).originalWord
  | .cont, w => ∀ u, Cmd.passStart env .cont w = some u → HitSound u
  | .run, w => ∀ u, Cmd.passStart env .run w = some u → HitSound u
  | _, _ => True
where
  /-- The pass begun here saves the word of the slot that is hit, or the word
  that the slot still has then is sound. -/
  HitSound (u : World K) : Prop := ∀ v i, u.hit H env = some (v, i) →
    Patches H env i slots u ∨ ∀ p, v.live = some p →
      SoundWord H v.sdb (fun _ => True) p (v.sdb.slotAt H p.cpu.ext i) (v.sdb.breaks i).originalWord

/-- The command is `load`. -/
def Event.loads : Event K → Bool
  | .command (.load _) _ => true
  | _ => false

/-- `WordsSound` of each command that reaches the prompt. -/
def Event.WordsSound (H : Host K) (r : Result K) : Event K → Prop
  | .command cmd env =>
    match r.ending with
    | .prompt _ => Sdb.WordsSound H env cmd r.world
    | _ => True
  | .killed _ => True

section Commands

variable {H : Host K} {env : Env K} {w : World K}

/-- A word that is sound is written back without harm, and the tracee moved. -/
theorem reportBp_intact (h : w.Holds (Intact H)) {p : Proc K} {i : Slot} {vaddr : Addr}
    (hc : w.current = some (.live .stopped p)) (sound : w.Holds (SavedSound H i))
    (at_ : w.sdb.slotAt H p.cpu.ext i = vaddr) (regs : UserRegs) :
    (reportBp w i vaddr regs).world.Holds (Intact H) := by
  by_cases running : w.sdb.isRunning
  · refine h.reportBp (fun q m hq hr write kept => ?_) fun q hr => hr.setRegs _
    have hqp : q = p := by
      rw [World.tracee_of_current hc] at hq
      exact (Option.some.inj hq).symm
    subst hqp
    have hword := sound.current running hc kept
    rw [at_] at hword
    exact hr.write write hword kept
  · refine .of_dead (World.live_of_not_running ?_)
    rwa [World.reportBp_sdb]

theorem contFrom_intact {status : Nat} (h : w.Holds (Intact H))
    (safe : WordsSound.HitSound H env w) : (contFrom H env status w).world.Holds (Intact H) := by
  have passed := (passInvariant_intact env fun _ => True).sdbPatchAllBp h fun _ _ => trivial
  unfold contFrom
  split
  · rename_i v fault hpass
    rw [hpass] at passed
    exact passed
  · rename_i v hpass
    rw [hpass] at passed
    have resumed := passed.ptraceCont
    have stops : ∀ {sig : Nat} {u : World K}, waitpid H.toPlatform (env.waits (.loop 0)) env.fuel
        v.ptraceCont = .stopped sig u → u.Holds (Intact H) := fun wait =>
      resumed.waitpid_stopped (fun q hq => hq.resume _) wait
    have outcome := waited H env status v.ptraceCont
    generalize waitLoop H env 3 0 status v.ptraceCont = r at outcome ⊢
    cases outcome with
    | failed wait => exact .childEnded _ _
    | busy wait => exact resumed.waitpid_busy (fun q hq => hq.resume _) wait
    | blocked wait => exact resumed
    | exited wait => exact .childEnded _ _
    | fault wait stopped noMatch => exact stops wait
    | again wait stopped noSlot ok => exact stops wait
    | dropped wait stopped noSlot ok => exact .childEnded _ _
    | @hit sig u p i vaddr wait stopped found =>
        obtain ⟨behind, rfl⟩ := matchSlot_found stopped found
        have hhit : w.hit H env = some (u, i) := by
          simp [World.hit, hpass, wait, World.tracee_of_current stopped, behind]
        refine reportBp_intact (stops wait) stopped ?_ (SDB.slotBehind_eq_some behind).2 _
        rcases safe u i hhit with patches | sound
        · have saved := savedSound_of_patches env slots_nodup h patches
          rw [show patchFrom H env slots w = (v, none) from hpass] at saved
          exact saved.ptraceCont.waitpid_stopped (fun q hq => hq.resume _) wait
        · exact fun q hq _ => sound q hq

variable (env) in
/-- A pass at the end of a command, whatever comes after it. -/
theorem sdbPatchAllBp_intact (h : w.Holds (Intact H)) :
    (sdbPatchAllBp H env w).1.Holds (Intact H) :=
  (passInvariant_intact env fun _ => True).sdbPatchAllBp h fun _ _ => trivial

/-- A launched program has its own text. -/
theorem launch_intact : (launch env w).1.Holds (Intact H) := by
  obtain ⟨-, gone⟩ | ⟨pid, c, -, born, world⟩ := launch_cases env w
  · rw [gone]
    exact .of_dead (World.live_setPid_none w)
  · have fresh : ((w.setPid pid).setChild c).Holds (Intact H) := by
      cases born with
      | started exec => exact .setChild fun _ => Intact.load _
      | failed exec => exact .of_dead (by simp [World.live_setChild])
    obtain world | world := world
    · rw [world]
      exact fresh.collect
    · rw [world]
      exact fresh

theorem sdbStart_intact (h : w.Holds (Intact H)) : (sdbStart H env w).world.Holds (Intact H) := by
  unfold sdbStart
  split
  · exact h
  · have fresh : (launch env w).1.Holds (Intact H) := launch_intact
    split
    · rename_i hl
      rwa [hl] at fresh
    · rename_i v _ hl
      rw [hl] at fresh
      have passed : (sdbPatchAllBp H env v).1.Holds (Intact H) := sdbPatchAllBp_intact env fresh
      split <;> rename_i hpass <;> rwa [hpass] at passed

theorem sdbCont_intact (h : w.Holds (Intact H)) (safe : WordsSound H env .cont w) :
    (sdbCont H env w).world.Holds (Intact H) := by
  unfold sdbCont
  split
  · exact h
  · rename_i running
    exact contFrom_intact h (safe w (if_pos (not_not.mp running)))

theorem sdbRun_intact (h : w.Holds (Intact H)) (safe : WordsSound H env .run w) :
    (sdbRun H env w).world.Holds (Intact H) := by
  unfold sdbRun
  simp only [WordsSound, Cmd.passStart] at safe
  split
  · exact h
  · rename_i loaded
    rw [if_pos (not_not.mp loaded)] at safe
    split
    · rename_i running
      have fresh : (launch env w).1.Holds (Intact H) := launch_intact
      split
      · rename_i hl
        rwa [hl] at fresh
      · rename_i v status hl
        rw [hl] at fresh
        exact contFrom_intact fresh (safe v (by rw [if_neg running, launched, hl]))
    · rename_i running
      exact contFrom_intact h (safe w (by rw [if_pos (not_not.mp running)]))

theorem sdbStep_intact (h : w.Holds (Intact H)) : (sdbStep H env w).world.Holds (Intact H) := by
  cases hp : w.tracee with
  | none => rwa [sdbStep_world_of_none hp]
  | some p =>
      by_cases running : w.sdb.isRunning
      · rw [sdbStep_world running hp]
        exact h.stepped hp _ _ Intact.advance
      · simpa [sdbStep, running] using h

/-- A slot that was free allows for more. -/
theorem setBreak_intact (h : w.Holds (Intact H)) {i : Slot} (free : freeSlot w.sdb = some i)
    (bp : Bp) : (w.setBreak i bp).Holds (Intact H) := by
  have unused : (w.sdb.breaks i).isUsed = false := by
    have := List.find?_some free
    simpa using this
  refine h.of_live rfl fun p hr => Intact.grow (s := w.sdb) rfl rfl (fun j used => ?_) hr
  have hj : j ≠ i := by
    rintro rfl
    rw [unused] at used
    cases used
  rw [World.setBreak_breaks, Function.update_of_ne hj]
  exact ⟨used, rfl⟩

theorem sdbSetBreak_intact (h : w.Holds (Intact H)) (addrStr : List Char) :
    (sdbSetBreak H env addrStr w).world.Holds (Intact H) := by
  unfold sdbSetBreak
  split
  · exact h
  · simp only
    cases free : freeSlot w.sdb with
    | none => exact h
    | some i =>
        have set := setBreak_intact h free { w.sdb.breaks i with
          isUsed := true, addr := (hexOperand addrStr env.uninit.tail).getD env.uninit.addr }
        simp only
        split
        · have passed := sdbPatchAllBp_intact env set
          split <;> rename_i hpass <;> rwa [hpass] at passed
        · exact set

theorem setLastDisasmAddr_intact (h : w.Holds (Intact H)) (a : Addr) :
    (w.setLastDisasmAddr a).Holds (Intact H) :=
  h.of_live rfl fun _ hr => hr.sameTable ⟨rfl, rfl, fun _ => rfl, fun _ => rfl⟩

/-- Each saved word may be written at the untranslated address of its slot. -/
def RawSound (H : Host K) (s : SDB) (p : Proc K) : Prop :=
  ∀ i, (s.breaks i).isUsed → Mapped p.cpu.mem (s.breaks i).addr →
    SoundWord H s (fun _ => True) p (s.breaks i).addr (s.breaks i).originalWord

theorem restoreAll_intact {is : List Slot}
    (h : w.Holds fun s p => Intact H s p ∧ RawSound H s p) :
    (restoreAll is w).Holds (Intact H) := by
  induction is generalizing w with
  | nil => exact fun p hp => (h p hp).1
  | cons i is ih =>
      refine ih ?_
      split
      · rename_i used
        refine h.poke _ _ fun p m _ hr write => ?_
        have mapped : Mapped p.cpu.mem (w.sdb.breaks i).addr := by
          by_contra hm
          rw [writeWord_eq_none.mpr hm] at write
          cases write
        refine ⟨hr.1.write write (hr.2 i used mapped), fun j usedj mappedj => ?_⟩
        exact hr.2 j usedj ((mapped_writeWord write).mp mappedj)
      · exact h

theorem disasmLive_intact (addr : Addr) (h : w.Holds (Intact H))
    (sound : w.Holds (RawSound H)) : (disasmLive H env addr w).world.Holds (Intact H) := by
  have restored : (restoreAll slots w).Holds (Intact H) :=
    restoreAll_intact fun p hp => ⟨h p hp, sound p hp⟩
  have passed := sdbPatchAllBp_intact env restored
  unfold disasmLive
  simp only
  split
  · rename_i hpass
    rwa [hpass] at passed
  · rename_i v hpass
    rw [hpass] at passed
    obtain ⟨a, out, he⟩ :=
      printInsns_eq H (peekWords (restoreAll slots w) (addr + 64) 8 addr) addr v
    rw [he]
    exact setLastDisasmAddr_intact passed a

theorem sdbDisasm_intact (addrStr : List Char) (h : w.Holds (Intact H))
    (safe : WordsSound H env (.disasm addrStr) w) :
    (sdbDisasm H env addrStr w).world.Holds (Intact H) := by
  rcases sdbDisasm_cases H env addrStr w with ⟨-, a, he⟩ | ⟨addr, a, -, hstart, he⟩
  · rw [he]
    exact setLastDisasmAddr_intact h a
  · rw [he]
    exact disasmLive_intact addr (setLastDisasmAddr_intact h a) fun p hp =>
      safe (by rw [hstart]; rfl) p hp

/-- After a slot was given up, what the other slots allow for is still allowed. -/
theorem textIntact_unuse {s : SDB} {p : Proc K} {i : Slot} {bp : Bp}
    (h : ∀ a, p.image.text a → p.cpu.mem a = p.image.cpu.mem a ∨ (p.cpu.mem a = some trapByte ∧
      ∃ j, (s.breaks j).isUsed ∧ j ≠ i ∧ s.slotAt H p.cpu.ext j = a)) :
    TextIntact H { s with breaks := Function.update s.breaks i bp } p := by
  intro a ha
  rcases h a ha with own | ⟨trap, j, used, hj, here⟩
  · exact .inl own
  · refine .inr ⟨trap, j, ?_, ?_⟩
    · simpa only [Function.update_of_ne hj] using used
    · simpa only [SDB.slotAt, SDB.runtime, Function.update_of_ne hj] using here

variable (env) in
theorem deleteSlot_intact {i : Slot} (h : w.Holds (Intact H)) (used : (w.sdb.breaks i).isUsed)
    (safe : WordsSound H env (.delete i) w) : (deleteSlot w i).Holds (Intact H) := by
  unfold deleteSlot
  simp only
  by_cases writes : w.peekOrError (w.sdb.breaks i).addr &&& 0xff = 0xcc
  · rw [if_pos writes]
    obtain ⟨word, hword, hlow⟩ := peekOrError_trap_iff.mp writes
    obtain ⟨q, hq, hread⟩ := World.peek_eq_some hword
    obtain ⟨m, hm, he⟩ := World.pokeOrIgnore_eq hq hread (w.sdb.breaks i).originalWord
    rw [he]
    intro p hp
    rw [World.live_setBreak, World.live_setTracee hq] at hp
    split at hp
    · rename_i running
      cases hp
      have live := World.live_of_tracee running hq
      obtain ⟨sound, clean⟩ := safe i rfl used q live
      rw [World.setBreak, World.setTracee_sdb]
      intro kept
      have kept : Kept H w.sdb q := kept
      refine textIntact_unuse fun a ha =>
        textIntact_write hm (sound ⟨word, hword, hlow⟩) (fun b hb outside => ?_) a ha
      rcases h q live kept b hb with own | ⟨trap, j, usedj, hj⟩
      · exact .inl own
      · by_cases hji : j = i
        · subst hji
          rcases clean (hj ▸ hb) with ⟨-, k, hk, hw⟩ | own | ⟨l, hl, usedl, herel⟩
          · exact absurd (hj.symm.trans hw) (outside k hk)
          · exact .inl (by rwa [hj] at own)
          · exact .inr ⟨trap, l, usedl, hl, herel.trans hj⟩
        · exact .inr ⟨trap, j, usedj, hji, hj⟩
    · cases hp
  · rw [if_neg writes]
    intro p hp kept
    obtain ⟨-, clean⟩ := safe i rfl used p hp
    have none : ¬ ∃ word, w.peek (w.sdb.breaks i).addr = some word ∧ byteOf word 0 = trapByte :=
      fun he => writes (peekOrError_trap_iff.mpr he)
    have kept : Kept H w.sdb p := kept
    refine textIntact_unuse fun a ha => ?_
    rcases h p hp kept a ha with own | ⟨trap, j, usedj, hj⟩
    · exact .inl own
    · by_cases hji : j = i
      · subst hji
        rcases clean (hj ▸ ha) with ⟨he, -⟩ | own | ⟨l, hl, usedl, herel⟩
        · exact absurd he none
        · exact .inl (by rwa [hj] at own)
        · exact .inr ⟨trap, l, usedl, hl, herel.trans hj⟩
      · exact .inr ⟨trap, j, usedj, hji, hj⟩

theorem sdbDelete_intact (index : Int) (h : w.Holds (Intact H))
    (safe : WordsSound H env (.delete index) w) :
    (sdbDelete index w).world.Holds (Intact H) := by
  unfold sdbDelete
  split
  · rename_i hindex
    simp only
    split
    · rename_i used
      refine deleteSlot_intact env h used fun j hj => safe j (hj.trans ?_)
      exact Int.toNat_of_nonneg hindex.1
    · exact h
  · exact h

/-- Registers may be set to anything. -/
theorem sdbSet_intact (name : List Char) (val : Word) (h : w.Holds (Intact H)) :
    (sdbSet env name val w).world.Holds (Intact H) := by
  have set := h.setregs (setIfMatched name val (w.getregs.getD env.uninit.regs))
    fun p _ hr => hr.setRegs _
  unfold sdbSet
  split
  · exact h
  · rename_i hset
    rwa [hset] at set

/-- Every command that writes back sound words keeps the text. -/
theorem exec_intact {cmd : Cmd} (h : w.Holds (Intact H)) (safe : WordsSound H env cmd w)
    (same : Event.loads (.command cmd env) = false) :
    (cmd.exec H env w).world.Holds (Intact H) := by
  cases cmd with
  | start => exact sdbStart_intact h
  | run => exact sdbRun_intact h safe
  | cont => exact sdbCont_intact h safe
  | si => exact sdbStep_intact h
  | «break» addrStr => exact sdbSetBreak_intact h addrStr
  | delete index => exact sdbDelete_intact index h safe
  | disasm addrStr => exact sdbDisasm_intact addrStr h safe
  | dump addrStr =>
      rw [Cmd.exec, sdbDump_world]
      exact h
  | list => exact h
  | get name => exact h
  | getregs => exact h
  | vmmap =>
      rw [Cmd.exec, sdbVmmap_world]
      exact h
  | set name val => exact sdbSet_intact name val h
  | load filename => cases same

end Commands

variable {H : Host K}

theorem killWaited_intact (w : World K) : w.killWaited.world.Holds (Intact H) := by
  unfold World.killWaited
  split <;> exact .childEnded _ _

theorem step_intact (r : Result K) (e : Event K) (h : r.world.Holds (Intact H))
    (safe : e.loads = false ∧ e.WordsSound H r) : (step H r e).world.Holds (Intact H) := by
  obtain ⟨same, sound⟩ := safe
  have outcome := stepped H r e
  generalize step H r e = r' at outcome ⊢
  cases outcome with
  | ignored => exact h
  | command prompt =>
      simp only [Event.WordsSound, prompt] at sound
      exact exec_intact h sound same
  | killed => exact h.kill _
  | killWaited => exact killWaited_intact r.world

/-- In every session from a freshly loaded program whose commands write back
sound words only, the text of the live tracee is intact, and it is the
program's own once no slot is in use. -/
theorem session_textIntact {w : World K} (start : JustLoaded w)
    (out : Output) (events : List (Event K)) (same : ∀ e ∈ events, e.loads = false)
    (sound : Runs.AllSteps (step H) (fun r e => e.WordsSound H r) ⟨w, .prompt out⟩ events)
    {p : Proc K} (live : (session H ⟨w, .prompt out⟩ events).world.live = some p)
    (kept : Kept H (session H ⟨w, .prompt out⟩ events).world.sdb p) :
    TextIntact H (session H ⟨w, .prompt out⟩ events).world.sdb p ∧
      ((∀ i, ((session H ⟨w, .prompt out⟩ events).world.sdb.breaks i).isUsed = false) →
        ∀ a, p.image.text a → p.cpu.mem a = p.image.cpu.mem a) := by
  have initial : w.Holds (Intact H) := .of_dead (World.live_of_not_running (by
    simp [SDB.isRunning, start.pid]))
  have intact := Runs.invariant (fun r : Result K => r.world.Holds (Intact H)) step_intact
    initial (sound.and_labels same) p live kept
  refine ⟨intact, fun unused a ha => ?_⟩
  rcases intact a ha with own | ⟨-, i, used, -⟩
  · exact own
  · rw [unused i] at used
    cases used

namespace Fragment

theorem kept (sdb : SDB) (p : Proc Maps) : Kept host sdb p := by
  intro c _
  obtain ⟨mem, ext⟩ := next_frame c
  exact ⟨fun a _ => by rw [mem], fun a => by rw [ext]⟩

/-- A breakpoint is hit and deleted. -/
def hitAndDeleted : List (Event Maps) :=
  [.break "0x400002".toList, .run, .delete 0].map (cmd nops 64)

theorem hitAndDeleted_textIntact :
    ∃ p, (session host loaded hitAndDeleted).world.live = some p ∧
      TextIntact host (session host loaded hitAndDeleted).world.sdb p ∧
      ∀ a, p.image.text a → p.cpu.mem a = p.image.cpu.mem a := by
  have sound : Runs.AllSteps (step host) (fun r e => e.WordsSound host r) loaded
      hitAndDeleted := by
    refine ⟨fun _ => by decide, fun u hu v i hhit => ?_, fun i hi _ p hp => ?_, trivial⟩
    · cases hu
      obtain ⟨rfl, rfl⟩ := Prod.mk.inj (Option.some.inj hhit)
      exact .inl (.inl ⟨rfl, rfl, _, _, rfl, rfl, by decide⟩)
    · obtain rfl : i = ⟨0, by decide⟩ := Fin.ext (Int.ofNat.inj hi)
      cases hp
      refine ⟨fun _ k hk _ => .inl ?_, fun _ => .inr (.inl rfl)⟩
      interval_cases k <;> decide
  have h := session_textIntact loaded_justLoaded .silent hitAndDeleted (by decide) sound rfl
    (kept _ _)
  exact ⟨_, rfl, h.1, h.2 (by decide)⟩

/-- The higher one of two overlapping breakpoints is in the lower slot: the word
saved for the other one holds its trap. -/
def overlapping : List (Event Maps) :=
  [.break "0x400002".toList, .break "0x400001".toList, .start, .delete 0, .delete 1].map
    (cmd nops 64)

/-- Both breakpoints are deleted, and a trap is left in the text. -/
theorem overlapping_text :
    ∃ p, (session host loaded overlapping).world.live = some p ∧
      Kept host (session host loaded overlapping).world.sdb p ∧
      (∀ i, ((session host loaded overlapping).world.sdb.breaks i).isUsed = false) ∧
      ¬ TextIntact host (session host loaded overlapping).world.sdb p := by
  refine ⟨_, rfl, kept _ _, by decide, fun intact => ?_⟩
  have inText : (0x400002 - 0x400000 : Addr).toNat < 16 := by decide
  rcases intact 0x400002 inText with own | ⟨-, i, used, -⟩
  · revert own
    decide
  · revert used i
    decide

end Fragment

end Sdb
