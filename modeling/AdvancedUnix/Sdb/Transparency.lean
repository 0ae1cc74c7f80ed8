import AdvancedUnix.Sdb.Followed
import AdvancedUnix.Sdb.Loaded
import AdvancedUnix.Sdb.TextIntegrity

/-!
# The program under the debugger

What a program executes under the debugger should be a prefix of what it
executes alone. `Tracked` is the invariant for that: each child has executed a
prefix so far, and the live tracee stands where its program does. A command
keeps it when it single-steps the tracee over the program's own bytes only and
the words that it writes back bring no old data with them, `Unobtrusive`; that
they bring no old traps is `WordsSound`.
-/

namespace Sdb

open Memory Traced

variable {K : Type}

/-- What holds of everything that a child has executed, whether it is alive or not. -/
def World.Records (R : Proc K → Prop) (w : World K) : Prop :=
  ∀ q c p, w.child q = some c → c.record = some p → R p

namespace World.Records

variable {R : Proc K → Prop} {w v : World K} {p : Proc K}

theorem of_child (h : w.Records R) (child : v.child = w.child) : v.Records R := by
  intro q c p hc hp
  rw [child] at hc
  exact h q c p hc hp

theorem current (h : w.Records R) {c : Child K} (hc : w.current = some c)
    (hp : c.record = some p) : R p := h _ c p hc hp

theorem setChild (h : w.Records R) {c : Child K} (new : ∀ p, c.record = some p → R p) :
    (w.setChild c).Records R := by
  intro q d p hd hp
  by_cases hq : q = w.sdb.pid
  · subst hq
    rw [World.setChild_child] at hd
    cases hd
    exact new p hp
  · rw [World.setChild_child_ne _ _ hq] at hd
    exact h q d p hd hp

theorem setTracee (h : w.Records R) (new : R p) : (w.setTracee p).Records R := by
  unfold World.setTracee
  split
  · refine h.setChild fun q hq => ?_
    cases hq
    exact new
  · exact h

theorem collect (h : w.Records R) : w.collect.Records R := by
  unfold World.collect
  split
  · rename_i hc
    exact h.setChild fun q hq => h.current hc hq
  · rename_i hc
    exact h.setChild fun q hq => h.current hc hq
  · exact h

theorem ptraceCont (h : w.Records R) : w.ptraceCont.Records R := by
  unfold World.ptraceCont
  split
  · rename_i p hp
    obtain ⟨state, hc⟩ := World.tracee_live hp
    exact h.setChild fun q hq => h.current hc hq
  · exact h

theorem poke (h : w.Records R) (write : ∀ p m, R p → R (p.setMem m)) (a : Addr) (word : Word) :
    (w.pokeOrIgnore a word).Records R := by
  unfold World.pokeOrIgnore
  cases hp : w.tracee with
  | none => simpa [World.poke, hp] using h
  | some p =>
      rw [World.poke_eq hp]
      cases writeWord p.cpu.mem a word with
      | none => exact h
      | some m =>
          obtain ⟨state, hc⟩ := World.tracee_live hp
          exact h.setTracee (write p m (h.current hc rfl))

theorem kill (h : w.Records R) (pid : Pid) : (w.kill pid).Records R := by
  unfold World.kill
  split
  · rename_i state p hc
    intro q c r hq hr
    by_cases hpid : q = pid
    · subst hpid
      simp only [Function.update_self, Option.some.injEq] at hq
      subst hq
      exact h q _ r hc hr
    · simp only [Function.update_of_ne hpid] at hq
      exact h q c r hq hr
  · exact h

end World.Records

/-- Every child has executed a prefix of its program, and the live tracee stands
where its program does. -/
structure Tracked (H : Host K) (B : Addr → Prop) (w : World K) : Prop where
  records : w.Records (Proc.Transparent H.toPlatform)
  within : w.sdb.Within B
  followed : w.Holds (Followed H B)

/-- The world is tracked, unless the debugger has crashed. -/
structure Result.Tracked (H : Host K) (B : Addr → Prop) (r : Result K) : Prop where
  records : r.world.Records (Proc.Transparent H.toPlatform)
  tracked : (∀ f, r.ending ≠ .fault f) → Sdb.Tracked H B r.world

variable {H : Host K} {env : Env K} {B : Addr → Prop} {w u : World K} {p : Proc K}

theorem Tracked.result (h : Tracked H B w) (e : Ending) : Result.Tracked H B ⟨w, e⟩ :=
  ⟨h.records, fun _ => h⟩

theorem SDB.Within.sameTable {s t : SDB} (h : s.Within B) (same : s.SameTable t) :
    t.Within B := by
  intro i used
  rw [same.isUsed] at used
  rw [same.addr]
  exact h i used

namespace Tracked

theorem setWord (h : Tracked H B w) (i : Slot) (word : Word) :
    Tracked H B (w.setBreak i { (w.sdb.breaks i) with originalWord := word }) :=
  ⟨h.records.of_child rfl, h.within.sameTable (w.sdb.sameTable_setWord i word),
    h.followed.of_live rfl fun _ hr => Followed.congr (s := w.sdb) rfl rfl hr⟩

theorem setTracee (h : Tracked H B w) (hp : w.tracee = some p) {q : Proc K}
    (record : p.Transparent H.toPlatform → q.Transparent H.toPlatform)
    (imp : Followed H B w.sdb p → Followed H B w.sdb q) : Tracked H B (w.setTracee q) := by
  obtain ⟨state, hc⟩ := World.tracee_live hp
  refine ⟨h.records.setTracee (record (h.records.current hc rfl)), ?_,
    h.followed.setTracee hp imp⟩
  rw [World.setTracee_sdb]
  exact h.within

theorem collect (h : Tracked H B w) : Tracked H B w.collect := by
  refine ⟨h.records.collect, ?_, h.followed.collect⟩
  rw [World.collect_sdb]
  exact h.within

theorem ptraceCont (h : Tracked H B w) : Tracked H B w.ptraceCont := by
  refine ⟨h.records.ptraceCont, ?_, h.followed.ptraceCont⟩
  rw [World.ptraceCont_sdb]
  exact h.within

theorem poke (h : Tracked H B w) (a : Addr) (word : Word)
    (data : ∀ p, w.live = some p → Mapped p.cpu.mem a → KeepsData p a word) :
    Tracked H B (w.pokeOrIgnore a word) := by
  refine ⟨h.records.poke (fun _ _ hr => hr) a word, ?_, ?_⟩
  · rw [World.pokeOrIgnore_sdb]
    exact h.within
  · by_cases running : w.sdb.isRunning
    · refine h.followed.poke a word fun p m hp followed write => followed.write fun b hb => ?_
      have mapped : Mapped p.cpu.mem a := by
        by_contra hm
        rw [writeWord_eq_none.mpr hm] at write
        cases write
      exact (data p (World.live_of_tracee running hp) mapped).outside write hb
    · exact .of_dead (World.live_of_not_running (by rwa [World.pokeOrIgnore_sdb]))

theorem kill (h : Tracked H B w) (pid : Pid) : Tracked H B (w.kill pid) := by
  refine ⟨h.records.kill pid, ?_, h.followed.kill pid⟩
  rw [World.kill_sdb]
  exact h.within

theorem setLastDisasmAddr (h : Tracked H B w) (a : Addr) : Tracked H B (w.setLastDisasmAddr a) :=
  ⟨h.records.of_child rfl, h.within,
    h.followed.of_live rfl fun _ hr => Followed.congr (s := w.sdb) rfl rfl hr⟩

theorem childEnded (h : Tracked H B w) (status : Nat) :
    Tracked H B (Sdb.childEnded status w).world :=
  ⟨h.records.of_child rfl, h.within, .childEnded w status⟩

/-- A single step over the program's own bytes. -/
theorem stepped (h : Tracked H B w) (intact : w.Holds (Intact H)) (running : w.sdb.isRunning)
    (hp : w.tracee = some p) (own : p.OwnByte) (ok : Bool) :
    Tracked H B (w.setChild (Child.stepped H.toPlatform ok p)) := by
  have live := World.live_of_tracee running hp
  have followed := h.followed p live
  rcases followed.advance h.within (intact p live followed.kept) own with
    ⟨halt, next⟩ | ⟨⟨status, halt⟩, last⟩
  · simp only [Child.stepped, halt]
    refine ⟨h.records.setChild fun q hq => ?_, h.within, .setChild fun _ => next⟩
    cases hq
    exact next.transparent
  · refine ⟨h.records.setChild fun q hq => ?_, h.within, .of_dead ?_⟩
    · rw [Child.record_stepped] at hq
      cases hq
      exact last
    · simp only [Child.stepped, halt]
      cases ok <;> simp [World.live_setChild]

end Tracked

/-- The single steps of the pass begun here are all taken at own bytes. -/
def StepsOwn (H : Host K) (env : Env K) (u : World K) : Prop :=
  ∀ p, u.live = some p → ∀ c ∈ passSteps H env u,
    p.image.text c.rip → c.mem c.rip = p.image.cpu.mem c.rip

/-- A pass that steps over own bytes only keeps the world tracked. -/
theorem Tracked.pass (h : Tracked H B u) (intact : u.Holds (Intact H))
    (running : u.sdb.isRunning) (own : StepsOwn H env u) :
    Tracked H B (sdbPatchAllBp H env u).1 := by
  have texts := passInvariant_intact (H := H) env fun _ => True
  -- the process keeps the image that it had when the pass began
  have inv : PassInvariant H env (fun _ => True)
      (fun c => ∀ p, u.live = some p → p.image.text c.rip → c.mem c.rip = p.image.cpu.mem c.rip)
      (fun v => (v.Holds (Intact H) ∧ v.sdb.isRunning) ∧ Tracked H B v ∧
        v.Holds fun _ q => ∃ p, u.live = some p ∧ q.image = p.image) := by
    refine ⟨?_, ?_, ?_, ?_⟩
    · rintro v p i ⟨⟨intact, running⟩, tracked, image⟩ hi hp used at_ own
      refine ⟨⟨texts.step v p i intact hi hp used at_ trivial, running⟩, ?_,
        image.stepped hp _ _ fun same => same⟩
      refine tracked.stepped intact running hp (fun inText => ?_) _
      obtain ⟨q, hq, same⟩ := image p (World.live_of_tracee running hp)
      rw [same] at inText ⊢
      exact own q hq inText
    · rintro v ⟨⟨intact, running⟩, tracked, image⟩ none
      refine ⟨⟨intact.collect, by rwa [World.collect_sdb]⟩, tracked.collect, image.collect⟩
    · rintro v p i a word ⟨⟨intact, running⟩, tracked, image⟩ hi hp used at_ hread hlow
      have hp' : (v.setBreak i { (v.sdb.breaks i) with originalWord := word }).tracee =
        some p := hp
      refine ⟨⟨texts.patch v p i a word intact hi hp used at_ hread hlow, ?_⟩, ?_, ?_⟩
      · rw [World.setTracee_sdb]
        exact running
      · refine (tracked.setWord i word).setTracee hp' (fun hr => hr) fun followed => ?_
        have before := tracked.followed p (World.live_of_tracee running hp)
        have here : v.sdb.slotAt H p.cpu.ext i = a := by
          rcases at_ with rfl | ⟨q, rfl, rfl⟩
          · rfl
          · exact before.kept.slotAt i
        have inText : p.image.text a := here ▸ before.text_slotAt tracked.within used
        refine followed.write fun b hb => Function.update_of_ne ?_ _ _
        rintro rfl
        exact hb inText
      · refine World.Holds.setTracee (w := v.setBreak i
          { (v.sdb.breaks i) with originalWord := word }) ?_ hp' fun same => same
        exact image.of_live rfl fun _ same => same
    · rintro v i ⟨⟨intact, running⟩, tracked, image⟩ hi used
      exact ⟨⟨texts.giveUp v i intact hi used, running⟩, tracked.setWord i _,
        image.of_live rfl fun _ same => same⟩
  exact (inv.sdbPatchAllBp ⟨⟨intact, running⟩, h, fun p hp => ⟨p, hp, rfl⟩⟩
    fun c hc p hp => own p hp c hc).2.1

/-- The word written back when a slot is hit keeps the data. -/
def HitKeepsData (H : Host K) (env : Env K) (u : World K) : Prop :=
  ∀ v i, u.hit H env = some (v, i) → ∀ p, v.live = some p →
    KeepsData p (v.sdb.slotAt H p.cpu.ext i) (v.sdb.breaks i).originalWord

/-- A tracee at a trap that is reported follows its program again. -/
theorem reportBp_tracked {i : Slot} {vaddr : Addr}
    (records : w.Records (Proc.Transparent H.toPlatform)) (within : w.sdb.Within B)
    (hc : w.current = some (.live .stopped p))
    (trapped : Trapped H B w.sdb p)
    (data : KeepsData p vaddr (w.sdb.breaks i).originalWord) :
    Tracked H B (reportBp w i vaddr p.cpu.regs).world := by
  obtain ⟨m, he, write⟩ := reportBp_world hc i vaddr
  have back := trapped.back (m := m) fun b hb => by
    rcases write with rfl | write
    · rfl
    · exact data.outside write hb
  have hp := World.tracee_of_current hc
  rw [he]
  refine ⟨records.setTracee back.transparent, ?_, fun q hq => ?_⟩
  · rwa [World.setTracee_sdb]
  · rw [World.live_setTracee hp] at hq
    split at hq
    · cases hq
      rwa [World.setTracee_sdb]
    · cases hq

/-- What the wait loop makes of a tracee that was resumed. -/
theorem waitLoop_tracked {status : Nat} (h : Tracked H B w) (intact : w.Holds (Intact H))
    (running : w.sdb.isRunning)
    (data : ∀ sig v p i, waitpid H.toPlatform (env.waits (.loop 0)) env.fuel w.ptraceCont =
      .stopped sig v → v.current = some (.live .stopped p) →
        v.sdb.slotBehind H p.cpu.ext p.cpu.rip = some i →
          KeepsData p (p.cpu.rip - 1) (v.sdb.breaks i).originalWord) :
    (waitLoop H env 3 0 status w.ptraceCont).Tracked H B := by
  have resumed := h.ptraceCont
  have texts := intact.ptraceCont
  have runs : w.ptraceCont.sdb.isRunning := by rwa [World.ptraceCont_sdb]
  -- a stop of the running tracee is at a trap
  have stops : ∀ {sig : Nat} {v : World K} {q : Proc K},
      waitpid H.toPlatform (env.waits (.loop 0)) env.fuel w.ptraceCont = .stopped sig v →
        v.current = some (.live .stopped q) → v.sdb = w.ptraceCont.sdb ∧
          Trapped H B v.sdb q ∧ v.Records (Proc.Transparent H.toPlatform) := by
    intro sig v q wait hc
    obtain ⟨r, rfl, pending | ⟨r₀, hr, res⟩⟩ := waitpid_stopped wait
    · cases World.ptraceCont_current pending
    · rw [World.current_setChild] at hc
      cases hc
      have followed := resumed.followed.current runs hr
      have outcome := followed.resume resumed.within (texts.current runs hr followed.kept) env.fuel
      rw [res] at outcome
      refine ⟨rfl, outcome, resumed.records.setChild fun q hq => ?_⟩
      cases hq
      exact outcome.transparent
  have outcome := waited H env status w.ptraceCont
  generalize waitLoop H env 3 0 status w.ptraceCont = r at outcome ⊢
  cases outcome with
  | failed wait => exact (resumed.childEnded status).result _
  | busy wait =>
      obtain ⟨q, hc, going, rfl⟩ := waitpid_busy wait
      have followed := resumed.followed.current runs hc
      have outcome := followed.resume resumed.within (texts.current runs hc followed.kept) env.fuel
      generalize q.resume H.toPlatform env.fuel = res at going outcome ⊢
      obtain ⟨q', halt⟩ := res
      cases going
      refine Tracked.result ⟨resumed.records.setChild fun r hr => ?_, resumed.within,
        .setChild fun _ => outcome⟩ _
      cases hr
      exact outcome.transparent
  | blocked wait => exact resumed.result _
  | @exited st v wait =>
      obtain ⟨q, rfl, zombie | ⟨r₀, r, rfl, hc, res⟩⟩ := waitpid_exited wait
      · have gone : Tracked H B (w.ptraceCont.setChild (.reaped q)) :=
          ⟨resumed.records.setChild fun r hr => resumed.records.current zombie hr,
            resumed.within, .setChild_reaped _ _⟩
        exact (gone.childEnded st).result _
      · have followed := resumed.followed.current runs hc
        have outcome := followed.resume resumed.within (texts.current runs hc followed.kept)
          env.fuel
        rw [res] at outcome
        have gone : Tracked H B (w.ptraceCont.setChild (.reaped (some r))) := by
          refine ⟨resumed.records.setChild fun r' hr => ?_, resumed.within, .setChild_reaped _ _⟩
          cases hr
          exact outcome
        exact (gone.childEnded st).result _
  | fault wait stopped noMatch =>
      obtain ⟨-, trapped, records⟩ := stops wait stopped
      exact ⟨records, fun noFault => absurd rfl (noFault _)⟩
  | @hit sig v q i vaddr wait stopped found =>
      obtain ⟨same, trapped, records⟩ := stops wait stopped
      obtain ⟨behind, rfl⟩ := matchSlot_found stopped found
      have tracked : Tracked H B (reportBp v i (q.cpu.rip - 1) q.cpu.regs).world :=
        reportBp_tracked records (same ▸ resumed.within) stopped trapped
          (data sig v q i wait stopped behind)
      exact ⟨tracked.records, fun _ => tracked⟩
  | again wait stopped noSlot ok =>
      have trapped := (stops wait stopped).2.1
      have none := (matchSlot_none stopped noSlot).2
      have behind := trapped.slotBehind
      rw [none] at behind
      cases behind
  | dropped wait stopped noSlot ok =>
      have trapped := (stops wait stopped).2.1
      have none := (matchSlot_none stopped noSlot).2
      have behind := trapped.slotBehind
      rw [none] at behind
      cases behind

theorem contFrom_tracked {status : Nat} (h : Tracked H B u) (intact : u.Holds (Intact H))
    (running : u.sdb.isRunning) (own : StepsOwn H env u) (data : HitKeepsData H env u) :
    (contFrom H env status u).Tracked H B := by
  have passed := h.pass intact running own
  have texts := sdbPatchAllBp_intact env intact
  have still := pass_pid H env u
  unfold contFrom
  cases hpass : sdbPatchAllBp H env u with
  | mk v fault =>
      rw [hpass] at passed texts still
      cases fault with
      | some f => exact passed.result _
      | none =>
          have running : v.sdb.isRunning := by rwa [SDB.isRunning, still]
          refine waitLoop_tracked passed texts running fun sig v' p i wait stopped behind => ?_
          have hit : u.hit H env = some (v', i) := by
            simp [World.hit, hpass, wait, World.tracee_of_current stopped, behind]
          have at_ := (SDB.slotBehind_eq_some behind).2
          rw [← at_]
          refine data v' i hit p (World.live_eq_some_iff.mpr ⟨?_, .stopped, stopped⟩)
          obtain ⟨q, rfl, -⟩ := waitpid_stopped wait
          rwa [World.setChild_sdb, World.ptraceCont_sdb]

/-- A command of the debugger that neither sets registers nor loads a program. -/
def Cmd.debugs : Cmd → Bool
  | .set _ _ | .load _ => false
  | _ => true

/-- The command sets breakpoints at addresses in `B` only, and starts only programs
that these do not disturb. -/
structure Cmd.InDomain (H : Host K) (s : SDB) (B : Addr → Prop) (env : Env K) (cmd : Cmd) :
    Prop where
  debugs : cmd.debugs
  within : ∀ addrStr, cmd = .break addrStr →
    B ((hexOperand addrStr env.uninit.tail).getD env.uninit.addr)
  suitable : ∀ image, env.exec = some image → Suitable H s B image

/-- The command single-steps the program's own bytes only, and the words that it
writes back keep the data of the program. -/
def Unobtrusive (H : Host K) (env : Env K) : Cmd → World K → Prop
  | .start, w => ∀ u, Cmd.passStart env .start w = some u → StepsOwn H env u
  | .run, w => ∀ u, Cmd.passStart env .run w = some u → StepsOwn H env u ∧ HitKeepsData H env u
  | .cont, w => ∀ u, Cmd.passStart env .cont w = some u → StepsOwn H env u ∧ HitKeepsData H env u
  | .si, w => ∀ p, w.live = some p → p.OwnByte
  | .break addrStr, w => ∀ u, Cmd.passStart env (.break addrStr) w = some u → StepsOwn H env u
  | .delete index, w => ∀ i : Slot, (i : Int) = index → (w.sdb.breaks i).isUsed → ∀ p,
      w.live = some p → Mapped p.cpu.mem (w.sdb.breaks i).addr →
        p.cpu.mem (w.sdb.breaks i).addr = some trapByte →
          KeepsData p (w.sdb.breaks i).addr (w.sdb.breaks i).originalWord
  | .disasm addrStr, w => ∀ u, Cmd.passStart env (.disasm addrStr) w = some u →
      StepsOwn H env u ∧ ∀ p, w.live = some p → ∀ i, (w.sdb.breaks i).isUsed →
        Mapped p.cpu.mem (w.sdb.breaks i).addr →
          KeepsData p (w.sdb.breaks i).addr (w.sdb.breaks i).originalWord
  | _, _ => True

section Commands

theorem launch_tracked (h : Tracked H B w)
    (suitable : ∀ image, env.exec = some image → Suitable H w.sdb B image) :
    Tracked H B (launch env w).1 := by
  obtain ⟨-, gone⟩ | ⟨pid, c, -, born, world⟩ := launch_cases env w
  · rw [gone]
    exact ⟨h.records.of_child rfl, h.within, .of_dead (World.live_setPid_none w)⟩
  · have records : (w.setPid pid).Records (Proc.Transparent H.toPlatform) :=
      h.records.of_child rfl
    have fresh : Tracked H B ((w.setPid pid).setChild c) := by
      cases born with
      | failed exec =>
          refine ⟨records.setChild fun p hp => ?_, h.within, .of_dead ?_⟩
          · cases hp
          · simp [World.live_setChild]
      | @started image exec =>
          have followed : Followed H B w.sdb image.load := .load (suitable image exec)
          refine ⟨records.setChild fun p hp => ?_, h.within, .setChild fun _ => ?_⟩
          · cases hp
            exact followed.transparent
          · exact Followed.congr (s := w.sdb) rfl rfl followed
    obtain world | world := world
    · rw [world]
      exact fresh.collect
    · rw [world]
      exact fresh

/-- A pass at the end of a command, whatever the command prints. -/
theorem Tracked.passed {v : World K} {fault : Option Fault} (h : Tracked H B u)
    (intact : u.Holds (Intact H)) (running : u.sdb.isRunning) (own : StepsOwn H env u)
    (hpass : sdbPatchAllBp H env u = (v, fault)) : Tracked H B v := by
  have passed := h.pass intact running own
  rwa [hpass] at passed

theorem sdbStart_tracked (h : Tracked H B w) (domain : Cmd.InDomain H w.sdb B env .start)
    (quiet : Unobtrusive H env .start w) : (sdbStart H env w).Tracked H B := by
  unfold sdbStart
  split
  · exact h.result _
  · rename_i loaded
    have fresh := launch_tracked h domain.suitable
    have texts : (launch env w).1.Holds (Intact H) := launch_intact
    cases hl : launch env w with
    | mk u status =>
        rw [hl] at fresh texts
        cases status with
        | error text => exact fresh.result _
        | ok status =>
            have hu : launched env w = some u := by rw [launched, hl]
            have own := quiet u (by rw [Cmd.passStart, if_pos (not_not.mp loaded), hu])
            simp only
            split <;> rename_i hpass <;>
              exact (fresh.passed texts (launched_running hu) own hpass).result _

theorem sdbCont_tracked (h : Tracked H B w) (intact : w.Holds (Intact H))
    (quiet : Unobtrusive H env .cont w) : (sdbCont H env w).Tracked H B := by
  unfold sdbCont
  split
  · exact h.result _
  · rename_i running
    obtain ⟨own, data⟩ := quiet w (if_pos (not_not.mp running))
    exact contFrom_tracked h intact (not_not.mp running) own data

theorem sdbRun_tracked (h : Tracked H B w) (intact : w.Holds (Intact H))
    (domain : Cmd.InDomain H w.sdb B env .run) (quiet : Unobtrusive H env .run w) :
    (sdbRun H env w).Tracked H B := by
  unfold sdbRun
  simp only [Unobtrusive, Cmd.passStart] at quiet
  split
  · exact h.result _
  · rename_i loaded
    rw [if_pos (not_not.mp loaded)] at quiet
    split
    · rename_i idle
      rw [if_neg idle] at quiet
      have fresh := launch_tracked h domain.suitable
      have texts : (launch env w).1.Holds (Intact H) := launch_intact
      cases hl : launch env w with
      | mk u status =>
          rw [hl] at fresh texts
          cases status with
          | error text => exact fresh.result _
          | ok status =>
              have hu : launched env w = some u := by rw [launched, hl]
              obtain ⟨own, data⟩ := quiet u hu
              exact contFrom_tracked fresh texts (launched_running hu) own data
    · rename_i running
      rw [if_pos (not_not.mp running)] at quiet
      obtain ⟨own, data⟩ := quiet w rfl
      exact contFrom_tracked h intact (not_not.mp running) own data

theorem sdbStep_tracked (h : Tracked H B w) (intact : w.Holds (Intact H))
    (quiet : Unobtrusive H env .si w) : (sdbStep H env w).Tracked H B := by
  have tracked : Tracked H B (sdbStep H env w).world := by
    cases hp : w.tracee with
    | none => rwa [sdbStep_world_of_none hp]
    | some p =>
        by_cases running : w.sdb.isRunning
        · rw [sdbStep_world running hp]
          exact h.stepped intact running hp (quiet p (World.live_of_tracee running hp)) _
        · simpa [sdbStep, running] using h
  exact ⟨tracked.records, fun _ => tracked⟩

theorem setBreak_tracked (h : Tracked H B w) (i : Slot) (bp : Bp) (within : bp.isUsed → B bp.addr) :
    Tracked H B (w.setBreak i bp) := by
  refine ⟨h.records.of_child rfl, fun j used => ?_,
    h.followed.of_live rfl fun _ hr => Followed.congr (s := w.sdb) rfl rfl hr⟩
  rw [World.setBreak_breaks] at used ⊢
  by_cases hj : j = i
  · subst hj
    rw [Function.update_self] at used ⊢
    exact within used
  · rw [Function.update_of_ne hj] at used ⊢
    exact h.within j used

theorem sdbSetBreak_tracked (addrStr : List Char) (h : Tracked H B w)
    (intact : w.Holds (Intact H)) (domain : Cmd.InDomain H w.sdb B env (.break addrStr))
    (quiet : Unobtrusive H env (.break addrStr) w) :
    (sdbSetBreak H env addrStr w).Tracked H B := by
  have within := domain.within addrStr rfl
  unfold sdbSetBreak
  simp only [Unobtrusive, Cmd.passStart] at quiet
  split
  · exact h.result _
  · rename_i loaded
    simp only
    cases free : freeSlot w.sdb with
    | none => exact h.result _
    | some i =>
        have set := setBreak_tracked h i { w.sdb.breaks i with
          isUsed := true, addr := (hexOperand addrStr env.uninit.tail).getD env.uninit.addr }
          fun _ => within
        have texts := setBreak_intact intact free { w.sdb.breaks i with
          isUsed := true, addr := (hexOperand addrStr env.uninit.tail).getD env.uninit.addr }
        simp only
        split
        · rename_i running
          have own := quiet _ (by rw [if_pos ⟨not_not.mp loaded, running⟩, free]; rfl)
          split <;> rename_i hpass <;> exact (set.passed texts running own hpass).result _
        · exact set.result _

theorem deleteSlot_tracked (h : Tracked H B w) (i : Slot)
    (data : ∀ p, w.live = some p → Mapped p.cpu.mem (w.sdb.breaks i).addr →
      p.cpu.mem (w.sdb.breaks i).addr = some trapByte →
        KeepsData p (w.sdb.breaks i).addr (w.sdb.breaks i).originalWord) :
    Tracked H B (deleteSlot w i) := by
  unfold deleteSlot
  simp only
  refine setBreak_tracked ?_ i _ fun used => by cases used
  split
  · rename_i writes
    obtain ⟨word, hword, hlow⟩ := peekOrError_trap_iff.mp writes
    obtain ⟨q, hq, hread⟩ := World.peek_eq_some hword
    refine h.poke _ _ fun p live mapped => data p live mapped ?_
    obtain ⟨running, -⟩ := World.live_eq_some_iff.mp live
    have same := World.live_of_tracee running hq
    rw [live] at same
    cases same
    have first := readWord_eq_some_iff.mp hread 0 (by decide)
    rwa [byteAddr_zero, hlow] at first
  · exact h

theorem restoreAll_tracked {is : List Slot} (h : Tracked H B w)
    (data : w.Holds fun s p => ∀ i, (s.breaks i).isUsed → Mapped p.cpu.mem (s.breaks i).addr →
      KeepsData p (s.breaks i).addr (s.breaks i).originalWord) :
    Tracked H B (restoreAll is w) := by
  induction is generalizing w with
  | nil => exact h
  | cons i is ih =>
      rw [restoreAll]
      by_cases used : (w.sdb.breaks i).isUsed
      · rw [if_pos used]
        refine ih (h.poke _ _ fun p live mapped => data p live i used mapped) ?_
        refine data.poke _ _ fun p m hp keeps write j usedj mappedj k hk outside => ?_
        have mapped : Mapped p.cpu.mem (w.sdb.breaks i).addr := by
          by_contra hm
          rw [writeWord_eq_none.mpr hm] at write
          cases write
        rw [Proc.setMem_mem, (keeps i used mapped).outside write outside]
        exact keeps j usedj ((mapped_writeWord write).mp mappedj) k hk outside
      · rw [if_neg used]
        exact ih h data

theorem sdbDisasm_tracked (addrStr : List Char) (h : Tracked H B w)
    (intact : w.Holds (Intact H)) (sound : WordsSound H env (.disasm addrStr) w)
    (quiet : Unobtrusive H env (.disasm addrStr) w) :
    (sdbDisasm H env addrStr w).Tracked H B := by
  rcases sdbDisasm_cases H env addrStr w with ⟨-, a, he⟩ | ⟨addr, a, running, hstart, he⟩
  · have tracked : Tracked H B (sdbDisasm H env addrStr w).world := by
      rw [he]
      exact h.setLastDisasmAddr a
    exact ⟨tracked.records, fun _ => tracked⟩
  · obtain ⟨own, data⟩ := quiet _ hstart
    have restored : Tracked H B (restoreAll slots (w.setLastDisasmAddr a)) :=
      restoreAll_tracked (h.setLastDisasmAddr a) data
    have texts : (restoreAll slots (w.setLastDisasmAddr a)).Holds (Intact H) :=
      restoreAll_intact fun p hp => ⟨setLastDisasmAddr_intact intact a p hp,
        sound (by rw [hstart]; rfl) p hp⟩
    have runs : (restoreAll slots (w.setLastDisasmAddr a)).sdb.isRunning := by
      rw [restoreAll_sdb]
      exact running
    rw [he]
    unfold disasmLive
    simp only
    split
    · rename_i hpass
      exact (restored.passed texts runs own hpass).result _
    · rename_i v hpass
      obtain ⟨b, out, hprint⟩ := printInsns_eq H
        (peekWords (restoreAll slots (w.setLastDisasmAddr a)) (addr + 64) 8 addr) addr v
      rw [hprint]
      exact ((restored.passed texts runs own hpass).setLastDisasmAddr b).result _

theorem sdbDelete_tracked (index : Int) (h : Tracked H B w)
    (quiet : Unobtrusive H env (.delete index) w) : (sdbDelete index w).Tracked H B := by
  unfold sdbDelete
  split
  · rename_i hindex
    simp only
    split
    · rename_i used
      refine Tracked.result (deleteSlot_tracked h _ fun p live => ?_) _
      exact quiet _ (Int.toNat_of_nonneg hindex.1) used p live
    · exact h.result _
  · exact h.result _

/-- Every unobtrusive command keeps the world tracked. -/
theorem exec_tracked {cmd : Cmd} (h : Tracked H B w) (intact : w.Holds (Intact H))
    (domain : Cmd.InDomain H w.sdb B env cmd) (sound : WordsSound H env cmd w)
    (quiet : Unobtrusive H env cmd w) : (cmd.exec H env w).Tracked H B := by
  have same : ∀ {r : Result K}, r.world = w → r.Tracked H B := by
    rintro r rfl
    exact ⟨h.records, fun _ => h⟩
  cases cmd with
  | start => exact sdbStart_tracked h domain quiet
  | run => exact sdbRun_tracked h intact domain quiet
  | cont => exact sdbCont_tracked h intact quiet
  | si => exact sdbStep_tracked h intact quiet
  | «break» addrStr => exact sdbSetBreak_tracked addrStr h intact domain quiet
  | delete index => exact sdbDelete_tracked index h quiet
  | disasm addrStr => exact sdbDisasm_tracked addrStr h intact sound quiet
  | dump addrStr => exact same (sdbDump_world env addrStr w)
  | list => exact same rfl
  | get name => exact same rfl
  | getregs => exact same rfl
  | vmmap => exact same (sdbVmmap_world H w)
  | set name val => cases domain.debugs
  | load filename => cases domain.debugs

end Commands

/-- `InDomain` of a command. -/
def Event.InDomain (H : Host K) (s : SDB) (B : Addr → Prop) : Event K → Prop
  | .command cmd env => cmd.InDomain H s B env
  | .killed _ => True

/-- `Unobtrusive` of a command at the prompt. -/
def Event.Unobtrusive (H : Host K) (r : Result K) : Event K → Prop
  | .command cmd env => (∃ out, r.ending = .prompt out) → Sdb.Unobtrusive H env cmd r.world
  | .killed _ => True

theorem killWaited_tracked (h : Tracked H B w) : w.killWaited.Tracked H B := by
  unfold World.killWaited
  split
  · rename_i state p hc
    have gone : Tracked H B (w.setChild (.reaped (some p))) :=
      ⟨h.records.setChild fun q hq => h.records.current hc hq, h.within, .setChild_reaped _ _⟩
    exact (gone.childEnded sigkill).result _
  · exact (h.childEnded sigkill).result _

theorem step_tracked (s : SDB) (r : Result K) (e : Event K)
    (h : s.SameProgram r.world.sdb ∧ r.world.Holds (Intact H) ∧ r.Tracked H B)
    (safe : e.InDomain H s B ∧ e.WordsSound H r ∧ e.Unobtrusive H r) :
    s.SameProgram (step H r e).world.sdb ∧ (step H r e).world.Holds (Intact H) ∧
      (step H r e).Tracked H B := by
  obtain ⟨same, intact, tracked⟩ := h
  obtain ⟨domain, sound, quiet⟩ := safe
  have noLoad : e.loads = false := by
    cases e with
    | killed pid => rfl
    | command cmd env =>
        cases cmd with
        | load filename => cases domain.debugs
        | _ => rfl
  have texts := step_intact r e intact ⟨noLoad, sound⟩
  refine ⟨?_, texts, ?_⟩
  · have outcome := stepped H r e
    generalize step H r e = r' at outcome ⊢
    cases outcome with
    | ignored => exact same
    | @command cmd env out prompt =>
        refine same.trans (sameProgram_exec fun filename he => ?_)
        subst he
        cases noLoad
    | killed => rwa [World.kill_sdb]
    | killWaited => exact same.trans (killWaited_sameProgram r.world)
  · have outcome := stepped H r e
    generalize step H r e = r' at outcome ⊢
    cases outcome with
    | ignored => exact tracked
    | @command cmd env out prompt =>
        have domain : cmd.InDomain H s B env := domain
        have here := tracked.tracked fun f hf => by rw [prompt] at hf; cases hf
        simp only [Event.WordsSound, prompt] at sound
        exact exec_tracked here intact
          ⟨domain.debugs, domain.within, fun image hi =>
            (domain.suitable image hi).congr same.eh same.path⟩ sound (quiet ⟨out, prompt⟩)
    | @killed pid noFault other => exact ((tracked.tracked noFault).kill pid).result _
    | killWaited noFault => exact killWaited_tracked (tracked.tracked noFault)

/-- In every session of debugging commands that are unobtrusive and write back
sound words only, every child has executed a prefix of what its program executes
alone. -/
theorem session_transparent {w : World K} (start : JustLoaded w)
    (nobody : ∀ q, w.child q = none) (B : Addr → Prop) (out : Output) (events : List (Event K))
    (domain : ∀ e ∈ events, e.InDomain H w.sdb B)
    (safe : Runs.AllSteps (step H) (fun r e => e.WordsSound H r ∧ e.Unobtrusive H r)
      ⟨w, .prompt out⟩ events) :
    ∀ q c p, (session H ⟨w, .prompt out⟩ events).world.child q = some c → c.record = some p →
      p.Transparent H.toPlatform := by
  have idle : w.live = none := World.live_of_not_running (by simp [SDB.isRunning, start.pid])
  have initial : Tracked H B w := by
    refine ⟨fun q c p hc => ?_, fun i used => ?_, .of_dead idle⟩
    · rw [nobody q] at hc
      cases hc
    · rw [start.unused i] at used
      cases used
  have always := Runs.invariant _ (step_tracked (H := H) (B := B) w.sdb)
    (s := ⟨w, .prompt out⟩) ⟨.refl _, .of_dead idle, initial.result _⟩ (safe.and_labels domain)
  exact always.2.2.records

namespace Fragment

/-- What an instruction does to the registers depends on them and its bytes only. -/
theorem exec_congr {c d : Cpu Maps} (regs : d.regs = c.regs)
    (bytes : ∀ k < host.len c, d.mem (byteAddr c.rip k) = c.mem (byteAddr c.rip k)) :
    host.len d = host.len c ∧ host.halt d = host.halt c ∧
      (host.next d).regs = (host.next c).regs := by
  have rip : d.rip = c.rip := congrArg UserRegs.rip regs
  have first := bytes 0 (host.len_pos c)
  rw [byteAddr_zero] at first
  have len : host.len d = host.len c := by simp only [host, Fragment.len, rip, first]
  refine ⟨len, ?_⟩
  by_cases two : host.len c = 2
  · have second := bytes 1 (by omega)
    simp only [Platform.halt, Platform.next, host, exec, rip, first, second, regs]
    repeat' split
    all_goals simp [regs, Cpu.setRip]
  · simp only [host, Fragment.len] at two
    simp only [Platform.halt, Platform.next, host, exec, rip, first, regs]
    split at two
    · contradiction
    · contradiction
    · repeat' split
      all_goals simp_all [Cpu.setRip]

theorem ignoresText (text : Addr → Prop) (c : Cpu Maps) : IgnoresText host.toPlatform text c := by
  intro d mirrors bytes
  obtain ⟨len, halt, regs⟩ := exec_congr mirrors.regs bytes
  obtain ⟨mem, ext⟩ := next_frame c
  obtain ⟨mem', ext'⟩ := next_frame d
  refine ⟨len, halt, ⟨regs, ?_, fun a ha => ?_⟩, fun a _ => by rw [mem']⟩
  · rw [ext, ext', mirrors.ext]
  · rw [mem, mem', mirrors.mem a ha]

theorem native_ext (c : Cpu Maps) (n : Nat) : (host.native c n).ext = c.ext := by
  induction n with
  | zero => rfl
  | succ n ih => rw [Platform.native_succ, (next_frame _).2, ih]

theorem exitingLater_text (a : Addr) : exitingLater.text a ↔ (a - 0x400000).toNat < 16 := Iff.rfl

theorem exitingLater_reaches {n : Nat} (h : host.Reaches exitingLater.cpu n) : n ≤ 3 := by
  by_contra beyond
  have exits := h 3 (by omega)
  cases exits

theorem exitingLater_suitable : Suitable host loaded.world.sdb
    (fun a => a = 0x400001 ∨ a = 0x400002) exitingLater where
  self := by
    refine ⟨fun n reach sig => ?_, fun n _ => ignoresText _ _⟩
    have upTo := exitingLater_reaches reach
    interval_cases n <;> exact nofun
  stays n _ a := by rw [native_ext]
  boundary a ha := by
    have same : loaded.world.sdb.runtime host exitingLater.cpu.ext a = a := rfl
    rw [same]
    refine ⟨?_, fun n reach k pos hk => ?_⟩
    · rcases ha with rfl | rfl <;> exact (exitingLater_text _).mpr (by decide)
    · have upTo := exitingLater_reaches reach
      interval_cases n
      · exact absurd (Nat.lt_one_iff.mp hk) pos.ne'
      · exact absurd (Nat.lt_one_iff.mp hk) pos.ne'
      · exact absurd (Nat.lt_one_iff.mp hk) pos.ne'
      · obtain rfl : k = 1 := Nat.le_antisymm (Nat.lt_succ_iff.mp hk) pos
        rcases ha with rfl | rfl <;> decide

theorem cmd_inDomain {c : Cmd} (debugs : c.debugs) (within : ∀ addrStr, c = .break addrStr →
      (hexOperand addrStr []).getD 0 = 0x400001 ∨ (hexOperand addrStr []).getD 0 = 0x400002) :
    (cmd exitingLater 64 c).InDomain host loaded.world.sdb
      fun a => a = 0x400001 ∨ a = 0x400002 := by
  refine ⟨debugs, within, fun image hi => ?_⟩
  cases hi
  exact exitingLater_suitable

/-- A breakpoint is hit, and the program goes on to its end. -/
def hitAndDone : List (Event Maps) :=
  [.break "0x400002".toList, .run, .cont].map (cmd exitingLater 64)

theorem hitAndDone_transparent :
    ∃ p, (session host loaded hitAndDone).world.child 7 = some (.reaped (some p)) ∧
      p.Transparent host.toPlatform := by
  refine ⟨_, rfl, session_transparent loaded_justLoaded (fun _ => rfl)
    (fun a => a = 0x400001 ∨ a = 0x400002) .silent hitAndDone ?_ ?_ 7 _ _ rfl rfl⟩
  · simp only [hitAndDone, List.forall_mem_map, List.forall_mem_cons]
    refine ⟨cmd_inDomain rfl fun a ha => ?_, cmd_inDomain rfl nofun, cmd_inDomain rfl nofun, nofun⟩
    cases ha
    exact .inr rfl
  · refine ⟨⟨fun _ => by decide, fun _ u hu => ?_⟩, ⟨fun u hu v i hit => ?_, fun _ u hu => ?_⟩,
      ⟨fun u hu v i hit => ?_, fun _ u hu => ?_⟩, trivial⟩
    · cases hu
    · cases hu
      obtain ⟨rfl, rfl⟩ := Prod.mk.inj (Option.some.inj hit)
      exact .inl (.inl ⟨rfl, rfl, _, _, rfl, rfl, by decide⟩)
    · cases hu
      refine ⟨fun p hp c hc => (by cases hc), fun v i hit p hp k hk outside => ?_⟩
      obtain ⟨rfl, rfl⟩ := Prod.mk.inj (Option.some.inj hit)
      cases hp
      refine absurd ?_ outside
      interval_cases k <;> exact (exitingLater_text _).mpr (by decide)
    · cases hu
      cases hit
    · cases hu
      refine ⟨fun p hp c hc _ => ?_, fun v i hit => (by cases hit)⟩
      cases hp
      obtain rfl : c = _ := List.mem_singleton.mp hc
      rfl

/-- The tracee is stepped onto a breakpoint and over its trap. -/
def steppedOver : List (Event Maps) :=
  [.break "0x400001".toList, .start, .si, .si, .si].map (cmd exitingLater 64)

theorem steppedOver_record :
    (∀ e ∈ steppedOver, e.InDomain host loaded.world.sdb fun a => a = 0x400001 ∨ a = 0x400002) ∧
      ∃ p, (session host loaded steppedOver).world.child 7 = some (.live .stopped p) ∧
        ¬ p.Transparent host.toPlatform := by
  refine ⟨?_, _, rfl, ?_⟩
  · simp only [steppedOver, List.forall_mem_map, List.forall_mem_cons]
    refine ⟨cmd_inDomain rfl fun a ha => ?_, cmd_inDomain rfl nofun, cmd_inDomain rfl nofun,
      cmd_inDomain rfl nofun, cmd_inDomain rfl nofun, nofun⟩
    cases ha
    exact .inl rfl
  · rintro ⟨n, -, he⟩
    have hn := congrArg List.length he
    simp only [Platform.nativeTrace, List.length_map, List.length_range] at hn
    obtain rfl : n = 2 := hn.symm
    revert he
    decide

end Fragment

end Sdb
