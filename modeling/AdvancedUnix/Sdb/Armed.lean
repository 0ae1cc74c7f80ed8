import AdvancedUnix.Sdb.Course
import AdvancedUnix.Sdb.Table
import AdvancedUnix.Sdb.Transparency

/-!
# Breakpoints that do not get in each other's way

Breakpoints at least eight bytes apart, between the instructions of a program, each have
a word of the text of their own. `Armed` says which traps are in place then: at their
slots a trap, everywhere else the program's own byte, and in each of these slots the
program's own word.

A pass over such a table ends with all traps in place. It may begin with any of them
missing, and steps over at most one instruction.
-/

namespace Sdb

open Memory Traced

variable {K : Type}

/-- A program that breakpoints at the addresses `B` fit into: it can be debugged without
noticing, each word there is text, and no two of the words overlap. -/
structure Debuggable (H : Host K) (s : SDB) (B : Addr → Prop) (image : Image K) : Prop
    extends Suitable H s B image where
  inside : ∀ a, B a → ∀ k < 8, image.text (byteAddr (s.runtime H image.cpu.ext a) k)
  mapped : ∀ a, B a → Mapped image.cpu.mem (s.runtime H image.cpu.ext a)
  plain : ∀ a, B a → image.cpu.mem (s.runtime H image.cpu.ext a) ≠ some trapByte
  apart : ∀ a b, B a → B b → a ≠ b → ∀ k < 8,
    byteAddr (s.runtime H image.cpu.ext a) k ≠ s.runtime H image.cpu.ext b

/-- No two slots in use have the same address. -/
def SDB.Distinct (s : SDB) : Prop :=
  ∀ i j, (s.breaks i).isUsed → (s.breaks j).isUsed → (s.breaks i).addr = (s.breaks j).addr → i = j

/-- Where the trap of a slot goes in a process of this image. -/
abbrev SDB.site (H : Host K) (s : SDB) (image : Image K) (i : Slot) : Addr :=
  s.slotAt H image.cpu.ext i

/-- The slot has saved the word that the program has at its place. -/
def OwnWord (H : Host K) (s : SDB) (image : Image K) (i : Slot) : Prop :=
  ∀ k < 8, image.cpu.mem (byteAddr (s.site H image i) k) = some (byteOf (s.breaks i).originalWord k)

/-- Of the used slots those in `T` have their traps in place, and nothing else in the text
differs from the program's own. -/
structure Armed (H : Host K) (s : SDB) (T : Slot → Prop) (p : Proc K) : Prop where
  used : ∀ i, T i → (s.breaks i).isUsed
  trap : ∀ i, T i → p.cpu.mem (s.site H p.image i) = some trapByte
  own : ∀ a, p.image.text a → (∀ i, T i → s.site H p.image i ≠ a) →
    p.cpu.mem a = p.image.cpu.mem a
  saved : ∀ i, T i → OwnWord H s p.image i

/-- The tracee `p` is stopped after `n` of its own instructions, with these traps in place. -/
structure Debugged (H : Host K) (B : Addr → Prop) (w : World K) (p : Proc K) (n : Nat)
    (T : Slot → Prop) : Prop where
  current : w.current = some (.live .stopped p)
  running : w.sdb.isRunning
  alone : w.child (-1) = none
  handle : w.sdb.eh ≠ none
  within : w.sdb.Within B
  distinct : w.sdb.Distinct
  good : Debuggable H w.sdb B p.image
  inStep : p.InStep H.toPlatform n
  armed : Armed H w.sdb T p

variable {H : Host K} {env : Env K} {B : Addr → Prop} {s t : SDB} {w v : World K} {p q : Proc K}
variable {image : Image K} {n : Nat} {T U : Slot → Prop} {i j : Slot} {a : Addr}

theorem SDB.SameTable.distinct (same : s.SameTable t) (h : s.Distinct) : t.Distinct := by
  intro i j
  rw [same.isUsed, same.isUsed, same.addr, same.addr]
  exact h i j

theorem Debuggable.congr (heh : t.eh = s.eh) (hpath : t.path = s.path)
    (h : Debuggable H s B image) : Debuggable H t B image := by
  have same : t.runtime H = s.runtime H := SDB.runtime_congr heh hpath
  refine ⟨h.toSuitable.congr heh hpath, ?_, ?_, ?_, ?_⟩ <;> rw [same]
  · exact h.inside
  · exact h.mapped
  · exact h.plain
  · exact h.apart

theorem Debuggable.apart_slots (h : Debuggable H s B image) (within : s.Within B)
    (distinct : s.Distinct) (hi : (s.breaks i).isUsed) (hj : (s.breaks j).isUsed) (ne : i ≠ j)
    {k : Nat} (hk : k < 8) : byteAddr (s.site H image i) k ≠ s.site H image j :=
  h.apart _ _ (within i hi) (within j hj) (fun same => ne (distinct i j hi hj same)) k hk

/-- A word with no trap in its way is the program's own. -/
theorem Armed.own_byte (h : Armed H s T p) (good : Debuggable H s B p.image)
    (within : s.Within B) (distinct : s.Distinct) (hi : (s.breaks i).isUsed) {k : Nat} (hk : k < 8)
    (free : k = 0 → ¬ T i) : p.cpu.mem (byteAddr (s.site H p.image i) k) =
      p.image.cpu.mem (byteAddr (s.site H p.image i) k) := by
  refine h.own _ (good.inside _ (within i hi) k hk) fun j hj same => ?_
  by_cases ne : i = j
  · subst ne
    exact free ((byteAddr_eq_self_iff hk).mp same.symm) hj
  · exact good.apart_slots within distinct hi (h.used j hj) ne hk same.symm

/-- The traps fewer that are asked about, the less is said of them. -/
theorem Armed.congr (h : Armed H s T p) (same : ∀ i, U i ↔ T i) : Armed H s U p := by
  obtain rfl : U = T := funext fun i => propext (same i)
  exact h

namespace Debugged

theorem mem_site (h : Debugged H B w p n T) (hi : (w.sdb.breaks i).isUsed) (free : ¬ T i) :
    p.cpu.mem (w.sdb.site H p.image i) = p.image.cpu.mem (w.sdb.site H p.image i) := by
  have own := h.armed.own_byte h.good h.within h.distinct hi (k := 0) (by decide) fun _ => free
  rwa [byteAddr_zero] at own

theorem slotAt (h : Debugged H B w p n T) (i : Slot) :
    w.sdb.slotAt H p.cpu.ext i = w.sdb.site H p.image i := by
  rw [SDB.site, SDB.slotAt, h.inStep.mirrors.ext]
  exact h.good.stays n h.inStep.reaches _

theorem regs (h : Debugged H B w p n T) : p.cpu.regs = (H.native p.image.cpu n).regs :=
  h.inStep.mirrors.regs

theorem tracee (h : Debugged H B w p n T) : w.tracee = some p := World.tracee_of_current h.current

theorem pid_ne (h : Debugged H B w p n T) : w.sdb.pid ≠ -1 := of_decide_eq_true h.running

/-- The word of a slot in use can be read, whatever traps there are. -/
theorem mapped (h : Debugged H B w p n T) (hi : (w.sdb.breaks i).isUsed) :
    Mapped p.cpu.mem (w.sdb.site H p.image i) := by
  intro k hk
  by_cases here : k = 0 ∧ T i
  · obtain ⟨rfl, set⟩ := here
    rw [byteAddr_zero, h.armed.trap i set]
    exact Option.some_ne_none _
  · rw [h.armed.own_byte h.good h.within h.distinct hi hk fun zero set => here ⟨zero, set⟩]
    exact h.good.mapped _ (h.within i hi) k hk

/-- A trap is seen exactly where one was put. -/
theorem trap_iff (h : Debugged H B w p n T) (hi : (w.sdb.breaks i).isUsed) :
    p.cpu.mem (w.sdb.site H p.image i) = some trapByte ↔ T i := by
  refine ⟨fun trap => ?_, h.armed.trap i⟩
  by_contra free
  rw [h.mem_site hi free] at trap
  exact h.good.plain _ (h.within i hi) trap

/-- The debugger may get another table or address, and the tracee other bytes in its text. -/
theorem write (h : Debugged H B w p n T) {m : Mem} {u : World K}
    (child : u.current = some (.live .stopped (p.setMem m))) (alone : u.child (-1) = none)
    (pid : u.sdb.pid = w.sdb.pid) (eh : u.sdb.eh = w.sdb.eh) (path : u.sdb.path = w.sdb.path)
    (within : u.sdb.Within B) (distinct : u.sdb.Distinct)
    (outside : ∀ a, ¬ p.image.text a → m a = p.cpu.mem a)
    (armed : Armed H u.sdb U (p.setMem m)) : Debugged H B u (p.setMem m) n U where
  current := child
  running := by
    have running := h.running
    rwa [SDB.isRunning, ← pid] at running
  alone := alone
  handle := by rw [eh]; exact h.handle
  within := within
  distinct := distinct
  good := h.good.congr eh path
  inStep := h.inStep.write outside
  armed := armed

theorem setTracee_eq (h : Debugged H B w p n T) (q : Proc K) :
    w.setTracee q = w.setChild (.live .stopped q) := by
  rw [World.setTracee, h.current]

theorem setChild_alone (h : Debugged H B w p n T) (c : Child K) :
    (w.setChild c).child (-1) = none := by
  rw [World.setChild_child_ne w c (Ne.symm h.pid_ne)]
  exact h.alone

end Debugged

/-- The word of the slot is saved and its trap put in place. -/
theorem Debugged.plant (h : Debugged H B w p n T) (hi : (w.sdb.breaks i).isUsed) (free : ¬ T i)
    {word : Word} (read : readWord p.cpu.mem (w.sdb.site H p.image i) = some word) :
    Debugged H B ((w.setBreak i { w.sdb.breaks i with originalWord := word }).setTracee
        (p.setMem (Function.update p.cpu.mem (w.sdb.site H p.image i) (some trapByte))))
      (p.setMem (Function.update p.cpu.mem (w.sdb.site H p.image i) (some trapByte))) n
      fun j => T j ∨ j = i := by
  have same : w.sdb.SameTable (w.sdb.setWord i word) := w.sdb.sameTable_setWord i word
  have table : (w.setBreak i { w.sdb.breaks i with originalWord := word }).sdb =
      w.sdb.setWord i word := rfl
  have current : (w.setBreak i { w.sdb.breaks i with originalWord := word }).current =
      some (.live .stopped p) := h.current
  have inText := h.good.inside _ (h.within i hi) 0 (by decide)
  rw [byteAddr_zero] at inText
  have sites : ∀ j, (w.sdb.setWord i word).site H p.image j = w.sdb.site H p.image j :=
    fun j => same.slotAt _ j
  generalize hu : w.setBreak i { w.sdb.breaks i with originalWord := word } = u at table current ⊢
  have replaced : ∀ q, u.setTracee q = u.setChild (.live .stopped q) := by
    intro q
    rw [World.setTracee, current]
  rw [replaced]
  refine h.write (World.current_setChild _ _) ?_ ?_ ?_ ?_ ?_ ?_ ?_ ?_
  · have pid : u.sdb.pid = w.sdb.pid := by rw [table]; rfl
    rw [World.setChild_child_ne _ _ (by rw [pid]; exact Ne.symm h.pid_ne), ← hu]
    exact h.alone
  · rw [World.setChild_sdb, table]
    rfl
  · rw [World.setChild_sdb, table]
    rfl
  · rw [World.setChild_sdb, table]
    rfl
  · rw [World.setChild_sdb, table]
    exact h.within.sameTable same
  · rw [World.setChild_sdb, table]
    exact same.distinct h.distinct
  · intro a outside
    refine Function.update_of_ne (fun here => outside ?_) _ _
    rwa [here]
  · rw [World.setChild_sdb, table]
    refine ⟨fun j set => ?_, fun j set => ?_, fun a inText free' => ?_, fun j set => ?_⟩
    · rw [same.isUsed]
      obtain set | rfl := set
      · exact h.armed.used j set
      · exact hi
    · rw [Proc.setMem_image, Proc.setMem_mem, sites]
      by_cases here : w.sdb.site H p.image j = w.sdb.site H p.image i
      · rw [here, Function.update_self]
      · rw [Function.update_of_ne here]
        obtain set | rfl := set
        · exact h.armed.trap j set
        · exact absurd rfl here
    · rw [Proc.setMem_image] at free' ⊢
      have away : a ≠ w.sdb.site H p.image i := fun here =>
        free' i (.inr rfl) (by rw [sites, here])
      rw [Proc.setMem_mem, Function.update_of_ne away]
      refine h.armed.own a inText fun j set there => free' j (.inl set) ?_
      rw [sites, there]
    · rw [Proc.setMem_image]
      intro k hk
      rw [sites]
      by_cases ne : j = i
      · subst ne
        rw [SDB.setWord_self, ← readWord_eq_some_iff.mp read k hk]
        exact (h.armed.own_byte h.good h.within h.distinct hi hk fun _ => free).symm
      · rw [SDB.setWord_ne _ _ ne]
        exact h.armed.saved j (set.resolve_right ne) k hk

/-- What a visit of a slot leaves: a tracee as before, in the same table. -/
structure Passed (H : Host K) (B : Addr → Prop) (s : SDB) (image : Image K) (n : Nat)
    (T : Slot → Prop) (v : World K) : Prop where
  table : s.SameTable v.sdb
  ready : ∃ q, q.image = image ∧ Debugged H B v q n T

/-- Behind the step over it, if there is one, a slot gets its trap. -/
theorem Debugged.patchAt (h : Debugged H B v q n T) (hi : (v.sdb.breaks i).isUsed)
    (past : stepOver H env i (v.sdb.site H q.image i) w = v) :
    ∃ u, patchAt H env i (v.sdb.site H q.image i) w = (u, .next) ∧
      Passed H B v.sdb q.image n (fun j => T j ∨ j = i) u := by
  have read := readWord_isSome.mpr (h.mapped hi)
  have first : ∀ {word}, readWord q.cpu.mem (v.sdb.site H q.image i) = some word →
      q.cpu.mem (v.sdb.site H q.image i) = some (byteOf word 0) := low_of_readWord
  rcases patchAt_stepped past h.tracee with
    ⟨none, he⟩ | ⟨word, here, low, he⟩ | ⟨word, here, low, he⟩
  · rw [none] at read
    cases read
  · -- the byte is a trap already, and no other than that of this slot
    have set : T i := (h.trap_iff hi).mp (by rw [first here, low])
    refine ⟨v, he, .refl _, q, rfl, ?_⟩
    refine { h with armed := h.armed.congr fun j => ⟨fun set' => ?_, .inl⟩ }
    obtain set' | rfl := set'
    · exact set'
    · exact set
  · have free : ¬ T i := by
      intro set
      rw [h.armed.trap i set] at first
      exact low (Option.some.inj (first here)).symm
    have last := h.plant hi free here
    refine ⟨_, he, ?_, _, ?_, last⟩
    · rw [World.setTracee_sdb]
      exact v.sdb.sameTable_setWord i word
    · rfl

theorem Debugged.slotAddr (h : Debugged H B w p n T) (u : Uninit) (i : Slot) :
    slotAddr H u w i = .ok (w.sdb.site H p.image i) := by
  obtain ⟨eh, heh⟩ := Option.ne_none_iff_exists'.mp h.handle
  rw [slotAddr_eq H u h.current heh, h.slotAt]

/-- A slot that the tracee does not stand at gets its trap. -/
theorem Debugged.patchSlot_away (h : Debugged H B w p n T) (env : Env K)
    (hi : (w.sdb.breaks i).isUsed)
    (away : w.sdb.site H p.image i ≠ (H.native p.image.cpu n).rip) :
    ∃ u, patchSlot H env i w = (u, .next) ∧
      Passed H B w.sdb p.image n (fun j => T j ∨ j = i) u := by
  have rip : p.cpu.regs.rip ≠ w.sdb.site H p.image i := by
    rw [h.regs]
    exact Ne.symm away
  rw [patchSlot_of_used H env hi (h.slotAddr _ i)]
  exact h.patchAt hi (by rw [stepOver_eq H env h.tracee, if_neg rip])

/-- The bytes of the next instruction are the program's own if no trap is in its place. -/
theorem Debugged.ownInsn (h : Debugged H B w p n T)
    (free : ∀ i, T i → w.sdb.site H p.image i ≠ (H.native p.image.cpu n).rip) :
    p.OwnInsn H.toPlatform n := by
  intro k hk
  by_cases inText : p.image.text (byteAddr (H.native p.image.cpu n).rip k)
  · rw [h.good.self.native_text h.inStep.reaches inText]
    refine h.armed.own _ inText fun i set here => ?_
    cases k with
    | zero => exact free i set (by rw [here, byteAddr_zero])
    | succ k =>
        have boundary := (h.good.boundary _ (h.within i (h.armed.used i set))).2
        exact boundary n h.inStep.reaches (k + 1) (Nat.succ_pos k) hk here
  · exact h.inStep.mirrors.mem _ inText

/-- An instruction of its own takes the tracee one further and leaves the traps. -/
theorem Debugged.advance (h : Debugged H B w p n T)
    (free : ∀ i, T i → w.sdb.site H p.image i ≠ (H.native p.image.cpu n).rip)
    (goesOn : H.halt (H.native p.image.cpu n) = none) :
    H.halt p.cpu = none ∧ (p.advance H.toPlatform).InStep H.toPlatform (n + 1) ∧
      Armed H w.sdb T (p.advance H.toPlatform) := by
  have own := h.ownInsn free
  obtain ⟨-, halt, -, text⟩ := h.inStep.fetch h.good.self own
  have halt : H.halt p.cpu = none := halt.trans goesOn
  refine ⟨halt, ?_, h.armed.used, fun i set => ?_, fun a inText away => ?_, h.armed.saved⟩
  · rcases h.inStep.advance h.good.self own with ⟨-, next⟩ | ⟨⟨status, ends⟩, -⟩
    · exact next
    · rw [halt] at ends
      cases ends
  · have inText := h.good.inside _ (h.within i (h.armed.used i set)) 0 (by decide)
    rw [byteAddr_zero] at inText
    exact (text _ inText).trans (h.armed.trap i set)
  · exact (text a inText).trans (h.armed.own a inText away)

theorem Debugged.setChild (h : Debugged H B w p n T) {m : Nat} (image : q.image = p.image)
    (inStep : q.InStep H.toPlatform m) (armed : Armed H w.sdb U q) :
    Debugged H B (w.setChild (.live .stopped q)) q m U where
  current := World.current_setChild _ _
  running := h.running
  alone := h.setChild_alone _
  handle := h.handle
  within := h.within
  distinct := h.distinct
  good := by rw [image]; exact h.good
  inStep := inStep
  armed := armed

/-- The slot that the tracee stands at is stepped over before it gets its trap. -/
theorem Debugged.patchSlot_at (h : Debugged H B w p n T) (hi : (w.sdb.breaks i).isUsed)
    (free : ¬ T i) (here : w.sdb.site H p.image i = (H.native p.image.cpu n).rip)
    (goesOn : H.halt (H.native p.image.cpu n) = none) (waits : env.waits (.slot i)) :
    ∃ u, patchSlot H env i w = (u, .next) ∧
      Passed H B w.sdb p.image (n + 1) (fun j => T j ∨ j = i) u := by
  have away : ∀ j, T j → w.sdb.site H p.image j ≠ (H.native p.image.cpu n).rip := by
    intro j set same
    have ne : i ≠ j := by
      rintro rfl
      exact free set
    have apart := h.good.apart_slots h.within h.distinct hi (h.armed.used j set) ne (k := 0)
      (by decide)
    rw [byteAddr_zero] at apart
    exact apart (here.trans same.symm)
  obtain ⟨halt, inStep, armed⟩ := h.advance away goesOn
  have rip : p.cpu.regs.rip = w.sdb.site H p.image i := by
    rw [h.regs]
    exact here.symm
  have past : stepOver H env i (w.sdb.site H p.image i) w =
      w.setChild (.live .stopped (p.advance H.toPlatform)) := by
    rw [stepOver_eq H env h.tracee, if_pos rip, Child.stepped, halt]
    simp only [waits, if_true]
  have ready := h.setChild (q := p.advance H.toPlatform) rfl inStep armed
  rw [patchSlot_of_used H env hi (h.slotAddr _ i)]
  exact ready.patchAt hi past

theorem Passed.congr (h : Passed H B s image n T v) (same : ∀ i, U i ↔ T i) :
    Passed H B s image n U v := by
  obtain rfl : U = T := funext fun i => propext (same i)
  exact h

/-- A pass over slots that the tracee does not stand at puts their traps in place. -/
theorem Debugged.patchFrom_away (h : Debugged H B w p n T) (env : Env K) (is : List Slot)
    (away : ∀ i ∈ is, (w.sdb.breaks i).isUsed →
      w.sdb.site H p.image i ≠ (H.native p.image.cpu n).rip) :
    ∃ u, patchFrom H env is w = (u, none) ∧
      Passed H B w.sdb p.image n (fun j => T j ∨ j ∈ is ∧ (w.sdb.breaks j).isUsed) u := by
  induction is generalizing w p T with
  | nil =>
      refine ⟨w, rfl, .refl _, p, rfl, ?_⟩
      refine { h with armed := h.armed.congr fun j => or_iff_left ?_ }
      rintro ⟨none, -⟩
      cases none
  | cons i is ih =>
      have others : ∀ j ∈ is, (w.sdb.breaks j).isUsed →
          w.sdb.site H p.image j ≠ (H.native p.image.cpu n).rip :=
        fun j mem => away j (List.mem_cons_of_mem i mem)
      by_cases used : (w.sdb.breaks i).isUsed
      · obtain ⟨v, slot, table, q, same, ready⟩ :=
          h.patchSlot_away env used (away i List.mem_cons_self used)
        have rest := ih ready fun j mem hj => by
          rw [SDB.site, table.slotAt, same]
          rw [table.isUsed] at hj
          exact others j mem hj
        obtain ⟨u, pass, table', r, same', last⟩ := rest
        refine ⟨u, ?_, table.trans table', r, same'.trans same, ?_⟩
        · rw [patchFrom_cons H env (by rw [slot]), slot, pass]
        · refine { last with armed := last.armed.congr fun j => ?_ }
          rw [table.isUsed, List.mem_cons, or_and_right, or_assoc]
          refine or_congr_right (or_congr_left ?_)
          exact ⟨fun both => both.1, fun same => ⟨same, same ▸ used⟩⟩
      · have slot := patchSlot_of_unused H env used
        obtain ⟨u, pass, passed⟩ := ih h others
        refine ⟨u, ?_, passed.congr fun j => ?_⟩
        · rw [patchFrom_cons H env (by rw [slot]), slot, pass]
        rw [List.mem_cons, or_and_right]
        refine or_congr_right (or_iff_right ?_)
        rintro ⟨rfl, used'⟩
        exact used used'

/-- A pass over a slot that the tracee stands at steps over it once, if no slot behind it
is where the tracee gets to. -/
theorem Debugged.patchFrom_at {is : List Slot} (sorted : is.Pairwise (· < ·))
    (h : Debugged H B w p n T) (mem : i ∈ is) (hi : (w.sdb.breaks i).isUsed) (free : ¬ T i)
    (here : w.sdb.site H p.image i = (H.native p.image.cpu n).rip)
    (goesOn : H.halt (H.native p.image.cpu n) = none) (waits : env.waits (.slot i))
    (clear : ∀ j, i < j → (w.sdb.breaks j).isUsed →
      w.sdb.site H p.image j ≠ (H.native p.image.cpu (n + 1)).rip) :
    ∃ u, patchFrom H env is w = (u, none) ∧
      Passed H B w.sdb p.image (n + 1) (fun j => T j ∨ j ∈ is ∧ (w.sdb.breaks j).isUsed) u := by
  induction is generalizing w p T with
  | nil => cases mem
  | cons j is ih =>
      obtain ⟨before, sorted⟩ := List.pairwise_cons.mp sorted
      by_cases used : (w.sdb.breaks j).isUsed
      · -- the slot itself, or one before it, which the tracee does not stand at
        have visit : ∃ v m, patchSlot H env j w = (v, .next) ∧
            Passed H B w.sdb p.image m (fun k => T k ∨ k = j) v ∧
            (m = n + 1 ∧ j = i ∨ m = n ∧ i ∈ is ∧ j ≠ i) := by
          by_cases same : j = i
          · subst same
            obtain ⟨v, slot, passed⟩ := h.patchSlot_at used free here goesOn waits
            exact ⟨v, n + 1, slot, passed, .inl ⟨rfl, rfl⟩⟩
          · have apart := h.good.apart_slots h.within h.distinct used hi same (k := 0) (by decide)
            rw [byteAddr_zero, here] at apart
            obtain ⟨v, slot, passed⟩ := h.patchSlot_away env used apart
            have later := (List.mem_cons.mp mem).resolve_left (Ne.symm same)
            exact ⟨v, n, slot, passed, .inr ⟨rfl, later, same⟩⟩
        obtain ⟨v, m, slot, ⟨table, q, image, ready⟩, place⟩ := visit
        have rest : ∃ u, patchFrom H env is v = (u, none) ∧
            Passed H B v.sdb q.image (n + 1)
              (fun k => (T k ∨ k = j) ∨ k ∈ is ∧ (v.sdb.breaks k).isUsed) u := by
          obtain ⟨rfl, rfl⟩ | ⟨rfl, mem, ne⟩ := place
          · refine ready.patchFrom_away env _ fun k mem hk => ?_
            rw [SDB.site, table.slotAt, image]
            rw [table.isUsed] at hk
            exact clear k (before k mem) hk
          · refine ih sorted ready mem (by rwa [table.isUsed]) ?_ ?_ ?_ fun k later hk => ?_
            · rintro (set | rfl)
              · exact free set
              · exact ne rfl
            · rw [SDB.site, table.slotAt, image]
              exact here
            · rw [image]
              exact goesOn
            · rw [SDB.site, table.slotAt, image]
              rw [table.isUsed] at hk
              exact clear k later hk
        obtain ⟨u, pass, table', r, image', last⟩ := rest
        refine ⟨u, ?_, table.trans table', r, image'.trans image, ?_⟩
        · rw [patchFrom_cons H env (by rw [slot]), slot, pass]
        · refine { last with armed := last.armed.congr fun k => ?_ }
          rw [table.isUsed, List.mem_cons, or_and_right, or_assoc]
          refine or_congr_right (or_congr_left ?_)
          exact ⟨fun both => both.1, fun same => ⟨same, same ▸ used⟩⟩
      · have slot := patchSlot_of_unused H env used
        have mem : i ∈ is := (List.mem_cons.mp mem).resolve_left fun same => used (same ▸ hi)
        obtain ⟨u, pass, passed⟩ := ih sorted h mem hi free here goesOn clear
        refine ⟨u, ?_, passed.congr fun k => ?_⟩
        · rw [patchFrom_cons H env (by rw [slot]), slot, pass]
        rw [List.mem_cons, or_and_right]
        refine or_congr_right (or_iff_right ?_)
        rintro ⟨rfl, used'⟩
        exact used used'

theorem Debugged.all_iff (h : Debugged H B w p n T) (i : Slot) :
    (w.sdb.breaks i).isUsed ↔ T i ∨ i ∈ slots ∧ (w.sdb.breaks i).isUsed :=
  ⟨fun used => .inr ⟨mem_slots i, used⟩, fun either => either.elim (h.armed.used i) And.right⟩

/-- After a whole pass all traps are in place. -/
theorem Debugged.pass_away (h : Debugged H B w p n T) (env : Env K)
    (away : ∀ i, (w.sdb.breaks i).isUsed →
      w.sdb.site H p.image i ≠ (H.native p.image.cpu n).rip) :
    ∃ u, sdbPatchAllBp H env w = (u, none) ∧
      Passed H B w.sdb p.image n (fun i => (w.sdb.breaks i).isUsed) u := by
  obtain ⟨u, pass, passed⟩ := h.patchFrom_away env slots fun i _ => away i
  exact ⟨u, pass, passed.congr h.all_iff⟩

theorem Debugged.pass_at (h : Debugged H B w p n T) (hi : (w.sdb.breaks i).isUsed) (free : ¬ T i)
    (here : w.sdb.site H p.image i = (H.native p.image.cpu n).rip)
    (goesOn : H.halt (H.native p.image.cpu n) = none) (waits : env.waits (.slot i))
    (clear : ∀ j, i < j → (w.sdb.breaks j).isUsed →
      w.sdb.site H p.image j ≠ (H.native p.image.cpu (n + 1)).rip) :
    ∃ u, sdbPatchAllBp H env w = (u, none) ∧
      Passed H B w.sdb p.image (n + 1) (fun i => (w.sdb.breaks i).isUsed) u := by
  obtain ⟨u, pass, passed⟩ :=
    h.patchFrom_at slots_sorted (mem_slots i) hi free here goesOn waits clear
  exact ⟨u, pass, passed.congr h.all_iff⟩

end Sdb
