import AdvancedUnix.Sdb.Text
import AdvancedUnix.Traced.Transparency

/-!
# A tracee that follows its program

`Followed` says that the tracee is in step with the native execution of its
program. With an intact text it stays so while it executes its own bytes, and
the only other thing it can execute is the trap of a used slot: `Trapped` is the
state after that, from which one step back leads to a tracee that follows its
program again.
-/

namespace Sdb

open Memory Traced

variable {K : Type}

/-- A program that breakpoints at the addresses `B` of its file do not disturb. It
leaves its text alone and stays where it is mapped, and at run time the
addresses are boundaries between its instructions. -/
structure Suitable (H : Host K) (s : SDB) (B : Addr → Prop) (image : Image K) : Prop where
  self : SelfContained H.toPlatform image
  stays : ∀ n, H.Reaches image.cpu n → ∀ a,
    s.runtime H (H.native image.cpu n).ext a = s.runtime H image.cpu.ext a
  boundary : ∀ a, B a → image.Boundary H.toPlatform (s.runtime H image.cpu.ext a)

/-- The tracee is in step with its program, which it has not left on the way. -/
structure Followed (H : Host K) (B : Addr → Prop) (s : SDB) (p : Proc K) : Prop where
  suitable : Suitable H s B p.image
  inStep : ∃ n, p.InStep H.toPlatform n
  kept : Kept H s p

/-- All breakpoints are at addresses in `B`. -/
def SDB.Within (s : SDB) (B : Addr → Prop) : Prop :=
  ∀ i, (s.breaks i).isUsed → B (s.breaks i).addr

/-- The tracee has just executed the trap of a used slot. -/
def Trapped (H : Host K) (B : Addr → Prop) (s : SDB) (p : Proc K) : Prop :=
  ∃ r : Proc K, Followed H B s r ∧ p = r.advance H.toPlatform ∧
    r.cpu.mem r.cpu.rip = some trapByte ∧ ∃ i, (s.breaks i).isUsed ∧
      s.slotAt H r.cpu.ext i = r.cpu.rip

/-- Outside the text the word is what is there anyway. -/
def KeepsData (p : Proc K) (a : Addr) (word : Word) : Prop :=
  ∀ k < 8, ¬ p.image.text (byteAddr a k) → p.cpu.mem (byteAddr a k) = some (byteOf word k)

variable {H : Host K} {B : Addr → Prop} {s t : SDB} {p : Proc K}

theorem Suitable.congr (heh : t.eh = s.eh) (hpath : t.path = s.path) {image : Image K}
    (h : Suitable H s B image) : Suitable H t B image := by
  have same : t.runtime H = s.runtime H := SDB.runtime_congr heh hpath
  refine ⟨h.self, ?_, ?_⟩ <;> rw [same]
  · exact h.stays
  · exact h.boundary

theorem Followed.congr (heh : t.eh = s.eh) (hpath : t.path = s.path) (h : Followed H B s p) :
    Followed H B t p :=
  ⟨h.suitable.congr heh hpath, h.inStep, h.kept.congr heh.symm hpath.symm⟩

theorem Followed.transparent (h : Followed H B s p) : p.Transparent H.toPlatform := by
  obtain ⟨n, inStep⟩ := h.inStep
  exact inStep.transparent

theorem Followed.load {image : Image K} (h : Suitable H s B image) : Followed H B s image.load :=
  ⟨h, ⟨0, image.load_inStep⟩, fun _ hc => nomatch hc⟩

/-- The slots are where they were when the program was loaded. -/
theorem Followed.runtime (h : Followed H B s p) (a : Addr) :
    s.runtime H p.cpu.ext a = s.runtime H p.image.cpu.ext a := by
  obtain ⟨n, inStep⟩ := h.inStep
  rw [inStep.mirrors.ext, h.suitable.stays n inStep.reaches]

/-- The trap of a used slot is put into the text. -/
theorem Followed.text_slotAt (h : Followed H B s p) (within : s.Within B) {i : Slot}
    (used : (s.breaks i).isUsed) : p.image.text (s.slotAt H p.cpu.ext i) := by
  rw [SDB.slotAt, h.runtime]
  exact (h.suitable.boundary _ (within i used)).1

/-- With an intact text, an own first byte makes the whole instruction own. -/
theorem Followed.ownInsn (h : Followed H B s p) (within : s.Within B) (text : TextIntact H s p)
    (own : p.OwnByte) {n : Nat} (inStep : p.InStep H.toPlatform n) :
    p.OwnInsn H.toPlatform n := by
  intro k hk
  have rip : (H.native p.image.cpu n).rip = p.cpu.rip :=
    (congrArg UserRegs.rip inStep.mirrors.regs).symm
  by_cases inText : p.image.text (byteAddr (H.native p.image.cpu n).rip k)
  · rw [h.suitable.self.native_text inStep.reaches inText]
    rcases text _ inText with same | ⟨-, i, used, at_⟩
    · exact same
    · rw [SDB.slotAt, h.runtime] at at_
      have boundary := (h.suitable.boundary _ (within i used)).2 n inStep.reaches k
      cases k with
      | zero =>
          rw [byteAddr_zero, rip] at inText ⊢
          exact own inText
      | succ k => exact absurd at_ (boundary (Nat.succ_pos k) hk)
  · exact inStep.mirrors.mem _ inText

/-- Executing its own instruction, the tracee keeps following its program or ends. -/
theorem Followed.advance (h : Followed H B s p) (within : s.Within B) (text : TextIntact H s p)
    (own : p.OwnByte) :
    (H.halt p.cpu = none ∧ Followed H B s (p.advance H.toPlatform)) ∨
      ((∃ status, H.halt p.cpu = some (.exit status)) ∧
        (p.advance H.toPlatform).Transparent H.toPlatform) := by
  obtain ⟨n, inStep⟩ := h.inStep
  have insn := h.ownInsn within text own inStep
  refine (inStep.advance h.suitable.self insn).imp (fun next => ?_) fun last => last
  refine ⟨next.1, h.suitable, ⟨n + 1, next.2⟩, fun c hc => ?_⟩
  rcases List.mem_cons.mp hc with rfl | hc
  · refine ⟨(inStep.fetch h.suitable.self insn).2.2.2, fun a => ?_⟩
    have after := h.suitable.stays (n + 1) next.2.reaches a
    have ext := next.2.mirrors.ext
    rw [Proc.advance_cpu, Proc.advance_image] at ext
    rw [ext, after, h.runtime]
  · exact h.kept c hc

/-- Anything else that it can execute is the trap of a used slot. -/
theorem Followed.trap (h : Followed H B s p) (text : TextIntact H s p) (other : ¬ p.OwnByte) :
    Trapped H B s (p.advance H.toPlatform) ∧ H.halt p.cpu = some (.signal sigtrap) := by
  simp only [Proc.OwnByte, Classical.not_imp] at other
  obtain ⟨inText, other⟩ := other
  rcases text _ inText with own | ⟨trap, slot⟩
  · exact absurd own other
  · exact ⟨⟨p, h, rfl, trap, slot⟩, H.halt_trap trap⟩

theorem Trapped.transparent (h : Trapped H B s p) : p.Transparent H.toPlatform := by
  obtain ⟨r, followed, rfl, trap, -⟩ := h
  obtain ⟨n, halts, executed⟩ := followed.transparent
  exact ⟨n, halts, (Proc.executed_advance_trap trap).trans executed⟩

/-- The slot whose trap was executed is one before `rip`. -/
theorem Trapped.slotBehind (h : Trapped H B s p) :
    (s.slotBehind H p.cpu.ext p.cpu.rip).isSome := by
  obtain ⟨r, -, rfl, trap, i, used, at_⟩ := h
  rw [Option.isSome_iff_ne_none]
  intro none
  refine SDB.slotBehind_eq_none.mp none i used ?_
  have next := H.next_trap trap
  rw [Proc.advance_cpu, next, Cpu.setRip_ext, at_]
  exact (BitVec.add_sub_cancel _ _).symm

/-- Moved back by one, the tracee follows its program again. -/
theorem Trapped.back (h : Trapped H B s p) {m : Mem}
    (outside : ∀ a, ¬ p.image.text a → m a = p.cpu.mem a) :
    Followed H B s ((p.setMem m).setRegs { p.cpu.regs with rip := p.cpu.regs.rip - 1 }) := by
  obtain ⟨r, followed, rfl, trap, -⟩ := h
  have next := H.next_trap trap
  obtain ⟨n, inStep⟩ := followed.inStep
  refine ⟨followed.suitable, ⟨n, inStep.reaches, ⟨?_, ?_, fun a ha => ?_⟩, ?_⟩, fun c hc => ?_⟩
  · have regs : { r.cpu.regs with rip := r.cpu.regs.rip + 1 - 1 } = r.cpu.regs := by
      rw [BitVec.add_sub_cancel]
    rw [Proc.setRegs_regs, Proc.advance_cpu, next]
    exact regs.trans inStep.mirrors.regs
  · rw [Proc.setRegs_ext, Proc.setMem_ext, Proc.advance_cpu, next]
    exact inStep.mirrors.ext
  · have same : m a = r.cpu.mem a := by
      rw [outside a ha, Proc.advance_cpu, next, Cpu.setRip_mem]
    exact same.trans (inStep.mirrors.mem a ha)
  · exact (Proc.executed_advance_trap trap).trans inStep.executed
  · rcases List.mem_cons.mp hc with rfl | hc
    · rw [next]
      exact ⟨fun a _ => rfl, fun a => rfl⟩
    · exact followed.kept c hc

/-- How a resumed tracee that follows its program can be found. -/
def Resumed (H : Host K) (B : Addr → Prop) (s : SDB) : Proc K × Option Halt → Prop
  | (q, none) => Followed H B s q
  | (q, some (.signal _)) => Trapped H B s q
  | (q, some (.exit _)) => q.Transparent H.toPlatform

theorem Followed.resume (h : Followed H B s p) (within : s.Within B) (text : TextIntact H s p)
    (n : Nat) : Resumed H B s (p.resume H.toPlatform n) := by
  induction n generalizing p with
  | zero => exact h
  | succ n ih =>
      unfold Proc.resume
      by_cases own : p.OwnByte
      · rcases h.advance within text own with ⟨halt, next⟩ | ⟨⟨status, halt⟩, last⟩
        · simp only [halt]
          have intact : Intact H s p := fun _ => text
          exact ih next (intact.advance next.kept)
        · simp only [halt]
          exact last
      · obtain ⟨trapped, halt⟩ := h.trap text own
        simp only [halt]
        exact trapped

/-- A write that keeps the data. -/
theorem Followed.write (h : Followed H B s p) {m : Mem}
    (outside : ∀ a, ¬ p.image.text a → m a = p.cpu.mem a) : Followed H B s (p.setMem m) := by
  obtain ⟨n, inStep⟩ := h.inStep
  exact ⟨h.suitable, ⟨n, inStep.write outside⟩, h.kept⟩

theorem KeepsData.outside {a : Addr} {word : Word} (h : KeepsData p a word) {m : Mem}
    (write : writeWord p.cpu.mem a word = some m) {b : Addr} (hb : ¬ p.image.text b) :
    m b = p.cpu.mem b := by
  by_cases inside : ∃ k < 8, b = byteAddr a k
  · obtain ⟨k, hk, rfl⟩ := inside
    rw [writeWord_inside write hk, h k hk hb]
  · simp only [not_exists, not_and] at inside
    exact writeWord_outside write inside

end Sdb
