import AdvancedUnix.Traced.Basic

/-!
# Executing a patched program in step with the original one

`native` is the execution of a program with nobody attached. A tool that
patches bytes of the program's text runs a process whose memory differs from
the native one inside the text only. `Mirrors` is that relation between the
two processor states, and `IgnoresText` says of an instruction that the text
is nothing to it but the bytes it is fetched from. An instruction that is
fetched from the program's own bytes then keeps the two states in step.

`executed` reads the instructions off the history of a process. An executed
trap is a stop and not an instruction of the program, so it is not counted;
whatever the tool makes of the stop shows in the instructions that follow.
-/

namespace Traced

open Memory

variable {K : Type} (P : Platform K)

namespace Platform

/-- The state after `n` instructions with nobody attached. -/
def native (c : Cpu K) (n : Nat) : Cpu K := P.next^[n] c

@[simp] theorem native_zero (c : Cpu K) : P.native c 0 = c := rfl

theorem native_succ (c : Cpu K) (n : Nat) : P.native c (n + 1) = P.next (P.native c n) :=
  Function.iterate_succ_apply' _ _ _

/-- The native execution gets to its instruction number `n`. -/
def Reaches (c : Cpu K) (n : Nat) : Prop := ∀ k < n, P.halt (P.native c k) = none

theorem reaches_succ {c : Cpu K} {n : Nat} (h : P.Reaches c n)
    (hn : P.halt (P.native c n) = none) : P.Reaches c (n + 1) := by
  intro k hk
  rcases Nat.lt_succ_iff_lt_or_eq.mp hk with hlt | rfl
  · exact h k hlt
  · exact hn

/-- An instruction as it is fetched: its address and its bytes. -/
def fetch (c : Cpu K) : Addr × List (Option Byte) :=
  (c.rip, (List.range (P.len c)).map fun k => c.mem (byteAddr c.rip k))

/-- The first `n` instructions of the native execution. -/
def nativeTrace (c : Cpu K) (n : Nat) : List (Addr × List (Option Byte)) :=
  (List.range n).map fun k => P.fetch (P.native c k)

theorem nativeTrace_succ (c : Cpu K) (n : Nat) :
    P.nativeTrace c (n + 1) = P.nativeTrace c n ++ [P.fetch (P.native c n)] := by
  simp [nativeTrace, List.range_succ]

/-- The instruction completes, or ends the process, without raising a signal. -/
def completes (c : Cpu K) : Bool :=
  match P.halt c with
  | some (.signal _) => false
  | _ => true

end Platform

/-- The instructions that the process has executed so far, the earliest first. -/
def Proc.executed (p : Proc K) : List (Addr × List (Option Byte)) :=
  ((p.history.filter P.completes).map P.fetch).reverse

/-- What the process executed is a prefix of the native execution of its image. -/
def Proc.Transparent (p : Proc K) : Prop :=
  ∃ n, (∀ k, k + 1 < n → P.halt (P.native p.image.cpu k) = none) ∧
    p.executed P = P.nativeTrace p.image.cpu n

/-- Outside the text the two states are the same. -/
structure Mirrors (text : Addr → Prop) (c d : Cpu K) : Prop where
  regs : d.regs = c.regs
  ext : d.ext = c.ext
  mem : ∀ a, ¬ text a → d.mem a = c.mem a

/-- Executing the instruction at `c` neither reads nor writes the text: with
any other bytes there, its own apart, it does the same and leaves them as they are. -/
def IgnoresText (text : Addr → Prop) (c : Cpu K) : Prop :=
  ∀ d, Mirrors text c d → (∀ k < P.len c, d.mem (byteAddr c.rip k) = c.mem (byteAddr c.rip k)) →
    P.len d = P.len c ∧ P.halt d = P.halt c ∧ Mirrors text (P.next c) (P.next d) ∧
      ∀ a, text a → (P.next d).mem a = d.mem a

/-- A program that raises no signals itself and, as long as it runs, neither
reads nor writes its own text. -/
structure SelfContained (image : Image K) : Prop where
  noSignal : ∀ n, P.Reaches image.cpu n → ∀ sig, P.halt (P.native image.cpu n) ≠ some (.signal sig)
  ignoresText : ∀ n, P.Reaches image.cpu n → IgnoresText P image.text (P.native image.cpu n)

/-- `a` is in the text, and strictly inside no instruction that the program executes. -/
def Image.Boundary (image : Image K) (a : Addr) : Prop :=
  image.text a ∧ ∀ n, P.Reaches image.cpu n → ∀ k, 0 < k → k < P.len (P.native image.cpu n) →
    a ≠ byteAddr (P.native image.cpu n).rip k

theorem Mirrors.refl (text : Addr → Prop) (c : Cpu K) : Mirrors text c c :=
  ⟨rfl, rfl, fun _ _ => rfl⟩

variable {P} {image : Image K}

/-- A program that does not write its own text still has it after any number
of instructions. -/
theorem SelfContained.native_text (h : SelfContained P image) {n : Nat}
    (reach : P.Reaches image.cpu n) {a : Addr} (ha : image.text a) :
    (P.native image.cpu n).mem a = image.cpu.mem a := by
  induction n with
  | zero => rfl
  | succ n ih =>
      have reach' : P.Reaches image.cpu n := fun k hk => reach k (Nat.lt_succ_of_lt hk)
      rw [P.native_succ]
      have keeps := (h.ignoresText n reach' _ (.refl _ _) fun _ _ => rfl).2.2.2
      rw [keeps a ha, ih reach']

/-- The process has executed the first `n` native instructions and stands at
the next one, with the native registers and data. -/
structure Proc.InStep (P : Platform K) (p : Proc K) (n : Nat) : Prop where
  reaches : P.Reaches p.image.cpu n
  mirrors : Mirrors p.image.text (P.native p.image.cpu n) p.cpu
  executed : p.executed P = P.nativeTrace p.image.cpu n

theorem Proc.InStep.transparent {p : Proc K} {n : Nat} (h : p.InStep P n) : p.Transparent P :=
  ⟨n, fun k hk => h.reaches k (by omega), h.executed⟩

theorem Image.load_inStep (image : Image K) : image.load.InStep P 0 :=
  ⟨fun k hk => absurd hk (Nat.not_lt_zero k), .refl _ _, rfl⟩

/-- Every byte of the next native instruction is in place. -/
def Proc.OwnInsn (P : Platform K) (p : Proc K) (n : Nat) : Prop :=
  ∀ k < P.len (P.native p.image.cpu n),
    p.cpu.mem (byteAddr (P.native p.image.cpu n).rip k) =
      (P.native p.image.cpu n).mem (byteAddr (P.native p.image.cpu n).rip k)

/-- If the next instruction is in the text, its first byte is the program's own. -/
def Proc.OwnByte (p : Proc K) : Prop :=
  p.image.text p.cpu.rip → p.cpu.mem p.cpu.rip = p.image.cpu.mem p.cpu.rip

theorem Proc.executed_advance {p : Proc K} :
    (p.advance P).executed P =
      p.executed P ++ (if P.completes p.cpu then [P.fetch p.cpu] else []) := by
  simp only [Proc.executed, Proc.advance_history, List.filter_cons]
  split <;> simp

/-- The instruction that a process in step is about to execute is the native one. -/
theorem Proc.InStep.fetch {p : Proc K} {n : Nat} (h : p.InStep P n)
    (self : SelfContained P p.image) (own : p.OwnInsn P n) :
    P.fetch p.cpu = P.fetch (P.native p.image.cpu n) ∧
      P.halt p.cpu = P.halt (P.native p.image.cpu n) ∧
      Mirrors p.image.text (P.next (P.native p.image.cpu n)) (P.next p.cpu) ∧
      ∀ a, p.image.text a → (P.next p.cpu).mem a = p.cpu.mem a := by
  obtain ⟨len, halt, mirrors, text⟩ := self.ignoresText n h.reaches p.cpu h.mirrors own
  refine ⟨?_, halt, mirrors, text⟩
  have hrip : p.cpu.rip = (P.native p.image.cpu n).rip := by rw [Cpu.rip, h.mirrors.regs]
  simp only [Platform.fetch, len, hrip, Prod.mk.injEq, true_and]
  refine List.map_congr_left fun k hk => ?_
  exact own k (List.mem_range.mp hk)

/-- Executing an instruction that is in place keeps the process in step, or
ends it after the last native instruction. -/
theorem Proc.InStep.advance {p : Proc K} {n : Nat} (h : p.InStep P n)
    (self : SelfContained P p.image) (own : p.OwnInsn P n) :
    (P.halt p.cpu = none ∧ (p.advance P).InStep P (n + 1)) ∨
      ((∃ status, P.halt p.cpu = some (.exit status)) ∧ (p.advance P).Transparent P) := by
  obtain ⟨fetched, halted, mirrors, -⟩ := h.fetch self own
  have completes : P.completes p.cpu = true := by
    unfold Platform.completes
    rw [halted]
    split
    · rename_i hsig
      exact absurd hsig (self.noSignal n h.reaches _)
    · rfl
  have trace : (p.advance P).executed P = P.nativeTrace p.image.cpu (n + 1) := by
    rw [Proc.executed_advance, completes, if_pos rfl, h.executed, fetched, P.nativeTrace_succ]
  cases hh : P.halt p.cpu with
  | none =>
      refine .inl ⟨rfl, P.reaches_succ h.reaches (halted ▸ hh), ?_, trace⟩
      rw [Proc.advance_image, P.native_succ]
      exact mirrors
  | some halt =>
      cases halt with
      | signal sig => exact absurd (halted ▸ hh) (self.noSignal n h.reaches sig)
      | exit status =>
          refine .inr ⟨⟨status, rfl⟩, n + 1, fun k hk => ?_, trace⟩
          exact h.reaches k (by omega)

/-- An executed trap is not counted. -/
theorem Proc.executed_advance_trap {p : Proc K} (trap : p.cpu.mem p.cpu.rip = some trapByte) :
    (p.advance P).executed P = p.executed P := by
  have completes : P.completes p.cpu = false := by
    rw [Platform.completes, P.halt_trap trap]
  rw [Proc.executed_advance, completes]
  simp

/-- Writing outside the text nothing but what is there, and moving nowhere, keeps
the process in step. -/
theorem Proc.InStep.write {p : Proc K} {n : Nat} (h : p.InStep P n) {m : Mem}
    (outside : ∀ a, ¬ p.image.text a → m a = p.cpu.mem a) : (p.setMem m).InStep P n :=
  ⟨h.reaches, ⟨h.mirrors.regs, h.mirrors.ext, fun a ha =>
    (outside a ha).trans (h.mirrors.mem a ha)⟩, h.executed⟩

end Traced
