import AdvancedUnix.Libmini.Sigsets

/-!
# An account of the signals

What a program finds out about its signals can be told without words and
addresses: its set variables hold sets of signals, each jump buffer holds a
context and a set, and the kernel holds two sets more. The account is read off
a process and follows it act by act, whatever else the program does, as long as
it leaves the sets and the buffers alone and calls with the stack clear of them.

A jump through a buffer does not set the blocked signals to those of the buffer;
it adds them, and the account does the same.
-/

namespace Libmini

open Memory X86 Runs

universe u v

variable {V : Type u} {E : Type v}

/-- The signals that no set can block. -/
def unblockables : Set Nat := {sigkill, sigstop}

/-- Sets for the set variables, a context and a set for each jump buffer, and
what the kernel and the library hold. -/
@[ext] structure Account (V : Type u) (E : Type v) where
  sets : V → Set Nat
  contexts : E → Context
  masks : E → Set Nat
  blocked : Set Nat
  pending : Set Nat
  errno : Word
  results : List Result

namespace Account

variable [DecidableEq V] [DecidableEq E] (a : Account V E)

def deliver : Account V E := { a with pending := a.pending ∩ a.blocked }

def answer (r : Result) : Account V E := { a with results := a.results ++ [r] }

/-- The blocked signals after a call of `sigprocmask`, unless it is refused. -/
def nextBlocked (how : BitVec 32) : Option V → Option (Set Nat)
  | none => some a.blocked
  | some v =>
      if how = sigBlock then some (a.blocked ∪ (a.sets v \ unblockables))
      else if how = sigUnblock then some (a.blocked \ (a.sets v \ unblockables))
      else if how = sigSetmask then some (a.sets v \ unblockables)
      else none

def putSet (v : V) (set : Set Nat) : Account V E :=
  { a with sets := Function.update a.sets v set }

/-- Put a set into a variable that may be missing. -/
def putOption (set : Set Nat) : Option V → Account V E
  | none => a
  | some v => a.putSet v set

open Classical in
/-- What an act does. -/
noncomputable def step : Act V E → Account V E
  | .sigemptyset v => a.putSet v ∅
  | .sigfillset v => a.putSet v {n | 1 ≤ n ∧ n ≤ 64}
  | .sigaddset v sig => a.putSet v (a.sets v ∪ {sig.toNat})
  | .sigdelset v sig => a.putSet v (a.sets v \ {sig.toNat})
  | .sigismember v sig => a.answer (.value (if sig.toNat ∈ a.sets v then 1 else 0))
  | .sigprocmask how set oset =>
      match a.nextBlocked how set with
      | none => deliver { a.answer (.value (-1)) with errno := einval }
      | some blocked =>
          deliver { (a.putOption a.blocked oset).answer (.value 0) with blocked, errno := 0 }
  | .sigpending none => deliver { a.answer (.value (-1)) with errno := efault }
  | .sigpending (some v) =>
      deliver { (a.putSet v (a.pending ∩ a.blocked)).answer (.value 0) with errno := 0 }
  | .setjmp e caller =>
      deliver { a.answer (.returns caller 0) with
        contexts := Function.update a.contexts e caller
        masks := Function.update a.masks e a.blocked
        errno := 0 }
  | .longjmp e val =>
      deliver { a.answer (.returns (a.contexts e) (if val = 0 then 1 else val)) with
        blocked := a.blocked ∪ (a.masks e \ unblockables)
        errno := 0 }
  | .arrival sig => deliver { a with pending := a.pending ∪ {sig.toNat} }

end Account

/-! ### The sets of words -/

theorem signals_zero : signals 0 = ∅ := by
  ext n
  simp [signals]

theorem signals_and (v w : Word) : signals (v &&& w) = signals v ∩ signals w := by
  ext n
  simp only [signals, Set.mem_inter_iff, Set.mem_ofPred_eq, BitVec.getLsbD_and, Bool.and_eq_true]
  exact and_and_left

theorem signals_ones : signals (~~~ 0) = {n | 1 ≤ n ∧ n ≤ 64} := by
  have ones : (~~~ 0 : Word) = BitVec.allOnes 64 := rfl
  ext n
  simp only [signals, ones, BitVec.getLsbD_allOnes, Set.mem_ofPred_eq, decide_eq_true_eq]
  omega

/-- The bit of a signal is the set of that signal. -/
theorem signals_signalBit {sig : BitVec 32} (low : 1 ≤ sig.toNat) (high : sig.toNat ≤ 64) :
    signals (signalBit sig) = {sig.toNat} := by
  have count : (sig - 1).toNat % 64 = sig.toNat - 1 := by bv_omega
  ext n
  simp only [signals, signalBit, count, Set.mem_ofPred_eq, Set.mem_singleton_iff,
    BitVec.getLsbD_shiftLeft, BitVec.getLsbD_one, Bool.and_eq_true, decide_eq_true_eq,
    Bool.not_eq_true', decide_eq_false_iff_not]
  omega

theorem signals_unblockable : signals unblockable = unblockables := by
  have kill : sigmask sigkill = signalBit 9 := by decide
  have stop : sigmask sigstop = signalBit 19 := by decide
  rw [unblockable, signals_or, kill, stop, signals_signalBit (by decide) (by decide),
    signals_signalBit (by decide) (by decide)]
  rfl

theorem signals_blocked (set : Word) :
    (Blocked.ofSet set).signals = signals set \ unblockables := by
  rw [Blocked.signals_ofSet, signals_unblockable]

open Classical in
/-- Testing the bit of a signal is asking whether it is in the set. -/
theorem sigismember_eq {sig : BitVec 32} (low : 1 ≤ sig.toNat) (high : sig.toNat ≤ 64)
    (set : Addr) (m : Bytes) :
    sigismember set sig m = if sig.toNat ∈ signals (load m set) then 1 else 0 := by
  have absent : load m set &&& signalBit sig = 0 ↔ sig.toNat ∉ signals (load m set) := by
    rw [← Set.inter_singleton_eq_empty, ← signals_signalBit low high, ← signals_and,
      ← signals_zero]
    exact ⟨congrArg signals, fun h => signals_injective h⟩
  unfold sigismember
  by_cases member : sig.toNat ∈ signals (load m set)
  · rw [if_pos member, if_pos (fun h => absent.mp h member)]
  · rw [if_neg member, if_neg (not_not.mpr (absent.mpr member))]

/-! ### Reading the account off a process -/

variable (l : Layout V E)

/-- What the sets and the buffers of a program and the kernel hold. -/
def account (p : Signalled) : Account V E where
  sets v := signals (load p.cpu.mem (l.set v))
  contexts e := Context.saved p.cpu.mem (l.env e)
  masks e := signals (load p.cpu.mem (envMask (l.env e)))
  blocked := p.blocked.signals
  pending := signals p.pending
  errno := p.errno
  results := p.results

section

variable {l} {m m' : Bytes} {out : V ⊕ E → Prop} (same : l.AgreeBut out m m')
include same

theorem load_set {v : V} (kept : ¬ out (.inl v)) : load m' (l.set v) = load m (l.set v) := by
  have word : load m' (byteAddr (l.set v) 0) = load m (byteAddr (l.set v) 0) :=
    same.load kept (Nat.le_refl 8)
  rwa [byteAddr_zero] at word

theorem load_mask {e : E} (kept : ¬ out (.inr e)) :
    load m' (envMask (l.env e)) = load m (envMask (l.env e)) :=
  same.load kept (Nat.le_refl 72 : 64 + 8 ≤ 72)

theorem context_env {e : E} (kept : ¬ out (.inr e)) :
    Context.saved m' (l.env e) = Context.saved m (l.env e) :=
  Context.saved_congr fun i hi => same _ kept i (Nat.lt_of_lt_of_le hi (Nat.le_add_right 64 8))

end

theorem account_deliver (p : Signalled) : account l p.deliver = (account l p).deliver := by
  simp only [account, Signalled.deliver, Account.deliver, signals_and]
  rfl

/-- The account is of the objects, not of what lies between them. -/
theorem account_agree {p : Signalled} {cpu : X86.State} (same : l.Agree p.cpu.mem cpu.mem) :
    account l { p with cpu } = account l p := by
  apply Account.ext
  · funext v
    exact congrArg signals (load_set same id)
  · funext e
    exact context_env same id
  · funext e
    exact congrArg signals (load_mask same id)
  · rfl
  · rfl
  · rfl
  · rfl

theorem agreeBut_set (m : Bytes) (v : V) (w : Word) :
    l.AgreeBut (· = .inl v) m (store m (l.set v) w) := by
  have stored : l.AgreeBut (· = .inl v) m (store m (byteAddr (l.set v) 0) w) :=
    Objects.agreeBut_store (show 0 + 8 ≤ objectSize (.inl v) from Nat.le_refl 8) w
  rwa [byteAddr_zero] at stored

variable [DecidableEq V]

/-- A word stored in a set variable changes that set. -/
theorem account_store (p : Signalled) (v : V) (w : Word) :
    account l { p with cpu := p.cpu.setMem (store p.cpu.mem (l.set v) w) } =
      (account l p).putSet v (signals w) := by
  have same := agreeBut_set l p.cpu.mem v w
  apply Account.ext
  · funext u
    show signals (load (store p.cpu.mem (l.set v) w) (l.set u)) = _
    by_cases hu : u = v
    · rw [hu, load_store_same]
      simp only [Account.putSet, Function.update_self]
    · rw [load_set same (by simpa using hu)]
      simp only [Account.putSet, Function.update_of_ne hu, account]
  · funext e
    exact context_env same (by simp)
  · funext e
    exact congrArg signals (load_mask same (by simp))
  · rfl
  · rfl
  · rfl
  · rfl

theorem account_putSet (p : Signalled) (v : V) (w : Word) :
    account l { p with cpu := putSet (l.set v) w p.cpu } = (account l p).putSet v (signals w) := by
  rw [putSet, if_neg (l.set_ne_zero v), account_store]

theorem account_putOption (p : Signalled) (w : Word) (v : Option V) :
    account l { p with cpu := putSet (l.pointer v) w p.cpu } =
      (account l p).putOption (signals w) v := by
  cases v with
  | none => rfl
  | some v => exact account_putSet l p v w

/-! ### The calls -/

omit [DecidableEq V] in
theorem nextMask_signals (p : Signalled) (how : BitVec 32) (set : Option V) :
    (nextMask how (l.pointer set) p.toProcess).map Blocked.signals =
      (account l p).nextBlocked how set := by
  cases set with
  | none => rfl
  | some v =>
      rw [nextMask, Layout.pointer, if_neg (l.set_ne_zero v), maskAfter, Account.nextBlocked]
      split_ifs
      · simp [account, Blocked.signals_union, signals_blocked]
      · simp [account, Blocked.signals_diff, signals_blocked]
      · simp [account, signals_blocked]
      · rfl

/-- A call that the kernel refuses. -/
theorem sigprocmask_refused {how : BitVec 32} {set : Addr} {p : Process}
    (refused : nextMask how set p = none) (oset : Addr) :
    sigprocmask how set oset p = (-1, { p with errno := einval }) := by
  simp [sigprocmask, sysRtSigprocmask, wrapperRetval, retvalInt, refused, einval]

variable [DecidableEq E]

theorem account_sigprocmask (p : Signalled) (how : BitVec 32) (set oset : Option V) :
    account l (p.after (sigprocmask how (l.pointer set) (l.pointer oset) p.toProcess)) =
      (account l p).step (.sigprocmask how set oset) := by
  have next := nextMask_signals l p how set
  rw [Signalled.after, account_deliver, Account.step]
  cases hn : nextMask how (l.pointer set) p.toProcess with
  | none =>
      rw [hn, Option.map_none] at next
      rw [← next, sigprocmask_refused hn]
      rfl
  | some b =>
      rw [hn, Option.map_some] at next
      rw [← next, sigprocmask_of_nextMask hn]
      have stored := account_putOption l p p.blocked.set oset
      rw [show (account l p).blocked = signals p.blocked.set from rfl, ← stored]
      rfl

theorem account_sigpending (p : Signalled) (set : Option V) :
    account l (p.after (sigpending (l.pointer set) p)) =
      (account l p).step (.sigpending set) := by
  rw [Signalled.after, account_deliver]
  cases set with
  | none =>
      rw [Layout.pointer, sigpending_null]
      rfl
  | some v =>
      have stored := account_putSet l p v (p.pending &&& p.blocked.set)
      rw [signals_and] at stored
      rw [Layout.pointer, sigpending_given (l.set_ne_zero v), Account.step,
        show (account l p).pending ∩ (account l p).blocked =
          signals p.pending ∩ signals p.blocked.set from rfl, ← stored]
      rfl

/-- A stretch of the stack shares no byte with any of the objects. -/
def Layout.Spares (l : Layout V E) (sp : Addr) (n : Nat) : Prop :=
  ∀ i, Clear sp n (l.address i) (objectSize i)

theorem account_setjmp {f : Frame} {p : Signalled} {e : E} (env : p.cpu.regs .rdi = l.env e)
    (stack : l.Spares (p.cpu.regs .rsp + 8) (16 + f.size + f.callee.depth)) :
    account l (p.landed (setjmp f p.toProcess)) =
      (account l p).step (.setjmp e (Context.caller p.cpu)) := by
  have clear : SetjmpClear f p.cpu := by
    rw [SetjmpClear, env]
    exact stack (.inr e)
  obtain ⟨r, back, saved⟩ := setjmp_spec f p.toProcess clear
  have same : l.AgreeBut (· = .inr e) p.cpu.mem r.cpu.mem := by
    intro i other k hk
    apply setjmp_outside back (stack i k hk)
    rw [env]
    exact Objects.outside other hk
  have buffer := saved.buffer
  have mask := saved.mask
  rw [env] at buffer mask
  rw [back, Signalled.landed, account_deliver, Account.step]
  apply congrArg Account.deliver
  apply Account.ext
  · funext v
    exact congrArg signals (load_set same (by simp))
  · funext d
    by_cases hd : d = e
    · rw [hd]
      simp only [Function.update_self]
      exact buffer
    · simp only [Function.update_of_ne hd]
      exact context_env same (by simpa using hd)
  · funext d
    by_cases hd : d = e
    · rw [hd]
      simp only [Function.update_self]
      exact congrArg signals (mask (l.envMask_ne_zero e))
    · simp only [Function.update_of_ne hd]
      exact congrArg signals (load_mask same (by simpa using hd))
  · exact congrArg Blocked.signals saved.blocked
  · rfl
  · exact congrArg Process.errno (setjmp_left back)
  · simp only [account, Account.answer, saved.context, intResult, saved.zero]
    rfl

theorem account_longjmp {f : Frame} {p : Signalled} {e : E} (env : p.cpu.regs .rdi = l.env e)
    (stack : l.Spares (p.cpu.regs .rsp) (24 + f.size + f.callee.depth))
    (told : intArgument p.cpu ≠ 0 ∨ p.cpu.regs .rsi >>> 32 = 0) :
    account l (p.landed (longjmp f p.toProcess)) =
      (account l p).step (.longjmp e (intArgument p.cpu)) := by
  have clear : LongjmpClear f p.cpu := by
    rw [LongjmpClear, env]
    exact stack (.inr e)
  obtain ⟨target, r, jump, restored⟩ := longjmp_spec f p.toProcess clear
  have same : l.Agree p.cpu.mem r.cpu.mem :=
    fun i _ k hk => longjmp_outside jump (stack i k hk)
  have context := restored.context
  have blocked := restored.blocked
  rw [env] at context blocked
  have value : intResult r.cpu = if intArgument p.cpu = 0 then 1 else intArgument p.cpu := by
    rw [intResult, restored.value]
    exact (jumpValue_eq_iff _).mpr told
  rw [jump, Signalled.landed, account_deliver, Account.step]
  apply congrArg Account.deliver
  apply Account.ext
  · funext v
    exact congrArg signals (load_set same id)
  · funext d
    exact context_env same id
  · funext d
    exact congrArg signals (load_mask same id)
  · show r.blocked.signals = p.blocked.signals ∪ _
    rw [blocked (l.envMask_ne_zero e), Blocked.signals_union, signals_blocked]
    rfl
  · rfl
  · exact congrArg Process.errno (longjmp_left jump)
  · show p.results ++ [Result.returns (Context.of target r.cpu) (intResult r.cpu)] = _
    rw [context, value]
    rfl

/-- A signal as the functions take it. -/
def Valid (sig : BitVec 32) : Prop := 1 ≤ sig.toNat ∧ sig.toNat ≤ 64

instance : DecidablePred Valid := fun _ => inferInstanceAs (Decidable (_ ∧ _))

/-- How a program has to call: with signals that exist, and with the stack clear
of its objects where a context is saved or restored. A jump with the value zero
needs all of the register to be zero. -/
def Called (cpu : X86.State) (f : Frame) : Act V E → Prop
  | .sigaddset _ sig | .sigdelset _ sig | .sigismember _ sig | .arrival sig => Valid sig
  | .setjmp e caller =>
      cpu.regs .rdi = l.env e ∧ Context.caller cpu = caller ∧
        l.Spares (cpu.regs .rsp + 8) (16 + f.size + f.callee.depth)
  | .longjmp e val =>
      cpu.regs .rdi = l.env e ∧ intArgument cpu = val ∧ (val ≠ 0 ∨ cpu.regs .rsi >>> 32 = 0) ∧
        l.Spares (cpu.regs .rsp) (24 + f.size + f.callee.depth)
  | _ => True

/-- One act, on the machine as it is then. -/
theorem account_act {f : Frame} {p : Signalled} {act : Act V E} (called : Called l p.cpu f act) :
    account l (p.act l f act) = (account l p).step act := by
  cases act with
  | sigemptyset v =>
      rw [Account.step, ← signals_zero]
      exact account_store l p v 0
  | sigfillset v =>
      rw [Account.step, ← signals_ones]
      exact account_store l p v (~~~ 0)
  | sigaddset v sig =>
      rw [Account.step, ← signals_signalBit called.1 called.2]
      exact (account_store l p v _).trans (congrArg _ (signals_or ..))
  | sigdelset v sig =>
      rw [Account.step, ← signals_signalBit called.1 called.2]
      exact (account_store l p v _).trans (congrArg _ (signals_and_not ..))
  | sigismember v sig =>
      rw [Signalled.act, sigismember_eq called.1 called.2]
      rfl
  | sigprocmask how set oset => exact account_sigprocmask l p how set oset
  | sigpending set => exact account_sigpending l p set
  | setjmp e caller =>
      obtain ⟨env, rfl, stack⟩ := called
      exact account_setjmp l env stack
  | longjmp e val =>
      obtain ⟨env, rfl, told, stack⟩ := called
      exact account_longjmp l env stack told
  | arrival sig =>
      rw [Signalled.act, Signalled.arrive, account_deliver, Account.step,
        ← signals_signalBit called.1 called.2]
      apply congrArg Account.deliver
      exact congrArg (fun pending => { account l p with pending }) (signals_or ..)

/-- The program leaves its objects alone until it calls as it has to. -/
def Orderly (p : Signalled) (t : Turn V E) : Prop :=
  l.Agree p.cpu.mem (t.before p.cpu).mem ∧ Called l (t.before p.cpu) t.frame t.act

/-- Whatever a program does in whatever order with its signal sets, the kernel's
sets and its jump buffers, and whatever arrives, each call has the outcome that
the account gives, and the account is right at the end. -/
theorem signals_accounted {p : Signalled} {turns : List (Turn V E)}
    (orderly : AllSteps (Signalled.step l) (Orderly l) p turns) :
    account l (run (Signalled.step l) p turns) =
      run Account.step (account l p) (turns.map Turn.act) := by
  induction turns generalizing p with
  | nil => rfl
  | cons t turns ih =>
      obtain ⟨⟨same, called⟩, rest⟩ := orderly
      rw [run_cons, ih rest, Signalled.step, account_act l called, account_agree l same]
      rfl

namespace Demo

/-- The sets of a `main`, among its locals. -/
inductive Local
  | set
  | setAfterJmp
  deriving DecidableEq

/-- Its static buffer. -/
inductive Static
  | jb
  deriving DecidableEq

def places : Local ⊕ Static → Addr
  | .inl .set => 0x7ffe1010
  | .inl .setAfterJmp => 0x7ffe1018
  | .inr .jb => 0x404060

theorem places_apart (i j : Local ⊕ Static) (other : i ≠ j) :
    objectSize i ≤ (places j - places i).toNat := by
  cases i with
  | inl u =>
      cases j with
      | inl v => cases u <;> cases v <;> first | exact absurd rfl other | decide
      | inr e =>
          cases e
          cases u <;> decide
  | inr d =>
      cases d
      cases j with
      | inl v => cases v <;> decide
      | inr e => exact absurd rfl other

theorem places_set (v : Local) : places (.inl v) ≠ 0 := by
  cases v <;> decide

theorem places_mask (e : Static) : envMask (places (.inr e)) ≠ 0 := by
  cases e
  decide

def layout : Layout Local Static where
  address := places
  apart := places_apart
  set_given := places_set
  mask_given := places_mask

theorem places_clear {sp : Addr} {n : Nat} (set : Clear sp n (places (.inl .set)) 8)
    (setAfterJmp : Clear sp n (places (.inl .setAfterJmp)) 8)
    (jb : Clear sp n (places (.inr .jb)) 72) : layout.Spares sp n := by
  intro i
  cases i with
  | inl v =>
      cases v
      · exact set
      · exact setAfterJmp
  | inr e => exact jb

theorem setjmp_spares : layout.Spares 0x7ffe1000 (16 + 16 + 64) :=
  places_clear (by decide) (by decide) (by decide)

theorem longjmp_spares : layout.Spares 0x7ffe0ff8 (24 + 16 + 64) :=
  places_clear (by decide) (by decide) (by decide)

/-- A call from `main`, which puts its return address on the stack. -/
def call (rsi : Word) (s : X86.State) : X86.State :=
  calling rsi (store s.mem 0x7ffe0ff8 0x401000)

theorem return_spares : layout.Spares 0x7ffe1000 8 :=
  places_clear (by decide) (by decide) (by decide)

theorem call_agree (rsi : Word) (s : X86.State) : layout.Agree s.mem (call rsi s).mem := by
  intro i _ k hk
  have slot : (0x7ffe1000 : Addr) - BitVec.ofNat 64 8 = 0x7ffe0ff8 := by decide
  show store s.mem 0x7ffe0ff8 0x401000 (byteAddr (layout.address i) k) = _
  rw [← slot]
  exact store_below (return_spares i k hk) (Nat.le_refl 8) (Nat.le_refl 8)

/-- `main` calls with a second argument. -/
def turn (rsi : Word) (act : Act Local Static) : Turn Local Static := ⟨call rsi, frame, act⟩

theorem turn_orderly {rsi : Word} {act : Act Local Static}
    (called : ∀ s, Called layout (call rsi s) frame act) {p : Signalled} :
    Orderly layout p (turn rsi act) :=
  ⟨call_agree rsi p.cpu, called p.cpu⟩

/-- The context in which `main` goes on after its calls. -/
def mainContext : Context := ⟨0, 0x7ffe1000, 0, 0, 0, 0, 0, 0x401000⟩

theorem call_context (rsi : Word) (s : X86.State) :
    Context.caller (call rsi s) = mainContext := by
  simp [Context.caller, Context.of, call, calling, State.top, mainContext]

/-- `SIGALRM` is blocked before a context is saved, and arrives. After the jump the
blocked signals and the pending ones are asked for. -/
def jmp2 : List (Turn Local Static) :=
  [ turn 0 (.sigemptyset .set),
    turn 0 (.sigaddset .set 14),
    turn 0 (.sigprocmask sigBlock (some .set) none),
    turn 0 (.setjmp .jb mainContext),
    turn 0 (.arrival 14),
    turn 1 (.longjmp .jb 1),
    turn 0 (.sigemptyset .setAfterJmp),
    turn 0 (.sigprocmask 0 none (some .setAfterJmp)),
    turn 0 (.sigismember .setAfterJmp 14),
    turn 0 (.sigpending (some .set)),
    turn 0 (.sigismember .set 14) ]

def jmp2Start : Signalled := ⟨⟨calling 0 fun _ => 0, nothing, 0⟩, 0, []⟩

theorem jmp2_orderly : AllSteps (Signalled.step layout) (Orderly layout) jmp2Start jmp2 := by
  have saves : ∀ s, Called layout (call 0 s) frame (.setjmp .jb mainContext) :=
    fun s => ⟨rfl, call_context 0 s, setjmp_spares⟩
  have one : (1 : Word).setWidth 32 = (1 : BitVec 32) := by decide
  have jumps : ∀ s, Called layout (call 1 s) frame (.longjmp .jb 1) :=
    fun s => ⟨rfl, one, Or.inl (by decide), longjmp_spares⟩
  have alarm : Valid 14 := by decide
  refine ⟨turn_orderly ?_, turn_orderly ?_, turn_orderly ?_, turn_orderly saves, turn_orderly ?_,
    turn_orderly jumps, turn_orderly ?_, turn_orderly ?_, turn_orderly ?_, turn_orderly ?_,
    turn_orderly ?_, trivial⟩
  exacts [fun _ => trivial, fun _ => alarm, fun _ => trivial, fun _ => alarm, fun _ => trivial,
    fun _ => trivial, fun _ => alarm, fun _ => trivial, fun _ => alarm]

/-- The jump returns one, and `SIGALRM` is blocked and pending after it. -/
theorem jmp2_accounted :
    (run (Signalled.step layout) jmp2Start jmp2).results =
      [.value 0, .returns mainContext 0, .returns mainContext 1, .value 0, .value 1, .value 0,
        .value 1] := by
  have told := congrArg Account.results (signals_accounted layout jmp2_orderly)
  refine Eq.trans told ?_
  simp [jmp2, turn, Account.step, Account.nextBlocked, Account.putSet, Account.putOption,
    Account.answer, Account.deliver, account, jmp2Start, unblockables, sigBlock, sigkill, sigstop]

end Demo

end Libmini
