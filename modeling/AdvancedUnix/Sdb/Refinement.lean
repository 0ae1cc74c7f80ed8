import AdvancedUnix.Sdb.Arrival

/-!
# The debugger as the ideal one

`Agrees` relates the debugger to a view of the ideal one: the same table, the tracee where
the program stands, and the output what is to be shown. Every command that the ideal view
permits keeps it, so a whole session shows the user the program and nothing of the traps.

What is not permitted is where the debugger falls behind: a pass that steps over a
breakpoint when none was to be passed, slots that are not translated, a program that ends
in a single step, and the commands that change the program or start another one.
-/

namespace Sdb

open Memory Traced Debugging Slots Runs

variable {K : Type}

/-- The view that a user of this debugger has. -/
abbrev Sight (K : Type) := View maxBreak (Cpu K) Addr Nat

/-- What a command asks the ideal debugger for. -/
def Cmd.op (H : Host K) (s : SDB) (env : Env K) : Cmd → Op (Cpu K) Addr
  | .start =>
    match env.exec with
    | some image => .start image.cpu (s.runtime H image.cpu.ext)
    | none => .look
  | .run =>
    match env.exec with
    | some image => .run env.fuel image.cpu (s.runtime H image.cpu.ext)
    | none => .cont env.fuel
  | .cont => .cont env.fuel
  | .si => .si
  | .break addrStr => .break ((hexOperand addrStr env.uninit.tail).getD env.uninit.addr)
  | .delete index => .delete index
  | .list => .list
  | .get _ | .getregs => .state
  | .disasm _ | .dump _ | .vmmap | .set _ _ | .load _ => .look

def Event.op (H : Host K) (s : SDB) : Event K → Op (Cpu K) Addr
  | .command cmd env => cmd.op H s env
  | .killed _ => .look

/-- Outputs that belong to no view. -/
def Output.quiet : Output → Bool
  | .breakpoint .. | .ended .. | .breaks _ | .reg .. | .regs _ => false
  | _ => true

/-- The output shows what it should. At a reported breakpoint that is the program's own word. -/
def Shows (v : Sight K) (e : Ending) : Prop :=
  match v.shown with
  | .nothing => ∃ out, e = .prompt out ∧ out.quiet
  | .reported a => ∃ i word d, e = .prompt (.breakpoint i a word) ∧ v.tracee = .stopped d ∧
      (v.table i).map d.place = some a ∧ ∀ k < 8, d.state.mem (byteAddr a k) = some (byteOf word k)
  | .ended status => ∃ pid, e = .prompt (.ended pid status)
  | .waiting => e = .waiting
  | .entries es => e = .prompt (.breaks es)
  | .state c => e = .prompt (.regs c.regs) ∨ ∃ name val, e = .prompt (.reg name val) ∧
      ∀ own, matchRegName name c.regs = some own → val = own

/-- The tracee is where the program stands. Words are saved for all slots, and there is no
trap at a place that was reported. -/
def Represents (H : Host K) (B : Addr → Prop) (w : World K) (d : Stand (Cpu K) Addr) : Prop :=
  ∃ p n T, Debugged H B w p n T ∧ d.state = H.native p.image.cpu n ∧
    d.place = w.sdb.runtime H p.image.cpu.ext ∧
    (∀ i, (w.sdb.breaks i).isUsed → OwnWord H w.sdb p.image i) ∧
    (d.seen → ∀ i, T i → w.sdb.site H p.image i ≠ (H.native p.image.cpu n).rip)

/-- The debugger has this table, for the program that was loaded. -/
structure Tabled (B : Addr → Prop) (s : SDB) (t : Table maxBreak Addr) (w : World K) : Prop where
  table : w.sdb.table = t
  eh : w.sdb.eh = s.eh
  path : w.sdb.path = s.path
  within : w.sdb.Within B
  distinct : w.sdb.Distinct
  alone : w.child (-1) = none

def Hosts (H : Host K) (B : Addr → Prop) (r : Result K) : Tracee (Cpu K) Addr → Prop
  | .none => r.world.sdb.pid = -1 ∧ r.atPrompt
  | .stopped d => Represents H B r.world d ∧ r.atPrompt
  | .running => r.ending = .waiting

structure Agrees (H : Host K) (B : Addr → Prop) (s : SDB) (r : Result K) (v : Sight K) : Prop where
  tabled : Tabled B s v.table r.world
  tracee : Hosts H B r v.tracee
  shows : Shows v r.ending

/-- The file of the program is not of the type whose addresses are translated. -/
def SDB.Fixed (s : SDB) : Prop := ∀ eh, s.eh = some eh → eh.type ≠ 3

/-- There is room for a breakpoint at an address that has none. -/
def Settable (B : Addr → Prop) (t : Table maxBreak Addr) (a : Addr) : Prop :=
  B a ∧ (∀ i, t i ≠ some a) ∧ t.free.isSome

variable {H : Host K} {env : Env K} {B : Addr → Prop} {s t : SDB} {w u : World K} {p q : Proc K}
variable {image : Image K} {n : Nat} {T : Slot → Prop} {i : Slot} {table : Table maxBreak Addr}
variable {v : Sight K} {d : Stand (Cpu K) Addr} {a : Addr} {out : Output}

/-! ### The table -/

theorem Tabled.congr (h : Tabled B s table w) (same : w.sdb.SameTable u.sdb)
    (alone : u.child (-1) = none) : Tabled B s table u where
  table := same.table.trans h.table
  eh := same.eh.trans h.eh
  path := same.path.trans h.path
  within := h.within.sameTable same
  distinct := same.distinct h.distinct
  alone := alone

theorem Tabled.runtime (h : Tabled B s table w) : w.sdb.runtime H = s.runtime H :=
  SDB.runtime_congr h.eh h.path

theorem isUsed_iff_table : (s.breaks i).isUsed ↔ s.table i = some (s.breaks i).addr := by
  unfold SDB.table
  by_cases used : (s.breaks i).isUsed
  · exact iff_of_true used (if_pos used)
  · rw [if_neg used]
    exact iff_of_false used nofun

/-- A breakpoint in a free slot, at an address that none has. -/
theorem Tabled.set (h : Tabled B s table w) (settable : Settable B table a)
    (free : freeSlot w.sdb = some i) :
    Tabled B s (table.put a)
      (w.setBreak i { w.sdb.breaks i with isUsed := true, addr := a }) where
  table := by
    rw [table_setBreak, h.table, Table.put_of_free (by rw [← h.table, ← freeSlot_eq, free])]
    rfl
  eh := h.eh
  path := h.path
  within := by
    intro j used
    by_cases same : j = i
    · subst same
      simpa using settable.1
    · simp only [World.setBreak_breaks, Function.update_of_ne same] at used ⊢
      exact h.within j used
  distinct := by
    have new : ∀ j, (w.sdb.breaks j).isUsed → (w.sdb.breaks j).addr ≠ a := by
      rintro j used rfl
      exact settable.2.1 j (by rw [← h.table]; exact isUsed_iff_table.mp used)
    intro j k hj hk same
    by_cases ji : j = i <;> by_cases ki : k = i
    · rw [ji, ki]
    · subst ji
      simp only [World.setBreak_breaks, Function.update_of_ne ki, Function.update_self] at hk same
      exact absurd same.symm (new k hk)
    · subst ki
      simp only [World.setBreak_breaks, Function.update_of_ne ji, Function.update_self] at hj same
      exact absurd same (new j hj)
    · simp only [World.setBreak_breaks, Function.update_of_ne ji, Function.update_of_ne ki]
        at hj hk same
      exact h.distinct j k hj hk same
  alone := h.alone

/-- A slot is given up. -/
theorem Tabled.unset (h : Tabled B s table w) (i : Slot) :
    Tabled B s (table.remove i.val)
      (w.setBreak i { w.sdb.breaks i with isUsed := false }) where
  table := by
    rw [table_setBreak, h.table, Table.remove_eq_update]
    rfl
  eh := h.eh
  path := h.path
  within := by
    intro j used
    by_cases same : j = i
    · subst same
      simp at used
    · simp only [World.setBreak_breaks, Function.update_of_ne same] at used ⊢
      exact h.within j used
  distinct := by
    intro j k hj hk same
    have old : ∀ j, ((w.setBreak i { w.sdb.breaks i with isUsed := false }).sdb.breaks j).isUsed →
        (w.sdb.breaks j).isUsed ∧
          (w.setBreak i { w.sdb.breaks i with isUsed := false }).sdb.breaks j = w.sdb.breaks j := by
      intro j used
      by_cases same : j = i
      · subst same
        simp at used
      · rw [World.setBreak_breaks, Function.update_of_ne same] at used ⊢
        exact ⟨used, rfl⟩
    obtain ⟨usedj, eqj⟩ := old j hj
    obtain ⟨usedk, eqk⟩ := old k hk
    rw [eqj, eqk] at same
    exact h.distinct j k usedj usedk same
  alone := h.alone

/-! ### The tracee -/

/-- The debugger may change slots that have no trap in place. -/
theorem Debugged.setSdb (h : Debugged H B w p n T) (pid : t.pid = w.sdb.pid)
    (eh : t.eh = w.sdb.eh) (path : t.path = w.sdb.path) (within : t.Within B)
    (distinct : t.Distinct) (same : ∀ i, T i → t.breaks i = w.sdb.breaks i) :
    Debugged H B { w with sdb := t } p n T := by
  have site : ∀ i, T i → t.site H p.image i = w.sdb.site H p.image i := by
    intro i set
    rw [SDB.site, SDB.site, SDB.slotAt, SDB.slotAt, same i set, SDB.runtime_congr eh path]
  refine ⟨?_, ?_, ?_, ?_, within, distinct, h.good.congr eh path, h.inStep, ?_⟩
  · have current := h.current
    rwa [World.current, ← pid] at current
  · have running := h.running
    rwa [SDB.isRunning, ← pid] at running
  · exact h.alone
  · exact eh ▸ h.handle
  refine ⟨fun i set => ?_, fun i set => ?_, fun a inText free => ?_, fun i set => ?_⟩
  · rw [same i set]
    exact h.armed.used i set
  · rw [site i set]
    exact h.armed.trap i set
  · exact h.armed.own a inText fun i set here => free i set ((site i set).trans here)
  · intro k hk
    rw [site i set, same i set]
    exact h.armed.saved i set k hk

theorem Agrees.stopped (tabled : Tabled B s table w) (tracee : Represents H B w d)
    (quiet : out.quiet) : Agrees H B s ⟨w, .prompt out⟩ ⟨table, .stopped d, .nothing⟩ :=
  ⟨tabled, ⟨tracee, rfl⟩, out, rfl, quiet⟩

theorem Agrees.idle (tabled : Tabled B s table w) (pid : w.sdb.pid = -1) (quiet : out.quiet) :
    Agrees H B s ⟨w, .prompt out⟩ ⟨table, .none, .nothing⟩ :=
  ⟨tabled, ⟨pid, rfl⟩, out, rfl, quiet⟩

theorem Debugged.tabled (h : Debugged H B w p n T) (table' : w.sdb.table = table)
    (eh : w.sdb.eh = s.eh) (path : w.sdb.path = s.path) : Tabled B s table w :=
  ⟨table', eh, path, h.within, h.distinct, h.alone⟩

theorem Passed.tabled (h : Passed H B w.sdb image n T u) (tabled : Tabled B s table w) :
    Tabled B s table u := by
  obtain ⟨same, q, -, debugged⟩ := h
  exact tabled.congr same debugged.alone

/-! ### The commands -/

/-- What a resumption returns with shows where the program gets to. -/
theorem Returned.agrees {r : Result K} {arrival : Arrival (Cpu K) Nat}
    (h : Returned H B t image r arrival) (tabled : Tabled B s table w)
    (same : w.sdb.SameTable t) (tracee : Tracee (Cpu K) Addr) (shown) :
    Agrees H B s r ((program H).arrive ⟨table, tracee, shown⟩ (w.sdb.runtime H image.cpu.ext)
      arrival) := by
  cases h with
  | @hit u p n T i eq sdb debugged used here word free =>
      subst eq sdb
      have runtime : u.sdb.runtime H = w.sdb.runtime H := SDB.runtime_congr same.eh same.path
      refine ⟨tabled.congr same debugged.alone, ⟨⟨p, n, T, debugged, rfl, ?_, word, ?_⟩, rfl⟩, ?_⟩
      · rw [runtime]
      · exact fun _ => free
      · refine ⟨i, (u.sdb.breaks i).originalWord, _, ?_, rfl, ?_, fun k hk => ?_⟩
        · rw [here]
          rfl
        · have entry := entry_iff.mpr ⟨used, here⟩
          rwa [same.table, tabled.table, runtime] at entry
        · have inText := debugged.good.inside _ (debugged.within i used) k hk
          have own := debugged.good.self.native_text debugged.inStep.reaches inText
          have saved := word i used k hk
          rw [SDB.site, SDB.slotAt] at here saved
          rw [← own, here] at saved
          exact saved
  | @ended u pid status sdb alone =>
      have t' : w.sdb.SameTable u.sdb := by
        rw [sdb]
        exact ⟨same.eh, same.path, same.isUsed, same.addr⟩
      exact ⟨tabled.congr t' alone, ⟨by rw [sdb], rfl⟩, pid, rfl⟩
  | @going u c sdb alone =>
      exact ⟨tabled.congr (sdb ▸ same) alone, rfl, rfl⟩

theorem Tabled.isLoaded (h : Tabled B s table w) (loaded : s.isLoaded) : w.sdb.isLoaded := by
  rwa [SDB.isLoaded, h.path]

/-- The new child has the table that the debugger had before. -/
theorem Tabled.launched (h : Tabled B s table w) {pid : Pid} (pos : 0 < pid) (c : Child K) :
    Tabled B s table ((w.setPid pid).setChild c) where
  table := h.table
  eh := h.eh
  path := h.path
  within := h.within
  distinct := h.distinct
  alone := by
    rw [World.setChild_child_ne, World.setPid_child, h.alone]
    rw [World.setPid_pid]
    rintro rfl
    exact absurd pos (by decide)

theorem SDB.Fixed.runtime (h : s.Fixed) (ext : K) (a : Addr) : s.runtime H ext a = a := by
  unfold SDB.runtime
  cases heh : s.eh with
  | none => rfl
  | some eh => exact if_neg (h eh heh)

/-- The word of a slot is put back where no address is translated. -/
theorem Debugged.restore (h : Debugged H B w p n T) (fixed : w.sdb.Fixed)
    (used : (w.sdb.breaks i).isUsed) (word : OwnWord H w.sdb p.image i) :
    ∃ q, q.image = p.image ∧
      Debugged H B (w.pokeOrIgnore (w.sdb.breaks i).addr (w.sdb.breaks i).originalWord) q n
        (fun j => T j ∧ j ≠ i) := by
  have site : w.sdb.site H p.image i = (w.sdb.breaks i).addr := fixed.runtime _ _
  obtain ⟨old, read⟩ := Option.isSome_iff_exists.mp (readWord_isSome.mpr (h.mapped used))
  rw [site] at read
  obtain ⟨m, write, poke⟩ := World.pokeOrIgnore_eq h.tracee read (w.sdb.breaks i).originalWord
  rw [← site] at write
  have outside : ∀ a, ¬ p.image.text a → m a = p.cpu.mem a := by
    intro a away
    refine writeWord_outside write fun k hk here => away ?_
    rw [here]
    exact h.good.inside _ (h.within i used) k hk
  have armed := h.armed.restore h.good h.within h.distinct used word write (p.setMem m) rfl rfl
  refine ⟨p.setMem m, rfl, ?_⟩
  rw [poke, h.setTracee_eq]
  exact h.setChild rfl (h.inStep.write outside) armed

theorem Tabled.setLastDisasmAddr (h : Tabled B s table w) (a : Addr) :
    Tabled B s table (w.setLastDisasmAddr a) :=
  ⟨h.table, h.eh, h.path, h.within, h.distinct, h.alone⟩

theorem Represents.setLastDisasmAddr (h : Represents H B w d) (a : Addr) :
    Represents H B (w.setLastDisasmAddr a) d := by
  obtain ⟨p, n, T, debugged, state, place, word, unset⟩ := h
  have debugged' : Debugged H B (w.setLastDisasmAddr a) p n T :=
    debugged.setSdb rfl rfl rfl debugged.within debugged.distinct fun _ _ => rfl
  exact ⟨p, n, T, debugged', state, place, word, unset⟩

namespace Fragment

end Fragment

end Sdb
