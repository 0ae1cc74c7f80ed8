import AdvancedUnix.Sdb.Main
import AdvancedUnix.Sdb.Printed

/-!
# Typing back what was printed

The addresses that `list` prints can be typed as operands of `break`, and the values that
`getregs` prints as operands of `set`. A debugger that has just been started gets the
breakpoints of an earlier one, in their order, and a tracee its registers.

An operand has to fit into its array. This leaves fifteen digits for an address and, behind
`0x`, thirteen for a value; a longer one is stored beyond the array.
-/

namespace Sdb

open Memory Text Runs Slots Traced

/-- `break`, and an address as it is printed. -/
def typeBreak (a : Addr) : List Char := "break".toList ++ ' ' :: (llx a ++ ['\n'])

/-- `set`, the name that it knows a register by, and a value as it is printed. -/
def typeSet (field : Gp × Memory.Word) : List Char :=
  "set".toList ++ ' ' :: (field.1.name.toList ++ ' ' :: ('0' :: 'x' :: llx field.2 ++ ['\n']))

/-- What a user types who has the text of `list`. -/
def breakScript (printed : List Char) : List Char :=
  (readAddrs (words isSpace printed)).flatMap typeBreak

/-- What a user types who has the text of `getregs`. -/
def setScript (printed : List Char) : List Char :=
  (readFields (words isSpace printed)).flatMap typeSet

def breakOrder (a : Addr) : Order := .break ⟨llx a, a, .inl (llx_spells a)⟩

theorem Gp.name_solid (r : Gp) :
    r.name.toList ≠ [] ∧ r.name.toList.length ≤ 15 ∧
      ∀ c ∈ r.name.toList, isSpace c = false ∧ c ≠ '\n' ∧ c ≠ '\x00' := by
  cases r <;> exact ⟨by decide, by decide, by simp [isSpace, Gp.name]⟩

def Gp.token (r : Gp) : Token isSpace where
  text := r.name.toList
  nonempty := r.name_solid.1
  solid c mem := (r.name_solid.2.2 c mem).1

theorem prefixed_spells (v : Memory.Word) : Spells 10 ('0' :: 'x' :: llx v) v.toNat ∨
    ∃ ds, '0' :: 'x' :: llx v = '0' :: 'x' :: ds ∧ Spells 16 ds v.toNat :=
  .inr ⟨llx v, rfl, llx_spells v⟩

def setOrder (field : Gp × Memory.Word) : Order :=
  .set field.1.token ⟨'0' :: 'x' :: llx field.2, field.2, prefixed_spells field.2⟩

theorem break_name (a : Addr) : "break" ∈ (breakOrder a).keyword.names := List.mem_cons_self

theorem set_name (field : Gp × Memory.Word) : "set" ∈ (setOrder field).keyword.names :=
  List.mem_cons_self

def typedBreak (a : Addr) : Typed (breakOrder a) where
  lead := []
  lead_blank := nothing_blank
  name := "break"
  named := break_name a
  operands := [(space, llxToken a)]
  operands_eq := rfl
  tail := ['\n']
  tail_blank := newline_blank

def typedSet (field : Gp × Memory.Word) : Typed (setOrder field) where
  lead := []
  lead_blank := nothing_blank
  name := "set"
  named := set_name field
  operands := (setOrder field).operands.map fun w => (space, w)
  operands_eq := rfl
  tail := ['\n']
  tail_blank := newline_blank

theorem typedBreak_line (a : Addr) : (typedBreak a).line = typeBreak a := by
  simp only [Typed.line, typedBreak, spaced, space, llxToken, typeBreak, List.nil_append,
    List.singleton_append]

theorem typedSet_line (field : Gp × Memory.Word) : (typedSet field).line = typeSet field := by
  simp only [Typed.line, typedSet, setOrder, Order.operands, List.map_cons, List.map_nil, spaced,
    space, typeSet, List.nil_append, List.singleton_append]
  rfl

theorem llx_single (v : Memory.Word) : ∀ c ∈ llx v, c ≠ '\n' ∧ c ≠ '\x00' := by
  intro c mem
  have digit := (llx_spells v).digit_isSome mem
  refine ⟨?_, ?_⟩
  · rintro rfl
    cases digit
  · rintro rfl
    cases digit

theorem break_single (a : Addr) : ∀ c ∈ "break".toList ++ ' ' :: llx a, c ≠ '\n' ∧ c ≠ '\x00' := by
  have letters := name_single (break_name a)
  intro c mem
  rcases List.mem_append.mp mem with name | operand
  · exact letters c name
  · rcases List.mem_cons.mp operand with rfl | value
    · decide
    · exact llx_single a c value

theorem set_single (field : Gp × Memory.Word) : ∀ c ∈ "set".toList ++ ' ' ::
    (field.1.name.toList ++ ' ' :: '0' :: 'x' :: llx field.2), c ≠ '\n' ∧ c ≠ '\x00' := by
  have letters := name_single (set_name field)
  intro c mem
  rcases List.mem_append.mp mem with name | operand
  · exact letters c name
  · rcases List.mem_cons.mp operand with rfl | operand
    · decide
    · rcases List.mem_append.mp operand with name | value
      · exact (field.1.name_solid.2.2 c name).2
      · simp only [List.mem_cons] at value
        obtain rfl | rfl | rfl | value := value
        · decide
        · decide
        · decide
        · exact llx_single field.2 c value

/-- The digits of an address that `break` has room for. -/
theorem breakOrder_fits {a : Addr} : (breakOrder a).Fits ↔ a.toNat < 2 ^ 60 :=
  numeral_length_le_iff (by decide) (by decide)

/-- The digits of a value that `set` has room for behind `0x`. -/
theorem setOrder_fits {field : Gp × Memory.Word} :
    (setOrder field).Fits ↔ field.2.toNat < 2 ^ 52 := by
  have digits : (llx field.2).length ≤ 13 ↔ field.2.toNat < 2 ^ 52 :=
    numeral_length_le_iff (by decide) (by decide)
  have name : field.1.token.text.length ≤ 15 := field.1.name_solid.2.1
  show field.1.token.text.length ≤ 15 ∧ (llx field.2).length + 1 + 1 ≤ 15 ↔ _
  rw [← digits]
  omega

section

variable {K : Type} {H : Host K} {r : Result K} {rest line held : List Char}

theorem run_overrun (turns : List (Turn K)) : run (turn H) .overrun turns = .overrun := by
  induction turns with
  | nil => rfl
  | cons t turns ih => exact ih

/-- A line of the script of breakpoints. -/
theorem turn_typeBreak (a : Addr) (t : Turn K) :
    turn H (.reading ⟨typeBreak a ++ rest, line, held⟩ r) t =
      if a.toNat < 2 ^ 60 then
        if (sdbSetBreak H t.env (llx a) r.world).atPrompt then
          .reading ⟨rest, typeBreak a, "break".toList⟩ (sdbSetBreak H t.env (llx a) r.world)
        else .inside (sdbSetBreak H t.env (llx a) r.world)
      else .overrun := by
  have read := (typedBreak a).iteration (typedBreak_line a) (break_single a) t.locals rest line held
  rw [typedBreak_line] at read
  rw [turn, read]
  by_cases fits : a.toNat < 2 ^ 60
  · rw [if_pos fits, (action_iff t.locals).mpr (breakOrder_fits.mpr fits)]
    rfl
  · have wide : ¬ (llx a).length < 16 := fun h => fits (breakOrder_fits.mp (Nat.lt_succ_iff.mp h))
    have action : (breakOrder a).keyword.action t.locals
        ((breakOrder a).operands.map Token.text) = .overrun := by
      show Action.ofOption ((scanS 16 t.locals.bpAddr (some (llx a))).map .break) = _
      rw [scanS_overrun _ wide]
      rfl
    rw [if_neg fits, action]

/-- A line of the script of registers. -/
theorem turn_typeSet (field : Gp × Memory.Word) (t : Turn K) :
    turn H (.reading ⟨typeSet field ++ rest, line, held⟩ r) t =
      if field.2.toNat < 2 ^ 52 then
        .reading ⟨rest, typeSet field, "set".toList⟩
          (sdbSet t.env field.1.name.toList field.2 r.world)
      else .overrun := by
  have ends : (typedSet field).line = ("set".toList ++ ' ' ::
      (field.1.name.toList ++ ' ' :: '0' :: 'x' :: llx field.2)) ++ ['\n'] := by
    rw [typedSet_line, typeSet]
    simp
  have read := (typedSet field).iteration ends (set_single field) t.locals rest line held
  rw [typedSet_line] at read
  rw [turn, read]
  have name : field.1.name.toList.length < 16 := Nat.lt_succ_of_le field.1.name_solid.2.1
  by_cases fits : field.2.toNat < 2 ^ 52
  · have back : (sdbSet t.env field.1.name.toList field.2 r.world).atPrompt := by
      unfold sdbSet
      split <;> rfl
    rw [if_pos fits, (action_iff t.locals).mpr (setOrder_fits.mpr fits)]
    exact if_pos back
  · have wide : ¬ ('0' :: 'x' :: llx field.2).length < 16 := by
      intro h
      exact fits (setOrder_fits.mp ⟨field.1.name_solid.2.1, Nat.lt_succ_iff.mp h⟩)
    have action : (setOrder field).keyword.action t.locals
        ((setOrder field).operands.map Token.text) = .overrun := by
      show Action.ofOption ((scanS 16 t.locals.oprand1 (some field.1.name.toList)).bind fun name =>
        (scanS 16 t.locals.oprand2 (some ('0' :: 'x' :: llx field.2))).map fun val =>
          Cmd.set name (scanVal val t.locals.val)) = _
      rw [scanS_fits _ name, scanS_overrun _ wide]
      rfl
    rw [if_neg fits, action]

/-! ### Registers -/

/-- The registers with some of them set, one after the other. -/
def setFields (fields : List (Gp × Memory.Word)) (regs : UserRegs) : UserRegs :=
  fields.foldl (fun regs field => field.1.set field.2 regs) regs

/-- A script of registers is carried out when all of its values fit. -/
theorem run_typeSet {p : Proc K} (hp : r.world.tracee = some p) (fields : List (Gp × Memory.Word))
    (fit : ∀ field ∈ fields, field.2.toNat < 2 ^ 52) {turns : List (Turn K)}
    (count : turns.length = fields.length) :
    ∃ line' held' r', run (turn H) (.reading ⟨fields.flatMap typeSet ++ rest, line, held⟩ r) turns =
        .reading ⟨rest, line', held'⟩ r' ∧
      r'.world = r.world.setTracee (p.setRegs (setFields fields p.cpu.regs)) := by
  induction fields generalizing r p turns line held with
  | nil =>
      obtain rfl := List.length_eq_zero_iff.mp count
      exact ⟨line, held, r, rfl, (setTracee_self hp).symm⟩
  | cons field fields ih =>
      obtain ⟨t, turns, rfl⟩ := List.exists_cons_of_length_eq_add_one count
      have named : Gp.find field.1.name.toList = some field.1 := find_eq_some_iff.mpr rfl
      have set := @sdbSet_eq _ t.env _ _ hp field.1.name.toList field.2
      have now := @tracee_sdbSet _ t.env _ _ hp field.1.name.toList field.2
      rw [named] at set now
      obtain ⟨line', held', r', ran, world⟩ :=
        @ih (sdbSet t.env field.1.name.toList field.2 r.world) (typeSet field) "set".toList _ now
          (fun f mem => fit f (List.mem_cons_of_mem _ mem)) turns (Nat.succ.inj count)
      refine ⟨line', held', r', ?_, ?_⟩
      · rw [List.flatMap_cons, List.append_assoc, run_cons, turn_typeSet,
          if_pos (fit field List.mem_cons_self), ran]
      · rw [world, set]
        exact setTracee_setTracee hp _ _

/-- It ends beyond an array as soon as a value is too long. -/
theorem run_typeSet_overrun (fields : List (Gp × Memory.Word))
    (wide : ∃ field ∈ fields, 2 ^ 52 ≤ field.2.toNat) {turns : List (Turn K)}
    (count : turns.length = fields.length) :
    run (turn H) (.reading ⟨fields.flatMap typeSet ++ rest, line, held⟩ r) turns = .overrun := by
  induction fields generalizing r turns line held with
  | nil =>
      obtain ⟨_, mem, -⟩ := wide
      exact absurd mem List.not_mem_nil
  | cons field fields ih =>
      obtain ⟨t, turns, rfl⟩ := List.exists_cons_of_length_eq_add_one count
      rw [List.flatMap_cons, List.append_assoc, run_cons, turn_typeSet]
      by_cases fits : field.2.toNat < 2 ^ 52
      · rw [if_pos fits]
        refine ih ?_ (Nat.succ.inj count)
        obtain ⟨f, mem, long⟩ := wide
        rcases List.mem_cons.mp mem with rfl | later
        · exact absurd fits (Nat.not_lt.mpr long)
        · exact ⟨f, later, long⟩
      · rw [if_neg fits, run_overrun]

theorem get_setFields (saved : UserRegs) (g : Gp) (gs : List Gp) (regs : UserRegs) :
    g.get (setFields (gs.map fun g => (g, g.get saved)) regs) =
      if g ∈ gs then g.get saved else g.get regs := by
  induction gs generalizing regs with
  | nil => rfl
  | cons g' gs ih =>
      have first : setFields ((g' :: gs).map fun g => (g, g.get saved)) regs =
          setFields (gs.map fun g => (g, g.get saved)) (g'.set (g'.get saved) regs) := rfl
      rw [first, ih]
      by_cases later : g ∈ gs
      · rw [if_pos later, if_pos (List.mem_cons_of_mem _ later)]
      · rw [if_neg later]
        by_cases same : g = g'
        · rw [same, Gp.get_set, if_pos List.mem_cons_self]
        · rw [Gp.get_set_other same, if_neg (by simp [same, later])]

theorem Gp.mem_all (g : Gp) : g ∈ Gp.all := by
  cases g <;> decide

/-- A text of registers is one of their values. -/
theorem getregsText_congr {regs saved : UserRegs} (same : ∀ g : Gp, g.get regs = g.get saved) :
    getregsText regs = getregsText saved := by
  have cells : Gp.cell regs = Gp.cell saved := by
    funext g
    rw [Gp.cell, Gp.cell, same]
  have flags : regs.eflags = saved.eflags := same .eflags
  rw [getregsText, getregsText, cells, flags]

/-- What `getregs` printed, typed back, gives the tracee the registers that were printed. With a
value of more than thirteen digits among them the script ends beyond an array. -/
theorem getregs_replayed (H : Host K) (saved : UserRegs) {r : Result K} {p : Proc K}
    (hp : r.world.tracee = some p) {turns : List (Turn K)} (count : turns.length = Gp.all.length)
    (rest line held : List Char) :
    ((∀ g : Gp, (g.get saved).toNat < 2 ^ 52) → ∃ line' held' r' regs,
      run (turn H) (.reading ⟨setScript (getregsText saved) ++ rest, line, held⟩ r) turns =
        .reading ⟨rest, line', held'⟩ r' ∧
      r'.world = r.world.setTracee (p.setRegs regs) ∧
      (∀ env, (sdbGetregs env r'.world).ending = .prompt (.regs regs)) ∧
      getregsText regs = getregsText saved) ∧
    ((∃ g : Gp, 2 ^ 52 ≤ (g.get saved).toNat) →
      run (turn H) (.reading ⟨setScript (getregsText saved) ++ rest, line, held⟩ r) turns =
        .overrun) := by
  have script : setScript (getregsText saved) =
      (Gp.all.map fun g => (g, g.get saved)).flatMap typeSet := by
    rw [setScript, readFields_getregsText]
  have same : turns.length = (Gp.all.map fun g => (g, g.get saved)).length :=
    count.trans (List.length_map _).symm
  rw [script]
  constructor
  · intro fit
    obtain ⟨line', held', r', ran, world⟩ := @run_typeSet _ H r rest line held p hp _
      (List.forall_mem_map.mpr fun g _ => fit g) turns same
    refine ⟨line', held', r', _, ran, world, fun env => ?_, getregsText_congr fun g => ?_⟩
    · rw [sdbGetregs, world, World.getregs_eq (World.tracee_setTracee hp _)]
      rfl
    · rw [get_setFields, if_pos g.mem_all]
  · rintro ⟨g, long⟩
    exact run_typeSet_overrun _ ⟨(g, g.get saved), List.mem_map.mpr ⟨g, g.mem_all, rfl⟩, long⟩ same

/-! ### Breakpoints -/

/-- Two worlds that differ in the breakpoints alone. -/
def SameButBreaks (w w' : World K) : Prop :=
  w' = { w with sdb := { w.sdb with breaks := w'.sdb.breaks } }

/-- Without a process `break` puts the address it is given into a free slot. -/
theorem sdbSetBreak_idle {env : Env K} {w : World K} (loaded : w.sdb.isLoaded)
    (idle : ¬ w.sdb.isRunning) {i : Slot} (free : freeSlot w.sdb = some i) (a : Addr) :
    sdbSetBreak H env (llx a) w =
      ⟨w.setBreak i { w.sdb.breaks i with isUsed := true, addr := a }, .prompt .silent⟩ := by
  have read : hexOperand (llx a) env.uninit.tail = some a :=
    hexOperand_addrText ⟨llx a, a, .inl (llx_spells a)⟩ _
  have still : ∀ bp, ¬ (w.setBreak i bp).sdb.isRunning := fun _ => idle
  unfold sdbSetBreak
  simp only [loaded, not_true, if_false, free, read, Option.getD_some]
  exact if_neg (still _)

/-- A script of breakpoints, for which there is room, is carried out if all of its addresses
fit. -/
theorem run_typeBreak (loaded : r.world.sdb.isLoaded) (idle : ¬ r.world.sdb.isRunning)
    {before : List Addr} (table : r.world.sdb.table = Table.ofList before) (addrs : List Addr)
    (room : before.length + addrs.length ≤ maxBreak) {turns : List (Turn K)}
    (count : turns.length = addrs.length) :
    ((∀ a ∈ addrs, a.toNat < 2 ^ 60) → ∃ line' held' r',
      run (turn H) (.reading ⟨addrs.flatMap typeBreak ++ rest, line, held⟩ r) turns =
        .reading ⟨rest, line', held'⟩ r' ∧
      SameButBreaks r.world r'.world ∧ r'.world.sdb.table = Table.ofList (before ++ addrs)) ∧
    ((∃ a ∈ addrs, 2 ^ 60 ≤ a.toNat) →
      run (turn H) (.reading ⟨addrs.flatMap typeBreak ++ rest, line, held⟩ r) turns =
        .overrun) := by
  induction addrs generalizing r before turns line held with
  | nil =>
      obtain rfl := List.length_eq_zero_iff.mp count
      constructor
      · intro _
        refine ⟨line, held, r, rfl, rfl, ?_⟩
        rw [table, List.append_nil]
      · rintro ⟨_, mem, -⟩
        exact absurd mem List.not_mem_nil
  | cons a addrs ih =>
      obtain ⟨t, turns, rfl⟩ := List.exists_cons_of_length_eq_add_one count
      rw [List.length_cons] at room
      have here : before.length < maxBreak := by omega
      have free : freeSlot r.world.sdb = some ⟨before.length, here⟩ := by
        rw [freeSlot_eq, table, Table.free_ofList here]
      have set := @sdbSetBreak_idle _ H t.env _ loaded idle _ free a
      generalize slot : (⟨before.length, here⟩ : Slot) = i at set
      generalize world : r.world.setBreak i _ = w at set
      have put : w.sdb.table = Table.ofList (before ++ [a]) := by
        rw [← world, table_setBreak, table, ← Table.put_ofList here,
          Table.put_of_free (Table.free_ofList here), slot]
        rfl
      have later := @ih ⟨w, .prompt .silent⟩ (typeBreak a) "break".toList (world ▸ loaded)
        (world ▸ idle) (before ++ [a]) put (by simp; omega) turns (Nat.succ.inj count)
      rw [List.flatMap_cons, List.append_assoc, run_cons, turn_typeBreak, set]
      constructor
      · intro fit
        rw [if_pos (fit a List.mem_cons_self)]
        obtain ⟨line', held', r', ran, same, entries⟩ :=
          later.1 fun b mem => fit b (List.mem_cons_of_mem _ mem)
        refine ⟨line', held', r', ran, ?_, ?_⟩
        · subst world
          exact same
        · rw [entries, List.append_assoc, List.singleton_append]
      · rintro ⟨b, mem, long⟩
        by_cases fits : a.toNat < 2 ^ 60
        · rw [if_pos fits]
          refine later.2 ?_
          rcases List.mem_cons.mp mem with rfl | behind
          · exact absurd fits (Nat.not_lt.mpr long)
          · exact ⟨b, behind, long⟩
        · rw [if_neg fits, run_overrun]

/-- What `list` printed, typed into a debugger that has the program loaded and no breakpoints,
gives it the same addresses in the same order, and the same list where there was no gap in the
identifiers. With an address of more than fifteen digits the script ends beyond an array. -/
theorem list_replayed (H : Host K) (t : Table maxBreak Addr) {r : Result K}
    (loaded : r.world.sdb.isLoaded) (idle : ¬ r.world.sdb.isRunning)
    (unused : ∀ i, (r.world.sdb.breaks i).isUsed = false) {turns : List (Turn K)}
    (count : turns.length = t.entries.length) (rest line held : List Char) :
    ((∀ a ∈ t.entries.map Prod.snd, a.toNat < 2 ^ 60) → ∃ line' held' r' entries,
      run (turn H) (.reading ⟨breakScript (listText t.entries) ++ rest, line, held⟩ r) turns =
        .reading ⟨rest, line', held'⟩ r' ∧
      SameButBreaks r.world r'.world ∧
      (sdbList r'.world).ending = .prompt (.breaks entries) ∧
      entries.map Prod.snd = t.entries.map Prod.snd ∧
      (t.Packed → listText entries = listText t.entries)) ∧
    ((∃ a ∈ t.entries.map Prod.snd, 2 ^ 60 ≤ a.toNat) →
      run (turn H) (.reading ⟨breakScript (listText t.entries) ++ rest, line, held⟩ r) turns =
        .overrun) := by
  have script : breakScript (listText t.entries) = (t.entries.map Prod.snd).flatMap typeBreak := by
    rw [breakScript, readAddrs_listText]
  have short : (t.entries.map Prod.snd).length ≤ maxBreak := by
    rw [List.length_map]
    exact (List.length_filterMap_le _ _).trans (Nat.le_of_eq List.length_finRange)
  have empty : r.world.sdb.table = Table.ofList [] := by
    funext i
    simp [SDB.table, unused i, Table.ofList]
  have ran := @run_typeBreak _ H r rest line held loaded idle [] empty (t.entries.map Prod.snd)
    (by simpa using short) turns (count.trans (List.length_map _).symm)
  rw [script]
  refine ⟨fun fit => ?_, ran.2⟩
  obtain ⟨line', held', r', ran, same, table⟩ := ran.1 fit
  refine ⟨line', held', r', r'.world.sdb.table.entries, ran, same, ?_, ?_, fun packed => ?_⟩
  · rw [sdbList, entries_eq]
  · rw [table, List.nil_append, Table.values_ofList short]
  · rw [table, List.nil_append, ← packed.eq_ofList]

end

namespace Fragment

/-- What is decided elsewhere while a line of a script is read. -/
def surroundings : Turn Maps := ⟨emptyLocals, env ⟨7, seven_pos⟩ nops 64⟩

/-- The debugger right after the program was started. -/
def justStarted : Result Maps :=
  session host fresh ([.load "/bin/prog".toList, .start].map (cmd nops 64))

theorem justStarted_tracee : ∃ p, justStarted.world.tracee = some p := ⟨_, rfl⟩

/-- Registers of some earlier time. -/
def earlier : UserRegs :=
  { noRegs with rip := 0x400005, rsp := 0x7ffe12345678, rax := 0xfffffffffffff, eflags := 0x246 }

theorem earlier_short (g : Gp) : (g.get earlier).toNat < 2 ^ 52 := by
  cases g <;> decide

theorem started_replayed :
    ∃ line' held' r' regs,
      run (turn host) (.reading ⟨setScript (getregsText earlier) ++ [], [], []⟩ justStarted)
        (List.replicate 18 surroundings) = .reading ⟨[], line', held'⟩ r' ∧
      (∀ env, (sdbGetregs env r'.world).ending = .prompt (.regs regs)) ∧
      getregsText regs = getregsText earlier := by
  obtain ⟨p, hp⟩ := justStarted_tracee
  have count : (List.replicate 18 surroundings).length = Gp.all.length := rfl
  obtain ⟨line', held', r', regs, ran, -, shown, same⟩ :=
    (getregs_replayed host earlier hp count [] [] []).1 earlier_short
  exact ⟨line', held', r', regs, ran, shown, same⟩

/-- Two breakpoints under the first identifiers. -/
def printedBreaks : Table maxBreak Addr := Table.ofList [0x400001, 0x400003]

theorem printedBreaks_values : printedBreaks.entries.map Prod.snd = [0x400001, 0x400003] :=
  Table.values_ofList (by decide)

theorem loaded_replayed :
    ∃ line' held' r' entries,
      run (turn host) (.reading ⟨breakScript (listText printedBreaks.entries) ++ [], [], []⟩ loaded)
        [surroundings, surroundings] = .reading ⟨[], line', held'⟩ r' ∧
      (sdbList r'.world).ending = .prompt (.breaks entries) ∧
      listText entries = listText printedBreaks.entries := by
  have short : ∀ a ∈ printedBreaks.entries.map Prod.snd, a.toNat < 2 ^ 60 := by
    rw [printedBreaks_values]
    exact List.forall_mem_cons.mpr ⟨by decide, List.forall_mem_singleton.mpr (by decide)⟩
  have count : [surroundings, surroundings].length = printedBreaks.entries.length := by
    have values := congrArg List.length printedBreaks_values
    rw [List.length_map] at values
    exact values.symm
  obtain ⟨line', held', r', entries, ran, -, shown, -, same⟩ :=
    (list_replayed host printedBreaks (r := loaded) rfl (by decide) (fun _ => rfl) count
      [] [] []).1 short
  exact ⟨line', held', r', entries, ran, shown, same (Table.packed_ofList _)⟩

end Fragment

end Sdb
