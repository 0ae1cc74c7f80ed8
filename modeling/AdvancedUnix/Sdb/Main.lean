import AdvancedUnix.Sdb.Loop
import AdvancedUnix.Sdb.Refinement

/-!
# The program

`main` creates the debugger, loads the program that its only argument names, and executes
what it reads line by line. A command that does not return keeps it from reading on.

Orders that are typed one on each line are executed in the order in which they are typed.
The user then sees, from the text alone, what the ideal debugger shows.
-/

namespace Sdb

open Memory Text Runs Debugging

variable {K : Type}

/-- How far `main` has come: at a prompt, in a command that has not returned, beyond an
array that an operand has overrun, or returned. -/
inductive Progress (K : Type) where
  | reading (s : LoopState) (r : Result K)
  | inside (r : Result K)
  | overrun
  | left (r : Result K)

/-- What is decided elsewhere during one iteration of the loop. -/
structure Turn (K : Type) where
  locals : Locals
  env : Env K

/-- One iteration of the loop of `main`. -/
def turn (H : Host K) : Progress K → Turn K → Progress K
  | .reading s r, t =>
    match iteration t.locals s with
    | (.call cmd, s) =>
      let r := cmd.exec H t.env r.world
      if r.atPrompt then .reading s r else .inside r
    | (.exit, _) => .left r
    | (.help, s) => .reading s r
    | (.unknown _, s) => .reading s r
    | (.overrun, _) => .overrun
  | p, _ => p

/-- The debugger when `main` gets to its loop. -/
def begun (fresh : Slot → Bp) (argv : List (List Char)) (env : Env K) : Result K :=
  match argv with
  | [_, filename] => sdbLoad env filename (created fresh).world
  | _ => created fresh

/-- `main`, for as many iterations as there are turns. The line buffer and the array for
the name of the command hold what they happen to hold. -/
def main (H : Host K) (fresh : Slot → Bp) (argv : List (List Char)) (env : Env K)
    (input line held : List Char) (turns : List (Turn K)) : Progress K :=
  let r := begun fresh argv env
  run (turn H) (if r.atPrompt then .reading ⟨input, line, held⟩ r else .inside r) turns

/-- An order that fits, typed on a line of its own. -/
structure TypedLine where
  order : Order
  typed : Typed order
  fits : order.Fits
  body : List Char
  line_eq : typed.line = body ++ ['\n']
  single : ∀ c ∈ body, c ≠ '\n' ∧ c ≠ '\x00'

/-- The command that an action executes. -/
def Action.cmd? : Action → Option Cmd
  | .call cmd => some cmd
  | _ => none

/-- The commands of the orders, each in its surroundings. -/
def events (ts : List (TypedLine × Turn K)) : List (Event K) :=
  ts.filterMap fun t => t.1.order.action.cmd?.map fun cmd => .command cmd t.2.env

def text (ts : List (TypedLine × Turn K)) : List Char := ts.flatMap fun t => t.1.typed.line

variable {H : Host K} {r : Result K} {line held rest : List Char}

theorem Order.action_exit {o : Order} : o.action = .exit ↔ o = .exit := by
  cases o with
  | exit => exact iff_of_true rfl rfl
  | _ => exact iff_of_false nofun nofun

theorem Order.action_known (o : Order) :
    (∀ name, o.action ≠ .unknown name) ∧ o.action ≠ .overrun := by
  cases o <;> exact ⟨nofun, nofun⟩

/-- The iteration that reads the line of an order takes its operands from it. -/
theorem Typed.iteration {o : Order} (typed : Typed o) {body : List Char}
    (line_eq : typed.line = body ++ ['\n']) (single : ∀ c ∈ body, c ≠ '\n' ∧ c ≠ '\x00')
    (l : Locals) (rest line held : List Char) :
    Sdb.iteration l ⟨typed.line ++ rest, line, held⟩ =
      (o.keyword.action l (o.operands.map Token.text),
        ⟨rest, typed.line, typed.name.toList⟩) := by
  have split : splitLine (typed.line ++ rest) = (typed.line, rest) := by
    rw [line_eq, List.append_assoc]
    exact splitLine_line (fun c mem => (single c mem).1) rest
  have plain : cstring typed.line = typed.line := by
    refine cstring_eq fun c mem => ?_
    rw [line_eq, List.mem_append, List.mem_singleton] at mem
    obtain mem | rfl := mem
    · exact (single c mem).2
    · decide
  have read : LoopState.getline ⟨typed.line ++ rest, line, held⟩ = ⟨rest, typed.line, held⟩ := by
    have full : typed.line ++ rest ≠ [] := by
      rw [line_eq, List.append_assoc]
      exact List.append_ne_nil_of_right_ne_nil _ (List.cons_ne_nil _ _)
    obtain ⟨c, r, cons⟩ := List.exists_cons_of_ne_nil full
    rw [cons] at split ⊢
    simp only [LoopState.getline, split, plain]
  simp only [Sdb.iteration, read, mainLoop_typed]

/-- An order is what the iteration that reads its line does. -/
theorem TypedLine.iteration (e : TypedLine) (l : Locals) (rest line held : List Char) :
    iteration l ⟨e.typed.line ++ rest, line, held⟩ =
      (e.order.action, ⟨rest, e.typed.line, e.typed.name.toList⟩) := by
  rw [e.typed.iteration e.line_eq e.single, (action_iff l).mpr e.fits]

theorem run_inside (turns : List (Turn K)) : run (turn H) (.inside r) turns = .inside r := by
  induction turns with
  | nil => rfl
  | cons t turns ih => exact ih

/-- Away from the prompt no command is executed. -/
theorem session_away (away : ¬ r.atPrompt) (ts : List (TypedLine × Turn K)) :
    session H r (events ts) = r := by
  have same : ∀ cmd env, step H r (.command cmd env) = r := by
    intro cmd env
    unfold step
    cases ending : r.ending with
    | prompt out => exact absurd (atPrompt_iff.mpr ⟨out, ending⟩) away
    | _ => rfl
  unfold events
  induction ts with
  | nil => rfl
  | cons t ts ih =>
      cases act : t.1.order.action.cmd? with
      | none => simpa [act] using ih
      | some cmd => simpa [act, session, same] using ih

/-- The orders before one that leaves are executed one after the other, as far as they return. -/
theorem run_turns (prompt : r.atPrompt) (ts : List (TypedLine × Turn K))
    (stays : ∀ t ∈ ts, t.1.order ≠ .exit) :
    ∃ line' held', run (turn H) (.reading ⟨text ts ++ rest, line, held⟩ r) (ts.map Prod.snd) =
      if (session H r (events ts)).atPrompt then
        .reading ⟨rest, line', held'⟩ (session H r (events ts))
      else .inside (session H r (events ts)) := by
  induction ts generalizing r line held with
  | nil =>
      refine ⟨line, held, ?_⟩
      rw [session, events, List.filterMap_nil, run_nil, if_pos prompt]
      rfl
  | cons t ts ih =>
      obtain ⟨o, τ⟩ := t
      have others := fun u mem => stays u (List.mem_cons_of_mem _ mem)
      have step := o.iteration τ.locals (text ts ++ rest) line held
      have joined : text ((o, τ) :: ts) ++ rest = o.typed.line ++ (text ts ++ rest) := by
        rw [text, List.flatMap_cons, List.append_assoc]
        rfl
      rw [joined, List.map_cons, run_cons, turn, step]
      cases act : o.order.action with
      | call cmd =>
          have rest' : events ((o, τ) :: ts) = .command cmd τ.env :: events ts := by
            rw [events, List.filterMap_cons, act]
            rfl
          rw [rest', session, run_cons, step_of_prompt prompt]
          by_cases back : (cmd.exec H τ.env r.world).atPrompt
          · simp only [if_pos back]
            exact ih back others
          · have away := session_away (H := H) back ts
            rw [session] at away
            refine ⟨line, held, ?_⟩
            simp only [if_neg back, run_inside, away]
      | help =>
          have rest' : events ((o, τ) :: ts) = events ts := by
            rw [events, List.filterMap_cons, act]
            rfl
          rw [rest']
          exact ih prompt others
      | exit => exact absurd act (mt Order.action_exit.mp (stays (o, τ) List.mem_cons_self))
      | unknown name => exact absurd act (o.order.action_known.1 name)
      | overrun => exact absurd act o.order.action_known.2

/-- An order to leave ends the loop, and one command that does not return keeps it from that. -/
theorem run_left (prompt : r.atPrompt) (ts : List (TypedLine × Turn K))
    (stays : ∀ t ∈ ts, t.1.order ≠ .exit) {e : TypedLine} (leaves : e.order = .exit) (t : Turn K) :
    run (turn H) (.reading ⟨text ts ++ (e.typed.line ++ rest), line, held⟩ r)
        (ts.map Prod.snd ++ [t]) =
      if (session H r (events ts)).atPrompt then .left (session H r (events ts))
      else .inside (session H r (events ts)) := by
  obtain ⟨line', held', before⟩ :=
    @run_turns _ H _ line held (e.typed.line ++ rest) prompt ts stays
  rw [run_append, before]
  by_cases back : (session H r (events ts)).atPrompt
  · rw [if_pos back, if_pos back, run_cons, turn, e.iteration t.locals,
      Order.action_exit.mpr leaves]
    rfl
  · rw [if_neg back, if_neg back, run_inside]

/-- `main` executes the orders that are typed as a session of their commands. -/
theorem main_typed (H : Host K) (fresh : Slot → Bp) (argv : List (List Char)) (env : Env K)
    (ts : List (TypedLine × Turn K)) (stays : ∀ t ∈ ts, t.1.order ≠ .exit) (e : TypedLine)
    (leaves : e.order = .exit) (t : Turn K) (rest line held : List Char) :
    main H fresh argv env (text ts ++ (e.typed.line ++ rest)) line held
        (ts.map Prod.snd ++ [t]) =
      if (session H (begun fresh argv env) (events ts)).atPrompt then
        .left (session H (begun fresh argv env) (events ts))
      else .inside (session H (begun fresh argv env) (events ts)) := by
  unfold main
  by_cases prompt : (begun fresh argv env).atPrompt
  · simp only [if_pos prompt]
    exact run_left prompt ts stays leaves t
  · have away := session_away (H := H) prompt ts
    simp only [if_neg prompt, run_inside, away]

theorem newline_blank : ∀ c ∈ ['\n'], isSpace c := by simp [isSpace]

theorem nothing_blank : ∀ c ∈ ([] : List Char), isSpace c :=
  fun _ mem => absurd mem List.not_mem_nil

theorem name_single {o : Order} {name : String} (named : name ∈ o.keyword.names) :
    ∀ c ∈ name.toList, c ≠ '\n' ∧ c ≠ '\x00' := by
  intro c mem
  have solid := (keyword_names named).2.2.2 c mem
  refine ⟨?_, ?_⟩
  · rintro rfl
    cases solid
  · rintro rfl
    cases o <;> simp only [Order.keyword, Keyword.names, List.mem_cons, List.not_mem_nil,
      or_false] at named <;> obtain rfl | rfl := named <;> simp at mem

theorem space_nonempty : [' '] ≠ [] := List.cons_ne_nil _ _

theorem space_separates : ∀ c ∈ [' '], isSpace c := by simp [isSpace]

/-- One blank between two words of a line. -/
def space : Gap isSpace where
  text := [' ']
  nonempty := space_nonempty
  separates := space_separates

namespace Fragment

/-- An order without operands on a line of its own. -/
def bare (o : Order) (name : String) (named : name ∈ o.keyword.names) (none : o.operands = [])
    (fits : o.Fits) : TypedLine where
  order := o
  typed :=
    { lead := [], lead_blank := nothing_blank, name := name, named := named, operands := []
      operands_eq := none.symm, tail := ['\n'], tail_blank := newline_blank }
  fits := fits
  body := name.toList
  line_eq := rfl
  single := name_single named

/-- The address of the second `nop`, as it can be typed. -/
def secondNop : AddrText where
  text := "0x400001".toList
  addr := 0x400001#64
  reads := .inr ⟨"400001".toList, rfl,
    { nonempty := by decide, value := ⟨[4, 0, 0, 0, 0, 1], by decide, by decide⟩ }⟩

theorem break_named : "break" ∈ (Order.break secondNop).keyword.names := by decide

theorem secondNop_fits : (Order.break secondNop).Fits :=
  (by decide : "0x400001".toList.length ≤ 15)

theorem break_single : ∀ c ∈ "break 0x400001".toList, c ≠ '\n' ∧ c ≠ '\x00' := by simp

def breakLine : TypedLine where
  order := .break secondNop
  typed :=
    { lead := [], lead_blank := nothing_blank, name := "break", named := break_named
      operands := [(space, secondNop.token)]
      operands_eq := rfl, tail := ['\n'], tail_blank := newline_blank }
  fits := secondNop_fits
  body := "break 0x400001".toList
  line_eq := rfl
  single := break_single

def exitLine : TypedLine := bare .exit "exit" (by decide) rfl trivial

/-- The lines of a session past a breakpoint, every call of which succeeds. -/
def pastBreakLines : List (TypedLine × Turn Maps) :=
  [breakLine, bare .run "r" (by decide) rfl trivial,
    bare .getregs "getregs" (by decide) rfl trivial, bare .si "si" (by decide) rfl trivial,
    bare .cont "c" (by decide) rfl trivial].map
      fun line => (line, ⟨emptyLocals, env ⟨7, seven_pos⟩ exitingLater 64⟩)

theorem pastBreakLines_stays : ∀ t ∈ pastBreakLines, t.1.order ≠ .exit := by
  simp only [pastBreakLines, List.forall_mem_map, List.forall_mem_cons]
  exact ⟨nofun, nofun, nofun, nofun, nofun, nofun⟩

theorem main_pastBreak :
    main host (fun _ => ⟨false, 0, 0⟩) [[], "/bin/prog".toList]
        (env ⟨7, seven_pos⟩ exitingLater 64) (text pastBreakLines ++ (exitLine.typed.line ++ []))
        [] [] (pastBreakLines.map Prod.snd ++
          [⟨emptyLocals, env ⟨7, seven_pos⟩ exitingLater 64⟩]) =
      if (session host loaded (events pastBreakLines)).atPrompt then
        .left (session host loaded (events pastBreakLines))
      else .inside (session host loaded (events pastBreakLines)) :=
  main_typed host _ [[], "/bin/prog".toList] _ pastBreakLines pastBreakLines_stays exitLine rfl _
    [] [] []

end Fragment

end Sdb
