import AdvancedUnix.Sdb.CommandLine
import AdvancedUnix.Text.Lines

/-!
# The command loop

The loop of `main` does not ask whether a line was read. At the end of the input
the buffer of `getline` keeps the last line, and a line without any word keeps the
name of the command before, so what an iteration does depends on what the earlier
ones left in two arrays.

The loop leaves only at an iteration whose command is `exit`. Every command
returns here: an iteration is what it does and what it leaves for the next one.
-/

namespace Sdb

open Memory Text

/-- What one iteration of the loop leaves for the next. -/
structure LoopState where
  input : List Char
  line : List Char
  command : List Char

/-- `getline(&line, &line_max, stdin)`. -/
def LoopState.getline (s : LoopState) : LoopState :=
  match s.input with
  | [] => s
  | c :: r => { s with line := cstring (splitLine (c :: r)).1, input := (splitLine (c :: r)).2 }

/-- The prompt, the line and the command. -/
def iteration (l : Locals) (s : LoopState) : Action × LoopState :=
  let t := s.getline
  let r := mainLoop l t.line t.command
  (r.1, { t with command := r.2 })

/-- What the loop does until it leaves, if it does so within the iterations, given
what the stack holds in each. -/
def loop : Nat → (Nat → Locals) → LoopState → Option (List Action)
  | 0, _, _ => none
  | n + 1, l, s =>
      match (iteration (l 0) s).1 with
      | .exit => some []
      | .overrun => none
      | a => (loop n (fun i => l (i + 1)) (iteration (l 0) s).2).map (a :: ·)

/-- Something other than the message about an unknown command. -/
def Action.Runs : Action → Bool
  | .call _ | .help => true
  | _ => false

/-- The command that a line names. -/
def lineKeyword (line : List Char) : Option Keyword := (words isSpace line)[0]?.bind keyword

/-- Every line that names a command, once, up to the first one that leaves. -/
def expected : (Nat → Locals) → List (List Char) → List Action
  | _, [] => []
  | l, line :: rest =>
      match lineKeyword line with
      | none => expected (fun i => l (i + 1)) rest
      | some .exit => []
      | some k =>
          k.action (l 0) ((words isSpace line).drop 1) :: expected (fun i => l (i + 1)) rest

def inputLines (input : List Char) : List (List Char) := (lines input).map cstring

/-- The loop leaves after at most one iteration for each line and one more, and
what it has executed are the commands of the lines. -/
def LoopEnds (l : Nat → Locals) (fresh held input : List Char) : Prop :=
  ∃ n ≤ (inputLines input).length + 1, ∃ done,
    loop n l ⟨input, fresh, held⟩ = some done ∧
      done.filter Action.Runs = expected l (inputLines input)

/-- The sizes of the arrays that a command reads its operands into. -/
def Keyword.sizes : Keyword → List Nat
  | .break | .disasm | .dump | .get => [16]
  | .set => [16, 16]
  | .load => [64]
  | _ => []

/-- The operands on the line have room in their arrays. -/
def Keyword.Room (k : Keyword) (operands : List (List Char)) : Prop :=
  ∀ p ∈ operands.zip k.sizes, p.1.length < p.2

/-- No line in front of the first one that leaves names a command. -/
def NoCommand (rest : List (List Char)) : Prop :=
  ∀ line ∈ rest.takeWhile (lineKeyword · ≠ some .exit), lineKeyword line = none

/-- The lines lead to one that leaves: every line with a word fits, and no line
without a word finds the name of a command held. A name that was held from the
start and leaves must have no command behind it. -/
inductive Leads : List Char → List (List Char) → Prop
  | exit {held line rest} : lineKeyword line = some .exit → Leads held (line :: rest)
  | word {held line rest w operands} : words isSpace line = w :: operands → w.length < 64 →
      (∀ k, keyword w = some k → k.Room operands) → Leads w rest → Leads held (line :: rest)
  | blank {held line rest} : words isSpace line = [] → keyword held = none →
      Leads held rest → Leads held (line :: rest)
  | stale {held line rest} : words isSpace line = [] → keyword held = some .exit →
      NoCommand rest → Leads held (line :: rest)

theorem action_exit {k : Keyword} {l : Locals} {operands : List (List Char)} :
    k.action l operands = .exit ↔ k = .exit := by
  have other : ∀ o : Option Cmd, Action.ofOption o ≠ .exit := by
    intro o h
    cases o <;> cases h
  cases k with
  | exit => exact iff_of_true rfl rfl
  | «break» | disasm | dump | get | set | load =>
      exact iff_of_false (other _) (fun h => by cases h)
  | _ => exact iff_of_false (fun h => by cases h) (fun h => by cases h)

/-- One operand overruns its array exactly when it has no room there. -/
theorem ofOption_overrun {size : Nat} {held : List Char} {operands : List (List Char)}
    (cmd : List Char → Cmd) :
    Action.ofOption ((scanS size held operands[0]?).map cmd) = .overrun ↔
      ¬ ∀ p ∈ operands.zip [size], p.1.length < p.2 := by
  cases operands with
  | nil => exact iff_of_false (fun h => by cases h) (by simp)
  | cons t operands =>
      by_cases fits : t.length < size
      · simp [scanS, fits, Action.ofOption]
      · simp [scanS, fits, Action.ofOption]

theorem action_overrun {k : Keyword} {l : Locals} {operands : List (List Char)} :
    k.action l operands = .overrun ↔ ¬ k.Room operands := by
  cases k with
  | «break» | disasm | dump | get | load => exact ofOption_overrun _
  | set =>
      cases operands with
      | nil => exact iff_of_false (fun h => by cases h) (by simp [Keyword.Room])
      | cons t operands =>
          cases operands with
          | nil =>
              by_cases fits : t.length < 16 <;>
                simp [Keyword.action, Keyword.Room, Keyword.sizes, scanS, fits, Action.ofOption]
          | cons u operands =>
              by_cases fits : t.length < 16 <;> by_cases second : u.length < 16 <;>
                simp [Keyword.action, Keyword.Room, Keyword.sizes, scanS, fits, second,
                  Action.ofOption]
  | _ => exact iff_of_false (fun h => by cases h) (by simp [Keyword.Room, Keyword.sizes])

/-- A command that does not leave is executed. -/
theorem action_runs {k : Keyword} {l : Locals} {operands : List (List Char)} (stays : k ≠ .exit)
    (room : k.Room operands) : (k.action l operands).Runs = true := by
  have exits : k.action l operands ≠ .exit := mt action_exit.mp stays
  have fits : k.action l operands ≠ .overrun := fun h => action_overrun.mp h room
  have named : ∀ name, k.action l operands ≠ .unknown name := by
    have other : ∀ o : Option Cmd, ∀ name, Action.ofOption o ≠ .unknown name := by
      intro o name h
      cases o <;> cases h
    intro name
    cases k with
    | «break» | disasm | dump | get | set | load => exact other _ _
    | _ => exact fun h => by cases h
  cases act : k.action l operands with
  | call | help => rfl
  | exit => exact absurd act exits
  | unknown name => exact absurd act (named name)
  | overrun => exact absurd act fits

variable {l : Locals} {line held next w : List Char} {operands : List (List Char)} {k : Keyword}

theorem lineKeyword_cons (read : words isSpace line = w :: operands) :
    lineKeyword line = keyword w := by
  rw [lineKeyword, read]
  rfl

theorem lineKeyword_nil (blank : words isSpace line = []) : lineKeyword line = none := by
  rw [lineKeyword, blank]
  rfl

/-- The names of the commands are short. -/
theorem keyword_fits (named : keyword w = some k) : w.length < 64 := by
  have length : ∀ name : String, String.ofList w = name → w.length = name.toList.length := by
    intro name same
    rw [← same, String.toList_ofList]
  unfold keyword at named
  split at named
  all_goals first
    | (rename_i same
       rw [length _ same]
       decide)
    | cases named

/-- What the array of the command holds once the line has been read into it. -/
def Holds (line held next : List Char) : Prop := scanS 64 held (words isSpace line)[0]? = some next

theorem holds_word (read : words isSpace line = w :: operands) (fits : w.length < 64) :
    Holds line held w := by
  rw [Holds, read]
  exact scanS_fits held fits

theorem holds_blank (blank : words isSpace line = []) : Holds line held held := by
  rw [Holds, blank]
  rfl

theorem Holds.cases (h : Holds line held next) :
    words isSpace line = [] ∧ next = held ∨
      ∃ operands, words isSpace line = next :: operands ∧ next.length < 64 := by
  unfold Holds at h
  cases read : words isSpace line with
  | nil =>
      rw [read] at h
      exact .inl ⟨rfl, (Option.some.inj h).symm⟩
  | cons w operands =>
      rw [read, List.getElem?_cons_zero] at h
      by_cases fits : w.length < 64
      · rw [scanS_fits held fits] at h
        cases h
        exact .inr ⟨operands, rfl, fits⟩
      · rw [scanS_overrun held fits] at h
        cases h

theorem Holds.again (h : Holds line held next) : Holds line next next := by
  obtain ⟨blank, -⟩ | ⟨operands, read, fits⟩ := h.cases
  · exact holds_blank blank
  · exact holds_word read fits

theorem mainLoop_named (h : Holds line held next) (named : keyword next = some k) :
    mainLoop l line held = (k.action l ((words isSpace line).drop 1), next) := by
  unfold Holds at h
  simp only [mainLoop, h, named]

theorem mainLoop_unnamed (h : Holds line held next) (named : keyword next = none) :
    mainLoop l line held = (.unknown next, next) := by
  unfold Holds at h
  simp only [mainLoop, h, named]

theorem mainLoop_long (h : ∀ next, ¬ Holds line held next) :
    mainLoop l line held = (.overrun, held) := by
  have long := Option.eq_none_iff_forall_ne_some.mpr h
  simp only [mainLoop, long]

/-- Leaving depends on what the array of the command holds alone. -/
theorem mainLoop_exit (h : Holds line held next) :
    (mainLoop l line held).1 = .exit ↔ keyword next = some .exit := by
  cases named : keyword next with
  | none =>
      rw [mainLoop_unnamed h named]
      exact iff_of_false (fun h => by cases h) (fun h => by cases h)
  | some k =>
      rw [mainLoop_named h named, action_exit, Option.some_inj]

theorem inputLines_cons {input : List Char} (h : input ≠ []) :
    inputLines input =
      cstring (splitLine input).1 :: inputLines (splitLine input).2 := by
  cases input with
  | nil => exact absurd rfl h
  | cons c r => rw [inputLines, lines_cons]; rfl

theorem getline_nil {s : LoopState} (h : inputLines s.input = []) : s.getline = s := by
  obtain ⟨input, line, command⟩ := s
  cases input with
  | nil => rfl
  | cons c r =>
      rw [inputLines_cons (List.cons_ne_nil c r)] at h
      cases h

/-- An iteration that finds a line. -/
theorem iteration_line {s : LoopState} {rest : List (List Char)}
    (h : inputLines s.input = line :: rest) :
    ∃ input, inputLines input = rest ∧ ∀ l, iteration l s =
      ((mainLoop l line s.command).1, ⟨input, line, (mainLoop l line s.command).2⟩) := by
  obtain ⟨input, buffer, command⟩ := s
  cases input with
  | nil => cases h
  | cons c r =>
      rw [inputLines_cons (List.cons_ne_nil c r)] at h
      injection h with first others
      subst first
      exact ⟨_, others, fun l => rfl⟩

section

variable {n : Nat} {l : Nat → Locals} {s t : LoopState} {done : List Action}
variable {rest : List (List Char)}

theorem loop_exit (leaves : (iteration (l 0) s).1 = .exit) : loop (n + 1) l s = some [] := by
  simp only [loop, leaves]

theorem loop_unknown (act : iteration (l 0) s = (.unknown w, t)) :
    loop (n + 1) l s = (loop n (fun i => l (i + 1)) t).map (.unknown w :: ·) := by
  simp only [loop, act]

theorem loop_command {a : Action} (act : iteration (l 0) s = (a, t)) (runs : a.Runs = true) :
    loop (n + 1) l s = (loop n (fun i => l (i + 1)) t).map (a :: ·) := by
  simp only [loop, act]
  cases a with
  | call | help => rfl
  | exit | unknown | overrun => cases runs

/-- A loop that leaves within its iterations fits the line that it finds, and leaves
there, or goes on behind an unknown name or a command. -/
theorem loop_line (left : inputLines s.input = line :: rest)
    (ended : loop (n + 1) l s = some done) :
    ∃ next, Holds line s.command next ∧
      (keyword next = some .exit ∧ done = [] ∨
        keyword next ≠ some .exit ∧ ∃ input after, inputLines input = rest ∧
          loop n (fun i => l (i + 1)) ⟨input, line, next⟩ = some after ∧
          (keyword next = none ∧ done.filter Action.Runs = after.filter Action.Runs ∨
            ∃ k, keyword next = some k ∧ k.Room ((words isSpace line).drop 1) ∧
              done.filter Action.Runs =
                k.action (l 0) ((words isSpace line).drop 1) :: after.filter Action.Runs)) := by
  obtain ⟨input, others, step⟩ := iteration_line left
  have act := step (l 0)
  by_cases fits : ∃ next, Holds line s.command next
  · obtain ⟨next, held⟩ := fits
    refine ⟨next, held, ?_⟩
    cases named : keyword next with
    | none =>
        rw [mainLoop_unnamed held named] at act
        rw [loop_unknown act] at ended
        obtain ⟨after, found, rfl⟩ := Option.map_eq_some_iff.mp ended
        exact .inr ⟨(fun h => by cases h), input, after, others, found, .inl ⟨rfl, rfl⟩⟩
    | some k =>
        rw [mainLoop_named held named] at act
        by_cases leaves : k = .exit
        · subst leaves
          rw [loop_exit (by rw [act]; rfl)] at ended
          exact .inl ⟨rfl, (Option.some.inj ended).symm⟩
        · have room : k.Room ((words isSpace line).drop 1) := by
            by_contra crowded
            simp only [loop, act, action_overrun.mpr crowded] at ended
            cases ended
          have runs := action_runs (l := l 0) leaves room
          rw [loop_command act runs] at ended
          obtain ⟨after, found, rfl⟩ := Option.map_eq_some_iff.mp ended
          exact .inr ⟨fun h => leaves (Option.some.inj h), input, after, others, found,
            .inr ⟨k, rfl, room, List.filter_cons_of_pos runs⟩⟩
  · rw [mainLoop_long (not_exists.mp fits)] at act
    simp only [loop, act] at ended
    cases ended

theorem expected_none (named : lineKeyword line = none) :
    expected l (line :: rest) = expected (fun i => l (i + 1)) rest := by
  simp only [expected, named]

theorem expected_exit (named : lineKeyword line = some .exit) :
    expected l (line :: rest) = [] := by
  simp only [expected, named]

theorem expected_command (named : lineKeyword line = some k) (stays : k ≠ .exit) :
    expected l (line :: rest) = k.action (l 0) ((words isSpace line).drop 1) ::
      expected (fun i => l (i + 1)) rest := by
  simp only [expected, named]

/-- Nothing is expected exactly of lines that have no command. -/
theorem expected_eq_nil : expected l rest = [] ↔ NoCommand rest := by
  induction rest generalizing l with
  | nil => exact iff_of_true rfl (by simp [NoCommand])
  | cons line rest ih =>
      cases named : lineKeyword line with
      | none =>
          rw [expected_none named, ih]
          simp [NoCommand, named]
      | some k =>
          by_cases leaves : k = .exit
          · rw [leaves] at named
            rw [expected_exit named]
            exact iff_of_true rfl (by simp [NoCommand, named])
          · rw [expected_command named leaves]
            exact iff_of_false (List.cons_ne_nil _ _) (by simp [NoCommand, named, leaves])

/-- Lines that lead to one that leaves are executed up to it. -/
theorem Leads.loop (leads : Leads held rest) :
    ∀ (l : Nat → Locals) (s : LoopState), s.command = held → inputLines s.input = rest →
      ∃ done, loop rest.length l s = some done ∧ done.filter Action.Runs = expected l rest := by
  induction leads with
  | @exit held line rest named =>
      intro l s _ left
      obtain ⟨input, -, step⟩ := iteration_line left
      obtain ⟨w, first, found⟩ := Option.bind_eq_some_iff.mp named
      have read : Holds line s.command w := by
        rw [Holds, first]
        exact scanS_fits _ (keyword_fits found)
      refine ⟨[], loop_exit ?_, (expected_exit named).symm⟩
      rw [step, mainLoop_named read found]
      rfl
  | @word held line rest w operands read fits room _ ih =>
      intro l s same left
      obtain ⟨input, others, step⟩ := iteration_line left
      obtain ⟨after, found, counted⟩ := ih (fun i => l (i + 1)) ⟨input, line, w⟩ rfl others
      have act := step (l 0)
      cases named : keyword w with
      | none =>
          rw [mainLoop_unnamed (holds_word read fits) named] at act
          refine ⟨.unknown w :: after, ?_, ?_⟩
          · rw [List.length_cons, loop_unknown act, found, Option.map_some]
          · rw [expected_none ((lineKeyword_cons read).trans named)]
            exact counted
      | some k =>
          rw [mainLoop_named (holds_word read fits) named] at act
          by_cases leaves : k = .exit
          · subst leaves
            refine ⟨[], loop_exit ?_, ?_⟩
            · rw [act]
              rfl
            · rw [expected_exit ((lineKeyword_cons read).trans named)]
              rfl
          · have inside : k.Room ((words isSpace line).drop 1) := by
              rw [read]
              exact room k named
            have runs := action_runs (l := l 0) leaves inside
            refine ⟨k.action (l 0) ((words isSpace line).drop 1) :: after, ?_, ?_⟩
            · rw [List.length_cons, loop_command act runs, found, Option.map_some]
            · rw [expected_command ((lineKeyword_cons read).trans named) leaves,
                List.filter_cons_of_pos runs, counted]
  | @blank held line rest read unnamed _ ih =>
      intro l s same left
      obtain ⟨input, others, step⟩ := iteration_line left
      obtain ⟨after, found, counted⟩ := ih (fun i => l (i + 1)) ⟨input, line, held⟩ rfl others
      have act := step (l 0)
      rw [same, mainLoop_unnamed (holds_blank read) unnamed] at act
      refine ⟨.unknown held :: after, ?_, ?_⟩
      · rw [List.length_cons, loop_unknown act, found, Option.map_some]
      · rw [expected_none (lineKeyword_nil read)]
        exact counted
  | @stale held line rest read named none =>
      intro l s same left
      obtain ⟨input, others, step⟩ := iteration_line left
      refine ⟨[], loop_exit ?_, ?_⟩
      · rw [step, same, mainLoop_named (holds_blank read) named]
        rfl
      · rw [expected_none (lineKeyword_nil read), expected_eq_nil.mpr none]
        rfl

/-- A loop that finds no exit held executes every command before it leaves. -/
theorem expected_le :
    ∀ (n : Nat) (l : Nat → Locals) (s : LoopState) (done : List Action),
      inputLines s.input = rest → keyword s.command ≠ some .exit → loop n l s = some done →
        (expected l rest).length ≤ (done.filter Action.Runs).length := by
  induction rest with
  | nil =>
      intro n l s done left held ended
      exact Nat.zero_le _
  | cons line rest ih =>
      intro n l s done left held ended
      cases n with
      | zero => cases ended
      | succ n =>
          obtain ⟨next, read, leaves | stays⟩ := loop_line left ended
          · obtain ⟨blank, rfl⟩ | ⟨operands, word, -⟩ := read.cases
            · exact absurd leaves.1 held
            · rw [expected_exit ((lineKeyword_cons word).trans leaves.1)]
              exact Nat.zero_le _
          · obtain ⟨other, input, after, others, found, outcome⟩ := stays
            have most := ih n _ ⟨input, line, next⟩ after others other found
            obtain ⟨unnamed, same⟩ | ⟨k, named, -, ran⟩ := outcome
            · have none : lineKeyword line = none := by
                obtain ⟨blank, -⟩ | ⟨operands, word, -⟩ := read.cases
                · exact lineKeyword_nil blank
                · exact (lineKeyword_cons word).trans unnamed
              rw [expected_none none, same]
              exact most
            · rw [ran, List.length_cons]
              obtain ⟨blank, -⟩ | ⟨operands, word, -⟩ := read.cases
              · rw [expected_none (lineKeyword_nil blank)]
                exact Nat.le_succ_of_le most
              · have leaves : k ≠ .exit := fun h => other (h ▸ named)
                rw [expected_command ((lineKeyword_cons word).trans named) leaves,
                  List.length_cons]
                exact Nat.succ_le_succ most

/-- A loop that leaves in time and has executed the commands of the lines was led
there by the lines, if it does not leave at the end of the input. -/
theorem leads_of_loop :
    ∀ (n : Nat) (l : Nat → Locals) (s : LoopState) (done : List Action),
      inputLines s.input = rest → n ≤ rest.length + 1 →
      (rest = [] → ∀ l', (mainLoop l' s.line s.command).1 ≠ .exit) →
      loop n l s = some done → done.filter Action.Runs = expected l rest →
        Leads s.command rest := by
  induction rest with
  | nil =>
      intro n l s done left bound again ended _
      have stays : (iteration (l 0) s).1 ≠ .exit := by
        show (mainLoop (l 0) s.getline.line s.getline.command).1 ≠ .exit
        rw [getline_nil left]
        exact again rfl (l 0)
      cases n with
      | zero => cases ended
      | succ n =>
          have zero : n = 0 := Nat.le_zero.mp (Nat.le_of_succ_le_succ bound)
          subst zero
          unfold Sdb.loop at ended
          split at ended
          · rename_i leaves
            exact absurd leaves stays
          · cases ended
          · cases ended
  | cons line rest ih =>
      intro n l s done left bound _ ended counted
      cases n with
      | zero => cases ended
      | succ n =>
          have later : n ≤ rest.length + 1 := Nat.le_of_succ_le_succ bound
          obtain ⟨next, read, ⟨leaves, none⟩ | stays⟩ := loop_line left ended
          · obtain ⟨blank, rfl⟩ | ⟨operands, word, -⟩ := read.cases
            · rw [none, expected_none (lineKeyword_nil blank)] at counted
              exact .stale blank leaves (expected_eq_nil.mp counted.symm)
            · exact .exit ((lineKeyword_cons word).trans leaves)
          · obtain ⟨other, input, after, others, found, outcome⟩ := stays
            have leads := fun counted => ih n _ ⟨input, line, next⟩ after others later
              (fun _ l' => mt (mainLoop_exit read.again).mp other) found counted
            obtain ⟨blank, rfl⟩ | ⟨operands, word, fits⟩ := read.cases
            · rw [expected_none (lineKeyword_nil blank)] at counted
              obtain ⟨unnamed, same⟩ | ⟨k, -, -, ran⟩ := outcome
              · exact .blank blank unnamed (leads (same ▸ counted))
              · have most := expected_le n _ ⟨input, line, s.command⟩ after others other found
                rw [← counted, ran, List.length_cons] at most
                omega
            · obtain ⟨unnamed, same⟩ | ⟨k, named, room, ran⟩ := outcome
              · rw [expected_none ((lineKeyword_cons word).trans unnamed)] at counted
                refine .word word fits ?_ (leads (same ▸ counted))
                intro k named
                rw [unnamed] at named
                cases named
              · have leaves : k ≠ .exit := fun h => other (h ▸ named)
                rw [expected_command ((lineKeyword_cons word).trans named) leaves, ran] at counted
                refine .word word fits ?_ (leads (List.tail_eq_of_cons_eq counted))
                intro j same
                rw [word] at room
                exact Option.some.inj (named.symm.trans same) ▸ room

/-- Without any input the loop leaves exactly when the line that is found in the
buffer leads there. -/
theorem loopEnds_nil (l : Nat → Locals) (fresh held : List Char) :
    LoopEnds l fresh held [] ↔ Leads held [fresh] := by
  have first : (iteration (l 0) ⟨[], fresh, held⟩).1 = (mainLoop (l 0) fresh held).1 := rfl
  constructor
  · rintro ⟨n, bound, done, ended, -⟩
    have exits : (mainLoop (l 0) fresh held).1 = .exit := by
      cases n with
      | zero => cases ended
      | succ n =>
          have zero : n = 0 := Nat.le_zero.mp (Nat.le_of_succ_le_succ bound)
          subst zero
          unfold Sdb.loop at ended
          split at ended
          · rename_i leaves
            exact first.symm.trans leaves
          · cases ended
          · cases ended
    by_cases fits : ∃ next, Holds fresh held next
    · obtain ⟨next, read⟩ := fits
      have leaves := (mainLoop_exit read).mp exits
      obtain ⟨blank, rfl⟩ | ⟨operands, word, -⟩ := read.cases
      · exact .stale blank leaves (by simp [NoCommand])
      · exact .exit ((lineKeyword_cons word).trans leaves)
    · rw [mainLoop_long (not_exists.mp fits)] at exits
      cases exits
  · intro leads
    refine ⟨1, Nat.le_refl 1, [], loop_exit ?_, rfl⟩
    rw [first]
    cases leads with
    | exit named =>
        obtain ⟨w, word, found⟩ := Option.bind_eq_some_iff.mp named
        have read : Holds fresh held w := by
          rw [Holds, word]
          exact scanS_fits _ (keyword_fits found)
        exact (mainLoop_exit read).mpr found
    | word _ _ _ none => cases none
    | blank _ _ none => cases none
    | stale blank named _ => exact (mainLoop_exit (holds_blank blank)).mpr named

/-- The loop ends in time, with every command executed once, exactly when its lines
lead to one that leaves. -/
theorem loopEnds_iff (l : Nat → Locals) (fresh held input : List Char) :
    LoopEnds l fresh held input ↔
      Leads held (if input = [] then [fresh] else inputLines input) := by
  by_cases empty : input = []
  · rw [if_pos empty, empty]
    exact loopEnds_nil l fresh held
  · rw [if_neg empty]
    have some_line : inputLines input ≠ [] := by
      rw [inputLines_cons empty]
      exact List.cons_ne_nil _ _
    constructor
    · rintro ⟨n, bound, done, ended, counted⟩
      exact leads_of_loop n l ⟨input, fresh, held⟩ done rfl bound
        (fun none => absurd none some_line) ended counted
    · intro leads
      obtain ⟨done, ended, counted⟩ := leads.loop l ⟨input, fresh, held⟩ rfl rfl
      exact ⟨_, Nat.le_succ _, done, ended, counted⟩

end

namespace Fragment

/-- The list is shown again at the end of the input, and again. -/
theorem list_repeats : ¬ LoopEnds (fun _ => emptyLocals) [] [] "list\n".toList := by
  rintro ⟨n, bound, done, ended, counted⟩
  have leads := leads_of_loop n _ _ done rfl bound (fun none => by cases none) ended counted
  have read : words isSpace "list\n".toList = ["list".toList] := by decide
  cases leads with
  | exit named => exact absurd named (by decide)
  | word _ _ _ none => cases none
  | blank blank _ _ => exact absurd (blank.symm.trans read) (by decide)
  | stale blank _ _ => exact absurd (blank.symm.trans read) (by decide)

end Fragment

end Sdb
