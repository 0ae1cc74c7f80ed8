import AdvancedUnix.Fsmon.Wrappers
import AdvancedUnix.Memory.Buffer

/-!
# The name behind a descriptor

The monitor asks the system for the link behind a descriptor and keeps at most
127 bytes of it in a static array, which it terminates at the length that the
system call returns. Without a link that length is minus one.

A stream or a directory leads to a descriptor through an object of the library,
which is freed when it is closed: what is read from it afterwards is anything.
Its descriptor leads nowhere then. So it matters for the name in a message
whether it is looked up before the call or after it.
-/

namespace Fsmon

open Memory X86

def stdout : CString := ⟨"<STDOUT>".toList.map fun c => BitVec.ofNat 8 c.toNat, by decide⟩
def stderr : CString := ⟨"<STDERR>".toList.map fun c => BitVec.ofNat 8 c.toNat, by decide⟩

/-- The system call: its result, and the array that it fills. -/
def readlink {size : Nat} (link : Option CString) (b : Buffer size) (room : Nat) :
    Option (Int × Buffer size) :=
  match link with
  | none => some (-1, b)
  | some s => (b.write 0 (s.take room).bytes).map fun b => ((s.take room).length, b)

/-- The array after a descriptor is named, unless a byte outside it is written. -/
def fdToFilename (links : Int → Option CString) (fd : Int) (filename : Buffer 128) :
    Option (Buffer 128) :=
  if fd = 1 then filename.write 0 (stdout.bytes ++ [0])
  else if fd = 2 then filename.write 0 (stderr.bytes ++ [0])
  else (readlink (links fd) filename 127).bind fun p => p.2.set p.1 0

/-- The links of the open descriptors, the descriptors of the streams and directories,
and the array for names. -/
structure World where
  links : Int → Option CString
  fileno : Word → Option Int
  dirfd : Word → Option Int
  filename : Buffer 128

/-- The descriptor that a parameter leads to, if its object can be read. -/
def World.descriptor (w : World) (n : Naming) (v : Word) : Option Int :=
  match n with
  | .fd => some (v.setWidth 32).toInt
  | .file => w.fileno v
  | .dir => w.dirfd v

def World.lookup (w : World) (n : Naming) (v : Word) : Option World :=
  (w.descriptor n v).bind fun fd =>
    (fdToFilename w.links fd w.filename).map fun filename => { w with filename }

/-- The call of the library. What closes a stream or a directory closes its
descriptor and leaves something in the freed object. -/
def World.call (w : World) (f : Fn) (p : Nat → Word) (freed : Option Int) : World :=
  match f with
  | .fclose =>
      { w with
        links := fun fd => if w.fileno (p 0) = some fd then none else w.links fd
        fileno := Function.update w.fileno (p 0) freed }
  | .closedir =>
      { w with
        links := fun fd => if w.dirfd (p 0) = some fd then none else w.links fd
        dirfd := Function.update w.dirfd (p 0) freed }
  | _ => w

/-- A name that is looked up for a message. -/
def Shown.lookup? : Shown → Option (Naming × Nat)
  | name n i => some (n, i)
  | _ => none

/-- A value that is printed from the array for names. -/
def Shown.isName : Shown → Bool
  | name _ _ | filename => true
  | _ => false

/-- The names that a message looks up, in order. -/
def Message.lookups (m : Message) : List (Naming × Nat) := m.shown.filterMap Shown.lookup?

/-- Look names up one after the other. -/
def World.lookups (p : Nat → Word) : List (Naming × Nat) → World → Option World
  | [], w => some w
  | (n, i) :: rest, w => (w.lookup n (p i)).bind (World.lookups p rest)

/-- A step of a function of the monitor: the names that it logs. Every name in a
message is the array, which is printed after all the names are looked up. -/
def World.step (w : World) (f : Fn) (p : Nat → Word) (freed : Option Int) :
    Step → Option (List CString × World)
  | .keep n i => (w.lookup n (p i)).map fun w => ([], w)
  | .call => some ([], w.call f p freed)
  | .log m => (World.lookups p m.lookups w).bind fun w =>
      if m.shown.any Shown.isName then
        w.filename.text.map fun t => ((m.shown.filter Shown.isName).map fun _ => t, w)
      else some ([], w)

/-- The names that some steps log. -/
def World.steps (f : Fn) (p : Nat → Word) (freed : Option Int) :
    List Step → World → Option (List CString)
  | [], _ => some []
  | s :: ss, w => (w.step f p freed s).bind fun r =>
      (World.steps f p freed ss r.2).map fun names => r.1 ++ names

/-- The names that a call logs, given its parameters, its result and what it leaves in
an object that it frees. -/
def World.logged (w : World) (f : Fn) (p : Nat → Word) (freed : Option Int) (ret : Word) :
    Option (List CString) :=
  World.steps f p freed (f.wrapper.steps ret) w

/-- The parameter that the log line of a call names. -/
def Fn.subject (f : Fn) (ret : Word) : Option (Naming × Nat) :=
  match f.wrapper.filename with
  | some p => some p
  | none => (f.wrapper.message ret).bind fun m => m.lookups.head?

/-- What a descriptor is called. -/
def nameOf (links : Int → Option CString) (fd : Int) : Option CString :=
  if fd = 1 then some stdout
  else if fd = 2 then some stderr
  else (links fd).map fun s => s.take 127

section

variable {links : Int → Option CString} {fd : Int} {w : World}

theorem nameOf_link (one : fd ≠ 1) (two : fd ≠ 2) :
    nameOf links fd = (links fd).map fun s => s.take 127 := by
  rw [nameOf, if_neg one, if_neg two]

/-- A link that is too long is cut. -/
theorem take_eq_iff (s : CString) (n : Nat) : s.take n = s ↔ s.length ≤ n := by
  constructor
  · intro h
    have lengths := congrArg CString.length h
    simp only [CString.length, CString.take_bytes, List.length_take] at lengths ⊢
    omega
  · intro h
    exact CString.ext (List.take_of_length_le h)

theorem write_text {s : CString} (b : Buffer 128) (fits : s.length < 128) :
    ∃ b', b.write 0 (s.bytes ++ [0]) = some b' ∧ b'.text = some s := Buffer.sprint_text fits

/-- What a descriptor is called is what stands in the array, if there is a link. -/
theorem fdToFilename_named (links : Int → Option CString) (fd : Int) (b : Buffer 128) :
    (∀ s, nameOf links fd = some s →
      ∃ b', fdToFilename links fd b = some b' ∧ b'.text = some s) ∧
      (nameOf links fd = none → fdToFilename links fd b = none) := by
  unfold nameOf fdToFilename
  by_cases one : fd = 1
  · simp only [one, if_true]
    refine ⟨?_, by simp⟩
    rintro _ ⟨⟩
    exact write_text b (by decide)
  · by_cases two : fd = 2
    · subst two
      refine ⟨?_, by simp⟩
      rintro _ ⟨⟩
      exact write_text (s := stderr) b (by decide)
    · simp only [one, two, if_false]
      cases links fd with
      | none => exact ⟨by simp, fun _ => rfl⟩
      | some link =>
          refine ⟨?_, by simp⟩
          rintro _ ⟨⟩
          have fits : (link.take 127).length < 128 := by
            simp only [CString.length, CString.take_bytes, List.length_take]
            omega
          obtain ⟨b', b'', written, set, text⟩ := Buffer.set_text (b := b) fits
          refine ⟨b'', ?_, text⟩
          simp only [readlink, written, Option.map_some, Option.bind_some]
          exact set

/-- Nothing outside the array is written exactly when there is a name. -/
theorem fdToFilename_isSome_iff (links : Int → Option CString) (fd : Int) (b : Buffer 128) :
    (fdToFilename links fd b).isSome ↔ fd = 1 ∨ fd = 2 ∨ (links fd).isSome := by
  have named := fdToFilename_named links fd b
  have isName : (nameOf links fd).isSome ↔ fd = 1 ∨ fd = 2 ∨ (links fd).isSome := by
    by_cases one : fd = 1
    · simp [nameOf, one]
    · by_cases two : fd = 2 <;> simp [nameOf, one, two]
  rw [← isName]
  cases h : nameOf links fd with
  | none => simp [named.2 h]
  | some s =>
      obtain ⟨b', made, -⟩ := named.1 s h
      simp [made]

/-- The name that a lookup leaves in the array. -/
theorem lookup_text (w : World) (n : Naming) (v : Word) :
    ((w.lookup n v).bind fun w => w.filename.text) =
      (w.descriptor n v).bind fun fd => nameOf w.links fd := by
  unfold World.lookup
  cases w.descriptor n v with
  | none => rfl
  | some fd =>
      have named := fdToFilename_named w.links fd w.filename
      cases h : nameOf w.links fd with
      | none => simp [named.2 h, h]
      | some s =>
          obtain ⟨b', made, text⟩ := named.1 s h
          simp [made, text, h]

end

/-- A message with one name, which is looked up for it. -/
structure Message.Names (m : Message) (n : Naming) (i : Nat) : Prop where
  lookups : m.lookups = [(n, i)]
  one : (m.shown.filter Shown.isName).length = 1

/-- A message that looks up a name shows no other. -/
theorem message_names {f : Fn} {ret : Word} {m : Message} {n : Naming} {i : Nat}
    (written : f.wrapper.message ret = some m) (first : m.lookups.head? = some (n, i)) :
    m.Names n i := by
  cases f
  case readdir =>
      by_cases null : ret = 0
      · exact absurd written (by simp [Fn.wrapper, Wrapper.readdir, beginMon1, null])
      · simp only [Fn.wrapper, Wrapper.readdir, beginMon1, if_neg null] at written
        cases written
        cases first
        exact ⟨rfl, rfl⟩
  case fgetc =>
      by_cases line : ret = 0x0a
      · subst line
        cases written
        cases first
        exact ⟨rfl, rfl⟩
      · simp only [Fn.wrapper, Wrapper.fgetc, beginMon1, if_neg line] at written
        cases written
        cases first
        exact ⟨rfl, rfl⟩
  all_goals
    cases written
    cases first <;> exact ⟨rfl, rfl⟩

/-- Only `fclose` looks up a name before the call. -/
theorem filename_none {f : Fn} (notFclose : f ≠ .fclose) : f.wrapper.filename = none := by
  cases f
  case fclose => exact absurd rfl notFclose
  all_goals rfl

/-- Except in `fclose`, a name is looked up after the call. -/
theorem steps_of_subject {f : Fn} {ret : Word} {n : Naming} {i : Nat}
    (subject : f.subject ret = some (n, i)) (notFclose : f ≠ .fclose) :
    ∃ m, f.wrapper.steps ret = [.call, .log m] ∧ m.Names n i := by
  have early := filename_none notFclose
  rw [Fn.subject, early] at subject
  obtain ⟨m, written, first⟩ := Option.bind_eq_some_iff.mp subject
  refine ⟨m, ?_, message_names written first⟩
  simp [Wrapper.steps, early, written]

section

variable (w : World) (f : Fn) (p : Nat → Word) (freed : Option Int)

/-- A message shows what its name is called when it is put together. -/
theorem step_log {m : Message} {n : Naming} {i : Nat} (names : m.Names n i) :
    (w.step f p freed (.log m)).map Prod.fst =
      ((w.descriptor n (p i)).bind fun fd => nameOf w.links fd).map fun s => [s] := by
  have any : m.shown.any Shown.isName = true := by
    obtain ⟨s, only⟩ := List.length_eq_one_iff.mp names.one
    have mem : s ∈ m.shown.filter Shown.isName := only ▸ List.mem_singleton_self s
    exact List.any_eq_true.mpr ⟨s, List.mem_filter.mp mem⟩
  obtain ⟨s, only⟩ := List.length_eq_one_iff.mp names.one
  simp only [World.step, names.lookups, World.lookups, any, if_true, only, List.map_cons,
    List.map_nil]
  rw [← lookup_text]
  cases w.lookup n (p i) with
  | none => rfl
  | some w => cases h : w.filename.text <;> simp [h]

/-- The names of the last step. -/
theorem steps_last (s : Step) :
    World.steps f p freed [s] w = (w.step f p freed s).map Prod.fst := by
  rw [World.steps]
  cases w.step f p freed s with
  | none => rfl
  | some r => exact congrArg some (List.append_nil r.1)

/-- The call logs nothing. -/
theorem steps_call (ss : List Step) :
    World.steps f p freed (.call :: ss) w = World.steps f p freed ss (w.call f p freed) := by
  rw [World.steps]
  cases h : World.steps f p freed ss (w.call f p freed) <;> simp [World.step, h]

/-- What a call logs whose name is looked up afterwards. -/
theorem logged_after {ret : Word} {n : Naming} {i : Nat} (subject : f.subject ret = some (n, i))
    (notFclose : f ≠ .fclose) : w.logged f p freed ret =
      (((w.call f p freed).descriptor n (p i)).bind fun fd =>
        nameOf (w.call f p freed).links fd).map fun s => [s] := by
  obtain ⟨m, steps, names⟩ := steps_of_subject subject notFclose
  rw [World.logged, steps, steps_call, steps_last, step_log _ f p freed names]

/-- What `fclose` logs. -/
theorem logged_fclose (ret : Word) : w.logged .fclose p freed ret =
    ((w.fileno (p 0)).bind fun fd => nameOf w.links fd).map fun s => [s] := by
  have early := lookup_text w .file (p 0)
  have steps : Fn.fclose.wrapper.steps ret =
    [.keep .file 0, .call, .log ⟨"fclose(\"%s\") = %d\n", [.filename, .ret]⟩] := rfl
  rw [World.logged, steps, World.steps]
  change _ = ((w.descriptor .file (p 0)).bind fun fd => nameOf w.links fd).map fun s => [s]
  rw [← early]
  cases h : w.lookup .file (p 0) with
  | none => simp [World.step, h]
  | some w' =>
      simp only [World.step, h, Option.map_some, Option.bind_some, List.nil_append, steps_call,
        steps_last]
      change Option.map _ (Option.map Prod.fst (Option.map _ w'.filename.text)) = _
      cases w'.filename.text <;> rfl

end

/-- A call logs the link that its descriptor has when the call is made. -/
def NamesObject (w : World) (f : Fn) (p : Nat → Word) (freed : Option Int) (ret : Word)
    (n : Naming) (i : Nat) : Prop :=
  ∃ fd s, w.descriptor n (p i) = some fd ∧ w.links fd = some s ∧
    w.logged f p freed ret = some [s]

/-- The descriptor has a link that is short enough. A directory that is closed is named
after the descriptor that is read from what is left of it. -/
def Nameable (w : World) (f : Fn) (p : Nat → Word) (freed : Option Int) (n : Naming)
    (i : Nat) : Prop :=
  ∃ fd s, w.descriptor n (p i) = some fd ∧ w.links fd = some s ∧
    if f = .closedir then
      ∃ fd', freed = some fd' ∧ nameOf (Function.update w.links fd none) fd' = some s
    else s.length ≤ 127

theorem call_eq_self {w : World} {f : Fn} (p : Nat → Word) (freed : Option Int)
    (closedir : f ≠ .closedir) (fclose : f ≠ .fclose) : w.call f p freed = w := by
  cases f
  case closedir => exact absurd rfl closedir
  case fclose => exact absurd rfl fclose
  all_goals rfl

theorem subject_closedir {ret : Word} {n : Naming} {i : Nat}
    (subject : Fn.closedir.subject ret = some (n, i)) : n = .dir ∧ i = 0 := by
  cases subject
  exact ⟨rfl, rfl⟩

theorem subject_fclose {ret : Word} {n : Naming} {i : Nat}
    (subject : Fn.fclose.subject ret = some (n, i)) : n = .file ∧ i = 0 := by
  cases subject
  exact ⟨rfl, rfl⟩

/-- A descriptor with a link is named by it exactly when the link is short enough. -/
theorem link_named_iff {links : Int → Option CString} {fd : Int} {s : CString}
    (one : fd ≠ 1) (two : fd ≠ 2) (link : links fd = some s) :
    ((nameOf links fd).map fun s => [s]) = some [s] ↔ s.length ≤ 127 := by
  rw [nameOf_link one two, link, ← take_eq_iff s 127]
  simp

theorem logged_closedir (w : World) (p : Nat → Word) (freed : Option Int) (ret : Word) {fd : Int}
    (found : w.dirfd (p 0) = some fd) : w.logged .closedir p freed ret =
      (freed.bind fun fd' => nameOf (Function.update w.links fd none) fd').map fun s => [s] := by
  have left : (w.call .closedir p freed).descriptor .dir (p 0) = freed := by
    simp [World.call, World.descriptor]
  have links : (w.call .closedir p freed).links = Function.update w.links fd none := by
    funext x
    by_cases same : x = fd
    · subst same
      simp [World.call, found]
    · simp [World.call, found, same, Ne.symm same]
  rw [logged_after w .closedir p freed (n := .dir) (i := 0) rfl (by decide), left, links]

theorem logged_iff {w : World} {f : Fn} {p : Nat → Word} {ret : Word} {n : Naming} {i : Nat}
    {fd : Int} {s : CString} (freed : Option Int) (subject : f.subject ret = some (n, i))
    (found : w.descriptor n (p i) = some fd) (one : fd ≠ 1) (two : fd ≠ 2)
    (link : w.links fd = some s) : w.logged f p freed ret = some [s] ↔
      if f = .closedir then
        ∃ fd', freed = some fd' ∧ nameOf (Function.update w.links fd none) fd' = some s
      else s.length ≤ 127 := by
  by_cases closedir : f = .closedir
  · subst closedir
    obtain ⟨rfl, rfl⟩ := subject_closedir subject
    rw [if_pos rfl, logged_closedir w p freed ret found]
    simp [Option.bind_eq_some_iff]
  · rw [if_neg closedir]
    by_cases fclose : f = .fclose
    · subst fclose
      obtain ⟨rfl, rfl⟩ := subject_fclose subject
      have fileno : w.fileno (p 0) = some fd := found
      rw [logged_fclose, fileno]
      exact link_named_iff one two link
    · rw [logged_after w f p freed subject fclose, call_eq_self p freed closedir fclose, found]
      exact link_named_iff one two link

/-- A call logs the right name exactly when its object can be named, and naming a
descriptor stays in the array exactly when it is open. -/
theorem names_iff {w : World} {f : Fn} {p : Nat → Word} {ret : Word} {n : Naming} {i : Nat}
    (freed : Option Int) (subject : f.subject ret = some (n, i))
    (one : w.descriptor n (p i) ≠ some 1) (two : w.descriptor n (p i) ≠ some 2) :
    (NamesObject w f p freed ret n i ↔ Nameable w f p freed n i) ∧
      ∀ links fd b, (fdToFilename links fd b).isSome ↔ fd = 1 ∨ fd = 2 ∨ (links fd).isSome := by
  refine ⟨?_, fdToFilename_isSome_iff⟩
  have others : ∀ fd, w.descriptor n (p i) = some fd → fd ≠ 1 ∧ fd ≠ 2 := by
    intro fd found
    exact ⟨fun h => one (h ▸ found), fun h => two (h ▸ found)⟩
  constructor
  · rintro ⟨fd, s, found, link, logged⟩
    have other := others fd found
    exact ⟨fd, s, found, link,
      (logged_iff freed subject found other.1 other.2 link).mp logged⟩
  · rintro ⟨fd, s, found, link, named⟩
    have other := others fd found
    exact ⟨fd, s, found, link,
      (logged_iff freed subject found other.1 other.2 link).mpr named⟩

namespace Demo

/-- The file `/a` is open as descriptor 5, and a directory and a stream refer to it. -/
def opened : World where
  links fd := if fd = 5 then some ⟨[0x2f, 0x61], by decide⟩ else none
  fileno _ := some 5
  dirfd _ := some 5
  filename := .zero 128

theorem fclose_names : (NamesObject opened .fclose (fun _ => 0) none 0 .file 0 ↔
      Nameable opened .fclose (fun _ => 0) none .file 0) ∧
    ∀ links fd b, (fdToFilename links fd b).isSome ↔ fd = 1 ∨ fd = 2 ∨ (links fd).isSome :=
  names_iff none rfl (by decide) (by decide)

/-- What is left of a directory that is closed leads back to its own descriptor. -/
theorem closedir_unnamed : ¬ NamesObject opened .closedir (fun _ => 0) (some 5) 0 .dir 0 := by
  rintro ⟨fd, s, found, link, logged⟩
  rw [logged_closedir opened (fun _ => 0) (some 5) 0 rfl] at logged
  exact absurd logged (by simp [nameOf])

end Demo

end Fsmon
