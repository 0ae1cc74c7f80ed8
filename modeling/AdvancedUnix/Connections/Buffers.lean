import AdvancedUnix.Connections.Decoding
import AdvancedUnix.Connections.Listing
import AdvancedUnix.Text.Decimal

/-!
# The buffers of a row

`print_entry` builds the two ends of a connection and the path of the program in arrays of
32 characters, and prints the rest of the command line from behind a word as long as the
path. None of it is checked.

An IPv4 end always fits. Whether an IPv6 end does depends on its text; the path is the first
word of the command line, or what the array held when there is none, and the pointer behind
it is inside unless the line that was read is nothing but that word.
-/

namespace Connections

open Memory Text

/-- The words that `parse_line` counts. -/
def fields (line : List Char) : List (List Char) :=
  (words isDelim line).filter fun token => token.head? ≠ some '\n'

/-- An entry that `parse_line` makes of a line with both ends. -/
def Produced (ntop6 : (Fin 16 → Byte) → List Char) (isIpv6 : Bool) (entry : ConnectionEntry) :
    Prop :=
  ∃ line locals before, 3 ≤ (fields line).length ∧
    parseLine ntop6 locals isIpv6 line before = some entry

/-- `program_path` as a string after `sscanf`: the word, or what the array held if that is
terminated. -/
def programPath (held cmdline : List Char) : Option (List Char) :=
  match scanString (cstring cmdline) with
  | some word => some word
  | none => if nul ∈ held then some (cstring held) else none

/-- `print_entry` stays in its buffers and in the command line that it reads. -/
structure StaysInside (file : List Char → Option (List Char)) (held : List Char)
    (entry : ConnectionEntry) : Prop where
  localEnd : (entry.localAddr ++ ':' :: entry.localPort).length < endSize
  remoteEnd : (entry.remoteAddr ++ ':' :: entry.remotePort).length < endSize
  path : ∀ cmdline, readCmdline file entry.pid = some cmdline →
    ∀ word, scanString (cstring cmdline) = some word → word.length < pathSize
  pointer : ∃ cmdline, readCmdline file entry.pid = some cmdline ∧
    ∃ path, programPath held cmdline = some path ∧ path.length + 1 < cmdline.length

/-- The command line has a first word that is short and is not all that was read, or there
is no word and what the array held is shorter than the line. -/
def RoomFor (held s : List Char) : Prop :=
  match scanString (cstring (visible s)) with
  | some word => word.length < pathSize ∧ visible s ≠ word
  | none => nul ∈ held ∧ (cstring held).length < (visible s).length

section Parsing

variable {ntop6 : (Fin 16 → Byte) → List Char} {locals : Nat → Locals} {isIpv6 : Bool}
  {entry entry' : ConnectionEntry}

theorem parseTokens_fields (ts : List (List Char)) (count : Nat) (entry : ConnectionEntry) :
    parseTokens ntop6 locals isIpv6 ts count entry = parseTokens ntop6 locals isIpv6
      (ts.filter fun token => token.head? ≠ some '\n') count entry := by
  induction ts generalizing count entry with
  | nil => rfl
  | cons t ts ih =>
      by_cases feed : t.head? = some '\n'
      · rw [parseTokens, if_pos feed, List.filter_cons_of_neg (by simpa using feed), ih]
      · rw [parseTokens, if_neg feed, List.filter_cons_of_pos (by simpa using feed), parseTokens,
          if_neg feed]
        exact congrArg _ (funext fun e => ih (count + 1) e)

/-- The two ends, and nothing else of an entry, are stored from the words one and two. -/
structure SameEnds (entry entry' : ConnectionEntry) : Prop where
  localAddr : entry'.localAddr = entry.localAddr
  localPort : entry'.localPort = entry.localPort
  remoteAddr : entry'.remoteAddr = entry.remoteAddr
  remotePort : entry'.remotePort = entry.remotePort

theorem parseField_ends {count : Nat} (h : 3 ≤ count) {token : List Char}
    (parsed : parseField ntop6 locals isIpv6 count token entry = some entry') :
    SameEnds entry entry' := by
  rw [parseField, if_neg (by omega), if_neg (by omega)] at parsed
  repeat' split at parsed
  all_goals
    cases parsed
    exact ⟨rfl, rfl, rfl, rfl⟩

theorem parseTokens_ends {ts : List (List Char)} {count : Nat} (h : 3 ≤ count)
    (parsed : parseTokens ntop6 locals isIpv6 ts count entry = some entry') :
    SameEnds entry entry' := by
  induction ts generalizing count entry with
  | nil =>
      cases parsed
      exact ⟨rfl, rfl, rfl, rfl⟩
  | cons t ts ih =>
      rw [parseTokens] at parsed
      split at parsed
      · exact ih h parsed
      · obtain ⟨e, field, rest⟩ := Option.bind_eq_some_iff.mp parsed
        have first := parseField_ends h field
        have later := ih (Nat.le_succ_of_le h) rest
        exact ⟨later.1.trans first.1, later.2.trans first.2, later.3.trans first.3,
          later.4.trans first.4⟩

/-- Both ends come from `parse_addr_port_pair`. -/
theorem Produced.ends (produced : Produced ntop6 isIpv6 entry) :
    (∃ l pair, parseAddrPortPair ntop6 l pair isIpv6 = some (entry.localAddr, entry.localPort)) ∧
      ∃ l pair, parseAddrPortPair ntop6 l pair isIpv6 =
        some (entry.remoteAddr, entry.remotePort) := by
  obtain ⟨line, locals, before, three, parsed⟩ := produced
  rw [parseLine, parseTokens_fields] at parsed
  have counted : ∀ t ∈ fields line, t.head? ≠ some '\n' := by
    intro t mem
    simpa using (List.mem_filter.mp mem).2
  change parseTokens ntop6 locals isIpv6 (fields line) 0 before = some entry at parsed
  generalize fields line = ts at three parsed counted
  obtain _ | ⟨a, _ | ⟨b, _ | ⟨c, rest⟩⟩⟩ := ts
  case cons.cons.cons =>
    simp only [List.mem_cons, forall_eq_or_imp] at counted
    obtain ⟨first, second, third, -⟩ := counted
    rw [parseTokens, if_neg first] at parsed
    change parseTokens ntop6 locals isIpv6 (b :: c :: rest) 1 before = some entry at parsed
    rw [parseTokens, if_neg second] at parsed
    obtain ⟨e₁, field₁, parsed⟩ := Option.bind_eq_some_iff.mp parsed
    rw [parseTokens, if_neg third] at parsed
    obtain ⟨e₂, field₂, parsed⟩ := Option.bind_eq_some_iff.mp parsed
    obtain ⟨⟨addr, port⟩, pair₁, rfl⟩ := Option.map_eq_some_iff.mp field₁
    obtain ⟨⟨addr', port'⟩, pair₂, rfl⟩ := Option.map_eq_some_iff.mp field₂
    have same := parseTokens_ends (Nat.le_refl 3) parsed
    rw [same.localAddr, same.localPort, same.remoteAddr, same.remotePort]
    exact ⟨⟨_, _, pair₁⟩, _, _, pair₂⟩
  all_goals
    simp only [List.length_cons, List.length_nil] at three
    omega

theorem decimal_length_le {n k : Nat} (pos : 0 < k) (h : n < 10 ^ k) :
    (decimal n).length ≤ k := (numeral_length_le_iff (by decide) pos).mpr h

theorem inetNtop_length (a : BitVec 32) : (inetNtop a).length ≤ 15 := by
  have byte (i : Nat) : (decimal (octet a i).toNat).length ≤ 3 :=
    decimal_length_le (by decide) (Nat.lt_of_lt_of_le (octet a i).isLt (by decide))
  have bytes := And.intro (And.intro (byte 0) (byte 1)) (And.intro (byte 2) (byte 3))
  simp only [inetNtop, List.length_append, List.length_cons]
  omega

theorem portStr_length {port : Memory.Word} {text : List Char} (h : portStr port = some text) :
    text.length < 8 := by
  simp only [portStr, Option.ite_none_right_eq_some, Option.some.injEq] at h
  obtain ⟨short, rfl⟩ := h
  exact short

/-- The text of an IPv4 end has at most 23 characters. -/
theorem parseAddrPortPair_length {l : Locals} {pair addr port : List Char}
    (h : parseAddrPortPair ntop6 l pair false = some (addr, port)) :
    (addr ++ ':' :: port).length < endSize := by
  obtain ⟨text, shown, same⟩ := Option.map_eq_some_iff.mp h
  obtain ⟨rfl, rfl⟩ := Prod.mk.inj same
  have short := portStr_length shown
  have address := inetNtop_length ((scanPair pair).1.getD l.sAddr)
  show (inetNtop _ ++ ':' :: text).length < 32
  rw [List.length_append, List.length_cons]
  omega

end Parsing

section Pointer

theorem cstring_append_nul (s : List Char) : cstring (s ++ [nul]) = cstring s := by
  induction s with
  | nil => rfl
  | cons c s ih =>
      unfold cstring at ih ⊢
      rw [List.cons_append, List.takeWhile_cons, List.takeWhile_cons, ih]

/-- The first word is shorter than the line, or it is the line. -/
theorem scanString_length_lt_iff {s w : List Char} (h : scanString (cstring s) = some w) :
    w.length < s.length ↔ s ≠ w := by
  obtain ⟨front, back, parts, -, -⟩ := scanString_eq_some h
  have seen : cstring s <+: s := List.takeWhile_prefix _
  have inside : w <:+: s :=
    List.IsInfix.trans ⟨front, back, by rw [parts, List.append_assoc]⟩ seen.isInfix
  constructor
  · rintro less rfl
    exact absurd less (Nat.lt_irrefl _)
  · intro other
    refine Nat.lt_of_le_of_ne inside.length_le fun same => other ?_
    exact (inside.eq_of_length same).symm

variable {file : List Char → Option (List Char)} {entry : ConnectionEntry} {s : List Char}

/-- The path fits and the pointer is inside exactly when there is room for them. -/
theorem path_pointer_iff (known : file (procPath entry.pid) = some s) (held : List Char) :
    ((∀ cmdline, readCmdline file entry.pid = some cmdline →
        ∀ word, scanString (cstring cmdline) = some word → word.length < pathSize) ∧
      ∃ cmdline, readCmdline file entry.pid = some cmdline ∧
        ∃ path, programPath held cmdline = some path ∧ path.length + 1 < cmdline.length) ↔
      s ≠ [] ∧ RoomFor held s := by
  rw [readCmdline, known, Option.bind_some]
  by_cases empty : s = []
  · rw [if_pos empty]
    refine iff_of_false ?_ fun h => h.1 empty
    rintro ⟨-, cmdline, none, -⟩
    cases none
  · rw [if_neg empty, and_iff_right empty]
    have text : cstring (lineBuffer s) = cstring (visible s) := cstring_append_nul (visible s)
    have size : (lineBuffer s).length = (visible s).length + 1 := List.length_append
    simp only [Option.some.injEq, forall_eq', exists_eq_left', programPath, RoomFor, text, size,
      Nat.add_lt_add_iff_right]
    cases scanned : scanString (cstring (visible s)) with
    | some word =>
        simp only [Option.some.injEq, forall_eq', exists_eq_left', scanString_length_lt_iff scanned]
    | none =>
        by_cases ends : nul ∈ held
        · simp [ends]
        · simp [ends]

end Pointer

/-- `print_entry` stays inside exactly when the texts of IPv6 ends are short, and there is room
for the first word of the command line. -/
theorem printEntry_inside_iff {ntop6 : (Fin 16 → Byte) → List Char} {isIpv6 : Bool}
    {file : List Char → Option (List Char)} {entry : ConnectionEntry} {s : List Char}
    (produced : Produced ntop6 isIpv6 entry) (known : file (procPath entry.pid) = some s)
    (held : List Char) :
    StaysInside file held entry ↔
      (isIpv6 = true → entry.localAddr.length + entry.localPort.length ≤ 30 ∧
        entry.remoteAddr.length + entry.remotePort.length ≤ 30) ∧
      s ≠ [] ∧ RoomFor held s := by
  rw [← path_pointer_iff known held]
  have ends : (entry.localAddr ++ ':' :: entry.localPort).length < endSize ∧
      (entry.remoteAddr ++ ':' :: entry.remotePort).length < endSize ↔
      (isIpv6 = true → entry.localAddr.length + entry.localPort.length ≤ 30 ∧
        entry.remoteAddr.length + entry.remotePort.length ≤ 30) := by
    obtain ⟨⟨l, pair, localEnd⟩, l', pair', remoteEnd⟩ := produced.ends
    cases isIpv6 with
    | false =>
        refine iff_of_true ?_ fun six => by cases six
        exact ⟨parseAddrPortPair_length localEnd, parseAddrPortPair_length remoteEnd⟩
    | true =>
        rw [forall_prop_of_true rfl, List.length_append, List.length_append, List.length_cons,
          List.length_cons, endSize]
        omega
  rw [← ends]
  constructor
  · intro inside
    exact ⟨⟨inside.localEnd, inside.remoteEnd⟩, inside.path, inside.pointer⟩
  · rintro ⟨⟨localEnd, remoteEnd⟩, path, pointer⟩
    exact ⟨localEnd, remoteEnd, path, pointer⟩

/-- Where the command line has a word, `print_entry` prints a row exactly when it stays
inside. -/
theorem printEntry_isSome_iff {file : List Char → Option (List Char)} {entry : ConnectionEntry}
    {cmdline word : List Char} (read : readCmdline file entry.pid = some cmdline)
    (scanned : scanString (cstring cmdline) = some word) (held : List Char) :
    (printEntry file entry).isSome ↔ StaysInside file held entry := by
  have path : programPath held cmdline = some word := by rw [programPath, scanned]
  have inside : StaysInside file held entry ↔
      (entry.localAddr ++ ':' :: entry.localPort).length < endSize ∧
      (entry.remoteAddr ++ ':' :: entry.remotePort).length < endSize ∧
      word.length < pathSize ∧ word.length + 1 < cmdline.length := by
    constructor
    · intro inside
      obtain ⟨cmdline', read', path', found, pointer⟩ := inside.pointer
      rw [read] at read'
      cases read'
      rw [path] at found
      cases found
      exact ⟨inside.localEnd, inside.remoteEnd, inside.path cmdline read word scanned, pointer⟩
    · rintro ⟨localEnd, remoteEnd, short, pointer⟩
      refine ⟨localEnd, remoteEnd, fun cmdline' read' word' scanned' => ?_,
        cmdline, read, word, path, pointer⟩
      rw [read] at read'
      cases read'
      rw [scanned] at scanned'
      cases scanned'
      exact short
  rw [inside, printEntry]
  simp only [read, scanned, Option.bind_some, stringAt]
  by_cases ends : endSize ≤ (entry.localAddr ++ ':' :: entry.localPort).length ∨
      endSize ≤ (entry.remoteAddr ++ ':' :: entry.remotePort).length
  · rw [if_pos ends]
    refine iff_of_false (fun h => by cases h) fun h => ?_
    exact ends.elim (not_le.mpr h.1) (not_le.mpr h.2.1)
  · rw [if_neg ends]
    obtain ⟨localEnd, remoteEnd⟩ := not_or.mp ends
    rw [and_iff_right (not_le.mp localEnd), and_iff_right (not_le.mp remoteEnd)]
    by_cases short : pathSize ≤ word.length
    · rw [if_pos short]
      exact iff_of_false (fun h => by cases h) fun h => absurd h.1 (not_lt.mpr short)
    · rw [if_neg short, and_iff_right (not_le.mp short), Option.isSome_map]
      split
      · rename_i room
        exact iff_of_true rfl room
      · rename_i beyond
        exact iff_of_false (fun h => by cases h) beyond

theorem fields_kernelLine (width : Nat) (s : Socket) :
    3 ≤ (fields (kernelLine width s)).length := by
  have number : (decimal s.sl ++ [':']).head? ≠ some '\n' := by
    intro feed
    obtain mem | mem := List.mem_append.mp (List.mem_of_mem_head? feed)
    · have solid := (spells_decimal s.sl).solid _ mem
      cases solid
    · have colon := List.mem_singleton.mp mem
      cases colon
  have counted (t : Token isspace) : t.text.head? ≠ some '\n' := by
    intro feed
    have solid := t.solid _ (List.mem_of_mem_head? feed)
    cases solid
  rw [fields, words_kernelLine]
  simp only [Socket.columns, List.map_cons, List.cons_append]
  rw [List.filter_cons_of_pos (by simpa using number),
    List.filter_cons_of_pos (by simpa using counted _),
    List.filter_cons_of_pos (by simpa using counted _)]
  simp only [List.length_cons]
  omega

namespace Demo

/-- The entry of a web server, and what `program_path` holds before it is written. -/
def listeningEntry : ConnectionEntry :=
  { blankEntry with
    localAddr := "0.0.0.0".toList
    localPort := "80".toList
    remoteAddr := "0.0.0.0".toList
    remotePort := "0".toList
    inode := 21453 }

def heldPath : List Char := List.replicate 32 'x'

theorem listening_produced : Produced (fun _ => []) false listeningEntry := by
  refine ⟨kernelLine 4 listening, stackLocals, blankEntry, fields_kernelLine 4 listening, ?_⟩
  exact parseLine_kernelLine _ _ 4 listening blankEntry

/-- A short path and one argument. -/
def shortCmdline : List Char := "/usr/bin/server\x00-d\x00".toList

def shortFile (_ : List Char) : Option (List Char) := some shortCmdline

theorem short_inside : StaysInside shortFile heldPath listeningEntry := by
  have scanned : scanString (cstring (visible shortCmdline)) = some "/usr/bin/server".toList := by
    decide
  have room : RoomFor heldPath shortCmdline := by
    rw [RoomFor, scanned]
    exact ⟨by decide, by decide⟩
  have ipv4 {p : Prop} : false = true → p := fun six => by cases six
  have known : shortFile (procPath listeningEntry.pid) = some shortCmdline := rfl
  exact (printEntry_inside_iff listening_produced known heldPath).mpr ⟨ipv4, by decide, room⟩

/-- The path of a Java machine has 37 characters. -/
theorem java_outside : Produced (fun _ => []) false listeningEntry ∧
    ¬ StaysInside (fun _ => some "/usr/lib/jvm/java-17-openjdk/bin/java\x00".toList) heldPath
      listeningEntry := by
  refine ⟨listening_produced, fun inside => ?_⟩
  have long := inside.path _ rfl "/usr/lib/jvm/java-17-openjdk/bin/java".toList (by decide)
  exact absurd long (by decide)

end Demo

end Connections
