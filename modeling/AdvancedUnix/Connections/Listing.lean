import AdvancedUnix.Connections.Basic
import AdvancedUnix.Listing.Basic
import AdvancedUnix.Text.Arguments

/-!
# What is listed of the connections

`main` looks for the filter in the command line of each entry of a selected protocol and
prints the entries where it is found, the TCP ones first. A command line is a sequence of
arguments that end at terminators, and it is read as one line and searched and printed as
one string.

So the filter is found in the first argument only, and a row shows the first word of that
and one more argument. `Listable` says exactly of which connections that is what should
be shown.
-/

namespace Connections

open Memory Text

/-- What `getopt_long` returns for an option: its character, or zero and its index. -/
inductive Opt where
  | short (c : Char)
  | long (index : Nat)

/-- The loop over the options: which of the two protocols are asked for. An option that is
not known ends the program. -/
def readOptions : List Opt → Bool → Bool → Option (Bool × Bool)
  | [], tcp, udp => some (tcp, udp)
  | .long index :: opts, tcp, udp => readOptions opts (tcp || index = 0) (udp || index = 1)
  | .short c :: opts, tcp, udp =>
      if c = 't' then readOptions opts true udp
      else if c = 'u' then readOptions opts tcp true
      else none

/-- A row of a list, as its conversions print it. -/
structure Row where
  ipProto : List Char
  localEnd : List Char
  remoteEnd : List Char
  pid : BitVec 32
  program : List Char
  arguments : List Char
  deriving DecidableEq

inductive Line where
  | title (proto : String)
  | columns
  | row (row : Row)
  | blank

def Line.row? : Line → Option Row
  | .row r => some r
  | _ => none

def procPath (pid : BitVec 32) : List Char :=
  "/proc/".toList ++ (printD pid ++ "/cmdline".toList)

/-- The sizes of `filter`, of `local_end` and `remote_end`, and of `program_path`. -/
def filterSize : Nat := 64
def endSize : Nat := 32
def pathSize : Nat := 32

/-- `basename`: what stands behind the last slash. -/
def baseName (path : List Char) : List Char := (path.reverse.takeWhile (· ≠ '/')).reverse

section Program

variable (file : List Char → Option (List Char))

/-- The buffer with the command line of a process. A file that is not there is read through a
null pointer, and an empty one leaves the buffer as it was allocated. -/
def readCmdline (pid : BitVec 32) : Option (List Char) :=
  (file (procPath pid)).bind fun s => if s = [] then none else some (lineBuffer s)

/-- The loop that collects the entries of a protocol, which is known by its first three
characters. -/
def collect (proto filter : List Char) : List ConnectionEntry → Option (List ConnectionEntry)
  | [] => some []
  | entry :: entries =>
      if entry.ipProto.take 3 = proto then
        (readCmdline file entry.pid).bind fun cmdline =>
          if filter <:+: cstring cmdline then (collect proto filter entries).map (entry :: ·)
          else collect proto filter entries
      else collect proto filter entries

/-- `print_entry`. -/
def printEntry (entry : ConnectionEntry) : Option Row :=
  let localEnd := entry.localAddr ++ ':' :: entry.localPort
  let remoteEnd := entry.remoteAddr ++ ':' :: entry.remotePort
  if endSize ≤ localEnd.length ∨ endSize ≤ remoteEnd.length then none
  else
    (readCmdline file entry.pid).bind fun cmdline =>
      (scanString (cstring cmdline)).bind fun programPath =>
        if pathSize ≤ programPath.length then none
        else
          (stringAt cmdline (programPath.length + 1)).map fun arguments =>
            ⟨entry.ipProto, localEnd, remoteEnd, entry.pid, baseName programPath, arguments⟩

/-- The lines of a list, if it has rows. -/
def printList (proto : String) (rows : List Row) : List Line :=
  if rows = [] then [] else .title proto :: .columns :: rows.map .row

/-- `main` from the options on, without the scan, which leaves these entries. -/
def listing (opts : List Opt) (arg : Option (List Char)) (entries : List ConnectionEntry) :
    Option (List Line) :=
  match readOptions opts false false with
  | none => some []
  | some (tcp, udp) =>
      let filter := arg.getD []
      if filterSize ≤ filter.length then none
      else
        (if ¬ (¬ tcp ∧ udp) then collect file "tcp".toList filter entries else some []).bind
          fun tcpEntries =>
            (if ¬ (tcp ∧ ¬ udp) then collect file "udp".toList filter entries else some []).bind
              fun udpEntries =>
                (tcpEntries.mapM (printEntry file)).bind fun tcpRows =>
                  (udpEntries.mapM (printEntry file)).map fun udpRows =>
                    printList "TCP" tcpRows ++
                      ((if tcpRows ≠ [] ∧ udpRows ≠ [] then [.blank] else []) ++
                        printList "UDP" udpRows)

end Program

/-- TCP or UDP. -/
inductive Family where
  | tcp | udp
  deriving DecidableEq

def Protocol.family : Protocol → Family
  | .tcp => .tcp
  | .tcp6 => .tcp
  | .udp => .udp
  | .udp6 => .udp

/-- An option for a protocol, in one of its two forms. -/
structure Switch where
  family : Family
  isLong : Bool

def Switch.opt : Switch → Opt
  | ⟨.tcp, false⟩ => .short 't'
  | ⟨.udp, false⟩ => .short 'u'
  | ⟨.tcp, true⟩ => .long 0
  | ⟨.udp, true⟩ => .long 1

/-- A protocol is selected if it is asked for, or the other one is not. -/
def Family.Selected (switches : List Switch) (f : Family) : Prop :=
  (∃ s ∈ switches, s.family = f) ∨ ∀ s ∈ switches, s.family = f

instance (switches : List Switch) (f : Family) : Decidable (f.Selected switches) :=
  inferInstanceAs (Decidable ((∃ s ∈ switches, s.family = f) ∨ ∀ s ∈ switches, s.family = f))

/-- An argument of a process. -/
structure Arg where
  text : List Char
  noNul : nul ∉ text

/-- A connection with the command line of its owner. -/
structure Connection where
  proto : Protocol
  localAddr : List Char
  localPort : List Char
  remoteAddr : List Char
  remotePort : List Char
  pid : BitVec 32
  inode : BitVec 32
  owner : List Arg

namespace Connection

def entry (c : Connection) : ConnectionEntry :=
  ⟨c.proto.name.toList, c.localAddr, c.localPort, c.remoteAddr, c.remotePort, c.pid, c.inode⟩

/-- The contents of the file with the command line. -/
def cmdline (c : Connection) : List Char := terminated (c.owner.map Arg.text)

/-- The filter is in the name of the program or in one of its arguments. -/
def Matches (filter : List Char) (c : Connection) : Prop := ∃ a ∈ c.owner, filter <:+: a.text

instance (filter : List Char) (c : Connection) : Decidable (c.Matches filter) :=
  inferInstanceAs (Decidable (∃ a ∈ c.owner, filter <:+: a.text))

/-- The row that a connection should have. -/
def row (c : Connection) : Row where
  ipProto := c.proto.name.toList
  localEnd := c.localAddr ++ ':' :: c.localPort
  remoteEnd := c.remoteAddr ++ ':' :: c.remotePort
  pid := c.pid
  program := baseName ((c.owner.head?.map Arg.text).getD [])
  arguments := joined ((c.owner.drop 1).map Arg.text)

end Connection

/-- The connections of a selected protocol. -/
def selected (switches : List Switch) (conns : List Connection) (f : Family) : List Connection :=
  if f.Selected switches then conns.filter fun c => c.proto.family = f else []

/-- The rows that should be listed: the selected connections where the filter matches. -/
def rows (switches : List Switch) (filter : List Char) (conns : List Connection) : List Row :=
  ((selected switches conns .tcp ++ selected switches conns .udp).filter
    fun c => c.Matches filter).map Connection.row

/-- The program lists these rows and no others. -/
def Lists (file : List Char → Option (List Char)) (switches : List Switch)
    (arg : Option (List Char)) (conns : List Connection) : Prop :=
  ∃ lines, listing file (switches.map Switch.opt) arg (conns.map Connection.entry) = some lines ∧
    lines.filterMap Line.row? = rows switches (arg.getD []) conns

/-- A row shows these arguments: the first one is a word, and at most one follows it, which
is one line; or it happens that its first word has its base name and that what is seen of it
behind this word reads like the others. -/
def Shown (first : List Char) (rest : List (List Char)) : Prop :=
  ∃ word, scanString (visible first) = some word ∧ word.length < pathSize ∧
    baseName word = baseName first ∧
    if word = first then rest.length ≤ 1 ∧ ∀ a ∈ rest, visible a = a
    else (visible first).drop (word.length + 1) = joined rest

/-- A connection is listed, or left out, as it should be. -/
structure Listable (filter : List Char) (c : Connection) : Prop where
  nonempty : c.owner ≠ []
  found : ∀ first rest, c.owner = first :: rest → c.Matches filter →
    filter <:+: visible first.text
  shown : ∀ first rest, c.owner = first :: rest → filter <:+: visible first.text →
    c.row.localEnd.length < endSize ∧ c.row.remoteEnd.length < endSize ∧
      Shown first.text (rest.map Arg.text)

section Options

variable {switches : List Switch}

/-- An option asks for a protocol. -/
def asks (switches : List Switch) (f : Family) : Bool := switches.any fun s => s.family = f

theorem readOptions_switches (switches : List Switch) (tcp udp : Bool) :
    readOptions (switches.map Switch.opt) tcp udp =
      some (tcp || asks switches .tcp, udp || asks switches .udp) := by
  unfold asks
  induction switches generalizing tcp udp with
  | nil => rw [List.map_nil, readOptions, List.any_nil, List.any_nil, Bool.or_false, Bool.or_false]
  | cons s switches ih =>
      obtain ⟨family, long⟩ := s
      cases family <;> cases long <;> simp [Switch.opt, readOptions, ih]

theorem selected_iff {f g : Family} (other : ∀ h : Family, h = f ↔ ¬ h = g) :
    f.Selected switches ↔ asks switches f ∨ ¬ asks switches g := by
  unfold Family.Selected asks
  simp only [List.any_eq_true, decide_eq_true_eq, not_exists, not_and]
  exact or_congr_right (forall₂_congr fun s _ => other s.family)

theorem selected_tcp_iff : Family.tcp.Selected switches ↔
    ¬ (¬ asks switches .tcp ∧ asks switches .udp) := by
  rw [selected_iff (g := .udp) (fun h => by cases h <;> decide), not_and_or, not_not]

theorem selected_udp_iff : Family.udp.Selected switches ↔
    ¬ (asks switches .tcp ∧ ¬ asks switches .udp) := by
  rw [selected_iff (g := .tcp) (fun h => by cases h <;> decide), not_and_or, not_not, or_comm]

theorem mem_selected_iff {conns : List Connection} {c : Connection} :
    c ∈ selected switches conns .tcp ++ selected switches conns .udp ↔
      c ∈ conns ∧ c.proto.family.Selected switches := by
  have one : ∀ f, c ∈ selected switches conns f ↔
      (c ∈ conns ∧ c.proto.family.Selected switches) ∧ c.proto.family = f := by
    intro f
    unfold selected
    by_cases sel : f.Selected switches
    · rw [if_pos sel, List.mem_filter, decide_eq_true_eq]
      constructor
      · rintro ⟨mem, rfl⟩
        exact ⟨⟨mem, sel⟩, rfl⟩
      · rintro ⟨⟨mem, -⟩, same⟩
        exact ⟨mem, same⟩
    · rw [if_neg sel]
      refine iff_of_false List.not_mem_nil ?_
      rintro ⟨⟨-, sel'⟩, rfl⟩
      exact sel sel'
  rw [List.mem_append, one, one, ← and_or_left]
  refine and_iff_left ?_
  cases c.proto.family
  · exact .inl rfl
  · exact .inr rfl

end Options

/-- The three characters by which the entries of a protocol are known. -/
def Family.text : Family → List Char
  | .tcp => "tcp".toList
  | .udp => "udp".toList

theorem family_text_iff (c : Connection) (f : Family) :
    c.entry.ipProto.take 3 = f.text ↔ c.proto.family = f := by
  have all : ∀ p : Protocol, p.name.toList.take 3 = f.text ↔ p.family = f := by
    intro p
    cases p <;> cases f <;> decide
  exact all c.proto

/-- The filter is found in what is seen of the command line. -/
def Connection.Seen (filter : List Char) (c : Connection) : Prop :=
  ∃ first ∈ c.owner.head?, filter <:+: visible first.text

instance (filter : List Char) (c : Connection) : Decidable (c.Seen filter) :=
  inferInstanceAs (Decidable (∃ first ∈ c.owner.head?, filter <:+: visible first.text))

theorem Connection.Seen.matches {filter : List Char} {c : Connection} (h : c.Seen filter) :
    c.Matches filter := by
  obtain ⟨first, head, found⟩ := h
  exact ⟨first, List.mem_of_mem_head? head, found.trans (visible_front first.text).isInfix⟩

section Collecting

variable {file : List Char → Option (List Char)} {c : Connection} {conns : List Connection}
  {filter : List Char}

theorem readCmdline_of_none (known : file (procPath c.pid) = some c.cmdline) (h : c.owner = []) :
    readCmdline file c.entry.pid = none := by
  have pid : c.entry.pid = c.pid := rfl
  rw [readCmdline, pid, known, Connection.cmdline, h]
  rfl

theorem readCmdline_of_some (known : file (procPath c.pid) = some c.cmdline) {first : Arg}
    {rest : List Arg} (h : c.owner = first :: rest) :
    readCmdline file c.entry.pid =
      some (lineBuffer (terminated (first.text :: rest.map Arg.text))) := by
  have pid : c.entry.pid = c.pid := rfl
  have text : c.cmdline = terminated (first.text :: rest.map Arg.text) := by
    rw [Connection.cmdline, h, List.map_cons]
  have nonempty : c.cmdline ≠ [] := by
    rw [text, terminated]
    exact List.append_ne_nil_of_right_ne_nil _ (List.cons_ne_nil _ _)
  rw [readCmdline, pid, known, Option.bind_some, if_neg nonempty, text]

theorem cstring_lineBuffer (first : Arg) (rest : List (List Char)) :
    cstring (lineBuffer (terminated (first.text :: rest))) = visible first.text := by
  obtain ⟨more, buffer, -⟩ := lineBuffer_cons first.text rest
  rw [buffer, cstring_append (noNul_visible first.noNul)]

theorem collect_of_nonempty (f : Family)
    (known : ∀ c ∈ conns, file (procPath c.pid) = some c.cmdline)
    (nonempty : ∀ c ∈ conns, c.proto.family = f → c.owner ≠ []) :
    collect file f.text filter (conns.map Connection.entry) =
      some (((conns.filter fun c => c.proto.family = f).filter fun c => c.Seen filter).map
        Connection.entry) := by
  induction conns with
  | nil => rfl
  | cons c conns ih =>
      rw [List.forall_mem_cons] at known nonempty
      have rest := ih known.2 nonempty.2
      rw [List.map_cons, collect, rest]
      by_cases same : c.proto.family = f
      · obtain ⟨first, args, owner⟩ := List.exists_cons_of_ne_nil (nonempty.1 same)
        have seen : c.Seen filter ↔ filter <:+: visible first.text := by
          simp [Connection.Seen, owner]
        rw [if_pos ((family_text_iff c f).mpr same), readCmdline_of_some known.1 owner,
          Option.bind_some, cstring_lineBuffer, List.filter_cons_of_pos (by simpa using same)]
        by_cases found : filter <:+: visible first.text
        · rw [if_pos found, List.filter_cons_of_pos (by simpa using seen.mpr found)]
          rfl
        · rw [if_neg found, List.filter_cons_of_neg (by simpa using seen.not.mpr found)]
      · rw [if_neg fun text => same ((family_text_iff c f).mp text),
          List.filter_cons_of_neg (by simpa using same)]

theorem collect_of_empty (f : Family)
    (known : ∀ c ∈ conns, file (procPath c.pid) = some c.cmdline)
    (empty : ∃ c ∈ conns, c.proto.family = f ∧ c.owner = []) :
    collect file f.text filter (conns.map Connection.entry) = none := by
  induction conns with
  | nil =>
      obtain ⟨c, mem, -⟩ := empty
      cases mem
  | cons c conns ih =>
      rw [List.forall_mem_cons] at known
      rw [List.exists_mem_cons_iff] at empty
      rw [List.map_cons, collect]
      by_cases same : c.proto.family = f
      · rw [if_pos ((family_text_iff c f).mpr same)]
        cases owner : c.owner with
        | nil => rw [readCmdline_of_none known.1 owner, Option.bind_none]
        | cons first args =>
            have later := ih known.2 (empty.resolve_left fun h => by simp [owner] at h)
            rw [readCmdline_of_some known.1 owner, Option.bind_some, later, Option.map_none,
              ite_self]
      · rw [if_neg fun text => same ((family_text_iff c f).mp text)]
        exact ih known.2 (empty.resolve_left fun h => same h.1)

/-- What a row shows behind the first argument. -/
theorem arguments_iff {first : Arg} {rest : List Arg} {word : List Char}
    (scanned : scanString (visible first.text) = some word) :
    stringAt (lineBuffer (terminated (first.text :: rest.map Arg.text))) (word.length + 1) =
        some (joined (rest.map Arg.text)) ↔
      if word = first.text then
        (rest.map Arg.text).length ≤ 1 ∧ ∀ a ∈ rest.map Arg.text, visible a = a
      else (visible first.text).drop (word.length + 1) = joined (rest.map Arg.text) := by
  have clean : ∀ b ∈ rest.map Arg.text, nul ∉ b := by
    intro b mem
    obtain ⟨a, -, rfl⟩ := List.mem_map.mp mem
    exact a.noNul
  rcases scanString_visible scanned with ⟨rfl, noFeed⟩ | ⟨room, other⟩
  · rw [if_pos rfl, stringAt_behind noFeed clean, Option.some.injEq]
    generalize rest.map Arg.text = others
    cases others with
    | nil => exact iff_of_true rfl ⟨Nat.zero_le 1, fun a mem => absurd mem List.not_mem_nil⟩
    | cons b others =>
        cases others with
        | nil =>
            rw [List.forall_mem_cons]
            exact ⟨fun same => ⟨le_rfl, same, fun a mem => absurd mem List.not_mem_nil⟩,
              fun h => h.2.1⟩
        | cons d others =>
            refine iff_of_false (fun same => ?_) fun h => ?_
            · have le := (visible_front b).length_le
              have lengths := congrArg List.length same
              rw [joined, List.length_append, List.length_cons] at lengths
              have shown : (((b :: d :: others).head?.map visible).getD []).length =
                  (visible b).length := rfl
              omega
            · have two := h.1
              rw [List.length_cons, List.length_cons] at two
              omega
  · rw [if_neg other, stringAt_within first.noNul room, Option.some.injEq]

/-- The row of a connection is the one that it should have. -/
theorem printEntry_iff (known : file (procPath c.pid) = some c.cmdline) {first : Arg}
    {rest : List Arg} (owner : c.owner = first :: rest) :
    printEntry file c.entry = some c.row ↔
      c.row.localEnd.length < endSize ∧ c.row.remoteEnd.length < endSize ∧
        Shown first.text (rest.map Arg.text) := by
  have localEnd : c.entry.localAddr ++ ':' :: c.entry.localPort = c.row.localEnd := rfl
  have remoteEnd : c.entry.remoteAddr ++ ':' :: c.entry.remotePort = c.row.remoteEnd := rfl
  have program : c.row.program = baseName first.text := by simp [Connection.row, owner]
  have arguments : c.row.arguments = joined (rest.map Arg.text) := by simp [Connection.row, owner]
  unfold printEntry
  simp only [localEnd, remoteEnd, ← not_lt]
  by_cases ends : c.row.localEnd.length < endSize ∧ c.row.remoteEnd.length < endSize
  · rw [if_neg (by tauto), readCmdline_of_some known owner, Option.bind_some, cstring_lineBuffer,
      ← and_assoc, and_iff_right ends, Shown]
    cases scanned : scanString (visible first.text) with
    | none =>
        refine iff_of_false (fun h => by cases h) ?_
        rintro ⟨word, none, -⟩
        cases none
    | some word =>
        rw [Option.bind_some]
        simp only [Option.some.injEq, exists_eq_left', ← arguments_iff scanned]
        by_cases short : word.length < pathSize
        · rw [if_neg (not_not.mpr short), and_iff_right short]
          constructor
          · intro h
            obtain ⟨shown, found, same⟩ := Option.map_eq_some_iff.mp h
            rw [← same] at program arguments
            exact ⟨program, found.trans (congrArg some arguments)⟩
          · rintro ⟨base, found⟩
            rw [found, Option.map_some, base, ← program, ← arguments]
            rfl
        · rw [if_pos short]
          exact iff_of_false (fun h => by cases h) fun h => short h.1
  · rw [if_pos (by tauto)]
    exact iff_of_false (fun h => by cases h) fun h => ends ⟨h.1, h.2.1⟩

end Collecting

theorem rows_printList (proto : String) (rs : List Row) :
    (printList proto rs).filterMap Line.row? = rs := by
  have all : ∀ rs : List Row, (rs.map Line.row).filterMap Line.row? = rs := by
    intro rs
    rw [List.filterMap_map]
    exact List.filterMap_some
  unfold printList
  split
  · rename_i empty
    rw [empty, List.filterMap_nil]
  · exact all rs

section Lists

variable {file : List Char → Option (List Char)} {conns : List Connection}

/-- The two loops that collect, on the connections with an argument. -/
theorem collect_selected (switches : List Switch) (filter : List Char) (f : Family)
    (known : ∀ c ∈ conns, file (procPath c.pid) = some c.cmdline) :
    (if f.Selected switches then collect file f.text filter (conns.map Connection.entry)
      else some []) =
      if ∀ c ∈ selected switches conns f, c.owner ≠ [] then
        some (((selected switches conns f).filter fun c => c.Seen filter).map Connection.entry)
      else none := by
  unfold selected
  by_cases sel : f.Selected switches
  · rw [if_pos sel, if_pos sel]
    by_cases nonempty : ∀ c ∈ conns, c.proto.family = f → c.owner ≠ []
    · rw [collect_of_nonempty f known nonempty, if_pos]
      intro c mem
      obtain ⟨mem, same⟩ := List.mem_filter.mp mem
      exact nonempty c mem (of_decide_eq_true same)
    · have empty : ∃ c ∈ conns, c.proto.family = f ∧ c.owner = [] := by
        by_contra none
        exact nonempty fun c mem same owner => none ⟨c, mem, same, owner⟩
      rw [collect_of_empty f known empty, if_neg]
      intro all
      obtain ⟨c, mem, same, owner⟩ := empty
      exact all c (List.mem_filter.mpr ⟨mem, decide_eq_true same⟩) owner
  · rw [if_neg sel, if_neg sel, if_pos fun c mem => absurd mem List.not_mem_nil]
    rfl

/-- The two loops that print, on what was collected. -/
def printed (file : List Char → Option (List Char)) (tcp udp : List ConnectionEntry) :
    Option (List Line) :=
  (tcp.mapM (printEntry file)).bind fun tcpRows =>
    (udp.mapM (printEntry file)).map fun udpRows =>
      printList "TCP" tcpRows ++
        ((if tcpRows ≠ [] ∧ udpRows ≠ [] then [.blank] else []) ++ printList "UDP" udpRows)

theorem listing_eq (file : List Char → Option (List Char)) (switches : List Switch)
    (arg : Option (List Char)) (entries : List ConnectionEntry) :
    listing file (switches.map Switch.opt) arg entries =
      if filterSize ≤ (arg.getD []).length then none
      else
        (if Family.tcp.Selected switches then collect file Family.tcp.text (arg.getD []) entries
          else some []).bind fun tcp =>
          (if Family.udp.Selected switches then collect file Family.udp.text (arg.getD []) entries
            else some []).bind fun udp => printed file tcp udp := by
  unfold listing
  rw [readOptions_switches]
  simp only [Bool.false_or, selected_tcp_iff, selected_udp_iff]
  rfl

/-- The rows of the lines that are printed are those of the entries, one after the other. -/
theorem rows_printed_iff (tcp udp : List ConnectionEntry) (rs : List Row) :
    (∃ lines, printed file tcp udp = some lines ∧ lines.filterMap Line.row? = rs) ↔
      (tcp ++ udp).mapM (printEntry file) = some rs := by
  rw [List.mapM_append, printed]
  cases tcp.mapM (printEntry file) with
  | none => exact iff_of_false (by rintro ⟨lines, h, -⟩; cases h) fun h => by cases h
  | some tcpRows =>
      cases udp.mapM (printEntry file) with
      | none => exact iff_of_false (by rintro ⟨lines, h, -⟩; cases h) fun h => by cases h
      | some udpRows =>
          have between : (if tcpRows ≠ [] ∧ udpRows ≠ [] then [Line.blank] else []).filterMap
              Line.row? = [] := by
            split <;> rfl
          have all : (printList "TCP" tcpRows ++
              ((if tcpRows ≠ [] ∧ udpRows ≠ [] then [Line.blank] else []) ++
                printList "UDP" udpRows)).filterMap Line.row? = tcpRows ++ udpRows := by
            rw [List.filterMap_append, List.filterMap_append, rows_printList, rows_printList,
              between, List.nil_append]
          constructor
          · rintro ⟨lines, h, rfl⟩
            cases h
            exact congrArg some all.symm
          · intro h
            cases h
            exact ⟨_, rfl, all⟩

theorem listable_iff {filter : List Char} {c : Connection}
    (known : file (procPath c.pid) = some c.cmdline) (nonempty : c.owner ≠ []) :
    Listable filter c ↔ (c.Matches filter → c.Seen filter) ∧
      (c.Seen filter → printEntry file c.entry = some c.row) := by
  obtain ⟨first, rest, owner⟩ := List.exists_cons_of_ne_nil nonempty
  have seen : c.Seen filter ↔ filter <:+: visible first.text := by simp [Connection.Seen, owner]
  rw [seen, printEntry_iff known owner]
  constructor
  · intro h
    exact ⟨h.found first rest owner, h.shown first rest owner⟩
  · rintro ⟨found, shown⟩
    refine ⟨nonempty, fun first' rest' owner' => ?_, fun first' rest' owner' => ?_⟩ <;>
      obtain ⟨rfl, rfl⟩ := List.cons.inj (owner.symm.trans owner')
    · exact found
    · exact shown

/-- The connections are listed as they should be exactly when the filter fits into its buffer
and each selected one is `Listable`. -/
theorem lists_iff (switches : List Switch) (arg : Option (List Char))
    (known : ∀ c ∈ conns, file (procPath c.pid) = some c.cmdline) :
    Lists file switches arg conns ↔ (arg.getD []).length < filterSize ∧
      ∀ c ∈ conns, c.proto.family.Selected switches → Listable (arg.getD []) c := by
  have each : (∀ c ∈ conns, c.proto.family.Selected switches → Listable (arg.getD []) c) ↔
      ∀ c ∈ selected switches conns .tcp ++ selected switches conns .udp,
        Listable (arg.getD []) c := by
    simp only [mem_selected_iff, and_imp]
  rw [Lists, listing_eq, each]
  by_cases long : filterSize ≤ (arg.getD []).length
  · rw [if_pos long]
    exact iff_of_false (by rintro ⟨lines, h, -⟩; cases h) fun h => absurd h.1 (not_lt.mpr long)
  rw [if_neg long, and_iff_right (not_le.mp long), collect_selected switches _ .tcp known,
    collect_selected switches _ .udp known]
  by_cases nonempty : ∀ c ∈ selected switches conns .tcp ++ selected switches conns .udp,
      c.owner ≠ []
  · obtain ⟨tcp, udp⟩ := List.forall_mem_append.mp nonempty
    rw [if_pos tcp, if_pos udp, Option.bind_some, Option.bind_some, rows_printed_iff,
      ← List.map_append, ← List.filter_append, List.mapM_map, rows]
    have accepts : ∀ c : Connection, decide (c.Seen (arg.getD [])) = true →
        decide (c.Matches (arg.getD [])) = true :=
      fun c h => decide_eq_true (of_decide_eq_true h).matches
    rw [Listing.mapM_filter_iff accepts]
    refine forall₂_congr fun c mem => ?_
    rw [listable_iff (known c (mem_selected_iff.mp mem).1) (nonempty c mem)]
    simp only [decide_eq_true_eq]
    rfl
  · refine iff_of_false ?_ fun h => nonempty fun c mem => (h c mem).nonempty
    rintro ⟨lines, h, -⟩
    rw [List.forall_mem_append, not_and_or] at nonempty
    rcases nonempty with tcp | udp
    · rw [if_neg tcp] at h
      cases h
    · rw [if_neg udp] at h
      split at h <;> cases h

end Lists

namespace Demo

def args (texts : List String) (clean : ∀ t ∈ texts, nul ∉ t.toList) : List Arg :=
  texts.attach.map fun t => ⟨t.1.toList, clean t.1 t.2⟩

/-- A TCP connection of a program. -/
def connection (owner : List Arg) : Connection :=
  ⟨.tcp, "127.0.0.1".toList, "80".toList, "0.0.0.0".toList, "*".toList, 7, 1, owner⟩

/-- A program with one argument. -/
def server : Connection := connection (args ["/usr/bin/server", "-d"] (by decide))

theorem server_listed : Lists (fun _ => some server.cmdline) [] (some "bin".toList) [server] := by
  refine (lists_iff [] (some "bin".toList) fun c mem => ?_).mpr ⟨by decide, fun c mem _ => ?_⟩
  · rw [List.mem_singleton.mp mem]
  · obtain rfl := List.mem_singleton.mp mem
    refine ⟨by decide, fun first rest owner _ => ?_, fun first rest owner _ => ?_⟩
    · cases owner
      decide
    · cases owner
      exact ⟨by decide, by decide, "/usr/bin/server".toList, by decide, by decide, by decide,
        by decide⟩

/-- A program with two arguments. -/
def listener : Connection := connection (args ["/bin/nc", "-l", "8080"] (by decide))

/-- The filter is one of the arguments, and nothing is listed. -/
theorem listener_notListed :
    ¬ Lists (fun _ => some listener.cmdline) [] (some "8080".toList) [listener] := by
  rintro ⟨lines, listed, rows⟩
  have none : listing (fun _ => some listener.cmdline) ([].map Switch.opt) (some "8080".toList)
      ([listener].map Connection.entry) = some [] := rfl
  rw [none] at listed
  cases listed
  cases rows

end Demo

end Connections
