import AdvancedUnix.Connections.Decoding
import AdvancedUnix.Keyed.FirstMatch

/-!
# Which process has a socket

`main` goes through the directories of `/proc` that are named by a digit, reads the link
of each of their descriptors into a new buffer, and gives the number of the directory to
the first entry with the inode that the buffer names. A link that cannot be read leaves in
the buffer what was there, and a directory that cannot be opened is read through a null
pointer.

So the scan is a list of writes, and an entry has the last process that names its inode if
no earlier entry has the same one. Nothing is ever stored that says that there is none.
-/

namespace Connections

open Memory Text Keyed

/-- An entry of a directory of descriptors, with the outcome of `readlink` and what the
buffer for it and the variable for the inode hold before. -/
structure FdEntry where
  name : List Char
  link : Option (List Char)
  buffer : List Char
  inode : BitVec 32

/-- An entry of `/proc`, with the outcome of `opendir` on its descriptors. -/
structure ProcEntry where
  name : List Char
  fd : Option (List FdEntry)

/-- `sscanf(buffer, "socket:[%d]", ..)`. -/
def scanSocket (buffer : List Char) : Option (BitVec 32) :=
  if buffer.take 8 = "socket:[".toList then
    (scanNumber 10 (buffer.drop 8)).map fun p => signed32 p.1
  else none

/-- The inode that the buffer names once the link was read, if it starts like a socket. -/
def inodeOf (buffer : List Char) (inode : BitVec 32) : Option (BitVec 32) :=
  if buffer.take 6 = "socket".toList then some ((scanSocket buffer).getD inode) else none

/-- The buffer after `readlink`, which stores no terminator. -/
def FdEntry.read (fd : FdEntry) : List Char :=
  match fd.link with
  | some text => text ++ fd.buffer.drop text.length
  | none => fd.buffer

/-- The loop over the connections, up to the first one with the inode. -/
def assign (name : List Char) (inode : BitVec 32) :
    List ConnectionEntry → List ConnectionEntry
  | [] => []
  | entry :: entries =>
    if entry.inode = inode then
      { entry with pid := ((scanNumber 10 name).map fun p => signed32 p.1).getD entry.pid } ::
        entries
    else entry :: assign name inode entries

/-- The loop over the descriptors of a process. -/
def scanFds (name : List Char) : List FdEntry → List ConnectionEntry → List ConnectionEntry
  | [], entries => entries
  | fd :: fds, entries =>
    if fd.name.head? = some '.' then scanFds name fds entries
    else
      match inodeOf fd.read fd.inode with
      | some inode => scanFds name fds (assign name inode entries)
      | none => scanFds name fds entries

/-- The loop over `/proc`. -/
def scanProc : List ProcEntry → List ConnectionEntry → Option (List ConnectionEntry)
  | [], entries => some entries
  | p :: ps, entries =>
    if (p.name.head?.map Char.isDigit).getD false then
      p.fd.bind fun fds => scanProc ps (scanFds p.name fds entries)
    else scanProc ps entries

/-- The scan of `main`, with the outcome of `opendir` on `/proc`. -/
def scan (proc : Option (List ProcEntry)) (entries : List ConnectionEntry) :
    Option (List ConnectionEntry) :=
  proc.bind fun ps => scanProc ps entries

/-- The identifier of a process. -/
structure Pid where
  val : BitVec 32
  pos : 0 < val.toInt

/-- What the link of a descriptor is: a socket, another object, or not to be read. -/
inductive Link where
  | socket (inode : BitVec 32)
  | other (text : List Char) (noSocket : ¬ text.take 6 <+: "socket".toList)
  | unreadable

def Link.text : Link → Option (List Char)
  | .socket inode => some ("socket:[".toList ++ (decimal inode.toNat ++ [']']))
  | .other text _ => some text
  | .unreadable => none

/-- A descriptor of a process, or one of the two entries for directories. -/
inductive FdFile where
  | fd (number : Nat) (link : Link) (buffer : List Char) (inode : BitVec 32)
  | dots (rest : List Char) (buffer : List Char) (inode : BitVec 32)

def FdFile.entry : FdFile → FdEntry
  | .fd number link buffer inode => ⟨decimal number, link.text, buffer, inode⟩
  | .dots rest buffer inode => ⟨'.' :: rest, none, buffer, inode⟩

/-- A process with its descriptors, unless they may not be looked at, or another entry. -/
inductive ProcFile where
  | process (pid : Pid) (fds : Option (List FdFile))
  | other (name : List Char) (noDigit : ∀ c, name.head? = some c → c.isDigit = false)

def ProcFile.entry : ProcFile → ProcEntry
  | .process pid fds => ⟨decimal pid.val.toNat, fds.map (List.map FdFile.entry)⟩
  | .other name _ => ⟨name, none⟩

/-- The inode that a descriptor names: that of its socket, or the one that an old buffer
still names if the link cannot be read. -/
def FdFile.named : FdFile → Option (BitVec 32)
  | .fd _ (.socket inode) _ _ => some inode
  | .fd _ (.other _ _) _ _ => none
  | .fd _ .unreadable buffer inode => inodeOf buffer inode
  | .dots _ _ _ => none

/-- A process that can be looked at names an inode. -/
def ProcFile.Names (inode : BitVec 32) : ProcFile → Prop
  | .process _ fds => ∃ files, fds = some files ∧ ∃ f ∈ files, f.named = some inode
  | .other _ _ => False

/-- A process that can be looked at has a socket. -/
def ProcFile.Holds (inode : BitVec 32) : ProcFile → Prop
  | .process _ fds => ∃ files, fds = some files ∧
    ∃ number buffer held, FdFile.fd number (.socket inode) buffer held ∈ files
  | .other _ _ => False

def ProcFile.Opened : ProcFile → Prop
  | .process _ fds => fds.isSome
  | .other _ _ => True

/-- The writes of a process. -/
def ProcFile.writes : ProcFile → List (BitVec 32 × Pid)
  | .process pid fds => ((fds.getD []).filterMap FdFile.named).map fun inode => (inode, pid)
  | .other _ _ => []

/-- A process is the last one that names an inode. -/
inductive LastNames (inode : BitVec 32) (pid : Pid) : List ProcFile → Prop
  | here {fds : Option (List FdFile)} {procs : List ProcFile}
      (names : (ProcFile.process pid fds).Names inode) (last : ∀ q ∈ procs, ¬ q.Names inode) :
      LastNames inode pid (.process pid fds :: procs)
  | later {p : ProcFile} {procs : List ProcFile} (rest : LastNames inode pid procs) :
      LastNames inode pid (p :: procs)

/-- A process that can be looked at and has this identifier has a socket. -/
def Holder (procs : List ProcFile) (inode : BitVec 32) (pid : Pid) : Prop :=
  ∃ fds, .process pid fds ∈ procs ∧ (ProcFile.process pid fds).Holds inode

/-- An identifier is that of a process with the socket, or of none if there is none. -/
def Right (procs : List ProcFile) (inode v : BitVec 32) : Prop :=
  (∃ pid, Holder procs inode pid ∧ v = pid.val) ∨
    (∀ pid, ¬ Holder procs inode pid) ∧ v.toInt ≤ 0

/-- Every entry has a right identifier, and nothing else of it has changed. -/
def Attributed (procs : List ProcFile) (entries entries' : List ConnectionEntry) : Prop :=
  entries'.length = entries.length ∧
    ∀ (i : Nat) (entry : ConnectionEntry), entries[i]? = some entry →
      ∃ v, entries'[i]? = some { entry with pid := v } ∧ Right procs entry.inode v

/-- An entry behind others with these inodes gets a right identifier: it has an inode of
its own and the last process that names it has the socket, or what the entry holds
already is right. -/
def Sure (procs : List ProcFile) (earlier : List (BitVec 32)) (entry : ConnectionEntry) : Prop :=
  (entry.inode ∉ earlier → ∀ pid, LastNames entry.inode pid procs →
      Holder procs entry.inode pid) ∧
    (entry.inode ∈ earlier ∨ (∀ pid, ¬ LastNames entry.inode pid procs) →
      Right procs entry.inode entry.pid)

/-- The process identifier of the first entry with an inode. -/
def pidField : Field ConnectionEntry (BitVec 32) Pid where
  key entry := entry.inode
  set entry pid := { entry with pid := pid.val }
  key_set _ _ := rfl
  set_set _ _ _ := rfl

theorem scanSocket_link (inode : BitVec 32) (rest : List Char) :
    scanSocket ("socket:[".toList ++ (decimal inode.toNat ++ ']' :: rest)) = some inode := by
  have bracket : Ends 10 (']' :: rest) := .cons (digit_none (by decide))
  have plain : ∀ c, (']' :: rest).head? = some c → c ≠ 'x' ∧ c ≠ 'X' := by
    rintro c ⟨⟩
    decide
  have read := scanNumber_spells (spells_decimal inode.toNat) bracket plain
  have head : ("socket:[".toList ++ (decimal inode.toNat ++ ']' :: rest)).take 8 =
      "socket:[".toList := rfl
  have tail : ("socket:[".toList ++ (decimal inode.toNat ++ ']' :: rest)).drop 8 =
      decimal inode.toNat ++ ']' :: rest := rfl
  rw [scanSocket, if_pos head, tail, read, Option.map_some, signed32_toNat]

/-- The buffer of a descriptor that is not skipped names what the descriptor names. -/
theorem inodeOf_fd (number : Nat) (link : Link) (buffer : List Char) (inode : BitVec 32) :
    inodeOf (FdFile.fd number link buffer inode).entry.read inode =
      (FdFile.fd number link buffer inode).named := by
  cases link with
  | socket n =>
      show inodeOf ("socket:[".toList ++ (decimal n.toNat ++ [']']) ++ _) inode = some n
      have text : ∀ rest, "socket:[".toList ++ (decimal n.toNat ++ [']']) ++ rest =
          "socket:[".toList ++ (decimal n.toNat ++ ']' :: rest) := by simp
      rw [text, inodeOf, scanSocket_link, Option.getD_some]
      exact if_pos rfl
  | other text noSocket =>
      show inodeOf (text ++ _) inode = none
      apply if_neg
      intro socket
      apply noSocket
      rw [← socket, List.take_append]
      exact List.prefix_append _ _
  | unreadable => rfl

theorem assign_eq (pid : Pid) (inode : BitVec 32) (entries : List ConnectionEntry) :
    assign (decimal pid.val.toNat) inode entries = pidField.setFirst entries (inode, pid) := by
  have read := scanNumber_spells_nil (spells_decimal pid.val.toNat)
  induction entries with
  | nil => rfl
  | cons entry entries ih =>
      rw [assign, Field.setFirst, ih, read]
      by_cases here : entry.inode = inode
      · have found : pidField.key entry = inode := here
        rw [if_pos here, if_pos found]
        simp [pidField, signed32_toNat]
      · have other : ¬ pidField.key entry = inode := here
        rw [if_neg here, if_neg other]

theorem scanFds_eq (pid : Pid) (files : List FdFile) (entries : List ConnectionEntry) :
    scanFds (decimal pid.val.toNat) (files.map FdFile.entry) entries =
      pidField.setAll entries ((files.filterMap FdFile.named).map fun inode => (inode, pid)) := by
  induction files generalizing entries with
  | nil => rfl
  | cons f files ih =>
      cases f with
      | fd number link buffer inode =>
          have digits : (decimal number).head? ≠ some '.' := by
            intro dot
            have := (spells_decimal number).digit_isSome (List.mem_of_mem_head? dot)
            cases this
          have skip : (FdFile.fd number link buffer inode).entry.name.head? ≠ some '.' := digits
          have held : (FdFile.fd number link buffer inode).entry.inode = inode := rfl
          rw [List.map_cons, scanFds, if_neg skip, held, inodeOf_fd]
          cases name : (FdFile.fd number link buffer inode).named with
          | none =>
              rw [List.filterMap_cons_none name]
              exact ih entries
          | some n =>
              rw [List.filterMap_cons_some name, List.map_cons]
              show scanFds _ _ (assign (decimal pid.val.toNat) n entries) = _
              rw [assign_eq]
              exact ih _
      | dots rest buffer inode => exact ih entries

theorem process_isDigit (pid : Pid) (fds : Option (List FdFile)) :
    ((ProcFile.process pid fds).entry.name.head?.map Char.isDigit).getD false = true := by
  obtain ⟨c, r, text, first⟩ := spells_cons (spells_decimal pid.val.toNat)
  show ((decimal pid.val.toNat).head?.map Char.isDigit).getD false = true
  rw [text]
  exact isDigit_of_digit first

theorem other_not_isDigit (name : List Char)
    (noDigit : ∀ c, name.head? = some c → c.isDigit = false) :
    ¬ ((ProcFile.other name noDigit).entry.name.head?.map Char.isDigit).getD false = true := by
  show ¬ (name.head?.map Char.isDigit).getD false = true
  cases first : name.head? with
  | none => simp
  | some c => simp [noDigit c first]

theorem scanProc_eq {procs : List ProcFile} (opened : ∀ p ∈ procs, p.Opened)
    (entries : List ConnectionEntry) :
    scanProc (procs.map ProcFile.entry) entries =
      some (pidField.setAll entries (procs.flatMap ProcFile.writes)) := by
  induction procs generalizing entries with
  | nil => rfl
  | cons p procs ih =>
      have rest := ih fun q mem => opened q (List.mem_cons_of_mem p mem)
      rw [List.map_cons, scanProc]
      cases p with
      | process pid fds =>
          obtain ⟨files, rfl⟩ := Option.isSome_iff_exists.mp (opened _ List.mem_cons_self)
          rw [if_pos (process_isDigit pid _)]
          show scanProc _ (scanFds (decimal pid.val.toNat) (files.map FdFile.entry) entries) = _
          rw [scanFds_eq, rest, List.flatMap_cons, Field.setAll, Field.setAll, Field.setAll,
            List.foldl_append]
          rfl
      | other name noDigit =>
          rw [if_neg (other_not_isDigit name noDigit)]
          exact rest entries

theorem scanProc_closed {procs : List ProcFile} (closed : ¬ ∀ p ∈ procs, p.Opened)
    (entries : List ConnectionEntry) : scanProc (procs.map ProcFile.entry) entries = none := by
  induction procs generalizing entries with
  | nil => exact absurd (fun p mem => by cases mem) closed
  | cons p procs ih =>
      rw [List.map_cons, scanProc]
      cases p with
      | process pid fds =>
          rw [if_pos (process_isDigit pid _)]
          cases fds with
          | none => rfl
          | some files =>
              refine ih (fun opened => closed ?_) _
              rw [List.forall_mem_cons]
              exact ⟨rfl, opened⟩
      | other name noDigit =>
          rw [if_neg (other_not_isDigit name noDigit)]
          refine ih (fun opened => closed ?_) entries
          rw [List.forall_mem_cons]
          exact ⟨trivial, opened⟩

theorem names_iff_mem_writes {pid : Pid} {fds : Option (List FdFile)} {inode : BitVec 32} :
    (ProcFile.process pid fds).Names inode ↔
      (inode, pid) ∈ (ProcFile.process pid fds).writes := by
  cases fds <;> simp [ProcFile.Names, ProcFile.writes]

theorem lastFor_writes_eq_none_iff {p : ProcFile} {inode : BitVec 32} :
    lastFor inode p.writes = none ↔ ¬ p.Names inode := by
  rw [lastFor_eq_none_iff]
  cases p with
  | other name noDigit => simp [ProcFile.writes, ProcFile.Names]
  | process pid fds =>
      rw [names_iff_mem_writes]
      constructor
      · exact fun none mem => none _ mem rfl
      · intro missing w mem same
        obtain ⟨named, -, rfl⟩ := List.mem_map.mp mem
        obtain rfl : named = inode := same
        exact missing mem

theorem lastFor_scan_eq_none_iff {procs : List ProcFile} {inode : BitVec 32} :
    lastFor inode (procs.flatMap ProcFile.writes) = none ↔ ∀ p ∈ procs, ¬ p.Names inode := by
  induction procs with
  | nil => simp [lastFor]
  | cons p procs ih =>
      rw [List.flatMap_cons, lastFor_append, Option.or_eq_none_iff, ih,
        lastFor_writes_eq_none_iff, List.forall_mem_cons, and_comm]

theorem lastFor_scan_eq_some_iff {procs : List ProcFile} {inode : BitVec 32} {pid : Pid} :
    lastFor inode (procs.flatMap ProcFile.writes) = some pid ↔ LastNames inode pid procs := by
  induction procs with
  | nil => exact iff_of_false (fun h => by cases h) fun h => by cases h
  | cons p procs ih =>
      rw [List.flatMap_cons, lastFor_append, Option.or_eq_some_iff, ih, lastFor_scan_eq_none_iff]
      constructor
      · rintro (rest | ⟨last, found⟩)
        · exact .later rest
        · have mem := mem_of_lastFor found
          cases p with
          | other name noDigit => cases mem
          | process other fds =>
              obtain ⟨n, -, same⟩ := List.mem_map.mp mem
              cases same
              exact .here (names_iff_mem_writes.mpr mem) last
      · intro names
        cases names with
        | later rest => exact .inl rest
        | here names last =>
            refine .inr ⟨last, ?_⟩
            cases found : lastFor inode (ProcFile.process pid _).writes with
            | none => exact absurd names (lastFor_writes_eq_none_iff.mp found)
            | some other =>
                obtain ⟨n, -, same⟩ := List.mem_map.mp (mem_of_lastFor found)
                cases same
                rfl

theorem right_pid_iff {procs : List ProcFile} {inode : BitVec 32} {pid : Pid} :
    Right procs inode pid.val ↔ Holder procs inode pid := by
  constructor
  · rintro (⟨other, holder, same⟩ | ⟨-, nonpos⟩)
    · obtain ⟨val, pos⟩ := pid
      obtain ⟨val', pos'⟩ := other
      cases same
      exact holder
    · exact absurd pid.pos (not_lt_of_ge nonpos)
  · exact fun holder => .inl ⟨pid, holder, rfl⟩

/-- The identifier that an entry ends up with is right exactly when it was sure. -/
theorem right_written_iff (procs : List ProcFile) (earlier : List (BitVec 32))
    (entry : ConnectionEntry) :
    Right procs entry.inode
        (if entry.inode ∈ earlier then entry
          else pidField.written (procs.flatMap ProcFile.writes) entry).pid ↔
      Sure procs earlier entry := by
  by_cases mem : entry.inode ∈ earlier
  · rw [if_pos mem]
    exact ⟨fun right => ⟨fun first => absurd mem first, fun _ => right⟩,
      fun sure => sure.2 (.inl mem)⟩
  · rw [if_neg mem]
    cases last : lastFor entry.inode (procs.flatMap ProcFile.writes) with
    | none =>
        have nobody : ∀ pid, ¬ LastNames entry.inode pid procs := by
          intro pid names
          rw [lastFor_scan_eq_some_iff.mpr names] at last
          cases last
        rw [pidField.written_of_none last]
        exact ⟨fun right => ⟨fun _ pid names => absurd names (nobody pid), fun _ => right⟩,
          fun sure => sure.2 (.inr nobody)⟩
    | some pid =>
        have names := lastFor_scan_eq_some_iff.mp last
        rw [pidField.written_of_some last]
        refine right_pid_iff.trans ⟨fun holder => ⟨?_, ?_⟩, fun sure => sure.1 mem pid names⟩
        · intro _ other others
          have same := lastFor_scan_eq_some_iff.mpr others
          rw [last] at same
          cases same
          exact holder
        · rintro (earlier | nobody)
          · exact absurd earlier mem
          · exact absurd names (nobody pid)

/-- An entry after the writes of the scan differs in its process identifier only. -/
theorem setAll_entry {entries : List ConnectionEntry} {i : Nat} {entry : ConnectionEntry}
    (found : entries[i]? = some entry) (ws : List (BitVec 32 × Pid)) :
    (pidField.setAll entries ws)[i]? = some { entry with
      pid := (if entry.inode ∈ (entries.map ConnectionEntry.inode).take i then entry
        else pidField.written ws entry).pid } := by
  rw [pidField.setAll_getElem?, found, Option.map_some]
  show some (if entry.inode ∈ (entries.map ConnectionEntry.inode).take i then entry
    else pidField.written ws entry) = _
  congr 1
  split
  · rfl
  · unfold Field.written
    cases lastFor (pidField.key entry) ws <;> rfl

/-- The scan attributes every socket rightly exactly when it can open the directories of all
processes and every entry was sure. -/
theorem scan_attributed_iff (proc : Option (List ProcFile)) (entries : List ConnectionEntry) :
    (∃ entries', scan (proc.map (List.map ProcFile.entry)) entries = some entries' ∧
        Attributed (proc.getD []) entries entries') ↔
      (∃ procs, proc = some procs ∧ ∀ p ∈ procs, p.Opened) ∧
        ∀ (i : Nat) (entry : ConnectionEntry), entries[i]? = some entry →
          Sure (proc.getD []) ((entries.map ConnectionEntry.inode).take i) entry := by
  cases proc with
  | none =>
      refine iff_of_false ?_ ?_
      · rintro ⟨entries', ⟨⟩, -⟩
      · rintro ⟨⟨procs, ⟨⟩, -⟩, -⟩
  | some procs =>
      by_cases opened : ∀ p ∈ procs, p.Opened
      · have scanned : scan ((some procs).map (List.map ProcFile.entry)) entries =
            some (pidField.setAll entries (procs.flatMap ProcFile.writes)) :=
          scanProc_eq opened entries
        rw [scanned, and_iff_right ⟨procs, rfl, opened⟩, Option.getD_some]
        constructor
        · rintro ⟨entries', ⟨⟩, -, right⟩ i entry found
          obtain ⟨v, final, hv⟩ := right i entry found
          rw [setAll_entry found] at final
          cases final
          exact (right_written_iff procs _ entry).mp hv
        · intro sure
          refine ⟨_, rfl, ?_, ?_⟩
          · have keys := congrArg List.length
              (pidField.map_key_setAll entries (procs.flatMap ProcFile.writes))
            simpa using keys
          · intro i entry found
            exact ⟨_, setAll_entry found _,
              (right_written_iff procs _ entry).mpr (sure i entry found)⟩
      · refine iff_of_false ?_ ?_
        · rintro ⟨entries', scanned, -⟩
          have crashed : scan ((some procs).map (List.map ProcFile.entry)) entries = none :=
            scanProc_closed opened entries
          rw [crashed] at scanned
          cases scanned
        · rintro ⟨⟨procs', ⟨⟩, all⟩, -⟩
          exact opened all

namespace Demo

/-- A connection that was closed a moment ago: no process has its socket any more. -/
def timeWait : ConnectionEntry where
  ipProto := "tcp".toList
  localAddr := "127.0.0.1".toList
  localPort := "45912".toList
  remoteAddr := "127.0.0.1".toList
  remotePort := "80".toList
  pid := 32764
  inode := 0

/-- One process without descriptors. -/
def onlyInit : List ProcFile := [.process ⟨1, by decide⟩ (some [])]

theorem timeWait_misattributed :
    ¬ ∃ entries', scan ((some onlyInit).map (List.map ProcFile.entry)) [timeWait] = some entries' ∧
      Attributed onlyInit [timeWait] entries' := by
  rintro ⟨entries', scanned, -, attributed⟩
  have opened : ∀ p ∈ onlyInit, p.Opened := by
    intro p mem
    obtain rfl := List.mem_singleton.mp mem
    rfl
  have kept : scan ((some onlyInit).map (List.map ProcFile.entry)) [timeWait] = some [timeWait] :=
    scanProc_eq opened [timeWait]
  rw [kept] at scanned
  cases scanned
  obtain ⟨v, same, right⟩ := attributed 0 timeWait rfl
  cases same
  obtain ⟨pid, ⟨fds, mem, files, given, number, buffer, held, found⟩, -⟩ | ⟨-, none⟩ := right
  · cases List.mem_singleton.mp mem
    cases given
    cases found
  · exact absurd none (by decide)

end Demo

end Connections
