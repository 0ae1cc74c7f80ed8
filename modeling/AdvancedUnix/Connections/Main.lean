import AdvancedUnix.Connections.Attribution
import AdvancedUnix.Connections.Ipv6
import AdvancedUnix.Connections.Listing

/-!
# The program

`main` reads the options, collects the sockets of four files, looks for the processes that
have them and prints what is selected. A machine has sockets, and processes that hold them.
If the parser can decode each of its sockets, no other process seems to have one, and what is
to be listed fits the lists, then `main` prints one row for each selected socket where the
filter matches, with a process that holds the socket.
-/

namespace Connections

open Memory Text Keyed

/-- What `main` finds: the lines of the files of connections, the stack that each of the lines
is parsed on, the entries of `/proc` and the other files. -/
structure Outside where
  net : Protocol → Option (List (List Char))
  stack : Protocol → Nat → Stack
  proc : Option (List ProcEntry)
  file : List Char → Option (List Char)

section Program

variable (ntop6 : (Fin 16 → Byte) → List Char) (o : Outside)

/-- The calls of `parse_protocol`, which put their entries behind those that are there. -/
def parseProtocols : List Protocol → Option (List ConnectionEntry)
  | [] => some []
  | p :: ps =>
    (parseProtocol ntop6 p (o.stack p) (o.net p)).bind fun entries =>
      (parseProtocols ps).map (entries ++ ·)

/-- `main`. An option that is not known ends it before anything is read. -/
def main (opts : List Opt) (arg : Option (List Char)) : Option (List Line) :=
  match readOptions opts false false with
  | none => some []
  | some _ =>
    (parseProtocols ntop6 o [.tcp, .tcp6, .udp, .udp6]).bind fun entries =>
      (scan o.proc entries).bind fun entries => listing o.file opts arg entries

end Program

/-- A socket over IPv6: other addresses, and the columns of a socket behind them. -/
structure Socket6 where
  localAddr : Fin 16 → Byte
  remoteAddr : Fin 16 → Byte
  rest : Socket

/-- One end of a connection over IPv6. -/
def endToken6 (addr : Fin 16 → Byte) (port : BitVec 16) : Token isspace where
  text := kernelEnd6 addr port
  nonempty := by simp [kernelEnd6]
  solid := by
    intro c mem
    simp only [kernelEnd6, List.mem_append, List.mem_cons] at mem
    obtain (mem | mem | mem | mem) | rfl | mem := mem
    · exact (spells_hex _ _).solid c mem
    · exact (spells_hex _ _).solid c mem
    · exact (spells_hex _ _).solid c mem
    · exact (spells_hex _ _).solid c mem
    · rfl
    · exact (spells_hex _ _).solid c mem

def Socket6.columns (s : Socket6) : List (Nat × Token isspace) :=
  (0, endToken6 s.localAddr s.rest.localPort) :: (0, endToken6 s.remoteAddr s.rest.remotePort) ::
    s.rest.columns.drop 2

/-- The line of a socket over IPv6. -/
def kernelLine6 (width : Nat) (s : Socket6) : List Char :=
  padded ' ' width (decimal s.rest.sl) ++
    ':' :: spaced isDelim (' ' :: s.rest.more)
      (s.columns.map fun column => (padding column.1 column.2.text, column.2.mono delim_of_space))

/-- What should be shown of a socket. -/
structure View where
  proto : Protocol
  localAddr : List Char
  localPort : List Char
  remoteAddr : List Char
  remotePort : List Char
  inode : BitVec 32

def Socket.view (p : Protocol) (s : Socket) : View :=
  ⟨p, s.localAddr.dotted, portText s.localPort, s.remoteAddr.dotted, portText s.remotePort,
    s.inode⟩

def Socket6.view (ntop6 : (Fin 16 → Byte) → List Char) (p : Protocol) (s : Socket6) : View :=
  ⟨p, ntop6 s.localAddr, portText s.rest.localPort, ntop6 s.remoteAddr, portText s.rest.remotePort,
    s.rest.inode⟩

/-- The entry for a socket with a process identifier. -/
def View.entry (v : View) (pid : BitVec 32) : ConnectionEntry :=
  ⟨v.proto.name.toList, v.localAddr, v.localPort, v.remoteAddr, v.remotePort, pid, v.inode⟩

/-- A machine: its sockets, its processes and their arguments. -/
structure Machine where
  tcp : List Socket
  tcp6 : List Socket6
  udp : List Socket
  udp6 : List Socket6
  procs : List ProcFile
  args : Pid → List Arg

/-- Nothing that the stack holds gets into what is shown of a socket. -/
def Socket.Clear (stack : Stack) (s : Socket) : Prop :=
  (s.localPort ≠ 0 ∨ (stack.locals 1).port &&& 0xffffffff00000000 = 0) ∧
    (s.remotePort ≠ 0 ∨ (stack.locals 2).port &&& 0xffffffff00000000 = 0)

def Socket6.Clear (stack : Stack) (s : Socket6) : Prop :=
  Survives (stack.locals 1) s.localAddr s.rest.localPort ∧
    Survives (stack.locals 2) s.remoteAddr s.rest.remotePort

namespace Machine

/-- The lines of a file behind its title, with the widths of the two kinds of files. -/
def lines (m : Machine) : Protocol → List (List Char)
  | .tcp => m.tcp.map (kernelLine 4)
  | .tcp6 => m.tcp6.map (kernelLine6 4)
  | .udp => m.udp.map (kernelLine 5)
  | .udp6 => m.udp6.map (kernelLine6 5)

/-- What should be shown of the sockets of a file. -/
def viewsOf (ntop6 : (Fin 16 → Byte) → List Char) (m : Machine) : Protocol → List View
  | .tcp => m.tcp.map (Socket.view .tcp)
  | .tcp6 => m.tcp6.map (Socket6.view ntop6 .tcp6)
  | .udp => m.udp.map (Socket.view .udp)
  | .udp6 => m.udp6.map (Socket6.view ntop6 .udp6)

def views (ntop6 : (Fin 16 → Byte) → List Char) (m : Machine) : List View :=
  [Protocol.tcp, .tcp6, .udp, .udp6].flatMap (m.viewsOf ntop6)

/-- The sockets of a file are decoded on these stacks. -/
def Clear (m : Machine) (stack : Nat → Stack) : Protocol → Prop
  | .tcp => ∀ i (s : Socket), m.tcp[i]? = some s → s.Clear (stack (i + 2))
  | .tcp6 => ∀ i (s : Socket6), m.tcp6[i]? = some s → s.Clear (stack (i + 2))
  | .udp => ∀ i (s : Socket), m.udp[i]? = some s → s.Clear (stack (i + 2))
  | .udp6 => ∀ i (s : Socket6), m.udp6[i]? = some s → s.Clear (stack (i + 2))

/-- A socket with a process, as a connection. -/
def connection (m : Machine) (v : View) (pid : Pid) : Connection :=
  ⟨v.proto, v.localAddr, v.localPort, v.remoteAddr, v.remotePort, pid.val, v.inode, m.args pid⟩

end Machine

/-- The connections of a protocol that should be listed. -/
def found (switches : List Switch) (filter : List Char) (conns : List Connection) (f : Family) :
    List Connection :=
  (selected switches conns f).filter fun c => c.Matches filter

/-- The lists for connections, that of TCP first. -/
def report (switches : List Switch) (filter : List Char) (conns : List Connection) : List Line :=
  let tcpRows := (found switches filter conns .tcp).map Connection.row
  let udpRows := (found switches filter conns .udp).map Connection.row
  printList "TCP" tcpRows ++
    ((if tcpRows ≠ [] ∧ udpRows ≠ [] then [.blank] else []) ++ printList "UDP" udpRows)

theorem init_pos : 0 < (1 : BitVec 32).toInt := by decide

/-- The first process. -/
def init : Pid := ⟨1, init_pos⟩

/-- The process to which the scan gives an inode, for one that is named. -/
def Machine.owner (m : Machine) (inode : BitVec 32) : Pid :=
  (lastFor inode (m.procs.flatMap ProcFile.writes)).getD init

/-- What stands outside is the machine, and what is to be listed can be: the sockets that are
selected are decoded, held by processes and named by no other ones. -/
structure Machine.Orderly (ntop6 : (Fin 16 → Byte) → List Char) (o : Outside)
    (switches : List Switch) (arg : Option (List Char)) (m : Machine) : Prop where
  net : ∀ p, ∃ title, o.net p = some (title :: m.lines p)
  clear : ∀ p, p.family.Selected switches → m.Clear (o.stack p) p
  proc : o.proc = some (m.procs.map ProcFile.entry)
  opened : ∀ p ∈ m.procs, p.Opened
  cmdline : ∀ pid fds, ProcFile.process pid fds ∈ m.procs →
    o.file (procPath pid.val) = some (terminated ((m.args pid).map Arg.text))
  short : (arg.getD []).length < filterSize
  /-- no socket before it has its inode -/
  own : ∀ (i : Nat) (v : View), (m.views ntop6)[i]? = some v → v.proto.family.Selected switches →
    v.inode ∉ ((m.views ntop6).map View.inode).take i
  held : ∀ v ∈ m.views ntop6, v.proto.family.Selected switches → ∃ pid, Holder m.procs v.inode pid
  named : ∀ v ∈ m.views ntop6, v.proto.family.Selected switches →
    ∀ pid, LastNames v.inode pid m.procs → Holder m.procs v.inode pid
  listable : ∀ v ∈ m.views ntop6, v.proto.family.Selected switches →
    ∀ pid, Holder m.procs v.inode pid → Listable (arg.getD []) (m.connection v pid)

/-- An entry was read from the line of a socket. Of a protocol that is not selected it only
matters to whom it belongs. -/
structure View.Read (switches : List Switch) (v : View) (e : ConnectionEntry) : Prop where
  proto : e.ipProto = v.proto.name.toList
  inode : e.inode = v.inode
  entry : v.proto.family.Selected switches → e = v.entry e.pid

/-- An entry is what the lists are made from. -/
structure Machine.Attributes (m : Machine) (switches : List Switch) (v : View)
    (e : ConnectionEntry) : Prop where
  proto : e.ipProto = v.proto.name.toList
  entry : v.proto.family.Selected switches → e = (m.connection v (m.owner v.inode)).entry

section Parsing

variable {ntop6 : (Fin 16 → Byte) → List Char} {switches : List Switch}

theorem words_columns (width n : Nat) (columns : List (Nat × Token isspace)) (more : List Char) :
    words isDelim (padded ' ' width (decimal n) ++ ':' :: spaced isDelim (' ' :: more)
        (columns.map fun column => (padding column.1 column.2.text,
          column.2.mono delim_of_space))) =
      (decimal n ++ [':']) :: (columns.map fun column => column.2.text) ++
        words isDelim (' ' :: more) := by
  have ends : ∀ c, (' ' :: more).head? = some c → isDelim c = true := by
    rintro c ⟨⟩
    rfl
  have solid : ∀ c ∈ decimal n ++ [':'], isDelim c = false := by
    intro c mem
    obtain mem | mem := List.mem_append.mp mem
    · exact delim_of_space c ((spells_decimal _).solid c mem)
    · obtain rfl := List.mem_singleton.mp mem
      rfl
  rw [padded, List.append_assoc, List.append_cons, words_seps _ (by simp [isDelim]),
    words_word ⟨decimal n ++ [':'], by simp, solid⟩ (head?_spaced ends _), words_spaced ends,
    List.map_map]
  rfl

/-- The line of a socket over IPv6 is decoded into what is stored of its addresses. -/
theorem parseLine_kernelLine6 (locals : Nat → Locals) (width : Nat) (s : Socket6)
    (held : ConnectionEntry) :
    parseLine ntop6 locals true (kernelLine6 width s) held =
      some { held with
        localAddr := ntop6 (storedAddr (locals 1) s.localAddr)
        localPort := shownPort (locals 1).port s.rest.localPort
        remoteAddr := ntop6 (storedAddr (locals 2) s.remoteAddr)
        remotePort := shownPort (locals 2).port s.rest.remotePort
        inode := s.rest.inode } := by
  have number : scanNumber 10 (decimalToken s.rest.inode.toNat).text =
      some ((s.rest.inode.toNat : Int), []) := scanNumber_spells_nil (spells_decimal _)
  have localEnd : parseAddrPortPair ntop6 (locals 1) (endToken6 s.localAddr s.rest.localPort).text
      true = _ := parseAddrPortPair_end6 ..
  have remoteEnd : parseAddrPortPair ntop6 (locals 2)
      (endToken6 s.remoteAddr s.rest.remotePort).text true = _ := parseAddrPortPair_end6 ..
  have first : ∀ c ∈ decimal s.rest.sl ++ [':'], isspace c = false := by
    intro c mem
    obtain mem | mem := List.mem_append.mp mem
    · exact (spells_decimal _).solid c mem
    · obtain rfl := List.mem_singleton.mp mem
      rfl
  rw [parseLine, kernelLine6, words_columns, List.cons_append, parseTokens_cons _ _ _ first]
  simp only [Socket6.columns, Socket.columns, List.drop_succ_cons, List.drop_zero, List.map_cons,
    List.map_nil, List.cons_append, List.nil_append,
    parseTokens_cons ntop6 locals true (Token.solid _)]
  simp [parseField, localEnd, remoteEnd, number, signed32_toNat, parseTokens_rest]

theorem kernelLine_read {p : Protocol} (ipv4 : p.isIpv6 = false) {stack : Stack} {s : Socket}
    (width : Nat) (clear : p.family.Selected switches → s.Clear stack) :
    ∃ entry, parseLine ntop6 stack.locals p.isIpv6 (kernelLine width s)
        { stack.entry with ipProto := p.name.toList } = some entry ∧
      (s.view p).Read switches entry := by
  rw [ipv4, parseLine_kernelLine]
  refine ⟨_, rfl, rfl, rfl, fun sel => ?_⟩
  obtain ⟨localPort, remotePort⟩ := clear sel
  simp only [(shownPort_eq_iff _ _).mpr localPort, (shownPort_eq_iff _ _).mpr remotePort]
  rfl

theorem kernelLine6_read {p : Protocol} (ipv6 : p.isIpv6 = true) {stack : Stack} {s : Socket6}
    (width : Nat) (clear : p.family.Selected switches → s.Clear stack) :
    ∃ entry, parseLine ntop6 stack.locals p.isIpv6 (kernelLine6 width s)
        { stack.entry with ipProto := p.name.toList } = some entry ∧
      (s.view ntop6 p).Read switches entry := by
  rw [ipv6, parseLine_kernelLine6]
  refine ⟨_, rfl, rfl, rfl, fun sel => ?_⟩
  obtain ⟨localEnd, remoteEnd⟩ := clear sel
  simp only [(shownPort_eq_iff _ _).mpr localEnd.port, (shownPort_eq_iff _ _).mpr remoteEnd.port,
    (storedAddr_eq_iff _ _).mpr ⟨localEnd.word, localEnd.held⟩,
    (storedAddr_eq_iff _ _).mpr ⟨remoteEnd.word, remoteEnd.held⟩]
  rfl

/-- The lines of a file are read one after the other. -/
theorem parseLines_read {α : Type} {p : Protocol} {stack : Nat → Stack} {line : α → List Char}
    {view : α → View} (sockets : List α) (lineNum : Nat)
    (each : ∀ (i : Nat) (s : α), sockets[i]? = some s →
      ∃ entry, parseLine ntop6 (stack (i + lineNum)).locals p.isIpv6 (line s)
          { (stack (i + lineNum)).entry with ipProto := p.name.toList } = some entry ∧
        (view s).Read switches entry) :
    ∃ entries, parseLines ntop6 p stack lineNum (sockets.map line) = some entries ∧
      List.Forall₂ (View.Read switches) (sockets.map view) entries := by
  induction sockets generalizing lineNum with
  | nil => exact ⟨[], rfl, .nil⟩
  | cons s sockets ih =>
      have first := each 0 s rfl
      rw [Nat.zero_add] at first
      obtain ⟨entry, parsed, read⟩ := first
      have later : ∀ (i : Nat) (s : α), sockets[i]? = some s →
          ∃ entry, parseLine ntop6 (stack (i + (lineNum + 1))).locals p.isIpv6 (line s)
              { (stack (i + (lineNum + 1))).entry with ipProto := p.name.toList } = some entry ∧
            (view s).Read switches entry := by
        intro i s here
        rw [Nat.add_comm lineNum, ← Nat.add_assoc]
        exact each (i + 1) s here
      obtain ⟨entries, rest, reads⟩ := ih (lineNum + 1) later
      refine ⟨entry :: entries, ?_, .cons read reads⟩
      simp only [List.map_cons, parseLines, parsed, Option.bind_some, rest, Option.map_some]

end Parsing

section Reading

variable {ntop6 : (Fin 16 → Byte) → List Char} {o : Outside} {switches : List Switch}
  {arg : Option (List Char)} {m : Machine}

variable (ntop6) in
/-- The entries of a file show its sockets. -/
theorem parseProtocol_read {p : Protocol} {title : List Char}
    (net : o.net p = some (title :: m.lines p))
    (clear : p.family.Selected switches → m.Clear (o.stack p) p) :
    ∃ entries, parseProtocol ntop6 p (o.stack p) (o.net p) = some entries ∧
      List.Forall₂ (View.Read switches) (m.viewsOf ntop6 p) entries := by
  rw [net, parseProtocol, Option.bind_some, List.drop_succ_cons, List.drop_zero]
  cases p with
  | tcp => exact parseLines_read m.tcp 2 fun i s here =>
      kernelLine_read rfl 4 fun sel => clear sel i s here
  | tcp6 => exact parseLines_read m.tcp6 2 fun i s here =>
      kernelLine6_read rfl 4 fun sel => clear sel i s here
  | udp => exact parseLines_read m.udp 2 fun i s here =>
      kernelLine_read rfl 5 fun sel => clear sel i s here
  | udp6 => exact parseLines_read m.udp6 2 fun i s here =>
      kernelLine6_read rfl 5 fun sel => clear sel i s here

theorem parseProtocols_read (h : m.Orderly ntop6 o switches arg) (ps : List Protocol) :
    ∃ entries, parseProtocols ntop6 o ps = some entries ∧
      List.Forall₂ (View.Read switches) (ps.flatMap (m.viewsOf ntop6)) entries := by
  induction ps with
  | nil => exact ⟨[], rfl, .nil⟩
  | cons p ps ih =>
      obtain ⟨title, net⟩ := h.net p
      obtain ⟨first, parsed, read⟩ := parseProtocol_read ntop6 net (h.clear p)
      obtain ⟨later, rest, reads⟩ := ih
      refine ⟨first ++ later, ?_, List.rel_append read reads⟩
      rw [parseProtocols, parsed, Option.bind_some, rest, Option.map_some]

theorem read_inodes {views : List View} {entries : List ConnectionEntry}
    (reads : List.Forall₂ (View.Read switches) views entries) :
    entries.map ConnectionEntry.inode = views.map View.inode := by
  induction reads with
  | nil => rfl
  | cons read _ ih => rw [List.map_cons, List.map_cons, read.inode, ih]

/-- A socket that is held is named, and the scan gives it to a process that holds it. -/
theorem Machine.Orderly.owner (h : m.Orderly ntop6 o switches arg) {v : View}
    (mem : v ∈ m.views ntop6) (sel : v.proto.family.Selected switches) :
    lastFor v.inode (m.procs.flatMap ProcFile.writes) = some (m.owner v.inode) ∧
      Holder m.procs v.inode (m.owner v.inode) := by
  obtain ⟨pid, fds, process, files, opened, number, buffer, held, fd⟩ := h.held v mem sel
  have names : (ProcFile.process pid fds).Names v.inode := ⟨files, opened, _, fd, rfl⟩
  unfold Machine.owner
  cases last : lastFor v.inode (m.procs.flatMap ProcFile.writes) with
  | none => exact absurd names (lastFor_scan_eq_none_iff.mp last _ process)
  | some owner => exact ⟨rfl, h.named v mem sel owner (lastFor_scan_eq_some_iff.mp last)⟩

/-- Behind the scan the entries say to whom the sockets belong. -/
theorem scan_read (h : m.Orderly ntop6 o switches arg) {entries : List ConnectionEntry}
    (reads : List.Forall₂ (View.Read switches) (m.views ntop6) entries) :
    ∃ entries', scan o.proc entries = some entries' ∧
      List.Forall₂ (m.Attributes switches) (m.views ntop6) entries' := by
  rw [h.proc, scan, Option.bind_some, scanProc_eq h.opened]
  refine ⟨_, rfl, ?_⟩
  have length : (pidField.setAll entries (m.procs.flatMap ProcFile.writes)).length =
      entries.length := by
    rw [← List.length_map pidField.key, pidField.map_key_setAll, List.length_map]
  refine List.forall₂_iff_get.mpr ⟨reads.length_eq.trans length.symm, fun i hi hi' => ?_⟩
  have inside : i < entries.length := length ▸ hi'
  have read := reads.get hi inside
  have here : entries[i]? = some entries[i] := List.getElem?_eq_getElem inside
  have entry := setAll_entry here (m.procs.flatMap ProcFile.writes)
  rw [List.getElem?_eq_getElem hi', Option.some_inj, read_inodes reads] at entry
  simp only [List.get_eq_getElem] at read ⊢
  rw [entry]
  refine ⟨read.proto, fun sel => ?_⟩
  have mem : (m.views ntop6)[i] ∈ m.views ntop6 := List.getElem_mem hi
  have own := h.own i _ (List.getElem?_eq_getElem hi) sel
  have last : lastFor (pidField.key entries[i]) (m.procs.flatMap ProcFile.writes) = _ :=
    read.inode ▸ (h.owner mem sel).1
  rw [← read.inode] at own
  rw [if_neg own, pidField.written_of_some last, read.entry sel]
  rfl

end Reading

section Listing

variable {file : List Char → Option (List Char)} {switches : List Switch} {filter : List Char}
  {m : Machine} {views : List View} {entries : List ConnectionEntry}

/-- A socket with the process that the scan finds for it. -/
def Machine.owned (m : Machine) (v : View) : Connection := m.connection v (m.owner v.inode)

/-- The entries that are collected are those of the selected connections. -/
theorem collect_read (attributes : List.Forall₂ (m.Attributes switches) views entries) {f : Family}
    (sel : f.Selected switches) :
    collect file f.text filter entries =
      collect file f.text filter
        ((selected switches (views.map m.owned) f).map Connection.entry) := by
  rw [selected, if_pos sel]
  induction attributes with
  | nil => rfl
  | @cons v e views entries first _ ih =>
      have proto : e.ipProto.take 3 = f.text ↔ (m.owned v).proto.family = f :=
        first.proto ▸ family_text_iff (m.owned v) f
      rw [List.map_cons, collect]
      by_cases same : (m.owned v).proto.family = f
      · have shown : e = (m.owned v).entry := first.entry (by rwa [← same] at sel)
        rw [List.filter_cons_of_pos (by simpa using same), List.map_cons, collect, ih, ← shown]
      · rw [List.filter_cons_of_neg (by simpa using same), if_neg (mt proto.mp same)]
        exact ih

/-- Where the selected connections are `Listable`, those where the filter matches are collected. -/
theorem collect_found (attributes : List.Forall₂ (m.Attributes switches) views entries) (f : Family)
    (known : ∀ v ∈ views, v.proto.family.Selected switches →
      file (procPath (m.owned v).pid) = some (m.owned v).cmdline)
    (listable : ∀ v ∈ views, v.proto.family.Selected switches → Listable filter (m.owned v)) :
    (if f.Selected switches then collect file f.text filter entries else some []) =
      some ((found switches filter (views.map m.owned) f).map Connection.entry) := by
  unfold found
  by_cases sel : f.Selected switches
  · have each : ∀ c ∈ selected switches (views.map m.owned) f,
        file (procPath c.pid) = some c.cmdline ∧ Listable filter c ∧ c.proto.family = f := by
      intro c mem
      rw [selected, if_pos sel] at mem
      obtain ⟨mem, same⟩ := List.mem_filter.mp mem
      obtain ⟨v, view, rfl⟩ := List.mem_map.mp mem
      have same : v.proto.family = f := of_decide_eq_true same
      have sel : v.proto.family.Selected switches := by rwa [same]
      exact ⟨known v view sel, listable v view sel, same⟩
    rw [if_pos sel, collect_read attributes sel,
      collect_of_nonempty f (fun c mem => (each c mem).1) fun c mem _ => (each c mem).2.1.nonempty,
      List.filter_eq_self.mpr fun c mem => decide_eq_true (each c mem).2.2]
    refine congrArg (fun conns => some (conns.map Connection.entry)) (List.filter_congr ?_)
    intro c mem
    obtain ⟨file_eq, list, -⟩ := each c mem
    have seen := ((listable_iff file_eq list.nonempty).mp list).1
    exact decide_eq_decide.mpr ⟨Connection.Seen.matches, seen⟩
  · rw [if_neg sel, selected, if_neg sel]
    rfl

/-- What is collected is printed in full. -/
theorem print_found (f : Family)
    (known : ∀ v ∈ views, v.proto.family.Selected switches →
      file (procPath (m.owned v).pid) = some (m.owned v).cmdline)
    (listable : ∀ v ∈ views, v.proto.family.Selected switches → Listable filter (m.owned v)) :
    ((found switches filter (views.map m.owned) f).map Connection.entry).mapM (printEntry file) =
      some ((found switches filter (views.map m.owned) f).map Connection.row) := by
  rw [List.mapM_map, Listing.mapM_eq_some_map_iff]
  intro c mem
  obtain ⟨mem, found⟩ := List.mem_filter.mp mem
  unfold selected at mem
  split at mem
  · rename_i sel
    obtain ⟨mem, same⟩ := List.mem_filter.mp mem
    obtain ⟨v, view, rfl⟩ := List.mem_map.mp mem
    have same : v.proto.family = f := of_decide_eq_true same
    have sel : v.proto.family.Selected switches := by rwa [same]
    have list := listable v view sel
    obtain ⟨seen, row⟩ := (listable_iff (known v view sel) list.nonempty).mp list
    exact row (seen (of_decide_eq_true found))
  · cases mem

end Listing

/-- The whole program: every selected socket has its row where the filter matches the arguments
of its process, and there are no other rows. -/
theorem main_lists (ntop6 : (Fin 16 → Byte) → List Char) (o : Outside) (switches : List Switch)
    (arg : Option (List Char)) (m : Machine) (h : m.Orderly ntop6 o switches arg) :
    (∀ v ∈ m.views ntop6, v.proto.family.Selected switches →
        Holder m.procs v.inode (m.owner v.inode)) ∧
      main ntop6 o (switches.map Switch.opt) arg =
        some (report switches (arg.getD []) ((m.views ntop6).map m.owned)) := by
  refine ⟨fun v mem sel => (h.owner mem sel).2, ?_⟩
  obtain ⟨entries, parsed, reads⟩ := parseProtocols_read h [.tcp, .tcp6, .udp, .udp6]
  obtain ⟨entries', scanned, attributes⟩ := scan_read h reads
  have known : ∀ v ∈ m.views ntop6, v.proto.family.Selected switches →
      o.file (procPath (m.owned v).pid) = some (m.owned v).cmdline := by
    intro v mem sel
    obtain ⟨fds, process, -⟩ := (h.owner mem sel).2
    exact h.cmdline _ fds process
  have listable : ∀ v ∈ m.views ntop6, v.proto.family.Selected switches →
      Listable (arg.getD []) (m.owned v) :=
    fun v mem sel => h.listable v mem sel _ (h.owner mem sel).2
  rw [main, readOptions_switches, parsed, Option.bind_some, scanned, Option.bind_some, listing_eq,
    if_neg (not_le.mpr h.short), collect_found attributes .tcp known listable,
    collect_found attributes .udp known listable, Option.bind_some, Option.bind_some, printed,
    print_found .tcp known listable, print_found .udp known listable]
  rfl

namespace Demo

/-- A connection of the web server. -/
def established : Socket := { listening with remotePort := 50000 }

theorem web_pos : 0 < (7 : BitVec 32).toInt := by decide

def web : Pid := ⟨7, web_pos⟩

theorem web_clean : ∀ t ∈ ["/usr/bin/server", "-d"], nul ∉ t.toList := by decide

/-- A machine with nothing but a web server that has a client. -/
def host : Machine where
  tcp := [established]
  tcp6 := []
  udp := []
  udp6 := []
  procs := [.process web (some [.dots [] [] 0, .fd 3 (.socket 21453) [] 0])]
  args _ := args ["/usr/bin/server", "-d"] web_clean

/-- What is outside of the program on this machine. -/
def hostOutside : Outside where
  net p := some ("  sl  local_address".toList :: host.lines p)
  stack _ _ := ⟨blankEntry, stackLocals⟩
  proc := some (host.procs.map ProcFile.entry)
  file _ := some (terminated ((host.args web).map Arg.text))

theorem host_views : host.views fullText = [established.view .tcp] := rfl

theorem host_holder : Holder host.procs 21453 web :=
  ⟨_, List.mem_singleton_self _, _, rfl, 3, [], 0, by simp⟩

theorem host_holds {inode : BitVec 32} {pid : Pid} (h : Holder host.procs inode pid) :
    pid = web := by
  obtain ⟨fds, mem, -⟩ := h
  exact (ProcFile.process.inj (List.mem_singleton.mp mem)).1

theorem host_listable : Listable "bin".toList (host.owned (established.view .tcp)) := by
  refine ⟨by decide, fun first rest owner _ => ?_, fun first rest owner _ => ?_⟩
  · cases owner
    decide
  · cases owner
    exact ⟨by decide, by decide, "/usr/bin/server".toList, by decide, by decide, by decide,
      by decide⟩

theorem host_orderly : host.Orderly fullText hostOutside [] (some "bin".toList) where
  net _ := ⟨_, rfl⟩
  clear p _ := by
    cases p with
    | tcp =>
        intro i s here
        obtain rfl := List.mem_singleton.mp (List.mem_of_getElem? here)
        exact ⟨.inl (by decide), .inl (by decide)⟩
    | tcp6 => exact fun i s here => by cases List.mem_of_getElem? here
    | udp => exact fun i s here => by cases List.mem_of_getElem? here
    | udp6 => exact fun i s here => by cases List.mem_of_getElem? here
  proc := rfl
  opened p mem := by
    obtain rfl := List.mem_singleton.mp mem
    rfl
  cmdline _ _ _ := rfl
  short := by decide
  own i v here _ := by
    rw [host_views] at here ⊢
    cases i with
    | zero => exact List.not_mem_nil
    | succ i => cases here
  held v mem _ := by
    obtain rfl := List.mem_singleton.mp (host_views ▸ mem)
    exact ⟨web, host_holder⟩
  named v mem _ pid names := by
    obtain rfl := List.mem_singleton.mp (host_views ▸ mem)
    cases names with
    | here => exact host_holder
    | later rest => cases rest
  listable v mem _ pid holder := by
    obtain rfl := List.mem_singleton.mp (host_views ▸ mem)
    obtain rfl := host_holds holder
    exact host_listable

theorem host_lists :
    (∀ v ∈ host.views fullText, v.proto.family.Selected [] →
        Holder host.procs v.inode (host.owner v.inode)) ∧
      main fullText hostOutside ([].map Switch.opt) (some "bin".toList) =
        some (report [] "bin".toList ((host.views fullText).map host.owned)) :=
  main_lists fullText hostOutside [] (some "bin".toList) host host_orderly

end Demo

end Connections
