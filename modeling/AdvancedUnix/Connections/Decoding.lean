import AdvancedUnix.Connections.Basic
import Mathlib.Tactic.IntervalCases

/-!
# The lines of the kernel for IPv4

The kernel prints an address as a number of the processor, whose bytes in memory are
those of the address, and pads the columns with blanks. The parser reads the addresses
and the inode back, and a port that is not 0 as well. Port 0 is written as `*` when the
upper half of the variable for it happens to be zero, and as `0` otherwise.
-/

namespace Connections

open Memory Text

/-- An address by its bytes in network order. -/
structure Ipv4 where
  (a b c d : Byte)

/-- The number with these bytes on a little-endian processor. -/
def Ipv4.word (addr : Ipv4) : BitVec 32 := addr.d ++ addr.c ++ addr.b ++ addr.a

def Ipv4.dotted (addr : Ipv4) : List Char :=
  decimal addr.a.toNat ++ '.' :: (decimal addr.b.toNat ++
    '.' :: (decimal addr.c.toNat ++ '.' :: decimal addr.d.toNat))

/-- What the kernel shows of a socket, up to its inode and behind it. -/
structure Socket where
  sl : Nat
  localAddr : Ipv4
  localPort : BitVec 16
  remoteAddr : Ipv4
  remotePort : BitVec 16
  state : Byte
  txQueue : BitVec 32
  rxQueue : BitVec 32
  timer : Byte
  expires : Memory.Word
  retransmits : BitVec 32
  uid : BitVec 32
  timeout : BitVec 32
  inode : BitVec 32
  more : List Char

/-- The conversion `%0wX`. -/
def hex (width n : Nat) : List Char := padded '0' width (numeral upperDigit 16 n)

theorem spells_hex (width n : Nat) : Spells 16 (hex width n) n :=
  (spells_numeral (by decide) digit_upper n).padded (by decide) width

theorem spells_decimal (n : Nat) : Spells 10 (decimal n) n :=
  spells_numeral (by decide) digit_decimal n

theorem solid_printD (v : BitVec 32) : ∀ c ∈ printD v, isspace c = false := by
  intro c mem
  unfold printD at mem
  split at mem
  · obtain rfl | mem := List.mem_cons.mp mem
    · rfl
    · exact (spells_decimal _).solid c mem
  · exact (spells_decimal _).solid c mem

theorem printD_nonempty (v : BitVec 32) : printD v ≠ [] := by
  unfold printD
  split
  · exact List.cons_ne_nil _ _
  · exact (spells_decimal _).nonempty

def hexToken (width n : Nat) : Token isspace :=
  ⟨hex width n, (spells_hex width n).nonempty, (spells_hex width n).solid⟩

def decimalToken (n : Nat) : Token isspace :=
  ⟨decimal n, (spells_decimal n).nonempty, (spells_decimal n).solid⟩

def intToken (v : BitVec 32) : Token isspace := ⟨printD v, printD_nonempty v, solid_printD v⟩

/-- Two columns with a colon between them. -/
def pairToken (s t : Token isspace) : Token isspace where
  text := s.text ++ ':' :: t.text
  nonempty := by simp
  solid := by
    intro c mem
    simp only [List.mem_append, List.mem_cons] at mem
    obtain mem | rfl | mem := mem
    · exact s.solid c mem
    · rfl
    · exact t.solid c mem

/-- One end of a connection. -/
def endToken (addr : Ipv4) (port : BitVec 16) : Token isspace :=
  pairToken (hexToken 8 addr.word.toNat) (hexToken 4 port.toNat)

/-- The columns behind the first one, each with the width it is padded to. -/
def Socket.columns (s : Socket) : List (Nat × Token isspace) :=
  [(0, endToken s.localAddr s.localPort), (0, endToken s.remoteAddr s.remotePort),
    (0, hexToken 2 s.state.toNat),
    (0, pairToken (hexToken 8 s.txQueue.toNat) (hexToken 8 s.rxQueue.toNat)),
    (0, pairToken (hexToken 2 s.timer.toNat) (hexToken 8 s.expires.toNat)),
    (0, hexToken 8 s.retransmits.toNat), (5, decimalToken s.uid.toNat), (8, intToken s.timeout),
    (0, decimalToken s.inode.toNat)]

/-- A blank and the padding of a column. -/
def padding (width : Nat) (text : List Char) : Gap isDelim where
  text := ' ' :: List.replicate (width - text.length) ' '
  nonempty := List.cons_ne_nil _ _
  separates := by simp [isDelim]

theorem delim_of_space (c : Char) (h : isspace c = false) : isDelim c = false := by
  simp only [isspace, Bool.or_eq_false_iff] at h
  exact h.1

def Socket.spacedColumns (s : Socket) : List (Gap isDelim × Token isDelim) :=
  s.columns.map fun column => (padding column.1 column.2.text, column.2.mono delim_of_space)

/-- The line of a socket; the file of TCP pads its number to four places, that of UDP
to five. -/
def kernelLine (width : Nat) (s : Socket) : List Char :=
  padded ' ' width (decimal s.sl) ++
    ':' :: spaced isDelim (' ' :: s.more) s.spacedColumns

/-- The text of a port in a list of connections. -/
def portText (port : BitVec 16) : List Char := if port = 0 then ['*'] else decimal port.toNat

/-- An entry shows a socket. -/
structure Shows (s : Socket) (entry : ConnectionEntry) : Prop where
  localAddr : entry.localAddr = s.localAddr.dotted
  localPort : entry.localPort = portText s.localPort
  remoteAddr : entry.remoteAddr = s.remoteAddr.dotted
  remotePort : entry.remotePort = portText s.remotePort
  inode : entry.inode = s.inode

theorem words_kernelLine (width : Nat) (s : Socket) :
    words isDelim (kernelLine width s) =
      (decimal s.sl ++ [':']) :: (s.columns.map fun column => column.2.text) ++
        words isDelim (' ' :: s.more) := by
  have ends : ∀ c, (' ' :: s.more).head? = some c → isDelim c = true := by
    rintro c ⟨⟩
    rfl
  have solid : ∀ c ∈ decimal s.sl ++ [':'], isDelim c = false := by
    intro c mem
    obtain mem | mem := List.mem_append.mp mem
    · exact delim_of_space c ((spells_decimal _).solid c mem)
    · obtain rfl := List.mem_singleton.mp mem
      rfl
  have first : kernelLine width s = List.replicate (width - (decimal s.sl).length) ' ' ++
      ((decimal s.sl ++ [':']) ++ spaced isDelim (' ' :: s.more) s.spacedColumns) := by
    simp [kernelLine, padded]
  rw [first, words_seps _ (by simp [isDelim]),
    words_word ⟨decimal s.sl ++ [':'], by simp, solid⟩ (head?_spaced ends _), words_spaced ends]
  rfl

theorem octet_word (addr : Ipv4) : octet addr.word 0 = addr.a ∧ octet addr.word 1 = addr.b ∧
    octet addr.word 2 = addr.c ∧ octet addr.word 3 = addr.d := by
  refine ⟨?_, ?_, ?_, ?_⟩
  all_goals
    apply BitVec.eq_of_getLsbD_eq
    intro i hi
    simp only [octet, Ipv4.word, BitVec.getLsbD_extractLsb', BitVec.getLsbD_append, hi,
      decide_true, Bool.true_and]
    grind

theorem inetNtop_word (addr : Ipv4) : inetNtop addr.word = addr.dotted := by
  obtain ⟨a, b, c, d⟩ := octet_word addr
  rw [inetNtop, a, b, c, d]
  rfl

theorem scanPair_end (addr : Ipv4) (port : BitVec 16) :
    scanPair (endToken addr port).text = (some addr.word, some (port.setWidth 32)) := by
  have colon : Ends 16 (':' :: hex 4 port.toNat) := .cons (digit_none (by decide))
  have plain : ∀ c, (':' :: hex 4 port.toNat).head? = some c → c ≠ 'x' ∧ c ≠ 'X' := by
    rintro c ⟨⟩
    decide
  have address := scanNumber_spells (spells_hex 8 addr.word.toNat) colon plain
  have rest := scanNumber_spells_nil (spells_hex 4 port.toNat)
  show scanPair (hex 8 addr.word.toNat ++ ':' :: hex 4 port.toNat) = _
  simp only [scanPair, address, rest, Option.map_some, unsigned32_toNat _ (Nat.le_refl 32),
    unsigned32_toNat _ (show 16 ≤ 32 by decide), BitVec.setWidth_eq]

/-- The upper half of the variable decides about port 0, the port about the rest. -/
theorem storeLow_eq_zero_iff (held : Memory.Word) (port : BitVec 16) :
    storeLow held (some (port.setWidth 32)) = 0 ↔
      held &&& 0xffffffff00000000 = 0 ∧ port = 0 := by
  have low : (port.setWidth 32).setWidth 64 = 0#64 ↔ port = 0#16 := by
    simp only [← BitVec.toNat_inj, BitVec.toNat_setWidth, BitVec.toNat_ofNat]
    omega
  exact BitVec.or_eq_zero_iff.trans (and_congr_right fun _ => low)

theorem storeLow_low (held : Memory.Word) (port : BitVec 16) :
    (storeLow held (some (port.setWidth 32))).setWidth 32 = port.setWidth 32 := by
  apply BitVec.eq_of_getLsbD_eq
  intro i hi
  simp [storeLow, hi]

theorem printD_port (port : BitVec 16) : printD (port.setWidth 32) = decimal port.toNat := by
  have range := port.isLt
  have value : (port.setWidth 32).toInt = port.toNat := by
    rw [BitVec.toInt_eq_toNat_of_lt] <;> simp only [BitVec.toNat_setWidth] <;> omega
  rw [printD, value, if_neg (by omega), Int.natAbs_natCast]

theorem decimal_length {n : Nat} (h : n < 2 ^ 16) : (decimal n).length < 8 := by
  unfold decimal numeral
  split
  · decide
  · rw [List.length_map, List.length_reverse]
    have := (Nat.digits_length_le_iff (b := 10) (k := 7) (by decide) n).mpr (by omega)
    omega

/-- The text that a port is given. -/
def shownPort (held : Memory.Word) (port : BitVec 16) : List Char :=
  if held &&& 0xffffffff00000000 = 0 ∧ port = 0 then ['*'] else decimal port.toNat

/-- A port is written as its number, or as `*` if it is 0 and so is the upper half of the
variable. -/
theorem portStr_port (held : Memory.Word) (port : BitVec 16) :
    portStr (storeLow held (some (port.setWidth 32))) =
      some (shownPort held port) := by
  have short := decimal_length port.isLt
  unfold portStr shownPort
  simp only [storeLow_eq_zero_iff, storeLow_low, printD_port]
  by_cases star : held &&& 0xffffffff00000000 = 0 ∧ port = 0
  · simp only [if_pos star]
    rfl
  · simp only [if_neg star, if_pos short]

section

variable (ntop6 : (Fin 16 → Byte) → List Char) (locals : Nat → Locals)

theorem parseAddrPortPair_end (l : Locals) (addr : Ipv4) (port : BitVec 16) :
    parseAddrPortPair ntop6 l (endToken addr port).text false =
      some (addr.dotted, shownPort l.port port) := by
  simp [shownPort, parseAddrPortPair, scanPair_end, portStr_port, inetNtop_word]

theorem parseTokens_cons (isIpv6 : Bool) {t : List Char} (solid : ∀ c ∈ t, isspace c = false)
    (ts : List (List Char)) (count : Nat) (e : ConnectionEntry) :
    parseTokens ntop6 locals isIpv6 (t :: ts) count e =
      (parseField ntop6 locals isIpv6 count t e).bind
        (parseTokens ntop6 locals isIpv6 ts (count + 1)) := by
  have counted : t.head? ≠ some '\n' := by
    intro newline
    have := solid _ (List.mem_of_mem_head? newline)
    cases this
  rw [parseTokens, if_neg counted]

/-- Behind the inode nothing is stored. -/
theorem parseTokens_rest (isIpv6 : Bool) (ts : List (List Char)) {count : Nat} (h : 10 ≤ count)
    (e : ConnectionEntry) : parseTokens ntop6 locals isIpv6 ts count e = some e := by
  induction ts generalizing count with
  | nil => rfl
  | cons t ts ih =>
      rw [parseTokens]
      split
      · exact ih h
      · rw [parseField, if_neg (by omega), if_neg (by omega), if_neg (by omega)]
        exact ih (by omega)

theorem parseLine_kernelLine (width : Nat) (s : Socket) (held : ConnectionEntry) :
    parseLine ntop6 locals false (kernelLine width s) held =
      some { held with
        localAddr := s.localAddr.dotted
        localPort := shownPort (locals 1).port s.localPort
        remoteAddr := s.remoteAddr.dotted
        remotePort := shownPort (locals 2).port s.remotePort
        inode := s.inode } := by
  have inode := scanNumber_spells_nil (spells_decimal s.inode.toNat)
  rw [parseLine, words_kernelLine, List.cons_append, parseTokens_cons ntop6 locals false ?_]
  · simp only [Socket.columns, List.map_cons, List.map_nil, List.cons_append, List.nil_append,
      parseTokens_cons ntop6 locals false (Token.solid _)]
    have number : scanNumber 10 (decimalToken s.inode.toNat).text =
        some ((s.inode.toNat : Int), []) := inode
    simp [parseField, parseAddrPortPair_end, number, signed32_toNat, parseTokens_rest]
  · intro c mem
    obtain mem | mem := List.mem_append.mp mem
    · exact (spells_decimal _).solid c mem
    · obtain rfl := List.mem_singleton.mp mem
      rfl

/-- The text is the right one unless it is the number of port 0. -/
theorem shownPort_eq_iff (held : Memory.Word) (port : BitVec 16) :
    shownPort held port = portText port ↔ port ≠ 0 ∨ held &&& 0xffffffff00000000 = 0 := by
  unfold shownPort portText
  by_cases zero : port = 0
  · subst zero
    rw [if_pos rfl]
    by_cases clear : held &&& 0xffffffff00000000 = 0
    · rw [if_pos ⟨clear, rfl⟩]
      exact iff_of_true rfl (.inr clear)
    · rw [if_neg fun h => clear h.1]
      exact iff_of_false (by decide) fun h => h.elim (fun nonzero => nonzero rfl) clear
  · rw [if_neg zero, if_neg fun h => zero h.2]
    exact iff_of_true rfl (.inl zero)

/-- The line of a socket is decoded exactly when no end has port 0 with something left in
the upper half of the variable for it. -/
theorem kernelLine_shows_iff (width : Nat) (s : Socket) (held : ConnectionEntry) :
    (∃ entry, parseLine ntop6 locals false (kernelLine width s) held = some entry ∧
        Shows s entry) ↔
      (s.localPort ≠ 0 ∨ (locals 1).port &&& 0xffffffff00000000 = 0) ∧
        (s.remotePort ≠ 0 ∨ (locals 2).port &&& 0xffffffff00000000 = 0) := by
  rw [parseLine_kernelLine, ← shownPort_eq_iff, ← shownPort_eq_iff]
  constructor
  · rintro ⟨entry, ⟨⟩, shows⟩
    exact ⟨shows.localPort, shows.remotePort⟩
  · rintro ⟨localPort, remotePort⟩
    exact ⟨_, rfl, rfl, localPort, rfl, remotePort, rfl⟩

/-- The entries of a file of IPv4 sockets have their inodes, in order. -/
theorem parseProtocol_inodes {p : Protocol} (ipv4 : p.isIpv6 = false) (stack : Nat → Stack)
    (title : List Char) (width : Nat) (sockets : List Socket) :
    ∃ entries, parseProtocol ntop6 p stack (some (title :: sockets.map (kernelLine width))) =
        some entries ∧
      entries.map ConnectionEntry.inode = sockets.map Socket.inode := by
  have parsed : ∀ lineNum, ∃ entries,
      parseLines ntop6 p stack lineNum (sockets.map (kernelLine width)) = some entries ∧
        entries.map ConnectionEntry.inode = sockets.map Socket.inode := by
    induction sockets with
    | nil => exact fun _ => ⟨[], rfl, rfl⟩
    | cons s sockets ih =>
        intro lineNum
        obtain ⟨entries, rest, inodes⟩ := ih (lineNum + 1)
        rw [List.map_cons, parseLines, ipv4]
        simp only [parseLine_kernelLine, Option.bind_some, rest, Option.map_some]
        exact ⟨_, rfl, by rw [List.map_cons, List.map_cons, inodes]⟩
  exact parsed 2

end

namespace Demo

/-- A web server that listens on every address. -/
def listening : Socket where
  sl := 0
  localAddr := ⟨0, 0, 0, 0⟩
  localPort := 80
  remoteAddr := ⟨0, 0, 0, 0⟩
  remotePort := 0
  state := 0x0a
  txQueue := 0
  rxQueue := 0
  timer := 0
  expires := 0
  retransmits := 0
  uid := 0
  timeout := 0
  inode := 21453
  more := "1 0000000000000000 100 0 0 10 0\n".toList

/-- Variables that hold a pointer into the stack. -/
def stackLocals (_ : Nat) : Locals := ⟨0, fun _ => 0, 0x00007ffd1c2e4a90⟩

def blankEntry : ConnectionEntry := ⟨[], [], [], [], [], 0, 0⟩

theorem listening_not_shown :
    ¬ ∃ entry, parseLine (fun _ => []) stackLocals false (kernelLine 4 listening) blankEntry =
      some entry ∧ Shows listening entry := by
  rintro ⟨entry, parsed, shows⟩
  rw [parseLine_kernelLine] at parsed
  obtain rfl := Option.some.inj parsed
  have remote : shownPort (stackLocals 2).port listening.remotePort = portText 0 :=
    shows.remotePort
  exact absurd remote (by decide)

end Demo

end Connections
