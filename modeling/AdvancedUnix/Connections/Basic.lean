import AdvancedUnix.Memory.Word
import AdvancedUnix.Text.Scanf
import AdvancedUnix.Text.Words

/-!
# The entries of the connection tables

The files `/proc/net/tcp`, `tcp6`, `udp` and `udp6` hold one line for each socket
behind a title line. `parse_line` cuts a line into words at its blanks and counts
those that do not start with a newline: the second and the third are the two ends
of the connection, the tenth is the inode of the socket.

Nothing is initialised. An entry keeps what the stack held in every field that is
not stored, the process identifier among them, and of the port, an `unsigned long`,
`%x` stores the lower half only.
-/

namespace Connections

open Memory Text

/-- `struct connection_entry`. -/
structure ConnectionEntry where
  ipProto : List Char
  localAddr : List Char
  localPort : List Char
  remoteAddr : List Char
  remotePort : List Char
  pid : BitVec 32
  inode : BitVec 32
  deriving DecidableEq

/-- What the locals of a call of `parse_addr_port_pair` hold before it. -/
structure Locals where
  sAddr : BitVec 32
  s6Addr : Fin 16 → Byte
  port : Memory.Word

/-- A byte of an `unsigned int` in memory. -/
def octet (a : BitVec 32) (i : Nat) : Byte := a.extractLsb' (8 * i) 8

def decimal (n : Nat) : List Char := numeral lowerDigit 10 n

/-- What `%d` prints. -/
def printD (v : BitVec 32) : List Char :=
  if v.toInt < 0 then '-' :: decimal v.toInt.natAbs else decimal v.toInt.natAbs

/-- `inet_ntop(AF_INET, ..)`: the bytes in memory order. -/
def inetNtop (a : BitVec 32) : List Char :=
  decimal (octet a 0).toNat ++ '.' :: (decimal (octet a 1).toNat ++
    '.' :: (decimal (octet a 2).toNat ++ '.' :: decimal (octet a 3).toNat))

/-- `sscanf(pair, "%x:%x", ..)`: what is stored for each conversion. -/
def scanPair (pair : List Char) : Option (BitVec 32) × Option (BitVec 32) :=
  match scanNumber 16 pair with
  | none => (none, none)
  | some (a, ':' :: rest) => (some (unsigned32 a), (scanNumber 16 rest).map fun p => unsigned32 p.1)
  | some (a, _) => (some (unsigned32 a), none)

/-- An `unsigned int` is stored into an `unsigned long`. -/
def storeLow (held : Memory.Word) (v : Option (BitVec 32)) : Memory.Word :=
  match v with
  | some v => held &&& 0xffffffff00000000 ||| v.setWidth 64
  | none => held

/-- The text of a port. There is room for seven characters. -/
def portStr (port : Memory.Word) : Option (List Char) :=
  let text := if port = 0 then ['*'] else printD (port.setWidth 32)
  if text.length < 8 then some text else none

/-- `parse_addr_port_pair`: the texts of the address and of the port. `ntop6` is
`inet_ntop(AF_INET6, ..)`. -/
def parseAddrPortPair (ntop6 : (Fin 16 → Byte) → List Char) (l : Locals) (pair : List Char)
    (isIpv6 : Bool) : Option (List Char × List Char) :=
  let stored := scanPair pair
  let addr :=
    if isIpv6 then
      ntop6 fun i =>
        if i < 4 then (stored.1.map fun a => octet a i).getD (l.s6Addr i) else l.s6Addr i
    else inetNtop (stored.1.getD l.sAddr)
  (portStr (storeLow l.port stored.2)).map fun port => (addr, port)

section

variable (ntop6 : (Fin 16 → Byte) → List Char) (locals : Nat → Locals) (isIpv6 : Bool)

/-- What `parse_line` does with the word at a position. -/
def parseField (count : Nat) (token : List Char) (entry : ConnectionEntry) :
    Option ConnectionEntry :=
  if count = 1 then
    (parseAddrPortPair ntop6 (locals count) token isIpv6).map fun p =>
      { entry with localAddr := p.1, localPort := p.2 }
  else if count = 2 then
    (parseAddrPortPair ntop6 (locals count) token isIpv6).map fun p =>
      { entry with remoteAddr := p.1, remotePort := p.2 }
  else if count = 9 then
    match scanNumber 10 token with
    | some p => some { entry with inode := signed32 p.1 }
    | none => some entry
  else some entry

/-- The loop over the words, with the number of words so far. -/
def parseTokens : List (List Char) → Nat → ConnectionEntry → Option ConnectionEntry
  | [], _, entry => some entry
  | token :: tokens, count, entry =>
    if token.head? = some '\n' then parseTokens tokens count entry
    else
      (parseField ntop6 locals isIpv6 count token entry).bind
        (parseTokens tokens (count + 1))

/-- `strtok` with a blank as the only delimiter. -/
def isDelim (c : Char) : Bool := c = ' '

/-- `parse_line`. -/
def parseLine (line : List Char) (entry : ConnectionEntry) : Option ConnectionEntry :=
  parseTokens ntop6 locals isIpv6 (words isDelim line) 0 entry

end

/-- The files of connections. -/
inductive Protocol
  | tcp | tcp6 | udp | udp6
  deriving DecidableEq

def Protocol.name : Protocol → String
  | .tcp => "tcp"
  | .tcp6 => "tcp6"
  | .udp => "udp"
  | .udp6 => "udp6"

def Protocol.isIpv6 (p : Protocol) : Bool := p.name = "tcp6" || p.name = "udp6"

/-- What the stack holds when a line is parsed. -/
structure Stack where
  entry : ConnectionEntry
  locals : Nat → Locals

/-- The lines of a file behind its first one. -/
def parseLines (ntop6 : (Fin 16 → Byte) → List Char) (p : Protocol) (stack : Nat → Stack) :
    Nat → List (List Char) → Option (List ConnectionEntry)
  | _, [] => some []
  | lineNum, line :: lines =>
    let entry := { (stack lineNum).entry with ipProto := p.name.toList }
    (parseLine ntop6 (stack lineNum).locals p.isIpv6 line entry).bind fun entry =>
      (parseLines ntop6 p stack (lineNum + 1) lines).map (entry :: ·)

/-- `parse_protocol`: the entries that are put behind the others. A file that is not there
is read through a null pointer. -/
def parseProtocol (ntop6 : (Fin 16 → Byte) → List Char) (p : Protocol) (stack : Nat → Stack)
    (file : Option (List (List Char))) : Option (List ConnectionEntry) :=
  file.bind fun lines => parseLines ntop6 p stack 2 (lines.drop 1)

end Connections
