import AdvancedUnix.Sdb.Transparency
import AdvancedUnix.Sdb.Reporting
import AdvancedUnix.Sdb.Liveness
import AdvancedUnix.Sdb.Stuck
import AdvancedUnix.Sdb.Agreement
import AdvancedUnix.Sdb.Inspection
import AdvancedUnix.Sdb.Table
import AdvancedUnix.Sdb.CommandLine
import AdvancedUnix.Sdb.Rejected
import AdvancedUnix.Sdb.Loop
import AdvancedUnix.Sdb.Translation
import AdvancedUnix.Sdb.Description
import AdvancedUnix.Sdb.Sweep
import AdvancedUnix.Sdb.Static
import AdvancedUnix.Sdb.Hiding
import AdvancedUnix.Sdb.Planting
import AdvancedUnix.Sdb.Dump
import AdvancedUnix.Sdb.Registers
import AdvancedUnix.Sdb.Names
import AdvancedUnix.Sdb.Vmmap
import AdvancedUnix.Sdb.Replay
import AdvancedUnix.Sdb.Ownership
import AdvancedUnix.Elf.Symbols
import AdvancedUnix.Libmini.Account
import AdvancedUnix.Libmini.WrapperLaw
import AdvancedUnix.Libmini.SigactionLaw
import AdvancedUnix.Libmini.Sleep
import AdvancedUnix.Libmini.Memcpy
import AdvancedUnix.Libmini.Perror
import AdvancedUnix.Fsmon.Forwarding
import AdvancedUnix.Fsmon.Newline
import AdvancedUnix.Fsmon.Names
import AdvancedUnix.Fsmon.Stat
import AdvancedUnix.Fsmon.Readback
import AdvancedUnix.Connections.Attribution
import AdvancedUnix.Connections.Ipv6
import AdvancedUnix.Connections.Listing
import AdvancedUnix.Connections.Buffers
import AdvancedUnix.Connections.Main
