import SpondMiner.Lib.Transition
import SpondMiner.Lib.Threads
import SpondMiner.HostSw.Types
import SpondMiner.HostSw.Model
import SpondMiner.HostSw.Locks
import SpondMiner.HostSw.Stacks
import SpondMiner.HostSw.Deadlock
import SpondMiner.HostSw.Acknowledge
import SpondMiner.HostSw.Accounting
import SpondMiner.HostSw.Fake
import SpondMiner.Lib.Script
import SpondMiner.Upgrade.SwUpgrade
import SpondMiner.Upgrade.UpgradeSoftware
import SpondMiner.Lib.Records
import SpondMiner.Netlink.Listen
import SpondMiner.Lib.Sha256
import SpondMiner.HashBlock.Buffers
import SpondMiner.HashBlock.Agree
import SpondMiner.Runner.Model
import SpondMiner.Runner.Order
import SpondMiner.Runner.Moves
import SpondMiner.Runner.StartSteps
import SpondMiner.Runner.StopSteps
import SpondMiner.Runner.Steps
import SpondMiner.Runner.OneEngine
import SpondMiner.Runner.StopMg
import SpondMiner.HostSw.Heard
import SpondMiner.HostSw.Capacity
import SpondMiner.HashBlock.Command
import SpondMiner.HostSw.Encode
import SpondMiner.Vpd.Eeprom
import SpondMiner.HostSw.Lines
import SpondMiner.Lib.Json
import SpondMiner.Lib.Patterns
import SpondMiner.Wifi.ScanParse
import SpondMiner.Wifi.ScanJson
import SpondMiner.HostSw.Leading
import SpondMiner.Runner.MiningWatchdog
import SpondMiner.HashBlock.Padding
import SpondMiner.Netlink.Bounds
import SpondMiner.Netlink.Names
import SpondMiner.HostSw.Decode
import SpondMiner.Fleet.Versions
import SpondMiner.Boot.Mount
import SpondMiner.Fleet.UpdateImage
import SpondMiner.Lib.ConfLines
import SpondMiner.Wifi.ConfCreate
import SpondMiner.Wifi.ScanFrame
import SpondMiner.Wifi.Security
import SpondMiner.Wifi.ScanNames
import SpondMiner.Fleet.CustomMode
import SpondMiner.Fleet.Redo
import SpondMiner.Fleet.ScanList
import SpondMiner.Fleet.ApplyOnIps
import SpondMiner.Fleet.JobLoop
import SpondMiner.Fleet.Inpar
import SpondMiner.HashBlock.BaseUint
import SpondMiner.HashBlock.BaseHex
import SpondMiner.Jam.Jtag
import SpondMiner.Jam.InSync
import SpondMiner.Jam.Exchange
import SpondMiner.Jam.Crc
import SpondMiner.Jam.CrcSeal
import SpondMiner.Jam.Uncompress
import SpondMiner.Jam.Streams
import SpondMiner.Jam.Arrays
import SpondMiner.Jam.ArrayText
import SpondMiner.Jam.ArrayStreams
import SpondMiner.Jam.Symbols
import SpondMiner.Jam.SymbolRuns
import SpondMiner.Jam.SymbolScope
import SpondMiner.Jam.Stack
import SpondMiner.Jam.Loops
