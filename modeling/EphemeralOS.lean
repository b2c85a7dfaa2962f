import EphemeralOS.Lib.Layout
import EphemeralOS.Lib.Bitmap
import EphemeralOS.Lib.Cache
import EphemeralOS.Lib.Path
import EphemeralOS.Kernel.String
import EphemeralOS.Kernel.Memory
import EphemeralOS.Lib.Moves
import EphemeralOS.Kernel.Copying
import EphemeralOS.Drivers.Disk
import EphemeralOS.Drivers.Ata
import EphemeralOS.Fs.Types
import EphemeralOS.Fs.Block
import EphemeralOS.Fs.Lookup
import EphemeralOS.Fs.Ops
import EphemeralOS.Lib.Directory
import EphemeralOS.Fs.LookupSpec
import EphemeralOS.Lib.Ownership
import EphemeralOS.Lib.Run
import EphemeralOS.Lib.Simulation
import EphemeralOS.Fs.View
import EphemeralOS.Fs.Holding
import EphemeralOS.Fs.Create
import EphemeralOS.Fs.Invariant
import EphemeralOS.Fs.Agree
import EphemeralOS.Fs.Linked
import EphemeralOS.Fs.Remove
import EphemeralOS.Fs.Mkdirs
import EphemeralOS.Fs.Replace
import EphemeralOS.Fs.Change
import EphemeralOS.Fs.Install
import EphemeralOS.Fs.Loading
import EphemeralOS.Fs.Run
import EphemeralOS.Fs.Read
import EphemeralOS.Fs.Accounting
import EphemeralOS.Fs.Stable
import EphemeralOS.Fs.RoundTrip
import EphemeralOS.Fs.Readers
import EphemeralOS.Fs.Files
import EphemeralOS.Fs.Names
import EphemeralOS.Fs.Reboot
import EphemeralOS.Fs.Credentials
import EphemeralOS.Fs.WriteThrough
import EphemeralOS.Fs.Visible
import EphemeralOS.Fs.Undo
import EphemeralOS.Fs.MakePath
import EphemeralOS.Fs.Permanent
import EphemeralOS.Fs.Complete
import EphemeralOS.Fs.Faults
import EphemeralOS.Fs.Walk
import EphemeralOS.Fs.NameBuffers
import EphemeralOS.Fs.Robust
import EphemeralOS.Fs.FailedReads
import EphemeralOS.Fs.Writes
import EphemeralOS.Fs.Territory
import EphemeralOS.Fs.Tree
import EphemeralOS.Fs.TreeOf
import EphemeralOS.Lib.Mixed
import EphemeralOS.Fs.Torn
import EphemeralOS.Fs.TreeChange
import EphemeralOS.Fs.TreeCalls
import EphemeralOS.Fs.Refinement
import EphemeralOS.Fs.PowerCut
import EphemeralOS.Shell.Commands
import EphemeralOS.Shell.WorkingDir
import EphemeralOS.Shell.ParentDir
import EphemeralOS.Shell.PathBuffers
import EphemeralOS.Shell.Session
import EphemeralOS.Shell.TreeShell
import EphemeralOS.Shell.EchoCat
import EphemeralOS.Shell.ParseCommand
import EphemeralOS.Kernel.Login
import EphemeralOS.Lib.Checksum
import EphemeralOS.Lib.Dns
import EphemeralOS.Net.Types
import EphemeralOS.Net.Dns
import EphemeralOS.Net.Parser
import EphemeralOS.Net.Stack
import EphemeralOS.Net.Receive
import EphemeralOS.Net.Bounds
import EphemeralOS.Net.Checksums
import EphemeralOS.Net.Answers
import EphemeralOS.Net.Calls
import EphemeralOS.Net.Query
import EphemeralOS.Net.Literals
import EphemeralOS.Net.NtpTime
import EphemeralOS.Net.Replies
import EphemeralOS.Net.Resolve
import EphemeralOS.Net.Ping
import EphemeralOS.Net.Waits
import EphemeralOS.Drivers.Network
import EphemeralOS.Drivers.RxOffset
import EphemeralOS.Lib.Calendar
import EphemeralOS.Drivers.Rtc
import EphemeralOS.Lib.Rows
import EphemeralOS.Drivers.Screen
import EphemeralOS.Drivers.Keyboard
import EphemeralOS.Kernel.LineEditing
import EphemeralOS.Net.Frames
import EphemeralOS.Net.PacketBuffers
import EphemeralOS.Net.Arp
import EphemeralOS.Net.ArpCache
import EphemeralOS.Net.ColdStart
import EphemeralOS.Net.Nesting
import EphemeralOS.Net.NodeSteps
import EphemeralOS.Net.SentFrames
import EphemeralOS.Lib.Wire
import EphemeralOS.Net.Lan
import EphemeralOS.Kernel.Installer
import EphemeralOS.Kernel.Machine
