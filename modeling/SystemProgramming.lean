import SystemProgramming.Lib.Run
import SystemProgramming.Lib.Chain
import SystemProgramming.Lib.Forest
import SystemProgramming.FileServer.Transfer
import SystemProgramming.ProcessTree.PrintTree
import SystemProgramming.SharedTransfer.Completion
import SystemProgramming.SharedTransfer.Interrupts
import SystemProgramming.Shell.Pipeline
import SystemProgramming.Popen.Delivery
import SystemProgramming.Popen.Reaping
import SystemProgramming.Popen.ReadTests
import SystemProgramming.Broadcast.Lossless
import SystemProgramming.Broadcast.Reports
import SystemProgramming.Broadcast.Timeout
import SystemProgramming.Broadcast.Bounds
import SystemProgramming.Signals.SystemV
import SystemProgramming.SeqNum.Ranges
import SystemProgramming.SeqNum.Progress
import SystemProgramming.SeqNum.Framing
import SystemProgramming.SeqNum.Served
import SystemProgramming.QueueServer.Isolation
import SystemProgramming.QueueServer.Transfer
import SystemProgramming.Dictionary.RoundTrip
import SystemProgramming.Dictionary.Replies
import SystemProgramming.Dictionary.Udp
import SystemProgramming.Dictionary.Versions
import SystemProgramming.Dictionary.Client
import SystemProgramming.Dictionary.Disk
import SystemProgramming.Dictionary.Requests
import SystemProgramming.Dictionary.AnyFile
import SystemProgramming.CharDevice.Exclusive
import SystemProgramming.CharDevice.Offsets
import SystemProgramming.Shell.Input
import SystemProgramming.Shell.Background
import SystemProgramming.Shell.Builtins
import SystemProgramming.Shell.Meaning
import SystemProgramming.SmallShell.RunCommand
import SystemProgramming.Monitor.Coverage
import SystemProgramming.Monitor.Renames
import SystemProgramming.Threads.Mistimed
import SystemProgramming.Upper.Exchange
import SystemProgramming.ProcessTree.Depth
import SystemProgramming.ProcessTree.Cycles
import SystemProgramming.ProcessTree.Hiding
import SystemProgramming.ProcessTree.Start
import SystemProgramming.ProcessTree.Users
import SystemProgramming.ProcessTree.Snapshot
import SystemProgramming.ProcessTree.PsText
import SystemProgramming.ProcessTree.Truncation
import SystemProgramming.ProcessTree.Drawing
import SystemProgramming.MappedFile.Copy
import SystemProgramming.MappedFile.Lifetime
import SystemProgramming.Alarm.Agreement
import SystemProgramming.SigSpeed.Turns
import SystemProgramming.FileServer.Projection
import SystemProgramming.Broadcast.Program
import SystemProgramming.SharedTransfer.Startup
import SystemProgramming.Lib.Strtol
import SystemProgramming.GetNum.Model
import SystemProgramming.ProcDir.Listing
import SystemProgramming.Shell.Composition
import SystemProgramming.Dictionary.Sessions
import SystemProgramming.ProcessTree.Descendants
import SystemProgramming.MappedFile.Vectors
