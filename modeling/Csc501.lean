import Csc501.Lib.Run
import Csc501.Lib.Simulation
import Csc501.Lib.CText
import Csc501.Lib.CMem
import Csc501.Lib.NameTree
import Csc501.Lib.CBuf
import Csc501.Lib.Fuel
import Csc501.Lib.Chain
import Csc501.Lib.Forest
import Csc501.Lib.Countdown
import Csc501.Lib.Blocks
import Csc501.Threads.Queue
import Csc501.Threads.LinkedQueue
import Csc501.Threads.Pointers
import Csc501.Threads.Sched
import Csc501.Threads.Conserve
import Csc501.Threads.Semaphore
import Csc501.Threads.Mutex
import Csc501.Threads.Join
import Csc501.Threads.Dispatch
import Csc501.Threads.JoinResult
import Csc501.Threads.Spawn
import Csc501.Threads.InMemory
import Csc501.Threads.Program
import Csc501.Threads.Fib
import Csc501.Threads.Passing
import Csc501.Potato.Message
import Csc501.Potato.Wire
import Csc501.Potato.Send
import Csc501.Potato.Player
import Csc501.Potato.Master
import Csc501.Potato.Game
import Csc501.Potato.Safety
import Csc501.Potato.Codec
import Csc501.Potato.Choice
import Csc501.Potato.Itoa
import Csc501.Potato.Liveness
import Csc501.Potato.Trace
import Csc501.Ramdisk.Path
import Csc501.Ramdisk.Dirs
import Csc501.Ramdisk.Disk
import Csc501.Ramdisk.Tree
import Csc501.Ramdisk.Write
import Csc501.Ramdisk.Change
import Csc501.Ramdisk.Space
import Csc501.Ramdisk.Contents
import Csc501.Ramdisk.Names
import Csc501.Ramdisk.Namespace
import Csc501.Ramdisk.Calls
import Csc501.Ramdisk.Unique
import Csc501.Ramdisk.Frame
import Csc501.Ramdisk.Cleanup
import Csc501.Ramdisk.DataField
import Csc501.Ramdisk.Parents
import Csc501.Ramdisk.Chunks
import Csc501.Ramdisk.Kernel
import Csc501.Ramdisk.Blocks
import Csc501.Ramdisk.Inverse
import Csc501.Ramdisk.Mount
import Csc501.Ramdisk.Memory
import Csc501.Ramdisk.Linked
import Csc501.Shell.Lex
import Csc501.Shell.WordBuffer
import Csc501.Shell.Words
import Csc501.Shell.Parse
import Csc501.Shell.WellFormed
import Csc501.Shell.Returns
import Csc501.Shell.Lines
import Csc501.Shell.Render
import Csc501.Shell.Exec
import Csc501.Shell.Wiring
import Csc501.Shell.InShell
import Csc501.Shell.SearchPath
import Csc501.Shell.Nice
import Csc501.Shell.Automaton
import Csc501.Shell.Reader
import Csc501.Shell.EndOfInput
import Csc501.Shell.Errors
import Csc501.Shell.Crossing
import Csc501.Shell.Reports
import Csc501.Shell.Separators
import Csc501.Shell.Session
import Csc501.Shell.Builtins
import Csc501.Shell.Storage
