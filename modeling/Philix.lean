import Philix.Lib.Lts
import Philix.Lib.HalfRing
import Philix.Lib.Curses
import Philix.Console.State
import Philix.Console.Scrollup
import Philix.Console.History
import Philix.Console.Scroll
import Philix.Console.Draw
import Philix.Console.Dump
import Philix.Console.MainLoop
import Philix.Console.Reach
import Philix.Console.DumpLoss
import Philix.Console.View
import Philix.Console.ViewLive
import Philix.Console.ViewOffset
import Philix.Console.ScrollSafe
import Philix.Console.Screen
import Philix.Console.TermSize
import Philix.Mailbox.Protocol
import Philix.Mailbox.LockStep
import Philix.Mailbox.Order
import Philix.Winky.Term
import Philix.Winky.Sheet
import Philix.Transcript
import Philix.Console.CharUpdate
import Philix.Display
import Philix.Lib.ByteMem
import Philix.Lib.Traced
import Philix.Inky.Lib
import Philix.Inky.Move
import Philix.Inky.Elf64
import Philix.Inky.Loader
import Philix.Inky.Frozen
import Philix.Inky.Contents
import Philix.Inky.Rounds
import Philix.Inky.KernelLoad
import Philix.Inky.Overwrite
import Philix.Inky.Sample
import Philix.Inky.Placement
import Philix.Inky.Rebase
import Philix.Inky.Accesses
import Philix.Inky.Bounds
import Philix.Inky.RoundAccesses
import Philix.Inky.DynamicChoice
import Philix.Inky.ImageReads
import Philix.Inky.RegionWrites
import Philix.Inky.SegmentContents
import Philix.Confined
import Philix.Inky.RelocateTwice
import Philix.Inky.BootTables
import Philix.CellEncoding
import Philix.Console.FrontEnds
import Philix.Inky.FindModule
import Philix.Lib.Scan
import Philix.Lib.CLiteral
import Philix.Mbgen.Generator
import Philix.Mbgen.Lines
import Philix.Mbgen.Entries
import Philix.Mbgen.MenuFile
import Philix.Mbgen.Leak
import Philix.Mbgen.RoundTrip
import Philix.Mbgen.GetMultiboot
import Philix.Mbgen.Reflects
import Philix.Lib.Bump
import Philix.Inky.LinearAlloc
import Philix.Inky.VirtualBase
import Philix.Winky.BootTables
import Philix.Winky.ElapsedTime
import Philix.Lib.Fair
import Philix.Mailbox.Liveness
import Philix.Mailbox.Delivery
import Philix.BatchLog
import Philix.Console.Interrupt
import Philix.BootChain
import Philix.Inky.BootParams
import Philix.Inky.Entry
import Philix.Inky.Patcher
import Philix.Lifecycle
import Philix.Winky.Stores
import Philix.SharedMemory
import Philix.EndToEnd
import Philix.SboxDump
import Philix.Inky.SectionName
import Philix.BootToMain
import Philix.Completion
import Philix.LiveWindow
import Philix.BootToShutdown
