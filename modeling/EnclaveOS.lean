import EnclaveOS.Arm.ArmElfContents
import EnclaveOS.Arm.ArmElfPages
import EnclaveOS.Arm.ArmFairness
import EnclaveOS.Arm.ArmPmmRuns
import EnclaveOS.Console.AnsiConsole
import EnclaveOS.Console.DoubleBuffer
import EnclaveOS.Console.KeySequences
import EnclaveOS.Console.PaddedIntegers
import EnclaveOS.Console.StoredNames
import EnclaveOS.Console.TextCursor
import EnclaveOS.Console.VgaText
import EnclaveOS.Fs.AppendMode
import EnclaveOS.Fs.ConsoleRuns
import EnclaveOS.Fs.FatClusters
import EnclaveOS.Fs.FatLookups
import EnclaveOS.Fs.FatRead
import EnclaveOS.Fs.InitrdArchive
import EnclaveOS.Fs.LongNameDecoding
import EnclaveOS.Fs.NodeRuns
import EnclaveOS.Heap.HeapAccounts
import EnclaveOS.Heap.HeapComplete
import EnclaveOS.Irq.IrqRuns
import EnclaveOS.Memory.PmmInitSpec
import EnclaveOS.Memory.VmaNodes
import EnclaveOS.Process.CowRuns
import EnclaveOS.Process.ElfConfined
import EnclaveOS.Process.ExecRollback
import EnclaveOS.Process.ExecStack
import EnclaveOS.Process.ForkFailure
import EnclaveOS.Process.FpuRuns
import EnclaveOS.Process.HeapBreak
import EnclaveOS.Process.KernelRuns
import EnclaveOS.Process.KernelStackRuns
import EnclaveOS.Process.MprotectFailure
import EnclaveOS.Process.NameArrays
import EnclaveOS.Process.PageOwners
import EnclaveOS.Process.SleepRuns
import EnclaveOS.Process.VmaPlacement
import EnclaveOS.Process.WaitChild
import EnclaveOS.Process.WxRuns
import EnclaveOS.User.BumpHeap
import EnclaveOS.User.MemoryMoves
import EnclaveOS.User.ShellArgs
import EnclaveOS.User.ShellHistory
import EnclaveOS.User.SortSearch
import EnclaveOS.User.Sprintf
import EnclaveOS.User.StdioRoundTrip
import EnclaveOS.User.StreamPosition
