import Voxel.Lib.NamedList
import Voxel.Lib.Run
import Voxel.Lib.Segment
import Voxel.Kernel.Tree
import Voxel.Kernel.Process
import Voxel.Proofs.ReadyQueue
import Voxel.Proofs.Scheduler
import Voxel.Proofs.WaitStatus
import Voxel.Kernel.PageEntry
import Voxel.Lib.Loop
import Voxel.Kernel.Frames
import Voxel.Kernel.Mmu
import Voxel.Kernel.Memory
import Voxel.Lib.Sharing
import Voxel.Proofs.PageTables
import Voxel.Proofs.AddressSpaces
import Voxel.Proofs.Clone
import Voxel.Proofs.Free
import Voxel.Proofs.CopyOnWrite
import Voxel.Proofs.UserStores
import Voxel.Proofs.RefCounts
import Voxel.Proofs.ForkIsolation
import Voxel.Kernel.Heap
import Voxel.Proofs.HeapSharing
import Voxel.Proofs.Break
import Voxel.Lib.ByteMemory
import Voxel.Lib.X64
import Voxel.Kernel.Interrupts
import Voxel.Proofs.ContextSwitch
import Voxel.Lib.CString
import Voxel.Kernel.Vfs
import Voxel.Proofs.PathWalk
import Voxel.Proofs.PathResolution
import Voxel.Proofs.PathSlashes
import Voxel.Kernel.Alloc
import Voxel.Kernel.Tmpfs
import Voxel.Lib.Ownership
import Voxel.Proofs.TmpfsFrames
import Voxel.Proofs.TmpfsWrite
import Voxel.Proofs.TmpfsBlocks
import Voxel.Kernel.FileCalls
import Voxel.Proofs.TmpfsSeek
import Voxel.Lib.LittleEndian
import Voxel.Kernel.Ramdisk
import Voxel.Tool.Mkvfs
import Voxel.Proofs.RamdiskLayout
import Voxel.Proofs.RamdiskRead
import Voxel.Proofs.RamdiskOrder
import Voxel.Lib.FileTree
import Voxel.Kernel.CopyDirectory
import Voxel.Proofs.TmpfsProgress
import Voxel.Proofs.TmpfsAdds
import Voxel.Proofs.DirectoryMap
import Voxel.Proofs.BootTrees
import Voxel.Proofs.BootCopy
import Voxel.Kernel.PathCreate
import Voxel.Proofs.CreateByPath
import Voxel.Proofs.UserRange
import Voxel.Kernel.FrameRuns
import Voxel.Proofs.FirstFit
import Voxel.Proofs.AllocFailure
import Voxel.Lib.BoundedQueue
import Voxel.Kernel.RingBuffer
import Voxel.Kernel.ProcessMemory
import Voxel.Kernel.Execve
import Voxel.Proofs.RingQueue
import Voxel.Proofs.PageMap
import Voxel.Proofs.FrameExhaustion
import Voxel.Kernel.HeapBytes
import Voxel.Proofs.HeapBlocks
import Voxel.Proofs.HeapCalls
import Voxel.Kernel.Translation
import Voxel.Proofs.CloneFrames
import Voxel.Proofs.FreeTables
import Voxel.Proofs.CloneThenFree
import Voxel.Proofs.HeldBlocks
import Voxel.Proofs.ProcessChurn
import Voxel.Proofs.Execve
import Voxel.Proofs.Unlink
import Voxel.Kernel.Pty
import Voxel.Proofs.PtyWrite
import Voxel.Proofs.TmpfsRead
import Voxel.Proofs.TmpfsContents
import Voxel.Kernel.OpenFiles
import Voxel.Proofs.OpenFiles
import Voxel.Proofs.SeenLengths
import Voxel.Proofs.Appends
import Voxel.Proofs.OpenUnlinked
import Voxel.Proofs.ReapOnce
import Voxel.Lib.DoubleList
import Voxel.Kernel.ProcessTree
import Voxel.Proofs.TreeHeap
import Voxel.Proofs.TreeInsert
import Voxel.Proofs.TreeRemoval
import Voxel.Libc.Stdio
import Voxel.Libc.RegularFile
import Voxel.Proofs.BufferedWrite
import Voxel.Proofs.CheckedRights
import Voxel.Lib.Pushback
import Voxel.Lib.IndexScan
import Voxel.Proofs.BufferedRead
import Voxel.Proofs.StreamPosition
import Voxel.Proofs.RegularFile
import Voxel.Proofs.DirectoryScan
import Voxel.Proofs.ForkDescriptors
import Voxel.Kernel.Dirent
import Voxel.Proofs.NameCopies
import Voxel.Kernel.StatCalls
import Voxel.Proofs.StatReveals
import Voxel.Kernel.PathBlocks
import Voxel.Proofs.PathRelease
import Voxel.Proofs.PtyTranslation
import Voxel.Proofs.FrameWords
import Voxel.Proofs.TmpfsSplice
import Voxel.Libc.Malloc
import Voxel.Proofs.ProcessHeap
import Voxel.Lib.Transcript
import Voxel.Proofs.DescriptorStreams
import Voxel.Libc.OpenStreams
import Voxel.Proofs.OpenStreams
import Voxel.Lib.Format
import Voxel.Libc.Printf
import Voxel.Kernel.Kprintf
import Voxel.Proofs.FormatScan
import Voxel.Kernel.UserStack
import Voxel.Proofs.UserStackBounds
import Voxel.Libc.Main
import Voxel.Kernel.ProcessDelete
import Voxel.Proofs.ProcessDelete
import Voxel.Kernel.Dup2
import Voxel.Proofs.Dup2
import Voxel.Lib.TracedMemory
import Voxel.Kernel.Readlink
import Voxel.Proofs.Readlink
import Voxel.Proofs.OpenMode
import Voxel.Proofs.LineInput
import Voxel.Lib.Numeral
import Voxel.Libc.PrintfText
import Voxel.Proofs.PrintfText
import Voxel.Proofs.PrintfRun
import Voxel.Proofs.PrintfNumbers
import Voxel.Proofs.PrintfBuffer
import Voxel.Proofs.UserStackImage
import Voxel.Proofs.ArgumentPassing
import Voxel.Proofs.PointerCalls
import Voxel.Kernel.Terminals
import Voxel.Proofs.TerminalPaths
import Voxel.Proofs.Terminals
import Voxel.Kernel.IntStr
import Voxel.Proofs.IntStr
import Voxel.Proofs.ScratchBuffers
import Voxel.Proofs.KprintfUnsigned
import Voxel.Proofs.IntStrPadding
import Voxel.Kernel.Stdlib
import Voxel.Proofs.ItoaAtoi
import Voxel.Proofs.SlaveReads
import Voxel.Proofs.PtsDirectory
import Voxel.Proofs.MkvfsProgress
import Voxel.Proofs.RamdiskBounds
import Voxel.Proofs.RamdiskChecked
import Voxel.Kernel.Multiboot
import Voxel.Proofs.BootFrames
import Voxel.Lib.MaximalRun
import Voxel.Libc.Strtok
import Voxel.Proofs.StrtokWords
import Voxel.Lib.PagedMemory
import Voxel.Kernel.ElfLoad
import Voxel.Proofs.ElfRange
import Voxel.Lib.Occurrence
import Voxel.Lib.RangeCopy
import Voxel.Kernel.Strings
import Voxel.Proofs.StringFunctions
import Voxel.Kernel.TreeFrees
import Voxel.Proofs.TreeFrees
import Voxel.Lib.SuffixCount
import Voxel.Proofs.UserCount
import Voxel.Kernel.LfbTerminal
import Voxel.Proofs.ConsoleOutput
import Voxel.Userspace.Sh
import Voxel.Lib.LineRead
import Voxel.Proofs.ShellLine
import Voxel.Proofs.ShellRounds
import Voxel.Proofs.LoadPages
import Voxel.Proofs.ElfSegments
import Voxel.Proofs.TwinMemory
import Voxel.Proofs.FreshMemory
import Voxel.Proofs.BootPipeline
import Voxel.Proofs.ForkReturns
import Voxel.Proofs.InterruptTables
import Voxel.Kernel.MmuInit
import Voxel.Proofs.KernelMemory
import Voxel.Proofs.HeapPages
import Voxel.Proofs.InitTables
import Voxel.Proofs.MmuInit
