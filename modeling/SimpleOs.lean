import SimpleOs.Lib.ByteMemory
import SimpleOs.Lib.Word
import SimpleOs.Lib.Access
import SimpleOs.Lib.Fields
import SimpleOs.Lib.Checksum
import SimpleOs.Lib.Ownership
import SimpleOs.Lib.Links
import SimpleOs.Lib.Radix
import SimpleOs.Lib.X86
import SimpleOs.Lib.Spill
import SimpleOs.Lib.Delivery
import SimpleOs.Lib.Paging
import SimpleOs.Lib.Ring
import SimpleOs.Lib.CString
import SimpleOs.Lib.Recall
import SimpleOs.Lib.Draft
import SimpleOs.Lib.Prefix
import SimpleOs.Lib.Text
import SimpleOs.Lib.Numeral
import SimpleOs.Lib.Words
import SimpleOs.Lib.Ports
import SimpleOs.Io
import SimpleOs.Lib.PortDevice
import SimpleOs.Lib.Pic8259
import SimpleOs.Lib.Chipset
import SimpleOs.Lib.Raster
import SimpleOs.Lib.TextScreen
import SimpleOs.BootInfo
import SimpleOs.Mm.Heap
import SimpleOs.Mm.Pmm
import SimpleOs.Mm.Vmm
import SimpleOs.Proc.Process
import SimpleOs.Proc.Context
import SimpleOs.Proc.Scheduler
import SimpleOs.Cpu.Syscall
import SimpleOs.Cpu.Isr
import SimpleOs.Cpu.Interrupt
import SimpleOs.Boot.BootKernel
import SimpleOs.Boot.Graphics
import SimpleOs.Net.Packet
import SimpleOs.Drivers.Keyboard
import SimpleOs.Cpu.Irq
import SimpleOs.Drivers.Virtqueue
import SimpleOs.Drivers.VirtioNet
import SimpleOs.Drivers.VirtioNetInit
import SimpleOs.Drivers.VirtioNetRecv
import SimpleOs.Console
import SimpleOs.Framebuffer
import SimpleOs.Shell.History
import SimpleOs.Shell.Readline
import SimpleOs.Numerals
import SimpleOs.Shell.Execute
import SimpleOs.Proof.PmmPages
import SimpleOs.Proof.PmmAlloc
import SimpleOs.Proof.PmmOwnership
import SimpleOs.Proof.PmmAccounting
import SimpleOs.Proof.PmmRejected
import SimpleOs.Proof.BootMap
import SimpleOs.Proof.BootBuffer
import SimpleOs.Proof.MemoryBar
import SimpleOs.Proof.PageUsers
import SimpleOs.Proof.HeapFields
import SimpleOs.Proof.HeapChain
import SimpleOs.Proof.HeapBlocks
import SimpleOs.Proof.HeapEdit
import SimpleOs.Proof.HeapOps
import SimpleOs.Proof.HeapRun
import SimpleOs.Proof.HeapIsolation
import SimpleOs.Proof.HeapCanonical
import SimpleOs.Proof.HeapRealloc
import SimpleOs.Proof.HeapFit
import SimpleOs.Proof.HeapGaps
import SimpleOs.Proof.HeapAligned
import SimpleOs.Proof.HeapAlignedFree
import SimpleOs.Proof.HeapShrink
import SimpleOs.Proof.HeapReallocData
import SimpleOs.Proof.HeapDoubleFree
import SimpleOs.Proof.VmmEntries
import SimpleOs.Proof.VmmTree
import SimpleOs.Proof.VmmMap
import SimpleOs.Proof.VmmHardware
import SimpleOs.Proof.VmmLevels
import SimpleOs.Proof.VmmTranslate
import SimpleOs.Proof.VmmUnmap
import SimpleOs.Proof.VmmPermissions
import SimpleOs.Proof.VmmSpaces
import SimpleOs.Proof.SchedView
import SimpleOs.Proof.SchedOps
import SimpleOs.Proof.SchedCalls
import SimpleOs.Proof.SchedRun
import SimpleOs.Proof.SchedComplete
import SimpleOs.Proof.SchedChoice
import SimpleOs.Proof.SchedBitmap
import SimpleOs.Proof.SchedFrame
import SimpleOs.Proof.SchedRunning
import SimpleOs.Proof.SchedExit
import SimpleOs.Proof.SchedRoundRobin
import SimpleOs.Proof.SchedSleep
import SimpleOs.Proof.SchedWake
import SimpleOs.Proof.ProcLife
import SimpleOs.Proof.SchedIdle
import SimpleOs.Proof.ProcTable
import SimpleOs.Proof.ContextSwitch
import SimpleOs.Proof.ContextLayout
import SimpleOs.Proof.Preemption
import SimpleOs.Proof.SyscallEntry
import SimpleOs.Proof.InterruptFrame
import SimpleOs.Proof.EntryAlignment
import SimpleOs.Proof.PacketBounds
import SimpleOs.Proof.InternetChecksum
import SimpleOs.Proof.PingReply
import SimpleOs.Proof.KeyboardFifo
import SimpleOs.Proof.VirtqOwnership
import SimpleOs.Proof.TxBuffers
import SimpleOs.Proof.TxSupply
import SimpleOs.Proof.RxBuffers
import SimpleOs.Proof.RxDelivery
import SimpleOs.Proof.HistoryList
import SimpleOs.Proof.ConsoleColumns
import SimpleOs.Proof.LineEditing
import SimpleOs.Proof.HistoryBrowsing
import SimpleOs.Proof.ModifierKeys
import SimpleOs.Proof.ConsoleBounds
import SimpleOs.Proof.NumberParsing
import SimpleOs.Proof.NumberPrinting
import SimpleOs.Proof.Tokenizing
import SimpleOs.Proof.EchoCommand
import SimpleOs.Proof.HexDump
import SimpleOs.Proof.FramebufferImage
import SimpleOs.Proof.Terminal
import SimpleOs.Proof.IrqDelivery
import SimpleOs.Proof.IrqRuns
import SimpleOs.Shell.Commands
import SimpleOs.Shell.Run
import SimpleOs.Shell.Session
import SimpleOs.Proof.ShellSession
import SimpleOs.Proof.ShellProgress
import SimpleOs.Lib.Answers
import SimpleOs.Proof.ArpReply
import SimpleOs.Proof.ReplyStorm
import SimpleOs.Net.Poll
import SimpleOs.Proof.PollDrain
import SimpleOs.Lib.PciConfig
import SimpleOs.Drivers.Pci
import SimpleOs.Proof.PciScan
import SimpleOs.Lib.VirtioCard
import SimpleOs.Proof.CardInit
