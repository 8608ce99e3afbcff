import MinicOs.Mm.FrameBitmap
import MinicOs.Mm.HeapCalls
import MinicOs.Mm.HeapRuns
import MinicOs.Security.KeyWrap
import MinicOs.Ipc.FileCursor
import MinicOs.Ipc.Pipe
import MinicOs.Proc.Concurrent
import MinicOs.Proc.KernelWrites
import MinicOs.Fs.Crash
import MinicOs.Syscall.Atomicity
import MinicOs.Syscall.NewProcess
import MinicOs.Syscall.OpenClose
import MinicOs.Syscall.PathBuffers
import MinicOs.Syscall.Restriction
import MinicOs.Syscall.SignedImages
import MinicOs.Gfx.PngBlocks
import MinicOs.Gfx.PngCorrect
import MinicOs.Gfx.PngOverflow
import MinicOs.Gfx.WindowInput
import MinicOs.Net.Acks
import MinicOs.Net.CcmpReceive
import MinicOs.Net.Wifi
import MinicOs.Net.HandshakeConforms
import MinicOs.Net.HttpOrder
import MinicOs.Net.KeySchedule
import MinicOs.Net.Segment
import MinicOs.Net.TlsStream
import MinicOs.Net.Udp
import MinicOs.Drivers.UsbDescriptor
import MinicOs.Shell.History
