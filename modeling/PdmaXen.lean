import PdmaXen.Pdma.Ownership
import PdmaXen.Pdma.Quiescence
import PdmaXen.Pdma.Wakeups
import PdmaXen.Pdma.WriteOrder
import PdmaXen.Bytes
import PdmaXen.Ledger
import PdmaXen.NetDom0.Backend
import PdmaXen.NetDom0.ClientProgress
import PdmaXen.NetDom0.RingAccounting
import PdmaXen.Pdma.Isolation
import PdmaXen.Pdma.Lifecycle
import PdmaXen.Pdma.ReadStream
import PdmaXen.Dom0.Exclusion
import PdmaXen.Dom0.Recovery
import PdmaXen.Dom0.SessionWakeups
import PdmaXen.NetDom0.DeviceFile
import PdmaXen.NetDom0.Native
import PdmaXen.NetDom0.RemoteTasks
import PdmaXen.NetDom0.ResponseIdentity
import PdmaXen.NetDom0.ServiceOrder
import PdmaXen.NetDom0.Xenbus
import PdmaXen.Dom0.Notify
import PdmaXen.Dom0.OpenClose
import PdmaXen.NetDom0.Status
import PdmaXen.NetDom0.Windows
import PdmaXen.Pdma.Invisible
import PdmaXen.Pdma.Parsing
import PdmaXen.Pdma.ReadContract
import PdmaXen.Pdma.Statistics
import PdmaXen.Pdma.UserRegs
import PdmaXen.Pdma.WorkConserving
import PdmaXen.CInt
import PdmaXen.Circular
import PdmaXen.Dom0.Answers
import PdmaXen.Grants
import PdmaXen.NetDom0.AddressLimit
import PdmaXen.NetDom0.BlockSizes
import PdmaXen.NetDom0.Conservation
import PdmaXen.NetDom0.Unwinding
import PdmaXen.Qpp
import PdmaXen.Recursive
import PdmaXen.Turbo.Encoder
import PdmaXen.Turbo.Frame
import PdmaXen.Turbo.Interleaver
import PdmaXen.Fifo
import PdmaXen.Lte.Crc
import PdmaXen.Lte.Gold
import PdmaXen.Lte.Scrambling
import PdmaXen.Lte.Segmentation
import PdmaXen.Lte.TurboEncoder
import PdmaXen.Scatter
import PdmaXen.Lte.SubBlock
import PdmaXen.Lte.SegmentBuffers
import PdmaXen.Trellis
import PdmaXen.Lte.Convolutional
import PdmaXen.Lte.ControlChannel
import PdmaXen.Lte.PdcchMapping
import PdmaXen.NetDom0.QueueCalls
import PdmaXen.Pdma.Minors
import PdmaXen.Tools.RwVerify
import PdmaXen.Turbo.ParallelDecoder
