import SumiEmu.Common.FlatAllocatorRun
import SumiEmu.Kernel.MemoryBlockLock
import SumiEmu.Kernel.HandleTableRun
import SumiEmu.VideoCore.InvalidationAccumulator
import SumiEmu.VideoCore.DmaPusher
import SumiEmu.VideoCore.SyncpointManagerRun
import SumiEmu.VideoCore.MemoryTrackerRun
import SumiEmu.Common.RingBufferRun
import SumiEmu.Nvnflinger.BufferQueueOrder
import SumiEmu.Memory.CheatRun
import SumiEmu.AudioCore.SplitterContextRun
import SumiEmu.Core.DeviceMemoryManagerBlocks
import SumiEmu.Core.DeviceMemoryManagerCounts
import SumiEmu.Common.SPSCQueueRun
import SumiEmu.Kernel.FreeArea
import SumiEmu.Kernel.AddressArbiter
import SumiEmu.Kernel.PageHeapCoalesced
import SumiEmu.Kernel.SchedulerRun
import SumiEmu.Kernel.SchedulerYieldRun
import SumiEmu.ShaderRecompiler.LowerInt64ToInt32Exact
import SumiEmu.Common.LruCacheRun
import SumiEmu.VideoCore.MemoryManagerPredicates
import SumiEmu.FileSys.KernelExecutableSafety
import SumiEmu.FileSys.ConcatenatedVfsFile
import SumiEmu.FileSys.IntegrityVerificationStorage
import SumiEmu.FileSys.AlignmentMatchingStorageRun
import SumiEmu.FileSys.AesCtrCounterExtendedStorage
import SumiEmu.FileSys.AesXtsStorage
import SumiEmu.FileSys.IpsLayer
import SumiEmu.FileSys.VfsDirectory
import SumiEmu.FileSys.RomFs
import SumiEmu.FileSys.PathNormalizerBounds
import SumiEmu.VideoCore.H264BitWriter
import SumiEmu.Common.RangeMap
import SumiEmu.Common.SlotVector
import SumiEmu.ShaderRecompiler.Decode
import SumiEmu.VideoCore.UsageTracker
import SumiEmu.VideoCore.VpxBitStreamWriterRun
import SumiEmu.VideoCore.VpxRangeEncoder
import SumiEmu.VideoCore.TextureCacheUtil
import SumiEmu.AudioCore.MixContextRun
import SumiEmu.Core.CoreTimingAdvance
import SumiEmu.FileSys.InitialProcesses
import SumiEmu.Nvdrv.NvhostAsGpuSpace
import SumiEmu.Nvdrv.NvMapSpace
import SumiEmu.Common.ParamPackage
import SumiEmu.Common.Utf
import SumiEmu.Common.OverlapRangeSet
import SumiEmu.Kernel.MemoryManagerForProcess
import SumiEmu.Kernel.PageTableHeapCopyExact
