import Citron.Kernel.PageTableCheck
import Citron.Kernel.MemoryBlockLockRun
import Citron.Common.RangeMapRun
import Citron.Kernel.HandleTableRun
import Citron.Common.FlatAllocatorRun
import Citron.Kernel.ConditionVariableRun
import Citron.Kernel.AddressArbiter
import Citron.Kernel.SchedulerUpdate
import Citron.Kernel.ServerSessionRun
import Citron.Kernel.SessionMappingsLife
import Citron.VideoCore.MemoryManagerBlocks
import Citron.VideoCore.DmaPusherRun
import Citron.VideoCore.MacroEngine
import Citron.VideoCore.SyncpointManagerRun
import Citron.Core.DeviceMemoryManagerCachedCount
import Citron.Core.DeviceMemoryManagerAliases
import Citron.Core.CheatVmSimulation
import Citron.VideoCore.TextureDecodersRun
import Citron.ShaderRecompiler.LowerInt64Computes
import Citron.ShaderRecompiler.ConstantPropagationRun
import Citron.ShaderRecompiler.UseCountsRun
import Citron.AudioCore.NodeStatesRun
import Citron.AudioCore.MixContextSort
import Citron.AudioCore.DecodeAdpcmCuts
import Citron.Network.RoomMembers
import Citron.Nvnflinger.BufferQueueRun
import Citron.Nvnflinger.BufferQueueWakeUps
import Citron.Common.ParamPackage
import Citron.Common.SlotVector
import Citron.Common.RingBufferRun
import Citron.Common.LruCacheScans
import Citron.Core.CheatVmSafety
import Citron.Core.CoreTiming
import Citron.Nvdrv.NvhostAsGpuFailures
import Citron.ShaderRecompiler.ImmediateFoldsAgree
import Citron.VideoCore.TextureDecodersSubrect
import Citron.AudioCore.SplitterContextUpdate
import Citron.FileSys.IpsLayerRun
import Citron.FileSys.VfsConcat
import Citron.Common.LruCacheForEach
import Citron.VideoCore.MaxwellDmaRemap
import Citron.Core.TextCheatParserRun
import Citron.FileSys.PathFormatter
import Citron.FileSys.RomFsBuildTables
import Citron.VideoCore.UsageTracker
import Citron.Common.Uint128
import Citron.Kernel.MemoryManagerAtomic
import Citron.Kernel.PageTableLayout
import Citron.FileSys.Path
import Citron.Kernel.PageTableRemap
import Citron.FileSys.AesCtrCounterExtendedStorage
import Citron.VideoCore.InvalidationAccumulator
import Citron.Kernel.PageTableFreeArea
