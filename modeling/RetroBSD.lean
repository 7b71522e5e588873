import RetroBSD.AddressHalves
import RetroBSD.AdvisoryLocks
import RetroBSD.AllocatorRuns
import RetroBSD.ArchiveWalks
import RetroBSD.AssemblerFlaws
import RetroBSD.BufferContents
import RetroBSD.CacheIds
import RetroBSD.CalloutTimes
import RetroBSD.ClistRuns
import RetroBSD.Credentials
import RetroBSD.Descriptors
import RetroBSD.DirectoryUpdates
import RetroBSD.FileContents
import RetroBSD.FileSizes
import RetroBSD.FreeListRuns
import RetroBSD.HostFreeList
import RetroBSD.HostInodes
import RetroBSD.ImageLoads
import RetroBSD.InodeCache
import RetroBSD.InodeErrors
import RetroBSD.InodeTableRuns
import RetroBSD.LineEditing
import RetroBSD.LinkSplices
import RetroBSD.PartialLinks
import RetroBSD.PartitionImages
import RetroBSD.PipeErrors
import RetroBSD.PipeStream
import RetroBSD.ProcessIds
import RetroBSD.RelocationAreas
import RetroBSD.ResourceMapBounds
import RetroBSD.ResourceMapThree
import RetroBSD.SchedulerRuns
import RetroBSD.SignalMasks
import RetroBSD.SwapperImages
import RetroBSD.SymbolSearches
import RetroBSD.TempDevices
import RetroBSD.TimeOfDay
import RetroBSD.TruncatedBlocks
import RetroBSD.UsageDecay
import RetroBSD.UserMemory
