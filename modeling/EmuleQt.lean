import EmuleQt.Client.SoleSender
import EmuleQt.Crypto.AICHTrust
import EmuleQt.Crypto.HashSetPacket
import EmuleQt.Files.GapRuns
import EmuleQt.Files.AllocationRuns
import EmuleQt.Files.UniqueDestination
import EmuleQt.Kademlia.ClosestContacts
import EmuleQt.Kademlia.AICHHistory
import EmuleQt.Utils.CorroborationTally
import EmuleQt.Protocol.HttpCacheLink
import EmuleQt.Search.GlobalSearchScheduler
import EmuleQt.Usenet.SegmentResults
import EmuleQt.Kademlia.PublishedLists
import EmuleQt.IpFilter.FilterFileRoundTrip
import EmuleQt.Kademlia.SearchSafety
import EmuleQt.Usenet.RarWindows
import EmuleQt.Ipc.IpcDelivery
import EmuleQt.Files.PartMetRoundTrip
import EmuleQt.Kademlia.KeywordPages
import EmuleQt.Kademlia.UInt128Arithmetic
import EmuleQt.Kademlia.RefusedUpdate
import EmuleQt.Kademlia.SafeKad
import EmuleQt.Usenet.ConnectionBudget
import EmuleQt.Usenet.ScratchRuns
import EmuleQt.Usenet.RepairVerdict
import EmuleQt.Usenet.PoolRuns
import EmuleQt.Usenet.QuotaPeriods
import EmuleQt.Ipc.DeferredRequests
import EmuleQt.Transfer.BandwidthSplit
import EmuleQt.Utils.BlockRuns
import EmuleQt.Client.RepeatChunkGuard
import EmuleQt.Client.DeadSourceList
import EmuleQt.Client.FruitlessSessionRuns
import EmuleQt.Client.ClientCreditsFile
import EmuleQt.Client.CreditsGuard
import EmuleQt.Stats.CardinalitySketch
import EmuleQt.Files.KeywordRuns
import EmuleQt.Files.SourceIndex
import EmuleQt.Search.SearchQueueRuns
import EmuleQt.Client.UploadSlotRuns
import EmuleQt.Files.KnownFileList
import EmuleQt.Client.UnzipRuns
import EmuleQt.Transfer.UploadQueueRuns
import EmuleQt.Ipc.PushCoalescer
import EmuleQt.Client.OtherFiles
import EmuleQt.Kademlia.FirewallTester
import EmuleQt.Transfer.Scheduler
import EmuleQt.Bt.JoinDiskIo
import EmuleQt.Files.CollectionRoundTrip
import EmuleQt.Search.FilenameTerms
import EmuleQt.Kademlia.NodesFile
import EmuleQt.Net.Link
import EmuleQt.Usenet.UsenetQueueStore
import EmuleQt.Client.BuddyRelayBudget
