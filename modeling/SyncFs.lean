import SyncFs.Adoption
import SyncFs.AlertWakeups
import SyncFs.CatchingUp
import SyncFs.ChangeSets
import SyncFs.CreateOrder
import SyncFs.Deletions
import SyncFs.DigestAddresses
import SyncFs.DigestExchange
import SyncFs.DigestPartners
import SyncFs.FollowerLoops
import SyncFs.Followers
import SyncFs.FreshListings
import SyncFs.IdleSwarms
import SyncFs.LastingDeletions
import SyncFs.ListenAddresses
import SyncFs.LocalDeletions
import SyncFs.MessageFrames
import SyncFs.MonitorHandles
import SyncFs.MonitorWaits
import SyncFs.NewerCreates
import SyncFs.OneMemory
import SyncFs.OriginLandings
import SyncFs.OriginStamps
import SyncFs.Parties
import SyncFs.PassFailures
import SyncFs.PeersFile
import SyncFs.RepairBatches
import SyncFs.RepairPacing
import SyncFs.RepairTimes
import SyncFs.SavePaths
import SyncFs.Shutdown
import SyncFs.Startup
import SyncFs.StateRounds
import SyncFs.SwarmHonesty
import SyncFs.SwarmLedgers
import SyncFs.Swarms
import SyncFs.TickRanges
import SyncFs.TombstoneSweeps
import SyncFs.TorrentPlaces
import SyncFs.TransferEchoes
import SyncFs.UnreadableTimes
