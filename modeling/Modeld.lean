import Modeld.Core.ConcurrentStores
import Modeld.Ctl.CommitRace
import Modeld.Runs.FailedCalls
import Modeld.Runs.FaultyRuns
import Modeld.Runs.Pins
import Modeld.Format.GgufSoundness
import Modeld.Core.TagMap
import Modeld.Runs.Listed
import Modeld.Runs.Confinement
import Modeld.Daemon.MessageCap
import Modeld.Runs.TagRaces
import Modeld.Runs.RegisterPairs
import Modeld.Runs.RegisterReplies
import Modeld.Runs.WrittenTags
import Modeld.Ctl.Bootstrap
import Modeld.Ctl.PullConfinement
import Modeld.Core.StoreRun
import Modeld.Runs.CountedOnce
import Modeld.Ctl.LinkRun
import Modeld.Core.PlanFit
import Modeld.Core.Topology
import Modeld.Format.GgufEntries
import Modeld.Daemon.FdRequests
import Modeld.Runs.ImportErrors
import Modeld.Core.PruneOrder
import Modeld.Daemon.CallFrame
import Modeld.Runs.CallLaw
import Modeld.Runs.PulledTags
import Modeld.Format.Architecture
import Modeld.Format.VisualMeta
import Modeld.Format.Delivery
import Modeld.Ctl.Shards
import Modeld.Core.Reflink
import Modeld.Format.GgufCalls
import Modeld.Format.GgufDepth
import Modeld.Runs.PinRaces
import Modeld.Ctl.HfAuth
import Modeld.Ctl.OpenRace
import Modeld.Runs.UnsafeBlobs
import Modeld.Runs.StagingLeaks
import Modeld.Runs.EvictionOrder
import Modeld.Runs.CatalogueServer
import Modeld.Runs.Sessions
import Modeld.Runs.CatalogueClients
import Modeld.Runs.Aliases
