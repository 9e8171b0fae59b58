import Orderbooks.Lib.Loop
import Orderbooks.Lib.Lists
import Orderbooks.Lib.Runs
import Orderbooks.Lib.Decimal
import Orderbooks.Lib.JsonObject
import Orderbooks.Lib.Framing
import Orderbooks.Lib.LittleEndian
import Orderbooks.Lib.Channel
import Orderbooks.Lib.Cursors
import Orderbooks.Lib.WordTiers
import Orderbooks.Lib.FreeList
import Orderbooks.Lib.Probing
import Orderbooks.Lib.OrderedMap
import Orderbooks.Types
import Orderbooks.Hash
import Orderbooks.HierBitmap
import Orderbooks.SlabArena
import Orderbooks.IdIndex
import Orderbooks.FixParser
import Orderbooks.FixFields
import Orderbooks.FixStream
import Orderbooks.FixGrammar
import Orderbooks.FixCorruption
import Orderbooks.Book
import Orderbooks.Engine
import Orderbooks.Publishing
import Orderbooks.Queues
import Orderbooks.PriorityBook
import Orderbooks.Sweep
import Orderbooks.MatchingLoop
import Orderbooks.Effects
import Orderbooks.Settlement
import Orderbooks.Invariants
import Orderbooks.Closing
import Orderbooks.Representation
import Orderbooks.MatchingRefinement
import Orderbooks.Refinement
import Orderbooks.Snapshot
import Orderbooks.Listing
import Orderbooks.SnapshotRefinement
import Orderbooks.RestingBook
import Orderbooks.SubmitLeg
import Orderbooks.Residency
import Orderbooks.Handles
import Orderbooks.TopOfBook
import Orderbooks.TopStream
import Orderbooks.WarmStart
import Orderbooks.IndexLoad
import Orderbooks.UntrustedBlobs
import Orderbooks.Accounting
import Orderbooks.HandleClient
import Orderbooks.ArrivalOrder
import Orderbooks.PriceTime
import Orderbooks.SelfCross
import Orderbooks.ReferenceEngine
import Orderbooks.ReferenceBook
import Orderbooks.ReferenceMatching
import Orderbooks.ReferenceRefinement
import Orderbooks.FillOrKill
import Orderbooks.Exhaustion
import Orderbooks.Gateway
import Orderbooks.GatewayFraming
import Orderbooks.GatewayFills
import Orderbooks.GatewayAcks
import Orderbooks.GatewayIds
import Orderbooks.GatewayDomain
import Orderbooks.Lib.Fairness
import Orderbooks.ShmSession
import Orderbooks.GatewayWorkload
import Orderbooks.ShmSelfTest
import Orderbooks.ShmProgress
import Orderbooks.GatewayBytes
import Orderbooks.SocketSession
import Orderbooks.SocketProgress
import Orderbooks.PipelineSelfTest
import Orderbooks.Sequencing
import Orderbooks.ShardRouter
import Orderbooks.JsonLog
import Orderbooks.JsonRoundTrip
import Orderbooks.SymbolIsolation
import Orderbooks.ShardRuntime
import Orderbooks.RuntimeRefinement
import Orderbooks.ShardSequencing
import Orderbooks.SpscRing
import Orderbooks.RingRefinement
import Orderbooks.EgressMerger
import Orderbooks.EgressDelivery
import Orderbooks.Market
import Orderbooks.MarketRefinement
import Orderbooks.TopThrottle
import Orderbooks.Relabelling
import Orderbooks.RelabelledRuns
import Orderbooks.CancelReplace
import Orderbooks.EgressPipeline
import Orderbooks.ShutdownProgress
import Orderbooks.Ledger
import Orderbooks.WithdrawnOrders
import Orderbooks.Dashboard
import Orderbooks.Replay
