import Kucg.Algo.Exchange
import Kucg.Algo.Kntree
import Kucg.Algo.KntreeInt
import Kucg.Algo.KntreeSubtrees
import Kucg.Algo.KntreeTermination
import Kucg.Algo.RecursivePairs
import Kucg.Algo.Scatter
import Kucg.Algo.ScatterPuts
import Kucg.Core.MetaSequence
import Kucg.Core.Mpool
import Kucg.Core.RankMapInt
import Kucg.Core.MsgSize
import Kucg.Core.PlanContents
import Kucg.Core.PlanInvariant
import Kucg.Core.Request
import Kucg.Core.TopoRuns
import Kucg.Lib.Blocks
import Kucg.Algo.Rolling
import Kucg.Lib.Placement
import Kucg.Stars.Overrun
import Kucg.Stars.EpAddress
import Kucg.Stars.SelectIfaces
import Kucg.Stars.Rails
import Kucg.Stars.MultiRail
import Kucg.Stars.Lanes
import Kucg.Ucx.AllreduceRd
import Kucg.Ucx.AllreduceRing
import Kucg.Ucx.BcastLongM
import Kucg.Ucx.BcastVanDeGeijn
import Kucg.Ucx.RingStep
import Kucg.Ucx.Tag
import Kucg.Core.PlanOrder
import Kucg.Core.PlanSelect
import Kucg.Core.PlanAlloc
import Kucg.Core.PlanPolicy
import Kucg.Lib.Handles
import Kucg.Lib.Completion
import Kucg.Core.RequestRelease
import Kucg.Lib.Choreography
import Kucg.Hccl.AllgathervRing
import Kucg.Lib.RankTree
import Kucg.Ucx.OpLive
import Kucg.Ucx.ReduceRuns
import Kucg.Core.DtMemcpy
import Kucg.Lib.Numbered
import Kucg.Stars.LongOffsets
import Kucg.Core.TopoDetail
import Kucg.Core.TopoCounters
import Kucg.Ucx.AlgoGroup
import Kucg.Ucx.LeaderGroups
import Kucg.Ucx.LeaderBounds
import Kucg.Ucx.LeaderCache
import Kucg.Ucx.BcastKntree
import Kucg.Ucx.BcastRing
import Kucg.Ucx.NaRollingIntra
import Kucg.Ucx.BcastTree
import Kucg.Lib.Posted
import Kucg.Lib.Results
import Kucg.Ucx.RabenseifnerWindow
import Kucg.Ucx.ReduceScatter
import Kucg.Stars.BcastRings
import Kucg.Stars.RegisteredRanges
import Kucg.Stars.SubmitWork
import Kucg.Stars.AddressUnpack
import Kucg.Stars.InitRelease
import Kucg.Stars.EpLifecycle
import Kucg.Stars.RcCredits
import Kucg.Stars.CompletionMarks
import Kucg.Stars.SubmitErrors
import Kucg.Stars.LaneResources
import Kucg.Ucx.AllgathervLinear
import Kucg.Ucx.AllgathervNeighbor
import Kucg.Ucx.AllgathervRing
import Kucg.Ucx.AllgathervRingHpl
import Kucg.Ucx.BarrierMetaRuns
import Kucg.Ucx.AllreduceRdLive
import Kucg.Lib.Totals
import Kucg.Ucx.AllreduceMeta
import Kucg.Ucx.AllreduceMetaRuns
import Kucg.Ucx.BcastMetaRuns
