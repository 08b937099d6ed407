import SoroPerps.SorobanHost
import SoroPerps.FinmapSums
import SoroPerps.ActionRuns
import SoroPerps.SharePool
import SoroPerps.PoolBooks
import SoroPerps.PerpsTypes
import SoroPerps.PerpsVault
import SoroPerps.PerpsVaultInvariant
import SoroPerps.PerpsOracleAdapter
import SoroPerps.PerpsPositionManager
import SoroPerps.PerpsLiquidationEngine
import SoroPerps.PerpsFundingRate
import SoroPerps.PerpsSystem
import SoroPerps.PerpsSystemInvariant
import SoroPerps.PerpsSolvency
import SoroPerps.PerpsUtilization
import SoroPerps.PerpsShareValue
import SoroPerps.PerpsLiquidationView
import SoroPerps.PerpsPositionStore
import SoroPerps.PerpsAuthority
import SoroPerps.PerpsUnwinding
import SoroPerps.PerpsPriceHistory
import SoroPerps.PerpsSettlementOrder
import SoroPerps.RelatedRuns
import SoroPerps.PerpsFundingBlindness
import SoroPerps.PerpsFundingSettlement
import SoroPerps.MergeTable
import SoroPerps.KeeperStore
import SoroPerps.KeeperIndexer
import SoroPerps.KeeperView
import SoroPerps.PagedReading
import SoroPerps.KeeperPolling
import SoroPerps.RedeliveredLog
import SoroPerps.KeeperRedelivery
import SoroPerps.TruncatedDivision
import SoroPerps.PerpsFundingLaw
import SoroPerps.PerpsFundingAccounting
import SoroPerps.PerpsPriceThreshold
import SoroPerps.PerpsLiquidationRates
import SoroPerps.PerpsCloseReport
import SoroPerps.PerpsOpening
import SoroPerps.PerpsSplitting
import SoroPerps.PerpsRelatedLedgers
import SoroPerps.PerpsShareOverflow
import SoroPerps.RankedRows
import SoroPerps.KeeperApi
import SoroPerps.PerpsEventReplay
import SoroPerps.PerpsConfiguration
import SoroPerps.PerpsExit
import SoroPerps.PerpsIsolation
import SoroPerps.PerpsCoalition
import SoroPerps.PerpsWindDown
import SoroPerps.KeeperLiquidator
import SoroPerps.KeeperEndpoints
import SoroPerps.KeeperServing
import SoroPerps.KeeperHub
