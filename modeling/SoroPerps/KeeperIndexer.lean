import SoroPerps.KeeperStore

/-! # The indexer's handlers

Each handler turns one decoded event into writes to the store, made one after the other and
outside a transaction. -/
namespace KeeperIndexer

open KeeperStore MergeTable

inductive Write where
  | upsertPosition (p : Position)
  | insertTrade (t : Trade)
  | insertLiquidation (l : LiquidationEvent)
  | insertFundingUpdate (f : FundingUpdate)
  deriving DecidableEq, Repr

def Write.apply (s : Store) : Write → Store
  | .upsertPosition p => KeeperStore.upsertPosition s p
  | .insertTrade t => KeeperStore.insertTrade s t
  | .insertLiquidation l => KeeperStore.insertLiquidation s l
  | .insertFundingUpdate f => KeeperStore.insertFundingUpdate s f

def processPositionOpened (positionID : ℕ) (trader : String) (asset : ℕ) (direction : String)
    (size collateral entryPrice : ℤ) (leverage : ℕ) (timestamp : ℤ) : List Write :=
  [.upsertPosition
    { id := positionID
      trader := trader
      asset := asset
      direction := direction
      size := size
      collateral := collateral
      entryPrice := entryPrice
      leverage := leverage
      openedAt := timestamp
      status := "open" }]

/-- The zeros reach the table only when no row of the position is there yet. -/
def processPositionClosed (positionID : ℕ) (trader : String) (asset : ℕ) (direction : String)
    (size entryPrice exitPrice pnl fee timestamp : ℤ) : List Write :=
  [.upsertPosition
    { id := positionID
      trader := trader
      asset := asset
      direction := direction
      size := size
      collateral := 0
      entryPrice := entryPrice
      leverage := 0
      openedAt := 0
      status := "closed"
      closedAt := some timestamp
      exitPrice := some exitPrice
      realizedPnl := some pnl
      closeFee := some fee },
    .insertTrade
    { positionID := positionID
      trader := trader
      asset := asset
      direction := direction
      size := size
      entryPrice := entryPrice
      exitPrice := exitPrice
      realizedPnl := pnl
      fee := fee
      type := "close"
      timestamp := timestamp }]

/-- The position's own row is left as it is. -/
def processLiquidation (positionID : ℕ) (trader keeper : String) (asset : ℕ)
    (markPrice marginRatio penalty keeperReward timestamp : ℤ) : List Write :=
  [.insertLiquidation
    { positionID := positionID
      trader := trader
      keeper := keeper
      asset := asset
      markPrice := markPrice
      marginRatio := marginRatio
      penalty := penalty
      keeperReward := keeperReward
      timestamp := timestamp }]

def processFundingApplied (longRate shortRate cumLong cumShort oiLong oiShort timestamp : ℤ) :
    List Write :=
  [.insertFundingUpdate
    { longRate := longRate
      shortRate := shortRate
      cumulativeLong := cumLong
      cumulativeShort := cumShort
      oiLong := oiLong
      oiShort := oiShort
      timestamp := timestamp }]

inductive DecodedEvent where
  | positionOpened (positionID : ℕ) (trader : String) (asset : ℕ) (direction : String)
      (size collateral entryPrice : ℤ) (leverage : ℕ) (timestamp : ℤ)
  | positionClosed (positionID : ℕ) (trader : String) (asset : ℕ) (direction : String)
      (size entryPrice exitPrice pnl fee timestamp : ℤ)
  | liquidation (positionID : ℕ) (trader keeper : String) (asset : ℕ)
      (markPrice marginRatio penalty keeperReward timestamp : ℤ)
  | fundingApplied (longRate shortRate cumLong cumShort oiLong oiShort timestamp : ℤ)
  deriving DecidableEq, Repr

def handler : DecodedEvent → List Write
  | .positionOpened id trader asset direction size collateral entryPrice leverage timestamp =>
    processPositionOpened id trader asset direction size collateral entryPrice leverage timestamp
  | .positionClosed id trader asset direction size entryPrice exitPrice pnl fee timestamp =>
    processPositionClosed id trader asset direction size entryPrice exitPrice pnl fee timestamp
  | .liquidation id trader keeper asset markPrice marginRatio penalty keeperReward timestamp =>
    processLiquidation id trader keeper asset markPrice marginRatio penalty keeperReward timestamp
  | .fundingApplied longRate shortRate cumLong cumShort oiLong oiShort timestamp =>
    processFundingApplied longRate shortRate cumLong cumShort oiLong oiShort timestamp

def applyAll (s : Store) (writes : List Write) : Store := writes.foldl Write.apply s

/-- A handler all of whose writes succeed. -/
def process (s : Store) (e : DecodedEvent) : Store := applyAll s (handler e)

section Tables

def Write.position? : Write → Option Position
  | .upsertPosition p => some p
  | _ => none

def Write.trade? : Write → Option Trade
  | .insertTrade t => some t
  | _ => none

def Write.liquidation? : Write → Option LiquidationEvent
  | .insertLiquidation l => some l
  | _ => none

def Write.funding? : Write → Option FundingUpdate
  | .insertFundingUpdate f => some f
  | _ => none

theorem applyAll_eq (s : Store) (writes : List Write) : applyAll s writes =
    { positions :=
        (writes.filterMap Write.position?).foldl (upsert onConflict Position.id) s.positions
      trades := s.trades ++ writes.filterMap Write.trade?
      fundingUpdates := s.fundingUpdates ++ writes.filterMap Write.funding?
      liquidations := s.liquidations ++ writes.filterMap Write.liquidation? } := by
  induction writes generalizing s with
  | nil => simp [applyAll]
  | cons write writes ih =>
    have hrest := ih (write.apply s)
    unfold applyAll at hrest ⊢
    rw [List.foldl_cons, hrest]
    cases write with
    | upsertPosition p =>
      simp [List.filterMap_cons, Write.apply, upsertPosition, Write.position?, Write.trade?,
        Write.liquidation?, Write.funding?]
    | insertTrade t =>
      simp [List.filterMap_cons, Write.apply, insertTrade, Write.position?, Write.trade?,
        Write.liquidation?, Write.funding?]
    | insertLiquidation l =>
      simp [List.filterMap_cons, Write.apply, insertLiquidation, Write.position?, Write.trade?,
        Write.liquidation?, Write.funding?]
    | insertFundingUpdate f =>
      simp [List.filterMap_cons, Write.apply, insertFundingUpdate, Write.position?, Write.trade?,
        Write.liquidation?, Write.funding?]

end Tables

end KeeperIndexer
