import SoroPerps.PerpsVault
import SoroPerps.PerpsOracleAdapter

/-! # The position manager

Opens and closes leveraged positions. Collateral, fees and profits move through the vault;
prices come from the oracle adapter. -/
namespace PerpsPositionManager

open SorobanHost PerpsTypes PerpsVault PerpsOracleAdapter

variable {N : Network}

def calculatePnl (direction : Direction) (size entryPrice currentPrice : ℤ) : Contract N ℤ :=
  match direction with
  | .Long => do
    let move ← i128 (currentPrice - entryPrice)
    let product ← i128 (size * move)
    divI128 product entryPrice
  | .Short => do
    let move ← i128 (entryPrice - currentPrice)
    let product ← i128 (size * move)
    divI128 product entryPrice

def calculateFee (notionalSize : ℤ) (feeBps : ℕ) : Contract N ℤ := do
  let product ← i128 (notionalSize * feeBps)
  divI128 product 10000

/-- Positive when the position owes funding. No entry point calls it. -/
def calculateFundingPayment (size entryFundingIndex currentFundingIndex : ℤ) : Contract N ℤ := do
  let accrued ← i128 (currentFundingIndex - entryFundingIndex)
  let product ← i128 (size * accrued)
  divI128 product 10000

def setPositionManager (f : PositionStorage → PositionStorage) : Contract N Unit :=
  modify fun w => { w with positionManager := f w.positionManager }

def setNextPositionId (s : PositionStorage) (id : ℕ) : PositionStorage :=
  { s with nextPositionId := id }

def incrementPositionId : Contract N ℕ := do
  let id := (← get).positionManager.nextPositionId
  let next ← addU64 id 1
  setPositionManager fun s => setNextPositionId s next
  pure id

def openInterest (s : PositionStorage) : Direction → ℤ
  | .Long => s.openInterestLong
  | .Short => s.openInterestShort

def setOpenInterest (s : PositionStorage) (direction : Direction) (oi : ℤ) : PositionStorage :=
  match direction with
  | .Long => { s with openInterestLong := oi }
  | .Short => { s with openInterestShort := oi }

def savePosition (s : PositionStorage) (trader : Address) (id : ℕ) (position : Position) :
    PositionStorage :=
  { s with position := s.position.insert (trader, id) position }

def removePosition (s : PositionStorage) (trader : Address) (id : ℕ) : PositionStorage :=
  { s with position := s.position.erase (trader, id) }

def getTraderPositionCount (s : PositionStorage) (trader : Address) : ℕ :=
  (s.traderPositionCount.lookup trader).getD 0

def setTraderPositionCount (s : PositionStorage) (trader : Address) (count : ℕ) :
    PositionStorage :=
  { s with traderPositionCount := s.traderPositionCount.insert trader count }

def initializePositionManager (admin vault oracle usdcToken : Address)
    (openFeeBps closeFeeBps maxLeverage : ℕ) (minCollateral : ℤ) : Contract N Unit := do
  let s := (← get).positionManager
  rejectIf (s.admin.isSome = true) .AlreadyInitialized
  rejectIf (maxLeverage = 0 ∨ 1000 < openFeeBps ∨ 1000 < closeFeeBps) .InvalidConfig
  setPositionManager fun s => { s with
    admin := some admin
    vaultAddress := some vault
    oracleAddress := some oracle
    usdcToken := some usdcToken
    openFeeRate := openFeeBps
    closeFeeRate := closeFeeBps
    maxLeverage := maxLeverage
    minCollateral := minCollateral
    openInterestLong := 0
    openInterestShort := 0 }

def openPosition (env : Env) (trader : Address) (asset : ℕ) (direction : Direction)
    (collateral : ℤ) (leverage : ℕ) : Contract N ℕ := do
  requireAuth env trader
  let s := (← get).positionManager
  rejectIf (collateral < s.minCollateral) .MinCollateralNotMet
  rejectIf (leverage = 0 ∨ s.maxLeverage < leverage) .InvalidLeverage
  let oracle ← unwrap s.oracleAddress
  requireContract oracle N.oracle
  let entryPrice ← getPriceValue asset
  let size ← i128 (collateral * leverage)
  let openFee ← calculateFee size s.openFeeRate
  let totalCost ← i128 (collateral + openFee)
  let usdc ← unwrap s.usdcToken
  let vault ← unwrap s.vaultAddress
  transferUsdc (env.callFrom N.positionManager) usdc trader vault totalCost
  requireContract vault N.vault
  lockLiquidity (env.callFrom N.positionManager) N.positionManager size
  collectFee (env.callFrom N.positionManager) N.positionManager openFee
  let positionId ← incrementPositionId
  let position : Position :=
    { id := positionId
      trader := trader
      asset := asset
      direction := direction
      size := size
      collateral := collateral
      entryPrice := entryPrice
      leverage := leverage
      fundingIndex := 0
      openedAt := (← get).timestamp }
  setPositionManager fun s => savePosition s trader positionId position
  let oi ← i128 (openInterest (← get).positionManager direction + size)
  setPositionManager fun s => setOpenInterest s direction oi
  let count ← addU64 (getTraderPositionCount (← get).positionManager trader) 1
  setPositionManager fun s => setTraderPositionCount s trader count
  emit (.positionOpened trader positionId direction size collateral entryPrice leverage openFee)
  pure positionId

def closePosition (env : Env) (trader : Address) (positionId asset : ℕ) : Contract N ℤ := do
  requireAuth env trader
  let s := (← get).positionManager
  let position ← okOr (s.position.lookup (trader, positionId)) (.contract .PositionNotFound)
  rejectIf (position.trader ≠ trader) .Unauthorized
  rejectIf (position.asset ≠ asset) .AssetMismatch
  let oracle ← unwrap s.oracleAddress
  requireContract oracle N.oracle
  let currentPrice ← getPriceValue asset
  let rawPnl ← calculatePnl position.direction position.size position.entryPrice currentPrice
  let maxLoss ← i128 (-position.collateral)
  let pricePnl := if rawPnl < maxLoss then maxLoss else rawPnl
  let closeFee ← calculateFee position.size s.closeFeeRate
  let netPnl ← i128 (pricePnl - closeFee)
  let vault ← unwrap s.vaultAddress
  requireContract vault N.vault
  closePositionSettlement (env.callFrom N.positionManager) N.positionManager trader
    position.size position.collateral pricePnl closeFee
  setPositionManager fun s => removePosition s trader positionId
  let oi ← i128 (openInterest (← get).positionManager position.direction - position.size)
  setPositionManager fun s => setOpenInterest s position.direction oi
  let count := getTraderPositionCount (← get).positionManager trader
  setPositionManager fun s =>
    if 0 < count then setTraderPositionCount s trader (count - 1) else s
  emit (.positionClosed trader positionId currentPrice netPnl closeFee)
  pure netPnl

def getPosition (trader : Address) (positionId : ℕ) : Contract N Position := do
  okOr ((← get).positionManager.position.lookup (trader, positionId))
    (.contract .PositionNotFound)

/-- The price is that of the asset the caller names, which need not be the position's own. -/
def getUnrealizedPnl (trader : Address) (positionId asset : ℕ) : Contract N ℤ := do
  let s := (← get).positionManager
  let position ← okOr (s.position.lookup (trader, positionId)) (.contract .PositionNotFound)
  let oracle ← unwrap s.oracleAddress
  requireContract oracle N.oracle
  let currentPrice ← getPriceValue asset
  calculatePnl position.direction position.size position.entryPrice currentPrice

def liquidatePosition (env : Env) (caller trader : Address) (positionId asset : ℕ) :
    Contract N (ℤ × ℤ) := do
  requireAuth env caller
  let s := (← get).positionManager
  let engine ← okOr s.liquidationEngine (.contract .NotInitialized)
  rejectIf (caller ≠ engine) .Unauthorized
  let position ← okOr (s.position.lookup (trader, positionId)) (.contract .PositionNotFound)
  rejectIf (position.asset ≠ asset) .AssetMismatch
  let oracle ← unwrap s.oracleAddress
  requireContract oracle N.oracle
  let currentPrice ← getPriceValue asset
  let rawPnl ← calculatePnl position.direction position.size position.entryPrice currentPrice
  let maxLoss ← i128 (-position.collateral)
  let pricePnl := if rawPnl < maxLoss then maxLoss else rawPnl
  let vault ← unwrap s.vaultAddress
  requireContract vault N.vault
  closePositionSettlement (env.callFrom N.positionManager) N.positionManager trader
    position.size position.collateral pricePnl 0
  setPositionManager fun s => removePosition s trader positionId
  let oi ← i128 (openInterest (← get).positionManager position.direction - position.size)
  setPositionManager fun s => setOpenInterest s position.direction oi
  let count := getTraderPositionCount (← get).positionManager trader
  setPositionManager fun s =>
    if 0 < count then setTraderPositionCount s trader (count - 1) else s
  pure (position.collateral, pricePnl)

def setFeeRates (env : Env) (admin : Address) (openBps closeBps : ℕ) : Contract N Unit := do
  requireAdmin env admin (← get).positionManager.admin
  rejectIf (1000 < openBps ∨ 1000 < closeBps) .InvalidConfig
  setPositionManager fun s => { s with openFeeRate := openBps, closeFeeRate := closeBps }

def setMaxLeverage (env : Env) (admin : Address) (max : ℕ) : Contract N Unit := do
  requireAdmin env admin (← get).positionManager.admin
  rejectIf (max = 0) .InvalidConfig
  setPositionManager fun s => { s with maxLeverage := max }

def setLiquidationEngine (env : Env) (admin engine : Address) : Contract N Unit := do
  requireAdmin env admin (← get).positionManager.admin
  setPositionManager fun s => { s with liquidationEngine := some engine }

def setFundingAddress (env : Env) (admin funding : Address) : Contract N Unit := do
  requireAdmin env admin (← get).positionManager.admin
  setPositionManager fun s => { s with fundingAddress := some funding }

inductive Call where
  | initializePositionManager (admin vault oracle usdcToken : Address)
      (openFeeBps closeFeeBps maxLeverage : ℕ) (minCollateral : ℤ)
  | openPosition (trader : Address) (asset : ℕ) (direction : Direction) (collateral : ℤ)
      (leverage : ℕ)
  | closePosition (trader : Address) (positionId asset : ℕ)
  | liquidatePosition (caller trader : Address) (positionId asset : ℕ)
  | setFeeRates (admin : Address) (openBps closeBps : ℕ)
  | setMaxLeverage (admin : Address) (max : ℕ)
  | setLiquidationEngine (admin engine : Address)
  | setFundingAddress (admin funding : Address)
  deriving DecidableEq, Repr

def invoke (env : Env) : Call → Contract N Unit
  | .initializePositionManager admin vault oracle usdc openFee closeFee leverage collateral =>
    initializePositionManager admin vault oracle usdc openFee closeFee leverage collateral
  | .openPosition trader asset direction collateral leverage =>
    discard (openPosition env trader asset direction collateral leverage)
  | .closePosition trader id asset => discard (closePosition env trader id asset)
  | .liquidatePosition caller trader id asset =>
    discard (liquidatePosition env caller trader id asset)
  | .setFeeRates admin openBps closeBps => setFeeRates env admin openBps closeBps
  | .setMaxLeverage admin max => setMaxLeverage env admin max
  | .setLiquidationEngine admin engine => setLiquidationEngine env admin engine
  | .setFundingAddress admin funding => setFundingAddress env admin funding

section Effects

variable {env : Env} {w w' : World N} {u : Unit}

@[simp] theorem setPositionManager_ok {f : PositionStorage → PositionStorage} :
    (setPositionManager f : Contract N Unit).run w = .ok (u, w') ↔
      { w with positionManager := f w.positionManager } = w' := by
  simp [setPositionManager]

@[simp] theorem setPositionManager_error {f : PositionStorage → PositionStorage}
    {e : Failure PerpsError} :
    ¬ (setPositionManager f : Contract N Unit).run w = .error e := by
  simp [setPositionManager]

def favourableMove (direction : Direction) (entryPrice currentPrice : ℤ) : ℤ :=
  match direction with
  | .Long => currentPrice - entryPrice
  | .Short => entryPrice - currentPrice

/-- The profit before any cap, as an exact integer. -/
def rawPnl (p : Position) (price : ℤ) : ℤ :=
  (p.size * favourableMove p.direction p.entryPrice price).tdiv p.entryPrice

/-- The profit a settlement uses: losses stop at the collateral. -/
def pricePnl (p : Position) (price : ℤ) : ℤ :=
  if rawPnl p price < -p.collateral then -p.collateral else rawPnl p price

def feeFor (notionalSize : ℤ) (feeBps : ℕ) : ℤ := (notionalSize * feeBps).tdiv 10000

structure PnlFits (p : Position) (price : ℤ) : Prop where
  entry : p.entryPrice ≠ 0
  move : InI128 (favourableMove p.direction p.entryPrice price)
  proportion : ProportionFits p.size (favourableMove p.direction p.entryPrice price) p.entryPrice

@[simp] theorem calculatePnl_ok {p : Position} {price pnl : ℤ} :
    (calculatePnl p.direction p.size p.entryPrice price : Contract N ℤ).run w = .ok (pnl, w') ↔
      PnlFits p price ∧ rawPnl p price = pnl ∧ w = w' := by
  have hfit : PnlFits p price ↔ InI128 (favourableMove p.direction p.entryPrice price) ∧
      InI128 (p.size * favourableMove p.direction p.entryPrice price) ∧ p.entryPrice ≠ 0 ∧
      InI128 (rawPnl p price) :=
    ⟨fun h => ⟨h.move, h.proportion.1, h.entry, h.proportion.2⟩,
      fun h => ⟨h.2.2.1, h.1, h.2.1, h.2.2.2⟩⟩
  rw [hfit]
  unfold rawPnl
  cases hd : p.direction <;> simp [calculatePnl, favourableMove, and_assoc]

@[simp] theorem calculatePnl_error {p : Position} {price : ℤ} {e : PerpsError} :
    ¬ (calculatePnl p.direction p.size p.entryPrice price : Contract N ℤ).run w =
      .error (.contract e) := by
  cases hd : p.direction <;> simp [calculatePnl]

@[simp] theorem calculateFee_ok {notional fee : ℤ} {bps : ℕ} :
    (calculateFee notional bps : Contract N ℤ).run w = .ok (fee, w') ↔
      ProportionFits notional bps 10000 ∧ feeFor notional bps = fee ∧ w = w' := by
  simp [calculateFee, ProportionFits, feeFor, and_assoc]

@[simp] theorem calculateFee_error {notional : ℤ} {bps : ℕ} {e : PerpsError} :
    ¬ (calculateFee notional bps : Contract N ℤ).run w = .error (.contract e) := by
  simp [calculateFee]

section Bookkeeping

variable {s : PositionStorage} {trader other : Address} {id : ℕ} {p : Position}
  {d side : Direction} {oi : ℤ}

@[simp] theorem openInterest_setNextPositionId :
    openInterest (setNextPositionId s id) d = openInterest s d := by cases d <;> rfl

@[simp] theorem openInterest_savePosition :
    openInterest (savePosition s trader id p) d = openInterest s d := by cases d <;> rfl

@[simp] theorem openInterest_removePosition :
    openInterest (removePosition s trader id) d = openInterest s d := by cases d <;> rfl

@[simp] theorem getTraderPositionCount_setNextPositionId :
    getTraderPositionCount (setNextPositionId s id) other = getTraderPositionCount s other := rfl

@[simp] theorem getTraderPositionCount_savePosition :
    getTraderPositionCount (savePosition s trader id p) other =
      getTraderPositionCount s other := rfl

@[simp] theorem getTraderPositionCount_removePosition :
    getTraderPositionCount (removePosition s trader id) other =
      getTraderPositionCount s other := rfl

@[simp] theorem getTraderPositionCount_setOpenInterest :
    getTraderPositionCount (setOpenInterest s d oi) other = getTraderPositionCount s other := by
  cases d <;> rfl

def sizeOn (d : Direction) (p : Position) : ℤ := if p.direction = d then p.size else 0

def afterOpen (s : PositionStorage) (p : Position) : PositionStorage :=
  { s with
    nextPositionId := s.nextPositionId + 1
    position := s.position.insert (p.trader, p.id) p
    openInterestLong := s.openInterestLong + sizeOn .Long p
    openInterestShort := s.openInterestShort + sizeOn .Short p
    traderPositionCount :=
      s.traderPositionCount.insert p.trader (getTraderPositionCount s p.trader + 1) }

def afterRemove (s : PositionStorage) (trader : Address) (id : ℕ) (p : Position) :
    PositionStorage :=
  { s with
    position := s.position.erase (trader, id)
    openInterestLong := s.openInterestLong - sizeOn .Long p
    openInterestShort := s.openInterestShort - sizeOn .Short p
    traderPositionCount :=
      if 0 < getTraderPositionCount s trader then
        s.traderPositionCount.insert trader (getTraderPositionCount s trader - 1)
      else s.traderPositionCount }

/-- The four writes of an opening, in the order the source makes them. -/
theorem afterOpen_eq :
    setTraderPositionCount (setOpenInterest (savePosition (setNextPositionId s
        (s.nextPositionId + 1)) p.trader p.id p) p.direction
        (openInterest s p.direction + p.size)) p.trader (getTraderPositionCount s p.trader + 1) =
      afterOpen s p := by
  cases h : p.direction <;>
    simp [setTraderPositionCount, setOpenInterest, savePosition, setNextPositionId, openInterest,
      afterOpen, sizeOn, h]

/-- The writes of a close and of a liquidation, which the source spells out twice. -/
theorem afterRemove_eq :
    (if 0 < getTraderPositionCount s trader then
      setTraderPositionCount (setOpenInterest (removePosition s trader id) p.direction
        (openInterest s p.direction - p.size)) trader (getTraderPositionCount s trader - 1)
    else setOpenInterest (removePosition s trader id) p.direction
        (openInterest s p.direction - p.size)) = afterRemove s trader id p := by
  cases h : p.direction <;> split <;>
    simp [setTraderPositionCount, setOpenInterest, removePosition, openInterest, afterRemove,
      sizeOn, *]

theorem getTraderPositionCount_afterOpen {other : Address} :
    getTraderPositionCount (afterOpen s p) other =
      getTraderPositionCount s other + if other = p.trader then 1 else 0 := by
  by_cases h : other = p.trader
  · subst h
    simp [getTraderPositionCount, afterOpen]
  · simp [getTraderPositionCount, afterOpen, Finmap.lookup_insert_of_ne _ h, h]

theorem getTraderPositionCount_afterRemove {trader other : Address} {id : ℕ} :
    getTraderPositionCount (afterRemove s trader id p) other =
      getTraderPositionCount s other - if other = trader then 1 else 0 := by
  unfold afterRemove
  by_cases hpos : 0 < getTraderPositionCount s trader
  · rw [if_pos hpos]
    by_cases h : other = trader
    · subst h
      simp [getTraderPositionCount]
    · simp [getTraderPositionCount, Finmap.lookup_insert_of_ne _ h, h]
  · rw [if_neg hpos]
    by_cases h : other = trader
    · subst h
      rw [if_pos rfl]
      change getTraderPositionCount s other = _
      omega
    · rw [if_neg h]
      rfl

end Bookkeeping

def openedPosition (w : World N) (trader : Address) (asset : ℕ) (direction : Direction)
    (collateral : ℤ) (leverage : ℕ) (entryPrice : ℤ) : Position :=
  { id := w.positionManager.nextPositionId
    trader := trader
    asset := asset
    direction := direction
    size := collateral * leverage
    collateral := collateral
    entryPrice := entryPrice
    leverage := leverage
    fundingIndex := 0
    openedAt := w.timestamp }

def openFee (w : World N) (p : Position) : ℤ := feeFor p.size w.positionManager.openFeeRate

def closeFee (w : World N) (p : Position) : ℤ := feeFor p.size w.positionManager.closeFeeRate

def afterOpening (v : VaultStorage) (size fee : ℤ) : VaultStorage :=
  { v with
    lockedLiquidity := v.lockedLiquidity + size
    totalDeposits := v.totalDeposits + fee }

structure OpenGuards (env : Env) (w : World N) (p : Position) : Prop where
  authorized : env.Authorized p.trader
  payer : N.positionManager = p.trader ∨ p.trader ∈ env.signers
  minCollateral : w.positionManager.minCollateral ≤ p.collateral
  leverage : p.leverage ≠ 0 ∧ p.leverage ≤ w.positionManager.maxLeverage
  oracle : w.positionManager.oracleAddress = some N.oracle
  usdc : w.positionManager.usdcToken = some N.usdc
  vault : w.positionManager.vaultAddress = some N.vault
  manager : w.vault.positionManager = some N.positionManager
  fresh : FreshPrice w p.asset p.entryPrice
  size : 0 < p.size
  fee : 0 < openFee w p
  sizeFits : InI128 p.size
  feeFits : ProportionFits p.size w.positionManager.openFeeRate 10000
  costFits : InI128 (p.collateral + openFee w p)
  lockedFits : InI128 (w.vault.lockedLiquidity + p.size)
  utilization : w.vault.totalDeposits ≠ 0 →
    ProportionFits (w.vault.lockedLiquidity + p.size) 10000 w.vault.totalDeposits ∧
    asU32 (utilizationQuotient (w.vault.lockedLiquidity + p.size) w.vault.totalDeposits) ≤
      w.vault.maxUtilization
  depositsFit : InI128 (w.vault.totalDeposits + openFee w p)
  idFits : w.positionManager.nextPositionId + 1 < 2 ^ 64
  interestFits : InI128 (openInterest w.positionManager p.direction + p.size)
  countFits : getTraderPositionCount w.positionManager p.trader + 1 < 2 ^ 64

theorem openPosition_ok {trader : Address} {asset leverage id : ℕ} {direction : Direction}
    {collateral : ℤ} :
    (openPosition env trader asset direction collateral leverage : Contract N ℕ).run w =
        .ok (id, w') ↔
      id = w.positionManager.nextPositionId ∧ ∃ entryPrice usdc,
        let p := openedPosition w trader asset direction collateral leverage entryPrice
        OpenGuards env w p ∧
        N.token.transfer w.usdc trader N.vault (collateral + openFee w p) = .ok usdc ∧
        w' = { w with
          usdc := usdc
          vault := afterOpening w.vault p.size (openFee w p)
          positionManager := afterOpen w.positionManager p
          events := w.events ++ [.liquidityLocked p.size, .feeCollected (openFee w p),
            .positionOpened trader id direction p.size collateral entryPrice leverage
              (openFee w p)] } := by
  simp [openPosition, lockLiquidity_ok, collectFee_ok, incrementPositionId]
  constructor
  · rintro ⟨ha, hmin, hlev, horacle, price, hprice, hsize, hfee, hcost, husdc, hvault, usdc,
      ⟨hpayer, ht⟩, ⟨hmanager, hpos, hlocked, hutil⟩, ⟨-, hfeepos, hdeposits⟩, hid, hoi, hcount,
      rfl, rfl⟩
    refine ⟨rfl, price, ⟨ha, hpayer, hmin, hlev, horacle, husdc, hvault, hmanager, hprice,
      hpos, hfeepos, hsize, hfee, hcost, hlocked, hutil, hdeposits, hid, hoi, hcount⟩, usdc, ht, ?_⟩
    rw [← afterOpen_eq]
    rfl
  · rintro ⟨rfl, price, hg, usdc, ht, rfl⟩
    refine ⟨hg.authorized, hg.minCollateral, hg.leverage, hg.oracle, price, hg.fresh, hg.sizeFits,
      hg.feeFits, hg.costFits, hg.usdc, hg.vault, usdc, ⟨hg.payer, ht⟩, ⟨hg.manager, hg.size,
      hg.lockedFits, hg.utilization⟩, ⟨hg.manager, hg.fee, hg.depositsFit⟩, hg.idFits,
      hg.interestFits, hg.countFits, rfl, ?_⟩
    rw [← afterOpen_eq]
    rfl

/-- What the settlement of a stored position has checked before it pays out, for the fee it is
charged. -/
structure PayoutGuards (w : World N) (p : Position) (price fee : ℤ) : Prop where
  oracle : w.positionManager.oracleAddress = some N.oracle
  vault : w.positionManager.vaultAddress = some N.vault
  manager : w.vault.positionManager = some N.positionManager
  fresh : FreshPrice w p.asset price
  pnlFits : PnlFits p price
  lossFits : InI128 (-p.collateral)
  settlementFits : SettlementFits w.vault p.size p.collateral (pricePnl p price) fee
  locked : p.size ≤ w.vault.lockedLiquidity
  deposits : 0 ≤ w.vault.totalDeposits - pricePnl p price + fee
  usdc : 0 < p.collateral + pricePnl p price - fee → w.vault.usdcToken = some N.usdc

structure SettleGuards (w : World N) (p : Position) (price fee : ℤ) : Prop extends
    PayoutGuards w p price fee where
  interestFits : InI128 (openInterest w.positionManager p.direction - p.size)

theorem closePosition_ok {trader : Address} {id asset : ℕ} {net : ℤ} :
    (closePosition env trader id asset : Contract N ℤ).run w = .ok (net, w') ↔
      env.Authorized trader ∧ ∃ p price usdc,
        w.positionManager.position.lookup (trader, id) = some p ∧ p.trader = trader ∧
        p.asset = asset ∧ SettleGuards w p price (closeFee w p) ∧
        ProportionFits p.size w.positionManager.closeFeeRate 10000 ∧
        InI128 (pricePnl p price - closeFee w p) ∧
        net = pricePnl p price - closeFee w p ∧
        PaidOut N w.usdc trader (p.collateral + pricePnl p price - closeFee w p) usdc ∧
        w' = { w with
          usdc := usdc
          vault := afterSettlement w.vault p.size (pricePnl p price) (closeFee w p)
          positionManager := afterRemove w.positionManager trader id p
          events := w.events ++ [.pnlSettled trader (pricePnl p price),
            .feeCollected (closeFee w p),
            .positionClosed trader id price net (closeFee w p)] } := by
  simp [closePosition, closePositionSettlement_ok, -Int.sub_pos, -sub_pos]
  intro ha
  constructor
  · rintro ⟨p, hp, htrader, rfl, horacle, price, hprice, hpnl, hloss, hfee, hnet, hvault, usdc,
      ⟨hmanager, hfits, hlocked, hdeposits, husdc, hpaid⟩, hoi, rfl, rfl⟩
    refine ⟨p, hp, htrader, rfl, price, ⟨⟨horacle, hvault, hmanager, hprice, hpnl, hloss, hfits,
      hlocked, hdeposits, husdc⟩, hoi⟩, hfee, hnet, rfl, usdc, hpaid, ?_⟩
    rw [← afterRemove_eq]
    rfl
  · rintro ⟨p, hp, htrader, rfl, price, hg, hfee, hnet, rfl, usdc, hpaid, rfl⟩
    refine ⟨p, hp, htrader, rfl, hg.oracle, price, hg.fresh, hg.pnlFits, hg.lossFits, hfee, hnet,
      hg.vault, usdc, ⟨hg.manager, hg.settlementFits, hg.locked, hg.deposits, hg.usdc, hpaid⟩,
      hg.interestFits, rfl, ?_⟩
    rw [← afterRemove_eq]
    rfl

theorem closePosition_returns {trader : Address} {id : ℕ} {p : Position} {price : ℤ}
    {usdc : N.token.State} (ha : env.Authorized trader)
    (hp : w.positionManager.position.lookup (trader, id) = some p) (ht : p.trader = trader)
    (hg : SettleGuards w p price (closeFee w p))
    (hfee : ProportionFits p.size w.positionManager.closeFeeRate 10000)
    (hnet : InI128 (pricePnl p price - closeFee w p))
    (hpaid : PaidOut N w.usdc trader (p.collateral + pricePnl p price - closeFee w p) usdc) :
    ∃ net w', (closePosition env trader id p.asset : Contract N ℤ).run w = .ok (net, w') :=
  ⟨_, _, closePosition_ok.mpr
    ⟨ha, p, price, usdc, hp, ht, rfl, hg, hfee, hnet, rfl, hpaid, rfl⟩⟩

/-- When a liquidation returns, and what it has done then. Neither fee nor trader check is made. -/
theorem liquidatePosition_ok {caller trader : Address} {id asset : ℕ} {out : ℤ × ℤ} :
    (liquidatePosition env caller trader id asset : Contract N (ℤ × ℤ)).run w =
        .ok (out, w') ↔
      env.Authorized caller ∧ w.positionManager.liquidationEngine = some caller ∧
      ∃ p price usdc, w.positionManager.position.lookup (trader, id) = some p ∧
        p.asset = asset ∧ SettleGuards w p price 0 ∧ out = (p.collateral, pricePnl p price) ∧
        PaidOut N w.usdc trader (p.collateral + pricePnl p price - 0) usdc ∧
        w' = { w with
          usdc := usdc
          vault := afterSettlement w.vault p.size (pricePnl p price) 0
          positionManager := afterRemove w.positionManager trader id p
          events := w.events ++ [.pnlSettled trader (pricePnl p price), .feeCollected 0] } := by
  simp [liquidatePosition, closePositionSettlement_ok, -Int.sub_pos, -sub_pos]
  intro ha hengine
  constructor
  · rintro ⟨p, hp, rfl, horacle, price, hprice, hpnl, hloss, hvault, usdc,
      ⟨hmanager, hfits, hlocked, hdeposits, husdc, hpaid⟩, hoi, rfl, rfl⟩
    refine ⟨p, hp, rfl, price, ⟨⟨horacle, hvault, hmanager, hprice, hpnl, hloss, hfits, hlocked,
      ?_, ?_⟩, hoi⟩, rfl, usdc, ?_, ?_⟩
    · simpa [pricePnl] using hdeposits
    · simpa [pricePnl] using husdc
    · simpa [pricePnl] using hpaid
    · rw [← afterRemove_eq]
      rfl
  · rintro ⟨p, hp, rfl, price, hg, rfl, usdc, hpaid, rfl⟩
    refine ⟨p, hp, rfl, hg.oracle, price, hg.fresh, hg.pnlFits, hg.lossFits, hg.vault, usdc,
      ⟨hg.manager, hg.settlementFits, hg.locked, ?_, ?_, ?_⟩, hg.interestFits, rfl, ?_⟩
    · simpa [pricePnl] using hg.deposits
    · simpa [pricePnl] using hg.usdc
    · simpa [pricePnl] using hpaid
    · rw [← afterRemove_eq]
      rfl

/-- The two reasons the vault has for refusing to settle a position, and the token's refusal to
pay the trader. -/
def SettlementRefused (w : World N) (trader : Address) (p : Position) (price fee : ℤ)
    (e : PerpsError) : Prop :=
  (e = .OverflowError ∧ w.vault.lockedLiquidity < p.size) ∨
    (e = .InsufficientLiquidity ∧ w.vault.totalDeposits - pricePnl p price + fee < 0) ∨
    (PayoutGuards w p price fee ∧
      PayoutRefused N w.usdc trader (p.collateral + pricePnl p price - fee) e)

theorem settlementRefused_of_error {trader : Address} {p : Position} {price fee : ℤ}
    {e : PerpsError} (hm : w.vault.positionManager = some N.positionManager)
    (horacle : w.positionManager.oracleAddress = some N.oracle)
    (hvault : w.positionManager.vaultAddress = some N.vault) (hprice : FreshPrice w p.asset price)
    (hpnl : PnlFits p price) (hloss : InI128 (-p.collateral))
    (h : (closePositionSettlement (env.callFrom N.positionManager) N.positionManager trader p.size
      p.collateral (pricePnl p price) fee : Contract N Unit).run w = .error (.contract e)) :
    SettlementRefused w trader p price fee e := by
  rcases closePositionSettlement_error (by simp) hm h with
    hlocked | hdeposits | ⟨hfits, hle, hd, husdc, hrefused⟩
  · exact .inl hlocked
  · exact .inr (.inl hdeposits)
  · exact .inr (.inr ⟨⟨horacle, hvault, hm, hprice, hpnl, hloss, hfits, hle, hd, fun _ => husdc⟩,
      hrefused⟩)

theorem closePosition_error {trader : Address} {id asset : ℕ} {e : PerpsError}
    (hm : w.vault.positionManager = some N.positionManager)
    (h : (closePosition env trader id asset : Contract N ℤ).run w = .error (.contract e)) :
    (w.positionManager.position.lookup (trader, id) = none ∧ e = .PositionNotFound) ∨
    ∃ p, w.positionManager.position.lookup (trader, id) = some p ∧
      ((p.trader ≠ trader ∧ e = .Unauthorized) ∨ (p.asset ≠ asset ∧ e = .AssetMismatch) ∨
        e = .StalePrice ∨ ∃ price, FreshPrice w p.asset price ∧
          SettlementRefused w trader p price (closeFee w p) e) := by
  simp [closePosition] at h
  obtain ⟨-, ⟨hn, rfl⟩ | ⟨p, hp, ⟨ht, rfl⟩ | ⟨-, ⟨hasset, rfl⟩ | ⟨rfl, horacle, h⟩⟩⟩⟩ := h
  · exact .inl ⟨hn, rfl⟩
  · exact .inr ⟨p, hp, .inl ⟨ht, rfl⟩⟩
  · exact .inr ⟨p, hp, .inr (.inl ⟨hasset, rfl⟩)⟩
  · refine .inr ⟨p, hp, .inr (.inr ?_)⟩
    rcases h with h | ⟨price, hprice, hpnl, hloss, -, -, hvault, h⟩
    · exact .inl (getPriceValue_error h)
    · exact .inr ⟨price, hprice,
        settlementRefused_of_error hm horacle hvault hprice hpnl hloss h⟩

theorem liquidatePosition_error {caller trader : Address} {id asset : ℕ} {e : PerpsError}
    (hm : w.vault.positionManager = some N.positionManager)
    (hengine : w.positionManager.liquidationEngine = some caller)
    (h : (liquidatePosition env caller trader id asset : Contract N (ℤ × ℤ)).run w =
      .error (.contract e)) :
    (w.positionManager.position.lookup (trader, id) = none ∧ e = .PositionNotFound) ∨
    ∃ p, w.positionManager.position.lookup (trader, id) = some p ∧
      ((p.asset ≠ asset ∧ e = .AssetMismatch) ∨ e = .StalePrice ∨
        ∃ price, FreshPrice w p.asset price ∧ SettlementRefused w trader p price 0 e) := by
  simp [liquidatePosition, hengine] at h
  obtain ⟨-, ⟨hn, rfl⟩ | ⟨p, hp, ⟨hasset, rfl⟩ | ⟨rfl, horacle, h⟩⟩⟩ := h
  · exact .inl ⟨hn, rfl⟩
  · exact .inr ⟨p, hp, .inl ⟨hasset, rfl⟩⟩
  · refine .inr ⟨p, hp, .inr ?_⟩
    rcases h with h | ⟨price, hprice, hpnl, hloss, hvault, h⟩
    · exact .inl (getPriceValue_error h)
    · exact .inr ⟨price, hprice,
        settlementRefused_of_error hm horacle hvault hprice hpnl hloss h⟩

theorem liquidatePosition_unpaid {caller trader : Address} {id : ℕ} {p : Position} {price : ℤ}
    {e : PerpsError} (ha : env.Authorized caller)
    (hengine : w.positionManager.liquidationEngine = some caller)
    (hp : w.positionManager.position.lookup (trader, id) = some p) (hg : PayoutGuards w p price 0)
    (hrefused : PayoutRefused N w.usdc trader (p.collateral + pricePnl p price - 0) e) :
    (liquidatePosition env caller trader id p.asset : Contract N (ℤ × ℤ)).run w =
      .error (.contract e) := by
  have hself : (env.callFrom N.positionManager).Authorized N.positionManager := by simp
  have hsettle := closePositionSettlement_unpaid hself hg.manager hg.settlementFits hg.locked
    hg.deposits (hg.usdc hrefused.1) hrefused
  rw [pricePnl] at hsettle
  simp [liquidatePosition, ha, hengine, hp, hg.oracle]
  exact .inr ⟨price, hg.fresh, hg.pnlFits, hg.lossFits, hg.vault, hsettle⟩

/-- The asset check comes before the price is read, whatever the state of the oracle. -/
theorem liquidatePosition_wrongAsset {caller trader : Address} {id asset : ℕ} {p : Position}
    (ha : env.Authorized caller) (hengine : w.positionManager.liquidationEngine = some caller)
    (hp : w.positionManager.position.lookup (trader, id) = some p) (hasset : p.asset ≠ asset) :
    (liquidatePosition env caller trader id asset : Contract N (ℤ × ℤ)).run w =
      .error (.contract .AssetMismatch) := by
  simp [liquidatePosition, ha, hengine, hp, hasset]

@[simp] theorem getPosition_ok {trader : Address} {id : ℕ} {p : Position} :
    (getPosition trader id : Contract N Position).run w = .ok (p, w') ↔
      w.positionManager.position.lookup (trader, id) = some p ∧ w = w' := by
  simp [getPosition]

@[simp] theorem getUnrealizedPnl_ok {trader : Address} {id asset : ℕ} {pnl : ℤ} :
    (getUnrealizedPnl trader id asset : Contract N ℤ).run w = .ok (pnl, w') ↔
      ∃ p price, w.positionManager.position.lookup (trader, id) = some p ∧
        w.positionManager.oracleAddress = some N.oracle ∧ FreshPrice w asset price ∧
        PnlFits p price ∧ rawPnl p price = pnl ∧ w = w' := by
  simp [getUnrealizedPnl]

theorem getPosition_error {trader : Address} {id : ℕ} {e : PerpsError}
    (h : (getPosition trader id : Contract N Position).run w = .error (.contract e)) :
    w.positionManager.position.lookup (trader, id) = none ∧ e = .PositionNotFound := by
  simp [getPosition] at h
  exact ⟨h.1, h.2.symm⟩

theorem getUnrealizedPnl_error {trader : Address} {id asset : ℕ} {e : PerpsError}
    (h : (getUnrealizedPnl trader id asset : Contract N ℤ).run w = .error (.contract e)) :
    (w.positionManager.position.lookup (trader, id) = none ∧ e = .PositionNotFound) ∨
      e = .StalePrice := by
  simp [getUnrealizedPnl] at h
  rcases h with ⟨hn, rfl⟩ | ⟨-, -, h⟩
  · exact .inl ⟨hn, rfl⟩
  · exact .inr (getPriceValue_error h)

/-- The position manager writes its own storage and, through the vault, the vault's, the token
and the event log, nothing else. -/
theorem invoke_frame {c : Call} (h : (invoke env c : Contract N Unit).run w = .ok (u, w')) :
    w'.timestamp = w.timestamp ∧ w'.oracle = w.oracle ∧ w'.engine = w.engine ∧
      w'.funding = w.funding := by
  cases c with
  | initializePositionManager admin vault oracle usdc openFee closeFee leverage collateral =>
    simp [invoke, initializePositionManager] at h
    obtain ⟨-, -, rfl⟩ := h
    exact ⟨rfl, rfl, rfl, rfl⟩
  | openPosition trader asset direction collateral leverage =>
    simp only [invoke, run_discard_ok] at h
    obtain ⟨id, h⟩ := h
    obtain ⟨-, price, usdc, -, -, rfl⟩ := openPosition_ok.mp h
    exact ⟨rfl, rfl, rfl, rfl⟩
  | closePosition trader id asset =>
    simp only [invoke, run_discard_ok] at h
    obtain ⟨net, h⟩ := h
    obtain ⟨-, p, price, usdc, -, -, -, -, -, -, -, -, rfl⟩ := closePosition_ok.mp h
    exact ⟨rfl, rfl, rfl, rfl⟩
  | liquidatePosition caller trader id asset =>
    simp only [invoke, run_discard_ok] at h
    obtain ⟨out, h⟩ := h
    obtain ⟨-, -, p, price, usdc, -, -, -, -, -, rfl⟩ := liquidatePosition_ok.mp h
    exact ⟨rfl, rfl, rfl, rfl⟩
  | setFeeRates admin openBps closeBps =>
    simp [invoke, setFeeRates] at h
    obtain ⟨-, -, rfl⟩ := h
    exact ⟨rfl, rfl, rfl, rfl⟩
  | setMaxLeverage admin max =>
    simp [invoke, setMaxLeverage] at h
    obtain ⟨-, -, rfl⟩ := h
    exact ⟨rfl, rfl, rfl, rfl⟩
  | setLiquidationEngine admin engine =>
    simp [invoke, setLiquidationEngine] at h
    obtain ⟨-, rfl⟩ := h
    exact ⟨rfl, rfl, rfl, rfl⟩
  | setFundingAddress admin funding =>
    simp [invoke, setFundingAddress] at h
    obtain ⟨-, rfl⟩ := h
    exact ⟨rfl, rfl, rfl, rfl⟩

end Effects

end PerpsPositionManager
