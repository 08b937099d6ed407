import SoroPerps.PerpsPositionManager

/-! # The liquidation engine

Anyone may ask for the liquidation of a position whose margin ratio fell below the maintenance
rate. The health test is written in the view and once more in the state-changing path. -/
namespace PerpsLiquidationEngine

open SorobanHost PerpsTypes PerpsVault PerpsOracleAdapter PerpsPositionManager

variable {N : Network}

def setEngine (f : LiquidationStorage → LiquidationStorage) : Contract N Unit :=
  modify fun w => { w with engine := f w.engine }

def initializeEngine (admin positionManager oracle : Address)
    (maintenanceMarginBps liquidationPenaltyBps keeperRewardBps : ℕ) : Contract N Unit := do
  let s := (← get).engine
  rejectIf (s.admin.isSome = true) .AlreadyInitialized
  rejectIf (maintenanceMarginBps = 0 ∨ 5000 < maintenanceMarginBps) .InvalidConfig
  rejectIf (liquidationPenaltyBps < keeperRewardBps) .InvalidConfig
  setEngine fun s => { s with
    admin := some admin
    positionManagerAddress := some positionManager
    oracleAddress := some oracle
    maintenanceMarginRate := maintenanceMarginBps
    liquidationPenalty := liquidationPenaltyBps
    keeperReward := keeperRewardBps }

def getMarginRatio (trader : Address) (positionId asset : ℕ) : Contract N ℤ := do
  let pm ← unwrap (← get).engine.positionManagerAddress
  requireContract pm N.positionManager
  let position ← getPosition trader positionId
  let unrealizedPnl ← getUnrealizedPnl trader positionId asset
  let effectiveMargin ← i128 (position.collateral + unrealizedPnl)
  rejectIf (position.size = 0) .PositionNotFound
  let scaled ← i128 (effectiveMargin * 10000)
  divI128 scaled position.size

def isLiquidatable (trader : Address) (positionId asset : ℕ) : Contract N Bool := do
  let maintenance : ℤ := (← get).engine.maintenanceMarginRate
  let marginRatio ← getMarginRatio trader positionId asset
  pure (decide (marginRatio < maintenance))

/-- The penalty and the keeper reward: a share of the collateral, capped at what is left of it.
Both only reach the event, since the settlement has already paid the trader. -/
def shareOfCollateral (collateral remainingEquity : ℤ) (bps : ℕ) : Contract N ℤ :=
  if 0 < remainingEquity then do
    let scaled ← i128 (collateral * bps)
    let raw ← divI128 scaled 10000
    pure (min raw remainingEquity)
  else pure 0

def liquidate (env : Env) (keeper trader : Address) (positionId asset : ℕ) :
    Contract N Unit := do
  requireAuth env keeper
  let pm ← unwrap (← get).engine.positionManagerAddress
  requireContract pm N.positionManager
  let position ← getPosition trader positionId
  let oracle ← unwrap (← get).engine.oracleAddress
  requireContract oracle N.oracle
  let markPrice ← getPriceValue asset
  let unrealizedPnl ← getUnrealizedPnl trader positionId asset
  let effectiveMargin ← i128 (position.collateral + unrealizedPnl)
  let scaled ← i128 (effectiveMargin * 10000)
  let marginRatioBps ← divI128 scaled position.size
  let maintenance : ℤ := (← get).engine.maintenanceMarginRate
  rejectIf (maintenance ≤ marginRatioBps) .NotLiquidatable
  let (collateral, pnl) ←
    liquidatePosition (env.callFrom N.engine) N.engine trader positionId asset
  let remainingEquity ← i128 (collateral + pnl)
  let s := (← get).engine
  let penalty ← shareOfCollateral collateral remainingEquity s.liquidationPenalty
  let keeperReward ← shareOfCollateral collateral remainingEquity s.keeperReward
  emit (.liquidation trader positionId keeper markPrice marginRatioBps penalty keeperReward)

def setMaintenanceMargin (env : Env) (admin : Address) (bps : ℕ) : Contract N Unit := do
  requireAdmin env admin (← get).engine.admin
  rejectIf (bps = 0 ∨ 5000 < bps) .InvalidConfig
  setEngine fun s => { s with maintenanceMarginRate := bps }

/-- Unlike initialization, neither setter compares the penalty with the keeper reward. -/
def setLiquidationPenalty (env : Env) (admin : Address) (bps : ℕ) : Contract N Unit := do
  requireAdmin env admin (← get).engine.admin
  setEngine fun s => { s with liquidationPenalty := bps }

def setKeeperReward (env : Env) (admin : Address) (bps : ℕ) : Contract N Unit := do
  requireAdmin env admin (← get).engine.admin
  setEngine fun s => { s with keeperReward := bps }

inductive Call where
  | initializeEngine (admin positionManager oracle : Address)
      (maintenanceMarginBps liquidationPenaltyBps keeperRewardBps : ℕ)
  | liquidate (keeper trader : Address) (positionId asset : ℕ)
  | setMaintenanceMargin (admin : Address) (bps : ℕ)
  | setLiquidationPenalty (admin : Address) (bps : ℕ)
  | setKeeperReward (admin : Address) (bps : ℕ)
  deriving DecidableEq, Repr

def invoke (env : Env) : Call → Contract N Unit
  | .initializeEngine admin pm oracle maintenance penalty reward =>
    initializeEngine admin pm oracle maintenance penalty reward
  | .liquidate keeper trader id asset => liquidate env keeper trader id asset
  | .setMaintenanceMargin admin bps => setMaintenanceMargin env admin bps
  | .setLiquidationPenalty admin bps => setLiquidationPenalty env admin bps
  | .setKeeperReward admin bps => setKeeperReward env admin bps

section Effects

variable {env : Env} {w w' : World N} {u : Unit}

@[simp] theorem setEngine_ok {f : LiquidationStorage → LiquidationStorage} :
    (setEngine f : Contract N Unit).run w = .ok (u, w') ↔
      { w with engine := f w.engine } = w' := by
  simp [setEngine]

def marginRatio (p : Position) (price : ℤ) : ℤ :=
  ((p.collateral + rawPnl p price) * 10000).tdiv p.size

structure MarginFits (p : Position) (price : ℤ) : Prop where
  size : p.size ≠ 0
  pnl : PnlFits p price
  margin : InI128 (p.collateral + rawPnl p price)
  ratio : ProportionFits (p.collateral + rawPnl p price) 10000 p.size

def share (collateral remainingEquity : ℤ) (bps : ℕ) : ℤ :=
  if 0 < remainingEquity then min ((collateral * bps).tdiv 10000) remainingEquity else 0

@[simp] theorem shareOfCollateral_ok {collateral equity x : ℤ} {bps : ℕ} :
    (shareOfCollateral collateral equity bps : Contract N ℤ).run w = .ok (x, w') ↔
      (0 < equity → ProportionFits collateral bps 10000) ∧ share collateral equity bps = x ∧
        w = w' := by
  by_cases h : 0 < equity
  · simp [shareOfCollateral, share, ProportionFits, h, and_assoc]
  · simp [shareOfCollateral, share, h]

@[simp] theorem shareOfCollateral_error {collateral equity : ℤ} {bps : ℕ} {e : PerpsError} :
    ¬ (shareOfCollateral collateral equity bps : Contract N ℤ).run w =
      .error (.contract e) := by
  by_cases h : 0 < equity
  · simp [shareOfCollateral, h]
  · simp [shareOfCollateral, h]

/-- The view answers with the price of whatever asset it is asked about. -/
@[simp] theorem getMarginRatio_ok {trader : Address} {id asset : ℕ} {ratio : ℤ} :
    (getMarginRatio trader id asset : Contract N ℤ).run w = .ok (ratio, w') ↔
      w.engine.positionManagerAddress = some N.positionManager ∧
      ∃ p price, w.positionManager.position.lookup (trader, id) = some p ∧
        w.positionManager.oracleAddress = some N.oracle ∧ FreshPrice w asset price ∧
        MarginFits p price ∧ marginRatio p price = ratio ∧ w = w' := by
  constructor
  · intro h
    simp [getMarginRatio] at h
    obtain ⟨hpm, p, hp, q, price, ⟨hq, ho, hprice, hpnl⟩, hm, hs, hfit, hne, hq', rfl, rfl⟩ := h
    obtain rfl : p = q := Option.mem_unique hp hq
    exact ⟨hpm, p, price, hp, ho, hprice, ⟨hs, hpnl, hm, hfit, hq'⟩, rfl, rfl⟩
  · rintro ⟨hpm, p, price, hp, ho, hprice, hf, rfl, rfl⟩
    simp [getMarginRatio, hpm, hp, ho]
    exact ⟨price, ⟨hprice, hf.pnl⟩, hf.margin, hf.size, hf.ratio.1, hf.size, hf.ratio.2, rfl⟩

theorem liquidate_iff {keeper trader : Address} {id asset : ℕ} :
    (liquidate env keeper trader id asset : Contract N Unit).run w = .ok (u, w') ↔
      env.Authorized keeper ∧ w.engine.positionManagerAddress = some N.positionManager ∧
      w.engine.oracleAddress = some N.oracle ∧ w.positionManager.oracleAddress = some N.oracle ∧
      ∃ p price collateral pnl w₁, w.positionManager.position.lookup (trader, id) = some p ∧
        FreshPrice w asset price ∧ MarginFits p price ∧
        marginRatio p price < w.engine.maintenanceMarginRate ∧
        (liquidatePosition (env.callFrom N.engine) N.engine trader id asset).run w =
          .ok ((collateral, pnl), w₁) ∧
        InI128 (collateral + pnl) ∧
        (0 < collateral + pnl → ProportionFits collateral w₁.engine.liquidationPenalty 10000 ∧
          ProportionFits collateral w₁.engine.keeperReward 10000) ∧
        w' = { w₁ with
          events := w₁.events ++ [.liquidation trader id keeper price (marginRatio p price)
            (share collateral (collateral + pnl) w₁.engine.liquidationPenalty)
            (share collateral (collateral + pnl) w₁.engine.keeperReward)] } := by
  simp [liquidate]
  intro ha hpm
  constructor
  · rintro ⟨p, hp, ho, mark, hmark, q, price, ⟨hq, hpo, hprice, hpnl⟩, hm, hs,
      ⟨hne, hfit⟩, hlow, collateral, pnl, w₁, hl, hequity, hpenalty, hreward, rfl⟩
    obtain rfl : p = q := Option.mem_unique hp hq
    obtain rfl := hmark.unique hprice
    exact ⟨ho, hpo, p, hp, mark, hmark, ⟨hne, hpnl, hm, hs, hfit⟩, hlow, collateral, pnl, w₁, hl,
      hequity, fun h => ⟨hpenalty h, hreward h⟩, rfl⟩
  · rintro ⟨ho, hpo, p, hp, price, hprice, hf, hlow, collateral, pnl, w₁, hl, hequity, hshares,
      rfl⟩
    exact ⟨p, hp, ho, price, hprice, p, price, ⟨hp, hpo, hprice, hf.pnl⟩, hf.margin,
      hf.ratio.1, ⟨hf.size, hf.ratio.2⟩, hlow, collateral, pnl, w₁, hl, hequity,
      fun h => (hshares h).1, fun h => (hshares h).2, rfl⟩

/-- What a liquidation that returned has done. The health test compares the uncapped profit,
the settlement pays the capped one. -/
theorem liquidate_ok {keeper trader : Address} {id asset : ℕ}
    (h : (liquidate env keeper trader id asset : Contract N Unit).run w = .ok (u, w')) :
    env.Authorized keeper ∧ ∃ p price usdc,
      w.positionManager.position.lookup (trader, id) = some p ∧ p.asset = asset ∧
      MarginFits p price ∧ marginRatio p price < w.engine.maintenanceMarginRate ∧
      SettleGuards w p price 0 ∧
      PaidOut N w.usdc trader (p.collateral + pricePnl p price - 0) usdc ∧
      w' = { w with
        usdc := usdc
        vault := afterSettlement w.vault p.size (pricePnl p price) 0
        positionManager := afterRemove w.positionManager trader id p
        events := w.events ++ [.pnlSettled trader (pricePnl p price), .feeCollected 0,
          .liquidation trader id keeper price (marginRatio p price)
            (share p.collateral (p.collateral + pricePnl p price) w.engine.liquidationPenalty)
            (share p.collateral (p.collateral + pricePnl p price) w.engine.keeperReward)] } := by
  obtain ⟨ha, -, -, -, p, mark, collateral, pnl, w₁, hp, hmark, hf, hlow, hl, -, -, rfl⟩ :=
    liquidate_iff.mp h
  obtain ⟨-, -, q, price, usdc, hq, rfl, hg, hout, hpaid, rfl⟩ := liquidatePosition_ok.mp hl
  obtain rfl : p = q := Option.mem_unique hp hq
  obtain rfl := hmark.unique hg.fresh
  obtain ⟨rfl, rfl⟩ := Prod.mk.inj hout
  exact ⟨ha, p, mark, usdc, hp, rfl, hf, hlow, hg, hpaid, by simp⟩

theorem liquidate_returns {keeper trader : Address} {id : ℕ} {p : Position} {price : ℤ}
    {usdc : N.token.State} (ha : env.Authorized keeper)
    (hpm : w.engine.positionManagerAddress = some N.positionManager)
    (ho : w.engine.oracleAddress = some N.oracle)
    (hengine : w.positionManager.liquidationEngine = some N.engine)
    (hp : w.positionManager.position.lookup (trader, id) = some p) (hf : MarginFits p price)
    (hlow : marginRatio p price < w.engine.maintenanceMarginRate)
    (hg : SettleGuards w p price 0)
    (hshares : 0 < p.collateral + pricePnl p price →
      ProportionFits p.collateral w.engine.liquidationPenalty 10000 ∧
        ProportionFits p.collateral w.engine.keeperReward 10000)
    (hpaid : PaidOut N w.usdc trader (p.collateral + pricePnl p price - 0) usdc) :
    ∃ w', (liquidate env keeper trader id p.asset : Contract N Unit).run w = .ok ((), w') := by
  have hcall : (env.callFrom N.engine).Authorized N.engine := .inl rfl
  have hl := liquidatePosition_ok.mpr
    ⟨hcall, hengine, p, price, usdc, hp, rfl, hg, rfl, hpaid, rfl⟩
  exact ⟨_, liquidate_iff.mpr ⟨ha, hpm, ho, hg.oracle, p, price, p.collateral, pricePnl p price, _,
    hp, hg.fresh, hf, hlow, hl, hg.settlementFits.equity, hshares, rfl⟩⟩

theorem liquidate_error {keeper trader : Address} {id asset : ℕ} {e : PerpsError}
    (h : (liquidate env keeper trader id asset : Contract N Unit).run w =
      .error (.contract e)) :
    (w.positionManager.position.lookup (trader, id) = none ∧ e = .PositionNotFound) ∨
    e = .StalePrice ∨
    ∃ p price, w.positionManager.position.lookup (trader, id) = some p ∧
      FreshPrice w asset price ∧ MarginFits p price ∧
      ((w.engine.maintenanceMarginRate ≤ marginRatio p price ∧ e = .NotLiquidatable) ∨
        (marginRatio p price < w.engine.maintenanceMarginRate ∧
          (liquidatePosition (env.callFrom N.engine) N.engine trader id asset).run w =
            .error (.contract e))) := by
  simp [liquidate] at h
  rcases h with ⟨-, -, h | ⟨p, hp, -, h | ⟨-, h | ⟨q, price, ⟨hq, -, hprice, hpnl⟩, hm, hs,
    ⟨hne, hfit⟩, h⟩⟩⟩⟩
  · exact .inl (getPosition_error h)
  · exact .inr (.inl (getPriceValue_error h))
  · exact (getUnrealizedPnl_error h).imp_right .inl
  · obtain rfl : p = q := Option.mem_unique hp hq
    refine .inr (.inr ⟨p, price, hp, hprice, ⟨hne, hpnl, hm, hs, hfit⟩, ?_⟩)
    exact h.imp_left fun h => ⟨h.1, h.2.symm⟩

theorem liquidate_healthy {keeper trader : Address} {id asset : ℕ} {p : Position} {price : ℤ}
    (ha : env.Authorized keeper) (hpm : w.engine.positionManagerAddress = some N.positionManager)
    (ho : w.engine.oracleAddress = some N.oracle)
    (hp : w.positionManager.position.lookup (trader, id) = some p)
    (hpo : w.positionManager.oracleAddress = some N.oracle) (hprice : FreshPrice w asset price)
    (hf : MarginFits p price)
    (hr : (w.engine.maintenanceMarginRate : ℤ) ≤ marginRatio p price) :
    (liquidate env keeper trader id asset : Contract N Unit).run w =
      .error (.contract .NotLiquidatable) := by
  simp [liquidate, ha, hpm, ho, hp, hpo]
  exact .inr (.inr ⟨⟨price, hprice⟩, .inr ⟨price, ⟨hprice, hf.pnl⟩, hf.margin, hf.ratio.1,
    ⟨hf.size, hf.ratio.2⟩, .inl hr⟩⟩)

theorem invoke_frame {c : Call} (h : (invoke env c : Contract N Unit).run w = .ok (u, w')) :
    w'.timestamp = w.timestamp ∧ w'.oracle = w.oracle ∧ w'.funding = w.funding := by
  cases c with
  | initializeEngine admin pm oracle maintenance penalty reward =>
    simp [invoke, initializeEngine] at h
    obtain ⟨-, -, -, rfl⟩ := h
    exact ⟨rfl, rfl, rfl⟩
  | liquidate keeper trader id asset =>
    obtain ⟨-, p, price, usdc, -, -, -, -, -, -, rfl⟩ := liquidate_ok h
    exact ⟨rfl, rfl, rfl⟩
  | setMaintenanceMargin admin bps =>
    simp [invoke, setMaintenanceMargin] at h
    obtain ⟨-, -, rfl⟩ := h
    exact ⟨rfl, rfl, rfl⟩
  | setLiquidationPenalty admin bps =>
    simp [invoke, setLiquidationPenalty] at h
    obtain ⟨-, rfl⟩ := h
    exact ⟨rfl, rfl, rfl⟩
  | setKeeperReward admin bps =>
    simp [invoke, setKeeperReward] at h
    obtain ⟨-, rfl⟩ := h
    exact ⟨rfl, rfl, rfl⟩

end Effects

end PerpsLiquidationEngine
