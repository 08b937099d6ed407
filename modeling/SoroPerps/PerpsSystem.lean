import SoroPerps.ActionRuns
import SoroPerps.PoolBooks
import SoroPerps.PerpsFundingRate
import SoroPerps.PerpsLiquidationEngine

/-! # The wired system

Five contracts and the USDC token on one ledger. Anyone outside the system may call any entry
point; between calls time passes and temporary price entries may expire. -/
namespace PerpsSystem

open SorobanHost PerpsTypes PerpsVault PerpsOracleAdapter PerpsPositionManager
open PerpsLiquidationEngine PoolBooks FinmapSums

variable {N : Network}

inductive Call where
  | vault (call : PerpsVault.Call)
  | oracle (call : PerpsOracleAdapter.Call)
  | positionManager (call : PerpsPositionManager.Call)
  | engine (call : PerpsLiquidationEngine.Call)
  | funding (call : PerpsFundingRate.Call)
  | transferUsdc (src dst : Address) (amount : ℤ)
  deriving DecidableEq, Repr

def dispatch (env : Env) : Call → Contract N Unit
  | .vault call => PerpsVault.invoke env call
  | .oracle call => PerpsOracleAdapter.invoke env call
  | .positionManager call => PerpsPositionManager.invoke env call
  | .engine call => PerpsLiquidationEngine.invoke env call
  | .funding call => PerpsFundingRate.invoke env call
  | .transferUsdc src dst amount => transferUsdc env N.usdc src dst amount

/-- A caller outside the system: neither its signers nor its invoking contract are among the
deployed contracts, which act only through their own code. -/
structure Caller (N : Network) where
  env : Env
  outside : ∀ a, env.Authorized a → a ∉ N.contracts

def signedBy (a : Address) (h : a ∉ N.contracts) : Caller N where
  env := { invoker := none, signers := [a] }
  outside := by simpa [Env.Authorized] using h

inductive Action (N : Network) where
  | invoke (caller : Caller N) (call : Call)
  | advance (seconds : ℕ)
  | expirePrice (asset : ℕ)

/-- A failed invocation leaves the ledger as it was. -/
def step (w : World N) : Action N → World N
  | .invoke caller call =>
    match (dispatch caller.env call).run w with
    | .ok (_, w') => w'
    | .error _ => w
  | .advance seconds => { w with timestamp := w.timestamp + seconds }
  | .expirePrice asset => { w with oracle.price := w.oracle.price.erase asset }

def Action.Authorized : Action N → Address → Prop
  | .invoke caller _, a => caller.env.Authorized a
  | _, _ => False

instance (address : Address) : ∀ a : Action N, Decidable (a.Authorized address)
  | .invoke caller _ => inferInstanceAs (Decidable (caller.env.Authorized address))
  | .advance _ | .expirePrice _ => isFalse id

/-- The action does not point a contract at another address than the one it was wired to. -/
def KeepsWiring : Action N → Prop
  | .invoke _ (.vault (.setPositionManager _ pm)) => pm = N.positionManager
  | .invoke _ (.positionManager (.setLiquidationEngine _ engine)) => engine = N.engine
  | _ => True

instance (a : Action N) : Decidable (KeepsWiring a) := by
  unfold KeepsWiring
  split <;> infer_instance

structure Config where
  admin : Address
  maxUtilization : ℕ
  stalenessThreshold : ℕ
  openFee : ℕ
  closeFee : ℕ
  maxLeverage : ℕ
  minCollateral : ℤ
  maintenanceMargin : ℕ
  liquidationPenalty : ℕ
  keeperReward : ℕ
  fundingInterval : ℕ
  maxFundingRate : ℕ
  fundingSpread : ℕ

/-- Initialization and wiring, in the order of the integration harness. -/
def deploy (c : Config) : Contract N Unit := do
  let env : Env := { invoker := none, signers := [c.admin] }
  initializeVault c.admin N.usdc c.maxUtilization
  initializeOracle c.admin c.stalenessThreshold
  initializePositionManager c.admin N.vault N.oracle N.usdc c.openFee c.closeFee c.maxLeverage
    c.minCollateral
  initializeEngine c.admin N.positionManager N.oracle c.maintenanceMargin c.liquidationPenalty
    c.keeperReward
  PerpsFundingRate.initializeFunding c.admin N.positionManager c.fundingInterval c.maxFundingRate
    c.fundingSpread
  PerpsVault.setPositionManager env c.admin N.positionManager
  setLiquidationEngine env c.admin N.engine
  setFundingAddress env c.admin N.funding

/-- A ledger right after deployment, with any clock and any USDC balances. -/
def Deployed (w : World N) : Prop :=
  ∃ c timestamp usdc, (deploy c).run { timestamp := timestamp, usdc := usdc } = .ok ((), w)

/-- A run that keeps the wiring and each of whose steps meets the condition `Q`. -/
def Run (Q : World N → Action N → Prop) (w : World N) (as : List (Action N)) : Prop :=
  ActionRuns.Along step (fun w a => KeepsWiring a ∧ Q w a) w as

theorem run_iff {Q : World N → Action N → Prop} {w : World N} {as : List (Action N)} :
    Run Q w as ↔ (∀ a ∈ as, KeepsWiring a) ∧ ActionRuns.Along step Q w as := by
  unfold Run
  induction as generalizing w with
  | nil => simp [ActionRuns.Along]
  | cons a as ih =>
    simp only [ActionRuns.Along, ih, List.forall_mem_cons]
    tauto

def ReachableVia (Q : World N → Action N → Prop) (w : World N) : Prop :=
  ∃ w₀ as, Deployed w₀ ∧ Run Q w₀ as ∧ w = ActionRuns.runActions step w₀ as

def Reachable (w : World N) : Prop := ReachableVia (fun _ _ => True) w

theorem run_of_actions {w : World N} {as : List (Action N)} (hk : ∀ a ∈ as, KeepsWiring a) :
    Run (fun _ _ => True) w as := by
  refine run_iff.mpr ⟨hk, ?_⟩
  apply ActionRuns.along_of_forall
  intro a _ s
  trivial

theorem reachable_of_actions {w : World N} {as : List (Action N)} (hd : Deployed w)
    (hk : ∀ a ∈ as, KeepsWiring a) : Reachable (ActionRuns.runActions step w as) :=
  ⟨w, as, hd, run_of_actions hk, rfl⟩

def freshPrice? (w : World N) (asset : ℕ) : Option ℤ :=
  match (getPriceValue asset).run w with
  | .ok (price, _) => some price
  | .error _ => none

@[simp] theorem freshPrice?_eq_some {w : World N} {asset : ℕ} {price : ℤ} :
    freshPrice? w asset = some price ↔ FreshPrice w asset price := by
  unfold freshPrice?
  split
  · next p w' h =>
    obtain ⟨hp, rfl⟩ := getPriceValue_ok.mp h
    constructor
    · intro heq
      exact Option.some.inj heq ▸ hp
    · intro hq
      exact congrArg some (hp.unique hq)
  · next f h =>
    simp only [reduceCtorEq, false_iff]
    intro hp
    rw [getPriceValue_ok.mpr ⟨hp, rfl⟩] at h
    cases h

/-- What the books see of a position. -/
def stake (p : Position) : Stake := ⟨p.size, p.collateral, decide (p.direction = .Long)⟩

abbrev JournalEntry := Entry PositionKey Position

/-- The entry a successful call posts to the books. -/
def postingOf (w : World N) : Call → JournalEntry
  | .vault (.deposit _ amount) =>
    .deposit amount (mintedShares amount w.vault.totalShares w.vault.totalDeposits)
  | .vault (.withdraw _ shares) =>
    .withdraw shares (redeemedAmount shares w.vault.totalShares w.vault.totalDeposits)
  | .positionManager (.openPosition trader asset direction collateral leverage) =>
    match freshPrice? w asset with
    | some price =>
      let p := openedPosition w trader asset direction collateral leverage price
      .opened (trader, p.id) p (openFee w p)
    | none => .quiet
  | .positionManager (.closePosition trader id asset) =>
    match w.positionManager.position.lookup (trader, id), freshPrice? w asset with
    | some p, some price => .closed (trader, id) p (pricePnl p price) (closeFee w p)
    | _, _ => .quiet
  | .engine (.liquidate _ trader id asset) =>
    match w.positionManager.position.lookup (trader, id), freshPrice? w asset with
    | some p, some price => .liquidated (trader, id) p (pricePnl p price)
    | _, _ => .quiet
  | .transferUsdc _ dst amount => if dst = N.vault then .given amount else .quiet
  | _ => .quiet

def entryOf (w : World N) : Action N → JournalEntry
  | .invoke caller call =>
    match (dispatch caller.env call).run w with
    | .ok _ => postingOf w call
    | .error _ => .quiet
  | _ => .quiet

def booksOf (w : World N) : Books PositionKey Position where
  deposits := w.vault.totalDeposits
  shares := w.vault.totalShares
  locked := w.vault.lockedLiquidity
  interestLong := w.positionManager.openInterestLong
  interestShort := w.positionManager.openInterestShort
  positions := w.positionManager.position

/-- The addresses every contract was initialized and wired with. -/
structure Wired (w : World N) : Prop where
  vaultAdmin : w.vault.admin.isSome
  vaultUsdc : w.vault.usdcToken = some N.usdc
  vaultManager : w.vault.positionManager = some N.positionManager
  managerAdmin : w.positionManager.admin.isSome
  managerVault : w.positionManager.vaultAddress = some N.vault
  managerOracle : w.positionManager.oracleAddress = some N.oracle
  managerUsdc : w.positionManager.usdcToken = some N.usdc
  managerEngine : w.positionManager.liquidationEngine = some N.engine
  engineAdmin : w.engine.admin.isSome
  engineManager : w.engine.positionManagerAddress = some N.positionManager
  engineOracle : w.engine.oracleAddress = some N.oracle

/-- The step moves no money and touches neither the books nor the wiring. -/
structure Quiet (w w' : World N) : Prop where
  usdc : w'.usdc = w.usdc
  vault : ∃ cap, w'.vault = { w.vault with maxUtilization := cap } ∧
    (cap = w.vault.maxUtilization ∨ (cap ≠ 0 ∧ cap ≤ BPS_DENOMINATOR))
  manager : ∃ openFee closeFee leverage funding, w'.positionManager = { w.positionManager with
    openFeeRate := openFee
    closeFeeRate := closeFee
    maxLeverage := leverage
    fundingAddress := funding }
  engine : ∃ maintenance penalty reward, w'.engine = { w.engine with
    maintenanceMarginRate := maintenance
    liquidationPenalty := penalty
    keeperReward := reward }
  prices : ∀ asset c, w'.oracle.price.lookup asset = some c →
    w.oracle.price.lookup asset = some c ∨ (0 < c.price ∧ c.timestamp = w.timestamp)
  time : w.timestamp ≤ w'.timestamp

theorem Quiet.refl (w : World N) : Quiet w w := by
  constructor
  · rfl
  · exact ⟨_, rfl, .inl rfl⟩
  · exact ⟨_, _, _, _, rfl⟩
  · exact ⟨_, _, _, rfl⟩
  · intro asset c h
    left
    exact h
  · exact le_refl _

/-- Everything one step of a wired system can do, with the entry it posts. -/
inductive Effect (w : World N) (a : Action N) : JournalEntry → World N → Prop where
  | quiet {w' : World N} (h : Quiet w w') : Effect w a .quiet w'
  | transferred {src dst : Address} {amount : ℤ} {usdc : N.token.State}
      (hsrc : a.Authorized src) (ht : N.token.transfer w.usdc src dst amount = .ok usdc) :
      Effect w a (if dst = N.vault then .given amount else .quiet) { w with usdc := usdc }
  | deposited {depositor : Address} {amount shares : ℤ} {usdc : N.token.State}
      (hauth : a.Authorized depositor) (ha : 0 < amount)
      (hminted : mintedShares amount w.vault.totalShares w.vault.totalDeposits = shares)
      (hs : 0 < shares) (hf : DepositFits w.vault depositor amount shares)
      (ht : N.token.transfer w.usdc depositor N.vault amount = .ok usdc) :
      Effect w a (.deposit amount shares) { w with
        usdc := usdc
        vault := afterDeposit w.vault depositor amount shares
        events := w.events ++ [.deposit depositor amount shares] }
  | withdrawn {depositor : Address} {shares amount : ℤ} {usdc : N.token.State}
      (hauth : a.Authorized depositor) (hs : 0 < shares)
      (hbal : shares ≤ getShareBalance w.vault depositor)
      (hred : redeemedAmount shares w.vault.totalShares w.vault.totalDeposits = amount)
      (ha : 0 < amount) (hf : WithdrawFits w.vault depositor shares amount)
      (hutil : 0 < w.vault.totalDeposits - amount → asU32 (utilizationQuotient
        w.vault.lockedLiquidity (w.vault.totalDeposits - amount)) ≤ w.vault.maxUtilization)
      (hempty : w.vault.totalDeposits - amount ≤ 0 → w.vault.lockedLiquidity ≤ 0)
      (ht : N.token.transfer w.usdc N.vault depositor amount = .ok usdc) :
      Effect w a (.withdraw shares amount) { w with
        usdc := usdc
        vault := afterWithdraw w.vault depositor shares amount
        events := w.events ++ [.withdraw depositor shares amount] }
  | opened {env : Env} {p : Position} {usdc : N.token.State} (hauth : a.Authorized p.trader)
      (hp : p = openedPosition w p.trader p.asset p.direction p.collateral p.leverage
        p.entryPrice)
      (hg : OpenGuards env w p)
      (ht : N.token.transfer w.usdc p.trader N.vault (p.collateral + openFee w p) = .ok usdc) :
      Effect w a (.opened (p.trader, p.id) p (openFee w p)) { w with
        usdc := usdc
        vault := afterOpening w.vault p.size (openFee w p)
        positionManager := afterOpen w.positionManager p
        events := w.events ++ [.liquidityLocked p.size, .feeCollected (openFee w p),
          .positionOpened p.trader p.id p.direction p.size p.collateral p.entryPrice p.leverage
            (openFee w p)] }
  | closed {trader : Address} {id : ℕ} {p : Position} {price : ℤ} {usdc : N.token.State}
      (hauth : a.Authorized trader)
      (hp : w.positionManager.position.lookup (trader, id) = some p)
      (hg : SettleGuards w p price (closeFee w p))
      (ht : PaidOut N w.usdc trader (p.collateral + pricePnl p price - closeFee w p) usdc) :
      Effect w a (.closed (trader, id) p (pricePnl p price) (closeFee w p)) { w with
        usdc := usdc
        vault := afterSettlement w.vault p.size (pricePnl p price) (closeFee w p)
        positionManager := afterRemove w.positionManager trader id p
        events := w.events ++ [.pnlSettled trader (pricePnl p price),
          .feeCollected (closeFee w p), .positionClosed trader id price
            (pricePnl p price - closeFee w p) (closeFee w p)] }
  | liquidated {trader keeper : Address} {id : ℕ} {p : Position} {price : ℤ}
      {usdc : N.token.State} (hauth : a.Authorized keeper)
      (hp : w.positionManager.position.lookup (trader, id) = some p)
      (hlow : marginRatio p price < w.engine.maintenanceMarginRate)
      (hg : SettleGuards w p price 0)
      (ht : PaidOut N w.usdc trader (p.collateral + pricePnl p price - 0) usdc) :
      Effect w a (.liquidated (trader, id) p (pricePnl p price)) { w with
        usdc := usdc
        vault := afterSettlement w.vault p.size (pricePnl p price) 0
        positionManager := afterRemove w.positionManager trader id p
        events := w.events ++ [.pnlSettled trader (pricePnl p price), .feeCollected 0,
          .liquidation trader id keeper price (marginRatio p price)
            (share p.collateral (p.collateral + pricePnl p price) w.engine.liquidationPenalty)
            (share p.collateral (p.collateral + pricePnl p price) w.engine.keeperReward)] }

section Effects

variable {w w' : World N} {caller : Caller N} {u : Unit}

theorem Caller.ne_contract {a b : Address} (ha : caller.env.Authorized a) (hb : b ∈ N.contracts) :
    a ≠ b := by
  rintro rfl
  exact caller.outside a ha hb

theorem Wired.not_manager {c : Address} (hw : Wired w)
    (h : caller.env.Authorized c ∧ w.vault.positionManager = some c) : False := by
  obtain ⟨ha, hm⟩ := h
  rw [hw.vaultManager] at hm
  exact Caller.ne_contract ha (by simp [Network.contracts]) (Option.some.inj hm).symm

theorem Wired.not_engine {c : Address} (hw : Wired w)
    (h : caller.env.Authorized c ∧ w.positionManager.liquidationEngine = some c) : False := by
  obtain ⟨ha, hm⟩ := h
  rw [hw.managerEngine] at hm
  exact Caller.ne_contract ha (by simp [Network.contracts]) (Option.some.inj hm).symm

theorem vault_effect {call : PerpsVault.Call} (hw : Wired w)
    (hk : KeepsWiring (.invoke caller (.vault call)))
    (h : (PerpsVault.invoke caller.env call : Contract N Unit).run w = .ok (u, w')) :
    Effect w (.invoke caller (.vault call)) (postingOf w (.vault call)) w' := by
  cases call with
  | initializeVault admin usdcToken bps =>
    simp [PerpsVault.invoke, initializeVault] at h
    have := hw.vaultAdmin
    simp [h.1] at this
  | deposit depositor amount =>
    simp only [PerpsVault.invoke, run_discard_ok, deposit_ok] at h
    obtain ⟨shares, ha, hp, hm, hs, hf, -, -, usdc, ht, rfl⟩ := h
    simp only [postingOf, hm]
    exact .deposited ha hp hm hs hf ht
  | withdraw depositor shares =>
    simp only [PerpsVault.invoke, run_discard_ok, withdraw_ok] at h
    obtain ⟨amount, ha, hs, hbal, hr, hp, hf, hutil, hempty, -, usdc, ht, rfl⟩ := h
    simp only [postingOf, hr]
    exact .withdrawn ha hs hbal hr hp hf hutil hempty ht
  | lockLiquidity c amount =>
    simp only [PerpsVault.invoke, lockLiquidity_ok] at h
    exact (hw.not_manager ⟨h.1, h.2.1⟩).elim
  | unlockLiquidity c amount =>
    simp only [PerpsVault.invoke, unlockLiquidity_ok] at h
    exact (hw.not_manager h.1).elim
  | settlePnl c trader pnl =>
    simp [PerpsVault.invoke, settlePnl] at h
    exact (hw.not_manager h.1).elim
  | closePositionSettlement c trader size collateral pnl fee =>
    simp only [PerpsVault.invoke, closePositionSettlement_ok] at h
    exact (hw.not_manager h.1).elim
  | collectFee c amount =>
    simp only [PerpsVault.invoke, collectFee_ok] at h
    exact (hw.not_manager h.1).elim
  | setPositionManager admin pm =>
    simp [PerpsVault.invoke, PerpsVault.setPositionManager] at h
    obtain ⟨-, rfl⟩ := h
    have hpm : some pm = w.vault.positionManager := by rw [hw.vaultManager, (hk : pm = _)]
    refine .quiet { Quiet.refl w with vault := ⟨w.vault.maxUtilization, ?_, .inl rfl⟩ }
    rw [hpm]
  | setMaxUtilization admin bps =>
    simp [PerpsVault.invoke, setMaxUtilization] at h
    obtain ⟨-, hb, rfl⟩ := h
    exact .quiet { Quiet.refl w with vault := ⟨bps, rfl, .inr hb⟩ }

theorem oracle_effect {call : PerpsOracleAdapter.Call} {a : Action N}
    (h : (PerpsOracleAdapter.invoke caller.env call : Contract N Unit).run w = .ok (u, w')) :
    Effect w a .quiet w' := by
  cases call with
  | initializeOracle admin threshold =>
    simp [PerpsOracleAdapter.invoke, initializeOracle] at h
    obtain ⟨-, -, rfl⟩ := h
    exact .quiet { Quiet.refl w with prices := fun _ _ h => .inl h }
  | setPrice admin asset price =>
    simp only [PerpsOracleAdapter.invoke, setPrice_ok] at h
    obtain ⟨-, hpos, rfl⟩ := h
    refine .quiet { Quiet.refl w with prices := ?_ }
    intro asset' c hc
    rcases lookup_of_insert hc with ⟨-, rfl⟩ | hc
    · exact .inr ⟨hpos, rfl⟩
    · exact .inl hc
  | setStalenessThreshold admin threshold =>
    simp [PerpsOracleAdapter.invoke, setStalenessThreshold] at h
    obtain ⟨-, -, rfl⟩ := h
    exact .quiet { Quiet.refl w with prices := fun _ _ h => .inl h }

theorem manager_effect {call : PerpsPositionManager.Call} (hw : Wired w)
    (hk : KeepsWiring (.invoke caller (.positionManager call)))
    (h : (PerpsPositionManager.invoke caller.env call : Contract N Unit).run w = .ok (u, w')) :
    Effect w (.invoke caller (.positionManager call)) (postingOf w (.positionManager call))
      w' := by
  cases call with
  | initializePositionManager admin vault oracle usdc openFee closeFee leverage collateral =>
    simp [PerpsPositionManager.invoke, initializePositionManager] at h
    have := hw.managerAdmin
    simp [h.1] at this
  | openPosition trader asset direction collateral leverage =>
    simp only [PerpsPositionManager.invoke, run_discard_ok] at h
    obtain ⟨id, h⟩ := h
    obtain ⟨rfl, price, usdc, hg, ht, rfl⟩ := openPosition_ok.mp h
    have hprice : freshPrice? w asset = some price := freshPrice?_eq_some.mpr hg.fresh
    simp only [postingOf, hprice]
    let p := openedPosition w trader asset direction collateral leverage price
    exact @Effect.opened N w _ caller.env p usdc hg.authorized rfl hg ht
  | closePosition trader id asset =>
    simp only [PerpsPositionManager.invoke, run_discard_ok] at h
    obtain ⟨net, h⟩ := h
    obtain ⟨ha, p, price, usdc, hp, -, rfl, hg, -, -, rfl, ht, rfl⟩ := closePosition_ok.mp h
    simp only [postingOf, hp, freshPrice?_eq_some.mpr hg.fresh]
    exact .closed ha hp hg ht
  | liquidatePosition c trader id asset =>
    simp only [PerpsPositionManager.invoke, run_discard_ok] at h
    obtain ⟨out, h⟩ := h
    obtain ⟨ha, he, -⟩ := liquidatePosition_ok.mp h
    exact (hw.not_engine ⟨ha, he⟩).elim
  | setFeeRates admin openBps closeBps =>
    simp [PerpsPositionManager.invoke, setFeeRates] at h
    obtain ⟨-, -, rfl⟩ := h
    exact .quiet { Quiet.refl w with manager := ⟨_, _, _, _, rfl⟩ }
  | setMaxLeverage admin max =>
    simp [PerpsPositionManager.invoke, setMaxLeverage] at h
    obtain ⟨-, -, rfl⟩ := h
    exact .quiet { Quiet.refl w with manager := ⟨_, _, _, _, rfl⟩ }
  | setLiquidationEngine admin engine =>
    simp [PerpsPositionManager.invoke, setLiquidationEngine] at h
    obtain ⟨-, rfl⟩ := h
    have he : some engine = w.positionManager.liquidationEngine := by
      rw [hw.managerEngine, (hk : engine = _)]
    refine .quiet { Quiet.refl w with
      manager := ⟨w.positionManager.openFeeRate, w.positionManager.closeFeeRate,
        w.positionManager.maxLeverage, w.positionManager.fundingAddress, ?_⟩ }
    rw [he]
  | setFundingAddress admin funding =>
    simp [PerpsPositionManager.invoke, setFundingAddress] at h
    obtain ⟨-, rfl⟩ := h
    exact .quiet { Quiet.refl w with manager := ⟨_, _, _, _, rfl⟩ }

theorem engine_effect {call : PerpsLiquidationEngine.Call} (hw : Wired w)
    (h : (PerpsLiquidationEngine.invoke caller.env call : Contract N Unit).run w = .ok (u, w')) :
    Effect w (.invoke caller (.engine call)) (postingOf w (.engine call)) w' := by
  cases call with
  | initializeEngine admin pm oracle maintenance penalty reward =>
    simp [PerpsLiquidationEngine.invoke, initializeEngine] at h
    have := hw.engineAdmin
    simp [h.1] at this
  | liquidate keeper trader id asset =>
    obtain ⟨ha, p, price, usdc, hp, rfl, -, hlow, hg, ht, rfl⟩ := liquidate_ok h
    simp only [postingOf, hp, freshPrice?_eq_some.mpr hg.fresh]
    exact .liquidated ha hp hlow hg ht
  | setMaintenanceMargin admin bps =>
    simp [PerpsLiquidationEngine.invoke, setMaintenanceMargin] at h
    obtain ⟨-, -, rfl⟩ := h
    exact .quiet { Quiet.refl w with engine := ⟨_, _, _, rfl⟩ }
  | setLiquidationPenalty admin bps =>
    simp [PerpsLiquidationEngine.invoke, setLiquidationPenalty] at h
    obtain ⟨-, rfl⟩ := h
    exact .quiet { Quiet.refl w with engine := ⟨_, _, _, rfl⟩ }
  | setKeeperReward admin bps =>
    simp [PerpsLiquidationEngine.invoke, setKeeperReward] at h
    obtain ⟨-, rfl⟩ := h
    exact .quiet { Quiet.refl w with engine := ⟨_, _, _, rfl⟩ }

theorem step_of_ok {call : Call} (h : (dispatch caller.env call).run w = .ok (u, w')) :
    step w (.invoke caller call) = w' := by
  simp only [step, h]

theorem invoke_cases (w : World N) (caller : Caller N) (call : Call) :
    step w (.invoke caller call) = w ∨
      ∃ u w', (dispatch caller.env call).run w = .ok (u, w') ∧
        step w (.invoke caller call) = w' := by
  cases h : (dispatch caller.env call).run w with
  | error f =>
    left
    simp only [step, h]
  | ok result =>
    right
    exact ⟨result.1, result.2, rfl, step_of_ok h⟩

/-- What a call leaves alone: the clock, the prices unless it posts one, and the storage of the
engine and of the funding contract unless it calls them. -/
structure CallFrame (call : Call) (w w' : World N) : Prop where
  clock : w'.timestamp = w.timestamp
  prices : w'.oracle.price = w.oracle.price ∨
    ∃ admin asset price, call = .oracle (.setPrice admin asset price)
  engine : (∀ c, call ≠ .engine c) → w'.engine = w.engine
  funding : (∀ c, call ≠ .funding c) → w'.funding = w.funding

theorem dispatch_frame {env : Env} {call : Call} (h : (dispatch env call).run w = .ok (u, w')) :
    CallFrame call w w' := by
  cases call with
  | vault c =>
    obtain ⟨_, _, _, -, rfl⟩ := PerpsVault.invoke_frame h
    exact ⟨rfl, .inl rfl, fun _ => rfl, fun _ => rfl⟩
  | oracle c =>
    obtain ⟨_, _, -, rfl, hprice | ⟨admin, asset, price, rfl⟩⟩ := PerpsOracleAdapter.invoke_frame h
    · exact ⟨rfl, .inl hprice, fun _ => rfl, fun _ => rfl⟩
    · exact ⟨rfl, .inr ⟨admin, asset, price, rfl⟩, fun _ => rfl, fun _ => rfl⟩
  | positionManager c =>
    obtain ⟨htime, horacle, hengine, hfunding⟩ := PerpsPositionManager.invoke_frame h
    exact ⟨htime, .inl (by rw [horacle]), fun _ => hengine, fun _ => hfunding⟩
  | engine c =>
    obtain ⟨htime, horacle, hfunding⟩ := PerpsLiquidationEngine.invoke_frame h
    exact ⟨htime, .inl (by rw [horacle]), fun hc => absurd rfl (hc c), fun _ => hfunding⟩
  | funding c =>
    obtain ⟨_, _, -, rfl⟩ := PerpsFundingRate.invoke_frame h
    exact ⟨rfl, .inl rfl, fun _ => rfl, fun hc => absurd rfl (hc c)⟩
  | transferUsdc src dst amount =>
    obtain ⟨-, -, usdc, -, rfl⟩ := transferUsdc_ok.mp h
    exact ⟨rfl, .inl rfl, fun _ => rfl, fun _ => rfl⟩

/-- What one step does is one of seven things, and the entry it posts says which. -/
theorem step_effect {a : Action N} (hw : Wired w) (hk : KeepsWiring a) :
    Effect w a (entryOf w a) (step w a) := by
  cases a with
  | invoke caller call =>
    cases h : (dispatch caller.env call).run w with
    | error f =>
      simp only [entryOf, step, h]
      exact .quiet (Quiet.refl w)
    | ok result =>
      simp only [entryOf, step, h]
      cases call with
      | vault call => exact vault_effect hw hk h
      | oracle call => exact oracle_effect h
      | positionManager call => exact manager_effect hw hk h
      | engine call => exact engine_effect hw h
      | funding call =>
        obtain ⟨s, es, -, hframe⟩ := PerpsFundingRate.invoke_frame (u := result.1) h
        rw [hframe]
        exact .quiet { Quiet.refl w with usdc := rfl }
      | transferUsdc src dst amount =>
        obtain ⟨-, ha, usdc, ht, hframe⟩ := transferUsdc_ok.mp h
        rw [← hframe]
        exact .transferred ha ht
  | advance seconds =>
    have htime : w.timestamp ≤ w.timestamp + seconds := Nat.le_add_right _ _
    exact .quiet { Quiet.refl w with time := htime }
  | expirePrice asset =>
    refine .quiet { Quiet.refl w with prices := ?_ }
    intro asset' c h
    left
    exact lookup_of_erase h

end Effects

section Harness

def harnessConfig : Config where
  admin := ⟨10⟩
  maxUtilization := 8000
  stalenessThreshold := 300
  openFee := 10
  closeFee := 10
  maxLeverage := 30
  minCollateral := 100000000
  maintenanceMargin := 500
  liquidationPenalty := 250
  keeperReward := 50
  fundingInterval := 3600
  maxFundingRate := 10
  fundingSpread := 5

def deployHarness (c : Config) (balances : Address → ℕ) : World harness :=
  match (deploy c).run { timestamp := 1000, usdc := balances } with
  | .ok (_, w) => w
  | .error _ => { timestamp := 1000, usdc := balances }

/-- The harness with its admin at address 10, a liquidity provider at 11, a trader at 12 and a
keeper at 13, the first two of the last three funded. -/
def harnessStart : World harness :=
  deployHarness harnessConfig fun a => if a = ⟨11⟩ ∨ a = ⟨12⟩ then 10000000000000 else 0

theorem deployed_harness : Deployed harnessStart := ⟨harnessConfig, 1000, _, rfl⟩

/-- An account of the harness calls on its own signature. -/
def signed (n : ℕ) (call : Call) (h : (⟨n⟩ : Address) ∉ harness.contracts := by decide) :
    Action harness := .invoke (signedBy ⟨n⟩ h) call

def postPrice (asset : ℕ) (price : ℤ) : Action harness :=
  signed 10 (.oracle (.setPrice ⟨10⟩ asset price))

def provide (amount : ℤ) : Action harness := signed 11 (.vault (.deposit ⟨11⟩ amount))

def withdrawShares (shares : ℤ) : Action harness := signed 11 (.vault (.withdraw ⟨11⟩ shares))

def openLong (asset : ℕ) (collateral : ℤ) (leverage : ℕ) : Action harness :=
  signed 12 (.positionManager (.openPosition ⟨12⟩ asset .Long collateral leverage))

def close (id asset : ℕ) : Action harness :=
  signed 12 (.positionManager (.closePosition ⟨12⟩ id asset))

def orderLiquidation (id asset : ℕ) : Action harness :=
  signed 13 (.engine (.liquidate ⟨13⟩ ⟨12⟩ id asset))

def applyFundingNow : Action harness := signed 13 (.funding (.applyFunding ⟨13⟩))

def byAdmin (call : Call) : Action harness := signed 10 call

def harnessTrader : Caller harness := signedBy ⟨12⟩ (by decide)

def harnessKeeper : Caller harness := signedBy ⟨13⟩ (by decide)

end Harness

end PerpsSystem
