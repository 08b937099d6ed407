import Mathlib.Data.Finmap
import SoroPerps.SorobanHost

/-! # Shared types and the storage of the five contracts

Storage defaults are the values the getters fall back to before initialization. -/
namespace PerpsTypes

open SorobanHost

inductive PerpsError where
  | NotInitialized
  | AlreadyInitialized
  | InsufficientBalance
  | InsufficientLiquidity
  | InvalidAmount
  | InvalidLeverage
  | PositionNotFound
  | StalePrice
  | MaxUtilizationExceeded
  | NotLiquidatable
  | Unauthorized
  | InvalidConfig
  | OverflowError
  | ZeroShares
  | MinCollateralNotMet
  | FundingTooEarly
  | AssetMismatch
  deriving DecidableEq, Repr

/-- The number an error is returned under. -/
def PerpsError.code : PerpsError → ℕ
  | .NotInitialized => 1
  | .AlreadyInitialized => 2
  | .InsufficientBalance => 3
  | .InsufficientLiquidity => 4
  | .InvalidAmount => 5
  | .InvalidLeverage => 6
  | .PositionNotFound => 7
  | .StalePrice => 8
  | .MaxUtilizationExceeded => 9
  | .NotLiquidatable => 10
  | .Unauthorized => 11
  | .InvalidConfig => 12
  | .OverflowError => 13
  | .ZeroShares => 14
  | .MinCollateralNotMet => 15
  | .FundingTooEarly => 16
  | .AssetMismatch => 17

def PerpsError.ofCode (code : ℕ) : Option PerpsError :=
  [.NotInitialized, .AlreadyInitialized, .InsufficientBalance, .InsufficientLiquidity,
    .InvalidAmount, .InvalidLeverage, .PositionNotFound, .StalePrice, .MaxUtilizationExceeded,
    .NotLiquidatable, .Unauthorized, .InvalidConfig, .OverflowError, .ZeroShares,
    .MinCollateralNotMet, .FundingTooEarly, .AssetMismatch].find? fun e => e.code = code

@[simp] theorem PerpsError.ofCode_eq_some {code : ℕ} {e : PerpsError} :
    ofCode code = some e ↔ code = e.code := by
  constructor
  · intro h
    have hcode := List.find?_some h
    exact (of_decide_eq_true hcode).symm
  · rintro rfl
    cases e <;> rfl

def DECIMALS : ℤ := 10000000
def BPS_DENOMINATOR : ℕ := 10000

inductive Direction where
  | Long
  | Short
  deriving DecidableEq, Repr

structure Position where
  id : ℕ
  trader : Address
  asset : ℕ
  direction : Direction
  size : ℤ
  collateral : ℤ
  entryPrice : ℤ
  leverage : ℕ
  fundingIndex : ℤ
  openedAt : ℕ
  deriving DecidableEq, Repr

structure CachedPrice where
  price : ℤ
  timestamp : ℕ
  deriving DecidableEq, Repr

abbrev PositionKey := Address × ℕ

structure VaultStorage where
  admin : Option Address := none
  usdcToken : Option Address := none
  totalShares : ℤ := 0
  totalDeposits : ℤ := 0
  lockedLiquidity : ℤ := 0
  maxUtilization : ℕ := 8000
  positionManager : Option Address := none
  shareBalance : Finmap (fun _ : Address => ℤ) := ∅

structure OracleStorage where
  admin : Option Address := none
  stalenessThreshold : ℕ := 300
  price : Finmap (fun _ : ℕ => CachedPrice) := ∅

structure PositionStorage where
  admin : Option Address := none
  vaultAddress : Option Address := none
  oracleAddress : Option Address := none
  fundingAddress : Option Address := none
  liquidationEngine : Option Address := none
  usdcToken : Option Address := none
  nextPositionId : ℕ := 1
  openFeeRate : ℕ := 10
  closeFeeRate : ℕ := 10
  maxLeverage : ℕ := 30
  minCollateral : ℤ := 100000000
  openInterestLong : ℤ := 0
  openInterestShort : ℤ := 0
  position : Finmap (fun _ : PositionKey => Position) := ∅
  traderPositionCount : Finmap (fun _ : Address => ℕ) := ∅

structure LiquidationStorage where
  admin : Option Address := none
  positionManagerAddress : Option Address := none
  oracleAddress : Option Address := none
  maintenanceMarginRate : ℕ := 500
  liquidationPenalty : ℕ := 250
  keeperReward : ℕ := 50

structure FundingStorage where
  admin : Option Address := none
  positionManagerAddress : Option Address := none
  fundingInterval : ℕ := 3600
  maxFundingRate : ℕ := 10
  fundingSpread : ℕ := 5
  cumulativeFundingLong : ℤ := 0
  cumulativeFundingShort : ℤ := 0
  lastFundingTime : ℕ := 0

inductive Event where
  | deposit (depositor : Address) (amount sharesMinted : ℤ)
  | withdraw (depositor : Address) (sharesBurned amountReturned : ℤ)
  | liquidityLocked (amount : ℤ)
  | liquidityUnlocked (amount : ℤ)
  | pnlSettled (trader : Address) (pnl : ℤ)
  | feeCollected (amount : ℤ)
  | priceFetched (asset : ℕ) (price : ℤ) (timestamp : ℕ)
  | positionOpened (trader : Address) (positionId : ℕ) (direction : Direction)
      (size collateral entryPrice : ℤ) (leverage : ℕ) (fee : ℤ)
  | positionClosed (trader : Address) (positionId : ℕ) (exitPrice realizedPnl fee : ℤ)
  | liquidation (trader : Address) (positionId : ℕ) (keeper : Address)
      (markPrice marginRatioBps penalty keeperReward : ℤ)
  | fundingApplied (longRate shortRate cumulativeLong cumulativeShort oiLong oiShort : ℤ)
      (timestamp : ℕ)
  deriving DecidableEq, Repr

/-- What the contracts find outside the repository: the addresses they were deployed at and
the USDC token contract. -/
structure Network where
  token : Token
  usdc : Address
  vault : Address
  oracle : Address
  positionManager : Address
  engine : Address
  funding : Address
  distinct : [usdc, vault, oracle, positionManager, engine, funding].Nodup

def Network.contracts (N : Network) : List Address :=
  [N.usdc, N.vault, N.oracle, N.positionManager, N.engine, N.funding]

/-- The addresses the integration harness deploys to, over a plain token ledger. -/
def harness : Network where
  token := ledgerToken
  usdc := ⟨1⟩
  vault := ⟨2⟩
  oracle := ⟨3⟩
  positionManager := ⟨4⟩
  engine := ⟨5⟩
  funding := ⟨6⟩
  distinct := by decide

/-- The ledger: its clock, the token's own state, the storage of each contract and the events
published so far, oldest first. -/
structure World (N : Network) where
  timestamp : ℕ
  usdc : N.token.State
  vault : VaultStorage := {}
  oracle : OracleStorage := {}
  positionManager : PositionStorage := {}
  engine : LiquidationStorage := {}
  funding : FundingStorage := {}
  events : List Event := []

abbrev Contract (N : Network) (α : Type) := Transaction PerpsError (World N) α

variable {N : Network}

def World.usdcBalance (w : World N) (a : Address) : ℤ := N.token.balance w.usdc a

def emit (e : Event) : Contract N Unit := modify fun w => { w with events := w.events ++ [e] }

/-- `TokenClient::transfer`: the token asks for the payer's authorization and moves the amount. Its
refusals reach the caller unchanged. -/
def transferUsdc (env : Env) (token src dst : Address) (amount : ℤ) : Contract N Unit := do
  requireContract token N.usdc
  requireAuth env src
  let usdc ← propagate PerpsError.ofCode (N.token.transfer (← get).usdc src dst amount)
  modify fun w => { w with usdc := usdc }

def requireAdmin (env : Env) (admin : Address) (stored : Option Address) :
    Contract N Unit := do
  requireAuth env admin
  let storedAdmin ← unwrap stored
  rejectIf (admin ≠ storedAdmin) .Unauthorized

@[simp] theorem emit_ok {e : Event} {w w' : World N} {u : Unit} :
    (emit e : Contract N Unit).run w = .ok (u, w') ↔
      { w with events := w.events ++ [e] } = w' := by
  simp [emit]

@[simp] theorem emit_error {e : Event} {w : World N} {f : Failure PerpsError} :
    ¬ (emit e : Contract N Unit).run w = .error f := by
  simp [emit]

@[simp] theorem transferUsdc_ok {env : Env} {token src dst : Address} {amount : ℤ}
    {w w' : World N} {u : Unit} :
    (transferUsdc env token src dst amount : Contract N Unit).run w = .ok (u, w') ↔
      token = N.usdc ∧ env.Authorized src ∧
        ∃ usdc, N.token.transfer w.usdc src dst amount = .ok usdc ∧
          { w with usdc := usdc } = w' := by
  simp [transferUsdc]

/-- A transfer ends with an error of the contracts where the token refuses it with that number. -/
@[simp] theorem transferUsdc_error {env : Env} {token src dst : Address} {amount : ℤ}
    {w : World N} {e : PerpsError} :
    (transferUsdc env token src dst amount : Contract N Unit).run w = .error (.contract e) ↔
      token = N.usdc ∧ env.Authorized src ∧
        N.token.transfer w.usdc src dst amount = .error (some e.code) := by
  simp [transferUsdc]

@[simp] theorem requireAdmin_ok {env : Env} {admin : Address} {stored : Option Address}
    {w w' : World N} {u : Unit} :
    (requireAdmin env admin stored : Contract N Unit).run w = .ok (u, w') ↔
      env.Authorized admin ∧ stored = some admin ∧ w = w' := by
  cases stored with
  | none => simp [requireAdmin]
  | some stored =>
    simp only [requireAdmin, StateT.run_bind, except_bind_ok, requireAuth_ok, unwrap_ok,
      rejectIf_ok, Prod.exists]
    aesop

end PerpsTypes
