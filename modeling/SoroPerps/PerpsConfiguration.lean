import SoroPerps.PerpsSystem

/-! # Who configures the contracts, and with what

No wiring is assumed here: the five contracts may be initialized in any order, by anyone, and wired
to anything. Each then answers to the admin of its first initialization and to nobody else. -/
namespace PerpsConfiguration

open SorobanHost PerpsTypes PerpsVault PerpsOracleAdapter PerpsPositionManager
open PerpsLiquidationEngine PerpsFundingRate PerpsSystem

variable {N : Network}

inductive Component where
  | vault
  | oracle
  | positionManager
  | engine
  | funding
  deriving DecidableEq, Repr

/-- What `initialize` and the setters of a contract write, less the running totals. -/
structure Settings where
  admin : Option Address
  addresses : List (Option Address)
  parameters : List ℤ
  deriving DecidableEq, Repr

def settings (w : World N) : Component → Settings
  | .vault => ⟨w.vault.admin, [w.vault.usdcToken, w.vault.positionManager],
      [w.vault.maxUtilization]⟩
  | .oracle => ⟨w.oracle.admin, [], [w.oracle.stalenessThreshold]⟩
  | .positionManager =>
    let s := w.positionManager
    ⟨s.admin, [s.vaultAddress, s.oracleAddress, s.fundingAddress, s.liquidationEngine,
      s.usdcToken], [s.openFeeRate, s.closeFeeRate, s.maxLeverage, s.minCollateral]⟩
  | .engine =>
    let s := w.engine
    ⟨s.admin, [s.positionManagerAddress, s.oracleAddress],
      [s.maintenanceMarginRate, s.liquidationPenalty, s.keeperReward]⟩
  | .funding =>
    let s := w.funding
    ⟨s.admin, [s.positionManagerAddress], [s.fundingInterval, s.maxFundingRate, s.fundingSpread]⟩

def Legal (w : World N) : Component → Prop
  | .vault => w.vault.maxUtilization ≠ 0 ∧ w.vault.maxUtilization ≤ BPS_DENOMINATOR
  | .oracle => w.oracle.stalenessThreshold ≠ 0
  | .positionManager => w.positionManager.maxLeverage ≠ 0 ∧
      w.positionManager.openFeeRate ≤ 1000 ∧ w.positionManager.closeFeeRate ≤ 1000
  | .engine => w.engine.maintenanceMarginRate ≠ 0 ∧ w.engine.maintenanceMarginRate ≤ 5000
  | .funding => w.funding.fundingInterval ≠ 0 ∧ w.funding.maxFundingRate ≠ 0

/-- What a step can do to one contract's settings. -/
inductive Governed (a : Action N) (w w' : World N) (c : Component) : Prop where
  | kept (hs : settings w' c = settings w c) (hl : Legal w c → Legal w' c)
  | initialized (hnone : (settings w c).admin = none) (hl : Legal w' c)
  | set {admin : Address} (hadmin : (settings w c).admin = some admin)
      (hauth : a.Authorized admin) (hsame : (settings w' c).admin = (settings w c).admin)
      (hl : Legal w c → Legal w' c)

section Steps

variable {w w' : World N} {a : Action N} {caller : Caller N} {u : Unit} {c : Component}

theorem governed_refl : Governed a w w c := .kept rfl id

theorem vault_governed {call : PerpsVault.Call}
    (h : (PerpsVault.invoke caller.env call : Contract N Unit).run w = .ok (u, w')) :
    ∀ c, Governed (.invoke caller (.vault call)) w w' c := by
  intro c
  by_cases hc : c = .vault
  · subst hc
    cases call with
    | initializeVault admin usdcToken bps =>
      simp [PerpsVault.invoke, initializeVault] at h
      obtain ⟨hnone, hb, rfl⟩ := h
      exact .initialized hnone hb
    | deposit depositor amount =>
      simp only [PerpsVault.invoke, run_discard_ok, deposit_ok] at h
      obtain ⟨shares, -, -, -, -, -, -, -, usdc, -, rfl⟩ := h
      exact .kept rfl id
    | withdraw depositor shares =>
      simp only [PerpsVault.invoke, run_discard_ok, withdraw_ok] at h
      obtain ⟨amount, -, -, -, -, -, -, -, -, -, usdc, -, rfl⟩ := h
      exact .kept rfl id
    | lockLiquidity caller amount =>
      simp only [PerpsVault.invoke, lockLiquidity_ok] at h
      obtain ⟨-, -, -, -, -, rfl⟩ := h
      exact .kept rfl id
    | unlockLiquidity caller amount =>
      simp only [PerpsVault.invoke, unlockLiquidity_ok] at h
      obtain ⟨-, -, -, -, rfl⟩ := h
      exact .kept rfl id
    | settlePnl caller trader pnl =>
      obtain ⟨-, -, usdc, rfl⟩ := settlePnl_ok h
      exact .kept rfl id
    | closePositionSettlement caller trader size collateral pnl fee =>
      simp only [PerpsVault.invoke, closePositionSettlement_ok] at h
      obtain ⟨-, -, -, -, -, usdc, -, rfl⟩ := h
      exact .kept rfl id
    | collectFee caller amount =>
      simp only [PerpsVault.invoke, collectFee_ok] at h
      obtain ⟨-, -, -, rfl⟩ := h
      exact .kept rfl id
    | setPositionManager admin pm =>
      simp [PerpsVault.invoke, PerpsVault.setPositionManager] at h
      obtain ⟨⟨hauth, hadmin⟩, rfl⟩ := h
      exact .set hadmin hauth rfl id
    | setMaxUtilization admin bps =>
      simp [PerpsVault.invoke, setMaxUtilization] at h
      obtain ⟨⟨hauth, hadmin⟩, hb, rfl⟩ := h
      exact .set hadmin hauth rfl fun _ => hb
  · obtain ⟨s, usdc, es, -, rfl⟩ := PerpsVault.invoke_frame h
    cases c with
    | vault => exact absurd rfl hc
    | _ => exact .kept rfl id

theorem oracle_governed {call : PerpsOracleAdapter.Call}
    (h : (PerpsOracleAdapter.invoke caller.env call : Contract N Unit).run w = .ok (u, w')) :
    ∀ c, Governed (.invoke caller (.oracle call)) w w' c := by
  intro c
  by_cases hc : c = .oracle
  · subst hc
    cases call with
    | initializeOracle admin threshold =>
      simp [PerpsOracleAdapter.invoke, initializeOracle] at h
      obtain ⟨hnone, hb, rfl⟩ := h
      exact .initialized hnone hb
    | setPrice admin asset price =>
      obtain ⟨-, -, rfl⟩ := setPrice_ok.mp h
      exact .kept rfl id
    | setStalenessThreshold admin threshold =>
      simp [PerpsOracleAdapter.invoke, setStalenessThreshold] at h
      obtain ⟨⟨hauth, hadmin⟩, hb, rfl⟩ := h
      exact .set hadmin hauth rfl fun _ => hb
  · obtain ⟨s, es, -, rfl, -⟩ := PerpsOracleAdapter.invoke_frame h
    cases c with
    | oracle => exact absurd rfl hc
    | _ => exact .kept rfl id

theorem manager_governed {call : PerpsPositionManager.Call}
    (h : (PerpsPositionManager.invoke caller.env call : Contract N Unit).run w = .ok (u, w')) :
    ∀ c, Governed (.invoke caller (.positionManager call)) w w' c := by
  intro c
  cases call with
  | initializePositionManager admin vault oracle usdc openFee closeFee leverage collateral =>
    simp [PerpsPositionManager.invoke, initializePositionManager] at h
    obtain ⟨hnone, ⟨hleverage, hopen, hclose⟩, rfl⟩ := h
    cases c with
    | positionManager => exact .initialized hnone ⟨hleverage, hopen, hclose⟩
    | _ => exact .kept rfl id
  | openPosition trader asset direction collateral leverage =>
    simp only [PerpsPositionManager.invoke, run_discard_ok] at h
    obtain ⟨id, h⟩ := h
    obtain ⟨rfl, price, usdc, -, -, rfl⟩ := openPosition_ok.mp h
    cases c <;> exact .kept rfl fun hl => hl
  | closePosition trader id asset =>
    simp only [PerpsPositionManager.invoke, run_discard_ok] at h
    obtain ⟨net, h⟩ := h
    obtain ⟨-, p, price, usdc, -, -, -, -, -, -, -, -, rfl⟩ := closePosition_ok.mp h
    cases c <;> exact .kept rfl fun hl => hl
  | liquidatePosition caller trader id asset =>
    simp only [PerpsPositionManager.invoke, run_discard_ok] at h
    obtain ⟨out, h⟩ := h
    obtain ⟨-, -, p, price, usdc, -, -, -, -, -, rfl⟩ := liquidatePosition_ok.mp h
    cases c <;> exact .kept rfl fun hl => hl
  | setFeeRates admin openBps closeBps =>
    simp [PerpsPositionManager.invoke, setFeeRates] at h
    obtain ⟨⟨hauth, hadmin⟩, hb, rfl⟩ := h
    cases c with
    | positionManager => exact .set hadmin hauth rfl fun hl => ⟨hl.1, hb⟩
    | _ => exact .kept rfl id
  | setMaxLeverage admin max =>
    simp [PerpsPositionManager.invoke, setMaxLeverage] at h
    obtain ⟨⟨hauth, hadmin⟩, hb, rfl⟩ := h
    cases c with
    | positionManager => exact .set hadmin hauth rfl fun hl => ⟨hb, hl.2⟩
    | _ => exact .kept rfl id
  | setLiquidationEngine admin engine =>
    simp [PerpsPositionManager.invoke, setLiquidationEngine] at h
    obtain ⟨⟨hauth, hadmin⟩, rfl⟩ := h
    cases c with
    | positionManager => exact .set hadmin hauth rfl id
    | _ => exact .kept rfl id
  | setFundingAddress admin funding =>
    simp [PerpsPositionManager.invoke, setFundingAddress] at h
    obtain ⟨⟨hauth, hadmin⟩, rfl⟩ := h
    cases c with
    | positionManager => exact .set hadmin hauth rfl id
    | _ => exact .kept rfl id

theorem engine_governed {call : PerpsLiquidationEngine.Call}
    (h : (PerpsLiquidationEngine.invoke caller.env call : Contract N Unit).run w = .ok (u, w')) :
    ∀ c, Governed (.invoke caller (.engine call)) w w' c := by
  intro c
  cases call with
  | initializeEngine admin pm oracle maintenance penalty reward =>
    simp [PerpsLiquidationEngine.invoke, initializeEngine] at h
    obtain ⟨hnone, hb, -, rfl⟩ := h
    cases c with
    | engine => exact .initialized hnone hb
    | _ => exact .kept rfl id
  | liquidate keeper trader id asset =>
    obtain ⟨-, p, price, usdc, -, -, -, -, -, -, rfl⟩ := liquidate_ok h
    cases c <;> exact .kept rfl fun hl => hl
  | setMaintenanceMargin admin bps =>
    simp [PerpsLiquidationEngine.invoke, setMaintenanceMargin] at h
    obtain ⟨⟨hauth, hadmin⟩, hb, rfl⟩ := h
    cases c with
    | engine => exact .set hadmin hauth rfl fun _ => hb
    | _ => exact .kept rfl id
  | setLiquidationPenalty admin bps =>
    simp [PerpsLiquidationEngine.invoke, setLiquidationPenalty] at h
    obtain ⟨⟨hauth, hadmin⟩, rfl⟩ := h
    cases c with
    | engine => exact .set hadmin hauth rfl id
    | _ => exact .kept rfl id
  | setKeeperReward admin bps =>
    simp [PerpsLiquidationEngine.invoke, setKeeperReward] at h
    obtain ⟨⟨hauth, hadmin⟩, rfl⟩ := h
    cases c with
    | engine => exact .set hadmin hauth rfl id
    | _ => exact .kept rfl id

theorem funding_governed {call : PerpsFundingRate.Call}
    (h : (PerpsFundingRate.invoke caller.env call : Contract N Unit).run w = .ok (u, w')) :
    ∀ c, Governed (.invoke caller (.funding call)) w w' c := by
  intro c
  by_cases hc : c = .funding
  · subst hc
    cases call with
    | initializeFunding admin pm interval rate spread =>
      simp [PerpsFundingRate.invoke, initializeFunding] at h
      obtain ⟨hnone, hb, rfl⟩ := h
      exact .initialized hnone hb
    | applyFunding keeper =>
      simp [PerpsFundingRate.invoke, applyFunding] at h
      obtain ⟨-, -, -, longRate, shortRate, w₁, hrate, -, -, -, rfl⟩ := h
      obtain rfl := getCurrentRate_frame hrate
      exact .kept rfl id
    | setFundingInterval admin interval =>
      simp [PerpsFundingRate.invoke, setFundingInterval] at h
      obtain ⟨⟨hauth, hadmin⟩, hb, rfl⟩ := h
      exact .set hadmin hauth rfl fun hl => ⟨hb, hl.2⟩
    | setMaxRate admin maxBps =>
      simp [PerpsFundingRate.invoke, setMaxRate] at h
      obtain ⟨⟨hauth, hadmin⟩, hb, rfl⟩ := h
      exact .set hadmin hauth rfl fun hl => ⟨hl.1, hb⟩
  · obtain ⟨s, es, -, rfl⟩ := PerpsFundingRate.invoke_frame h
    cases c with
    | funding => exact absurd rfl hc
    | _ => exact .kept rfl id

theorem step_governed : Governed a w (step w a) c := by
  cases a with
  | advance seconds => cases c <;> exact .kept rfl id
  | expirePrice asset => cases c <;> exact .kept rfl id
  | invoke caller call =>
    rcases invoke_cases w caller call with hsame | ⟨u, w', h, hstep⟩
    · rw [hsame]
      exact governed_refl
    · rw [hstep]
      cases call with
      | vault call => exact vault_governed h c
      | oracle call => exact oracle_governed h c
      | positionManager call => exact manager_governed h c
      | engine call => exact engine_governed h c
      | funding call => exact funding_governed h c
      | transferUsdc src dst amount =>
        obtain ⟨-, -, usdc, -, rfl⟩ := transferUsdc_ok.mp h
        cases c <;> exact .kept rfl id

end Steps

section Runs

variable {w : World N} {as : List (Action N)} {c : Component} {admin : Address}

/-- A ledger on which nobody has initialized anything. -/
def blank (N : Network) (timestamp : ℕ) (usdc : N.token.State) : World N :=
  { timestamp := timestamp, usdc := usdc }

/-- Initialization and every setter keep a contract's parameters in range, and the defaults the
getters fall back to before are in range too. -/
theorem parameters_legal (timestamp : ℕ) (usdc : N.token.State) (as : List (Action N)) :
    ∀ c, Legal (ActionRuns.runActions step (blank N timestamp usdc) as) c := by
  intro c
  have hstep : ∀ (w : World N) (a : Action N), Legal w c → True → Legal (step w a) c := by
    intro w a hl _
    cases step_governed (w := w) (a := a) (c := c) with
    | kept hs hl' => exact hl' hl
    | initialized hnone hl' => exact hl'
    | set hadmin hauth hsame hl' => exact hl' hl
  have hblank : Legal (blank N timestamp usdc) c := by
    cases c <;> simp [Legal, blank, BPS_DENOMINATOR]
  exact ActionRuns.invariant_run hstep
    (ActionRuns.along_of_forall (P := fun _ _ => True) fun _ _ _ => trivial) hblank

theorem step_admin {a : Action N} (ha : (settings w c).admin = some admin) :
    (settings (step w a) c).admin = some admin := by
  cases step_governed (w := w) (a := a) (c := c) with
  | kept hs hl => rw [hs, ha]
  | initialized hnone hl =>
    rw [ha] at hnone
    cases hnone
  | set hadmin hauth hsame hl => rw [hsame, ha]

theorem step_settings {a : Action N} (ha : (settings w c).admin = some admin)
    (hout : ¬ a.Authorized admin) : settings (step w a) c = settings w c := by
  cases step_governed (w := w) (a := a) (c := c) with
  | kept hs hl => exact hs
  | initialized hnone hl =>
    rw [ha] at hnone
    cases hnone
  | set hadmin hauth hsame hl =>
    rw [ha] at hadmin
    exact absurd (Option.some.inj hadmin ▸ hauth) hout

/-- The admin of a contract's first initialization is its admin for good, and a run none of whose
actions that admin stands behind leaves the contract as it was configured. -/
theorem first_admin_governs (ha : (settings w c).admin = some admin) (as : List (Action N)) :
    (settings (ActionRuns.runActions step w as) c).admin = some admin ∧
      ((∀ a ∈ as, ¬ a.Authorized admin) →
        settings (ActionRuns.runActions step w as) c = settings w c) := by
  induction as generalizing w with
  | nil => exact ⟨ha, fun _ => rfl⟩
  | cons a as ih =>
    obtain ⟨hadmin, hkept⟩ := ih (step_admin (a := a) ha)
    refine ⟨hadmin, ?_⟩
    intro hout
    have hfirst := step_settings ha (hout a List.mem_cons_self)
    rw [ActionRuns.run_cons, hkept fun b hb => hout b (List.mem_cons_of_mem a hb), hfirst]

theorem harness_admin_governs :
    (settings (ActionRuns.runActions step harnessStart
        [provide 1000000000000, .advance 3600, applyFundingNow]) .engine).admin = some ⟨10⟩ ∧
      settings (ActionRuns.runActions step harnessStart
        [provide 1000000000000, .advance 3600, applyFundingNow]) .engine =
          settings harnessStart .engine := by
  have hstart : (settings harnessStart .engine).admin = some ⟨10⟩ := rfl
  obtain ⟨hadmin, hkept⟩ := first_admin_governs hstart
    [provide 1000000000000, .advance 3600, applyFundingNow]
  exact ⟨hadmin, hkept (by decide)⟩

end Runs

end PerpsConfiguration
