import SoroPerps.PerpsEventAccounts
import SoroPerps.PerpsSystemInvariant

/-! # The log tells the ledger

Every call of a wired system announces one transaction of the event accounts, and the ledger moves
as the accounts do. Only the USDC that people send each other directly goes unannounced. -/
namespace PerpsEventReplay

open SorobanHost PerpsTypes PerpsVault PerpsPositionManager PerpsLiquidationEngine PerpsSystem
open PerpsVaultInvariant PerpsSystemInvariant PerpsEventAccounts

variable {N : Network}

def accountsOf (w : World N) : Accounts where
  deposits := w.vault.totalDeposits
  shares := w.vault.totalShares
  locked := w.vault.lockedLiquidity
  balance := getShareBalance w.vault
  interest := openInterest w.positionManager
  nextId := w.positionManager.nextPositionId
  position key := (w.positionManager.position.lookup key).map announce
  count := getTraderPositionCount w.positionManager
  cumulative
    | .Long => w.funding.cumulativeFundingLong
    | .Short => w.funding.cumulativeFundingShort
  lastFunding := w.funding.lastFundingTime

/-- The action sends USDC from or to an account outside every contract's code. -/
def Sends (account : Address) : Action N → Prop
  | .invoke _ (.transferUsdc src dst _) => src = account ∨ dst = account
  | _ => False

instance (account : Address) : (a : Action N) → Decidable (Sends account a)
  | .invoke _ (.transferUsdc src dst _) =>
    inferInstanceAs (Decidable (src = account ∨ dst = account))
  | .invoke _ (.vault _) | .invoke _ (.oracle _) | .invoke _ (.positionManager _)
  | .invoke _ (.engine _) | .invoke _ (.funding _) | .advance _ | .expirePrice _ => isFalse id

/-- The new events of a step are one transaction, and the ledger follows it. -/
structure Recorded (a : Action N) (w w' : World N) (new : List Event) : Prop where
  told : Told (accountsOf w) new
  log : w'.events = w.events ++ new
  accounts : accountsOf w' = replay (accountsOf w) new
  cash : N.token.Exact → ∀ account, account ∉ N.contracts → ¬ Sends account a →
    w'.usdcBalance account = w.usdcBalance account + flow account (accountsOf w) new

section Accounts

variable {w : World N} {usdc : N.token.State} {es : List Event}

theorem getShareBalance_update {v v' : VaultStorage} {account : Address} {x : ℤ}
    (h : v'.shareBalance = v.shareBalance.insert account x) :
    getShareBalance v' = Function.update (getShareBalance v) account x := by
  funext other
  rw [getShareBalance_of_insert h, Function.update_apply]

theorem accountsOf_deposit {depositor : Address} {amount shares : ℤ} :
    accountsOf { w with
      usdc := usdc
      vault := afterDeposit w.vault depositor amount shares
      events := es } = record (accountsOf w) (.deposit depositor amount shares) := by
  ext1
  case balance => exact getShareBalance_update rfl
  all_goals rfl

theorem accountsOf_withdraw {depositor : Address} {shares amount : ℤ} :
    accountsOf { w with
      usdc := usdc
      vault := afterWithdraw w.vault depositor shares amount
      events := es } = record (accountsOf w) (.withdraw depositor shares amount) := by
  ext1
  case balance => exact getShareBalance_update rfl
  all_goals rfl

theorem openInterest_afterOpen {s : PositionStorage} {p : Position} :
    openInterest (afterOpen s p) =
      Function.update (openInterest s) p.direction (openInterest s p.direction + p.size) := by
  funext d
  rw [Function.update_apply]
  cases d <;> cases h : p.direction <;> simp [openInterest, afterOpen, sizeOn, h]

theorem openInterest_afterRemove {s : PositionStorage} {trader : Address} {id : ℕ}
    {p : Position} : openInterest (afterRemove s trader id p) =
      Function.update (openInterest s) p.direction (openInterest s p.direction - p.size) := by
  funext d
  rw [Function.update_apply]
  cases d <;> cases h : p.direction <;> simp [openInterest, afterRemove, sizeOn, h]

theorem count_afterOpen {s : PositionStorage} {p : Position} :
    getTraderPositionCount (afterOpen s p) = Function.update (getTraderPositionCount s) p.trader
      (getTraderPositionCount s p.trader + 1) := by
  funext account
  rw [getTraderPositionCount_afterOpen, Function.update_apply]
  by_cases haccount : account = p.trader
  · subst haccount
    rw [if_pos rfl, if_pos rfl]
  · rw [if_neg haccount, if_neg haccount, Nat.add_zero]

theorem count_afterRemove {s : PositionStorage} {trader : Address} {id : ℕ} {p : Position} :
    getTraderPositionCount (afterRemove s trader id p) =
      Function.update (getTraderPositionCount s) trader (getTraderPositionCount s trader - 1) := by
  funext account
  rw [getTraderPositionCount_afterRemove, Function.update_apply]
  by_cases haccount : account = trader
  · subst haccount
    rw [if_pos rfl, if_pos rfl]
  · rw [if_neg haccount, if_neg haccount, Nat.sub_zero]

theorem accountsOf_opened {p : Position} {fee : ℤ}
    (hid : p.id = w.positionManager.nextPositionId) :
    accountsOf { w with
      usdc := usdc
      vault := afterOpening w.vault p.size fee
      positionManager := afterOpen w.positionManager p
      events := es } = replay (accountsOf w) [.liquidityLocked p.size, .feeCollected fee,
        opening p.trader p.id (announce p) fee] := by
  ext1
  case interest => exact openInterest_afterOpen
  case nextId => exact congrArg (· + 1) hid.symm
  case position =>
    funext key
    by_cases hkey : key = (p.trader, p.id)
    · subst hkey
      simp [accountsOf, afterOpen, replay, record, opening, announce]
    · simp [accountsOf, afterOpen, replay, record, opening, Finmap.lookup_insert_of_ne _ hkey,
        Function.update_of_ne hkey]
  case count => exact count_afterOpen
  all_goals rfl

theorem position_accountsOf {key : PositionKey} {p : Position}
    (hp : w.positionManager.position.lookup key = some p) :
    (accountsOf w).position key = some (announce p) := by
  simp only [accountsOf, hp, Option.map_some]

theorem accountsOf_removed {trader : Address} {id : ℕ} {p : Position} {pnl fee : ℤ} {e : Event}
    (hp : w.positionManager.position.lookup (trader, id) = some p)
    (he : ∀ r, record r e = r.remove trader id) :
    accountsOf { w with
      usdc := usdc
      vault := afterSettlement w.vault p.size pnl fee
      positionManager := afterRemove w.positionManager trader id p
      events := es } =
        replay (accountsOf w) [.pnlSettled trader pnl, .feeCollected fee, e] := by
  have hreplay : replay (accountsOf w) [.pnlSettled trader pnl, .feeCollected fee, e] =
      Accounts.remove { accountsOf w with deposits := w.vault.totalDeposits - pnl + fee }
        trader id := he _
  have hstored : ({ accountsOf w with deposits := w.vault.totalDeposits - pnl + fee } :
      Accounts).position (trader, id) = some (announce p) := position_accountsOf hp
  rw [hreplay, remove_eq hstored]
  ext1
  case interest => exact openInterest_afterRemove
  case position =>
    funext key
    by_cases hkey : key = (trader, id)
    · subst hkey
      simp [accountsOf, afterRemove]
    · simp [accountsOf, afterRemove, Finmap.lookup_erase_ne hkey, Function.update_of_ne hkey]
  case count => exact count_afterRemove
  all_goals rfl

end Accounts

section Steps

variable {w w' : World N} {a : Action N} {caller : Caller N} {u : Unit}

theorem recorded_nothing (he : w'.events = w.events) (hu : w'.usdc = w.usdc)
    (ha : accountsOf w' = accountsOf w) : Recorded a w w' [] where
  told := .nothing
  log := by rw [he, List.append_nil]
  accounts := ha
  cash _ account _ _ := by simp only [World.usdcBalance, hu, flow, add_zero]

theorem cash_in (hT : N.token.Exact) {src account : Address} {amount : ℤ}
    {s s' : N.token.State} (ht : N.token.transfer s src N.vault amount = .ok s')
    (hout : account ∉ N.contracts) : N.token.balance s' account =
      N.token.balance s account + if account = src then -amount else 0 := by
  have hne : account ≠ N.vault := by
    rintro rfl
    exact hout (by simp [Network.contracts])
  rw [hT.moved _ _ _ _ _ ht, if_neg hne]
  by_cases hsrc : account = src
  · rw [if_pos hsrc, if_pos hsrc]
    omega
  · rw [if_neg hsrc, if_neg hsrc]
    omega

theorem cash_out (hT : N.token.Exact) {dst account : Address} {amount : ℤ}
    {s s' : N.token.State} (ht : PaidOut N s dst amount s') (hout : account ∉ N.contracts) :
    N.token.balance s' account =
      N.token.balance s account + if account = dst then max 0 amount else 0 := by
  have hne : account ≠ N.vault := by
    rintro rfl
    exact hout (by simp [Network.contracts])
  rw [ht.balance hT, if_neg hne, sub_zero]

theorem vault_recorded {c : PerpsVault.Call} (hi : SystemInvariant w)
    (h : (PerpsVault.invoke caller.env c : Contract N Unit).run w = .ok (u, w')) :
    ∃ new, Recorded a w w' new := by
  cases c with
  | initializeVault admin usdcToken bps =>
    simp [PerpsVault.invoke, initializeVault] at h
    have hadmin := hi.wired.vaultAdmin
    simp [h.1] at hadmin
  | deposit depositor amount =>
    simp only [PerpsVault.invoke, run_discard_ok, deposit_ok] at h
    obtain ⟨shares, -, hpos, -, hminted, -, -, -, usdc, ht, rfl⟩ := h
    refine ⟨[.deposit depositor amount shares], .deposited hpos hminted, rfl, accountsOf_deposit,
      ?_⟩
    intro hT account hout _
    rw [flow, flow, add_zero]
    exact cash_in hT ht hout
  | withdraw depositor shares =>
    simp only [PerpsVault.invoke, run_discard_ok, withdraw_ok] at h
    obtain ⟨amount, -, hs, hle, -, hpos, -, -, -, -, usdc, ht, rfl⟩ := h
    refine ⟨[.withdraw depositor shares amount], .withdrawn hs hpos hle, rfl, accountsOf_withdraw,
      ?_⟩
    intro hT account hout _
    have hpaid : PaidOut N w.usdc depositor amount usdc := ⟨fun _ => ht, fun hz => by omega⟩
    have hmax : max 0 amount = amount := max_eq_right hpos.le
    rw [flow, flow, add_zero]
    exact hmax ▸ cash_out hT hpaid hout
  | lockLiquidity c amount =>
    simp only [PerpsVault.invoke, lockLiquidity_ok] at h
    exact (hi.wired.not_manager ⟨h.1, h.2.1⟩).elim
  | unlockLiquidity c amount =>
    simp only [PerpsVault.invoke, unlockLiquidity_ok] at h
    exact (hi.wired.not_manager h.1).elim
  | settlePnl c trader pnl =>
    simp [PerpsVault.invoke, settlePnl] at h
    exact (hi.wired.not_manager h.1).elim
  | closePositionSettlement c trader size collateral pnl fee =>
    simp only [PerpsVault.invoke, closePositionSettlement_ok] at h
    exact (hi.wired.not_manager h.1).elim
  | collectFee c amount =>
    simp only [PerpsVault.invoke, collectFee_ok] at h
    exact (hi.wired.not_manager h.1).elim
  | setPositionManager admin pm =>
    simp [PerpsVault.invoke, PerpsVault.setPositionManager] at h
    obtain ⟨-, rfl⟩ := h
    exact ⟨[], recorded_nothing rfl rfl rfl⟩
  | setMaxUtilization admin bps =>
    simp [PerpsVault.invoke, setMaxUtilization] at h
    obtain ⟨-, -, rfl⟩ := h
    exact ⟨[], recorded_nothing rfl rfl rfl⟩

theorem oracle_recorded {c : PerpsOracleAdapter.Call}
    (h : (PerpsOracleAdapter.invoke caller.env c : Contract N Unit).run w = .ok (u, w')) :
    ∃ new, Recorded a w w' new := by
  cases c with
  | initializeOracle admin threshold =>
    simp [PerpsOracleAdapter.invoke, PerpsOracleAdapter.initializeOracle] at h
    obtain ⟨-, -, rfl⟩ := h
    exact ⟨[], recorded_nothing rfl rfl rfl⟩
  | setPrice admin asset price =>
    obtain ⟨-, -, rfl⟩ := PerpsOracleAdapter.setPrice_ok.mp h
    refine ⟨[.priceFetched asset price w.timestamp], .priced, rfl, rfl, ?_⟩
    intro _ account _ _
    simp [World.usdcBalance, flow, Accounts.paid]
  | setStalenessThreshold admin threshold =>
    simp [PerpsOracleAdapter.invoke, PerpsOracleAdapter.setStalenessThreshold] at h
    obtain ⟨-, -, rfl⟩ := h
    exact ⟨[], recorded_nothing rfl rfl rfl⟩

theorem manager_recorded {c : PerpsPositionManager.Call} (hi : SystemInvariant w)
    (h : (PerpsPositionManager.invoke caller.env c : Contract N Unit).run w = .ok (u, w')) :
    ∃ new, Recorded a w w' new := by
  cases c with
  | initializePositionManager admin vault oracle usdc openFee closeFee leverage collateral =>
    simp [PerpsPositionManager.invoke, initializePositionManager] at h
    have hadmin := hi.wired.managerAdmin
    simp [h.1] at hadmin
  | openPosition trader asset direction collateral leverage =>
    simp only [PerpsPositionManager.invoke, run_discard_ok] at h
    obtain ⟨id, h⟩ := h
    obtain ⟨rfl, price, usdc, hg, ht, rfl⟩ := openPosition_ok.mp h
    refine ⟨_, .opened (p := announce (openedPosition w trader asset direction collateral leverage
      price)) rfl hg.size hg.fee, rfl, accountsOf_opened rfl, ?_⟩
    intro hT account hout _
    rw [flow_opened]
    exact cash_in hT ht hout
  | closePosition trader id asset =>
    simp only [PerpsPositionManager.invoke, run_discard_ok] at h
    obtain ⟨net, h⟩ := h
    obtain ⟨-, p, price, usdc, hp, -, -, -, -, -, hnet, ht, rfl⟩ := closePosition_ok.mp h
    have hfee : 0 ≤ closeFee w p := feeFor_nonneg (hi.books.sizes _ _ hp).le _
    refine ⟨_, ?_, rfl, accountsOf_removed hp fun _ => rfl, ?_⟩
    · rw [hnet, ← pnlAt_announce]
      exact .closed (position_accountsOf hp) hfee
    · intro hT account hout _
      have hpaid : p.collateral + (pricePnl p price - closeFee w p) =
          p.collateral + pricePnl p price - closeFee w p := by omega
      rw [hnet, flow_closed (position_accountsOf hp)]
      exact hpaid ▸ cash_out hT ht hout
  | liquidatePosition c trader id asset =>
    simp only [PerpsPositionManager.invoke, run_discard_ok] at h
    obtain ⟨out, h⟩ := h
    obtain ⟨ha, he, -⟩ := liquidatePosition_ok.mp h
    exact (hi.wired.not_engine ⟨ha, he⟩).elim
  | setFeeRates admin openBps closeBps =>
    simp [PerpsPositionManager.invoke, setFeeRates] at h
    obtain ⟨-, -, rfl⟩ := h
    exact ⟨[], recorded_nothing rfl rfl rfl⟩
  | setMaxLeverage admin max =>
    simp [PerpsPositionManager.invoke, setMaxLeverage] at h
    obtain ⟨-, -, rfl⟩ := h
    exact ⟨[], recorded_nothing rfl rfl rfl⟩
  | setLiquidationEngine admin engine =>
    simp [PerpsPositionManager.invoke, setLiquidationEngine] at h
    obtain ⟨-, rfl⟩ := h
    exact ⟨[], recorded_nothing rfl rfl rfl⟩
  | setFundingAddress admin funding =>
    simp [PerpsPositionManager.invoke, setFundingAddress] at h
    obtain ⟨-, rfl⟩ := h
    exact ⟨[], recorded_nothing rfl rfl rfl⟩

theorem engine_recorded {c : PerpsLiquidationEngine.Call}
    (h : (PerpsLiquidationEngine.invoke caller.env c : Contract N Unit).run w = .ok (u, w')) :
    ∃ new, Recorded a w w' new := by
  cases c with
  | liquidate keeper trader id asset =>
    obtain ⟨-, p, price, usdc, hp, -, -, -, -, ht, rfl⟩ := liquidate_ok h
    refine ⟨_, ?_, rfl, accountsOf_removed hp fun _ => rfl, ?_⟩
    · rw [← pnlAt_announce]
      exact .liquidated (position_accountsOf hp)
    · intro hT account hout _
      have hmax : max 0 (p.collateral + pricePnl p price - 0) =
          p.collateral + (announce p).pnlAt price := by
        have hcap := neg_collateral_le_pricePnl p price
        rw [pnlAt_announce]
        omega
      rw [flow_liquidated (position_accountsOf hp)]
      exact hmax ▸ cash_out hT ht hout
  | initializeEngine admin pm oracle maintenance penalty reward =>
    simp [PerpsLiquidationEngine.invoke, initializeEngine] at h
    obtain ⟨-, -, -, rfl⟩ := h
    exact ⟨[], recorded_nothing rfl rfl rfl⟩
  | setMaintenanceMargin admin bps =>
    simp [PerpsLiquidationEngine.invoke, setMaintenanceMargin] at h
    obtain ⟨-, -, rfl⟩ := h
    exact ⟨[], recorded_nothing rfl rfl rfl⟩
  | setLiquidationPenalty admin bps =>
    simp [PerpsLiquidationEngine.invoke, setLiquidationPenalty] at h
    obtain ⟨-, rfl⟩ := h
    exact ⟨[], recorded_nothing rfl rfl rfl⟩
  | setKeeperReward admin bps =>
    simp [PerpsLiquidationEngine.invoke, setKeeperReward] at h
    obtain ⟨-, rfl⟩ := h
    exact ⟨[], recorded_nothing rfl rfl rfl⟩

theorem funding_recorded {c : PerpsFundingRate.Call} (ha : w.funding.admin.isSome)
    (h : (PerpsFundingRate.invoke caller.env c : Contract N Unit).run w = .ok (u, w')) :
    (∃ new, Recorded a w w' new) ∧ w'.funding.admin.isSome := by
  cases c with
  | initializeFunding admin pm interval rate spread =>
    simp [PerpsFundingRate.invoke, PerpsFundingRate.initializeFunding] at h
    simp [h.1] at ha
  | applyFunding keeper =>
    simp [PerpsFundingRate.invoke, PerpsFundingRate.applyFunding] at h
    obtain ⟨-, -, -, longRate, shortRate, w₁, hrate, -, -, -, rfl⟩ := h
    obtain rfl := PerpsFundingRate.getCurrentRate_frame hrate
    refine ⟨⟨_, .funded rfl rfl, rfl, rfl, ?_⟩, ha⟩
    intro _ account _ _
    simp [World.usdcBalance, flow, Accounts.paid]
  | setFundingInterval admin interval =>
    simp [PerpsFundingRate.invoke, PerpsFundingRate.setFundingInterval] at h
    obtain ⟨-, -, rfl⟩ := h
    exact ⟨⟨[], recorded_nothing rfl rfl rfl⟩, ha⟩
  | setMaxRate admin maxBps =>
    simp [PerpsFundingRate.invoke, PerpsFundingRate.setMaxRate] at h
    obtain ⟨-, -, rfl⟩ := h
    exact ⟨⟨[], recorded_nothing rfl rfl rfl⟩, ha⟩

theorem transfer_recorded {src dst : Address} {amount : ℤ}
    (h : (transferUsdc caller.env N.usdc src dst amount : Contract N Unit).run w = .ok (u, w')) :
    Recorded (.invoke caller (.transferUsdc src dst amount)) w w' [] := by
  obtain ⟨-, -, usdc, ht, rfl⟩ := transferUsdc_ok.mp h
  refine ⟨.nothing, by simp, rfl, ?_⟩
  intro hT account _ hsends
  have hsrc : account ≠ src := fun heq => hsends (.inl heq.symm)
  have hdst : account ≠ dst := fun heq => hsends (.inr heq.symm)
  simp only [World.usdcBalance, flow]
  rw [hT.moved _ _ _ _ _ ht, if_neg hsrc, if_neg hdst, sub_zero]

theorem step_recorded (hi : SystemInvariant w) (ha : w.funding.admin.isSome) :
    (∃ new, Recorded a w (step w a) new) ∧ (step w a).funding.admin.isSome := by
  cases a with
  | advance seconds => exact ⟨⟨[], recorded_nothing rfl rfl rfl⟩, ha⟩
  | expirePrice asset => exact ⟨⟨[], recorded_nothing rfl rfl rfl⟩, ha⟩
  | invoke caller call =>
    rcases invoke_cases w caller call with hsame | ⟨u, w', h, hstep⟩
    · rw [hsame]
      exact ⟨⟨[], recorded_nothing rfl rfl rfl⟩, ha⟩
    · rw [hstep]
      have hframe := dispatch_frame h
      cases call with
      | funding c => exact funding_recorded ha h
      | vault c => exact ⟨vault_recorded hi h, hframe.funding nofun ▸ ha⟩
      | oracle c => exact ⟨oracle_recorded h, hframe.funding nofun ▸ ha⟩
      | positionManager c => exact ⟨manager_recorded hi h, hframe.funding nofun ▸ ha⟩
      | engine c => exact ⟨engine_recorded h, hframe.funding nofun ▸ ha⟩
      | transferUsdc src dst amount =>
        exact ⟨⟨[], transfer_recorded h⟩, hframe.funding nofun ▸ ha⟩

end Steps

section Runs

variable {w₀ w : World N} {a : Action N} {as : List (Action N)} {account : Address}

/-- Everything the log of a ledger deployed at a given time tells about it. -/
structure ToldByLog (deployedAt : ℕ) (w : World N) : Prop where
  system : SystemInvariant w
  funding : w.funding.admin.isSome
  accounts : accountsOf w = replay { lastFunding := deployedAt } w.events
  lifecycle : Lifecycle (accountsOf w) w.events

theorem deployed_silent (hd : Deployed w₀) : w₀.events = [] ∧ w₀.funding.admin.isSome ∧
    accountsOf w₀ = { lastFunding := w₀.timestamp } := by
  obtain ⟨c, timestamp, usdc, h⟩ := hd
  simp [deploy, initializeVault, PerpsOracleAdapter.initializeOracle, initializePositionManager,
    initializeEngine, PerpsFundingRate.initializeFunding, PerpsVault.setPositionManager,
    setLiquidationEngine, setFundingAddress] at h
  obtain ⟨-, -, -, -, -, -, -, rfl⟩ := h
  refine ⟨rfl, rfl, ?_⟩
  ext1
  case interest =>
    funext d
    cases d <;> rfl
  case cumulative =>
    funext d
    cases d <;> rfl
  all_goals rfl

theorem deployed_told (hd : Deployed w₀) : ToldByLog w₀.timestamp w₀ := by
  obtain ⟨hevents, hfunding, haccounts⟩ := deployed_silent hd
  constructor
  · exact deployed_invariant hd
  · exact hfunding
  · rw [hevents, haccounts]
    rfl
  · rw [hevents, haccounts]
    exact lifecycle_fresh

theorem step_told {deployedAt : ℕ} (h : ToldByLog deployedAt w) (hk : KeepsWiring a) :
    ToldByLog deployedAt (step w a) := by
  obtain ⟨⟨new, hrecorded⟩, hfunding⟩ := step_recorded (a := a) h.system h.funding
  constructor
  · exact step_invariant h.system hk
  · exact hfunding
  · rw [hrecorded.accounts, hrecorded.log, replay_append, h.accounts]
  · rw [hrecorded.accounts, hrecorded.log]
    exact told_lifecycle hrecorded.told h.lifecycle

theorem run_told (hd : Deployed w₀) (hk : ∀ a ∈ as, KeepsWiring a) :
    ToldByLog w₀.timestamp (ActionRuns.runActions step w₀ as) :=
  ActionRuns.invariant_run (fun _ _ h ha => step_told h ha.1) (run_of_actions hk)
    (deployed_told hd)

theorem log_tells_accounts (hd : Deployed w₀) (hk : ∀ a ∈ as, KeepsWiring a) :
    accountsOf (ActionRuns.runActions step w₀ as) =
      replay { lastFunding := w₀.timestamp } (ActionRuns.runActions step w₀ as).events :=
  (run_told hd hk).accounts

/-- A position lost at half its entry price, and one still open. -/
def loggedTrades : List (Action harness) :=
  [postPrice 0 10000000000, provide 1000000000000, openLong 0 1000000000 10,
    openLong 0 2000000000 5, postPrice 0 5000000000, orderLiquidation 1 0]

theorem log_tells_loggedTrades :
    accountsOf (ActionRuns.runActions step harnessStart loggedTrades) =
      replay { lastFunding := harnessStart.timestamp }
        (ActionRuns.runActions step harnessStart loggedTrades).events :=
  log_tells_accounts deployed_harness (by decide)

/-- Positions are numbered from one without a gap, and the log tells of each its opening, with
the fields that are stored, and at most one end. -/
theorem log_tells_lives (h : Reachable w) : Lifecycle (accountsOf w) w.events := by
  obtain ⟨w₀, as, hd, hr, rfl⟩ := h
  exact (run_told hd (run_iff.mp hr).1).lifecycle

theorem log_tells_loggedTrades_lives :
    Lifecycle (accountsOf (ActionRuns.runActions step harnessStart loggedTrades))
      (ActionRuns.runActions step harnessStart loggedTrades).events :=
  log_tells_lives (reachable_of_actions deployed_harness (by decide))

/-- What an account outside owns is what it started with and what the log moved into it, but for
the USDC sent to or from it directly. -/
theorem log_tells_wallets (hT : N.token.Exact) (hout : account ∉ N.contracts) (hd : Deployed w₀)
    (hr : Run (fun _ a => ¬ Sends account a) w₀ as) :
    (ActionRuns.runActions step w₀ as).usdcBalance account = w₀.usdcBalance account +
      flow account { lastFunding := w₀.timestamp } (ActionRuns.runActions step w₀ as).events := by
  let Inv (w : World N) : Prop := ToldByLog w₀.timestamp w ∧ w.usdcBalance account =
    w₀.usdcBalance account + flow account { lastFunding := w₀.timestamp } w.events
  have hstep : ∀ w a, Inv w → KeepsWiring a ∧ ¬ Sends account a → Inv (step w a) := by
    rintro w a ⟨htold, hcash⟩ ⟨hk, hsends⟩
    refine ⟨step_told htold hk, ?_⟩
    obtain ⟨⟨new, hrecorded⟩, -⟩ := step_recorded (a := a) htold.system htold.funding
    rw [hrecorded.cash hT account hout hsends, hcash, hrecorded.log, flow_append, htold.accounts,
      add_assoc]
  have hfirst : Inv w₀ := by
    refine ⟨deployed_told hd, ?_⟩
    rw [(deployed_silent hd).1, flow, add_zero]
  exact (ActionRuns.invariant_run hstep hr hfirst).2

theorem log_tells_traders_wallet :
    (ActionRuns.runActions step harnessStart loggedTrades).usdcBalance ⟨12⟩ =
      harnessStart.usdcBalance ⟨12⟩ + flow ⟨12⟩ { lastFunding := harnessStart.timestamp }
        (ActionRuns.runActions step harnessStart loggedTrades).events := by
  have hsends : ∀ a ∈ loggedTrades, ¬ Sends ⟨12⟩ a := by decide
  refine log_tells_wallets ledgerToken_exact (by decide) deployed_harness (run_iff.mpr ⟨?_, ?_⟩)
  · decide
  · exact ActionRuns.along_of_forall fun a ha _ => hsends a ha

end Runs

end PerpsEventReplay
