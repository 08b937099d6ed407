import Mathlib.Algebra.Order.Group.Unbundled.Basic
import SoroPerps.PerpsTypes

/-! # The liquidity vault

Liquidity providers deposit USDC for shares; the position manager locks liquidity against
open positions and settles them here. -/
namespace PerpsVault

open SorobanHost PerpsTypes

variable {N : Network}

def calcSharesToMint (amount totalShares totalDeposits : ℤ) : Contract N ℤ :=
  if totalShares = 0 ∨ totalDeposits = 0 then pure amount
  else do
    let product ← i128 (amount * totalShares)
    divI128 product totalDeposits

def calcWithdrawalAmount (shares totalShares totalDeposits : ℤ) : Contract N ℤ :=
  if totalShares = 0 then pure 0
  else do
    let product ← i128 (shares * totalDeposits)
    divI128 product totalShares

def calcSharePrice (totalShares totalDeposits : ℤ) : Contract N ℤ :=
  if totalShares = 0 then pure DECIMALS
  else do
    let product ← i128 (totalDeposits * DECIMALS)
    divI128 product totalShares

/-- The quotient is an `i128`; only its low 32 bits are returned. -/
def calcUtilizationBps (locked totalDeposits : ℤ) : Contract N ℕ :=
  if totalDeposits = 0 then pure 0
  else do
    let product ← i128 (locked * 10000)
    let quotient ← divI128 product totalDeposits
    pure (asU32 quotient)

def getShareBalance (v : VaultStorage) (account : Address) : ℤ :=
  (v.shareBalance.lookup account).getD 0

def setVault (f : VaultStorage → VaultStorage) : Contract N Unit :=
  modify fun w => { w with vault := f w.vault }

def initializeVault (admin usdcToken : Address) (maxUtilizationBps : ℕ) : Contract N Unit := do
  let v := (← get).vault
  rejectIf (v.admin.isSome = true) .AlreadyInitialized
  rejectIf (maxUtilizationBps = 0 ∨ BPS_DENOMINATOR < maxUtilizationBps) .InvalidConfig
  setVault fun v => { v with
    admin := some admin
    usdcToken := some usdcToken
    maxUtilization := maxUtilizationBps
    totalShares := 0
    totalDeposits := 0
    lockedLiquidity := 0 }

def deposit (env : Env) (depositor : Address) (amount : ℤ) : Contract N ℤ := do
  requireAuth env depositor
  rejectIf (amount ≤ 0) .InvalidAmount
  let v := (← get).vault
  let sharesToMint ← calcSharesToMint amount v.totalShares v.totalDeposits
  rejectIf (sharesToMint ≤ 0) .ZeroShares
  let usdc ← unwrap v.usdcToken
  transferUsdc (env.callFrom N.vault) usdc depositor N.vault amount
  let newDeposits ← i128 (v.totalDeposits + amount)
  let newShares ← i128 (v.totalShares + sharesToMint)
  let newBalance ← i128 (getShareBalance v depositor + sharesToMint)
  setVault fun v => { v with
    totalDeposits := newDeposits
    totalShares := newShares
    shareBalance := v.shareBalance.insert depositor newBalance }
  emit (.deposit depositor amount sharesToMint)
  pure sharesToMint

/-- A withdrawal may not leave the pool utilized above the cap, nor empty while liquidity is
locked. -/
def checkWithdrawal (locked newTotalDeposits : ℤ) (maxUtilization : ℕ) : Contract N Unit :=
  if 0 < newTotalDeposits then do
    let newUtil ← calcUtilizationBps locked newTotalDeposits
    rejectIf (maxUtilization < newUtil) .MaxUtilizationExceeded
  else rejectIf (0 < locked) .InsufficientLiquidity

def withdraw (env : Env) (depositor : Address) (shareAmount : ℤ) : Contract N ℤ := do
  requireAuth env depositor
  rejectIf (shareAmount ≤ 0) .InvalidAmount
  let v := (← get).vault
  rejectIf (getShareBalance v depositor < shareAmount) .InsufficientBalance
  let usdcToReturn ← calcWithdrawalAmount shareAmount v.totalShares v.totalDeposits
  rejectIf (usdcToReturn ≤ 0) .ZeroShares
  let newTotalDeposits ← i128 (v.totalDeposits - usdcToReturn)
  checkWithdrawal v.lockedLiquidity newTotalDeposits v.maxUtilization
  let newShares ← i128 (v.totalShares - shareAmount)
  let newBalance ← i128 (getShareBalance v depositor - shareAmount)
  setVault fun v => { v with
    totalShares := newShares
    totalDeposits := newTotalDeposits
    shareBalance := v.shareBalance.insert depositor newBalance }
  let usdc ← unwrap v.usdcToken
  transferUsdc (env.callFrom N.vault) usdc N.vault depositor usdcToReturn
  emit (.withdraw depositor shareAmount usdcToReturn)
  pure usdcToReturn

def requirePositionManager (env : Env) (caller : Address) : Contract N Unit := do
  requireAuth env caller
  let pm ← okOr (← get).vault.positionManager (.contract .NotInitialized)
  rejectIf (caller ≠ pm) .Unauthorized

def lockLiquidity (env : Env) (caller : Address) (amount : ℤ) : Contract N Unit := do
  requirePositionManager env caller
  rejectIf (amount ≤ 0) .InvalidAmount
  let v := (← get).vault
  let newLocked ← i128 (v.lockedLiquidity + amount)
  let newUtil ← calcUtilizationBps newLocked v.totalDeposits
  rejectIf (v.maxUtilization < newUtil) .MaxUtilizationExceeded
  setVault fun v => { v with lockedLiquidity := newLocked }
  emit (.liquidityLocked amount)

def unlockLiquidity (env : Env) (caller : Address) (amount : ℤ) : Contract N Unit := do
  requirePositionManager env caller
  rejectIf (amount ≤ 0) .InvalidAmount
  let v := (← get).vault
  let newLocked ← i128 (v.lockedLiquidity - amount)
  rejectIf (newLocked < 0) .OverflowError
  setVault fun v => { v with lockedLiquidity := newLocked }
  emit (.liquidityUnlocked amount)

/-- A winning trader is paid from the pool; a loss was already transferred to the vault. -/
def adjustDeposits (env : Env) (trader : Address) (pnl : ℤ) : Contract N Unit := do
  let v := (← get).vault
  if 0 < pnl then do
    rejectIf (v.totalDeposits < pnl) .InsufficientLiquidity
    let usdc ← unwrap v.usdcToken
    transferUsdc (env.callFrom N.vault) usdc N.vault trader pnl
    let newDeposits ← i128 (v.totalDeposits - pnl)
    setVault fun v => { v with totalDeposits := newDeposits }
  else if pnl < 0 then do
    let loss ← i128 (-pnl)
    let newDeposits ← i128 (v.totalDeposits + loss)
    setVault fun v => { v with totalDeposits := newDeposits }
  else pure ()

def settlePnl (env : Env) (caller trader : Address) (pnl : ℤ) : Contract N Unit := do
  requirePositionManager env caller
  adjustDeposits env trader pnl
  emit (.pnlSettled trader pnl)

def payOut (env : Env) (usdcToken : Option Address) (trader : Address) (payout : ℤ) :
    Contract N Unit :=
  if 0 < payout then do
    let usdc ← unwrap usdcToken
    transferUsdc (env.callFrom N.vault) usdc N.vault trader payout
  else pure ()

def closePositionSettlement (env : Env) (caller trader : Address)
    (positionSize collateral pnl fee : ℤ) : Contract N Unit := do
  requirePositionManager env caller
  let v := (← get).vault
  let newLocked ← i128 (v.lockedLiquidity - positionSize)
  rejectIf (newLocked < 0) .OverflowError
  setVault fun v => { v with lockedLiquidity := newLocked }
  let afterPnl ← i128 (v.totalDeposits - pnl)
  let newDeposits ← i128 (afterPnl + fee)
  rejectIf (newDeposits < 0) .InsufficientLiquidity
  setVault fun v => { v with totalDeposits := newDeposits }
  let equity ← i128 (collateral + pnl)
  let payout ← i128 (equity - fee)
  payOut env v.usdcToken trader payout
  emit (.pnlSettled trader pnl)
  emit (.feeCollected fee)

def collectFee (env : Env) (caller : Address) (amount : ℤ) : Contract N Unit := do
  requirePositionManager env caller
  rejectIf (amount ≤ 0) .InvalidAmount
  let v := (← get).vault
  let newDeposits ← i128 (v.totalDeposits + amount)
  setVault fun v => { v with totalDeposits := newDeposits }
  emit (.feeCollected amount)

def getAvailableLiquidity : Contract N ℤ := do
  let v := (← get).vault
  i128 (v.totalDeposits - v.lockedLiquidity)

def getSharePrice : Contract N ℤ := do
  let v := (← get).vault
  calcSharePrice v.totalShares v.totalDeposits

def getUtilization : Contract N ℕ := do
  let v := (← get).vault
  calcUtilizationBps v.lockedLiquidity v.totalDeposits

def setPositionManager (env : Env) (admin pmAddress : Address) : Contract N Unit := do
  requireAdmin env admin (← get).vault.admin
  setVault fun v => { v with positionManager := some pmAddress }

def setMaxUtilization (env : Env) (admin : Address) (maxBps : ℕ) : Contract N Unit := do
  requireAdmin env admin (← get).vault.admin
  rejectIf (maxBps = 0 ∨ BPS_DENOMINATOR < maxBps) .InvalidConfig
  setVault fun v => { v with maxUtilization := maxBps }

inductive Call where
  | initializeVault (admin usdcToken : Address) (maxUtilizationBps : ℕ)
  | deposit (depositor : Address) (amount : ℤ)
  | withdraw (depositor : Address) (shareAmount : ℤ)
  | lockLiquidity (caller : Address) (amount : ℤ)
  | unlockLiquidity (caller : Address) (amount : ℤ)
  | settlePnl (caller trader : Address) (pnl : ℤ)
  | closePositionSettlement (caller trader : Address) (positionSize collateral pnl fee : ℤ)
  | collectFee (caller : Address) (amount : ℤ)
  | setPositionManager (admin pmAddress : Address)
  | setMaxUtilization (admin : Address) (maxBps : ℕ)
  deriving DecidableEq, Repr

def invoke (env : Env) : Call → Contract N Unit
  | .initializeVault admin usdcToken bps => initializeVault admin usdcToken bps
  | .deposit depositor amount => discard (deposit env depositor amount)
  | .withdraw depositor shares => discard (withdraw env depositor shares)
  | .lockLiquidity caller amount => lockLiquidity env caller amount
  | .unlockLiquidity caller amount => unlockLiquidity env caller amount
  | .settlePnl caller trader pnl => settlePnl env caller trader pnl
  | .closePositionSettlement caller trader size collateral pnl fee =>
    closePositionSettlement env caller trader size collateral pnl fee
  | .collectFee caller amount => collectFee env caller amount
  | .setPositionManager admin pm => setPositionManager env admin pm
  | .setMaxUtilization admin bps => setMaxUtilization env admin bps

section Effects

variable {env : Env} {w w' : World N} {u : Unit}

@[simp] theorem setVault_ok {f : VaultStorage → VaultStorage} :
    (setVault f : Contract N Unit).run w = .ok (u, w') ↔ { w with vault := f w.vault } = w' := by
  simp [setVault]

@[simp] theorem setVault_error {f : VaultStorage → VaultStorage} {e : Failure PerpsError} :
    ¬ (setVault f : Contract N Unit).run w = .error e := by
  simp [setVault]

/-- No product or quotient of the share formulas leaves the `i128` range. -/
def ProportionFits (a b c : ℤ) : Prop := InI128 (a * b) ∧ InI128 ((a * b).tdiv c)

instance (a b c : ℤ) : Decidable (ProportionFits a b c) := inferInstanceAs (Decidable (_ ∧ _))

theorem proportionFits_of_nonneg {a b c : ℤ} (hp : 0 ≤ a * b) (hc : 0 ≤ c) (h : InI128 (a * b)) :
    ProportionFits a b c := by
  have hnonneg : 0 ≤ (a * b) / c := Int.ediv_nonneg hp hc
  have hle : (a * b) / c ≤ a * b := Int.ediv_le_self c hp
  refine ⟨h, ?_⟩
  rw [Int.tdiv_eq_ediv_of_nonneg hp]
  exact inI128_of_nonneg hnonneg (hle.trans_lt h.2)

def mintedShares (amount totalShares totalDeposits : ℤ) : ℤ :=
  if totalShares = 0 ∨ totalDeposits = 0 then amount
  else (amount * totalShares).tdiv totalDeposits

def redeemedAmount (shares totalShares totalDeposits : ℤ) : ℤ :=
  if totalShares = 0 then 0 else (shares * totalDeposits).tdiv totalShares

@[simp] theorem calcSharesToMint_ok {amount ts td s : ℤ} :
    (calcSharesToMint amount ts td : Contract N ℤ).run w = .ok (s, w') ↔
      (¬ (ts = 0 ∨ td = 0) → ProportionFits amount ts td) ∧ mintedShares amount ts td = s ∧
        w = w' := by
  by_cases h : ts = 0 ∨ td = 0
  · simp [calcSharesToMint, mintedShares, h]
  · obtain ⟨hts, htd⟩ := not_or.mp h
    simp [calcSharesToMint, mintedShares, ProportionFits, hts, htd, and_assoc]

@[simp] theorem calcWithdrawalAmount_ok {shares ts td x : ℤ} :
    (calcWithdrawalAmount shares ts td : Contract N ℤ).run w = .ok (x, w') ↔
      (ts ≠ 0 → ProportionFits shares td ts) ∧ redeemedAmount shares ts td = x ∧ w = w' := by
  by_cases h : ts = 0
  · simp [calcWithdrawalAmount, redeemedAmount, h]
  · simp [calcWithdrawalAmount, redeemedAmount, ProportionFits, h, and_assoc]

@[simp] theorem calcUtilizationBps_ok {locked td : ℤ} {bps : ℕ} :
    (calcUtilizationBps locked td : Contract N ℕ).run w = .ok (bps, w') ↔
      (td ≠ 0 → ProportionFits locked 10000 td) ∧
        (if td = 0 then 0 else asU32 ((locked * 10000).tdiv td)) = bps ∧ w = w' := by
  by_cases h : td = 0
  · simp [calcUtilizationBps, h]
  · simp [calcUtilizationBps, ProportionFits, h, and_assoc]

@[simp] theorem checkWithdrawal_ok {locked td : ℤ} {cap : ℕ} :
    (checkWithdrawal locked td cap : Contract N Unit).run w = .ok (u, w') ↔
      (0 < td → ProportionFits locked 10000 td ∧
        asU32 ((locked * 10000).tdiv td) ≤ cap) ∧ (td ≤ 0 → locked ≤ 0) ∧ w = w' := by
  by_cases h : 0 < td
  · have hne : td ≠ 0 := by omega
    simp [checkWithdrawal, h, hne, not_le.mpr h, and_assoc]
  · simp [checkWithdrawal, h, not_lt.mp h]

@[simp] theorem requirePositionManager_ok {caller : Address} :
    (requirePositionManager env caller : Contract N Unit).run w = .ok (u, w') ↔
      env.Authorized caller ∧ w.vault.positionManager = some caller ∧ w = w' := by
  simp only [requirePositionManager, StateT.run_bind, except_bind_ok, requireAuth_ok, okOr_ok,
    rejectIf_ok, Prod.exists, StateT.run_get, except_pure_ok, Prod.mk.injEq]
  aesop

theorem requirePositionManager_error {caller : Address} {f : Failure PerpsError}
    (h : (requirePositionManager env caller : Contract N Unit).run w = .error f) :
    ¬ (env.Authorized caller ∧ w.vault.positionManager = some caller) := by
  simp only [requirePositionManager, StateT.run_bind, except_bind_error, requireAuth_error,
    requireAuth_ok, okOr_error, okOr_ok, rejectIf_error, Prod.exists, StateT.run_get,
    except_pure_ok, except_pure_error, Prod.mk.injEq] at h
  aesop

/-- The token state a payout leaves. Nothing moves when the amount is not positive. -/
def PaidOut (N : Network) (s : N.token.State) (dst : Address) (amount : ℤ)
    (s' : N.token.State) : Prop :=
  (0 < amount → N.token.transfer s N.vault dst amount = .ok s') ∧ (amount ≤ 0 → s' = s)

theorem PaidOut.balance {s s' : N.token.State} {dst : Address} {amount : ℤ} (hT : N.token.Exact)
    (h : PaidOut N s dst amount s') (a : Address) : N.token.balance s' a = N.token.balance s a -
      (if a = N.vault then max 0 amount else 0) + if a = dst then max 0 amount else 0 := by
  rcases lt_or_ge 0 amount with hpos | hle
  · rw [hT.moved _ _ _ _ _ (h.1 hpos), max_eq_right hpos.le]
  · rw [h.2 hle, max_eq_left hle]
    simp

@[simp] theorem payOut_ok {token : Option Address} {dst : Address} {amount : ℤ} :
    (payOut env token dst amount : Contract N Unit).run w = .ok (u, w') ↔
      (0 < amount → token = some N.usdc) ∧
        ∃ usdc, PaidOut N w.usdc dst amount usdc ∧ { w with usdc := usdc } = w' := by
  by_cases h : 0 < amount
  · simp [payOut, PaidOut, h, not_le.mpr h, and_assoc]
  · simp [payOut, PaidOut, h, not_lt.mp h]

/-- The token refuses a payout with the number of the given error. -/
def PayoutRefused (N : Network) (s : N.token.State) (dst : Address) (amount : ℤ)
    (e : PerpsError) : Prop :=
  0 < amount ∧ N.token.transfer s N.vault dst amount = .error (some e.code)

@[simp] theorem payOut_error {token : Option Address} {dst : Address} {amount : ℤ}
    {e : PerpsError} :
    (payOut env token dst amount : Contract N Unit).run w = .error (.contract e) ↔
      token = some N.usdc ∧ PayoutRefused N w.usdc dst amount e := by
  by_cases h : 0 < amount
  · simp [payOut, PayoutRefused, h]
  · simp [payOut, PayoutRefused, h]

def afterDeposit (v : VaultStorage) (depositor : Address) (amount shares : ℤ) : VaultStorage :=
  { v with
    totalDeposits := v.totalDeposits + amount
    totalShares := v.totalShares + shares
    shareBalance := v.shareBalance.insert depositor (getShareBalance v depositor + shares) }

def afterWithdraw (v : VaultStorage) (depositor : Address) (shares amount : ℤ) : VaultStorage :=
  { v with
    totalDeposits := v.totalDeposits - amount
    totalShares := v.totalShares - shares
    shareBalance := v.shareBalance.insert depositor (getShareBalance v depositor - shares) }

def afterSettlement (v : VaultStorage) (size pnl fee : ℤ) : VaultStorage :=
  { v with
    lockedLiquidity := v.lockedLiquidity - size
    totalDeposits := v.totalDeposits - pnl + fee }

structure DepositFits (v : VaultStorage) (depositor : Address) (amount shares : ℤ) : Prop where
  mint : ¬ (v.totalShares = 0 ∨ v.totalDeposits = 0) →
    ProportionFits amount v.totalShares v.totalDeposits
  deposits : InI128 (v.totalDeposits + amount)
  supply : InI128 (v.totalShares + shares)
  balance : InI128 (getShareBalance v depositor + shares)

structure WithdrawFits (v : VaultStorage) (depositor : Address) (shares amount : ℤ) : Prop where
  redeem : v.totalShares ≠ 0 → ProportionFits shares v.totalDeposits v.totalShares
  deposits : InI128 (v.totalDeposits - amount)
  utilization : 0 < v.totalDeposits - amount →
    ProportionFits v.lockedLiquidity 10000 (v.totalDeposits - amount)
  supply : InI128 (v.totalShares - shares)
  balance : InI128 (getShareBalance v depositor - shares)

structure SettlementFits (v : VaultStorage) (size collateral pnl fee : ℤ) : Prop where
  locked : InI128 (v.lockedLiquidity - size)
  afterPnl : InI128 (v.totalDeposits - pnl)
  deposits : InI128 (v.totalDeposits - pnl + fee)
  equity : InI128 (collateral + pnl)
  payout : InI128 (collateral + pnl - fee)

theorem deposit_ok {depositor : Address} {amount shares : ℤ} :
    (deposit env depositor amount : Contract N ℤ).run w = .ok (shares, w') ↔
      env.Authorized depositor ∧ 0 < amount ∧
      mintedShares amount w.vault.totalShares w.vault.totalDeposits = shares ∧ 0 < shares ∧
      DepositFits w.vault depositor amount shares ∧ w.vault.usdcToken = some N.usdc ∧
      (N.vault = depositor ∨ depositor ∈ env.signers) ∧
      ∃ usdc, N.token.transfer w.usdc depositor N.vault amount = .ok usdc ∧
        w' = { w with
          usdc := usdc
          vault := afterDeposit w.vault depositor amount shares
          events := w.events ++ [.deposit depositor amount shares] } := by
  constructor
  · intro h
    simp [deposit] at h
    obtain ⟨ha, hp, hmint, hs, hu, usdc, ⟨hauth, ht⟩, hd, hsh, hb, rfl, rfl⟩ := h
    exact ⟨ha, hp, rfl, hs, ⟨by simpa using hmint, hd, hsh, hb⟩, hu, hauth, usdc, ht, rfl⟩
  · rintro ⟨ha, hp, rfl, hs, hf, hu, hauth, usdc, ht, rfl⟩
    simpa [deposit, afterDeposit, ha, hp, hs, hu, hauth, ht, hf.deposits, hf.supply,
      hf.balance] using hf.mint

/-- The quotient the utilization guard compares, before the cast to 32 bits. -/
def utilizationQuotient (locked totalDeposits : ℤ) : ℤ := (locked * 10000).tdiv totalDeposits

theorem withdraw_ok {depositor : Address} {shares amount : ℤ} :
    (withdraw env depositor shares : Contract N ℤ).run w = .ok (amount, w') ↔
      env.Authorized depositor ∧ 0 < shares ∧ shares ≤ getShareBalance w.vault depositor ∧
      redeemedAmount shares w.vault.totalShares w.vault.totalDeposits = amount ∧ 0 < amount ∧
      WithdrawFits w.vault depositor shares amount ∧
      (0 < w.vault.totalDeposits - amount → asU32 (utilizationQuotient w.vault.lockedLiquidity
        (w.vault.totalDeposits - amount)) ≤ w.vault.maxUtilization) ∧
      (w.vault.totalDeposits - amount ≤ 0 → w.vault.lockedLiquidity ≤ 0) ∧
      w.vault.usdcToken = some N.usdc ∧
      ∃ usdc, N.token.transfer w.usdc N.vault depositor amount = .ok usdc ∧
        w' = { w with
          usdc := usdc
          vault := afterWithdraw w.vault depositor shares amount
          events := w.events ++ [.withdraw depositor shares amount] } := by
  constructor
  · intro h
    simp [withdraw, -Int.sub_pos, -sub_pos, -tsub_le_iff_right] at h
    obtain ⟨ha, hp, hbal, hfit, hpos, hd, ⟨hutil, hempty⟩, hsh, hb, hu, usdc, ht, rfl, rfl⟩ := h
    exact ⟨ha, hp, hbal, rfl, hpos, ⟨hfit, hd, fun h => (hutil h).1, hsh, hb⟩,
      fun h => (hutil h).2, hempty, hu, usdc, ht, rfl⟩
  · rintro ⟨ha, hp, hbal, rfl, hpos, hf, hutil, hempty, hu, usdc, ht, rfl⟩
    simp [withdraw, afterWithdraw, ha, hp, hbal, hpos, hf.deposits, hf.supply, hf.balance, hu, ht,
      -Int.sub_pos, -sub_pos, -tsub_le_iff_right]
    exact ⟨hf.redeem, fun h => ⟨hf.utilization h, hutil h⟩, hempty⟩

theorem lockLiquidity_ok {caller : Address} {amount : ℤ} :
    (lockLiquidity env caller amount : Contract N Unit).run w = .ok (u, w') ↔
      env.Authorized caller ∧ w.vault.positionManager = some caller ∧ 0 < amount ∧
      InI128 (w.vault.lockedLiquidity + amount) ∧
      (w.vault.totalDeposits ≠ 0 →
        ProportionFits (w.vault.lockedLiquidity + amount) 10000 w.vault.totalDeposits ∧
        asU32 (utilizationQuotient (w.vault.lockedLiquidity + amount) w.vault.totalDeposits) ≤
          w.vault.maxUtilization) ∧
      w' = { w with
        vault.lockedLiquidity := w.vault.lockedLiquidity + amount
        events := w.events ++ [.liquidityLocked amount] } := by
  constructor
  · intro h
    simp [lockLiquidity] at h
    obtain ⟨⟨ha, hpm⟩, hp, hl, hfit, hcap, rfl⟩ := h
    refine ⟨ha, hpm, hp, hl, fun hne => ⟨hfit hne, ?_⟩, rfl⟩
    simpa [hne, utilizationQuotient] using hcap
  · rintro ⟨ha, hpm, hp, hl, hutil, rfl⟩
    have hfit := fun hne => (hutil hne).1
    have hcap : (if w.vault.totalDeposits = 0 then 0 else asU32 (utilizationQuotient
        (w.vault.lockedLiquidity + amount) w.vault.totalDeposits)) ≤ w.vault.maxUtilization := by
      split
      · exact Nat.zero_le _
      · next hne => exact (hutil hne).2
    simp [lockLiquidity, ha, hpm, hp, hl]
    exact ⟨hfit, hcap⟩

theorem unlockLiquidity_ok {caller : Address} {amount : ℤ} :
    (unlockLiquidity env caller amount : Contract N Unit).run w = .ok (u, w') ↔
      (env.Authorized caller ∧ w.vault.positionManager = some caller) ∧ 0 < amount ∧
      InI128 (w.vault.lockedLiquidity - amount) ∧ amount ≤ w.vault.lockedLiquidity ∧
      { w with
        vault.lockedLiquidity := w.vault.lockedLiquidity - amount
        events := w.events ++ [.liquidityUnlocked amount] } = w' := by
  simp [unlockLiquidity]

theorem collectFee_ok {caller : Address} {amount : ℤ} :
    (collectFee env caller amount : Contract N Unit).run w = .ok (u, w') ↔
      (env.Authorized caller ∧ w.vault.positionManager = some caller) ∧ 0 < amount ∧
      InI128 (w.vault.totalDeposits + amount) ∧
      { w with
        vault.totalDeposits := w.vault.totalDeposits + amount
        events := w.events ++ [.feeCollected amount] } = w' := by
  simp [collectFee]

/-- A direct settlement takes the profit out of the deposits, and never more than they hold. -/
theorem settlePnl_ok {caller trader : Address} {pnl : ℤ}
    (h : (settlePnl env caller trader pnl : Contract N Unit).run w = .ok (u, w')) :
    (env.Authorized caller ∧ w.vault.positionManager = some caller) ∧
      (0 < pnl → pnl ≤ w.vault.totalDeposits) ∧
      ∃ usdc, w' = { w with
        usdc := usdc
        vault.totalDeposits := w.vault.totalDeposits - pnl
        events := w.events ++ [.pnlSettled trader pnl] } := by
  simp [settlePnl, adjustDeposits] at h
  obtain ⟨hpm, _, _, w₁, h, rfl⟩ := h
  refine ⟨hpm, ?_⟩
  split at h
  · simp at h
    obtain ⟨hle, -, usdc, -, -, rfl⟩ := h
    exact ⟨fun _ => hle, usdc, rfl⟩
  · next hpos =>
    refine ⟨fun h => absurd h hpos, w.usdc, ?_⟩
    split at h
    · simp at h
      obtain ⟨-, -, rfl⟩ := h
      simp [Int.sub_eq_add_neg]
    · have hzero : pnl = 0 := by omega
      simp at h
      simp [h, hzero]

theorem closePositionSettlement_ok {caller trader : Address} {size collateral pnl fee : ℤ} :
    (closePositionSettlement env caller trader size collateral pnl fee : Contract N Unit).run w =
      .ok (u, w') ↔
      (env.Authorized caller ∧ w.vault.positionManager = some caller) ∧
      SettlementFits w.vault size collateral pnl fee ∧ size ≤ w.vault.lockedLiquidity ∧
      0 ≤ w.vault.totalDeposits - pnl + fee ∧
      (0 < collateral + pnl - fee → w.vault.usdcToken = some N.usdc) ∧
      ∃ usdc, PaidOut N w.usdc trader (collateral + pnl - fee) usdc ∧
        w' = { w with
          usdc := usdc
          vault := afterSettlement w.vault size pnl fee
          events := w.events ++ [.pnlSettled trader pnl, .feeCollected fee] } := by
  constructor
  · intro h
    simp [closePositionSettlement, -Int.sub_pos, -sub_pos] at h
    obtain ⟨hpm, hl, hle, h1, h2, hd, h3, h4, usdc, ⟨hu, ht⟩, rfl⟩ := h
    exact ⟨hpm, ⟨hl, h1, h2, h3, h4⟩, hle, hd, hu, usdc, ht, rfl⟩
  · rintro ⟨hpm, hf, hle, hd, hu, usdc, ht, rfl⟩
    simp [closePositionSettlement, afterSettlement, hpm, hf.locked, hle, hf.afterPnl,
      hf.deposits, hd, hf.equity, hf.payout, -Int.sub_pos, -sub_pos]
    exact ⟨hu, ht⟩

/-- A settlement the position manager asks for has two error codes of its own, each naming
the counter that would turn negative. Any other is the token's, after all checks. -/
theorem closePositionSettlement_error {caller trader : Address} {size collateral pnl fee : ℤ}
    {e : PerpsError} (ha : env.Authorized caller) (hpm : w.vault.positionManager = some caller)
    (h : (closePositionSettlement env caller trader size collateral pnl fee :
      Contract N Unit).run w = .error (.contract e)) :
    (e = .OverflowError ∧ w.vault.lockedLiquidity < size) ∨
      (e = .InsufficientLiquidity ∧ w.vault.totalDeposits - pnl + fee < 0) ∨
      (SettlementFits w.vault size collateral pnl fee ∧ size ≤ w.vault.lockedLiquidity ∧
        0 ≤ w.vault.totalDeposits - pnl + fee ∧ w.vault.usdcToken = some N.usdc ∧
        PayoutRefused N w.usdc trader (collateral + pnl - fee) e) := by
  simp [closePositionSettlement] at h
  rcases h with h | ⟨-, hl, ⟨hlt, rfl⟩ | ⟨hle, h1, h2, ⟨hlt, rfl⟩ | ⟨hd, h3, h4, hu, hrefused⟩⟩⟩
  · exact absurd ⟨ha, hpm⟩ (requirePositionManager_error h)
  · exact .inl ⟨rfl, by omega⟩
  · exact .inr (.inl ⟨rfl, hlt⟩)
  · exact .inr (.inr ⟨⟨hl, h1, h2, h3, h4⟩, by omega, hd, hu, hrefused⟩)

theorem closePositionSettlement_unpaid {caller trader : Address} {size collateral pnl fee : ℤ}
    {e : PerpsError} (ha : env.Authorized caller) (hpm : w.vault.positionManager = some caller)
    (hf : SettlementFits w.vault size collateral pnl fee)
    (hle : size ≤ w.vault.lockedLiquidity) (hd : 0 ≤ w.vault.totalDeposits - pnl + fee)
    (hu : w.vault.usdcToken = some N.usdc)
    (hrefused : PayoutRefused N w.usdc trader (collateral + pnl - fee) e) :
    (closePositionSettlement env caller trader size collateral pnl fee : Contract N Unit).run w =
      .error (.contract e) := by
  simp [closePositionSettlement, ha, hpm, hf.locked, hle, hf.afterPnl, hf.deposits, hd, hf.equity,
    hf.payout, hu, hrefused, -Int.sub_pos, -sub_pos]

def Publishes : Event → Prop
  | .deposit .. | .withdraw .. | .liquidityLocked .. | .liquidityUnlocked .. | .pnlSettled ..
  | .feeCollected .. => True
  | _ => False

/-- The vault writes its own storage and the token, and adds events of its own. -/
theorem invoke_frame {c : Call} (h : (invoke env c : Contract N Unit).run w = .ok (u, w')) :
    ∃ s usdc es, (∀ e ∈ es, Publishes e) ∧
      w' = { w with vault := s, usdc := usdc, events := w.events ++ es } := by
  cases c with
  | initializeVault admin usdcToken bps =>
    simp [invoke, initializeVault] at h
    obtain ⟨-, -, rfl⟩ := h
    exact ⟨_, w.usdc, [], by simp, by simp; rfl⟩
  | deposit depositor amount =>
    simp only [invoke, run_discard_ok, deposit_ok] at h
    obtain ⟨shares, -, -, -, -, -, -, -, usdc, -, rfl⟩ := h
    exact ⟨_, _, _, by simp [Publishes], rfl⟩
  | withdraw depositor shares =>
    simp only [invoke, run_discard_ok, withdraw_ok] at h
    obtain ⟨amount, -, -, -, -, -, -, -, -, -, usdc, -, rfl⟩ := h
    exact ⟨_, _, _, by simp [Publishes], rfl⟩
  | lockLiquidity caller amount =>
    simp only [invoke, lockLiquidity_ok] at h
    obtain ⟨-, -, -, -, -, rfl⟩ := h
    exact ⟨_, _, _, by simp [Publishes], rfl⟩
  | unlockLiquidity caller amount =>
    simp only [invoke, unlockLiquidity_ok] at h
    obtain ⟨-, -, -, -, rfl⟩ := h
    exact ⟨_, _, _, by simp [Publishes], rfl⟩
  | settlePnl caller trader pnl =>
    obtain ⟨-, -, usdc, rfl⟩ := settlePnl_ok h
    exact ⟨_, _, _, by simp [Publishes], rfl⟩
  | closePositionSettlement caller trader size collateral pnl fee =>
    simp only [invoke, closePositionSettlement_ok] at h
    obtain ⟨-, -, -, -, -, usdc, -, rfl⟩ := h
    exact ⟨_, _, _, by simp [Publishes], rfl⟩
  | collectFee caller amount =>
    simp only [invoke, collectFee_ok] at h
    obtain ⟨-, -, -, rfl⟩ := h
    exact ⟨_, _, _, by simp [Publishes], rfl⟩
  | setPositionManager admin pm =>
    simp [invoke, setPositionManager] at h
    obtain ⟨-, rfl⟩ := h
    exact ⟨_, w.usdc, [], by simp, by simp; rfl⟩
  | setMaxUtilization admin bps =>
    simp [invoke, setMaxUtilization] at h
    obtain ⟨-, -, rfl⟩ := h
    exact ⟨_, w.usdc, [], by simp, by simp; rfl⟩

end Effects

end PerpsVault
