import SoroPerps.PerpsSystem
import SoroPerps.RelatedRuns

/-! # What the contracts cannot tell apart

A ledger may differ from another where no contract but the funding contract reads: in that
contract's storage, in the log, and in the prices of assets a call does not ask about. Every call
then ends alike on both. -/
namespace PerpsRelatedLedgers

open SorobanHost PerpsTypes PerpsVault PerpsOracleAdapter PerpsPositionManager
open PerpsLiquidationEngine PerpsSystem RelatedRuns

variable {N : Network} {α : Type} {env : Env} {R : World N → World N → Prop}

/-- Related ledgers differ in prices, the funding contract and the log at most, and stay related
when the same is written to both. -/
class Hides (R : World N → World N → Prop) : Prop where
  differ : ∀ {w w'}, R w w' → ∃ prices s es,
    w' = { w with oracle.price := prices, funding := s, events := es }
  write : ∀ {w w'} usdc v s e, R w w' →
    R { w with usdc := usdc, vault := v, positionManager := s, engine := e }
      { w' with usdc := usdc, vault := v, positionManager := s, engine := e }
  configure : ∀ {w w'} admin threshold, R w w' →
    R { w with oracle.admin := admin, oracle.stalenessThreshold := threshold }
      { w' with oracle.admin := admin, oracle.stalenessThreshold := threshold }
  post : ∀ {w w'} asset cached, R w w' →
    R { w with oracle.price := w.oracle.price.insert asset cached }
      { w' with oracle.price := w'.oracle.price.insert asset cached }
  log : ∀ {w w'} e, R w w' →
    R { w with events := w.events ++ [e] } { w' with events := w'.events ++ [e] }

def Shows (R : World N → World N → Prop) (asset : ℕ) : Prop :=
  ∀ w w', R w w' → w'.oracle.price.lookup asset = w.oracle.price.lookup asset

/-- The call asks for the price of an asset in `A`. -/
def Trades (A : ℕ → Prop) : PerpsSystem.Call → Prop
  | .positionManager (.openPosition _ asset _ _ _) => A asset
  | .positionManager (.closePosition _ _ asset) => A asset
  | .positionManager (.liquidatePosition _ _ _ asset) => A asset
  | .engine (.liquidate _ _ _ asset) => A asset
  | _ => False

section Host

theorem respects_fail (f : Failure PerpsError) : Respects R (fail f : Contract N α) :=
  respects_throw f

theorem respects_i128 (x : ℤ) : Respects R (i128 x : Contract N ℤ) :=
  respects_ite (respects_pure x) (respects_fail _)

theorem respects_divI128 (a b : ℤ) : Respects R (divI128 a b : Contract N ℤ) :=
  respects_ite (respects_fail _) (respects_i128 _)

theorem respects_proportion (x b : ℤ) :
    Respects R (do let product ← i128 x; divI128 product b : Contract N ℤ) :=
  respects_bind (respects_i128 x) fun product => respects_divI128 product b

theorem respects_addU64 (a b : ℕ) : Respects R (addU64 a b : Contract N ℕ) :=
  respects_ite (respects_pure _) (respects_fail _)

theorem respects_subU64 (a b : ℕ) : Respects R (subU64 a b : Contract N ℕ) :=
  respects_ite (respects_pure _) (respects_fail _)

theorem respects_rejectIf (c : Prop) [Decidable c] (e : PerpsError) :
    Respects R (rejectIf c e : Contract N Unit) :=
  respects_ite (respects_fail _) (respects_pure _)

theorem respects_okOr (o : Option α) (f : Failure PerpsError) :
    Respects R (okOr o f : Contract N α) := by
  cases o with
  | none => exact respects_fail f
  | some a => exact respects_pure a

theorem respects_unwrap (o : Option α) : Respects R (unwrap o : Contract N α) :=
  respects_okOr o _

theorem respects_propagate (outcome : Except (Option ℕ) α) :
    Respects R (propagate PerpsError.ofCode outcome : Contract N α) := by
  cases outcome with
  | ok a => exact respects_pure a
  | error code => exact respects_fail _

theorem respects_requireAuth (a : Address) : Respects R (requireAuth env a : Contract N Unit) :=
  respects_ite (respects_pure _) (respects_fail _)

theorem respects_requireContract (a b : Address) :
    Respects R (requireContract a b : Contract N Unit) :=
  respects_ite (respects_pure _) (respects_fail _)

theorem respects_requireAdmin (admin : Address) (stored : Option Address) :
    Respects R (requireAdmin env admin stored : Contract N Unit) := by
  refine respects_bind (respects_requireAuth _) fun _ => ?_
  refine respects_bind (respects_unwrap _) fun storedAdmin => ?_
  exact respects_rejectIf _ _

end Host

section State

variable [Hides R]

theorem respects_read {k : World N → Contract N α}
    (hread : ∀ w prices s es,
      k { w with oracle.price := prices, funding := s, events := es } = k w)
    (hk : ∀ w, Respects R (k w)) : Respects R (get >>= k) := by
  apply respects_get _ hk
  intro w w' h
  obtain ⟨prices, s, es, rfl⟩ := Hides.differ h
  exact hread w prices s es

theorem respects_emit (e : Event) : Respects R (emit e : Contract N Unit) := by
  apply respects_modify
  intro w w' h
  exact Hides.log e h

theorem respects_setVault (f : VaultStorage → VaultStorage) :
    Respects R (setVault f : Contract N Unit) := by
  apply respects_modify
  intro w w' h
  obtain ⟨prices, s, es, rfl⟩ := Hides.differ h
  exact Hides.write w.usdc (f w.vault) w.positionManager w.engine h

theorem respects_setPositionManager (f : PositionStorage → PositionStorage) :
    Respects R (PerpsPositionManager.setPositionManager f : Contract N Unit) := by
  apply respects_modify
  intro w w' h
  obtain ⟨prices, s, es, rfl⟩ := Hides.differ h
  exact Hides.write w.usdc w.vault (f w.positionManager) w.engine h

theorem respects_setEngine (f : LiquidationStorage → LiquidationStorage) :
    Respects R (setEngine f : Contract N Unit) := by
  apply respects_modify
  intro w w' h
  obtain ⟨prices, s, es, rfl⟩ := Hides.differ h
  exact Hides.write w.usdc w.vault w.positionManager (f w.engine) h

theorem respects_transferUsdc (token src dst : Address) (amount : ℤ) :
    Respects R (transferUsdc env token src dst amount : Contract N Unit) := by
  refine respects_bind (respects_requireContract _ _) fun _ => ?_
  refine respects_bind (respects_requireAuth _) fun _ => ?_
  refine respects_read (fun _ _ _ _ => rfl) fun w => ?_
  refine respects_bind (respects_propagate _) fun usdc => ?_
  apply respects_modify
  intro w w' h
  obtain ⟨prices, s, es, rfl⟩ := Hides.differ h
  exact Hides.write usdc w.vault w.positionManager w.engine h

/-- An admin setter: the admin is checked against the storage, then the argument, then written. -/
theorem respects_setter {admin : Address} {stored : World N → Option Address} {bad : Prop}
    [Decidable bad] {e : PerpsError} {write : Contract N Unit}
    (hread : ∀ w prices s es,
      stored { w with oracle.price := prices, funding := s, events := es } = stored w)
    (hwrite : Respects R write) : Respects R (do
      requireAdmin env admin (stored (← get))
      rejectIf bad e
      write : Contract N Unit) := by
  refine respects_read (fun w prices s es => by rw [hread]) fun w => ?_
  refine respects_bind (respects_requireAdmin _ _) fun _ => ?_
  exact respects_bind (respects_rejectIf _ _) fun _ => hwrite

theorem respects_freeSetter {admin : Address} {stored : World N → Option Address}
    {write : Contract N Unit}
    (hread : ∀ w prices s es,
      stored { w with oracle.price := prices, funding := s, events := es } = stored w)
    (hwrite : Respects R write) : Respects R (do
      requireAdmin env admin (stored (← get))
      write : Contract N Unit) := by
  refine respects_read (fun w prices s es => by rw [hread]) fun w => ?_
  exact respects_bind (respects_requireAdmin _ _) fun _ => hwrite

end State

section Vault

theorem respects_calcSharesToMint (amount ts td : ℤ) :
    Respects R (calcSharesToMint amount ts td : Contract N ℤ) :=
  respects_ite (respects_pure _) (respects_proportion _ _)

theorem respects_calcWithdrawalAmount (shares ts td : ℤ) :
    Respects R (calcWithdrawalAmount shares ts td : Contract N ℤ) :=
  respects_ite (respects_pure _) (respects_proportion _ _)

theorem respects_calcUtilizationBps (locked td : ℤ) :
    Respects R (calcUtilizationBps locked td : Contract N ℕ) := by
  refine respects_ite (respects_pure _) ?_
  refine respects_bind (respects_i128 _) fun product => ?_
  exact respects_bind (respects_divI128 _ _) fun quotient => respects_pure _

theorem respects_checkWithdrawal (locked td : ℤ) (cap : ℕ) :
    Respects R (checkWithdrawal locked td cap : Contract N Unit) := by
  refine respects_ite ?_ (respects_rejectIf _ _)
  exact respects_bind (respects_calcUtilizationBps _ _) fun newUtil => respects_rejectIf _ _

variable [Hides R]

theorem respects_requirePositionManager (caller : Address) :
    Respects R (requirePositionManager env caller : Contract N Unit) := by
  refine respects_bind (respects_requireAuth _) fun _ => ?_
  refine respects_read (fun _ _ _ _ => rfl) fun w => ?_
  exact respects_bind (respects_okOr _ _) fun pm => respects_rejectIf _ _

theorem respects_deposit (depositor : Address) (amount : ℤ) :
    Respects R (deposit env depositor amount : Contract N ℤ) := by
  refine respects_bind (respects_requireAuth _) fun _ => ?_
  refine respects_bind (respects_rejectIf _ _) fun _ => ?_
  refine respects_read (fun _ _ _ _ => rfl) fun w => ?_
  refine respects_bind (respects_calcSharesToMint _ _ _) fun shares => ?_
  refine respects_bind (respects_rejectIf _ _) fun _ => ?_
  refine respects_bind (respects_unwrap _) fun usdc => ?_
  refine respects_bind (respects_transferUsdc _ _ _ _) fun _ => ?_
  refine respects_bind (respects_i128 _) fun newDeposits => ?_
  refine respects_bind (respects_i128 _) fun newShares => ?_
  refine respects_bind (respects_i128 _) fun newBalance => ?_
  refine respects_bind (respects_setVault _) fun _ => ?_
  exact respects_bind (respects_emit _) fun _ => respects_pure _

theorem respects_withdraw (depositor : Address) (shares : ℤ) :
    Respects R (withdraw env depositor shares : Contract N ℤ) := by
  refine respects_bind (respects_requireAuth _) fun _ => ?_
  refine respects_bind (respects_rejectIf _ _) fun _ => ?_
  refine respects_read (fun _ _ _ _ => rfl) fun w => ?_
  refine respects_bind (respects_rejectIf _ _) fun _ => ?_
  refine respects_bind (respects_calcWithdrawalAmount _ _ _) fun amount => ?_
  refine respects_bind (respects_rejectIf _ _) fun _ => ?_
  refine respects_bind (respects_i128 _) fun newTotalDeposits => ?_
  refine respects_bind (respects_checkWithdrawal _ _ _) fun _ => ?_
  refine respects_bind (respects_i128 _) fun newShares => ?_
  refine respects_bind (respects_i128 _) fun newBalance => ?_
  refine respects_bind (respects_setVault _) fun _ => ?_
  refine respects_bind (respects_unwrap _) fun usdc => ?_
  refine respects_bind (respects_transferUsdc _ _ _ _) fun _ => ?_
  exact respects_bind (respects_emit _) fun _ => respects_pure _

theorem respects_lockLiquidity (caller : Address) (amount : ℤ) :
    Respects R (lockLiquidity env caller amount : Contract N Unit) := by
  refine respects_bind (respects_requirePositionManager _) fun _ => ?_
  refine respects_bind (respects_rejectIf _ _) fun _ => ?_
  refine respects_read (fun _ _ _ _ => rfl) fun w => ?_
  refine respects_bind (respects_i128 _) fun newLocked => ?_
  refine respects_bind (respects_calcUtilizationBps _ _) fun newUtil => ?_
  refine respects_bind (respects_rejectIf _ _) fun _ => ?_
  exact respects_bind (respects_setVault _) fun _ => respects_emit _

theorem respects_unlockLiquidity (caller : Address) (amount : ℤ) :
    Respects R (unlockLiquidity env caller amount : Contract N Unit) := by
  refine respects_bind (respects_requirePositionManager _) fun _ => ?_
  refine respects_bind (respects_rejectIf _ _) fun _ => ?_
  refine respects_read (fun _ _ _ _ => rfl) fun w => ?_
  refine respects_bind (respects_i128 _) fun newLocked => ?_
  refine respects_bind (respects_rejectIf _ _) fun _ => ?_
  exact respects_bind (respects_setVault _) fun _ => respects_emit _

theorem respects_adjustDeposits (trader : Address) (pnl : ℤ) :
    Respects R (adjustDeposits env trader pnl : Contract N Unit) := by
  refine respects_read (fun _ _ _ _ => rfl) fun w => ?_
  refine respects_ite ?_ (respects_ite ?_ (respects_pure _))
  · refine respects_bind (respects_rejectIf _ _) fun _ => ?_
    refine respects_bind (respects_unwrap _) fun usdc => ?_
    refine respects_bind (respects_transferUsdc _ _ _ _) fun _ => ?_
    exact respects_bind (respects_i128 _) fun newDeposits => respects_setVault _
  · refine respects_bind (respects_i128 _) fun loss => ?_
    exact respects_bind (respects_i128 _) fun newDeposits => respects_setVault _

theorem respects_settlePnl (caller trader : Address) (pnl : ℤ) :
    Respects R (settlePnl env caller trader pnl : Contract N Unit) := by
  refine respects_bind (respects_requirePositionManager _) fun _ => ?_
  exact respects_bind (respects_adjustDeposits _ _) fun _ => respects_emit _

theorem respects_payOut (token : Option Address) (trader : Address) (payout : ℤ) :
    Respects R (payOut env token trader payout : Contract N Unit) := by
  refine respects_ite ?_ (respects_pure _)
  exact respects_bind (respects_unwrap _) fun usdc => respects_transferUsdc _ _ _ _

theorem respects_closePositionSettlement (caller trader : Address)
    (size collateral pnl fee : ℤ) : Respects R
      (closePositionSettlement env caller trader size collateral pnl fee : Contract N Unit) := by
  refine respects_bind (respects_requirePositionManager _) fun _ => ?_
  refine respects_read (fun _ _ _ _ => rfl) fun w => ?_
  refine respects_bind (respects_i128 _) fun newLocked => ?_
  refine respects_bind (respects_rejectIf _ _) fun _ => ?_
  refine respects_bind (respects_setVault _) fun _ => ?_
  refine respects_bind (respects_i128 _) fun afterPnl => ?_
  refine respects_bind (respects_i128 _) fun newDeposits => ?_
  refine respects_bind (respects_rejectIf _ _) fun _ => ?_
  refine respects_bind (respects_setVault _) fun _ => ?_
  refine respects_bind (respects_i128 _) fun equity => ?_
  refine respects_bind (respects_i128 _) fun payout => ?_
  refine respects_bind (respects_payOut _ _ _) fun _ => ?_
  exact respects_bind (respects_emit _) fun _ => respects_emit _

theorem respects_collectFee (caller : Address) (amount : ℤ) :
    Respects R (collectFee env caller amount : Contract N Unit) := by
  refine respects_bind (respects_requirePositionManager _) fun _ => ?_
  refine respects_bind (respects_rejectIf _ _) fun _ => ?_
  refine respects_read (fun _ _ _ _ => rfl) fun w => ?_
  refine respects_bind (respects_i128 _) fun newDeposits => ?_
  exact respects_bind (respects_setVault _) fun _ => respects_emit _

theorem respects_vault (call : PerpsVault.Call) :
    Respects R (PerpsVault.invoke env call : Contract N Unit) := by
  cases call with
  | initializeVault admin usdcToken bps =>
    refine respects_read (fun _ _ _ _ => rfl) fun w => ?_
    refine respects_bind (respects_rejectIf _ _) fun _ => ?_
    exact respects_bind (respects_rejectIf _ _) fun _ => respects_setVault _
  | deposit depositor amount => exact respects_map _ (respects_deposit _ _)
  | withdraw depositor shares => exact respects_map _ (respects_withdraw _ _)
  | lockLiquidity caller amount => exact respects_lockLiquidity _ _
  | unlockLiquidity caller amount => exact respects_unlockLiquidity _ _
  | settlePnl caller trader pnl => exact respects_settlePnl _ _ _
  | closePositionSettlement caller trader size collateral pnl fee =>
    exact respects_closePositionSettlement _ _ _ _ _ _
  | collectFee caller amount => exact respects_collectFee _ _
  | setPositionManager admin pm =>
    exact respects_freeSetter (fun _ _ _ _ => rfl) (respects_setVault _)
  | setMaxUtilization admin bps =>
    exact respects_setter (fun _ _ _ _ => rfl) (respects_setVault _)

end Vault

section Oracle

variable [Hides R]

theorem respects_getPriceValue {asset : ℕ} (hp : Shows R asset) :
    Respects R (getPriceValue asset : Contract N ℤ) := by
  refine respects_bind ?_ fun cached => respects_pure _
  refine respects_get ?_ fun w => ?_
  · intro w w' h
    have hprice := hp w w' h
    obtain ⟨prices, s, es, rfl⟩ := Hides.differ h
    simp only [hprice]
  refine respects_bind (respects_okOr _ _) fun cached => ?_
  refine respects_read (fun _ _ _ _ => rfl) fun w => ?_
  refine respects_bind (respects_subU64 _ _) fun age => ?_
  exact respects_bind (respects_rejectIf _ _) fun _ => respects_pure _

theorem respects_oracle (call : PerpsOracleAdapter.Call) :
    Respects R (PerpsOracleAdapter.invoke env call : Contract N Unit) := by
  cases call with
  | initializeOracle admin threshold =>
    refine respects_read (fun _ _ _ _ => rfl) fun w => ?_
    refine respects_bind (respects_rejectIf _ _) fun _ => ?_
    refine respects_bind (respects_rejectIf _ _) fun _ => ?_
    apply respects_modify
    intro w w' h
    exact Hides.configure (some admin) threshold h
  | setPrice admin asset price =>
    refine respects_read (fun _ _ _ _ => rfl) fun w => ?_
    refine respects_bind (respects_requireAdmin _ _) fun _ => ?_
    refine respects_bind (respects_rejectIf _ _) fun _ => ?_
    refine respects_read (fun _ _ _ _ => rfl) fun w => ?_
    refine respects_bind ?_ fun _ => respects_emit _
    apply respects_modify
    intro w' w'' h
    exact Hides.post asset ⟨price, w.timestamp⟩ h
  | setStalenessThreshold admin threshold =>
    apply respects_setter fun _ _ _ _ => rfl
    apply respects_modify
    intro w w' h
    obtain ⟨prices, s, es, rfl⟩ := Hides.differ h
    exact Hides.configure w.oracle.admin threshold h

end Oracle

section PositionManager

theorem respects_calculatePnl (direction : Direction) (size entryPrice currentPrice : ℤ) :
    Respects R (calculatePnl direction size entryPrice currentPrice : Contract N ℤ) := by
  cases direction with
  | Long => exact respects_bind (respects_i128 _) fun move => respects_proportion _ _
  | Short => exact respects_bind (respects_i128 _) fun move => respects_proportion _ _

theorem respects_calculateFee (notional : ℤ) (bps : ℕ) :
    Respects R (calculateFee notional bps : Contract N ℤ) := respects_proportion _ _

variable [Hides R]

theorem respects_incrementPositionId : Respects R (incrementPositionId : Contract N ℕ) := by
  refine respects_read (fun _ _ _ _ => rfl) fun w => ?_
  refine respects_bind (respects_addU64 _ _) fun next => ?_
  exact respects_bind (respects_setPositionManager _) fun _ => respects_pure _

theorem respects_openPosition (trader : Address) {asset : ℕ} (direction : Direction)
    (collateral : ℤ) (leverage : ℕ) (hp : Shows R asset) : Respects R
      (openPosition env trader asset direction collateral leverage : Contract N ℕ) := by
  refine respects_bind (respects_requireAuth _) fun _ => ?_
  refine respects_read (fun _ _ _ _ => rfl) fun w => ?_
  refine respects_bind (respects_rejectIf _ _) fun _ => ?_
  refine respects_bind (respects_rejectIf _ _) fun _ => ?_
  refine respects_bind (respects_unwrap _) fun oracle => ?_
  refine respects_bind (respects_requireContract _ _) fun _ => ?_
  refine respects_bind (respects_getPriceValue hp) fun entryPrice => ?_
  refine respects_bind (respects_i128 _) fun size => ?_
  refine respects_bind (respects_calculateFee _ _) fun openFee => ?_
  refine respects_bind (respects_i128 _) fun totalCost => ?_
  refine respects_bind (respects_unwrap _) fun usdc => ?_
  refine respects_bind (respects_unwrap _) fun vault => ?_
  refine respects_bind (respects_transferUsdc _ _ _ _) fun _ => ?_
  refine respects_bind (respects_requireContract _ _) fun _ => ?_
  refine respects_bind (respects_lockLiquidity _ _) fun _ => ?_
  refine respects_bind (respects_collectFee _ _) fun _ => ?_
  refine respects_bind respects_incrementPositionId fun positionId => ?_
  refine respects_read (fun _ _ _ _ => rfl) fun w => ?_
  refine respects_bind (respects_setPositionManager _) fun _ => ?_
  refine respects_read (fun _ _ _ _ => rfl) fun w => ?_
  refine respects_bind (respects_i128 _) fun oi => ?_
  refine respects_bind (respects_setPositionManager _) fun _ => ?_
  refine respects_read (fun _ _ _ _ => rfl) fun w => ?_
  refine respects_bind (respects_addU64 _ _) fun count => ?_
  refine respects_bind (respects_setPositionManager _) fun _ => ?_
  exact respects_bind (respects_emit _) fun _ => respects_pure _

/-- The writes of a close and of a liquidation, with whatever follows them. -/
theorem respects_removal {trader : Address} {id : ℕ} {position : Position} {rest : Contract N α}
    (hrest : Respects R rest) : Respects R (do
      PerpsPositionManager.setPositionManager fun s => removePosition s trader id
      let oi ← i128 (openInterest (← get).positionManager position.direction - position.size)
      PerpsPositionManager.setPositionManager fun s => setOpenInterest s position.direction oi
      let count := getTraderPositionCount (← get).positionManager trader
      PerpsPositionManager.setPositionManager fun s =>
        if 0 < count then setTraderPositionCount s trader (count - 1) else s
      rest : Contract N α) := by
  refine respects_bind (respects_setPositionManager _) fun _ => ?_
  refine respects_read (fun _ _ _ _ => rfl) fun w => ?_
  refine respects_bind (respects_i128 _) fun oi => ?_
  refine respects_bind (respects_setPositionManager _) fun _ => ?_
  refine respects_read (fun _ _ _ _ => rfl) fun w => ?_
  exact respects_bind (respects_setPositionManager _) fun _ => hrest

theorem respects_closePosition (trader : Address) (id : ℕ) {asset : ℕ} (hp : Shows R asset) :
    Respects R (closePosition env trader id asset : Contract N ℤ) := by
  refine respects_bind (respects_requireAuth _) fun _ => ?_
  refine respects_read (fun _ _ _ _ => rfl) fun w => ?_
  refine respects_bind (respects_okOr _ _) fun position => ?_
  refine respects_bind (respects_rejectIf _ _) fun _ => ?_
  refine respects_bind (respects_rejectIf _ _) fun _ => ?_
  refine respects_bind (respects_unwrap _) fun oracle => ?_
  refine respects_bind (respects_requireContract _ _) fun _ => ?_
  refine respects_bind (respects_getPriceValue hp) fun currentPrice => ?_
  refine respects_bind (respects_calculatePnl _ _ _ _) fun rawPnl => ?_
  refine respects_bind (respects_i128 _) fun maxLoss => ?_
  refine respects_bind (respects_calculateFee _ _) fun closeFee => ?_
  refine respects_bind (respects_i128 _) fun netPnl => ?_
  refine respects_bind (respects_unwrap _) fun vault => ?_
  refine respects_bind (respects_requireContract _ _) fun _ => ?_
  refine respects_bind (respects_closePositionSettlement _ _ _ _ _ _) fun _ => ?_
  apply respects_removal
  exact respects_bind (respects_emit _) fun _ => respects_pure _

theorem respects_liquidatePosition (caller trader : Address) (id : ℕ) {asset : ℕ}
    (hp : Shows R asset) : Respects R
      (liquidatePosition env caller trader id asset : Contract N (ℤ × ℤ)) := by
  refine respects_bind (respects_requireAuth _) fun _ => ?_
  refine respects_read (fun _ _ _ _ => rfl) fun w => ?_
  refine respects_bind (respects_okOr _ _) fun engine => ?_
  refine respects_bind (respects_rejectIf _ _) fun _ => ?_
  refine respects_bind (respects_okOr _ _) fun position => ?_
  refine respects_bind (respects_rejectIf _ _) fun _ => ?_
  refine respects_bind (respects_unwrap _) fun oracle => ?_
  refine respects_bind (respects_requireContract _ _) fun _ => ?_
  refine respects_bind (respects_getPriceValue hp) fun currentPrice => ?_
  refine respects_bind (respects_calculatePnl _ _ _ _) fun rawPnl => ?_
  refine respects_bind (respects_i128 _) fun maxLoss => ?_
  refine respects_bind (respects_unwrap _) fun vault => ?_
  refine respects_bind (respects_requireContract _ _) fun _ => ?_
  refine respects_bind (respects_closePositionSettlement _ _ _ _ _ _) fun _ => ?_
  exact respects_removal (respects_pure _)

theorem respects_positionManager {call : PerpsPositionManager.Call}
    (hp : ∀ asset, Trades (· = asset) (.positionManager call) → Shows R asset) :
    Respects R (PerpsPositionManager.invoke env call : Contract N Unit) := by
  cases call with
  | initializePositionManager admin vault oracle usdc openFee closeFee leverage collateral =>
    refine respects_read (fun _ _ _ _ => rfl) fun w => ?_
    refine respects_bind (respects_rejectIf _ _) fun _ => ?_
    exact respects_bind (respects_rejectIf _ _) fun _ => respects_setPositionManager _
  | openPosition trader asset direction collateral leverage =>
    exact respects_map _ (respects_openPosition _ _ _ _ (hp _ rfl))
  | closePosition trader id asset => exact respects_map _ (respects_closePosition _ _ (hp _ rfl))
  | liquidatePosition caller trader id asset =>
    exact respects_map _ (respects_liquidatePosition _ _ _ (hp _ rfl))
  | setFeeRates admin openBps closeBps =>
    exact respects_setter (fun _ _ _ _ => rfl) (respects_setPositionManager _)
  | setMaxLeverage admin max =>
    exact respects_setter (fun _ _ _ _ => rfl) (respects_setPositionManager _)
  | setLiquidationEngine admin engine =>
    exact respects_freeSetter (fun _ _ _ _ => rfl) (respects_setPositionManager _)
  | setFundingAddress admin funding =>
    exact respects_freeSetter (fun _ _ _ _ => rfl) (respects_setPositionManager _)

end PositionManager

section Engine

theorem respects_shareOfCollateral (collateral equity : ℤ) (bps : ℕ) :
    Respects R (shareOfCollateral collateral equity bps : Contract N ℤ) := by
  refine respects_ite ?_ (respects_pure _)
  refine respects_bind (respects_i128 _) fun scaled => ?_
  exact respects_bind (respects_divI128 _ _) fun raw => respects_pure _

variable [Hides R]

theorem respects_getPosition (trader : Address) (id : ℕ) :
    Respects R (getPosition trader id : Contract N Position) := by
  refine respects_read (fun _ _ _ _ => rfl) fun w => ?_
  exact respects_okOr _ _

theorem respects_getUnrealizedPnl (trader : Address) (id : ℕ) {asset : ℕ} (hp : Shows R asset) :
    Respects R (getUnrealizedPnl trader id asset : Contract N ℤ) := by
  refine respects_read (fun _ _ _ _ => rfl) fun w => ?_
  refine respects_bind (respects_okOr _ _) fun position => ?_
  refine respects_bind (respects_unwrap _) fun oracle => ?_
  refine respects_bind (respects_requireContract _ _) fun _ => ?_
  refine respects_bind (respects_getPriceValue hp) fun currentPrice => ?_
  exact respects_calculatePnl _ _ _ _

theorem respects_liquidate (keeper trader : Address) (id : ℕ) {asset : ℕ} (hp : Shows R asset) :
    Respects R (liquidate env keeper trader id asset : Contract N Unit) := by
  refine respects_bind (respects_requireAuth _) fun _ => ?_
  refine respects_read (fun _ _ _ _ => rfl) fun w => ?_
  refine respects_bind (respects_unwrap _) fun pm => ?_
  refine respects_bind (respects_requireContract _ _) fun _ => ?_
  refine respects_bind (respects_getPosition _ _) fun position => ?_
  refine respects_read (fun _ _ _ _ => rfl) fun w => ?_
  refine respects_bind (respects_unwrap _) fun oracle => ?_
  refine respects_bind (respects_requireContract _ _) fun _ => ?_
  refine respects_bind (respects_getPriceValue hp) fun markPrice => ?_
  refine respects_bind (respects_getUnrealizedPnl _ _ hp) fun unrealizedPnl => ?_
  refine respects_bind (respects_i128 _) fun effectiveMargin => ?_
  refine respects_bind (respects_i128 _) fun scaled => ?_
  refine respects_bind (respects_divI128 _ _) fun marginRatioBps => ?_
  refine respects_read (fun _ _ _ _ => rfl) fun w => ?_
  refine respects_bind (respects_rejectIf _ _) fun _ => ?_
  refine respects_bind (respects_liquidatePosition _ _ _ hp) fun settled => ?_
  refine respects_bind (respects_i128 _) fun remainingEquity => ?_
  refine respects_read (fun _ _ _ _ => rfl) fun w => ?_
  refine respects_bind (respects_shareOfCollateral _ _ _) fun penalty => ?_
  exact respects_bind (respects_shareOfCollateral _ _ _) fun keeperReward => respects_emit _

theorem respects_engine {call : PerpsLiquidationEngine.Call}
    (hp : ∀ asset, Trades (· = asset) (.engine call) → Shows R asset) :
    Respects R (PerpsLiquidationEngine.invoke env call : Contract N Unit) := by
  cases call with
  | initializeEngine admin pm oracle maintenance penalty reward =>
    refine respects_read (fun _ _ _ _ => rfl) fun w => ?_
    refine respects_bind (respects_rejectIf _ _) fun _ => ?_
    refine respects_bind (respects_rejectIf _ _) fun _ => ?_
    exact respects_bind (respects_rejectIf _ _) fun _ => respects_setEngine _
  | liquidate keeper trader id asset => exact respects_liquidate _ _ _ (hp _ rfl)
  | setMaintenanceMargin admin bps =>
    exact respects_setter (fun _ _ _ _ => rfl) (respects_setEngine _)
  | setLiquidationPenalty admin bps =>
    exact respects_freeSetter (fun _ _ _ _ => rfl) (respects_setEngine _)
  | setKeeperReward admin bps =>
    exact respects_freeSetter (fun _ _ _ _ => rfl) (respects_setEngine _)

end Engine

section Steps

variable [Hides R] {w w' : World N}

theorem respects_dispatch {call : PerpsSystem.Call}
    (hp : ∀ asset, Trades (· = asset) call → Shows R asset)
    (hfunding : ∀ c, call = .funding c →
      Respects R (PerpsFundingRate.invoke env c : Contract N Unit)) :
    Respects R (dispatch env call : Contract N Unit) := by
  cases call with
  | vault call => exact respects_vault call
  | oracle call => exact respects_oracle call
  | positionManager call => exact respects_positionManager hp
  | engine call => exact respects_engine hp
  | funding call => exact hfunding call rfl
  | transferUsdc src dst amount => exact respects_transferUsdc _ _ _ _

omit [Hides R] in
theorem related_invoke {caller : Caller N} {call : PerpsSystem.Call}
    (hx : Respects R (dispatch caller.env call : Contract N Unit)) (h : R w w') :
    R (step w (.invoke caller call)) (step w' (.invoke caller call)) := by
  cases hrun : (dispatch caller.env call).run w with
  | error f =>
    have hrun' := hx.fails h hrun
    simpa only [step, hrun, hrun'] using h
  | ok result =>
    obtain ⟨t, hrun', hrelated⟩ := hx.returns h hrun
    simpa only [step, hrun, hrun'] using hrelated

end Steps

end PerpsRelatedLedgers
