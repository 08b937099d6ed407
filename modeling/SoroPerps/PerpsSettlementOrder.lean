import SoroPerps.PerpsSystem

/-! # Settlement order

Between two removals nothing moves a price, a fee rate or another position. What each removal takes
from the books is therefore fixed before the first one runs, and removals commute. -/
namespace PerpsSettlementOrder

open SorobanHost PerpsTypes PerpsVault PerpsOracleAdapter PerpsPositionManager
open PerpsLiquidationEngine PerpsSystem FinmapSums

variable {N : Network}

/-- How a position leaves the store: its trader closes it, or a keeper has it liquidated. -/
inductive Means where
  | close
  | liquidate (keeper : Address)
  deriving DecidableEq, Repr

structure Removal where
  env : Env
  means : Means
  trader : Address
  id : ℕ
  asset : ℕ
  deriving DecidableEq, Repr

def remove (r : Removal) : Contract N Unit :=
  match r.means with
  | .close => discard (closePosition r.env r.trader r.id r.asset)
  | .liquidate keeper => liquidate r.env keeper r.trader r.id r.asset

/-- The removals one after the other. It returns only if every one of them does. -/
def removeAll : List Removal → Contract N Unit
  | [] => pure ()
  | r :: rs => do
    remove r
    removeAll rs

/-- What traders, liquidity providers and token holders can tell two ledgers apart by. -/
structure Standing where
  deposits : ℤ
  locked : ℤ
  interestLong : ℤ
  interestShort : ℤ
  positions : Finmap (fun _ : PositionKey => Position)
  counts : Address → ℕ
  balances : Address → ℤ

def standingOf (w : World N) : Standing where
  deposits := w.vault.totalDeposits
  locked := w.vault.lockedLiquidity
  interestLong := w.positionManager.openInterestLong
  interestShort := w.positionManager.openInterestShort
  positions := w.positionManager.position
  counts := getTraderPositionCount w.positionManager
  balances := w.usdcBalance

structure Settlement where
  key : PositionKey
  position : Position
  pnl : ℤ
  fee : ℤ

def Settlement.payout (x : Settlement) : ℤ := max 0 (x.position.collateral + x.pnl - x.fee)

def Standing.settle (vault : Address) (s : Standing) (x : Settlement) : Standing where
  deposits := s.deposits - x.pnl + x.fee
  locked := s.locked - x.position.size
  interestLong := s.interestLong - sizeOn .Long x.position
  interestShort := s.interestShort - sizeOn .Short x.position
  positions := s.positions.erase x.key
  counts a := s.counts a - if a = x.key.1 then 1 else 0
  balances a := s.balances a - (if a = vault then x.payout else 0) +
    if a = x.key.1 then x.payout else 0

def settlementIn (w : World N) (r : Removal) : Option Settlement :=
  match w.positionManager.position.lookup (r.trader, r.id), freshPrice? w r.asset with
  | some p, some price =>
    some ⟨(r.trader, r.id), p, pricePnl p price,
      match r.means with
      | .close => closeFee w p
      | .liquidate _ => 0⟩
  | _, _ => none

section Commutation

theorem settle_comm (vault : Address) (s : Standing) (x y : Settlement) :
    Standing.settle vault (Standing.settle vault s x) y =
      Standing.settle vault (Standing.settle vault s y) x := by
  simp only [Standing.settle, Standing.mk.injEq]
  refine ⟨by omega, by omega, by omega, by omega, Finmap.erase_erase, ?_, ?_⟩
  · funext a
    exact Nat.sub_right_comm _ _ _
  · funext a
    omega

theorem settle_perm (vault : Address) {xs ys : List Settlement} (h : xs.Perm ys) (s : Standing) :
    xs.foldl (Standing.settle vault) s = ys.foldl (Standing.settle vault) s := by
  apply h.foldl_eq'
  intro x _ y _ s
  exact settle_comm vault s x y

end Commutation

section Removals

variable {w w' w₀ : World N} {r : Removal} {rs : List Removal}

/-- What removals leave alone: the clock, the prices, the fee rate and the positions that stay. -/
structure Frozen (w₀ w : World N) : Prop where
  timestamp : w.timestamp = w₀.timestamp
  oracle : w.oracle = w₀.oracle
  closeFeeRate : w.positionManager.closeFeeRate = w₀.positionManager.closeFeeRate
  positions : ∀ key p, w.positionManager.position.lookup key = some p →
    w₀.positionManager.position.lookup key = some p

theorem Frozen.refl (w : World N) : Frozen w w := ⟨rfl, rfl, rfl, fun _ _ h => h⟩

theorem Frozen.fresh (h : Frozen w₀ w) {asset : ℕ} {price : ℤ} (hp : FreshPrice w asset price) :
    FreshPrice w₀ asset price := by
  unfold FreshPrice at *
  rwa [h.timestamp, h.oracle] at hp

theorem Frozen.closeFee (h : Frozen w₀ w) (p : Position) : closeFee w p = closeFee w₀ p := by
  simp only [PerpsPositionManager.closeFee, h.closeFeeRate]

theorem frozen_afterRemove {trader : Address} {id : ℕ} {p : Position} (h : Frozen w₀ w)
    (htime : w'.timestamp = w.timestamp) (horacle : w'.oracle = w.oracle)
    (hpm : w'.positionManager = afterRemove w.positionManager trader id p) : Frozen w₀ w' := by
  constructor
  · rw [htime, h.timestamp]
  · rw [horacle, h.oracle]
  · rw [hpm, ← h.closeFeeRate]
    rfl
  · intro key q hq
    rw [hpm] at hq
    exact h.positions key q (lookup_of_erase hq)

theorem standing_afterSettlement (hT : N.token.Exact) {trader : Address} {id : ℕ} {p : Position}
    {pnl fee : ℤ} (hpaid : PaidOut N w.usdc trader (p.collateral + pnl - fee) w'.usdc)
    (hv : w'.vault = afterSettlement w.vault p.size pnl fee)
    (hpm : w'.positionManager = afterRemove w.positionManager trader id p) :
    standingOf w' = (standingOf w).settle N.vault ⟨(trader, id), p, pnl, fee⟩ := by
  simp only [standingOf, Standing.settle, Standing.mk.injEq, hv, hpm]
  refine ⟨rfl, rfl, rfl, rfl, rfl, ?_, ?_⟩
  · funext a
    exact getTraderPositionCount_afterRemove
  · funext a
    exact hpaid.balance hT a

theorem remove_settles (hT : N.token.Exact) (hf : Frozen w₀ w)
    (h : (remove r : Contract N Unit).run w = .ok ((), w')) :
    ∃ x, settlementIn w₀ r = some x ∧ standingOf w' = (standingOf w).settle N.vault x ∧
      Frozen w₀ w' := by
  cases hm : r.means with
  | close =>
    simp only [remove, hm, run_discard_ok] at h
    obtain ⟨net, h⟩ := h
    obtain ⟨-, p, price, usdc, hp, -, hasset, hg, -, -, -, hpaid, rfl⟩ := closePosition_ok.mp h
    have hprice : freshPrice? w₀ r.asset = some price := by
      rw [← hasset]
      exact freshPrice?_eq_some.mpr (hf.fresh hg.fresh)
    refine ⟨_, ?_, standing_afterSettlement hT hpaid rfl rfl, frozen_afterRemove hf rfl rfl rfl⟩
    simp only [settlementIn, hf.positions _ _ hp, hprice, hm, hf.closeFee]
  | liquidate keeper =>
    simp only [remove, hm] at h
    obtain ⟨-, p, price, usdc, hp, hasset, -, -, hg, hpaid, rfl⟩ := liquidate_ok h
    have hprice : freshPrice? w₀ r.asset = some price := by
      rw [← hasset]
      exact freshPrice?_eq_some.mpr (hf.fresh hg.fresh)
    refine ⟨_, ?_, standing_afterSettlement hT hpaid rfl rfl, frozen_afterRemove hf rfl rfl rfl⟩
    simp only [settlementIn, hf.positions _ _ hp, hprice, hm]

/-- A run of removals posts the settlements read off its first ledger, in the order of the run. -/
theorem removeAll_settles (hT : N.token.Exact) (hf : Frozen w₀ w)
    (h : (removeAll rs : Contract N Unit).run w = .ok ((), w')) :
    standingOf w' =
      (rs.filterMap (settlementIn w₀)).foldl (Standing.settle N.vault) (standingOf w) := by
  induction rs generalizing w with
  | nil =>
    simp [removeAll] at h
    rw [h]
    rfl
  | cons r rs ih =>
    simp [removeAll] at h
    obtain ⟨_, w₁, hfirst, hrest⟩ := h
    obtain ⟨x, hx, hstand, hf₁⟩ := remove_settles hT hf hfirst
    rw [ih hf₁ hrest, hstand, List.filterMap_cons, hx, List.foldl_cons]

end Removals

/-- Whoever is settled first, the pool, the store and everybody's USDC end up the same, from any
ledger, reachable or not. -/
theorem settlement_order_irrelevant (hT : N.token.Exact) {w w₁ w₂ : World N}
    {rs rs' : List Removal} (hperm : rs.Perm rs')
    (h₁ : (removeAll rs : Contract N Unit).run w = .ok ((), w₁))
    (h₂ : (removeAll rs' : Contract N Unit).run w = .ok ((), w₂)) :
    standingOf w₁ = standingOf w₂ := by
  rw [removeAll_settles hT (Frozen.refl w) h₁, removeAll_settles hT (Frozen.refl w) h₂]
  exact settle_perm N.vault (hperm.filterMap _) _

/-- After a fall of three percent the trader closes one long and the keeper takes the other. -/
theorem settlement_order_two_longs :
    let w := ActionRuns.runActions step harnessStart [postPrice 0 10000000000,
      provide 1000000000000, openLong 0 1000000000 2, openLong 0 1000000000 30,
      postPrice 0 9700000000]
    let closing : Removal := ⟨⟨none, [⟨12⟩]⟩, .close, ⟨12⟩, 1, 0⟩
    let liquidation : Removal := ⟨⟨none, [⟨13⟩]⟩, .liquidate ⟨13⟩, ⟨12⟩, 2, 0⟩
    ∃ w₁ w₂, (removeAll [closing, liquidation]).run w = .ok ((), w₁) ∧
      (removeAll [liquidation, closing]).run w = .ok ((), w₂) ∧
      standingOf w₁ = standingOf w₂ := by
  intro w closing liquidation
  obtain ⟨⟨_, w₁⟩, h₁⟩ := returns_of_isOk (x := (removeAll [closing, liquidation]).run w)
    (by decide +kernel)
  obtain ⟨⟨_, w₂⟩, h₂⟩ := returns_of_isOk (x := (removeAll [liquidation, closing]).run w)
    (by decide +kernel)
  exact ⟨w₁, w₂, h₁, h₂,
    settlement_order_irrelevant ledgerToken_exact (List.Perm.swap _ _ _) h₁ h₂⟩

end PerpsSettlementOrder
