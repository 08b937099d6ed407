import SoroPerps.PerpsSolvency

/-! # Unwinding a position

A position leaves the store through its trader's close or through a liquidation. The two pay
differently, and neither can be refused to a losing position of a backed vault. -/
namespace PerpsUnwinding

open SorobanHost PerpsTypes PerpsVault PerpsOracleAdapter PerpsPositionManager
open PerpsLiquidationEngine PerpsSystem PoolBooks FinmapSums PerpsSystemInvariant PerpsSolvency

variable {N : Network} {w w' : World N} {env : Env} {keeper trader : Address} {id asset : ℕ}
  {p : Position} {price : ℤ}

section Payouts

def received (w w' : World N) (account : Address) : ℤ :=
  w'.usdcBalance account - w.usdcBalance account

theorem balance_receiver (hT : N.token.Exact) {dst : Address} {amount : ℤ}
    {s s' : N.token.State} (ht : PaidOut N s dst amount s') (hdst : dst ∉ N.contracts) :
    N.token.balance s' dst = N.token.balance s dst + max 0 amount := by
  have hne : dst ≠ N.vault := by
    rintro rfl
    exact hdst vault_contract
  rw [ht.balance hT, if_neg hne, if_pos rfl, sub_zero]

theorem trader_outside (hi : SystemInvariant w)
    (hp : w.positionManager.position.lookup (trader, id) = some p) : trader ∉ N.contracts := by
  have hr := hi.register _ _ hp
  have hout := hr.outside
  rwa [hr.trader] at hout

theorem received_of_close (hT : N.token.Exact) (hi : SystemInvariant w) {net : ℤ}
    (hp : w.positionManager.position.lookup (trader, id) = some p)
    (hprice : FreshPrice w p.asset price)
    (h : (closePosition env trader id asset : Contract N ℤ).run w = .ok (net, w')) :
    received w w' trader = max 0 (p.collateral + pricePnl p price - closeFee w p) := by
  obtain ⟨-, q, price', usdc, hq, -, -, hg, -, -, -, hpaid, rfl⟩ := closePosition_ok.mp h
  obtain rfl : p = q := Option.mem_unique hp hq
  obtain rfl := hprice.unique hg.fresh
  simp only [received, World.usdcBalance, balance_receiver hT hpaid (trader_outside hi hp)]
  omega

theorem received_of_liquidate (hT : N.token.Exact) (hi : SystemInvariant w)
    (hp : w.positionManager.position.lookup (trader, id) = some p)
    (hprice : FreshPrice w p.asset price)
    (h : (liquidate env keeper trader id asset : Contract N Unit).run w = .ok ((), w')) :
    received w w' trader = max 0 (p.collateral + pricePnl p price) := by
  obtain ⟨-, q, price', usdc, hq, -, -, -, hg, hpaid, rfl⟩ := liquidate_ok h
  obtain rfl : p = q := Option.mem_unique hp hq
  obtain rfl := hprice.unique hg.fresh
  simp only [received, World.usdcBalance, balance_receiver hT hpaid (trader_outside hi hp)]
  omega

theorem nothing_left_iff : p.collateral + pricePnl p price ≤ 0 ↔ rawPnl p price ≤ -p.collateral := by
  unfold pricePnl
  split
  · omega
  · omega

/-- Liquidation charges the trader nothing, a close charges the fee. So liquidation pays better
unless the fee is zero or there is nothing left to pay. -/
theorem liquidation_never_pays_better_iff (hT : N.token.Exact) (hr : Reachable w)
    (hp : w.positionManager.position.lookup (trader, id) = some p)
    (hprice : FreshPrice w p.asset price) {env' : Env} {asset' : ℕ} {net : ℤ} {wl wc : World N}
    (hl : (liquidate env keeper trader id asset : Contract N Unit).run w = .ok ((), wl))
    (hc : (closePosition env' trader id asset' : Contract N ℤ).run w = .ok (net, wc)) :
    received w wl trader ≤ received w wc trader ↔
      closeFee w p = 0 ∨ rawPnl p price ≤ -p.collateral := by
  have hi := reachableVia_invariant hr
  have hfee : 0 ≤ closeFee w p := feeFor_nonneg (hi.books.sizes _ _ hp).le _
  rw [received_of_liquidate hT hi hp hprice hl, received_of_close hT hi hp hprice hc,
    ← nothing_left_iff]
  omega

/-- The harness scenario of a full liquidation: a ten times long after a fall of eight percent. -/
def fallenLong : World harness :=
  ActionRuns.runActions step harnessStart [postPrice 0 10000000000, provide 1000000000000,
    openLong 0 1000000000 10, postPrice 0 9200000000]

def storedLong : Position := ⟨1, ⟨12⟩, 0, .Long, 10000000000, 1000000000, 10000000000, 10, 0, 1000⟩

theorem fallenLong_reachable : Reachable fallenLong :=
  reachable_of_actions deployed_harness (by decide)

theorem fallenLong_stored :
    fallenLong.positionManager.position.lookup (⟨12⟩, 1) = some storedLong := by decide +kernel

theorem fallenLong_fresh : FreshPrice fallenLong 0 9200000000 :=
  freshPrice?_eq_some.mp (by decide +kernel)

theorem fallenLong_pays_better : ∃ wl wc net,
    (liquidate ⟨none, [⟨13⟩]⟩ ⟨13⟩ ⟨12⟩ 1 0).run fallenLong = .ok ((), wl) ∧
    (closePosition ⟨none, [⟨12⟩]⟩ ⟨12⟩ 1 0).run fallenLong = .ok (net, wc) ∧
    (received fallenLong wl ⟨12⟩ ≤ received fallenLong wc ⟨12⟩ ↔
      closeFee fallenLong storedLong = 0 ∨ rawPnl storedLong 9200000000 ≤ -1000000000) := by
  obtain ⟨⟨_, wl⟩, hl⟩ := returns_of_isOk
    (x := (liquidate ⟨none, [⟨13⟩]⟩ ⟨13⟩ ⟨12⟩ 1 0).run fallenLong) (by decide +kernel)
  obtain ⟨⟨net, wc⟩, hc⟩ := returns_of_isOk
    (x := (closePosition ⟨none, [⟨12⟩]⟩ ⟨12⟩ 1 0).run fallenLong) (by decide +kernel)
  exact ⟨wl, wc, net, hl, hc, liquidation_never_pays_better_iff ledgerToken_exact
    fallenLong_reachable fallenLong_stored fallenLong_fresh hl hc⟩

/-- There the keeper's liquidation pays the trader 20 USDC and the trader's own close 19. -/
theorem fallenLong_prefers_liquidation : ¬ ∀ N : Network, N.token.Exact → ∀ w : World N,
    Reachable w → ∀ env env' keeper trader id asset wl wc net,
      (liquidate env keeper trader id asset : Contract N Unit).run w = .ok ((), wl) →
      (closePosition env' trader id asset : Contract N ℤ).run w = .ok (net, wc) →
      received w wl trader ≤ received w wc trader := by
  intro h
  obtain ⟨⟨_, wl⟩, hl, hpaid⟩ := result_of_toOption
    (x := (liquidate ⟨none, [⟨13⟩]⟩ ⟨13⟩ ⟨12⟩ 1 0).run fallenLong)
    (g := fun r => received fallenLong r.2 ⟨12⟩) (b := 200000000) (by decide +kernel)
  obtain ⟨⟨net, wc⟩, hc, hpaid'⟩ := result_of_toOption
    (x := (closePosition ⟨none, [⟨12⟩]⟩ ⟨12⟩ 1 0).run fallenLong)
    (g := fun r => received fallenLong r.2 ⟨12⟩) (b := 190000000) (by decide +kernel)
  have hle := h harness ledgerToken_exact fallenLong fallenLong_reachable _ _ _ _ _ _ _ _ _ hl hc
  simp only at hpaid hpaid'
  omega

end Payouts

section Unwinding

/-- The arithmetic of settling a position for a given fee stays in the `i128` range, the balance
of the payee included. -/
structure SettlementInRange (w : World N) (p : Position) (price fee : ℤ) : Prop where
  move : InI128 (favourableMove p.direction p.entryPrice price)
  pnl : ProportionFits p.size (favourableMove p.direction p.entryPrice price) p.entryPrice
  loss : InI128 (-p.collateral)
  settlement : SettlementFits w.vault p.size p.collateral (pricePnl p price) fee
  interest : InI128 (openInterest w.positionManager p.direction - p.size)
  payee : 0 < p.collateral + pricePnl p price - fee →
    InI128 (w.usdcBalance p.trader + (p.collateral + pricePnl p price - fee))

structure CloseInRange (w : World N) (p : Position) (price : ℤ) : Prop where
  settlement : SettlementInRange w p price (closeFee w p)
  fee : ProportionFits p.size w.positionManager.closeFeeRate 10000
  net : InI128 (pricePnl p price - closeFee w p)

structure LiquidationInRange (w : World N) (p : Position) (price : ℤ) : Prop where
  settlement : SettlementInRange w p price 0
  margin : InI128 (p.collateral + rawPnl p price)
  ratio : ProportionFits (p.collateral + rawPnl p price) 10000 p.size
  shares : 0 < p.collateral + pricePnl p price →
    ProportionFits p.collateral w.engine.liquidationPenalty 10000 ∧
      ProportionFits p.collateral w.engine.keeperReward 10000

variable {fee : ℤ} {key : PositionKey}

theorem pnlFits_of_inRange (hi : SystemInvariant w)
    (hp : w.positionManager.position.lookup key = some p)
    (hf : SettlementInRange w p price fee) : PnlFits p price :=
  ⟨(hi.register _ _ hp).entryPrice.ne', hf.move, hf.pnl⟩

theorem settleGuards_of_loss (hi : SystemInvariant w)
    (hp : w.positionManager.position.lookup key = some p) (hprice : FreshPrice w p.asset price)
    (hloss : pricePnl p price ≤ 0) (hfee : 0 ≤ fee) (hf : SettlementInRange w p price fee) :
    SettleGuards w p price fee where
  oracle := hi.wired.managerOracle
  vault := hi.wired.managerVault
  manager := hi.wired.vaultManager
  fresh := hprice
  pnlFits := pnlFits_of_inRange hi hp hf
  lossFits := hf.loss
  settlementFits := hf.settlement
  locked := hi.size_le_locked hp
  deposits := by
    have hdeposits : 0 ≤ w.vault.totalDeposits := hi.books.deposits
    omega
  usdc := fun _ => hi.wired.vaultUsdc
  interestFits := hf.interest

theorem collateral_le_balance (hi : SystemInvariant w) (hb : Backed w)
    (hp : w.positionManager.position.lookup key = some p) :
    p.collateral ≤ w.usdcBalance N.vault := by
  have hnonneg : ∀ key q, w.positionManager.position.lookup key = some q → 0 ≤ q.collateral := by
    intro key q hq
    exact (hi.books.collaterals key q hq).le
  have hone : p.collateral ≤ totalCollateral w := le_sumBy (f := fun _ q => q.collateral) hnonneg hp
  have hdeposits : 0 ≤ w.vault.totalDeposits := hi.books.deposits
  unfold Backed at hb
  omega

theorem payout_of_loss (hT : N.token.Pays) (hi : SystemInvariant w) (hb : Backed w)
    (hp : w.positionManager.position.lookup key = some p) (hloss : pricePnl p price ≤ 0)
    (hfee : 0 ≤ fee) (hf : SettlementInRange w p price fee) :
    ∃ usdc, PaidOut N w.usdc p.trader (p.collateral + pricePnl p price - fee) usdc := by
  by_cases hpos : 0 < p.collateral + pricePnl p price - fee
  · have hcash := collateral_le_balance hi hb hp
    have hafford : p.collateral + pricePnl p price - fee ≤ w.usdcBalance N.vault := by omega
    obtain ⟨usdc, ht⟩ := hT _ _ _ _ hpos.le hafford (hf.payee hpos)
    exact ⟨usdc, fun _ => ht, fun hle => absurd hpos (not_lt.mpr hle)⟩
  · exact ⟨w.usdc, fun h => absurd h hpos, fun _ => rfl⟩

/-- Nothing but `i128` overflow keeps a losing position of a backed vault open. -/
theorem losing_position_unwinds (hT : N.token.Pays) (hr : Reachable w) (hb : Backed w)
    (hp : w.positionManager.position.lookup (trader, id) = some p)
    (hprice : FreshPrice w p.asset price) (hloss : pricePnl p price ≤ 0) :
    (CloseInRange w p price → ∀ env : Env, env.Authorized trader →
      ∃ net w', (closePosition env trader id p.asset).run w = .ok (net, w')) ∧
    (LiquidationInRange w p price → marginRatio p price < w.engine.maintenanceMarginRate →
      ∀ (env : Env) keeper, env.Authorized keeper →
        ∃ w', (liquidate env keeper trader id p.asset).run w = .ok ((), w')) := by
  have hi := reachableVia_invariant hr
  have htrader : p.trader = trader := (hi.register _ _ hp).trader
  have hfee : 0 ≤ closeFee w p := feeFor_nonneg (hi.books.sizes _ _ hp).le _
  constructor
  · intro hf env ha
    obtain ⟨usdc, hpaid⟩ := payout_of_loss hT hi hb hp hloss hfee hf.settlement
    rw [htrader] at hpaid
    exact closePosition_returns ha hp htrader
      (settleGuards_of_loss hi hp hprice hloss hfee hf.settlement) hf.fee hf.net hpaid
  · intro hf hlow env keeper ha
    obtain ⟨usdc, hpaid⟩ := payout_of_loss hT hi hb hp hloss (le_refl 0) hf.settlement
    rw [htrader] at hpaid
    have hpnl := pnlFits_of_inRange hi hp hf.settlement
    have hsize : p.size ≠ 0 := (hi.books.sizes _ _ hp).ne'
    exact liquidate_returns ha hi.wired.engineManager hi.wired.engineOracle hi.wired.managerEngine
      hp ⟨hsize, hpnl, hf.margin, hf.ratio⟩ hlow
      (settleGuards_of_loss hi hp hprice hloss (le_refl 0) hf.settlement) hf.shares hpaid

theorem fallenLong_settlementInRange {fee : ℤ} (hfee : fee = 0 ∨ fee = 10000000) :
    SettlementInRange fallenLong storedLong 9200000000 fee := by
  rcases hfee with rfl | rfl
  · constructor
    · decide +kernel
    · decide +kernel
    · decide +kernel
    · constructor <;> decide +kernel
    · decide +kernel
    · decide +kernel
  · constructor
    · decide +kernel
    · decide +kernel
    · decide +kernel
    · constructor <;> decide +kernel
    · decide +kernel
    · decide +kernel

theorem fallenLong_unwinds :
    (∃ net w', (closePosition ⟨none, [⟨12⟩]⟩ ⟨12⟩ 1 0).run fallenLong = .ok (net, w')) ∧
    ∃ w', (liquidate ⟨none, [⟨13⟩]⟩ ⟨13⟩ ⟨12⟩ 1 0).run fallenLong = .ok ((), w') := by
  have hbacked : Backed fallenLong := by
    unfold Backed
    decide +kernel
  obtain ⟨hclose, hliquidate⟩ := losing_position_unwinds ledgerToken_pays fallenLong_reachable
    hbacked fallenLong_stored fallenLong_fresh (by decide +kernel)
  constructor
  · apply hclose _ _ (.inr (by simp))
    exact ⟨fallenLong_settlementInRange (.inr (by decide +kernel)), by decide +kernel,
      by decide +kernel⟩
  · apply hliquidate _ (by decide +kernel) _ _ (.inr (by simp))
    exact ⟨fallenLong_settlementInRange (.inl rfl), by decide +kernel, by decide +kernel,
      by decide +kernel⟩

end Unwinding

end PerpsUnwinding
