import SoroPerps.PerpsSolvency
import SoroPerps.PerpsUtilization

/-! # When an opening goes through

Besides the checks an opening states, the fee collection of the vault refuses a fee of zero, which
every fee rate the validators allow can round to. -/
namespace PerpsOpening

open SorobanHost PerpsTypes PerpsVault PerpsOracleAdapter PerpsPositionManager PerpsSystem
open PerpsSystemInvariant PerpsSolvency PerpsUtilization

variable {N : Network} {w : World N} {env : Env} {caller : Caller N} {trader : Address}
  {asset leverage : ℕ} {direction : Direction} {collateral price : ℤ} {p : Position}

theorem openPosition_returns {usdc : N.token.State}
    (hg : OpenGuards env w (openedPosition w trader asset direction collateral leverage price))
    (ht : N.token.transfer w.usdc trader N.vault (collateral + openFee w
      (openedPosition w trader asset direction collateral leverage price)) = .ok usdc) :
    ∃ id w', (openPosition env trader asset direction collateral leverage : Contract N ℕ).run w =
      .ok (id, w') :=
  ⟨_, _, openPosition_ok.mpr ⟨rfl, price, usdc, hg, ht, rfl⟩⟩

structure OpeningInRange (w : World N) (p : Position) : Prop where
  size : InI128 p.size
  fee : InI128 (p.size * w.positionManager.openFeeRate)
  cost : InI128 (p.collateral + openFee w p)
  balance : InI128 (w.usdcBalance N.vault + (p.collateral + openFee w p))
  locked : InI128 (w.vault.lockedLiquidity + p.size)
  utilization : InI128 ((w.vault.lockedLiquidity + p.size) * 10000)
  deposits : InI128 (w.vault.totalDeposits + openFee w p)
  interest : InI128 (openInterest w.positionManager p.direction + p.size)

/-- The trader signed for a position that meets every check an opening states: the collateral and
the leverage are allowed, the price is fresh, the trader can pay, and the vault has room. -/
structure OpeningAdmitted (w : World N) (env : Env) (p : Position) : Prop where
  signed : p.trader ∈ env.signers
  collateral : 0 < p.collateral
  minCollateral : w.positionManager.minCollateral ≤ p.collateral
  leverage : 1 ≤ p.leverage ∧ p.leverage ≤ w.positionManager.maxLeverage
  fresh : FreshPrice w p.asset p.entryPrice
  balance : p.collateral + openFee w p ≤ w.usdcBalance p.trader
  utilization : w.vault.totalDeposits ≠ 0 →
    exactUtilization (w.vault.lockedLiquidity + p.size) w.vault.totalDeposits ≤
      w.vault.maxUtilization
  inRange : OpeningInRange w p

/-- The two `u64` counters an opening increments have not run out. -/
def CountersLeft (w : World N) (trader : Address) : Prop :=
  w.positionManager.nextPositionId + 1 < 2 ^ 64 ∧
    getTraderPositionCount w.positionManager trader + 1 < 2 ^ 64

theorem feeFor_pos_iff {size : ℤ} {bps : ℕ} (hsize : 0 ≤ size) :
    0 < feeFor size bps ↔ 10000 ≤ size * bps := by
  unfold feeFor
  rw [Int.tdiv_eq_ediv_of_nonneg (mul_nonneg hsize (Int.natCast_nonneg _))]
  omega

theorem feeFits_of_product {size : ℤ} {bps : ℕ} (hsize : 0 ≤ size) (h : InI128 (size * bps)) :
    ProportionFits size bps 10000 :=
  proportionFits_of_nonneg (mul_nonneg hsize (Int.natCast_nonneg bps)) (by decide) h

theorem utilization_admitted (hi : SystemInvariant w) (hsize : 0 < p.size)
    (hprod : InI128 ((w.vault.lockedLiquidity + p.size) * 10000))
    (h : w.vault.totalDeposits ≠ 0 →
      exactUtilization (w.vault.lockedLiquidity + p.size) w.vault.totalDeposits ≤
        w.vault.maxUtilization) (hne : w.vault.totalDeposits ≠ 0) :
    ProportionFits (w.vault.lockedLiquidity + p.size) 10000 w.vault.totalDeposits ∧
      asU32 (utilizationQuotient (w.vault.lockedLiquidity + p.size) w.vault.totalDeposits) ≤
        w.vault.maxUtilization := by
  have hlocked : 0 ≤ w.vault.lockedLiquidity + p.size := by
    have := hi.vault.locked
    omega
  have hdeposits : 0 < w.vault.totalDeposits := hi.vault.deposits.lt_of_ne' hne
  constructor
  · exact proportionFits_of_product hlocked hdeposits hprod
  · exact (guard_iff hlocked hdeposits hi.vault.cap).mpr (.inl (h hne))

theorem openGuards_of_admitted (hi : SystemInvariant w)
    (hp : p = openedPosition w trader asset direction collateral leverage price)
    (h : OpeningAdmitted w env p) (hfee : 0 < openFee w p) (hc : CountersLeft w p.trader) :
    OpenGuards env w p := by
  have hsize : 0 < p.size := by
    have hcollateral := h.collateral
    have hleverage := h.leverage.1
    rw [hp] at hcollateral hleverage ⊢
    exact mul_pos hcollateral (Int.natCast_pos.mpr hleverage)
  constructor
  · exact .inr h.signed
  · exact .inr h.signed
  · exact h.minCollateral
  · exact ⟨Nat.one_le_iff_ne_zero.mp h.leverage.1, h.leverage.2⟩
  · exact hi.wired.managerOracle
  · exact hi.wired.managerUsdc
  · exact hi.wired.managerVault
  · exact hi.wired.vaultManager
  · exact h.fresh
  · exact hsize
  · exact hfee
  · exact h.inRange.size
  · exact feeFits_of_product hsize.le h.inRange.fee
  · exact h.inRange.cost
  · exact h.inRange.locked
  · exact utilization_admitted hi hsize h.inRange.utilization h.utilization
  · exact h.inRange.deposits
  · exact hc.1
  · exact h.inRange.interest
  · exact hc.2

/-- An opening that meets every stated check returns exactly when its fee does not round to zero,
while the counters last. -/
theorem opening_returns_iff (hT : N.token.Pays) (hr : Reachable w)
    (h : OpeningAdmitted w caller.env
      (openedPosition w trader asset direction collateral leverage price)) :
    (∃ id w', (openPosition caller.env trader asset direction collateral leverage).run w =
      .ok (id, w')) ↔
      10000 ≤ collateral * leverage * w.positionManager.openFeeRate ∧ CountersLeft w trader := by
  have hi := reachableVia_invariant hr
  have hsize : 0 ≤ collateral * leverage := mul_nonneg h.collateral.le (Int.natCast_nonneg _)
  rw [← feeFor_pos_iff hsize]
  constructor
  · rintro ⟨id, w', hrun⟩
    obtain ⟨-, price', usdc, hg, -⟩ := openPosition_ok.mp hrun
    exact ⟨hg.fee, hg.idFits, hg.countFits⟩
  · rintro ⟨hfee, hc⟩
    have hcost : 0 ≤ collateral + openFee w
        (openedPosition w trader asset direction collateral leverage price) :=
      add_nonneg h.collateral.le (feeFor_nonneg hsize _)
    obtain ⟨usdc, ht⟩ := hT _ _ _ _ hcost h.balance h.inRange.balance
    exact openPosition_returns (openGuards_of_admitted hi rfl h hfee hc) ht

section Harness

def longOf (w : World harness) : Position := openedPosition w ⟨12⟩ 0 .Long 1000000000 10 10000000000

def readyMarket : World harness :=
  ActionRuns.runActions step harnessStart [postPrice 0 10000000000, provide 1000000000000]

/-- The same market after the admin of the position manager set the open fee rate to zero. -/
def feelessMarket : World harness :=
  ActionRuns.runActions step harnessStart [postPrice 0 10000000000, provide 1000000000000,
    byAdmin (.positionManager (.setFeeRates ⟨10⟩ 0 10))]

theorem readyMarket_reachable : Reachable readyMarket :=
  reachable_of_actions deployed_harness (by decide)

theorem feelessMarket_reachable : Reachable feelessMarket :=
  reachable_of_actions deployed_harness (by decide)

theorem readyMarket_admits : OpeningAdmitted readyMarket harnessTrader.env (longOf readyMarket) := by
  constructor
  · decide
  · decide
  · decide +kernel
  · decide +kernel
  · exact freshPrice?_eq_some.mp (by decide +kernel)
  · decide +kernel
  · decide +kernel
  · constructor <;> decide +kernel

theorem feelessMarket_admits :
    OpeningAdmitted feelessMarket harnessTrader.env (longOf feelessMarket) := by
  constructor
  · decide
  · decide
  · decide +kernel
  · decide +kernel
  · exact freshPrice?_eq_some.mp (by decide +kernel)
  · decide +kernel
  · decide +kernel
  · constructor <;> decide +kernel

theorem readyMarket_opens : ∃ id w',
    (openPosition harnessTrader.env ⟨12⟩ 0 .Long 1000000000 10).run readyMarket =
      .ok (id, w') := by
  apply (opening_returns_iff ledgerToken_pays readyMarket_reachable readyMarket_admits).mpr
  constructor
  · decide +kernel
  · unfold CountersLeft
    decide +kernel

/-- With a fee of zero the same order is refused, whatever the trader signs. -/
theorem feelessMarket_refuses : ¬ ∀ N : Network, N.token.Pays → ∀ w : World N, Reachable w →
    ∀ (caller : Caller N) trader asset direction collateral leverage price,
      OpeningAdmitted w caller.env
        (openedPosition w trader asset direction collateral leverage price) →
      ∃ id w', (openPosition caller.env trader asset direction collateral leverage).run w =
        .ok (id, w') := by
  intro hclaim
  obtain ⟨id, w', hrun⟩ := hclaim harness ledgerToken_pays feelessMarket feelessMarket_reachable
    harnessTrader ⟨12⟩ 0 .Long 1000000000 10 10000000000 feelessMarket_admits
  obtain ⟨-, price, usdc, hg, -⟩ := openPosition_ok.mp hrun
  have hfee : openFee feelessMarket (longOf feelessMarket) = 0 := by decide +kernel
  have hpos : 0 < openFee feelessMarket (longOf feelessMarket) := hg.fee
  omega

end Harness

end PerpsOpening
