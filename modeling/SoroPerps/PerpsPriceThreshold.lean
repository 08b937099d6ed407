import SoroPerps.PerpsLiquidationView
import SoroPerps.PerpsUnwinding

/-! # Liquidatability is a one-sided threshold

Profit and margin ratio are two truncated quotients, one inside the other. Both follow the price,
across zero as well, so a keeper who scans by price meets one threshold. -/
namespace PerpsPriceThreshold

open SorobanHost PerpsTypes PerpsVault PerpsOracleAdapter PerpsPositionManager
open PerpsLiquidationEngine PerpsSystem PerpsLiquidationView

variable {N : Network}

/-- The first price is no better than the second for a position of this direction. -/
def NoBetter (direction : Direction) (price price' : ℤ) : Prop :=
  match direction with
  | .Long => price ≤ price'
  | .Short => price' ≤ price

section Monotonicity

variable {d : Direction} {p : Position} {entryPrice price price' : ℤ}

theorem favourableMove_mono (h : NoBetter d price price') :
    favourableMove d entryPrice price ≤ favourableMove d entryPrice price' := by
  cases d with
  | Long =>
    simp only [NoBetter] at h
    simp only [favourableMove]
    omega
  | Short =>
    simp only [NoBetter] at h
    simp only [favourableMove]
    omega

theorem rawPnl_mono (hsize : 0 ≤ p.size) (hentry : 0 < p.entryPrice)
    (h : NoBetter p.direction price price') : rawPnl p price ≤ rawPnl p price' := by
  apply Int.tdiv_le_tdiv hentry
  exact mul_le_mul_of_nonneg_left (favourableMove_mono h) hsize

theorem marginRatio_mono (hsize : 0 < p.size) (hentry : 0 < p.entryPrice)
    (h : NoBetter p.direction price price') : marginRatio p price ≤ marginRatio p price' := by
  have hpnl : rawPnl p price ≤ rawPnl p price' := rawPnl_mono hsize.le hentry h
  apply Int.tdiv_le_tdiv hsize
  omega

end Monotonicity

section Threshold

def atPrice (w : World N) (asset : ℕ) (price : ℤ) : World N :=
  { w with oracle.price := w.oracle.price.insert asset ⟨price, w.timestamp⟩ }

variable {w w' : World N} {trader : Address} {id asset : ℕ} {p : Position} {price price' : ℤ}

theorem fresh_atPrice : FreshPrice (atPrice w asset price) asset price := by
  refine ⟨⟨price, w.timestamp⟩, ?_, rfl, le_refl _, ?_⟩
  · simp [atPrice]
  · simp [atPrice]

theorem Wired.atPrice (hw : Wired w) : Wired (atPrice w asset price) := { hw with }

theorem isLiquidatable_atPrice (hw : Wired w)
    (hp : w.positionManager.position.lookup (trader, id) = some p) (hf : MarginFits p price) :
    (isLiquidatable trader id asset : Contract N Bool).run (atPrice w asset price) =
      .ok (decide (marginRatio p price < w.engine.maintenanceMarginRate),
        atPrice w asset price) :=
  isLiquidatable_ok.mpr ⟨_, getMarginRatio_answers (Wired.atPrice hw) hp fresh_atPrice hf, rfl⟩

theorem marginRatio_atPrice {ratio : ℤ}
    (hp : w.positionManager.position.lookup (trader, id) = some p)
    (h : (getMarginRatio trader id asset : Contract N ℤ).run (atPrice w asset price) =
      .ok (ratio, w')) : marginRatio p price = ratio := by
  obtain ⟨-, q, price', hq, -, hprice, -, hratio, -⟩ := getMarginRatio_ok.mp h
  obtain rfl : p = q := Option.mem_unique hp hq
  obtain rfl := fresh_atPrice.unique hprice
  exact hratio

theorem below_atPrice {b : Bool}
    (hp : w.positionManager.position.lookup (trader, id) = some p)
    (h : (isLiquidatable trader id asset : Contract N Bool).run (atPrice w asset price) =
      .ok (b, w')) : decide (marginRatio p price < w.engine.maintenanceMarginRate) = b := by
  obtain ⟨ratio, hratio, hb⟩ := isLiquidatable_ok.mp h
  rw [marginRatio_atPrice hp hratio]
  exact hb

/-- Profit and ratio follow the price, and so do the view and the engine's refusal of the order:
what is liquidatable stays so at every price that is no better, what is not stays so at every
price that is no worse. -/
structure OneSidedThreshold (w : World N) (trader : Address) (id asset : ℕ) (p : Position) :
    Prop where
  pnl : ∀ price price' pnl pnl' w₁ w₂, NoBetter p.direction price price' →
    (calculatePnl p.direction p.size p.entryPrice price : Contract N ℤ).run w = .ok (pnl, w₁) →
    (calculatePnl p.direction p.size p.entryPrice price' : Contract N ℤ).run w = .ok (pnl', w₂) →
      pnl ≤ pnl'
  ratio : ∀ price price' ratio ratio' w₁ w₂, NoBetter p.direction price price' →
    (getMarginRatio trader id asset).run (atPrice w asset price) = .ok (ratio, w₁) →
    (getMarginRatio trader id asset).run (atPrice w asset price') = .ok (ratio', w₂) →
      ratio ≤ ratio'
  liquidatable : ∀ price price' w₂, NoBetter p.direction price price' → MarginFits p price →
    (isLiquidatable trader id asset).run (atPrice w asset price') = .ok (true, w₂) →
      (isLiquidatable trader id asset).run (atPrice w asset price) =
        .ok (true, atPrice w asset price)
  healthy : ∀ price price' w₁, NoBetter p.direction price price' → MarginFits p price' →
    (isLiquidatable trader id asset).run (atPrice w asset price) = .ok (false, w₁) →
      (isLiquidatable trader id asset).run (atPrice w asset price') =
        .ok (false, atPrice w asset price')
  refused : ∀ (env : Env) keeper price price', NoBetter p.direction price price' →
    MarginFits p price' → env.Authorized keeper →
    (w.engine.maintenanceMarginRate : ℤ) ≤ marginRatio p price →
      (liquidate env keeper trader id asset).run (atPrice w asset price') =
        .error (.contract .NotLiquidatable)

theorem one_sided_threshold (hw : Wired w)
    (hp : w.positionManager.position.lookup (trader, id) = some p) (hsize : 0 < p.size)
    (hentry : 0 < p.entryPrice) : OneSidedThreshold w trader id asset p := by
  constructor
  · intro price price' pnl pnl' w₁ w₂ hle h h'
    obtain ⟨-, rfl, -⟩ := calculatePnl_ok.mp h
    obtain ⟨-, rfl, -⟩ := calculatePnl_ok.mp h'
    exact rawPnl_mono hsize.le hentry hle
  · intro price price' ratio ratio' w₁ w₂ hle h h'
    rw [← marginRatio_atPrice hp h, ← marginRatio_atPrice hp h']
    exact marginRatio_mono hsize hentry hle
  · intro price price' w₂ hle hf h
    have hmono := marginRatio_mono hsize hentry hle
    have hlow := of_decide_eq_true (below_atPrice hp h)
    rw [isLiquidatable_atPrice hw hp hf, decide_eq_true (by omega)]
  · intro price price' w₁ hle hf h
    have hmono := marginRatio_mono hsize hentry hle
    have hhigh := of_decide_eq_false (below_atPrice hp h)
    rw [isLiquidatable_atPrice hw hp hf, decide_eq_false (by omega)]
  · intro env keeper price price' hle hf ha hhigh
    have hmono := marginRatio_mono hsize hentry hle
    have hw' : Wired (atPrice w asset price') := Wired.atPrice hw
    exact liquidate_healthy ha hw'.engineManager hw'.engineOracle hp hw'.managerOracle
      fresh_atPrice hf (hhigh.trans hmono)

theorem one_sided_threshold_fallenLong :
    OneSidedThreshold PerpsUnwinding.fallenLong ⟨12⟩ 1 0 PerpsUnwinding.storedLong :=
  one_sided_threshold
    (PerpsSystemInvariant.reachableVia_invariant PerpsUnwinding.fallenLong_reachable).wired
    PerpsUnwinding.fallenLong_stored (by decide) (by decide)

end Threshold

end PerpsPriceThreshold
