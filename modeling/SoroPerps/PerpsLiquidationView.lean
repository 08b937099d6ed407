import SoroPerps.PerpsSystemInvariant

/-! # Keeper check and execution

A keeper asks the view whether a position can be liquidated and then sends the order. Both
compute the margin ratio from the asset the caller names; only the order compares that asset with
the position's own. -/
namespace PerpsLiquidationView

open SorobanHost PerpsTypes PerpsVault PerpsOracleAdapter PerpsPositionManager
open PerpsLiquidationEngine PerpsSystem PerpsSystemInvariant

variable {N : Network} {w : World N} {env : Env} {keeper trader : Address} {id asset : ℕ}
  {p : Position} {price : ℤ}

def Refuses (w : World N) (env : Env) (keeper trader : Address) (id asset : ℕ) : Prop :=
  (liquidate env keeper trader id asset : Contract N Unit).run w =
      .error (.contract .NotLiquidatable) ∨
    (liquidate env keeper trader id asset : Contract N Unit).run w =
      .error (.contract .AssetMismatch)

structure Unanswered (w : World N) (trader : Address) (id asset : ℕ) : Prop where
  pnl : ∀ result, (getUnrealizedPnl trader id asset : Contract N ℤ).run w ≠ .ok result
  margin : ∀ result, (getMarginRatio trader id asset : Contract N ℤ).run w ≠ .ok result
  liquidatable : ∀ result, (isLiquidatable trader id asset : Contract N Bool).run w ≠ .ok result

/-- The view tells the keeper what the order will do, and no view answers from the price of an
asset other than the position's own. -/
structure ViewAgrees (w : World N) (env : Env) (keeper trader : Address) (id asset : ℕ) :
    Prop where
  execution : (isLiquidatable trader id asset : Contract N Bool).run w = .ok (true, w) ↔
    ¬ Refuses w env keeper trader id asset
  ownPrice : ∀ p, w.positionManager.position.lookup (trader, id) = some p → p.asset ≠ asset →
    Unanswered w trader id asset

theorem isLiquidatable_ok {b : Bool} {w' : World N} :
    (isLiquidatable trader id asset : Contract N Bool).run w = .ok (b, w') ↔
      ∃ ratio, (getMarginRatio trader id asset : Contract N ℤ).run w = .ok (ratio, w') ∧
        decide (ratio < w.engine.maintenanceMarginRate) = b := by
  simp only [isLiquidatable, StateT.run_bind, StateT.run_get, pure_bind, except_bind_ok,
    StateT.run_pure, except_pure_ok, Prod.exists, Prod.mk.injEq]
  constructor
  · rintro ⟨ratio, w₁, hratio, hb, rfl⟩
    exact ⟨ratio, hratio, hb⟩
  · rintro ⟨ratio, hratio, hb⟩
    exact ⟨ratio, w', hratio, hb, rfl⟩

/-- The order gets as far as paying the trader out, and the token refuses that under the number of
one of the two refusals. -/
structure PayoutMistaken (w : World N) (trader : Address) (p : Position) (price : ℤ) : Prop where
  guards : PayoutGuards w p price 0
  refused : PayoutRefused N w.usdc trader (p.collateral + pricePnl p price) .NotLiquidatable ∨
    PayoutRefused N w.usdc trader (p.collateral + pricePnl p price) .AssetMismatch

/-- The position manager, given the position's own asset, ends with one of these two numbers only
where the token does. -/
theorem mistaken_of_order (hw : Wired w) {e : PerpsError}
    (he : e = .NotLiquidatable ∨ e = .AssetMismatch)
    (hp : w.positionManager.position.lookup (trader, id) = some p)
    (hprice : FreshPrice w p.asset price)
    (horder : (liquidatePosition (env.callFrom N.engine) N.engine trader id p.asset).run w =
      .error (.contract e)) : PayoutMistaken w trader p price := by
  rcases liquidatePosition_error hw.vaultManager hw.managerEngine horder with
    ⟨-, rfl⟩ | ⟨q, hq, ⟨hasset, -⟩ | rfl | ⟨price', -, hrefused⟩⟩
  · simp at he
  · obtain rfl : p = q := Option.mem_unique hp hq
    exact absurd rfl hasset
  · simp at he
  · obtain rfl : p = q := Option.mem_unique hp hq
    rcases hrefused with ⟨rfl, -⟩ | ⟨rfl, -⟩ | ⟨hg, hrefused⟩
    · simp at he
    · simp at he
    · obtain rfl := hprice.unique hg.fresh
      rw [Int.sub_zero] at hrefused
      rcases he with rfl | rfl
      · exact ⟨hg, .inl hrefused⟩
      · exact ⟨hg, .inr hrefused⟩

/-- A refusal shows the position stored and its margin computed; which of the two it is tells
what the order objected to, unless the token said it. -/
theorem refuses_cases (hw : Wired w) (h : Refuses w env keeper trader id asset) :
    ∃ p price, w.positionManager.position.lookup (trader, id) = some p ∧
      FreshPrice w asset price ∧ MarginFits p price ∧
      (w.engine.maintenanceMarginRate ≤ marginRatio p price ∨ p.asset ≠ asset ∨
        PayoutMistaken w trader p price) := by
  have hcases : ∃ e, (e = .NotLiquidatable ∨ e = .AssetMismatch) ∧
      (liquidate env keeper trader id asset : Contract N Unit).run w =
        .error (.contract e) := by
    rcases h with h | h
    · exact ⟨_, .inl rfl, h⟩
    · exact ⟨_, .inr rfl, h⟩
  obtain ⟨e, he, herr⟩ := hcases
  rcases liquidate_error herr with ⟨-, rfl⟩ | rfl | ⟨p, price, hp, hprice, hf, h⟩
  · simp at he
  · simp at he
  · refine ⟨p, price, hp, hprice, hf, ?_⟩
    rcases h with ⟨hle, -⟩ | ⟨-, horder⟩
    · exact .inl hle
    · by_cases hasset : p.asset = asset
      · subst hasset
        exact .inr (.inr (mistaken_of_order hw he hp hprice horder))
      · exact .inr (.inl hasset)

theorem isLiquidatable_true {w' : World N}
    (h : (isLiquidatable trader id asset : Contract N Bool).run w = .ok (true, w')) :
    ∃ p price, w.positionManager.position.lookup (trader, id) = some p ∧
      FreshPrice w asset price ∧ MarginFits p price ∧
      marginRatio p price < w.engine.maintenanceMarginRate := by
  obtain ⟨ratio, hratio, hlow⟩ := isLiquidatable_ok.mp h
  obtain ⟨-, p, price, hp, -, hprice, hf, rfl, -⟩ := getMarginRatio_ok.mp hratio
  exact ⟨p, price, hp, hprice, hf, of_decide_eq_true hlow⟩

theorem getMarginRatio_answers (hw : Wired w)
    (hp : w.positionManager.position.lookup (trader, id) = some p)
    (hprice : FreshPrice w asset price) (hf : MarginFits p price) :
    (getMarginRatio trader id asset : Contract N ℤ).run w = .ok (marginRatio p price, w) :=
  getMarginRatio_ok.mpr
    ⟨hw.engineManager, p, price, hp, hw.managerOracle, hprice, hf, rfl, rfl⟩

theorem execution_agrees (hw : Wired w) (ha : env.Authorized keeper)
    (hp : w.positionManager.position.lookup (trader, id) = some p)
    (hprice : FreshPrice w p.asset price) (hf : MarginFits p price)
    (hpays : marginRatio p price < w.engine.maintenanceMarginRate →
      ¬ PayoutMistaken w trader p price) :
    (isLiquidatable trader id p.asset : Contract N Bool).run w = .ok (true, w) ↔
      ¬ Refuses w env keeper trader id p.asset := by
  constructor
  · intro hview hrefuses
    obtain ⟨q, price', hq, hprice', -, hlow⟩ := isLiquidatable_true hview
    obtain ⟨r, price'', hr, hprice'', -, hreason⟩ := refuses_cases hw hrefuses
    obtain rfl : p = q := Option.mem_unique hp hq
    obtain rfl : p = r := Option.mem_unique hp hr
    obtain rfl := hprice.unique hprice'
    obtain rfl := hprice.unique hprice''
    rcases hreason with hle | hasset | hmistaken
    · omega
    · exact hasset rfl
    · exact hpays hlow hmistaken
  · intro hnot
    have hlow : marginRatio p price < w.engine.maintenanceMarginRate := by
      by_contra hle
      apply hnot
      left
      exact liquidate_healthy ha hw.engineManager hw.engineOracle hp hw.managerOracle hprice hf
        (not_lt.mp hle)
    have hratio := getMarginRatio_answers hw hp hprice hf
    exact isLiquidatable_ok.mpr ⟨_, hratio, decide_eq_true hlow⟩

theorem liquidate_relays (hw : Wired w) (ha : env.Authorized keeper) {e : PerpsError}
    (hp : w.positionManager.position.lookup (trader, id) = some p)
    (hprice : FreshPrice w asset price) (hf : MarginFits p price)
    (hlow : marginRatio p price < w.engine.maintenanceMarginRate)
    (horder : (liquidatePosition (env.callFrom N.engine) N.engine trader id asset).run w =
      .error (.contract e)) :
    (liquidate env keeper trader id asset : Contract N Unit).run w = .error (.contract e) := by
  simp [liquidate, ha, hw.engineManager, hw.engineOracle, hp, hw.managerOracle]
  refine .inr (.inr ⟨⟨price, hprice⟩, .inr ⟨price, ⟨hprice, hf.pnl⟩, hf.margin, hf.ratio.1,
    ⟨hf.size, hf.ratio.2⟩, .inr ⟨hlow, horder⟩⟩⟩)

theorem liquidate_wrongAsset (hw : Wired w) (ha : env.Authorized keeper)
    (hp : w.positionManager.position.lookup (trader, id) = some p) (hasset : p.asset ≠ asset)
    (hprice : FreshPrice w asset price) (hf : MarginFits p price)
    (hlow : marginRatio p price < w.engine.maintenanceMarginRate) :
    (liquidate env keeper trader id asset : Contract N Unit).run w =
      .error (.contract .AssetMismatch) := by
  have hself : (env.callFrom N.engine).Authorized N.engine := by simp
  have horder := liquidatePosition_wrongAsset hself hw.managerEngine hp hasset
  exact liquidate_relays hw ha hp hprice hf hlow horder

theorem refuses_of_mistaken (hw : Wired w) (ha : env.Authorized keeper)
    (hp : w.positionManager.position.lookup (trader, id) = some p)
    (hprice : FreshPrice w p.asset price) (hf : MarginFits p price)
    (hlow : marginRatio p price < w.engine.maintenanceMarginRate)
    (h : PayoutMistaken w trader p price) : Refuses w env keeper trader id p.asset := by
  have hself : (env.callFrom N.engine).Authorized N.engine := by simp
  have hrelays : ∀ e, PayoutRefused N w.usdc trader (p.collateral + pricePnl p price) e →
      (liquidate env keeper trader id p.asset : Contract N Unit).run w = .error (.contract e) := by
    intro e hrefused
    rw [← Int.sub_zero (p.collateral + pricePnl p price)] at hrefused
    have horder := liquidatePosition_unpaid hself hw.managerEngine hp h.guards hrefused
    exact liquidate_relays hw ha hp hprice hf hlow horder
  exact h.refused.imp (hrelays _) (hrelays _)

/-- The view agrees with execution exactly for stored positions, asked with their own asset, whose
margin fits the machine integers and whose payout, if it comes to that, the token does not refuse
under the number of one of the two refusals. -/
theorem view_agrees_iff (h : Reachable w) (ha : env.Authorized keeper)
    (hprice : FreshPrice w asset price) : ViewAgrees w env keeper trader id asset ↔
      ∃ p, w.positionManager.position.lookup (trader, id) = some p ∧ p.asset = asset ∧
        MarginFits p price ∧ (marginRatio p price < w.engine.maintenanceMarginRate →
          ¬ PayoutMistaken w trader p price) := by
  have hw := (reachableVia_invariant h).wired
  constructor
  · intro hagree
    -- a position that neither answers nor is refused contradicts the agreement
    have hstored : ∃ p, w.positionManager.position.lookup (trader, id) = some p ∧
        MarginFits p price := by
      by_contra hnone
      have hnotRefused : ¬ Refuses w env keeper trader id asset := by
        intro hrefuses
        obtain ⟨p, price', hp, hprice', hf, -⟩ := refuses_cases hw hrefuses
        obtain rfl := hprice.unique hprice'
        exact hnone ⟨p, hp, hf⟩
      have hview := hagree.execution.mpr hnotRefused
      obtain ⟨p, price', hp, hprice', hf, -⟩ := isLiquidatable_true hview
      obtain rfl := hprice.unique hprice'
      exact hnone ⟨p, hp, hf⟩
    obtain ⟨p, hp, hf⟩ := hstored
    have hratio := getMarginRatio_answers hw hp hprice hf
    have hasset : p.asset = asset := by
      by_contra hasset
      have hsilent := hagree.ownPrice p hp hasset
      exact hsilent.margin _ hratio
    subst hasset
    refine ⟨p, hp, rfl, hf, ?_⟩
    intro hlow hmistaken
    have hview := isLiquidatable_ok.mpr ⟨_, hratio, decide_eq_true hlow⟩
    exact hagree.execution.mp hview (refuses_of_mistaken hw ha hp hprice hf hlow hmistaken)
  · rintro ⟨p, hp, rfl, hf, hpays⟩
    constructor
    · exact execution_agrees hw ha hp hprice hf hpays
    · intro q hq hasset
      obtain rfl : p = q := Option.mem_unique hp hq
      exact absurd rfl hasset

/-- The harness scenario of an order with the wrong asset: a long on asset 0, whose price stands
still while asset 1 crashes. -/
def otherAssetCrashed : World harness :=
  ActionRuns.runActions step harnessStart [provide 1000000000000, postPrice 0 10000000000,
    postPrice 1 500000000000, openLong 0 1000000000 10, postPrice 1 10000000]

theorem otherAssetCrashed_reachable : Reachable otherAssetCrashed :=
  reachable_of_actions deployed_harness (by decide)

def keeperEnv : Env := ⟨none, [⟨13⟩]⟩

theorem keeper_authorized : keeperEnv.Authorized ⟨13⟩ := by decide

theorem view_agrees_iff_ownAsset : ViewAgrees otherAssetCrashed keeperEnv ⟨13⟩ ⟨12⟩ 1 0 ↔
    ∃ p, otherAssetCrashed.positionManager.position.lookup (⟨12⟩, 1) = some p ∧ p.asset = 0 ∧
      MarginFits p 10000000000 ∧
      (marginRatio p 10000000000 < otherAssetCrashed.engine.maintenanceMarginRate →
        ¬ PayoutMistaken otherAssetCrashed ⟨12⟩ p 10000000000) :=
  view_agrees_iff otherAssetCrashed_reachable keeper_authorized
    (freshPrice?_eq_some.mp (by decide +kernel))

/-- The view tells the keeper to liquidate a healthy position, and the order is refused. -/
theorem otherAssetCrashed_disagrees : ¬ ∀ (N : Network) (w : World N) (env : Env)
    (keeper trader : Address) (id asset : ℕ) (price : ℤ), Reachable w →
      env.Authorized keeper → FreshPrice w asset price →
      ViewAgrees w env keeper trader id asset := by
  intro h
  have hprice : FreshPrice otherAssetCrashed 1 10000000 :=
    freshPrice?_eq_some.mp (by decide +kernel)
  have hagree := h harness otherAssetCrashed keeperEnv ⟨13⟩ ⟨12⟩ 1 1 10000000
    otherAssetCrashed_reachable keeper_authorized hprice
  have hview : ((isLiquidatable ⟨12⟩ 1 1).run otherAssetCrashed).toOption.map Prod.fst =
      some true := by
    decide +kernel
  have hasset : (otherAssetCrashed.positionManager.position.lookup (⟨12⟩, 1)).map
      Position.asset = some 0 := by
    decide +kernel
  obtain ⟨⟨b, w'⟩, hview, rfl⟩ := result_of_toOption hview
  obtain ⟨p, price, hp, hprice, hf, hlow⟩ := isLiquidatable_true hview
  have hne : p.asset ≠ 1 := by
    rw [hp, Option.map_some, Option.some.injEq] at hasset
    omega
  have hw := (reachableVia_invariant otherAssetCrashed_reachable).wired
  have hratio := getMarginRatio_answers hw hp hprice hf
  have htrue := isLiquidatable_ok.mpr ⟨_, hratio, decide_eq_true hlow⟩
  apply hagree.execution.mp htrue
  right
  exact liquidate_wrongAsset hw keeper_authorized hp hne hprice hf hlow

/-- A vault left short by a close fee nobody paid, and all but emptied by its provider: the token's
code for an insufficient balance is the contracts' number for a position not liquidatable. -/
def drainedVault : World harness :=
  ActionRuns.runActions step harnessStart [postPrice 0 10000000000, postPrice 1 10000000000,
    provide 1000000000000, byAdmin (.positionManager (.setFeeRates ⟨10⟩ 10 1000)),
    openLong 0 20000000000 10, openLong 1 1000000000 10, postPrice 0 5000000000, close 1 0,
    withdrawShares 981700000000, postPrice 1 9400000000]

example : ((isLiquidatable ⟨12⟩ 2 1).run drainedVault).toOption.map Prod.fst = some true ∧
    ((liquidate keeperEnv ⟨13⟩ ⟨12⟩ 2 1).run drainedVault).map Prod.fst =
      .error (.contract .NotLiquidatable) := by
  decide +kernel

end PerpsLiquidationView
