import SoroPerps.PerpsSystemInvariant

/-! # Prices and their history

The price a settlement uses is the one the admin posted last for the position's own asset, and it
is fresh. The journal of a run lists the postings. -/
namespace PerpsPriceHistory

open SorobanHost PerpsTypes PerpsOracleAdapter PerpsPositionManager PerpsLiquidationEngine
open PerpsSystem FinmapSums PerpsSystemInvariant

variable {N : Network}

structure Posting where
  asset : ℕ
  posted : CachedPrice
  deriving DecidableEq, Repr

/-- The price a step posts, with the time of the posting. A failed call posts none. -/
def priceSet (w : World N) : Action N → Option Posting
  | .invoke caller (.oracle (.setPrice admin asset price)) =>
    match (setPrice caller.env admin asset price : Contract N Unit).run w with
    | .ok _ => some ⟨asset, price, w.timestamp⟩
    | .error _ => none
  | _ => none

def postingFor (asset : ℕ) : Option Posting → Option CachedPrice
  | some posting => if posting.asset = asset then some posting.posted else none
  | none => none

/-- The last price posted for an asset, whatever was posted for others since. -/
def lastPosted (asset : ℕ) (history : List (Option Posting)) : Option CachedPrice :=
  (history.filterMap (postingFor asset)).getLast?

def latestSetPrice (w₀ : World N) (as : List (Action N)) (asset : ℕ) : Option CachedPrice :=
  lastPosted asset (ActionRuns.journal step priceSet w₀ as)

/-- Every price on record is the last one posted for its asset, and not from the future. -/
def OnRecord (w : World N) (history : List (Option Posting)) : Prop :=
  ∀ asset c, w.oracle.price.lookup asset = some c →
    lastPosted asset history = some c ∧ c.timestamp ≤ w.timestamp

section History

variable {w w' w₀ : World N} {a : Action N} {as : List (Action N)} {asset : ℕ}
  {history : List (Option Posting)}

theorem lastPosted_none : lastPosted asset (history ++ [none]) = lastPosted asset history := by
  simp [lastPosted, postingFor]

theorem lastPosted_same {c : CachedPrice} :
    lastPosted asset (history ++ [some ⟨asset, c⟩]) = some c := by
  simp [lastPosted, postingFor]

theorem lastPosted_other {other : ℕ} {c : CachedPrice} (hne : other ≠ asset) :
    lastPosted asset (history ++ [some ⟨other, c⟩]) = lastPosted asset history := by
  simp [lastPosted, postingFor, hne]

theorem onRecord_none (h : OnRecord w history) (htime : w.timestamp ≤ w'.timestamp)
    (hkeep : ∀ asset c, w'.oracle.price.lookup asset = some c →
      w.oracle.price.lookup asset = some c) : OnRecord w' (history ++ [none]) := by
  intro asset c hc
  obtain ⟨hlast, hle⟩ := h asset c (hkeep asset c hc)
  rw [lastPosted_none]
  exact ⟨hlast, hle.trans htime⟩

theorem onRecord_setPrice {price : ℤ} (h : OnRecord w history)
    (htime : w'.timestamp = w.timestamp)
    (hset : w'.oracle.price = w.oracle.price.insert asset ⟨price, w.timestamp⟩) :
    OnRecord w' (history ++ [some ⟨asset, price, w.timestamp⟩]) := by
  intro asset' c hc
  by_cases hne : asset = asset'
  · subst hne
    rw [hset, Finmap.lookup_insert] at hc
    obtain rfl := Option.some.inj hc
    exact ⟨lastPosted_same, htime.ge⟩
  · rw [hset, Finmap.lookup_insert_of_ne _ (Ne.symm hne)] at hc
    rw [lastPosted_other hne, htime]
    exact h asset' c hc

theorem step_prices (w : World N) (caller : Caller N) {call : PerpsSystem.Call}
    (hcall : ∀ admin asset price, call ≠ .oracle (.setPrice admin asset price)) :
    (step w (.invoke caller call)).timestamp = w.timestamp ∧
      (step w (.invoke caller call)).oracle.price = w.oracle.price := by
  rcases invoke_cases w caller call with hsame | ⟨u, w', hrun, hstep⟩
  · rw [hsame]
    exact ⟨rfl, rfl⟩
  · rw [hstep]
    have hframe := dispatch_frame hrun
    rcases hframe.prices with hprice | ⟨admin, asset, price, hset⟩
    · exact ⟨hframe.clock, hprice⟩
    · exact absurd hset (hcall admin asset price)

theorem step_onRecord (h : OnRecord w history) :
    OnRecord (step w a) (history ++ [priceSet w a]) := by
  cases a with
  | invoke caller call =>
    by_cases hset : ∃ admin asset price, call = .oracle (.setPrice admin asset price)
    · obtain ⟨admin, asset, price, rfl⟩ := hset
      cases hrun : (setPrice caller.env admin asset price : Contract N Unit).run w with
      | error f =>
        simp only [priceSet, step, dispatch, PerpsOracleAdapter.invoke, hrun]
        exact onRecord_none h (le_refl _) fun asset c hc => hc
      | ok result =>
        simp only [priceSet, step, dispatch, PerpsOracleAdapter.invoke, hrun]
        obtain ⟨-, -, hw⟩ := setPrice_ok.mp hrun
        rw [← hw]
        exact onRecord_setPrice h rfl rfl
    · have hcall : ∀ admin asset price, call ≠ .oracle (.setPrice admin asset price) := by
        rintro admin asset price rfl
        exact hset ⟨admin, asset, price, rfl⟩
      have hnone : priceSet w (.invoke caller call) = none := by
        unfold priceSet
        split
        · next heq =>
          cases heq
          exact absurd rfl (hcall _ _ _)
        · rfl
      rw [hnone]
      obtain ⟨htime, hprice⟩ := step_prices w caller hcall
      apply onRecord_none h htime.ge
      intro asset c hc
      rwa [hprice] at hc
  | advance seconds => exact onRecord_none h (Nat.le_add_right _ _) fun asset c hc => hc
  | expirePrice asset => exact onRecord_none h (le_refl _) fun asset c hc => lookup_of_erase hc

theorem run_onRecord (hd : Deployed w₀) (as : List (Action N)) :
    OnRecord (ActionRuns.runActions step w₀ as) (ActionRuns.journal step priceSet w₀ as) := by
  have hstart : OnRecord w₀ [] := by
    intro asset c hc
    simp [(deployed_fresh hd).2.2.1] at hc
  have hrun : ActionRuns.Along step (fun _ _ => True) w₀ as :=
    ActionRuns.along_of_forall fun _ _ _ => trivial
  have hend := ActionRuns.history_run (fun _ _ _ h _ => step_onRecord h) hrun hstart
  rwa [List.nil_append] at hend

end History

section Settlements

variable {w₀ w : World N} {as : List (Action N)}

/-- The price is the argument of the latest successful `set_price` for the asset, posted no
longer ago than the staleness threshold in force. -/
def LatestFresh (w₀ : World N) (as : List (Action N)) (asset : ℕ) (price : ℤ) : Prop :=
  ∃ c, latestSetPrice w₀ as asset = some c ∧ c.price = price ∧
    c.timestamp ≤ (ActionRuns.runActions step w₀ as).timestamp ∧
    (ActionRuns.runActions step w₀ as).timestamp - c.timestamp ≤
      (ActionRuns.runActions step w₀ as).oracle.stalenessThreshold

theorem latestFresh_of_fresh {asset : ℕ} {price : ℤ}
    (hrec : OnRecord (ActionRuns.runActions step w₀ as) (ActionRuns.journal step priceSet w₀ as))
    (h : FreshPrice (ActionRuns.runActions step w₀ as) asset price) :
    LatestFresh w₀ as asset price := by
  obtain ⟨c, hc, hprice, hle, hage⟩ := h
  exact ⟨c, (hrec asset c hc).1, hprice, hle, hage⟩

/-- What every call that settles at the end of a run uses as its price. -/
structure SettlesAtLatestPrice (w₀ : World N) (as : List (Action N)) (w : World N) : Prop where
  opening : ∀ env trader asset direction collateral leverage id w',
    (openPosition env trader asset direction collateral leverage : Contract N ℕ).run w =
      .ok (id, w') →
    ∃ p, w'.positionManager.position.lookup (trader, id) = some p ∧ p.asset = asset ∧
      LatestFresh w₀ as asset p.entryPrice
  closing : ∀ env trader id asset net w',
    (closePosition env trader id asset : Contract N ℤ).run w = .ok (net, w') →
    ∃ p price, w.positionManager.position.lookup (trader, id) = some p ∧ p.asset = asset ∧
      LatestFresh w₀ as p.asset price ∧ net = pricePnl p price - closeFee w p ∧
      .pnlSettled trader (pricePnl p price) ∈ w'.events ∧
      .positionClosed trader id price net (closeFee w p) ∈ w'.events
  liquidation : ∀ env keeper trader id asset w',
    (liquidate env keeper trader id asset : Contract N Unit).run w = .ok ((), w') →
    ∃ p price, w.positionManager.position.lookup (trader, id) = some p ∧ p.asset = asset ∧
      LatestFresh w₀ as p.asset price ∧ marginRatio p price < w.engine.maintenanceMarginRate ∧
      .pnlSettled trader (pricePnl p price) ∈ w'.events
  noUnderflow : ∀ asset, (getPrice asset : Contract N CachedPrice).run w ≠
    .error (.host .arithmetic)

theorem settlements_use_latest_price (hd : Deployed w₀) (as : List (Action N)) :
    SettlesAtLatestPrice w₀ as (ActionRuns.runActions step w₀ as) := by
  have hrec := run_onRecord hd as
  constructor
  · intro env trader asset direction collateral leverage id w' h
    obtain ⟨rfl, entryPrice, usdc, hg, -, rfl⟩ := openPosition_ok.mp h
    exact ⟨_, Finmap.lookup_insert _, rfl, latestFresh_of_fresh hrec hg.fresh⟩
  · intro env trader id asset net w' h
    obtain ⟨-, p, price, usdc, hp, -, rfl, hg, -, -, hnet, -, rfl⟩ := closePosition_ok.mp h
    exact ⟨p, price, hp, rfl, latestFresh_of_fresh hrec hg.fresh, hnet, by simp, by simp⟩
  · intro env keeper trader id asset w' h
    obtain ⟨-, p, price, usdc, hp, rfl, -, hlow, hg, -, rfl⟩ := liquidate_ok h
    exact ⟨p, price, hp, rfl, latestFresh_of_fresh hrec hg.fresh, hlow, by simp⟩
  · intro asset h
    simp [getPrice] at h
    obtain ⟨c, hc, hlt⟩ := h
    have hle := (hrec asset c hc).2
    omega

/-- Another asset's price moves between the opening and the close. -/
theorem settlements_with_two_assets :
    let as := [postPrice 0 10000000000, provide 1000000000000, openLong 0 1000000000 10,
      postPrice 1 5000000000, postPrice 0 9900000000, postPrice 1 10000000]
    SettlesAtLatestPrice harnessStart as (ActionRuns.runActions step harnessStart as) := by
  intro as
  exact settlements_use_latest_price deployed_harness as

end Settlements

end PerpsPriceHistory
