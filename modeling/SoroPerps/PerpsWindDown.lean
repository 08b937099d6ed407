import SoroPerps.DrawOrder
import SoroPerps.PoolClaims
import SoroPerps.PerpsExit
import SoroPerps.PerpsSettlementOrder

/-! # Winding a market down

Traders close and keepers liquidate, in whatever order. Each settlement draws on the deposits or
puts into them, and which orders let everybody leave depends on nothing else. When all have left,
the providers' money is all there is. -/
namespace PerpsWindDown

open SorobanHost PerpsTypes PerpsVault PerpsOracleAdapter PerpsPositionManager
open PerpsLiquidationEngine PerpsSystem PoolBooks FinmapSums PerpsSystemInvariant PerpsSolvency
open PerpsUnwinding PerpsExit PerpsSettlementOrder DrawOrder

variable {N : Network}

/-- Somebody asks for a position to be closed or liquidated while its asset stands at a price. -/
structure Departure (N : Network) where
  caller : Caller N
  means : Means
  trader : Address
  id : ℕ
  position : Position
  price : ℤ

namespace Departure

def key (d : Departure N) : PositionKey := (d.trader, d.id)

def call (d : Departure N) : PerpsSystem.Call :=
  match d.means with
  | .close => .positionManager (.closePosition d.trader d.id d.position.asset)
  | .liquidate keeper => .engine (.liquidate keeper d.trader d.id d.position.asset)

def pnl (d : Departure N) : ℤ := pricePnl d.position d.price

def fee (w : World N) (d : Departure N) : ℤ :=
  match d.means with
  | .close => closeFee w d.position
  | .liquidate _ => 0

def net (w : World N) (d : Departure N) : ℤ := d.pnl - d.fee w

def settlement (w : World N) (d : Departure N) : Settlement := ⟨d.key, d.position, d.pnl, d.fee w⟩

def payout (w : World N) (d : Departure N) : ℤ := (d.settlement w).payout

/-- A trader closes its own position, a keeper takes one below the maintenance margin. -/
def Allowed (w : World N) (d : Departure N) : Prop :=
  match d.means with
  | .close => d.caller.env.Authorized d.trader
  | .liquidate keeper => d.caller.env.Authorized keeper ∧
    marginRatio d.position d.price < w.engine.maintenanceMarginRate

/-- What is computed before the vault is asked stays in the `i128` range. -/
def InRange (w : World N) (d : Departure N) : Prop :=
  match d.means with
  | .close => ProportionFits d.position.size w.positionManager.closeFeeRate 10000
  | .liquidate _ => MarginFits d.position d.price ∧ (0 < d.position.collateral + d.pnl →
    ProportionFits d.position.collateral w.engine.liquidationPenalty 10000 ∧
      ProportionFits d.position.collateral w.engine.keeperReward 10000)

end Departure

structure Entitled (w : World N) (d : Departure N) : Prop where
  stored : w.positionManager.position.lookup d.key = some d.position
  fresh : FreshPrice w d.position.asset d.price
  allowed : d.Allowed w
  pnlFits : PnlFits d.position d.price
  inRange : d.InRange w

/-- Everybody in the list is entitled to leave, each position is there once, and neither the
counters nor anybody's balance can outgrow an `i128` on the way. -/
structure Ready (w : World N) (ds : List (Departure N)) : Prop where
  entitled : ∀ d ∈ ds, Entitled w d
  once : (ds.map Departure.key).Nodup
  locked : w.vault.lockedLiquidity < 2 ^ 127
  deposits : w.vault.totalDeposits + (ds.map fun d => d.position.collateral + d.fee w).sum < 2 ^ 127
  room : ∀ d ∈ ds, w.usdcBalance d.trader + w.usdcBalance N.vault < 2 ^ 127

def depart (w : World N) (d : Departure N) : World N := step w (.invoke d.caller d.call)

def Returns (w : World N) (d : Departure N) : Prop :=
  ∃ w', (dispatch d.caller.env d.call).run w = .ok ((), w')

def AllReturn (w : World N) (ds : List (Departure N)) : Prop := ActionRuns.Along depart Returns w ds

def closeOut (w : World N) (ds : List (Departure N)) : World N := ActionRuns.runActions depart w ds

section OneDeparts

variable {w w' : World N} {d : Departure N} {ds : List (Departure N)} {p : Position}
  {key : PositionKey}

theorem fee_nonneg (hi : SystemInvariant w) (h : Entitled w d) : 0 ≤ d.fee w := by
  unfold Departure.fee
  split
  · exact feeFor_nonneg (hi.books.sizes _ _ h.stored).le _
  · exact le_refl 0

theorem payout_nonneg (w : World N) (d : Departure N) : 0 ≤ d.payout w :=
  le_max_left 0 _

theorem interest_bounds (hi : SystemInvariant w)
    (hp : w.positionManager.position.lookup key = some p) :
    p.size ≤ openInterest w.positionManager p.direction ∧
      openInterest w.positionManager p.direction ≤ w.vault.lockedLiquidity := by
  have hlong : w.positionManager.openInterestLong =
      sumBy (fun _ p => longSize stake p) w.positionManager.position := hi.books.long
  have hshort : w.positionManager.openInterestShort =
      sumBy (fun _ p => shortSize stake p) w.positionManager.position := hi.books.short
  have hlocked : w.vault.lockedLiquidity =
      w.positionManager.openInterestLong + w.positionManager.openInterestShort := hi.books.locked
  have hnonneg : ∀ k q, w.positionManager.position.lookup k = some q →
      0 ≤ longSize stake q ∧ 0 ≤ shortSize stake q := by
    intro k q hq
    have hsize : 0 < (stake q).size := hi.books.sizes _ _ hq
    unfold longSize shortSize
    split
    · exact ⟨hsize.le, le_refl 0⟩
    · exact ⟨le_refl 0, hsize.le⟩
  have hlong₀ := sumBy_nonneg (f := fun _ p => longSize stake p) fun k q hq => (hnonneg k q hq).1
  have hshort₀ := sumBy_nonneg (f := fun _ p => shortSize stake p)
    fun k q hq => (hnonneg k q hq).2
  cases hdir : p.direction with
  | Long =>
    have hle := le_sumBy (f := fun _ p => longSize stake p) (fun k q hq => (hnonneg k q hq).1) hp
    have hown : longSize stake p = p.size := by simp [longSize, stake, hdir]
    simp only [openInterest]
    omega
  | Short =>
    have hle := le_sumBy (f := fun _ p => shortSize stake p) (fun k q hq => (hnonneg k q hq).2) hp
    have hown : shortSize stake p = p.size := by simp [shortSize, stake, hdir]
    simp only [openInterest]
    omega

theorem Ready.rest (hi : SystemInvariant w) (hr : Ready w (d :: ds)) : Ready w ds where
  entitled := fun e he => hr.entitled e (List.mem_cons_of_mem d he)
  once := (List.nodup_cons.mp hr.once).2
  locked := hr.locked
  deposits := by
    have h := hr.deposits
    have hfirst := hr.entitled d List.mem_cons_self
    have hcoll : 0 < d.position.collateral := hi.books.collaterals _ _ hfirst.stored
    have hfee := fee_nonneg hi hfirst
    rw [List.map_cons, List.sum_cons] at h
    omega
  room := fun e he => hr.room e (List.mem_cons_of_mem d he)

structure Bounded (w : World N) (d : Departure N) : Prop where
  collateral : 0 < d.position.collateral
  fee : 0 ≤ d.fee w
  capped : -d.position.collateral ≤ d.pnl
  grown : w.vault.totalDeposits + d.position.collateral + d.fee w < 2 ^ 127

theorem Ready.bounded (hi : SystemInvariant w) (hr : Ready w (d :: ds)) : Bounded w d := by
  have hfirst := hr.entitled d List.mem_cons_self
  constructor
  · exact hi.books.collaterals _ _ hfirst.stored
  · exact fee_nonneg hi hfirst
  · exact neg_collateral_le_pricePnl _ _
  · have hdeposits := hr.deposits
    have hgrowth : 0 ≤ (ds.map fun d => d.position.collateral + d.fee w).sum := by
      apply List.sum_nonneg
      intro x hx
      obtain ⟨e, he, rfl⟩ := List.mem_map.mp hx
      have hstored := (hr.rest hi).entitled e he
      have hcoll : 0 < e.position.collateral := hi.books.collaterals _ _ hstored.stored
      have hfee := fee_nonneg hi hstored
      omega
    rw [List.map_cons, List.sum_cons] at hdeposits
    omega

theorem Ready.guards (hi : SystemInvariant w) (hr : Ready w (d :: ds))
    (hnet : d.net w ≤ w.vault.totalDeposits) :
    SettleGuards w d.position d.price (d.fee w) := by
  have hfirst := hr.entitled d List.mem_cons_self
  have hp := hfirst.stored
  obtain ⟨hcoll, hfee, hcap, hgrown⟩ := hr.bounded hi
  have hsize : 0 < d.position.size := hi.books.sizes _ _ hp
  have hunlock := hi.size_le_locked hp
  have hinterest := interest_bounds hi hp
  have htd : 0 ≤ w.vault.totalDeposits := hi.books.deposits
  have hlocked := hr.locked
  simp only [Departure.net, Departure.pnl] at hcap hnet
  refine ⟨?_, ?_⟩
  · constructor
    · exact hi.wired.managerOracle
    · exact hi.wired.managerVault
    · exact hi.wired.vaultManager
    · exact hfirst.fresh
    · exact hfirst.pnlFits
    · unfold InI128
      omega
    · constructor <;> unfold InI128 <;> omega
    · exact hunlock
    · omega
    · exact fun _ => hi.wired.vaultUsdc
  · unfold InI128
    omega

theorem Ready.paid (hT : N.token.Exact) (hP : N.token.Pays) (hr : Ready w (d :: ds))
    (hpayout : d.payout w ≤ w.usdcBalance N.vault) : ∃ usdc, PaidOut N w.usdc d.trader
      (d.position.collateral + pricePnl d.position d.price - d.fee w) usdc := by
  by_cases hpos : 0 < d.position.collateral + pricePnl d.position d.price - d.fee w
  · have hafford : d.position.collateral + pricePnl d.position d.price - d.fee w ≤
        w.usdcBalance N.vault := by
      simp only [Departure.payout, Departure.settlement, Settlement.payout, Departure.pnl]
        at hpayout
      omega
    have hbalance : 0 ≤ w.usdcBalance d.trader := hT.balance_nonneg _ _
    have hroom := hr.room d List.mem_cons_self
    obtain ⟨usdc, ht⟩ := hP _ _ d.trader _ hpos.le hafford
      (inI128_of_nonneg (x := w.usdcBalance d.trader + _) (by omega) (by omega))
    exact ⟨usdc, fun _ => ht, fun hle => absurd hpos (not_lt.mpr hle)⟩
  · exact ⟨w.usdc, fun h => absurd h hpos, fun _ => rfl⟩

/-- What a departure has changed, and what it has not. -/
structure Departed (w w' : World N) (d : Departure N) : Prop where
  vault : w'.vault = afterSettlement w.vault d.position.size d.pnl (d.fee w)
  manager : w'.positionManager = afterRemove w.positionManager d.trader d.id d.position
  paid : PaidOut N w.usdc d.trader (d.position.collateral + d.pnl - d.fee w) w'.usdc
  engine : w'.engine = w.engine
  oracle : w'.oracle = w.oracle
  timestamp : w'.timestamp = w.timestamp

theorem Ready.returns (hT : N.token.Exact) (hP : N.token.Pays) (hi : SystemInvariant w)
    (hr : Ready w (d :: ds)) (hnet : d.net w ≤ w.vault.totalDeposits)
    (hpayout : d.payout w ≤ w.usdcBalance N.vault) : Returns w d := by
  obtain ⟨usdc, hpaid⟩ := hr.paid hT hP hpayout
  have hg := hr.guards hi hnet
  have hfirst := hr.entitled d List.mem_cons_self
  have hp : w.positionManager.position.lookup (d.trader, d.id) = some d.position := hfirst.stored
  obtain ⟨hcoll, hfee, hcap, hgrown⟩ := hr.bounded hi
  have hallowed := hfirst.allowed
  have hrange := hfirst.inRange
  unfold Returns Departure.call
  cases hm : d.means with
  | close =>
    simp only [Departure.Allowed, Departure.InRange, Departure.fee, Departure.net, Departure.pnl,
      hm] at hallowed hrange hg hpaid hfee hcap hnet hgrown
    have htrader : d.position.trader = d.trader := (hi.register _ _ hp).trader
    have hreported : InI128 (pricePnl d.position d.price - closeFee w d.position) := by
      have htd : 0 ≤ w.vault.totalDeposits := hi.books.deposits
      unfold InI128
      omega
    obtain ⟨net, w', hok⟩ := closePosition_returns hallowed hp htrader hg hrange hreported hpaid
    exact ⟨w', run_discard_ok.mpr ⟨net, hok⟩⟩
  | liquidate keeper =>
    simp only [Departure.Allowed, Departure.InRange, Departure.fee, hm] at hallowed hrange hg hpaid
    exact liquidate_returns hallowed.1 hi.wired.engineManager hi.wired.engineOracle
      hi.wired.managerEngine hp hrange.1 hallowed.2 hg hrange.2 hpaid

theorem departed (he : Entitled w d) (hret : Returns w d) :
    Departed w (depart w d) d ∧ d.net w ≤ w.vault.totalDeposits := by
  obtain ⟨w', hok⟩ := hret
  have hstep : depart w d = w' := step_of_ok hok
  have hp : w.positionManager.position.lookup (d.trader, d.id) = some d.position := he.stored
  unfold Departure.call at hok
  rw [hstep]
  cases hm : d.means with
  | close =>
    simp only [hm] at hok
    obtain ⟨net, hok⟩ := run_discard_ok.mp hok
    obtain ⟨-, q, price, usdc, hq, -, -, hg, -, -, -, hpaid, rfl⟩ := closePosition_ok.mp hok
    obtain rfl : d.position = q := Option.mem_unique hp hq
    obtain rfl := he.fresh.unique hg.fresh
    have hdeposits := hg.deposits
    constructor
    · constructor <;> simp only [Departure.pnl, Departure.fee, hm]
      exact hpaid
    · simp only [Departure.net, Departure.pnl, Departure.fee, hm]
      omega
  | liquidate keeper =>
    simp only [hm] at hok
    obtain ⟨-, q, price, usdc, hq, -, -, -, hg, hpaid, rfl⟩ := liquidate_ok hok
    obtain rfl : d.position = q := Option.mem_unique hp hq
    obtain rfl := he.fresh.unique hg.fresh
    have hdeposits := hg.deposits
    constructor
    · constructor <;> simp only [Departure.pnl, Departure.fee, hm]
      exact hpaid
    · simp only [Departure.net, Departure.pnl, Departure.fee, hm]
      omega

theorem Departed.feeOf (h : Departed w w' d) (e : Departure N) : e.fee w' = e.fee w := by
  unfold Departure.fee closeFee
  rw [h.manager]
  rfl

theorem Departed.settlement (h : Departed w w' d) (e : Departure N) :
    e.settlement w' = e.settlement w := by
  unfold Departure.settlement
  rw [h.feeOf]

theorem Departed.entitled (h : Departed w w' d) {e : Departure N} (hne : e.key ≠ d.key)
    (he : Entitled w e) : Entitled w' e where
  stored := by
    rw [h.manager]
    exact (Finmap.lookup_erase_ne hne).trans he.stored
  fresh := by
    have hfresh := he.fresh
    unfold FreshPrice at hfresh ⊢
    rwa [h.oracle, h.timestamp]
  allowed := by
    have hallowed := he.allowed
    unfold Departure.Allowed at hallowed ⊢
    rwa [h.engine]
  pnlFits := he.pnlFits
  inRange := by
    have hrange := he.inRange
    unfold Departure.InRange at hrange ⊢
    rw [h.engine, h.manager]
    exact hrange

theorem Departed.cash (hT : N.token.Exact) (hi : SystemInvariant w) (he : Entitled w d)
    (h : Departed w w' d) :
    w'.usdcBalance N.vault = w.usdcBalance N.vault - d.payout w :=
  balance_paidOut hT h.paid (trader_outside hi he.stored)

theorem Departed.room (hT : N.token.Exact) (hi : SystemInvariant w) (he : Entitled w d)
    (h : Departed w w' d) {account : Address} (hout : account ∉ N.contracts) :
    w'.usdcBalance account + w'.usdcBalance N.vault ≤
      w.usdcBalance account + w.usdcBalance N.vault := by
  have hcash := h.cash hT hi he
  have hne : account ≠ N.vault := by
    rintro rfl
    exact hout vault_contract
  have hmoved := h.paid.balance hT account
  rw [if_neg hne] at hmoved
  have hpayout := payout_nonneg w d
  simp only [Departure.payout, Departure.settlement, Settlement.payout, World.usdcBalance]
    at hcash hpayout ⊢
  split at hmoved <;> omega

theorem Departed.ready (hT : N.token.Exact) (hi : SystemInvariant w)
    (hr : Ready w (d :: ds)) (h : Departed w w' d) : Ready w' ds := by
  have hfirst := hr.entitled d List.mem_cons_self
  have hrest := hr.rest hi
  have hcap := (hr.bounded hi).capped
  constructor
  · intro e he
    apply h.entitled _ (hrest.entitled e he)
    intro hkey
    have hnew := (List.nodup_cons.mp hr.once).1
    rw [← hkey] at hnew
    exact hnew (List.mem_map_of_mem he)
  · exact hrest.once
  · have hlocked := hr.locked
    have hsize : 0 < d.position.size := hi.books.sizes _ _ hfirst.stored
    rw [h.vault]
    simp only [afterSettlement]
    omega
  · have hdeposits := hr.deposits
    rw [List.map_cons, List.sum_cons] at hdeposits
    simp only [h.feeOf]
    rw [h.vault]
    simp only [afterSettlement]
    omega
  · intro e he
    have hroom := h.room hT hi hfirst (trader_outside hi (hrest.entitled e he).stored)
    have hbefore := hrest.room e he
    omega

theorem Departed.standing (hT : N.token.Exact) (h : Departed w w' d) :
    standingOf w' = (standingOf w).settle N.vault (d.settlement w) :=
  standing_afterSettlement hT h.paid h.vault h.manager

/-- A close that pays its fee takes nothing from what the vault holds beyond its debts. -/
theorem Departed.surplus (hT : N.token.Exact) (hi : SystemInvariant w) (he : Entitled w d)
    (h : Departed w w' d) (hfee : d.fee w ≤ d.position.collateral + d.pnl) :
    surplus w' = surplus w := by
  have hcash := h.cash hT hi he
  have hcoll : totalCollateral w' = totalCollateral w - d.position.collateral := by
    unfold totalCollateral
    rw [h.manager]
    exact sumBy_erase he.stored
  simp only [Departure.payout, Departure.settlement, Settlement.payout] at hcash
  unfold PerpsSolvency.surplus
  rw [hcash, hcoll, h.vault]
  simp only [afterSettlement]
  omega

end OneDeparts

section AllDepart

variable {w : World N} {d : Departure N} {ds : List (Departure N)}

theorem Departure.keepsWiring (d : Departure N) : KeepsWiring (.invoke d.caller d.call) := by
  unfold Departure.call
  cases d.means <;> trivial

theorem depart_invariant (hi : SystemInvariant w) : SystemInvariant (depart w d) :=
  step_invariant hi d.keepsWiring

theorem reachable_closeOut (h : Reachable w) : Reachable (closeOut w ds) := by
  obtain ⟨w₀, as, hd, hr, rfl⟩ := h
  have hk : ∀ a ∈ as ++ ds.map fun d => .invoke d.caller d.call, KeepsWiring a := by
    intro a ha
    rcases List.mem_append.mp ha with ha | ha
    · exact (run_iff.mp hr).1 a ha
    · obtain ⟨d, -, rfl⟩ := List.mem_map.mp ha
      exact d.keepsWiring
  have hreached := reachable_of_actions hd hk
  rw [ActionRuns.runActions, List.foldl_append, List.foldl_map] at hreached
  exact hreached

theorem sum_payouts_nonneg (w : World N) (ds : List (Departure N)) :
    0 ≤ (ds.map (Departure.payout w)).sum := by
  apply List.sum_nonneg
  intro x hx
  obtain ⟨d, -, rfl⟩ := List.mem_map.mp hx
  exact payout_nonneg w d

/-- They all get out in this order exactly when the deposits last and the vault has the USDC. -/
theorem allReturn_iff (hT : N.token.Exact) (hP : N.token.Pays) (hi : SystemInvariant w)
    (hr : Ready w ds) : AllReturn w ds ↔ Covers (Departure.net w) w.vault.totalDeposits ds ∧
      (ds.map (Departure.payout w)).sum ≤ w.usdcBalance N.vault := by
  induction ds generalizing w with
  | nil =>
    have hcash : 0 ≤ w.usdcBalance N.vault := hT.balance_nonneg _ _
    simp [AllReturn, ActionRuns.Along, Covers, hcash]
  | cons d ds ih =>
    have hfirst := hr.entitled d List.mem_cons_self
    have hafter : ∀ hd : Departed w (depart w d) d, AllReturn (depart w d) ds ↔
        Covers (Departure.net w) (w.vault.totalDeposits - d.net w) ds ∧
          (ds.map (Departure.payout w)).sum ≤ w.usdcBalance N.vault - d.payout w := by
      intro hd
      have hnet : Departure.net (depart w d) = Departure.net w := by
        funext e
        simp only [Departure.net, hd.feeOf]
      have hpayout : Departure.payout (depart w d) = Departure.payout w := by
        funext e
        simp only [Departure.payout, hd.settlement]
      have hdeposits : (depart w d).vault.totalDeposits = w.vault.totalDeposits - d.net w := by
        rw [hd.vault]
        simp only [afterSettlement, Departure.net]
        omega
      rw [ih (depart_invariant hi) (hd.ready hT hi hr), hnet, hpayout, hdeposits,
        hd.cash hT hi hfirst]
    rw [List.map_cons, List.sum_cons]
    constructor
    · rintro ⟨hret, hrest⟩
      obtain ⟨hd, hnet⟩ := departed hfirst hret
      obtain ⟨hcovers, hpaid⟩ := (hafter hd).mp hrest
      exact ⟨⟨hnet, hcovers⟩, by omega⟩
    · rintro ⟨⟨hnet, hcovers⟩, hpaid⟩
      have hlater := sum_payouts_nonneg w ds
      have hret := hr.returns hT hP hi hnet (by omega)
      exact ⟨hret, (hafter (departed hfirst hret).1).mpr ⟨hcovers, by omega⟩⟩

theorem closeOut_settles (hT : N.token.Exact) (hi : SystemInvariant w) (hr : Ready w ds)
    (hret : AllReturn w ds) : SystemInvariant (closeOut w ds) ∧ standingOf (closeOut w ds) =
      (ds.map (Departure.settlement w)).foldl (Standing.settle N.vault) (standingOf w) := by
  induction ds generalizing w with
  | nil => exact ⟨hi, rfl⟩
  | cons d ds ih =>
    have hd := (departed (hr.entitled d List.mem_cons_self) hret.1).1
    obtain ⟨hi', hstanding⟩ := ih (depart_invariant hi) (hd.ready hT hi hr) hret.2
    refine ⟨hi', ?_⟩
    have hsame : ds.map (Departure.settlement (depart w d)) = ds.map (Departure.settlement w) :=
      List.map_congr_left fun e _ => hd.settlement e
    rw [List.map_cons, List.foldl_cons, ← hd.standing hT, ← hsame, ← hstanding]
    rfl

theorem closeOut_surplus (hT : N.token.Exact) (hi : SystemInvariant w) (hr : Ready w ds)
    (hret : AllReturn w ds) (hfees : ∀ d ∈ ds, d.fee w ≤ d.position.collateral + d.pnl) :
    surplus (closeOut w ds) = surplus w := by
  induction ds generalizing w with
  | nil => rfl
  | cons d ds ih =>
    have hfirst := hr.entitled d List.mem_cons_self
    have hd := (departed hfirst hret.1).1
    have hlater : ∀ e ∈ ds, e.fee (depart w d) ≤ e.position.collateral + e.pnl := by
      intro e he
      rw [hd.feeOf]
      exact hfees e (List.mem_cons_of_mem d he)
    have hrest := ih (depart_invariant hi) (hd.ready hT hi hr) hret.2 hlater
    exact hrest.trans (hd.surplus hT hi hfirst (hfees d List.mem_cons_self))

theorem settled_positions {vault : Address} {xs : List Settlement} {s : Standing}
    {key : PositionKey} (h : (xs.foldl (Standing.settle vault) s).positions.lookup key ≠ none) :
    s.positions.lookup key ≠ none ∧ ∀ x ∈ xs, x.key ≠ key := by
  induction xs generalizing s with
  | nil => exact ⟨h, nofun⟩
  | cons x xs ih =>
    obtain ⟨hfirst, hrest⟩ := ih h
    simp only [Standing.settle] at hfirst
    by_cases hkey : key = x.key
    · subst hkey
      exact absurd (Finmap.lookup_erase _ _) hfirst
    · rw [Finmap.lookup_erase_ne hkey] at hfirst
      exact ⟨hfirst, List.forall_mem_cons.mpr ⟨Ne.symm hkey, hrest⟩⟩

theorem Ready.perm {es : List (Departure N)} (h : es.Perm ds) (hr : Ready w ds) :
    Ready w es where
  entitled := fun e he => hr.entitled e (h.subset he)
  once := (h.map _).nodup_iff.mpr hr.once
  locked := hr.locked
  deposits := by
    rw [(h.map _).sum_eq]
    exact hr.deposits
  room := fun e he => hr.room e (h.subset he)

/-- Some order lets everybody leave exactly when the deposits cover what is drawn on balance, and
every order exactly when they cover what the winners draw. -/
theorem settlement_solvency (hT : N.token.Exact) (hP : N.token.Pays) (h : Reachable w)
    (hr : Ready w ds) :
    ((∃ es : List (Departure N), es.Perm ds ∧ AllReturn w es) ↔
      (ds.map (Departure.net w)).sum ≤ w.vault.totalDeposits ∧
        (ds.map (Departure.payout w)).sum ≤ w.usdcBalance N.vault) ∧
    ((∀ es : List (Departure N), es.Perm ds → AllReturn w es) ↔
      (ds.map fun d => max 0 (d.net w)).sum ≤ w.vault.totalDeposits ∧
        (ds.map (Departure.payout w)).sum ≤ w.usdcBalance N.vault) := by
  have hi := reachableVia_invariant h
  have htd : 0 ≤ w.vault.totalDeposits := hi.books.deposits
  have hreturn : ∀ es : List (Departure N), es.Perm ds → (AllReturn w es ↔
      Covers (Departure.net w) w.vault.totalDeposits es ∧
        (ds.map (Departure.payout w)).sum ≤ w.usdcBalance N.vault) := by
    intro es hes
    rw [allReturn_iff hT hP hi (hr.perm hes), (hes.map (Departure.payout w)).sum_eq]
  constructor
  · rw [← some_order_iff htd]
    constructor
    · rintro ⟨es, hes, hret⟩
      obtain ⟨hcovers, hpaid⟩ := (hreturn es hes).mp hret
      exact ⟨⟨es, hes, hcovers⟩, hpaid⟩
    · rintro ⟨⟨es, hes, hcovers⟩, hpaid⟩
      exact ⟨es, hes, (hreturn es hes).mpr ⟨hcovers, hpaid⟩⟩
  · rw [← every_order_iff htd]
    constructor
    · intro hall
      constructor
      · intro es hes
        exact ((hreturn es hes).mp (hall es hes)).1
      · exact ((hreturn ds (.refl ds)).mp (hall ds (.refl ds))).2
    · rintro ⟨hcovers, hpaid⟩ es hes
      exact (hreturn es hes).mpr ⟨hcovers es hes, hpaid⟩

/-- One long has won more than the vault has deposits, another has lost its collateral. -/
def upendedMarket : World harness :=
  ActionRuns.runActions step harnessStart [postPrice 0 10000000000, postPrice 1 10000000000,
    provide 12500000000, openLong 0 1000000000 5, openLong 1 1000000000 5,
    postPrice 0 35500000000, postPrice 1 7000000000]

def winner : Departure harness where
  caller := harnessTrader
  means := .close
  trader := ⟨12⟩
  id := 1
  position := ⟨1, ⟨12⟩, 0, .Long, 5000000000, 1000000000, 10000000000, 5, 0, 1000⟩
  price := 35500000000

def loser : Departure harness where
  caller := harnessKeeper
  means := .liquidate ⟨13⟩
  trader := ⟨12⟩
  id := 2
  position := ⟨2, ⟨12⟩, 1, .Long, 5000000000, 1000000000, 10000000000, 5, 0, 1000⟩
  price := 7000000000

theorem upendedMarket_ready : Ready upendedMarket [winner, loser] where
  entitled := by
    have hwinner : Entitled upendedMarket winner := by
      refine ⟨by decide +kernel, freshPrice?_eq_some.mp (by decide +kernel), .inr (by decide),
        ⟨by decide, by decide, by decide⟩, ?_⟩
      show ProportionFits 5000000000 upendedMarket.positionManager.closeFeeRate 10000
      decide +kernel
    have hloser : Entitled upendedMarket loser :=
      ⟨by decide +kernel, freshPrice?_eq_some.mp (by decide +kernel),
        ⟨.inr (by decide), by decide +kernel⟩, ⟨by decide, by decide, by decide⟩,
        ⟨by decide, ⟨by decide, by decide, by decide⟩, by decide, by decide⟩, by decide +kernel⟩
    simp [hwinner, hloser]
  once := by decide
  locked := by decide +kernel
  deposits := by decide +kernel
  room := by decide +kernel

theorem settlement_solvency_upendedMarket :
    ((∃ es : List (Departure harness), es.Perm [winner, loser] ∧ AllReturn upendedMarket es) ↔
      ([winner, loser].map (Departure.net upendedMarket)).sum ≤
          upendedMarket.vault.totalDeposits ∧
        ([winner, loser].map (Departure.payout upendedMarket)).sum ≤
          upendedMarket.usdcBalance harness.vault) ∧
    ((∀ es : List (Departure harness), es.Perm [winner, loser] → AllReturn upendedMarket es) ↔
      ([winner, loser].map fun d => max 0 (d.net upendedMarket)).sum ≤
          upendedMarket.vault.totalDeposits ∧
        ([winner, loser].map (Departure.payout upendedMarket)).sum ≤
          upendedMarket.usdcBalance harness.vault) :=
  settlement_solvency ledgerToken_exact ledgerToken_pays
    (reachable_of_actions deployed_harness (by decide)) upendedMarket_ready

/-- The winner has to wait for the loser. -/
example : ([winner, loser].map (Departure.net upendedMarket)).sum ≤
      upendedMarket.vault.totalDeposits ∧
    ¬ ([winner, loser].map fun d => max 0 (d.net upendedMarket)).sum ≤
      upendedMarket.vault.totalDeposits := by decide +kernel

theorem Ready.collateral_le (hi : SystemInvariant w) (hr : Ready w ds) :
    (ds.map fun d => d.position.collateral).sum ≤ totalCollateral w := by
  have hsome := PoolClaims.sum_lookup_le (f := fun _ p => p.collateral)
    (ds.map Departure.key).toFinset fun key p hp => (hi.books.collaterals key p hp).le
  have hstored : ds.map (fun d => ((w.positionManager.position.lookup d.key).map
      fun p => p.collateral).getD 0) = ds.map fun d => d.position.collateral := by
    apply List.map_congr_left
    intro d hd
    rw [(hr.entitled d hd).stored, Option.map_some, Option.getD_some]
  rw [List.sum_toFinset _ hr.once, List.map_map] at hsome
  exact hstored ▸ hsome

theorem payouts_le (hi : SystemInvariant w) (hb : Backed w) (hr : Ready w ds)
    (hwin : (ds.map fun d => max 0 (d.net w)).sum ≤ w.vault.totalDeposits) :
    (ds.map (Departure.payout w)).sum ≤ w.usdcBalance N.vault := by
  have hcoll := hr.collateral_le hi
  have hpaid : (ds.map (Departure.payout w)).sum ≤
      (ds.map fun d => d.position.collateral + max 0 (d.net w)).sum := by
    apply List.sum_le_sum
    intro d hd
    have hpositive : 0 < d.position.collateral :=
      hi.books.collaterals _ _ (hr.entitled d hd).stored
    simp only [Departure.payout, Departure.settlement, Settlement.payout, Departure.net]
    omega
  rw [List.sum_map_add] at hpaid
  unfold Backed at hb
  omega

theorem closeOut_flat (hi : SystemInvariant (closeOut w ds))
    (hs : standingOf (closeOut w ds) =
      (ds.map (Departure.settlement w)).foldl (Standing.settle N.vault) (standingOf w))
    (hall : ∀ key p, w.positionManager.position.lookup key = some p → ∃ d ∈ ds, d.key = key) :
    (closeOut w ds).positionManager.position = ∅ ∧
      (closeOut w ds).vault.lockedLiquidity = 0 := by
  have hnone : (closeOut w ds).positionManager.position = ∅ := by
    apply Finmap.ext_lookup
    intro key
    rw [Finmap.lookup_empty]
    by_contra hsome
    have hpositions : (closeOut w ds).positionManager.position =
        ((ds.map (Departure.settlement w)).foldl (Standing.settle N.vault)
          (standingOf w)).positions := congrArg Standing.positions hs
    rw [hpositions] at hsome
    obtain ⟨hbefore, hapart⟩ := settled_positions hsome
    obtain ⟨p, hp⟩ := Option.ne_none_iff_exists'.mp hbefore
    obtain ⟨d, hd, hkey⟩ := hall key p hp
    exact hapart _ (List.mem_map_of_mem hd) hkey
  have hlocked := hi.books.locked_eq
  exact ⟨hnone, by simpa [booksOf, hnone] using hlocked⟩

end AllDepart

section EveryoneLeaves

variable {w : World N} {ds : List (Departure N)} {hs : List (Holder N)}

theorem settled_deposits {vault : Address} {xs : List Settlement} {s : Standing} :
    (xs.foldl (Standing.settle vault) s).deposits =
      s.deposits + (xs.map fun x => x.fee - x.pnl).sum := by
  induction xs generalizing s with
  | nil => simp
  | cons x xs ih =>
    rw [List.foldl_cons, ih, List.map_cons, List.sum_cons]
    simp only [Standing.settle]
    omega

/-- The share holders of a ledger without positions, in the order in which they leave. -/
structure Queue (w : World N) (hs : List (Holder N)) : Prop where
  once : hs.Nodup
  everyone : ∀ a, 0 < getShareBalance w.vault a → ∃ h ∈ hs, h.1 = a
  unit : ∀ h ∈ hs, 0 < getShareBalance w.vault h.1 → 0 < worth w h.1
  room : ∀ h ∈ hs, InI128 (w.usdcBalance h.1 + w.vault.totalDeposits)
  fits : InI128 (w.vault.totalShares * w.vault.totalDeposits)
  shared : 0 < w.vault.totalShares

/-- After the traders and then the providers have left, nothing is open, nobody holds a share and
nothing is owed, and the providers had between them their deposits, the close fees and what the
traders lost, less what the traders won. -/
theorem everyone_gets_out (hT : N.token.Exact) (hP : N.token.Pays) (h : Reachable w)
    (hb : Backed w) (hr : Ready w ds)
    (hwin : (ds.map fun d => max 0 (d.net w)).sum ≤ w.vault.totalDeposits)
    (hall : ∀ key p, w.positionManager.position.lookup key = some p → ∃ d ∈ ds, d.key = key)
    (hfees : ∀ d ∈ ds, d.fee w ≤ d.position.collateral + d.pnl)
    (hq : Queue (closeOut w ds) hs) :
    let w' := leaveAll (closeOut w ds) hs
    w'.positionManager.position = ∅ ∧ w'.vault.totalShares = 0 ∧ w'.vault.totalDeposits = 0 ∧
      (hs.map fun h : Holder N => received (closeOut w ds) w' h.1).sum =
        w.vault.totalDeposits + (ds.map fun d => d.fee w - d.pnl).sum := by
  intro w'
  have hi := reachableVia_invariant h
  have hret := (allReturn_iff hT hP hi hr).mpr
    ⟨covers_of_takes_le hwin, payouts_le hi hb hr hwin⟩
  obtain ⟨hi', hsettled⟩ := closeOut_settles hT hi hr hret
  have hdeposits : (closeOut w ds).vault.totalDeposits =
      w.vault.totalDeposits + (ds.map fun d => d.fee w - d.pnl).sum := by
    have hmap : (ds.map (Departure.settlement w)).map (fun x => x.fee - x.pnl) =
        ds.map fun d => d.fee w - d.pnl := List.map_map
    rw [← hmap]
    exact (congrArg Standing.deposits hsettled).trans settled_deposits
  have hflat : Flat (closeOut w ds) := by
    refine ⟨reachable_closeOut h, (closeOut_flat hi' hsettled hall).1, ?_, hq.fits⟩
    have hsurplus := closeOut_surplus hT hi hr hret hfees
    unfold surplus at hsurplus
    unfold Backed at hb ⊢
    omega
  obtain ⟨hshares, hempty, hpaid⟩ := everyone_can_leave hT hP hflat hq.once hq.room hq.everyone
    hq.unit hq.shared
  refine ⟨?_, hshares, hempty, hpaid.trans hdeposits⟩
  exact (leaveAll_leaving hT hP hflat.leaving (waiting_all hq.once hq.room)).flat

/-- A long is open, and its trader also holds shares. -/
def sharedMarket : World harness :=
  ActionRuns.runActions step harnessStart [postPrice 0 10000000000, provide 1000000000000,
    openLong 0 1000000000 10, .invoke harnessTrader (.vault (.deposit ⟨12⟩ 333333333333))]

def lastClose : Departure harness where
  caller := harnessTrader
  means := .close
  trader := ⟨12⟩
  id := 1
  position := storedLong
  price := 10000000000

theorem sharedMarket_ready : Ready sharedMarket [lastClose] where
  entitled := by
    have hclose : Entitled sharedMarket lastClose := by
      refine ⟨by decide +kernel, freshPrice?_eq_some.mp (by decide +kernel), .inr (by decide),
        ⟨by decide, by decide, by decide⟩, ?_⟩
      show ProportionFits 10000000000 sharedMarket.positionManager.closeFeeRate 10000
      decide +kernel
    simpa using hclose
  once := by decide
  locked := by decide +kernel
  deposits := by decide +kernel
  room := by decide +kernel

theorem sharedMarket_positions : sharedMarket.positionManager.position =
    (∅ : Finmap (fun _ : PositionKey => Position)).insert (⟨12⟩, 1) storedLong := by
  decide +kernel

theorem sharedMarket_shares : (closeOut sharedMarket [lastClose]).vault.shareBalance =
    ((∅ : Finmap (fun _ : Address => ℤ)).insert ⟨11⟩ 1000000000000).insert ⟨12⟩ 333330000032 := by
  decide +kernel

theorem sharedMarket_queue : Queue (closeOut sharedMarket [lastClose]) leavers where
  once := by decide
  everyone := by
    intro a ha
    rw [getShareBalance, sharedMarket_shares] at ha
    by_cases h12 : a = ⟨12⟩
    · exact ⟨⟨⟨12⟩, trader_of_harness_outside⟩, by simp [leavers], h12.symm⟩
    · by_cases h11 : a = ⟨11⟩
      · exact ⟨⟨⟨11⟩, provider_outside⟩, by simp [leavers], h11.symm⟩
      · rw [Finmap.lookup_insert_of_ne _ h12, Finmap.lookup_insert_of_ne _ h11] at ha
        simp at ha
  unit := by decide +kernel
  room := by decide +kernel
  fits := by decide +kernel
  shared := by decide +kernel

theorem everyone_gets_out_sharedMarket :
    let w' := leaveAll (closeOut sharedMarket [lastClose]) leavers
    w'.positionManager.position = ∅ ∧ w'.vault.totalShares = 0 ∧ w'.vault.totalDeposits = 0 ∧
      (leavers.map fun h => received (closeOut sharedMarket [lastClose]) w' h.1).sum =
        sharedMarket.vault.totalDeposits +
          ([lastClose].map fun d => d.fee sharedMarket - d.pnl).sum := by
  refine everyone_gets_out ledgerToken_exact ledgerToken_pays ?_ ?_ sharedMarket_ready ?_ ?_ ?_
    sharedMarket_queue
  · exact reachable_of_actions deployed_harness (by decide)
  · unfold Backed
    decide +kernel
  · decide +kernel
  · intro key p hp
    rw [sharedMarket_positions] at hp
    rcases lookup_of_insert hp with ⟨rfl, -⟩ | hp
    · exact ⟨lastClose, List.mem_singleton_self _, rfl⟩
    · simp at hp
  · decide +kernel

end EveryoneLeaves

end PerpsWindDown
