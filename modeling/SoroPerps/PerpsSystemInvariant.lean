import SoroPerps.PerpsSystem
import SoroPerps.PerpsVaultInvariant

/-! # The system refines its books

Every step of the wired system posts exactly one entry to the books, and only entries a pool may
post. The invariants of reachable ledgers follow. -/
namespace PerpsSystemInvariant

open SorobanHost PerpsTypes PerpsVault PerpsOracleAdapter PerpsPositionManager
open PerpsLiquidationEngine PerpsSystem PerpsVaultInvariant PoolBooks FinmapSums SharePool

variable {N : Network}

/-- A stored position under its key, with the fields its opening wrote. -/
structure Registered (N : Network) (nextId : ℕ) (key : PositionKey) (p : Position) : Prop where
  trader : p.trader = key.1
  id : p.id = key.2
  old : p.id < nextId
  outside : p.trader ∉ N.contracts
  leverage : p.leverage ≠ 0
  size : p.size = p.collateral * p.leverage
  entryPrice : 0 < p.entryPrice

structure SystemInvariant (w : World N) : Prop where
  wired : Wired w
  vaultReachable : VaultReachable w
  books : Sound stake (booksOf w)
  register : ∀ key p, w.positionManager.position.lookup key = some p →
    Registered N w.positionManager.nextPositionId key p
  prices : ∀ asset c, w.oracle.price.lookup asset = some c →
    0 < c.price ∧ c.timestamp ≤ w.timestamp

section Refinement

variable {w w' : World N} {a : Action N} {e : JournalEntry} {p : Position} {price : ℤ}

theorem SystemInvariant.vault (hi : SystemInvariant w) : VaultInvariant w.vault :=
  PerpsVaultInvariant.reachable_invariant hi.vaultReachable

theorem sizeOn_long (p : Position) : sizeOn .Long p = longSize stake p := by
  simp [sizeOn, longSize, stake]

theorem sizeOn_short (p : Position) : sizeOn .Short p = shortSize stake p := by
  cases h : p.direction <;> simp [sizeOn, shortSize, stake, h]

theorem effect_books (h : Effect w a e w') : booksOf w' = post stake (booksOf w) e := by
  cases h with
  | quiet h =>
    obtain ⟨cap, hv, -⟩ := h.vault
    obtain ⟨_, _, _, _, hm⟩ := h.manager
    simp only [booksOf, post, hv, hm]
  | transferred hsrc ht => split <;> rfl
  | deposited => rfl
  | withdrawn => rfl
  | opened => simp only [booksOf, post, afterOpening, afterOpen, sizeOn_long, sizeOn_short, stake]
  | closed => simp only [booksOf, post, settle, afterSettlement, afterRemove, sizeOn_long,
      sizeOn_short, stake]
  | liquidated => simp only [booksOf, post, settle, afterSettlement, afterRemove, sizeOn_long,
      sizeOn_short, stake]

theorem neg_collateral_le_pricePnl (p : Position) (price : ℤ) :
    -p.collateral ≤ pricePnl p price := by
  by_cases hcap : rawPnl p price < -p.collateral
  · rw [pricePnl, if_pos hcap]
  · rw [pricePnl, if_neg hcap]
    exact not_lt.mp hcap

theorem feeFor_nonneg {size : ℤ} (h : 0 ≤ size) (bps : ℕ) : 0 ≤ feeFor size bps :=
  Int.tdiv_nonneg (mul_nonneg h (Int.natCast_nonneg bps)) (by decide)

theorem settles_of_guards {key : PositionKey} {fee : ℤ}
    (hp : w.positionManager.position.lookup key = some p) (hg : SettleGuards w p price fee)
    (hfee : 0 ≤ fee) : Settles stake (booksOf w) key p (pricePnl p price) fee :=
  ⟨hp, neg_collateral_le_pricePnl p price, hfee, hg.locked, hg.deposits⟩

theorem SystemInvariant.next_free (hi : SystemInvariant w) (trader : Address) :
    w.positionManager.position.lookup (trader, w.positionManager.nextPositionId) = none := by
  cases h : w.positionManager.position.lookup (trader, w.positionManager.nextPositionId) with
  | none => rfl
  | some p =>
    have hold := (hi.register _ _ h).old
    have hid : p.id = w.positionManager.nextPositionId := (hi.register _ _ h).id
    omega

theorem SystemInvariant.size_le_locked (hi : SystemInvariant w) {key : PositionKey} {p : Position}
    (hp : w.positionManager.position.lookup key = some p) :
    p.size ≤ w.vault.lockedLiquidity :=
  hi.books.size_le_locked hp

theorem effect_posts (hi : SystemInvariant w) (h : Effect w a e w') :
    Posts stake (booksOf w) e := by
  cases h with
  | quiet h => trivial
  | transferred hsrc ht => split <;> trivial
  | deposited hauth ha hm hs hf ht =>
    refine ⟨ha, hs, ?_⟩
    intro hne
    have hts : 0 < w.vault.totalShares := hi.vault.totalShares_nonneg.lt_of_ne' hne
    rw [← hm]
    exact mintedShares_mul_le ha.le hts hi.vault.deposits
  | withdrawn hauth hs hbal hr ha hf hutil hempty ht =>
    have hle := hbal.trans (hi.vault.balance_le _)
    have hts := hs.trans_le hle
    refine ⟨hs, hle, ha, hr ▸ hi.vault.redeemed_le hs.le hbal, ?_⟩
    rw [← hr, redeemedAmount_eq hs.le hts hi.vault.deposits]
    exact redeemed_mul_le (p := ⟨w.vault.totalDeposits, w.vault.totalShares⟩) hts
  | opened hauth hp hg ht =>
    refine ⟨?_, hg.size, ?_, hg.fee⟩
    · rw [hp]
      exact hi.next_free _
    · have hsize := hg.size
      rw [hp] at hsize
      exact pos_of_mul_pos_left hsize (Int.natCast_nonneg _)
  | closed hauth hp hg ht =>
    exact settles_of_guards hp hg (feeFor_nonneg (hi.books.sizes _ _ hp).le _)
  | liquidated hauth hp hlow hg ht => exact settles_of_guards hp hg (le_refl 0)

section Refusals

variable {env : Env} {trader : Address} {id asset : ℕ} {err : PerpsError}

/-- A close or liquidation that ends with one of the settlement's own two codes got as far as the
settlement. -/
theorem settlementRefused_of_close (hw : Wired w)
    (he : err = .OverflowError ∨ err = .InsufficientLiquidity)
    (h : (closePosition env trader id asset : Contract N ℤ).run w = .error (.contract err)) :
    ∃ p price, w.positionManager.position.lookup (trader, id) = some p ∧
      FreshPrice w p.asset price ∧ SettlementRefused w trader p price (closeFee w p) err := by
  rcases closePosition_error hw.vaultManager h with
    ⟨-, rfl⟩ | ⟨p, hp, ⟨-, rfl⟩ | ⟨-, rfl⟩ | rfl | ⟨price, hprice, hrefused⟩⟩
  iterate 4 simp at he
  exact ⟨p, price, hp, hprice, hrefused⟩

theorem settlementRefused_of_liquidate (hw : Wired w) {keeper : Address}
    (he : err = .OverflowError ∨ err = .InsufficientLiquidity)
    (h : (liquidate env keeper trader id asset : Contract N Unit).run w =
      .error (.contract err)) :
    ∃ p price, w.positionManager.position.lookup (trader, id) = some p ∧
      FreshPrice w p.asset price ∧ SettlementRefused w trader p price 0 err := by
  rcases liquidate_error h with ⟨-, rfl⟩ | rfl | ⟨-, -, -, -, -, ⟨-, rfl⟩ | ⟨-, horder⟩⟩
  iterate 3 simp at he
  rcases liquidatePosition_error hw.vaultManager hw.managerEngine horder with
    ⟨-, rfl⟩ | ⟨p, hp, ⟨-, rfl⟩ | rfl | ⟨price, hprice, hrefused⟩⟩
  iterate 3 simp at he
  exact ⟨p, price, hp, hprice, hrefused⟩

end Refusals

end Refinement

section Preservation

variable {w w' : World N} {a : Action N} {e : JournalEntry}

theorem effect_shareBalance {holder : Address} (hout : ¬ a.Authorized holder)
    (h : Effect w a e w') : getShareBalance w'.vault holder = getShareBalance w.vault holder := by
  cases h with
  | quiet h =>
    obtain ⟨cap, hv, -⟩ := h.vault
    rw [hv]
    rfl
  | @deposited depositor amount shares usdc hauth ha hm hs hf ht =>
    have hne : holder ≠ depositor := by
      rintro rfl
      exact hout hauth
    rw [getShareBalance_of_insert rfl, if_neg hne]
  | @withdrawn depositor shares amount usdc hauth hs hbal hr ha hf hutil hempty ht =>
    have hne : holder ≠ depositor := by
      rintro rfl
      exact hout hauth
    rw [getShareBalance_of_insert rfl, if_neg hne]
  | _ => rfl

theorem effect_wired (hw : Wired w) (h : Effect w a e w') : Wired w' := by
  cases h with
  | quiet h =>
    obtain ⟨cap, hv, -⟩ := h.vault
    obtain ⟨_, _, _, _, hm⟩ := h.manager
    obtain ⟨_, _, _, he⟩ := h.engine
    constructor <;> simp only [hv, hm, he]
    exacts [hw.vaultAdmin, hw.vaultUsdc, hw.vaultManager, hw.managerAdmin, hw.managerVault,
      hw.managerOracle, hw.managerUsdc, hw.managerEngine, hw.engineAdmin, hw.engineManager,
      hw.engineOracle]
  | _ => exact { hw with }

theorem Registered.later {n m : ℕ} {key : PositionKey} {p : Position} (h : Registered N n key p)
    (hle : n ≤ m) : Registered N m key p := { h with old := h.old.trans_le hle }

theorem registered_open {env : Env} {p : Position} (hi : SystemInvariant w)
    (hout : p.trader ∉ N.contracts)
    (hp : p = openedPosition w p.trader p.asset p.direction p.collateral p.leverage p.entryPrice)
    (hg : OpenGuards env w p) :
    Registered N (w.positionManager.nextPositionId + 1) (p.trader, p.id) p := by
  have hid : p.id = w.positionManager.nextPositionId := by rw [hp]; rfl
  obtain ⟨c, hc, hprice, -⟩ := hg.fresh
  exact ⟨rfl, rfl, by omega, hout, hg.leverage.1, by rw [hp]; rfl,
    hprice ▸ (hi.prices _ _ hc).1⟩

theorem effect_register (hi : SystemInvariant w) (hout : ∀ b, a.Authorized b → b ∉ N.contracts)
    (h : Effect w a e w') : ∀ key p, w'.positionManager.position.lookup key = some p →
      Registered N w'.positionManager.nextPositionId key p := by
  cases h with
  | quiet h =>
    obtain ⟨_, _, _, _, hm⟩ := h.manager
    simpa only [hm] using hi.register
  | opened hauth hp hg ht =>
    intro key q hq
    rcases lookup_of_insert hq with ⟨rfl, rfl⟩ | hq
    · exact registered_open hi (hout _ hauth) hp hg
    · exact (hi.register key q hq).later (Nat.le_succ _)
  | closed =>
    intro key q hq
    exact hi.register key q (lookup_of_erase hq)
  | liquidated =>
    intro key q hq
    exact hi.register key q (lookup_of_erase hq)
  | _ => exact hi.register

theorem effect_prices (hi : SystemInvariant w) (h : Effect w a e w') :
    ∀ asset c, w'.oracle.price.lookup asset = some c →
      0 < c.price ∧ c.timestamp ≤ w'.timestamp := by
  cases h with
  | quiet h =>
    intro asset c hc
    rcases h.prices asset c hc with hc | ⟨hpos, ht⟩
    · obtain ⟨hpos, hold⟩ := hi.prices asset c hc
      exact ⟨hpos, hold.trans h.time⟩
    · exact ⟨hpos, ht ▸ h.time⟩
  | _ => exact hi.prices

/-- Every vault call a step makes, through whichever contract, is a call the vault may receive
from anyone. -/
theorem effect_vaultReachable (hi : SystemInvariant w) (h : Effect w a e w') :
    VaultReachable w' := by
  have hv := hi.vaultReachable
  have hm := hi.wired.vaultManager
  have hu := hi.wired.vaultUsdc
  have hself : (⟨some N.positionManager, []⟩ : Env).Authorized N.positionManager := .inl rfl
  cases h with
  | quiet h =>
    obtain ⟨cap, hcap, rfl | hb⟩ := h.vault
    · exact .elsewhere hv hcap
    · obtain ⟨admin, hadmin⟩ := Option.isSome_iff_exists.mp hi.wired.vaultAdmin
      have hc : (PerpsVault.invoke ⟨none, [admin]⟩ (.setMaxUtilization admin cap)).run w =
          .ok ((), { w with vault := { w.vault with maxUtilization := cap } }) := by
        simp [PerpsVault.invoke, setMaxUtilization, hadmin, Env.Authorized, hb]
      exact .elsewhere (.called hv hc) hcap
  | transferred hsrc ht => exact .elsewhere hv rfl
  | @deposited depositor amount shares usdc hauth ha hs hpos hf ht =>
    have hself : (⟨none, [depositor]⟩ : Env).Authorized depositor := by simp [Env.Authorized]
    have hc := deposit_ok.mpr ⟨hself, ha, hs, hpos, hf, hu, by simp, usdc, ht, rfl⟩
    exact .called (c := .deposit depositor amount) hv (run_discard_ok.mpr ⟨_, hc⟩)
  | @withdrawn depositor shares amount usdc hauth hs hbal hr ha hf hutil hempty ht =>
    have hself : (⟨none, [depositor]⟩ : Env).Authorized depositor := by simp [Env.Authorized]
    have hc := withdraw_ok.mpr ⟨hself, hs, hbal, hr, ha, hf, hutil, hempty, hu, usdc, ht, rfl⟩
    exact .called (c := .withdraw depositor shares) hv (run_discard_ok.mpr ⟨_, hc⟩)
  | @opened env p usdc hauth hp hg ht =>
    let locked : World N := { w with
      vault.lockedLiquidity := w.vault.lockedLiquidity + p.size
      events := w.events ++ [.liquidityLocked p.size] }
    have hlock : (lockLiquidity ⟨some N.positionManager, []⟩ N.positionManager p.size).run w =
        .ok ((), locked) :=
      lockLiquidity_ok.mpr ⟨hself, hm, hg.size, hg.lockedFits, hg.utilization, rfl⟩
    have hfee : (collectFee ⟨some N.positionManager, []⟩ N.positionManager (openFee w p)).run
        locked = .ok ((), _) := collectFee_ok.mpr ⟨⟨hself, hm⟩, hg.fee, hg.depositsFit, rfl⟩
    have hv' : VaultReachable locked := .called (c := .lockLiquidity _ _) hv hlock
    exact .elsewhere (.called (c := .collectFee _ _) hv' hfee) rfl
  | @closed trader id p price usdc hauth hp hg ht =>
    have hc : (closePositionSettlement ⟨some N.positionManager, []⟩ N.positionManager trader
        p.size p.collateral (pricePnl p price) (closeFee w p)).run w = .ok ((), _) :=
      closePositionSettlement_ok.mpr ⟨⟨hself, hm⟩, hg.settlementFits, hg.locked, hg.deposits,
        hg.usdc, usdc, ht, rfl⟩
    exact .elsewhere (.called (c := .closePositionSettlement _ _ _ _ _ _) hv hc) rfl
  | @liquidated trader keeper id p price usdc hauth hp hlow hg ht =>
    have hc : (closePositionSettlement ⟨some N.positionManager, []⟩ N.positionManager trader
        p.size p.collateral (pricePnl p price) 0).run w = .ok ((), _) :=
      closePositionSettlement_ok.mpr ⟨⟨hself, hm⟩, hg.settlementFits, hg.locked, hg.deposits,
        hg.usdc, usdc, ht, rfl⟩
    exact .elsewhere (.called (c := .closePositionSettlement _ _ _ _ _ _) hv hc) rfl

theorem Action.outside {b : Address} (h : a.Authorized b) : b ∉ N.contracts := by
  cases a with
  | invoke caller call => exact caller.outside b h
  | advance seconds => exact h.elim
  | expirePrice asset => exact h.elim

theorem step_books (hi : SystemInvariant w) (hk : KeepsWiring a) :
    booksOf (step w a) = post stake (booksOf w) (entryOf w a) :=
  effect_books (step_effect hi.wired hk)

theorem step_posts (hi : SystemInvariant w) (hk : KeepsWiring a) :
    Posts stake (booksOf w) (entryOf w a) :=
  effect_posts hi (step_effect hi.wired hk)

theorem step_invariant (hi : SystemInvariant w) (hk : KeepsWiring a) :
    SystemInvariant (step w a) where
  wired := effect_wired hi.wired (step_effect hi.wired hk)
  vaultReachable := effect_vaultReachable hi (step_effect hi.wired hk)
  books := step_books hi hk ▸ sound_post hi.books (step_posts hi hk)
  register := effect_register hi (fun _ => Action.outside) (step_effect hi.wired hk)
  prices := effect_prices hi (step_effect hi.wired hk)

end Preservation

section Runs

variable {w : World N} {as : List (Action N)} {Q : World N → Action N → Prop}

def deployedVault (c : Config) (N : Network) : VaultStorage :=
  { admin := some c.admin
    usdcToken := some N.usdc
    maxUtilization := c.maxUtilization
    positionManager := some N.positionManager }

theorem deployed_fresh (h : Deployed w) : Wired w ∧ booksOf w = emptyBooks ∧
    w.oracle.price = ∅ ∧ ∃ c : Config, w.vault = deployedVault c N ∧
      c.maxUtilization ≠ 0 ∧ c.maxUtilization ≤ BPS_DENOMINATOR := by
  obtain ⟨c, timestamp, usdc, h⟩ := h
  simp [deploy, initializeVault, initializeOracle, initializePositionManager, initializeEngine,
    PerpsFundingRate.initializeFunding, PerpsVault.setPositionManager, setLiquidationEngine,
    setFundingAddress] at h
  obtain ⟨hcap, -, -, -, -, -, -, rfl⟩ := h
  exact ⟨by constructor <;> rfl, rfl, rfl, c, rfl, hcap⟩

theorem deployed_vaultReachable (h : Deployed w) : VaultReachable w := by
  obtain ⟨-, -, -, c, hv, hcap⟩ := deployed_fresh h
  let blank : World N := { w with vault := {} }
  have hinit : (initializeVault c.admin N.usdc c.maxUtilization).run blank =
      .ok ((), { w with vault := { deployedVault c N with positionManager := none } }) := by
    simp [blank, initializeVault, deployedVault, hcap]
  have hwire : (PerpsVault.setPositionManager ⟨none, [c.admin]⟩ c.admin N.positionManager).run
      { w with vault := { deployedVault c N with positionManager := none } } =
      .ok ((), { w with vault := deployedVault c N }) := by
    simp [PerpsVault.setPositionManager, deployedVault, Env.Authorized]
  have hfirst := VaultReachable.initialized (w := blank) rfl hinit
  exact .elsewhere (.called (c := .setPositionManager _ _) hfirst hwire) hv

theorem deployed_invariant (h : Deployed w) : SystemInvariant w := by
  obtain ⟨hw, hb, hp, -⟩ := deployed_fresh h
  have hpos : w.positionManager.position = ∅ := congrArg Books.positions hb
  constructor
  · exact hw
  · exact deployed_vaultReachable h
  · exact hb ▸ sound_empty stake
  · simp [hpos]
  · simp [hp]

theorem run_invariant (hr : Run Q w as) (hi : SystemInvariant w) :
    SystemInvariant (ActionRuns.runActions step w as) :=
  ActionRuns.invariant_run (fun _ _ hi h => step_invariant hi h.1) hr hi

theorem reachableVia_invariant (h : ReachableVia Q w) : SystemInvariant w := by
  obtain ⟨w₀, as, hd, hr, rfl⟩ := h
  exact run_invariant hr (deployed_invariant hd)

/-- A run of the system is matched by the run of the books over its journal. -/
theorem run_books (hr : Run Q w as) (hi : SystemInvariant w) :
    booksOf (ActionRuns.runActions step w as) = ActionRuns.runActions (post stake) (booksOf w)
      (ActionRuns.journal step entryOf w as) :=
  ActionRuns.run_simulates (fun _ _ hi h => ⟨step_invariant hi h.1, step_books hi h.1⟩) hr hi

end Runs

end PerpsSystemInvariant
