import SoroPerps.PerpsSystemInvariant

/-! # The utilization guard and what locking is meant to give

The guard compares the low 32 bits of the utilization quotient with the cap. Where the quotient
fits in 32 bits this is the exact test, and locked liquidity stays within the deposits. -/
namespace PerpsUtilization

open SorobanHost PerpsTypes PerpsVault PerpsOracleAdapter PerpsPositionManager
open PerpsLiquidationEngine PerpsSystem PerpsVaultInvariant PoolBooks
open PerpsSystemInvariant

variable {N : Network}

def exactUtilization (locked totalDeposits : ℤ) : ℤ := locked * 10000 / totalDeposits

/-- The quotient exceeds 32 bits and what is left of it passes for a utilization under the
cap. -/
def Truncated (quotient : ℤ) (cap : ℕ) : Prop :=
  2 ^ 32 ≤ quotient ∧ quotient % 2 ^ 32 ≤ cap

instance (q : ℤ) (cap : ℕ) : Decidable (Truncated q cap) := inferInstanceAs (Decidable (_ ∧ _))

section Quotient

variable {l td : ℤ} {cap : ℕ}

theorem utilizationQuotient_eq (hl : 0 ≤ l) :
    utilizationQuotient l td = exactUtilization l td :=
  Int.tdiv_eq_ediv_of_nonneg (mul_nonneg hl (by decide))

theorem exactUtilization_nonneg (hl : 0 ≤ l) (htd : 0 < td) : 0 ≤ exactUtilization l td :=
  Int.ediv_nonneg (mul_nonneg hl (by decide)) htd.le

theorem proportionFits_of_product (hl : 0 ≤ l) (htd : 0 < td) (hp : InI128 (l * 10000)) :
    ProportionFits l 10000 td :=
  proportionFits_of_nonneg (mul_nonneg hl (by decide)) htd.le hp

/-- The comparison the guard makes, in exact arithmetic: it errs on truncated quotients only. -/
theorem guard_iff (hl : 0 ≤ l) (htd : 0 < td) (hcap : cap ≤ BPS_DENOMINATOR) :
    asU32 (utilizationQuotient l td) ≤ cap ↔
      exactUtilization l td ≤ cap ∨ Truncated (exactUtilization l td) cap := by
  have hnonneg := exactUtilization_nonneg hl htd
  have hcast := asU32_cast (exactUtilization l td)
  rw [utilizationQuotient_eq hl]
  unfold BPS_DENOMINATOR at hcap
  unfold Truncated
  by_cases hlt : exactUtilization l td < 2 ^ 32
  · rw [Int.emod_eq_of_lt hnonneg hlt] at hcast
    constructor
    · intro h
      left
      omega
    · rintro (h | ⟨hbig, -⟩)
      · omega
      · omega
  · constructor
    · intro h
      right
      omega
    · rintro (h | ⟨-, hlow⟩)
      · omega
      · omega

theorem not_truncated_le (hcap : cap ≤ BPS_DENOMINATOR) (h : Truncated (exactUtilization l td) cap) :
    ¬ exactUtilization l td ≤ cap := by
  unfold BPS_DENOMINATOR at hcap
  obtain ⟨hbig, -⟩ := h
  omega

theorem locked_lt_of_utilization (htd : 0 < td) (h : exactUtilization l td ≤ 9999) : l < td := by
  have hlt := Int.lt_mul_ediv_self_add (x := l * 10000) htd
  have hmul : td * exactUtilization l td ≤ td * 9999 := mul_le_mul_of_nonneg_left h htd.le
  unfold exactUtilization at hmul
  omega

end Quotient

section Cap

variable {w : World N}

/-- Whoever locks `amount`, directly or by opening a position, leaves utilization within the
cap. -/
structure LockRespectsCap (w : World N) (amount : ℤ) : Prop where
  lock : ∀ env caller w', (lockLiquidity env caller amount).run w = .ok ((), w') →
    exactUtilization (w.vault.lockedLiquidity + amount) w.vault.totalDeposits ≤
      w.vault.maxUtilization
  opening : ∀ env trader asset direction collateral (leverage : ℕ) id w',
    collateral * leverage = amount →
    (openPosition env trader asset direction collateral leverage).run w = .ok (id, w') →
      exactUtilization (w.vault.lockedLiquidity + amount) w.vault.totalDeposits ≤
        w.vault.maxUtilization

def WithdrawRespectsCap (w : World N) (depositor : Address) (shares : ℤ) : Prop :=
  ∀ env amount w', (withdraw env depositor shares).run w = .ok (amount, w') →
    0 < w'.vault.totalDeposits →
      exactUtilization w.vault.lockedLiquidity w'.vault.totalDeposits ≤ w.vault.maxUtilization

/-- Locking `amount` is rejected for no other reason than the utilization guard. -/
structure LockReaches (w : World N) (amount : ℤ) : Prop where
  positive : 0 < amount
  manager : w.vault.positionManager.isSome
  locked : InI128 (w.vault.lockedLiquidity + amount)
  product : InI128 ((w.vault.lockedLiquidity + amount) * 10000)

structure WithdrawReaches (w : World N) (depositor : Address) (shares amount : ℤ) : Prop where
  redeemed : redeemedAmount shares w.vault.totalShares w.vault.totalDeposits = amount
  burns : 0 < shares
  balance : shares ≤ getShareBalance w.vault depositor
  pays : 0 < amount
  remaining : 0 < w.vault.totalDeposits - amount
  fits : WithdrawFits w.vault depositor shares amount
  token : w.vault.usdcToken = some N.usdc
  paid : (N.token.transfer w.usdc N.vault depositor amount).toBool

theorem lockRespectsCap_iff (hi : VaultInvariant w.vault) (htd : 0 < w.vault.totalDeposits)
    (amount : ℤ) : LockRespectsCap w amount ↔ ¬ (LockReaches w amount ∧
      Truncated (exactUtilization (w.vault.lockedLiquidity + amount) w.vault.totalDeposits)
        w.vault.maxUtilization) := by
  have hlocked := hi.locked
  constructor
  · rintro h ⟨hreach, htrunc⟩
    obtain ⟨manager, hm⟩ := Option.isSome_iff_exists.mp hreach.manager
    have hpos := hreach.positive
    have hl : 0 ≤ w.vault.lockedLiquidity + amount := by omega
    have hfits := proportionFits_of_product hl htd hreach.product
    have hguard := (guard_iff hl htd hi.cap).mpr (.inr htrunc)
    have hlock : (lockLiquidity ⟨some manager, []⟩ manager amount).run w = .ok ((), _) :=
      lockLiquidity_ok.mpr ⟨.inl rfl, hm, hpos, hreach.locked, fun _ => ⟨hfits, hguard⟩, rfl⟩
    exact not_truncated_le hi.cap htrunc (h.lock _ _ _ hlock)
  · intro h
    -- both ways of locking end in the same guard
    have hcap : 0 < amount → w.vault.positionManager.isSome →
        InI128 (w.vault.lockedLiquidity + amount) →
        (w.vault.totalDeposits ≠ 0 →
          ProportionFits (w.vault.lockedLiquidity + amount) 10000 w.vault.totalDeposits ∧
          asU32 (utilizationQuotient (w.vault.lockedLiquidity + amount) w.vault.totalDeposits) ≤
            w.vault.maxUtilization) →
        exactUtilization (w.vault.lockedLiquidity + amount) w.vault.totalDeposits ≤
          w.vault.maxUtilization := by
      intro hpos hm hfits hutil
      have hl : 0 ≤ w.vault.lockedLiquidity + amount := by omega
      obtain ⟨hprod, hguard⟩ := hutil htd.ne'
      rcases (guard_iff hl htd hi.cap).mp hguard with hle | htrunc
      · exact hle
      · exact absurd ⟨⟨hpos, hm, hfits, hprod.1⟩, htrunc⟩ h
    constructor
    · intro env caller w' hlock
      obtain ⟨-, hm, hpos, hfits, hutil, -⟩ := lockLiquidity_ok.mp hlock
      exact hcap hpos (by simp [hm]) hfits hutil
    · intro env trader asset direction collateral leverage id w' hsize hopen
      obtain ⟨-, price, usdc, hg, -⟩ := openPosition_ok.mp hopen
      have hp : (openedPosition w trader asset direction collateral leverage price).size =
          amount := hsize
      have hpos := hg.size
      have hfits := hg.lockedFits
      have hutil := hg.utilization
      rw [hp] at hpos hfits hutil
      exact hcap hpos (by simp [hg.manager]) hfits hutil

theorem withdrawRespectsCap_iff (hi : VaultInvariant w.vault) (depositor : Address)
    (shares : ℤ) : WithdrawRespectsCap w depositor shares ↔ ¬ ∃ amount,
      WithdrawReaches w depositor shares amount ∧
      Truncated (exactUtilization w.vault.lockedLiquidity (w.vault.totalDeposits - amount))
        w.vault.maxUtilization := by
  constructor
  · rintro h ⟨amount, hreach, htrunc⟩
    obtain ⟨usdc, ht⟩ := returns_of_isOk hreach.paid
    have hrem := hreach.remaining
    have hguard := (guard_iff hi.locked hrem hi.cap).mpr (.inr htrunc)
    have hself : (⟨none, [depositor]⟩ : Env).Authorized depositor := by simp [Env.Authorized]
    have hout : (withdraw ⟨none, [depositor]⟩ depositor shares).run w = .ok (amount, _) :=
      withdraw_ok.mpr ⟨hself, hreach.burns, hreach.balance, hreach.redeemed, hreach.pays,
        hreach.fits, fun _ => hguard, fun hle => absurd hle (not_le.mpr hrem), hreach.token, usdc,
        ht, rfl⟩
    exact not_truncated_le hi.cap htrunc (h _ _ _ hout hrem)
  · intro h env amount w' hout hrem
    obtain ⟨-, hs, hbal, hr, ha, hf, hutil, -, hu, usdc, ht, rfl⟩ := withdraw_ok.mp hout
    have hrem' : 0 < w.vault.totalDeposits - amount := hrem
    rcases (guard_iff hi.locked hrem' hi.cap).mp (hutil hrem') with hle | htrunc
    · exact hle
    · have hpaid : (N.token.transfer w.usdc N.vault depositor amount).toBool := by rw [ht]; rfl
      exact absurd ⟨amount, ⟨hr, hs, hbal, ha, hrem', hf, hu, hpaid⟩, htrunc⟩ h

/-- The cap holds in exact arithmetic for every lock and every withdrawal but those whose
quotient is truncated to a value under the cap and that nothing else rejects. -/
theorem utilization_cap_iff (h : VaultReachable w) (htd : 0 < w.vault.totalDeposits) :
    (∀ amount, LockRespectsCap w amount ↔ ¬ (LockReaches w amount ∧
      Truncated (exactUtilization (w.vault.lockedLiquidity + amount) w.vault.totalDeposits)
        w.vault.maxUtilization)) ∧
    (∀ depositor shares, WithdrawRespectsCap w depositor shares ↔ ¬ ∃ amount,
      WithdrawReaches w depositor shares amount ∧
      Truncated (exactUtilization w.vault.lockedLiquidity (w.vault.totalDeposits - amount))
        w.vault.maxUtilization) := by
  have hi := PerpsVaultInvariant.reachable_invariant h
  exact ⟨lockRespectsCap_iff hi htd, withdrawRespectsCap_iff hi⟩

/-- One stroop is deposited; a position of 2^28 stroops is 2^28 * 10000 basis points of it. -/
def oneStroop : World harness :=
  ActionRuns.runActions step harnessStart [postPrice 0 10000000000, provide 1]

theorem oneStroop_vaultReachable : VaultReachable oneStroop :=
  (reachableVia_invariant (reachable_of_actions deployed_harness (by decide))).vaultReachable

theorem utilization_cap_iff_oneStroop : LockRespectsCap oneStroop 268435456 ↔
    ¬ (LockReaches oneStroop 268435456 ∧
      Truncated (exactUtilization (oneStroop.vault.lockedLiquidity + 268435456)
        oneStroop.vault.totalDeposits) oneStroop.vault.maxUtilization) :=
  (utilization_cap_iff oneStroop_vaultReachable (by decide +kernel)).1 _

/-- The quotient is a multiple of `2 ^ 32`, so the guard sees a utilization of zero. -/
theorem oneStroop_bypassesCap : ¬ ∀ (N : Network) (w : World N), VaultReachable w →
    0 < w.vault.totalDeposits → (∀ amount, LockRespectsCap w amount) ∧
      ∀ depositor shares, WithdrawRespectsCap w depositor shares := by
  intro h
  have hrespects := (h harness oneStroop oneStroop_vaultReachable (by decide +kernel)).1 268435456
  have hok : ((openPosition ⟨none, [⟨12⟩]⟩ ⟨12⟩ 0 .Long 268435456 1).run oneStroop).toBool = true :=
    by decide +kernel
  obtain ⟨⟨id, w'⟩, hopen⟩ := returns_of_isOk hok
  have hle := hrespects.opening _ _ _ _ _ _ _ _ (by decide) hopen
  revert hle
  decide +kernel

end Cap

section Cover

variable {w w' w₀ : World N} {a : Action N} {e : JournalEntry} {as bs : List (Action N)}
  {p : Position} {price : ℤ}

/-- The conditions under which locking is meant to be enough: the quotient the guard computes
fits in 32 bits, nothing is locked against an empty pool, and no position wins more than its
size. -/
def EntryCovered (w : World N) : JournalEntry → Prop
  | .opened _ p _ => w.vault.totalDeposits ≠ 0 ∧
    utilizationQuotient (w.vault.lockedLiquidity + p.size) w.vault.totalDeposits < 2 ^ 32
  | .withdraw _ amount => 0 < w.vault.totalDeposits - amount →
    utilizationQuotient w.vault.lockedLiquidity (w.vault.totalDeposits - amount) < 2 ^ 32
  | .closed _ p pnl _ => pnl ≤ p.size
  | .liquidated _ p pnl => pnl ≤ p.size
  | _ => True

instance (w : World N) : ∀ e : JournalEntry, Decidable (EntryCovered w e)
  | .opened .. => inferInstanceAs (Decidable (_ ∧ _))
  | .withdraw .. => inferInstanceAs (Decidable (_ → _))
  | .closed _ p pnl _ => inferInstanceAs (Decidable (pnl ≤ p.size))
  | .liquidated _ p pnl => inferInstanceAs (Decidable (pnl ≤ p.size))
  | .quiet | .given _ | .deposit .. => isTrue trivial

/-- A step of a run under those conditions, with the cap short of full utilization. -/
def StepCovered (w : World N) (a : Action N) : Prop :=
  w.vault.maxUtilization ≤ 9999 ∧ EntryCovered w (entryOf w a)

instance (w : World N) (a : Action N) : Decidable (StepCovered w a) :=
  inferInstanceAs (Decidable (_ ∧ _))

theorem locked_lt_of_guard {l td : ℤ} {cap : ℕ} (hl : 0 ≤ l) (htd : 0 < td) (hcap : cap ≤ 9999)
    (hq : utilizationQuotient l td < 2 ^ 32) (h : asU32 (utilizationQuotient l td) ≤ cap) :
    l < td := by
  have hnonneg := exactUtilization_nonneg hl htd
  rw [utilizationQuotient_eq hl] at hq h
  have hcast := asU32_of_lt hnonneg hq
  apply locked_lt_of_utilization htd
  omega

theorem effect_keepsCover (hi : SystemInvariant w) (h : Effect w a e w')
    (hcap : w.vault.maxUtilization ≤ 9999) (hc : EntryCovered w e) :
    KeepsCover stake (booksOf w) e := by
  have hlocked := hi.vault.locked
  have hdeposits := hi.vault.deposits
  cases h with
  | quiet h => trivial
  | transferred hsrc ht => split <;> trivial
  | deposited => trivial
  | @withdrawn depositor shares amount usdc hauth hs hbal hr ha hf hutil hempty ht =>
    have hle : amount ≤ w.vault.totalDeposits := hr ▸ hi.vault.redeemed_le hs.le hbal
    show w.vault.lockedLiquidity ≤ w.vault.totalDeposits - amount
    rcases lt_or_ge 0 (w.vault.totalDeposits - amount) with hrem | hrem
    · exact (locked_lt_of_guard hlocked hrem hcap (hc hrem) (hutil hrem)).le
    · have hzero := hempty hrem
      omega
  | @opened env p usdc hauth hp hg ht =>
    obtain ⟨hne, hq⟩ := hc
    have hsize := hg.size
    have htd : 0 < w.vault.totalDeposits := lt_of_le_of_ne hdeposits hne.symm
    have hl : 0 ≤ w.vault.lockedLiquidity + p.size := by omega
    exact (locked_lt_of_guard hl htd hcap hq (hg.utilization hne).2).le
  | closed => exact hc
  | liquidated => exact hc

structure Covered (w : World N) : Prop where
  invariant : SystemInvariant w
  locked : w.vault.lockedLiquidity ≤ w.vault.totalDeposits

theorem step_covered (h : Covered w) (hk : KeepsWiring a) (hc : StepCovered w a) :
    Covered (step w a) := by
  have hi := h.invariant
  have heffect := step_effect hi.wired hk
  have hkeeps := effect_keepsCover hi heffect hc.1 hc.2
  have hbooks : (booksOf (step w a)).locked ≤ (booksOf (step w a)).deposits := by
    rw [effect_books heffect]
    exact cover_post h.locked (effect_posts hi heffect) hkeeps
  exact ⟨step_invariant hi hk, hbooks⟩

theorem rawPnl_le_size (hsize : 0 ≤ p.size) (hentry : 0 < p.entryPrice)
    (hmove : favourableMove p.direction p.entryPrice price ≤ p.entryPrice) :
    rawPnl p price ≤ p.size := by
  have hmul : p.size * favourableMove p.direction p.entryPrice price ≤ p.size * p.entryPrice :=
    mul_le_mul_of_nonneg_left hmove hsize
  calc rawPnl p price ≤ (p.size * p.entryPrice).tdiv p.entryPrice := Int.tdiv_le_tdiv hentry hmul
    _ = p.size := Int.mul_tdiv_cancel _ hentry.ne'

/-- A short never wins more than its size, a long only beyond twice its entry price. -/
theorem pricePnl_le_size (hi : SystemInvariant w) {key : PositionKey}
    (hp : w.positionManager.position.lookup key = some p) (hprice : FreshPrice w p.asset price)
    (hside : p.direction = .Short ∨ price ≤ 2 * p.entryPrice) : pricePnl p price ≤ p.size := by
  have hsize : 0 < p.size := hi.books.sizes _ _ hp
  have hcoll : 0 < p.collateral := hi.books.collaterals _ _ hp
  have hentry := (hi.register _ _ hp).entryPrice
  obtain ⟨c, hc, rfl, -⟩ := hprice
  have hpos := (hi.prices _ _ hc).1
  have hmove : favourableMove p.direction p.entryPrice c.price ≤ p.entryPrice := by
    unfold favourableMove
    rcases hside with hshort | hle
    · simp only [hshort]
      omega
    · split <;> omega
  have hraw := rawPnl_le_size hsize.le hentry hmove
  by_cases hcap : rawPnl p c.price < -p.collateral
  · rw [pricePnl, if_pos hcap]
    omega
  · rw [pricePnl, if_neg hcap]
    exact hraw

/-- Locked liquidity is within the deposits, and settling a stored position whose profit is at most
its size leaves them zero or above. Where it ends with the number of the error for too little
liquidity all the same, the token refused the payout under it. -/
structure LiquiditySuffices (w : World N) : Prop where
  locked : w.vault.lockedLiquidity ≤ w.vault.totalDeposits
  settles : ∀ key p price fee, w.positionManager.position.lookup key = some p →
    pricePnl p price ≤ p.size → 0 ≤ fee → 0 ≤ w.vault.totalDeposits - pricePnl p price + fee
  close : ∀ env trader id asset p price,
    w.positionManager.position.lookup (trader, id) = some p → FreshPrice w p.asset price →
    pricePnl p price ≤ p.size →
    (closePosition env trader id asset : Contract N ℤ).run w =
      .error (.contract .InsufficientLiquidity) →
      PayoutRefused N w.usdc trader (p.collateral + pricePnl p price - closeFee w p)
        .InsufficientLiquidity
  liquidate : ∀ env keeper trader id asset p price,
    w.positionManager.position.lookup (trader, id) = some p → FreshPrice w p.asset price →
    pricePnl p price ≤ p.size →
    (liquidate env keeper trader id asset : Contract N Unit).run w =
      .error (.contract .InsufficientLiquidity) →
      PayoutRefused N w.usdc trader (p.collateral + pricePnl p price - 0) .InsufficientLiquidity
  automatic : ∀ key p price, w.positionManager.position.lookup key = some p →
    FreshPrice w p.asset price → (p.direction = .Short ∨ price ≤ 2 * p.entryPrice) →
    pricePnl p price ≤ p.size

theorem settlement_refused_covered (h : Covered w) {trader : Address} {id : ℕ} {fee : ℤ}
    (hp : w.positionManager.position.lookup (trader, id) = some p)
    (hpnl : pricePnl p price ≤ p.size) (hfee : 0 ≤ fee)
    (hr : SettlementRefused w trader p price fee .InsufficientLiquidity) :
    PayoutRefused N w.usdc trader (p.collateral + pricePnl p price - fee)
      .InsufficientLiquidity := by
  have hge : 0 ≤ w.vault.totalDeposits - pricePnl p price + fee :=
    settlement_covered h.invariant.books h.locked hp hpnl hfee
  rcases hr with ⟨he, -⟩ | ⟨-, hlt⟩ | ⟨-, hrefused⟩
  · cases he
  · omega
  · exact hrefused

theorem liquidity_suffices (hd : Deployed w₀) (hr : Run StepCovered w₀ as) :
    ∀ bs, bs <+: as → LiquiditySuffices (ActionRuns.runActions step w₀ bs) := by
  intro bs hbs
  have hstart : Covered w₀ := by
    have hi := deployed_invariant hd
    have hb := (deployed_fresh hd).2.1
    have hl : w₀.vault.lockedLiquidity = 0 := congrArg Books.locked hb
    exact ⟨hi, hl ▸ hi.vault.deposits⟩
  have h : Covered (ActionRuns.runActions step w₀ bs) := by
    apply ActionRuns.invariant_run _ (hr.of_prefix hbs) hstart
    intro w a h ⟨hk, hc⟩
    exact step_covered h hk hc
  constructor
  · exact h.locked
  · intro key p price fee hp hpnl hfee
    exact settlement_covered h.invariant.books h.locked hp hpnl hfee
  · intro env trader id asset p price hp hprice hpnl herr
    have hsize := h.invariant.books.sizes _ _ hp
    obtain ⟨q, price', hq, hprice', hrefused⟩ :=
      settlementRefused_of_close h.invariant.wired (.inr rfl) herr
    obtain rfl : p = q := Option.mem_unique hp hq
    obtain rfl := hprice.unique hprice'
    exact settlement_refused_covered h hp hpnl (feeFor_nonneg hsize.le _) hrefused
  · intro env keeper trader id asset p price hp hprice hpnl herr
    obtain ⟨q, price', hq, hprice', hrefused⟩ :=
      settlementRefused_of_liquidate h.invariant.wired (.inr rfl) herr
    obtain rfl : p = q := Option.mem_unique hp hq
    obtain rfl := hprice.unique hprice'
    exact settlement_refused_covered h hp hpnl (le_refl 0) hrefused
  · intro key p price hp hprice hside
    exact pricePnl_le_size h.invariant hp hprice hside

theorem liquidity_suffices_winning : LiquiditySuffices (ActionRuns.runActions step harnessStart
    [postPrice 0 10000000000, provide 1000000000000, openLong 0 1000000000 10,
      postPrice 0 15000000000]) :=
  liquidity_suffices deployed_harness (run_iff.mpr ⟨by decide, by decide +kernel⟩) _
    (List.prefix_refl _)

end Cover

end PerpsUtilization
