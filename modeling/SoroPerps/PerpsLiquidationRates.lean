import SoroPerps.PerpsUnwinding

/-! # Penalty and keeper reward

Two percentages of the engine, each with a setter of its own, and what a liquidation makes of them.
Initialization compares the two, the setters do not. The amounts only reach the event. -/
namespace PerpsLiquidationRates

open SorobanHost PerpsTypes PerpsVault PerpsOracleAdapter PerpsPositionManager
open PerpsLiquidationEngine PerpsSystem PerpsSystemInvariant PerpsSolvency PerpsUnwinding

variable {N : Network}

section Shares

variable {collateral equity : ℤ} {bps bps' : ℕ}

theorem share_nonneg (hc : 0 ≤ collateral) : 0 ≤ share collateral equity bps := by
  unfold share
  split
  · next hpos =>
    have hraw : 0 ≤ (collateral * bps).tdiv 10000 :=
      Int.tdiv_nonneg (mul_nonneg hc (Int.natCast_nonneg _)) (by decide)
    exact le_min hraw hpos.le
  · exact le_refl 0

theorem share_mono (hc : 0 ≤ collateral) (h : bps ≤ bps') :
    share collateral equity bps ≤ share collateral equity bps' := by
  unfold share
  split
  · have hcast : (bps : ℤ) ≤ bps' := Int.ofNat_le.mpr h
    have hraw : (collateral * bps).tdiv 10000 ≤ (collateral * bps').tdiv 10000 :=
      Int.tdiv_le_tdiv (by decide) (mul_le_mul_of_nonneg_left hcast hc)
    exact min_le_min_right equity hraw
  · exact le_refl 0

theorem share_le_equity (he : 0 ≤ equity) : share collateral equity bps ≤ equity := by
  unfold share
  split
  · exact min_le_right _ _
  · exact he

theorem share_eq_zero_iff (hc : 0 ≤ collateral) :
    share collateral equity bps = 0 ↔ equity ≤ 0 ∨ collateral * bps < 10000 := by
  have hprod : 0 ≤ collateral * bps := mul_nonneg hc (Int.natCast_nonneg _)
  unfold share
  rw [Int.tdiv_eq_ediv_of_nonneg hprod]
  split
  · omega
  · omega

theorem share_eq_share_iff (hc : 0 ≤ collateral) :
    share collateral equity bps = share collateral equity bps' ↔
      equity ≤ 0 ∨ min (collateral * bps / 10000) equity = min (collateral * bps' / 10000) equity := by
  unfold share
  rw [Int.tdiv_eq_ediv_of_nonneg (mul_nonneg hc (Int.natCast_nonneg _)),
    Int.tdiv_eq_ediv_of_nonneg (mul_nonneg hc (Int.natCast_nonneg _))]
  split
  · next hpos =>
    rw [or_iff_right (not_le.mpr hpos)]
  · next hle =>
    exact iff_of_true rfl (.inl (not_lt.mp hle))

end Shares

section Order

variable {w w' w₀ : World N} {a : Action N} {as : List (Action N)} {caller : Caller N}
  {admin : Address} {bps : ℕ}

def AdminSigned (w : World N) (caller : Caller N) (admin : Address) : Prop :=
  caller.env.Authorized admin ∧ w.engine.admin = some admin

instance (w : World N) (caller : Caller N) (admin : Address) :
    Decidable (AdminSigned w caller admin) := inferInstanceAs (Decidable (_ ∧ _))

/-- A setter that will not be refused leaves the reward within the penalty. -/
def KeepsOrder (w : World N) : Action N → Prop
  | .invoke caller (.engine (.setLiquidationPenalty admin bps)) =>
    AdminSigned w caller admin → w.engine.keeperReward ≤ bps
  | .invoke caller (.engine (.setKeeperReward admin bps)) =>
    AdminSigned w caller admin → bps ≤ w.engine.liquidationPenalty
  | _ => True

instance (w : World N) : ∀ a : Action N, Decidable (KeepsOrder w a)
  | .invoke caller (.engine (.setLiquidationPenalty admin bps)) =>
    inferInstanceAs (Decidable (AdminSigned w caller admin → w.engine.keeperReward ≤ bps))
  | .invoke caller (.engine (.setKeeperReward admin bps)) =>
    inferInstanceAs (Decidable (AdminSigned w caller admin → bps ≤ w.engine.liquidationPenalty))
  | .invoke _ (.engine (.initializeEngine ..)) | .invoke _ (.engine (.liquidate ..))
  | .invoke _ (.engine (.setMaintenanceMargin ..)) | .invoke _ (.vault _) | .invoke _ (.oracle _)
  | .invoke _ (.positionManager _) | .invoke _ (.funding _) | .invoke _ (.transferUsdc ..)
  | .advance _ | .expirePrice _ => isTrue trivial

theorem step_setter {call : PerpsLiquidationEngine.Call} {s : LiquidationStorage}
    (hcall : ∀ u w', (PerpsLiquidationEngine.invoke caller.env call : Contract N Unit).run w =
      .ok (u, w') ↔ AdminSigned w caller admin ∧ { w with engine := s } = w') :
    step w (.invoke caller (.engine call)) =
      if AdminSigned w caller admin then { w with engine := s } else w := by
  by_cases h : AdminSigned w caller admin
  · rw [if_pos h]
    exact step_of_ok ((hcall () _).mpr ⟨h, rfl⟩)
  · rw [if_neg h]
    rcases invoke_cases w caller (.engine call) with hsame | ⟨u, w', hrun, -⟩
    · exact hsame
    · exact absurd ((hcall u w').mp hrun).1 h

theorem step_setLiquidationPenalty :
    step w (.invoke caller (.engine (.setLiquidationPenalty admin bps))) =
      if AdminSigned w caller admin then { w with engine.liquidationPenalty := bps } else w := by
  apply step_setter
  simp [PerpsLiquidationEngine.invoke, setLiquidationPenalty, AdminSigned, and_assoc]

theorem step_setKeeperReward :
    step w (.invoke caller (.engine (.setKeeperReward admin bps))) =
      if AdminSigned w caller admin then { w with engine.keeperReward := bps } else w := by
  apply step_setter
  simp [PerpsLiquidationEngine.invoke, setKeeperReward, AdminSigned, and_assoc]

def rates (w : World N) : ℕ × ℕ := (w.engine.liquidationPenalty, w.engine.keeperReward)

theorem rates_of_dispatch (hw : Wired w) {env : Env} {call : PerpsSystem.Call} {u : Unit}
    (hpenalty : ∀ admin bps, call ≠ .engine (.setLiquidationPenalty admin bps))
    (hreward : ∀ admin bps, call ≠ .engine (.setKeeperReward admin bps))
    (h : (dispatch env call).run w = .ok (u, w')) : rates w' = rates w := by
  unfold rates
  by_cases hcall : ∃ c, call = .engine c
  · obtain ⟨c, rfl⟩ := hcall
    simp only [dispatch] at h
    cases c with
    | initializeEngine admin pm oracle maintenance penalty reward =>
      simp [PerpsLiquidationEngine.invoke, initializeEngine] at h
      have hadmin := hw.engineAdmin
      simp [h.1] at hadmin
    | liquidate keeper trader id asset =>
      obtain ⟨-, p, price, usdc, -, -, -, -, -, -, rfl⟩ := liquidate_ok h
      rfl
    | setMaintenanceMargin admin bps =>
      simp [PerpsLiquidationEngine.invoke, setMaintenanceMargin] at h
      obtain ⟨-, -, rfl⟩ := h
      rfl
    | setLiquidationPenalty admin bps => exact absurd rfl (hpenalty admin bps)
    | setKeeperReward admin bps => exact absurd rfl (hreward admin bps)
  · rw [(dispatch_frame h).engine fun c hc => hcall ⟨c, hc⟩]

theorem rates_of_step (hw : Wired w)
    (hpenalty : ∀ caller admin bps, a ≠ .invoke caller (.engine (.setLiquidationPenalty admin bps)))
    (hreward : ∀ caller admin bps, a ≠ .invoke caller (.engine (.setKeeperReward admin bps))) :
    rates (step w a) = rates w := by
  cases a with
  | advance seconds => rfl
  | expirePrice asset => rfl
  | invoke caller call =>
    rcases invoke_cases w caller call with hsame | ⟨u, w', hrun, hstep⟩
    · rw [hsame]
    · rw [hstep]
      apply rates_of_dispatch hw _ _ hrun
      · rintro admin bps rfl
        exact hpenalty caller admin bps rfl
      · rintro admin bps rfl
        exact hreward caller admin bps rfl

def Ordered (w : World N) : Prop := w.engine.keeperReward ≤ w.engine.liquidationPenalty

theorem ordered_congr (h : rates w' = rates w) : Ordered w' ↔ Ordered w := by
  obtain ⟨hpenalty, hreward⟩ := Prod.mk.inj h
  unfold Ordered
  rw [hpenalty, hreward]

theorem step_ordered (hw : Wired w) (h : Ordered w) (hk : KeepsOrder w a) :
    Ordered (step w a) := by
  revert hk
  fun_cases KeepsOrder w a
  · next caller admin bps =>
    intro hk
    rw [step_setLiquidationPenalty]
    split
    · next hsigned => exact hk hsigned
    · exact h
  · next caller admin bps =>
    intro hk
    rw [step_setKeeperReward]
    split
    · next hsigned => exact hk hsigned
    · exact h
  · next hpenalty hreward =>
    intro _
    exact (ordered_congr (rates_of_step hw hpenalty hreward)).mpr h

theorem step_disordered (hk : ¬ KeepsOrder w a) : ¬ Ordered (step w a) := by
  revert hk
  fun_cases KeepsOrder w a
  · next caller admin bps =>
    intro hk
    obtain ⟨hsigned, hlt⟩ := Classical.not_imp.mp hk
    rwa [step_setLiquidationPenalty, if_pos hsigned]
  · next caller admin bps =>
    intro hk
    obtain ⟨hsigned, hlt⟩ := Classical.not_imp.mp hk
    rwa [step_setKeeperReward, if_pos hsigned]
  · intro hk
    exact absurd trivial hk

/-- Initialization is the one place where the two percentages are compared. -/
theorem deployed_ordered (h : Deployed w) : Ordered w := by
  obtain ⟨c, timestamp, usdc, h⟩ := h
  simp [deploy, initializeVault, initializeOracle, initializePositionManager, initializeEngine,
    PerpsFundingRate.initializeFunding, PerpsVault.setPositionManager, setLiquidationEngine,
    setFundingAddress] at h
  obtain ⟨-, -, -, -, hle, -, -, rfl⟩ := h
  exact hle

/-- The reward is at most the penalty, and so are the amounts of every liquidation, which do not
exceed what is left of the position. -/
structure RewardWithinPenalty (w : World N) : Prop where
  rates : w.engine.keeperReward ≤ w.engine.liquidationPenalty
  liquidation : ∀ (env : Env) keeper trader id asset w',
    (liquidate env keeper trader id asset).run w = .ok ((), w') →
      ∃ p price ratio penalty reward,
        w.positionManager.position.lookup (trader, id) = some p ∧ FreshPrice w p.asset price ∧
        w'.events.getLast? = some (.liquidation trader id keeper price ratio penalty reward) ∧
        0 ≤ reward ∧ reward ≤ penalty ∧ penalty ≤ p.collateral + pricePnl p price

theorem rewardWithinPenalty_iff (hi : SystemInvariant w) :
    RewardWithinPenalty w ↔ Ordered w := by
  constructor
  · intro h
    exact h.rates
  · intro h
    refine ⟨h, ?_⟩
    intro env keeper trader id asset w' hrun
    obtain ⟨-, p, price, usdc, hp, rfl, -, -, hg, -, rfl⟩ := liquidate_ok hrun
    have hcollateral : 0 < p.collateral := hi.books.collaterals _ _ hp
    have hcap := neg_collateral_le_pricePnl p price
    refine ⟨p, price, marginRatio p price, _, _, hp, hg.fresh, by simp; exact ⟨rfl, rfl⟩, ?_, ?_, ?_⟩
    · exact share_nonneg hcollateral.le
    · exact share_mono hcollateral.le h
    · exact share_le_equity (by omega)

theorem reward_within_penalty_iff (hd : Deployed w₀) (hr : Run (fun _ _ => True) w₀ as) :
    (∀ bs, bs <+: as → RewardWithinPenalty (ActionRuns.runActions step w₀ bs)) ↔
      ActionRuns.Along step KeepsOrder w₀ as := by
  have hiff : ∀ bs, bs <+: as → (RewardWithinPenalty (ActionRuns.runActions step w₀ bs) ↔
      Ordered (ActionRuns.runActions step w₀ bs)) := by
    intro bs hbs
    exact rewardWithinPenalty_iff (run_invariant (hr.of_prefix hbs) (deployed_invariant hd))
  rw [forall₂_congr hiff]
  apply ActionRuns.all_prefixes_iff SystemInvariant Ordered _ _ _ hr (deployed_invariant hd)
    (deployed_ordered hd)
  · intro w a hi ⟨hk, _⟩
    exact step_invariant hi hk
  · intro w a hi _ h hq
    exact step_ordered hi.wired h hq
  · intro w a _ _ hq
    exact step_disordered hq

def setPenalty (bps : ℕ) : Action harness := byAdmin (.engine (.setLiquidationPenalty ⟨10⟩ bps))

def setReward (bps : ℕ) : Action harness := byAdmin (.engine (.setKeeperReward ⟨10⟩ bps))

theorem reward_within_penalty_lowered : RewardWithinPenalty
    (ActionRuns.runActions step harnessStart [setPenalty 100, setReward 100]) := by
  have hkeeps : ∀ a ∈ [setPenalty 100, setReward 100], KeepsWiring a := by decide
  have hiff := reward_within_penalty_iff deployed_harness (run_of_actions hkeeps)
  exact hiff.mpr (by decide +kernel) _ (List.prefix_refl _)

/-- Nothing stops the admin from a reward of three percent over a penalty of two and a half. -/
theorem reward_exceeds_penalty : ¬ ∀ (N : Network) (w₀ : World N) (as : List (Action N)),
    Deployed w₀ → (∀ a ∈ as, KeepsWiring a) →
      RewardWithinPenalty (ActionRuns.runActions step w₀ as) := by
  intro h
  have hrates := (h harness harnessStart [setReward 300] deployed_harness (by decide)).rates
  revert hrates
  decide +kernel

end Order

section Payments

variable {w w' : World N} {caller : Caller N} {keeper trader : Address} {id asset : ℕ}
  {p : Position} {price mark ratio penalty reward : ℤ}

/-- The keeper gets the reward, the trader what is left after the penalty, and the vault pays
both, so that the rest of the penalty stays with it. -/
structure PaysAsAnnounced (w w' : World N) (keeper trader : Address)
    (equity penalty reward : ℤ) : Prop where
  accounts : ∀ account, account ∉ N.contracts → received w w' account =
    (if account = keeper then reward else 0) + if account = trader then equity - penalty else 0
  vault : received w w' N.vault = -(equity - penalty + reward)

def NothingCharged (w : World N) (p : Position) (price : ℤ) : Prop :=
  p.collateral + rawPnl p price ≤ 0 ∨
    (p.collateral * w.engine.liquidationPenalty < 10000 ∧
      p.collateral * w.engine.keeperReward < 10000)

def EqualCharges (w : World N) (p : Position) (price : ℤ) : Prop :=
  min (p.collateral * w.engine.liquidationPenalty / 10000) (p.collateral + rawPnl p price) =
    min (p.collateral * w.engine.keeperReward / 10000) (p.collateral + rawPnl p price)

theorem received_of_liquidation (hT : N.token.Exact)
    (hp : w.positionManager.position.lookup (trader, id) = some p)
    (hprice : FreshPrice w p.asset price)
    (h : (liquidate caller.env keeper trader id asset).run w = .ok ((), w')) (account : Address) :
    received w w' account =
      (if account = trader then p.collateral + pricePnl p price else 0) -
        if account = N.vault then p.collateral + pricePnl p price else 0 := by
  obtain ⟨-, q, price', usdc, hq, -, -, -, hg, hpaid, rfl⟩ := liquidate_ok h
  obtain rfl : p = q := Option.mem_unique hp hq
  obtain rfl := hprice.unique hg.fresh
  have hcap := neg_collateral_le_pricePnl p price
  simp only [received, World.usdcBalance, hpaid.balance hT account, sub_zero,
    max_eq_right (by omega : 0 ≤ p.collateral + pricePnl p price)]
  omega

theorem announced_of_event (hp : w.positionManager.position.lookup (trader, id) = some p)
    (hprice : FreshPrice w p.asset price)
    (h : (liquidate caller.env keeper trader id asset).run w = .ok ((), w'))
    (hevent : w'.events.getLast? =
      some (.liquidation trader id keeper mark ratio penalty reward)) :
    penalty = share p.collateral (p.collateral + pricePnl p price) w.engine.liquidationPenalty ∧
      reward = share p.collateral (p.collateral + pricePnl p price) w.engine.keeperReward := by
  obtain ⟨-, q, price', usdc, hq, -, -, -, hg, -, rfl⟩ := liquidate_ok h
  obtain rfl : p = q := Option.mem_unique hp hq
  obtain rfl := hprice.unique hg.fresh
  simp at hevent
  exact ⟨hevent.2.2.1.symm, hevent.2.2.2.symm⟩

/-- Since the trader got all of it already, the event tells the truth only when it announces as
much for the keeper as it takes from the trader, and nothing for a keeper who is not the trader. -/
theorem pays_as_announced_amounts_iff (hT : N.token.Exact) (hi : SystemInvariant w)
    (hp : w.positionManager.position.lookup (trader, id) = some p)
    (hprice : FreshPrice w p.asset price)
    (h : (liquidate caller.env keeper trader id asset).run w = .ok ((), w')) :
    PaysAsAnnounced w w' keeper trader (p.collateral + pricePnl p price) penalty reward ↔
      penalty = reward ∧ (keeper = trader ∨ reward = 0) := by
  have hreceived := received_of_liquidation hT hp hprice h
  have hkeeper : keeper ∉ N.contracts := caller.outside _ (liquidate_ok h).1
  have htrader : trader ∉ N.contracts := trader_outside hi hp
  have hvault : N.vault ≠ trader := fun heq => htrader (heq ▸ vault_contract)
  constructor
  · intro hpays
    have hpaid := hpays.vault
    rw [hreceived, if_neg hvault, if_pos rfl] at hpaid
    refine ⟨by omega, ?_⟩
    by_cases hsame : keeper = trader
    · exact .inl hsame
    · right
      have hne : keeper ≠ N.vault := fun heq => hkeeper (heq ▸ vault_contract)
      have hearned := hpays.accounts keeper hkeeper
      rw [hreceived, if_neg hsame, if_neg hne, if_pos rfl, if_neg hsame] at hearned
      omega
  · rintro ⟨rfl, hsame⟩
    constructor
    · intro account hout
      have hne : account ≠ N.vault := fun heq => hout (heq ▸ vault_contract)
      rw [hreceived, if_neg hne]
      rcases hsame with rfl | rfl
      · split <;> omega
      · split <;> split <;> omega
    · rw [hreceived, if_neg hvault, if_pos rfl]
      omega

theorem pays_as_announced_iff (hT : N.token.Exact) (hr : Reachable w)
    (hp : w.positionManager.position.lookup (trader, id) = some p)
    (hprice : FreshPrice w p.asset price)
    (h : (liquidate caller.env keeper trader id asset).run w = .ok ((), w'))
    (hevent : w'.events.getLast? =
      some (.liquidation trader id keeper mark ratio penalty reward)) :
    PaysAsAnnounced w w' keeper trader (p.collateral + pricePnl p price) penalty reward ↔
      NothingCharged w p price ∨ (keeper = trader ∧ EqualCharges w p price) := by
  have hi := reachableVia_invariant hr
  have hcollateral : 0 ≤ p.collateral := (hi.books.collaterals _ _ hp).le
  have hleft : p.collateral + pricePnl p price ≤ 0 ↔ p.collateral + rawPnl p price ≤ 0 := by
    rw [nothing_left_iff]
    omega
  obtain ⟨rfl, rfl⟩ := announced_of_event hp hprice h hevent
  rw [pays_as_announced_amounts_iff hT hi hp hprice h, share_eq_share_iff hcollateral,
    share_eq_zero_iff hcollateral, hleft]
  unfold NothingCharged EqualCharges
  by_cases hnone : p.collateral + rawPnl p price ≤ 0
  · simp [hnone]
  · -- something is left, so the loss is not capped
    have huncapped : pricePnl p price = rawPnl p price := by
      rw [pricePnl, if_neg (by omega)]
    have hpenalty : 0 ≤ p.collateral * w.engine.liquidationPenalty :=
      mul_nonneg hcollateral (Int.natCast_nonneg _)
    have hreward : 0 ≤ p.collateral * w.engine.keeperReward :=
      mul_nonneg hcollateral (Int.natCast_nonneg _)
    simp only [hnone, false_or, huncapped]
    constructor
    · rintro ⟨heq, hsame | hsmall⟩
      · exact .inr ⟨hsame, heq⟩
      · left
        omega
    · rintro (⟨hsmall, hsmall'⟩ | ⟨hsame, heq⟩)
      · exact ⟨by omega, .inr hsmall'⟩
      · exact ⟨heq, .inl hsame⟩

/-- The fallen long leaves 20 USDC, of which 2.5 are announced as penalty and 0.5 as reward. -/
theorem fallenLong_announces : ∃ w', (liquidate harnessKeeper.env ⟨13⟩ ⟨12⟩ 1 0).run fallenLong =
      .ok ((), w') ∧ w'.events.getLast? =
        some (.liquidation ⟨12⟩ 1 ⟨13⟩ 9200000000 200 25000000 5000000) := by
  obtain ⟨⟨_, w'⟩, h, hevent⟩ := result_of_toOption
    (x := (liquidate harnessKeeper.env ⟨13⟩ ⟨12⟩ 1 0).run fallenLong)
    (g := fun r => r.2.events.getLast?)
    (b := some (.liquidation ⟨12⟩ 1 ⟨13⟩ 9200000000 200 25000000 5000000)) (by decide +kernel)
  exact ⟨w', h, hevent⟩

theorem pays_as_announced_fallenLong : ∃ w',
    (liquidate harnessKeeper.env ⟨13⟩ ⟨12⟩ 1 0).run fallenLong = .ok ((), w') ∧
    (PaysAsAnnounced fallenLong w' ⟨13⟩ ⟨12⟩ (1000000000 + pricePnl storedLong 9200000000)
        25000000 5000000 ↔
      NothingCharged fallenLong storedLong 9200000000 ∨
        ((⟨13⟩ : Address) = ⟨12⟩ ∧ EqualCharges fallenLong storedLong 9200000000)) := by
  obtain ⟨w', h, hevent⟩ := fallenLong_announces
  exact ⟨w', h, pays_as_announced_iff ledgerToken_exact fallenLong_reachable fallenLong_stored
    fallenLong_fresh h hevent⟩

theorem fallenLong_keeper_unpaid : ¬ ∀ N : Network, N.token.Exact → ∀ w w' : World N,
    Reachable w → ∀ (caller : Caller N) keeper trader id p mark ratio penalty reward,
      w.positionManager.position.lookup (trader, id) = some p → FreshPrice w p.asset mark →
      (liquidate caller.env keeper trader id p.asset).run w = .ok ((), w') →
      w'.events.getLast? =
        some (.liquidation trader id keeper mark ratio penalty reward) →
      PaysAsAnnounced w w' keeper trader (p.collateral + pricePnl p mark) penalty reward := by
  intro hclaim
  obtain ⟨w', h, hevent⟩ := fallenLong_announces
  have hpays := hclaim harness ledgerToken_exact fallenLong w' fallenLong_reachable harnessKeeper
    ⟨13⟩ ⟨12⟩ 1 storedLong _ _ _ _ fallenLong_stored fallenLong_fresh h hevent
  obtain ⟨hequal, -⟩ := (pays_as_announced_amounts_iff ledgerToken_exact
    (reachableVia_invariant fallenLong_reachable) fallenLong_stored fallenLong_fresh h).mp hpays
  omega

end Payments

end PerpsLiquidationRates
