import SoroPerps.PerpsSolvency

/-! # Nobody's assets move without their authorization

Shares, USDC and positions of an account are touched only by calls it signed. Liquidation is the
one exception, and it reaches no further than one position below maintenance. -/
namespace PerpsAuthority

open SorobanHost PerpsTypes PerpsVault PerpsOracleAdapter PerpsPositionManager
open PerpsLiquidationEngine PerpsSystem PoolBooks FinmapSums PerpsSystemInvariant PerpsSolvency

variable {N : Network}

def SamePositions (holder : Address) (w w' : World N) : Prop :=
  ∀ id, w'.positionManager.position.lookup (holder, id) =
    w.positionManager.position.lookup (holder, id)

/-- The action is a liquidation that took one position of `holder`, below the maintenance margin
at the current price of its own asset, and left the others alone. -/
structure LiquidatedOne (holder : Address) (w w' : World N) (a : Action N) (id : ℕ) (p : Position)
    (price : ℤ) : Prop where
  call : ∃ caller keeper, a = .invoke caller (.engine (.liquidate keeper holder id p.asset))
  stored : w.positionManager.position.lookup (holder, id) = some p
  fresh : FreshPrice w p.asset price
  below : marginRatio p price < w.engine.maintenanceMarginRate
  removed : w'.positionManager.position.lookup (holder, id) = none
  others : ∀ id', id' ≠ id → w'.positionManager.position.lookup (holder, id') =
    w.positionManager.position.lookup (holder, id')

structure AssetsKept (holder : Address) (w w' : World N) (a : Action N) : Prop where
  shares : getShareBalance w'.vault holder = getShareBalance w.vault holder
  usdc : w.usdcBalance holder ≤ w'.usdcBalance holder
  positions : SamePositions holder w w' ∨
    ∃ id p price, LiquidatedOne holder w w' a id p price

variable {w w' : World N} {a : Action N} {e : JournalEntry} {holder : Address}

theorem balance_le_of_transfer (hT : N.token.Exact) {src dst : Address} {amount : ℤ}
    {s s' : N.token.State} (ht : N.token.transfer s src dst amount = .ok s')
    (hsrc : holder ≠ src) : N.token.balance s holder ≤ N.token.balance s' holder := by
  have hamount := hT.amount_nonneg _ _ _ _ _ ht
  rw [hT.moved _ _ _ _ _ ht, if_neg hsrc]
  split
  · omega
  · omega

theorem balance_le_of_paidOut (hT : N.token.Exact) {dst : Address} {amount : ℤ}
    {s s' : N.token.State} (ht : PaidOut N s dst amount s') (hout : holder ∉ N.contracts) :
    N.token.balance s holder ≤ N.token.balance s' holder := by
  have hne : holder ≠ N.vault := by
    rintro rfl
    exact hout vault_contract
  rw [ht.balance hT, if_neg hne]
  split
  · omega
  · omega

theorem effect_usdc (hT : N.token.Exact) (hout : holder ∉ N.contracts)
    (hauth : ¬ a.Authorized holder) (h : Effect w a e w') :
    w.usdcBalance holder ≤ w'.usdcBalance holder := by
  have hpayer : ∀ src, a.Authorized src → holder ≠ src := by
    rintro src hsrc rfl
    exact hauth hsrc
  cases h with
  | quiet h => simp [World.usdcBalance, h.usdc]
  | transferred hsrc ht => exact balance_le_of_transfer hT ht (hpayer _ hsrc)
  | deposited hsrc _ _ _ _ ht => exact balance_le_of_transfer hT ht (hpayer _ hsrc)
  | withdrawn _ _ _ _ _ _ _ _ ht =>
    apply balance_le_of_transfer hT ht
    rintro rfl
    exact hout vault_contract
  | opened hsrc _ _ ht => exact balance_le_of_transfer hT ht (hpayer _ hsrc)
  | closed _ _ _ ht => exact balance_le_of_paidOut hT ht hout
  | liquidated _ _ _ _ ht => exact balance_le_of_paidOut hT ht hout

theorem liquidate_of_entry {key : PositionKey} {p : Position} {pnl : ℤ}
    (h : entryOf w a = .liquidated key p pnl) : ∃ caller keeper asset w',
      a = .invoke caller (.engine (.liquidate keeper key.1 key.2 asset)) ∧
        (liquidate caller.env keeper key.1 key.2 asset).run w = .ok ((), w') := by
  cases a with
  | invoke caller call =>
    simp only [entryOf] at h
    split at h
    · next result hrun =>
      revert h
      fun_cases postingOf w call
      case case7 keeper trader id asset q price hq hprice =>
        intro h
        cases h
        exact ⟨caller, keeper, asset, result.2, rfl, hrun⟩
      all_goals
        intro h
        cases h
    · cases h
  | advance seconds => cases h
  | expirePrice asset => cases h

theorem effect_positions (hauth : ¬ a.Authorized holder)
    (he : ∀ key p pnl, e ≠ .liquidated key p pnl) (h : Effect w a e w') :
    SamePositions holder w w' := by
  intro id
  cases h with
  | quiet h =>
    obtain ⟨_, _, _, _, hm⟩ := h.manager
    rw [hm]
  | @opened env p usdc hsrc hp hg ht =>
    apply Finmap.lookup_insert_of_ne
    intro hkey
    cases hkey
    exact hauth hsrc
  | @closed trader id' p price usdc hsrc hp hg ht =>
    apply Finmap.lookup_erase_ne
    intro hkey
    cases hkey
    exact hauth hsrc
  | liquidated => exact absurd rfl (he _ _ _)
  | _ => rfl

theorem liquidate_positions {caller : Caller N} {keeper trader : Address} {id asset : ℕ}
    (h : (liquidate caller.env keeper trader id asset).run w = .ok ((), w'))
    (ha : a = .invoke caller (.engine (.liquidate keeper trader id asset))) :
    SamePositions holder w w' ∨ ∃ id p price, LiquidatedOne holder w w' a id p price := by
  obtain ⟨-, p, price, usdc, hp, rfl, -, hlow, hg, -, rfl⟩ := liquidate_ok h
  by_cases hholder : holder = trader
  · subst hholder
    refine .inr ⟨id, p, price, ⟨caller, keeper, ha⟩, hp, hg.fresh, hlow, ?_, ?_⟩
    · exact Finmap.lookup_erase _ _
    · intro id' hne
      apply Finmap.lookup_erase_ne
      intro hkey
      cases hkey
      exact hne rfl
  · left
    intro id'
    apply Finmap.lookup_erase_ne
    intro hkey
    cases hkey
    exact hholder rfl

theorem step_positions (hi : SystemInvariant w) (hk : KeepsWiring a)
    (hauth : ¬ a.Authorized holder) : SamePositions holder w (step w a) ∨
      ∃ id p price, LiquidatedOne holder w (step w a) a id p price := by
  by_cases hliq : ∃ key p pnl, entryOf w a = .liquidated key p pnl
  · obtain ⟨key, p, pnl, he⟩ := hliq
    obtain ⟨caller, keeper, asset, w', ha, hrun⟩ := liquidate_of_entry he
    have hstep : step w a = w' := by
      rw [ha]
      simp [step, dispatch, PerpsLiquidationEngine.invoke, hrun]
    rw [hstep]
    exact liquidate_positions hrun ha
  · left
    apply effect_positions hauth _ (step_effect hi.wired hk)
    intro key p pnl he
    exact hliq ⟨key, p, pnl, he⟩

theorem assets_move_only_with_authorization (hT : N.token.Exact) (hr : Reachable w)
    (hout : holder ∉ N.contracts) (hk : KeepsWiring a) (hauth : ¬ a.Authorized holder) :
    AssetsKept holder w (step w a) a := by
  have hi := reachableVia_invariant hr
  have heff := step_effect hi.wired hk
  constructor
  · exact effect_shareBalance hauth heff
  · exact effect_usdc hT hout hauth heff
  · exact step_positions hi hk hauth

/-- A keeper liquidates a long of the trader after the price fell by eight percent. -/
theorem assets_kept_under_liquidation :
    let w := ActionRuns.runActions step harnessStart [postPrice 0 10000000000,
      provide 1000000000000, openLong 0 1000000000 10, postPrice 0 9200000000]
    AssetsKept ⟨12⟩ w (step w (orderLiquidation 1 0)) (orderLiquidation 1 0) := by
  intro w
  apply assets_move_only_with_authorization ledgerToken_exact
  · exact reachable_of_actions deployed_harness (by decide)
  · decide
  · decide
  · simp [orderLiquidation, signed, signedBy, Action.Authorized, Env.Authorized]

end PerpsAuthority
