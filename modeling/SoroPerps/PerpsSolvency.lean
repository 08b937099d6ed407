import SoroPerps.PerpsSystemInvariant

/-! # Open interest, backing and the accounting identity

The vault's USDC balance is moved by token transfers, its deposits and the collateral of the open
positions by arithmetic in two contracts. The journal of a run tells how far the two agree. -/
namespace PerpsSolvency

open SorobanHost PerpsTypes PerpsVault PerpsOracleAdapter PerpsPositionManager
open PerpsLiquidationEngine PerpsSystem PerpsVaultInvariant PoolBooks FinmapSums
open PerpsSystemInvariant

variable {N : Network}

section OpenInterest

/-- The three counters of two contracts say what the stored positions say, and settling a stored
position never finds too little liquidity locked. Where it ends with that error's number all the
same, the token refused the payout under it. -/
structure InterestAgrees (w : World N) : Prop where
  long : w.positionManager.openInterestLong =
    sumBy (fun _ p => sizeOn .Long p) w.positionManager.position
  short : w.positionManager.openInterestShort =
    sumBy (fun _ p => sizeOn .Short p) w.positionManager.position
  locked : w.vault.lockedLiquidity =
    w.positionManager.openInterestLong + w.positionManager.openInterestShort
  unlocks : ∀ key p, w.positionManager.position.lookup key = some p →
    0 ≤ w.vault.lockedLiquidity - p.size
  close : ∀ env trader id asset,
    (closePosition env trader id asset : Contract N ℤ).run w =
      .error (.contract .OverflowError) →
      ∃ payout, PayoutRefused N w.usdc trader payout .OverflowError
  liquidate : ∀ env keeper trader id asset,
    (liquidate env keeper trader id asset : Contract N Unit).run w =
      .error (.contract .OverflowError) →
      ∃ payout, PayoutRefused N w.usdc trader payout .OverflowError

variable {w : World N} {trader : Address} {id : ℕ}

theorem refused_payout (hi : SystemInvariant w) {p : Position} {price fee : ℤ}
    (hp : w.positionManager.position.lookup (trader, id) = some p)
    (h : SettlementRefused w trader p price fee .OverflowError) :
    ∃ payout, PayoutRefused N w.usdc trader payout .OverflowError := by
  rcases h with ⟨-, hlt⟩ | ⟨he, -⟩ | ⟨-, hrefused⟩
  · exact absurd (hi.size_le_locked hp) (not_le.mpr hlt)
  · cases he
  · exact ⟨_, hrefused⟩

theorem open_interest_agrees (h : Reachable w) : InterestAgrees w := by
  have hi := reachableVia_invariant h
  constructor
  · simp only [sizeOn_long]
    exact hi.books.long
  · simp only [sizeOn_short]
    exact hi.books.short
  · exact hi.books.locked
  · intro key p hp
    exact Int.sub_nonneg_of_le (hi.size_le_locked hp)
  · intro env trader id asset hclose
    obtain ⟨p, price, hp, -, hrefused⟩ := settlementRefused_of_close hi.wired (.inl rfl) hclose
    exact refused_payout hi hp hrefused
  · intro env keeper trader id asset hliquidate
    obtain ⟨p, price, hp, -, hrefused⟩ :=
      settlementRefused_of_liquidate hi.wired (.inl rfl) hliquidate
    exact refused_payout hi hp hrefused

theorem open_interest_agrees_open : InterestAgrees (ActionRuns.runActions step harnessStart
    [postPrice 0 10000000000, provide 1000000000000, openLong 0 1000000000 10]) :=
  open_interest_agrees (reachable_of_actions deployed_harness (by decide))

end OpenInterest

section Cash

variable {w w' : World N} {a : Action N} {e : JournalEntry}

theorem vault_contract : N.vault ∈ N.contracts := by simp [Network.contracts]

theorem balance_received (hT : N.token.Exact) {src : Address} {amount : ℤ}
    {s s' : N.token.State} (ht : N.token.transfer s src N.vault amount = .ok s')
    (hsrc : src ∉ N.contracts) :
    N.token.balance s' N.vault = N.token.balance s N.vault + amount := by
  have hne : N.vault ≠ src := by
    intro h
    exact hsrc (h ▸ vault_contract)
  rw [hT.moved _ _ _ _ _ ht, if_neg hne, if_pos rfl]
  omega

theorem balance_paid (hT : N.token.Exact) {dst : Address} {amount : ℤ} {s s' : N.token.State}
    (ht : N.token.transfer s N.vault dst amount = .ok s') (hdst : dst ∉ N.contracts) :
    N.token.balance s' N.vault = N.token.balance s N.vault - amount := by
  have hne : N.vault ≠ dst := by
    intro h
    exact hdst (h ▸ vault_contract)
  rw [hT.moved _ _ _ _ _ ht, if_pos rfl, if_neg hne]
  omega

theorem balance_paidOut (hT : N.token.Exact) {dst : Address} {amount : ℤ} {s s' : N.token.State}
    (ht : PaidOut N s dst amount s') (hdst : dst ∉ N.contracts) :
    N.token.balance s' N.vault = N.token.balance s N.vault - max 0 amount := by
  have hne : N.vault ≠ dst := by
    intro h
    exact hdst (h ▸ vault_contract)
  rw [ht.balance hT, if_pos rfl, if_neg hne, add_zero]

theorem effect_cash (hT : N.token.Exact) (hi : SystemInvariant w) (h : Effect w a e w') :
    w'.usdcBalance N.vault = w.usdcBalance N.vault + inflow stake e := by
  cases h with
  | quiet h => simp [World.usdcBalance, inflow, h.usdc]
  | @transferred src dst amount usdc hsrc ht =>
    simp only [World.usdcBalance]
    by_cases hdst : dst = N.vault
    · subst hdst
      rw [if_pos rfl]
      exact balance_received hT ht (Action.outside hsrc)
    · have hne : N.vault ≠ src := by
        intro h
        exact Action.outside hsrc (h ▸ vault_contract)
      rw [hT.moved _ _ _ _ _ ht, if_neg hne, if_neg (Ne.symm hdst), if_neg hdst]
      simp [inflow]
  | deposited hauth ha hm hs hf ht => exact balance_received hT ht (Action.outside hauth)
  | withdrawn hauth hs hbal hr ha hf hutil hempty ht =>
    exact balance_paid hT ht (Action.outside hauth)
  | opened hauth hp hg ht => exact balance_received hT ht (Action.outside hauth)
  | closed hauth hp hg ht => exact balance_paidOut hT ht (Action.outside hauth)
  | liquidated hauth hp hlow hg ht =>
    have hr := hi.register _ _ hp
    have hout := hr.outside
    rw [hr.trader] at hout
    simpa [World.usdcBalance, inflow, stake, Int.sub_eq_add_neg] using balance_paidOut hT ht hout

end Cash

section Backing

def totalCollateral (w : World N) : ℤ :=
  sumBy (fun _ p => p.collateral) w.positionManager.position

def surplus (w : World N) : ℤ :=
  w.usdcBalance N.vault - w.vault.totalDeposits - totalCollateral w

def Backed (w : World N) : Prop :=
  w.vault.totalDeposits + totalCollateral w ≤ w.usdcBalance N.vault

variable {w w' w₀ : World N} {a : Action N} {as bs : List (Action N)}
  {Q : World N → Action N → Prop}

theorem step_surplus (hT : N.token.Exact) (hi : SystemInvariant w) (hk : KeepsWiring a) :
    surplus (step w a) =
      surplus w + (gift (entryOf w a) - shortfall stake (entryOf w a)) := by
  have hcash := effect_cash hT hi (step_effect hi.wired hk)
  have howed : owed stake (booksOf (step w a)) = _ :=
    step_books hi hk ▸ owed_post (step_posts hi hk)
  simp only [owed, openCollateral, booksOf, stake] at howed
  simp only [surplus, totalCollateral]
  omega

theorem run_surplus (hT : N.token.Exact) (hr : Run Q w as) (hi : SystemInvariant w) :
    surplus (ActionRuns.runActions step w as) = surplus w +
      ((ActionRuns.journal step entryOf w as).map fun e => gift e - shortfall stake e).sum :=
  ActionRuns.run_sum surplus (fun e => gift e - shortfall stake e)
    (fun _ _ hi h => ⟨step_invariant hi h.1, step_surplus hT hi h.1⟩) hr hi

theorem deployed_surplus (hd : Deployed w₀) : surplus w₀ = w₀.usdcBalance N.vault := by
  have hb := (deployed_fresh hd).2.1
  have htd : w₀.vault.totalDeposits = 0 := congrArg Books.deposits hb
  have hpos : w₀.positionManager.position = ∅ := congrArg Books.positions hb
  simp [surplus, totalCollateral, htd, hpos]

theorem gift_nonneg {e : JournalEntry} (hT : N.token.Exact) (h : Effect w a e w') :
    0 ≤ gift e := by
  cases h with
  | transferred hsrc ht =>
    split
    · exact hT.amount_nonneg _ _ _ _ _ ht
    · exact le_refl 0
  | _ => exact le_refl 0

/-- A close charges no more than the position has left. -/
def FeeCovered : JournalEntry → Prop
  | .closed _ p pnl fee => fee ≤ p.collateral + pnl
  | _ => True

instance : ∀ e : JournalEntry, Decidable (FeeCovered e)
  | .closed _ p pnl fee => inferInstanceAs (Decidable (fee ≤ p.collateral + pnl))
  | .quiet | .given _ | .deposit .. | .withdraw .. | .opened .. | .liquidated .. => isTrue trivial

theorem shortfall_of_covered {e : JournalEntry} (h : FeeCovered e) : shortfall stake e = 0 := by
  cases e with
  | closed key p pnl fee =>
    have hle : fee ≤ p.collateral + pnl := h
    simp only [shortfall, stake]
    omega
  | _ => rfl

structure Solvent (w : World N) : Prop where
  invariant : SystemInvariant w
  surplus : 0 ≤ surplus w

theorem step_solvent (hT : N.token.Exact) (h : Solvent w) (hk : KeepsWiring a)
    (hc : FeeCovered (entryOf w a)) : Solvent (step w a) := by
  refine ⟨step_invariant h.invariant hk, ?_⟩
  have hgift := gift_nonneg hT (step_effect h.invariant.wired hk)
  have hstart := h.surplus
  rw [step_surplus hT h.invariant hk, shortfall_of_covered hc]
  omega

/-- In every run from deployment whose closes charge no more than the position has left, the
vault stays backed. -/
theorem backed_of_fees_covered (hT : N.token.Exact) (hd : Deployed w₀)
    (hr : Run (fun w a => FeeCovered (entryOf w a)) w₀ as) :
    ∀ bs, bs <+: as → Backed (ActionRuns.runActions step w₀ bs) := by
  intro bs hbs
  have hstart : Solvent w₀ := by
    constructor
    · exact deployed_invariant hd
    · rw [deployed_surplus hd]
      exact hT.balance_nonneg _ _
  have hfinal : Solvent (ActionRuns.runActions step w₀ bs) := by
    apply ActionRuns.invariant_run _ (hr.of_prefix hbs) hstart
    intro w a h ⟨hk, hc⟩
    exact step_solvent hT h hk hc
  have hsurplus := hfinal.surplus
  simp only [PerpsSolvency.surplus] at hsurplus
  simp only [Backed]
  omega

/-- A long closed at the price it was opened at, which leaves enough to charge the fee. -/
def coveredClose : List (Action harness) :=
  [postPrice 0 10000000000, provide 1000000000000, openLong 0 1000000000 10, close 1 0]

theorem backed_coveredClose : Backed (ActionRuns.runActions step harnessStart coveredClose) :=
  backed_of_fees_covered ledgerToken_exact deployed_harness
    (run_iff.mpr ⟨by decide, by decide +kernel⟩) _ (List.prefix_refl _)

/-- The harness scenario of a loss beyond the collateral: at half the entry price nothing is
left of the position, and the close fee enters the deposits unpaid. -/
def cappedLoss : List (Action harness) :=
  [postPrice 0 10000000000, provide 1000000000000, openLong 0 1000000000 10,
    postPrice 0 5000000000, close 1 0]

theorem cappedLoss_unbacked : ¬ ∀ N : Network, N.token.Exact → ∀ w : World N,
    Reachable w → Backed w := by
  intro h
  have hb := h harness ledgerToken_exact _
    (reachable_of_actions deployed_harness (by decide : ∀ a ∈ cappedLoss, KeepsWiring a))
  revert hb
  unfold Backed
  decide +kernel

end Backing

section Identity

variable {w w' w₀ : World N} {a : Action N} {as : List (Action N)}

def NoDirectTransfer : Action N → Prop
  | .invoke _ (.transferUsdc _ dst _) => dst ≠ N.vault
  | _ => True

instance : ∀ a : Action N, Decidable (NoDirectTransfer a)
  | .invoke _ (.transferUsdc _ dst _) => inferInstanceAs (Decidable (dst ≠ N.vault))
  | .invoke _ (.vault _) | .invoke _ (.oracle _) | .invoke _ (.positionManager _)
  | .invoke _ (.engine _) | .invoke _ (.funding _) | .advance _ | .expirePrice _ => isTrue trivial

/-- The calls of liquidity providers, of traders opening and of keepers. -/
def KeepsSurplus : PerpsSystem.Call → Prop
  | .vault (.deposit ..) | .vault (.withdraw ..) => True
  | .positionManager (.openPosition ..) | .engine (.liquidate ..) => True
  | _ => False

theorem gift_of_noDirectTransfer (h : NoDirectTransfer a) : gift (entryOf w a) = 0 := by
  cases a with
  | invoke caller call =>
    have hpost : gift (postingOf w call) = 0 := by
      fun_cases postingOf w call
      case case9 => exact absurd rfl h
      all_goals rfl
    simp only [entryOf]
    split
    · exact hpost
    · rfl
  | advance seconds => rfl
  | expirePrice asset => rfl

theorem keepsWiring_of_keepsSurplus {caller : Caller N} {call : PerpsSystem.Call}
    (h : KeepsSurplus call) : KeepsWiring (.invoke caller call) := by
  cases call with
  | vault call => cases call <;> trivial
  | positionManager call => cases call <;> trivial
  | _ => trivial

theorem entry_of_keepsSurplus {caller : Caller N} {call : PerpsSystem.Call}
    (h : KeepsSurplus call) :
    gift (entryOf w (.invoke caller call)) = 0 ∧
      shortfall stake (entryOf w (.invoke caller call)) = 0 := by
  have hpost : gift (postingOf w call) = 0 ∧ shortfall stake (postingOf w call) = 0 := by
    fun_cases postingOf w call
    case case5 | case9 => exact h.elim
    all_goals exact ⟨rfl, rfl⟩
  simp only [entryOf]
  split
  · exact hpost
  · exact ⟨rfl, rfl⟩

/-- The unpaid part of close fees so far, and the close fees charged so far. -/
def totalShortfall (w₀ : World N) (as : List (Action N)) : ℤ :=
  ((ActionRuns.journal step entryOf w₀ as).map (shortfall stake)).sum

def totalCloseFees (w₀ : World N) (as : List (Action N)) : ℤ :=
  ((ActionRuns.journal step entryOf w₀ as).map feeCharged).sum

theorem run_shortfall (hT : N.token.Exact) (hr : Run (fun _ a => NoDirectTransfer a) w as)
    (hi : SystemInvariant w) :
    -surplus (ActionRuns.runActions step w as) = -surplus w + totalShortfall w as := by
  apply ActionRuns.run_sum (fun w => -surplus w) (shortfall stake) _ hr hi
  intro w a hi ⟨hk, hdirect⟩
  constructor
  · exact step_invariant hi hk
  · rw [step_surplus hT hi hk, gift_of_noDirectTransfer hdirect]
    omega

theorem totalShortfall_le {Q : World N → Action N → Prop} (hr : Run Q w as)
    (hi : SystemInvariant w) : totalShortfall w as ≤ totalCloseFees w as := by
  apply List.sum_le_sum
  apply ActionRuns.journal_forall (R := fun e => shortfall stake e ≤ feeCharged e) _ hr hi
  intro w a hi ⟨hk, _⟩
  constructor
  · exact step_invariant hi hk
  · exact shortfall_le_feeCharged (step_posts hi hk)

/-- Every stroop of the vault is accounted for: after the run it holds what it owes, less the
close fees that nobody paid. -/
structure AccountsFor (w₀ : World N) (as : List (Action N)) : Prop where
  balance : (ActionRuns.runActions step w₀ as).usdcBalance N.vault =
    (ActionRuns.runActions step w₀ as).vault.totalDeposits +
      totalCollateral (ActionRuns.runActions step w₀ as) - totalShortfall w₀ as
  kept : ∀ caller call, KeepsSurplus call →
    surplus (step (ActionRuns.runActions step w₀ as) (.invoke caller call)) =
      surplus (ActionRuns.runActions step w₀ as)
  bounded : totalShortfall w₀ as ≤ totalCloseFees w₀ as

theorem accounting_identity (hT : N.token.Exact) (hd : Deployed w₀)
    (hempty : w₀.usdcBalance N.vault = 0) (hr : Run (fun _ a => NoDirectTransfer a) w₀ as) :
    AccountsFor w₀ as := by
  have hi := deployed_invariant hd
  constructor
  · have hrun := run_shortfall hT hr hi
    rw [deployed_surplus hd, hempty] at hrun
    simp only [surplus] at hrun
    omega
  · intro caller call hcall
    have hend := run_invariant hr hi
    obtain ⟨hgift, hshort⟩ := entry_of_keepsSurplus hcall
    rw [step_surplus hT hend (keepsWiring_of_keepsSurplus hcall), hgift, hshort]
    omega
  · exact totalShortfall_le hr hi

theorem accounting_identity_cappedLoss : AccountsFor harnessStart cappedLoss :=
  accounting_identity ledgerToken_exact deployed_harness (by decide +kernel)
    (run_iff.mpr ⟨by decide, by decide +kernel⟩)

end Identity

end PerpsSolvency
