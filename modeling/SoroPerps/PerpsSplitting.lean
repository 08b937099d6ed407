import SoroPerps.PerpsSystemInvariant

/-! # Splitting a deposit or a withdrawal

One liquidity provider makes several calls in a row, each priced at the totals the one before it
left, where a single call for their sum would do. -/
namespace PerpsSplitting

open SorobanHost PerpsTypes PerpsVault PerpsVaultInvariant PerpsSystem PerpsSystemInvariant
open SharePool

variable {N : Network}

/-- The shares withdrawn, each in a call of its own, and what all of them return. -/
def withdrawEach (depositor : Address) : List (Env × ℤ) → Contract N ℤ
  | [] => pure 0
  | (env, shares) :: calls => do
    let first ← withdraw env depositor shares
    let others ← withdrawEach depositor calls
    pure (first + others)

def depositEach (depositor : Address) : List (Env × ℤ) → Contract N ℤ
  | [] => pure 0
  | (env, amount) :: calls => do
    let first ← deposit env depositor amount
    let others ← depositEach depositor calls
    pure (first + others)

def pieces (calls : List (Env × ℤ)) : List ℤ := calls.map Prod.snd

def totalsOf (v : VaultStorage) : Totals := ⟨v.totalDeposits, v.totalShares⟩

section Pieces

variable {w w' : World N} {depositor : Address} {env : Env} {calls : List (Env × ℤ)}
  {amount shares total : ℤ}

theorem withdraw_redeems (hi : VaultInvariant w.vault)
    (h : (withdraw env depositor shares).run w = .ok (amount, w')) :
    redeemed (totalsOf w.vault) shares = amount ∧ 0 < shares ∧
      shares ≤ getShareBalance w.vault depositor ∧
      w'.vault = afterWithdraw w.vault depositor shares amount := by
  obtain ⟨-, hs, hbal, hred, -, -, -, -, -, usdc, -, rfl⟩ := withdraw_ok.mp h
  have hts : 0 < w.vault.totalShares := (hs.trans_le hbal).trans_le (hi.balance_le depositor)
  refine ⟨?_, hs, hbal, rfl⟩
  rw [← hred, redeemedAmount_eq hs.le hts hi.deposits, totalsOf]

theorem withdrawEach_redeems (hi : VaultInvariant w.vault)
    (h : (withdrawEach depositor calls).run w = .ok (total, w')) :
    redeemEach (totalsOf w.vault) (pieces calls) = total ∧ (∀ s ∈ pieces calls, 0 < s) ∧
      (pieces calls).sum ≤ getShareBalance w.vault depositor := by
  induction calls generalizing w total with
  | nil =>
    simp [withdrawEach] at h
    obtain ⟨rfl, -⟩ := h
    simpa [redeemEach, pieces] using hi.balances depositor
  | cons call calls ih =>
    simp [withdrawEach] at h
    obtain ⟨first, w₁, hfirst, others, hothers, rfl⟩ := h
    obtain ⟨hred, hs, hbal, hv⟩ := withdraw_redeems hi hfirst
    have hi₁ : VaultInvariant w₁.vault := hv ▸ hi.withdraw hbal (hi.withdraw_le hfirst)
    obtain ⟨hrest, hpos, hsum⟩ := ih hi₁ hothers
    have hleft : getShareBalance w₁.vault depositor =
        getShareBalance w.vault depositor - call.2 := by
      rw [hv, getShareBalance_of_insert rfl, if_pos rfl]
    refine ⟨?_, ?_, ?_⟩
    · have htotals : totalsOf w₁.vault = (totalsOf w.vault).withdraw call.2 first := by
        rw [hv]
        rfl
      simp only [pieces, List.map_cons, redeemEach, hred] at hrest ⊢
      rw [← htotals, hrest]
    · exact List.forall_mem_cons.mpr ⟨hs, hpos⟩
    · rw [hleft] at hsum
      simp only [pieces, List.map_cons, List.sum_cons] at hsum ⊢
      omega

theorem deposit_mints (hts : 0 < w.vault.totalShares) (htd : 0 < w.vault.totalDeposits)
    (h : (deposit env depositor amount).run w = .ok (shares, w')) :
    minted (totalsOf w.vault) amount = shares ∧ 0 < amount ∧ 0 < shares ∧
      w'.vault = afterDeposit w.vault depositor amount shares := by
  obtain ⟨-, ha, hmint, hs, -, -, -, usdc, -, rfl⟩ := deposit_ok.mp h
  refine ⟨?_, ha, hs, rfl⟩
  rw [← hmint, mintedShares_eq ha.le hts htd, totalsOf]

theorem depositEach_mints (hts : 0 < w.vault.totalShares) (htd : 0 < w.vault.totalDeposits)
    (h : (depositEach depositor calls).run w = .ok (total, w')) :
    mintEach (totalsOf w.vault) (pieces calls) = total ∧ ∀ a ∈ pieces calls, 0 < a := by
  induction calls generalizing w total with
  | nil =>
    simp [depositEach] at h
    obtain ⟨rfl, -⟩ := h
    simp [mintEach, pieces]
  | cons call calls ih =>
    simp [depositEach] at h
    obtain ⟨first, w₁, hfirst, others, hothers, rfl⟩ := h
    obtain ⟨hmint, ha, hs, hv⟩ := deposit_mints hts htd hfirst
    have hts₁ : 0 < w₁.vault.totalShares := by
      rw [hv]
      exact add_pos hts hs
    have htd₁ : 0 < w₁.vault.totalDeposits := by
      rw [hv]
      exact add_pos htd ha
    obtain ⟨hrest, hpos⟩ := ih hts₁ htd₁ hothers
    have htotals : totalsOf w₁.vault = (totalsOf w.vault).deposit call.2 first := by
      rw [hv]
      rfl
    constructor
    · simp only [pieces, List.map_cons, mintEach, hmint] at hrest ⊢
      rw [← htotals, hrest]
    · exact List.forall_mem_cons.mpr ⟨ha, hpos⟩

end Pieces

/-- Pieces never return or mint more than one call for their sum, and withdrawals lose at most
one unit for each piece but the first. -/
structure SplittingNeverGains (w : World N) : Prop where
  withdrawals : ∀ depositor calls total (w₁ : World N) env single (w₂ : World N),
    (withdrawEach depositor calls).run w = .ok (total, w₁) →
    (withdraw env depositor (pieces calls).sum).run w = .ok (single, w₂) →
      total ≤ single ∧ single - (calls.length - 1) ≤ total
  minted : ∀ depositor calls total (w₁ : World N),
    (depositEach depositor calls).run w = .ok (total, w₁) →
      total ≤ mintedShares (pieces calls).sum w.vault.totalShares w.vault.totalDeposits
  deposits : ∀ depositor calls total (w₁ : World N) env single (w₂ : World N),
    (depositEach depositor calls).run w = .ok (total, w₁) →
    (deposit env depositor (pieces calls).sum).run w = .ok (single, w₂) → total ≤ single

section Gains

variable {w : World N}

theorem withdrawals_never_gain (hi : VaultInvariant w.vault) {depositor : Address}
    {calls : List (Env × ℤ)} {total single : ℤ} {w₁ w₂ : World N} {env : Env}
    (heach : (withdrawEach depositor calls).run w = .ok (total, w₁))
    (hone : (withdraw env depositor (pieces calls).sum).run w = .ok (single, w₂)) :
    total ≤ single ∧ single - (calls.length - 1) ≤ total := by
  obtain ⟨hred, hs, hbal, -⟩ := withdraw_redeems hi hone
  obtain ⟨heach, hpos, -⟩ := withdrawEach_redeems hi heach
  have hle : (pieces calls).sum ≤ w.vault.totalShares := hbal.trans (hi.balance_le depositor)
  have hts : 0 < (totalsOf w.vault).shares := hs.trans_le hle
  have hne : pieces calls ≠ [] := by
    intro hnil
    rw [hnil] at hs
    simp at hs
  have hlen : (pieces calls).length = calls.length := List.length_map Prod.snd
  rw [← hred, ← heach, ← hlen]
  constructor
  · exact redeemEach_le hts hpos hle
  · exact redeemed_le_redeemEach hne hts hpos hle

theorem minted_never_gains (hts : 0 < w.vault.totalShares) (htd : 0 < w.vault.totalDeposits)
    {depositor : Address} {calls : List (Env × ℤ)} {total : ℤ} {w₁ : World N}
    (heach : (depositEach depositor calls).run w = .ok (total, w₁)) :
    total ≤ mintedShares (pieces calls).sum w.vault.totalShares w.vault.totalDeposits := by
  obtain ⟨heach, hpos⟩ := depositEach_mints hts htd heach
  have hnonneg : ∀ a ∈ pieces calls, 0 ≤ a := fun a ha => (hpos a ha).le
  rw [← heach, mintedShares_eq (List.sum_nonneg hnonneg) hts htd]
  exact mintEach_le hts htd hnonneg

theorem splitting_never_gains (h : VaultReachable w) (hts : 0 < w.vault.totalShares)
    (htd : 0 < w.vault.totalDeposits) : SplittingNeverGains w where
  withdrawals _ _ _ _ _ _ _ heach hone :=
    withdrawals_never_gain (reachable_invariant h) heach hone
  minted _ _ _ _ heach := minted_never_gains hts htd heach
  deposits _ _ _ _ _ _ _ heach hone := by
    obtain ⟨-, -, rfl, -⟩ := deposit_ok.mp hone
    exact minted_never_gains hts htd heach

end Gains

def providedVault : World harness :=
  ActionRuns.runActions step harnessStart [provide 1000000000]

theorem splitting_never_gains_provided : SplittingNeverGains providedVault := by
  have hreach : Reachable providedVault :=
    reachable_of_actions deployed_harness (by decide)
  have hv : providedVault.vault.totalShares = 1000000000 ∧
      providedVault.vault.totalDeposits = 1000000000 := by decide
  exact splitting_never_gains (reachableVia_invariant hreach).vaultReachable (by omega) (by omega)

end PerpsSplitting
