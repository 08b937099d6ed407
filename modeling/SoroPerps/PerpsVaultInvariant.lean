import SoroPerps.FinmapSums
import SoroPerps.SharePool
import SoroPerps.PerpsVault

/-! # What the vault keeps whoever calls it

The registered position manager is not trusted here: it may pass any sizes, profits and fees. -/
namespace PerpsVaultInvariant

open SorobanHost PerpsTypes PerpsVault FinmapSums SharePool

variable {N : Network}

structure VaultInvariant (v : VaultStorage) : Prop where
  initialized : v.admin.isSome
  shares : sumBy (fun _ balance => balance) v.shareBalance = v.totalShares
  balances : ∀ account, 0 ≤ getShareBalance v account
  deposits : 0 ≤ v.totalDeposits
  locked : 0 ≤ v.lockedLiquidity
  cap : v.maxUtilization ≤ BPS_DENOMINATOR

/-- A vault after initialization and any calls of anyone, whatever the rest of the ledger does
in between. -/
inductive VaultReachable : World N → Prop where
  | initialized {w w' : World N} {admin usdc : Address} {bps : ℕ} (h : w.vault = {})
      (hi : (initializeVault admin usdc bps).run w = .ok ((), w')) : VaultReachable w'
  | called {w w' : World N} {env : Env} {c : Call} (h : VaultReachable w)
      (hc : (invoke env c).run w = .ok ((), w')) : VaultReachable w'
  | elsewhere {w w' : World N} (h : VaultReachable w) (hv : w'.vault = w.vault) :
      VaultReachable w'

section Balances

variable {v : VaultStorage} {account other : Address} {amount shares size pnl fee x : ℤ}

theorem getShareBalance_of_insert {v v' : VaultStorage} {account : Address} {x : ℤ}
    (h : v'.shareBalance = v.shareBalance.insert account x) (other : Address) :
    getShareBalance v' other = if other = account then x else getShareBalance v other := by
  by_cases hother : other = account
  · subst hother
    rw [if_pos rfl, getShareBalance, h, Finmap.lookup_insert, Option.getD_some]
  · rw [if_neg hother, getShareBalance, h, Finmap.lookup_insert_of_ne _ hother, getShareBalance]

theorem sum_insert (v : VaultStorage) (account : Address) (x : ℤ) :
    sumBy (fun _ balance => balance) (v.shareBalance.insert account x) =
      sumBy (fun _ balance => balance) v.shareBalance + (x - getShareBalance v account) := by
  rw [sumBy_insert]
  unfold getShareBalance
  cases v.shareBalance.lookup account with
  | none => simp
  | some b =>
    simp only [Option.map_some, Option.getD_some]
    omega

theorem VaultInvariant.entry_nonneg (h : VaultInvariant v) (account : Address) (b : ℤ)
    (hb : v.shareBalance.lookup account = some b) : 0 ≤ b := by
  simpa [getShareBalance, hb] using h.balances account

theorem VaultInvariant.totalShares_nonneg (h : VaultInvariant v) : 0 ≤ v.totalShares := by
  rw [← h.shares]
  exact sumBy_nonneg h.entry_nonneg

theorem VaultInvariant.balance_le (h : VaultInvariant v) (account : Address) :
    getShareBalance v account ≤ v.totalShares := by
  cases hl : v.shareBalance.lookup account with
  | none => simpa [getShareBalance, hl] using h.totalShares_nonneg
  | some b =>
    rw [← h.shares]
    simpa [getShareBalance, hl] using le_sumBy h.entry_nonneg hl

end Balances

section Formulas

variable {amount shares ts td : ℤ}

theorem mintedShares_eq (ha : 0 ≤ amount) (hts : 0 < ts) (htd : 0 < td) :
    mintedShares amount ts td = minted ⟨td, ts⟩ amount := by
  simp only [mintedShares, minted, hts.ne', htd.ne', or_self, if_false]
  exact Int.tdiv_eq_ediv_of_nonneg (mul_nonneg ha hts.le)

/-- Over existing shares a deposit never mints more than its proportion, also when the deposits
are exhausted. -/
theorem mintedShares_mul_le (ha : 0 ≤ amount) (hts : 0 < ts) (htd : 0 ≤ td) :
    mintedShares amount ts td * td ≤ amount * ts := by
  rcases htd.eq_or_lt with rfl | htd
  · rw [mul_zero]
    exact mul_nonneg ha hts.le
  · rw [mintedShares_eq ha hts htd]
    exact minted_mul_le (p := ⟨td, ts⟩) htd

theorem redeemedAmount_eq (hs : 0 ≤ shares) (hts : 0 < ts) (htd : 0 ≤ td) :
    redeemedAmount shares ts td = redeemed ⟨td, ts⟩ shares := by
  simp only [redeemedAmount, redeemed, hts.ne', if_false]
  exact Int.tdiv_eq_ediv_of_nonneg (mul_nonneg hs htd)

theorem redeemedAmount_le (hs : 0 ≤ shares) (hle : shares ≤ ts) (htd : 0 ≤ td) :
    redeemedAmount shares ts td ≤ td := by
  rcases (hs.trans hle).eq_or_lt with rfl | hts
  · simpa [redeemedAmount] using htd
  · rw [redeemedAmount_eq hs hts htd]
    have hmul : shares * td ≤ ts * td := mul_le_mul_of_nonneg_right hle htd
    refine le_of_mul_le_mul_right ?_ hts
    linarith [redeemed_mul_le (p := ⟨td, ts⟩) (s := shares) hts, mul_comm ts td]

end Formulas

section Preservation

variable {v : VaultStorage} {account : Address} {amount shares size pnl fee : ℤ}

theorem VaultInvariant.rebalance {v' : VaultStorage} {x : ℤ} (h : VaultInvariant v)
    (hx : 0 ≤ x) (hadmin : v'.admin = v.admin)
    (hshares : v'.shareBalance = v.shareBalance.insert account x)
    (htotal : v'.totalShares = v.totalShares + (x - getShareBalance v account))
    (hdeposits : 0 ≤ v'.totalDeposits) (hlocked : 0 ≤ v'.lockedLiquidity)
    (hcap : v'.maxUtilization ≤ BPS_DENOMINATOR) : VaultInvariant v' := by
  constructor
  · exact hadmin ▸ h.initialized
  · rw [hshares, sum_insert, h.shares, htotal]
  · intro other
    rw [getShareBalance_of_insert hshares]
    by_cases hother : other = account
    · rw [if_pos hother]
      exact hx
    · rw [if_neg hother]
      exact h.balances other
  · exact hdeposits
  · exact hlocked
  · exact hcap

theorem VaultInvariant.deposit (h : VaultInvariant v) (ha : 0 < amount) (hs : 0 < shares) :
    VaultInvariant (afterDeposit v account amount shares) := by
  have hd := h.deposits
  have hb := h.balances account
  refine h.rebalance (x := getShareBalance v account + shares) (by omega) rfl rfl ?_ ?_ h.locked
    h.cap
  · simp only [afterDeposit]
    omega
  · simp only [afterDeposit]
    omega

theorem VaultInvariant.withdraw (h : VaultInvariant v)
    (hs : shares ≤ getShareBalance v account) (ha : amount ≤ v.totalDeposits) :
    VaultInvariant (afterWithdraw v account shares amount) := by
  refine h.rebalance (x := getShareBalance v account - shares) (by omega) rfl rfl ?_ ?_ h.locked
    h.cap
  · simp only [afterWithdraw]
    omega
  · simp only [afterWithdraw]
    omega

theorem VaultInvariant.adjust (h : VaultInvariant v) {deposits locked : ℤ} (hd : 0 ≤ deposits)
    (hl : 0 ≤ locked) :
    VaultInvariant { v with totalDeposits := deposits, lockedLiquidity := locked } :=
  ⟨h.initialized, h.shares, h.balances, hd, hl, h.cap⟩

theorem VaultInvariant.redeemed_le (h : VaultInvariant v) (hpos : 0 ≤ shares)
    (hs : shares ≤ getShareBalance v account) :
    redeemedAmount shares v.totalShares v.totalDeposits ≤ v.totalDeposits :=
  redeemedAmount_le hpos (hs.trans (h.balance_le account)) h.deposits

theorem VaultInvariant.withdraw_le {env : Env} {w w' : World N} (h : VaultInvariant w.vault)
    (hw : (PerpsVault.withdraw env account shares : Contract N ℤ).run w = .ok (amount, w')) :
    amount ≤ w.vault.totalDeposits := by
  obtain ⟨-, hpos, hs, rfl, -⟩ := withdraw_ok.mp hw
  exact h.redeemed_le hpos.le hs

/-- Every entry point of the vault preserves the invariant, for any caller and arguments. -/
theorem invoke_preserves {env : Env} {w w' : World N} {call : Call} {u : Unit}
    (h : VaultInvariant w.vault) (hc : (invoke env call : Contract N Unit).run w = .ok (u, w')) :
    VaultInvariant w'.vault := by
  have hdeposits := h.deposits
  have hlocked := h.locked
  cases call with
  | initializeVault admin usdc bps =>
    simp [invoke, initializeVault] at hc
    have hinit := h.initialized
    simp [hc.1] at hinit
  | deposit depositor amount =>
    simp only [invoke, run_discard_ok, deposit_ok] at hc
    obtain ⟨shares, -, ha, -, hs, -, -, -, -, -, rfl⟩ := hc
    exact h.deposit ha hs
  | withdraw depositor shares =>
    simp only [invoke, run_discard_ok] at hc
    obtain ⟨amount, hc⟩ := hc
    have hle := h.withdraw_le hc
    obtain ⟨-, -, hs, -, -, -, -, -, -, -, -, rfl⟩ := withdraw_ok.mp hc
    exact h.withdraw hs hle
  | lockLiquidity caller amount =>
    obtain ⟨-, -, ha, -, -, rfl⟩ := lockLiquidity_ok.mp hc
    exact h.adjust hdeposits (by omega)
  | unlockLiquidity caller amount =>
    obtain ⟨-, -, -, hle, rfl⟩ := unlockLiquidity_ok.mp hc
    exact h.adjust hdeposits (by omega)
  | settlePnl caller trader pnl =>
    obtain ⟨-, hle, usdc, rfl⟩ := settlePnl_ok hc
    exact h.adjust (by omega) hlocked
  | closePositionSettlement caller trader size collateral pnl fee =>
    obtain ⟨-, -, hle, hd, -, usdc, -, rfl⟩ := closePositionSettlement_ok.mp hc
    exact h.adjust hd (by omega)
  | collectFee caller amount =>
    obtain ⟨-, ha, -, rfl⟩ := collectFee_ok.mp hc
    exact h.adjust (by omega) hlocked
  | setPositionManager admin pm =>
    simp [invoke, setPositionManager] at hc
    obtain ⟨-, rfl⟩ := hc
    exact { h with }
  | setMaxUtilization admin bps =>
    simp [invoke, setMaxUtilization] at hc
    obtain ⟨-, ⟨-, hb⟩, rfl⟩ := hc
    exact { h with cap := hb }

theorem reachable_invariant {w : World N} (h : VaultReachable w) : VaultInvariant w.vault := by
  induction h with
  | initialized h hi =>
    simp [initializeVault, h] at hi
    obtain ⟨⟨-, hcap⟩, rfl⟩ := hi
    constructor
    · rfl
    · rfl
    · intro account
      exact le_refl 0
    · exact le_refl 0
    · exact le_refl 0
    · exact hcap
  | called _ hc ih => exact invoke_preserves ih hc
  | elsewhere _ hv ih => exact hv ▸ ih

end Preservation

/-- The share register adds up, nothing is negative, and no withdrawal exceeds the deposits. -/
structure Represented (w : World N) : Prop where
  shares : sumBy (fun _ balance => balance) w.vault.shareBalance = w.vault.totalShares
  balances : ∀ account, 0 ≤ getShareBalance w.vault account
  deposits : 0 ≤ w.vault.totalDeposits
  locked : 0 ≤ w.vault.lockedLiquidity
  withdrawal : ∀ env account shares amount (w' : World N),
    (withdraw env account shares : Contract N ℤ).run w = .ok (amount, w') →
      amount ≤ w.vault.totalDeposits

theorem vault_representation {w : World N} (h : VaultReachable w) : Represented w := by
  have hi := reachable_invariant h
  constructor
  · exact hi.shares
  · exact hi.balances
  · exact hi.deposits
  · exact hi.locked
  · intro env account shares amount w' hw
    exact hi.withdraw_le hw

def unopenedVault : World harness where
  timestamp := 1000
  usdc := fun a => if a = ⟨11⟩ then 500 else 0

def openedVault : World harness :=
  { unopenedVault with vault := { admin := some ⟨10⟩, usdcToken := some harness.usdc } }

def depositedVault : World harness where
  timestamp := 1000
  usdc := fun a => if a = ⟨2⟩ then 500 else 0
  vault :=
    { admin := some ⟨10⟩
      usdcToken := some harness.usdc
      totalShares := 500
      totalDeposits := 500
      shareBalance := (∅ : Finmap fun _ : Address => ℤ).insert ⟨11⟩ 500 }
  events := [.deposit ⟨11⟩ 500 500]

theorem vault_representation_deposited : Represented depositedVault := by
  have hopened : VaultReachable openedVault :=
    @VaultReachable.initialized harness unopenedVault openedVault ⟨10⟩ harness.usdc 8000 rfl rfl
  obtain ⟨w, hcall, hvault⟩ : ∃ w, (invoke ⟨none, [⟨11⟩]⟩ (.deposit ⟨11⟩ 500)).run openedVault =
      .ok ((), w) ∧ depositedVault.vault = w.vault := ⟨_, rfl, rfl⟩
  exact vault_representation (.elsewhere (.called hopened hcall) hvault)

end PerpsVaultInvariant
