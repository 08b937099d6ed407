import Mathlib.Algebra.BigOperators.Group.Finset.Piecewise
import Mathlib.Algebra.Order.BigOperators.Group.Finset
import SoroPerps.PerpsSolvency

/-! # How far the share arithmetic is from overflow

The USDC in existence bounds the deposits, but not the shares: a deposit at a depressed price mints
many for little. Products of the two must still fit 128 bits. -/
namespace PerpsShareOverflow

open SorobanHost PerpsTypes PerpsVault PerpsPositionManager PerpsSystem PerpsVaultInvariant
open PerpsSystemInvariant PerpsSolvency PoolBooks FinmapSums

section Supply

variable {T : Token} {supply x : ℤ} {s s' : T.State} {src dst : Address}

/-- However many balances are added up, they come to at most `supply`. -/
def TotalsWithin (T : Token) (supply : ℤ) (s : T.State) : Prop :=
  ∀ holders : Finset Address, ∑ a ∈ holders, T.balance s a ≤ supply

theorem sum_transfer (hT : T.Exact) (h : T.transfer s src dst x = .ok s')
    {holders : Finset Address} (hsrc : src ∈ holders) (hdst : dst ∈ holders) :
    ∑ a ∈ holders, T.balance s' a = ∑ a ∈ holders, T.balance s a := by
  have hmoved := hT.moved _ _ _ _ _ h
  simp [hmoved, Finset.sum_add_distrib, Finset.sum_sub_distrib, hsrc, hdst]

theorem TotalsWithin.transfer (hT : T.Exact) (h : T.transfer s src dst x = .ok s')
    (hs : TotalsWithin T supply s) : TotalsWithin T supply s' := by
  intro holders
  have hsub : holders ⊆ insert src (insert dst holders) :=
    (Finset.subset_insert _ _).trans (Finset.subset_insert _ _)
  have hsum : ∑ a ∈ insert src (insert dst holders), T.balance s' a =
      ∑ a ∈ insert src (insert dst holders), T.balance s a :=
    sum_transfer hT h (by simp) (by simp)
  calc ∑ a ∈ holders, T.balance s' a
      ≤ ∑ a ∈ insert src (insert dst holders), T.balance s' a :=
        Finset.sum_le_sum_of_subset_of_nonneg hsub fun a _ _ => hT.balance_nonneg s' a
    _ = ∑ a ∈ insert src (insert dst holders), T.balance s a := hsum
    _ ≤ supply := hs _

theorem TotalsWithin.balance_le (hs : TotalsWithin T supply s) (a : Address) :
    T.balance s a ≤ supply := by
  simpa using hs {a}

theorem TotalsWithin.pair_le (hs : TotalsWithin T supply s) {a b : Address} (hne : a ≠ b) :
    T.balance s a + T.balance s b ≤ supply := by
  simpa [Finset.sum_pair hne] using hs {a, b}

theorem le_balance_of_transfer (hT : T.Exact) (h : T.transfer s src dst x = .ok s')
    (hne : src ≠ dst) : x ≤ T.balance s src := by
  have hleft := hT.balance_nonneg s' src
  rw [hT.moved _ _ _ _ _ h, if_pos rfl, if_neg hne] at hleft
  omega

end Supply

variable {N : Network}

theorem TotalsWithin.paidOut {supply x : ℤ} {s s' : N.token.State} {dst : Address}
    (hT : N.token.Exact) (h : PaidOut N s dst x s') (hs : TotalsWithin N.token supply s) :
    TotalsWithin N.token supply s' := by
  rcases lt_or_ge 0 x with hpos | hle
  · exact hs.transfer hT (h.1 hpos)
  · rwa [h.2 hle]

section Aborts

variable {w : World N} {env : Env} {depositor : Address} {amount shares : ℤ}

def AbortsForOverflow {α : Type} (call : Contract N α) (w : World N) : Prop :=
  call.run w = .error (.host .arithmetic)

theorem calcSharesToMint_aborts {ts td : ℤ}
    (h : AbortsForOverflow (calcSharesToMint amount ts td : Contract N ℤ) w) :
    ¬ (¬ (ts = 0 ∨ td = 0) → ProportionFits amount ts td) := by
  by_cases hz : ts = 0 ∨ td = 0
  · simp [AbortsForOverflow, calcSharesToMint, hz] at h
  · simp [AbortsForOverflow, calcSharesToMint, hz] at h
    obtain ⟨-, htd⟩ := not_or.mp hz
    intro hfits
    obtain ⟨hprod, hquot⟩ := hfits hz
    simp [hprod, hquot, htd] at h

theorem calcWithdrawalAmount_aborts {ts td : ℤ}
    (h : AbortsForOverflow (calcWithdrawalAmount shares ts td : Contract N ℤ) w) :
    ¬ (ts ≠ 0 → ProportionFits shares td ts) := by
  by_cases hz : ts = 0
  · simp [AbortsForOverflow, calcWithdrawalAmount, hz] at h
  · simp [AbortsForOverflow, calcWithdrawalAmount, hz] at h
    intro hfits
    obtain ⟨hprod, hquot⟩ := hfits hz
    simp [hprod, hquot] at h

theorem checkWithdrawal_aborts {locked td : ℤ} {cap : ℕ}
    (h : AbortsForOverflow (checkWithdrawal locked td cap : Contract N Unit) w) :
    ¬ (0 < td → ProportionFits locked 10000 td) := by
  by_cases hpos : 0 < td
  · simp [AbortsForOverflow, checkWithdrawal, calcUtilizationBps, hpos, hpos.ne'] at h
    intro hfits
    obtain ⟨hprod, hquot⟩ := hfits hpos
    simp [hprod, hquot] at h
  · simp [AbortsForOverflow, checkWithdrawal, hpos] at h

theorem calcSharePrice_aborts {ts td : ℤ}
    (h : AbortsForOverflow (calcSharePrice ts td : Contract N ℤ) w) :
    ¬ ProportionFits td DECIMALS ts := by
  by_cases hz : ts = 0
  · simp [AbortsForOverflow, calcSharePrice, hz] at h
  · simp [AbortsForOverflow, calcSharePrice, hz] at h
    rintro ⟨hprod, hquot⟩
    simp [hprod, hquot] at h

/-- A deposit overflows in the product it mints by, or, once paid for, in a counter. -/
theorem deposit_aborts (h : AbortsForOverflow (deposit env depositor amount : Contract N ℤ) w) :
    env.Authorized depositor ∧ 0 < amount ∧
      ((¬ (w.vault.totalShares = 0 ∨ w.vault.totalDeposits = 0) →
          ProportionFits amount w.vault.totalShares w.vault.totalDeposits) →
        (∃ usdc, N.token.transfer w.usdc depositor N.vault amount = .ok usdc) ∧
        ¬ DepositFits w.vault depositor amount
          (mintedShares amount w.vault.totalShares w.vault.totalDeposits)) := by
  simp [AbortsForOverflow, deposit, transferUsdc] at h
  obtain ⟨ha, hpos, h⟩ := h
  refine ⟨ha, hpos, ?_⟩
  intro hmint
  rcases h with h | ⟨-, -, -, -, ht, h⟩
  · exact absurd hmint (calcSharesToMint_aborts h)
  · refine ⟨ht, ?_⟩
    intro hf
    simp [hf.deposits, hf.supply, hf.balance] at h

theorem withdraw_aborts (h : AbortsForOverflow (withdraw env depositor shares : Contract N ℤ) w) :
    0 < shares ∧ shares ≤ getShareBalance w.vault depositor ∧
      ¬ WithdrawFits w.vault depositor shares
        (redeemedAmount shares w.vault.totalShares w.vault.totalDeposits) := by
  simp [AbortsForOverflow, withdraw, transferUsdc, -Int.sub_pos, -sub_pos] at h
  obtain ⟨-, hpos, hbal, h⟩ := h
  refine ⟨hpos, hbal, ?_⟩
  intro hf
  rcases h with h | ⟨-, -, h⟩
  · exact absurd hf.redeem (calcWithdrawalAmount_aborts h)
  · simp only [hf.deposits, not_true, false_or, true_and] at h
    rcases h with h | ⟨-, h⟩
    · exact absurd hf.utilization (checkWithdrawal_aborts h)
    · simp [hf.supply, hf.balance] at h

end Aborts

section Guarded

variable {w w' : World N} {a : Action N} {e : JournalEntry} {supply : ℤ}

def LeverageFits : JournalEntry → Prop
  | .opened _ p _ => p.leverage < 2 ^ 32
  | _ => True

instance : ∀ e : JournalEntry, Decidable (LeverageFits e)
  | .opened _ p _ => inferInstanceAs (Decidable (p.leverage < 2 ^ 32))
  | .quiet | .given _ | .deposit .. | .withdraw .. | .closed .. | .liquidated .. => isTrue trivial

/-- The vault is backed, by no more USDC than there is. -/
structure Guarded (supply : ℤ) (w : World N) : Prop where
  solvent : Solvent w
  supply : TotalsWithin N.token supply w.usdc
  leverages : ∀ key p, w.positionManager.position.lookup key = some p → p.leverage < 2 ^ 32

theorem effect_supply (hT : N.token.Exact) (h : Effect w a e w')
    (hs : TotalsWithin N.token supply w.usdc) : TotalsWithin N.token supply w'.usdc := by
  cases h with
  | quiet h => exact h.usdc ▸ hs
  | transferred _ ht => exact hs.transfer hT ht
  | deposited _ _ _ _ _ ht => exact hs.transfer hT ht
  | withdrawn _ _ _ _ _ _ _ _ ht => exact hs.transfer hT ht
  | opened _ _ _ ht => exact hs.transfer hT ht
  | @closed trader id p price usdc hauth hp hg ht => exact hs.paidOut hT ht
  | @liquidated trader keeper id p price usdc hauth hp hlow hg ht => exact hs.paidOut hT ht

theorem effect_leverages (h : Effect w a e w') (he : LeverageFits e)
    (hl : ∀ key p, w.positionManager.position.lookup key = some p → p.leverage < 2 ^ 32) :
    ∀ key p, w'.positionManager.position.lookup key = some p → p.leverage < 2 ^ 32 := by
  cases h with
  | quiet h =>
    obtain ⟨_, _, _, _, hm⟩ := h.manager
    simpa only [hm] using hl
  | opened hauth hp hg ht =>
    intro key q hq
    rcases lookup_of_insert hq with ⟨-, rfl⟩ | hq
    · exact he
    · exact hl key q hq
  | closed =>
    intro key q hq
    exact hl key q (lookup_of_erase hq)
  | liquidated =>
    intro key q hq
    exact hl key q (lookup_of_erase hq)
  | _ => exact hl

theorem Guarded.step (hT : N.token.Exact) (h : Guarded supply w) (hk : KeepsWiring a)
    (hc : FeeCovered (entryOf w a)) (hl : LeverageFits (entryOf w a)) :
    Guarded supply (step w a) := by
  have heffect := step_effect h.solvent.invariant.wired hk
  constructor
  · exact step_solvent hT h.solvent hk hc
  · exact effect_supply hT heffect h.supply
  · exact effect_leverages heffect hl h.leverages

theorem Guarded.totalCollateral_nonneg (h : Guarded supply w) : 0 ≤ totalCollateral w := by
  apply sumBy_nonneg
  intro key p hp
  exact (h.solvent.invariant.books.collaterals key p hp).le

theorem Guarded.owed_le (h : Guarded supply w) :
    w.vault.totalDeposits + totalCollateral w ≤ w.usdcBalance N.vault := by
  have hsurplus := h.solvent.surplus
  unfold surplus at hsurplus
  omega

theorem Guarded.deposits_le (h : Guarded supply w) : w.vault.totalDeposits ≤ supply := by
  have hbalance : w.usdcBalance N.vault ≤ supply := h.supply.balance_le N.vault
  have hcollateral := h.totalCollateral_nonneg
  have howed := h.owed_le
  omega

theorem Guarded.locked_le (h : Guarded supply w) : w.vault.lockedLiquidity ≤ 2 ^ 32 * supply := by
  have hlocked : w.vault.lockedLiquidity = sumBy (fun _ p => p.size) w.positionManager.position :=
    h.solvent.invariant.books.locked_eq
  have hsizes : sumBy (fun _ p => p.size) w.positionManager.position ≤
      2 ^ 32 * totalCollateral w := by
    apply sumBy_le_mul
    intro key p hp
    have hcollateral : 0 < p.collateral := h.solvent.invariant.books.collaterals key p hp
    have hleverage : (p.leverage : ℤ) ≤ 2 ^ 32 := by exact_mod_cast (h.leverages key p hp).le
    rw [(h.solvent.invariant.register key p hp).size, mul_comm]
    exact mul_le_mul_of_nonneg_right hleverage hcollateral.le
  have hbalance : w.usdcBalance N.vault ≤ supply := h.supply.balance_le N.vault
  have howed := h.owed_le
  have hdeposits := h.solvent.invariant.vault.deposits
  omega

end Guarded

section Products

variable {w : World N} {env : Env} {depositor : Address} {amount shares supply : ℤ}

/-- The products of share amounts and USDC amounts, for every amount one may ask for. -/
structure ProductsFit (supply : ℤ) (w : World N) : Prop where
  mint : ∀ amount, 0 ≤ amount → amount ≤ supply → InI128 (amount * w.vault.totalShares)
  redeem : ∀ account shares, 0 ≤ shares → shares ≤ getShareBalance w.vault account →
    InI128 (shares * w.vault.totalDeposits)
  price : InI128 (w.vault.totalDeposits * DECIMALS)

structure NeverOverflows (supply : ℤ) (w : World N) : Prop where
  deposit : ∀ (caller : Caller N) depositor amount, amount ≤ supply →
    ¬ AbortsForOverflow (deposit caller.env depositor amount) w
  withdraw : ∀ env depositor shares, ¬ AbortsForOverflow (withdraw env depositor shares) w
  sharePrice : ¬ AbortsForOverflow getSharePrice w

theorem mintedShares_nonneg {ts td : ℤ} (ha : 0 ≤ amount) (hts : 0 ≤ ts) (htd : 0 ≤ td) :
    0 ≤ mintedShares amount ts td := by
  unfold mintedShares
  split
  · exact ha
  · exact Int.tdiv_nonneg (mul_nonneg ha hts) htd

theorem redeemedAmount_nonneg {ts td : ℤ} (hs : 0 ≤ shares) (hts : 0 ≤ ts) (htd : 0 ≤ td) :
    0 ≤ redeemedAmount shares ts td := by
  unfold redeemedAmount
  split
  · exact le_refl 0
  · exact Int.tdiv_nonneg (mul_nonneg hs htd) hts

/-- With the deposits bounded by the supply, one product decides about the others. -/
theorem productsFit_iff (h : Guarded supply w) (hpos : 0 ≤ supply) (hmax : supply ≤ 10 ^ 18) :
    ProductsFit supply w ↔ w.vault.totalShares * supply < 2 ^ 127 := by
  have hv := h.solvent.invariant.vault
  have hts := hv.totalShares_nonneg
  have hdeposits := hv.deposits
  have hle := h.deposits_le
  constructor
  · intro hfit
    have hall := (hfit.mint supply hpos (le_refl supply)).2
    rwa [mul_comm] at hall
  · intro hlt
    constructor
    · intro amount ha hamount
      apply inI128_of_nonneg (mul_nonneg ha hts)
      calc amount * w.vault.totalShares ≤ supply * w.vault.totalShares :=
            mul_le_mul_of_nonneg_right hamount hts
        _ = w.vault.totalShares * supply := mul_comm _ _
        _ < 2 ^ 127 := hlt
    · intro account shares hs hbal
      apply inI128_of_nonneg (mul_nonneg hs hdeposits)
      calc shares * w.vault.totalDeposits
          ≤ w.vault.totalShares * w.vault.totalDeposits :=
            mul_le_mul_of_nonneg_right (hbal.trans (hv.balance_le account)) hdeposits
        _ ≤ w.vault.totalShares * supply := mul_le_mul_of_nonneg_left hle hts
        _ < 2 ^ 127 := hlt
    · unfold InI128 DECIMALS
      omega

theorem Guarded.paid_le (hT : N.token.Exact) (h : Guarded supply w) {usdc : N.token.State}
    (hout : depositor ∉ N.contracts)
    (ht : N.token.transfer w.usdc depositor N.vault amount = .ok usdc) :
    w.vault.totalDeposits + amount ≤ supply := by
  have hne : depositor ≠ N.vault := by
    rintro rfl
    exact hout vault_contract
  have hamount : amount ≤ w.usdcBalance depositor := le_balance_of_transfer hT ht hne
  have hpair : w.usdcBalance depositor + w.usdcBalance N.vault ≤ supply := h.supply.pair_le hne
  have hcollateral := h.totalCollateral_nonneg
  have howed := h.owed_le
  omega

theorem Guarded.minted_lt (h : Guarded supply w) (htwo : 2 ≤ supply) (hmax : supply ≤ 10 ^ 18)
    (hlt : w.vault.totalShares * supply < 2 ^ 127) (ha : 0 ≤ amount)
    (hpaid : w.vault.totalDeposits + amount ≤ supply) :
    w.vault.totalShares + mintedShares amount w.vault.totalShares w.vault.totalDeposits <
      2 ^ 127 := by
  have hts := h.solvent.invariant.vault.totalShares_nonneg
  have hdeposits := h.solvent.invariant.vault.deposits
  have htwice : w.vault.totalShares * 2 ≤ w.vault.totalShares * supply :=
    mul_le_mul_of_nonneg_left htwo hts
  by_cases hz : w.vault.totalShares = 0 ∨ w.vault.totalDeposits = 0
  · rw [mintedShares, if_pos hz]
    omega
  · obtain ⟨hts0, htd0⟩ := not_or.mp hz
    have htd : 0 < w.vault.totalDeposits := hdeposits.lt_of_ne' htd0
    have hmint := mintedShares_mul_le ha (hts.lt_of_ne' hts0) hdeposits
    generalize mintedShares amount w.vault.totalShares w.vault.totalDeposits = m at hmint ⊢
    by_contra hbig
    have hsum : 0 ≤ w.vault.totalShares + m := by omega
    have hfinal : w.vault.totalShares + m ≤ w.vault.totalShares * supply :=
      calc w.vault.totalShares + m
          ≤ (w.vault.totalShares + m) * w.vault.totalDeposits :=
            le_mul_of_one_le_right hsum htd
        _ = w.vault.totalShares * w.vault.totalDeposits + m * w.vault.totalDeposits := by ring
        _ ≤ w.vault.totalShares * w.vault.totalDeposits + amount * w.vault.totalShares := by
            omega
        _ = w.vault.totalShares * (w.vault.totalDeposits + amount) := by ring
        _ ≤ w.vault.totalShares * supply := mul_le_mul_of_nonneg_left hpaid hts
    omega

theorem deposit_never_overflows (hT : N.token.Exact) (h : Guarded supply w) (htwo : 2 ≤ supply)
    (hmax : supply ≤ 10 ^ 18) (hfit : ProductsFit supply w) (caller : Caller N)
    (hle : amount ≤ supply) : ¬ AbortsForOverflow (deposit caller.env depositor amount) w := by
  intro habort
  obtain ⟨hauth, hpos, habort⟩ := deposit_aborts habort
  have hv := h.solvent.invariant.vault
  have hts := hv.totalShares_nonneg
  have hdeposits := hv.deposits
  have hmint := proportionFits_of_nonneg (mul_nonneg hpos.le hts) hdeposits
    (hfit.mint amount hpos.le hle)
  obtain ⟨⟨usdc, ht⟩, hcounters⟩ := habort fun _ => hmint
  have hpaid := h.paid_le hT (caller.outside depositor hauth) ht
  have hlt := (productsFit_iff h (by omega) hmax).mp hfit
  have htotal := h.minted_lt htwo hmax hlt hpos.le hpaid
  have hshares := mintedShares_nonneg hpos.le hts hdeposits
  have hle := hv.balance_le depositor
  have hbalance := hv.balances depositor
  apply hcounters
  constructor
  · exact fun _ => hmint
  · exact inI128_of_nonneg (by omega) (by omega)
  · exact inI128_of_nonneg (by omega) htotal
  · exact inI128_of_nonneg (by omega) (by omega)

theorem withdraw_never_overflows (h : Guarded supply w) (htwo : 2 ≤ supply)
    (hmax : supply ≤ 10 ^ 18) (hfit : ProductsFit supply w) :
    ¬ AbortsForOverflow (withdraw env depositor shares) w := by
  intro habort
  obtain ⟨hs, hbal, hcounters⟩ := withdraw_aborts habort
  have hv := h.solvent.invariant.vault
  have hts := hv.totalShares_nonneg
  have hdeposits := hv.deposits
  have hbound := h.deposits_le
  have hred := hv.redeemed_le hs.le hbal
  have hreturned := redeemedAmount_nonneg hs.le hts hdeposits
  have hlocked := hv.locked
  have hcap := h.locked_le
  have htotal : w.vault.totalShares < 2 ^ 127 := by
    have hlt := (productsFit_iff h (by omega) hmax).mp hfit
    have htwice := mul_le_mul_of_nonneg_left htwo hts
    omega
  have hle := hv.balance_le depositor
  apply hcounters
  constructor
  · intro _
    exact proportionFits_of_nonneg (mul_nonneg hs.le hdeposits) hts
      (hfit.redeem depositor shares hs.le hbal)
  · exact inI128_of_nonneg (by omega) (by omega)
  · intro hleft
    exact proportionFits_of_nonneg (by omega) hleft.le (inI128_of_nonneg (by omega) (by omega))
  · exact inI128_of_nonneg (by omega) (by omega)
  · exact inI128_of_nonneg (by omega) (by omega)

theorem sharePrice_never_overflows (h : Guarded supply w) (hfit : ProductsFit supply w) :
    ¬ AbortsForOverflow getSharePrice w := by
  intro habort
  have hv := h.solvent.invariant.vault
  have hquot : AbortsForOverflow
      (calcSharePrice w.vault.totalShares w.vault.totalDeposits : Contract N ℤ) w := by
    simpa [AbortsForOverflow, getSharePrice] using habort
  exact calcSharePrice_aborts hquot
    (proportionFits_of_nonneg (mul_nonneg hv.deposits (by decide)) hv.totalShares_nonneg hfit.price)

/-- Where the products fit, the calls that compute them go through without an overflow. -/
theorem never_overflows (hT : N.token.Exact) (h : Guarded supply w) (htwo : 2 ≤ supply)
    (hmax : supply ≤ 10 ^ 18) (hfit : ProductsFit supply w) : NeverOverflows supply w where
  deposit caller _ _ hle := deposit_never_overflows hT h htwo hmax hfit caller hle
  withdraw _ _ _ := withdraw_never_overflows h htwo hmax hfit
  sharePrice := sharePrice_never_overflows h hfit

end Products

section Runs

variable {w w₀ : World N} {a : Action N} {as : List (Action N)} {supply : ℤ}

def MintsWithin (supply : ℤ) (w : World N) : JournalEntry → Prop
  | .deposit _ shares => (w.vault.totalShares + shares) * supply < 2 ^ 127
  | _ => True

instance (supply : ℤ) (w : World N) : ∀ e : JournalEntry, Decidable (MintsWithin supply w e)
  | .deposit _ shares =>
    inferInstanceAs (Decidable ((w.vault.totalShares + shares) * supply < 2 ^ 127))
  | .quiet | .given _ | .withdraw .. | .opened .. | .closed .. | .liquidated .. => isTrue trivial

/-- The deposit is made while a share is worth at least the 170th part of a unit. -/
def PricedFairly (w : World N) : JournalEntry → Prop
  | .deposit .. => w.vault.totalShares ≤ 170 * w.vault.totalDeposits
  | _ => True

theorem step_shares (hi : SystemInvariant w) (hk : KeepsWiring a) :
    (step w a).vault.totalShares = (post stake (booksOf w) (entryOf w a)).shares :=
  congrArg Books.shares (step_books hi hk)

theorem bounded_step (hi : SystemInvariant w) (hk : KeepsWiring a) (hpos : 0 ≤ supply)
    (hb : w.vault.totalShares * supply < 2 ^ 127) (hm : MintsWithin supply w (entryOf w a)) :
    (step w a).vault.totalShares * supply < 2 ^ 127 := by
  have hposts := step_posts hi hk
  rw [step_shares hi hk]
  generalize entryOf w a = e at hposts hm ⊢
  cases e with
  | deposit amount shares => exact hm
  | withdraw shares amount =>
    have hfewer : w.vault.totalShares - shares ≤ w.vault.totalShares :=
      Int.sub_le_self _ hposts.1.le
    exact (mul_le_mul_of_nonneg_right hfewer hpos).trans_lt hb
  | _ => exact hb

theorem unbounded_step (hi : SystemInvariant w) (hk : KeepsWiring a)
    (hm : ¬ MintsWithin supply w (entryOf w a)) :
    ¬ (step w a).vault.totalShares * supply < 2 ^ 127 := by
  rw [step_shares hi hk]
  generalize entryOf w a = e at hm ⊢
  cases e with
  | deposit amount shares => exact hm
  | _ => exact absurd trivial hm

/-- At a fair price the shares minted are at most 170 for each unit of the deposits. -/
theorem shares_le_of_fair {amount shares ts td : ℤ} (ha : 0 < amount) (hts : 0 ≤ ts)
    (htd : 0 ≤ td) (hfair : ts ≤ 170 * td) (hm : mintedShares amount ts td = shares) :
    ts + shares ≤ 170 * (td + amount) := by
  by_cases hz : ts = 0
  · rw [mintedShares, if_pos (.inl hz)] at hm
    omega
  · have hmul := mintedShares_mul_le ha.le (hts.lt_of_ne' hz) htd
    have hprice := mul_le_mul_of_nonneg_left hfair ha.le
    have hbound : shares * td ≤ 170 * amount * td := by
      rw [← hm]
      linarith [mul_comm amount td]
    have := le_of_mul_le_mul_right hbound (by omega)
    omega

theorem mintsWithin_of_fair (h : Guarded supply w) (h' : Guarded supply (step w a))
    (hk : KeepsWiring a) (hpos : 0 ≤ supply) (hmax : supply ≤ 10 ^ 18)
    (hfair : PricedFairly w (entryOf w a)) : MintsWithin supply w (entryOf w a) := by
  have heffect := step_effect h.solvent.invariant.wired hk
  have hbound := h'.deposits_le
  generalize entryOf w a = e at heffect hfair ⊢
  generalize step w a = w' at heffect hbound
  cases heffect with
  | @deposited depositor amount shares usdc hauth ha hm hs hf ht =>
    have hv := h.solvent.invariant.vault
    have hfew := shares_le_of_fair ha hv.totalShares_nonneg hv.deposits hfair hm
    have hsupply : w.vault.totalShares + shares ≤ 170 * supply := by
      simp only [afterDeposit] at hbound
      omega
    calc (w.vault.totalShares + shares) * supply
        ≤ 170 * supply * supply := mul_le_mul_of_nonneg_right hsupply hpos
      _ = 170 * (supply * supply) := by ring
      _ ≤ 170 * (10 ^ 18 * 10 ^ 18) := by
          have := mul_le_mul hmax hmax hpos (by decide)
          omega
      _ < 2 ^ 127 := by decide
  | transferred => split <;> trivial
  | _ => trivial

/-- How the share arithmetic fares in a run: the products fit throughout exactly when no deposit
mints too many shares, which none does at a fair price, and then no call overflows. -/
structure ShareArithmetic (supply : ℤ) (w₀ : World N) (as : List (Action N)) : Prop where
  products : (∀ bs, bs <+: as → ProductsFit supply (ActionRuns.runActions step w₀ bs)) ↔
    ActionRuns.Along step (fun w a => MintsWithin supply w (entryOf w a)) w₀ as
  priced : ActionRuns.Along step (fun w a => PricedFairly w (entryOf w a)) w₀ as →
    ∀ bs, bs <+: as → ProductsFit supply (ActionRuns.runActions step w₀ bs)
  calls : ∀ bs, bs <+: as → ProductsFit supply (ActionRuns.runActions step w₀ bs) →
    NeverOverflows supply (ActionRuns.runActions step w₀ bs)

/-- No close leaves a fee unpaid, and leverages are what a caller can pass. -/
def Ordinary (w : World N) (a : Action N) : Prop :=
  FeeCovered (entryOf w a) ∧ LeverageFits (entryOf w a)

instance (w : World N) (a : Action N) : Decidable (Ordinary w a) :=
  inferInstanceAs (Decidable (_ ∧ _))

theorem deployed_guarded (hT : N.token.Exact) (hd : Deployed w₀)
    (hs : TotalsWithin N.token supply w₀.usdc) : Guarded supply w₀ := by
  have hpositions : w₀.positionManager.position = ∅ :=
    congrArg Books.positions (deployed_fresh hd).2.1
  constructor
  · refine ⟨deployed_invariant hd, ?_⟩
    rw [deployed_surplus hd]
    exact hT.balance_nonneg _ _
  · exact hs
  · simp [hpositions]

theorem deployed_products (hT : N.token.Exact) (hd : Deployed w₀)
    (hs : TotalsWithin N.token supply w₀.usdc) (hpos : 0 ≤ supply) (hmax : supply ≤ 10 ^ 18) :
    ProductsFit supply w₀ := by
  have hshares : w₀.vault.totalShares = 0 := congrArg Books.shares (deployed_fresh hd).2.1
  rw [productsFit_iff (deployed_guarded hT hd hs) hpos hmax, hshares, zero_mul]
  decide

theorem run_guarded (hT : N.token.Exact) (hr : Run Ordinary w₀ as) (h : Guarded supply w₀) :
    Guarded supply (ActionRuns.runActions step w₀ as) := by
  apply ActionRuns.invariant_run _ hr h
  intro w a h ⟨hk, hc, hl⟩
  exact h.step hT hk hc hl

theorem run_supply {Q : World N → Action N → Prop} (hT : N.token.Exact) (hd : Deployed w₀)
    (hr : Run Q w₀ as) (hs : TotalsWithin N.token supply w₀.usdc) :
    TotalsWithin N.token supply (ActionRuns.runActions step w₀ as).usdc := by
  have hstep : ∀ w a, SystemInvariant w ∧ TotalsWithin N.token supply w.usdc →
      KeepsWiring a ∧ Q w a →
      SystemInvariant (step w a) ∧ TotalsWithin N.token supply (step w a).usdc := by
    intro w a ⟨hi, hs⟩ ⟨hk, _⟩
    exact ⟨step_invariant hi hk, effect_supply hT (step_effect hi.wired hk) hs⟩
  exact (ActionRuns.invariant_run hstep hr ⟨deployed_invariant hd, hs⟩).2

theorem share_arithmetic (hT : N.token.Exact) (htwo : 2 ≤ supply) (hmax : supply ≤ 10 ^ 18)
    (hd : Deployed w₀) (hs : TotalsWithin N.token supply w₀.usdc) (hr : Run Ordinary w₀ as) :
    ShareArithmetic supply w₀ as := by
  have hpos : 0 ≤ supply := by omega
  have hstart := deployed_guarded hT hd hs
  have hfirst := deployed_products hT hd hs hpos hmax
  have hstep : ∀ w a, Guarded supply w → KeepsWiring a ∧ Ordinary w a → Guarded supply (step w a) :=
    fun w a h ⟨hk, hc, hl⟩ => h.step hT hk hc hl
  have hproducts : (∀ bs, bs <+: as → ProductsFit supply (ActionRuns.runActions step w₀ bs)) ↔
      ActionRuns.Along step (fun w a => MintsWithin supply w (entryOf w a)) w₀ as := by
    refine ActionRuns.all_prefixes_iff (Guarded supply) (ProductsFit supply) hstep ?_ ?_ hr hstart
      hfirst
    · intro w a h hp hfit hm
      have hb := (productsFit_iff h hpos hmax).mp hfit
      exact (productsFit_iff (hstep w a h hp) hpos hmax).mpr
        (bounded_step h.solvent.invariant hp.1 hpos hb hm)
    · intro w a h hp hm hfit
      exact unbounded_step h.solvent.invariant hp.1 hm
        ((productsFit_iff (hstep w a h hp) hpos hmax).mp hfit)
  constructor
  · exact hproducts
  · intro hfair
    apply hproducts.mpr
    refine ActionRuns.Along.imp_of_invariant hstep ?_ hr hstart hfair
    intro w a h hp hfair
    exact mintsWithin_of_fair h (hstep w a h hp) hp.1 hpos hmax hfair
  · intro bs hbs hfit
    exact never_overflows hT (run_guarded hT (hr.of_prefix hbs) hstart) htwo hmax hfit

end Runs

section Harness

theorem totalsWithin_two {x y : Address} {m n : ℕ} :
    TotalsWithin ledgerToken (m + n) fun a => if a = x then m else if a = y then n else 0 := by
  intro holders
  have hterm : ∀ a ∈ holders, ((if a = x then m else if a = y then n else 0 : ℕ) : ℤ) ≤
      (if a = x then (m : ℤ) else 0) + (if a = y then (n : ℤ) else 0) := by
    intro a _
    split_ifs <;> simp
  refine (Finset.sum_le_sum hterm).trans ?_
  simp only [Finset.sum_add_distrib, Finset.sum_ite_eq']
  split_ifs <;> omega

/-- The harness with nearly all of 10^18 base units in the hands of the liquidity provider. -/
def fundedHarness : World harness :=
  deployHarness harnessConfig fun a =>
    if a = ⟨11⟩ then 970000000000000000 else if a = ⟨12⟩ then 30000000000000000 else 0

theorem deployed_funded : Deployed fundedHarness := ⟨harnessConfig, 1000, _, rfl⟩

theorem funded_supply : TotalsWithin harness.token (10 ^ 18) fundedHarness.usdc :=
  totalsWithin_two (x := ⟨11⟩) (y := ⟨12⟩) (m := 970000000000000000) (n := 30000000000000000)

theorem share_arithmetic_coveredClose : ShareArithmetic (10 ^ 18) fundedHarness coveredClose :=
  share_arithmetic ledgerToken_exact (by decide) (by decide) deployed_funded funded_supply
    (run_iff.mpr ⟨by decide, by decide +kernel⟩)

/-- A trader wins all but ten base units of the deposits, and the next deposit mints 10^23
shares. -/
def depressedPrice : List (Action harness) :=
  [postPrice 0 10000000000, provide 1000000000000, openLong 0 10000000000 10,
    postPrice 0 110019999999, close 1 0, provide 1000000000000]

theorem depressedPrice_overflows : ¬ ∀ (N : Network) (w : World N), N.token.Exact →
    Reachable w → TotalsWithin N.token (10 ^ 18) w.usdc →
      ProductsFit (10 ^ 18) w ∧ NeverOverflows (10 ^ 18) w := by
  intro h
  have hk : ∀ a ∈ depressedPrice, KeepsWiring a := by decide
  have hsupply := run_supply ledgerToken_exact deployed_funded (run_of_actions hk) funded_supply
  have hfit := (h harness _ ledgerToken_exact (reachable_of_actions deployed_funded hk)
    hsupply).1.mint (10 ^ 17) (by decide) (by decide)
  revert hfit
  decide +kernel

/-- All deposits mint within bounds, but a close fee that the position could not pay lifts the
deposits on record above the supply. -/
def unpaidFee : List (Action harness) :=
  [postPrice 0 10000000000, provide 10000000000000, openLong 0 100000000000 10,
    postPrice 0 109423529410, close 1 0, provide 960000000000000000,
    byAdmin (.positionManager (.setFeeRates ⟨10⟩ 10 1000)), postPrice 0 10000000000,
    openLong 0 25000000000000000 30, postPrice 0 5000000000, close 2 0]

theorem unpaidFee_overflows :
    ActionRuns.Along step (fun w a => MintsWithin (10 ^ 18) w (entryOf w a)) fundedHarness
      unpaidFee ∧
    ¬ ProductsFit (10 ^ 18) (ActionRuns.runActions step fundedHarness unpaidFee) := by
  constructor
  · decide +kernel
  · intro h
    have hfit := h.redeem ⟨11⟩ 160946755085956375485 (by decide) (by decide +kernel)
    revert hfit
    decide +kernel

end Harness

end PerpsShareOverflow
