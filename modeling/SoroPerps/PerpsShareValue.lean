import Mathlib.Algebra.Order.Field.Basic
import Mathlib.Data.Rat.Cast.Order
import SoroPerps.PerpsSystemInvariant

/-! # What a share is worth

Rounding in deposits and withdrawals falls on whoever makes them; only a winning trader lowers
the claim of the others. Two states of the pool are special: deposits that no share claims, and
shares that no deposit backs. -/
namespace PerpsShareValue

open SorobanHost PerpsTypes PerpsVault PerpsSystem PerpsVaultInvariant PoolBooks SharePool
open PerpsSystemInvariant

variable {N : Network}

section RoundTrip

variable {w w' : World N} {env env' : Env} {depositor : Address} {amount shares back : ℤ}

def roundTrip (env env' : Env) (depositor : Address) (amount : ℤ) : Contract N ℤ := do
  let shares ← deposit env depositor amount
  withdraw env' depositor shares

theorem roundTrip_ok (h : (roundTrip env env' depositor amount : Contract N ℤ).run w =
    .ok (back, w')) : ∃ shares, 0 < amount ∧ 0 < shares ∧
      mintedShares amount w.vault.totalShares w.vault.totalDeposits = shares ∧
      redeemedAmount shares (w.vault.totalShares + shares) (w.vault.totalDeposits + amount) =
        back := by
  simp only [roundTrip, StateT.run_bind, except_bind_ok, Prod.exists] at h
  obtain ⟨shares, w₁, hdep, hwd⟩ := h
  obtain ⟨-, ha, hm, hs, -, -, -, usdc, -, rfl⟩ := deposit_ok.mp hdep
  obtain ⟨-, -, -, hr, -⟩ := withdraw_ok.mp hwd
  exact ⟨shares, ha, hs, hm, hr⟩

/-- A deposit taken back at once returns no more than was paid in, and on top of it, when there
were no shares before, the deposits that nobody's shares claimed. -/
theorem roundTrip_le (h : Reachable w)
    (hr : (roundTrip env env' depositor amount : Contract N ℤ).run w = .ok (back, w')) :
    back ≤ amount + (if w.vault.totalShares = 0 then w.vault.totalDeposits else 0) := by
  have hv := (reachableVia_invariant h).vault
  obtain ⟨shares, ha, hs, hm, hback⟩ := roundTrip_ok hr
  have htd := hv.deposits
  have hts := hv.totalShares_nonneg
  have hpos : 0 < w.vault.totalShares + shares := by omega
  rw [redeemedAmount_eq hs.le hpos (by omega)] at hback
  rw [← hback]
  by_cases hzero : w.vault.totalShares = 0
  · have hself : shares = amount := by
      rw [← hm]
      simp [mintedShares, hzero]
    have hall : redeemed ⟨w.vault.totalDeposits + amount, 0 + amount⟩ amount =
        w.vault.totalDeposits + amount := by
      unfold redeemed
      rw [zero_add]
      exact Int.mul_ediv_cancel_left _ ha.ne'
    rw [if_pos hzero, hzero, hself, hall]
    omega
  · rw [if_neg hzero, add_zero]
    have hprop : shares * w.vault.totalDeposits ≤ amount * w.vault.totalShares := by
      rw [← hm]
      exact mintedShares_mul_le ha.le (hts.lt_of_ne' hzero) htd
    exact round_trip_le (p := ⟨w.vault.totalDeposits, w.vault.totalShares⟩) hpos hprop

/-- A trader opens and closes against an empty pool: the fees are deposits that no share
claims. -/
def unclaimedFees : World harness :=
  ActionRuns.runActions step harnessStart [postPrice 0 10000000000, openLong 0 1000000000 10,
    close 1 0]

theorem unclaimedFees_reachable : Reachable unclaimedFees :=
  reachable_of_actions deployed_harness (by decide)

def provider : Env := ⟨none, [⟨11⟩]⟩

theorem roundTrip_le_unclaimedFees : ∃ back w',
    (roundTrip provider provider ⟨11⟩ 1000000000).run unclaimedFees = .ok (back, w') ∧
      back ≤ 1000000000 + (if unclaimedFees.vault.totalShares = 0 then
        unclaimedFees.vault.totalDeposits else 0) := by
  have hok : ((roundTrip provider provider ⟨11⟩ 1000000000).run unclaimedFees).toBool = true := by
    decide +kernel
  obtain ⟨⟨back, w'⟩, hback⟩ := returns_of_isOk hok
  exact ⟨back, w', hback, roundTrip_le unclaimedFees_reachable hback⟩

/-- The first depositor takes the unclaimed fees along: a thousand million stroops return with
twenty million on top. -/
theorem unclaimedFees_paidOut : ¬ ∀ (N : Network) (w w' : World N) (env env' : Env)
    (depositor : Address) (amount back : ℤ), Reachable w →
      getShareBalance w.vault depositor = 0 →
      (roundTrip env env' depositor amount).run w = .ok (back, w') → back ≤ amount := by
  intro h
  have hback : ((roundTrip provider provider ⟨11⟩ 1000000000).run unclaimedFees).toOption.map
      Prod.fst = some 1020000000 := by
    decide +kernel
  obtain ⟨⟨back, w'⟩, hrun, rfl⟩ := result_of_toOption hback
  have hle := h harness unclaimedFees w' provider provider ⟨11⟩ 1000000000 1020000000
    unclaimedFees_reachable (by decide +kernel) hrun
  simp at hle

end RoundTrip

section Rounding

variable {w w' : World N} {env : Env} {depositor : Address} {amount shares : ℤ}

/-- What the shares of a deposit redeem for in the state it leaves falls short of the deposit by
less than the price of one share and one unit. -/
def RoundingBounded (amount shares : ℤ) (w' : World N) : Prop :=
  ∀ value w'', (calcWithdrawalAmount shares w'.vault.totalShares w'.vault.totalDeposits :
      Contract N ℤ).run w' = .ok (value, w'') →
    ((amount - value : ℤ) : ℚ) < w'.vault.totalDeposits / w'.vault.totalShares + 1

theorem lt_price_add_one_iff {x td ts : ℤ} (hts : 0 < ts) :
    (x : ℚ) < td / ts + 1 ↔ (x - 1) * ts < td := by
  have hpos : (0 : ℚ) < ts := Int.cast_pos.mpr hts
  rw [← sub_lt_iff_lt_add, lt_div_iff₀ hpos]
  exact_mod_cast Iff.rfl

theorem roundingBounded_iff (hts : 0 < w'.vault.totalShares) : RoundingBounded amount shares w' ↔
    (ProportionFits shares w'.vault.totalDeposits w'.vault.totalShares →
      (amount - redeemedAmount shares w'.vault.totalShares w'.vault.totalDeposits - 1) *
        w'.vault.totalShares < w'.vault.totalDeposits) := by
  unfold RoundingBounded
  constructor
  · intro h hfits
    apply (lt_price_add_one_iff hts).mp
    apply h _ w'
    exact calcWithdrawalAmount_ok.mpr ⟨fun _ => hfits, rfl, rfl⟩
  · intro h value w'' hvalue
    obtain ⟨hfits, rfl, -⟩ := calcWithdrawalAmount_ok.mp hvalue
    exact (lt_price_add_one_iff hts).mpr (h (hfits hts.ne'))

theorem loss_of_first {td : ℤ} (ha : 0 < amount) (htd : 0 ≤ td) :
    (amount - redeemedAmount amount (0 + amount) (td + amount) - 1) * (0 + amount) <
      td + amount := by
  have hall : redeemedAmount amount (0 + amount) (td + amount) = td + amount := by
    simp only [redeemedAmount, zero_add, ha.ne', if_false]
    exact Int.mul_tdiv_cancel_left _ ha.ne'
  have hneg : (amount - (td + amount) - 1) * (0 + amount) ≤ 0 :=
    mul_nonpos_of_nonpos_of_nonneg (by omega) (by omega)
  rw [hall]
  omega

theorem loss_of_proportional {ts td : ℤ} (ha : 0 < amount) (hts : 0 < ts) (htd : 0 < td)
    (hs : 0 < shares) (hm : mintedShares amount ts td = shares) :
    (amount - redeemedAmount shares (ts + shares) (td + amount) - 1) * (ts + shares) <
      td + amount := by
  rw [mintedShares_eq ha.le hts htd] at hm
  have hceil : amount * ts < (shares + 1) * td := by
    rw [← hm]
    exact lt_minted_succ_mul (p := ⟨td, ts⟩) htd
  rw [redeemedAmount_eq hs.le (by omega) (by omega)]
  exact round_trip_loss_lt (p := ⟨td, ts⟩) (by simp only; omega) ha.le hceil

/-- Against shares that no deposit backs the deposit is minted one for one and then shared. -/
theorem loss_of_unbacked_iff {ts : ℤ} (ha : 0 < amount) (hts : 0 < ts) :
    (amount - redeemedAmount amount (ts + amount) (0 + amount) - 1) * (ts + amount) <
      0 + amount ↔ amount * ts ≤ amount + ts := by
  rw [redeemedAmount_eq ha.le (by omega) (by omega), zero_add]
  exact mint_unbacked_loss_iff ha hts

theorem proportionFits_unbacked {ts : ℤ} (ha : 0 < amount) (hts : 0 < ts) :
    ProportionFits amount (0 + amount) (ts + amount) ↔ InI128 (amount * amount) := by
  have hnonneg : 0 ≤ amount * amount := mul_nonneg ha.le ha.le
  have hquot : 0 ≤ (amount * amount).tdiv (ts + amount) :=
    Int.tdiv_nonneg hnonneg (by omega)
  have hle : (amount * amount).tdiv (ts + amount) ≤ amount * amount :=
    Int.tdiv_le_self _ hnonneg
  unfold ProportionFits InI128
  rw [zero_add]
  omega

/-- The bound is missed exactly where shares exist without deposits, there is too much of both
for rounding to hide it, and the redemption value does not overflow. -/
theorem rounding_bounded_iff (h : Reachable w)
    (hdep : (deposit env depositor amount).run w = .ok (shares, w')) :
    RoundingBounded amount shares w' ↔ w.vault.totalShares = 0 ∨ w.vault.totalDeposits ≠ 0 ∨
      amount * w.vault.totalShares ≤ amount + w.vault.totalShares ∨
      ¬ InI128 (amount * amount) := by
  have hv := (reachableVia_invariant h).vault
  have htd := hv.deposits
  have hts := hv.totalShares_nonneg
  obtain ⟨-, ha, hm, hs, -, -, -, usdc, -, rfl⟩ := deposit_ok.mp hdep
  have hpos : 0 < w.vault.totalShares + shares := by omega
  rw [roundingBounded_iff hpos]
  simp only [afterDeposit]
  by_cases hfirst : w.vault.totalShares = 0
  · have hself : shares = amount := by simp [← hm, mintedShares, hfirst]
    rw [hfirst, hself]
    apply iff_of_true
    · intro hfits
      exact loss_of_first ha htd
    · left
      rfl
  by_cases hunbacked : w.vault.totalDeposits = 0
  · have hself : shares = amount := by simp [← hm, mintedShares, hunbacked]
    have hexist : 0 < w.vault.totalShares := hts.lt_of_ne' hfirst
    rw [hunbacked, hself, proportionFits_unbacked ha hexist, loss_of_unbacked_iff ha hexist]
    tauto
  · have hexist : 0 < w.vault.totalShares := hts.lt_of_ne' hfirst
    have hbacked : 0 < w.vault.totalDeposits := htd.lt_of_ne' hunbacked
    apply iff_of_true
    · intro hfits
      exact loss_of_proportional ha hexist hbacked hs hm
    · right
      left
      exact hunbacked

/-- A long wins all that the provider of 1250 USDC put in. -/
def unbackedShares : World harness :=
  ActionRuns.runActions step harnessStart [provide 12500000000, postPrice 0 10000000000,
    openLong 0 1000000000 10, postPrice 0 22520000000, close 1 0]

theorem unbackedShares_reachable : Reachable unbackedShares :=
  reachable_of_actions deployed_harness (by decide)

theorem rounding_bounded_iff_unbackedShares : ∃ shares w',
    (deposit provider ⟨11⟩ 1000000000).run unbackedShares = .ok (shares, w') ∧
      (RoundingBounded 1000000000 shares w' ↔ unbackedShares.vault.totalShares = 0 ∨
        unbackedShares.vault.totalDeposits ≠ 0 ∨
        1000000000 * unbackedShares.vault.totalShares ≤
          1000000000 + unbackedShares.vault.totalShares ∨
        ¬ InI128 (1000000000 * 1000000000)) := by
  have hok : ((deposit provider ⟨11⟩ 1000000000).run unbackedShares).toBool = true := by
    decide +kernel
  obtain ⟨⟨shares, w'⟩, hdep⟩ := returns_of_isOk hok
  exact ⟨shares, w', hdep, rounding_bounded_iff unbackedShares_reachable hdep⟩

/-- A newcomer pays in a hundred USDC one for one and owns a share of seven of them. -/
theorem unbackedShares_diluted : ¬ ∀ (N : Network) (w w' : World N) (env : Env)
    (depositor : Address) (amount shares : ℤ), Reachable w →
      (deposit env depositor amount).run w = .ok (shares, w') →
      RoundingBounded amount shares w' := by
  intro h
  have hok : ((deposit ⟨none, [⟨12⟩]⟩ ⟨12⟩ 1000000000).run unbackedShares).toOption.map
      (fun r => (r.1, r.2.vault.totalShares, r.2.vault.totalDeposits)) =
        some (1000000000, 13500000000, 1000000000) := by
    decide +kernel
  obtain ⟨⟨shares, w'⟩, hdep, hr⟩ := result_of_toOption hok
  simp only [Prod.mk.injEq] at hr
  obtain ⟨rfl, hts, htd⟩ := hr
  have hbound := h harness unbackedShares w' _ _ _ _ unbackedShares_reachable hdep
  rw [roundingBounded_iff (by omega), hts, htd] at hbound
  revert hbound
  decide +kernel

end Rounding

section Dilution

variable {w w₀ : World N} {a : Action N} {as : List (Action N)} {holder : Address} {balance : ℤ}

theorem step_price (hi : SystemInvariant w) (hk : KeepsWiring a) (hts : w.vault.totalShares ≠ 0)
    (hw : ¬ Wins (entryOf w a)) : PriceLE (totals (booksOf w)) (totals (booksOf (step w a))) := by
  rw [step_books hi hk]
  exact priceLE_post hi.books (step_posts hi hk) hts hw

def LeavesAlone (holder : Address) (w : World N) (a : Action N) : Prop :=
  ¬ a.Authorized holder ∧ ¬ Wins (entryOf w a)

/-- The holder still has its shares, at no lower a price than in `w₀`. -/
structure Keeps (w₀ : World N) (holder : Address) (balance : ℤ) (w : World N) : Prop where
  invariant : SystemInvariant w
  held : getShareBalance w.vault holder = balance
  price : PriceLE (totals (booksOf w₀)) (totals (booksOf w))

theorem Keeps.totalShares_pos (h : Keeps w₀ holder balance w) (hpos : 0 < balance) :
    0 < w.vault.totalShares := by
  have hle : getShareBalance w.vault holder ≤ w.vault.totalShares :=
    h.invariant.vault.balance_le holder
  rw [h.held] at hle
  omega

theorem step_keeps (hstart : 0 ≤ w₀.vault.totalShares) (hpos : 0 < balance)
    (h : Keeps w₀ holder balance w) (hk : KeepsWiring a) (ha : LeavesAlone holder w a) :
    Keeps w₀ holder balance (step w a) := by
  obtain ⟨hout, hwins⟩ := ha
  have hi := h.invariant
  have hi' := step_invariant hi hk
  have hts := h.totalShares_pos hpos
  constructor
  · exact hi'
  · rw [effect_shareBalance hout (step_effect hi.wired hk)]
    exact h.held
  · have hstep := step_price hi hk hts.ne' hwins
    exact PriceLE.trans hstart hts hi'.vault.totalShares_nonneg h.price hstep

theorem run_redeemed_le (hi : SystemInvariant w)
    (hpos : 0 < getShareBalance w.vault holder) (hr : Run (LeavesAlone holder) w as) :
    getShareBalance (ActionRuns.runActions step w as).vault holder =
        getShareBalance w.vault holder ∧
      redeemed (totals (booksOf w)) (getShareBalance w.vault holder) ≤
        redeemed (totals (booksOf (ActionRuns.runActions step w as)))
          (getShareBalance w.vault holder) := by
  have hstart : Keeps w holder (getShareBalance w.vault holder) w :=
    ⟨hi, rfl, PriceLE.refl _⟩
  have hend : Keeps w holder (getShareBalance w.vault holder)
      (ActionRuns.runActions step w as) := by
    apply ActionRuns.invariant_run _ hr hstart
    intro w' a h ⟨hk, ha⟩
    exact step_keeps hi.vault.totalShares_nonneg hpos h hk ha
  refine ⟨hend.held, ?_⟩
  exact redeemed_mono hpos.le (hstart.totalShares_pos hpos) (hend.totalShares_pos hpos) hend.price

/-- Only a winning trader lowers the price of a share, in one step or over a run, and so what an
account that does not act can redeem. -/
structure Undiluted (w : World N) : Prop where
  price : ∀ a, KeepsWiring a → 0 < w.vault.totalShares → 0 < (step w a).vault.totalShares →
    ¬ Wins (entryOf w a) →
    w.vault.totalDeposits * (step w a).vault.totalShares ≤
      (step w a).vault.totalDeposits * w.vault.totalShares
  redeems : ∀ holder as, 0 < getShareBalance w.vault holder → Run (LeavesAlone holder) w as →
    let w' := ActionRuns.runActions step w as
    getShareBalance w'.vault holder = getShareBalance w.vault holder ∧
      getShareBalance w.vault holder * w.vault.totalDeposits / w.vault.totalShares ≤
        getShareBalance w.vault holder * w'.vault.totalDeposits / w'.vault.totalShares

theorem undiluted (h : Reachable w) : Undiluted w := by
  have hi := reachableVia_invariant h
  constructor
  · intro a hk hts _ hwins
    exact step_price hi hk hts.ne' hwins
  · intro holder as hpos hr
    exact run_redeemed_le hi hpos hr

theorem undiluted_open : Undiluted (ActionRuns.runActions step harnessStart
    [postPrice 0 10000000000, provide 1000000000000, openLong 0 1000000000 10,
      postPrice 0 9500000000]) :=
  undiluted (reachable_of_actions deployed_harness (by decide))

end Dilution

end PerpsShareValue
