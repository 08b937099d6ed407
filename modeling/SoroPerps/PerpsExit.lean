import SoroPerps.PerpsSplitting
import SoroPerps.PerpsUnwinding

/-! # A run on the vault

All liquidity providers of a flat, backed market leave, one after the other, in whatever order.
Nobody gains or loses more by the order than the rounding of those who went before. -/
namespace PerpsExit

open SorobanHost PerpsTypes PerpsVault PerpsSystem PerpsVaultInvariant PerpsSystemInvariant
open PoolBooks FinmapSums SharePool PerpsSolvency PerpsSplitting PerpsUnwinding

variable {N : Network}

/-- An account that is none of the deployed contracts. -/
abbrev Holder (N : Network) := { a : Address // a ∉ N.contracts }

def withdrawAll (w : World N) (h : Holder N) : Action N :=
  .invoke (signedBy h.1 h.2) (.vault (.withdraw h.1 (getShareBalance w.vault h.1)))

def leave (w : World N) (h : Holder N) : World N := step w (withdrawAll w h)

def leaveAll (w : World N) (hs : List (Holder N)) : World N := hs.foldl leave w

def worth (w : World N) (a : Address) : ℤ :=
  redeemed (totalsOf w.vault) (getShareBalance w.vault a)

/-- A ledger on which some have left a flat market. -/
structure Leaving (w₀ w : World N) (k : ℕ) : Prop where
  system : SystemInvariant w
  flat : w.positionManager.position = ∅
  cash : w.vault.totalDeposits ≤ w.usdcBalance N.vault
  fits : InI128 (w₀.vault.totalShares * w₀.vault.totalDeposits)
  left : LeftBy (totalsOf w₀.vault) (totalsOf w.vault) k

section OneLeaves

variable {w₀ w : World N} {h other : Holder N} {k : ℕ}

theorem Leaving.locked (hl : Leaving w₀ w k) : w.vault.lockedLiquidity = 0 := by
  have hlocked := hl.system.books.locked_eq
  simpa [booksOf, hl.flat] using hlocked

theorem withdrawAll_keeps : KeepsWiring (withdrawAll w h) := trivial

theorem Leaving.worth_le (hl : Leaving w₀ w k) (a : Address) :
    worth w a ≤ w.vault.totalDeposits := by
  by_cases hts : 0 < w.vault.totalShares
  · exact redeemed_le_assets (p := totalsOf w.vault) (hl.system.vault.balance_le a)
      hl.system.vault.deposits hts
  · have hzero : w.vault.totalShares = 0 := by
      have hnonneg := hl.system.vault.totalShares_nonneg
      omega
    simpa [worth, redeemed, totalsOf, hzero] using hl.system.vault.deposits

theorem Leaving.shares_pos (hl : Leaving w₀ w k) {a : Address} (hpos : 0 < worth w a) :
    0 < getShareBalance w.vault a := by
  have hnonneg := hl.system.vault.balances a
  by_contra hnone
  have hzero : getShareBalance w.vault a = 0 := by omega
  simp [worth, redeemed, hzero] at hpos

theorem Leaving.withdrawFits (hl : Leaving w₀ w k) {a : Address} (hpos : 0 < worth w a) :
    WithdrawFits w.vault a (getShareBalance w.vault a) (worth w a) := by
  have hb := hl.shares_pos hpos
  have hle := hl.system.vault.balance_le a
  have hx := hl.worth_le a
  have htd := hl.system.vault.deposits
  have htotals : w.vault.totalShares * w.vault.totalDeposits < 2 ^ 127 := by
    refine lt_of_le_of_lt ?_ hl.fits.2
    exact mul_le_mul hl.left.shares_le hl.left.assets_le htd (by
      have hshares := hl.left.shares_le
      simp only [totalsOf] at hshares
      omega)
  have hproduct : getShareBalance w.vault a * w.vault.totalDeposits < 2 ^ 127 :=
    (mul_le_mul_of_nonneg_right hle htd).trans_lt htotals
  have hdeposits : w.vault.totalDeposits < 2 ^ 127 :=
    (le_mul_of_one_le_left htd (by omega)).trans_lt htotals
  have hshares : w.vault.totalShares < 2 ^ 127 :=
    (le_mul_of_one_le_right (by omega) (by omega)).trans_lt htotals
  constructor
  · intro _
    have hnonneg : 0 ≤ getShareBalance w.vault a * w.vault.totalDeposits := mul_nonneg hb.le htd
    exact proportionFits_of_nonneg hnonneg (by omega) (inI128_of_nonneg hnonneg hproduct)
  · exact inI128_of_nonneg (by omega) (by omega)
  · intro _
    rw [hl.locked]
    exact ⟨by decide, by simp [InI128]⟩
  · exact inI128_of_nonneg (by omega) (by omega)
  · rw [sub_self]
    decide

theorem Leaving.paid (hP : N.token.Pays) (hl : Leaving w₀ w k) (hpos : 0 < worth w h)
    (hroom : InI128 (w.usdcBalance h + worth w h)) :
    ∃ usdc, N.token.transfer w.usdc N.vault h (worth w h) = .ok usdc ∧ leave w h = { w with
      usdc := usdc
      vault := afterWithdraw w.vault h (getShareBalance w.vault h) (worth w h)
      events := w.events ++ [.withdraw h (getShareBalance w.vault h) (worth w h)] } := by
  have hb := hl.shares_pos hpos
  have hts : 0 < w.vault.totalShares := hb.trans_le (hl.system.vault.balance_le h)
  have hcash := (hl.worth_le h).trans hl.cash
  obtain ⟨usdc, ht⟩ := hP w.usdc N.vault h (worth w h) hpos.le hcash hroom
  refine ⟨usdc, ht, ?_⟩
  have hauth : (signedBy (N := N) h.1 h.2).env.Authorized h.1 := by
    simp [signedBy, Env.Authorized]
  have hred : redeemedAmount (getShareBalance w.vault h) w.vault.totalShares
      w.vault.totalDeposits = worth w h := redeemedAmount_eq hb.le hts hl.system.vault.deposits
  have hlocked := hl.locked
  refine step_of_ok (u := ()) (run_discard_ok.mpr ⟨worth w h, withdraw_ok.mpr ⟨hauth, hb, le_rfl,
    hred, hpos, hl.withdrawFits hpos, ?_, ?_, hl.system.wired.vaultUsdc, usdc, ht, rfl⟩⟩)
  · intro _
    simp [hlocked, utilizationQuotient, asU32]
  · intro _
    exact hlocked.le

theorem refused (hworth : worth w h ≤ 0) (hi : SystemInvariant w) : leave w h = w := by
  rcases invoke_cases w (signedBy (N := N) h.1 h.2)
    (.vault (.withdraw h.1 (getShareBalance w.vault h.1))) with hsame | ⟨u, w', hok, -⟩
  · exact hsame
  · simp only [dispatch, PerpsVault.invoke, run_discard_ok] at hok
    obtain ⟨amount, hok⟩ := hok
    obtain ⟨hred, -⟩ := withdraw_redeems hi.vault hok
    obtain ⟨-, -, -, -, hpos, -⟩ := withdraw_ok.mp hok
    have : worth w h = amount := hred
    omega

theorem Leaving.worth_nonneg (hl : Leaving w₀ w k) (a : Address) : 0 ≤ worth w a := by
  by_cases hts : 0 < w.vault.totalShares
  · exact redeemed_nonneg (p := totalsOf w.vault) (hl.system.vault.balances a)
      hl.system.vault.deposits hts
  · have hzero : w.vault.totalShares = 0 := by
      have hnonneg := hl.system.vault.totalShares_nonneg
      omega
    simp [worth, redeemed, totalsOf, hzero]

/-- One account takes what its shares are worth, and nothing else changes. -/
structure Takes (w w' : World N) (h : Address) : Prop where
  paid : received w w' h = worth w h
  deposits : w'.vault.totalDeposits = w.vault.totalDeposits - worth w h
  usdc : ∀ a, a ∉ N.contracts → a ≠ h → w'.usdcBalance a = w.usdcBalance a
  shares : ∀ a, a ≠ h → getShareBalance w'.vault a = getShareBalance w.vault a
  out : 0 < worth w h → getShareBalance w'.vault h = 0
  emptied : (w.vault.totalShares = 0 → w.vault.totalDeposits = 0) →
    w'.vault.totalShares = 0 → w'.vault.totalDeposits = 0

theorem Leaving.takes (hT : N.token.Exact) (hP : N.token.Pays) (hl : Leaving w₀ w k)
    (hroom : InI128 (w.usdcBalance h + w₀.vault.totalDeposits)) :
    Leaving w₀ (leave w h) (k + 1) ∧ Takes w (leave w h) h := by
  have hsystem : SystemInvariant (leave w h) := step_invariant hl.system withdrawAll_keeps
  by_cases hpos : 0 < worth w h
  · have hworth := hl.worth_le h
    have htotal : w.vault.totalDeposits ≤ w₀.vault.totalDeposits := hl.left.assets_le
    have hbalance : 0 ≤ w.usdcBalance h := hT.balance_nonneg _ _
    have hroom' : InI128 (w.usdcBalance h + worth w h) :=
      inI128_of_nonneg (by omega) (by have hlt := hroom.2; omega)
    obtain ⟨usdc, ht, hleave⟩ := hl.paid hP hpos hroom'
    have hpaid : PaidOut N w.usdc h (worth w h) usdc := ⟨fun _ => ht, fun hz => by omega⟩
    have hmax : max 0 (worth w h) = worth w h := max_eq_right hpos.le
    have hb := hl.shares_pos hpos
    have hts := hb.trans_le (hl.system.vault.balance_le h)
    have hvault : (leave w h).vault =
        afterWithdraw w.vault h (getShareBalance w.vault h) (worth w h) := by rw [hleave]
    have husdc : (leave w h).usdc = usdc := by rw [hleave]
    constructor
    · constructor
      · exact hsystem
      · rw [hleave]
        exact hl.flat
      · have hcash := hl.cash
        rw [World.usdcBalance, husdc, balance_paid hT ht h.2, hvault]
        simp only [afterWithdraw, World.usdcBalance] at hcash ⊢
        omega
      · exact hl.fits
      · have hredeemed := hl.left.redeem hb.le (hl.system.vault.balance_le h) hts
        rw [hvault]
        exact hredeemed
    · constructor
      · rw [received, World.usdcBalance, husdc, balance_receiver hT hpaid h.2, hmax,
          World.usdcBalance, add_sub_cancel_left]
      · rw [hvault]
        rfl
      · intro a hout hne
        have hvaultNe : a ≠ N.vault := by
          rintro rfl
          exact hout vault_contract
        rw [World.usdcBalance, husdc, hpaid.balance hT, if_neg hvaultNe, if_neg hne, sub_zero,
          add_zero, World.usdcBalance]
      · intro a hne
        rw [hvault, getShareBalance_of_insert rfl, if_neg hne]
      · intro _
        rw [hvault, getShareBalance_of_insert rfl, if_pos rfl, sub_self]
      · intro _ hnone
        rw [hvault] at hnone ⊢
        simp only [afterWithdraw] at hnone ⊢
        have hall : getShareBalance w.vault h = (totalsOf w.vault).shares :=
          (sub_eq_zero.mp hnone).symm
        rw [worth, hall, redeemed_all (p := totalsOf w.vault) hts, totalsOf, sub_self]
  · have hzero : worth w h = 0 := by
      have hnonneg := hl.worth_nonneg h
      omega
    have hsame : leave w h = w := refused hzero.le hl.system
    rw [hsame]
    refine ⟨{ hl with left := hl.left.skip }, ?_, ?_, fun _ _ _ => rfl, fun _ _ => rfl, ?_, id⟩
    · rw [received, sub_self, hzero]
    · rw [hzero, sub_zero]
    · intro hpos'
      exact absurd hpos' hpos

end OneLeaves

section AllLeave

variable {w₀ w : World N} {hs : List (Holder N)} {k : ℕ}

/-- Those who have not left yet stand as they did at the start. -/
structure Waiting (w₀ w : World N) (hs : List (Holder N)) : Prop where
  once : hs.Nodup
  shares : ∀ h ∈ hs, getShareBalance w.vault h = getShareBalance w₀.vault h
  usdc : ∀ h ∈ hs, w.usdcBalance h = w₀.usdcBalance h
  room : ∀ h ∈ hs, InI128 (w₀.usdcBalance h + w₀.vault.totalDeposits)

theorem Waiting.next {h : Holder N} (hw : Waiting w₀ w (h :: hs)) (ht : Takes w (leave w h) h) :
    Waiting w₀ (leave w h) hs := by
  obtain ⟨hout, honce⟩ := List.nodup_cons.mp hw.once
  have hne : ∀ g ∈ hs, g.1 ≠ h.1 := by
    intro g hg heq
    exact hout (Subtype.ext heq ▸ hg)
  constructor
  · exact honce
  · intro g hg
    rw [ht.shares g (hne g hg), hw.shares g (List.mem_cons_of_mem h hg)]
  · intro g hg
    rw [ht.usdc g g.2 (hne g hg), hw.usdc g (List.mem_cons_of_mem h hg)]
  · intro g hg
    exact hw.room g (List.mem_cons_of_mem h hg)

theorem Waiting.first_room {h : Holder N} (hw : Waiting w₀ w (h :: hs)) :
    InI128 (w.usdcBalance h + w₀.vault.totalDeposits) := by
  rw [hw.usdc h List.mem_cons_self]
  exact hw.room h List.mem_cons_self

/-- Leaving after `k` others pays at least what leaving at once would have, and at most `k` units
more. -/
theorem worth_waited (hl : Leaving w₀ w k) {a : Address}
    (hsame : getShareBalance w.vault a = getShareBalance w₀.vault a) :
    worth w₀ a ≤ worth w a ∧ worth w a ≤ worth w₀ a + k := by
  have hnonneg := hl.system.vault.balances a
  by_cases hts : 0 < w.vault.totalShares
  · unfold worth
    rw [← hsame]
    exact ⟨hl.left.redeemed_ge hnonneg hts,
      hl.left.redeemed_le hnonneg (hl.system.vault.balance_le a) hts⟩
  · have hle := hl.system.vault.balance_le a
    have hzero : getShareBalance w.vault a = 0 := by omega
    simp [worth, ← hsame, hzero, redeemed]

theorem leaveAll_others (hT : N.token.Exact) (hP : N.token.Pays) (hl : Leaving w₀ w k)
    (hw : Waiting w₀ w hs) {a : Address} (ha : ∀ h ∈ hs, a ≠ h.1) :
    getShareBalance (leaveAll w hs).vault a = getShareBalance w.vault a ∧
      (a ∉ N.contracts → (leaveAll w hs).usdcBalance a = w.usdcBalance a) := by
  induction hs generalizing w k with
  | nil => exact ⟨rfl, fun _ => rfl⟩
  | cons h hs ih =>
    obtain ⟨hl', ht⟩ := hl.takes hT hP hw.first_room
    obtain ⟨hhead, hrest⟩ := List.forall_mem_cons.mp ha
    obtain ⟨hshares, husdc⟩ := ih hl' (hw.next ht) hrest
    rw [leaveAll, List.foldl_cons, ← leaveAll, hshares]
    refine ⟨ht.shares a hhead, ?_⟩
    intro hout
    rw [husdc hout, ht.usdc a hout hhead]

theorem Waiting.first_apart {g : Holder N} (hw : Waiting w₀ w (g :: hs)) :
    ∀ h ∈ hs, g.1 ≠ h.1 := by
  intro h hh heq
  exact (List.nodup_cons.mp hw.once).1 (Subtype.ext heq ▸ hh)

theorem first_received (hT : N.token.Exact) (hP : N.token.Pays) {g : Holder N}
    (hl : Leaving w₀ w k) (hw : Waiting w₀ w (g :: hs)) :
    received w₀ (leaveAll (leave w g) hs) g = worth w g := by
  obtain ⟨hl', ht⟩ := hl.takes hT hP hw.first_room
  have hlater := (leaveAll_others hT hP hl' (hw.next ht) hw.first_apart).2 g.2
  have hpaid := ht.paid
  rw [received, hw.usdc g List.mem_cons_self] at hpaid
  rw [received, hlater, hpaid]

theorem leaveAll_paid (hT : N.token.Exact) (hP : N.token.Pays) (hl : Leaving w₀ w k)
    (hw : Waiting w₀ w hs) {i : ℕ} {h : Holder N} (hi : hs[i]? = some h) :
    worth w₀ h ≤ received w₀ (leaveAll w hs) h ∧
      received w₀ (leaveAll w hs) h ≤ worth w₀ h + (k + i : ℕ) := by
  induction hs generalizing w k i with
  | nil => simp at hi
  | cons g hs ih =>
    obtain ⟨hl', ht⟩ := hl.takes hT hP hw.first_room
    rw [leaveAll, List.foldl_cons, ← leaveAll]
    cases i with
    | zero =>
      obtain rfl : g = h := by simpa using hi
      rw [first_received hT hP hl hw, Nat.add_zero]
      exact worth_waited hl (hw.shares g List.mem_cons_self)
    | succ i =>
      obtain ⟨hge, hle⟩ := ih hl' (hw.next ht) (by simpa using hi)
      refine ⟨hge, hle.trans_eq ?_⟩
      push_cast
      omega

theorem leaveAll_conserves (hT : N.token.Exact) (hP : N.token.Pays) (hl : Leaving w₀ w k)
    (hw : Waiting w₀ w hs) :
    (hs.map fun h : Holder N => received w₀ (leaveAll w hs) h.1).sum =
      w.vault.totalDeposits - (leaveAll w hs).vault.totalDeposits := by
  induction hs generalizing w k with
  | nil => simp [leaveAll]
  | cons g hs ih =>
    obtain ⟨hl', ht⟩ := hl.takes hT hP hw.first_room
    rw [leaveAll, List.foldl_cons, ← leaveAll, List.map_cons, List.sum_cons, ih hl' (hw.next ht),
      first_received hT hP hl hw, ht.deposits]
    omega

theorem leaveAll_out (hT : N.token.Exact) (hP : N.token.Pays) (hl : Leaving w₀ w k)
    (hw : Waiting w₀ w hs)
    (hunit : ∀ h ∈ hs, 0 < getShareBalance w₀.vault h.1 → 0 < worth w₀ h.1)
    (hempty : w.vault.totalShares = 0 → w.vault.totalDeposits = 0) :
    (∀ h ∈ hs, getShareBalance (leaveAll w hs).vault h = 0) ∧
      ((leaveAll w hs).vault.totalShares = 0 → (leaveAll w hs).vault.totalDeposits = 0) := by
  induction hs generalizing w k with
  | nil => exact ⟨by simp, hempty⟩
  | cons g hs ih =>
    obtain ⟨hl', ht⟩ := hl.takes hT hP hw.first_room
    obtain ⟨hfirst, hrest⟩ := List.forall_mem_cons.mp hunit
    obtain ⟨hout, hemptied⟩ := ih hl' (hw.next ht) hrest (ht.emptied hempty)
    have hsame := hw.shares g List.mem_cons_self
    rw [leaveAll, List.foldl_cons, ← leaveAll]
    refine ⟨List.forall_mem_cons.mpr ⟨?_, hout⟩, hemptied⟩
    rw [(leaveAll_others hT hP hl' (hw.next ht) hw.first_apart).1]
    by_cases hb : 0 < getShareBalance w₀.vault g
    · exact ht.out ((hfirst hb).trans_le (worth_waited hl hsame).1)
    · have hnonneg := hl.system.vault.balances g
      have hzero : getShareBalance w.vault g = 0 := by omega
      have hnone : ¬ 0 < worth w g := by simp [worth, redeemed, hzero]
      have hkept : leave w g = w := refused (by omega) hl.system
      rw [hkept, hzero]

theorem leaveAll_leaving (hT : N.token.Exact) (hP : N.token.Pays) (hl : Leaving w₀ w k)
    (hw : Waiting w₀ w hs) : Leaving w₀ (leaveAll w hs) (k + hs.length) := by
  induction hs generalizing w k with
  | nil => exact hl
  | cons g hs ih =>
    obtain ⟨hl', ht⟩ := hl.takes hT hP hw.first_room
    have hrest := ih hl' (hw.next ht)
    rwa [List.length_cons, Nat.add_comm hs.length, ← Nat.add_assoc]

end AllLeave

section Runs

variable {w : World N} {hs : List (Holder N)}

/-- Everything a market without positions must meet for its providers to leave freely. -/
structure Flat (w : World N) : Prop where
  reachable : Reachable w
  positions : w.positionManager.position = ∅
  backed : Backed w
  fits : InI128 (w.vault.totalShares * w.vault.totalDeposits)

theorem Flat.leaving (hf : Flat w) : Leaving w w 0 := by
  have hi := reachableVia_invariant hf.reachable
  have hbacked := hf.backed
  refine ⟨hi, hf.positions, ?_, hf.fits, .refl hi.vault.totalShares_nonneg hi.vault.deposits⟩
  simpa [Backed, totalCollateral, hf.positions] using hbacked

/-- A provider holds shares from before a trade paid its fees, the trader shares from after. -/
def flatMarket : World harness :=
  ActionRuns.runActions step harnessStart [postPrice 0 10000000000, provide 1000000000000,
    openLong 0 1000000000 10, close 1 0,
    .invoke harnessTrader (.vault (.deposit ⟨12⟩ 333333333333))]

theorem provider_outside : (⟨11⟩ : Address) ∉ harness.contracts := by decide

theorem trader_of_harness_outside : (⟨12⟩ : Address) ∉ harness.contracts := by decide

def leavers : List (Holder harness) :=
  [⟨⟨12⟩, trader_of_harness_outside⟩, ⟨⟨11⟩, provider_outside⟩]

theorem flatMarket_flat : Flat flatMarket where
  reachable := reachable_of_actions deployed_harness (by decide)
  positions := by decide +kernel
  backed := by
    unfold Backed
    decide +kernel
  fits := by decide +kernel

theorem waiting_all (honce : hs.Nodup)
    (hroom : ∀ h ∈ hs, InI128 (w.usdcBalance h.1 + w.vault.totalDeposits)) : Waiting w w hs :=
  ⟨honce, fun _ _ => rfl, fun _ _ => rfl, hroom⟩

/-- Whatever the order, leaving with all one's shares pays at least what leaving first would, and
at most one unit more for each who left before. -/
theorem leaving_order_is_worth_little (hT : N.token.Exact) (hP : N.token.Pays) (hf : Flat w)
    (honce : hs.Nodup) (hroom : ∀ h ∈ hs, InI128 (w.usdcBalance h.1 + w.vault.totalDeposits))
    {i : ℕ} {h : Holder N} (hi : hs[i]? = some h) :
    worth w h ≤ received w (leaveAll w hs) h ∧ received w (leaveAll w hs) h ≤ worth w h + i := by
  simpa using leaveAll_paid hT hP hf.leaving (waiting_all honce hroom) hi

theorem leaving_flatMarket_second :
    worth flatMarket ⟨11⟩ ≤ received flatMarket (leaveAll flatMarket leavers) ⟨11⟩ ∧
      received flatMarket (leaveAll flatMarket leavers) ⟨11⟩ ≤ worth flatMarket ⟨11⟩ + (1 : ℕ) :=
  leaving_order_is_worth_little (h := ⟨⟨11⟩, provider_outside⟩) (i := 1) ledgerToken_exact
    ledgerToken_pays flatMarket_flat (by decide) (by decide +kernel) rfl

/-- If every provider is in line and has shares worth a unit, the vault is emptied: nobody keeps a
share, and the payments add up to all that was deposited. -/
theorem everyone_can_leave (hT : N.token.Exact) (hP : N.token.Pays) (hf : Flat w)
    (honce : hs.Nodup) (hroom : ∀ h ∈ hs, InI128 (w.usdcBalance h.1 + w.vault.totalDeposits))
    (hall : ∀ a, 0 < getShareBalance w.vault a → ∃ h ∈ hs, h.1 = a)
    (hunit : ∀ h ∈ hs, 0 < getShareBalance w.vault h.1 → 0 < worth w h.1)
    (hts : 0 < w.vault.totalShares) :
    (leaveAll w hs).vault.totalShares = 0 ∧ (leaveAll w hs).vault.totalDeposits = 0 ∧
      (hs.map fun h : Holder N => received w (leaveAll w hs) h.1).sum = w.vault.totalDeposits := by
  have hw := waiting_all honce hroom
  obtain ⟨hout, hemptied⟩ := leaveAll_out hT hP hf.leaving hw hunit fun hzero => by omega
  have hlast := leaveAll_leaving hT hP hf.leaving hw
  have hnone : ∀ a, getShareBalance (leaveAll w hs).vault a = 0 := by
    intro a
    by_cases ha : ∃ h ∈ hs, h.1 = a
    · obtain ⟨h, hh, rfl⟩ := ha
      exact hout h hh
    · have hapart : ∀ h ∈ hs, a ≠ h.1 := fun h hh heq => ha ⟨h, hh, heq.symm⟩
      rw [(leaveAll_others hT hP hf.leaving hw hapart).1]
      have hnonneg := hf.leaving.system.vault.balances a
      by_contra hne
      exact ha (hall a (by omega))
  have hshares : (leaveAll w hs).vault.totalShares = 0 := by
    have hnonneg := hlast.system.vault.totalShares_nonneg
    have hle : (leaveAll w hs).vault.totalShares ≤ 0 * 0 := by
      rw [← hlast.system.vault.shares]
      have hzero := sumBy_le_mul (m := (leaveAll w hs).vault.shareBalance)
        (f := fun _ b => b) (g := fun _ b => b) (x := 0) (by
          intro a b hb
          have hba := hnone a
          rw [getShareBalance, hb, Option.getD_some] at hba
          omega)
      simpa using hzero
    omega
  refine ⟨hshares, hemptied hshares, ?_⟩
  rw [leaveAll_conserves hT hP hf.leaving hw, hemptied hshares, sub_zero]

end Runs

end PerpsExit
