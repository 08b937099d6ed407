import SoroPerps.PoolClaims
import SoroPerps.PerpsEventReplay
import SoroPerps.PerpsSolvency

/-! # Accounts that trade among themselves

Any number of accounts may deposit, open, close and be liquidated in any order and at any prices:
while nobody else does, all they can gain together is what their positions win against the price,
and the close fees that one of them left unpaid. -/
namespace PerpsCoalition

open SorobanHost PerpsTypes PerpsVault PerpsPositionManager PerpsSystem
open PerpsVaultInvariant PoolBooks PoolClaims FinmapSums
open PerpsSystemInvariant PerpsSolvency PerpsEventReplay

variable {N : Network}

def Outsider (S : Finset Address) : Event → Prop
  | .deposit depositor _ _ => depositor ∉ S
  | .withdraw depositor _ _ => depositor ∉ S
  | .positionOpened trader _ _ _ _ _ _ _ => trader ∉ S
  | .positionClosed trader _ _ _ _ => trader ∉ S
  | .liquidation trader _ _ _ _ _ _ => trader ∉ S
  | _ => False

instance (S : Finset Address) : (e : Event) → Decidable (Outsider S e)
  | .deposit depositor _ _ | .withdraw depositor _ _ =>
    inferInstanceAs (Decidable (depositor ∉ S))
  | .positionOpened trader .. | .positionClosed trader .. | .liquidation trader .. =>
    inferInstanceAs (Decidable (trader ∉ S))
  | .liquidityLocked _ | .liquidityUnlocked _ | .pnlSettled .. | .feeCollected _
  | .priceFetched .. | .fundingApplied .. => isFalse id

def Gives (S : Finset Address) : Action N → Prop
  | .invoke _ (.transferUsdc src dst _) => src ∉ S ∧ dst ∈ S
  | _ => False

instance (S : Finset Address) : (a : Action N) → Decidable (Gives S a)
  | .invoke _ (.transferUsdc src dst _) => inferInstanceAs (Decidable (src ∉ S ∧ dst ∈ S))
  | .invoke _ (.vault _) | .invoke _ (.oracle _) | .invoke _ (.positionManager _)
  | .invoke _ (.engine _) | .invoke _ (.funding _) | .advance _ | .expirePrice _ => isFalse id

/-- Nobody else deposits, withdraws, opens, closes or is liquidated in the step, and nobody else
pays the accounts. -/
def Alone (S : Finset Address) (w : World N) (a : Action N) : Prop :=
  ¬ Gives S a ∧ ∀ e ∈ (step w a).events.drop w.events.length, ¬ Outsider S e

instance (S : Finset Address) (w : World N) (a : Action N) : Decidable (Alone S w a) :=
  instDecidableAnd

def cash (S : Finset Address) (w : World N) : ℤ := ∑ account ∈ S, w.usdcBalance account

def shares (S : Finset Address) (w : World N) : ℤ :=
  ∑ account ∈ S, getShareBalance w.vault account

def staked (S : Finset Address) (w : World N) : ℤ :=
  sumBy (fun key p => if key.1 ∈ S then p.collateral else 0) w.positionManager.position

/-- USDC, collateral of open positions and claim on the vault. -/
def wealth (S : Finset Address) (w : World N) : ℚ :=
  cash S w + staked S w + claim (totals (booksOf w)) (shares S w)

section Moves

variable {w w' : World N} {a : Action N} {e : JournalEntry} {S : Finset Address}
  {account : Address} {x : ℤ}

theorem sum_credited {f g : Address → ℤ} (hmem : account ∈ S)
    (h : ∀ b ∈ S, g b = f b + if b = account then x else 0) :
    (∑ b ∈ S, g b) = (∑ b ∈ S, f b) + x := by
  rw [Finset.sum_congr rfl h, Finset.sum_add_distrib, Finset.sum_ite_eq' S account fun _ => x,
    if_pos hmem]

theorem shares_credited {v v' : VaultStorage} (hmem : account ∈ S)
    (h : v'.shareBalance = v.shareBalance.insert account (getShareBalance v account + x)) :
    (∑ b ∈ S, getShareBalance v' b) = (∑ b ∈ S, getShareBalance v b) + x := by
  apply sum_credited hmem
  intro b _
  rw [getShareBalance_of_insert h]
  split
  · next heq => rw [heq]
  · exact (add_zero _).symm

theorem cash_paid (hT : N.token.Exact) (hS : ∀ b ∈ S, b ∉ N.contracts) (hmem : account ∈ S)
    {usdc : N.token.State} (ht : N.token.transfer w.usdc account N.vault x = .ok usdc) :
    (∑ b ∈ S, N.token.balance usdc b) = cash S w - x := by
  apply sum_credited (f := w.usdcBalance) (x := -x) hmem
  intro b hb
  have hvault : b ≠ N.vault := fun heq => hS b hb (heq ▸ vault_contract)
  rw [hT.moved _ _ _ _ _ ht, if_neg hvault, World.usdcBalance]
  split <;> omega

theorem cash_received (hT : N.token.Exact) (hS : ∀ b ∈ S, b ∉ N.contracts) (hmem : account ∈ S)
    {usdc : N.token.State} (ht : PaidOut N w.usdc account x usdc) :
    (∑ b ∈ S, N.token.balance usdc b) = cash S w + max 0 x := by
  apply sum_credited (f := w.usdcBalance) hmem
  intro b hb
  have hvault : b ≠ N.vault := fun heq => hS b hb (heq ▸ vault_contract)
  rw [ht.balance hT, if_neg hvault, sub_zero, World.usdcBalance]

/-- The accounts own after a step what its entry moves, as if they had made it. -/
structure Moved (S : Finset Address) (w w' : World N) (e : JournalEntry) : Prop where
  cash : cash S w' ≤ cash S w - outlay stake e
  shares : shares S w' = shares S w + sharesMoved e
  staked : staked S w' = staked S w + stakeMoved stake e

theorem staked_removed {key : PositionKey} {p : Position} (hmem : key.1 ∈ S)
    (hp : w.positionManager.position.lookup key = some p) :
    sumBy (fun key p => if key.1 ∈ S then p.collateral else 0)
      (w.positionManager.position.erase key) = staked S w + -p.collateral := by
  rw [sumBy_erase hp, if_pos hmem]
  rfl

theorem effect_moved (hT : N.token.Exact) (hi : SystemInvariant w)
    (hS : ∀ b ∈ S, b ∉ N.contracts) (h : Effect w a e w')
    (halone : ∀ new, w'.events = w.events ++ new → ∀ e ∈ new, ¬ Outsider S e)
    (hstill : w'.events = w.events → cash S w' ≤ cash S w) : Moved S w w' e := by
  cases h with
  | quiet h =>
    obtain ⟨cap, hv, -⟩ := h.vault
    obtain ⟨_, _, _, _, hm⟩ := h.manager
    constructor
    · simp [cash, World.usdcBalance, h.usdc, outlay, inflow, gift]
    · simp only [shares, hv, sharesMoved, add_zero]
      rfl
    · simp only [staked, hm, stakeMoved, add_zero]
  | @transferred src dst amount usdc hsrc ht =>
    have hcash := hstill rfl
    split
    · constructor
      · simpa [outlay, inflow, gift] using hcash
      · exact (add_zero _).symm
      · exact (add_zero _).symm
    · constructor
      · simpa [outlay, inflow, gift] using hcash
      · exact (add_zero _).symm
      · exact (add_zero _).symm
  | deposited hauth ha hm hs hf ht =>
    have hmem := halone _ rfl _ (.head _)
    simp only [Outsider, not_not] at hmem
    constructor
    · exact (cash_paid hT hS hmem ht).le.trans (by simp [outlay, inflow, gift])
    · exact shares_credited hmem rfl
    · exact (add_zero _).symm
  | withdrawn hauth hs hbal hr ha hf hutil hempty ht =>
    have hmem := halone _ rfl _ (.head _)
    simp only [Outsider, not_not] at hmem
    have hpaid := cash_received hT hS hmem ⟨fun _ => ht, fun hle => absurd ha (not_lt.mpr hle)⟩
    rw [max_eq_right ha.le] at hpaid
    constructor
    · exact hpaid.le.trans (by simp [outlay, inflow, gift])
    · exact shares_credited hmem rfl
    · exact (add_zero _).symm
  | @opened env p usdc hauth hp hg ht =>
    have hmem := halone _ rfl _ (.tail _ (.tail _ (.head _)))
    simp only [Outsider, not_not] at hmem
    have hnew : w.positionManager.position.lookup (p.trader, p.id) = none := by
      rw [hp]
      exact hi.next_free _
    constructor
    · exact (cash_paid hT hS hmem ht).le.trans (by simp [outlay, inflow, gift, stake])
    · exact (add_zero _).symm
    · simp only [staked, afterOpen, stakeMoved, stake]
      rw [sumBy_insert_new hnew, if_pos hmem]
  | @closed trader id p price usdc hauth hp hg ht =>
    have hmem := halone _ rfl _ (.tail _ (.tail _ (.head _)))
    simp only [Outsider, not_not] at hmem
    constructor
    · exact (cash_received hT hS hmem ht).le.trans (by simp [outlay, inflow, gift, stake])
    · exact (add_zero _).symm
    · exact staked_removed hmem hp
  | @liquidated trader keeper id p price usdc hauth hp hlow hg ht =>
    have hmem := halone _ rfl _ (.tail _ (.tail _ (.head _)))
    simp only [Outsider, not_not] at hmem
    constructor
    · exact (cash_received hT hS hmem ht).le.trans (by simp [outlay, inflow, gift, stake])
    · exact (add_zero _).symm
    · exact staked_removed hmem hp

theorem cash_sent (hT : N.token.Exact) {src dst : Address} {amount : ℤ} {usdc : N.token.State}
    (hgive : ¬ (src ∉ S ∧ dst ∈ S))
    (ht : N.token.transfer w.usdc src dst amount = .ok usdc) :
    (∑ b ∈ S, N.token.balance usdc b) ≤ cash S w := by
  have hamount : 0 ≤ amount := hT.amount_nonneg _ _ _ _ _ ht
  have hmoved : (∑ b ∈ S, N.token.balance usdc b) =
      cash S w - (if src ∈ S then amount else 0) + if dst ∈ S then amount else 0 := by
    rw [Finset.sum_congr rfl fun b _ => hT.moved _ _ _ _ _ ht b, Finset.sum_add_distrib,
      Finset.sum_sub_distrib, Finset.sum_ite_eq' S src, Finset.sum_ite_eq' S dst]
    rfl
  rw [hmoved]
  by_cases hsrc : src ∈ S
  · rw [if_pos hsrc]
    split <;> omega
  · have hdst : dst ∉ S := fun hdst => hgive ⟨hsrc, hdst⟩
    rw [if_neg hsrc, if_neg hdst]
    omega

theorem cash_silent (hT : N.token.Exact) (hi : SystemInvariant w) (hf : w.funding.admin.isSome)
    (hS : ∀ b ∈ S, b ∉ N.contracts) (hgive : ¬ Gives S a)
    (hsilent : (step w a).events = w.events) : cash S (step w a) ≤ cash S w := by
  obtain ⟨⟨new, hrecorded⟩, -⟩ := step_recorded (a := a) hi hf
  have hnone : new = [] := by simpa [hsilent] using hrecorded.log
  have hquiet : (∀ b ∈ S, ¬ Sends b a) → cash S (step w a) ≤ cash S w := by
    intro hsends
    apply Finset.sum_le_sum
    intro b hb
    rw [hrecorded.cash hT b (hS b hb) (hsends b hb), hnone]
    exact (add_zero _).le
  cases a with
  | advance seconds => exact hquiet fun _ _ => id
  | expirePrice asset => exact hquiet fun _ _ => id
  | invoke caller call =>
    cases call with
    | transferUsdc src dst amount =>
      rcases invoke_cases w caller (.transferUsdc src dst amount) with hsame | ⟨u, w', h, hstep⟩
      · rw [hsame]
      · obtain ⟨-, -, usdc, ht, rfl⟩ := transferUsdc_ok.mp h
        rw [hstep]
        exact cash_sent hT hgive ht
    | _ => exact hquiet fun _ _ => id

theorem step_moved (hT : N.token.Exact) (hi : SystemInvariant w) (hf : w.funding.admin.isSome)
    (hS : ∀ b ∈ S, b ∉ N.contracts) (hk : KeepsWiring a) (ha : Alone S w a) :
    Moved S w (step w a) (entryOf w a) := by
  apply effect_moved hT hi hS (step_effect hi.wired hk)
  · intro new hnew e he
    apply ha.2
    rw [hnew, List.drop_left]
    exact he
  · exact cash_silent hT hi hf hS ha.1

end Moves

section Runs

variable {w w₀ : World N} {a : Action N} {as : List (Action N)} {S : Finset Address}

theorem shares_nonneg (hi : SystemInvariant w) : 0 ≤ shares S w :=
  Finset.sum_nonneg fun account _ => hi.vault.balances account

theorem shares_le (hi : SystemInvariant w) : shares S w ≤ (booksOf w).shares := by
  have hv := hi.vault
  have hsum := sum_lookup_le (f := fun _ balance => balance) S hv.entry_nonneg
  rw [hv.shares] at hsum
  simpa [shares, getShareBalance, booksOf] using hsum

theorem step_wealth (hT : N.token.Exact) (hi : SystemInvariant w) (hf : w.funding.admin.isSome)
    (hS : ∀ b ∈ S, b ∉ N.contracts) (hk : KeepsWiring a) (ha : Alone S w a) :
    wealth S (step w a) ≤ wealth S w + gain stake (entryOf w a) := by
  have hmoved := step_moved hT hi hf hS hk ha
  have hburned : 0 ≤ shares S w + sharesMoved (entryOf w a) := by
    rw [← hmoved.shares]
    exact shares_nonneg (step_invariant hi hk)
  have hclaim := claim_post_le (step_posts hi hk) (shares_nonneg hi) (shares_le hi) hburned
  rw [← step_books hi hk, ← hmoved.shares] at hclaim
  have hcash : (cash S (step w a) : ℚ) ≤ cash S w - outlay stake (entryOf w a) := by
    exact_mod_cast hmoved.cash
  have hstaked : (staked S (step w a) : ℚ) = staked S w + stakeMoved stake (entryOf w a) := by
    exact_mod_cast hmoved.staked
  unfold wealth
  linarith

/-- The gain since `w₀` stays within what the journal so far explains. -/
structure Explained (S : Finset Address) (w₀ w : World N) (es : List JournalEntry) : Prop where
  system : SystemInvariant w
  funding : w.funding.admin.isSome
  wealth : wealth S w ≤ wealth S w₀ + ((es.map (gain stake)).sum : ℤ)

theorem step_explained (hT : N.token.Exact) (hS : ∀ b ∈ S, b ∉ N.contracts)
    {es : List JournalEntry} (h : Explained S w₀ w es) (hk : KeepsWiring a)
    (ha : Alone S w a) : Explained S w₀ (step w a) (es ++ [entryOf w a]) := by
  obtain ⟨-, hfunding⟩ := step_recorded (a := a) h.system h.funding
  constructor
  · exact step_invariant h.system hk
  · exact hfunding
  · have hstep := step_wealth hT h.system h.funding hS hk ha
    have hpast := h.wealth
    rw [List.map_append, List.map_singleton, List.sum_append, List.sum_singleton, Int.cast_add]
    linarith

/-- The two of them gain exactly the unpaid close fee. -/
example : wealth {⟨11⟩, ⟨12⟩} (ActionRuns.runActions step harnessStart cappedLoss) =
    wealth {⟨11⟩, ⟨12⟩} harnessStart + 10000000 := by decide +kernel

end Runs

end PerpsCoalition
