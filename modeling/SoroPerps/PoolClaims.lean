import Mathlib.Algebra.BigOperators.Ring.Finset
import Mathlib.Algebra.Order.BigOperators.Group.Finset
import Mathlib.Algebra.Order.Field.Basic
import Mathlib.Data.Rat.Cast.Order
import Mathlib.Tactic.FieldSimp
import SoroPerps.PoolBooks

/-! # Claims on a leveraged pool

Shares are a claim on the deposits. Whoever posts an entry to the books cannot come out ahead,
counting cash, collateral and claim, by more than a stake wins and a close leaves unpaid. -/
namespace PoolClaims

open SharePool PoolBooks FinmapSums

section Claims

/-- What some of the shares are worth. A pool without shares belongs to whoever comes next. -/
def claim (p : Totals) (held : ℤ) : ℚ :=
  if p.shares = 0 then p.assets else held * p.assets / p.shares

variable {p : Totals} {held a s x d : ℤ}

theorem claim_unshared (h : p.shares = 0) : claim p held = p.assets := if_pos h

theorem claim_shared (h : 0 < p.shares) : claim p held = held * p.assets / p.shares := if_neg h.ne'

theorem claim_deposit_le (h₀ : 0 ≤ held) (hle : held ≤ p.shares) (hs : 0 < s)
    (h : p.shares ≠ 0 → s * p.assets ≤ a * p.shares) :
    claim (p.deposit a s) (held + s) ≤ claim p held + a := by
  have hafter : 0 < (p.deposit a s).shares := by
    simp only [Totals.deposit]
    omega
  rw [claim_shared hafter]
  simp only [Totals.deposit]
  by_cases hnone : p.shares = 0
  · obtain rfl : held = 0 := by omega
    have hs' : (s : ℚ) ≠ 0 := Int.cast_ne_zero.mpr hs.ne'
    rw [claim_unshared hnone, hnone, zero_add, mul_div_cancel_left₀ _ hs', Int.cast_add]
  · have hsome : 0 < p.shares := by omega
    rw [claim_shared hsome]
    have hT : (0 : ℚ) < p.shares := Int.cast_pos.mpr hsome
    have hS : (0 : ℚ) < s := Int.cast_pos.mpr hs
    have hrest : (0 : ℚ) ≤ p.shares - held := sub_nonneg.mpr (Int.cast_le.mpr hle)
    have hminted : (0 : ℚ) ≤ a * p.shares - s * p.assets := by
      apply sub_nonneg.mpr
      exact_mod_cast h hnone
    have hgain : (held * p.assets / p.shares + a : ℚ) -
        (held + s) * (p.assets + a) / (p.shares + s) =
          (p.shares - held) * (a * p.shares - s * p.assets) / (p.shares * (p.shares + s)) := by
      field_simp
      ring
    push_cast
    have hpos : (0 : ℚ) ≤ (p.shares - held) * (a * p.shares - s * p.assets) /
        (p.shares * (p.shares + s)) := by positivity
    linarith

theorem claim_withdraw_le (hs : 0 < s) (h₀ : s ≤ held) (hle : held ≤ p.shares)
    (h : x * p.shares ≤ s * p.assets) :
    claim (p.withdraw s x) (held - s) + x ≤ claim p held := by
  have hsome : 0 < p.shares := by omega
  have hT : (0 : ℚ) < p.shares := Int.cast_pos.mpr hsome
  rw [claim_shared hsome]
  by_cases hall : p.shares - s = 0
  · obtain rfl : held = p.shares := by omega
    rw [claim_unshared hall, mul_div_cancel_left₀ _ hT.ne']
    simp [Totals.withdraw]
  · have hafter : 0 < p.shares - s := by omega
    rw [claim_shared (p := p.withdraw s x) hafter]
    have hS : (0 : ℚ) < p.shares - s := by exact_mod_cast hafter
    have hrest : (0 : ℚ) ≤ p.shares - held := sub_nonneg.mpr (Int.cast_le.mpr hle)
    have hpaid : (0 : ℚ) ≤ s * p.assets - x * p.shares := by
      apply sub_nonneg.mpr
      exact_mod_cast h
    have hgain : (held * p.assets / p.shares : ℚ) -
        ((held - s) * (p.assets - x) / (p.shares - s) + x) =
          (p.shares - held) * (s * p.assets - x * p.shares) / (p.shares * (p.shares - s)) := by
      field_simp
      ring
    simp only [Totals.withdraw]
    push_cast
    have hpos : (0 : ℚ) ≤ (p.shares - held) * (s * p.assets - x * p.shares) /
        (p.shares * (p.shares - s)) := by positivity
    linarith

/-- Of what the pool gains no holder gains more than all, and of what it loses no holder less than
nothing. -/
theorem claim_moved_le (h₀ : 0 ≤ held) (hle : held ≤ p.shares) :
    claim ⟨p.assets + d, p.shares⟩ held ≤ claim p held + (max 0 d : ℤ) := by
  have hd : (d : ℚ) ≤ (max 0 d : ℤ) := Int.cast_le.mpr (le_max_right 0 d)
  by_cases hnone : p.shares = 0
  · rw [claim_unshared (p := ⟨p.assets + d, p.shares⟩) hnone, claim_unshared hnone]
    push_cast at hd ⊢
    linarith
  · have hsome : 0 < p.shares := by omega
    have hT : (0 : ℚ) < p.shares := Int.cast_pos.mpr hsome
    rw [claim_shared (p := ⟨p.assets + d, p.shares⟩) hsome, claim_shared hsome]
    have hfrom : (0 : ℚ) ≤ held / p.shares := by positivity
    have hto : (held / p.shares : ℚ) ≤ 1 := (div_le_one hT).mpr (Int.cast_le.mpr hle)
    have hmax : (0 : ℚ) ≤ (max 0 d : ℤ) := by exact_mod_cast le_max_left 0 d
    calc ((held : ℚ) * (p.assets + d : ℤ) / p.shares)
        = held * p.assets / p.shares + held / p.shares * d := by push_cast; ring
      _ ≤ held * p.assets / p.shares + held / p.shares * (max 0 d : ℤ) := by gcongr
      _ ≤ held * p.assets / p.shares + 1 * (max 0 d : ℤ) := by gcongr
      _ = held * p.assets / p.shares + (max 0 d : ℤ) := by rw [one_mul]

end Claims

section Posting

variable {κ π : Type} [DecidableEq κ] (stake : π → Stake)

def sharesMoved : Entry κ π → ℤ
  | .deposit _ shares => shares
  | .withdraw shares _ => -shares
  | _ => 0

def stakeMoved : Entry κ π → ℤ
  | .opened _ p _ => (stake p).collateral
  | .closed _ p _ _ => -(stake p).collateral
  | .liquidated _ p _ => -(stake p).collateral
  | _ => 0

def outlay (e : Entry κ π) : ℤ := inflow stake e - gift e

def winnings : Entry κ π → ℤ
  | .closed _ _ pnl _ => max 0 pnl
  | .liquidated _ _ pnl => max 0 pnl
  | _ => 0

def gain (e : Entry κ π) : ℤ := winnings e + shortfall stake e

variable {stake} {b : Books κ π} {e : Entry κ π} {key : κ} {p : π} {pnl fee held : ℤ}

theorem claim_settle_le (h₀ : 0 ≤ held) (hle : held ≤ b.shares) :
    claim (totals (settle stake b key p pnl fee)) held ≤
      claim (totals b) held + (max 0 (fee - pnl) : ℤ) := by
  have hmove : totals (settle stake b key p pnl fee) =
      ⟨(totals b).assets + (fee - pnl), (totals b).shares⟩ := by
    simp only [totals, settle]
    congr 1
    omega
  rw [hmove]
  exact claim_moved_le h₀ hle

theorem claim_post_le (he : Posts stake b e) (h₀ : 0 ≤ held) (hle : held ≤ b.shares)
    (hburned : 0 ≤ held + sharesMoved e) :
    claim (totals (post stake b e)) (held + sharesMoved e) + stakeMoved stake e -
      outlay stake e ≤ claim (totals b) held + gain stake e := by
  cases e with
  | quiet => simp [post, sharesMoved, stakeMoved, outlay, inflow, gift, gain, winnings, shortfall]
  | given amount =>
    simp [post, sharesMoved, stakeMoved, outlay, inflow, gift, gain, winnings, shortfall]
  | deposit amount shares =>
    have hclaim := claim_deposit_le (p := totals b) h₀ hle he.2.1 he.2.2
    simp only [totals, Totals.deposit] at hclaim
    simp only [totals, post, sharesMoved, stakeMoved, outlay, inflow, gift, gain, winnings,
      shortfall]
    push_cast
    linarith
  | withdraw shares amount =>
    have hheld : shares ≤ held := by
      simp only [sharesMoved] at hburned
      omega
    have hclaim := claim_withdraw_le (p := totals b) he.1 hheld hle he.2.2.2.2
    simp only [totals, Totals.withdraw, Int.sub_eq_add_neg] at hclaim
    simp only [totals, post, sharesMoved, stakeMoved, outlay, inflow, gift, gain, winnings,
      shortfall, Int.sub_eq_add_neg]
    push_cast
    linarith
  | opened key p fee =>
    have hclaim := claim_moved_le (p := totals b) (d := fee) h₀ hle
    rw [max_eq_right he.2.2.2.le] at hclaim
    simp only [totals] at hclaim
    simp only [totals, post, sharesMoved, stakeMoved, outlay, inflow, gift, gain, winnings,
      shortfall, add_zero]
    push_cast
    linarith
  | closed key p pnl fee =>
    have hclaim : claim (totals (settle stake b key p pnl fee)) held ≤ _ :=
      claim_settle_le h₀ hle
    have hfee := he.feeNonneg
    have hcash : max 0 (fee - pnl) + -(stake p).collateral +
        max 0 ((stake p).collateral + pnl - fee) ≤
          max 0 pnl + max 0 (fee - ((stake p).collateral + pnl)) := by omega
    have hcash' := Int.cast_le (R := ℚ).mpr hcash
    simp only [post, sharesMoved, stakeMoved, outlay, inflow, gift, gain, winnings, shortfall,
      add_zero]
    push_cast at hclaim hcash' ⊢
    linarith
  | liquidated key p pnl =>
    have hclaim : claim (totals (settle stake b key p pnl 0)) held ≤ _ := claim_settle_le h₀ hle
    have hcap := he.capped
    have hcash : max 0 (0 - pnl) + -(stake p).collateral +
        max 0 ((stake p).collateral + pnl) ≤ max 0 pnl := by omega
    have hcash' := Int.cast_le (R := ℚ).mpr hcash
    simp only [post, sharesMoved, stakeMoved, outlay, inflow, gift, gain, winnings, shortfall,
      add_zero]
    push_cast at hclaim hcash' ⊢
    linarith

end Posting

section Holders

variable {κ β : Type} [DecidableEq κ] {f : κ → β → ℤ} {m : Finmap (fun _ : κ => β)}

theorem sum_lookup_le (S : Finset κ) (h : ∀ k b, m.lookup k = some b → 0 ≤ f k b) :
    (∑ k ∈ S, ((m.lookup k).map (f k)).getD 0) ≤ sumBy f m := by
  induction S using Finset.induction_on generalizing m with
  | empty => exact sumBy_nonneg h
  | insert k S hk ih =>
    rw [Finset.sum_insert hk]
    cases hl : m.lookup k with
    | none =>
      have hrest := ih h
      simpa using hrest
    | some b =>
      have hrest := ih (m := m.erase k) fun k' b' hb' => h k' b' (lookup_of_erase hb')
      have hsame : ∀ k' ∈ S, (((m.erase k).lookup k').map (f k')).getD 0 =
          ((m.lookup k').map (f k')).getD 0 := by
        intro k' hk'
        have hne : k' ≠ k := by
          rintro rfl
          exact hk hk'
        rw [Finmap.lookup_erase_ne hne]
      rw [Finset.sum_congr rfl hsame, sumBy_erase hl] at hrest
      simp only [Option.map_some, Option.getD_some]
      omega

end Holders

end PoolClaims
