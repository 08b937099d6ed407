import SoroPerps.FinmapSums
import SoroPerps.SharePool

/-! # The books of a leveraged pool

What a pool owes, apart from who holds it: deposits against shares, liquidity locked against
open stakes, and the collateral of each stake. Every event of the pool is one journal entry. -/
namespace PoolBooks

open FinmapSums SharePool

structure Stake where
  size : ℤ
  collateral : ℤ
  long : Bool
  deriving DecidableEq, Repr

structure Books (κ π : Type) where
  deposits : ℤ
  shares : ℤ
  locked : ℤ
  interestLong : ℤ
  interestShort : ℤ
  positions : Finmap (fun _ : κ => π)

inductive Entry (κ π : Type) where
  | quiet
  | given (amount : ℤ)
  | deposit (amount shares : ℤ)
  | withdraw (shares amount : ℤ)
  | opened (key : κ) (p : π) (fee : ℤ)
  | closed (key : κ) (p : π) (pnl fee : ℤ)
  | liquidated (key : κ) (p : π) (pnl : ℤ)
  deriving DecidableEq, Repr

variable {κ π : Type} [DecidableEq κ] (stake : π → Stake)

def longSize (p : π) : ℤ := if (stake p).long then (stake p).size else 0

def shortSize (p : π) : ℤ := if (stake p).long then 0 else (stake p).size

def settle (b : Books κ π) (key : κ) (p : π) (pnl fee : ℤ) : Books κ π :=
  { b with
    deposits := b.deposits - pnl + fee
    locked := b.locked - (stake p).size
    interestLong := b.interestLong - longSize stake p
    interestShort := b.interestShort - shortSize stake p
    positions := b.positions.erase key }

def post (b : Books κ π) : Entry κ π → Books κ π
  | .quiet | .given _ => b
  | .deposit amount shares =>
    { b with deposits := b.deposits + amount, shares := b.shares + shares }
  | .withdraw shares amount =>
    { b with deposits := b.deposits - amount, shares := b.shares - shares }
  | .opened key p fee =>
    { b with
      deposits := b.deposits + fee
      locked := b.locked + (stake p).size
      interestLong := b.interestLong + longSize stake p
      interestShort := b.interestShort + shortSize stake p
      positions := b.positions.insert key p }
  | .closed key p pnl fee => settle stake b key p pnl fee
  | .liquidated key p pnl => settle stake b key p pnl 0

/-- A settled stake was on record, loses at most its collateral and leaves no counter negative. -/
structure Settles (b : Books κ π) (key : κ) (p : π) (pnl fee : ℤ) : Prop where
  recorded : b.positions.lookup key = some p
  capped : -(stake p).collateral ≤ pnl
  feeNonneg : 0 ≤ fee
  locked : (stake p).size ≤ b.locked
  deposits : 0 ≤ b.deposits - pnl + fee

def Posts (b : Books κ π) : Entry κ π → Prop
  | .quiet | .given _ => True
  | .deposit amount shares => 0 < amount ∧ 0 < shares ∧
    (b.shares ≠ 0 → shares * b.deposits ≤ amount * b.shares)
  | .withdraw shares amount => 0 < shares ∧ shares ≤ b.shares ∧ 0 < amount ∧
    amount ≤ b.deposits ∧ amount * b.shares ≤ shares * b.deposits
  | .opened key p fee => b.positions.lookup key = none ∧ 0 < (stake p).size ∧
    0 < (stake p).collateral ∧ 0 < fee
  | .closed key p pnl fee => Settles stake b key p pnl fee
  | .liquidated key p pnl => Settles stake b key p pnl 0

/-- The assets an entry brings in. A settlement never pays out less than nothing. -/
def inflow : Entry κ π → ℤ
  | .quiet => 0
  | .given amount => amount
  | .deposit amount _ => amount
  | .withdraw _ amount => -amount
  | .opened _ p fee => (stake p).collateral + fee
  | .closed _ p pnl fee => -max 0 ((stake p).collateral + pnl - fee)
  | .liquidated _ p pnl => -max 0 ((stake p).collateral + pnl)

/-- The part of a close fee that nobody paid, because the stake had too little left. -/
def shortfall : Entry κ π → ℤ
  | .closed _ p pnl fee => max 0 (fee - ((stake p).collateral + pnl))
  | _ => 0

def feeCharged : Entry κ π → ℤ
  | .closed _ _ _ fee => fee
  | _ => 0

def gift : Entry κ π → ℤ
  | .given amount => amount
  | _ => 0

def openCollateral (b : Books κ π) : ℤ := sumBy (fun _ p => (stake p).collateral) b.positions

/-- What the pool owes: its depositors their deposits, each open stake its collateral. -/
def owed (b : Books κ π) : ℤ := b.deposits + openCollateral stake b

/-- A settlement in which the stake wins more than the fee it is charged. -/
def Wins : Entry κ π → Prop
  | .closed _ _ pnl fee => fee < pnl
  | .liquidated _ _ pnl => 0 < pnl
  | _ => False

def totals (b : Books κ π) : Totals := ⟨b.deposits, b.shares⟩

/-- What an entry must respect for the locked liquidity to stay within the deposits. -/
def KeepsCover (b : Books κ π) : Entry κ π → Prop
  | .opened _ p _ => b.locked + (stake p).size ≤ b.deposits
  | .withdraw _ amount => b.locked ≤ b.deposits - amount
  | .closed _ p pnl _ => pnl ≤ (stake p).size
  | .liquidated _ p pnl => pnl ≤ (stake p).size
  | _ => True

structure Sound (b : Books κ π) : Prop where
  long : b.interestLong = sumBy (fun _ p => longSize stake p) b.positions
  short : b.interestShort = sumBy (fun _ p => shortSize stake p) b.positions
  locked : b.locked = b.interestLong + b.interestShort
  sizes : ∀ key p, b.positions.lookup key = some p → 0 < (stake p).size
  collaterals : ∀ key p, b.positions.lookup key = some p → 0 < (stake p).collateral
  deposits : 0 ≤ b.deposits
  shares : 0 ≤ b.shares

def emptyBooks : Books κ π := ⟨0, 0, 0, 0, 0, ∅⟩

theorem sound_empty : Sound stake (emptyBooks : Books κ π) := by
  constructor
  · rfl
  · rfl
  · rfl
  · intro key p h
    simp [emptyBooks] at h
  · intro key p h
    simp [emptyBooks] at h
  · exact le_refl 0
  · exact le_refl 0

section Posting

variable {stake} {b : Books κ π} {e : Entry κ π} {key : κ} {p : π} {pnl fee : ℤ}

theorem longSize_add_shortSize (stake : π → Stake) (p : π) :
    longSize stake p + shortSize stake p = (stake p).size := by
  by_cases h : (stake p).long
  · simp [longSize, shortSize, h]
  · simp [longSize, shortSize, h]

theorem Sound.locked_eq (h : Sound stake b) :
    b.locked = sumBy (fun _ p => (stake p).size) b.positions := by
  rw [h.locked, h.long, h.short, ← sumBy_add]
  simp only [longSize_add_shortSize]

theorem Sound.size_le_locked (h : Sound stake b) (hp : b.positions.lookup key = some p) :
    (stake p).size ≤ b.locked := by
  rw [h.locked_eq]
  apply le_sumBy _ hp
  intro k q hq
  exact (h.sizes k q hq).le

theorem sound_settle (h : Sound stake b) (hs : Settles stake b key p pnl fee) :
    Sound stake (settle stake b key p pnl fee) := by
  constructor
  · simp only [settle, sumBy_erase hs.recorded, h.long]
  · simp only [settle, sumBy_erase hs.recorded, h.short]
  · simp only [settle, h.locked, ← longSize_add_shortSize stake p]
    omega
  · intro k q hq
    exact h.sizes k q (lookup_of_erase hq)
  · intro k q hq
    exact h.collaterals k q (lookup_of_erase hq)
  · exact hs.deposits
  · exact h.shares

theorem sound_post (h : Sound stake b) (he : Posts stake b e) : Sound stake (post stake b e) := by
  cases e with
  | quiet => exact h
  | given amount => exact h
  | deposit amount shares =>
    obtain ⟨ha, hs, -⟩ := he
    have hdeposits : 0 ≤ b.deposits + amount := add_nonneg h.deposits ha.le
    have hshares : 0 ≤ b.shares + shares := add_nonneg h.shares hs.le
    exact { h with deposits := hdeposits, shares := hshares }
  | withdraw shares amount =>
    obtain ⟨-, hs, -, ha, -⟩ := he
    have hdeposits : 0 ≤ b.deposits - amount := Int.sub_nonneg.mpr ha
    have hshares : 0 ≤ b.shares - shares := Int.sub_nonneg.mpr hs
    exact { h with deposits := hdeposits, shares := hshares }
  | opened key p fee =>
    obtain ⟨hnew, hsize, hcoll, hfee⟩ := he
    have hdeposits : 0 ≤ b.deposits + fee := add_nonneg h.deposits hfee.le
    constructor
    · simp only [post, sumBy_insert_new hnew, h.long]
    · simp only [post, sumBy_insert_new hnew, h.short]
    · simp only [post, h.locked, ← longSize_add_shortSize stake p]
      omega
    · intro k q hq
      rcases lookup_of_insert hq with ⟨-, rfl⟩ | hq
      · exact hsize
      · exact h.sizes k q hq
    · intro k q hq
      rcases lookup_of_insert hq with ⟨-, rfl⟩ | hq
      · exact hcoll
      · exact h.collaterals k q hq
    · exact hdeposits
    · exact h.shares
  | closed key p pnl fee => exact sound_settle h he
  | liquidated key p pnl => exact sound_settle h he

/-- Every entry changes what is owed by what it brings in, apart from gifts, which are owed to
nobody, and unpaid fees, which are owed all the same. -/
theorem owed_post (he : Posts stake b e) :
    owed stake (post stake b e) =
      owed stake b + inflow stake e + shortfall stake e - gift e := by
  cases e with
  | quiet => simp [post, inflow, shortfall, gift]
  | given amount => simp [post, inflow, shortfall, gift]
  | deposit amount shares =>
    simp only [owed, openCollateral, post, inflow, shortfall, gift]
    omega
  | withdraw shares amount =>
    simp only [owed, openCollateral, post, inflow, shortfall, gift]
    omega
  | opened key p fee =>
    simp only [owed, openCollateral, post, inflow, shortfall, gift, sumBy_insert_new he.1]
    omega
  | closed key p pnl fee =>
    simp only [owed, openCollateral, post, settle, inflow, shortfall, gift,
      sumBy_erase he.recorded]
    omega
  | liquidated key p pnl =>
    have hcap := he.capped
    simp only [owed, openCollateral, post, settle, inflow, shortfall, gift,
      sumBy_erase he.recorded]
    omega

theorem shortfall_le_feeCharged (he : Posts stake b e) : shortfall stake e ≤ feeCharged e := by
  cases e with
  | closed key p pnl fee =>
    have hcap := he.capped
    have hfee := he.feeNonneg
    simp only [shortfall, feeCharged]
    omega
  | _ => simp [shortfall, feeCharged]

theorem priceLE_post (h : Sound stake b) (he : Posts stake b e) (hs : b.shares ≠ 0)
    (hw : ¬ Wins e) : PriceLE (totals b) (totals (post stake b e)) := by
  have hnonneg : 0 ≤ (totals b).shares := h.shares
  cases e with
  | quiet => exact PriceLE.refl _
  | given amount => exact PriceLE.refl _
  | deposit amount shares => exact priceLE_deposit (p := totals b) (he.2.2 hs)
  | withdraw shares amount => exact priceLE_withdraw (p := totals b) he.2.2.2.2
  | opened key p fee => exact priceLE_gain hnonneg he.2.2.2.le
  | closed key p pnl fee =>
    have hgain : 0 ≤ fee - pnl := by simpa [Wins] using hw
    have hmove : b.deposits - pnl + fee = b.deposits + (fee - pnl) := by omega
    simpa [totals, post, settle, hmove] using priceLE_gain hnonneg hgain
  | liquidated key p pnl =>
    have hgain : 0 ≤ -pnl := by simpa [Wins] using hw
    have hmove : b.deposits - pnl + 0 = b.deposits + -pnl := by omega
    simpa [totals, post, settle, hmove] using priceLE_gain hnonneg hgain

theorem cover_post (h : b.locked ≤ b.deposits) (he : Posts stake b e)
    (hc : KeepsCover stake b e) :
    (post stake b e).locked ≤ (post stake b e).deposits := by
  cases e with
  | quiet => exact h
  | given amount => exact h
  | deposit amount shares =>
    have hamount := he.1
    simp only [post]
    omega
  | withdraw shares amount => exact hc
  | opened key p fee =>
    have hfee := he.2.2.2
    simp only [KeepsCover] at hc
    simp only [post]
    omega
  | closed key p pnl fee =>
    have hfee := he.feeNonneg
    simp only [KeepsCover] at hc
    simp only [post, settle]
    omega
  | liquidated key p pnl =>
    simp only [KeepsCover] at hc
    simp only [post, settle]
    omega

/-- Under cover, a recorded stake that wins at most its size can always be settled. -/
theorem settlement_covered (hs : Sound stake b) (h : b.locked ≤ b.deposits)
    (hp : b.positions.lookup key = some p) (hpnl : pnl ≤ (stake p).size) (hfee : 0 ≤ fee) :
    0 ≤ b.deposits - pnl + fee := by
  have hsize := hs.size_le_locked hp
  omega

end Posting

end PoolBooks
