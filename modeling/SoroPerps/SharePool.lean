import Mathlib.Algebra.Order.BigOperators.Group.List
import Mathlib.Tactic.Linarith
import Mathlib.Tactic.Ring

/-! # Pools that issue shares at a floor-rounded price

A pool holds assets against shares. Minting and redeeming round down, so what is lost to
rounding stays with the pool; prices are compared with denominators cleared. -/
namespace SharePool

structure Totals where
  assets : ℤ
  shares : ℤ
  deriving DecidableEq, Repr

def minted (p : Totals) (amount : ℤ) : ℤ := amount * p.shares / p.assets

def redeemed (p : Totals) (shares : ℤ) : ℤ := shares * p.assets / p.shares

def Totals.deposit (p : Totals) (amount shares : ℤ) : Totals :=
  ⟨p.assets + amount, p.shares + shares⟩

def Totals.withdraw (p : Totals) (shares amount : ℤ) : Totals :=
  ⟨p.assets - amount, p.shares - shares⟩

def PriceLE (p q : Totals) : Prop := p.assets * q.shares ≤ q.assets * p.shares

variable {p q r : Totals} {a s x g : ℤ}

theorem minted_mul_le (h : 0 < p.assets) : minted p a * p.assets ≤ a * p.shares :=
  Int.ediv_mul_le _ h.ne'

theorem lt_minted_succ_mul (h : 0 < p.assets) : a * p.shares < (minted p a + 1) * p.assets := by
  have hlt := Int.lt_mul_ediv_self_add (x := a * p.shares) h
  unfold minted
  linarith [mul_comm p.assets (a * p.shares / p.assets)]

theorem redeemed_mul_le (h : 0 < p.shares) : redeemed p s * p.shares ≤ s * p.assets :=
  Int.ediv_mul_le _ h.ne'

theorem lt_redeemed_succ_mul (h : 0 < p.shares) :
    s * p.assets < (redeemed p s + 1) * p.shares := by
  have hlt := Int.lt_mul_ediv_self_add (x := s * p.assets) h
  unfold redeemed
  linarith [mul_comm p.shares (s * p.assets / p.shares)]

theorem le_redeemed (h : 0 < p.shares) (hx : x * p.shares ≤ s * p.assets) : x ≤ redeemed p s :=
  Int.le_ediv_of_mul_le h hx

@[simp] theorem PriceLE.refl (p : Totals) : PriceLE p p := le_refl (p.assets * p.shares)

theorem PriceLE.trans (hp : 0 ≤ p.shares) (hq : 0 < q.shares) (hr : 0 ≤ r.shares)
    (hpq : PriceLE p q) (hqr : PriceLE q r) : PriceLE p r := by
  have h1 : p.assets * q.shares * r.shares ≤ q.assets * p.shares * r.shares :=
    mul_le_mul_of_nonneg_right hpq hr
  have h2 : q.assets * r.shares * p.shares ≤ r.assets * q.shares * p.shares :=
    mul_le_mul_of_nonneg_right hqr hp
  refine le_of_mul_le_mul_right ?_ hq
  calc p.assets * r.shares * q.shares
      = p.assets * q.shares * r.shares := by ring
    _ ≤ q.assets * p.shares * r.shares := h1
    _ = q.assets * r.shares * p.shares := by ring
    _ ≤ r.assets * q.shares * p.shares := h2
    _ = r.assets * p.shares * q.shares := by ring

theorem priceLE_deposit (h : s * p.assets ≤ a * p.shares) : PriceLE p (p.deposit a s) := by
  unfold PriceLE Totals.deposit
  linarith [mul_comm p.assets p.shares, mul_comm s p.assets]

theorem priceLE_withdraw (h : x * p.shares ≤ s * p.assets) : PriceLE p (p.withdraw s x) := by
  unfold PriceLE Totals.withdraw
  linarith [mul_comm p.assets s]

theorem priceLE_gain (hp : 0 ≤ p.shares) (hg : 0 ≤ g) :
    PriceLE p ⟨p.assets + g, p.shares⟩ := by
  unfold PriceLE
  exact mul_le_mul_of_nonneg_right (le_add_of_nonneg_right hg) hp

theorem redeemed_mono (hs : 0 ≤ s) (hp : 0 < p.shares) (hq : 0 < q.shares) (h : PriceLE p q) :
    redeemed p s ≤ redeemed q s := by
  apply le_redeemed hq
  have hfloor := redeemed_mul_le (s := s) hp
  refine le_of_mul_le_mul_right ?_ hp
  calc redeemed p s * q.shares * p.shares
      = redeemed p s * p.shares * q.shares := by ring
    _ ≤ s * p.assets * q.shares := mul_le_mul_of_nonneg_right hfloor hq.le
    _ = s * (p.assets * q.shares) := by ring
    _ ≤ s * (q.assets * p.shares) := mul_le_mul_of_nonneg_left h hs
    _ = s * q.assets * p.shares := by ring

theorem round_trip_le (hpos : 0 < p.shares + s) (h : s * p.assets ≤ a * p.shares) :
    redeemed (p.deposit a s) s ≤ a := by
  have hfloor : redeemed (p.deposit a s) s * (p.shares + s) ≤ s * (p.assets + a) :=
    redeemed_mul_le (p := p.deposit a s) hpos
  refine le_of_mul_le_mul_right ?_ hpos
  calc redeemed (p.deposit a s) s * (p.shares + s)
      ≤ s * (p.assets + a) := hfloor
    _ = s * p.assets + a * s := by ring
    _ ≤ a * p.shares + a * s := by linarith
    _ = a * (p.shares + s) := by ring

/-- It returns less than the deposit by less than one share's worth and one unit, provided the
shares were the proportional number rounded down. -/
theorem round_trip_loss_lt (hpos : 0 < p.shares + s) (ha : 0 ≤ a)
    (h : a * p.shares < (s + 1) * p.assets) :
    (a - redeemed (p.deposit a s) s - 1) * (p.shares + s) < p.assets + a := by
  have hfloor : s * (p.assets + a) < (redeemed (p.deposit a s) s + 1) * (p.shares + s) :=
    lt_redeemed_succ_mul (p := p.deposit a s) hpos
  calc (a - redeemed (p.deposit a s) s - 1) * (p.shares + s)
      = a * p.shares + a * s - (redeemed (p.deposit a s) s + 1) * (p.shares + s) := by ring
    _ < (s + 1) * p.assets + a * s - s * (p.assets + a) := by linarith
    _ = p.assets := by ring
    _ ≤ p.assets + a := by omega

/-- Minting one share for each asset in a pool that has shares but no assets. The newcomer then
keeps all but one share's worth only if it holds, or faces, a single share, or two against two. -/
theorem mint_unbacked_loss_iff {t : ℤ} (ha : 0 < a) (ht : 0 < t) :
    (a - redeemed ⟨a, t + a⟩ a - 1) * (t + a) < a ↔ a * t ≤ a + t := by
  have hpos : 0 < t + a := by omega
  have hdiv : redeemed ⟨a, t + a⟩ a * (t + a) + a * a % (t + a) = a * a :=
    Int.ediv_mul_add_emod (a * a) (t + a)
  have hrem := Int.emod_nonneg (a * a) hpos.ne'
  have hlt := Int.emod_lt_of_pos (a * a) hpos
  have hquot : 0 ≤ redeemed ⟨a, t + a⟩ a :=
    Int.ediv_nonneg (mul_nonneg ha.le ha.le) hpos.le
  generalize redeemed ⟨a, t + a⟩ a = q at *
  generalize a * a % (t + a) = r at *
  -- with the remainder `r` the inequality is linear in the product `a * t`
  have hexpand : (a - q - 1) * (t + a) = a * t + r - t - a := by linarith [hdiv]
  rw [hexpand]
  constructor
  · intro h
    by_contra hbig
    have ha2 : 2 ≤ a := by
      by_contra hone
      obtain rfl : a = 1 := by omega
      omega
    rcases (by omega : t = 1 ∨ t = 2 ∨ 3 ≤ t) with rfl | rfl | ht3
    · omega
    · -- `a * a` leaves remainder 4 modulo `a + 2`
      have hmul : (q - (a - 2)) * (a + 2) = 4 - r := by linarith
      rcases le_or_gt (q - (a - 2)) 0 with hk | hk
      · have := mul_nonpos_of_nonpos_of_nonneg hk (by omega : 0 ≤ a + 2)
        omega
      · have := mul_le_mul_of_nonneg_right (by omega : 1 ≤ q - (a - 2)) (by omega : 0 ≤ a + 2)
        omega
    · have hprod : (a - 1) * (t - 2) ≤ 1 - r := by linarith
      have ha1 := mul_le_mul_of_nonneg_left (by omega : 1 ≤ t - 2) (by omega : 0 ≤ a - 1)
      have ht1 := mul_le_mul_of_nonneg_right (by omega : 1 ≤ a - 1) (by omega : 0 ≤ t - 2)
      obtain rfl : a = 2 := by omega
      obtain rfl : t = 3 := by omega
      omega
  · intro h
    rcases (by omega : a = 1 ∨ t = 1 ∨ (2 ≤ a ∧ 2 ≤ t)) with rfl | rfl | ⟨ha2, ht2⟩
    · have := mul_nonneg hquot hpos.le
      omega
    · omega
    · have hprod : (a - 1) * (t - 1) ≤ 1 := by linarith
      have ha1 := mul_le_mul_of_nonneg_left (by omega : 1 ≤ t - 1) (by omega : 0 ≤ a - 1)
      have ht1 := mul_le_mul_of_nonneg_right (by omega : 1 ≤ a - 1) (by omega : 0 ≤ t - 1)
      obtain rfl : a = 2 := by omega
      obtain rfl : t = 2 := by omega
      omega

section Pieces

def redeemEach (p : Totals) : List ℤ → ℤ
  | [] => 0
  | s :: ss => redeemed p s + redeemEach (p.withdraw s (redeemed p s)) ss

def mintEach (p : Totals) : List ℤ → ℤ
  | [] => 0
  | a :: as => minted p a + mintEach (p.deposit a (minted p a)) as

variable {ss as : List ℤ}

theorem priceLE_redeemed (h : 0 < p.shares) : PriceLE p (p.withdraw s (redeemed p s)) :=
  priceLE_withdraw (redeemed_mul_le h)

theorem shares_left (hne : ss ≠ []) (hpos : ∀ s ∈ ss, 0 < s)
    (hle : (s :: ss).sum ≤ p.shares) : 0 < (p.withdraw s x).shares := by
  have hrest : 0 < ss.sum := List.sum_pos ss hpos hne
  rw [List.sum_cons] at hle
  simp only [Totals.withdraw]
  omega

theorem priceLE_redeemEach (hp : 0 < p.shares) (hpos : ∀ s ∈ ss, 0 < s)
    (hle : ss.sum ≤ p.shares) : PriceLE p (p.withdraw ss.sum (redeemEach p ss)) := by
  induction ss generalizing p with
  | nil => simp [redeemEach, Totals.withdraw]
  | cons s ss ih =>
    have hss : ∀ s ∈ ss, 0 < s := (List.forall_mem_cons.mp hpos).2
    have hfirst : PriceLE p (p.withdraw s (redeemed p s)) := priceLE_redeemed hp
    by_cases hlast : ss = []
    · subst hlast
      simpa [redeemEach] using hfirst
    · have hleft : 0 < (p.withdraw s (redeemed p s)).shares := shares_left hlast hss hle
      have hsum : (s :: ss).sum = s + ss.sum := List.sum_cons
      have hrest : PriceLE (p.withdraw s (redeemed p s)) _ := ih hleft hss (by
        simp only [Totals.withdraw]
        omega)
      have hall := hfirst.trans hp.le hleft (by simp only [Totals.withdraw]; omega) hrest
      simpa [Totals.withdraw, redeemEach, hsum, sub_sub] using hall

theorem redeemEach_le (hp : 0 < p.shares) (hpos : ∀ s ∈ ss, 0 < s) (hle : ss.sum ≤ p.shares) :
    redeemEach p ss ≤ redeemed p ss.sum := by
  apply le_redeemed hp
  have hprice := priceLE_redeemEach hp hpos hle
  simp only [PriceLE, Totals.withdraw] at hprice
  linarith [mul_comm p.assets ss.sum]

/-- Every piece loses less than one unit to rounding. -/
theorem lt_redeemEach_add_length (hne : ss ≠ []) (hp : 0 < p.shares) (hpos : ∀ s ∈ ss, 0 < s)
    (hle : ss.sum ≤ p.shares) : ss.sum * p.assets < (redeemEach p ss + ss.length) * p.shares := by
  induction ss generalizing p with
  | nil => exact absurd rfl hne
  | cons s ss ih =>
    have hss : ∀ s ∈ ss, 0 < s := (List.forall_mem_cons.mp hpos).2
    have hfirst : s * p.assets < (redeemed p s + 1) * p.shares := lt_redeemed_succ_mul hp
    by_cases hlast : ss = []
    · subst hlast
      simpa [redeemEach] using hfirst
    · have hleft : 0 < (p.withdraw s (redeemed p s)).shares := shares_left hlast hss hle
      have hsum : (s :: ss).sum = s + ss.sum := List.sum_cons
      have hrest := ih hlast hleft hss (by simp only [Totals.withdraw]; omega)
      have hprice : PriceLE p (p.withdraw s (redeemed p s)) := priceLE_redeemed hp
      have hnonneg : 0 ≤ ss.sum := (List.sum_pos ss hss hlast).le
      -- at the higher price of the remaining pool the rest is worth at least as much
      have hcarry : ss.sum * p.assets <
          (redeemEach (p.withdraw s (redeemed p s)) ss + ss.length) * p.shares := by
        refine lt_of_mul_lt_mul_right ?_ hleft.le
        calc ss.sum * p.assets * (p.withdraw s (redeemed p s)).shares
            = ss.sum * (p.assets * (p.withdraw s (redeemed p s)).shares) := by ring
          _ ≤ ss.sum * ((p.withdraw s (redeemed p s)).assets * p.shares) :=
              mul_le_mul_of_nonneg_left hprice hnonneg
          _ = ss.sum * (p.withdraw s (redeemed p s)).assets * p.shares := by ring
          _ < (redeemEach (p.withdraw s (redeemed p s)) ss + ss.length) *
                (p.withdraw s (redeemed p s)).shares * p.shares :=
              mul_lt_mul_of_pos_right hrest hp
          _ = (redeemEach (p.withdraw s (redeemed p s)) ss + ss.length) * p.shares *
                (p.withdraw s (redeemed p s)).shares := by ring
      rw [hsum, redeemEach, List.length_cons]
      push_cast
      linarith

/-- Redeeming at once pays at most one unit more for each piece but the first. -/
theorem redeemed_le_redeemEach (hne : ss ≠ []) (hp : 0 < p.shares) (hpos : ∀ s ∈ ss, 0 < s)
    (hle : ss.sum ≤ p.shares) : redeemed p ss.sum - (ss.length - 1) ≤ redeemEach p ss := by
  have hlt := lt_redeemEach_add_length hne hp hpos hle
  have hfloor := redeemed_mul_le (s := ss.sum) hp
  have := lt_of_mul_lt_mul_right (hfloor.trans_lt hlt) hp.le
  omega

/-- The second piece can cost the whole unit. -/
example : redeemEach ⟨10, 4⟩ [1, 1] = 4 ∧ redeemed ⟨10, 4⟩ 2 = 5 := by decide

theorem priceLE_mintEach (hs : 0 < p.shares) (ha : 0 < p.assets) (hpos : ∀ a ∈ as, 0 ≤ a) :
    0 ≤ mintEach p as ∧ PriceLE p (p.deposit as.sum (mintEach p as)) := by
  induction as generalizing p with
  | nil => simp [mintEach, Totals.deposit]
  | cons a as ih =>
    obtain ⟨hfirst, has⟩ := List.forall_mem_cons.mp hpos
    have hm : 0 ≤ minted p a := Int.ediv_nonneg (mul_nonneg hfirst hs.le) ha.le
    have hprice : PriceLE p (p.deposit a (minted p a)) := priceLE_deposit (minted_mul_le ha)
    have hmore : 0 < (p.deposit a (minted p a)).shares := by
      simp only [Totals.deposit]
      omega
    obtain ⟨hnonneg, hrest⟩ := ih hmore (by simp only [Totals.deposit]; omega) has
    have hall := hprice.trans hs.le hmore (by
      simp only [Totals.deposit] at hnonneg ⊢
      omega) hrest
    refine ⟨add_nonneg hm hnonneg, ?_⟩
    simpa [Totals.deposit, mintEach, add_assoc] using hall

theorem mintEach_le (hs : 0 < p.shares) (ha : 0 < p.assets) (hpos : ∀ a ∈ as, 0 ≤ a) :
    mintEach p as ≤ minted p as.sum := by
  apply Int.le_ediv_of_mul_le ha
  have hprice := (priceLE_mintEach hs ha hpos).2
  simp only [PriceLE, Totals.deposit] at hprice
  linarith [mul_comm p.assets (mintEach p as)]

end Pieces

section Leaving

/-- What is left of a pool after at most `k` redemptions, each rounded down: its price has risen,
and by no more than `k` units spread over what is left. -/
structure LeftBy (p q : Totals) (k : ℕ) : Prop where
  shares_nonneg : 0 ≤ q.shares
  shares_le : q.shares ≤ p.shares
  assets_nonneg : 0 ≤ q.assets
  assets_le : q.assets ≤ p.assets
  price : PriceLE p q
  excess : q.assets * p.shares ≤ p.assets * q.shares + k * p.shares

variable {k : ℕ}

theorem LeftBy.refl (hs : 0 ≤ p.shares) (ha : 0 ≤ p.assets) : LeftBy p p 0 :=
  ⟨hs, le_rfl, ha, le_rfl, .refl p, by simp⟩

theorem LeftBy.skip (h : LeftBy p q k) : LeftBy p q (k + 1) := by
  have hshares : 0 ≤ p.shares := h.shares_nonneg.trans h.shares_le
  refine { h with excess := ?_ }
  have hexcess := h.excess
  push_cast
  linarith

theorem redeemed_nonneg (hs : 0 ≤ s) (ha : 0 ≤ p.assets) (hp : 0 < p.shares) : 0 ≤ redeemed p s :=
  Int.ediv_nonneg (mul_nonneg hs ha) hp.le

theorem redeemed_le_assets (hle : s ≤ p.shares) (ha : 0 ≤ p.assets) (hp : 0 < p.shares) :
    redeemed p s ≤ p.assets := by
  have hfloor := redeemed_mul_le (s := s) hp
  refine le_of_mul_le_mul_right ?_ hp
  have hmul := mul_le_mul_of_nonneg_right hle ha
  linarith [mul_comm p.assets p.shares]

theorem redeemed_all (hp : 0 < p.shares) : redeemed p p.shares = p.assets :=
  Int.mul_ediv_cancel_left _ hp.ne'

theorem LeftBy.redeem (h : LeftBy p q k) (hs : 0 ≤ s) (hle : s ≤ q.shares) (hq : 0 < q.shares) :
    LeftBy p (q.withdraw s (redeemed q s)) (k + 1) := by
  have hp : 0 < p.shares := hq.trans_le h.shares_le
  have hnonneg := redeemed_nonneg hs h.assets_nonneg hq
  have hassets := redeemed_le_assets hle h.assets_nonneg hq
  have hshares := h.shares_le
  have htotal := h.assets_le
  constructor <;> simp only [Totals.withdraw]
  · omega
  · omega
  · omega
  · omega
  · exact h.price.trans hp.le hq (by simp only; omega) (priceLE_redeemed hq)
  · -- a redemption leaves less than a unit behind, at the price of the pool it starts from
    have hprice : p.assets * q.shares ≤ q.assets * p.shares := h.price
    have hfloor : s * q.assets < (redeemed q s + 1) * q.shares := lt_redeemed_succ_mul hq
    have hrounding : s * p.assets < (redeemed q s + 1) * p.shares := by
      refine lt_of_mul_lt_mul_right ?_ hq.le
      calc s * p.assets * q.shares
          = s * (p.assets * q.shares) := by ring
        _ ≤ s * (q.assets * p.shares) := mul_le_mul_of_nonneg_left hprice hs
        _ = s * q.assets * p.shares := by ring
        _ < (redeemed q s + 1) * q.shares * p.shares := mul_lt_mul_of_pos_right hfloor hp
        _ = (redeemed q s + 1) * p.shares * q.shares := by ring
    have hexcess := h.excess
    push_cast
    linarith

theorem LeftBy.redeemed_ge (h : LeftBy p q k) (hs : 0 ≤ s) (hq : 0 < q.shares) :
    redeemed p s ≤ redeemed q s :=
  redeemed_mono hs (hq.trans_le h.shares_le) hq h.price

/-- Redeeming later pays at most one unit more for each redemption waited for. -/
theorem LeftBy.redeemed_le (h : LeftBy p q k) (hs : 0 ≤ s) (hle : s ≤ q.shares)
    (hq : 0 < q.shares) : redeemed q s ≤ redeemed p s + k := by
  have hp : 0 < p.shares := hq.trans_le h.shares_le
  have hfloor : redeemed q s * q.shares ≤ s * q.assets := redeemed_mul_le hq
  have hunits : s * (k * p.shares) ≤ q.shares * (k * p.shares) :=
    mul_le_mul_of_nonneg_right hle (mul_nonneg (Int.natCast_nonneg k) hp.le)
  have hbound : (redeemed q s - k) * p.shares ≤ s * p.assets := by
    refine le_of_mul_le_mul_right ?_ hq
    calc (redeemed q s - k) * p.shares * q.shares
        = redeemed q s * q.shares * p.shares - q.shares * (k * p.shares) := by ring
      _ ≤ s * q.assets * p.shares - q.shares * (k * p.shares) :=
          sub_le_sub_right (mul_le_mul_of_nonneg_right hfloor hp.le) _
      _ = s * (q.assets * p.shares) - q.shares * (k * p.shares) := by ring
      _ ≤ s * (p.assets * q.shares + k * p.shares) - q.shares * (k * p.shares) :=
          sub_le_sub_right (mul_le_mul_of_nonneg_left h.excess hs) _
      _ ≤ s * p.assets * q.shares := by linarith
  have hle := le_redeemed hp hbound
  omega

end Leaving

end SharePool
