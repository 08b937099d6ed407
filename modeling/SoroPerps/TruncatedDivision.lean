import Mathlib.Algebra.Order.Group.Unbundled.Int
import Mathlib.Algebra.Order.Ring.Int
import Mathlib.Tactic.Linarith
import Mathlib.Tactic.Ring

/-! # Quotients that truncate toward zero

Fractions are compared with denominators cleared, so that numerator and denominator may both
move. Truncation is odd, which carries every bound across zero. -/
namespace TruncatedDivision

variable {a b c d n : ℤ}

def RatioLE (a b c d : ℤ) : Prop := a * d ≤ c * b

theorem RatioLE.neg (h : RatioLE a b c d) : RatioLE (-c) d (-a) b := by
  unfold RatioLE at h ⊢
  linarith

theorem tdiv_mul_le_of_nonneg (ha : 0 ≤ a) (hb : 0 < b) : a.tdiv b * b ≤ a := by
  rw [Int.tdiv_eq_ediv_of_nonneg ha]
  exact Int.ediv_mul_le a hb.ne'

theorem tdiv_nonpos_of_nonpos (ha : a ≤ 0) (hb : 0 < b) : a.tdiv b ≤ 0 := by
  have hneg : 0 ≤ (-a).tdiv b := Int.tdiv_nonneg (Int.neg_nonneg_of_nonpos ha) hb.le
  rw [Int.neg_tdiv] at hneg
  omega

theorem tdiv_le_tdiv_of_nonneg (ha : 0 ≤ a) (hb : 0 < b) (hd : 0 < d) (h : RatioLE a b c d) :
    a.tdiv b ≤ c.tdiv d := by
  apply Int.le_tdiv_of_mul_le hd
  have hfloor : a.tdiv b * b ≤ a := tdiv_mul_le_of_nonneg ha hb
  refine le_of_mul_le_mul_right ?_ hb
  calc a.tdiv b * d * b
      = a.tdiv b * b * d := by ring
    _ ≤ a * d := mul_le_mul_of_nonneg_right hfloor hd.le
    _ ≤ c * b := h

/-- A larger fraction has the larger truncated quotient, on either side of zero and across it. -/
theorem tdiv_le_tdiv_of_ratioLE (hb : 0 < b) (hd : 0 < d) (h : RatioLE a b c d) :
    a.tdiv b ≤ c.tdiv d := by
  by_cases ha : 0 ≤ a
  · exact tdiv_le_tdiv_of_nonneg ha hb hd h
  · by_cases hc : 0 ≤ c
    · have hleft : a.tdiv b ≤ 0 := tdiv_nonpos_of_nonpos (by omega) hb
      have hright : 0 ≤ c.tdiv d := Int.tdiv_nonneg hc hd.le
      omega
    · have hneg : (-c).tdiv d ≤ (-a).tdiv b := tdiv_le_tdiv_of_nonneg (by omega) hd hb h.neg
      rw [Int.neg_tdiv, Int.neg_tdiv] at hneg
      omega

theorem lt_tdiv_iff (hn : 0 ≤ n) (hb : 0 < b) : n < a.tdiv b ↔ (n + 1) * b ≤ a := by
  constructor
  · intro h
    have ha : 0 ≤ a := by
      by_contra hneg
      have hle : a.tdiv b ≤ 0 := tdiv_nonpos_of_nonpos (by omega) hb
      omega
    exact (mul_le_mul_of_nonneg_right h hb.le).trans (tdiv_mul_le_of_nonneg ha hb)
  · intro h
    have hle : n + 1 ≤ a.tdiv b := Int.le_tdiv_of_mul_le hb h
    omega

theorem abs_tdiv_le {m : ℤ} (hb : 0 < b) (h : |a| ≤ m * b) : |a.tdiv b| ≤ m := by
  obtain ⟨hlow, hhigh⟩ := abs_le.mp h
  have hlow' : (-m * b).tdiv b ≤ a.tdiv b := Int.tdiv_le_tdiv hb (by linarith)
  have hhigh' : a.tdiv b ≤ (m * b).tdiv b := Int.tdiv_le_tdiv hb hhigh
  rw [Int.mul_tdiv_cancel _ hb.ne'] at hlow' hhigh'
  exact abs_le.mpr ⟨hlow', hhigh'⟩

end TruncatedDivision
