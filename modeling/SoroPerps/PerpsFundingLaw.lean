import SoroPerps.PerpsSystem
import SoroPerps.TruncatedDivision

/-! # The law of the funding rate

The rate follows the skew of the open interest, truncated and clamped, and the spread is added on
both sides. Whether the lighter side receives anything depends on the spread. -/
namespace PerpsFundingLaw

open SorobanHost PerpsTypes PerpsPositionManager PerpsFundingRate PerpsSystem TruncatedDivision

variable {N : Network}

section Clamping

variable {v v' m n : ℤ}

theorem clamp_mono (hm : 0 ≤ m) (h : v ≤ v') : clamp v (-m) m ≤ clamp v' (-m) m := by
  unfold clamp
  split_ifs <;> omega

theorem clamp_neg (hm : 0 ≤ m) : clamp (-v) (-m) m = -clamp v (-m) m := by
  unfold clamp
  split_ifs <;> omega

theorem abs_clamp_le (hm : 0 ≤ m) : |clamp v (-m) m| ≤ m := by
  rw [abs_le]
  unfold clamp
  split_ifs <;> omega

theorem abs_clamp_le_abs (hm : 0 ≤ m) : |clamp v (-m) m| ≤ |v| := by
  unfold clamp
  split_ifs
  · rw [abs_neg, abs_of_nonneg hm, le_abs]
    omega
  · rw [abs_of_nonneg hm, le_abs]
    omega
  · exact le_refl _

theorem clamp_nonneg (hm : 0 ≤ m) (hv : 0 ≤ v) : 0 ≤ clamp v (-m) m := by
  unfold clamp
  split_ifs <;> omega

theorem lt_clamp_iff (hn : 0 ≤ n) (hm : 0 ≤ m) : n < clamp v (-m) m ↔ n < m ∧ n < v := by
  unfold clamp
  split_ifs <;> omega

end Clamping

section Rates

/-- How far the longs outweigh the shorts, in basis points of the open interest. -/
def skewBps (oiLong oiShort : ℤ) : ℤ := ((oiLong - oiShort) * 10000).tdiv (oiLong + oiShort)

def baseRate (oiLong oiShort maxRate : ℤ) : ℤ := clamp (skewBps oiLong oiShort) (-maxRate) maxRate

def longRate (oiLong oiShort maxRate spread : ℤ) : ℤ := baseRate oiLong oiShort maxRate + spread

def shortRate (oiLong oiShort maxRate spread : ℤ) : ℤ :=
  -(baseRate oiLong oiShort maxRate - spread)

structure RatesFit (oiLong oiShort maxRate spread : ℤ) : Prop where
  difference : InI128 (oiLong - oiShort)
  scaled : InI128 ((oiLong - oiShort) * 10000)
  skew : InI128 (skewBps oiLong oiShort)
  long : InI128 (longRate oiLong oiShort maxRate spread)
  received : InI128 (baseRate oiLong oiShort maxRate - spread)
  short : InI128 (shortRate oiLong oiShort maxRate spread)

variable {oiLong oiShort oi maxRate spread : ℤ}

theorem baseRate_swap (hm : 0 ≤ maxRate) :
    baseRate oiShort oiLong maxRate = -baseRate oiLong oiShort maxRate := by
  have hskew : skewBps oiShort oiLong = -skewBps oiLong oiShort := by
    unfold skewBps
    rw [← Int.neg_tdiv, add_comm oiShort oiLong]
    congr 1
    ring
  unfold baseRate
  rw [hskew, clamp_neg hm]

theorem longRate_swap (hm : 0 ≤ maxRate) :
    longRate oiShort oiLong maxRate spread = shortRate oiLong oiShort maxRate spread := by
  unfold longRate shortRate
  rw [baseRate_swap hm]
  ring

theorem shortRate_swap (hm : 0 ≤ maxRate) :
    shortRate oiShort oiLong maxRate spread = longRate oiLong oiShort maxRate spread := by
  unfold longRate shortRate
  rw [baseRate_swap hm]
  ring

theorem abs_longRate_sub (hm : 0 ≤ maxRate) :
    |longRate oiLong oiShort maxRate spread - spread| ≤ maxRate := by
  unfold longRate
  rw [add_sub_cancel_right]
  exact abs_clamp_le hm

theorem abs_shortRate_sub (hm : 0 ≤ maxRate) :
    |shortRate oiLong oiShort maxRate spread - spread| ≤ maxRate := by
  rw [← longRate_swap hm]
  exact abs_longRate_sub hm

theorem abs_longRate_le (hm : 0 ≤ maxRate) (hspread : 0 ≤ spread) :
    |longRate oiLong oiShort maxRate spread| ≤ maxRate + spread := by
  have h : |longRate oiLong oiShort maxRate spread - spread| ≤ maxRate := abs_longRate_sub hm
  rw [abs_le] at h ⊢
  omega

theorem abs_shortRate_le (hm : 0 ≤ maxRate) (hspread : 0 ≤ spread) :
    |shortRate oiLong oiShort maxRate spread| ≤ maxRate + spread := by
  rw [← longRate_swap hm]
  exact abs_longRate_le hm hspread

theorem longRate_add_shortRate :
    longRate oiLong oiShort maxRate spread + shortRate oiLong oiShort maxRate spread =
      2 * spread := by
  unfold longRate shortRate
  ring

theorem abs_skewBps_le (hl : 0 ≤ oiLong) (hs : 0 ≤ oiShort) (ht : 0 < oiLong + oiShort) :
    |skewBps oiLong oiShort| ≤ 10000 := by
  apply abs_tdiv_le ht
  rw [abs_le]
  omega

theorem skewBps_mono_long (hs : 0 ≤ oiShort) (ht : 0 < oiLong + oiShort) (h : oiLong ≤ oi) :
    skewBps oiLong oiShort ≤ skewBps oi oiShort := by
  apply tdiv_le_tdiv_of_ratioLE ht (by omega)
  have hprod : oiShort * oiLong ≤ oiShort * oi := mul_le_mul_of_nonneg_left h hs
  unfold RatioLE
  linarith

theorem skewBps_antitone_short (hl : 0 ≤ oiLong) (ht : 0 < oiLong + oiShort) (h : oiShort ≤ oi) :
    skewBps oiLong oi ≤ skewBps oiLong oiShort := by
  apply tdiv_le_tdiv_of_ratioLE (by omega) ht
  have hprod : oiLong * oiShort ≤ oiLong * oi := mul_le_mul_of_nonneg_left h hl
  unfold RatioLE
  linarith

theorem longRate_mono_long (hm : 0 ≤ maxRate) (hs : 0 ≤ oiShort) (ht : 0 < oiLong + oiShort)
    (h : oiLong ≤ oi) :
    longRate oiLong oiShort maxRate spread ≤ longRate oi oiShort maxRate spread := by
  have hbase : baseRate oiLong oiShort maxRate ≤ baseRate oi oiShort maxRate :=
    clamp_mono hm (skewBps_mono_long hs ht h)
  unfold longRate
  omega

theorem longRate_antitone_short (hm : 0 ≤ maxRate) (hl : 0 ≤ oiLong)
    (ht : 0 < oiLong + oiShort) (h : oiShort ≤ oi) :
    longRate oiLong oi maxRate spread ≤ longRate oiLong oiShort maxRate spread := by
  have hbase : baseRate oiLong oi maxRate ≤ baseRate oiLong oiShort maxRate :=
    clamp_mono hm (skewBps_antitone_short hl ht h)
  unfold longRate
  omega

theorem baseRate_nonneg (hm : 0 ≤ maxRate) (ht : 0 < oiLong + oiShort) (h : oiShort ≤ oiLong) :
    0 ≤ baseRate oiLong oiShort maxRate := by
  apply clamp_nonneg hm
  exact Int.tdiv_nonneg (mul_nonneg (by omega) (by decide)) ht.le

theorem baseRate_mul_difference (hm : 0 ≤ maxRate) (ht : 0 < oiLong + oiShort) :
    0 ≤ baseRate oiLong oiShort maxRate * (oiLong - oiShort) := by
  by_cases h : oiShort ≤ oiLong
  · exact mul_nonneg (baseRate_nonneg hm ht h) (by omega)
  · have hswap : 0 ≤ baseRate oiShort oiLong maxRate := baseRate_nonneg hm (by omega) (by omega)
    rw [baseRate_swap hm] at hswap
    exact mul_nonneg_of_nonpos_of_nonpos (by omega) (by omega)

/-- What both sides pay together, before the spread, is never negative. -/
theorem net_funding (hm : 0 ≤ maxRate) (ht : 0 < oiLong + oiShort) :
    spread * (oiLong + oiShort) ≤ longRate oiLong oiShort maxRate spread * oiLong +
      shortRate oiLong oiShort maxRate spread * oiShort := by
  have hbase := baseRate_mul_difference hm ht
  unfold longRate shortRate
  linarith

theorem spread_lt_baseRate_iff (hspread : 0 ≤ spread) (hm : 0 ≤ maxRate)
    (ht : 0 < oiLong + oiShort) : spread < baseRate oiLong oiShort maxRate ↔
      spread < maxRate ∧ (spread + 1) * (oiLong + oiShort) ≤ (oiLong - oiShort) * 10000 := by
  unfold baseRate skewBps
  rw [lt_clamp_iff hspread hm, lt_tdiv_iff hspread ht]

end Rates

section Quotes

variable {w w' : World N} {oiLong oiShort oi long short : ℤ}

theorem getCurrentRate_ok :
    (getCurrentRate : Contract N (ℤ × ℤ)).run w = .ok ((long, short), w') ↔
      w.funding.positionManagerAddress = some N.positionManager ∧
      InI128 (w.positionManager.openInterestLong + w.positionManager.openInterestShort) ∧
      (if w.positionManager.openInterestLong + w.positionManager.openInterestShort = 0 then
        long = 0 ∧ short = 0
      else
        RatesFit w.positionManager.openInterestLong w.positionManager.openInterestShort
          w.funding.maxFundingRate w.funding.fundingSpread ∧
        longRate w.positionManager.openInterestLong w.positionManager.openInterestShort
          w.funding.maxFundingRate w.funding.fundingSpread = long ∧
        shortRate w.positionManager.openInterestLong w.positionManager.openInterestShort
          w.funding.maxFundingRate w.funding.fundingSpread = short) ∧ w = w' := by
  by_cases hzero : w.positionManager.openInterestLong + w.positionManager.openInterestShort = 0
  · simp [getCurrentRate, hzero]
    tauto
  · constructor
    · intro h
      simp [getCurrentRate, hzero, -neg_sub] at h
      obtain ⟨hpm, htotal, hdiff, hscaled, hskew, hlong, hrec, ⟨hshort, rfl, rfl⟩, rfl⟩ := h
      rw [if_neg hzero]
      exact ⟨hpm, htotal, ⟨⟨hdiff, hscaled, hskew, hlong, hrec, hshort⟩, rfl, rfl⟩, rfl⟩
    · rw [if_neg hzero]
      rintro ⟨hpm, htotal, ⟨hfit, rfl, rfl⟩, rfl⟩
      simp [getCurrentRate, hzero, hpm, htotal, -neg_sub]
      exact ⟨hfit.difference, hfit.scaled, hfit.skew, hfit.long, hfit.received, ⟨hfit.short, rfl⟩,
        rfl⟩

def withInterest (w : World N) (oiLong oiShort : ℤ) : World N :=
  { w with
    positionManager.openInterestLong := oiLong
    positionManager.openInterestShort := oiShort }

def Quotes (w : World N) (oiLong oiShort long short : ℤ) : Prop :=
  (getCurrentRate : Contract N (ℤ × ℤ)).run (withInterest w oiLong oiShort) =
    .ok ((long, short), withInterest w oiLong oiShort)

theorem quotes_iff (ht : oiLong + oiShort ≠ 0) : Quotes w oiLong oiShort long short ↔
    w.funding.positionManagerAddress = some N.positionManager ∧ InI128 (oiLong + oiShort) ∧
      RatesFit oiLong oiShort w.funding.maxFundingRate w.funding.fundingSpread ∧
      longRate oiLong oiShort w.funding.maxFundingRate w.funding.fundingSpread = long ∧
      shortRate oiLong oiShort w.funding.maxFundingRate w.funding.fundingSpread = short := by
  unfold Quotes
  rw [getCurrentRate_ok]
  simp [withInterest, ht]

theorem RatesFit.swap {maxRate spread : ℤ} (hl : 0 ≤ oiLong) (hs : 0 ≤ oiShort)
    (ht : 0 < oiLong + oiShort) (hm : 0 ≤ maxRate) (hspread : 0 ≤ spread)
    (h : RatesFit oiLong oiShort maxRate spread) : RatesFit oiShort oiLong maxRate spread := by
  have hskew := abs_le.mp (abs_skewBps_le hs hl (by omega : 0 < oiShort + oiLong))
  have hbase := abs_le.mp ((abs_clamp_le_abs hm).trans (abs_skewBps_le hl hs ht))
  have hdiff := h.difference
  have hscaled := h.scaled
  have hlong := h.long
  unfold longRate baseRate at hlong
  unfold InI128 at hdiff hscaled hlong
  constructor
  · unfold InI128
    omega
  · unfold InI128
    omega
  · unfold InI128
    omega
  · rw [longRate_swap hm]
    exact h.short
  · unfold InI128
    rw [baseRate_swap hm]
    unfold baseRate
    omega
  · rw [shortRate_swap hm]
    exact h.long

/-- The rates mirror the sides, stay within the cap of the spread, follow the open interest and
never make the protocol the net payer. -/
structure FundingRateLaw (w : World N) (oiLong oiShort long short : ℤ) : Prop where
  swap : Quotes w oiShort oiLong short long
  longCapped : |long - w.funding.fundingSpread| ≤ w.funding.maxFundingRate
  shortCapped : |short - w.funding.fundingSpread| ≤ w.funding.maxFundingRate
  moreLong : ∀ oi long' short', oiLong ≤ oi → Quotes w oi oiShort long' short' → long ≤ long'
  moreShort : ∀ oi long' short', oiShort ≤ oi → Quotes w oiLong oi long' short' → long' ≤ long
  net : w.funding.fundingSpread * (oiLong + oiShort) ≤ long * oiLong + short * oiShort

theorem funding_rate_law (hl : 0 ≤ oiLong) (hs : 0 ≤ oiShort) (ht : 0 < oiLong + oiShort)
    (h : Quotes w oiLong oiShort long short) : FundingRateLaw w oiLong oiShort long short := by
  have hm : (0 : ℤ) ≤ w.funding.maxFundingRate := Int.natCast_nonneg _
  have hspread : (0 : ℤ) ≤ w.funding.fundingSpread := Int.natCast_nonneg _
  obtain ⟨hpm, htotal, hfit, rfl, rfl⟩ := (quotes_iff ht.ne').mp h
  constructor
  · rw [quotes_iff (by omega), add_comm oiShort oiLong]
    exact ⟨hpm, htotal, hfit.swap hl hs ht hm hspread, longRate_swap hm, shortRate_swap hm⟩
  · exact abs_longRate_sub hm
  · exact abs_shortRate_sub hm
  · intro oi long' short' hoi h'
    obtain ⟨-, -, -, rfl, -⟩ := (quotes_iff (by omega)).mp h'
    exact longRate_mono_long hm hs ht hoi
  · intro oi long' short' hoi h'
    obtain ⟨-, -, -, rfl, -⟩ := (quotes_iff (by omega)).mp h'
    exact longRate_antitone_short hm hl ht hoi
  · exact net_funding hm ht

/-- The rates of the harness over a book of two thirds longs are clamped. -/
theorem harness_quotes : Quotes harnessStart 2000000000 1000000000 15 (-5) := by
  rw [quotes_iff (by decide)]
  refine ⟨rfl, by decide, ?_, by decide, by decide⟩
  constructor <;> decide

theorem funding_rate_law_harness :
    FundingRateLaw harnessStart 2000000000 1000000000 15 (-5) :=
  funding_rate_law (by decide) (by decide) (by decide) harness_quotes

end Quotes

section HeavierSide

variable {w : World N} {oiLong oiShort long short : ℤ}

structure HeavierPays (oiLong oiShort long short : ℤ) : Prop where
  longs : oiShort < oiLong → 0 < long ∧ short < 0
  shorts : oiLong < oiShort → 0 < short ∧ long < 0

/-- Both the cap and the skew of an uneven book exceed the spread. -/
def SkewBeatsSpread (oiLong oiShort maxRate spread : ℤ) : Prop :=
  oiLong ≠ oiShort → spread < maxRate ∧
    (spread + 1) * (oiLong + oiShort) ≤ |oiLong - oiShort| * 10000

/-- The lighter side receives exactly when the base rate exceeds the spread it is charged. -/
theorem heavier_pays_longs_iff {maxRate spread : ℤ} (hs : 0 ≤ oiShort) (hlt : oiShort < oiLong)
    (hm : 0 ≤ maxRate) (hspread : 0 ≤ spread) :
    (0 < longRate oiLong oiShort maxRate spread ∧ shortRate oiLong oiShort maxRate spread < 0) ↔
      spread < maxRate ∧ (spread + 1) * (oiLong + oiShort) ≤ |oiLong - oiShort| * 10000 := by
  have hbase := baseRate_nonneg hm (by omega) hlt.le
  rw [abs_of_pos (by omega), ← spread_lt_baseRate_iff hspread hm (by omega)]
  unfold longRate shortRate
  omega

theorem heavier_pays_shorts_iff {maxRate spread : ℤ} (hl : 0 ≤ oiLong) (hlt : oiLong < oiShort)
    (hm : 0 ≤ maxRate) (hspread : 0 ≤ spread) :
    (0 < shortRate oiLong oiShort maxRate spread ∧ longRate oiLong oiShort maxRate spread < 0) ↔
      spread < maxRate ∧ (spread + 1) * (oiLong + oiShort) ≤ |oiLong - oiShort| * 10000 := by
  have hlong : longRate oiShort oiLong maxRate spread = shortRate oiLong oiShort maxRate spread :=
    longRate_swap hm
  have hshort : shortRate oiShort oiLong maxRate spread =
      longRate oiLong oiShort maxRate spread := shortRate_swap hm
  have hiff := heavier_pays_longs_iff hl hlt hm hspread
  rwa [hlong, hshort, add_comm oiShort, abs_sub_comm] at hiff

theorem heavier_side_pays_iff (hl : 0 ≤ oiLong) (hs : 0 ≤ oiShort)
    (h : Quotes w oiLong oiShort long short) : HeavierPays oiLong oiShort long short ↔
      SkewBeatsSpread oiLong oiShort w.funding.maxFundingRate w.funding.fundingSpread := by
  have hm : (0 : ℤ) ≤ w.funding.maxFundingRate := Int.natCast_nonneg _
  have hspread : (0 : ℤ) ≤ w.funding.fundingSpread := Int.natCast_nonneg _
  unfold SkewBeatsSpread
  rcases lt_trichotomy oiLong oiShort with hlt | rfl | hlt
  · obtain ⟨-, -, -, rfl, rfl⟩ := (quotes_iff (by omega)).mp h
    constructor
    · intro hpays _
      exact (heavier_pays_shorts_iff hl hlt hm hspread).mp (hpays.shorts hlt)
    · intro hcond
      have hpays := (heavier_pays_shorts_iff hl hlt hm hspread).mpr (hcond hlt.ne)
      exact ⟨fun hgt => absurd hlt hgt.asymm, fun _ => hpays⟩
  · constructor
    · intro _ hne
      exact absurd rfl hne
    · intro _
      exact ⟨fun hlt => absurd hlt (lt_irrefl _), fun hlt => absurd hlt (lt_irrefl _)⟩
  · obtain ⟨-, -, -, rfl, rfl⟩ := (quotes_iff (by omega)).mp h
    constructor
    · intro hpays _
      exact (heavier_pays_longs_iff hs hlt hm hspread).mp (hpays.longs hlt)
    · intro hcond
      have hpays := (heavier_pays_longs_iff hs hlt hm hspread).mpr (hcond hlt.ne')
      exact ⟨fun _ => hpays, fun hgt => absurd hlt hgt.asymm⟩

theorem heavier_side_pays_harness : HeavierPays 2000000000 1000000000 15 (-5) ↔
    SkewBeatsSpread 2000000000 1000000000 10 5 :=
  heavier_side_pays_iff (w := harnessStart) (by decide) (by decide) harness_quotes

/-- A slightly long book: the skew of four basis points stays below the spread of five, and the
shorts pay as well. -/
theorem harness_quotes_level : Quotes harnessStart 1000400000 999600000 9 1 := by
  rw [quotes_iff (by decide)]
  refine ⟨rfl, by decide, ?_, by decide, by decide⟩
  constructor <;> decide

theorem lighter_side_pays : ¬ ∀ (N : Network) (w : World N), Deployed w →
    ∀ oiLong oiShort long short : ℤ, 0 ≤ oiLong → 0 ≤ oiShort →
      Quotes w oiLong oiShort long short → HeavierPays oiLong oiShort long short := by
  intro h
  have hpays := h harness harnessStart deployed_harness _ _ _ _ (by decide) (by decide)
    harness_quotes_level
  have hshort := (hpays.longs (by decide)).2
  omega

end HeavierSide

end PerpsFundingLaw
