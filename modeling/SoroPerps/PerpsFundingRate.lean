import SoroPerps.PerpsPositionManager

/-! # The funding rate contract

A keeper moves two cumulative indices by a rate that follows the open-interest skew. No other
contract reads them. -/
namespace PerpsFundingRate

open SorobanHost PerpsTypes PerpsPositionManager

variable {N : Network}

def setFunding (f : FundingStorage → FundingStorage) : Contract N Unit :=
  modify fun w => { w with funding := f w.funding }

def initializeFunding (admin positionManager : Address) (fundingInterval maxFundingRateBps
    fundingSpreadBps : ℕ) : Contract N Unit := do
  rejectIf ((← get).funding.admin.isSome = true) .AlreadyInitialized
  rejectIf (fundingInterval = 0 ∨ maxFundingRateBps = 0) .InvalidConfig
  let now := (← get).timestamp
  setFunding fun s => { s with
    admin := some admin
    positionManagerAddress := some positionManager
    fundingInterval := fundingInterval
    maxFundingRate := maxFundingRateBps
    fundingSpread := fundingSpreadBps
    cumulativeFundingLong := 0
    cumulativeFundingShort := 0
    lastFundingTime := now }

def clamp (value lo hi : ℤ) : ℤ := if value < lo then lo else if hi < value then hi else value

def getCurrentRate : Contract N (ℤ × ℤ) := do
  let pm ← unwrap (← get).funding.positionManagerAddress
  requireContract pm N.positionManager
  let oiLong := (← get).positionManager.openInterestLong
  let oiShort := (← get).positionManager.openInterestShort
  let totalOi ← i128 (oiLong + oiShort)
  if totalOi = 0 then pure (0, 0)
  else do
    let s := (← get).funding
    let maxRate : ℤ := s.maxFundingRate
    let spread : ℤ := s.fundingSpread
    let difference ← i128 (oiLong - oiShort)
    let scaled ← i128 (difference * 10000)
    let skew ← divI128 scaled totalOi
    let baseRate := clamp skew (-maxRate) maxRate
    let longRate ← i128 (baseRate + spread)
    let received ← i128 (baseRate - spread)
    let shortRate ← i128 (-received)
    pure (longRate, shortRate)

def applyFunding (env : Env) (keeper : Address) : Contract N Unit := do
  requireAuth env keeper
  let now := (← get).timestamp
  let s := (← get).funding
  let elapsed ← subU64 now s.lastFundingTime
  rejectIf (elapsed < s.fundingInterval) .FundingTooEarly
  let (longRate, shortRate) ← getCurrentRate
  let cumLong ← i128 (s.cumulativeFundingLong + longRate)
  let cumShort ← i128 (s.cumulativeFundingShort + shortRate)
  setFunding fun s => { s with
    cumulativeFundingLong := cumLong
    cumulativeFundingShort := cumShort
    lastFundingTime := now }
  let pm ← unwrap (← get).funding.positionManagerAddress
  requireContract pm N.positionManager
  let oiLong := (← get).positionManager.openInterestLong
  let oiShort := (← get).positionManager.openInterestShort
  emit (.fundingApplied longRate shortRate cumLong cumShort oiLong oiShort now)

def setFundingInterval (env : Env) (admin : Address) (interval : ℕ) : Contract N Unit := do
  requireAdmin env admin (← get).funding.admin
  rejectIf (interval = 0) .InvalidConfig
  setFunding fun s => { s with fundingInterval := interval }

def setMaxRate (env : Env) (admin : Address) (maxBps : ℕ) : Contract N Unit := do
  requireAdmin env admin (← get).funding.admin
  rejectIf (maxBps = 0) .InvalidConfig
  setFunding fun s => { s with maxFundingRate := maxBps }

inductive Call where
  | initializeFunding (admin positionManager : Address)
      (fundingInterval maxFundingRateBps fundingSpreadBps : ℕ)
  | applyFunding (keeper : Address)
  | setFundingInterval (admin : Address) (interval : ℕ)
  | setMaxRate (admin : Address) (maxBps : ℕ)
  deriving DecidableEq, Repr

def invoke (env : Env) : Call → Contract N Unit
  | .initializeFunding admin pm interval rate spread =>
    initializeFunding admin pm interval rate spread
  | .applyFunding keeper => applyFunding env keeper
  | .setFundingInterval admin interval => setFundingInterval env admin interval
  | .setMaxRate admin maxBps => setMaxRate env admin maxBps

section Effects

variable {env : Env} {w w' : World N} {u : Unit}

@[simp] theorem setFunding_ok {f : FundingStorage → FundingStorage} :
    (setFunding f : Contract N Unit).run w = .ok (u, w') ↔
      { w with funding := f w.funding } = w' := by
  simp [setFunding]

theorem getCurrentRate_frame {rates : ℤ × ℤ}
    (h : (getCurrentRate : Contract N (ℤ × ℤ)).run w = .ok (rates, w')) : w' = w := by
  simp [getCurrentRate] at h
  obtain ⟨-, -, h⟩ := h
  split at h
  · simp at h
    exact h.2.symm
  · simp at h
    exact h.2.2.2.2.2.1.2.symm

def Publishes : Event → Prop
  | .fundingApplied .. => True
  | _ => False

theorem invoke_frame {c : Call} (h : (invoke env c : Contract N Unit).run w = .ok (u, w')) :
    ∃ s es, (∀ e ∈ es, Publishes e) ∧
      w' = { w with funding := s, events := w.events ++ es } := by
  cases c with
  | initializeFunding admin pm interval rate spread =>
    simp [invoke, initializeFunding] at h
    obtain ⟨-, -, rfl⟩ := h
    exact ⟨_, [], by simp, by simp; rfl⟩
  | applyFunding keeper =>
    simp [invoke, applyFunding] at h
    obtain ⟨-, -, -, longRate, shortRate, w₁, hrate, -, -, -, rfl⟩ := h
    obtain rfl := getCurrentRate_frame hrate
    exact ⟨_, _, by simp [Publishes], rfl⟩
  | setFundingInterval admin interval =>
    simp [invoke, setFundingInterval] at h
    obtain ⟨-, -, rfl⟩ := h
    exact ⟨_, [], by simp, by simp; rfl⟩
  | setMaxRate admin maxBps =>
    simp [invoke, setMaxRate] at h
    obtain ⟨-, -, rfl⟩ := h
    exact ⟨_, [], by simp, by simp; rfl⟩

end Effects

end PerpsFundingRate
