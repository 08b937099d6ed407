import SoroPerps.PerpsFundingBlindness

/-! # What funding costs a position

The design settles funding lazily, through the cumulative indices at the opening and the close.
The settlement of a close does not look at them. -/
namespace PerpsFundingSettlement

open SorobanHost PerpsTypes PerpsVault PerpsOracleAdapter PerpsPositionManager PerpsSystem
open PerpsFundingBlindness PerpsRelatedLedgers

variable {N : Network}

def cumulativeFunding (s : FundingStorage) : Direction → ℤ
  | .Long => s.cumulativeFundingLong
  | .Short => s.cumulativeFundingShort

/-- What a position of the given size owes for the move of its index, as an exact integer. It is
negative when the position receives funding. -/
def fundingPayment (size entryFundingIndex currentFundingIndex : ℤ) : ℤ :=
  (size * (currentFundingIndex - entryFundingIndex)).tdiv 10000

theorem calculateFundingPayment_ok {w w' : World N} {size entry current payment : ℤ} :
    (calculateFundingPayment size entry current : Contract N ℤ).run w = .ok (payment, w') ↔
      InI128 (current - entry) ∧ ProportionFits size (current - entry) 10000 ∧
        fundingPayment size entry current = payment ∧ w = w' := by
  simp [calculateFundingPayment, ProportionFits, fundingPayment, and_assoc]

theorem fundingPayment_eq_zero_iff {size entry current : ℤ} :
    fundingPayment size entry current = 0 ↔ |size * (current - entry)| < 10000 := by
  unfold fundingPayment
  generalize size * (current - entry) = product
  rw [← Int.natAbs_eq_zero, Int.natAbs_tdiv, Int.abs_eq_natAbs]
  change product.natAbs / 10000 = 0 ↔ _
  omega

def isApplyFunding : Action N → Bool
  | .invoke _ (.funding (.applyFunding _)) => true
  | _ => false

def withoutFunding (as : List (Action N)) : List (Action N) := as.filter (!isApplyFunding ·)

theorem applyFunding_of_flag {a : Action N} (h : isApplyFunding a = true) :
    ∃ caller keeper, a = .invoke caller (.funding (.applyFunding keeper)) := by
  unfold isApplyFunding at h
  split at h
  · exact ⟨_, _, rfl⟩
  · cases h

section TwoRuns

variable {w w' : World N} {as : List (Action N)}

theorem apart_without (h : Apart w w') : Apart (ActionRuns.runActions step w as)
    (ActionRuns.runActions step w' (withoutFunding as)) := by
  induction as generalizing w w' with
  | nil => exact h
  | cons a as ih =>
    cases ha : isApplyFunding a with
    | true =>
      have hskip : Apart (step w a) w' := by
        obtain ⟨caller, keeper, rfl⟩ := applyFunding_of_flag ha
        exact apart_funding.symm.trans h
      simpa [withoutFunding, ha] using ih hskip
    | false => simpa [withoutFunding, ha] using ih (apart_step h)

theorem close_without_funding {env : Env} {trader : Address} {id asset : ℕ} {net : ℤ}
    (hc : (closePosition env trader id asset : Contract N ℤ).run
      (ActionRuns.runActions step w as) = .ok (net, w')) :
    ∃ w'', (closePosition env trader id asset : Contract N ℤ).run
      (ActionRuns.runActions step w (withoutFunding as)) = .ok (net, w'') := by
  have hblind : RelatedRuns.Respects Apart (closePosition env trader id asset : Contract N ℤ) :=
    respects_closePosition trader id (shows_apart asset)
  obtain ⟨w'', hrun, -⟩ := hblind.returns (apart_without (Apart.refl w)) hc
  exact ⟨w'', hrun⟩

end TwoRuns

section Lifetimes

/-- A position is opened, a run follows, and a close returns at its end. -/
structure Lifetime (N : Network) where
  openEnv : Env
  closeEnv : Env
  trader : Address
  asset : ℕ
  direction : Direction
  collateral : ℤ
  leverage : ℕ
  id : ℕ
  net : ℤ
  start : World N
  opened : World N
  closed : World N
  between : List (Action N)
  opens : (openPosition openEnv trader asset direction collateral leverage).run start =
    .ok (id, opened)
  closes : (closePosition closeEnv trader id asset).run
    (ActionRuns.runActions step opened between) = .ok (net, closed)

variable (l : Lifetime N)

def Lifetime.indexMove : ℤ :=
  cumulativeFunding (ActionRuns.runActions step l.opened l.between).funding l.direction -
    cumulativeFunding l.opened.funding l.direction

def Lifetime.payment : ℤ :=
  fundingPayment (l.collateral * l.leverage) (cumulativeFunding l.opened.funding l.direction)
    (cumulativeFunding (ActionRuns.runActions step l.opened l.between).funding l.direction)

/-- Against the run without the funding calls, what the close settles is lower by the payment. -/
def Lifetime.SettlesFunding : Prop :=
  ∃ net closed, (closePosition l.closeEnv l.trader l.id l.asset).run
      (ActionRuns.runActions step l.opened (withoutFunding l.between)) = .ok (net, closed) ∧
    l.collateral + l.net = l.collateral + net - l.payment

theorem settlesFunding_iff_payment : l.SettlesFunding ↔ l.payment = 0 := by
  obtain ⟨w'', hsame⟩ := close_without_funding l.closes
  constructor
  · rintro ⟨net, closed, hrun, hnet⟩
    rw [hsame] at hrun
    obtain ⟨rfl, -⟩ := Prod.mk.inj (Except.ok.inj hrun)
    omega
  · intro hzero
    exact ⟨l.net, w'', hsame, by omega⟩

/-- Funding is settled exactly in the lives in which it rounds to nothing. -/
theorem settlesFunding_iff :
    l.SettlesFunding ↔ |l.collateral * l.leverage * l.indexMove| < 10000 := by
  rw [settlesFunding_iff_payment]
  exact fundingPayment_eq_zero_iff

end Lifetimes

section Harness

def resultOf {α : Type} (x : Contract N α) (w : World N) : World N :=
  match x.run w with
  | .ok (_, w') => w'
  | .error _ => w

theorem run_eq_of_value {α : Type} {x : Contract N α} {w : World N} {a : α}
    (h : (x.run w).toOption.map Prod.fst = some a) : x.run w = .ok (a, resultOf x w) := by
  unfold resultOf
  cases hrun : x.run w with
  | ok r =>
    rw [hrun] at h
    obtain rfl : r.1 = a := Option.some.inj h
    rfl
  | error f =>
    rw [hrun] at h
    cases h

def beforeFunding : World harness :=
  ActionRuns.runActions step harnessStart [postPrice 0 10000000000, provide 1000000000000]

def openFunded : Contract harness ℕ :=
  openPosition ⟨none, [⟨12⟩]⟩ ⟨12⟩ 0 .Long 1000000000 10

def fundedHour : List (Action harness) :=
  [.advance 3600, applyFundingNow, postPrice 0 10000000000]

/-- A ten times long held for an hour at a constant price, with one funding call. -/
def fundedLong : Lifetime harness where
  openEnv := ⟨none, [⟨12⟩]⟩
  closeEnv := ⟨none, [⟨12⟩]⟩
  trader := ⟨12⟩
  asset := 0
  direction := .Long
  collateral := 1000000000
  leverage := 10
  id := 1
  net := -10000000
  start := beforeFunding
  opened := resultOf openFunded beforeFunding
  closed := resultOf (closePosition ⟨none, [⟨12⟩]⟩ ⟨12⟩ 1 0)
    (ActionRuns.runActions step (resultOf openFunded beforeFunding) fundedHour)
  between := fundedHour
  opens := run_eq_of_value (by decide +kernel)
  closes := run_eq_of_value (by decide +kernel)

/-- The index of the long side moved by 15, which would cost the position 1.5 USDC. -/
theorem fundedLong_keeps_funding :
    ¬ ∀ N (l : Lifetime N), Reachable l.start → l.SettlesFunding := by
  intro h
  have hreach : Reachable fundedLong.start := reachable_of_actions deployed_harness (by decide)
  have hzero := (settlesFunding_iff_payment fundedLong).mp (h harness fundedLong hreach)
  have hpayment : fundedLong.payment = 15000000 := by decide +kernel
  omega

end Harness

end PerpsFundingSettlement
