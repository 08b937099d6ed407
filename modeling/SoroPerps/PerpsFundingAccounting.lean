import SoroPerps.PerpsFundingLaw

/-! # Cadence and cumulative indices

The funding contract between calls of others: the clock moves on, the open interest is whatever it
is, and the admin may change the cap of the rate. -/
namespace PerpsFundingAccounting

open SorobanHost PerpsTypes PerpsFundingRate PerpsFundingLaw

variable {N : Network}

/-- Anyone calls the contract, or the rest of the ledger becomes another one. -/
inductive FundingAction (N : Network) where
  | invoke (env : Env) (call : PerpsFundingRate.Call)
  | elsewhere (rest : World N)

def step (w : World N) : FundingAction N → World N
  | .invoke env call =>
    match (invoke env call : Contract N Unit).run w with
    | .ok (_, w') => w'
    | .error _ => w
  | .elsewhere rest => { rest with funding := w.funding }

/-- The clock never goes back, and no call that goes through sets another interval. -/
def Admissible (interval : ℕ) (w : World N) : FundingAction N → Prop
  | .invoke env (.setFundingInterval admin seconds) =>
    ((setFundingInterval env admin seconds : Contract N Unit).run w).toBool → seconds = interval
  | .invoke _ _ => True
  | .elsewhere rest => w.timestamp ≤ rest.timestamp

/-- What a step did to the indices: nothing, or a funding over an empty or an open market. -/
inductive Application where
  | none
  | applied (busy : Bool)
  deriving DecidableEq, Repr

def applicationOf (w : World N) : FundingAction N → Application
  | .invoke env (.applyFunding keeper) =>
    match (applyFunding env keeper : Contract N Unit).run w with
    | .ok _ => .applied
        (decide (w.positionManager.openInterestLong + w.positionManager.openInterestShort ≠ 0))
    | .error _ => .none
  | _ => .none

instance (interval : ℕ) (w : World N) : ∀ a, Decidable (Admissible interval w a)
  | .invoke _ (.setFundingInterval ..) => inferInstanceAs (Decidable (_ → _ = interval))
  | .invoke _ (.initializeFunding ..) | .invoke _ (.applyFunding _) | .invoke _ (.setMaxRate ..) =>
    isTrue trivial
  | .elsewhere rest => inferInstanceAs (Decidable (w.timestamp ≤ rest.timestamp))

def applications (es : List Application) : ℕ := es.countP (· ≠ .none)

def openApplications (es : List Application) : ℕ := es.count (.applied true)

def largestMaxRate : World N → List (FundingAction N) → ℕ
  | w, [] => w.funding.maxFundingRate
  | w, a :: as => max w.funding.maxFundingRate (largestMaxRate (step w a) as)

section Steps

variable {w w' : World N} {env : Env} {keeper : Address} {u : Unit} {long short : ℤ}

def afterFunding (s : FundingStorage) (long short : ℤ) (now : ℕ) : FundingStorage :=
  { s with
    cumulativeFundingLong := s.cumulativeFundingLong + long
    cumulativeFundingShort := s.cumulativeFundingShort + short
    lastFundingTime := now }

theorem applyFunding_ok (h : (applyFunding env keeper : Contract N Unit).run w = .ok (u, w')) :
    w.funding.lastFundingTime ≤ w.timestamp ∧
    w.funding.fundingInterval ≤ w.timestamp - w.funding.lastFundingTime ∧
    ∃ long short, (getCurrentRate : Contract N (ℤ × ℤ)).run w = .ok ((long, short), w) ∧
      w'.timestamp = w.timestamp ∧ w'.funding = afterFunding w.funding long short w.timestamp := by
  simp [applyFunding] at h
  obtain ⟨-, hlast, hinterval, long, short, w₁, hrate, -, -, -, rfl⟩ := h
  obtain rfl := getCurrentRate_frame hrate
  exact ⟨hlast, hinterval, long, short, hrate, rfl, rfl⟩

theorem rates_sum (h : (getCurrentRate : Contract N (ℤ × ℤ)).run w = .ok ((long, short), w')) :
    long + short = if w.positionManager.openInterestLong +
      w.positionManager.openInterestShort = 0 then 0 else 2 * (w.funding.fundingSpread : ℤ) := by
  obtain ⟨-, -, hrates, -⟩ := getCurrentRate_ok.mp h
  split at hrates
  · next hzero =>
    obtain ⟨rfl, rfl⟩ := hrates
    rw [if_pos hzero, add_zero]
  · next hopen =>
    obtain ⟨-, rfl, rfl⟩ := hrates
    rw [if_neg hopen]
    exact longRate_add_shortRate

theorem abs_rates_le
    (h : (getCurrentRate : Contract N (ℤ × ℤ)).run w = .ok ((long, short), w')) :
    |long| ≤ w.funding.maxFundingRate + w.funding.fundingSpread ∧
      |short| ≤ w.funding.maxFundingRate + w.funding.fundingSpread := by
  have hm : (0 : ℤ) ≤ w.funding.maxFundingRate := Int.natCast_nonneg _
  have hspread : (0 : ℤ) ≤ w.funding.fundingSpread := Int.natCast_nonneg _
  obtain ⟨-, -, hrates, -⟩ := getCurrentRate_ok.mp h
  split at hrates
  · obtain ⟨rfl, rfl⟩ := hrates
    rw [abs_zero]
    omega
  · obtain ⟨-, rfl, rfl⟩ := hrates
    exact ⟨abs_longRate_le hm hspread, abs_shortRate_le hm hspread⟩

end Steps

section Accounts

/-- What the contract's storage says after the applications `es`, none of them at a rate cap
above `M`. -/
structure Accounts (interval spread t₀ M : ℕ) (w : World N) (es : List Application) : Prop where
  admin : w.funding.admin.isSome
  storedInterval : w.funding.fundingInterval = interval
  storedSpread : w.funding.fundingSpread = spread
  cadence : t₀ + applications es * interval ≤ w.funding.lastFundingTime
  clock : w.funding.lastFundingTime ≤ w.timestamp
  sum : w.funding.cumulativeFundingLong + w.funding.cumulativeFundingShort =
    2 * spread * openApplications es
  long : |w.funding.cumulativeFundingLong| ≤ applications es * (M + spread)
  short : |w.funding.cumulativeFundingShort| ≤ applications es * (M + spread)

variable {w w' : World N} {interval spread t₀ M : ℕ} {es : List Application} {busy : Bool}

theorem applications_none : applications (es ++ [.none]) = applications es := by
  simp [applications]

theorem applications_applied : applications (es ++ [.applied busy]) = applications es + 1 := by
  simp [applications]

theorem openApplications_none : openApplications (es ++ [.none]) = openApplications es := by
  simp [openApplications]

theorem openApplications_applied : openApplications (es ++ [.applied busy]) =
    openApplications es + if busy then 1 else 0 := by
  cases busy with
  | false => simp [openApplications]
  | true => simp [openApplications]

theorem Accounts.unchanged (h : Accounts interval spread t₀ M w es)
    (hadmin : w'.funding.admin = w.funding.admin)
    (hinterval : w'.funding.fundingInterval = interval)
    (hspread : w'.funding.fundingSpread = w.funding.fundingSpread)
    (hlong : w'.funding.cumulativeFundingLong = w.funding.cumulativeFundingLong)
    (hshort : w'.funding.cumulativeFundingShort = w.funding.cumulativeFundingShort)
    (hlast : w'.funding.lastFundingTime = w.funding.lastFundingTime)
    (hclock : w.timestamp ≤ w'.timestamp) :
    Accounts interval spread t₀ M w' (es ++ [.none]) := by
  constructor
  · rw [hadmin]
    exact h.admin
  · exact hinterval
  · rw [hspread, h.storedSpread]
  · rw [applications_none, hlast]
    exact h.cadence
  · rw [hlast]
    exact h.clock.trans hclock
  · rw [hlong, hshort, openApplications_none]
    exact h.sum
  · rw [hlong, applications_none]
    exact h.long
  · rw [hshort, applications_none]
    exact h.short

theorem abs_add_le_succ {x rate bound : ℤ} {k : ℕ} (hx : |x| ≤ k * bound) (hr : |rate| ≤ bound) :
    |x + rate| ≤ (k + 1 : ℕ) * bound := by
  have htriangle : |x + rate| ≤ |x| + |rate| := abs_add_le x rate
  push_cast
  linarith

/-- One application: the time since the last one is at least the interval, and each index moves by
a rate within the cap of its time and the spread. -/
theorem Accounts.applied (h : Accounts interval spread t₀ M w es)
    (hM : w.funding.maxFundingRate ≤ M) {env : Env} {keeper : Address} {u : Unit}
    (hrun : (applyFunding env keeper : Contract N Unit).run w = .ok (u, w')) :
    Accounts interval spread t₀ M w' (es ++ [.applied (decide
      (w.positionManager.openInterestLong + w.positionManager.openInterestShort ≠ 0))]) := by
  obtain ⟨hlast, hinterval, long, short, hrate, htime, hstore⟩ := applyFunding_ok hrun
  have hsum := rates_sum hrate
  obtain ⟨hlong, hshort⟩ := abs_rates_le hrate
  have hcap : (w.funding.maxFundingRate : ℤ) ≤ M := Int.ofNat_le.mpr hM
  rw [h.storedSpread] at hsum hlong hshort
  rw [h.storedInterval] at hinterval
  constructor
  · rw [hstore]
    exact h.admin
  · rw [hstore]
    exact h.storedInterval
  · rw [hstore]
    exact h.storedSpread
  · have hcadence := h.cadence
    rw [hstore, applications_applied, Nat.succ_mul]
    simp only [afterFunding]
    omega
  · rw [hstore, htime]
    exact le_refl _
  · have hprev := h.sum
    rw [hstore, openApplications_applied]
    simp only [afterFunding, decide_eq_true_eq, ite_not]
    split at hsum
    · next hzero =>
      rw [if_pos hzero, add_zero]
      omega
    · next hopen =>
      rw [if_neg hopen]
      push_cast
      linarith
  · rw [hstore, applications_applied]
    exact abs_add_le_succ h.long (by omega)
  · rw [hstore, applications_applied]
    exact abs_add_le_succ h.short (by omega)

theorem step_accounts (h : Accounts interval spread t₀ M w es) (a : FundingAction N)
    (ha : Admissible interval w a) (hM : w.funding.maxFundingRate ≤ M) :
    Accounts interval spread t₀ M (step w a) (es ++ [applicationOf w a]) := by
  cases a with
  | elsewhere rest => exact h.unchanged rfl h.storedInterval rfl rfl rfl rfl ha
  | invoke env call =>
    cases hrun : (invoke env call : Contract N Unit).run w with
    | error f =>
      have hnone : applicationOf w (.invoke env call) = .none := by
        cases call with
        | applyFunding keeper =>
          rw [invoke] at hrun
          simp only [applicationOf, hrun]
        | _ => rfl
      rw [hnone]
      simp only [step, hrun]
      exact h.unchanged rfl h.storedInterval rfl rfl rfl rfl (le_refl _)
    | ok result =>
      obtain ⟨u, w'⟩ := result
      simp only [step, hrun]
      cases call with
      | initializeFunding admin pm seconds rate bps =>
        simp [invoke, initializeFunding] at hrun
        have hadmin := h.admin
        simp [hrun.1] at hadmin
      | applyFunding keeper =>
        rw [invoke] at hrun
        simp only [applicationOf, hrun]
        exact h.applied hM hrun
      | setFundingInterval admin seconds =>
        have hset : seconds = interval := by
          apply ha
          rw [invoke] at hrun
          rw [hrun]
          rfl
        simp [invoke, setFundingInterval] at hrun
        obtain ⟨-, -, rfl⟩ := hrun
        exact h.unchanged rfl hset rfl rfl rfl rfl (le_refl _)
      | setMaxRate admin bps =>
        simp [invoke, setMaxRate] at hrun
        obtain ⟨-, -, rfl⟩ := hrun
        exact h.unchanged rfl h.storedInterval rfl rfl rfl rfl (le_refl _)

end Accounts

section Runs

variable {w w₀ : World N} {as : List (FundingAction N)}

theorem along_largestMaxRate {P : World N → FundingAction N → Prop} {M : ℕ}
    (h : ActionRuns.Along step P w as) (hM : largestMaxRate w as ≤ M) :
    ActionRuns.Along step (fun w a => P w a ∧ w.funding.maxFundingRate ≤ M) w as := by
  induction as generalizing w with
  | nil => trivial
  | cons a as ih =>
    have hmax : max w.funding.maxFundingRate (largestMaxRate (step w a) as) ≤ M := hM
    obtain ⟨hhead, htail⟩ := max_le_iff.mp hmax
    exact ⟨⟨h.1, hhead⟩, ih h.2 htail⟩

/-- Applications keep their distance, the clock never runs behind the last one, and the indices
add up to the spread of every application over an open market. -/
structure FundingAccounts (interval spread t₀ : ℕ) (w₀ : World N) (as : List (FundingAction N)) :
    Prop where
  cadence : ∀ a, applicationOf (ActionRuns.runActions step w₀ as) a ≠ .none →
    t₀ + (applications (ActionRuns.journal step applicationOf w₀ as) + 1) * interval ≤
      (ActionRuns.runActions step w₀ as).timestamp
  noUnderflow : ∀ w : World N, ∃ elapsed,
    (subU64 (ActionRuns.runActions step w₀ as).timestamp
      (ActionRuns.runActions step w₀ as).funding.lastFundingTime : Contract N ℕ).run w =
        .ok (elapsed, w)
  sum : (ActionRuns.runActions step w₀ as).funding.cumulativeFundingLong +
      (ActionRuns.runActions step w₀ as).funding.cumulativeFundingShort =
    2 * spread * openApplications (ActionRuns.journal step applicationOf w₀ as)
  long : |(ActionRuns.runActions step w₀ as).funding.cumulativeFundingLong| ≤
    applications (ActionRuns.journal step applicationOf w₀ as) *
      (largestMaxRate w₀ as + spread)
  short : |(ActionRuns.runActions step w₀ as).funding.cumulativeFundingShort| ≤
    applications (ActionRuns.journal step applicationOf w₀ as) *
      (largestMaxRate w₀ as + spread)

theorem Accounts.next_cadence {interval spread t₀ M : ℕ} {es : List Application}
    (h : Accounts interval spread t₀ M w es) {a : FundingAction N}
    (ha : applicationOf w a ≠ .none) : t₀ + (applications es + 1) * interval ≤ w.timestamp := by
  unfold applicationOf at ha
  split at ha
  · next env keeper =>
    split at ha
    · next result hrun =>
      obtain ⟨u, w'⟩ := result
      obtain ⟨hlast, hinterval, -⟩ := applyFunding_ok hrun
      have hcadence := h.cadence
      rw [h.storedInterval] at hinterval
      rw [Nat.succ_mul]
      omega
    · exact absurd rfl ha
  · exact absurd rfl ha

theorem funding_accounting {admin pm : Address} {interval maxRate spread : ℕ}
    (hinit : (initializeFunding admin pm interval maxRate spread : Contract N Unit).run w =
      .ok ((), w₀)) (h : ActionRuns.Along step (Admissible interval) w₀ as) :
    FundingAccounts interval spread w.timestamp w₀ as := by
  have hstart : Accounts interval spread w.timestamp (largestMaxRate w₀ as) w₀ [] := by
    simp [initializeFunding] at hinit
    obtain ⟨-, -, rfl⟩ := hinit
    constructor <;> simp [applications, openApplications]
  have hend : Accounts interval spread w.timestamp (largestMaxRate w₀ as)
      (ActionRuns.runActions step w₀ as)
      ([] ++ ActionRuns.journal step applicationOf w₀ as) := by
    apply ActionRuns.history_run _ (along_largestMaxRate h (le_refl _)) hstart
    rintro w a es hacc ⟨ha, hM⟩
    exact step_accounts hacc a ha hM
  rw [List.nil_append] at hend
  constructor
  · intro a ha
    exact hend.next_cadence ha
  · intro w
    exact ⟨_, subU64_ok.mpr ⟨hend.clock, rfl, rfl⟩⟩
  · exact hend.sum
  · exact hend.long
  · exact hend.short

def marketAt (timestamp : ℕ) (oiLong oiShort : ℤ) : World harness where
  timestamp := timestamp
  usdc := fun _ => 0
  positionManager := { openInterestLong := oiLong, openInterestShort := oiShort }

/-- Two hours of funding, the first over a long market under a raised cap, the second over an
empty one, a call that comes too early, and a keeper who may not shorten the interval. -/
def twoHours : List (FundingAction harness) :=
  [.invoke ⟨none, [⟨10⟩]⟩ (.setMaxRate ⟨10⟩ 20), .elsewhere (marketAt 4600 2000000000 0),
    .invoke ⟨none, [⟨13⟩]⟩ (.setFundingInterval ⟨13⟩ 60),
    .invoke ⟨none, [⟨13⟩]⟩ (.applyFunding ⟨13⟩), .invoke ⟨none, [⟨13⟩]⟩ (.applyFunding ⟨13⟩),
    .elsewhere (marketAt 9000 0 0), .invoke ⟨none, [⟨13⟩]⟩ (.applyFunding ⟨13⟩)]

def fundingStart : World harness :=
  { marketAt 1000 0 0 with
    funding :=
      { admin := some ⟨10⟩
        positionManagerAddress := some harness.positionManager
        lastFundingTime := 1000 } }

theorem funding_accounting_twoHours : FundingAccounts 3600 5 1000 fundingStart twoHours := by
  have hinit : (initializeFunding ⟨10⟩ harness.positionManager 3600 10 5).run
      (marketAt 1000 0 0) = .ok ((), fundingStart) := rfl
  exact funding_accounting hinit (by decide +kernel)

end Runs

section System

variable {w w' : World N} {env : Env} {u : Unit} {interval : ℕ}

def KeepsInterval (interval : ℕ) (w : World N) : PerpsSystem.Action N → Prop
  | .invoke caller (.funding (.setFundingInterval admin seconds)) =>
    ((setFundingInterval caller.env admin seconds : Contract N Unit).run w).toBool →
      seconds = interval
  | _ => True

theorem system_step (a : PerpsSystem.Action N) (h : KeepsInterval interval w a) :
    ∃ b, Admissible interval w b ∧ step w b = PerpsSystem.step w a := by
  have helsewhere : w.timestamp ≤ (PerpsSystem.step w a).timestamp →
      (PerpsSystem.step w a).funding = w.funding →
      ∃ b, Admissible interval w b ∧ step w b = PerpsSystem.step w a := by
    intro htime hfunding
    refine ⟨.elsewhere (PerpsSystem.step w a), htime, ?_⟩
    simp only [step, ← hfunding]
  cases a with
  | advance seconds => exact helsewhere (Nat.le_add_right _ _) rfl
  | expirePrice asset => exact helsewhere (le_refl _) rfl
  | invoke caller call =>
    by_cases hcall : ∃ c, call = .funding c
    · obtain ⟨c, rfl⟩ := hcall
      refine ⟨.invoke caller.env c, ?_, rfl⟩
      cases c <;> exact h
    · rcases PerpsSystem.invoke_cases w caller call with hsame | ⟨u, w', hrun, hstep⟩
      · apply helsewhere
        · rw [hsame]
        · rw [hsame]
      · have hframe := PerpsSystem.dispatch_frame hrun
        apply helsewhere
        · rw [hstep]
          exact hframe.clock.ge
        · rw [hstep]
          exact hframe.funding fun c hc => hcall ⟨c, hc⟩

/-- So the accounts hold along every run of the system from the funding contract's start. -/
theorem system_run {as : List (PerpsSystem.Action N)}
    (h : ActionRuns.Along PerpsSystem.step (KeepsInterval interval) w as) :
    ∃ bs, ActionRuns.Along step (Admissible interval) w bs ∧
      ActionRuns.runActions step w bs = ActionRuns.runActions PerpsSystem.step w as := by
  induction as generalizing w with
  | nil => exact ⟨[], trivial, rfl⟩
  | cons a as ih =>
    obtain ⟨b, hb, hstep⟩ := system_step a h.1
    obtain ⟨bs, hbs, hrun⟩ := ih h.2
    refine ⟨b :: bs, ⟨hb, hstep ▸ hbs⟩, ?_⟩
    rw [ActionRuns.run_cons, ActionRuns.run_cons, hstep, hrun]

end System

end PerpsFundingAccounting
