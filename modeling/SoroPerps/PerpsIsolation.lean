import SoroPerps.PerpsFundingBlindness

/-! # What can be left out of a run

The prices of assets that nobody trades in a run might as well not have been posted, and the
funding contract might as well not have been called. -/
namespace PerpsIsolation

open SorobanHost PerpsTypes PerpsOracleAdapter PerpsSystem PerpsRelatedLedgers
open RelatedRuns (Respects respects_get respects_modify respects_bind respects_pure respects_ite)
open ActionRuns

variable {N : Network} {α : Type} {env : Env} {A : ℕ → Prop} [DecidablePred A]

/-- The event announces no price of the assets in `A`. -/
def Shown (A : ℕ → Prop) [DecidablePred A] : Event → Bool
  | .priceFetched asset _ _ => ¬ A asset
  | _ => true

/-- The two ledgers agree on everything but the prices of the assets in `A` and the events that
announced them. -/
def Alike (A : ℕ → Prop) [DecidablePred A] (w w' : World N) : Prop :=
  ∃ prices es, w' = { w with oracle.price := prices, events := es } ∧
    (∀ asset, ¬ A asset → prices.lookup asset = w.oracle.price.lookup asset) ∧
    es.filter (Shown A) = w.events.filter (Shown A)

theorem Alike.refl (w : World N) : Alike A w w :=
  ⟨w.oracle.price, w.events, rfl, fun _ _ => rfl, rfl⟩

theorem Alike.symm {w w' : World N} (h : Alike A w w') : Alike A w' w := by
  obtain ⟨prices, es, rfl, hp, he⟩ := h
  exact ⟨w.oracle.price, w.events, rfl, fun asset ha => (hp asset ha).symm, he.symm⟩

theorem shown_append {es fs new : List Event} (h : es.filter (Shown A) = fs.filter (Shown A)) :
    (es ++ new).filter (Shown A) = (fs ++ new).filter (Shown A) := by
  rw [List.filter_append, List.filter_append, h]

theorem Alike.trans {w w' w'' : World N} (h : Alike A w w') (h' : Alike A w' w'') :
    Alike A w w'' := by
  obtain ⟨prices, es, rfl, hp, he⟩ := h
  obtain ⟨prices', es', rfl, hp', he'⟩ := h'
  exact ⟨prices', es', rfl, fun asset ha => (hp' asset ha).trans (hp asset ha), he'.trans he⟩

instance : Hides (Alike A : World N → World N → Prop) where
  differ := by
    rintro w _ ⟨prices, es, rfl, -⟩
    exact ⟨prices, w.funding, es, rfl⟩
  write := by
    rintro w _ usdc v s e ⟨prices, es, rfl, hp, he⟩
    exact ⟨prices, es, rfl, hp, he⟩
  configure := by
    rintro w _ admin threshold ⟨prices, es, rfl, hp, he⟩
    exact ⟨prices, es, rfl, hp, he⟩
  post := by
    rintro w _ asset cached ⟨prices, es, rfl, hp, he⟩
    refine ⟨prices.insert asset cached, es, rfl, ?_, he⟩
    intro b hb
    by_cases hasset : b = asset
    · subst hasset
      rw [Finmap.lookup_insert, Finmap.lookup_insert]
    · rw [Finmap.lookup_insert_of_ne _ hasset, hp b hb, Finmap.lookup_insert_of_ne _ hasset]
  log := by
    rintro w _ e ⟨prices, es, rfl, hp, he⟩
    exact ⟨prices, es ++ [e], rfl, hp, shown_append he⟩

theorem shows_alike {asset : ℕ} (ha : ¬ A asset) :
    Shows (Alike A : World N → World N → Prop) asset := by
  rintro w _ ⟨prices, es, rfl, hp, -⟩
  exact hp asset ha

section Funding

open PerpsFundingRate

theorem respects_readFunding {k : World N → Contract N α}
    (hread : ∀ w prices es, k { w with oracle.price := prices, events := es } = k w)
    (hk : ∀ w, Respects (Alike A) (k w)) : Respects (Alike A) (get >>= k) := by
  apply respects_get _ hk
  rintro w _ ⟨prices, es, rfl, -⟩
  exact hread w prices es

theorem respects_setFunding (f : FundingStorage → FundingStorage) :
    Respects (Alike A) (setFunding f : Contract N Unit) := by
  apply respects_modify
  rintro w _ ⟨prices, es, rfl, hp, he⟩
  exact ⟨prices, es, rfl, hp, he⟩

theorem respects_getCurrentRate : Respects (Alike A) (getCurrentRate : Contract N (ℤ × ℤ)) := by
  refine respects_readFunding (fun _ _ _ => rfl) fun w => ?_
  refine respects_bind (respects_unwrap _) fun pm => ?_
  refine respects_bind (respects_requireContract _ _) fun _ => ?_
  refine respects_readFunding (fun _ _ _ => rfl) fun w => ?_
  refine respects_readFunding (fun _ _ _ => rfl) fun w => ?_
  refine respects_bind (respects_i128 _) fun totalOi => ?_
  refine respects_ite (respects_pure _) ?_
  refine respects_readFunding (fun _ _ _ => rfl) fun w => ?_
  refine respects_bind (respects_i128 _) fun difference => ?_
  refine respects_bind (respects_i128 _) fun scaled => ?_
  refine respects_bind (respects_divI128 _ _) fun skew => ?_
  refine respects_bind (respects_i128 _) fun longRate => ?_
  refine respects_bind (respects_i128 _) fun received => ?_
  exact respects_bind (respects_i128 _) fun shortRate => respects_pure _

theorem respects_applyFunding (keeper : Address) :
    Respects (Alike A) (applyFunding env keeper : Contract N Unit) := by
  refine respects_bind (respects_requireAuth _) fun _ => ?_
  refine respects_readFunding (fun _ _ _ => rfl) fun w => ?_
  refine respects_readFunding (fun _ _ _ => rfl) fun w' => ?_
  refine respects_bind (respects_subU64 _ _) fun elapsed => ?_
  refine respects_bind (respects_rejectIf _ _) fun _ => ?_
  refine respects_bind respects_getCurrentRate fun rates => ?_
  refine respects_bind (respects_i128 _) fun cumLong => ?_
  refine respects_bind (respects_i128 _) fun cumShort => ?_
  refine respects_bind (respects_setFunding _) fun _ => ?_
  refine respects_readFunding (fun _ _ _ => rfl) fun w => ?_
  refine respects_bind (respects_unwrap _) fun pm => ?_
  refine respects_bind (respects_requireContract _ _) fun _ => ?_
  refine respects_readFunding (fun _ _ _ => rfl) fun w => ?_
  refine respects_readFunding (fun _ _ _ => rfl) fun w => ?_
  exact respects_emit _

theorem respects_fundingSetter {admin : Address} {bad : Prop} [Decidable bad] {e : PerpsError}
    {f : FundingStorage → FundingStorage} : Respects (Alike A) (do
      requireAdmin env admin (← get).funding.admin
      rejectIf bad e
      setFunding f : Contract N Unit) := by
  refine respects_readFunding (fun _ _ _ => rfl) fun w => ?_
  refine respects_bind (respects_requireAdmin _ _) fun _ => ?_
  exact respects_bind (respects_rejectIf _ _) fun _ => respects_setFunding _

theorem respects_funding (call : PerpsFundingRate.Call) :
    Respects (Alike A) (PerpsFundingRate.invoke env call : Contract N Unit) := by
  cases call with
  | initializeFunding admin pm interval rate spread =>
    refine respects_readFunding (fun _ _ _ => rfl) fun w => ?_
    refine respects_bind (respects_rejectIf _ _) fun _ => ?_
    refine respects_bind (respects_rejectIf _ _) fun _ => ?_
    refine respects_readFunding (fun _ _ _ => rfl) fun w => ?_
    exact respects_setFunding _
  | applyFunding keeper => exact respects_applyFunding keeper
  | setFundingInterval admin interval => exact respects_fundingSetter
  | setMaxRate admin maxBps => exact respects_fundingSetter

end Funding

section Purges

variable {w w' : World N} {a : Action N}

/-- The action may ask for the price of an asset in `A`. -/
def TradesIn (A : ℕ → Prop) : Action N → Prop
  | .invoke _ call => Trades A call
  | _ => False

def Prices (A : ℕ → Prop) [DecidablePred A] : Action N → Bool
  | .invoke _ (.oracle (.setPrice _ asset _)) => A asset
  | .expirePrice asset => A asset
  | _ => false

omit [DecidablePred A] in
theorem trades_of {asset : ℕ} {call : PerpsSystem.Call} (h : Trades (· = asset) call)
    (ha : A asset) : Trades A call := by
  unfold Trades at h ⊢
  split <;> simp_all

theorem alike_step (h : Alike A w w') (ha : ¬ TradesIn A a) : Alike A (step w a) (step w' a) := by
  cases a with
  | invoke caller call =>
    apply related_invoke _ h
    apply respects_dispatch
    · intro asset hasset
      exact shows_alike fun hmem => ha (trades_of hasset hmem)
    · rintro c rfl
      exact respects_funding c
  | advance seconds =>
    obtain ⟨prices, es, rfl, hp, he⟩ := h
    exact ⟨prices, es, rfl, hp, he⟩
  | expirePrice asset =>
    obtain ⟨prices, es, rfl, hp, he⟩ := h
    refine ⟨prices.erase asset, es, rfl, ?_, he⟩
    intro b hb
    by_cases hasset : b = asset
    · subst hasset
      simp [step]
    · simp [step, Finmap.lookup_erase_ne hasset, hp b hb]

theorem alike_setPrice {caller : Caller N} {admin : Address} {asset : ℕ} {price : ℤ}
    (ha : A asset) :
    Alike A w (step w (.invoke caller (.oracle (.setPrice admin asset price)))) := by
  cases hrun : (setPrice caller.env admin asset price : Contract N Unit).run w with
  | error f =>
    simp only [step, dispatch, PerpsOracleAdapter.invoke, hrun]
    exact Alike.refl w
  | ok result =>
    obtain ⟨u, w₁⟩ := result
    simp only [step, dispatch, PerpsOracleAdapter.invoke, hrun]
    obtain ⟨-, -, rfl⟩ := setPrice_ok.mp hrun
    refine ⟨_, _, rfl, ?_, by simp [Shown, ha]⟩
    intro b hb
    have hne : b ≠ asset := by
      rintro rfl
      exact hb ha
    exact Finmap.lookup_insert_of_ne _ hne

theorem alike_prices (ha : Prices A a) : Alike A w (step w a) := by
  cases a with
  | invoke caller call =>
    cases call with
    | oracle call =>
      cases call with
      | setPrice admin asset price => exact alike_setPrice (by simpa [Prices] using ha)
      | initializeOracle => cases ha
      | setStalenessThreshold => cases ha
    | vault => cases ha
    | positionManager => cases ha
    | engine => cases ha
    | funding => cases ha
    | transferUsdc => cases ha
  | advance seconds => cases ha
  | expirePrice asset =>
    have hasset : A asset := by simpa [Prices] using ha
    refine ⟨_, w.events, rfl, ?_, rfl⟩
    intro b hb
    have hne : b ≠ asset := by
      rintro rfl
      exact hb hasset
    exact Finmap.lookup_erase_ne hne

/-- In a run that trades in none of the assets, their prices move nothing: without them the run
ends in the same vault, positions, parameters and balances. -/
theorem assets_isolated (w : World N) {as : List (Action N)} (h : ∀ a ∈ as, ¬ TradesIn A a) :
    Alike A (runActions step w as) (runActions step w (as.filter fun a => ¬ Prices A a)) := by
  apply purge_run (fun a => Prices A a)
  · intro s t a hst ha
    exact (alike_prices ha).symm.trans hst
  · intro s t a ha hst _
    exact alike_step hst (h a ha)
  · exact Alike.refl w

/-- A long in one asset, while the price of another is posted and drops out. -/
def twoAssets : List (Action harness) :=
  [postPrice 0 10000000000, postPrice 1 70000000, provide 1000000000000, openLong 0 1000000000 10,
    postPrice 1 1, .expirePrice 1, close 1 0]

theorem assets_isolated_twoAssets :
    Alike (fun asset => asset = 1) (runActions step harnessStart twoAssets)
      (runActions step harnessStart
        (twoAssets.filter fun a => ¬ Prices (fun asset => asset = 1) a)) := by
  apply assets_isolated harnessStart
  simp [twoAssets, TradesIn, Trades, postPrice, provide, openLong, close, signed, signedBy]

def CallsFunding : Action N → Bool
  | .invoke _ (.funding _) => true
  | _ => false

/-- Without its calls to the funding contract a run ends in the same vault, positions, prices and
balances. -/
theorem funding_inert (w : World N) (as : List (Action N)) :
    PerpsFundingBlindness.Apart (runActions step w as)
      (runActions step w (as.filter fun a => ¬ CallsFunding a)) := by
  apply purge_run (fun a => CallsFunding a)
  · intro s t a hst ha
    cases a with
    | invoke caller call =>
      cases call with
      | funding call => exact PerpsFundingBlindness.apart_funding.symm.trans hst
      | _ => cases ha
    | _ => cases ha
  · intro s t a _ hst _
    exact PerpsFundingBlindness.apart_step hst
  · exact PerpsFundingBlindness.Apart.refl w

end Purges

end PerpsIsolation
