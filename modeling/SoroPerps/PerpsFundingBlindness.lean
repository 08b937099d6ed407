import SoroPerps.PerpsRelatedLedgers

/-! # No contract reads the funding contract

Two ledgers that differ only in the funding contract's storage and in the event log answer every
call of the other contracts alike. -/
namespace PerpsFundingBlindness

open SorobanHost PerpsTypes PerpsSystem PerpsRelatedLedgers RelatedRuns

variable {N : Network} {w w' : World N} {a : Action N}

/-- The two ledgers agree on everything but the funding contract and the event log. -/
def Apart (w w' : World N) : Prop := ∃ s es, w' = { w with funding := s, events := es }

theorem Apart.refl (w : World N) : Apart w w := ⟨w.funding, w.events, rfl⟩

theorem Apart.symm {w w' : World N} (h : Apart w w') : Apart w' w := by
  obtain ⟨s, es, rfl⟩ := h
  exact ⟨w.funding, w.events, rfl⟩

theorem Apart.trans {w w' w'' : World N} (h : Apart w w') (h' : Apart w' w'') : Apart w w'' := by
  obtain ⟨s, es, rfl⟩ := h
  obtain ⟨s', es', rfl⟩ := h'
  exact ⟨s', es', rfl⟩

instance : Hides (Apart : World N → World N → Prop) where
  differ := by
    rintro w _ ⟨s, es, rfl⟩
    exact ⟨w.oracle.price, s, es, rfl⟩
  write := by
    rintro w _ usdc v p e ⟨s, es, rfl⟩
    exact ⟨s, es, rfl⟩
  configure := by
    rintro w _ admin threshold ⟨s, es, rfl⟩
    exact ⟨s, es, rfl⟩
  post := by
    rintro w _ asset cached ⟨s, es, rfl⟩
    exact ⟨s, es, rfl⟩
  log := by
    rintro w _ e ⟨s, es, rfl⟩
    exact ⟨s, es ++ [e], rfl⟩

theorem shows_apart (asset : ℕ) : Shows (Apart : World N → World N → Prop) asset := by
  rintro w _ ⟨s, es, rfl⟩
  rfl

theorem apart_funding {caller : Caller N} {call : PerpsFundingRate.Call} :
    Apart w (step w (.invoke caller (.funding call))) := by
  cases h : (PerpsFundingRate.invoke caller.env call : Contract N Unit).run w with
  | error f =>
    simp only [step, dispatch, h]
    exact Apart.refl w
  | ok result =>
    simp only [step, dispatch, h]
    obtain ⟨s, es, -, hframe⟩ := PerpsFundingRate.invoke_frame (u := result.1) h
    exact ⟨s, w.events ++ es, hframe⟩

theorem apart_step (h : Apart w w') : Apart (step w a) (step w' a) := by
  cases a with
  | invoke caller call =>
    by_cases hcall : ∃ c, call = .funding c
    · obtain ⟨c, rfl⟩ := hcall
      exact (apart_funding.symm.trans h).trans apart_funding
    · apply related_invoke _ h
      exact respects_dispatch (fun asset _ => shows_apart asset)
        fun c hc => absurd ⟨c, hc⟩ hcall
  | advance seconds =>
    obtain ⟨s, es, rfl⟩ := h
    exact ⟨s, es, rfl⟩
  | expirePrice asset =>
    obtain ⟨s, es, rfl⟩ := h
    exact ⟨s, es, rfl⟩

end PerpsFundingBlindness
