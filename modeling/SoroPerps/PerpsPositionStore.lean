import SoroPerps.PerpsSystemInvariant

/-! # The position store

Ids are handed out once, and a counter of each trader's positions follows the store through
openings, closes and liquidations. -/
namespace PerpsPositionStore

open SorobanHost PerpsTypes PerpsPositionManager PerpsSystem FinmapSums PerpsSystemInvariant

variable {N : Network}

def storedCount (s : PositionStorage) (trader : Address) : ℕ :=
  countKeys (fun key => key.1 = trader) s.position

structure Counted (s : PositionStorage) : Prop where
  ids : ∀ key key' p p', s.position.lookup key = some p → s.position.lookup key' = some p' →
    p.id = p'.id → key = key'
  counts : ∀ trader, getTraderPositionCount s trader = storedCount s trader

section Steps

variable {s : PositionStorage} {w w' : World N} {a : Action N} {e : JournalEntry} {p : Position}
  {trader : Address} {id : ℕ}

theorem counted_open (hc : Counted s) (hnew : s.position.lookup (p.trader, p.id) = none)
    (hold : ∀ key q, s.position.lookup key = some q → q.id < p.id) :
    Counted (afterOpen s p) := by
  constructor
  · intro key key' q q' hq hq' hid
    rcases lookup_of_insert hq with ⟨rfl, rfl⟩ | hstored
    · rcases lookup_of_insert hq' with ⟨rfl, -⟩ | hstored'
      · rfl
      · have hlt := hold key' q' hstored'
        omega
    · rcases lookup_of_insert hq' with ⟨rfl, rfl⟩ | hstored'
      · have hlt := hold key q hstored
        omega
      · exact hc.ids key key' q q' hstored hstored' hid
  · intro other
    have hstored : storedCount (afterOpen s p) other =
        storedCount s other + if p.trader = other then 1 else 0 := countKeys_insert_new _ hnew
    rw [getTraderPositionCount_afterOpen, hstored, hc.counts other]
    simp only [eq_comm]

/-- The counter of a trader with a stored position is positive, so it goes down by one. -/
theorem counted_remove (hc : Counted s) (hp : s.position.lookup (trader, id) = some p) :
    Counted (afterRemove s trader id p) := by
  constructor
  · intro key key' q q' hq hq' hid
    exact hc.ids key key' q q' (lookup_of_erase hq) (lookup_of_erase hq') hid
  · intro other
    have hstored : storedCount (afterRemove s trader id p) other =
        storedCount s other - if trader = other then 1 else 0 := countKeys_erase _ hp
    rw [getTraderPositionCount_afterRemove, hstored, hc.counts other]
    simp only [eq_comm]

theorem effect_counted (hi : SystemInvariant w) (hc : Counted w.positionManager)
    (h : Effect w a e w') : Counted w'.positionManager := by
  cases h with
  | quiet h =>
    obtain ⟨_, _, _, _, hm⟩ := h.manager
    rw [hm]
    exact ⟨hc.ids, hc.counts⟩
  | @opened env p usdc hauth hp hg ht =>
    have hid : p.id = w.positionManager.nextPositionId := by
      rw [hp]
      rfl
    apply counted_open hc
    · rw [hid]
      exact hi.next_free _
    · intro key q hq
      rw [hid]
      exact (hi.register key q hq).old
  | closed hauth hp hg ht => exact counted_remove hc hp
  | liquidated hauth hp hlow hg ht => exact counted_remove hc hp
  | _ => exact hc

structure Audited (w : World N) : Prop where
  invariant : SystemInvariant w
  counted : Counted w.positionManager

theorem step_audited (h : Audited w) (hk : KeepsWiring a) : Audited (step w a) := by
  constructor
  · exact step_invariant h.invariant hk
  · exact effect_counted h.invariant h.counted (step_effect h.invariant.wired hk)

end Steps

section Runs

variable {w w₀ : World N} {as : List (Action N)} {Q : World N → Action N → Prop}

theorem deployed_counted (h : Deployed w) : Counted w.positionManager := by
  obtain ⟨c, timestamp, usdc, h⟩ := h
  simp [deploy, PerpsVault.initializeVault, PerpsOracleAdapter.initializeOracle,
    initializePositionManager, PerpsLiquidationEngine.initializeEngine,
    PerpsFundingRate.initializeFunding, PerpsVault.setPositionManager, setLiquidationEngine,
    setFundingAddress] at h
  obtain ⟨-, -, -, -, -, -, -, rfl⟩ := h
  constructor
  · intro key key' p p' hp
    simp at hp
  · intro trader
    simp [getTraderPositionCount, storedCount]

theorem reachableVia_counted (h : ReachableVia Q w) : Counted w.positionManager := by
  obtain ⟨w₀, as, hd, hr, rfl⟩ := h
  have hstart : Audited w₀ := ⟨deployed_invariant hd, deployed_counted hd⟩
  have hend : Audited (ActionRuns.runActions step w₀ as) := by
    apply ActionRuns.invariant_run _ hr hstart
    intro w a h ⟨hk, _⟩
    exact step_audited h hk
  exact hend.counted

structure StoredPosition (s : PositionStorage) (key : PositionKey) (p : Position) : Prop where
  trader : p.trader = key.1
  id : p.id = key.2
  old : p.id < s.nextPositionId
  collateral : 0 < p.collateral
  leverage : 1 ≤ p.leverage
  size : p.size = p.collateral * p.leverage
  entryPrice : 0 < p.entryPrice

/-- A division with this divisor fails only if its quotient does not fit. -/
def NeverZero (N : Network) (divisor : ℤ) : Prop :=
  ∀ x, (divI128 x divisor : Contract N ℤ) = i128 (x.tdiv divisor)

structure PositionStoreInvariant (w : World N) : Prop where
  stored : ∀ key p, w.positionManager.position.lookup key = some p →
    StoredPosition w.positionManager key p
  ids : ∀ key key' p p', w.positionManager.position.lookup key = some p →
    w.positionManager.position.lookup key' = some p' → p.id = p'.id → key = key'
  counts : ∀ trader,
    getTraderPositionCount w.positionManager trader = storedCount w.positionManager trader
  pnlDivisor : ∀ key p, w.positionManager.position.lookup key = some p →
    NeverZero N p.entryPrice
  marginDivisor : ∀ key p, w.positionManager.position.lookup key = some p → NeverZero N p.size

theorem neverZero_of_pos {divisor : ℤ} (h : 0 < divisor) : NeverZero N divisor := by
  intro x
  rw [divI128, if_neg h.ne']

theorem position_store_invariant (h : Reachable w) : PositionStoreInvariant w := by
  have hi := reachableVia_invariant h
  have hc := reachableVia_counted h
  have hsize := hi.books.sizes
  constructor
  · intro key p hp
    have hr := hi.register key p hp
    exact ⟨hr.trader, hr.id, hr.old, hi.books.collaterals key p hp, Nat.pos_of_ne_zero hr.leverage,
      hr.size, hr.entryPrice⟩
  · exact hc.ids
  · exact hc.counts
  · intro key p hp
    exact neverZero_of_pos (hi.register key p hp).entryPrice
  · intro key p hp
    exact neverZero_of_pos (hsize key p hp)

theorem position_store_two_longs : PositionStoreInvariant (ActionRuns.runActions step harnessStart
    [postPrice 0 10000000000, provide 1000000000000, openLong 0 1000000000 10,
      openLong 0 2000000000 5]) :=
  position_store_invariant (reachable_of_actions deployed_harness (by decide))

end Runs

end PerpsPositionStore
