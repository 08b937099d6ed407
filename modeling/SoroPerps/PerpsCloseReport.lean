import SoroPerps.PerpsUnwinding

/-! # What a close reports

The position manager reports profit less fee; the vault pays what is left of the collateral and
clips at zero. The two agree until the fee exceeds what is left. -/
namespace PerpsCloseReport

open SorobanHost PerpsTypes PerpsVault PerpsOracleAdapter PerpsPositionManager PerpsSystem
open PerpsSystemInvariant PerpsSolvency PerpsUnwinding FinmapSums

variable {N : Network}

section Lifetime

variable {w w' : World N} {a : Action N} {e : JournalEntry} {key : PositionKey} {p : Position}

/-- The key is used up, and whatever is stored under it is still the position `p`. -/
structure HeldAs (w : World N) (key : PositionKey) (p : Position) : Prop where
  invariant : SystemInvariant w
  used : key.2 < w.positionManager.nextPositionId
  same : ∀ q, w.positionManager.position.lookup key = some q → q = p

theorem step_heldAs (h : HeldAs w key p) (hk : KeepsWiring a) : HeldAs (step w a) key p := by
  have heff := step_effect h.invariant.wired hk
  have hi := step_invariant h.invariant hk
  generalize entryOf w a = e at heff
  generalize step w a = w' at heff hi
  cases heff with
  | quiet hq =>
    obtain ⟨_, _, _, _, hm⟩ := hq.manager
    constructor
    · exact hi
    · rw [hm]
      exact h.used
    · rw [hm]
      exact h.same
  | @opened env q usdc hauth hq hg ht =>
    have hid : q.id = w.positionManager.nextPositionId := by
      rw [hq]
      rfl
    constructor
    · exact hi
    · exact h.used.trans (Nat.lt_succ_self _)
    · intro r hr
      rcases lookup_of_insert hr with ⟨rfl, -⟩ | hr
      · -- the new id is one that was not used up
        have hused := h.used
        simp only at hused
        omega
      · exact h.same r hr
  | closed hauth hq hg ht => exact ⟨hi, h.used, fun r hr => h.same r (lookup_of_erase hr)⟩
  | liquidated hauth hq hlow hg ht => exact ⟨hi, h.used, fun r hr => h.same r (lookup_of_erase hr)⟩
  | _ => exact ⟨hi, h.used, h.same⟩

theorem run_heldAs {Q : World N → Action N → Prop} {as : List (Action N)}
    (hr : Run Q w as) (h : HeldAs w key p) : HeldAs (ActionRuns.runActions step w as) key p := by
  have hstep : ∀ w a, HeldAs w key p → KeepsWiring a ∧ Q w a → HeldAs (step w a) key p :=
    fun w a h hk => step_heldAs h hk.1
  exact ActionRuns.invariant_run hstep hr h

end Lifetime

section Report

variable {w w' : World N} {caller : Caller N} {trader : Address} {id asset : ℕ} {p : Position}
  {price net : ℤ}

theorem opening_paid (hT : N.token.Exact) (hi : SystemInvariant w) {direction : Direction}
    {collateral : ℤ} {leverage : ℕ}
    (h : (openPosition caller.env trader asset direction collateral leverage).run w =
      .ok (id, w')) :
    ∃ p, HeldAs w' (trader, id) p ∧ received w w' trader = -(p.collateral + openFee w p) := by
  have hstep : step w (.invoke caller (.positionManager
      (.openPosition trader asset direction collateral leverage))) = w' :=
    step_of_ok (u := ()) (run_discard_ok.mpr ⟨id, h⟩)
  have hi' : SystemInvariant w' := by
    rw [← hstep]
    exact step_invariant hi trivial
  obtain ⟨rfl, price, usdc, hg, ht, rfl⟩ := openPosition_ok.mp h
  have hne : trader ≠ N.vault := Caller.ne_contract hg.authorized vault_contract
  refine ⟨openedPosition w trader asset direction collateral leverage price, ⟨hi',
    Nat.lt_succ_self _, ?_⟩, ?_⟩
  · intro q hq
    exact Option.mem_unique hq (Finmap.lookup_insert _)
  · simp only [received, World.usdcBalance]
    rw [hT.moved _ _ _ _ _ ht, if_pos rfl, if_neg hne]
    simp only [openedPosition]
    omega

/-- What the trader is told, what the vault pays, and when the two agree, over the close alone
and over the whole life of the position. -/
structure CloseReport (w w' : World N) (trader : Address) (id : ℕ) (p : Position)
    (price net : ℤ) : Prop where
  emitted : w'.events.getLast? = some (.positionClosed trader id price net (closeFee w p))
  paid : received w w' trader - p.collateral = max net (-p.collateral)
  agrees : received w w' trader - p.collateral = net ↔
    closeFee w p ≤ max 0 (p.collateral + rawPnl p price)
  lifetime : ∀ (w₀ w₁ : World N) (opener : Caller N) asset direction collateral leverage as,
    Reachable w₀ → Run (fun _ _ => True) w₁ as → w = ActionRuns.runActions step w₁ as →
    (openPosition opener.env trader asset direction collateral leverage).run w₀ = .ok (id, w₁) →
      received w₀ w₁ trader + received w w' trader =
        max net (-p.collateral) - openFee w₀ p

theorem close_report (hT : N.token.Exact) (hr : Reachable w)
    (hp : w.positionManager.position.lookup (trader, id) = some p)
    (hprice : FreshPrice w p.asset price)
    (h : (closePosition caller.env trader id asset).run w = .ok (net, w')) :
    CloseReport w w' trader id p price net := by
  have hi := reachableVia_invariant hr
  have hreceived := received_of_close hT hi hp hprice h
  have hfee : 0 ≤ closeFee w p := feeFor_nonneg (hi.books.sizes _ _ hp).le _
  obtain ⟨-, q, price', usdc, hq, -, -, hg, -, -, hnet, -, hw'⟩ := closePosition_ok.mp h
  obtain rfl : p = q := Option.mem_unique hp hq
  obtain rfl := hprice.unique hg.fresh
  have hpaid : received w w' trader - p.collateral = max net (-p.collateral) := by
    rw [hreceived, hnet]
    omega
  constructor
  · rw [hw']
    simp
  · exact hpaid
  · rw [hpaid, hnet]
    unfold pricePnl
    split
    · omega
    · omega
  · intro w₀ w₁ opener asset₀ direction collateral leverage as hr₀ hrun hw hopen
    obtain ⟨q, hheld, hcost⟩ := opening_paid hT (reachableVia_invariant hr₀) hopen
    have hend := run_heldAs hrun hheld
    rw [← hw] at hend
    obtain rfl := hend.same p hp
    rw [hcost]
    omega

/-- The harness scenario of a loss beyond the collateral, before the close: a ten times long at
half its entry price. -/
def halvedLong : World harness :=
  ActionRuns.runActions step harnessStart [postPrice 0 10000000000, provide 1000000000000,
    openLong 0 1000000000 10, postPrice 0 5000000000]

theorem halvedLong_reachable : Reachable halvedLong :=
  reachable_of_actions deployed_harness (by decide)

theorem halvedLong_stored :
    halvedLong.positionManager.position.lookup (⟨12⟩, 1) = some storedLong := by decide +kernel

theorem halvedLong_fresh : FreshPrice halvedLong 0 5000000000 :=
  freshPrice?_eq_some.mp (by decide +kernel)

theorem halvedLong_closes : ∃ w',
    (closePosition harnessTrader.env ⟨12⟩ 1 0).run halvedLong = .ok (-1010000000, w') := by
  obtain ⟨⟨net, w'⟩, h, rfl⟩ := result_of_toOption
    (x := (closePosition harnessTrader.env ⟨12⟩ 1 0).run halvedLong)
    (g := Prod.fst) (b := -1010000000) (by decide +kernel)
  exact ⟨w', h⟩

theorem close_report_halvedLong : ∃ w',
    CloseReport halvedLong w' ⟨12⟩ 1 storedLong 5000000000 (-1010000000) := by
  obtain ⟨w', h⟩ := halvedLong_closes
  exact ⟨w', close_report ledgerToken_exact halvedLong_reachable halvedLong_stored
    halvedLong_fresh h⟩

/-- The trader is told of a loss of 101 USDC and has lost the collateral of 100. -/
theorem halvedLong_overstated : ¬ ∀ N : Network, N.token.Exact → ∀ w w' : World N,
    Reachable w → ∀ (caller : Caller N) trader id asset p net,
      w.positionManager.position.lookup (trader, id) = some p →
      (closePosition caller.env trader id asset).run w = .ok (net, w') →
        net = received w w' trader - p.collateral := by
  intro hclaim
  obtain ⟨w', h⟩ := halvedLong_closes
  have hnet := hclaim harness ledgerToken_exact halvedLong w' halvedLong_reachable harnessTrader
    ⟨12⟩ 1 0 storedLong _ halvedLong_stored h
  rw [received_of_close ledgerToken_exact (reachableVia_invariant halvedLong_reachable)
    halvedLong_stored halvedLong_fresh h] at hnet
  revert hnet
  decide +kernel

end Report

end PerpsCloseReport
