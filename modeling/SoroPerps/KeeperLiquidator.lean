import Mathlib.Algebra.GroupWithZero.Nat
import SoroPerps.ActionRuns
import SoroPerps.FinmapSums

/-! # The keeper's liquidation rounds

The scanner keeps a table of open positions by trader. A round takes a copy of the table, walks it
in whatever order the map yields, and drops the positions whose liquidation it has submitted. -/
namespace KeeperLiquidator

open FinmapSums

/-- A tracked position; amounts are `int64` there. -/
structure PositionInfo where
  positionId : ℕ
  trader : String
  asset : ℕ
  direction : String
  size : ℤ
  collateral : ℤ
  entryPrice : ℤ
  deriving DecidableEq, Repr

/-- The scanner's `openPositions`. -/
abbrev Tracked := Finmap (fun _ : String => List PositionInfo)

def positionsOf (m : Tracked) (trader : String) : List PositionInfo := (m.lookup trader).getD []

def getPositionCount (m : Tracked) : ℤ := sumBy (fun _ positions => positions.length) m

def addPosition (m : Tracked) (trader : String) (pos : PositionInfo) : Tracked :=
  m.insert trader (positionsOf m trader ++ [pos])

/-- Takes out the first position of the id, and the trader with the last one. -/
def removePosition (m : Tracked) (trader : String) (id : ℕ) : Tracked :=
  if id ∈ (positionsOf m trader).map PositionInfo.positionId then
    let rest := (positionsOf m trader).eraseP fun p => p.positionId = id
    if rest = [] then m.erase trader else m.insert trader rest
  else m

/-- What the typed wrappers answer about a position of a trader. -/
structure Contracts where
  isLiquidatable : String → ℕ → ℕ → Except String Bool
  liquidate : String → ℕ → ℕ → Except String String

/-- The wrappers as they stand: every call is refused. -/
def stubContracts : Contracts where
  isLiquidatable _ _ _ := .error "not yet implemented: requires stellar/go SDK for XDR encoding"
  liquidate _ _ _ := .error "not yet implemented: requires stellar/go SDK for XDR encoding"

structure Liquidator where
  tracked : Tracked := ∅
  checksPerformed : ℕ := 0
  liquidationsFound : ℕ := 0
  liquidationsSent : ℕ := 0

def checkPosition (c : Contracts) (l : Liquidator) (trader : String) (pos : PositionInfo) :
    Liquidator :=
  match c.isLiquidatable trader pos.positionId pos.asset with
  | .error _ => l
  | .ok false => l
  | .ok true =>
    let l := { l with liquidationsFound := l.liquidationsFound + 1 }
    match c.liquidate trader pos.positionId pos.asset with
    | .error _ => l
    | .ok _ =>
      { l with
        liquidationsSent := l.liquidationsSent + 1
        tracked := removePosition l.tracked trader pos.positionId }

def checkNext (c : Contracts) (l : Liquidator) (e : String × PositionInfo) : Liquidator :=
  checkPosition c { l with checksPerformed := l.checksPerformed + 1 } e.1 e.2

/-- The copy of the table, as the loop over the map walks it. -/
abbrev Snapshot := List (String × List PositionInfo)

def checkAndLiquidate (c : Contracts) (positions : Snapshot) (l : Liquidator) : Liquidator :=
  if (positions.map fun e => e.2.length).sum = 0 then l
  else positions.foldl (fun l e => e.2.foldl (fun l pos => checkNext c l (e.1, pos)) l) l

/-- The snapshot lists the table, each trader once. -/
def Enumerates (positions : Snapshot) (m : Tracked) : Prop :=
  (positions.map fun e => (⟨e.1, e.2⟩ : Sigma fun _ : String => List PositionInfo) :
    Multiset (Sigma fun _ : String => List PositionInfo)) = m.entries

def queue (positions : Snapshot) : List (String × PositionInfo) :=
  positions.flatMap fun e => e.2.map fun pos => (e.1, pos)

/-- The keeper process: the liquidator with what its running round has left to check, and the
funder's counters. -/
structure Keeper where
  liquidator : Liquidator := {}
  pending : List (String × PositionInfo) := []
  attemptCount : ℕ := 0
  successCount : ℕ := 0
  tooEarlyCount : ℕ := 0

/-- The goroutines take turns: a report of an open position, the start of a round, one turn of its
loop with whatever the contracts answer then, a funding call. -/
inductive Action where
  | addPosition (trader : String) (pos : PositionInfo)
  | startRound (positions : Snapshot)
  | checkNext (c : Contracts)
  | triggerFunding (result : Except String String)

def step (k : Keeper) : Action → Keeper
  | .addPosition trader pos =>
    { k with liquidator.tracked := addPosition k.liquidator.tracked trader pos }
  | .startRound positions => { k with pending := queue positions }
  | .checkNext c =>
    match k.pending with
    | [] => k
    | e :: rest => { k with liquidator := checkNext c k.liquidator e, pending := rest }
  | .triggerFunding (.ok _) =>
    { k with attemptCount := k.attemptCount + 1, successCount := k.successCount + 1 }
  | .triggerFunding (.error _) =>
    { k with attemptCount := k.attemptCount + 1, tooEarlyCount := k.tooEarlyCount + 1 }

/-- A round starts after the one before it has ended, on a copy of the table as it is. -/
def Allowed (k : Keeper) : Action → Prop
  | .startRound positions => k.pending = [] ∧ Enumerates positions k.liquidator.tracked
  | _ => True

section Table

variable {m : Tracked} {trader other : String} {pos p q : PositionInfo} {id : ℕ}

def DistinctIds (m : Tracked) : Prop :=
  ∀ trader, ((positionsOf m trader).map PositionInfo.positionId).Nodup

def NoEmptyTrader (m : Tracked) : Prop := ∀ trader, m.lookup trader ≠ some []

theorem positionsOf_insert {ps : List PositionInfo} : positionsOf (m.insert trader ps) other =
    if other = trader then ps else positionsOf m other := by
  unfold positionsOf
  by_cases h : other = trader
  · subst h
    rw [Finmap.lookup_insert, if_pos rfl, Option.getD_some]
  · rw [Finmap.lookup_insert_of_ne _ h, if_neg h]

theorem positionsOf_erase : positionsOf (m.erase trader) other =
    if other = trader then [] else positionsOf m other := by
  unfold positionsOf
  by_cases h : other = trader
  · subst h
    rw [Finmap.lookup_erase, if_pos rfl, Option.getD_none]
  · rw [Finmap.lookup_erase_ne h, if_neg h]

theorem positionsOf_addPosition : positionsOf (addPosition m trader pos) other =
    if other = trader then positionsOf m trader ++ [pos] else positionsOf m other :=
  positionsOf_insert

theorem positionsOf_removePosition : positionsOf (removePosition m trader id) other =
    if other = trader then (positionsOf m trader).eraseP fun p => p.positionId = id
    else positionsOf m other := by
  by_cases hid : id ∈ (positionsOf m trader).map PositionInfo.positionId
  · rw [removePosition, if_pos hid]
    simp only
    split
    · next hrest =>
      rw [positionsOf_erase, hrest]
    · exact positionsOf_insert
  · rw [removePosition, if_neg hid]
    by_cases h : other = trader
    · subst h
      rw [if_pos rfl, List.eraseP_of_forall_not]
      intro p hp heq
      exact hid (List.mem_map.mpr ⟨p, hp, by simpa using heq⟩)
    · rw [if_neg h]

theorem eraseP_eq_filter {ps : List PositionInfo} (h : (ps.map PositionInfo.positionId).Nodup) :
    (ps.eraseP fun p => p.positionId = id) = ps.filter fun p => p.positionId ≠ id := by
  induction ps with
  | nil => rfl
  | cons p ps ih =>
    obtain ⟨hnew, hrest⟩ := List.nodup_cons.mp h
    by_cases hp : p.positionId = id
    · subst hp
      have hkept : ps.filter (fun q => q.positionId ≠ p.positionId) = ps := by
        rw [List.filter_eq_self]
        intro q hq
        simp only [ne_eq, decide_eq_true_eq]
        intro heq
        exact hnew (List.mem_map.mpr ⟨q, hq, heq⟩)
      rw [List.eraseP_cons_of_pos (by simp), List.filter_cons_of_neg (by simp), hkept]
    · simp [hp, ih hrest]

theorem DistinctIds.removePosition (h : DistinctIds m) :
    DistinctIds (removePosition m trader id) := by
  intro other
  rw [positionsOf_removePosition]
  by_cases hother : other = trader
  · rw [if_pos hother]
    exact (h trader).sublist (List.eraseP_sublist.map _)
  · rw [if_neg hother]
    exact h other

theorem DistinctIds.addPosition (h : DistinctIds m)
    (hnew : pos.positionId ∉ (positionsOf m trader).map PositionInfo.positionId) :
    DistinctIds (addPosition m trader pos) := by
  intro other
  rw [positionsOf_addPosition]
  by_cases hother : other = trader
  · rw [if_pos hother, List.map_append, List.nodup_append]
    refine ⟨h trader, List.nodup_singleton _, ?_⟩
    intro a ha b hb hab
    rw [List.map_singleton, List.mem_singleton] at hb
    exact hnew (hb ▸ hab ▸ ha)
  · rw [if_neg hother]
    exact h other

theorem NoEmptyTrader.addPosition (h : NoEmptyTrader m) :
    NoEmptyTrader (addPosition m trader pos) := by
  intro other
  unfold KeeperLiquidator.addPosition
  by_cases hother : other = trader
  · subst hother
    simp
  · rw [Finmap.lookup_insert_of_ne _ hother]
    exact h other

theorem NoEmptyTrader.removePosition (h : NoEmptyTrader m) :
    NoEmptyTrader (removePosition m trader id) := by
  intro other
  unfold KeeperLiquidator.removePosition
  split
  · simp only
    split
    · by_cases hother : other = trader
      · subst hother
        simp
      · rw [Finmap.lookup_erase_ne hother]
        exact h other
    · next hrest =>
      by_cases hother : other = trader
      · subst hother
        simpa using hrest
      · rw [Finmap.lookup_insert_of_ne _ hother]
        exact h other
  · exact h other

/-- Tables without an empty trader are told apart by what they list. -/
theorem tracked_ext {m' : Tracked} (h : NoEmptyTrader m) (h' : NoEmptyTrader m')
    (hsame : ∀ trader, positionsOf m trader = positionsOf m' trader) : m = m' := by
  apply Finmap.ext_lookup
  intro trader
  have hlists := hsame trader
  have hne := h trader
  have hne' := h' trader
  unfold positionsOf at hlists
  cases hm : m.lookup trader with
  | none =>
    cases hm' : m'.lookup trader with
    | none => rfl
    | some ps =>
      rw [hm, hm'] at hlists
      rw [hm'] at hne'
      exact absurd (congrArg some hlists.symm) hne'
  | some ps =>
    cases hm' : m'.lookup trader with
    | none =>
      rw [hm, hm'] at hlists
      rw [hm] at hne
      exact absurd (congrArg some hlists) hne
    | some ps' =>
      rw [hm, hm'] at hlists
      exact congrArg some hlists

end Table

section Round

variable {c : Contracts} {l l' : Liquidator} {e : String × PositionInfo} {trader : String}
  {es : List (String × PositionInfo)} {positions : Snapshot}

def liquidatable (c : Contracts) (e : String × PositionInfo) : Bool :=
  match c.isLiquidatable e.1 e.2.positionId e.2.asset with
  | .ok answer => answer
  | .error _ => false

/-- The position is found liquidatable and the transaction goes out. -/
def submitted (c : Contracts) (e : String × PositionInfo) : Bool :=
  liquidatable c e && match c.liquidate e.1 e.2.positionId e.2.asset with
    | .ok _ => true
    | .error _ => false

theorem checkNext_eq : checkNext c l e = {
    tracked := if submitted c e then removePosition l.tracked e.1 e.2.positionId else l.tracked
    checksPerformed := l.checksPerformed + 1
    liquidationsFound := l.liquidationsFound + if liquidatable c e then 1 else 0
    liquidationsSent := l.liquidationsSent + if submitted c e then 1 else 0 } := by
  unfold checkNext checkPosition submitted liquidatable
  cases c.isLiquidatable e.1 e.2.positionId e.2.asset with
  | error message => rfl
  | ok answer =>
    cases answer with
    | false => rfl
    | true =>
      cases c.liquidate e.1 e.2.positionId e.2.asset with
      | error message => rfl
      | ok hash => rfl

theorem queue_cons {e : String × List PositionInfo} :
    queue (e :: positions) = (e.2.map fun pos => (e.1, pos)) ++ queue positions :=
  List.flatMap_cons

theorem length_queue : (queue positions).length = (positions.map fun e => e.2.length).sum := by
  simp [queue, List.length_flatMap]

theorem checkAndLiquidate_eq :
    checkAndLiquidate c positions l = (queue positions).foldl (checkNext c) l := by
  have hloops : positions.foldl (fun l e => e.2.foldl (fun l pos => checkNext c l (e.1, pos)) l) l =
      (queue positions).foldl (checkNext c) l := by
    induction positions generalizing l with
    | nil => rfl
    | cons e positions ih =>
      rw [List.foldl_cons, ih, queue_cons, List.foldl_append, List.foldl_map]
  unfold checkAndLiquidate
  split
  · next hnone =>
    have hempty : queue positions = [] := List.length_eq_zero_iff.mp (length_queue.trans hnone)
    rw [hempty, List.foldl_nil]
  · exact hloops

theorem foldl_counts : (es.foldl (checkNext c) l).checksPerformed = l.checksPerformed + es.length ∧
    (es.foldl (checkNext c) l).liquidationsFound =
      l.liquidationsFound + es.countP (liquidatable c) ∧
    (es.foldl (checkNext c) l).liquidationsSent =
      l.liquidationsSent + es.countP (submitted c) := by
  induction es generalizing l with
  | nil => exact ⟨rfl, rfl, rfl⟩
  | cons e es ih =>
    obtain ⟨hchecks, hfound, hsent⟩ := ih (l := checkNext c l e)
    rw [List.foldl_cons, hchecks, hfound, hsent]
    simp only [checkNext_eq, List.length_cons, List.countP_cons]
    omega

theorem foldl_tracked (hd : DistinctIds l.tracked) :
    positionsOf (es.foldl (checkNext c) l).tracked trader =
      (positionsOf l.tracked trader).filter fun pos =>
        !es.any fun e => e.1 = trader && submitted c e && e.2.positionId = pos.positionId := by
  induction es generalizing l with
  | nil => simp
  | cons e es ih =>
    rw [List.foldl_cons, ih ?_]
    · by_cases hsent : submitted c e
      · rw [checkNext_eq, if_pos hsent, positionsOf_removePosition]
        by_cases htrader : trader = e.1
        · subst htrader
          rw [if_pos rfl, eraseP_eq_filter (hd _), List.filter_filter]
          apply List.filter_congr
          intro pos _
          simp [hsent, Bool.and_comm, eq_comm]
        · rw [if_neg htrader]
          apply List.filter_congr
          intro pos _
          simp [Ne.symm htrader]
      · rw [checkNext_eq, if_neg hsent]
        apply List.filter_congr
        intro pos _
        simp [hsent]
    · rw [checkNext_eq]
      split
      · exact hd.removePosition
      · exact hd

theorem foldl_noEmpty (hn : NoEmptyTrader l.tracked) :
    NoEmptyTrader (es.foldl (checkNext c) l).tracked := by
  induction es generalizing l with
  | nil => exact hn
  | cons e es ih =>
    rw [List.foldl_cons]
    apply ih
    rw [checkNext_eq]
    split
    · exact hn.removePosition
    · exact hn

theorem mem_of_enumerates {m : Tracked} (h : Enumerates positions m) {trader : String}
    {ps : List PositionInfo} : (trader, ps) ∈ positions ↔ m.lookup trader = some ps := by
  rw [← mem_entries, ← h, Multiset.mem_coe, List.mem_map]
  constructor
  · intro hmem
    exact ⟨_, hmem, rfl⟩
  · rintro ⟨⟨t, qs⟩, hmem, heq⟩
    cases heq
    exact hmem

theorem mem_queue {m : Tracked} (h : Enumerates positions m) :
    e ∈ queue positions ↔ e.2 ∈ positionsOf m e.1 := by
  simp only [queue, List.mem_flatMap, List.mem_map, positionsOf]
  constructor
  · rintro ⟨⟨trader, ps⟩, hmem, pos, hpos, rfl⟩
    rwa [(mem_of_enumerates h).mp hmem]
  · intro hpos
    cases hm : m.lookup e.1 with
    | none =>
      rw [hm] at hpos
      cases hpos
    | some ps =>
      rw [hm] at hpos
      exact ⟨(e.1, ps), (mem_of_enumerates h).mpr hm, e.2, hpos, rfl⟩

theorem countP_queue_list (P : String × PositionInfo → Bool) : ((queue positions).countP P : ℤ) =
    (positions.map fun e => ((e.2.countP fun pos => P (e.1, pos) : ℕ) : ℤ)).sum := by
  induction positions with
  | nil => rfl
  | cons e positions ih =>
    rw [queue_cons, List.countP_append, List.countP_map, List.map_cons, List.sum_cons, ← ih]
    push_cast
    rfl

theorem countP_queue {m : Tracked} (h : Enumerates positions m) (P : String × PositionInfo → Bool) :
    ((queue positions).countP P : ℤ) =
      sumBy (fun trader ps => (ps.countP fun pos => P (trader, pos) : ℕ)) m := by
  rw [sumBy, ← h, Multiset.map_coe, Multiset.sum_coe, List.map_map, countP_queue_list]
  rfl

structure RoundResult (c : Contracts) (l l' : Liquidator) : Prop where
  tracked : ∀ trader, positionsOf l'.tracked trader =
    (positionsOf l.tracked trader).filter fun pos => !submitted c (trader, pos)
  traders : NoEmptyTrader l'.tracked
  checks : (l'.checksPerformed : ℤ) = l.checksPerformed + getPositionCount l.tracked
  found : (l'.liquidationsFound : ℤ) = l.liquidationsFound +
    sumBy (fun trader ps => (ps.countP fun pos => liquidatable c (trader, pos) : ℕ)) l.tracked
  sent : (l'.liquidationsSent : ℤ) = l.liquidationsSent +
    sumBy (fun trader ps => (ps.countP fun pos => submitted c (trader, pos) : ℕ)) l.tracked

theorem round_spec (hd : DistinctIds l.tracked) (hn : NoEmptyTrader l.tracked)
    (ho : Enumerates positions l.tracked) :
    RoundResult c l (checkAndLiquidate c positions l) := by
  rw [checkAndLiquidate_eq]
  obtain ⟨hchecks, hfound, hsent⟩ := @foldl_counts c l (queue positions)
  constructor
  · intro trader
    rw [foldl_tracked hd]
    apply List.filter_congr
    intro pos hpos
    -- ids being distinct, what matches the position in the queue is the position itself
    have hany : ((queue positions).any fun e =>
        e.1 = trader && submitted c e && e.2.positionId = pos.positionId) =
          submitted c (trader, pos) := by
      rw [Bool.eq_iff_iff, List.any_eq_true]
      constructor
      · rintro ⟨⟨t, q⟩, hq, hmatch⟩
        simp only [Bool.and_eq_true, decide_eq_true_eq] at hmatch
        obtain ⟨⟨rfl, hsent⟩, hid⟩ := hmatch
        obtain rfl := List.inj_on_of_nodup_map (hd t) ((mem_queue ho).mp hq) hpos hid
        exact hsent
      · intro hsent
        exact ⟨(trader, pos), (mem_queue ho).mpr hpos, by simp [hsent]⟩
    rw [hany]
  · exact foldl_noEmpty hn
  · have hcount := countP_queue ho fun _ => true
    rw [hchecks]
    simpa [getPositionCount] using hcount
  · rw [hfound, ← countP_queue ho (liquidatable c)]
    push_cast
    rfl
  · rw [hsent, ← countP_queue ho (submitted c)]
    push_cast
    rfl

theorem RoundResult.unique {l₁ l₂ : Liquidator} (h₁ : RoundResult c l l₁)
    (h₂ : RoundResult c l l₂) : l₁ = l₂ := by
  have htracked : l₁.tracked = l₂.tracked := tracked_ext h₁.traders h₂.traders fun trader => by
    rw [h₁.tracked, h₂.tracked]
  have hchecks : l₁.checksPerformed = l₂.checksPerformed := by
    have hsame := h₁.checks.trans h₂.checks.symm
    omega
  have hfound : l₁.liquidationsFound = l₂.liquidationsFound := by
    have hsame := h₁.found.trans h₂.found.symm
    omega
  have hsent : l₁.liquidationsSent = l₂.liquidationsSent := by
    have hsame := h₁.sent.trans h₂.sent.symm
    omega
  cases l₁
  cases l₂
  simp only at htracked hchecks hfound hsent
  rw [htracked, hchecks, hfound, hsent]

/-- A round leaves on the table what it has not submitted, and counts each position once. The order
in which the map was walked does not matter. -/
theorem round_result (hd : DistinctIds l.tracked) (hn : NoEmptyTrader l.tracked)
    (ho : Enumerates positions l.tracked) :
    RoundResult c l (checkAndLiquidate c positions l) ∧
      ∀ positions', Enumerates positions' l.tracked →
        checkAndLiquidate c positions' l = checkAndLiquidate c positions l :=
  ⟨round_spec hd hn ho, fun _ ho' => (round_spec hd hn ho').unique (round_spec hd hn ho)⟩

def firstTracked : PositionInfo := ⟨1, "GTRADER1", 0, "long", 1000, 100, 1500000⟩

def secondTracked : PositionInfo := ⟨2, "GTRADER1", 0, "short", 500, 50, 1500000⟩

def thirdTracked : PositionInfo := ⟨3, "GTRADER2", 1, "long", 2000, 200, 50000000000⟩

/-- Three positions of two traders, of which the contracts find the second liquidatable. -/
def threeTracked : Liquidator where
  tracked := addPosition (addPosition (addPosition ∅ "GTRADER1" firstTracked) "GTRADER1"
    secondTracked) "GTRADER2" thirdTracked

def secondFalls : Contracts where
  isLiquidatable _ id _ := .ok (id = 2)
  liquidate _ _ _ := .ok "hash"

theorem round_result_threeTracked :
    RoundResult secondFalls threeTracked (checkAndLiquidate secondFalls
        [("GTRADER2", [thirdTracked]), ("GTRADER1", [firstTracked, secondTracked])]
        threeTracked) ∧
      ∀ positions', Enumerates positions' threeTracked.tracked →
        checkAndLiquidate secondFalls positions' threeTracked = checkAndLiquidate secondFalls
          [("GTRADER2", [thirdTracked]), ("GTRADER1", [firstTracked, secondTracked])]
          threeTracked := by
  refine round_result ?_ ?_ ?_
  · have hempty : DistinctIds ∅ := fun trader => by simp [positionsOf]
    exact ((hempty.addPosition (by decide)).addPosition (by decide)).addPosition (by decide)
  · have hempty : NoEmptyTrader ∅ := fun trader => by simp
    exact hempty.addPosition.addPosition.addPosition
  · unfold Enumerates
    decide

/-- The wrappers as they stand never let a round submit anything. -/
example (e : String × PositionInfo) : submitted stubContracts e = false := rfl

end Round

section Turns

variable {c : Contracts} {k : Keeper} {as past : List Action} {trader : String}
  {pos : PositionInfo} {e : String × PositionInfo}

open ActionRuns

/-- A round without interruption is the loop of the source. -/
theorem run_round (positions : Snapshot) : runActions step k
    (.startRound positions :: List.replicate (queue positions).length (.checkNext c)) =
      { k with liquidator := checkAndLiquidate c positions k.liquidator, pending := [] } := by
  have hturns : ∀ es (k : Keeper), k.pending = es →
      runActions step k (List.replicate es.length (.checkNext c)) =
        { k with liquidator := es.foldl (checkNext c) k.liquidator, pending := [] } := by
    intro es
    induction es with
    | nil =>
      intro k hk
      cases k
      simp only at hk
      subst hk
      rfl
    | cons e es ih =>
      intro k hk
      have hnext : step k (.checkNext c) =
          { k with liquidator := checkNext c k.liquidator e, pending := es } := by
        simp only [step, hk]
      rw [List.length_cons, List.replicate_succ, run_cons, hnext, ih _ rfl]
      rfl
  rw [run_cons, hturns (queue positions) _ rfl, checkAndLiquidate_eq]
  rfl

def submissionOf (k : Keeper) : Action → Option (String × PositionInfo)
  | .checkNext c =>
    match k.pending with
    | [] => none
    | e :: _ => if submitted c e then some e else none
  | _ => none

def submissions (k : Keeper) (as : List Action) : List (String × PositionInfo) :=
  (journal step submissionOf k as).filterMap id

structure Counters (k : Keeper) : Prop where
  sent : k.liquidator.liquidationsSent ≤ k.liquidator.liquidationsFound
  found : k.liquidator.liquidationsFound ≤ k.liquidator.checksPerformed
  funding : k.attemptCount = k.successCount + k.tooEarlyCount

theorem step_counters {a : Action} (h : Counters k) : Counters (step k a) := by
  have hsent := h.sent
  have hfound := h.found
  have hfunding := h.funding
  cases a with
  | addPosition trader pos => exact ⟨hsent, hfound, hfunding⟩
  | startRound positions => exact ⟨hsent, hfound, hfunding⟩
  | checkNext c =>
    cases hp : k.pending with
    | nil =>
      simp only [step, hp]
      exact h
    | cons e rest =>
      have hle : submitted c e → liquidatable c e := fun hs => (Bool.and_eq_true_iff.mp hs).1
      simp only [step, hp, checkNext_eq]
      refine ⟨?_, ?_, hfunding⟩ <;> simp only
      · by_cases hs : submitted c e
        · simp only [hs, hle hs, if_true]
          omega
        · simp only [hs, if_false, Bool.false_eq_true]
          omega
      · split
        · omega
        · omega
  | triggerFunding result =>
    cases result with
    | ok hash =>
      refine ⟨hsent, hfound, ?_⟩
      simp only [step]
      omega
    | error message =>
      refine ⟨hsent, hfound, ?_⟩
      simp only [step]
      omega

/-- Everything tracked or about to be checked has been reported. -/
def Known (past : List Action) (k : Keeper) : Prop :=
  (∀ trader pos, pos ∈ positionsOf k.liquidator.tracked trader →
    .addPosition trader pos ∈ past) ∧
  ∀ e ∈ k.pending, .addPosition e.1 e.2 ∈ past

theorem known_removePosition {m : Tracked} {id : ℕ} {other : String}
    (h : pos ∈ positionsOf (removePosition m trader id) other) : pos ∈ positionsOf m other := by
  rw [positionsOf_removePosition] at h
  by_cases hother : other = trader
  · subst hother
    rw [if_pos rfl] at h
    exact List.mem_of_mem_eraseP h
  · rwa [if_neg hother] at h

theorem step_known {a : Action} (ha : Allowed k a) (h : Known past k) :
    Known (past ++ [a]) (step k a) ∧
      ∀ e ∈ submissionOf k a, .addPosition e.1 e.2 ∈ past ++ [a] := by
  obtain ⟨htracked, hpending⟩ := h
  have hold : ∀ {b : Action}, b ∈ past → b ∈ past ++ [a] := List.mem_append_left _
  cases a with
  | addPosition trader pos =>
    refine ⟨⟨?_, fun e he => hold (hpending e he)⟩, by simp [submissionOf]⟩
    intro other q hq
    simp only [step, positionsOf_addPosition] at hq
    by_cases hother : other = trader
    · subst hother
      rw [if_pos rfl] at hq
      rcases List.mem_append.mp hq with hq | hq
      · exact hold (htracked other q hq)
      · obtain rfl := List.mem_singleton.mp hq
        simp
    · rw [if_neg hother] at hq
      exact hold (htracked other q hq)
  | startRound positions =>
    refine ⟨⟨fun trader pos hpos => hold (htracked trader pos hpos), ?_⟩, by simp [submissionOf]⟩
    intro e he
    exact hold (htracked e.1 e.2 ((mem_queue ha.2).mp he))
  | checkNext c =>
    cases hp : k.pending with
    | nil =>
      simp only [step, submissionOf, hp]
      refine ⟨⟨fun trader pos hpos => hold (htracked trader pos hpos), ?_⟩, by simp⟩
      simp [hp]
    | cons e rest =>
      rw [hp] at hpending
      obtain ⟨hfirst, hrest⟩ := List.forall_mem_cons.mp hpending
      simp only [step, submissionOf, hp, checkNext_eq]
      refine ⟨⟨?_, fun e he => hold (hrest e he)⟩, ?_⟩
      · intro trader pos hpos
        apply hold
        by_cases hs : submitted c e
        · rw [if_pos hs] at hpos
          exact htracked trader pos (known_removePosition hpos)
        · rw [if_neg hs] at hpos
          exact htracked trader pos hpos
      · intro e' he'
        by_cases hs : submitted c e
        · rw [if_pos hs] at he'
          obtain rfl := Option.mem_some.mp he'
          exact hold hfirst
        · rw [if_neg hs] at he'
          cases he'
  | triggerFunding result =>
    cases result <;>
      exact ⟨⟨fun trader pos hpos => hold (htracked trader pos hpos),
        fun e he => hold (hpending e he)⟩, by simp [submissionOf]⟩

theorem submissions_cons {a : Action} : submissions k (a :: as) =
    (submissionOf k a).toList ++ submissions (step k a) as := by
  rw [submissions, journal, List.filterMap_cons]
  cases submissionOf k a <;> rfl

theorem run_known (hr : Along step Allowed k as) (h : Known past k) :
    ∀ e ∈ submissions k as, .addPosition e.1 e.2 ∈ past ++ as := by
  induction as generalizing k past with
  | nil =>
    intro e he
    cases he
  | cons a as ih =>
    obtain ⟨hknown, hsubmitted⟩ := step_known hr.1 h
    intro e he
    rw [submissions_cons] at he
    rcases List.mem_append.mp he with he | he
    · have hmem := hsubmitted e (Option.mem_toList.mp he)
      rw [List.append_cons]
      exact List.mem_append_left _ hmem
    · rw [List.append_cons]
      exact ih hr.2 hknown e he

theorem kept_until_submitted (h : pos ∈ positionsOf k.liquidator.tracked trader)
    (hnone : ∀ e ∈ submissions k as, ¬ (e.1 = trader ∧ e.2.positionId = pos.positionId)) :
    pos ∈ positionsOf (runActions step k as).liquidator.tracked trader := by
  induction as generalizing k with
  | nil => exact h
  | cons a as ih =>
    rw [submissions_cons] at hnone
    rw [run_cons]
    refine ih ?_ fun e he => hnone e (List.mem_append_right _ he)
    cases a with
    | addPosition other added =>
      simp only [step, positionsOf_addPosition]
      by_cases hother : trader = other
      · subst hother
        rw [if_pos rfl]
        exact List.mem_append_left _ h
      · rw [if_neg hother]
        exact h
    | startRound positions => exact h
    | triggerFunding result => cases result <;> exact h
    | checkNext c =>
      cases hp : k.pending with
      | nil =>
        simp only [step, hp]
        exact h
      | cons e rest =>
        simp only [step, hp, checkNext_eq]
        by_cases hs : submitted c e
        · have hother := hnone e (by simp [submissionOf, hp, hs])
          rw [if_pos hs, positionsOf_removePosition]
          by_cases htrader : trader = e.1
          · subst htrader
            rw [if_pos rfl]
            refine List.mem_eraseP_of_neg ?_ |>.mpr h
            simp only [decide_eq_true_eq]
            exact fun hid => hother ⟨rfl, hid.symm⟩
          · rw [if_neg htrader]
            exact h
        · rw [if_neg hs]
          exact h

/-- A position is reported while a round that submits another is under way. -/
def reportedMidway : List Action :=
  [.addPosition "GTRADER1" secondTracked, .startRound [("GTRADER1", [secondTracked])],
    .addPosition "GTRADER2" thirdTracked, .checkNext secondFalls, .triggerFunding (.ok "hash")]

end Turns

end KeeperLiquidator
