import SoroPerps.KeeperIndexer
import SoroPerps.PerpsPositionStore

/-! # The indexed view of a run

Every event a call publishes is decoded with the true fields of its position and handed once, in
order, to its handler. Openings and closes are mirrored in the table of positions. A liquidation
is not: its handler records the event and leaves the position's row open. -/
namespace KeeperView

open SorobanHost PerpsTypes PerpsPositionManager PerpsSystem PerpsPositionStore
open KeeperStore (Store Keyed onConflict openColumns openOn getOpenPositions getOpenInterest
  upsertPosition lookup_upsertPosition_new lookup_upsertPosition_old keyed_upsertPosition
  sumBy_upsertPosition_new sumBy_upsertPosition_old mem_getOpenPositions nodup_getOpenPositions
  sum_getOpenInterest)
open KeeperIndexer FinmapSums

variable {N : Network}

def directionText : Direction → String
  | .Long => "long"
  | .Short => "short"

/-- The row of a stored position, for a spelling of addresses as text. -/
def rowOf (text : Address → String) (p : Position) : KeeperStore.Position where
  id := p.id
  trader := text p.trader
  asset := p.asset
  direction := directionText p.direction
  size := p.size
  collateral := p.collateral
  entryPrice := p.entryPrice
  leverage := p.leverage
  openedAt := p.openedAt
  status := "open"

/-- An event with the fields of its position: as stored after an opening, as stored before a
close or a liquidation. -/
def decode (text : Address → String) (w w' : World N) : Event → Option DecodedEvent
  | .positionOpened trader id direction size collateral entryPrice leverage _ =>
    (w'.positionManager.position.lookup (trader, id)).map fun p =>
      .positionOpened id (text trader) p.asset (directionText direction) size collateral
        entryPrice leverage w'.timestamp
  | .positionClosed trader id exitPrice realizedPnl fee =>
    (w.positionManager.position.lookup (trader, id)).map fun p =>
      .positionClosed id (text trader) p.asset (directionText p.direction) p.size p.entryPrice
        exitPrice realizedPnl fee w'.timestamp
  | .liquidation trader id keeper markPrice marginRatioBps penalty keeperReward =>
    (w.positionManager.position.lookup (trader, id)).map fun p =>
      .liquidation id (text trader) (text keeper) p.asset markPrice marginRatioBps penalty
        keeperReward w'.timestamp
  | _ => none

def newEvents (w w' : World N) : List Event := w'.events.drop w.events.length

def delivered (text : Address → String) (w : World N) (a : Action N) : List DecodedEvent :=
  (newEvents w (step w a)).filterMap (decode text w (step w a))

structure Indexed (N : Network) where
  world : World N
  store : Store

def indexedStep (text : Address → String) (x : Indexed N) (a : Action N) : Indexed N where
  world := step x.world a
  store := (delivered text x.world a).foldl process x.store

def indexedRun (text : Address → String) (w₀ : World N) (as : List (Action N)) : Indexed N :=
  ActionRuns.runActions (indexedStep text) ⟨w₀, {}⟩ as

/-- The open rows are the stored positions, and their sizes add up to the open interest. The
list of assets may be any that names each of them once. -/
structure ViewMatches (text : Address → String) (x : Indexed N) : Prop where
  once : (getOpenPositions x.store "").Nodup
  rows : ∀ row, row ∈ getOpenPositions x.store "" ↔
    ∃ key p, x.world.positionManager.position.lookup key = some p ∧ row = rowOf text p
  interest : ∀ (assets : List ℕ) (interest : List (ℤ × ℤ)), assets.Nodup →
    (∀ key p, x.world.positionManager.position.lookup key = some p → p.asset ∈ assets) →
    assets.mapM (getOpenInterest x.store) = some interest →
      (interest.map Prod.fst).sum = x.world.positionManager.openInterestLong ∧
        (interest.map Prod.snd).sum = x.world.positionManager.openInterestShort

/-- The position a step liquidates, through the engine or by a direct order. -/
def liquidatedBy (w : World N) : Action N → Option Position
  | .invoke caller (.engine (.liquidate keeper trader id asset)) =>
    match (PerpsLiquidationEngine.liquidate caller.env keeper trader id asset).run w with
    | .ok _ => w.positionManager.position.lookup (trader, id)
    | .error _ => none
  | .invoke caller (.positionManager (.liquidatePosition c trader id asset)) =>
    match (liquidatePosition caller.env c trader id asset).run w with
    | .ok _ => w.positionManager.position.lookup (trader, id)
    | .error _ => none
  | _ => none

section Announcements

variable {text : Address → String} {env : Env} {w w' : World N} {u : Unit} {es : List Event}

/-- The events a handler of the positions table waits for. -/
def OfPosition : Event → Prop
  | .positionOpened .. | .positionClosed .. | .liquidation .. => True
  | _ => False

def Silent (w w' : World N) : Prop :=
  ∃ es, w'.events = w.events ++ es ∧ ∀ e ∈ es, ¬ OfPosition e

theorem silent_of_events (h : w'.events = w.events) : Silent w w' := by
  refine ⟨[], ?_, ?_⟩
  · rw [h, List.append_nil]
  · intro e he
    cases he

theorem newEvents_eq (h : w'.events = w.events ++ es) : newEvents w w' = es := by
  rw [newEvents, h, List.drop_left]

theorem decode_other {e : Event} (h : ¬ OfPosition e) : decode text w w' e = none := by
  cases e with
  | positionOpened => exact absurd trivial h
  | positionClosed => exact absurd trivial h
  | liquidation => exact absurd trivial h
  | _ => rfl

theorem Silent.decode_none (h : Silent w w') :
    (newEvents w w').filterMap (decode text w w') = [] := by
  obtain ⟨es, hes, hother⟩ := h
  rw [newEvents_eq hes, List.filterMap_eq_nil_iff]
  intro e he
  exact decode_other (hother e he)

theorem vault_silent {c : PerpsVault.Call}
    (h : (PerpsVault.invoke env c : Contract N Unit).run w = .ok (u, w')) :
    w'.positionManager = w.positionManager ∧ Silent w w' := by
  obtain ⟨s, usdc, es, hown, rfl⟩ := PerpsVault.invoke_frame h
  refine ⟨rfl, es, rfl, ?_⟩
  intro e he hpos
  have hvault := hown e he
  cases e with
  | positionOpened => exact hvault
  | positionClosed => exact hvault
  | liquidation => exact hvault
  | _ => exact hpos

theorem oracle_silent {c : PerpsOracleAdapter.Call}
    (h : (PerpsOracleAdapter.invoke env c : Contract N Unit).run w = .ok (u, w')) :
    w'.positionManager = w.positionManager ∧ Silent w w' := by
  obtain ⟨s, es, hown, rfl, -⟩ := PerpsOracleAdapter.invoke_frame h
  refine ⟨rfl, es, rfl, ?_⟩
  intro e he hpos
  have horacle := hown e he
  cases e with
  | priceFetched => exact hpos
  | _ => exact horacle

theorem funding_silent {c : PerpsFundingRate.Call}
    (h : (PerpsFundingRate.invoke env c : Contract N Unit).run w = .ok (u, w')) :
    w'.positionManager = w.positionManager ∧ Silent w w' := by
  obtain ⟨s, es, hown, rfl⟩ := PerpsFundingRate.invoke_frame h
  refine ⟨rfl, es, rfl, ?_⟩
  intro e he hpos
  have hfunding := hown e he
  cases e with
  | fundingApplied => exact hpos
  | _ => exact hfunding

end Announcements

section Steps

variable {text : Address → String} {w w' : World N} {a : Action N}

structure SamePositions (s s' : PositionStorage) : Prop where
  admin : s.admin.isSome → s'.admin.isSome
  position : s'.position = s.position
  count : s'.traderPositionCount = s.traderPositionCount
  next : s'.nextPositionId = s.nextPositionId
  long : s'.openInterestLong = s.openInterestLong
  short : s'.openInterestShort = s.openInterestShort

theorem samePositions_of_eq {s s' : PositionStorage} (h : s' = s) : SamePositions s s' := by
  rw [h]
  exact ⟨id, rfl, rfl, rfl, rfl, rfl⟩

/-- What one step can do to the positions and announce about them, with the position it
liquidates. -/
inductive Change (text : Address → String) (w w' : World N) : Option Position →
    List DecodedEvent → Prop
  | kept (hs : SamePositions w.positionManager w'.positionManager) : Change text w w' none []
  | opened (p : Position) (hid : p.id = w.positionManager.nextPositionId)
      (hs : w'.positionManager = afterOpen w.positionManager p) :
      Change text w w' none [.positionOpened p.id (text p.trader) p.asset
        (directionText p.direction) p.size p.collateral p.entryPrice p.leverage p.openedAt]
  | closed (trader : Address) (id : ℕ) (p : Position) (price net fee timestamp : ℤ)
      (hp : w.positionManager.position.lookup (trader, id) = some p)
      (hs : w'.positionManager = afterRemove w.positionManager trader id p) :
      Change text w w' none [.positionClosed id (text trader) p.asset
        (directionText p.direction) p.size p.entryPrice price net fee timestamp]
  | liquidated (trader : Address) (id : ℕ) (p : Position) (es : List DecodedEvent)
      (hp : w.positionManager.position.lookup (trader, id) = some p)
      (hs : w'.positionManager = afterRemove w.positionManager trader id p)
      (hes : ∀ e ∈ es, ∃ keeper markPrice ratio penalty reward timestamp,
        e = .liquidation id (text trader) keeper p.asset markPrice ratio penalty reward
          timestamp) :
      Change text w w' (some p) es

theorem change_of_silent (hs : SamePositions w.positionManager w'.positionManager)
    (he : Silent w w') :
    Change text w w' none ((newEvents w w').filterMap (decode text w w')) := by
  rw [he.decode_none]
  exact .kept hs

theorem change_elsewhere (h : w'.positionManager = w.positionManager ∧ Silent w w') :
    Change text w w' none ((newEvents w w').filterMap (decode text w w')) :=
  change_of_silent (samePositions_of_eq h.1) h.2

theorem manager_change {caller : Caller N} {c : PerpsPositionManager.Call} {u : Unit}
    (ha : w.positionManager.admin.isSome)
    (h : (PerpsPositionManager.invoke caller.env c : Contract N Unit).run w = .ok (u, w')) :
    Change text w w' (liquidatedBy w (.invoke caller (.positionManager c)))
      ((newEvents w w').filterMap (decode text w w')) := by
  cases c with
  | initializePositionManager admin vault oracle usdc openFee closeFee leverage collateral =>
    simp [PerpsPositionManager.invoke, initializePositionManager] at h
    simp [h.1] at ha
  | openPosition trader asset direction collateral leverage =>
    simp only [PerpsPositionManager.invoke, run_discard_ok] at h
    obtain ⟨id, h⟩ := h
    obtain ⟨rfl, price, usdc, -, -, hw⟩ := openPosition_ok.mp h
    let p := openedPosition w trader asset direction collateral leverage price
    have hs : w'.positionManager = afterOpen w.positionManager p :=
      congrArg World.positionManager hw
    have htime : w'.timestamp = w.timestamp := by rw [hw]
    have hlook : w'.positionManager.position.lookup (trader, w.positionManager.nextPositionId) =
        some p := by
      rw [hs]
      exact Finmap.lookup_insert _
    rw [newEvents_eq (congrArg World.events hw)]
    simp only [List.filterMap_cons, decode, hlook, htime]
    exact .opened p rfl hs
  | closePosition trader id asset =>
    simp only [PerpsPositionManager.invoke, run_discard_ok] at h
    obtain ⟨net, h⟩ := h
    obtain ⟨-, p, price, usdc, hp, -, -, -, -, -, -, -, hw⟩ := closePosition_ok.mp h
    rw [newEvents_eq (congrArg World.events hw)]
    simp only [List.filterMap_cons, decode, hp]
    exact .closed trader id p price net _ _ hp (congrArg World.positionManager hw)
  | liquidatePosition c trader id asset =>
    simp only [PerpsPositionManager.invoke, run_discard_ok] at h
    obtain ⟨out, h⟩ := h
    obtain ⟨-, -, p, price, usdc, hp, -, -, -, -, hw⟩ := liquidatePosition_ok.mp h
    have hlost : liquidatedBy w (.invoke caller (.positionManager
        (.liquidatePosition c trader id asset))) = some p := by
      simp only [liquidatedBy, h, hp]
    rw [hlost, newEvents_eq (congrArg World.events hw)]
    simp only [List.filterMap_cons, decode]
    exact .liquidated trader id p [] hp (congrArg World.positionManager hw) (by simp)
  | setFeeRates admin openBps closeBps =>
    simp [PerpsPositionManager.invoke, setFeeRates] at h
    obtain ⟨-, -, rfl⟩ := h
    exact change_of_silent ⟨id, rfl, rfl, rfl, rfl, rfl⟩ (silent_of_events rfl)
  | setMaxLeverage admin max =>
    simp [PerpsPositionManager.invoke, setMaxLeverage] at h
    obtain ⟨-, -, rfl⟩ := h
    exact change_of_silent ⟨id, rfl, rfl, rfl, rfl, rfl⟩ (silent_of_events rfl)
  | setLiquidationEngine admin engine =>
    simp [PerpsPositionManager.invoke, setLiquidationEngine] at h
    obtain ⟨-, rfl⟩ := h
    exact change_of_silent ⟨id, rfl, rfl, rfl, rfl, rfl⟩ (silent_of_events rfl)
  | setFundingAddress admin funding =>
    simp [PerpsPositionManager.invoke, setFundingAddress] at h
    obtain ⟨-, rfl⟩ := h
    exact change_of_silent ⟨id, rfl, rfl, rfl, rfl, rfl⟩ (silent_of_events rfl)

theorem engine_change {caller : Caller N} {c : PerpsLiquidationEngine.Call} {u : Unit}
    (h : (PerpsLiquidationEngine.invoke caller.env c : Contract N Unit).run w = .ok (u, w')) :
    Change text w w' (liquidatedBy w (.invoke caller (.engine c)))
      ((newEvents w w').filterMap (decode text w w')) := by
  cases c with
  | initializeEngine admin pm oracle maintenance penalty reward =>
    simp [PerpsLiquidationEngine.invoke, PerpsLiquidationEngine.initializeEngine] at h
    obtain ⟨-, -, -, rfl⟩ := h
    exact change_elsewhere ⟨rfl, silent_of_events rfl⟩
  | liquidate keeper trader id asset =>
    obtain ⟨-, p, price, usdc, hp, -, -, -, -, -, hw⟩ := PerpsLiquidationEngine.liquidate_ok h
    have hlost : liquidatedBy w (.invoke caller (.engine (.liquidate keeper trader id asset))) =
        some p := by
      simp only [PerpsLiquidationEngine.invoke] at h
      simp only [liquidatedBy, h, hp]
    rw [hlost, newEvents_eq (congrArg World.events hw)]
    simp only [List.filterMap_cons, decode, hp]
    exact .liquidated trader id p _ hp (congrArg World.positionManager hw) (by simp)
  | setMaintenanceMargin admin bps =>
    simp [PerpsLiquidationEngine.invoke, PerpsLiquidationEngine.setMaintenanceMargin] at h
    obtain ⟨-, -, rfl⟩ := h
    exact change_elsewhere ⟨rfl, silent_of_events rfl⟩
  | setLiquidationPenalty admin bps =>
    simp [PerpsLiquidationEngine.invoke, PerpsLiquidationEngine.setLiquidationPenalty] at h
    obtain ⟨-, rfl⟩ := h
    exact change_elsewhere ⟨rfl, silent_of_events rfl⟩
  | setKeeperReward admin bps =>
    simp [PerpsLiquidationEngine.invoke, PerpsLiquidationEngine.setKeeperReward] at h
    obtain ⟨-, rfl⟩ := h
    exact change_elsewhere ⟨rfl, silent_of_events rfl⟩

theorem liquidatedBy_of_error {caller : Caller N} {call : PerpsSystem.Call}
    {f : Failure PerpsError} (h : (dispatch caller.env call).run w = .error f) :
    liquidatedBy w (.invoke caller call) = none := by
  unfold liquidatedBy
  split
  · next heq =>
    cases heq
    simp only [dispatch, PerpsLiquidationEngine.invoke] at h
    rw [h]
  · next c trader id asset heq =>
    cases heq
    cases hrun : (liquidatePosition caller.env c trader id asset : Contract N _).run w with
    | error f => rfl
    | ok result =>
      have hok := (run_discard_ok (u := ())).mpr ⟨_, hrun⟩
      simp only [dispatch, PerpsPositionManager.invoke] at h
      rw [hok] at h
      cases h
  · rfl

/-- The wiring plays no part: an outside address may even be made the liquidation engine. -/
theorem step_change (ha : w.positionManager.admin.isSome) :
    Change text w (step w a) (liquidatedBy w a) (delivered text w a) := by
  unfold delivered
  cases a with
  | invoke caller call =>
    cases h : (dispatch caller.env call).run w with
    | error f =>
      have hstep : step w (.invoke caller call) = w := by simp only [step, h]
      rw [hstep, liquidatedBy_of_error h]
      exact change_elsewhere ⟨rfl, silent_of_events rfl⟩
    | ok result =>
      have hstep : step w (.invoke caller call) = result.2 := by simp only [step, h]
      rw [hstep]
      cases call with
      | vault call => exact change_elsewhere (vault_silent h)
      | oracle call => exact change_elsewhere (oracle_silent h)
      | positionManager call => exact manager_change ha h
      | engine call => exact engine_change h
      | funding call => exact change_elsewhere (funding_silent h)
      | transferUsdc src dst amount =>
        obtain ⟨-, -, usdc, -, hw⟩ := transferUsdc_ok.mp h
        rw [← hw]
        exact change_elsewhere ⟨rfl, silent_of_events rfl⟩
  | advance seconds => exact change_elsewhere ⟨rfl, silent_of_events rfl⟩
  | expirePrice asset => exact change_elsewhere ⟨rfl, silent_of_events rfl⟩

end Steps

section Mirroring

variable {text : Address → String} {m m' : PositionStorage} {s s' : Store}
  {gone : List Position} {p q : Position} {trader : Address} {id : ℕ}

def Holds (m : PositionStorage) (p : Position) : Prop := ∃ key, m.position.lookup key = some p

/-- The table of positions against the positions of the chain and those liquidated so far. -/
structure Mirrors (text : Address → String) (m : PositionStorage) (s : Store)
    (gone : List Position) : Prop where
  admin : m.admin.isSome
  counted : Counted m
  filed : ∀ key p, m.position.lookup key = some p → p.id = key.2 ∧ p.id < m.nextPositionId
  keyed : Keyed s
  old : ∀ id row, s.positions.lookup id = some row → id < m.nextPositionId
  stored : ∀ p, Holds m p ∨ p ∈ gone → s.positions.lookup p.id = some (rowOf text p)
  apart : ∀ p q, p ∈ gone → Holds m q → q.id ≠ p.id
  opened : ∀ id row, s.positions.lookup id = some row → row.status = "open" →
    ∃ p, row = rowOf text p ∧ (Holds m p ∨ p ∈ gone)
  long : sumBy (fun _ row => openOn "long" row) s.positions =
    m.openInterestLong + (gone.map (sizeOn .Long)).sum
  short : sumBy (fun _ row => openOn "short" row) s.positions =
    m.openInterestShort + (gone.map (sizeOn .Short)).sum

theorem openOn_long (p : Position) : openOn "long" (rowOf text p) = sizeOn .Long p := by
  cases h : p.direction <;> simp [openOn, rowOf, directionText, sizeOn, h]

theorem openOn_short (p : Position) : openOn "short" (rowOf text p) = sizeOn .Short p := by
  cases h : p.direction <;> simp [openOn, rowOf, directionText, sizeOn, h]

theorem openOn_closed {side : String} {row : KeeperStore.Position} (h : row.status = "closed") :
    openOn side row = 0 := by
  simp [openOn, h]

theorem holds_afterOpen (h : m.position.lookup (p.trader, p.id) = none) :
    Holds (afterOpen m p) q ↔ q = p ∨ Holds m q := by
  constructor
  · rintro ⟨key, hq⟩
    rcases lookup_of_insert hq with ⟨-, rfl⟩ | hq
    · exact .inl rfl
    · exact .inr ⟨key, hq⟩
  · rintro (rfl | ⟨key, hq⟩)
    · exact ⟨_, Finmap.lookup_insert _⟩
    · have hne : key ≠ (p.trader, p.id) := by
        rintro rfl
        rw [h] at hq
        cases hq
      exact ⟨key, (Finmap.lookup_insert_of_ne _ hne).trans hq⟩

theorem Mirrors.holds_afterRemove (h : Mirrors text m s gone)
    (hp : m.position.lookup (trader, id) = some p) :
    Holds (afterRemove m trader id p) q ↔ Holds m q ∧ q.id ≠ p.id := by
  constructor
  · rintro ⟨key, hq⟩
    have hold : m.position.lookup key = some q := lookup_of_erase hq
    refine ⟨⟨key, hold⟩, ?_⟩
    intro hid
    have hkey := h.counted.ids key (trader, id) q p hold hp hid
    subst hkey
    exact absurd hq (by simp [afterRemove])
  · rintro ⟨⟨key, hq⟩, hid⟩
    have hne : key ≠ (trader, id) := by
      rintro rfl
      exact hid (by rw [Option.some.inj (hq.symm.trans hp)])
    exact ⟨key, (Finmap.lookup_erase_ne hne).trans hq⟩

theorem Mirrors.of_positions (h : Mirrors text m s gone) (hs : s'.positions = s.positions) :
    Mirrors text m s' gone := by
  obtain ⟨hadmin, hcounted, hfiled, hkeyed, hold, hstored, hapart, hopened, hlong, hshort⟩ := h
  unfold Keyed at hkeyed
  rw [← hs] at hkeyed hold hstored hopened hlong hshort
  exact ⟨hadmin, hcounted, hfiled, hkeyed, hold, hstored, hapart, hopened, hlong, hshort⟩

theorem mirrors_same (h : Mirrors text m s gone) (hs : SamePositions m m') :
    Mirrors text m' s gone := by
  have hholds : ∀ q, Holds m' q ↔ Holds m q := by
    intro q
    unfold Holds
    rw [hs.position]
  constructor
  · exact hs.admin h.admin
  · constructor
    · rw [hs.position]
      exact h.counted.ids
    · intro trader
      have hcount := h.counted.counts trader
      unfold getTraderPositionCount storedCount at hcount ⊢
      rw [hs.count, hs.position, hcount]
  · rw [hs.position, hs.next]
    exact h.filed
  · exact h.keyed
  · rw [hs.next]
    exact h.old
  · simpa only [hholds] using h.stored
  · simpa only [hholds] using h.apart
  · simpa only [hholds] using h.opened
  · rw [hs.long]
    exact h.long
  · rw [hs.short]
    exact h.short

theorem Mirrors.next_unused (h : Mirrors text m s gone) (trader : Address) :
    m.position.lookup (trader, m.nextPositionId) = none := by
  cases hq : m.position.lookup (trader, m.nextPositionId) with
  | none => rfl
  | some q =>
    obtain ⟨hkey, hlt⟩ := h.filed _ _ hq
    exact absurd hkey hlt.ne

theorem Mirrors.next_unfiled (h : Mirrors text m s gone) :
    s.positions.lookup m.nextPositionId = none := by
  cases hrow : s.positions.lookup m.nextPositionId with
  | none => rfl
  | some row => exact absurd (h.old _ _ hrow) (lt_irrefl _)

theorem mirrors_open (h : Mirrors text m s gone) (hid : p.id = m.nextPositionId) :
    Mirrors text (afterOpen m p) (upsertPosition s (rowOf text p)) gone := by
  have hfree : m.position.lookup (p.trader, p.id) = none := by
    rw [hid]
    exact h.next_unused p.trader
  have hrowid : (rowOf text p).id = m.nextPositionId := hid
  have hnew : s.positions.lookup (rowOf text p).id = none := by
    rw [hrowid]
    exact h.next_unfiled
  have hnext : m.nextPositionId < (afterOpen m p).nextPositionId := Nat.lt_succ_self _
  constructor
  · exact h.admin
  · apply counted_open h.counted hfree
    intro key q hq
    rw [hid]
    exact (h.filed key q hq).2
  · intro key q hq
    rcases lookup_of_insert hq with ⟨rfl, rfl⟩ | hq
    · exact ⟨rfl, hid ▸ hnext⟩
    · exact ⟨(h.filed key q hq).1, (h.filed key q hq).2.trans hnext⟩
  · exact keyed_upsertPosition h.keyed
  · intro id row hrow
    rw [lookup_upsertPosition_new hnew] at hrow
    split at hrow
    · next heq =>
      rw [← heq, hrowid]
      exact hnext
    · exact (h.old id row hrow).trans hnext
  · intro q hq
    rw [lookup_upsertPosition_new hnew]
    rw [holds_afterOpen hfree, or_assoc] at hq
    rcases hq with rfl | hq
    · exact if_pos rfl
    · have hstored := h.stored q hq
      have hne : (rowOf text p).id ≠ q.id := by
        intro heq
        rw [heq, hstored] at hnew
        cases hnew
      rw [if_neg hne, hstored]
  · intro q r hq hr
    rcases (holds_afterOpen hfree).mp hr with rfl | hr
    · have hlt := h.old _ _ (h.stored q (.inr hq))
      omega
    · exact h.apart q r hq hr
  · intro id row hrow hopen
    rw [lookup_upsertPosition_new hnew] at hrow
    split at hrow
    · exact ⟨p, (Option.some.inj hrow).symm, .inl ((holds_afterOpen hfree).mpr (.inl rfl))⟩
    · obtain ⟨q, hq, hfrom⟩ := h.opened id row hrow hopen
      refine ⟨q, hq, hfrom.imp_left ?_⟩
      intro hholds
      exact (holds_afterOpen hfree).mpr (.inr hholds)
  · rw [sumBy_upsertPosition_new _ hnew, h.long, openOn_long]
    simp only [afterOpen]
    ring
  · rw [sumBy_upsertPosition_new _ hnew, h.short, openOn_short]
    simp only [afterOpen]
    ring

theorem mirrors_close {row : KeeperStore.Position} (h : Mirrors text m s gone)
    (hp : m.position.lookup (trader, id) = some p) (hid : row.id = id)
    (hrow : row.status = "closed") :
    Mirrors text (afterRemove m trader id p) (upsertPosition s row) gone := by
  have hpid : p.id = id := (h.filed _ _ hp).1
  have hold : s.positions.lookup row.id = some (rowOf text p) := by
    rw [hid, ← hpid]
    exact h.stored p (.inl ⟨_, hp⟩)
  have hclosed : (onConflict (rowOf text p) row).status = "closed" := hrow
  constructor
  · exact h.admin
  · exact counted_remove h.counted hp
  · intro key q hq
    exact h.filed key q (lookup_of_erase hq)
  · exact keyed_upsertPosition h.keyed
  · intro id' row' hrow'
    rw [lookup_upsertPosition_old hold] at hrow'
    split at hrow'
    · next heq => exact heq ▸ h.old _ _ hold
    · exact h.old id' row' hrow'
  · intro q hq
    have hkept : (Holds m q ∨ q ∈ gone) ∧ q.id ≠ p.id := by
      rcases hq with hq | hq
      · obtain ⟨hq, hne⟩ := (h.holds_afterRemove hp).mp hq
        exact ⟨.inl hq, hne⟩
      · exact ⟨.inr hq, (h.apart q p hq ⟨_, hp⟩).symm⟩
    have hne : row.id ≠ q.id := by
      rw [hid, ← hpid]
      exact hkept.2.symm
    rw [lookup_upsertPosition_old hold, if_neg hne]
    exact h.stored q hkept.1
  · intro q r hq hr
    exact h.apart q r hq ((h.holds_afterRemove hp).mp hr).1
  · intro id' row' hrow' hopen
    rw [lookup_upsertPosition_old hold] at hrow'
    split at hrow'
    · rw [← Option.some.inj hrow', hclosed] at hopen
      exact absurd hopen (by decide)
    · next hne =>
      obtain ⟨q, rfl, hfrom⟩ := h.opened id' row' hrow' hopen
      have hkey := h.keyed id' _ hrow'
      have hqid : q.id ≠ p.id := by
        intro heq
        exact hne (hid.trans (hpid.symm.trans (heq.symm.trans hkey)))
      refine ⟨q, rfl, hfrom.imp_left ?_⟩
      intro hholds
      exact (h.holds_afterRemove hp).mpr ⟨hholds, hqid⟩
  · rw [sumBy_upsertPosition_old _ hold, h.long, openOn_long, openOn_closed hclosed]
    simp only [afterRemove]
    ring
  · rw [sumBy_upsertPosition_old _ hold, h.short, openOn_short, openOn_closed hclosed]
    simp only [afterRemove]
    ring

/-- A liquidation leaves the table as it is, and with it the row of a position that is gone. -/
theorem mirrors_liquidate (h : Mirrors text m s gone)
    (hp : m.position.lookup (trader, id) = some p) :
    Mirrors text (afterRemove m trader id p) s (gone ++ [p]) := by
  constructor
  · exact h.admin
  · exact counted_remove h.counted hp
  · intro key q hq
    exact h.filed key q (lookup_of_erase hq)
  · exact h.keyed
  · exact h.old
  · intro q hq
    apply h.stored q
    rcases hq with hq | hq
    · exact .inl ((h.holds_afterRemove hp).mp hq).1
    · rcases List.mem_append.mp hq with hq | hq
      · exact .inr hq
      · exact .inl (List.mem_singleton.mp hq ▸ ⟨_, hp⟩)
  · intro q r hq hr
    obtain ⟨hr, hne⟩ := (h.holds_afterRemove hp).mp hr
    rcases List.mem_append.mp hq with hq | hq
    · exact h.apart q r hq hr
    · rw [List.mem_singleton.mp hq]
      exact hne
  · intro id' row hrow hopen
    obtain ⟨q, rfl, hfrom⟩ := h.opened id' row hrow hopen
    refine ⟨q, rfl, ?_⟩
    rcases hfrom with hq | hq
    · by_cases hqid : q.id = p.id
      · obtain ⟨key, hkey⟩ := hq
        have hsame := h.counted.ids key (trader, id) q p hkey hp hqid
        subst hsame
        rw [Option.some.inj (hkey.symm.trans hp)]
        exact .inr (by simp)
      · exact .inl ((h.holds_afterRemove hp).mpr ⟨hq, hqid⟩)
    · exact .inr (List.mem_append_left _ hq)
  · rw [h.long]
    simp [afterRemove]
  · rw [h.short]
    simp [afterRemove]

end Mirroring

section Runs

variable {text : Address → String} {w w' w₀ : World N} {x : Indexed N} {as : List (Action N)}
  {a : Action N} {gone : List Position} {lost : Option Position} {es : List DecodedEvent}

theorem process_liquidation (s : Store) (hes : ∀ e ∈ es, ∃ id trader keeper asset markPrice ratio
    penalty reward timestamp, e = .liquidation id trader keeper asset markPrice ratio penalty
      reward timestamp) : (es.foldl process s).positions = s.positions := by
  induction es generalizing s with
  | nil => rfl
  | cons e es ih =>
    obtain ⟨_, _, _, _, _, _, _, _, _, rfl⟩ := hes e List.mem_cons_self
    rw [List.foldl_cons, ih _ fun e he => hes e (List.mem_cons_of_mem _ he)]
    rfl

theorem change_mirrors {s : Store} (hc : Change text w w' lost es)
    (h : Mirrors text w.positionManager s gone) :
    Mirrors text w'.positionManager (es.foldl process s) (gone ++ lost.toList) := by
  cases hc with
  | kept hs => simpa using mirrors_same h hs
  | opened p hid hs =>
    rw [hs, Option.toList_none, List.append_nil]
    exact (mirrors_open h hid).of_positions rfl
  | closed trader id p price net fee timestamp hp hs =>
    rw [hs, Option.toList_none, List.append_nil]
    exact (mirrors_close h hp rfl rfl).of_positions rfl
  | liquidated trader id p es hp hs hes =>
    rw [hs]
    apply (mirrors_liquidate h hp).of_positions
    apply process_liquidation
    intro e he
    obtain ⟨keeper, markPrice, ratio, penalty, reward, timestamp, rfl⟩ := hes e he
    exact ⟨_, _, _, _, _, _, _, _, _, rfl⟩

theorem deployed_mirrors (h : Deployed w₀) : Mirrors text w₀.positionManager {} [] := by
  have hcounted := deployed_counted h
  obtain ⟨hw, hbooks, -⟩ := PerpsSystemInvariant.deployed_fresh h
  have hpos : w₀.positionManager.position = ∅ := congrArg PoolBooks.Books.positions hbooks
  have hlong : w₀.positionManager.openInterestLong = 0 :=
    congrArg PoolBooks.Books.interestLong hbooks
  have hshort : w₀.positionManager.openInterestShort = 0 :=
    congrArg PoolBooks.Books.interestShort hbooks
  constructor
  · exact hw.managerAdmin
  · exact hcounted
  · simp [hpos]
  · intro id row hrow
    simp at hrow
  · simp
  · simp [Holds, hpos]
  · simp
  · simp
  · simp [hlong]
  · simp [hshort]

/-- The positions a run liquidates, oldest first. -/
def liquidations (w₀ : World N) (as : List (Action N)) : List Position :=
  (ActionRuns.journal step liquidatedBy w₀ as).flatMap Option.toList

theorem liquidations_cons : liquidations w₀ (a :: as) =
    (liquidatedBy w₀ a).toList ++ liquidations (step w₀ a) as := by
  simp [liquidations, ActionRuns.journal]

theorem liquidations_eq_nil : liquidations w₀ as = [] ↔
    ActionRuns.Along step (fun w a => liquidatedBy w a = none) w₀ as := by
  induction as generalizing w₀ with
  | nil => simp [liquidations, ActionRuns.journal, ActionRuns.Along]
  | cons a as ih =>
    rw [liquidations_cons, List.append_eq_nil_iff, ih, Option.toList_eq_nil_iff]
    rfl

/-- The table follows the chain through every run, but for the positions liquidated. -/
theorem run_mirrors (h : Mirrors text x.world.positionManager x.store gone)
    (as : List (Action N)) :
    Mirrors text (ActionRuns.runActions (indexedStep text) x as).world.positionManager
      (ActionRuns.runActions (indexedStep text) x as).store
      (gone ++ liquidations x.world as) := by
  induction as generalizing x gone with
  | nil =>
    rw [liquidations, ActionRuns.journal, List.flatMap_nil, List.append_nil]
    exact h
  | cons a as ih =>
    have hstep := change_mirrors (step_change (a := a) h.admin) h
    have hrest := ih (x := indexedStep text x a) hstep
    rw [liquidations_cons, ← List.append_assoc]
    exact hrest

theorem Mirrors.interest {assets : List ℕ} {interest : List (ℤ × ℤ)}
    (h : Mirrors text x.world.positionManager x.store []) (hn : assets.Nodup)
    (hall : ∀ key p, x.world.positionManager.position.lookup key = some p → p.asset ∈ assets)
    (hsum : assets.mapM (getOpenInterest x.store) = some interest) :
    (interest.map Prod.fst).sum = x.world.positionManager.openInterestLong ∧
      (interest.map Prod.snd).sum = x.world.positionManager.openInterestShort := by
  have hassets : ∀ id row, x.store.positions.lookup id = some row → row.status = "open" →
      row.asset ∈ assets := by
    intro id row hrow hopen
    obtain ⟨p, rfl, ⟨key, hp⟩ | hgone⟩ := h.opened id row hrow hopen
    · exact hall key p hp
    · cases hgone
  obtain ⟨hlong, hshort⟩ := sum_getOpenInterest hn hassets hsum
  rw [hlong, hshort, h.long, h.short]
  simp

theorem mem_rows (h : Mirrors text x.world.positionManager x.store gone)
    {row : KeeperStore.Position} : row ∈ getOpenPositions x.store "" ↔
      ∃ p, row = rowOf text p ∧ (Holds x.world.positionManager p ∨ p ∈ gone) := by
  rw [mem_getOpenPositions]
  constructor
  · rintro ⟨id, row, hrow, hopen, rfl⟩
    obtain ⟨p, rfl, hfrom⟩ := h.opened id row hrow hopen
    exact ⟨p, rfl, hfrom⟩
  · rintro ⟨p, rfl, hfrom⟩
    exact ⟨p.id, rowOf text p, h.stored p hfrom, rfl, rfl⟩

theorem matches_iff (h : Mirrors text x.world.positionManager x.store gone) :
    ViewMatches text x ↔ gone = [] := by
  constructor
  · intro hview
    by_contra hgone
    obtain ⟨p, hp⟩ := List.exists_mem_of_ne_nil gone hgone
    have hrow := (mem_rows h).mpr ⟨p, rfl, .inr hp⟩
    obtain ⟨key, q, hq, heq⟩ := (hview.rows _).mp hrow
    have hid : p.id = q.id := congrArg KeeperStore.Position.id heq
    exact h.apart p q hp ⟨key, hq⟩ hid.symm
  · rintro rfl
    constructor
    · exact nodup_getOpenPositions h.keyed
    · intro row
      rw [mem_rows h]
      constructor
      · rintro ⟨p, hrow, ⟨key, hp⟩ | hgone⟩
        · exact ⟨key, p, hp, hrow⟩
        · cases hgone
      · rintro ⟨key, p, hp, hrow⟩
        exact ⟨p, hrow, .inl ⟨key, hp⟩⟩
    · intro assets interest hn hall hsum
      exact h.interest hn hall hsum

theorem view_matches_iff (text : Address → String) (hd : Deployed w₀) (as : List (Action N)) :
    ViewMatches text (indexedRun text w₀ as) ↔
      ActionRuns.Along step (fun w a => liquidatedBy w a = none) w₀ as := by
  have hstart : Mirrors text w₀.positionManager {} [] := deployed_mirrors hd
  have hend := run_mirrors (x := ⟨w₀, {}⟩) hstart as
  rw [indexedRun, matches_iff hend, List.nil_append, liquidations_eq_nil]

theorem view_matches_two_longs :
    let as := [postPrice 0 10000000000, provide 1000000000000, openLong 0 1000000000 10,
      openLong 0 2000000000 5, close 1 0]
    ViewMatches (fun a => a.id.repr) (indexedRun (fun a => a.id.repr) harnessStart as) ↔
      ActionRuns.Along step (fun w a => liquidatedBy w a = none) harnessStart as :=
  view_matches_iff _ deployed_harness _

def liquidatedLong : Indexed harness := indexedRun (fun a => a.id.repr) harnessStart
  [postPrice 0 10000000000, provide 1000000000000, openLong 0 1000000000 10,
    postPrice 0 9200000000, orderLiquidation 1 0]

/-- The keeper liquidates the trader's long. Its row stays open. -/
theorem liquidatedLong_differs : ¬ ViewMatches (fun a => a.id.repr) liquidatedLong := by
  intro h
  have hnone : liquidatedLong.world.positionManager.position = ∅ := by decide +kernel
  have hopen : ((liquidatedLong.store.positions.lookup 1).map fun row => row.status) =
      some "open" := by decide +kernel
  obtain ⟨row, hrow, hstatus⟩ := Option.map_eq_some_iff.mp hopen
  have hmem : openColumns row ∈ getOpenPositions liquidatedLong.store "" :=
    mem_getOpenPositions.mpr ⟨1, row, hrow, hstatus, rfl⟩
  obtain ⟨key, p, hp, -⟩ := (h.rows _).mp hmem
  rw [hnone] at hp
  cases hp

end Runs

end KeeperView
