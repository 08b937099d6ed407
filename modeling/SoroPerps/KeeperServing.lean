import SoroPerps.KeeperView
import SoroPerps.KeeperEndpoints

/-! # What the endpoints serve about a run

The statistics and the single positions that the API answers with, told by the chain the indexer
follows. A liquidated position counts as open in all of them. -/
namespace KeeperServing

open SorobanHost PerpsTypes PerpsSystem PerpsPositionStore
open PerpsPositionManager hiding getPosition
open KeeperStore (Store Trade Keyed InI64 sumInt64 onConflict openSize upsertPosition insertTrade
  getOpenInterest lookup_upsertPosition_new lookup_upsertPosition_old sumBy_upsertPosition_new
  sumBy_upsertPosition_old)
open KeeperIndexer KeeperView KeeperEndpoints FinmapSums

variable {N : Network}

section Sums

variable {s : Store} {xs : List ℤ} {asset : ℕ}

/-- Sums of no negative numbers grow, so only the last one can leave the range. -/
theorem sumInt64_of_nonneg (h : ∀ x ∈ xs, 0 ≤ x) :
    sumInt64 xs = if xs.sum < 2 ^ 63 then some xs.sum else none := by
  induction xs using List.reverseRecOn with
  | nil => simp [sumInt64]
  | append_singleton xs x ih =>
    have hx : 0 ≤ x := h x (by simp)
    have hxs : ∀ y ∈ xs, 0 ≤ y := fun y hy => h y (by simp [hy])
    have hsum : 0 ≤ xs.sum := List.sum_nonneg hxs
    have hlast : sumInt64 (xs ++ [x]) = (sumInt64 xs).bind fun sum =>
        if InI64 (sum + x) then some (sum + x) else none := by
      simp [sumInt64, List.foldl_append]
    have hrange : InI64 (xs.sum + x) ↔ xs.sum + x < 2 ^ 63 := by
      unfold InI64
      omega
    rw [hlast, ih hxs, List.sum_append, List.sum_singleton]
    by_cases hfit : xs.sum < 2 ^ 63
    · rw [if_pos hfit, Option.bind_some]
      simp only [hrange]
    · rw [if_neg hfit, Option.bind_none, if_neg (by omega)]

theorem sumInt64_perm {ys : List ℤ} (h : ∀ x ∈ xs, 0 ≤ x) (hp : xs.Perm ys) :
    sumInt64 xs = sumInt64 ys := by
  have hys : ∀ y ∈ ys, 0 ≤ y := fun y hy => h y (hp.mem_iff.mpr hy)
  rw [sumInt64_of_nonneg h, sumInt64_of_nonneg hys, hp.sum_eq]

theorem openSize_eq {side : String} : openSize side asset = fun p : KeeperStore.Position =>
    if p.status = "open" ∧ p.asset = asset then (if p.direction = side then p.size else 0)
    else 0 := by
  funext p
  simp only [openSize, ← ite_and, and_assoc]

theorem getOpenInterest_of_nonneg
    (h : ∀ id p, s.positions.lookup id = some p → p.status = "open" → 0 ≤ p.size) :
    getOpenInterest s asset =
      let long := sumBy (fun _ p => openSize "long" asset p) s.positions
      let short := sumBy (fun _ p => openSize "short" asset p) s.positions
      if long < 2 ^ 63 ∧ short < 2 ^ 63 then some (long, short) else none := by
  have hside : ∀ side : String, sumInt64
      (((scan s.positions).filter fun p => p.status = "open" ∧ p.asset = asset).map fun p =>
        if p.direction = side then p.size else 0) =
      if sumBy (fun _ p => openSize side asset p) s.positions < 2 ^ 63 then
        some (sumBy (fun _ p => openSize side asset p) s.positions) else none := by
    intro side
    rw [sumInt64_of_nonneg, sum_scan_filter, openSize_eq]
    intro x hx
    obtain ⟨p, hp, rfl⟩ := List.mem_map.mp hx
    obtain ⟨hscan, hopen⟩ := List.mem_filter.mp hp
    obtain ⟨id, hid⟩ := mem_scan.mp hscan
    split
    · exact h id p hid (of_decide_eq_true hopen).1
    · exact le_rfl
  simp only [getOpenInterest, hside, Option.bind_eq_bind]
  by_cases hlong : sumBy (fun _ p => openSize "long" asset p) s.positions < 2 ^ 63
  · by_cases hshort : sumBy (fun _ p => openSize "short" asset p) s.positions < 2 ^ 63
    · rw [if_pos hlong, if_pos hshort, if_pos ⟨hlong, hshort⟩]
      rfl
    · rw [if_pos hlong, if_neg hshort, if_neg (not_and_of_not_right _ hshort)]
      rfl
  · rw [if_neg hlong, if_neg (not_and_of_not_left _ hlong)]
    rfl

theorem sumBy_one {κ β : Type} [DecidableEq κ] (m : Finmap fun _ : κ => β) :
    sumBy (fun _ _ => 1) m = m.keys.card := by
  simp [sumBy, Finmap.keys, Multiset.keys]

end Sums

section Sizes

variable {w w' : World N} {a : Action N} {caller : Caller N} {u : Unit}

def Sized (s : PositionStorage) : Prop := ∀ p, Holds s p → 0 < p.size

theorem sized_open {s : PositionStorage} {p : Position} (h : Sized s) (hp : 0 < p.size) :
    Sized (afterOpen s p) := by
  rintro q ⟨key, hq⟩
  rcases lookup_of_insert hq with ⟨-, rfl⟩ | hq
  · exact hp
  · exact h q ⟨key, hq⟩

theorem sized_remove {s : PositionStorage} {trader : Address} {id : ℕ} {p : Position}
    (h : Sized s) : Sized (afterRemove s trader id p) := by
  rintro q ⟨key, hq⟩
  exact h q ⟨key, lookup_of_erase hq⟩

theorem manager_sized {c : PerpsPositionManager.Call} (h : Sized w.positionManager)
    (hc : (PerpsPositionManager.invoke caller.env c : Contract N Unit).run w = .ok (u, w')) :
    Sized w'.positionManager := by
  cases c with
  | openPosition trader asset direction collateral leverage =>
    simp only [PerpsPositionManager.invoke, run_discard_ok] at hc
    obtain ⟨id, hc⟩ := hc
    obtain ⟨-, price, usdc, hg, -, rfl⟩ := openPosition_ok.mp hc
    exact sized_open h hg.size
  | closePosition trader id asset =>
    simp only [PerpsPositionManager.invoke, run_discard_ok] at hc
    obtain ⟨net, hc⟩ := hc
    obtain ⟨-, p, price, usdc, -, -, -, -, -, -, -, -, rfl⟩ := closePosition_ok.mp hc
    exact sized_remove h
  | liquidatePosition c trader id asset =>
    simp only [PerpsPositionManager.invoke, run_discard_ok] at hc
    obtain ⟨out, hc⟩ := hc
    obtain ⟨-, -, p, price, usdc, -, -, -, -, -, rfl⟩ := liquidatePosition_ok.mp hc
    exact sized_remove h
  | initializePositionManager admin vault oracle usdc openFee closeFee leverage collateral =>
    simp [PerpsPositionManager.invoke, initializePositionManager] at hc
    obtain ⟨-, -, rfl⟩ := hc
    exact h
  | setFeeRates admin openBps closeBps =>
    simp [PerpsPositionManager.invoke, setFeeRates] at hc
    obtain ⟨-, -, rfl⟩ := hc
    exact h
  | setMaxLeverage admin max =>
    simp [PerpsPositionManager.invoke, setMaxLeverage] at hc
    obtain ⟨-, -, rfl⟩ := hc
    exact h
  | setLiquidationEngine admin engine =>
    simp [PerpsPositionManager.invoke, setLiquidationEngine] at hc
    obtain ⟨-, rfl⟩ := hc
    exact h
  | setFundingAddress admin funding =>
    simp [PerpsPositionManager.invoke, setFundingAddress] at hc
    obtain ⟨-, rfl⟩ := hc
    exact h

theorem engine_sized {c : PerpsLiquidationEngine.Call} (h : Sized w.positionManager)
    (hc : (PerpsLiquidationEngine.invoke caller.env c : Contract N Unit).run w = .ok (u, w')) :
    Sized w'.positionManager := by
  cases c with
  | liquidate keeper trader id asset =>
    obtain ⟨-, p, price, usdc, -, -, -, -, -, -, rfl⟩ := PerpsLiquidationEngine.liquidate_ok hc
    exact sized_remove h
  | initializeEngine admin pm oracle maintenance penalty reward =>
    simp [PerpsLiquidationEngine.invoke, PerpsLiquidationEngine.initializeEngine] at hc
    obtain ⟨-, -, -, rfl⟩ := hc
    exact h
  | setMaintenanceMargin admin bps =>
    simp [PerpsLiquidationEngine.invoke, PerpsLiquidationEngine.setMaintenanceMargin] at hc
    obtain ⟨-, -, rfl⟩ := hc
    exact h
  | setLiquidationPenalty admin bps =>
    simp [PerpsLiquidationEngine.invoke, PerpsLiquidationEngine.setLiquidationPenalty] at hc
    obtain ⟨-, rfl⟩ := hc
    exact h
  | setKeeperReward admin bps =>
    simp [PerpsLiquidationEngine.invoke, PerpsLiquidationEngine.setKeeperReward] at hc
    obtain ⟨-, rfl⟩ := hc
    exact h

theorem step_sized (h : Sized w.positionManager) : Sized (step w a).positionManager := by
  cases a with
  | invoke caller call =>
    rcases hrun : (dispatch caller.env call).run w with f | ⟨u, w'⟩
    · have hstep : step w (.invoke caller call) = w := by simp only [step, hrun]
      rw [hstep]
      exact h
    · have hstep : step w (.invoke caller call) = w' := by simp only [step, hrun]
      rw [hstep]
      cases call with
      | vault c => exact (vault_silent hrun).1 ▸ h
      | oracle c => exact (oracle_silent hrun).1 ▸ h
      | positionManager c => exact manager_sized h hrun
      | engine c => exact engine_sized h hrun
      | funding c => exact (funding_silent hrun).1 ▸ h
      | transferUsdc src dst amount =>
        obtain ⟨-, -, usdc, -, rfl⟩ := transferUsdc_ok.mp hrun
        exact h
  | advance seconds => exact h
  | expirePrice asset => exact h

end Sizes

section Serving

variable {text : Address → String} {w w' w₀ : World N} {x : Indexed N} {m m' : PositionStorage}
  {s s' : Store} {gone : List Position} {lost : Option Position} {es : List DecodedEvent}
  {closes : List (ℤ × ℤ)} {p : Position} {trader : Address} {id : ℕ} {a : Action N}
  {as : List (Action N)}

def closeOf : DecodedEvent → Option (ℤ × ℤ)
  | .positionClosed _ _ _ _ size _ _ _ _ timestamp => some (timestamp, size)
  | _ => none

/-- The trade inserted together with the columns a close fills in. -/
structure ClosedBy (row : KeeperStore.Position) (t : Trade) : Prop where
  positionID : t.positionID = row.id
  asset : t.asset = row.asset
  direction : t.direction = row.direction
  size : t.size = row.size
  entryPrice : t.entryPrice = row.entryPrice
  closedAt : row.closedAt = some t.timestamp
  exitPrice : row.exitPrice = some t.exitPrice
  realizedPnl : row.realizedPnl = some t.realizedPnl
  closeFee : row.closeFee = some t.fee

/-- The ids given out so far have rows, each open or closed by a trade. -/
structure Shelved (m : PositionStorage) (s : Store) : Prop where
  first : 0 < m.nextPositionId
  numbered : ∀ id, (s.positions.lookup id).isSome ↔ 0 < id ∧ id < m.nextPositionId
  fate : ∀ id row, s.positions.lookup id = some row →
    row.status = "open" ∨ row.status = "closed" ∧ ∃ t ∈ s.trades, ClosedBy row t

/-- Summed over the open rows, anything counts the chain's positions and those liquidated. -/
def Tallied (text : Address → String) (m : PositionStorage) (s : Store) (gone : List Position) :
    Prop :=
  ∀ g : KeeperStore.Position → ℤ,
    sumBy (fun _ row => if row.status = "open" then g row else 0) s.positions =
      sumBy (fun _ p => g (rowOf text p)) m.position + (gone.map fun p => g (rowOf text p)).sum

structure Traded (m : PositionStorage) (s : Store) (gone : List Position)
    (closes : List (ℤ × ℤ)) : Prop where
  held : Sized m
  gone : ∀ p ∈ gone, 0 < p.size
  trades : (s.trades.map fun t => (t.timestamp, t.size)) = closes
  closes : ∀ c ∈ closes, 0 < c.2

theorem shelved_same (h : Shelved m s) (hs : m'.nextPositionId = m.nextPositionId)
    (hp : s'.positions = s.positions) (ht : s'.trades = s.trades) : Shelved m' s' := by
  constructor
  · exact hs ▸ h.first
  · rw [hp, hs]
    exact h.numbered
  · rw [hp, ht]
    exact h.fate

theorem shelved_open (h : Shelved m s) (hid : p.id = m.nextPositionId)
    (hnew : s.positions.lookup (rowOf text p).id = none) :
    Shelved (afterOpen m p) (upsertPosition s (rowOf text p)) := by
  have hrow : (rowOf text p).id = m.nextPositionId := hid
  have hnext : (afterOpen m p).nextPositionId = m.nextPositionId + 1 := rfl
  constructor
  · exact Nat.succ_pos _
  · intro id
    rw [lookup_upsertPosition_new hnew, hrow, hnext]
    have hfirst := h.first
    by_cases heq : m.nextPositionId = id
    · subst heq
      simp [hfirst]
    · rw [if_neg heq, h.numbered]
      omega
  · intro id row hrow
    rw [lookup_upsertPosition_new hnew] at hrow
    split at hrow
    · left
      rw [← Option.some.inj hrow]
      rfl
    · exact h.fate id row hrow

theorem shelved_close {price net fee timestamp : ℤ} (h : Shelved m s) (hid : p.id = id)
    (hold : s.positions.lookup id = some (rowOf text p)) :
    Shelved (afterRemove m trader id p) (process s (.positionClosed id (text trader) p.asset
      (directionText p.direction) p.size p.entryPrice price net fee timestamp)) := by
  let row : KeeperStore.Position :=
    { id := id
      trader := text trader
      asset := p.asset
      direction := directionText p.direction
      size := p.size
      collateral := 0
      entryPrice := p.entryPrice
      leverage := 0
      openedAt := 0
      status := "closed"
      closedAt := some timestamp
      exitPrice := some price
      realizedPnl := some net
      closeFee := some fee }
  have hrow : s.positions.lookup row.id = some (rowOf text p) := hold
  have hlookup : ∀ k, (upsertPosition s row).positions.lookup k =
      if id = k then some (onConflict (rowOf text p) row) else s.positions.lookup k := by
    intro k
    exact lookup_upsertPosition_old hrow
  constructor
  · exact h.first
  · intro k
    have hnumbered := h.numbered k
    change ((upsertPosition s row).positions.lookup k).isSome ↔ _
    rw [hlookup]
    by_cases heq : id = k
    · subst heq
      rw [hold] at hnumbered
      rw [if_pos rfl]
      exact hnumbered
    · rw [if_neg heq]
      exact hnumbered
  · intro k r hr
    have hr' : (upsertPosition s row).positions.lookup k = some r := hr
    rw [hlookup] at hr'
    split at hr'
    · rw [← Option.some.inj hr']
      exact .inr ⟨rfl, _, List.mem_append_right _ List.mem_cons_self,
        ⟨hid.symm, rfl, rfl, rfl, rfl, rfl, rfl, rfl, rfl⟩⟩
    · rcases h.fate k r hr' with hopen | ⟨hclosed, t, ht, hby⟩
      · exact .inl hopen
      · exact .inr ⟨hclosed, t, List.mem_append_left _ ht, hby⟩

theorem tallied_same (h : Tallied text m s gone) (hs : m'.position = m.position) :
    Tallied text m' s gone := by
  intro g
  rw [hs]
  exact h g

theorem tallied_open (h : Tallied text m s gone)
    (hfree : m.position.lookup (p.trader, p.id) = none)
    (hnew : s.positions.lookup (rowOf text p).id = none) :
    Tallied text (afterOpen m p) (upsertPosition s (rowOf text p)) gone := by
  intro g
  have hopen : (rowOf text p).status = "open" := rfl
  have hchain : sumBy (fun _ q => g (rowOf text q)) (afterOpen m p).position =
      sumBy (fun _ q => g (rowOf text q)) m.position + g (rowOf text p) :=
    sumBy_insert_new hfree
  rw [sumBy_upsertPosition_new _ hnew, h g, hchain, if_pos hopen]
  ring

theorem sumBy_afterRemove {f : PositionKey → Position → ℤ}
    (hp : m.position.lookup (trader, id) = some p) :
    sumBy f (afterRemove m trader id p).position = sumBy f m.position - f (trader, id) p :=
  sumBy_erase hp

theorem tallied_close {row : KeeperStore.Position} (h : Tallied text m s gone)
    (hp : m.position.lookup (trader, id) = some p) (hrow : row.status = "closed")
    (hold : s.positions.lookup row.id = some (rowOf text p)) :
    Tallied text (afterRemove m trader id p) (upsertPosition s row) gone := by
  intro g
  have hopen : (rowOf text p).status = "open" := rfl
  have hclosed : ¬ (onConflict (rowOf text p) row).status = "open" := by
    change ¬ row.status = "open"
    rw [hrow]
    decide
  rw [sumBy_upsertPosition_old _ hold, h g, sumBy_afterRemove hp, if_neg hclosed, if_pos hopen]
  ring

theorem tallied_liquidate (h : Tallied text m s gone)
    (hp : m.position.lookup (trader, id) = some p) :
    Tallied text (afterRemove m trader id p) s (gone ++ [p]) := by
  intro g
  rw [h g, sumBy_afterRemove hp, List.map_append, List.sum_append, List.map_singleton,
    List.sum_singleton]
  ring

theorem trades_process (s : Store) (es : List DecodedEvent) :
    ((es.foldl process s).trades.map fun t => (t.timestamp, t.size)) =
      (s.trades.map fun t => (t.timestamp, t.size)) ++ es.filterMap closeOf := by
  induction es generalizing s with
  | nil => simp
  | cons e es ih =>
    rw [List.foldl_cons, ih, List.filterMap_cons]
    cases e with
    | positionClosed => simp [process, handler, processPositionClosed, applyAll, Write.apply,
        KeeperStore.insertTrade, upsertPosition, closeOf]
    | positionOpened => rfl
    | liquidation => rfl
    | fundingApplied => rfl

theorem tables_of_liquidations (s : Store) (hes : ∀ e ∈ es, ∃ id trader keeper asset markPrice
    ratio penalty reward timestamp, e = .liquidation id trader keeper asset markPrice ratio
      penalty reward timestamp) :
    (es.foldl process s).positions = s.positions ∧ (es.foldl process s).trades = s.trades := by
  induction es generalizing s with
  | nil => exact ⟨rfl, rfl⟩
  | cons e es ih =>
    obtain ⟨_, _, _, _, _, _, _, _, _, rfl⟩ := hes e List.mem_cons_self
    exact ih _ fun e he => hes e (List.mem_cons_of_mem _ he)

/-- The endpoints' view of a ledger, of the positions liquidated and of the closes so far. -/
structure Served (text : Address → String) (m : PositionStorage) (s : Store)
    (gone : List Position) (closes : List (ℤ × ℤ)) : Prop where
  mirrors : Mirrors text m s gone
  shelved : Shelved m s
  tallied : Tallied text m s gone
  traded : Traded m s gone closes

theorem change_shelved (hc : Change text w w' lost es)
    (h : Served text w.positionManager s gone closes) :
    Shelved w'.positionManager (es.foldl process s) := by
  cases hc with
  | kept hs => exact shelved_same h.shelved hs.next rfl rfl
  | opened p hid hs =>
    rw [hs]
    have hrow : (rowOf text p).id = w.positionManager.nextPositionId := hid
    have hnew : s.positions.lookup (rowOf text p).id = none := by
      rw [hrow]
      exact h.mirrors.next_unfiled
    exact shelved_same (shelved_open h.shelved hid hnew) rfl rfl rfl
  | closed trader id p price net fee timestamp hp hs =>
    have hid : p.id = id := (h.mirrors.filed _ _ hp).1
    rw [hs]
    exact shelved_close h.shelved hid (hid ▸ h.mirrors.stored p (.inl ⟨_, hp⟩))
  | liquidated trader id p es hp hs hes =>
    obtain ⟨hpositions, htrades⟩ := tables_of_liquidations s fun e he => by
      obtain ⟨keeper, markPrice, ratio, penalty, reward, timestamp, rfl⟩ := hes e he
      exact ⟨_, _, _, _, _, _, _, _, _, rfl⟩
    rw [hs]
    exact shelved_same h.shelved rfl hpositions htrades

theorem change_tallied (hc : Change text w w' lost es)
    (h : Served text w.positionManager s gone closes) :
    Tallied text w'.positionManager (es.foldl process s) (gone ++ lost.toList) := by
  cases hc with
  | kept hs =>
    rw [Option.toList_none, List.append_nil]
    exact tallied_same h.tallied hs.position
  | opened p hid hs =>
    have hfree : w.positionManager.position.lookup (p.trader, p.id) = none :=
      hid ▸ h.mirrors.next_unused p.trader
    have hrow : (rowOf text p).id = w.positionManager.nextPositionId := hid
    have hnew : s.positions.lookup (rowOf text p).id = none := by
      rw [hrow]
      exact h.mirrors.next_unfiled
    rw [hs, Option.toList_none, List.append_nil]
    exact tallied_open h.tallied hfree hnew
  | closed trader id p price net fee timestamp hp hs =>
    have hid : p.id = id := (h.mirrors.filed _ _ hp).1
    have hold := h.mirrors.stored p (.inl ⟨_, hp⟩)
    rw [hid] at hold
    rw [hs, Option.toList_none, List.append_nil]
    exact tallied_close h.tallied hp rfl hold
  | liquidated trader id p es hp hs hes =>
    obtain ⟨hpositions, -⟩ := tables_of_liquidations s fun e he => by
      obtain ⟨keeper, markPrice, ratio, penalty, reward, timestamp, rfl⟩ := hes e he
      exact ⟨_, _, _, _, _, _, _, _, _, rfl⟩
    intro g
    rw [hpositions, hs]
    exact tallied_liquidate h.tallied hp g

theorem change_traded (hc : Change text w w' lost es) (hsized : Sized w'.positionManager)
    (h : Served text w.positionManager s gone closes) :
    Traded w'.positionManager (es.foldl process s) (gone ++ lost.toList)
      (closes ++ es.filterMap closeOf) := by
  have hlost : ∀ p ∈ lost, Holds w.positionManager p := by
    cases hc with
    | liquidated trader id p es hp =>
      intro q hq
      rw [← Option.some.inj hq]
      exact ⟨_, hp⟩
    | _ => simp
  have hcloses : ∀ c ∈ es.filterMap closeOf, ∃ p, Holds w.positionManager p ∧ c.2 = p.size := by
    intro c hmem
    obtain ⟨e, he, hclose⟩ := List.mem_filterMap.mp hmem
    cases hc with
    | kept => cases he
    | opened =>
      rw [List.mem_singleton.mp he] at hclose
      cases hclose
    | closed trader id p price net fee timestamp hp =>
      rw [List.mem_singleton.mp he] at hclose
      exact ⟨p, ⟨_, hp⟩, congrArg Prod.snd (Option.some.inj hclose).symm⟩
    | liquidated trader id p es hp hs hes =>
      obtain ⟨keeper, markPrice, ratio, penalty, reward, timestamp, rfl⟩ := hes e he
      cases hclose
  constructor
  · exact hsized
  · intro p hp
    rcases List.mem_append.mp hp with hp | hp
    · exact h.traded.gone p hp
    · exact h.traded.held p (hlost p (Option.mem_toList.mp hp))
  · rw [trades_process, h.traded.trades]
  · intro c hc
    rcases List.mem_append.mp hc with hc | hc
    · exact h.traded.closes c hc
    · obtain ⟨p, hp, hsize⟩ := hcloses c hc
      rw [hsize]
      exact h.traded.held p hp

theorem step_served (h : Served text x.world.positionManager x.store gone closes) :
    Served text (indexedStep text x a).world.positionManager (indexedStep text x a).store
      (gone ++ (liquidatedBy x.world a).toList)
      (closes ++ (delivered text x.world a).filterMap closeOf) := by
  have hc : Change text x.world (step x.world a) (liquidatedBy x.world a)
      (delivered text x.world a) := step_change h.mirrors.admin
  exact {
    mirrors := change_mirrors hc h.mirrors
    shelved := change_shelved hc h
    tallied := change_tallied hc h
    traded := change_traded hc (step_sized h.traded.held) h }

/-- The closes delivered over a run, each with its time and size. -/
def closesOf (text : Address → String) (w₀ : World N) (as : List (Action N)) : List (ℤ × ℤ) :=
  (ActionRuns.journal step (delivered text) w₀ as).flatMap fun es => es.filterMap closeOf

theorem closesOf_cons : closesOf text w₀ (a :: as) =
    (delivered text w₀ a).filterMap closeOf ++ closesOf text (step w₀ a) as := by
  simp [closesOf, ActionRuns.journal]

theorem run_served (h : Served text x.world.positionManager x.store gone closes)
    (as : List (Action N)) :
    Served text (ActionRuns.runActions (indexedStep text) x as).world.positionManager
      (ActionRuns.runActions (indexedStep text) x as).store
      (gone ++ liquidations x.world as) (closes ++ closesOf text x.world as) := by
  induction as generalizing x gone closes with
  | nil => simpa [liquidations, closesOf, ActionRuns.journal] using h
  | cons a as ih =>
    have hrest := ih (x := indexedStep text x a) (step_served h)
    rw [liquidations_cons, closesOf_cons, ← List.append_assoc, ← List.append_assoc]
    exact hrest

theorem deployed_first (hd : Deployed w₀) : w₀.positionManager.nextPositionId = 1 := by
  obtain ⟨c, timestamp, usdc, h⟩ := hd
  simp [deploy, PerpsVault.initializeVault, PerpsOracleAdapter.initializeOracle,
    initializePositionManager, PerpsLiquidationEngine.initializeEngine,
    PerpsFundingRate.initializeFunding, PerpsVault.setPositionManager, setLiquidationEngine,
    setFundingAddress] at h
  obtain ⟨-, -, -, -, -, -, -, rfl⟩ := h
  rfl

theorem deployed_served (hd : Deployed w₀) : Served text w₀.positionManager {} [] [] := by
  obtain ⟨-, hbooks, -⟩ := PerpsSystemInvariant.deployed_fresh hd
  have hpos : w₀.positionManager.position = ∅ := congrArg PoolBooks.Books.positions hbooks
  have hnext := deployed_first hd
  constructor
  · exact deployed_mirrors hd
  · constructor
    · rw [hnext]
      decide
    · intro id
      rw [hnext]
      simp
      omega
    · intro id row hrow
      simp at hrow
  · intro g
    simp [hpos]
  · constructor
    · rintro p ⟨key, hp⟩
      simp [hpos] at hp
    · simp
    · rfl
    · simp

theorem indexed_served (text : Address → String) (hd : Deployed w₀) (as : List (Action N)) :
    Served text (indexedRun text w₀ as).world.positionManager (indexedRun text w₀ as).store
      (liquidations w₀ as) (closesOf text w₀ as) := by
  have hstart : Served text w₀.positionManager {} [] [] := deployed_served hd
  have hend := run_served (x := ⟨w₀, {}⟩) hstart as
  rwa [List.nil_append, List.nil_append] at hend

end Serving

section Statistics

variable {text : Address → String} {w₀ : World N} {m : PositionStorage} {s : Store}
  {gone : List Position} {closes : List (ℤ × ℤ)} {as : List (Action N)} {b : Backend}

theorem Served.openCount (h : Served text m s gone closes) :
    ((scan s.positions).filter fun p => p.status = "open").length =
      m.position.keys.card + gone.length := by
  have hsum := sum_scan_filter (m := s.positions) (fun p => p.status = "open") fun _ => 1
  have htally := h.tallied fun _ => 1
  rw [htally, sumBy_one] at hsum
  simpa [← Int.natCast_inj] using hsum

/-- The closes that the statistics count at a time of the keeper's clock. -/
def lastDay (now : ℤ) (closes : List (ℤ × ℤ)) : List (ℤ × ℤ) :=
  closes.filter fun c => now - 86400 < c.1

theorem Served.volume (h : Served text m s gone closes) : b.getVolume24h s =
    let volume := ((lastDay b.now closes).map Prod.snd).sum
    if b.available ∧ volume < 2 ^ 63 then some (volume, (lastDay b.now closes).length)
    else none := by
  let rows := s.trades.filter fun t => b.now - 86400 < t.timestamp
  have hday : rows.map (fun t => (t.timestamp, t.size)) = lastDay b.now closes := by
    rw [lastDay, ← h.traded.trades, List.filter_map]
    rfl
  have hsizes : rows.map Trade.size = (lastDay b.now closes).map Prod.snd := by
    rw [← hday, List.map_map]
    rfl
  have hcount : rows.length = (lastDay b.now closes).length := by
    rw [← hday, List.length_map]
  have hsum : sumInt64 (rows.map Trade.size) =
      if ((lastDay b.now closes).map Prod.snd).sum < 2 ^ 63 then
        some ((lastDay b.now closes).map Prod.snd).sum else none := by
    rw [hsizes, sumInt64_of_nonneg]
    intro x hx
    obtain ⟨c, hc, rfl⟩ := List.mem_map.mp hx
    exact (h.traded.closes c (List.mem_of_mem_filter hc)).le
  have hquery : b.getVolume24h s = if b.available then
      (sumInt64 (rows.map Trade.size)).map fun volume => (volume, rows.length) else none := rfl
  rw [hquery, hsum, hcount]
  cases b.available with
  | false => simp
  | true =>
    by_cases hfit : ((lastDay b.now closes).map Prod.snd).sum < 2 ^ 63
    · simp only [hfit, and_self, if_true, Option.map_some]
    · simp only [hfit, and_false, if_false, if_true, Option.map_none]

/-- The statistics of a run: liquidated positions count as open, and as traded only what was
closed by its trader. -/
theorem stats_of_run (text : Address → String) (hd : Deployed w₀) (as : List (Action N))
    (b : Backend) :
    let x := indexedRun text w₀ as
    let day := lastDay b.now (closesOf text w₀ as)
    let volume := (day.map Prod.snd).sum
    getStats b x.store =
      if b.available ∧ volume < 2 ^ 63 then
        .ok ⟨x.world.positionManager.position.keys.card + (liquidations w₀ as).length, volume,
          day.length⟩
      else .error 500 "failed to fetch stats" := by
  intro x day volume
  have h := indexed_served text hd as
  have hvolume : b.getVolume24h x.store =
      if b.available ∧ volume < 2 ^ 63 then some (volume, day.length) else none := h.volume
  rw [getStats, hvolume, Backend.getOpenPositionCount, h.openCount]
  by_cases hup : b.available = true
  · by_cases hfit : volume < 2 ^ 63
    · rw [if_pos hup, if_pos ⟨hup, hfit⟩, if_pos ⟨hup, hfit⟩]
    · have hnot := not_and_of_not_right (b.available = true) hfit
      rw [if_pos hup, if_neg hnot, if_neg hnot]
  · have hnot := not_and_of_not_left (volume < 2 ^ 63) hup
    rw [if_neg hup, if_neg hnot, if_neg hnot]

theorem stats_liquidatedLong :
    getStats (stableBackend 1000) liquidatedLong.store = .ok ⟨1, 0, 0⟩ := by
  rw [liquidatedLong, stats_of_run _ deployed_harness]
  decide +kernel

end Statistics

section Markets

variable {text : Address → String} {w₀ : World N} {m : PositionStorage} {s : Store}
  {gone : List Position} {closes : List (ℤ × ℤ)} {as : List (Action N)}

def sizeIn (d : Direction) (asset : ℕ) (p : Position) : ℤ :=
  if p.asset = asset ∧ p.direction = d then p.size else 0

/-- What an asset's positions on one side add up to, with those that were liquidated. -/
def interestIn (m : PositionStorage) (gone : List Position) (d : Direction) (asset : ℕ) : ℤ :=
  sumBy (fun _ p => sizeIn d asset p) m.position + (gone.map (sizeIn d asset)).sum

theorem directionText_eq_iff {d d' : Direction} : directionText d = directionText d' ↔ d = d' := by
  cases d <;> cases d' <;> simp [directionText]

theorem Served.interest (h : Served text m s gone closes) (asset : ℕ) (d : Direction) :
    sumBy (fun _ p => openSize (directionText d) asset p) s.positions =
      interestIn m gone d asset := by
  have htally := h.tallied fun row =>
    if row.asset = asset ∧ row.direction = directionText d then row.size else 0
  have hrow : ∀ p : Position, (if (rowOf text p).asset = asset ∧
      (rowOf text p).direction = directionText d then (rowOf text p).size else 0) =
        sizeIn d asset p := by
    intro p
    simp only [rowOf, directionText_eq_iff, sizeIn]
  simp only [hrow, ← ite_and] at htally
  exact htally

theorem Served.openSizes (h : Served text m s gone closes) (id : ℕ) (row : KeeperStore.Position)
    (hrow : s.positions.lookup id = some row) (hopen : row.status = "open") : 0 ≤ row.size := by
  obtain ⟨p, rfl, hp | hp⟩ := h.mirrors.opened id row hrow hopen
  · exact (h.traded.held p hp).le
  · exact (h.traded.gone p hp).le

theorem market_of_run (text : Address → String) (hd : Deployed w₀) (as : List (Action N))
    (b : Backend) (assetStr : String) :
    let x := indexedRun text w₀ as
    let interest := interestIn x.world.positionManager (liquidations w₀ as)
    getMarketStats b x.store assetStr =
      match parseUint 32 assetStr with
      | none => .error 400 "invalid asset id"
      | some asset =>
        if b.available ∧ interest .Long asset < 2 ^ 63 ∧ interest .Short asset < 2 ^ 63 then
          .ok ⟨asset, interest .Long asset, interest .Short asset⟩
        else .error 500 "failed to fetch market stats" := by
  intro x interest
  have h : Served text x.world.positionManager x.store (liquidations w₀ as)
      (closesOf text w₀ as) := indexed_served text hd as
  rw [getMarketStats]
  cases parseUint 32 assetStr with
  | none => rfl
  | some asset =>
    have hsides := @getOpenInterest_of_nonneg x.store asset h.openSizes
    have hlong := h.interest asset .Long
    have hshort := h.interest asset .Short
    simp only [directionText] at hlong hshort
    simp only [hlong, hshort] at hsides
    simp only [Backend.getOpenInterest]
    rw [hsides]
    cases b.available with
    | false => simp
    | true =>
      by_cases hfit : interest .Long asset < 2 ^ 63 ∧ interest .Short asset < 2 ^ 63
      · simp only [if_true, true_and]
        rw [if_pos hfit, if_pos hfit]
      · simp only [if_true, true_and]
        rw [if_neg hfit, if_neg hfit]

theorem market_liquidatedLong :
    getMarketStats (stableBackend 1000) liquidatedLong.store "0" = .ok ⟨0, 10000000000, 0⟩ := by
  rw [liquidatedLong, market_of_run _ deployed_harness]
  decide +kernel

end Markets

section Positions

variable {text : Address → String} {w₀ : World N} {as : List (Action N)} {b : Backend}

/-- What a request for a position by its number is answered with. -/
inductive Answers (b : Backend) (text : Address → String) (x : Indexed N)
    (gone : List Position) (idStr : String) : Answer KeeperStore.Position → Prop
  | malformed (h : ∀ id, Names idStr id → 2 ^ 64 ≤ id) :
      Answers b text x gone idStr (.error 400 "invalid position id")
  | failed (id : ℕ) (hname : Names idStr id) (hbits : id < 2 ^ 64)
      (hfail : b.available = false ∨ 2 ^ 63 ≤ id) :
      Answers b text x gone idStr (.error 500 "failed to fetch position")
  | unknown (id : ℕ) (hname : Names idStr id) (hbits : id < 2 ^ 63) (hup : b.available)
      (hnone : id = 0 ∨ x.world.positionManager.nextPositionId ≤ id) :
      Answers b text x gone idStr (.error 404 "position not found")
  | standing (p : Position) (hname : Names idStr p.id) (hbits : p.id < 2 ^ 63) (hup : b.available)
      (hp : Holds x.world.positionManager p ∨ p ∈ gone) :
      Answers b text x gone idStr (.ok (rowOf text p))
  | closed (row : KeeperStore.Position) (t : Trade) (hname : Names idStr row.id)
      (hbits : row.id < 2 ^ 63) (hup : b.available) (hstatus : row.status = "closed")
      (hnone : ∀ p, Holds x.world.positionManager p ∨ p ∈ gone → p.id ≠ row.id)
      (ht : t ∈ x.store.trades) (hby : ClosedBy row t) :
      Answers b text x gone idStr (.ok row)

end Positions

end KeeperServing
