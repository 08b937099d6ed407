import Mathlib.Tactic.Ring
import SoroPerps.FinmapSums
import SoroPerps.MergeTable

/-! # The keeper's store

The SQLite tables the indexer fills. A position's row is found by its id; the rows of the other
tables have an autoincrement id that nothing refers to, so these tables are lists in the order of
insertion. Columns are exact integers: the values written are those of `int64` fields. -/
namespace KeeperStore

open FinmapSums MergeTable

/-- A row of `positions`. The direction is "long" or "short", the status "open", "closed" or
"liquidated". -/
structure Position where
  id : ℕ
  trader : String
  asset : ℕ
  direction : String
  size : ℤ
  collateral : ℤ
  entryPrice : ℤ
  leverage : ℕ
  openedAt : ℤ
  status : String
  closedAt : Option ℤ := none
  exitPrice : Option ℤ := none
  realizedPnl : Option ℤ := none
  closeFee : Option ℤ := none
  deriving DecidableEq, Repr

structure Trade where
  positionID : ℕ
  trader : String
  asset : ℕ
  direction : String
  size : ℤ
  entryPrice : ℤ
  exitPrice : ℤ
  realizedPnl : ℤ
  fee : ℤ
  type : String
  timestamp : ℤ
  deriving DecidableEq, Repr

structure FundingUpdate where
  longRate : ℤ
  shortRate : ℤ
  cumulativeLong : ℤ
  cumulativeShort : ℤ
  oiLong : ℤ
  oiShort : ℤ
  timestamp : ℤ
  deriving DecidableEq, Repr

structure LiquidationEvent where
  positionID : ℕ
  trader : String
  keeper : String
  asset : ℕ
  markPrice : ℤ
  marginRatio : ℤ
  penalty : ℤ
  keeperReward : ℤ
  timestamp : ℤ
  deriving DecidableEq, Repr

structure Store where
  positions : Finmap (fun _ : ℕ => Position) := ∅
  trades : List Trade := []
  fundingUpdates : List FundingUpdate := []
  liquidations : List LiquidationEvent := []

structure Cursor where
  lastLedger : ℤ := 0
  lastCursor : String := ""
  deriving DecidableEq, Repr

/-- The columns that `ON CONFLICT(id) DO UPDATE` takes over from the excluded row. -/
def onConflict (old excluded : Position) : Position :=
  { old with
    status := excluded.status
    closedAt := excluded.closedAt
    exitPrice := excluded.exitPrice
    realizedPnl := excluded.realizedPnl
    closeFee := excluded.closeFee }

def upsertPosition (s : Store) (p : Position) : Store :=
  { s with positions := upsert onConflict Position.id s.positions p }

def insertTrade (s : Store) (t : Trade) : Store := { s with trades := s.trades ++ [t] }

def insertFundingUpdate (s : Store) (f : FundingUpdate) : Store :=
  { s with fundingUpdates := s.fundingUpdates ++ [f] }

def insertLiquidation (s : Store) (l : LiquidationEvent) : Store :=
  { s with liquidations := s.liquidations ++ [l] }

/-- The columns `GetOpenPositions` selects. The others stay nil in its answer. -/
def openColumns (p : Position) : Position :=
  { p with closedAt := none, exitPrice := none, realizedPnl := none, closeFee := none }

/-- The empty trader asks for everybody's positions. The query leaves the order of rows opened at
the same time open; here they come in the order of their ids. -/
def getOpenPositions (s : Store) (trader : String) : List Position :=
  let rows := (scan s.positions).filter fun p =>
    p.status = "open" ∧ (trader = "" ∨ p.trader = trader)
  (rows.mergeSort fun p q => decide (q.openedAt ≤ p.openedAt)).map openColumns

def InI64 (x : ℤ) : Prop := -2 ^ 63 ≤ x ∧ x < 2 ^ 63

instance (x : ℤ) : Decidable (InI64 x) := inferInstanceAs (Decidable (_ ∧ _))

/-- `SUM` over integers fails as soon as it leaves the 64-bit range. Which order it adds in is the
database's choice, here that of the table. The sizes summed are the chain's, all above zero, and
then no order fails where another does not. -/
def sumInt64 (xs : List ℤ) : Option ℤ :=
  xs.foldl (fun acc x => acc.bind fun sum => if InI64 (sum + x) then some (sum + x) else none)
    (some 0)

def getOpenInterest (s : Store) (asset : ℕ) : Option (ℤ × ℤ) := do
  let rows := (scan s.positions).filter fun p => p.status = "open" ∧ p.asset = asset
  let long ← sumInt64 (rows.map fun p => if p.direction = "long" then p.size else 0)
  let short ← sumInt64 (rows.map fun p => if p.direction = "short" then p.size else 0)
  pure (long, short)

section Tables

theorem onConflict_keepsFirst : KeepsFirst onConflict where
  self _ := rfl
  again _ _ _ := rfl

variable {s : Store} {p old row : Position} {id : ℕ}

theorem lookup_upsertPosition_new (h : s.positions.lookup p.id = none) :
    (upsertPosition s p).positions.lookup id =
      if p.id = id then some p else s.positions.lookup id := lookup_upsert_new h

theorem lookup_upsertPosition_old (h : s.positions.lookup p.id = some old) :
    (upsertPosition s p).positions.lookup id =
      if p.id = id then some (onConflict old p) else s.positions.lookup id := lookup_upsert_old h

theorem sumBy_upsertPosition_new (f : ℕ → Position → ℤ) (h : s.positions.lookup p.id = none) :
    sumBy f (upsertPosition s p).positions = sumBy f s.positions + f p.id p := by
  simp only [upsertPosition, upsert, h]
  exact sumBy_insert_new h

theorem sumBy_upsertPosition_old (f : ℕ → Position → ℤ) (h : s.positions.lookup p.id = some old) :
    sumBy f (upsertPosition s p).positions =
      sumBy f s.positions + f p.id (onConflict old p) - f p.id old := by
  simp only [upsertPosition, upsert, h]
  rw [sumBy_insert, h]
  rfl

/-- Every row is filed under its own id. -/
def Keyed (s : Store) : Prop := ∀ id row, s.positions.lookup id = some row → row.id = id

theorem keyed_upsertPosition (h : Keyed s) : Keyed (upsertPosition s p) := by
  intro id row hrow
  cases hold : s.positions.lookup p.id with
  | none =>
    rw [lookup_upsertPosition_new hold] at hrow
    split at hrow
    · next hid => rw [← Option.some.inj hrow, hid]
    · exact h id row hrow
  | some old =>
    rw [lookup_upsertPosition_old hold] at hrow
    split at hrow
    · next hid =>
      rw [← Option.some.inj hrow, ← hid]
      exact h p.id old hold
    · exact h id row hrow

end Tables

section Queries

variable {s : Store} {row : Position} {asset : ℕ} {xs : List ℤ}

theorem mem_getOpenPositions : row ∈ getOpenPositions s "" ↔
    ∃ id p, s.positions.lookup id = some p ∧ p.status = "open" ∧ openColumns p = row := by
  simp only [getOpenPositions, List.mem_map, List.mem_mergeSort, List.mem_filter, mem_scan,
    decide_eq_true_eq, true_or, and_true]
  constructor
  · rintro ⟨p, ⟨⟨id, hid⟩, hopen⟩, hrow⟩
    exact ⟨id, p, hid, hopen, hrow⟩
  · rintro ⟨id, p, hid, hopen, hrow⟩
    exact ⟨p, ⟨⟨id, hid⟩, hopen⟩, hrow⟩

theorem nodup_getOpenPositions (h : Keyed s) : (getOpenPositions s "").Nodup := by
  have hids : ((scan s.positions).map Position.id).Nodup := by
    apply List.Nodup.map_on _ (nodup_scan h)
    intro p hp q hq hid
    obtain ⟨i, hi⟩ := mem_scan.mp hp
    obtain ⟨j, hj⟩ := mem_scan.mp hq
    rw [h i p hi, h j q hj] at hid
    subst hid
    exact Option.some.inj (hi.symm.trans hj)
  apply List.Nodup.of_map Position.id
  have hid : Position.id ∘ openColumns = Position.id := rfl
  rw [getOpenPositions, List.map_map, hid, ((List.mergeSort_perm _ _).map _).nodup_iff]
  exact (List.filter_sublist.map _).nodup hids

theorem sumInt64_eq {x : ℤ} (h : sumInt64 xs = some x) : x = xs.sum := by
  induction xs using List.reverseRecOn generalizing x with
  | nil => simpa [sumInt64, eq_comm] using h
  | append_singleton xs y ih =>
    simp only [sumInt64, List.foldl_append, List.foldl_cons, List.foldl_nil] at h
    obtain ⟨sum, hsum, hx⟩ := Option.bind_eq_some_iff.mp h
    split at hx
    · rw [List.sum_append, List.sum_singleton, ← ih hsum, Option.some.inj hx]
    · cases hx

def openSize (side : String) (asset : ℕ) (p : Position) : ℤ :=
  if p.status = "open" ∧ p.asset = asset ∧ p.direction = side then p.size else 0

theorem getOpenInterest_eq {long short : ℤ}
    (h : getOpenInterest s asset = some (long, short)) :
    long = sumBy (fun _ p => openSize "long" asset p) s.positions ∧
      short = sumBy (fun _ p => openSize "short" asset p) s.positions := by
  have hside : ∀ side : String, openSize side asset = fun p : Position =>
      if p.status = "open" ∧ p.asset = asset then (if p.direction = side then p.size else 0)
      else 0 := by
    intro side
    funext p
    simp only [openSize, ← ite_and, and_assoc]
  simp only [getOpenInterest, Option.bind_eq_bind, Option.bind_eq_some_iff] at h
  obtain ⟨_, hlong, _, hshort, hpair⟩ := h
  obtain ⟨rfl, rfl⟩ := Prod.mk.inj (Option.some.inj hpair)
  constructor
  · rw [sumInt64_eq hlong, sum_scan_filter, hside]
  · rw [sumInt64_eq hshort, sum_scan_filter, hside]

def openOn (side : String) (p : Position) : ℤ :=
  if p.status = "open" ∧ p.direction = side then p.size else 0

theorem sum_openSize (side : String) {assets : List ℕ} (hn : assets.Nodup) :
    (assets.map fun asset => sumBy (fun _ p => openSize side asset p) s.positions).sum =
      sumBy (fun _ p => if p.asset ∈ assets then openOn side p else 0) s.positions := by
  induction assets with
  | nil => simp [sumBy]
  | cons asset assets ih =>
    obtain ⟨hnew, hn⟩ := List.nodup_cons.mp hn
    rw [List.map_cons, List.sum_cons, ih hn, ← sumBy_add]
    congr 1
    funext _ p
    unfold openSize openOn
    by_cases hasset : p.asset = asset
    · subst hasset
      simp [hnew]
    · simp [hasset]

theorem sum_answers {assets : List ℕ} {interest : List (ℤ × ℤ)}
    (h : assets.mapM (getOpenInterest s) = some interest) :
    (interest.map Prod.fst).sum =
        (assets.map fun asset => sumBy (fun _ p => openSize "long" asset p) s.positions).sum ∧
      (interest.map Prod.snd).sum =
        (assets.map fun asset => sumBy (fun _ p => openSize "short" asset p) s.positions).sum := by
  induction assets generalizing interest with
  | nil =>
    rw [List.mapM_nil] at h
    rw [← Option.some.inj h]
    exact ⟨rfl, rfl⟩
  | cons asset assets ih =>
    rw [List.mapM_cons] at h
    simp only [Option.bind_eq_bind, Option.bind_eq_some_iff] at h
    obtain ⟨⟨long, short⟩, hasset, rest, hrest, hlist⟩ := h
    obtain ⟨hlong, hshort⟩ := getOpenInterest_eq hasset
    obtain ⟨hlongs, hshorts⟩ := ih hrest
    rw [← Option.some.inj hlist]
    simp only [List.map_cons, List.sum_cons]
    exact ⟨by rw [hlong, hlongs], by rw [hshort, hshorts]⟩

theorem sum_getOpenInterest {assets : List ℕ} {interest : List (ℤ × ℤ)} (hn : assets.Nodup)
    (hall : ∀ id p, s.positions.lookup id = some p → p.status = "open" → p.asset ∈ assets)
    (h : assets.mapM (getOpenInterest s) = some interest) :
    (interest.map Prod.fst).sum = sumBy (fun _ p => openOn "long" p) s.positions ∧
      (interest.map Prod.snd).sum = sumBy (fun _ p => openOn "short" p) s.positions := by
  have hcount : ∀ side : String,
      sumBy (fun _ p => if p.asset ∈ assets then openOn side p else 0) s.positions =
        sumBy (fun _ p => openOn side p) s.positions := by
    intro side
    apply sumBy_congr
    intro id p hp
    by_cases hopen : p.status = "open"
    · rw [if_pos (hall id p hp hopen)]
    · simp [openOn, hopen]
  obtain ⟨hlong, hshort⟩ := sum_answers h
  rw [hlong, hshort, sum_openSize "long" hn, sum_openSize "short" hn]
  exact ⟨hcount "long", hcount "short"⟩

end Queries

end KeeperStore
