import SoroPerps.KeeperStore
import SoroPerps.RankedRows

/-! # The positions endpoint of the keeper's API

A request names a trader, a status and a limit. The handler chooses one of two queries of the
store: one filters by status but knows no limit, the other has a limit but knows no status. -/
namespace KeeperApi

open FinmapSums KeeperStore RankedRows

section Parameters

/-- The decoded parameters of a URL, in their order. -/
abbrev Query := List (String × String)

def Query.get (r : Query) (key : String) : String := (r.lookup key).getD ""

def digitsValue : List Char → Option ℕ
  | [] => none
  | digits => digits.foldlM (fun n c => if c.isDigit then some (10 * n + (c.toNat - 48)) else none) 0

/-- The integer that digits write, after a sign or without one. -/
def integerText : List Char → Option ℤ
  | '+' :: digits => (digitsValue digits).map fun n => (n : ℤ)
  | '-' :: digits => (digitsValue digits).map fun n => -(n : ℤ)
  | digits => (digitsValue digits).map fun n => (n : ℤ)

/-- Fails on what is no integer or leaves the 64-bit range. -/
def atoi (text : String) : Option ℤ := (integerText text.toList).filter fun n => InI64 n

def queryInt (r : Query) (key : String) (defaultVal : ℤ) : ℤ :=
  let v := r.get key
  if v = "" then defaultVal
  else
    match atoi v with
    | none => defaultVal
    | some n => if n ≤ 0 then defaultVal else n

end Parameters

section Handler

/-- What the queries leave to the database: the order of positions opened at the same time, and
whether it answers at all. -/
structure Database where
  orderBy : List Position → List Position
  listing : Listing Position.openedAt orderBy
  available : Bool := true

variable (db : Database) (s : Store)

/-- The rows that `GetOpenPositions` selects. The empty trader asks for everybody's. -/
def openRows (trader : String) : List Position :=
  (scan s.positions).filter fun p => p.status = "open" ∧ (trader = "" ∨ p.trader = trader)

def traderRows (trader : String) : List Position :=
  (scan s.positions).filter fun p => p.trader = trader

def Database.getOpenPositions (trader : String) : Option (List Position) :=
  if db.available then some ((db.orderBy (openRows s trader)).map openColumns) else none

def Database.getPositionsByTrader (trader : String) (limit : ℤ) : Option (List Position) :=
  let limit := if limit ≤ 0 then 50 else limit
  if db.available then some ((db.orderBy (traderRows s trader)).take limit.toNat) else none

/-- Lists positions opened at the same time by their ids. -/
def stableDatabase : Database := ⟨_, listing_stableListing Position.openedAt, true⟩

theorem getOpenPositions_stable (trader : String) :
    stableDatabase.getOpenPositions s trader = some (getOpenPositions s trader) := rfl

inductive Response where
  | positions (ps : List Position)
  | error (status : ℕ) (msg : String)
  deriving DecidableEq, Repr

def writePositions : Option (List Position) → Response
  | none => .error 500 "failed to fetch positions"
  | some ps => .positions ps

def getPositions (r : Query) : Response :=
  let trader := r.get "trader"
  let status := r.get "status"
  let limit := queryInt r "limit" 50
  if status = "" ∨ status = "open" then
    writePositions (db.getOpenPositions s trader)
  else if trader ≠ "" then
    writePositions (db.getPositionsByTrader s trader limit)
  else
    .error 400 "provide trader query param for non-open status queries"

end Handler

section Filters

def askedStatus (r : Query) : String := if r.get "status" = "" then "open" else r.get "status"

/-- Fifty when the limit is missing or writes no positive integer. -/
def askedLimit (r : Query) : ℤ :=
  match integerText (r.get "limit").toList with
  | none => 50
  | some n => if 0 < n then n else 50

/-- What a request asks of the positions in its answer. -/
structure FiltersHonoured (r : Query) (ps : List Position) : Prop where
  trader : r.get "trader" ≠ "" → ∀ p ∈ ps, p.trader = r.get "trader"
  status : ∀ p ∈ ps, p.status = askedStatus r
  limit : (ps.length : ℤ) ≤ askedLimit r

def Honours (r : Query) : Response → Prop
  | .positions ps => FiltersHonoured r ps
  | .error _ _ => True

/-- A limit above the 64-bit range counts as no integer. -/
def servedLimit (r : Query) : ℤ := if InI64 (askedLimit r) then askedLimit r else 50

/-- Open positions are honoured when all of them fit the limit. Under another status, a trader's
row may be served when fewer than the limit of the trader's rows were opened after it, and each of
these has to have that status. Without a trader the answer is an error. -/
def HonouredWhen (s : Store) (r : Query) : Prop :=
  if askedStatus r = "open" then
    ((openRows s (r.get "trader")).length : ℤ) ≤ askedLimit r
  else
    r.get "trader" ≠ "" → ∀ p ∈ traderRows s (r.get "trader"),
      (rank Position.openedAt (traderRows s (r.get "trader")) p : ℤ) < servedLimit r →
        p.status = askedStatus r

variable {db : Database} {s : Store} {r : Query} {p : Position} {trader : String}

theorem askedLimit_pos : 0 < askedLimit r := by
  unfold askedLimit
  split
  · decide
  · split
    · assumption
    · decide

theorem servedLimit_pos : 0 < servedLimit r := by
  unfold servedLimit
  split
  · exact askedLimit_pos
  · decide

theorem servedLimit_le : servedLimit r ≤ askedLimit r := by
  have hpos := askedLimit_pos (r := r)
  by_cases h : InI64 (askedLimit r)
  · rw [servedLimit, if_pos h]
  · rw [servedLimit, if_neg h]
    unfold InI64 at h
    omega

theorem queryInt_limit : queryInt r "limit" 50 = servedLimit r := by
  cases htext : integerText (r.get "limit").toList with
  | none =>
    have hatoi : atoi (r.get "limit") = none := by
      rw [atoi, htext]
      rfl
    have hasked : askedLimit r = 50 := by simp only [askedLimit, htext]
    have hserved : servedLimit r = 50 := by rw [servedLimit, hasked, ite_self]
    simp only [queryInt, hatoi, ite_self, hserved]
  | some n =>
    have hlimit : r.get "limit" ≠ "" := by
      intro hempty
      rw [hempty] at htext
      cases htext
    have hatoi : atoi (r.get "limit") = if InI64 n then some n else none := by
      rw [atoi, htext, Option.filter_some]
      simp only [decide_eq_true_eq]
    have hasked : askedLimit r = if 0 < n then n else 50 := by simp only [askedLimit, htext]
    simp only [queryInt, if_neg hlimit, hatoi, servedLimit, hasked]
    by_cases hpos : 0 < n
    · rw [if_pos hpos]
      by_cases hrange : InI64 n
      · rw [if_pos hrange, if_pos hrange]
        exact if_neg (not_le.mpr hpos)
      · rw [if_neg hrange, if_neg hrange]
    · rw [if_neg hpos, ite_self]
      by_cases hrange : InI64 n
      · rw [if_pos hrange]
        exact if_pos (not_lt.mp hpos)
      · rw [if_neg hrange]

theorem askedStatus_eq_open :
    askedStatus r = "open" ↔ r.get "status" = "" ∨ r.get "status" = "open" := by
  unfold askedStatus
  by_cases h : r.get "status" = ""
  · simp [h]
  · simp [h]

theorem mem_openRows : p ∈ openRows s trader ↔
    (∃ id, s.positions.lookup id = some p) ∧ p.status = "open" ∧
      (trader = "" ∨ p.trader = trader) := by
  rw [openRows, List.mem_filter, mem_scan, decide_eq_true_eq]

theorem mem_traderRows : p ∈ traderRows s trader ↔
    (∃ id, s.positions.lookup id = some p) ∧ p.trader = trader := by
  rw [traderRows, List.mem_filter, mem_scan, decide_eq_true_eq]

/-- The query for open positions applies the filters by trader and status, not the limit. -/
theorem openRows_honoured_iff (hopen : askedStatus r = "open") :
    FiltersHonoured r ((db.orderBy (openRows s (r.get "trader"))).map openColumns) ↔
      ((openRows s (r.get "trader")).length : ℤ) ≤ askedLimit r := by
  have hperm := db.listing.perm (openRows s (r.get "trader"))
  have hlength : ((db.orderBy (openRows s (r.get "trader"))).map openColumns).length =
      (openRows s (r.get "trader")).length := by
    rw [List.length_map, hperm.length_eq]
  have hrow : ∀ p ∈ (db.orderBy (openRows s (r.get "trader"))).map openColumns,
      p.status = "open" ∧ (r.get "trader" = "" ∨ p.trader = r.get "trader") := by
    intro p hp
    obtain ⟨row, hrow, rfl⟩ := List.mem_map.mp hp
    exact (mem_openRows.mp (hperm.mem_iff.mp hrow)).2
  rw [← hlength]
  constructor
  · intro h
    exact h.limit
  · intro h
    exact {
      trader := fun htrader p hp => (hrow p hp).2.resolve_left htrader
      status := fun p hp => (hrow p hp).1.trans hopen.symm
      limit := h }

theorem traderRows_honoured_iff :
    FiltersHonoured r ((db.orderBy (traderRows s (r.get "trader"))).take (servedLimit r).toNat) ↔
      ∀ p ∈ (db.orderBy (traderRows s (r.get "trader"))).take (servedLimit r).toNat,
        p.status = askedStatus r := by
  have hperm := db.listing.perm (traderRows s (r.get "trader"))
  constructor
  · intro h
    exact h.status
  · intro h
    refine ⟨?_, h, ?_⟩
    · intro _ p hp
      exact (mem_traderRows.mp (hperm.mem_iff.mp (List.mem_of_mem_take hp))).2
    · have hlength := List.length_take_le (servedLimit r).toNat
        (db.orderBy (traderRows s (r.get "trader")))
      have hpos := servedLimit_pos (r := r)
      have hle := servedLimit_le (r := r)
      omega

theorem getPositions_open (hopen : askedStatus r = "open") :
    getPositions db s r = writePositions (db.getOpenPositions s (r.get "trader")) :=
  if_pos (askedStatus_eq_open.mp hopen)

theorem getPositions_trader (hopen : askedStatus r ≠ "open") (htrader : r.get "trader" ≠ "") :
    getPositions db s r =
      writePositions (db.getPositionsByTrader s (r.get "trader") (servedLimit r)) := by
  rw [← queryInt_limit]
  exact (if_neg (mt askedStatus_eq_open.mpr hopen)).trans (if_pos htrader)

theorem getPositions_refused (hopen : askedStatus r ≠ "open") (htrader : r.get "trader" = "") :
    getPositions db s r =
      .error 400 "provide trader query param for non-open status queries" :=
  (if_neg (mt askedStatus_eq_open.mpr hopen)).trans (if_neg (not_not_intro htrader))

theorem getPositions_error_iff : (∃ status msg, getPositions db s r = .error status msg) ↔
    db.available = false ∨ askedStatus r ≠ "open" ∧ r.get "trader" = "" := by
  have hwrite : ∀ ps : List Position, (∃ status msg,
      writePositions (if db.available then some ps else none) = .error status msg) ↔
        db.available = false := by
    intro ps
    cases db.available with
    | false => simp [writePositions]
    | true => simp [writePositions]
  by_cases hopen : askedStatus r = "open"
  · simp only [getPositions_open hopen, Database.getOpenPositions, hwrite, ne_eq, hopen,
      not_true_eq_false, false_and, or_false]
  · by_cases htrader : r.get "trader" = ""
    · simp [getPositions_refused hopen htrader, hopen, htrader]
    · simp only [getPositions_trader hopen htrader, Database.getPositionsByTrader, hwrite, htrader,
        and_false, or_false]

theorem honours_writePositions {available : Bool} {ps : List Position} :
    Honours r (writePositions (if available then some ps else none)) ↔
      (available = true → FiltersHonoured r ps) := by
  cases available with
  | false => simp [writePositions, Honours]
  | true => simp [writePositions, Honours]

theorem honours_open_iff (hopen : askedStatus r = "open") : Honours r (getPositions db s r) ↔
    (db.available = true → ((openRows s (r.get "trader")).length : ℤ) ≤ askedLimit r) := by
  rw [getPositions_open hopen, Database.getOpenPositions, honours_writePositions,
    openRows_honoured_iff hopen]

theorem honours_trader_iff (hopen : askedStatus r ≠ "open") (htrader : r.get "trader" ≠ "") :
    Honours r (getPositions db s r) ↔ (db.available = true →
      ∀ p ∈ (db.orderBy (traderRows s (r.get "trader"))).take (servedLimit r).toNat,
        p.status = askedStatus r) := by
  have hlimit : ¬ servedLimit r ≤ 0 := not_le.mpr servedLimit_pos
  simp only [getPositions_trader hopen htrader, Database.getPositionsByTrader, if_neg hlimit]
  rw [honours_writePositions, traderRows_honoured_iff]

/-- The answers honour the filters, however the database orders rows of one time, exactly under
this condition on the store and the request. -/
theorem getPositions_honours_iff (s : Store) (r : Query) :
    (∀ db : Database, Honours r (getPositions db s r)) ↔ HonouredWhen s r := by
  by_cases hopen : askedStatus r = "open"
  · simp only [HonouredWhen, if_pos hopen, honours_open_iff hopen]
    constructor
    · intro h
      exact h stableDatabase rfl
    · intro h _ _
      exact h
  · rw [HonouredWhen, if_neg hopen]
    by_cases htrader : r.get "trader" = ""
    · constructor
      · intro _ hgiven
        exact absurd htrader hgiven
      · intro _ db
        rw [getPositions_refused hopen htrader]
        trivial
    · simp only [honours_trader_iff hopen htrader]
      constructor
      · intro h _ p hp hrank
        obtain ⟨orderBy, hlisting, hmem⟩ := mem_take_listing_iff.mpr ⟨hp, Int.lt_toNat.mpr hrank⟩
        exact h ⟨orderBy, hlisting, true⟩ rfl p hmem
      · intro h db _ p hp
        obtain ⟨hrow, hrank⟩ := mem_take_listing_iff.mp ⟨db.orderBy, db.listing, hp⟩
        exact h htrader p hrow (Int.lt_toNat.mp hrank)

end Filters

section Failing

def longOfGABC : Position :=
  { id := 1, trader := "GABC", asset := 0, direction := "long", size := 1000, collateral := 100,
    entryPrice := 150, leverage := 10, openedAt := 1000, status := "open" }

def shortOfGDEF : Position :=
  { id := 2, trader := "GDEF", asset := 0, direction := "short", size := 500, collateral := 50,
    entryPrice := 150, leverage := 10, openedAt := 1001, status := "open" }

def oneOpen : Store := upsertPosition {} longOfGABC

def twoOpen : Store := upsertPosition oneOpen shortOfGDEF

theorem two_le_openRows : 2 ≤ (openRows twoOpen "").length := by
  have hlong : twoOpen.positions.lookup 1 = some longOfGABC := by decide +kernel
  have hshort : twoOpen.positions.lookup 2 = some shortOfGDEF := by decide +kernel
  have hsub : [longOfGABC, shortOfGDEF] ⊆ openRows twoOpen "" := by
    intro p hp
    rcases List.mem_pair.mp hp with rfl | rfl
    · exact mem_openRows.mpr ⟨⟨1, hlong⟩, rfl, Or.inl rfl⟩
    · exact mem_openRows.mpr ⟨⟨2, hshort⟩, rfl, Or.inl rfl⟩
  have hnodup : [longOfGABC, shortOfGDEF].Nodup := by decide
  exact (hnodup.subperm hsub).length_le

/-- A limit of one is answered with both open positions, and a trader's closed positions with an
open one. -/
theorem filters_not_honoured :
    ¬ Honours [("limit", "1")] (getPositions stableDatabase twoOpen [("limit", "1")]) ∧
      ¬ Honours [("trader", "GABC"), ("status", "closed")]
        (getPositions stableDatabase oneOpen [("trader", "GABC"), ("status", "closed")]) := by
  constructor
  · intro h
    have hlimit : ((openRows twoOpen "").length : ℤ) ≤ askedLimit [("limit", "1")] :=
      (honours_open_iff rfl).mp h rfl
    have hasked : askedLimit [("limit", "1")] = 1 := by decide +kernel
    have hrows := two_le_openRows
    omega
  · have hopen : getPositions stableDatabase oneOpen [("trader", "GABC"), ("status", "closed")] =
        .positions [longOfGABC] := by decide +kernel
    rw [hopen]
    intro h
    exact absurd (h.status longOfGABC List.mem_cons_self) (by decide)

end Failing

end KeeperApi
