import SoroPerps.KeeperApi

/-! # The other endpoints of the keeper's API

The lists of trades, of funding updates and of liquidations are cut to a limit after the newest
row. A single position is asked for by its id in decimal, and the two endpoints of statistics add
up columns. -/
namespace KeeperEndpoints

open FinmapSums KeeperStore KeeperApi RankedRows

section Numerals

/-- Digits of base ten only, and a value that fits the bits. -/
def parseUint (bits : ℕ) (text : String) : Option ℕ :=
  (digitsValue text.toList).filter fun n => n < 2 ^ bits

/-- The decimal numeral of a number, after any number of zeros. -/
def Names (text : String) (n : ℕ) : Prop :=
  ∃ zeros, text.toList = List.replicate zeros '0' ++ Nat.toDigits 10 n

variable {digits : List Char} {text : String} {bits n zeros : ℕ} {c : Char}

theorem foldlM_digits {start : ℕ} :
    digits.foldlM (fun n c => if c.isDigit then some (10 * n + (c.toNat - 48)) else none) start =
      if digits.all Char.isDigit then some (Nat.ofDigitChars 10 digits start) else none := by
  have hzero : '0'.toNat = 48 := rfl
  induction digits generalizing start with
  | nil => simp
  | cons c digits ih =>
    rw [List.foldlM_cons, Nat.ofDigitChars_cons, hzero]
    by_cases hc : c.isDigit
    · rw [if_pos hc, Option.bind_eq_bind, Option.bind_some, ih]
      simp only [List.all_cons, hc, Bool.true_and]
    · simp [hc]

theorem digitsValue_iff : digitsValue digits = some n ↔
    digits ≠ [] ∧ (∀ c ∈ digits, c.isDigit) ∧ Nat.ofDigitChars 10 digits 0 = n := by
  cases digits with
  | nil => simp [digitsValue]
  | cons c digits =>
    simp only [digitsValue, foldlM_digits, List.all_eq_true, ne_eq, reduceCtorEq,
      not_false_eq_true, true_and, Option.ite_none_right_eq_some, Option.some.injEq]

theorem toDigits_of_isDigit (h : c.isDigit) : Nat.toDigits 10 (c.toNat - 48) = [c] := by
  obtain ⟨hlow, hhigh⟩ := Char.isDigit_iff_toNat.mp h
  have hten : c.toNat - 48 < 10 := by
    have hnine : '9'.toNat = 57 := rfl
    omega
  have hzero : '0'.toNat = 48 := rfl
  rw [Nat.toDigits_of_lt_base hten]
  congr 1
  apply Char.toNat_inj.mp
  rw [Nat.toNat_digitChar_of_lt_ten hten]
  omega

theorem ofDigitChars_zeros :
    Nat.ofDigitChars 10 (List.replicate zeros '0' ++ Nat.toDigits 10 n) 0 = n := by
  rw [Nat.ofDigitChars_append, Nat.ofDigitChars_replicate_zero, Nat.mul_zero,
    Nat.ofDigitChars_ten_toDigits]

theorem numeral_of_digits (hne : digits ≠ []) (h : ∀ c ∈ digits, c.isDigit) :
    ∃ zeros, digits = List.replicate zeros '0' ++
      Nat.toDigits 10 (Nat.ofDigitChars 10 digits 0) := by
  induction digits using List.reverseRecOn with
  | nil => exact absurd rfl hne
  | append_singleton digits c ih =>
    have hc : c.isDigit := h c (by simp)
    have hdigit := toDigits_of_isDigit hc
    have hten : c.toNat - 48 < 10 := by
      have hhigh := (Char.isDigit_iff_toNat.mp hc).2
      have hnine : '9'.toNat = 57 := rfl
      omega
    have hvalue : Nat.ofDigitChars 10 (digits ++ [c]) 0 =
        10 * Nat.ofDigitChars 10 digits 0 + (c.toNat - 48) := by
      have hzero : '0'.toNat = 48 := rfl
      rw [Nat.ofDigitChars_append, Nat.ofDigitChars_cons, Nat.ofDigitChars_nil, hzero]
    rw [hvalue]
    by_cases hdigits : digits = []
    · refine ⟨0, ?_⟩
      subst hdigits
      simpa using hdigit.symm
    · obtain ⟨zeros, hzeros⟩ := ih hdigits fun d hd => h d (by simp [hd])
      rcases Nat.eq_zero_or_pos (Nat.ofDigitChars 10 digits 0) with hnone | hpos
      · -- the digits before were zeros only
        rw [hnone, Nat.toDigits_zero] at hzeros
        refine ⟨zeros + 1, ?_⟩
        rw [hnone, Nat.mul_zero, Nat.zero_add, hdigit, hzeros, List.replicate_succ']
      · refine ⟨zeros, ?_⟩
        rw [← Nat.toDigits_append_toDigits (by decide) hpos hten, hdigit, ← List.append_assoc,
          ← hzeros]

theorem digitsValue_eq_some_iff : digitsValue text.toList = some n ↔ Names text n := by
  rw [digitsValue_iff]
  constructor
  · rintro ⟨hne, hdigits, rfl⟩
    exact numeral_of_digits hne hdigits
  · rintro ⟨zeros, htext⟩
    rw [htext]
    refine ⟨?_, ?_, ofDigitChars_zeros⟩
    · intro hnil
      exact Nat.toDigits_ne_nil (List.append_eq_nil_iff.mp hnil).2
    · intro c hc
      rcases List.mem_append.mp hc with hc | hc
      · rw [List.eq_of_mem_replicate hc]
        rfl
      · exact Nat.isDigit_of_mem_toDigits (by decide) le_rfl hc

theorem parseUint_iff : parseUint bits text = some n ↔ Names text n ∧ n < 2 ^ bits := by
  rw [parseUint, Option.filter_eq_some_iff, digitsValue_eq_some_iff, decide_eq_true_eq]

theorem parseUint_none_iff :
    parseUint bits text = none ↔ ∀ n, Names text n → 2 ^ bits ≤ n := by
  rw [Option.eq_none_iff_forall_ne_some]
  constructor
  · intro h n hn
    by_contra hlt
    exact h n (parseUint_iff.mpr ⟨hn, not_le.mp hlt⟩)
  · intro h n hn
    obtain ⟨hname, hlt⟩ := parseUint_iff.mp hn
    exact absurd (h n hname) (not_le.mpr hlt)

theorem names_repr (n : ℕ) : Names n.repr n := ⟨0, Nat.toList_repr⟩

theorem Names.unique {m : ℕ} (hn : Names text n) (hm : Names text m) : n = m :=
  Option.some.inj ((digitsValue_eq_some_iff.mpr hn).symm.trans (digitsValue_eq_some_iff.mpr hm))

end Numerals

section Handlers

inductive Answer (α : Type) where
  | ok (body : α)
  | error (status : ℕ) (msg : String)
  deriving DecidableEq, Repr

/-- What the queries leave to the database and to the clock of the machine. -/
structure Backend where
  trades : List Trade → List Trade
  fundingUpdates : List FundingUpdate → List FundingUpdate
  liquidations : List LiquidationEvent → List LiquidationEvent
  listsTrades : Listing Trade.timestamp trades
  listsFunding : Listing FundingUpdate.timestamp fundingUpdates
  listsLiquidations : Listing LiquidationEvent.timestamp liquidations
  available : Bool := true
  now : ℤ := 0

/-- `SELECT … ORDER BY timestamp DESC LIMIT ?` -/
def recent {α : Type} (available : Bool) (orderBy : List α → List α) (rows : List α) (limit : ℤ) :
    Option (List α) :=
  let limit := if limit ≤ 0 then 50 else limit
  if available then some ((orderBy rows).take limit.toNat) else none

variable (b : Backend) (s : Store)

def Backend.getRecentTrades (limit : ℤ) : Option (List Trade) :=
  recent b.available b.trades s.trades limit

def Backend.getTradesByTrader (trader : String) (limit : ℤ) : Option (List Trade) :=
  recent b.available b.trades (s.trades.filter fun t => t.trader = trader) limit

def Backend.getFundingHistory (limit : ℤ) : Option (List FundingUpdate) :=
  recent b.available b.fundingUpdates s.fundingUpdates limit

def Backend.getRecentLiquidations (limit : ℤ) : Option (List LiquidationEvent) :=
  recent b.available b.liquidations s.liquidations limit

/-- A number with the highest of its 64 bits set is no parameter the driver takes. -/
def Backend.getPosition (id : ℕ) : Option (Option Position) :=
  if b.available ∧ id < 2 ^ 63 then some (s.positions.lookup id) else none

def Backend.getOpenPositionCount : Option ℕ :=
  if b.available then some ((scan s.positions).filter fun p => p.status = "open").length else none

/-- The summed sizes and the number of the trades after the cutoff. -/
def Backend.getVolume24h : Option (ℤ × ℕ) :=
  let cutoff := b.now - 86400
  let rows := s.trades.filter fun t => cutoff < t.timestamp
  if b.available then (sumInt64 (rows.map Trade.size)).map fun volume => (volume, rows.length)
  else none

def Backend.getOpenInterest (asset : ℕ) : Option (ℤ × ℤ) :=
  if b.available then KeeperStore.getOpenInterest s asset else none

def writeFetched {α : Type} (msg : String) : Option α → Answer α
  | none => .error 500 msg
  | some body => .ok body

def getTrades (r : Query) : Answer (List Trade) :=
  let trader := r.get "trader"
  let limit := queryInt r "limit" 50
  if trader ≠ "" then writeFetched "failed to fetch trades" (b.getTradesByTrader s trader limit)
  else writeFetched "failed to fetch trades" (b.getRecentTrades s limit)

def getFundingHistory (r : Query) : Answer (List FundingUpdate) :=
  writeFetched "failed to fetch funding history" (b.getFundingHistory s (queryInt r "limit" 50))

def getLiquidations (r : Query) : Answer (List LiquidationEvent) :=
  writeFetched "failed to fetch liquidations" (b.getRecentLiquidations s (queryInt r "limit" 50))

def getPosition (idStr : String) : Answer Position :=
  match parseUint 64 idStr with
  | none => .error 400 "invalid position id"
  | some id =>
    match b.getPosition s id with
    | none => .error 500 "failed to fetch position"
    | some none => .error 404 "position not found"
    | some (some pos) => .ok pos

structure Stats where
  openPositions : ℕ
  volume24h : ℤ
  trades24h : ℕ
  deriving DecidableEq, Repr

def getStats : Answer Stats :=
  match b.getOpenPositionCount s, b.getVolume24h s with
  | some openCount, some (volume, trades24h) => .ok ⟨openCount, volume, trades24h⟩
  | _, _ => .error 500 "failed to fetch stats"

structure MarketStats where
  asset : ℕ
  oiLong : ℤ
  oiShort : ℤ
  deriving DecidableEq, Repr

def getMarketStats (assetStr : String) : Answer MarketStats :=
  match parseUint 32 assetStr with
  | none => .error 400 "invalid asset id"
  | some asset =>
    match b.getOpenInterest s asset with
    | none => .error 500 "failed to fetch market stats"
    | some (long, short) => .ok ⟨asset, long, short⟩

/-- Lists rows of equal times as the table has them. -/
def stableBackend (now : ℤ) : Backend where
  trades := stableListing Trade.timestamp
  fundingUpdates := stableListing FundingUpdate.timestamp
  liquidations := stableListing LiquidationEvent.timestamp
  listsTrades := listing_stableListing Trade.timestamp
  listsFunding := listing_stableListing FundingUpdate.timestamp
  listsLiquidations := listing_stableListing LiquidationEvent.timestamp
  now := now

end Handlers

section Lists

variable {b : Backend} {s : Store} {r : Query} {α : Type} {msg : String}

def askedTrades (s : Store) (r : Query) : List Trade :=
  s.trades.filter fun t => r.get "trader" = "" ∨ t.trader = r.get "trader"

theorem writeFetched_ok {body : α} {o : Option α} :
    writeFetched msg o = .ok body ↔ o = some body := by
  cases o with
  | none => simp [writeFetched]
  | some x => simp [writeFetched]

theorem recent_served {available : Bool} {orderBy : List α → List α} {rows : List α} :
    recent available orderBy rows (servedLimit r) =
      if available then some ((orderBy rows).take (servedLimit r).toNat) else none := by
  have hlimit : ¬ servedLimit r ≤ 0 := not_le.mpr servedLimit_pos
  simp only [recent, if_neg hlimit]

theorem getTrades_eq : getTrades b s r = writeFetched "failed to fetch trades"
    (recent b.available b.trades (askedTrades s r) (servedLimit r)) := by
  unfold getTrades
  rw [queryInt_limit]
  by_cases htrader : r.get "trader" = ""
  · have hall : askedTrades s r = s.trades := by
      rw [askedTrades, List.filter_eq_self]
      intro t _
      exact decide_eq_true (Or.inl htrader)
    rw [hall]
    exact if_neg (not_not_intro htrader)
  · have hown : askedTrades s r = s.trades.filter fun t => t.trader = r.get "trader" := by
      simp only [askedTrades, htrader, false_or]
    rw [hown]
    exact if_pos htrader

theorem served_iff {key : α → ℤ} {rows served : List α} :
    (∃ orderBy, Listing key orderBy ∧
      writeFetched msg (recent true orderBy rows (servedLimit r)) = .ok served) ↔
        Latest key rows (servedLimit r).toNat served := by
  simp only [writeFetched_ok, recent_served, if_true, Option.some.injEq, latest_iff]

theorem served_latest {available : Bool} {key : α → ℤ} {orderBy : List α → List α}
    {rows served : List α} (hlisting : Listing key orderBy)
    (h : writeFetched msg (recent available orderBy rows (servedLimit r)) = .ok served) :
    Latest key rows (servedLimit r).toNat served := by
  rw [writeFetched_ok, recent_served] at h
  cases available with
  | false => cases h
  | true => exact latest_iff.mpr ⟨orderBy, hlisting, Option.some.inj h⟩

/-- Over all databases, each list answered is the newest rows the request asks for, as many as
its limit, and each such list is answered by one. -/
theorem lists_serve_latest (s : Store) (r : Query) :
    (∀ served, (∃ b : Backend, getTrades b s r = .ok served) ↔
      Latest Trade.timestamp (askedTrades s r) (servedLimit r).toNat served) ∧
    (∀ served, (∃ b : Backend, getFundingHistory b s r = .ok served) ↔
      Latest FundingUpdate.timestamp s.fundingUpdates (servedLimit r).toNat served) ∧
    ∀ served, (∃ b : Backend, getLiquidations b s r = .ok served) ↔
      Latest LiquidationEvent.timestamp s.liquidations (servedLimit r).toNat served := by
  refine ⟨?_, ?_, ?_⟩
  · intro served
    constructor
    · rintro ⟨b, h⟩
      rw [getTrades_eq] at h
      exact served_latest b.listsTrades h
    · intro h
      obtain ⟨orderBy, hlisting, hserved⟩ := served_iff.mpr h
      refine ⟨{ stableBackend 0 with trades := orderBy, listsTrades := hlisting }, ?_⟩
      rw [getTrades_eq]
      exact hserved
  · intro served
    constructor
    · rintro ⟨b, h⟩
      rw [getFundingHistory, queryInt_limit] at h
      exact served_latest b.listsFunding h
    · intro h
      obtain ⟨orderBy, hlisting, hserved⟩ := served_iff.mpr h
      refine ⟨{ stableBackend 0 with fundingUpdates := orderBy, listsFunding := hlisting }, ?_⟩
      rw [getFundingHistory, queryInt_limit]
      exact hserved
  · intro served
    constructor
    · rintro ⟨b, h⟩
      rw [getLiquidations, queryInt_limit] at h
      exact served_latest b.listsLiquidations h
    · intro h
      obtain ⟨orderBy, hlisting, hserved⟩ := served_iff.mpr h
      refine ⟨{ stableBackend 0 with liquidations := orderBy, listsLiquidations := hlisting }, ?_⟩
      rw [getLiquidations, queryInt_limit]
      exact hserved

end Lists

end KeeperEndpoints
