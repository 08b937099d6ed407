import SoroPerps.PerpsPositionManager

/-! # The accounts as the events tell them

What a reader who knows nothing but the published events can keep: the pool's totals, every share
balance, every open position, the open interest, the funding indices and every wallet. -/
namespace PerpsEventAccounts

open SorobanHost PerpsTypes PerpsPositionManager

/-- What the opening of a position announces about it. -/
structure Announced where
  direction : Direction
  size : ℤ
  collateral : ℤ
  entryPrice : ℤ
  leverage : ℕ
  deriving DecidableEq, Repr

def announce (p : Position) : Announced :=
  ⟨p.direction, p.size, p.collateral, p.entryPrice, p.leverage⟩

/-- The profit at a price, for a reader of the opening event. -/
def Announced.pnlAt (p : Announced) (price : ℤ) : ℤ :=
  max (-p.collateral) ((p.size * favourableMove p.direction p.entryPrice price).tdiv p.entryPrice)

theorem pnlAt_announce (p : Position) (price : ℤ) :
    (announce p).pnlAt price = pricePnl p price := by
  by_cases hcap : rawPnl p price < -p.collateral
  · rw [pricePnl, if_pos hcap]
    exact max_eq_left hcap.le
  · rw [pricePnl, if_neg hcap]
    exact max_eq_right (not_lt.mp hcap)

@[ext] structure Accounts where
  deposits : ℤ := 0
  shares : ℤ := 0
  locked : ℤ := 0
  balance : Address → ℤ := fun _ => 0
  interest : Direction → ℤ := fun _ => 0
  nextId : ℕ := 1
  position : PositionKey → Option Announced := fun _ => none
  count : Address → ℕ := fun _ => 0
  cumulative : Direction → ℤ := fun _ => 0
  lastFunding : ℕ

/-- Takes a position off the accounts. Neither a close nor a liquidation announces the size it
frees: the reader has it from the opening. -/
def Accounts.remove (r : Accounts) (trader : Address) (id : ℕ) : Accounts :=
  match r.position (trader, id) with
  | none => r
  | some p =>
    { r with
      locked := r.locked - p.size
      interest := Function.update r.interest p.direction (r.interest p.direction - p.size)
      position := Function.update r.position (trader, id) none
      count := Function.update r.count trader (r.count trader - 1) }

def record (r : Accounts) : Event → Accounts
  | .deposit depositor amount minted =>
    { r with
      deposits := r.deposits + amount
      shares := r.shares + minted
      balance := Function.update r.balance depositor (r.balance depositor + minted) }
  | .withdraw depositor burned amount =>
    { r with
      deposits := r.deposits - amount
      shares := r.shares - burned
      balance := Function.update r.balance depositor (r.balance depositor - burned) }
  | .liquidityLocked amount => { r with locked := r.locked + amount }
  | .liquidityUnlocked amount => { r with locked := r.locked - amount }
  | .pnlSettled _ pnl => { r with deposits := r.deposits - pnl }
  | .feeCollected amount => { r with deposits := r.deposits + amount }
  | .priceFetched .. => r
  | .positionOpened trader id direction size collateral entryPrice leverage _ =>
    { r with
      interest := Function.update r.interest direction (r.interest direction + size)
      nextId := id + 1
      position := Function.update r.position (trader, id)
        (some ⟨direction, size, collateral, entryPrice, leverage⟩)
      count := Function.update r.count trader (r.count trader + 1) }
  | .positionClosed trader id _ _ _ => r.remove trader id
  | .liquidation trader id _ _ _ _ _ => r.remove trader id
  | .fundingApplied _ _ cumulativeLong cumulativeShort _ _ timestamp =>
    { r with
      cumulative
        | .Long => cumulativeLong
        | .Short => cumulativeShort
      lastFunding := timestamp }

def replay (r : Accounts) (es : List Event) : Accounts := es.foldl record r

/-- The USDC an event moves into an account, out of it where negative. -/
def Accounts.paid (r : Accounts) (account : Address) : Event → ℤ
  | .deposit depositor amount _ => if account = depositor then -amount else 0
  | .withdraw depositor _ amount => if account = depositor then amount else 0
  | .positionOpened trader _ _ _ collateral _ _ fee =>
    if account = trader then -(collateral + fee) else 0
  | .positionClosed trader id _ realizedPnl _ =>
    match r.position (trader, id) with
    | some p => if account = trader then max 0 (p.collateral + realizedPnl) else 0
    | none => 0
  | .liquidation trader id _ markPrice _ _ _ =>
    match r.position (trader, id) with
    | some p => if account = trader then p.collateral + p.pnlAt markPrice else 0
    | none => 0
  | _ => 0

/-- What a log moves into an account in all. -/
def flow (account : Address) : Accounts → List Event → ℤ
  | _, [] => 0
  | r, e :: es => r.paid account e + flow account (record r e) es

def opening (trader : Address) (id : ℕ) (p : Announced) (fee : ℤ) : Event :=
  .positionOpened trader id p.direction p.size p.collateral p.entryPrice p.leverage fee

/-- What one transaction may announce. -/
inductive Told (r : Accounts) : List Event → Prop where
  | nothing : Told r []
  | deposited {depositor : Address} {amount minted : ℤ} (ha : 0 < amount) (hm : 0 < minted) :
      Told r [.deposit depositor amount minted]
  | withdrawn {depositor : Address} {burned amount : ℤ} (hb : 0 < burned) (ha : 0 < amount)
      (hle : burned ≤ r.balance depositor) : Told r [.withdraw depositor burned amount]
  | priced {asset timestamp : ℕ} {price : ℤ} : Told r [.priceFetched asset price timestamp]
  | opened {trader : Address} {p : Announced} {fee : ℤ} (hsize : p.size = p.collateral * p.leverage)
      (hpos : 0 < p.size) (hfee : 0 < fee) :
      Told r [.liquidityLocked p.size, .feeCollected fee, opening trader r.nextId p fee]
  | closed {trader : Address} {id : ℕ} {p : Announced} {price fee : ℤ}
      (hp : r.position (trader, id) = some p) (hfee : 0 ≤ fee) :
      Told r [.pnlSettled trader (p.pnlAt price), .feeCollected fee,
        .positionClosed trader id price (p.pnlAt price - fee) fee]
  | liquidated {trader keeper : Address} {id : ℕ} {p : Announced} {price ratio penalty reward : ℤ}
      (hp : r.position (trader, id) = some p) :
      Told r [.pnlSettled trader (p.pnlAt price), .feeCollected 0,
        .liquidation trader id keeper price ratio penalty reward]
  | funded {longRate shortRate cumulativeLong cumulativeShort : ℤ} {timestamp : ℕ}
      (hlong : cumulativeLong = r.cumulative .Long + longRate)
      (hshort : cumulativeShort = r.cumulative .Short + shortRate) :
      Told r [.fundingApplied longRate shortRate cumulativeLong cumulativeShort
        (r.interest .Long) (r.interest .Short) timestamp]

section Folding

variable {r : Accounts} {account trader keeper : Address} {id : ℕ} {p : Announced}
  {price pnl net fee fee' ratio penalty reward : ℤ} {es fs : List Event}

theorem replay_append : replay r (es ++ fs) = replay (replay r es) fs := List.foldl_append

theorem flow_append : flow account r (es ++ fs) = flow account r es +
    flow account (replay r es) fs := by
  induction es generalizing r with
  | nil => simp [flow, replay]
  | cons e es ih =>
    simp only [List.cons_append, flow, ih, replay, List.foldl_cons]
    omega

theorem flow_opened : flow account r [.liquidityLocked p.size, .feeCollected fee,
    opening trader id p fee] = if account = trader then -(p.collateral + fee) else 0 := by
  simp [flow, Accounts.paid, opening]

theorem flow_closed (hp : r.position (trader, id) = some p) :
    flow account r [.pnlSettled trader pnl, .feeCollected fee,
      .positionClosed trader id price net fee'] =
        if account = trader then max 0 (p.collateral + net) else 0 := by
  simp [flow, Accounts.paid, record, hp]

theorem flow_liquidated (hp : r.position (trader, id) = some p) :
    flow account r [.pnlSettled trader pnl, .feeCollected fee,
      .liquidation trader id keeper price ratio penalty reward] =
        if account = trader then p.collateral + p.pnlAt price else 0 := by
  simp [flow, Accounts.paid, record, hp]

end Folding

section Lifecycle

def About (id : ℕ) : Event → Bool
  | .positionOpened _ id' .. => id' = id
  | .positionClosed _ id' .. => id' = id
  | .liquidation _ id' .. => id' = id
  | _ => false

def history (id : ℕ) (log : List Event) : List Event := log.filter (About id)

def Ends (trader : Address) (id : ℕ) : Event → Prop
  | .positionClosed trader' id' .. => trader' = trader ∧ id' = id
  | .liquidation trader' id' .. => trader' = trader ∧ id' = id
  | _ => False

def openedIds (log : List Event) : List ℕ :=
  log.filterMap fun
    | .positionOpened _ id .. => some id
    | _ => none

/-- Ids are given out one by one. A log tells of a held position its opening and nothing more,
of an ended one its opening and then its end. -/
structure Lifecycle (r : Accounts) (log : List Event) : Prop where
  first : 0 < r.nextId
  numbered : openedIds log = List.range' 1 (r.nextId - 1)
  unborn : ∀ id, id = 0 ∨ r.nextId ≤ id → history id log = []
  held : ∀ trader id p, r.position (trader, id) = some p →
    ∃ fee, history id log = [opening trader id p fee]
  ended : ∀ id, 0 < id → id < r.nextId → (∀ trader, r.position (trader, id) = none) →
    ∃ trader p fee e, Ends trader id e ∧ history id log = [opening trader id p fee, e]

variable {r r' : Accounts} {log new : List Event} {trader : Address} {id : ℕ} {p : Announced}

theorem history_append {id : ℕ} : history id (log ++ new) = history id log ++ history id new :=
  List.filter_append ..

theorem lifecycle_fresh {lastFunding : ℕ} : Lifecycle { lastFunding := lastFunding } [] := by
  constructor
  · exact Nat.one_pos
  · rfl
  · intros
    rfl
  · intro trader id p hp
    cases hp
  · intro id hpos hlt
    simp only at hlt
    omega

theorem Lifecycle.held_old (h : Lifecycle r log) (hp : r.position (trader, id) = some p) :
    0 < id ∧ id < r.nextId := by
  obtain ⟨fee, hhist⟩ := h.held _ _ _ hp
  by_contra hout
  have hnone := h.unborn id (by omega)
  rw [hhist] at hnone
  cases hnone

theorem Lifecycle.held_once (h : Lifecycle r log) (hp : r.position (trader, id) = some p)
    {other : Address} (hne : other ≠ trader) : r.position (other, id) = none := by
  cases hq : r.position (other, id) with
  | none => rfl
  | some q =>
    obtain ⟨fee, hfirst⟩ := h.held _ _ _ hp
    obtain ⟨fee', hsecond⟩ := h.held _ _ _ hq
    rw [hfirst] at hsecond
    simp only [opening, List.cons.injEq, Event.positionOpened.injEq] at hsecond
    exact absurd hsecond.1.1.symm hne

theorem Lifecycle.elsewhere (h : Lifecycle r log) (hnext : r'.nextId = r.nextId)
    (hpos : r'.position = r.position) (hids : openedIds new = [])
    (hnew : ∀ id, history id new = []) : Lifecycle r' (log ++ new) := by
  constructor
  · rw [hnext]
    exact h.first
  · rw [openedIds, List.filterMap_append, hnext, ← openedIds, ← openedIds, h.numbered, hids,
      List.append_nil]
  · intro id hid
    rw [history_append, hnew, List.append_nil]
    exact h.unborn id (hnext ▸ hid)
  · intro trader id p hp
    rw [history_append, hnew, List.append_nil]
    exact h.held trader id p (hpos ▸ hp)
  · intro id hid hlt hnone
    rw [history_append, hnew, List.append_nil]
    exact h.ended id hid (hnext ▸ hlt) (hpos ▸ hnone)

theorem Lifecycle.opened (h : Lifecycle r log) {fee : ℤ} (hnext : r'.nextId = r.nextId + 1)
    (hpos : r'.position = Function.update r.position (trader, r.nextId) (some p))
    (hids : openedIds new = [r.nextId])
    (hnew : ∀ id, history id new =
      if id = r.nextId then [opening trader r.nextId p fee] else []) :
    Lifecycle r' (log ++ new) := by
  have hfirst := h.first
  have hfresh := h.unborn r.nextId (.inr le_rfl)
  constructor
  · omega
  · have hrange : List.range' 1 (r'.nextId - 1) = List.range' 1 (r.nextId - 1) ++ [r.nextId] := by
      rw [hnext, Nat.add_sub_cancel, ← Nat.sub_add_cancel hfirst, Nat.add_sub_cancel,
        List.range'_concat]
      congr 2
      omega
    rw [openedIds, List.filterMap_append, ← openedIds, ← openedIds, h.numbered, hids, hrange]
  · intro id hid
    rw [history_append, hnew, if_neg (by omega), List.append_nil]
    exact h.unborn id (by omega)
  · intro account id q hq
    rw [hpos] at hq
    by_cases hkey : (account, id) = (trader, r.nextId)
    · cases hkey
      rw [Function.update_self] at hq
      cases hq
      exact ⟨fee, by rw [history_append, hnew, if_pos rfl, hfresh, List.nil_append]⟩
    · rw [Function.update_of_ne hkey] at hq
      have hold := h.held_old hq
      rw [history_append, hnew, if_neg (by omega), List.append_nil]
      exact h.held account id q hq
  · intro id hid hlt hnone
    have hne : id ≠ r.nextId := by
      rintro rfl
      have hthere := hnone trader
      rw [hpos, Function.update_self] at hthere
      cases hthere
    rw [history_append, hnew, if_neg hne, List.append_nil]
    refine h.ended id hid (by omega) ?_
    intro account
    have hthere := hnone account
    rwa [hpos, Function.update_of_ne (by simp [hne])] at hthere

theorem Lifecycle.removed (h : Lifecycle r log) {e : Event} (he : Ends trader id e)
    (hp : r.position (trader, id) = some p) (hnext : r'.nextId = r.nextId)
    (hpos : r'.position = Function.update r.position (trader, id) none)
    (hids : openedIds new = [])
    (hnew : ∀ id', history id' new = if id' = id then [e] else []) :
    Lifecycle r' (log ++ new) := by
  have hold := h.held_old hp
  constructor
  · rw [hnext]
    exact h.first
  · rw [openedIds, List.filterMap_append, hnext, ← openedIds, ← openedIds, h.numbered, hids,
      List.append_nil]
  · intro id' hid'
    rw [history_append, hnew, if_neg (by omega), List.append_nil]
    exact h.unborn id' (hnext ▸ hid')
  · intro account id' q hq
    rw [hpos] at hq
    by_cases hkey : (account, id') = (trader, id)
    · rw [hkey, Function.update_self] at hq
      cases hq
    · rw [Function.update_of_ne hkey] at hq
      have hne : id' ≠ id := by
        rintro rfl
        have hother : account ≠ trader := fun hsame => hkey (by rw [hsame])
        rw [h.held_once hp hother] at hq
        cases hq
      rw [history_append, hnew, if_neg hne, List.append_nil]
      exact h.held account id' q hq
  · intro id' hid' hlt hnone
    by_cases hsame : id' = id
    · subst hsame
      obtain ⟨fee, hhist⟩ := h.held _ _ _ hp
      refine ⟨trader, p, fee, e, he, ?_⟩
      rw [history_append, hnew, if_pos rfl, hhist, List.singleton_append]
    · rw [history_append, hnew, if_neg hsame, List.append_nil]
      refine h.ended id' hid' (hnext ▸ hlt) ?_
      intro account
      have hthere := hnone account
      rwa [hpos, Function.update_of_ne (by simp [hsame])] at hthere

end Lifecycle

section Transactions

variable {r : Accounts} {log new : List Event} {trader account : Address} {id : ℕ} {p : Announced}

theorem remove_eq (hp : r.position (trader, id) = some p) : r.remove trader id = { r with
    locked := r.locked - p.size
    interest := Function.update r.interest p.direction (r.interest p.direction - p.size)
    position := Function.update r.position (trader, id) none
    count := Function.update r.count trader (r.count trader - 1) } := by
  simp only [Accounts.remove, hp]

theorem remove_position (hp : r.position (trader, id) = some p) :
    (r.remove trader id).position = Function.update r.position (trader, id) none := by
  rw [remove_eq hp]

theorem remove_nextId : (r.remove trader id).nextId = r.nextId := by
  unfold Accounts.remove
  split <;> rfl

theorem told_lifecycle (ht : Told r new) (h : Lifecycle r log) :
    Lifecycle (replay r new) (log ++ new) := by
  cases ht with
  | nothing => exact h.elsewhere rfl rfl rfl fun _ => rfl
  | deposited => exact h.elsewhere rfl rfl rfl fun _ => rfl
  | withdrawn => exact h.elsewhere rfl rfl rfl fun _ => rfl
  | priced => exact h.elsewhere rfl rfl rfl fun _ => rfl
  | funded => exact h.elsewhere rfl rfl rfl fun _ => rfl
  | @opened trader p fee hsize hpos hfee =>
    have hnew : ∀ id, history id [.liquidityLocked p.size, .feeCollected fee,
        opening trader r.nextId p fee] =
          if id = r.nextId then [opening trader r.nextId p fee] else [] := by
      intro id
      by_cases hid : id = r.nextId
      · subst hid
        simp [history, About, opening]
      · simp [history, About, opening, hid, Ne.symm hid]
    exact h.opened rfl rfl rfl hnew
  | @closed trader id p price fee hp hfee =>
    refine h.removed (e := .positionClosed trader id price (p.pnlAt price - fee) fee) ⟨rfl, rfl⟩
      hp remove_nextId (remove_position hp) rfl ?_
    intro id'
    by_cases hid : id' = id
    · subst hid
      simp [history, About]
    · simp [history, About, hid, Ne.symm hid]
  | @liquidated trader keeper id p price ratio penalty reward hp =>
    refine h.removed (e := .liquidation trader id keeper price ratio penalty reward) ⟨rfl, rfl⟩
      hp remove_nextId (remove_position hp) rfl ?_
    intro id'
    by_cases hid : id' = id
    · subst hid
      simp [history, About]
    · simp [history, About, hid, Ne.symm hid]

end Transactions

end PerpsEventAccounts
