import SoroPerps.KeeperIndexer
import SoroPerps.KeeperPolling
import SoroPerps.RedeliveredLog

/-! # Redelivered events

A poll starts at the ledger it reached last, so events of that ledger are handed out again. Each
is applied through its handler, which may stop after any of its writes. -/
namespace KeeperRedelivery

open KeeperStore KeeperIndexer KeeperPolling PagedReading RedeliveredLog ActionRuns MergeTable

abbrev ChainEvent := EventInfo DecodedEvent

/-- The position whose row a handler writes first. -/
def positionOf : DecodedEvent → Option ℕ
  | .positionOpened id .. => some id
  | .positionClosed id .. => some id
  | _ => none

/-- Every event but an opening is recorded in a row of its own. -/
def leavesRow : DecodedEvent → Bool
  | .positionOpened .. => false
  | _ => true

def chainBefore (d e : ChainEvent) : Prop :=
  d.ledger < e.ledger ∨ (d.ledger = e.ledger ∧ d.index < e.index)

instance (d e : ChainEvent) : Decidable (chainBefore d e) :=
  inferInstanceAs (Decidable (_ ∨ _ ∧ _))

def handling : Handling ChainEvent ℕ where
  about e := positionOf e.value
  records e := leavesRow e.value
  writes e := (handler e.value).length
  before := chainBefore

instance : DecidableRel handling.before := fun d e => inferInstanceAs (Decidable (chainBefore d e))

structure Sink where
  store : Store := {}
  attempts : Log ChainEvent := []

/-- The handler makes its first `done e` writes, all of them if there are no more. -/
def applyEvent (done : ChainEvent → ℕ) (s : Sink) (e : ChainEvent) : Sink where
  store := applyAll s.store ((handler e.value).take (done e))
  attempts := s.attempts ++ [(e, done e)]

abbrev State := Indexing DecodedEvent Sink

/-- A poll says for each event how far its handler gets. -/
abbrev Action := IndexerAction DecodedEvent (ChainEvent → ℕ)

def pollStep : State → Action → State := indexerStep applyEvent

def start : State := ⟨[], { sink := {} }⟩

def attemptsOf (s : State) : Action → Log ChainEvent
  | .poll true ⟨false, _⟩ done =>
    (page EventInfo.ledger 1000 s.indexer.cursor.lastLedger (chainEvents s.chain)).map
      fun e => (e, done e)
  | _ => []

/-- No attempt of the poll does harm after those made before it, and the poll leaves no position
with a last write that is out of date. -/
def HarmlessPoll (s : State) (a : Action) : Prop :=
  Along extend handling.Harmless s.indexer.sink.attempts (attemptsOf s a) ∧
    handling.Current (s.indexer.sink.attempts ++ attemptsOf s a)

instance (s : State) (a : Action) : Decidable (HarmlessPoll s a) :=
  inferInstanceAs (Decidable (_ ∧ _))

/-- The events handed out so far, each once, in the order of the chain. -/
def handedOut (s : State) : List ChainEvent :=
  (chainEvents s.chain).filter fun e => e ∈ s.indexer.sink.attempts.map Prod.fst

def appliedOnce (s : State) : Store := (handedOut s).foldl (fun store e => process store e.value) {}

/-- The tables hold the same rows, whatever their autoincrement ids. -/
structure SameTables (s t : Store) : Prop where
  positions : s.positions = t.positions
  trades : s.trades.Perm t.trades
  liquidations : s.liquidations.Perm t.liquidations
  fundingUpdates : s.fundingUpdates.Perm t.fundingUpdates

def closes (id : ℕ) : DecodedEvent → Bool
  | .positionClosed id' .. => decide (id' = id)
  | _ => false

/-- Every handler that was called has been carried through at least once, and the tables are those
of one application of each event; every close has left one trade. -/
structure RedeliveredSafely (s : State) : Prop where
  tables : SameTables s.indexer.sink.store (appliedOnce s)
  trades : ∀ id, s.indexer.sink.store.trades.countP (fun t => t.positionID = id) =
    (handedOut s).countP fun e => closes id e.value

section Handlers

def positionRow (e : DecodedEvent) : Option Position := (handler e).head?.bind Write.position?

theorem positionRow_id (e : DecodedEvent) : (positionRow e).map Position.id = positionOf e := by
  cases e <;> rfl

theorem handler_nonempty (e : DecodedEvent) : 0 < (handler e).length := by
  cases e with
  | positionClosed => exact Nat.two_pos
  | _ => exact Nat.one_pos

theorem take_positions (e : DecodedEvent) (n : ℕ) :
    ((handler e).take n).filterMap Write.position? =
      if 0 < n then (positionRow e).toList else [] := by
  cases n with
  | zero => rfl
  | succ n =>
    cases e with
    | positionClosed => cases n <;> simp [handler, processPositionClosed, positionRow,
        Write.position?, List.filterMap_cons]
    | positionOpened => simp [handler, processPositionOpened, positionRow, Write.position?]
    | liquidation => simp [handler, processLiquidation, positionRow, Write.position?,
        List.filterMap_cons]
    | fundingApplied => simp [handler, processFundingApplied, positionRow, Write.position?,
        List.filterMap_cons]

theorem take_rows {β : Type} {g : Write → Option β} (hg : ∀ p, g (.upsertPosition p) = none)
    (e : DecodedEvent) (n : ℕ) : ((handler e).take n).filterMap g =
      if leavesRow e = true ∧ (handler e).length ≤ n then (handler e).filterMap g else [] := by
  cases e with
  | positionOpened =>
    cases n <;> simp [handler, processPositionOpened, leavesRow, hg]
  | positionClosed =>
    rcases n with _ | _ | n <;> simp [handler, processPositionClosed, leavesRow, hg]
  | liquidation => cases n <;> simp [handler, processLiquidation, leavesRow]
  | fundingApplied => cases n <;> simp [handler, processFundingApplied, leavesRow]

end Handlers

section Tables

variable {log : Log ChainEvent} {once : List ChainEvent}

def writesOf (log : Log ChainEvent) : List Write :=
  log.flatMap fun d => (handler d.1.value).take d.2

def onceWrites (once : List ChainEvent) : List Write := once.flatMap fun e => handler e.value

theorem filterMap_cons_toList {α β : Type} (f : α → Option β) (x : α) (xs : List α) :
    (x :: xs).filterMap f = (f x).toList ++ xs.filterMap f := by
  cases h : f x with
  | none => simp [h]
  | some y => simp [h]

theorem filterMap_ends {α β : Type} {f : α → Option β} {l : List α}
    (h : ∀ x ∈ l, (f x).isSome) : (l.filterMap f).head? = l.head?.bind f ∧
      (l.filterMap f).getLast? = l.getLast?.bind f := by
  constructor
  · cases l with
    | nil => rfl
    | cons x xs =>
      obtain ⟨y, hy⟩ := Option.isSome_iff_exists.mp (h x List.mem_cons_self)
      simp [hy]
  · rcases List.eq_nil_or_concat l with rfl | ⟨init, x, rfl⟩
    · rfl
    · obtain ⟨y, hy⟩ := Option.isSome_iff_exists.mp (h x (by simp))
      simp [hy]

theorem row_filter (e : DecodedEvent) (k : ℕ) :
    (positionRow e).toList.filter (fun p => p.id = k) =
      if positionOf e = some k then (positionRow e).toList else [] := by
  rw [← positionRow_id]
  cases positionRow e with
  | none => simp
  | some p => by_cases hid : p.id = k <;> simp [hid]

theorem positions_of_log (k : ℕ) :
    ((writesOf log).filterMap Write.position?).filter (fun p => p.id = k) =
      ((handling.writesAbout k log).map Prod.fst).filterMap fun e => positionRow e.value := by
  induction log with
  | nil => rfl
  | cons d log ih =>
    have hwrites : writesOf (d :: log) = (handler d.1.value).take d.2 ++ writesOf log := rfl
    have habout : handling.about d.1 = positionOf d.1.value := rfl
    rw [hwrites, List.filterMap_append, List.filter_append, ih, take_positions]
    by_cases hpos : 0 < d.2
    · rw [if_pos hpos, row_filter]
      by_cases hk : positionOf d.1.value = some k
      · have hkeep : handling.writesAbout k (d :: log) = d :: handling.writesAbout k log := by
          simp [Handling.writesAbout, hpos, habout, hk]
        rw [if_pos hk, hkeep, List.map_cons, filterMap_cons_toList]
      · have hdrop : handling.writesAbout k (d :: log) = handling.writesAbout k log := by
          simp [Handling.writesAbout, habout, hk]
        rw [if_neg hk, hdrop, List.nil_append]
    · have hdrop : handling.writesAbout k (d :: log) = handling.writesAbout k log := by
        simp [Handling.writesAbout, hpos]
      rw [if_neg hpos, hdrop, List.filter_nil, List.nil_append]

theorem rows_of_log {β : Type} {g : Write → Option β} (hg : ∀ p, g (.upsertPosition p) = none) :
    (writesOf log).filterMap g = ((recorded handling log).map Prod.fst).flatMap
      fun e => (handler e.value).filterMap g := by
  induction log with
  | nil => rfl
  | cons d log ih =>
    have hwrites : writesOf (d :: log) = (handler d.1.value).take d.2 ++ writesOf log := rfl
    rw [hwrites, List.filterMap_append, ih, take_rows hg]
    by_cases hrec : leavesRow d.1.value = true ∧ (handler d.1.value).length ≤ d.2
    · have hkeep : recorded handling (d :: log) = d :: recorded handling log := by
        simp [recorded, handling, hrec]
      rw [if_pos hrec, hkeep, List.map_cons, List.flatMap_cons]
    · have hdrop : recorded handling (d :: log) = recorded handling log := by
        simp [recorded, handling, hrec]
      rw [if_neg hrec, hdrop, List.nil_append]

theorem onceWrites_eq : onceWrites once = writesOf (carriedThrough handling once) := by
  simp [onceWrites, writesOf, carriedThrough, handling, List.flatMap_map]

theorem positions_once (k : ℕ) :
    ((onceWrites once).filterMap Write.position?).filter (fun p => p.id = k) =
      (eventsAbout handling k once).filterMap fun e => positionRow e.value := by
  rw [onceWrites_eq, positions_of_log]
  rw [writesAbout_carriedThrough fun e => handler_nonempty e.value]

theorem rows_once {β : Type} {g : Write → Option β} (hg : ∀ p, g (.upsertPosition p) = none) :
    (onceWrites once).filterMap g = (once.filter fun e => handling.records e).flatMap
      fun e => (handler e.value).filterMap g := by
  rw [onceWrites_eq, rows_of_log hg, recorded_carriedThrough]

theorem positionRow_isSome {e : DecodedEvent} {k : ℕ} (h : positionOf e = some k) :
    (positionRow e).isSome := by
  rw [← positionRow_id] at h
  exact Option.isSome_of_mem (Option.map_eq_some_iff.mp h).choose_spec.1

/-- Each position's row has its first and its last write from the same events as if every event
had been applied once. -/
theorem positions_of_settled (h : Settled handling log once) :
    ((writesOf log).filterMap Write.position?).foldl (upsert onConflict Position.id) ∅ =
      ((onceWrites once).filterMap Write.position?).foldl (upsert onConflict Position.id) ∅ := by
  apply upsertAll_congr onConflict_keepsFirst
  intro k
  rw [positions_of_log, positions_once]
  have hlog : ∀ e ∈ (handling.writesAbout k log).map Prod.fst, (positionRow e.value).isSome := by
    intro e he
    obtain ⟨d, hd, rfl⟩ := List.mem_map.mp he
    simp only [Handling.writesAbout, List.mem_filter, decide_eq_true_eq] at hd
    exact positionRow_isSome hd.2.2
  have honce : ∀ e ∈ eventsAbout handling k once, (positionRow e.value).isSome := by
    intro e he
    exact positionRow_isSome (mem_eventsAbout.mp he).2
  obtain ⟨hhead, hlast⟩ := filterMap_ends hlog
  obtain ⟨hhead', hlast'⟩ := filterMap_ends honce
  rw [hhead, hlast, hhead', hlast', head_eq h, last_eq h]
  exact ⟨rfl, rfl⟩

theorem rows_of_settled {β : Type} {g : Write → Option β} (h : Settled handling log once)
    (hn : once.Nodup) (hg : ∀ p, g (.upsertPosition p) = none) :
    ((writesOf log).filterMap g).Perm ((onceWrites once).filterMap g) := by
  rw [rows_of_log hg, rows_once hg]
  exact (recorded_perm h hn).flatMap_right _

theorem tables_of_settled (h : Settled handling log once) (hn : once.Nodup) :
    SameTables (applyAll {} (writesOf log)) (applyAll {} (onceWrites once)) := by
  rw [applyAll_eq, applyAll_eq]
  constructor
  · exact positions_of_settled h
  · exact rows_of_settled h hn fun _ => rfl
  · exact rows_of_settled h hn fun _ => rfl
  · exact rows_of_settled h hn fun _ => rfl

end Tables

section Runs

variable {s : State} {a : Action} {as : List Action}

/-- The events of the attempts, in the order they were handed out. -/
def passed (sink : Sink) : List ChainEvent := sink.attempts.map Prod.fst

theorem passed_applyEvent (done : ChainEvent → ℕ) (sink : Sink) (e : ChainEvent) :
    passed (applyEvent done sink e) = passed sink ++ [e] := by
  simp [passed, applyEvent]

theorem applyEvents (done : ChainEvent → ℕ) (sink : Sink) (es : List ChainEvent) :
    es.foldl (applyEvent done) sink =
      { store := applyAll sink.store (writesOf (es.map fun e => (e, done e)))
        attempts := sink.attempts ++ es.map fun e => (e, done e) } := by
  induction es generalizing sink with
  | nil => simp [writesOf, applyAll]
  | cons e es ih =>
    rw [List.foldl_cons, ih]
    simp [applyEvent, writesOf, applyAll]

theorem pollStep_sink (s : State) (a : Action) : (pollStep s a).indexer.sink =
    { store := applyAll s.indexer.sink.store (writesOf (attemptsOf s a))
      attempts := s.indexer.sink.attempts ++ attemptsOf s a } := by
  cases a with
  | closeLedger batch => simp [pollStep, indexerStep, attemptsOf, writesOf, applyAll]
  | poll reachable faults done =>
    obtain ⟨getFails, setFails⟩ := faults
    cases getFails with
    | true => simp [pollStep, indexerStep, index, attemptsOf, writesOf, applyAll]
    | false =>
      cases reachable with
      | false => simp [pollStep, indexerStep, index, clientOf, attemptsOf, writesOf, applyAll]
      | true =>
        have hsink := (index_answered (applyEvent done) s.chain setFails s.indexer).1
        exact hsink.trans (applyEvents done _ _)

/-- A state whose store and log of attempts come from harmless polls of the chain. -/
structure Delivered (s : State) : Prop where
  store : s.indexer.sink.store = applyAll {} (writesOf s.indexer.sink.attempts)
  harmless : Along extend handling.Harmless [] s.indexer.sink.attempts
  current : handling.Current s.indexer.sink.attempts
  ordered : Ordered EventInfo.ledger 1000 (s.reading passed)
  inOrder : SeenInOrder EventInfo.ledger chainBefore (s.reading passed)

theorem chainBefore_asymm (d e : ChainEvent) (h : chainBefore d e) : ¬ chainBefore e d := by
  unfold chainBefore at *
  omega

theorem batchInOrder (s : State) (a : Action) : BatchInOrder chainBefore (indexerMove s a) := by
  cases a with
  | closeLedger batch =>
    apply ledgerEvents_indices.imp_of_mem
    intro x y hx hy hlt
    right
    rw [ledger_of_mem hx, ledger_of_mem hy]
    exact ⟨rfl, hlt⟩
  | poll reachable faults done =>
    obtain ⟨getFails, setFails⟩ := faults
    cases reachable <;> cases getFails <;> trivial

theorem applyAll_append (store : Store) (ws vs : List Write) :
    applyAll store (ws ++ vs) = applyAll (applyAll store ws) vs := List.foldl_append ..

theorem writesOf_append (log log' : Log ChainEvent) :
    writesOf (log ++ log') = writesOf log ++ writesOf log' := List.flatMap_append ..

theorem delivered_start : Delivered start := by
  constructor
  · rfl
  · trivial
  · intro c hc
    cases hc
  · exact ordered_start
  · constructor
    · exact List.Pairwise.nil
    · intro x hx
      cases hx
    · intro x hx
      cases hx
    · intro l₁ x l₂ hsplit
      cases l₁ <;> cases hsplit

theorem delivered_step (h : Delivered s) (ha : HarmlessPoll s a) : Delivered (pollStep s a) := by
  have hread : (pollStep s a).reading passed =
      move EventInfo.ledger 1000 (s.reading passed) (indexerMove s a) :=
    indexerStep_reading passed_applyEvent s a
  have hproper := indexer_proper passed s a
  constructor
  · rw [pollStep_sink, writesOf_append, applyAll_append, ← h.store]
  · rw [pollStep_sink]
    apply along_append.mpr
    rw [run_extend, List.nil_append]
    exact ⟨h.harmless, ha.1⟩
  · rw [pollStep_sink]
    exact ha.2
  · rw [hread]
    exact ordered_move h.ordered hproper
  · rw [hread]
    exact seenInOrder_move chainBefore_asymm (fun _ _ => .inl) h.ordered h.inOrder hproper
      (batchInOrder s a)

theorem settled_of_delivered (h : Delivered s)
    (hc : handling.AllCompleted s.indexer.sink.attempts) :
    Settled handling s.indexer.sink.attempts (handedOut s) := by
  constructor
  · exact h.harmless
  · exact h.current
  · exact h.inOrder.firsts
  · exact hc
  · intro e
    exact handler_nonempty e.value
  · exact h.inOrder.sorted.filter _
  · intro e
    simp only [handedOut, List.mem_filter, decide_eq_true_eq]
    constructor
    · intro he
      exact he.2
    · intro he
      exact ⟨h.inOrder.known e he, he⟩

theorem appliedOnce_eq (s : State) : appliedOnce s = applyAll {} (onceWrites (handedOut s)) := by
  unfold appliedOnce applyAll onceWrites
  rw [List.foldl_flatMap]
  rfl

theorem count_trades (id : ℕ) (once : List ChainEvent) :
    ((onceWrites once).filterMap Write.trade?).countP (fun t => t.positionID = id) =
      once.countP fun e => closes id e.value := by
  induction once with
  | nil => rfl
  | cons e once ih =>
    have hwrites : onceWrites (e :: once) = handler e.value ++ onceWrites once := rfl
    rw [hwrites, List.filterMap_append, List.countP_append, ih, List.countP_cons, add_comm]
    congr 1
    cases e.value with
    | positionClosed id' =>
      by_cases hid : id' = id <;>
        simp [handler, processPositionClosed, Write.trade?, List.filterMap_cons, closes, hid]
    | _ => rfl

theorem redelivered_safely (h : Along pollStep HarmlessPoll start as)
    (hc : handling.AllCompleted (runActions pollStep start as).indexer.sink.attempts) :
    RedeliveredSafely (runActions pollStep start as) := by
  have hend := invariant_run (fun _ _ => delivered_step) h delivered_start
  have hnodup : (handedOut (runActions pollStep start as)).Nodup := hend.ordered.nodup.filter _
  have htables := tables_of_settled (settled_of_delivered hend hc) hnodup
  rw [← hend.store, ← appliedOnce_eq] at htables
  refine ⟨htables, ?_⟩
  intro id
  rw [htables.trades.countP_eq, appliedOnce_eq, applyAll_eq]
  exact count_trades id _

def longOpened : DecodedEvent :=
  .positionOpened 1 "T" 0 "long" 10000000000 1000000000 10000000000 10 5

def longClosed : DecodedEvent :=
  .positionClosed 1 "T" 0 "long" 10000000000 10000000000 11000000000 1000000000 10000000 9

/-- The insert of the trade fails at first and is made up for at the next poll, which hands out the
close again. The opening is handed out twice as well. -/
theorem redelivered_safely_after_failure : RedeliveredSafely (runActions pollStep start
    [.closeLedger [("a", longOpened)], .poll true ⟨false, false⟩ fun _ => 2,
      .closeLedger [("b", longClosed)], .poll true ⟨false, false⟩ fun _ => 1,
      .poll true ⟨false, false⟩ fun _ => 2]) :=
  redelivered_safely (by decide +kernel) (by decide +kernel)

/-- Two polls with nothing new between them, and no failure. -/
def idlePolls : State := runActions pollStep start
  [.closeLedger [("a", longOpened), ("b", longClosed)], .poll true ⟨false, false⟩ fun _ => 2,
    .poll true ⟨false, false⟩ fun _ => 2]

/-- The close is handed out a second time and leaves a second trade. -/
theorem idlePolls_two_trades : ¬ RedeliveredSafely idlePolls := by
  intro h
  have htrades : idlePolls.indexer.sink.store.trades.countP (fun t => t.positionID = 1) = 2 := by
    decide +kernel
  have hcloses : (handedOut idlePolls).countP (fun e => closes 1 e.value) = 1 := by decide +kernel
  have hcount := h.trades 1
  rw [htrades, hcloses] at hcount
  cases hcount

end Runs

end KeeperRedelivery
