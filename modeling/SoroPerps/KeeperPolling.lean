import SoroPerps.ActionRuns
import SoroPerps.PagedReading
import SoroPerps.KeeperStore

/-! # Polling the chain for events

The indexer and the scanner ask for events from the ledger they reached last, a thousand at most,
and then take the latest ledger of the answer for the ledger they reached. The indexer stores its
bookmark, the scanner keeps it in memory. -/
namespace KeeperPolling

open ActionRuns PagedReading KeeperStore

variable {ε σ ω : Type}

/-- An event the RPC returns. Ledger and index together are its identity. -/
structure EventInfo (ε : Type) where
  ledger : ℤ
  index : ℕ
  pagingToken : String
  value : ε
  deriving DecidableEq, Repr

structure GetEventsResult (ε : Type) where
  events : List (EventInfo ε)
  latestLedger : ℤ

/-- The matching events of the ledgers closed so far, from ledger 1 on. -/
abbrev Chain (ε : Type) := List (List (String × ε))

def ledgerEvents (ledger : ℤ) (batch : List (String × ε)) : List (EventInfo ε) :=
  batch.zipIdx.map fun e => ⟨ledger, e.2, e.1.1, e.1.2⟩

def chainEvents (chain : Chain ε) : List (EventInfo ε) :=
  (chain.zipIdx 1).flatMap fun b => ledgerEvents b.2 b.1

/-- What the RPC answers when it can be reached. -/
def getEvents (chain : Chain ε) (startLedger : ℤ) (limit : ℕ) : GetEventsResult ε where
  events := (chainEvents chain |>.filter fun e => startLedger ≤ e.ledger).take limit
  latestLedger := chain.length

abbrev Client (ε : Type) := ℤ → ℕ → Option (GetEventsResult ε)

def clientOf (chain : Chain ε) (reachable : Bool) : Client ε :=
  fun startLedger limit => if reachable then some (getEvents chain startLedger limit) else none

/-- The indexer with its bookmark; `sink` is whatever its `processEvent` writes to. -/
structure Indexer (σ : Type) where
  cursor : Cursor := {}
  eventsProcessed : ℕ := 0
  sink : σ

structure StoreFaults where
  getCursor : Bool
  setCursor : Bool
  deriving DecidableEq, Repr

def index (processEvent : σ → EventInfo ε → σ) (client : Client ε) (faults : StoreFaults)
    (idx : Indexer σ) : Indexer σ :=
  if faults.getCursor then idx
  else
    let lastLedger := idx.cursor.lastLedger
    let startLedger := if lastLedger = 0 then 1 else lastLedger
    match client startLedger 1000 with
    | none => idx
    | some result =>
      let sink := result.events.foldl processEvent idx.sink
      let eventsProcessed := idx.eventsProcessed + result.events.length
      let lastToken := (result.events.getLast?.map EventInfo.pagingToken).getD ""
      if lastLedger < result.latestLedger ∧ faults.setCursor = false then
        { cursor := ⟨result.latestLedger, lastToken⟩, eventsProcessed, sink }
      else { cursor := idx.cursor, eventsProcessed, sink }

structure Scanner (σ : Type) where
  lastLedger : ℤ := 0
  sink : σ

def scan (processEvent : σ → EventInfo ε → σ) (client : Client ε) (s : Scanner σ) : Scanner σ :=
  let startLedger := if s.lastLedger = 0 then 1 else s.lastLedger
  match client startLedger 1000 with
  | none => s
  | some result =>
    let sink := result.events.foldl processEvent s.sink
    if s.lastLedger < result.latestLedger then { lastLedger := result.latestLedger, sink }
    else { lastLedger := s.lastLedger, sink }

structure Indexing (ε σ : Type) where
  chain : Chain ε
  indexer : Indexer σ

/-- A poll comes with its faults and with an outcome for the handling of its events. -/
inductive IndexerAction (ε ω : Type) where
  | closeLedger (batch : List (String × ε))
  | poll (reachable : Bool) (faults : StoreFaults) (outcome : ω)

def indexerStep (processEvent : ω → σ → EventInfo ε → σ) (s : Indexing ε σ) :
    IndexerAction ε ω → Indexing ε σ
  | .closeLedger batch => { s with chain := s.chain ++ [batch] }
  | .poll reachable faults outcome =>
    { s with
      indexer := index (processEvent outcome) (clientOf s.chain reachable) faults s.indexer }

structure Scanning (ε σ : Type) where
  chain : Chain ε
  scanner : Scanner σ

inductive ScannerAction (ε : Type) where
  | closeLedger (batch : List (String × ε))
  | poll (reachable : Bool)

def scannerStep (processEvent : σ → EventInfo ε → σ) (s : Scanning ε σ) :
    ScannerAction ε → Scanning ε σ
  | .closeLedger batch => { s with chain := s.chain ++ [batch] }
  | .poll reachable =>
    { s with scanner := scan processEvent (clientOf s.chain reachable) s.scanner }

def NoEventLost (chain : Chain ε) (lastLedger : ℤ) (passed : List (EventInfo ε)) : Prop :=
  ∀ e ∈ chainEvents chain, e.ledger < lastLedger → e ∈ passed

def PageHoldsAll (chain : Chain ε) (lastLedger : ℤ) : Prop :=
  lastLedger < chain.length → ((chainEvents chain).filter fun e =>
    lastLedger ≤ e.ledger ∧ e.ledger < (chain.length : ℤ)).length ≤ 1000

/-- A poll that gets through and stores its bookmark finds a page that holds all. -/
def IndexerKeepsUp (s : Indexing ε σ) : IndexerAction ε ω → Prop
  | .poll true ⟨false, false⟩ _ => PageHoldsAll s.chain s.indexer.cursor.lastLedger
  | _ => True

def ScannerKeepsUp (s : Scanning ε σ) : ScannerAction ε → Prop
  | .poll true => PageHoldsAll s.chain s.scanner.lastLedger
  | _ => True

section Events

variable {chain : Chain ε} {batch : List (String × ε)} {ledger : ℤ} {e : EventInfo ε}

theorem chainEvents_concat : chainEvents (chain ++ [batch]) =
    chainEvents chain ++ ledgerEvents (chain.length + 1) batch := by
  simp [chainEvents, List.zipIdx_append, add_comm]

theorem ledger_of_mem (h : e ∈ ledgerEvents ledger batch) : e.ledger = ledger := by
  obtain ⟨x, -, rfl⟩ := List.mem_map.mp h
  rfl

theorem ledgerEvents_indices :
    (ledgerEvents ledger batch).Pairwise fun x y => x.index < y.index := by
  have hindex : (ledgerEvents ledger batch).map EventInfo.index =
      batch.zipIdx.map Prod.snd := List.map_map ..
  apply List.pairwise_map.mp
  rw [hindex, List.zipIdx_map_snd]
  exact List.pairwise_lt_range'

theorem ledgerEvents_nodup : (ledgerEvents ledger batch).Nodup := by
  apply ledgerEvents_indices.imp
  rintro x y hlt rfl
  exact lt_irrefl _ hlt

theorem ledgerEvents_sorted :
    (ledgerEvents ledger batch).Pairwise fun x y => x.ledger ≤ y.ledger := by
  apply List.pairwise_of_forall_mem_list
  intro x hx y hy
  rw [ledger_of_mem hx, ledger_of_mem hy]

theorem one_le_ledger (h : e ∈ chainEvents chain) : 1 ≤ e.ledger := by
  obtain ⟨b, hb, he⟩ := List.mem_flatMap.mp h
  have hle := List.le_snd_of_mem_zipIdx hb
  rw [ledger_of_mem he]
  omega

/-- The first poll asks from ledger 1, where the chain begins, so it may as well ask from 0. -/
theorem getEvents_page {lastLedger : ℤ} {limit : ℕ} :
    (getEvents chain (if lastLedger = 0 then 1 else lastLedger) limit).events =
      page EventInfo.ledger limit lastLedger (chainEvents chain) := by
  by_cases hfirst : lastLedger = 0
  · subst hfirst
    simp only [getEvents, page, if_true]
    congr 1
    apply List.filter_congr
    intro e he
    have hle := one_le_ledger he
    have hle' : (0 : ℤ) ≤ e.ledger := by omega
    simp only [hle, hle']
  · simp [getEvents, page, hfirst]

end Events

section Refinement

variable (log : σ → List (EventInfo ε))

/-- The reading that a state of the indexer implements, when `log` lists the events passed on. -/
def readingOf (chain : Chain ε) (lastLedger : ℤ) (passed : List (EventInfo ε)) :
    Reading (EventInfo ε) := ⟨chainEvents chain, chain.length, lastLedger, passed⟩

def closing (chain : Chain ε) (batch : List (String × ε)) : Move (EventInfo ε) :=
  .publish (ledgerEvents (chain.length + 1) batch) (chain.length + 1)

def indexerMove (s : Indexing ε σ) : IndexerAction ε ω → Move (EventInfo ε)
  | .closeLedger batch => closing s.chain batch
  | .poll true ⟨false, setCursor⟩ _ => .read (!setCursor)
  | .poll _ _ _ => .idle

def scannerMove (s : Scanning ε σ) : ScannerAction ε → Move (EventInfo ε)
  | .closeLedger batch => closing s.chain batch
  | .poll true => .read true
  | .poll false => .idle

def Indexing.reading (s : Indexing ε σ) : Reading (EventInfo ε) :=
  readingOf s.chain s.indexer.cursor.lastLedger (log s.indexer.sink)

def Scanning.reading (s : Scanning ε σ) : Reading (EventInfo ε) :=
  readingOf s.chain s.scanner.lastLedger (log s.scanner.sink)

theorem move_closing {chain : Chain ε} {lastLedger : ℤ} {passed : List (EventInfo ε)}
    {batch : List (String × ε)} :
    move EventInfo.ledger 1000 (readingOf chain lastLedger passed) (closing chain batch) =
      readingOf (chain ++ [batch]) lastLedger passed := by
  simp [move, readingOf, closing, chainEvents_concat]

theorem proper_closing {chain : Chain ε} {lastLedger : ℤ} {passed : List (EventInfo ε)}
    {batch : List (String × ε)} :
    Proper EventInfo.ledger (readingOf chain lastLedger passed) (closing chain batch) := by
  refine ⟨?_, ledgerEvents_nodup, ledgerEvents_sorted, ?_⟩
  · simp [readingOf]
  · intro e he
    rw [ledger_of_mem he]
    simp [readingOf]

variable {log}

theorem log_foldl {process : σ → EventInfo ε → σ}
    (hlog : ∀ sink e, log (process sink e) = log sink ++ [e]) (sink : σ)
    (es : List (EventInfo ε)) : log (es.foldl process sink) = log sink ++ es := by
  induction es generalizing sink with
  | nil => simp
  | cons e es ih => rw [List.foldl_cons, ih, hlog, List.append_assoc, List.singleton_append]

theorem index_answered (process : σ → EventInfo ε → σ) (chain : Chain ε) (setFails : Bool)
    (idx : Indexer σ) :
    let idx' := index process (clientOf chain true) ⟨false, setFails⟩ idx
    let events := page EventInfo.ledger 1000 idx.cursor.lastLedger (chainEvents chain)
    idx'.sink = events.foldl process idx.sink ∧ idx'.cursor.lastLedger =
      if idx.cursor.lastLedger < chain.length ∧ setFails = false then (chain.length : ℤ)
      else idx.cursor.lastLedger := by
  have hpage := @getEvents_page _ chain idx.cursor.lastLedger 1000
  have hlatest : ∀ start, (getEvents chain start 1000).latestLedger = chain.length := fun _ => rfl
  simp only [index, clientOf, Bool.false_eq_true, if_false, if_true, hlatest, hpage]
  by_cases hmove : idx.cursor.lastLedger < chain.length ∧ setFails = false
  · simp only [if_pos hmove, and_self]
  · simp only [if_neg hmove, and_self]

theorem scan_answered (process : σ → EventInfo ε → σ) (chain : Chain ε) (s : Scanner σ) :
    let s' := scan process (clientOf chain true) s
    let events := page EventInfo.ledger 1000 s.lastLedger (chainEvents chain)
    s'.sink = events.foldl process s.sink ∧ s'.lastLedger =
      if s.lastLedger < chain.length then (chain.length : ℤ) else s.lastLedger := by
  have hpage := @getEvents_page _ chain s.lastLedger 1000
  have hlatest : ∀ start, (getEvents chain start 1000).latestLedger = chain.length := fun _ => rfl
  simp only [scan, clientOf, if_true, hlatest, hpage]
  by_cases hmove : s.lastLedger < chain.length
  · simp only [if_pos hmove, and_self]
  · simp only [if_neg hmove, and_self]

/-- A poll of the indexer reads one page and moves its mark unless an access fails. -/
theorem indexerStep_reading {processEvent : ω → σ → EventInfo ε → σ}
    (hlog : ∀ outcome sink e, log (processEvent outcome sink e) = log sink ++ [e])
    (s : Indexing ε σ) (a : IndexerAction ε ω) :
    (indexerStep processEvent s a).reading log =
      move EventInfo.ledger 1000 (s.reading log) (indexerMove s a) := by
  cases a with
  | closeLedger batch => exact move_closing.symm
  | poll reachable faults outcome =>
    obtain ⟨getFails, setFails⟩ := faults
    cases reachable with
    | false => cases getFails <;> rfl
    | true =>
      cases getFails with
      | true => rfl
      | false =>
        obtain ⟨hsink, hmark⟩ := index_answered (processEvent outcome) s.chain setFails s.indexer
        simp only [Indexing.reading, readingOf, indexerStep, hsink, hmark,
          log_foldl (hlog outcome), indexerMove, move, Bool.not_eq_true', and_comm]

theorem scannerStep_reading {process : σ → EventInfo ε → σ}
    (hlog : ∀ sink e, log (process sink e) = log sink ++ [e])
    (s : Scanning ε σ) (a : ScannerAction ε) :
    (scannerStep process s a).reading log =
      move EventInfo.ledger 1000 (s.reading log) (scannerMove s a) := by
  cases a with
  | closeLedger batch => exact move_closing.symm
  | poll reachable =>
    cases reachable with
    | false => rfl
    | true =>
      obtain ⟨hsink, hmark⟩ := scan_answered process s.chain s.scanner
      simp only [Scanning.reading, readingOf, scannerStep, hsink, hmark, log_foldl hlog,
        scannerMove, move, true_and]

variable (log)

theorem indexer_proper (s : Indexing ε σ) (a : IndexerAction ε ω) :
    Proper EventInfo.ledger (s.reading log) (indexerMove s a) := by
  cases a with
  | closeLedger batch => exact proper_closing
  | poll reachable faults outcome =>
    obtain ⟨getFails, setFails⟩ := faults
    cases reachable <;> cases getFails <;> trivial

theorem scanner_proper (s : Scanning ε σ) (a : ScannerAction ε) :
    Proper EventInfo.ledger (s.reading log) (scannerMove s a) := by
  cases a with
  | closeLedger batch => exact proper_closing
  | poll reachable => cases reachable <;> trivial

theorem indexer_enough_iff (s : Indexing ε σ) (a : IndexerAction ε ω) :
    Enough EventInfo.ledger 1000 (s.reading log) (indexerMove s a) ↔ IndexerKeepsUp s a := by
  cases a with
  | closeLedger batch => rfl
  | poll reachable faults outcome =>
    obtain ⟨getFails, setFails⟩ := faults
    cases reachable <;> cases getFails <;> cases setFails <;> rfl

theorem scanner_enough_iff (s : Scanning ε σ) (a : ScannerAction ε) :
    Enough EventInfo.ledger 1000 (s.reading log) (scannerMove s a) ↔ ScannerKeepsUp s a := by
  cases a with
  | closeLedger batch => rfl
  | poll reachable => cases reachable <;> rfl

end Refinement

section Runs

/-- `processEvent` as far as this matters: the event has been passed on. -/
def passEvent (passed : List (EventInfo ε)) (e : EventInfo ε) : List (EventInfo ε) :=
  passed ++ [e]

def indexerRun (as : List (IndexerAction ε Unit)) : Indexing ε (List (EventInfo ε)) :=
  runActions (indexerStep fun _ => passEvent) ⟨[], { sink := [] }⟩ as

def scannerRun (as : List (ScannerAction ε)) : Scanning ε (List (EventInfo ε)) :=
  runActions (scannerStep passEvent) ⟨[], { sink := [] }⟩ as

theorem ordered_start : Ordered EventInfo.ledger 1000
    (readingOf ([] : Chain ε) 0 ([] : List (EventInfo ε))) := by
  constructor <;> simp [readingOf, chainEvents]

theorem no_event_lost_iff :
    (∀ as : List (IndexerAction ε Unit),
      (∀ bs, bs <+: as → NoEventLost (indexerRun bs).chain
        (indexerRun bs).indexer.cursor.lastLedger (indexerRun bs).indexer.sink) ↔
      Along (indexerStep fun _ => passEvent) IndexerKeepsUp ⟨[], { sink := [] }⟩ as) ∧
    (∀ as : List (ScannerAction ε),
      (∀ bs, bs <+: as → NoEventLost (scannerRun bs).chain
        (scannerRun bs).scanner.lastLedger (scannerRun bs).scanner.sink) ↔
      Along (scannerStep passEvent) ScannerKeepsUp ⟨[], { sink := [] }⟩ as) := by
  have hnone : NothingLost EventInfo.ledger
      (readingOf ([] : Chain ε) 0 ([] : List (EventInfo ε))) := by
    intro e he
    cases he
  constructor
  · intro as
    rw [← along_congr (indexer_enough_iff id)]
    exact nothing_lost_iff _ (indexerStep_reading fun _ _ _ => rfl) (indexer_proper id)
      ordered_start hnone as
  · intro as
    rw [← along_congr (scanner_enough_iff id)]
    exact nothing_lost_iff _ (scannerStep_reading fun _ _ => rfl) (scanner_proper id)
      ordered_start hnone as

/-- Ledger 1 brings a thousand and one events, ledger 2 none. -/
def burst : Chain Unit := [List.replicate 1001 ("", ()), []]

def afterBurst : Indexing Unit (List (EventInfo Unit)) :=
  indexerRun [.closeLedger (List.replicate 1001 ("", ())), .closeLedger [],
    .poll true ⟨false, false⟩ ()]

theorem burst_loses_event : ¬ NoEventLost afterBurst.chain
    afterBurst.indexer.cursor.lastLedger afterBurst.indexer.sink := by
  intro h
  obtain ⟨hsink, hmark⟩ := index_answered passEvent burst false { sink := [] }
  have hlog : ∀ (sink : List (EventInfo Unit)) e, id (passEvent sink e) = id sink ++ [e] :=
    fun _ _ => rfl
  have hpage : afterBurst.indexer.sink = page EventInfo.ledger 1000 0 (chainEvents burst) :=
    hsink.trans (log_foldl hlog [] _)
  have hlast : (⟨1, 1000, "", ()⟩ : EventInfo Unit) ∈ chainEvents burst := by decide +kernel
  have hmissed : (⟨1, 1000, "", ()⟩ : EventInfo Unit) ∉
      page EventInfo.ledger 1000 0 (chainEvents burst) := by decide +kernel
  have hlatest : afterBurst.indexer.cursor.lastLedger = 2 := hmark
  have hbelow : (1 : ℤ) < afterBurst.indexer.cursor.lastLedger := by
    rw [hlatest]
    decide
  exact hmissed (hpage ▸ h _ hlast hbelow)

end Runs

end KeeperPolling
