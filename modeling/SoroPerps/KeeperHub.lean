import Mathlib.Data.Finset.Card
import Mathlib.Data.Finset.Dedup
import SoroPerps.ActionRuns

/-! # The hub of the keeper's API

Each connection has a handler that registers it, reads until an error and removes it. A broadcast
takes a copy of the registered connections and then, no longer under the lock, writes to one after
the other; it removes those it cannot write to. Handlers and broadcasts interleave freely. -/
namespace KeeperHub

open ActionRuns

abbrev Conn := ℕ

structure Sending where
  payload : String
  clients : List Conn
  deriving DecidableEq, Repr

/-- The hub, the connections around it, and the broadcasts so far, numbered from zero. -/
structure Hub where
  clients : Finset Conn := ∅
  accepted : Finset Conn := ∅
  reading : Finset Conn := ∅
  closed : Finset Conn := ∅
  sent : List Sending := []
  pending : ℕ → List Conn := fun _ => []
  received : Conn → List ℕ := fun _ => []

def addClient (h : Hub) (ws : Conn) : Hub := { h with clients := insert ws h.clients }

def removeClient (h : Hub) (ws : Conn) : Hub :=
  { h with clients := h.clients.erase ws, closed := insert ws h.closed }

def clientCount (h : Hub) : ℕ := h.clients.card

/-- A connection is accepted, a read fails, a broadcast is called (and may find its message cannot
be marshalled), and one of the broadcasts under way writes to its next connection. -/
inductive Action where
  | connect (ws : Conn)
  | readFails (ws : Conn)
  | broadcast (payload : Option String) (clients : List Conn)
  | write (number : ℕ) (ok : Bool)
  deriving DecidableEq, Repr

def step (h : Hub) : Action → Hub
  | .connect ws =>
    addClient { h with accepted := insert ws h.accepted, reading := insert ws h.reading } ws
  | .readFails ws => removeClient { h with reading := h.reading.erase ws } ws
  | .broadcast none _ => h
  | .broadcast (some payload) clients =>
    { h with
      sent := h.sent ++ [⟨payload, clients⟩]
      pending := Function.update h.pending h.sent.length clients }
  | .write number ok =>
    match h.pending number with
    | [] => h
    | ws :: rest =>
      let h := { h with pending := Function.update h.pending number rest }
      if ok then { h with received := Function.update h.received ws (h.received ws ++ [number]) }
      else removeClient h ws

/-- A connection is new when it is accepted, its handler reads until a read fails, the copy lists
the clients in the order of the map, and no write to a closed connection succeeds. -/
def Allowed (h : Hub) : Action → Prop
  | .connect ws => ws ∉ h.accepted
  | .readFails ws => ws ∈ h.reading
  | .broadcast none _ => True
  | .broadcast (some _) clients => clients.Nodup ∧ clients.toFinset = h.clients
  | .write number ok => ok = true → ∀ ws ∈ (h.pending number).head?, ws ∉ h.closed

instance (h : Hub) : (a : Action) → Decidable (Allowed h a)
  | .connect ws => inferInstanceAs (Decidable (ws ∉ h.accepted))
  | .readFails ws => inferInstanceAs (Decidable (ws ∈ h.reading))
  | .broadcast none _ => isTrue trivial
  | .broadcast (some _) clients =>
    inferInstanceAs (Decidable (clients.Nodup ∧ clients.toFinset = h.clients))
  | .write number ok =>
    inferInstanceAs (Decidable (ok = true → ∀ ws ∈ (h.pending number).head?, ws ∉ h.closed))

section Invariants

variable {h : Hub} {a : Action} {ws : Conn} {number : ℕ} {rest : List Conn}

/-- A registered connection still has the handler that will remove it, and one that is no longer
registered has been closed. -/
structure Connections (h : Hub) : Prop where
  reading : h.clients ⊆ h.reading
  accepted : h.reading ⊆ h.accepted
  closed : ∀ ws, ws ∈ h.closed ↔ ws ∈ h.accepted ∧ ws ∉ h.clients

/-- What a broadcast is done with it has written or else found closed, and the rest is pending. -/
structure Broadcasts (h : Hub) : Prop where
  begun : ∀ number, h.sent.length ≤ number → h.pending number = []
  progress : ∀ number s, h.sent[number]? = some s → ∃ done, s.clients = done ++ h.pending number ∧
    ∀ ws ∈ done, number ∈ h.received ws ∨ ws ∈ h.closed
  copies : ∀ s ∈ h.sent, s.clients.Nodup ∧ ∀ ws ∈ s.clients, ws ∈ h.accepted
  known : ∀ ws, ∀ number ∈ h.received ws, ∃ s, h.sent[number]? = some s ∧ ws ∈ s.clients ∧
    ws ∉ h.pending number
  once : ∀ ws, (h.received ws).Nodup

structure Sound (h : Hub) : Prop where
  connections : Connections h
  broadcasts : Broadcasts h

theorem connections_remove (hc : Connections h) (hws : ws ∈ h.accepted) :
    Connections (removeClient h ws) := by
  constructor
  · exact (Finset.erase_subset _ _).trans hc.reading
  · exact hc.accepted
  · intro other
    simp only [removeClient, Finset.mem_insert, Finset.mem_erase, hc.closed]
    by_cases heq : other = ws
    · subst heq
      simp [hws]
    · simp [heq]

theorem broadcasts_remove (hb : Broadcasts h) : Broadcasts (removeClient h ws) := by
  constructor
  · exact hb.begun
  · intro number s hs
    obtain ⟨done, hdone, hwritten⟩ := hb.progress number s hs
    refine ⟨done, hdone, ?_⟩
    intro other hother
    exact (hwritten other hother).imp_right (Finset.mem_insert_of_mem)
  · exact hb.copies
  · exact hb.known
  · exact hb.once

theorem sound_connect (h₀ : Sound h) (hnew : ws ∉ h.accepted) : Sound (step h (.connect ws)) := by
  have hc := h₀.connections
  have hb := h₀.broadcasts
  constructor
  · constructor
    · exact Finset.insert_subset_insert ws hc.reading
    · exact Finset.insert_subset_insert ws hc.accepted
    · intro other
      simp only [step, addClient, Finset.mem_insert, hc.closed]
      by_cases heq : other = ws
      · subst heq
        simp [hnew]
      · simp [heq]
  · constructor
    · exact hb.begun
    · exact hb.progress
    · intro s hs
      obtain ⟨hnodup, haccepted⟩ := hb.copies s hs
      exact ⟨hnodup, fun other hother => Finset.mem_insert_of_mem (haccepted other hother)⟩
    · exact hb.known
    · exact hb.once

theorem sound_readFails (h₀ : Sound h) (hws : ws ∈ h.reading) :
    Sound (step h (.readFails ws)) := by
  have hc := h₀.connections
  have hclosed := connections_remove hc (hc.accepted hws)
  constructor
  · constructor
    · exact Finset.erase_subset_erase ws hc.reading
    · exact (Finset.erase_subset _ _).trans hc.accepted
    · exact hclosed.closed
  · exact broadcasts_remove (h := { h with reading := h.reading.erase ws })
      ⟨h₀.broadcasts.begun, h₀.broadcasts.progress, h₀.broadcasts.copies, h₀.broadcasts.known,
        h₀.broadcasts.once⟩

theorem sound_broadcast (h₀ : Sound h) (payload : String) {clients : List Conn}
    (hn : clients.Nodup) (hcopy : clients.toFinset = h.clients) :
    Sound (step h (.broadcast (some payload) clients)) := by
  have hc := h₀.connections
  have hb := h₀.broadcasts
  refine ⟨⟨hc.reading, hc.accepted, hc.closed⟩, ?_⟩
  have hother : ∀ number, number ≠ h.sent.length →
      Function.update h.pending h.sent.length clients number = h.pending number :=
    fun number hne => Function.update_of_ne hne _ _
  constructor
  · intro number hle
    simp only [step, List.length_append, List.length_singleton] at hle ⊢
    rw [hother number (by omega)]
    exact hb.begun number (by omega)
  · intro number s hs
    simp only [step] at hs ⊢
    by_cases hnew : number = h.sent.length
    · subst hnew
      rw [List.getElem?_concat_length] at hs
      rw [← Option.some.inj hs, Function.update_self]
      exact ⟨[], rfl, by simp⟩
    · rw [hother number hnew]
      have hlt : number < h.sent.length := by
        have hbound := (List.getElem?_eq_some_iff.mp hs).1
        rw [List.length_append, List.length_singleton] at hbound
        omega
      rw [List.getElem?_append_left hlt] at hs
      exact hb.progress number s hs
  · intro s hs
    rcases List.mem_append.mp hs with hs | hs
    · exact hb.copies s hs
    · rw [List.mem_singleton.mp hs]
      refine ⟨hn, fun ws hws => hc.accepted (hc.reading ?_)⟩
      rw [← hcopy]
      exact List.mem_toFinset.mpr hws
  · intro ws number hnumber
    obtain ⟨s, hs, hws, hpending⟩ := hb.known ws number hnumber
    have hlt := (List.getElem?_eq_some_iff.mp hs).1
    refine ⟨s, ?_, hws, ?_⟩
    · simp only [step]
      rw [List.getElem?_append_left hlt, hs]
    · simp only [step]
      rw [hother number hlt.ne]
      exact hpending
  · exact hb.once

theorem step_write_nil {ok : Bool} (hp : h.pending number = []) :
    step h (.write number ok) = h := by
  simp only [step, hp]

theorem step_write_ok (hp : h.pending number = ws :: rest) :
    step h (.write number true) =
      { h with
        pending := Function.update h.pending number rest
        received := Function.update h.received ws (h.received ws ++ [number]) } := by
  simp only [step, hp, if_true]

theorem step_write_fails (hp : h.pending number = ws :: rest) :
    step h (.write number false) =
      removeClient { h with pending := Function.update h.pending number rest } ws := by
  simp only [step, hp, Bool.false_eq_true, if_false]

/-- The copy a broadcast is working on, and what it has left of it. -/
theorem Broadcasts.current (hb : Broadcasts h) (hp : h.pending number = ws :: rest) :
    ∃ s done, h.sent[number]? = some s ∧ s.clients = done ++ ws :: rest ∧
      (∀ other ∈ done, number ∈ h.received other ∨ other ∈ h.closed) ∧ ws ∉ rest ∧
      ws ∈ h.accepted := by
  have hlt : number < h.sent.length := by
    by_contra hle
    rw [hb.begun number (not_lt.mp hle)] at hp
    cases hp
  have hs : h.sent[number]? = some h.sent[number] := List.getElem?_eq_getElem hlt
  obtain ⟨done, hdone, hwritten⟩ := hb.progress number _ hs
  obtain ⟨hnodup, haccepted⟩ := hb.copies _ (List.getElem_mem hlt)
  rw [hp] at hdone
  rw [hdone] at hnodup haccepted
  exact ⟨_, done, hs, hdone, hwritten,
    (List.nodup_cons.mp (List.nodup_append.mp hnodup).2.1).1, haccepted ws (by simp)⟩

theorem broadcasts_write (hb : Broadcasts h) (hp : h.pending number = ws :: rest) {h' : Hub}
    (hsent : h'.sent = h.sent) (haccepted : h'.accepted = h.accepted)
    (hpending : h'.pending = Function.update h.pending number rest)
    (hclosed : h.closed ⊆ h'.closed)
    (hreceived : ∀ other m, m ∈ h'.received other ↔
      m ∈ h.received other ∨ other = ws ∧ m = number ∧ ws ∉ h'.closed)
    (honce : ∀ other, (h'.received other).Nodup) : Broadcasts h' := by
  obtain ⟨s, done, hs, hcopy, hwritten, hfresh, -⟩ := hb.current hp
  have hother : ∀ m, m ≠ number → h'.pending m = h.pending m := by
    intro m hm
    rw [hpending, Function.update_of_ne hm]
  have hhere : h'.pending number = rest := by rw [hpending, Function.update_self]
  constructor
  · intro m hle
    rw [hsent] at hle
    have hlt := (List.getElem?_eq_some_iff.mp hs).1
    rw [hother m (by omega)]
    exact hb.begun m hle
  · intro m t ht
    rw [hsent] at ht
    by_cases hm : m = number
    · subst hm
      rw [hs] at ht
      rw [← Option.some.inj ht, hhere]
      refine ⟨done ++ [ws], by rw [hcopy, List.append_assoc, List.singleton_append], ?_⟩
      intro other hdone
      rw [hreceived]
      rcases List.mem_append.mp hdone with hdone | hdone
      · exact (hwritten other hdone).imp Or.inl fun hc => hclosed hc
      · rw [List.mem_singleton.mp hdone]
        by_cases hc : ws ∈ h'.closed
        · exact .inr hc
        · exact .inl (.inr ⟨rfl, rfl, hc⟩)
    · obtain ⟨part, hpart, hw⟩ := hb.progress m t ht
      refine ⟨part, by rw [hpart, hother m hm], ?_⟩
      intro other hmem
      rw [hreceived]
      exact (hw other hmem).imp Or.inl fun hc => hclosed hc
  · rw [hsent, haccepted]
    exact hb.copies
  · intro other m hm
    rw [hsent]
    rcases (hreceived other m).mp hm with hm | ⟨rfl, rfl, -⟩
    · obtain ⟨t, ht, hmem, hnot⟩ := hb.known other m hm
      refine ⟨t, ht, hmem, ?_⟩
      by_cases heq : m = number
      · subst heq
        rw [hp] at hnot
        rw [hhere]
        exact fun hrest => hnot (List.mem_cons_of_mem ws hrest)
      · rw [hother m heq]
        exact hnot
    · refine ⟨s, hs, ?_, ?_⟩
      · rw [hcopy]
        simp
      · rw [hhere]
        exact hfresh
  · exact honce

theorem sound_write (h₀ : Sound h) {ok : Bool} (ha : Allowed h (.write number ok)) :
    Sound (step h (.write number ok)) := by
  have hc := h₀.connections
  have hb := h₀.broadcasts
  rcases hp : h.pending number with _ | ⟨ws, rest⟩
  · rw [step_write_nil hp]
    exact h₀
  obtain ⟨s, done, -, -, -, -, haccepted⟩ := hb.current hp
  cases ok with
  | true =>
    have hopen : ws ∉ h.closed := by
      apply ha rfl
      rw [hp]
      rfl
    have hnew : number ∉ h.received ws := by
      intro hmem
      obtain ⟨t, -, -, hnot⟩ := hb.known ws number hmem
      rw [hp] at hnot
      exact hnot List.mem_cons_self
    rw [step_write_ok hp]
    refine ⟨⟨hc.reading, hc.accepted, hc.closed⟩, ?_⟩
    refine broadcasts_write hb hp rfl rfl rfl (fun _ => id) ?_ ?_
    · intro other m
      by_cases heq : other = ws
      · subst heq
        simp [hopen]
      · simp [heq]
    · intro other
      by_cases heq : other = ws
      · subst heq
        simp only [Function.update_self]
        exact List.nodup_append.mpr ⟨hb.once other, List.nodup_singleton number, by
          intro m hm k hk
          rw [List.mem_singleton.mp hk]
          rintro rfl
          exact hnew hm⟩
      · simp only [Function.update_of_ne heq]
        exact hb.once other
  | false =>
    rw [step_write_fails hp]
    constructor
    · exact connections_remove (h := { h with pending := Function.update h.pending number rest })
        ⟨hc.reading, hc.accepted, hc.closed⟩ haccepted
    · refine broadcasts_write hb hp rfl rfl rfl (Finset.subset_insert ws h.closed) ?_ hb.once
      intro other m
      simp [removeClient]

theorem step_sound (h₀ : Sound h) (ha : Allowed h a) : Sound (step h a) := by
  cases a with
  | connect ws => exact sound_connect h₀ ha
  | readFails ws => exact sound_readFails h₀ ha
  | broadcast payload clients =>
    cases payload with
    | none => exact h₀
    | some payload => exact sound_broadcast h₀ payload ha.1 ha.2
  | write number ok => exact sound_write h₀ ha

theorem sound_empty : Sound {} := by
  constructor
  · exact ⟨fun _ => id, fun _ => id, by simp⟩
  · exact ⟨fun _ _ => rfl, by simp, by simp, by simp, by simp⟩

theorem closed_silent (hws : ws ∈ h.closed) (ha : Allowed h a) :
    ws ∈ (step h a).closed ∧ (step h a).received ws = h.received ws := by
  cases a with
  | connect other => exact ⟨hws, rfl⟩
  | readFails other => exact ⟨Finset.mem_insert_of_mem hws, rfl⟩
  | broadcast payload clients =>
    cases payload with
    | none => exact ⟨hws, rfl⟩
    | some payload => exact ⟨hws, rfl⟩
  | write number ok =>
    rcases hp : h.pending number with _ | ⟨other, rest⟩
    · rw [step_write_nil hp]
      exact ⟨hws, rfl⟩
    cases ok with
    | true =>
      have hopen : other ∉ h.closed := by
        apply ha rfl
        rw [hp]
        rfl
      have hne : ws ≠ other := by
        rintro rfl
        exact hopen hws
      rw [step_write_ok hp]
      exact ⟨hws, Function.update_of_ne hne _ _⟩
    | false =>
      rw [step_write_fails hp]
      exact ⟨Finset.mem_insert_of_mem hws, rfl⟩

end Invariants

section Runs

variable {h : Hub} {as bs : List Action} {ws : Conn}

structure Delivers (h : Hub) : Prop where
  once : ∀ ws, (h.received ws).Nodup
  addressed : ∀ ws, ∀ number ∈ h.received ws, ∃ s, h.sent[number]? = some s ∧ ws ∈ s.clients
  reached : ∀ number s, h.sent[number]? = some s → h.pending number = [] →
    ∀ ws ∈ s.clients, ws ∈ h.clients → number ∈ h.received ws
  handled : h.clients ⊆ h.reading
  closed : ∀ ws ∈ h.accepted, ws ∉ h.clients → ws ∈ h.closed

theorem Sound.delivers (h₀ : Sound h) : Delivers h := by
  constructor
  · exact h₀.broadcasts.once
  · intro ws number hnumber
    obtain ⟨s, hs, hws, -⟩ := h₀.broadcasts.known ws number hnumber
    exact ⟨s, hs, hws⟩
  · intro number s hs hdone ws hws hclient
    obtain ⟨done, hcopy, hwritten⟩ := h₀.broadcasts.progress number s hs
    rw [hdone, List.append_nil] at hcopy
    rw [hcopy] at hws
    rcases hwritten ws hws with hreceived | hclosed
    · exact hreceived
    · exact absurd hclient ((h₀.connections.closed ws).mp hclosed).2
  · exact h₀.connections.reading
  · intro ws haccepted hnot
    exact (h₀.connections.closed ws).mpr ⟨haccepted, hnot⟩

theorem closed_run (hr : Along step Allowed h as) (hws : ws ∈ h.closed) :
    (runActions step h as).received ws = h.received ws := by
  induction as generalizing h with
  | nil => rfl
  | cons a as ih =>
    obtain ⟨hclosed, hsame⟩ := closed_silent hws hr.1
    rw [run_cons, ih hr.2 hclosed, hsame]

theorem clientCount_run (hr : Along step Allowed {} as) :
    clientCount (runActions step {} as) + (runActions step {} as).closed.card =
      (runActions step {} as).accepted.card := by
  have hc := (invariant_run (fun _ _ h₀ ha => step_sound h₀ ha) hr sound_empty).connections
  have hclosed : (runActions step {} as).closed =
      (runActions step {} as).accepted \ (runActions step {} as).clients := by
    ext ws
    rw [hc.closed, Finset.mem_sdiff]
  rw [clientCount, hclosed, Nat.add_comm]
  exact Finset.card_sdiff_add_card_eq_card (hc.reading.trans hc.accepted)

/-- In every interleaving a broadcast reaches a connection at most once, and every connection that
was registered when it started and still is when it ends; nobody else hears of it, and a
connection hears nothing more once it was closed. -/
theorem hub_run (hr : Along step Allowed {} (as ++ bs)) :
    Delivers (runActions step {} (as ++ bs)) ∧ ∀ ws ∈ (runActions step {} as).closed,
      (runActions step {} (as ++ bs)).received ws = (runActions step {} as).received ws := by
  constructor
  · exact (invariant_run (fun _ _ h₀ ha => step_sound h₀ ha) hr sound_empty).delivers
  · intro ws hws
    have hlater := closed_run (along_append.mp hr).2 hws
    simpa only [runActions, List.foldl_append] using hlater

/-- Two broadcasts to two connections at the same time. -/
def atTheSameTime : List Action :=
  [.connect 1, .connect 2, .broadcast (some "price") [1, 2], .broadcast (some "trade") [2, 1],
    .write 0 true, .write 1 true, .write 1 true, .write 0 true]

theorem hub_run_atTheSameTime :
    Delivers (runActions step {} (atTheSameTime ++ [.readFails 1, .connect 3])) ∧
      ∀ ws ∈ (runActions step {} atTheSameTime).closed,
        (runActions step {} (atTheSameTime ++ [.readFails 1, .connect 3])).received ws =
          (runActions step {} atTheSameTime).received ws :=
  hub_run (by decide)

/-- No broadcast starts before those before it have ended. -/
def OneAtATime (h : Hub) : Action → Prop
  | .broadcast (some _) _ => ∀ number < h.sent.length, h.pending number = []
  | _ => True

instance (h : Hub) : (a : Action) → Decidable (OneAtATime h a)
  | .broadcast (some _) _ =>
    inferInstanceAs (Decidable (∀ number < h.sent.length, h.pending number = []))
  | .broadcast none _ | .connect _ | .readFails _ | .write _ _ => isTrue trivial

/-- Only the last broadcast is under way, and each connection has heard of them in their order. -/
structure InOrder (h : Hub) : Prop where
  sound : Sound h
  last : ∀ number, h.pending number ≠ [] → number + 1 = h.sent.length
  ordered : ∀ ws, (h.received ws).Pairwise (· < ·)

theorem InOrder.last_write {number : ℕ} {rest : List Conn} (h₀ : InOrder h)
    (hp : h.pending number = ws :: rest) (m : ℕ)
    (hm : Function.update h.pending number rest m ≠ []) : m + 1 = h.sent.length := by
  by_cases heq : m = number
  · subst heq
    apply h₀.last m
    rw [hp]
    exact List.cons_ne_nil ws rest
  · rw [Function.update_of_ne heq] at hm
    exact h₀.last m hm

theorem inOrder_write {number : ℕ} {ok : Bool} (h₀ : InOrder h)
    (ha : Allowed h (.write number ok)) : InOrder (step h (.write number ok)) := by
  have hsound := step_sound h₀.sound ha
  rcases hp : h.pending number with _ | ⟨ws, rest⟩
  · rw [step_write_nil hp]
    exact h₀
  cases ok with
  | true =>
    rw [step_write_ok hp] at hsound ⊢
    refine ⟨hsound, h₀.last_write hp, ?_⟩
    intro other
    by_cases heq : other = ws
    · subst heq
      simp only [Function.update_self]
      refine List.pairwise_append.mpr ⟨h₀.ordered other, List.pairwise_singleton _ _, ?_⟩
      intro m hm k hk
      obtain ⟨s, hs, -, hnot⟩ := h₀.sound.broadcasts.known other m hm
      have hlt := (List.getElem?_eq_some_iff.mp hs).1
      have hlast := h₀.last number (by rw [hp]; exact List.cons_ne_nil other rest)
      have hne : m ≠ number := by
        rintro rfl
        rw [hp] at hnot
        exact hnot List.mem_cons_self
      rw [List.mem_singleton.mp hk]
      omega
    · simp only [Function.update_of_ne heq]
      exact h₀.ordered other
  | false =>
    rw [step_write_fails hp] at hsound ⊢
    exact ⟨hsound, h₀.last_write hp, h₀.ordered⟩

theorem step_inOrder {a : Action} (h₀ : InOrder h) (ha : Allowed h a) (hone : OneAtATime h a) :
    InOrder (step h a) := by
  have hsound := step_sound h₀.sound ha
  cases a with
  | connect ws => exact ⟨hsound, h₀.last, h₀.ordered⟩
  | readFails ws => exact ⟨hsound, h₀.last, h₀.ordered⟩
  | broadcast payload clients =>
    cases payload with
    | none => exact h₀
    | some payload =>
      refine ⟨hsound, ?_, h₀.ordered⟩
      intro number hpending
      simp only [step, List.length_append, List.length_singleton] at hpending ⊢
      by_cases hnew : number = h.sent.length
      · rw [hnew]
      · rw [Function.update_of_ne hnew] at hpending
        rcases lt_or_ge number h.sent.length with hlt | hge
        · exact absurd (hone number hlt) hpending
        · exact absurd (h₀.sound.broadcasts.begun number hge) hpending
  | write number ok => exact inOrder_write h₀ ha

theorem received_in_order
    (hr : Along step (fun h a => Allowed h a ∧ OneAtATime h a) {} as) (ws : Conn) :
    ((runActions step {} as).received ws).Pairwise (· < ·) := by
  have hfirst : InOrder {} := ⟨sound_empty, by simp, by simp⟩
  have hend := invariant_run (fun _ _ h₀ ha => step_inOrder h₀ ha.1 ha.2) hr hfirst
  exact hend.ordered ws

theorem received_in_order_oneByOne :
    ((runActions step {} [.connect 1, .connect 2, .broadcast (some "price") [2, 1],
      .write 0 true, .write 0 true, .readFails 2, .broadcast (some "trade") [1],
      .write 1 true]).received 1).Pairwise (· < ·) :=
  received_in_order (by decide) 1

/-- Two at the same time may reach two connections in different orders. -/
example : (runActions step {} atTheSameTime).received 1 = [0, 1] ∧
    (runActions step {} atTheSameTime).received 2 = [1, 0] := by decide

end Runs

end KeeperHub
