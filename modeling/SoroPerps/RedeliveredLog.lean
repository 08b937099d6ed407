import Mathlib.Data.List.Nodup
import Mathlib.Data.List.Basic
import SoroPerps.PagedReading

/-! # Events handed out more than once

A log lists the attempts to handle events, each with the number of writes that were carried out.
Events come in the order `before`. -/
namespace RedeliveredLog

open PagedReading (FirstsInOrder)

abbrev Log (α : Type) := List (α × ℕ)

/-- How events are handled: by `writes` writes, the first about a subject if the event has one,
the last leaving a row of its own if the event is recorded. -/
structure Handling (α κ : Type) where
  about : α → Option κ
  records : α → Bool
  writes : α → ℕ
  before : α → α → Prop

variable {α κ : Type}

def extend (log : Log α) (d : α × ℕ) : Log α := log ++ [d]

def Written (log : Log α) (e : α) : Prop := ∃ d ∈ log, d.1 = e ∧ 0 < d.2

namespace Handling

variable (H : Handling α κ)

def Completed (log : Log α) (e : α) : Prop := ∃ d ∈ log, d.1 = e ∧ H.writes e ≤ d.2

def AllCompleted (log : Log α) : Prop := ∀ d ∈ log, H.Completed log d.1

def SameSubject (d e : α) : Prop := H.about d ≠ none ∧ H.about d = H.about e

/-- The attempt does not record an event a second time. -/
def RecordsOnce (past : Log α) (d : α × ℕ) : Prop :=
  H.records d.1 = true → H.writes d.1 ≤ d.2 → ¬ H.Completed past d.1

/-- The attempt writes only after the earlier events about its subject were written. -/
def AfterEarlier (past : Log α) (d : α × ℕ) : Prop :=
  0 < d.2 → ∀ c ∈ past, H.SameSubject c.1 d.1 → H.before c.1 d.1 → Written past c.1

def Harmless (past : Log α) (d : α × ℕ) : Prop := H.RecordsOnce past d ∧ H.AfterEarlier past d

def writesAbout [DecidableEq κ] (k : κ) (log : Log α) : Log α :=
  log.filter fun d => 0 < d.2 ∧ H.about d.1 = some k

/-- The last write about a subject is not older than an event about it that has completed. -/
def Current [DecidableEq κ] (log : Log α) : Prop :=
  ∀ c ∈ log, H.Completed log c.1 → ∀ k ∈ H.about c.1, ∀ d ∈ (H.writesAbout k log).getLast?,
    ¬ H.before d.1 c.1

instance [DecidableEq α] {log : Log α} {e : α} : Decidable (Written log e) :=
  inferInstanceAs (Decidable (∃ d ∈ log, _))

instance [DecidableEq α] {log : Log α} {e : α} : Decidable (H.Completed log e) :=
  inferInstanceAs (Decidable (∃ d ∈ log, _))

instance [DecidableEq α] {log : Log α} : Decidable (H.AllCompleted log) :=
  inferInstanceAs (Decidable (∀ d ∈ log, _))

instance [DecidableEq α] [DecidableEq κ] [DecidableRel H.before] {past : Log α} {d : α × ℕ} :
    Decidable (H.Harmless past d) := by
  unfold Harmless RecordsOnce AfterEarlier SameSubject
  infer_instance

instance [DecidableEq α] [DecidableEq κ] [DecidableRel H.before] {log : Log α} :
    Decidable (H.Current log) := by
  unfold Current
  infer_instance

end Handling

section Attempts

variable {H : Handling α κ} {log past : Log α} {d : α × ℕ} {once : List α} {k : κ}

theorem run_extend : ActionRuns.runActions extend past log = past ++ log := by
  induction log generalizing past with
  | nil => simp
  | cons d log ih => rw [ActionRuns.run_cons, ih, extend, List.append_assoc, List.singleton_append]

theorem harmless_at {l₁ l₂ : Log α} (h : ActionRuns.Along extend H.Harmless [] log)
    (hsplit : log = l₁ ++ d :: l₂) : H.Harmless l₁ d := by
  rw [hsplit, ActionRuns.along_append, run_extend, List.nil_append] at h
  exact h.2.1

theorem sameSubject_of_about {c e : α} (hc : H.about c = some k) (he : H.about e = some k) :
    H.SameSubject c e := by
  constructor
  · rw [hc]
    exact Option.some_ne_none k
  · rw [hc, he]

def recorded (H : Handling α κ) (log : Log α) : Log α :=
  log.filter fun d => H.records d.1 = true ∧ H.writes d.1 ≤ d.2

theorem nodup_recorded (h : ActionRuns.Along extend H.Harmless [] log) :
    ((recorded H log).map Prod.fst).Nodup := by
  induction log using List.reverseRecOn with
  | nil => exact List.nodup_nil
  | append_singleton log d ih =>
    have hd := harmless_at h rfl
    have hlog := ih (ActionRuns.along_append.mp h).1
    by_cases hrec : H.records d.1 = true ∧ H.writes d.1 ≤ d.2
    · have hkeep : recorded H (log ++ [d]) = recorded H log ++ [d] := by simp [recorded, hrec]
      rw [hkeep, List.map_append, List.map_singleton]
      apply List.Nodup.append hlog (List.nodup_singleton _)
      intro e he hed
      obtain ⟨c, hc, rfl⟩ := List.mem_map.mp he
      simp only [recorded, List.mem_filter, decide_eq_true_eq] at hc
      rw [List.mem_singleton] at hed
      exact hd.1 hrec.1 hrec.2 ⟨c, hc.1, hed, hed ▸ hc.2.2⟩
    · have hdrop : recorded H (log ++ [d]) = recorded H log := by simp [recorded, hrec]
      rw [hdrop]
      exact hlog

variable [DecidableEq κ]

/-- What the log says, against the events it hands out listed once each and in order. -/
structure Settled (H : Handling α κ) (log : Log α) (once : List α) : Prop where
  harmless : ActionRuns.Along extend H.Harmless [] log
  current : H.Current log
  firsts : FirstsInOrder H.before (log.map Prod.fst)
  completed : H.AllCompleted log
  writes : ∀ e, 0 < H.writes e
  sorted : once.Pairwise H.before
  mem : ∀ e, e ∈ once ↔ e ∈ log.map Prod.fst

theorem Settled.earlier_mem {b : α} {l₁ l₂ : Log α} (h : Settled H log once)
    (hsplit : log = l₁ ++ d :: l₂) (hb : b ∈ once) (hne : b ≠ d.1) (hbefore : H.before b d.1) :
    b ∈ l₁.map Prod.fst := by
  have hlog : log.map Prod.fst = l₁.map Prod.fst ++ d.1 :: l₂.map Prod.fst := by
    rw [hsplit, List.map_append, List.map_cons]
  have hmem := (h.mem b).mp hb
  rw [hlog] at hmem
  rcases List.mem_append.mp hmem with hin | hin
  · exact hin
  · rcases List.mem_cons.mp hin with heq | hin
    · exact absurd heq hne
    · exact h.firsts _ _ _ hlog b hin hbefore

section Subjects

variable {b c e : α} {l₁ l₂ : Log α}

def eventsAbout (H : Handling α κ) (k : κ) (once : List α) : List α :=
  once.filter fun e => H.about e = some k

theorem mem_eventsAbout : e ∈ eventsAbout H k once ↔ e ∈ once ∧ H.about e = some k := by
  simp [eventsAbout]

theorem Settled.mem_eventsAbout_of_log (h : Settled H log once) (hd : d ∈ log)
    (hk : H.about d.1 = some k) : d.1 ∈ eventsAbout H k once :=
  mem_eventsAbout.mpr ⟨(h.mem d.1).mpr (List.mem_map_of_mem hd), hk⟩

theorem Settled.attempted (h : Settled H log once) (he : e ∈ eventsAbout H k once) :
    ∃ d ∈ log, d.1 = e ∧ H.writes e ≤ d.2 := by
  obtain ⟨d, hd, rfl⟩ := List.mem_map.mp ((h.mem e).mp (mem_eventsAbout.mp he).1)
  exact h.completed d hd

theorem Settled.eventsAbout_nil (h : Settled H log once) (hnil : H.writesAbout k log = []) :
    eventsAbout H k once = [] := by
  apply List.eq_nil_iff_forall_not_mem.mpr
  intro e he
  obtain ⟨d, hd, rfl, hle⟩ := h.attempted he
  have hwrite : d ∈ H.writesAbout k log := by
    simp only [Handling.writesAbout, List.mem_filter, decide_eq_true_eq]
    exact ⟨hd, (h.writes d.1).trans_le hle, (mem_eventsAbout.mp he).2⟩
  rw [hnil] at hwrite
  cases hwrite

theorem head_eq (h : Settled H log once) :
    ((H.writesAbout k log).map Prod.fst).head? = (eventsAbout H k once).head? := by
  rw [List.head?_map]
  cases hw : H.writesAbout k log with
  | nil =>
    rw [h.eventsAbout_nil hw]
    rfl
  | cons d rest =>
    obtain ⟨l₁, l₂, hsplit, hnone, hfirst, -⟩ := List.filter_eq_cons_iff.mp hw
    obtain ⟨hpos, hk⟩ := of_decide_eq_true hfirst
    have hd : d ∈ log := hsplit ▸ List.mem_append_right l₁ List.mem_cons_self
    have hevent := h.mem_eventsAbout_of_log hd hk
    have hsorted : (eventsAbout H k once).Pairwise H.before := h.sorted.filter _
    rw [List.head?_cons]
    cases hev : eventsAbout H k once with
    | nil =>
      rw [hev] at hevent
      cases hevent
    | cons b later =>
      have hb : b ∈ eventsAbout H k once := hev ▸ List.mem_cons_self
      obtain ⟨hbonce, hbk⟩ := mem_eventsAbout.mp hb
      rw [hev] at hevent hsorted
      by_contra hne
      have hne : b ≠ d.1 := fun heq => hne (congrArg some heq.symm)
      have hlater : d.1 ∈ later := by
        rcases List.mem_cons.mp hevent with heq | hlater
        · exact absurd heq.symm hne
        · exact hlater
      -- The earlier event was handed out before this attempt, so it was written before it.
      have hbefore : H.before b d.1 := (List.pairwise_cons.mp hsorted).1 d.1 hlater
      obtain ⟨c, hc, rfl⟩ := List.mem_map.mp (h.earlier_mem hsplit hbonce hne hbefore)
      obtain ⟨-, hafter⟩ := harmless_at h.harmless hsplit
      obtain ⟨c', hc', heq, hpos'⟩ := hafter hpos c hc (sameSubject_of_about hbk hk) hbefore
      exact hnone c' hc' (decide_eq_true ⟨hpos', heq ▸ hbk⟩)

theorem last_eq (h : Settled H log once) :
    ((H.writesAbout k log).map Prod.fst).getLast? = (eventsAbout H k once).getLast? := by
  rw [List.getLast?_map]
  cases hlast : (H.writesAbout k log).getLast? with
  | none =>
    rw [h.eventsAbout_nil (List.getLast?_eq_none_iff.mp hlast)]
    rfl
  | some d =>
    have hwrite : d ∈ H.writesAbout k log := List.mem_of_getLast? hlast
    simp only [Handling.writesAbout, List.mem_filter, decide_eq_true_eq] at hwrite
    have hevent := h.mem_eventsAbout_of_log hwrite.1 hwrite.2.2
    have hsorted : (eventsAbout H k once).Pairwise H.before := h.sorted.filter _
    rcases List.eq_nil_or_concat (eventsAbout H k once) with hev | ⟨init, b, hev⟩
    · rw [hev] at hevent
      cases hevent
    · rw [List.concat_eq_append] at hev
      have hb : b ∈ eventsAbout H k once := by simp [hev]
      rw [hev] at hevent hsorted ⊢
      rw [List.getLast?_concat]
      by_contra hne
      have hne : d.1 ≠ b := fun heq => hne (congrArg some heq)
      have hinit : d.1 ∈ init := by
        rcases List.mem_append.mp hevent with hinit | heq
        · exact hinit
        · exact absurd (List.mem_singleton.mp heq) hne
      -- The later event has completed, so the last write cannot be that of the earlier one.
      have hbefore : H.before d.1 b :=
        (List.pairwise_append.mp hsorted).2.2 d.1 hinit b (List.mem_singleton_self b)
      obtain ⟨c, hc, rfl, hle⟩ := h.attempted hb
      have hck := (mem_eventsAbout.mp hb).2
      exact h.current c hc ⟨c, hc, rfl, hle⟩ k hck d hlast hbefore

end Subjects

section CarriedThrough

/-- Every event handled once and to its end. -/
def carriedThrough (H : Handling α κ) (once : List α) : Log α := once.map fun e => (e, H.writes e)

theorem writesAbout_carriedThrough (hw : ∀ e, 0 < H.writes e) :
    (H.writesAbout k (carriedThrough H once)).map Prod.fst = eventsAbout H k once := by
  simp [Handling.writesAbout, carriedThrough, eventsAbout, List.filter_map, Function.comp_def, hw]

omit [DecidableEq κ] in
theorem recorded_carriedThrough :
    (recorded H (carriedThrough H once)).map Prod.fst = once.filter fun e => H.records e := by
  simp [recorded, carriedThrough, List.filter_map, Function.comp_def]

end CarriedThrough

theorem recorded_perm (h : Settled H log once) (hn : once.Nodup) :
    ((recorded H log).map Prod.fst).Perm (once.filter fun e => H.records e) := by
  apply (List.perm_ext_iff_of_nodup (nodup_recorded h.harmless) (hn.filter _)).mpr
  intro e
  rw [List.mem_filter, h.mem e]
  constructor
  · intro he
    obtain ⟨d, hd, rfl⟩ := List.mem_map.mp he
    simp only [recorded, List.mem_filter, decide_eq_true_eq] at hd
    exact ⟨List.mem_map_of_mem hd.1, hd.2.1⟩
  · rintro ⟨he, hrec⟩
    obtain ⟨d, hd, rfl⟩ := List.mem_map.mp he
    obtain ⟨c, hc, heq, hle⟩ := h.completed d hd
    rw [← heq] at hrec hle ⊢
    apply List.mem_map_of_mem
    simp only [recorded, List.mem_filter, decide_eq_true_eq]
    exact ⟨hc, hrec, hle⟩

end Attempts

end RedeliveredLog
