import Mathlib.Algebra.Ring.Int.Defs
import Mathlib.Data.List.Infix

/-! # Runs of a deterministic step function

A run applies a list of actions in order. `Along` says that every step of a run meets a condition
on the state it starts from and its action; `journal` lists what each step is labelled with. -/
namespace ActionRuns

variable {σ τ α ε : Type} (step : σ → α → σ)

def runActions (s : σ) (as : List α) : σ := as.foldl step s

def Along (P : σ → α → Prop) : σ → List α → Prop
  | _, [] => True
  | s, a :: as => P s a ∧ Along P (step s a) as

def journal (label : σ → α → ε) : σ → List α → List ε
  | _, [] => []
  | s, a :: as => label s a :: journal label (step s a) as

variable {step} {P : σ → α → Prop} {s : σ} {a : α} {as bs : List α}

instance [∀ s a, Decidable (P s a)] : Decidable (Along step P s as) := by
  induction as generalizing s with
  | nil => exact isTrue trivial
  | cons a as ih => exact instDecidableAnd

@[simp] theorem run_nil : runActions step s [] = s := rfl

@[simp] theorem run_cons : runActions step s (a :: as) = runActions step (step s a) as := rfl

theorem along_append : Along step P s (as ++ bs) ↔
    Along step P s as ∧ Along step P (runActions step s as) bs := by
  induction as generalizing s with
  | nil => simp [Along]
  | cons a as ih => simp [Along, ih, and_assoc]

theorem Along.of_prefix (h : Along step P s as) (hp : bs <+: as) : Along step P s bs := by
  obtain ⟨cs, rfl⟩ := hp
  exact (along_append.mp h).1

theorem along_of_forall (h : ∀ a ∈ as, ∀ s, P s a) : Along step P s as := by
  induction as generalizing s with
  | nil => trivial
  | cons a as ih =>
    constructor
    · exact h a List.mem_cons_self s
    · apply ih
      intro b hb
      exact h b (List.mem_cons_of_mem a hb)

theorem along_congr {Q : σ → α → Prop} (h : ∀ s a, P s a ↔ Q s a) :
    Along step P s as ↔ Along step Q s as := by
  have hPQ : P = Q := by
    funext s a
    exact propext (h s a)
  rw [hPQ]

/-- An invariant that every admissible step preserves holds after every admissible run. -/
theorem invariant_run {Inv : σ → Prop} (hstep : ∀ s a, Inv s → P s a → Inv (step s a))
    (h : Along step P s as) (hs : Inv s) : Inv (runActions step s as) := by
  induction as generalizing s with
  | nil => exact hs
  | cons a as ih =>
    have hs' : Inv (step s a) := hstep s a hs h.1
    exact ih h.2 hs'

theorem Along.imp_of_invariant {Inv : σ → Prop} {Q R : σ → α → Prop}
    (hstep : ∀ s a, Inv s → P s a → Inv (step s a))
    (himp : ∀ s a, Inv s → P s a → Q s a → R s a) (h : Along step P s as) (hs : Inv s)
    (hq : Along step Q s as) : Along step R s as := by
  induction as generalizing s with
  | nil => trivial
  | cons a as ih =>
    have hs' : Inv (step s a) := hstep s a hs h.1
    exact ⟨himp s a hs h.1 hq.1, ih h.2 hs' hq.2⟩

/-- An invariant of the state and the labels so far, kept by each step together with its label. -/
theorem history_run {Inv : σ → List ε → Prop} {label : σ → α → ε} {past : List ε}
    (hstep : ∀ s a es, Inv s es → P s a → Inv (step s a) (es ++ [label s a]))
    (h : Along step P s as) (hs : Inv s past) :
    Inv (runActions step s as) (past ++ journal step label s as) := by
  induction as generalizing s past with
  | nil => simpa [journal] using hs
  | cons a as ih =>
    have hs' := hstep s a past hs h.1
    simpa [journal] using ih h.2 hs'

/-- A property that an admissible step keeps when it meets `Q`, and breaks when it does not, holds
all along a run exactly when every step meets `Q`. -/
theorem all_prefixes_iff (Inv Good : σ → Prop) {Q : σ → α → Prop}
    (hstep : ∀ s a, Inv s → P s a → Inv (step s a))
    (hkeep : ∀ s a, Inv s → P s a → Good s → Q s a → Good (step s a))
    (hbreak : ∀ s a, Inv s → P s a → ¬ Q s a → ¬ Good (step s a))
    (h : Along step P s as) (hs : Inv s) (hg : Good s) :
    (∀ bs, bs <+: as → Good (runActions step s bs)) ↔ Along step Q s as := by
  induction as generalizing s with
  | nil =>
    constructor
    · intro _
      trivial
    · intro _ bs hbs
      rw [List.prefix_nil.mp hbs]
      exact hg
  | cons a as ih =>
    have hs' := hstep s a hs h.1
    constructor
    · intro hall
      have hfirst : Good (step s a) := hall [a] ⟨as, rfl⟩
      have hq : Q s a := by
        by_contra hq
        exact hbreak s a hs h.1 hq hfirst
      refine ⟨hq, (ih h.2 hs' hfirst).mp ?_⟩
      intro bs hbs
      exact hall (a :: bs) (List.prefix_cons_inj a |>.mpr hbs)
    · rintro ⟨hq, hrest⟩ bs hbs
      cases bs with
      | nil => exact hg
      | cons b bs =>
        obtain ⟨rfl, htail⟩ := List.cons_prefix_cons.mp hbs
        exact (ih h.2 hs' (hkeep s b hs h.1 hg hq)).mpr hrest bs htail

theorem run_sum (measure : σ → ℤ) (change : ε → ℤ) {Inv : σ → Prop} {label : σ → α → ε}
    (hstep : ∀ s a, Inv s → P s a →
      Inv (step s a) ∧ measure (step s a) = measure s + change (label s a))
    (h : Along step P s as) (hs : Inv s) :
    measure (runActions step s as) =
      measure s + ((journal step label s as).map change).sum := by
  induction as generalizing s with
  | nil => simp [journal]
  | cons a as ih =>
    obtain ⟨hs', hm⟩ := hstep s a hs h.1
    rw [run_cons, ih h.2 hs', hm, journal, List.map_cons, List.sum_cons, Int.add_assoc]

theorem journal_forall {Inv : σ → Prop} {R : ε → Prop} {label : σ → α → ε}
    (hstep : ∀ s a, Inv s → P s a → Inv (step s a) ∧ R (label s a))
    (h : Along step P s as) (hs : Inv s) : ∀ e ∈ journal step label s as, R e := by
  induction as generalizing s with
  | nil => simp [journal]
  | cons a as ih =>
    obtain ⟨hs', hR⟩ := hstep s a hs h.1
    intro e he
    rcases List.mem_cons.mp he with rfl | he
    · exact hR
    · exact ih h.2 hs' e he

/-- Forward simulation: when each step is matched by the step of the abstract machine on its
label, a run is matched by the abstract run over its journal. -/
theorem run_simulates {Inv : σ → Prop} {abs : σ → τ} {label : σ → α → ε} {post : τ → ε → τ}
    (hstep : ∀ s a, Inv s → P s a → Inv (step s a) ∧ abs (step s a) = post (abs s) (label s a))
    (h : Along step P s as) (hs : Inv s) :
    abs (runActions step s as) = runActions post (abs s) (journal step label s as) := by
  induction as generalizing s with
  | nil => rfl
  | cons a as ih =>
    obtain ⟨hs', ha⟩ := hstep s a hs h.1
    rw [run_cons, ih h.2 hs', ha, journal, run_cons]

/-- When hidden actions lead to related states only and the others keep states related, a run may
be purged of its hidden actions. -/
theorem purge_run {R : σ → σ → Prop} (hidden : α → Prop) [DecidablePred hidden] {t : σ}
    (hhide : ∀ s t a, R s t → hidden a → R (step s a) t)
    (hshow : ∀ s t, ∀ a ∈ as, R s t → ¬ hidden a → R (step s a) (step t a)) (h : R s t) :
    R (runActions step s as) (runActions step t (as.filter fun a => ¬ hidden a)) := by
  induction as generalizing s t with
  | nil => exact h
  | cons a as ih =>
    have hrest : ∀ s t, ∀ b ∈ as, R s t → ¬ hidden b → R (step s b) (step t b) :=
      fun s t b hb => hshow s t b (List.mem_cons_of_mem a hb)
    by_cases ha : hidden a
    · rw [List.filter_cons_of_neg (by simpa using ha)]
      exact ih hrest (hhide s t a h ha)
    · rw [List.filter_cons_of_pos (by simpa using ha)]
      exact ih hrest (hshow s t a List.mem_cons_self h ha)

end ActionRuns
