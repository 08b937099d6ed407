import Mathlib.Logic.Basic

/-! # Two runs of one program

A program over a state respects a relation when related states lead it to the same outcome: the
same failure, or the same value in related states. The rules follow the program text. -/
namespace RelatedRuns

variable {σ φ α β : Type} {R : σ → σ → Prop}

def Alike (R : σ → σ → Prop) : Except φ (α × σ) → Except φ (α × σ) → Prop
  | .ok (a, s), .ok (b, t) => a = b ∧ R s t
  | .error f, .error g => f = g
  | _, _ => False

def Respects (R : σ → σ → Prop) (x : StateT σ (Except φ) α) : Prop :=
  ∀ s t, R s t → Alike R (x.run s) (x.run t)

theorem respects_pure (a : α) : Respects R (pure a : StateT σ (Except φ) α) :=
  fun _ _ h => ⟨rfl, h⟩

theorem respects_throw (f : φ) : Respects R (fun _ => .error f : StateT σ (Except φ) α) :=
  fun _ _ _ => rfl

theorem Alike.bind {x y : Except φ (α × σ)} {k : α → StateT σ (Except φ) β} (h : Alike R x y)
    (hk : ∀ a, Respects R (k a)) :
    Alike R (x >>= fun r => (k r.1).run r.2) (y >>= fun r => (k r.1).run r.2) := by
  cases x with
  | error f =>
    cases y with
    | error g => exact h
    | ok r => exact h.elim
  | ok q =>
    cases y with
    | error g => exact h.elim
    | ok r =>
      obtain ⟨a, s⟩ := q
      obtain ⟨b, t⟩ := r
      obtain ⟨hvalue, hstate⟩ := h
      obtain rfl : a = b := hvalue
      exact hk a s t hstate

theorem respects_bind {x : StateT σ (Except φ) α} {k : α → StateT σ (Except φ) β}
    (hx : Respects R x) (hk : ∀ a, Respects R (k a)) : Respects R (x >>= k) :=
  fun s t h => (hx s t h).bind hk

theorem respects_map {x : StateT σ (Except φ) α} (f : α → β) (hx : Respects R x) :
    Respects R (f <$> x) := by
  rw [← bind_pure_comp]
  exact respects_bind hx fun a => respects_pure (f a)

theorem respects_ite {c : Prop} [Decidable c] {x y : StateT σ (Except φ) α}
    (hx : Respects R x) (hy : Respects R y) : Respects R (if c then x else y) := by
  by_cases h : c
  · rwa [if_pos h]
  · rwa [if_neg h]

/-- A read is harmless when the rest of the program uses only what related states agree on. -/
theorem respects_get {k : σ → StateT σ (Except φ) α} (hread : ∀ s t, R s t → k t = k s)
    (hk : ∀ s, Respects R (k s)) : Respects R (get >>= k) := by
  intro s t h
  have hrun : Alike R ((k s).run s) ((k s).run t) := hk s s t h
  change Alike R ((k s).run s) ((k t).run t)
  rwa [hread s t h]

theorem respects_modify {f : σ → σ} (hf : ∀ s t, R s t → R (f s) (f t)) :
    Respects R (modify f : StateT σ (Except φ) PUnit) := fun s t h => ⟨rfl, hf s t h⟩

theorem Respects.returns {x : StateT σ (Except φ) α} (hx : Respects R x) {s t s' : σ} {a : α}
    (h : R s t) (hrun : x.run s = .ok (a, s')) : ∃ t', x.run t = .ok (a, t') ∧ R s' t' := by
  have hpair := hx s t h
  rw [hrun] at hpair
  cases ht : x.run t with
  | error f =>
    rw [ht] at hpair
    exact hpair.elim
  | ok r =>
    rw [ht] at hpair
    obtain ⟨b, t'⟩ := r
    obtain ⟨hvalue, hstate⟩ := hpair
    obtain rfl : a = b := hvalue
    exact ⟨t', rfl, hstate⟩

theorem Respects.fails {x : StateT σ (Except φ) α} (hx : Respects R x) {s t : σ} {f : φ}
    (h : R s t) (hrun : x.run s = .error f) : x.run t = .error f := by
  have hpair := hx s t h
  rw [hrun] at hpair
  cases ht : x.run t with
  | error g =>
    rw [ht] at hpair
    rw [show f = g from hpair]
  | ok r =>
    rw [ht] at hpair
    exact hpair.elim

end RelatedRuns
