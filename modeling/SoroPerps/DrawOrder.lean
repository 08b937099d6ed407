import Mathlib.Algebra.Order.BigOperators.Group.List
import Mathlib.Algebra.Ring.Int.Defs
import Mathlib.Data.List.Perm.Basic

/-! # Draws on a purse

Amounts are drawn from a purse one after the other, and some draws put in instead. Whether it lasts
may depend on their order: the sum decides for the best order, what only takes for the worst. -/
namespace DrawOrder

variable {α : Type} (f : α → ℤ)

/-- Nothing is ever drawn that is not there. -/
def Covers : ℤ → List α → Prop
  | _, [] => True
  | t, x :: xs => f x ≤ t ∧ Covers (t - f x) xs

variable {f} {t : ℤ} {x : α} {xs ys : List α}

theorem covers_append :
    Covers f t (xs ++ ys) ↔ Covers f t xs ∧ Covers f (t - (xs.map f).sum) ys := by
  induction xs generalizing t with
  | nil => simp [Covers]
  | cons x xs ih =>
    rw [List.cons_append, Covers, Covers, ih, List.map_cons, List.sum_cons, Int.sub_sub, and_assoc]

theorem Covers.sum_le (h : Covers f t xs) (ht : 0 ≤ t) : (xs.map f).sum ≤ t := by
  induction xs generalizing t with
  | nil => simpa using ht
  | cons x xs ih =>
    obtain ⟨hx, hrest⟩ := h
    have hle := ih hrest (by omega)
    rw [List.map_cons, List.sum_cons]
    omega

theorem covers_of_takes_le (h : (xs.map fun x => max 0 (f x)).sum ≤ t) : Covers f t xs := by
  induction xs generalizing t with
  | nil => trivial
  | cons x xs ih =>
    have hrest : 0 ≤ (xs.map fun x => max 0 (f x)).sum := by
      apply List.sum_nonneg
      intro y hy
      obtain ⟨x, -, rfl⟩ := List.mem_map.mp hy
      exact le_max_left 0 _
    rw [List.map_cons, List.sum_cons] at h
    constructor
    · omega
    · apply ih
      omega

theorem covers_of_nonpos (ht : 0 ≤ t) (h : ∀ x ∈ xs, f x ≤ 0) : Covers f t xs := by
  induction xs generalizing t with
  | nil => trivial
  | cons x xs ih =>
    obtain ⟨hx, hrest⟩ := List.forall_mem_cons.mp h
    constructor
    · omega
    · exact ih (by omega) hrest

variable (f) in
def takes (xs : List α) : List α := xs.filter fun x => 0 < f x

variable (f) in
def gives (xs : List α) : List α := xs.filter fun x => f x ≤ 0

variable (f xs) in
theorem takes_gives_perm : (takes f xs ++ gives f xs).Perm xs := by
  have hgives : gives f xs = xs.filter fun x => !decide (0 < f x) := by
    apply List.filter_congr
    intro x _
    rw [← decide_not, decide_eq_decide, not_lt]
  rw [hgives]
  exact List.filter_append_perm _ xs

theorem sum_takes : ((takes f xs).map f).sum = (xs.map fun x => max 0 (f x)).sum := by
  induction xs with
  | nil => rfl
  | cons x xs ih =>
    unfold takes at ih ⊢
    by_cases hx : 0 < f x
    · rw [List.filter_cons_of_pos (by simpa using hx), List.map_cons, List.sum_cons, ih,
        List.map_cons, List.sum_cons, max_eq_right hx.le]
    · rw [List.filter_cons_of_neg (by simpa using hx), ih, List.map_cons, List.sum_cons,
        max_eq_left (not_lt.mp hx), zero_add]

theorem takes_of_takes : (takes f (takes f xs)) = takes f xs := by
  simp [takes, List.filter_filter]

theorem every_order_iff (ht : 0 ≤ t) :
    (∀ ys, ys.Perm xs → Covers f t ys) ↔ (xs.map fun x => max 0 (f x)).sum ≤ t := by
  constructor
  · intro h
    -- the worst order draws first
    have hworst := (covers_append.mp (h _ (takes_gives_perm f xs))).1
    rw [← sum_takes]
    exact hworst.sum_le ht
  · intro h ys hys
    apply covers_of_takes_le
    rwa [(hys.map _).sum_eq]

theorem some_order_iff (ht : 0 ≤ t) :
    (∃ ys, ys.Perm xs ∧ Covers f t ys) ↔ (xs.map f).sum ≤ t := by
  constructor
  · rintro ⟨ys, hys, hc⟩
    rw [← (hys.map f).sum_eq]
    exact hc.sum_le ht
  · intro h
    -- the best order puts in first
    refine ⟨gives f xs ++ takes f xs, List.perm_append_comm.trans (takes_gives_perm f xs), ?_⟩
    have hsum : ((takes f xs).map f).sum + ((gives f xs).map f).sum = (xs.map f).sum := by
      rw [← List.sum_append, ← List.map_append]
      exact ((takes_gives_perm f xs).map f).sum_eq
    have hgives : ∀ x ∈ gives f xs, f x ≤ 0 := by
      intro x hx
      simpa [gives] using (List.mem_filter.mp hx).2
    apply covers_append.mpr
    constructor
    · exact covers_of_nonpos ht hgives
    · apply covers_of_takes_le
      rw [← sum_takes, takes_of_takes]
      omega

end DrawOrder
