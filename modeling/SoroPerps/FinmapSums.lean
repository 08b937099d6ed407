import Mathlib.Data.Finmap
import Mathlib.Algebra.BigOperators.Group.Multiset.Basic
import Mathlib.Algebra.BigOperators.Ring.Multiset
import Mathlib.Algebra.Order.BigOperators.Group.Multiset
import Mathlib.Algebra.Ring.Int.Defs
import Mathlib.Data.Finset.Sort

/-! # Sums and counts over the entries of a finite map -/
namespace FinmapSums

variable {κ β : Type} [DecidableEq κ]

def sumBy (f : κ → β → ℤ) (m : Finmap (fun _ : κ => β)) : ℤ :=
  (m.entries.map fun e => f e.1 e.2).sum

variable {f g : κ → β → ℤ} {m : Finmap (fun _ : κ => β)} {k : κ} {b c : β}

omit [DecidableEq κ] in
@[simp] theorem sumBy_empty : sumBy f (∅ : Finmap (fun _ : κ => β)) = 0 := rfl

theorem sumBy_insert_new (h : m.lookup k = none) :
    sumBy f (m.insert k b) = sumBy f m + f k b := by
  have hk : k ∉ m := Finmap.lookup_eq_none.mp h
  simp [sumBy, Finmap.entries_insert_of_notMem hk, add_comm]

theorem mem_entries : ⟨k, b⟩ ∈ m.entries ↔ m.lookup k = some b := by
  induction m using Finmap.induction_on with
  | H s => exact AList.mem_lookup_iff.symm

theorem insert_erase_self (h : m.lookup k = some b) : (m.erase k).insert k b = m := by
  apply Finmap.ext_lookup
  intro k'
  by_cases hk : k' = k
  · subst hk
    rw [Finmap.lookup_insert, h]
  · rw [Finmap.lookup_insert_of_ne _ hk, Finmap.lookup_erase_ne hk]

theorem sumBy_erase (h : m.lookup k = some b) : sumBy f (m.erase k) = sumBy f m - f k b := by
  have hsum := sumBy_insert_new (f := f) (b := b) (Finmap.lookup_erase k m)
  rw [insert_erase_self h] at hsum
  omega

theorem insert_erase (m : Finmap (fun _ : κ => β)) (k : κ) (c : β) :
    (m.erase k).insert k c = m.insert k c := by
  apply Finmap.ext_lookup
  intro k'
  by_cases hk : k' = k
  · subst hk
    rw [Finmap.lookup_insert, Finmap.lookup_insert]
  · rw [Finmap.lookup_insert_of_ne _ hk, Finmap.lookup_insert_of_ne _ hk,
      Finmap.lookup_erase_ne hk]

theorem sumBy_insert (f : κ → β → ℤ) (m : Finmap (fun _ : κ => β)) (k : κ) (c : β) :
    sumBy f (m.insert k c) = sumBy f m + f k c - ((m.lookup k).map (f k)).getD 0 := by
  cases h : m.lookup k with
  | none => simp [sumBy_insert_new h]
  | some b =>
    have hsum := sumBy_insert_new (f := f) (b := c) (Finmap.lookup_erase k m)
    rw [insert_erase, sumBy_erase h] at hsum
    simp only [Option.map_some, Option.getD_some]
    omega

theorem sumBy_congr (h : ∀ k b, m.lookup k = some b → f k b = g k b) : sumBy f m = sumBy g m := by
  unfold sumBy
  rw [Multiset.map_congr rfl]
  rintro ⟨k, b⟩ he
  exact h k b (mem_entries.mp he)

theorem sumBy_nonneg (h : ∀ k b, m.lookup k = some b → 0 ≤ f k b) : 0 ≤ sumBy f m := by
  apply Multiset.sum_nonneg
  intro x hx
  obtain ⟨⟨k, b⟩, he, rfl⟩ := Multiset.mem_map.mp hx
  exact h k b (mem_entries.mp he)

omit [DecidableEq κ] in
theorem sumBy_add (f g : κ → β → ℤ) (m : Finmap (fun _ : κ => β)) :
    sumBy (fun k b => f k b + g k b) m = sumBy f m + sumBy g m := by
  simp [sumBy, Multiset.sum_map_add]

theorem sumBy_le_mul {x : ℤ} (h : ∀ k b, m.lookup k = some b → f k b ≤ x * g k b) :
    sumBy f m ≤ x * sumBy g m := by
  unfold sumBy
  rw [← Multiset.sum_map_mul_left]
  apply Multiset.sum_map_le_sum_map
  rintro ⟨k, b⟩ he
  exact h k b (mem_entries.mp he)

theorem lookup_of_erase {k' : κ} (h : (m.erase k).lookup k' = some b) :
    m.lookup k' = some b := by
  by_cases hk : k' = k
  · subst hk
    rw [Finmap.lookup_erase] at h
    cases h
  · rwa [Finmap.lookup_erase_ne hk] at h

theorem lookup_of_insert {k' : κ} (h : (m.insert k c).lookup k' = some b) :
    (k' = k ∧ b = c) ∨ m.lookup k' = some b := by
  by_cases hk : k' = k
  · subst hk
    rw [Finmap.lookup_insert] at h
    exact .inl ⟨rfl, (Option.some.inj h).symm⟩
  · rw [Finmap.lookup_insert_of_ne _ hk] at h
    exact .inr h

theorem le_sumBy (h : ∀ k b, m.lookup k = some b → 0 ≤ f k b) (hk : m.lookup k = some b) :
    f k b ≤ sumBy f m := by
  have hrest : 0 ≤ sumBy f (m.erase k) := by
    apply sumBy_nonneg
    intro k' b' hb'
    exact h k' b' (lookup_of_erase hb')
  rw [sumBy_erase hk] at hrest
  omega

section Counts

variable (P : κ → Prop) [DecidablePred P]

def countKeys (m : Finmap (fun _ : κ => β)) : ℕ := (m.keys.filter P).card

omit [DecidableEq κ] in
@[simp] theorem countKeys_empty : countKeys P (∅ : Finmap (fun _ : κ => β)) = 0 := by
  simp [countKeys]

theorem countKeys_insert_new (h : m.lookup k = none) :
    countKeys P (m.insert k b) = countKeys P m + if P k then 1 else 0 := by
  have hk : k ∉ m := Finmap.lookup_eq_none.mp h
  have hkeys : (m.insert k b).keys = insert k m.keys := by
    ext j
    simp [Finmap.mem_keys, Finmap.mem_insert]
  have hnew : k ∉ m.keys.filter P := by
    intro hmem
    exact hk (Finmap.mem_keys.mp (Finset.mem_filter.mp hmem).1)
  unfold countKeys
  rw [hkeys, Finset.filter_insert]
  by_cases hP : P k
  · rw [if_pos hP, if_pos hP, Finset.card_insert_of_notMem hnew]
  · rw [if_neg hP, if_neg hP, Nat.add_zero]

theorem countKeys_erase (h : m.lookup k = some b) :
    countKeys P (m.erase k) = countKeys P m - if P k then 1 else 0 := by
  have hcount := countKeys_insert_new (b := b) P (Finmap.lookup_erase k m)
  rw [insert_erase_self h] at hcount
  omega

end Counts

section Scans

variable [LinearOrder κ]

/-- The values of `m` in the order of their keys. -/
def scan (m : Finmap (fun _ : κ => β)) : List β := (m.keys.sort (· ≤ ·)).filterMap m.lookup

theorem mem_scan : b ∈ scan m ↔ ∃ k, m.lookup k = some b := by
  unfold scan
  rw [List.mem_filterMap]
  constructor
  · rintro ⟨k, -, hk⟩
    exact ⟨k, hk⟩
  · rintro ⟨k, hk⟩
    have hmem : k ∈ m := Finmap.lookup_isSome.mp (by rw [hk]; rfl)
    exact ⟨k, (Finset.mem_sort _).mpr (Finmap.mem_keys.mpr hmem), hk⟩

theorem nodup_scan {key : β → κ} (h : ∀ k b, m.lookup k = some b → key b = k) :
    (scan m).Nodup := by
  apply List.Nodup.filterMap _ (Finset.sort_nodup _ _)
  intro k k' b hk hk'
  rw [← h k b hk, ← h k' b hk']

omit [LinearOrder κ] in
theorem filterMap_lookup {s : Multiset (Sigma fun _ : κ => β)}
    (h : ∀ e ∈ s, m.lookup e.1 = some e.2) :
    (s.map Sigma.fst).filterMap m.lookup = s.map Sigma.snd := by
  induction s using Multiset.induction_on with
  | empty => rfl
  | cons e s ih =>
    have he : m.lookup e.1 = some e.2 := h e (Multiset.mem_cons_self e s)
    have hs := ih fun e' he' => h e' (Multiset.mem_cons_of_mem he')
    rw [Multiset.map_cons, Multiset.filterMap_cons_some (fun a => m.lookup a) _ _ he, hs,
      Multiset.map_cons]

theorem sum_scan (g : β → ℤ) : ((scan m).map g).sum = sumBy (fun _ b => g b) m := by
  have hkeys : (↑(m.keys.sort (· ≤ ·)) : Multiset κ) = m.entries.map Sigma.fst :=
    Finset.sort_eq _ _
  have hvalues : (↑(scan m) : Multiset β) = m.entries.map Sigma.snd := by
    unfold scan
    rw [← Multiset.filterMap_coe, hkeys]
    exact filterMap_lookup fun e he => mem_entries.mp he
  rw [← Multiset.sum_coe, ← Multiset.map_coe, hvalues, Multiset.map_map]
  rfl

theorem sum_scan_filter (P : β → Prop) [DecidablePred P] (g : β → ℤ) :
    (((scan m).filter fun b => P b).map g).sum =
      sumBy (fun _ b => if P b then g b else 0) m := by
  rw [← sum_scan]
  induction scan m with
  | nil => rfl
  | cons b bs ih =>
    by_cases hb : P b
    · simp [hb, ih]
    · simp [hb, ih]

end Scans

end FinmapSums
