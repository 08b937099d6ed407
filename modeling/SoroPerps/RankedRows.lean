import Mathlib.Data.List.Sort
import Mathlib.Data.List.TakeDrop

/-! # Rows listed from the greatest key down

Rows of equal keys may be listed in any order, so the keys settle which rows come first only up to
ties. A row can come among the first `n` exactly when fewer than `n` rows have a greater key. -/
namespace RankedRows

open scoped List

variable {α β : Type} [LinearOrder β] {key : α → β} {rows listed : List α} {a : α} {n : ℕ}

def Descending (key : α → β) (listed : List α) : Prop :=
  listed.Pairwise fun a b => key b ≤ key a

/-- A way to list any rows in descending order of their keys. -/
structure Listing (key : α → β) (orderBy : List α → List α) : Prop where
  perm : ∀ rows, orderBy rows ~ rows
  descending : ∀ rows, Descending key (orderBy rows)

def stableListing (key : α → β) (rows : List α) : List α :=
  rows.mergeSort fun a b => decide (key b ≤ key a)

theorem listing_stableListing (key : α → β) : Listing key (stableListing key) where
  perm _ := List.mergeSort_perm _ _
  descending rows := by
    apply (List.pairwise_mergeSort _ _ rows).imp
    · intro a b h
      exact of_decide_eq_true h
    · intro a b c hab hbc
      rw [decide_eq_true_eq] at *
      exact hbc.trans hab
    · intro a b
      simpa using le_total (key b) (key a)

theorem Listing.update [DecidableEq (List α)] {orderBy : List α → List α}
    (h : Listing key orderBy) (hperm : listed ~ rows) (hdescending : Descending key listed) :
    Listing key (Function.update orderBy rows listed) where
  perm other := by
    by_cases hother : other = rows
    · rw [hother, Function.update_self]
      exact hperm
    · rw [Function.update_of_ne hother]
      exact h.perm other
  descending other := by
    by_cases hother : other = rows
    · rw [hother, Function.update_self]
      exact hdescending
    · rw [Function.update_of_ne hother]
      exact h.descending other

def rank (key : α → β) (rows : List α) (a : α) : ℕ := rows.countP fun b => key a < key b

theorem rank_perm (h : listed ~ rows) : rank key listed a = rank key rows a := h.countP_eq _

theorem rank_lt_of_mem_take (h : Descending key listed) (ha : a ∈ listed.take n) :
    rank key listed a < n := by
  obtain ⟨before, between, htake⟩ := List.append_of_mem ha
  have hlisted : listed = before ++ a :: (between ++ listed.drop n) := by
    conv_lhs => rw [← List.take_append_drop n listed, htake]
    simp
  have hbefore : before.length < n := by
    have hlength : (before ++ a :: between).length ≤ n := htake ▸ List.length_take_le n listed
    rw [List.length_append, List.length_cons] at hlength
    omega
  -- no row from `a` on has a greater key
  have hrest : (a :: (between ++ listed.drop n)).countP (fun b => key a < key b) = 0 := by
    rw [Descending, hlisted] at h
    have hfrom := (List.pairwise_append.mp h).2.1
    rw [List.countP_eq_zero]
    intro b hb
    rw [decide_eq_true_eq, not_lt]
    rcases List.mem_cons.mp hb with rfl | hb
    · exact le_rfl
    · exact List.rel_of_pairwise_cons hfrom hb
  calc rank key listed a = before.countP (fun b => key a < key b) + 0 := by
        rw [← hrest, ← List.countP_append, ← hlisted, rank]
    _ ≤ before.length := List.countP_le_length
    _ < n := hbefore

/-- The rows above `a`, then `a` before all others of its key, then the rest. -/
theorem exists_descending (ha : a ∈ rows) (h : rank key rows a < n) :
    ∃ listed, listed ~ rows ∧ Descending key listed ∧ a ∈ listed.take n := by
  let above := rows.filter fun b => key a < key b
  obtain ⟨s, t, hrest⟩ := List.append_of_mem
    (List.mem_filter.mpr ⟨ha, by simp⟩ : a ∈ rows.filter fun b => !decide (key a < key b))
  have hlisting := listing_stableListing key
  have habove : ∀ b ∈ stableListing key above, key a < key b := by
    intro b hb
    have hmem : b ∈ above := (hlisting.perm above).mem_iff.mp hb
    simpa using (List.mem_filter.mp hmem).2
  have hbelow : ∀ b ∈ stableListing key (s ++ t), key b ≤ key a := by
    intro b hb
    have hmem : b ∈ s ++ a :: t := by
      rcases List.mem_append.mp ((hlisting.perm (s ++ t)).mem_iff.mp hb) with hb | hb
      · exact List.mem_append_left _ hb
      · exact List.mem_append_right _ (List.mem_cons_of_mem a hb)
    rw [← hrest] at hmem
    simpa using (List.mem_filter.mp hmem).2
  refine ⟨stableListing key above ++ a :: stableListing key (s ++ t), ?_, ?_, ?_⟩
  · calc stableListing key above ++ a :: stableListing key (s ++ t)
      _ ~ above ++ a :: (s ++ t) := (hlisting.perm above).append ((hlisting.perm (s ++ t)).cons a)
      _ ~ above ++ (s ++ a :: t) := List.perm_middle.symm.append_left above
      _ ~ rows := by
          rw [← hrest]
          exact List.filter_append_perm _ rows
  · refine List.pairwise_append.mpr ⟨hlisting.descending above, ?_, ?_⟩
    · exact List.pairwise_cons.mpr ⟨hbelow, hlisting.descending (s ++ t)⟩
    · intro b hb c hc
      rcases List.mem_cons.mp hc with rfl | hc
      · exact (habove b hb).le
      · exact (hbelow c hc).trans (habove b hb).le
  · have hlength : (stableListing key above).length < n := by
      rwa [(hlisting.perm above).length_eq, ← List.countP_eq_length_filter]
    rw [List.take_append, List.mem_append]
    right
    obtain ⟨m, hm⟩ := Nat.exists_eq_succ_of_ne_zero (Nat.sub_ne_zero_of_lt hlength)
    rw [hm, List.take_succ_cons]
    exact List.mem_cons_self

theorem mem_take_listing_iff : (∃ orderBy, Listing key orderBy ∧ a ∈ (orderBy rows).take n) ↔
    a ∈ rows ∧ rank key rows a < n := by
  constructor
  · rintro ⟨orderBy, h, ha⟩
    have hperm := h.perm rows
    constructor
    · exact hperm.mem_iff.mp (List.mem_of_mem_take ha)
    · rw [← rank_perm hperm]
      exact rank_lt_of_mem_take (h.descending rows) ha
  · rintro ⟨ha, h⟩
    classical
    obtain ⟨listed, hperm, hdescending, hmem⟩ := exists_descending ha h
    refine ⟨Function.update (stableListing key) rows listed, ?_, ?_⟩
    · exact (listing_stableListing key).update hperm hdescending
    · rwa [Function.update_self]

section Latest

variable {served : List α}

/-- The first rows of some listing: in descending order, and with no greater key left out. -/
structure Latest (key : α → β) (rows : List α) (n : ℕ) (served : List α) : Prop where
  descending : Descending key served
  length : served.length = min n rows.length
  others : ∃ rest, served ++ rest ~ rows ∧ ∀ a ∈ served, ∀ b ∈ rest, key b ≤ key a

theorem latest_take {orderBy : List α → List α} (h : Listing key orderBy) :
    Latest key rows n ((orderBy rows).take n) := by
  have hperm := h.perm rows
  have hdescending := h.descending rows
  refine ⟨hdescending.sublist (List.take_sublist _ _), ?_, (orderBy rows).drop n, ?_, ?_⟩
  · rw [List.length_take, hperm.length_eq]
  · rwa [List.take_append_drop]
  · rw [← List.take_append_drop n (orderBy rows)] at hdescending
    exact (List.pairwise_append.mp hdescending).2.2

theorem Latest.subset (h : Latest key rows n served) : served ⊆ rows := by
  obtain ⟨rest, hperm, -⟩ := h.others
  intro a ha
  exact hperm.subset (List.mem_append_left rest ha)

/-- What a limited query may answer, over all orders of rows of equal keys. -/
theorem latest_iff : Latest key rows n served ↔
    ∃ orderBy, Listing key orderBy ∧ (orderBy rows).take n = served := by
  constructor
  · rintro ⟨hdescending, hlength, rest, hperm, hkeys⟩
    classical
    have hlisting := listing_stableListing key
    let listed := served ++ stableListing key rest
    have hrows : listed ~ rows := ((hlisting.perm rest).append_left served).trans hperm
    have hsorted : Descending key listed := by
      refine List.pairwise_append.mpr ⟨hdescending, hlisting.descending rest, ?_⟩
      intro a ha b hb
      exact hkeys a ha b ((hlisting.perm rest).mem_iff.mp hb)
    refine ⟨_, hlisting.update hrows hsorted, ?_⟩
    rw [Function.update_self]
    by_cases hle : n ≤ rows.length
    · rw [List.take_left' (hlength.trans (min_eq_left hle))]
    · have hall : served.length = rows.length := hlength.trans (min_eq_right (by omega))
      have hnone : stableListing key rest = [] := by
        have htotal := hrows.length_eq
        rw [List.length_append] at htotal
        exact List.length_eq_zero_iff.mp (by omega)
      have hlisted : listed = served := by rw [← List.append_nil served, ← hnone]
      rw [hlisted, List.take_of_length_le (by omega)]
  · rintro ⟨orderBy, h, rfl⟩
    exact latest_take h

end Latest

end RankedRows
