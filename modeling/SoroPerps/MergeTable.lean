import Mathlib.Data.Finmap
import Mathlib.Data.List.Basic

/-! # Tables whose rows keep what their first write fixed

Writing a row under a new key inserts it. Writing under a known key merges: some columns stay as
they were inserted, the others become those of the later write. -/
namespace MergeTable

variable {κ β : Type} [DecidableEq κ]

def upsert (merge : β → β → β) (key : β → κ) (m : Finmap (fun _ : κ => β)) (row : β) :
    Finmap (fun _ : κ => β) :=
  match m.lookup (key row) with
  | none => m.insert (key row) row
  | some old => m.insert (key row) (merge old row)

/-- Merging keeps columns of the first row and takes the others from the last. -/
structure KeepsFirst (merge : β → β → β) : Prop where
  self : ∀ a, merge a a = a
  again : ∀ a b c, merge (merge a b) c = merge a c

def resultOf (merge : β → β → β) (rows : List β) : Option β :=
  match rows.head?, rows.getLast? with
  | some first, some last => some (merge first last)
  | _, _ => none

variable {merge : β → β → β} {key : β → κ} {m : Finmap (fun _ : κ => β)} {row : β} {k : κ}

theorem lookup_upsert_new (h : m.lookup (key row) = none) :
    (upsert merge key m row).lookup k = if key row = k then some row else m.lookup k := by
  unfold upsert
  rw [h]
  by_cases hk : key row = k
  · rw [if_pos hk, ← hk, Finmap.lookup_insert]
  · rw [if_neg hk, Finmap.lookup_insert_of_ne _ (Ne.symm hk)]

theorem lookup_upsert_old {old : β} (h : m.lookup (key row) = some old) :
    (upsert merge key m row).lookup k =
      if key row = k then some (merge old row) else m.lookup k := by
  unfold upsert
  rw [h]
  by_cases hk : key row = k
  · rw [if_pos hk, ← hk, Finmap.lookup_insert]
  · rw [if_neg hk, Finmap.lookup_insert_of_ne _ (Ne.symm hk)]

theorem lookup_upsert_other (hk : key row ≠ k) :
    (upsert merge key m row).lookup k = m.lookup k := by
  cases h : m.lookup (key row) with
  | none => rw [lookup_upsert_new h, if_neg hk]
  | some old => rw [lookup_upsert_old h, if_neg hk]

section Sequences

variable {rows : List β}

theorem resultOf_concat (hm : KeepsFirst merge) : resultOf merge (rows ++ [row]) =
    some (match resultOf merge rows with
      | none => row
      | some old => merge old row) := by
  cases rows with
  | nil => simp [resultOf, hm.self]
  | cons first rest => simp [resultOf, List.getLast?_cons, hm.again]

theorem lookup_upsertAll (hm : KeepsFirst merge) : (rows.foldl (upsert merge key) ∅).lookup k =
    resultOf merge (rows.filter fun row => key row = k) := by
  induction rows using List.reverseRecOn with
  | nil => rfl
  | append_singleton rows row ih =>
    rw [List.foldl_append, List.foldl_cons, List.foldl_nil, List.filter_append]
    by_cases hk : key row = k
    · have hlast : [row].filter (fun row => key row = k) = [row] := by simp [hk]
      rw [hlast, resultOf_concat hm, ← ih]
      rw [← hk]
      cases hold : (rows.foldl (upsert merge key) ∅).lookup (key row) with
      | none => rw [lookup_upsert_new hold, if_pos rfl]
      | some old => rw [lookup_upsert_old hold, if_pos rfl]
    · have hlast : [row].filter (fun row => key row = k) = [] := by simp [hk]
      rw [hlast, List.append_nil, ← ih, lookup_upsert_other hk]

/-- Two sequences of writes leave the same table when each key sees the same first and the same
last write. -/
theorem upsertAll_congr {rows' : List β} (hm : KeepsFirst merge)
    (h : ∀ k, (rows.filter fun row => key row = k).head? =
        (rows'.filter fun row => key row = k).head? ∧
      (rows.filter fun row => key row = k).getLast? =
        (rows'.filter fun row => key row = k).getLast?) :
    rows.foldl (upsert merge key) ∅ = rows'.foldl (upsert merge key) ∅ := by
  apply Finmap.ext_lookup
  intro k
  obtain ⟨hfirst, hlast⟩ := h k
  rw [lookup_upsertAll hm, lookup_upsertAll hm, resultOf, resultOf, hfirst, hlast]

end Sequences

end MergeTable
