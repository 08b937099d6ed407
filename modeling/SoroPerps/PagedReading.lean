import Mathlib.Data.List.Infix
import Mathlib.Data.List.Nodup
import Mathlib.Data.Int.Order.Basic
import SoroPerps.ActionRuns

/-! # Reading a growing sequence in pages

Items arrive in the order of their keys. A reader fetches the first `limit` items whose key is at
least its mark, and may then move the mark to the latest key known. What it never fetches below
its mark is lost for good. -/
namespace PagedReading

variable {α : Type} (key : α → ℤ) (limit : ℕ)

def page (start : ℤ) (items : List α) : List α :=
  (items.filter fun x => start ≤ key x).take limit

structure Reading (α : Type) where
  items : List α
  latest : ℤ
  mark : ℤ
  seen : List α

inductive Move (α : Type) where
  | publish (batch : List α) (latest : ℤ)
  | read (advance : Bool)
  | idle

def move (r : Reading α) : Move α → Reading α
  | .publish batch latest => { r with items := r.items ++ batch, latest := latest }
  | .read advance =>
    { r with
      seen := r.seen ++ page key limit r.mark r.items
      mark := if advance ∧ r.mark < r.latest then r.latest else r.mark }
  | .idle => r

def Proper (r : Reading α) : Move α → Prop
  | .publish batch latest => r.latest ≤ latest ∧ batch.Nodup ∧
    batch.Pairwise (fun x y => key x ≤ key y) ∧ ∀ x ∈ batch, r.latest < key x ∧ key x ≤ latest
  | _ => True

/-- The page of a read that moves the mark has room for everything the mark passes. -/
def Enough (r : Reading α) : Move α → Prop
  | .read true => r.mark < r.latest →
    (r.items.filter fun x => r.mark ≤ key x ∧ key x < r.latest).length ≤ limit
  | _ => True

def NothingLost (r : Reading α) : Prop := ∀ x ∈ r.items, key x < r.mark → x ∈ r.seen

structure Ordered (r : Reading α) : Prop where
  sorted : r.items.Pairwise fun x y => key x ≤ key y
  nodup : r.items.Nodup
  known : ∀ x ∈ r.items, key x ≤ r.latest
  mark : r.mark ≤ r.latest
  seen : ∀ x ∈ r.seen, r.mark ≤ key x → x ∈ page key limit r.mark r.items

section Pages

variable {key limit} {items batch : List α} {x : α} {start bound : ℤ}

theorem filter_below : (items.filter fun x => start ≤ key x).filter (fun x => key x < bound) =
    items.filter fun x => start ≤ key x ∧ key x < bound := by
  simp [List.filter_filter, Bool.and_comm]

theorem mem_of_mem_page (h : x ∈ page key limit start items) : x ∈ items ∧ start ≤ key x := by
  have hmem := List.mem_of_mem_take h
  simpa using hmem

theorem mem_page (hs : items.Pairwise fun x y => key x ≤ key y)
    (hroom : (items.filter fun x => start ≤ key x ∧ key x < bound).length ≤ limit)
    (hx : x ∈ items) (hstart : start ≤ key x) (hbound : key x < bound) :
    x ∈ page key limit start items := by
  let rest := items.filter fun x => start ≤ key x
  have hrest : x ∈ rest := List.mem_filter.mpr ⟨hx, decide_eq_true hstart⟩
  have hsorted : rest.Pairwise fun x y => key x ≤ key y := hs.filter _
  have hcount : (rest.filter fun x => key x < bound).length ≤ limit := by
    rw [filter_below]
    exact hroom
  rw [← List.take_append_drop limit rest] at hrest hsorted hcount
  rcases List.mem_append.mp hrest with htake | hdrop
  · exact htake
  -- Otherwise the page is full, of items no later than `x`, and `x` itself makes one too many.
  · have hfull : (rest.take limit).length = limit := by
      have hpos := List.length_pos_of_mem hdrop
      rw [List.length_drop] at hpos
      rw [List.length_take]
      omega
    have hbefore := (List.pairwise_append.mp hsorted).2.2
    have hall : (rest.take limit).filter (fun x => key x < bound) = rest.take limit := by
      apply List.filter_eq_self.mpr
      intro y hy
      exact decide_eq_true ((hbefore y hy x hdrop).trans_lt hbound)
    have hone : 0 < ((rest.drop limit).filter fun x => key x < bound).length :=
      List.length_pos_of_mem (List.mem_filter.mpr ⟨hdrop, decide_eq_true hbound⟩)
    rw [List.filter_append, List.length_append, hall, hfull] at hcount
    omega

theorem exists_not_mem_page (hn : items.Nodup)
    (hroom : limit < (items.filter fun x => start ≤ key x ∧ key x < bound).length) :
    ∃ x ∈ items, start ≤ key x ∧ key x < bound ∧ x ∉ page key limit start items := by
  let rest := items.filter fun x => start ≤ key x
  have hcount : limit < (rest.filter fun x => key x < bound).length := by
    rw [filter_below]
    exact hroom
  have htake : ((rest.take limit).filter fun x => key x < bound).length ≤ limit :=
    (List.length_filter_le _ _).trans (List.length_take_le _ _)
  rw [← List.take_append_drop limit rest, List.filter_append, List.length_append] at hcount
  have hpos : 0 < ((rest.drop limit).filter fun x => key x < bound).length := by omega
  obtain ⟨x, hx⟩ := List.exists_mem_of_length_pos hpos
  obtain ⟨hdrop, hbound⟩ := List.mem_filter.mp hx
  obtain ⟨hitem, hstart⟩ := List.mem_filter.mp (List.mem_of_mem_drop hdrop)
  refine ⟨x, hitem, of_decide_eq_true hstart, of_decide_eq_true hbound, ?_⟩
  intro hpage
  exact List.disjoint_take_drop (hn.filter _) (le_refl limit) hpage hdrop

theorem page_append (h : x ∈ page key limit start items) :
    x ∈ page key limit start (items ++ batch) := by
  unfold page at h ⊢
  rw [List.filter_append]
  exact (List.prefix_append _ _).take limit |>.subset h

theorem page_later (h : x ∈ page key limit start items) (hle : start ≤ bound)
    (hx : bound ≤ key x) : x ∈ page key limit bound items := by
  let rest := items.filter fun x => start ≤ key x
  have hsame : items.filter (fun x => bound ≤ key x) = rest.filter fun x => bound ≤ key x := by
    rw [List.filter_filter]
    apply List.filter_congr
    intro y _
    by_cases hy : bound ≤ key y
    · simp [hy, hle.trans hy]
    · simp [hy]
  have hprefix : (rest.take limit).filter (fun x => bound ≤ key x) <+:
      (rest.filter fun x => bound ≤ key x).take limit := by
    rw [List.prefix_take_iff]
    exact ⟨(List.take_prefix limit rest).filter _,
      (List.length_filter_le _ _).trans (List.length_take_le _ _)⟩
  unfold page
  rw [hsame]
  exact hprefix.subset (List.mem_filter.mpr ⟨h, decide_eq_true hx⟩)

end Pages

section Moves

variable {key limit} {r : Reading α} {m : Move α}

theorem ordered_move (h : Ordered key limit r) (hp : Proper key r m) :
    Ordered key limit (move key limit r m) := by
  cases m with
  | publish batch latest =>
    obtain ⟨hle, hn, hs, hnew⟩ := hp
    constructor
    · apply List.pairwise_append.mpr
      refine ⟨h.sorted, hs, ?_⟩
      intro x hx y hy
      exact (h.known x hx).trans (hnew y hy).1.le
    · apply List.Nodup.append h.nodup hn
      intro x hx hy
      have hold := h.known x hx
      have hlt := (hnew x hy).1
      omega
    · intro x hx
      rcases List.mem_append.mp hx with hx | hx
      · exact (h.known x hx).trans hle
      · exact (hnew x hx).2
    · exact h.mark.trans hle
    · intro x hx hmark
      exact page_append (h.seen x hx hmark)
  | read advance =>
    have hseen : ∀ x ∈ r.seen ++ page key limit r.mark r.items, r.mark ≤ key x →
        x ∈ page key limit r.mark r.items := by
      intro x hx hmark
      rcases List.mem_append.mp hx with hx | hx
      · exact h.seen x hx hmark
      · exact hx
    by_cases hmove : advance ∧ r.mark < r.latest
    · refine ⟨h.sorted, h.nodup, h.known, ?_, ?_⟩
      · simp [move, hmove]
      · intro x hx hmark
        simp only [move, if_pos hmove] at hx hmark ⊢
        have hle : r.mark ≤ r.latest := h.mark
        exact page_later (hseen x hx (hle.trans hmark)) hle hmark
    · refine ⟨h.sorted, h.nodup, h.known, ?_, ?_⟩
      · simpa [move, hmove] using h.mark
      · intro x hx hmark
        simp only [move, if_neg hmove] at hx hmark ⊢
        exact hseen x hx hmark
  | idle => exact h

theorem nothingLost_move (h : Ordered key limit r) (hp : Proper key r m)
    (hl : NothingLost key r) (he : Enough key limit r m) :
    NothingLost key (move key limit r m) := by
  cases m with
  | publish batch latest =>
    intro x hx hlt
    rcases List.mem_append.mp hx with hx | hx
    · exact hl x hx hlt
    · have hnew := (hp.2.2.2 x hx).1
      have hmark := h.mark
      simp only [move] at hlt
      omega
  | read advance =>
    intro x hx hlt
    simp only [move] at hx hlt ⊢
    apply List.mem_append.mpr
    by_cases hmark : key x < r.mark
    · exact .inl (hl x hx hmark)
    · right
      have hmove : advance ∧ r.mark < r.latest := by
        by_contra hmove
        rw [if_neg hmove] at hlt
        exact hmark hlt
      obtain ⟨rfl, hbehind⟩ := hmove
      rw [if_pos ⟨rfl, hbehind⟩] at hlt
      exact mem_page h.sorted (he hbehind) hx (not_lt.mp hmark) hlt
  | idle => exact hl

/-- What a full page cuts off below the new mark was never seen before either. -/
theorem lost_move (h : Ordered key limit r) (he : ¬ Enough key limit r m) :
    ¬ NothingLost key (move key limit r m) := by
  cases m with
  | publish batch latest => exact absurd trivial he
  | read advance =>
    cases advance with
    | false => exact absurd trivial he
    | true =>
      simp only [Enough, Classical.not_imp, not_le] at he
      obtain ⟨hbehind, hroom⟩ := he
      obtain ⟨x, hx, hstart, hbound, hmiss⟩ := exists_not_mem_page h.nodup hroom
      intro hl
      have hnew : key x < (move key limit r (.read true)).mark := by
        simpa [move, hbehind] using hbound
      rcases List.mem_append.mp (hl x hx hnew) with hseen | hpage
      · exact hmiss (h.seen x hseen hstart)
      · exact hmiss hpage
  | idle => exact absurd trivial he

/-- A machine each of whose steps is a move of the reader loses nothing on its way exactly when
every page that moves the mark has enough room. -/
theorem nothing_lost_iff {σ β : Type} {step : σ → β → σ} {reading : σ → Reading α}
    {label : σ → β → Move α} (s : σ)
    (hstep : ∀ s b, reading (step s b) = move key limit (reading s) (label s b))
    (hproper : ∀ s b, Proper key (reading s) (label s b))
    (h : Ordered key limit (reading s)) (hl : NothingLost key (reading s)) (bs : List β) :
    (∀ cs, cs <+: bs → NothingLost key (reading (ActionRuns.runActions step s cs))) ↔
      ActionRuns.Along step (fun s b => Enough key limit (reading s) (label s b)) s bs := by
  have hall : ActionRuns.Along step (fun _ _ => True) s bs :=
    ActionRuns.along_of_forall fun _ _ _ => trivial
  apply ActionRuns.all_prefixes_iff (fun s => Ordered key limit (reading s))
    (fun s => NothingLost key (reading s)) _ _ _ hall h hl
  · intro s b h _
    rw [hstep]
    exact ordered_move h (hproper s b)
  · intro s b h _ hl henough
    rw [hstep]
    exact nothingLost_move h (hproper s b) hl henough
  · intro s b h _ henough
    rw [hstep]
    exact lost_move h henough

end Moves

section Order

/-- Of two items the earlier one was seen for the first time no later than the other. -/
def FirstsInOrder (before : α → α → Prop) (seen : List α) : Prop :=
  ∀ l₁ x l₂, seen = l₁ ++ x :: l₂ → ∀ y ∈ l₂, before y x → y ∈ l₁

def BatchInOrder (before : α → α → Prop) : Move α → Prop
  | .publish batch _ => batch.Pairwise before
  | _ => True

/-- The items that were seen, for an order finer than that of the keys. -/
structure SeenInOrder (before : α → α → Prop) (r : Reading α) : Prop where
  sorted : r.items.Pairwise before
  known : ∀ x ∈ r.seen, x ∈ r.items
  closed : ∀ x ∈ r.seen, ∀ y ∈ r.items, before y x → r.mark ≤ key y → y ∈ r.seen
  firsts : FirstsInOrder before r.seen

variable {key limit} {before : α → α → Prop} {r : Reading α} {m : Move α}

theorem page_closed {items : List α} {start : ℤ} {x y : α}
    (hasymm : ∀ x y, before x y → ¬ before y x) (hs : items.Pairwise before)
    (hx : x ∈ page key limit start items) (hy : y ∈ items) (hyx : before y x)
    (hstart : start ≤ key y) : y ∈ page key limit start items := by
  let rest := items.filter fun x => start ≤ key x
  have hrest : y ∈ rest := List.mem_filter.mpr ⟨hy, decide_eq_true hstart⟩
  have hsorted : rest.Pairwise before := hs.filter _
  rw [← List.take_append_drop limit rest] at hrest hsorted
  rcases List.mem_append.mp hrest with htake | hdrop
  · exact htake
  · exact absurd hyx (hasymm x y ((List.pairwise_append.mp hsorted).2.2 x hx y hdrop))

theorem page_sorted {items : List α} {start : ℤ} (hs : items.Pairwise before) :
    (page key limit start items).Pairwise before :=
  (hs.filter _).sublist (List.take_sublist _ _)

theorem firstsInOrder_page (hasymm : ∀ x y, before x y → ¬ before y x)
    (h : SeenInOrder key before r) :
    FirstsInOrder before (r.seen ++ page key limit r.mark r.items) := by
  intro l₁ x l₂ hsplit y hy hyx
  have hsorted : (page key limit r.mark r.items).Pairwise before := page_sorted h.sorted
  rcases List.append_eq_append_iff.mp hsplit with ⟨c, rfl, hpage⟩ | ⟨c, hseen, htail⟩
  -- `x` is on the page, and what follows it there comes after it.
  · rw [hpage] at hsorted
    have hxy := (List.pairwise_cons.mp (List.pairwise_append.mp hsorted).2.1).1 y hy
    exact absurd hyx (hasymm x y hxy)
  · cases c with
    | nil =>
      rw [List.nil_append] at htail
      rw [← htail] at hsorted
      exact absurd hyx (hasymm x y ((List.pairwise_cons.mp hsorted).1 y hy))
    -- `x` was seen before, and with it everything earlier that the page could still bring.
    | cons b c =>
      obtain ⟨rfl, rfl⟩ := List.cons.inj htail
      rcases List.mem_append.mp hy with hy | hy
      · exact h.firsts l₁ x c hseen y hy hyx
      · have hx : x ∈ r.seen := by simp [hseen]
        obtain ⟨hitem, hstart⟩ := mem_of_mem_page hy
        have hyseen := h.closed x hx y hitem hyx hstart
        rw [hseen] at hyseen
        rcases List.mem_append.mp hyseen with hy | hy
        · exact hy
        · rcases List.mem_cons.mp hy with rfl | hy
          · exact absurd hyx (hasymm y y hyx)
          · exact h.firsts l₁ x c hseen y hy hyx

theorem seenInOrder_move (hasymm : ∀ x y, before x y → ¬ before y x)
    (hkey : ∀ x y, key x < key y → before x y) (ho : Ordered key limit r)
    (h : SeenInOrder key before r) (hp : Proper key r m) (hb : BatchInOrder before m) :
    SeenInOrder key before (move key limit r m) := by
  cases m with
  | publish batch latest =>
    have hlater : ∀ x ∈ r.items, ∀ y ∈ batch, before x y := by
      intro x hx y hy
      exact hkey x y ((ho.known x hx).trans_lt (hp.2.2.2 y hy).1)
    constructor
    · exact List.pairwise_append.mpr ⟨h.sorted, hb, hlater⟩
    · intro x hx
      exact List.mem_append_left _ (h.known x hx)
    · intro x hx y hy hyx hmark
      rcases List.mem_append.mp hy with hy | hy
      · exact h.closed x hx y hy hyx hmark
      · exact absurd hyx (hasymm x y (hlater x (h.known x hx) y hy))
    · exact h.firsts
  | read advance =>
    have hmark : r.mark ≤ (move key limit r (.read advance)).mark := by
      simp only [move]
      split
      · exact ho.mark
      · exact le_refl _
    constructor
    · exact h.sorted
    · intro x hx
      rcases List.mem_append.mp hx with hx | hx
      · exact h.known x hx
      · exact (mem_of_mem_page hx).1
    · intro x hx y hy hyx hle
      have hle' : r.mark ≤ key y := hmark.trans hle
      apply List.mem_append.mpr
      rcases List.mem_append.mp hx with hx | hx
      · exact .inl (h.closed x hx y hy hyx hle')
      · exact .inr (page_closed hasymm h.sorted hx hy hyx hle')
    · exact firstsInOrder_page hasymm h
  | idle => exact h

end Order

end PagedReading
