import Mathlib.Data.List.Basic
import Mathlib.Data.List.Induction
import StyleTree.Selector.Combine

/-! First occurrences. The distinct members of a list are what one gets by putting its members one after the
    other behind those that were there before. -/

namespace StyleTree.Selector

variable {α : Type} [DecidableEq α]

theorem distinct_concat (l : List α) (x : α) :
    distinct (l ++ [x]) = if x ∈ l then distinct l else distinct l ++ [x] := by
  induction l with
  | nil => rfl
  | cons y l ih =>
    rw [List.cons_append, distinct, distinct, ih]
    -- The members equal to `y` are filtered out behind it, so an `x` equal to `y` is not taken in again.
    by_cases hy : x = y
    · have hfilter : ([x] : List α).filter (· ≠ y) = [] := by simp [hy]
      have hmem : x ∈ y :: l := by simp [hy]
      rw [if_pos hmem]
      split
      · rfl
      · rw [List.filter_append, hfilter, List.append_nil]
    · have hfilter : ([x] : List α).filter (· ≠ y) = [x] := by simp [hy]
      have hmem : x ∈ y :: l ↔ x ∈ l := by simp [hy]
      rw [if_congr hmem rfl rfl]
      split
      · rfl
      · rw [List.filter_append, hfilter, List.cons_append]

/-- The list with one more member, if it is new. -/
def insertNew (seen : List α) (x : α) : List α := if x ∈ seen then seen else seen ++ [x]

theorem foldl_insertNew (l : List α) : l.foldl insertNew [] = distinct l := by
  induction l using List.reverseRecOn with
  | nil => rfl
  | append_singleton l x ih =>
    rw [List.foldl_append, ih, List.foldl_cons, List.foldl_nil, insertNew, distinct_concat, if_congr mem_distinct rfl rfl]

theorem subset_foldl_insertNew (seen l : List α) : seen ⊆ l.foldl insertNew seen := by
  induction l generalizing seen with
  | nil => exact List.Subset.refl seen
  | cons x l ih =>
    refine List.Subset.trans (fun y hy => ?_) (ih (insertNew seen x))
    rw [insertNew]
    split
    · exact hy
    · exact List.mem_append_left _ hy

theorem foldl_insertNew_of_subset {seen l : List α} (h : ∀ x ∈ l, x ∈ seen) : l.foldl insertNew seen = seen := by
  induction l with
  | nil => rfl
  | cons x l ih =>
    rw [List.foldl_cons, insertNew, if_pos (h x List.mem_cons_self)]
    exact ih fun y hy => h y (List.mem_cons_of_mem _ hy)

theorem mem_foldl_insertNew (l seen : List α) : ∀ x ∈ l, x ∈ l.foldl insertNew seen := by
  induction l generalizing seen with
  | nil => exact fun _ hx => nomatch hx
  | cons x l ih =>
    refine List.forall_mem_cons.mpr ⟨subset_foldl_insertNew _ l ?_, ih _⟩
    rw [insertNew]
    split
    · assumption
    · exact List.mem_append_right _ List.mem_cons_self

theorem foldl_insertNew_self (l seen : List α) : l.foldl insertNew (l.foldl insertNew seen) = l.foldl insertNew seen :=
  foldl_insertNew_of_subset (mem_foldl_insertNew l seen)

theorem distinct_append (l l' : List α) : distinct (l ++ l') = l'.foldl insertNew (distinct l) := by
  rw [← foldl_insertNew, List.foldl_append, foldl_insertNew]

/-- What a member gives again, when it comes a second time, is there already. -/
theorem distinct_flatMap_distinct {β : Type} [DecidableEq β] (f : α → List β) (l : List α) :
    distinct ((distinct l).flatMap f) = distinct (l.flatMap f) := by
  induction l using List.reverseRecOn with
  | nil => rfl
  | append_singleton l x ih =>
    rw [distinct_concat, List.flatMap_append, List.flatMap_singleton]
    split
    · next hx =>
      have hgiven : ∀ y ∈ f x, y ∈ distinct (l.flatMap f) := fun y hy =>
        mem_distinct.mpr (List.mem_flatMap.mpr ⟨x, hx, hy⟩)
      rw [ih, distinct_append, foldl_insertNew_of_subset hgiven]
    · rw [List.flatMap_append, List.flatMap_singleton, distinct_append, distinct_append, ih]

/-- The members stand in the order of their first places. -/
theorem pairwise_idxOf_distinct (l : List α) : (distinct l).Pairwise fun x y => l.idxOf x < l.idxOf y := by
  induction l using List.reverseRecOn with
  | nil => exact .nil
  | append_singleton l x ih =>
    have hold {y : α} (hy : y ∈ distinct l) : (l ++ [x]).idxOf y = l.idxOf y :=
      List.idxOf_append_of_mem (mem_distinct.mp hy)
    have hkept : (distinct l).Pairwise fun y z => (l ++ [x]).idxOf y < (l ++ [x]).idxOf z := by
      refine ih.imp_of_mem fun hy hz hlt => ?_
      rwa [hold hy, hold hz]
    rw [distinct_concat]
    split
    · exact hkept
    · next hx =>
      refine List.pairwise_append.mpr ⟨hkept, List.pairwise_singleton _ _, fun y hy z hz => ?_⟩
      obtain rfl := List.mem_singleton.mp hz
      rw [hold hy, List.idxOf_append_of_notMem hx, List.idxOf_cons_self, Nat.add_zero]
      exact List.idxOf_lt_length_of_mem (mem_distinct.mp hy)

end StyleTree.Selector
