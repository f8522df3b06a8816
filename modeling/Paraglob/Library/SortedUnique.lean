import Mathlib.Data.List.Sort
import Mathlib.Data.List.Destutter

/-!
# Sorting a list and dropping adjacent duplicates

The composition of a sort with the removal of equal neighbours is the usual
way to turn a sequence into the set of its elements. The result is strictly
increasing and has the same elements, and these two facts determine it: any
two sequences with the same elements give the same list.
-/

namespace SortedUnique

variable {α : Type*} [LinearOrder α]

/-- Sort, then keep one element of every run of equal neighbours. -/
def sortUnique (xs : List α) : List α :=
  (xs.insertionSort (· ≤ ·)).destutter (· ≠ ·)

omit [LinearOrder α] in
private theorem mem_destutter'_ne [DecidableEq α] (x a : α) (xs : List α) :
    x ∈ xs.destutter' (· ≠ ·) a ↔ x = a ∨ x ∈ xs := by
  induction xs generalizing a with
  | nil => simp
  | cons b xs ih =>
      by_cases h : a = b
      · subst b
        rw [List.destutter'_cons_neg _ (by simp), ih]
        simp
      · rw [List.destutter'_cons_pos _ h, List.mem_cons, ih, List.mem_cons]

omit [LinearOrder α] in
theorem mem_destutter_ne [DecidableEq α] (x : α) (xs : List α) :
    x ∈ xs.destutter (· ≠ ·) ↔ x ∈ xs := by
  cases xs with
  | nil => simp
  | cons a xs => rw [List.destutter_cons', mem_destutter'_ne, List.mem_cons]

theorem pairwise_lt_of_sorted_destutter {xs : List α} (sorted : xs.Pairwise (· ≤ ·)) :
    (xs.destutter (· ≠ ·)).Pairwise (· < ·) := by
  have weak : (xs.destutter (· ≠ ·)).Pairwise (· ≤ ·) :=
    sorted.sublist (List.destutter_sublist (· ≠ ·) xs)
  have distinct : (xs.destutter (· ≠ ·)).IsChain (· ≠ ·) := List.isChain_destutter (· ≠ ·) xs
  have strict : (xs.destutter (· ≠ ·)).IsChain (· < ·) := by
    rw [List.isChain_iff_getElem] at distinct ⊢
    intro i hi
    exact lt_of_le_of_ne (List.pairwise_iff_getElem.mp weak i (i + 1) _ hi (by omega))
      (distinct i hi)
  exact List.isChain_iff_pairwise.mp strict

theorem eq_of_pairwise_lt {xs ys : List α} (hx : xs.Pairwise (· < ·))
    (hy : ys.Pairwise (· < ·)) (same : ∀ a, a ∈ xs ↔ a ∈ ys) : xs = ys := by
  have perm : xs.Perm ys :=
    (List.perm_ext_iff_of_nodup hx.sortedLT.nodup hy.sortedLT.nodup).mpr same
  exact perm.eq_of_pairwise' hx hy

@[simp] theorem mem_sortUnique {a : α} {xs : List α} : a ∈ sortUnique xs ↔ a ∈ xs := by
  rw [sortUnique, mem_destutter_ne, List.mem_insertionSort]

theorem pairwise_sortUnique (xs : List α) : (sortUnique xs).Pairwise (· < ·) :=
  pairwise_lt_of_sorted_destutter (List.pairwise_insertionSort (· ≤ ·) xs)

theorem length_sortUnique_le (xs : List α) : (sortUnique xs).length ≤ xs.length := by
  rw [← List.length_insertionSort (· ≤ ·) xs]
  exact (List.destutter_sublist (· ≠ ·) _).length_le

theorem sortUnique_congr {xs ys : List α} (same : ∀ a, a ∈ xs ↔ a ∈ ys) :
    sortUnique xs = sortUnique ys := by
  apply eq_of_pairwise_lt (pairwise_sortUnique xs) (pairwise_sortUnique ys)
  intro a
  rw [mem_sortUnique, mem_sortUnique, same]

theorem sortUnique_eq_self {xs : List α} (sorted : xs.Pairwise (· < ·)) :
    sortUnique xs = xs :=
  eq_of_pairwise_lt (pairwise_sortUnique xs) sorted fun _ => mem_sortUnique

theorem last_of_pairwise_lt {xs : List α} (sorted : xs.Pairwise (· < ·)) {a : α} (mem : a ∈ xs)
    (greatest : ∀ b ∈ xs, b ≤ a) : xs[xs.length - 1]? = some a := by
  obtain ⟨i, at_i⟩ := List.mem_iff_getElem?.mp mem
  obtain ⟨bound, value⟩ := List.getElem?_eq_some_iff.mp at_i
  have last : xs.length - 1 = i := by
    by_contra notLast
    have next : i + 1 < xs.length := by omega
    have greater := List.pairwise_iff_getElem.mp sorted i (i + 1) bound next (Nat.lt_succ_self i)
    rw [value] at greater
    exact absurd (greatest _ (List.getElem_mem next)) (not_le.mpr greater)
  rw [last, at_i]

end SortedUnique
