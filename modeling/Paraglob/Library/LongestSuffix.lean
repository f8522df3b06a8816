import Mathlib.Data.List.Infix

/-!
# Longest suffixes inside a prefix-closed set of strings

A dictionary automaton remembers, of everything it has read, only the longest
suffix that is still a prefix of some word. This file states that notion for an
arbitrary alphabet and an arbitrary prefix-closed set, and proves the facts every
such automaton rests on: how the longest suffix changes when one letter is read,
how it is found by falling back along borders, and that it decides which words
end at the current position.
-/

namespace LongestSuffix

variable {α : Type*}

/-- A set of strings that contains the empty string and every prefix of its members. -/
structure PrefixClosed (P : List α → Prop) : Prop where
  nil : P []
  init : ∀ {s : List α} {a : α}, P (s ++ [a]) → P s

theorem PrefixClosed.of_append {P : List α → Prop} (closed : PrefixClosed P) {s : List α}
    (t : List α) (h : P (s ++ t)) : P s := by
  induction t using List.reverseRecOn with
  | nil => simpa using h
  | append_singleton t a ih =>
      rw [← List.append_assoc] at h
      exact ih (closed.init h)

/-- `s` is the longest suffix of `t` that lies in `P`. -/
structure IsLongest (P : List α → Prop) (t s : List α) : Prop where
  suffix : s <:+ t
  mem : P s
  max : ∀ u, u <:+ t → P u → u <:+ s

/-- `f` is the longest proper suffix of `s` that lies in `P`. -/
abbrev IsBorder (P : List α → Prop) (s f : List α) : Prop := IsLongest P s.tail f

/-- `s` is still in the race for the letter `a`: every suffix of `t` that can be
extended by `a` inside `P` is a suffix of `s`. -/
structure IsCandidate (P : List α → Prop) (t : List α) (a : α) (s : List α) : Prop where
  suffix : s <:+ t
  mem : P s
  covers : ∀ u, u <:+ t → P (u ++ [a]) → u <:+ s

variable {P : List α → Prop} {t s f w : List α} {a : α}

theorem eq_of_suffix_suffix (h₁ : s <:+ t) (h₂ : t <:+ s) : s = t :=
  h₁.eq_of_length (Nat.le_antisymm h₁.length_le h₂.length_le)

theorem suffix_concat (h : s <:+ t) (a : α) : s ++ [a] <:+ t ++ [a] := by
  obtain ⟨front, rfl⟩ := h
  exact ⟨front, (List.append_assoc front s [a]).symm⟩

theorem suffix_concat_cases (h : w <:+ t ++ [a]) : w = [] ∨ ∃ u, w = u ++ [a] ∧ u <:+ t := by
  obtain rfl | ⟨u, b, rfl⟩ := List.eq_nil_or_concat' w
  · exact Or.inl rfl
  · obtain ⟨front, same⟩ := h
    rw [← List.append_assoc] at same
    obtain ⟨rfl, last⟩ := List.append_inj' same rfl
    obtain rfl : b = a := by simpa using last
    exact Or.inr ⟨u, rfl, ⟨front, rfl⟩⟩

theorem suffix_eq_or_tail (h : w <:+ s) : w = s ∨ w <:+ s.tail := by
  cases s with
  | nil => exact Or.inl (List.suffix_nil.mp h)
  | cons b s => exact List.suffix_cons_iff.mp h

theorem IsLongest.unique {s' : List α} (h : IsLongest P t s) (h' : IsLongest P t s') :
    s = s' :=
  eq_of_suffix_suffix (h'.max s h.suffix h.mem) (h.max s' h'.suffix h'.mem)

theorem IsLongest.of_mem (mem : P t) : IsLongest P t t :=
  ⟨List.suffix_rfl, mem, fun _ hu _ => hu⟩

theorem IsLongest.nil (closed : PrefixClosed P) : IsLongest P [] [] :=
  IsLongest.of_mem closed.nil

theorem IsLongest.cons_of_not_mem (h : IsLongest P t s) (out : ¬ P (a :: t)) :
    IsLongest P (a :: t) s := by
  refine ⟨h.suffix.trans (List.suffix_cons a t), h.mem, ?_⟩
  intro u hu mem
  obtain rfl | hu := List.suffix_cons_iff.mp hu
  · exact absurd mem out
  · exact h.max u hu mem

theorem IsLongest.border_length (h : IsBorder P s f) (nonempty : s ≠ []) :
    f.length < s.length := by
  have bound := h.suffix.length_le
  rw [List.length_tail] at bound
  have := List.length_pos_iff.mpr nonempty
  omega

theorem IsLongest.border_suffix (h : IsBorder P s f) : f <:+ s :=
  h.suffix.trans (List.tail_suffix s)

theorem IsLongest.suffix_border (h : IsBorder P s f) (proper : w <:+ s) (ne : w ≠ s)
    (mem : P w) : w <:+ f := by
  obtain rfl | inTail := suffix_eq_or_tail proper
  · exact absurd rfl ne
  · exact h.max w inTail mem

/-- Before any fallback, the longest suffix is itself the candidate. -/
theorem IsLongest.candidate (closed : PrefixClosed P) (h : IsLongest P t s) (a : α) :
    IsCandidate P t a s :=
  ⟨h.suffix, h.mem, fun u hu mem => h.max u hu (closed.init mem)⟩

/-- A candidate that can be extended gives the next longest suffix. -/
theorem IsCandidate.extend (h : IsCandidate P t a s) (mem : P (s ++ [a])) :
    IsLongest P (t ++ [a]) (s ++ [a]) := by
  refine ⟨suffix_concat h.suffix a, mem, ?_⟩
  intro w hw inside
  obtain rfl | ⟨u, rfl, hu⟩ := suffix_concat_cases hw
  · exact List.nil_suffix
  · exact suffix_concat (h.covers u hu inside) a

/-- A candidate that cannot be extended hands over to its border. -/
theorem IsCandidate.fallback (closed : PrefixClosed P) (h : IsCandidate P t a s)
    (stuck : ¬ P (s ++ [a])) (border : IsBorder P s f) : IsCandidate P t a f := by
  refine ⟨border.border_suffix.trans h.suffix, border.mem, ?_⟩
  intro u hu mem
  have below : u <:+ s := h.covers u hu mem
  have ne : u ≠ s := by
    rintro rfl
    exact stuck mem
  exact border.suffix_border below ne (closed.init mem)

/-- When even the empty candidate is stuck, nothing of the text survives. -/
theorem IsCandidate.restart (closed : PrefixClosed P) (h : IsCandidate P t a [])
    (stuck : ¬ P [a]) : IsLongest P (t ++ [a]) [] := by
  refine ⟨List.nil_suffix, closed.nil, ?_⟩
  intro w hw mem
  obtain rfl | ⟨u, rfl, hu⟩ := suffix_concat_cases hw
  · exact List.suffix_rfl
  · obtain rfl : u = [] := List.suffix_nil.mp (h.covers u hu mem)
    exact absurd mem stuck

/-- A member of `P` ends at the current position exactly when it is a suffix of
the remembered string. -/
theorem IsLongest.suffix_iff (h : IsLongest P t s) (mem : P w) : w <:+ t ↔ w <:+ s :=
  ⟨fun hw => h.max w hw mem, fun hw => hw.trans h.suffix⟩

theorem infix_iff_exists_take (w t : List α) (nonempty : w ≠ []) :
    w <:+: t ↔ ∃ i, i < t.length ∧ w <:+ t.take (i + 1) := by
  constructor
  · rintro ⟨front, back, rfl⟩
    have positive := List.length_pos_iff.mpr nonempty
    refine ⟨front.length + w.length - 1, ?_, ?_⟩
    · simp only [List.length_append]
      omega
    · have position : front.length + w.length - 1 + 1 = (front ++ w).length := by
        rw [List.length_append]
        omega
      rw [position, List.take_left]
      exact List.suffix_append front w
  · rintro ⟨i, _, hw⟩
    exact hw.isInfix.trans (List.take_prefix (i + 1) t).isInfix

end LongestSuffix
