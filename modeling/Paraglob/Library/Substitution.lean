import Mathlib.Data.List.DropRight
import Mathlib.Data.List.Infix

/-!
# Replacing stretches of a text

A mark is a stretch of a text together with what is to stand in its place. Marks
are found in the order of their ends, and they may overlap, so a rule is needed
that chooses which of them to keep: either those that are not contained in a
later one, or those that do not begin before the end of an earlier choice. Both
rules can be followed while the marks come in, with the list of choices as the
only memory. What is chosen is then substituted from left to right, and this, too,
can be done piece by piece.
-/

namespace Substitution

variable {α : Type*}

/-- The letters from `start` up to `stop`, and the text to put in their place. -/
structure Mark (α : Type*) where
  start : Nat
  stop : Nat
  text : List α

/-- Marks in the order in which a scan of the text finds them, one at most for each end. -/
def Found (ms : List (Mark α)) : Prop := ms.Pairwise fun m n => m.stop < n.stop

/-- Marks whose two ends both increase. -/
def Ascending (ms : List (Mark α)) : Prop :=
  ms.Pairwise fun m n => m.start < n.start ∧ m.stop < n.stop

/-- The end of the last mark, or `c` when there is none. -/
def reached (c : Nat) (ms : List (Mark α)) : Nat := ms.foldl (fun _ m => m.stop) c

variable {ms found : List (Mark α)} {m : Mark α} {c cut : Nat}

theorem reached_append (c : Nat) (ms found : List (Mark α)) :
    reached c (ms ++ found) = reached (reached c ms) found := List.foldl_append

theorem reached_concat (c : Nat) (ms : List (Mark α)) (m : Mark α) :
    reached c (ms ++ [m]) = m.stop := reached_append c ms [m]

theorem le_reached (le : cut ≤ c) (ends : ∀ m ∈ ms, cut ≤ m.stop) : cut ≤ reached c ms := by
  induction ms generalizing c with
  | nil => exact le
  | cons m ms ih =>
      exact ih (ends m List.mem_cons_self) fun n hn => ends n (List.mem_cons_of_mem _ hn)

theorem reached_eq_of_ne_nil (some : ms ≠ []) (c c' : Nat) : reached c ms = reached c' ms := by
  cases ms with
  | nil => exact absurd rfl some
  | cons m ms => rfl

theorem Ascending.stop_le_reached (sorted : Ascending ms) (h : m ∈ ms) (c : Nat) :
    m.stop ≤ reached c ms := by
  induction ms using List.reverseRecOn with
  | nil => cases h
  | append_singleton ms x _ =>
      rw [reached_concat]
      cases List.mem_append.mp h with
      | inl early =>
          exact Nat.le_of_lt ((List.pairwise_append.mp sorted).2.2 m early x
            (List.mem_singleton_self x)).2
      | inr last => exact Nat.le_of_eq (congrArg Mark.stop (List.mem_singleton.mp last))

/-- How many marks begin from `i` on and before `j`. -/
def begunIn (i j : Nat) (ms : List (Mark α)) : Nat :=
  ms.countP fun m => i ≤ m.start ∧ m.start < j

/-- How many marks begin at `i` or later. -/
def begunFrom (i : Nat) (ms : List (Mark α)) : Nat := ms.countP fun m => i ≤ m.start

theorem begunIn_self (i : Nat) (ms : List (Mark α)) : begunIn i i ms = 0 := by
  rw [begunIn, List.countP_eq_zero]
  intro m _
  rw [decide_eq_true_eq]
  omega

theorem Ascending.begunIn_le (sorted : Ascending ms) (i j : Nat) : begunIn i j ms ≤ j - i := by
  induction ms generalizing i with
  | nil => exact Nat.zero_le _
  | cons m ms ih =>
      obtain ⟨first, sorted⟩ := List.pairwise_cons.mp sorted
      by_cases here : i ≤ m.start ∧ m.start < j
      · have later : begunIn i j ms = begunIn (m.start + 1) j ms := by
          apply List.countP_congr
          intro n hn
          have := (first n hn).1
          simp only [decide_eq_true_eq]
          omega
        have rest := ih sorted (m.start + 1)
        rw [begunIn, List.countP_cons_of_pos (by simpa using here)]
        change begunIn i j ms + 1 ≤ _
        omega
      · rw [begunIn, List.countP_cons_of_neg (by simpa using here)]
        exact ih sorted i

/-- A new mark takes the place of those it contains. -/
def bookOuter (ms : List (Mark α)) (m : Mark α) : List (Mark α) :=
  ms.rdropWhile (fun p => m.start ≤ p.start) ++ [m]

/-- The marks that no mark with a later end contains. -/
def outermost (ms : List (Mark α)) : List (Mark α) :=
  ms.filter fun m => ∀ p ∈ ms, m.stop < p.stop → m.start < p.start

theorem mem_outermost :
    m ∈ outermost ms ↔ m ∈ ms ∧ ∀ p ∈ ms, m.stop < p.stop → m.start < p.start := by
  simp [outermost]

theorem Found.ascending_outermost (ordered : Found found) : Ascending (outermost found) := by
  have kept := ordered.sublist (List.filter_sublist (p := fun m =>
    decide (∀ p ∈ found, m.stop < p.stop → m.start < p.start)))
  apply kept.imp_of_mem
  intro m n hm hn before
  obtain ⟨_, apart⟩ := mem_outermost.mp hm
  exact ⟨apart n (mem_outermost.mp hn).1 before, before⟩

/-- Popping from the end removes everything that starts at or behind the new mark. -/
theorem Ascending.bookOuter_eq (sorted : Ascending ms) (m : Mark α) :
    bookOuter ms m = (ms.filter fun p => p.start < m.start) ++ [m] := by
  rw [bookOuter]
  congr 1
  induction ms using List.reverseRecOn with
  | nil => rfl
  | append_singleton ms x ih =>
      obtain ⟨sorted, _, below⟩ := List.pairwise_append.mp sorted
      by_cases inside : m.start ≤ x.start
      · rw [List.rdropWhile_concat_pos _ _ _ (by simpa using inside), ih sorted,
          List.filter_append]
        simp [inside]
      · rw [List.rdropWhile_concat_neg _ _ _ (by simpa using inside)]
        refine (List.filter_eq_self.mpr ?_).symm
        intro p hp
        rw [decide_eq_true_eq]
        cases List.mem_append.mp hp with
        | inl early =>
            have := (below p early x (List.mem_singleton_self x)).1
            omega
        | inr last =>
            rw [List.mem_singleton.mp last]
            omega

/-- A mark that ends last removes what it contains from the outermost marks. -/
theorem outermost_concat (ordered : Found (found ++ [m])) :
    outermost (found ++ [m]) = (outermost found).filter (fun p => p.start < m.start) ++ [m] := by
  have ends := (List.pairwise_append.mp ordered).2.2
  have last : ∀ p ∈ found, p.stop < m.stop := fun p hp => ends p hp m (List.mem_singleton_self m)
  rw [outermost, List.filter_append, outermost, List.filter_filter]
  congr 1
  · apply List.filter_congr
    intro p hp
    have := last p hp
    simp only [List.mem_append, List.mem_singleton, or_imp, forall_and, forall_eq, this,
      true_implies, Bool.decide_and]
    exact Bool.and_comm _ _
  · rw [List.filter_eq_self]
    intro p hp
    rw [List.mem_singleton.mp hp, decide_eq_true_eq]
    intro q hq before
    cases List.mem_append.mp hq with
    | inl early =>
        have := last q early
        omega
    | inr here =>
        rw [List.mem_singleton.mp here] at before
        exact absurd before (Nat.lt_irrefl _)

/-- Booking the marks one by one leaves the outermost ones. -/
theorem Found.foldl_bookOuter (ordered : Found found) :
    found.foldl bookOuter [] = outermost found := by
  induction found using List.reverseRecOn with
  | nil => rfl
  | append_singleton found m ih =>
      have earlier : Found found := (List.pairwise_append.mp ordered).1
      rw [List.foldl_append, ih earlier, outermost_concat ordered]
      exact earlier.ascending_outermost.bookOuter_eq m

theorem Found.exists_outermost (ordered : Found found) (h : m ∈ found) :
    ∃ p ∈ outermost found, p.start ≤ m.start ∧ m.stop ≤ p.stop := by
  induction found using List.reverseRecOn with
  | nil => cases h
  | append_singleton found x ih =>
      have earlier := (List.pairwise_append.mp ordered).1
      rw [outermost_concat ordered]
      have last : x ∈ (outermost found).filter (fun p => p.start < x.start) ++ [x] :=
        List.mem_append_right _ (List.mem_singleton_self x)
      cases List.mem_append.mp h with
      | inr here =>
          rw [List.mem_singleton.mp here]
          exact ⟨x, last, Nat.le_refl _, Nat.le_refl _⟩
      | inl there =>
          obtain ⟨p, hp, starts, stops⟩ := ih earlier there
          by_cases before : p.start < x.start
          · exact ⟨p, List.mem_append_left _ (List.mem_filter.mpr ⟨hp, decide_eq_true before⟩),
              starts, stops⟩
          · have ends : m.stop < x.stop :=
              (List.pairwise_append.mp ordered).2.2 m there x (List.mem_singleton_self x)
            exact ⟨x, last, by omega, by omega⟩

/-- A new mark is kept unless it begins before the end of the last choice. -/
def bookFirst (ms : List (Mark α)) (m : Mark α) : List (Mark α) :=
  if m.start < reached 0 ms then ms else ms ++ [m]

/-- Choose the mark that ends first, skip those that begin before its end, and so on. `c` is the
end of the last choice. -/
def firsts (c : Nat) : List (Mark α) → List (Mark α)
  | [] => []
  | m :: ms => if c ≤ m.start then m :: firsts m.stop ms else firsts c ms

theorem firsts_sublist (c : Nat) (ms : List (Mark α)) : (firsts c ms).Sublist ms := by
  induction ms generalizing c with
  | nil => exact List.Sublist.refl _
  | cons m ms ih =>
      rw [firsts]
      split
      · exact (ih m.stop).cons_cons m
      · exact (ih c).cons m

theorem le_start_of_mem_firsts (proper : ∀ p ∈ ms, p.start ≤ p.stop)
    (h : m ∈ firsts c ms) : c ≤ m.start := by
  induction ms generalizing c with
  | nil => cases h
  | cons p ms ih =>
      have proper' : ∀ q ∈ ms, q.start ≤ q.stop := fun q hq => proper q (List.mem_cons_of_mem _ hq)
      rw [firsts] at h
      split at h
      · rename_i fits
        cases List.mem_cons.mp h with
        | inl here => exact here ▸ fits
        | inr later => exact (fits.trans (proper p List.mem_cons_self)).trans (ih proper' later)
      · exact ih proper' h

theorem disjoint_firsts (proper : ∀ p ∈ ms, p.start ≤ p.stop) :
    (firsts c ms).Pairwise fun m n => m.stop ≤ n.start := by
  induction ms generalizing c with
  | nil => exact List.Pairwise.nil
  | cons p ms ih =>
      have proper' : ∀ q ∈ ms, q.start ≤ q.stop := fun q hq => proper q (List.mem_cons_of_mem _ hq)
      rw [firsts]
      split
      · exact List.pairwise_cons.mpr ⟨fun n hn => le_start_of_mem_firsts proper' hn, ih proper'⟩
      · exact ih proper'

theorem Found.exists_firsts_of_not_mem (ordered : Found ms) (h : m ∈ ms)
    (skipped : m ∉ firsts c ms) :
    m.start < c ∨ ∃ p ∈ firsts c ms, p.stop < m.stop ∧ m.start < p.stop := by
  induction ms generalizing c with
  | nil => cases h
  | cons p ms ih =>
      obtain ⟨before, ordered⟩ := List.pairwise_cons.mp ordered
      rw [firsts] at skipped ⊢
      split
      · rename_i fits
        rw [if_pos fits] at skipped
        obtain ⟨ne, skipped⟩ := not_or.mp (mt List.mem_cons.mpr skipped)
        have later : m ∈ ms := (List.mem_cons.mp h).resolve_left ne
        apply Or.inr
        cases ih ordered later skipped with
        | inl inside => exact ⟨p, List.mem_cons_self, before m later, inside⟩
        | inr inside =>
            obtain ⟨q, hq, found⟩ := inside
            exact ⟨q, List.mem_cons_of_mem _ hq, found⟩
      · rename_i early
        rw [if_neg early] at skipped
        cases List.mem_cons.mp h with
        | inl here => exact Or.inl (here ▸ Nat.lt_of_not_le early)
        | inr later => exact ih ordered later skipped

theorem foldl_bookFirst (chosen : List (Mark α)) (ms : List (Mark α)) :
    ms.foldl bookFirst chosen = chosen ++ firsts (reached 0 chosen) ms := by
  induction ms generalizing chosen with
  | nil => exact (List.append_nil _).symm
  | cons m ms ih =>
      rw [List.foldl_cons, firsts, bookFirst]
      by_cases early : m.start < reached 0 chosen
      · rw [if_pos early, if_neg (Nat.not_le.mpr early), ih]
      · rw [if_neg early, if_pos (Nat.le_of_not_lt early), ih, reached_concat, List.append_assoc]
        rfl

theorem bookOuter_append (early : ∀ p ∈ found, p.start < m.start) (ms : List (Mark α)) :
    bookOuter (found ++ ms) m = found ++ bookOuter ms m := by
  rw [bookOuter, bookOuter, ← List.append_assoc]
  congr 1
  induction ms using List.reverseRecOn with
  | nil =>
      rw [List.append_nil, List.rdropWhile_nil, List.append_nil, List.rdropWhile_eq_self_iff]
      intro some
      simpa using early _ (List.getLast_mem some)
  | append_singleton ms x ih =>
      rw [← List.append_assoc]
      by_cases inside : m.start ≤ x.start
      · rw [List.rdropWhile_concat_pos _ _ _ (by simpa using inside), ih,
          List.rdropWhile_concat_pos _ _ _ (by simpa using inside)]
      · rw [List.rdropWhile_concat_neg _ _ _ (by simpa using inside),
          List.rdropWhile_concat_neg _ _ _ (by simpa using inside), List.append_assoc]

theorem Ascending.bookOuter (sorted : Ascending ms) (behind : ∀ p ∈ ms, p.stop < m.stop) :
    Ascending (bookOuter ms m) := by
  rw [sorted.bookOuter_eq]
  refine List.pairwise_append.mpr ⟨sorted.filter _, List.pairwise_singleton _ _, ?_⟩
  intro p hp n hn
  rw [List.mem_singleton.mp hn]
  obtain ⟨kept, before⟩ := List.mem_filter.mp hp
  exact ⟨of_decide_eq_true before, behind p kept⟩

theorem Ascending.bookFirst (sorted : Ascending ms) (proper : ∀ p ∈ ms, p.start < p.stop)
    (behind : ∀ p ∈ ms, p.stop < m.stop) : Ascending (bookFirst ms m) := by
  rw [Substitution.bookFirst]
  split
  · exact sorted
  · rename_i late
    refine List.pairwise_append.mpr ⟨sorted, List.pairwise_singleton _ _, ?_⟩
    intro p hp n hn
    rw [List.mem_singleton.mp hn]
    have inside := sorted.stop_le_reached hp 0
    have := proper p hp
    exact ⟨by omega, behind p hp⟩

/-- The text from `c` up to the end of the last mark, with the texts of the marks in the place of
what they mark. A mark that begins before `c` is not preceded by any letters. -/
def spliced (t : List α) (c : Nat) : List (Mark α) → List α
  | [] => []
  | m :: ms => (t.take m.start).drop c ++ (m.text ++ spliced t m.stop ms)

/-- The same up to `upTo`. -/
def copied (t : List α) (c : Nat) (ms : List (Mark α)) (upTo : Nat) : List α :=
  spliced t c ms ++ (t.take upTo).drop (reached c ms)

/-- The text with all marks replaced. -/
def substitute (t : List α) (ms : List (Mark α)) : List α := copied t 0 ms t.length

variable {t u : List α} {upTo : Nat}

theorem copied_nil (t : List α) (c upTo : Nat) : copied t c [] upTo = (t.take upTo).drop c := rfl

theorem copied_cons (t : List α) (c : Nat) (m : Mark α) (ms : List (Mark α)) (upTo : Nat) :
    copied t c (m :: ms) upTo =
      (t.take m.start).drop c ++ (m.text ++ copied t m.stop ms upTo) := by
  rw [copied, spliced, List.append_assoc, List.append_assoc]
  rfl

theorem substitute_nil (t : List α) : substitute t [] = t := by
  rw [substitute, copied_nil, List.take_length, List.drop_zero]

theorem drop_take_split (le : cut ≤ upTo) :
    (t.take upTo).drop c = (t.take cut).drop c ++ (t.take upTo).drop (max c cut) := by
  by_cases before : c ≤ cut
  · rw [Nat.max_eq_right before]
    have whole : t.take upTo = t.take cut ++ (t.take upTo).drop cut := by
      conv_lhs => rw [← List.take_append_drop cut (t.take upTo)]
      rw [List.take_take, Nat.min_eq_left le]
    by_cases inside : cut ≤ t.length
    · have length : c ≤ (t.take cut).length := by
        rw [List.length_take]
        omega
      conv_lhs => rw [whole]
      rw [List.drop_append_of_le_length length]
    · have all : ∀ n, cut ≤ n → t.take n = t := fun n hn => List.take_of_length_le (by omega)
      have none : t.drop cut = [] := List.drop_of_length_le (by omega)
      rw [all upTo le, all cut (Nat.le_refl _), none, List.append_nil]
  · have none : (t.take cut).drop c = [] := by
      apply List.drop_of_length_le
      rw [List.length_take]
      omega
    rw [none, Nat.max_eq_left (by omega), List.nil_append]

/-- The marks that begin before `cut` and the others can be substituted one after the other. -/
theorem copied_append (later : ∀ m ∈ found, cut ≤ m.start) (le : cut ≤ upTo) :
    copied t c (ms ++ found) upTo =
      copied t c ms cut ++ copied t (max (reached c ms) cut) found upTo := by
  induction ms generalizing c with
  | nil =>
      cases found with
      | nil => exact drop_take_split le
      | cons m found =>
          have split : (t.take m.start).drop c =
              (t.take cut).drop c ++ (t.take m.start).drop (max c cut) :=
            drop_take_split (later m List.mem_cons_self)
          rw [List.nil_append, copied_cons, copied_cons, split, List.append_assoc]
          rfl
  | cons m ms ih =>
      rw [List.cons_append, copied_cons, copied_cons, ih, List.append_assoc, List.append_assoc]
      rfl

theorem copied_append_text (inside : ∀ m ∈ ms, m.start ≤ t.length) (le : upTo ≤ t.length) :
    copied (t ++ u) c ms upTo = copied t c ms upTo := by
  induction ms generalizing c with
  | nil => rw [copied_nil, copied_nil, List.take_append_of_le_length le]
  | cons m ms ih =>
      rw [copied_cons, copied_cons, ih fun n hn => inside n (List.mem_cons_of_mem _ hn),
        List.take_append_of_le_length (inside m List.mem_cons_self)]

theorem substitute_eq_self (disjoint : ms.Pairwise fun m n => m.stop ≤ n.start)
    (proper : ∀ m ∈ ms, m.start ≤ m.stop ∧ m.stop ≤ t.length)
    (same : ∀ m ∈ ms, m.text = (t.take m.stop).drop m.start) : substitute t ms = t := by
  have rest : ∀ c, (∀ m ∈ ms, c ≤ m.start) → copied t c ms t.length = t.drop c := by
    induction ms with
    | nil =>
        intro c _
        rw [copied_nil, List.take_length]
    | cons m ms ih =>
        intro c before
        obtain ⟨behind, disjoint⟩ := List.pairwise_cons.mp disjoint
        obtain ⟨le, inside⟩ := proper m List.mem_cons_self
        have start := before m List.mem_cons_self
        have here : (t.take m.stop).drop c = (t.take m.start).drop c ++ m.text := by
          rw [drop_take_split le, same m List.mem_cons_self, Nat.max_eq_right start]
        have there : t.drop c = (t.take m.stop).drop c ++ t.drop m.stop := by
          have split := drop_take_split (t := t) (c := c) inside
          rwa [List.take_length, Nat.max_eq_right (start.trans le)] at split
        rw [copied_cons, ih disjoint (fun n hn => proper n (List.mem_cons_of_mem _ hn))
          (fun n hn => same n (List.mem_cons_of_mem _ hn)) m.stop behind, there, here,
          List.append_assoc]
  exact rest 0 fun m _ => Nat.zero_le _

end Substitution
