import Paraglob.Multifast.Collection

/-!
# The order of the match lists

The patterns that end at a position are found by looking up the suffixes of what
was read, the longest first. Collecting matches produces them in this order: a
failure chain visits shorter and shorter suffixes, and a node on it lists either
its own pattern only or everything that ends there. So the list of a finalized
node is determined by the string on its path alone.
-/

namespace Multifast

open LongestSuffix

namespace Dictionary

variable (d : Dictionary) {s t f : Bytes} {q : AcPattern}

/-- The entry with a given search text. -/
def find (word : Bytes) : Option AcPattern := d.entries.find? fun q => q.ptext = word

/-- The entries that end a string, the longest first. -/
def ending (s : Bytes) : List AcPattern := s.tails.filterMap d.find

theorem find_eq_none_iff : d.find s = none ↔ ∀ q ∈ d.entries, q.ptext ≠ s := by
  simp [find]

theorem find_eq_some_iff : d.find s = some q ↔ q ∈ d.entries ∧ q.ptext = s := by
  constructor
  · intro found
    exact ⟨List.mem_of_find?_eq_some found, by simpa using List.find?_some found⟩
  · rintro ⟨hq, rfl⟩
    cases found : d.find q.ptext with
    | none => exact absurd rfl (d.find_eq_none_iff.mp found q hq)
    | some p =>
        have same : p.ptext = q.ptext := by simpa using List.find?_some found
        rw [d.eq_of_ptext_eq (List.mem_of_find?_eq_some found) hq same]

theorem filter_eq_find (s : Bytes) :
    d.entries.filter (fun q => q.ptext = s) = (d.find s).toList := by
  cases found : d.find s with
  | none =>
      apply List.filter_eq_nil_iff.mpr
      intro q hq
      simpa using d.find_eq_none_iff.mp found q hq
  | some q =>
      have alone : ∀ p, p ∈ d.entries.filter (fun q => q.ptext = s) ↔ p ∈ [q] := by
        intro p
        rw [List.mem_filter, decide_eq_true_eq, ← d.find_eq_some_iff, found, Option.some.injEq,
          List.mem_singleton, eq_comm]
      have once : (d.entries.filter fun q => q.ptext = s).Nodup :=
        (d.distinct.of_map _).filter _
      exact List.perm_singleton.mp
        ((List.perm_ext_iff_of_nodup once (List.nodup_singleton q)).mpr alone)

theorem mem_ending : q ∈ d.ending s ↔ q ∈ d.entries ∧ q.ptext <:+ s := by
  simp only [ending, List.mem_filterMap, List.mem_tails, find_eq_some_iff]
  constructor
  · rintro ⟨w, suffix, hq, rfl⟩
    exact ⟨hq, suffix⟩
  · rintro ⟨hq, suffix⟩
    exact ⟨q.ptext, suffix, hq, rfl⟩

theorem ending_cons (a : UInt8) (s : Bytes) :
    d.ending (a :: s) = (d.find (a :: s)).toList ++ d.ending s := by
  rw [ending, List.tails_cons, List.filterMap_cons]
  cases d.find (a :: s) <;> rfl

theorem ending_nil : d.ending [] = [] := by
  rw [List.eq_nil_iff_forall_not_mem]
  intro q hq
  obtain ⟨entry, suffix⟩ := d.mem_ending.mp hq
  exact d.nonempty q entry (List.suffix_nil.mp suffix)

theorem ending_eq_find_append (s : Bytes) : d.ending s = (d.find s).toList ++ d.ending s.tail := by
  cases s with
  | nil =>
      have none : d.find [] = none := d.find_eq_none_iff.mpr d.nonempty
      rw [none]
      rfl
  | cons a s => exact d.ending_cons a s

/-- The listed entries have distinct texts, each shorter than those before it. -/
theorem nodup_ending (s : Bytes) : ((d.ending s).map AcPattern.ptext).Nodup := by
  induction s with
  | nil =>
      rw [d.ending_nil]
      exact List.nodup_nil
  | cons a s ih =>
      rw [d.ending_cons]
      cases found : d.find (a :: s) with
      | none => exact ih
      | some q =>
          refine List.nodup_cons.mpr ⟨?_, ih⟩
          intro again
          obtain ⟨p, hp, same⟩ := List.mem_map.mp again
          have shorter := (d.mem_ending.mp hp).2.length_le
          rw [same, (d.find_eq_some_iff.mp found).2, List.length_cons] at shorter
          omega

theorem ending_append_of_forall (front : Bytes)
    (inside : ∀ q ∈ d.entries, q.ptext <:+ front ++ s → q.ptext <:+ s) :
    d.ending (front ++ s) = d.ending s := by
  induction front with
  | nil => rfl
  | cons a front ih =>
      have none : d.find (a :: (front ++ s)) = none := by
        rw [find_eq_none_iff]
        intro q hq same
        have short := (inside q hq (same ▸ List.suffix_rfl)).length_le
        rw [same, List.length_cons, List.length_append] at short
        omega
      rw [List.cons_append, d.ending_cons, none]
      exact ih fun q hq suffix => inside q hq (suffix.trans (List.suffix_cons a _))

/-- Only the longest suffix that is a path matters. -/
theorem ending_of_isLongest {P : Bytes → Prop} (present : ∀ q ∈ d.entries, P q.ptext)
    (longest : IsLongest P t f) : d.ending t = d.ending f := by
  obtain ⟨front, rfl⟩ := longest.suffix
  exact d.ending_append_of_forall front fun q hq suffix => longest.max _ suffix (present q hq)

end Dictionary

namespace ActNode

variable {d : Dictionary} {x : ActNode} {s : Bytes}

/-- Accepting patterns keeps a list that starts a given one, as long as they come in its
order: `front` is what has to be there before the patterns `ps`. -/
theorem foldl_acceptPattern_initial {whole front ps rest : List AcPattern}
    (distinct : (whole.map AcPattern.ptext).Nodup) (split : whole = front ++ (ps ++ rest))
    (reached : front <+: x.matched) (initial : x.matched <+: whole) :
    front ++ ps <+: (ps.foldl acceptPattern x).matched ∧
      (ps.foldl acceptPattern x).matched <+: whole := by
  induction ps generalizing x front with
  | nil => exact ⟨(List.append_nil front).symm ▸ reached, initial⟩
  | cons p ps ih =>
      have split' : whole = front ++ [p] ++ (ps ++ rest) := by
        rw [split, List.append_assoc, List.cons_append, List.singleton_append]
      obtain ⟨more, listed⟩ := reached
      have accepted : front ++ [p] <+: (x.acceptPattern p).matched ∧
          (x.acceptPattern p).matched <+: whole := by
        cases more with
        | nil =>
            rw [List.append_nil] at listed
            -- The texts of `whole` are distinct, so the next one is not among the first ones.
            have new : x.hasPattern p = false := by
              rw [split', List.map_append, List.map_append] at distinct
              have apart := List.nodup_append.mp (List.nodup_append.mp distinct).1
              rw [hasPattern, List.any_eq_false, ← listed]
              intro q hq same
              exact apart.2.2 _ (List.mem_map_of_mem hq) _ (List.mem_singleton_self _)
                (eq_of_beq same)
            have appended : (x.acceptPattern p).matched = front ++ [p] := by
              rw [acceptPattern, new, listed]
              rfl
            exact ⟨appended ▸ List.prefix_rfl, appended ▸ split' ▸ List.prefix_append _ _⟩
        | cons q more =>
            obtain ⟨unread, completed⟩ := initial
            rw [← listed, split, List.append_assoc] at completed
            obtain ⟨rfl, _⟩ := List.cons.inj (List.append_cancel_left completed)
            have known : x.hasPattern q = true := by
              rw [hasPattern, List.any_eq_true, ← listed]
              exact ⟨q, by simp, beq_self_eq_true _⟩
            rw [acceptPattern, if_pos known, ← listed, split]
            refine ⟨⟨more, by simp⟩, ⟨unread, ?_⟩⟩
            rw [List.append_assoc, completed]
      obtain ⟨reached', initial'⟩ := accepted
      have done := ih split' reached' initial'
      rwa [List.append_assoc, List.singleton_append] at done

theorem inherit_matched (x n : ActNode) :
    (x.inherit n).matched = (n.matched.foldl acceptPattern x).matched := by
  unfold inherit
  split <;> rfl

/-- A node with path `s` lists some of the entries that end there, from the longest on,
and among them its own. -/
structure Ordered (d : Dictionary) (s : Bytes) (x : ActNode) : Prop where
  own : (d.find s).toList <+: x.matched
  initial : x.matched <+: d.ending s

theorem Ordered.of_eq (listed : x.matched = d.ending s) : x.Ordered d s where
  own := by
    rw [listed, d.ending_eq_find_append]
    exact List.prefix_append _ _
  initial := listed ▸ List.prefix_rfl

end ActNode

variable {mp : Mpool} {path : Nat → Bytes} {d : Dictionary} {n : Nat} {s : Bytes}

/-- Every list is in order. -/
def Ranked (mp : Mpool) (path : Nat → Bytes) (d : Dictionary) : Prop :=
  ∀ {i}, i < mp.length → (mp.node i).Ordered d (path i)

/-- Every node lists exactly the entries that end its path, the longest first. -/
def Listed (mp : Mpool) (path : Nat → Bytes) (d : Dictionary) : Prop :=
  ∀ {i}, i < mp.length → (mp.node i).matched = d.ending (path i)

/-- Inheriting along the failure chain of `n` appends what ends the tail of its path. -/
theorem FailureChain.inheritAll_matched {chain : List Nat} (failures : FailureChain mp path n chain)
    (root : path 0 = []) (ranked : Ranked mp path d)
    (present : ∀ q ∈ d.entries, IsPath mp path q.ptext) {x : ActNode} {front : List AcPattern}
    (split : d.ending s = front ++ d.ending (path n).tail) (reached : front <+: x.matched)
    (initial : x.matched <+: d.ending s) :
    (ActNode.inheritAll (chain.map mp.node) x).matched = d.ending s := by
  induction failures generalizing x front with
  | root =>
      rw [root, List.tail_nil, d.ending_nil, List.append_nil] at split
      exact initial.eq_of_length_le (split ▸ reached.length_le)
  | @link n f chain nonempty inside border rest ih =>
      have next : d.ending (path n).tail = d.ending (path f) := d.ending_of_isLongest present border
      obtain ⟨own, unread, listed⟩ := ranked inside
      have source : d.ending s = front ++ ((mp.node f).matched ++ unread) := by
        rw [split, next, listed]
      obtain ⟨reached', initial'⟩ := ActNode.foldl_acceptPattern_initial (d.nodup_ending s) source
        reached initial
      rw [← ActNode.inherit_matched] at reached' initial'
      have split' : d.ending s = front ++ (d.find (path f)).toList ++ d.ending (path f).tail := by
        rw [split, next, d.ending_eq_find_append, List.append_assoc]
      have taken : front ++ (d.find (path f)).toList <+: front ++ (mp.node f).matched :=
        (List.prefix_append_right_inj front).mpr own
      exact ih split' (taken.trans reached') initial'

end Multifast
