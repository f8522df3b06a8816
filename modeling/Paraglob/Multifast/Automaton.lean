import Paraglob.Multifast.Refinement

/-!
# From patterns to the automaton

A trie is fed with any patterns, some of which it refuses, and then finalized.
The results below describe what comes out in the terms of the C structures: the
failure node, the match list and the final flag of every node, and the two
functions that look up an edge. The strings on the paths are those that linear
search spells out from the root.
-/

namespace Multifast

open LongestSuffix

/-- The dictionary grows by the patterns that are accepted, and by no others. -/
theorem Dictionary.insert_entries (d : Dictionary) (patt : AcPattern) :
    (d.insert patt).2.entries =
      if (d.insert patt).1 = .success then d.entries ++ [patt] else d.entries := by
  by_cases zero : patt.ptext.length = 0
  · rw [d.insert_of_zero zero]
    rfl
  by_cases long : patt.ptext.length > acPatternMaxLength
  · rw [d.insert_of_long zero long]
    rfl
  by_cases known : d.Has patt.ptext
  · rw [d.insert_of_has zero long known]
    rfl
  · obtain ⟨accepted, grown⟩ := d.insert_of_not_has zero long known
    rw [if_pos accepted, grown]

namespace AcTrie

/-- Hand patterns to the trie one after the other, whatever it answers. -/
def addEach (thiz : AcTrie) (patts : List AcPattern) : AcTrie :=
  patts.foldl (fun thiz patt => (thiz.add patt).2) thiz

/-- Those of the patterns for which `ac_trie_add` returns success. -/
def added (thiz : AcTrie) : List AcPattern → List AcPattern
  | [] => []
  | patt :: rest =>
      if (thiz.add patt).1 = .success then patt :: (thiz.add patt).2.added rest
      else (thiz.add patt).2.added rest

/-- The node a string leads to from the root. -/
def reach (thiz : AcTrie) (s : Bytes) : Option Nat := thiz.nodes.walk thiz.root s

variable {thiz : AcTrie} {path : Nat → Bytes} {d : Dictionary} {h : Bytes} {n : Nat} {s : Bytes}

theorem Open.addEach_spec (opened : thiz.Open path d) (patts : List AcPattern) :
    ∃ path' d', (thiz.addEach patts).Open path' d' ∧
      d'.entries = d.entries ++ thiz.added patts := by
  induction patts generalizing thiz path d with
  | nil => exact ⟨path, d, opened, (List.append_nil _).symm⟩
  | cons patt patts ih =>
      obtain ⟨status, ⟨path₁, opened₁⟩, _⟩ := opened.add_spec patt
      obtain ⟨path', d', opened', entries⟩ := ih opened₁
      refine ⟨path', d', opened', ?_⟩
      rw [entries, d.insert_entries, ← status, added]
      by_cases accepted : (thiz.add patt).1 = .success
      · rw [if_pos accepted, if_pos accepted, List.append_assoc, List.singleton_append]
      · rw [if_neg accepted, if_neg accepted]

theorem Open.added_eq_self (opened : thiz.Open path d) {patts : List AcPattern}
    (distinct : (patts.map AcPattern.ptext).Nodup)
    (proper : ∀ p ∈ patts, p.ptext ≠ [] ∧ p.ptext.length ≤ acPatternMaxLength)
    (new : ∀ p ∈ patts, ¬ d.Has p.ptext) : thiz.added patts = patts := by
  induction patts generalizing thiz path d with
  | nil => rfl
  | cons patt patts ih =>
      obtain ⟨status, ⟨path', opened'⟩, _⟩ := opened.add_spec patt
      obtain ⟨nonempty, short⟩ := proper patt List.mem_cons_self
      obtain ⟨unlisted, distinct⟩ := List.nodup_cons.mp distinct
      obtain ⟨success, entries⟩ := d.insert_of_not_has
        (fun zero => nonempty (List.length_eq_zero_iff.mp zero)) (Nat.not_lt.mpr short)
        (new patt List.mem_cons_self)
      rw [added, if_pos (status.trans success)]
      congr 1
      apply ih opened' distinct fun p hp => proper p (List.mem_cons_of_mem _ hp)
      rintro p hp ⟨q, hq, same⟩
      rw [entries] at hq
      cases List.mem_append.mp hq with
      | inl old => exact new p (List.mem_cons_of_mem _ hp) ⟨q, old, same⟩
      | inr here =>
          rw [List.mem_singleton.mp here] at same
          exact unlisted (same ▸ List.mem_map_of_mem hp)

/-- Finalizing a trie that was fed with any patterns returns the automaton of those that
were accepted. -/
theorem finalize_addEach (patts : List AcPattern) :
    ∃ thiz path d, (create.addEach patts).finalize = .ok thiz ∧ thiz.Closed path d [] ∧
      Listed thiz.nodes path d ∧ d.entries = create.added patts := by
  obtain ⟨path, d, opened', entries⟩ := open_create.addEach_spec patts
  obtain ⟨thiz, ran, closed, listed⟩ := opened'.finalize_spec
  exact ⟨thiz, path, d, ran, closed, listed, entries⟩

theorem reach_eq_some_iff (root : thiz.root = 0) (lab : Labelling thiz.nodes path) :
    thiz.reach s = some n ↔ n < thiz.nodes.length ∧ path n = s := by
  rw [reach, root, lab.walk_eq_some_iff lab.pos, lab.root, List.nil_append]

theorem Idle.reach_eq_some_iff (idle : thiz.Idle path d h) :
    thiz.reach s = some n ↔ n < thiz.nodes.length ∧ path n = s :=
  AcTrie.reach_eq_some_iff idle.root idle.finalized.labelling

theorem Idle.lastNode_spec (idle : thiz.Idle path d h) :
    ∃ s, thiz.reach s = some thiz.lastNode ∧ thiz.Idle path d s := by
  have lab := idle.finalized.labelling
  have inside := (lab.stateAfter_spec h).1
  rw [← idle.lastNode] at inside
  have saved := (lab.stateAfter_path inside).symm
  exact ⟨path thiz.lastNode, idle.reach_eq_some_iff.mpr ⟨inside, rfl⟩,
    idle.trieOpen, idle.root, idle.finalized, saved, idle.wm⟩

theorem Idle.isPath_eq (idle : thiz.Idle path d h) :
    (fun s => ∃ n, thiz.reach s = some n) = IsPath thiz.nodes path := by
  funext s
  simp only [idle.reach_eq_some_iff]
  rfl

/-- `ac_trie_finalize` computes the Aho-Corasick automaton. Every node has one string on its
path from the root; its failure node is the node of the longest proper suffix that is a path; it
lists the added patterns that end its string, each once, and is final if there are any. -/
theorem finalize_structure (patts : List AcPattern) :
    ∃ thiz, (create.addEach patts).finalize = .ok thiz ∧
      (∀ n < thiz.nodes.length, ∃! s, thiz.reach s = some n) ∧
      ∀ n s, thiz.reach s = some n →
        (n ≠ thiz.root → ∃ f t, (thiz.nodes.node n).failureNode = some f ∧
          thiz.reach t = some f ∧ IsBorder (fun u => ∃ m, thiz.reach u = some m) s t) ∧
        (∀ q, q ∈ (thiz.nodes.node n).matched ↔ q ∈ create.added patts ∧ q.ptext <:+ s) ∧
        (thiz.nodes.node n).matched.Nodup ∧
        ((thiz.nodes.node n).final = true ↔ (thiz.nodes.node n).matched ≠ []) := by
  obtain ⟨thiz, path, d, ran, closed, _, entries⟩ := finalize_addEach patts
  refine ⟨thiz, ran, ?_, ?_⟩
  · intro n inside
    refine ⟨path n, closed.idle.reach_eq_some_iff.mpr ⟨inside, rfl⟩, ?_⟩
    intro s reached
    exact (closed.idle.reach_eq_some_iff.mp reached).2.symm
  · intro n s reached
    obtain ⟨inside, rfl⟩ := closed.idle.reach_eq_some_iff.mp reached
    have complete := closed.finalized.complete inside
    refine ⟨?_, ?_, complete.distinct.of_map _, complete.matched_ne_nil⟩
    · rw [closed.root, closed.idle.isPath_eq]
      intro root
      obtain ⟨_, f, inside', link, border⟩ := closed.finalized.links.linked inside root
      exact ⟨f, path f, link, closed.idle.reach_eq_some_iff.mpr ⟨inside', rfl⟩, border⟩
    · intro q
      rw [complete.matched, entries]

/-- On every node of a finalized trie the binary search over the sorted edges stays inside the
array and finds what the linear search finds, or nothing when no edge has the letter. -/
theorem findNextBs_eq_findNext (patts : List AcPattern) :
    ∃ thiz, (create.addEach patts).finalize = .ok thiz ∧
      ∀ nod ∈ thiz.nodes, ∀ alpha,
        nod.findNextBs alpha = .ok (nod.findNext alpha) ∧
          (nod.findNext alpha = none ↔ ∀ e ∈ nod.outgoing, e.alpha ≠ alpha) := by
  obtain ⟨thiz, path, d, ran, closed, _⟩ := finalize_addEach patts
  refine ⟨thiz, ran, ?_⟩
  intro nod hn alpha
  obtain ⟨n, inside, rfl⟩ := Mpool.exists_node hn
  refine ⟨?_, ActNode.findNext_eq_none_iff⟩
  exact ActNode.findNextBs_eq (closed.finalized.complete inside).sorted
    (closed.finalized.labelling.letters inside) alpha

end AcTrie

end Multifast
