import Paraglob.Core.Runs
import Paraglob.Library.Fnmatch

/-!
# What a failed `add` leaves behind

`add` hands its words to the trie one by one and stops at the first one that the
trie refuses. `ac_trie_add` checks a word before it touches the trie, but `add`
does not check the words of a pattern before it stores the first of them: when a
later word is too long, the earlier ones stay, with the pattern posted under them.
-/

open Multifast

/-- The pattern has a word that the trie takes in front of one that is too long. -/
def PartlyLong (pattern : Bytes) : Prop :=
  ∃ word rest, Glob.metaWords pattern = word :: rest ∧ short word = true ∧
    ∃ later ∈ rest, short later = false

theorem partlyLong_of_posted {pattern : Bytes} (long : (Glob.metaWords pattern).all short = false)
    (posts : posted pattern ≠ []) : PartlyLong pattern := by
  cases words : Glob.metaWords pattern with
  | nil => simp [posted, words] at posts
  | cons word rest =>
      rw [words, List.all_cons] at long
      cases fits : short word with
      | false => simp [posted, words, fits] at posts
      | true =>
          rw [fits, Bool.true_and, List.all_eq_false] at long
          obtain ⟨later, mem, exceeds⟩ := long
          exact ⟨word, rest, words, fits, later, mem, Bool.eq_false_iff.mpr exceeds⟩

namespace PartlyLong

variable {pattern : Bytes}

theorem long (h : PartlyLong pattern) : (Glob.metaWords pattern).all short = false := by
  obtain ⟨word, rest, words, _, later, mem, exceeds⟩ := h
  rw [words, List.all_eq_false]
  exact ⟨later, List.mem_cons_of_mem _ mem, Bool.eq_false_iff.mp exceeds⟩

theorem exists_posted (h : PartlyLong pattern) : ∃ word, (word, pattern) ∈ posted pattern := by
  obtain ⟨word, rest, words, fits, _⟩ := h
  refine ⟨word, ?_⟩
  rw [posted, words, List.takeWhile_cons_of_pos fits]
  exact List.mem_cons_self

end PartlyLong

/-- `a*` in front of 1025 letters `b`, the last word of which is too long. -/
def longTail : Bytes := 97 :: 42 :: List.replicate 1025 98

theorem metaWords_longTail : Glob.metaWords longTail = [[97], List.replicate 1025 98] := by
  have nonempty : List.replicate 1025 (98 : UInt8) ≠ [] := by
    apply List.ne_nil_of_length_pos
    rw [List.length_replicate]
    decide
  have literal : ∀ c ∈ List.replicate 1025 (98 : UInt8),
      c ∉ Glob.wildcards ∧ c ≠ Glob.openBracket := by
    intro c hc
    rw [List.eq_of_mem_replicate hc]
    decide
  have tail : Glob.scan [] (List.replicate 1025 98) = [List.replicate 1025 98] :=
    (Glob.metaWords_eq_scan _).symm.trans (Glob.metaWords_of_literals nonempty literal)
  rw [Glob.metaWords_eq_scan, longTail, Glob.scan_literal (by decide) (by decide),
    Glob.scan_wildcard (by decide), tail]
  rfl

theorem partlyLong_longTail : PartlyLong longTail := by
  have exceeds : short (List.replicate 1025 98) = false := by
    rw [short, List.length_replicate]
    decide
  exact ⟨[97], _, metaWords_longTail, by decide, _, List.mem_singleton_self _, exceeds⟩

namespace Paraglob

variable {fnmatch : Bytes → Bytes → Bool} {pg pg' : Paraglob} {ix : Index}

/-- Everything about a Paraglob that its functions return or look up is the same. -/
structure Unchanged (fnmatch : Bytes → Bytes → Bool) (pg pg' : Paraglob) : Prop where
  patterns : pg'.getPatterns = pg.getPatterns
  metaWords : pg'.metaWords = pg.metaWords
  nodes : ∀ word, pg'.metaToNodeMap.lookup word = pg.metaToNodeMap.lookup word
  singleWildcards : pg'.singleWildcards = pg.singleWildcards
  answers : ∃ compiled compiled', pg.compile = .ok compiled ∧ pg'.compile = .ok compiled' ∧
    ∀ text, (compiled'.get fnmatch text).map Prod.fst = (compiled.get fnmatch text).map Prod.fst

theorem Represents.unchanged (h : pg.Represents ix) : Unchanged fnmatch pg pg := by
  obtain ⟨compiled, ran, _⟩ := h.compile_spec
  exact ⟨rfl, rfl, fun _ => rfl, rfl, compiled, compiled, ran, ran, fun _ => rfl⟩

theorem Represents.add_of_closed (h : pg.Represents ix) (closed : ix.accepting = false)
    {pattern : Bytes} (refused : Glob.metaWords pattern ≠ []) :
    pg.add pattern = .ok (false, pg) := by
  obtain ⟨d, rep, _⟩ := h.stores.trie
  rw [closed] at rep
  have kept : single pattern = [] := by simp [single, refused]
  rw [add, getMetaWords_eq, kept, List.append_nil]
  cases words : Glob.metaWords pattern with
  | nil => exact absurd words refused
  | cons word rest =>
      change pg.addWords pattern (word :: rest) = _
      rw [addWords]
      simp only [AhoCorasickPlus.addPattern_of_closed rep]

theorem Represents.add_of_long (h : pg.Represents ix) (opened : ix.accepting = true)
    {pattern : Bytes} (long : (Glob.metaWords pattern).all short = false)
    (postsNone : posted pattern = []) : pg.add pattern = .ok (false, pg) := by
  have stores := h.stores
  rw [opened] at stores
  cases words : Glob.metaWords pattern with
  | nil => simp [words] at long
  | cons word rest =>
      have kept : single pattern = [] := by simp [single, words]
      have exceeds : short word = false := by
        cases fits : short word with
        | false => rfl
        | true => simp [posted, words, fits] at postsNone
      rw [add, getMetaWords_eq, kept, List.append_nil, words]
      exact stores.addWords_of_long exceeds pattern rest

theorem Represents.lookup_ne (h : pg.Represents ix) {ix' : Index} (h' : pg'.Represents ix')
    {posts : List (Bytes × Bytes)} (grown : ix'.postings = ix.postings ++ posts)
    {word p : Bytes} (mem : (word, p) ∈ posts) :
    pg'.metaToNodeMap.lookup word ≠ pg.metaToNodeMap.lookup word := by
  have known : word ∈ wordsOf ix'.postings :=
    mem_wordsOf.mpr ⟨p, grown ▸ List.mem_append_right _ mem⟩
  have longer : (patternsOf ix.postings word).length < (patternsOf ix'.postings word).length := by
    have more : 0 < (patternsOf posts word).length :=
      List.length_pos_of_mem (mem_patternsOf.mpr mem)
    rw [grown, patternsOf_append, List.length_append]
    omega
  rw [h.stores.nodes, h'.stores.nodes, if_pos known]
  split
  · intro same
    have lists := congrArg ParaglobNode.patterns (Option.some.inj same)
    exact absurd (congrArg List.length lists) (Nat.ne_of_gt longer)
  · simp

/-- In every reachable state a call of `add` that returns false changes nothing if and
only if the trie is closed or the pattern is not partly long. -/
theorem failed_add_unchanged_iff (reachable : Reachable fnmatch pg) (pattern : Bytes) :
    ∃ added pg', pg.add pattern = .ok (added, pg') ∧
      ((added = false → Unchanged fnmatch pg pg') ↔
        ¬ (pg.myAc.automata.trieOpen = true ∧ PartlyLong pattern)) := by
  obtain ⟨ix, h⟩ := reachable.represents
  obtain ⟨pg', ran, h'⟩ := h.add_spec pattern
  obtain ⟨d, trie, _⟩ := h.stores.trie
  refine ⟨_, pg', ran, ?_⟩
  rw [trie.trieOpen_eq]
  cases accepting : ix.accepting with
  | false =>
      have right : ¬ (false = true ∧ PartlyLong pattern) := fun partly => Bool.noConfusion partly.1
      refine iff_of_true (fun failed => ?_) right
      have refused : Glob.metaWords pattern ≠ [] := by simpa [Index.add, accepting] using failed
      have same := ran.symm.trans (h.add_of_closed accepting refused)
      obtain ⟨_, rfl⟩ := Prod.mk.inj (Except.ok.inj same)
      exact h.unchanged
  | true =>
      have status : (ix.add pattern).1 = (Glob.metaWords pattern).all short := by
        rw [Index.add, if_pos accepting]
      have grown : (ix.add pattern).2.postings = ix.postings ++ posted pattern := by
        rw [Index.add, if_pos accepting]
      rw [status]
      constructor
      · rintro atomic ⟨_, partly⟩
        obtain ⟨word, mem⟩ := partly.exists_posted
        exact h.lookup_ne h' grown mem ((atomic partly.long).nodes word)
      · intro complete long
        have postsNone : posted pattern = [] := by
          by_contra posts
          exact complete ⟨rfl, partlyLong_of_posted long posts⟩
        have same := ran.symm.trans (h.add_of_long accepting long postsNone)
        obtain ⟨_, rfl⟩ := Prod.mk.inj (Except.ok.inj same)
        exact h.unchanged

/-- After adding `a` and compiling, adding a partly long pattern fails and changes nothing. -/
theorem failed_add_unchanged_iff_a :
    ∃ pg compiled refused, create.add [97] = .ok (true, pg) ∧ pg.compile = .ok compiled ∧
      compiled.add longTail = .ok (false, refused) ∧
      Unchanged (Fnmatch.fnmatch Fnmatch.cLocale) compiled refused := by
  have accepted : (Index.empty.add [97]).1 = true := by decide +kernel
  obtain ⟨pg, posted, rep⟩ := represents_create.add_returns accepted
  obtain ⟨compiled, ran, closed⟩ := rep.compile_spec
  have reachable : Reachable (Fnmatch.fnmatch Fnmatch.cLocale) compiled :=
    .compile (.add .create posted) ran
  obtain ⟨added, refused, failed, unchanged⟩ := failed_add_unchanged_iff reachable longTail
  have words : Glob.metaWords longTail ≠ [] := metaWords_longTail ▸ List.cons_ne_nil _ _
  have refuses := closed.add_of_closed rfl words
  obtain ⟨rfl, _⟩ := Prod.mk.inj (Except.ok.inj (failed.symm.trans refuses))
  obtain ⟨_, trie, _⟩ := closed.stores.trie
  have shut : compiled.myAc.automata.trieOpen = false := trie.trieOpen_eq
  have meets : ¬ (compiled.myAc.automata.trieOpen = true ∧ PartlyLong longTail) := by
    rw [shut]
    exact fun partly => Bool.noConfusion partly.1
  exact ⟨pg, compiled, refused, posted, ran, failed, unchanged.mpr meets rfl⟩

/-- A failed `add` that posts `a`. -/
theorem failed_add_longTail :
    ¬ ∀ (pg pg' : Paraglob) (pattern : Bytes),
      Reachable (Fnmatch.fnmatch Fnmatch.cLocale) pg → pg.add pattern = .ok (false, pg') →
        Unchanged (Fnmatch.fnmatch Fnmatch.cLocale) pg pg' := by
  intro atomic
  have failed : (Index.empty.add longTail).1 = false := partlyLong_longTail.long
  obtain ⟨pg', ran, h'⟩ := represents_create.add_returns failed
  obtain ⟨word, mem⟩ := partlyLong_longTail.exists_posted
  have grown : (Index.empty.add longTail).2.postings =
      Index.empty.postings ++ posted longTail := rfl
  exact represents_create.lookup_ne h' grown mem ((atomic _ _ _ .create ran).nodes word)

end Paraglob
