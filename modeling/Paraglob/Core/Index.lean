import Paraglob.Core.Paraglob
import Paraglob.Core.Scanner
import Mathlib.Data.List.Infix

/-!
# The index a Paraglob stands for

Behind the trie, the list of meta words and the node map there is one list of
postings: pairs of a meta word and a pattern that contains it, in the order in
which they were stored. The patterns without meta words are kept beside it. This
file defines the index and what adding, compiling and asking mean for it; it
mentions neither nodes nor numbers. An index carries the proof that its postings
are honest.
-/

open Multifast

/-- The inverted index. While it is accepting, the trie is open. -/
structure Index where
  accepting : Bool
  postings : List (Bytes × Bytes)
  singles : List Bytes
  honest : ∀ e ∈ postings, e.1 ∈ Glob.metaWords e.2 ∧ e.1.length ≤ acPatternMaxLength
  wordless : ∀ p ∈ singles, p ≠ [] ∧ Glob.metaWords p = []

/-- The words of some postings, in the order of their first appearance. -/
def wordsOf (postings : List (Bytes × Bytes)) : List Bytes := (postings.map Prod.fst).eraseDups

/-- The patterns posted under a word. -/
def patternsOf (postings : List (Bytes × Bytes)) (word : Bytes) : List Bytes :=
  (postings.filter fun e => e.1 = word).map Prod.snd

theorem mem_wordsOf {postings : List (Bytes × Bytes)} {word : Bytes} :
    word ∈ wordsOf postings ↔ ∃ p, (word, p) ∈ postings := by
  simp [wordsOf, List.mem_eraseDups]

theorem mem_patternsOf {postings : List (Bytes × Bytes)} {word p : Bytes} :
    p ∈ patternsOf postings word ↔ (word, p) ∈ postings := by
  simp [patternsOf]

theorem wordsOf_concat (postings : List (Bytes × Bytes)) (word p : Bytes) :
    wordsOf (postings ++ [(word, p)]) =
      if word ∈ wordsOf postings then wordsOf postings else wordsOf postings ++ [word] := by
  rw [wordsOf, List.map_append, List.eraseDups_append]
  by_cases known : word ∈ wordsOf postings
  · have listed : word ∈ postings.map Prod.fst := List.mem_eraseDups.mp known
    rw [if_pos known]
    simp [List.removeAll, listed, wordsOf]
  · have unlisted : word ∉ postings.map Prod.fst := fun h => known (List.mem_eraseDups.mpr h)
    rw [if_neg known]
    simp [List.removeAll, unlisted, wordsOf, List.eraseDups_cons]

theorem nodup_wordsOf (postings : List (Bytes × Bytes)) : (wordsOf postings).Nodup := by
  induction postings using List.reverseRecOn with
  | nil => exact List.nodup_nil
  | append_singleton postings e ih =>
      rw [wordsOf_concat]
      split
      · exact ih
      · rename_i unlisted
        exact List.nodup_append_comm.mp (List.nodup_cons.mpr ⟨unlisted, ih⟩)

theorem patternsOf_append (postings more : List (Bytes × Bytes)) (word : Bytes) :
    patternsOf (postings ++ more) word = patternsOf postings word ++ patternsOf more word := by
  simp [patternsOf]

theorem patternsOf_concat (postings : List (Bytes × Bytes)) (word p v : Bytes) :
    patternsOf (postings ++ [(word, p)]) v =
      if word = v then patternsOf postings v ++ [p] else patternsOf postings v := by
  rw [patternsOf_append]
  by_cases same : word = v
  · simp [patternsOf, same]
  · simp [patternsOf, same]

/-- The trie takes words up to a maximal length. -/
def short (word : Bytes) : Bool := word.length ≤ acPatternMaxLength

/-- What adding a pattern posts: its words in front of the first one that is too long. -/
def posted (pattern : Bytes) : List (Bytes × Bytes) :=
  ((Glob.metaWords pattern).takeWhile short).map fun word => (word, pattern)

/-- The pattern itself, if it is kept beside the postings. -/
def single (pattern : Bytes) : List Bytes :=
  if Glob.metaWords pattern = [] ∧ pattern ≠ [] then [pattern] else []

theorem mem_posted_honest {pattern : Bytes} {e : Bytes × Bytes} (h : e ∈ posted pattern) :
    e.1 ∈ Glob.metaWords e.2 ∧ e.1.length ≤ acPatternMaxLength := by
  obtain ⟨word, hw, rfl⟩ := List.mem_map.mp h
  exact ⟨(List.takeWhile_sublist short).mem hw, by simpa [short] using List.mem_takeWhile_imp hw⟩

theorem mem_single {pattern p : Bytes} :
    p ∈ single pattern ↔ p = pattern ∧ Glob.metaWords pattern = [] ∧ pattern ≠ [] := by
  by_cases kept : Glob.metaWords pattern = [] ∧ pattern ≠ []
  · rw [single, if_pos kept, List.mem_singleton]
    exact (and_iff_left kept).symm
  · rw [single, if_neg kept]
    exact ⟨fun h => absurd h List.not_mem_nil, fun own => absurd own.2 kept⟩

namespace Index

/-- The index of a new Paraglob. -/
def empty : Index := ⟨true, [], [], by simp, by simp⟩

/-- What `add` means. A closed index takes no words, so it fails on a pattern that has any. -/
def add (ix : Index) (pattern : Bytes) : Bool × Index :=
  if ix.accepting then
    ((Glob.metaWords pattern).all short, {
      accepting := true
      postings := ix.postings ++ posted pattern
      singles := ix.singles ++ single pattern
      honest := fun e he => (List.mem_append.mp he).elim (ix.honest e) mem_posted_honest
      wordless := fun p hp => (List.mem_append.mp hp).elim (ix.wordless p) fun h =>
        have own := mem_single.mp h
        own.1 ▸ ⟨own.2.2, own.2.1⟩ })
  else
    (Glob.metaWords pattern = [], { ix with
      singles := ix.singles ++ single pattern
      wordless := fun p hp => (List.mem_append.mp hp).elim (ix.wordless p) fun h =>
        have own := mem_single.mp h
        own.1 ▸ ⟨own.2.2, own.2.1⟩ })

/-- What `compile` means. -/
def close (ix : Index) : Index := { ix with accepting := false }

/-- The meta words in the order of their numbers. -/
def words (ix : Index) : List Bytes := wordsOf ix.postings

/-- The patterns a text is tried on and that accept it. An open index tries none. -/
def candidates (fnmatch : Bytes → Bytes → Bool) (ix : Index) (text : Bytes) : List Bytes :=
  (ix.postings.filter fun e =>
    !ix.accepting && decide (e.1 <:+: text) && fnmatch e.2.cStr text.cStr).map Prod.snd

/-- What `get` means. -/
def answer (fnmatch : Bytes → Bytes → Bool) (ix : Index) (text : Bytes) : List Bytes :=
  SortedUnique.sortUnique (ix.candidates fnmatch text ++ ix.singles)

/-- What `get_patterns` means. -/
def patterns (ix : Index) : List Bytes :=
  SortedUnique.sortUnique (ix.postings.map Prod.snd ++ ix.singles)

end Index
