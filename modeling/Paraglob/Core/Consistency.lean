import Paraglob.Core.Runs
import Paraglob.Library.Fnmatch

/-!
# The index structures stay in step

The trie numbers its words by their positions in the list of meta words, and the
node map has an entry for each of them. In every reachable state the three agree,
so none of the lookups of `add` and `get` can miss.
-/

open Multifast

namespace Paraglob

/-- The list of meta words, the node map and the trie describe the same words. -/
structure InStep (pg : Paraglob) : Prop where
  distinct : pg.metaWords.Nodup
  keys : ∀ word, word ∈ pg.metaToNodeMap ↔ word ∈ pg.metaWords
  accepted : ∀ word id, pg.myAc.automata.Accepts word id ↔
    ∃ i : Nat, id = i ∧ pg.metaWords[i]? = some word
  matched : ∀ nod ∈ pg.myAc.automata.nodes, ∀ q ∈ nod.matched,
    ∃ i : Nat, q.id = i ∧ pg.metaWords[i]? = some q.ptext
  patterns : ∀ word node, pg.metaToNodeMap.lookup word = some node →
    node.metaWord = word ∧ ∀ p ∈ node.patterns, word ∈ Glob.metaWords p

variable {fnmatch : Bytes → Bytes → Bool} {pg : Paraglob} {ix : Index}

theorem mem_numbered_of_few {words : List Bytes} (few : words.length < 2 ^ 31) {q : AcPattern} :
    q ∈ numbered words ↔ ∃ i : Nat, q.id = i ∧ words[i]? = some q.ptext := by
  have exact_number : ∀ {i : Nat} {word : Bytes}, words[i]? = some word →
      ((UInt32.ofNat i).toNat : Int) = i := by
    intro i word at_i
    have bound : i < words.length := (List.getElem?_eq_some_iff.mp at_i).1
    rw [UInt32.toNat_ofNat_of_lt' (by rw [UInt32.size]; omega)]
  rw [mem_numbered]
  constructor
  · rintro ⟨i, at_i, id⟩
    exact ⟨i, id.trans (exact_number at_i), at_i⟩
  · rintro ⟨i, id, at_i⟩
    exact ⟨i, at_i, id.trans (exact_number at_i).symm⟩

theorem Stores.mem_map_iff {accepting : Bool} {postings : List (Bytes × Bytes)}
    (h : pg.Stores accepting postings) (word : Bytes) :
    word ∈ pg.metaToNodeMap ↔ word ∈ pg.metaWords := by
  rw [h.words]
  exact AList.mem_keys.trans (h.mem_keys_iff word)

theorem Represents.inStep (h : pg.Represents ix) (few : pg.metaWords.length < 2 ^ 31) :
    InStep pg := by
  obtain ⟨d, trie, entries⟩ := h.stores.trie
  refine ⟨h.stores.words ▸ nodup_wordsOf _, h.stores.mem_map_iff, ?_, ?_, ?_⟩
  · intro word id
    rw [trie.accepts_iff, entries, mem_numbered_of_few few]
  · intro nod hn q hq
    exact (mem_numbered_of_few few).mp (entries ▸ trie.mem_entries hn hq)
  · intro word node found
    rw [h.stores.nodes] at found
    split at found
    · obtain rfl := Option.some.inj found
      refine ⟨rfl, fun p hp => ?_⟩
      exact (ix.honest _ (mem_patternsOf.mp hp)).1
    · cases found

/-- An open trie reports a duplicate exactly for the words that are in the node map. -/
theorem Represents.duplicate_iff (h : pg.Represents ix) (opened : ix.accepting = true)
    (word : Bytes) (id : PatternId) :
    (pg.myAc.addPattern word id).1 = .duplicatePattern ↔ word ∈ pg.metaToNodeMap := by
  obtain ⟨d, trie, entries⟩ := h.stores.trie
  rw [opened] at trie
  obtain ⟨ac', ran, _⟩ := AhoCorasickPlus.addPattern_spec trie word id
  have known := (h.stores.has_iff entries word).trans
    (h.stores.words ▸ (h.stores.mem_map_iff word).symm)
  have translated : ∀ status, EnumReturnStatus.ofStatus status = .duplicatePattern ↔
      status = .duplicatePattern := by
    intro status
    cases status <;> decide
  rw [ran, translated, d.insert_eq_duplicate_iff, known]

theorem Represents.findAll_valid (h : pg.Represents ix) (few : pg.metaWords.length < 2 ^ 31)
    (text : Bytes) :
    ∃ ids ac', pg.myAc.findAll text false = .ok (ids, ac') ∧
      ∀ n ∈ ids, 0 ≤ n ∧ n < pg.metaWords.length := by
  obtain ⟨ids, ac', ran, _, found⟩ := h.findAll_spec text
  refine ⟨ids, ac', ran, fun n hn => ?_⟩
  obtain ⟨i, ⟨_, word, at_i, _⟩, number⟩ := (found n).mp hn
  rw [h.words_eq] at few ⊢
  have bound : i < ix.words.length := (List.getElem?_eq_some_iff.mp at_i).1
  rw [number, wordNumber_of_lt (bound.trans few)]
  omega

/-- In every reachable state with fewer than `2 ^ 31` meta words the structures are in
step, and what follows from it: `addPattern` reports duplicates as long as the trie is open,
all numbers found are valid, and nothing throws. -/
theorem index_structures_in_step (reachable : Reachable fnmatch pg)
    (few : pg.metaWords.length < 2 ^ 31) :
    InStep pg ∧
      (∀ word id, (pg.myAc.addPattern word id).1 = .duplicatePattern ↔
        pg.myAc.automata.trieOpen = true ∧ word ∈ pg.metaToNodeMap) ∧
      (pg.myAc.automata.trieOpen = false →
        ∀ word id, (pg.myAc.addPattern word id).1 = .automataClosed) ∧
      (∀ text, ∃ ids ac', pg.myAc.findAll text false = .ok (ids, ac') ∧
        ∀ n ∈ ids, 0 ≤ n ∧ n < pg.metaWords.length) ∧
      (∀ pattern, ∃ returned, pg.add pattern = .ok returned) ∧
      ∀ text, ∃ returned, pg.get fnmatch text = .ok returned := by
  obtain ⟨ix, h⟩ := reachable.represents
  obtain ⟨d, trie, _⟩ := h.stores.trie
  have closedStatus : ix.accepting = false →
      ∀ word id, (pg.myAc.addPattern word id).1 = .automataClosed := by
    intro closed word id
    rw [closed] at trie
    rw [AhoCorasickPlus.addPattern_of_closed trie]
  refine ⟨h.inStep few, ?_, ?_, h.findAll_valid few, ?_, ?_⟩
  · intro word id
    rw [trie.trieOpen_eq]
    cases accepting : ix.accepting with
    | true => rw [h.duplicate_iff accepting, eq_self_iff_true, true_and]
    | false =>
        rw [closedStatus accepting]
        exact iff_of_false (by decide) fun both => Bool.noConfusion both.1
  · intro closed
    exact closedStatus (trie.trieOpen_eq.symm.trans closed)
  · intro pattern
    obtain ⟨pg', ran, _⟩ := h.add_spec pattern
    exact ⟨_, ran⟩
  · intro text
    obtain ⟨pg', answered, _⟩ := h.get_spec (h.words_eq ▸ Nat.le_of_lt few) fnmatch text
    exact ⟨_, answered⟩

/-- After adding `ab`, `b` and `b*ab`, the words of which are known by then, and after compiling
and a failed add of `c`. -/
theorem index_structures_in_step_ab :
    ∃ pg₁ pg₂ pg₃ compiled refused, create.add [97, 98] = .ok (true, pg₁) ∧
      pg₁.add [98] = .ok (true, pg₂) ∧ pg₂.add [98, 42, 97, 98] = .ok (true, pg₃) ∧
      pg₃.compile = .ok compiled ∧ compiled.add [99] = .ok (false, refused) ∧
      refused.metaWords = [[97, 98], [98]] ∧ InStep refused ∧
      (∀ word id, (refused.myAc.addPattern word id).1 = .duplicatePattern ↔
        refused.myAc.automata.trieOpen = true ∧ word ∈ refused.metaToNodeMap) ∧
      ∀ text, ∃ returned, refused.get (Fnmatch.fnmatch Fnmatch.cLocale) text = .ok returned := by
  obtain ⟨pg₁, added₁, rep₁⟩ := represents_create.add_returns
    (show (Index.empty.add [97, 98]).1 = true by decide +kernel)
  obtain ⟨pg₂, added₂, rep₂⟩ := rep₁.add_returns
    (show (Index.add _ [98]).1 = true by decide +kernel)
  obtain ⟨pg₃, added₃, rep₃⟩ := rep₂.add_returns
    (show (Index.add _ [98, 42, 97, 98]).1 = true by decide +kernel)
  obtain ⟨compiled, ran, closed⟩ := rep₃.compile_spec
  obtain ⟨refused, failed, rep⟩ := closed.add_returns
    (show (Index.add _ [99]).1 = false by decide +kernel)
  have words : refused.metaWords = [[97, 98], [98]] := by
    rw [rep.words_eq]
    decide +kernel
  have few : refused.metaWords.length < 2 ^ 31 := by
    rw [words]
    decide
  have reachable : Reachable (Fnmatch.fnmatch Fnmatch.cLocale) refused :=
    .add (.compile (.add (.add (.add .create added₁) added₂) added₃) ran) failed
  obtain ⟨inStep, duplicate, _, _, _, answers⟩ := index_structures_in_step reachable few
  exact ⟨pg₁, pg₂, pg₃, compiled, refused, added₁, added₂, added₃, ran, failed, words, inStep,
    duplicate, answers⟩

/-- After adding `a` and compiling, `a` is in the node map and the trie calls it no duplicate. -/
theorem closed_not_duplicate :
    ¬ ∀ pg : Paraglob, Reachable (Fnmatch.fnmatch Fnmatch.cLocale) pg →
      pg.metaWords.length < 2 ^ 31 → ∀ word id,
        ((pg.myAc.addPattern word id).1 = .duplicatePattern ↔ word ∈ pg.metaToNodeMap) := by
  intro reports
  obtain ⟨pg, added, rep⟩ := represents_create.add_spec [97]
  obtain ⟨compiled, ran, closed⟩ := rep.compile_spec
  have words : compiled.metaWords = [[97]] := by
    rw [closed.words_eq]
    decide +kernel
  have known : [97] ∈ compiled.metaToNodeMap := by
    rw [closed.stores.mem_map_iff, words]
    exact List.mem_cons_self
  have duplicate := (reports compiled (.compile (.add .create added) ran)
    (by rw [words]; decide) [97] 0).mpr known
  obtain ⟨d, trie, _⟩ := closed.stores.trie
  rw [AhoCorasickPlus.addPattern_of_closed trie] at duplicate
  cases duplicate

end Paraglob
