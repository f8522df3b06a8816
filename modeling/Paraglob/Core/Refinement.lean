import Paraglob.Core.Index
import Paraglob.Multifast.Refinement

/-!
# A Paraglob refines its index

The trie, the list of meta words and the node map are three views of the same
postings. The relation below ties them together, number by number, and the
theorems show that every member function keeps them tied: none of its lookups
fails, and its result is the one of the index.
-/

open Multifast

/-- The patterns the trie holds: every word with its position as its number, which
passes through an `unsigned int`. -/
def numbered (words : List Bytes) : List AcPattern :=
  words.zipIdx.map fun entry => ⟨entry.1, (UInt32.ofNat entry.2).toNat⟩

theorem numbered_concat (words : List Bytes) (word : Bytes) :
    numbered (words ++ [word]) =
      numbered words ++ [⟨word, (UInt32.ofNat words.length).toNat⟩] := by
  simp [numbered, List.zipIdx_append]

theorem mem_numbered {words : List Bytes} {q : AcPattern} :
    q ∈ numbered words ↔
      ∃ i, words[i]? = some q.ptext ∧ q.id = (UInt32.ofNat i).toNat := by
  simp only [numbered, List.mem_map, Prod.exists, List.mk_mem_zipIdx_iff_getElem?]
  constructor
  · rintro ⟨word, i, at_i, rfl⟩
    exact ⟨i, at_i, rfl⟩
  · rintro ⟨i, at_i, id⟩
    exact ⟨q.ptext, i, at_i, by rw [← id]⟩

theorem map_ptext_numbered (words : List Bytes) :
    (numbered words).map AcPattern.ptext = words := by
  rw [numbered, List.map_map]
  exact List.zipIdx_map_fst 0 words

namespace Paraglob

/-- The trie, the list of meta words and the node map hold the same postings. -/
structure Stores (pg : Paraglob) (accepting : Bool) (postings : List (Bytes × Bytes)) : Prop where
  trie : ∃ d, pg.myAc.automata.Represents accepting d ∧ d.entries = numbered pg.metaWords
  words : pg.metaWords = wordsOf postings
  nodes : ∀ w, pg.metaToNodeMap.lookup w =
    if w ∈ wordsOf postings then some ⟨w, patternsOf postings w⟩ else none

/-- The Paraglob stands for the index. -/
structure Represents (pg : Paraglob) (ix : Index) : Prop where
  stores : pg.Stores ix.accepting ix.postings
  singles : pg.singleWildcards = ix.singles

variable {pg : Paraglob} {ix : Index} {accepting : Bool} {postings : List (Bytes × Bytes)}

theorem represents_create : create.Represents .empty where
  stores := ⟨⟨.empty, AcTrie.represents_create, rfl⟩, rfl, fun _ => rfl⟩
  singles := rfl

theorem Stores.has_iff (h : pg.Stores accepting postings) {d : Dictionary}
    (entries : d.entries = numbered pg.metaWords) (word : Bytes) :
    d.Has word ↔ word ∈ wordsOf postings := by
  rw [Dictionary.Has, entries, ← h.words, ← List.mem_map, map_ptext_numbered]

theorem Stores.atKey (h : pg.Stores accepting postings) {word : Bytes}
    (known : word ∈ wordsOf postings) :
    pg.metaToNodeMap.atKey word = .ok ⟨word, patternsOf postings word⟩ := by
  rw [NodeMap.atKey, h.nodes, if_pos known]

theorem nodes_concat {m m' : NodeMap} {word : Bytes} (pattern : Bytes)
    (nodes : ∀ w, m.lookup w =
      if w ∈ wordsOf postings then some ⟨w, patternsOf postings w⟩ else none)
    (here : m'.lookup word = some ⟨word, patternsOf postings word ++ [pattern]⟩)
    (other : ∀ w, w ≠ word → m'.lookup w = m.lookup w) (w : Bytes) :
    m'.lookup w = if w ∈ wordsOf (postings ++ [(word, pattern)]) then
      some ⟨w, patternsOf (postings ++ [(word, pattern)]) w⟩ else none := by
  have members : w ∈ wordsOf (postings ++ [(word, pattern)]) ↔ w ∈ wordsOf postings ∨ w = word := by
    simp only [mem_wordsOf, List.mem_append, List.mem_singleton, Prod.mk.injEq, exists_or,
      exists_and_left, exists_eq, and_true]
  rw [patternsOf_concat]
  by_cases same : w = word
  · subst same
    rw [here, if_pos (members.mpr (Or.inr rfl)), if_pos rfl]
  · rw [other w same, nodes w, if_neg (Ne.symm same)]
    simp only [members, same, or_false]

theorem Stores.post (h : pg.Stores true postings) {word : Bytes} (nonempty : word ≠ [])
    (fits : short word = true) (pattern : Bytes) (rest : List Bytes) :
    ∃ pg' : Paraglob, pg.addWords pattern (word :: rest) = pg'.addWords pattern rest ∧
      pg'.Stores true (postings ++ [(word, pattern)]) ∧
      pg'.singleWildcards = pg.singleWildcards := by
  obtain ⟨d, rep, entries⟩ := h.trie
  have zero : word.length ≠ 0 := fun empty => nonempty (List.length_eq_zero_iff.mp empty)
  have long : ¬ word.length > acPatternMaxLength := Nat.not_lt.mpr (of_decide_eq_true fits)
  obtain ⟨ac', ran, rep', unchanged⟩ :=
    AhoCorasickPlus.addPattern_spec rep word (UInt32.ofNat pg.metaWords.length)
  have listed := wordsOf_concat postings word pattern
  rw [addWords]
  by_cases known : d.Has word
  · have posted := (h.has_iff entries word).mp known
    rw [d.insert_of_has zero long known] at ran rep' unchanged
    obtain rfl : ac' = pg.myAc := unchanged (by simp)
    simp only [ran, EnumReturnStatus.ofStatus, h.atKey posted]
    refine ⟨_, rfl, ⟨⟨d, rep', entries⟩, ?_, ?_⟩, rfl⟩
    · rw [listed, if_pos posted]
      exact h.words
    · apply nodes_concat pattern h.nodes (AList.lookup_insert _)
      intro w ne
      exact AList.lookup_insert_ne ne
  · have unposted : word ∉ wordsOf postings :=
      fun posted => known ((h.has_iff entries word).mpr posted)
    have absent : word ∉ pg.metaToNodeMap := by
      rw [← AList.lookup_eq_none, h.nodes, if_neg unposted]
    have none : patternsOf postings word = [] := by
      rw [List.eq_nil_iff_forall_not_mem]
      intro p hp
      exact unposted (mem_wordsOf.mpr ⟨p, mem_patternsOf.mp hp⟩)
    obtain ⟨status, grown⟩ := @Dictionary.insert_of_not_has d
      ⟨word, (UInt32.ofNat pg.metaWords.length).toNat⟩ zero long known
    rw [status] at ran
    simp only [ran, EnumReturnStatus.ofStatus]
    refine ⟨_, rfl, ⟨⟨_, rep', ?_⟩, ?_, ?_⟩, rfl⟩
    · rw [grown, entries, numbered_concat]
    · rw [listed, if_neg unposted, ← h.words]
    · rw [NodeMap.emplace, if_neg absent]
      apply nodes_concat pattern h.nodes
      · rw [AList.lookup_insert, none]
        rfl
      · intro w ne
        exact AList.lookup_insert_ne ne

theorem Stores.addWords_of_long (h : pg.Stores true postings) {word : Bytes}
    (long : short word = false) (pattern : Bytes) (rest : List Bytes) :
    pg.addWords pattern (word :: rest) = .ok (false, pg) := by
  obtain ⟨d, rep, _⟩ := h.trie
  have exceeds : word.length > acPatternMaxLength := Nat.lt_of_not_le (of_decide_eq_false long)
  have zero : word.length ≠ 0 := by omega
  obtain ⟨ac', ran, _, unchanged⟩ :=
    AhoCorasickPlus.addPattern_spec rep word (UInt32.ofNat pg.metaWords.length)
  rw [d.insert_of_long zero exceeds] at ran unchanged
  obtain rfl : ac' = pg.myAc := unchanged (by simp)
  rw [addWords]
  simp only [ran, EnumReturnStatus.ofStatus]

/-- The loop of `add` posts the words in front of the first one that is too long. -/
theorem Stores.addWords_spec (h : pg.Stores true postings) (pattern : Bytes) {words : List Bytes}
    (nonempty : ∀ w ∈ words, w ≠ []) :
    ∃ pg', pg.addWords pattern words = .ok (words.all short, pg') ∧
      pg'.Stores true (postings ++ (words.takeWhile short).map fun word => (word, pattern)) ∧
      pg'.singleWildcards = pg.singleWildcards := by
  induction words generalizing pg postings with
  | nil => exact ⟨pg, rfl, (List.append_nil postings).symm ▸ h, rfl⟩
  | cons word rest ih =>
      cases fits : short word with
      | true =>
          obtain ⟨pg₁, ran, stores, singles⟩ := h.post (nonempty word (by simp)) fits pattern rest
          obtain ⟨pg₂, ran', stores', singles'⟩ :=
            ih stores fun w hw => nonempty w (List.mem_cons_of_mem _ hw)
          refine ⟨pg₂, ?_, ?_, singles'.trans singles⟩
          · rw [ran, ran', List.all_cons, fits, Bool.true_and]
          · rw [List.takeWhile_cons_of_pos fits, List.map_cons, List.append_cons]
            exact stores'
      | false =>
          refine ⟨pg, ?_, ?_, rfl⟩
          · rw [h.addWords_of_long fits, List.all_cons, fits, Bool.false_and]
          · rw [List.takeWhile_cons_of_neg (by simp [fits]), List.map_nil, List.append_nil]
            exact h

theorem getMetaWords_eq (pg : Paraglob) (pattern : Bytes) :
    pg.getMetaWords pattern = (Glob.metaWords pattern,
      { pg with singleWildcards := pg.singleWildcards ++ single pattern }) := by
  rw [getMetaWords, single]
  simp only [List.length_eq_zero_iff]
  split
  · rfl
  · rw [List.append_nil]

/-- `get_meta_words` returns the nonempty runs of one scan of the pattern, and keeps the
pattern aside when it is not empty and has no such run. -/
theorem getMetaWords_eq_scan (pg : Paraglob) (pattern : Bytes) :
    pg.getMetaWords pattern = (Glob.scan [] pattern,
      if pattern ≠ [] ∧ Glob.scan [] pattern = [] then
        { pg with singleWildcards := pg.singleWildcards ++ [pattern] }
      else pg) := by
  rw [getMetaWords, Glob.metaWords_eq_scan]
  simp only [List.length_eq_zero_iff, and_comm]
  split
  · rfl
  · rfl

/-- `add` throws nothing and does what adding to the index means. -/
theorem Represents.add_spec (h : pg.Represents ix) (pattern : Bytes) :
    ∃ pg', pg.add pattern = .ok ((ix.add pattern).1, pg') ∧
      pg'.Represents (ix.add pattern).2 := by
  have stores := h.stores
  rw [add, getMetaWords_eq]
  cases accepting : ix.accepting with
  | true =>
      rw [accepting] at stores
      have start : Stores { pg with singleWildcards := pg.singleWildcards ++ single pattern }
          true ix.postings := ⟨stores.trie, stores.words, stores.nodes⟩
      obtain ⟨pg', ran, stores', singles⟩ :=
        start.addWords_spec pattern fun w hw => Glob.ne_nil_of_mem_metaWords hw
      simp only [Index.add, accepting, if_true]
      exact ⟨pg', ran, stores', by rw [singles, h.singles]⟩
  | false =>
      rw [accepting] at stores
      simp only [Index.add, accepting, Bool.false_eq_true, if_false]
      refine ⟨{ pg with singleWildcards := pg.singleWildcards ++ single pattern }, ?_, ?_⟩
      · cases words : Glob.metaWords pattern with
        | nil => rfl
        | cons word rest =>
            obtain ⟨d, rep, _⟩ := stores.trie
            rw [addWords]
            simp only [AhoCorasickPlus.addPattern_of_closed rep]
            rfl
      · exact ⟨⟨stores.trie, stores.words, stores.nodes⟩, by rw [h.singles]⟩

theorem Represents.add_returns (h : pg.Represents ix) {pattern : Bytes} {added : Bool}
    (status : (ix.add pattern).1 = added) :
    ∃ pg', pg.add pattern = .ok (added, pg') ∧ pg'.Represents (ix.add pattern).2 :=
  status ▸ h.add_spec pattern

theorem Represents.compile_spec (h : pg.Represents ix) :
    ∃ pg', pg.compile = .ok pg' ∧ pg'.Represents ix.close := by
  obtain ⟨d, rep, entries⟩ := h.stores.trie
  obtain ⟨ac', ran, rep'⟩ := AhoCorasickPlus.finalize_spec rep
  refine ⟨{ pg with myAc := ac' }, ?_, ⟨⟨d, rep', entries⟩, h.stores.words, h.stores.nodes⟩,
    h.singles⟩
  rw [compile]
  exact bind_of_ok ran _

/-- The number `findAll` returns for the word in position `i`: it was stored through
an `unsigned int` and is read as an `int`. -/
def wordNumber (i : Nat) : Int := toInt ((UInt32.ofNat i).toNat : Int)

theorem wordNumber_of_lt {i : Nat} (few : i < 2 ^ 31) : wordNumber i = i := by
  have small : (UInt32.ofNat i).toNat = i := UInt32.toNat_ofNat_of_lt' (by
    rw [UInt32.size]
    omega)
  rw [wordNumber, small, toInt_of_lt few]

theorem vectorAt_of_lt {α : Type} {v : List α} {i : Nat} {a : α} (at_i : v[i]? = some a)
    (few : i < 2 ^ 31) : vectorAt v i = .ok a := by
  have same : ((i : Int) % 2 ^ 64).toNat = i := by omega
  rw [vectorAt, same, at_i]

theorem mem_of_vectorAt {α : Type} {v : List α} {n : Int} {a : α} (at_n : vectorAt v n = .ok a) :
    a ∈ v := by
  rw [vectorAt] at at_n
  split at at_n
  · rename_i found
    cases at_n
    exact List.mem_of_getElem? found
  · cases at_n

theorem vectorAt_eq_error {α : Type} {v : List α} {n : Int}
    (absent : ∀ a, vectorAt v n ≠ .ok a) : vectorAt v n = .error .outOfRange := by
  rw [vectorAt] at absent ⊢
  split
  · rename_i a found
    rw [found] at absent
    exact absurd rfl (absent a)
  · rfl

theorem Stores.mergeLoop_ok (h : pg.Stores accepting postings) (fnmatch : Bytes → Bytes → Bool)
    (text : Bytes) {ids : List Int}
    (valid : ∀ n ∈ ids, ∃ word, vectorAt pg.metaWords n = .ok word) (target : List Bytes) :
    ∃ patterns, mergeLoop fnmatch pg text target ids = .ok patterns ∧
      ∀ p, p ∈ patterns ↔ p ∈ target ∨ ∃ n ∈ ids, ∃ word, vectorAt pg.metaWords n = .ok word ∧
        (word, p) ∈ postings ∧ fnmatch p.cStr text.cStr = true := by
  induction ids generalizing target with
  | nil => exact ⟨target, rfl, by simp⟩
  | cons n ids ih =>
      obtain ⟨word, at_n⟩ := valid n (by simp)
      have known : word ∈ wordsOf postings := h.words ▸ mem_of_vectorAt at_n
      obtain ⟨patterns, ran, members⟩ := ih (fun n hn => valid n (List.mem_cons_of_mem _ hn))
        (ParaglobNode.mergeMatches fnmatch ⟨word, patternsOf postings word⟩ target text)
      refine ⟨patterns, ?_, ?_⟩
      · rw [mergeLoop, bind_of_ok at_n, bind_of_ok (h.atKey known)]
        exact ran
      · intro p
        rw [members]
        simp only [ParaglobNode.mergeMatches, List.mem_append, List.mem_filter, mem_patternsOf,
          List.mem_cons, exists_eq_or_imp, at_n, Except.ok.injEq, exists_eq_left', or_assoc]

theorem Stores.mergeLoop_error (h : pg.Stores accepting postings)
    (fnmatch : Bytes → Bytes → Bool) (text : Bytes) {ids : List Int} {n : Int} (hn : n ∈ ids)
    (invalid : ∀ word, vectorAt pg.metaWords n ≠ .ok word) (target : List Bytes) :
    mergeLoop fnmatch pg text target ids = .error .outOfRange := by
  induction ids generalizing target with
  | nil => exact absurd hn List.not_mem_nil
  | cons m ids ih =>
      by_cases looked : ∃ word, vectorAt pg.metaWords m = .ok word
      · obtain ⟨word, at_m⟩ := looked
        have known : word ∈ wordsOf postings := h.words ▸ mem_of_vectorAt at_m
        have later : n ∈ ids := by
          cases List.mem_cons.mp hn with
          | inl same => exact absurd (same ▸ at_m) (invalid word)
          | inr later => exact later
        rw [mergeLoop, bind_of_ok at_m, bind_of_ok (h.atKey known)]
        exact ih later _
      · have missed := vectorAt_eq_error fun word at_m => looked ⟨word, at_m⟩
        rw [mergeLoop]
        exact bind_of_error missed _

theorem Represents.words_eq (h : pg.Represents ix) : pg.metaWords = ix.words := h.stores.words

/-- The word in position `i` is found in the text. An open trie finds nothing. -/
def Found (ix : Index) (text : Bytes) (i : Nat) : Prop :=
  ix.accepting = false ∧ ∃ word, ix.words[i]? = some word ∧ word <:+: text

theorem Represents.findAll_spec (h : pg.Represents ix) (text : Bytes) :
    ∃ ids ac', pg.myAc.findAll text false = .ok (ids, ac') ∧
      Represents { pg with myAc := ac' } ix ∧
      ∀ n, n ∈ ids ↔ ∃ i, Found ix text i ∧ n = wordNumber i := by
  obtain ⟨d, rep, entries⟩ := h.stores.trie
  obtain ⟨ids, ac', ran, rep', found⟩ := AhoCorasickPlus.findAll_spec rep text
  refine ⟨ids, ac', ran, ⟨⟨⟨d, rep', entries⟩, h.stores.words, h.stores.nodes⟩, h.singles⟩, ?_⟩
  intro n
  rw [found, entries]
  constructor
  · rintro ⟨closed, q, hq, inside, rfl⟩
    obtain ⟨i, at_i, id⟩ := mem_numbered.mp hq
    rw [h.words_eq] at at_i
    exact ⟨i, ⟨closed, q.ptext, at_i, inside⟩, by rw [id, wordNumber]⟩
  · rintro ⟨i, ⟨closed, word, at_i, inside⟩, same⟩
    rw [← h.words_eq] at at_i
    rw [same]
    exact ⟨closed, ⟨word, (UInt32.ofNat i).toNat⟩, mem_numbered.mpr ⟨i, at_i, rfl⟩, inside, rfl⟩

/-- `get` when the numbers of all words found lead back to words. -/
theorem Represents.get_ok (h : pg.Represents ix) (fnmatch : Bytes → Bytes → Bool) (text : Bytes)
    (valid : ∀ i, Found ix text i → ∃ word, vectorAt ix.words (wordNumber i) = .ok word) :
    ∃ result pg', pg.get fnmatch text = .ok (result, pg') ∧ pg'.Represents ix ∧
      result.Pairwise (· < ·) ∧
      ∀ p, p ∈ result ↔ p ∈ ix.singles ∨ ∃ i, Found ix text i ∧ ∃ word,
        vectorAt ix.words (wordNumber i) = .ok word ∧ (word, p) ∈ ix.postings ∧
          fnmatch p.cStr text.cStr = true := by
  obtain ⟨ids, ac', ran, rep', found⟩ := h.findAll_spec text
  have valid' : ∀ n ∈ ids, ∃ word, vectorAt pg.metaWords n = .ok word := by
    intro n hn
    obtain ⟨i, here, same⟩ := (found n).mp hn
    rw [h.words_eq, same]
    exact valid i here
  obtain ⟨patterns, merged, members⟩ := h.stores.mergeLoop_ok fnmatch text valid' []
  refine ⟨_, { pg with myAc := ac' }, ?_, rep',
    SortedUnique.pairwise_sortUnique (patterns ++ pg.singleWildcards), ?_⟩
  · rw [get]
    exact (bind_of_ok ran _).trans (bind_of_ok merged _)
  · intro p
    rw [SortedUnique.mem_sortUnique, List.mem_append, or_comm, h.singles, members]
    apply or_congr_right
    constructor
    · rintro (none | ⟨n, hn, word, at_n, rest⟩)
      · exact absurd none List.not_mem_nil
      · obtain ⟨i, here, same⟩ := (found n).mp hn
        rw [h.words_eq, same] at at_n
        exact ⟨i, here, word, at_n, rest⟩
    · rintro ⟨i, here, word, at_n, rest⟩
      rw [← h.words_eq] at at_n
      exact Or.inr ⟨wordNumber i, (found _).mpr ⟨i, here, rfl⟩, word, at_n, rest⟩

theorem Represents.get_error (h : pg.Represents ix) (fnmatch : Bytes → Bytes → Bool)
    {text : Bytes} {i : Nat} (here : Found ix text i)
    (invalid : ∀ word, vectorAt ix.words (wordNumber i) ≠ .ok word) :
    pg.get fnmatch text = .error .outOfRange := by
  obtain ⟨ids, ac', ran, rep', found⟩ := h.findAll_spec text
  rw [← h.words_eq] at invalid
  have failed := h.stores.mergeLoop_error fnmatch text ((found _).mpr ⟨i, here, rfl⟩) invalid []
  rw [get]
  exact (bind_of_ok ran _).trans (bind_of_error failed _)

/-- A `get` that returns, however many words there are. -/
theorem Represents.of_get (h : pg.Represents ix) {fnmatch : Bytes → Bytes → Bool}
    {text : Bytes} {result : List Bytes} {pg' : Paraglob}
    (returns : pg.get fnmatch text = .ok (result, pg')) :
    pg'.Represents ix ∧
      (∀ i, Found ix text i → ∃ word, vectorAt ix.words (wordNumber i) = .ok word) ∧
      ∀ p, p ∈ result ↔ p ∈ ix.singles ∨ ∃ i, Found ix text i ∧ ∃ word,
        vectorAt ix.words (wordNumber i) = .ok word ∧ (word, p) ∈ ix.postings ∧
          fnmatch p.cStr text.cStr = true := by
  by_cases valid : ∀ i, Found ix text i → ∃ word, vectorAt ix.words (wordNumber i) = .ok word
  · obtain ⟨result', pg'', ran, rep', _, members⟩ := h.get_ok fnmatch text valid
    obtain ⟨rfl, rfl⟩ := Prod.mk.inj (Except.ok.inj (ran.symm.trans returns))
    exact ⟨rep', valid, members⟩
  · obtain ⟨i, invalid⟩ := not_forall.mp valid
    obtain ⟨here, nowhere⟩ := Classical.not_imp.mp invalid
    have failed := h.get_error fnmatch here fun word at_i => nowhere ⟨word, at_i⟩
    rw [failed] at returns
    cases returns

theorem mem_candidates {fnmatch : Bytes → Bytes → Bool} {text p : Bytes} :
    p ∈ ix.candidates fnmatch text ↔ ix.accepting = false ∧
      ∃ word, (word, p) ∈ ix.postings ∧ word <:+: text ∧ fnmatch p.cStr text.cStr = true := by
  simp only [Index.candidates, List.mem_map, List.mem_filter, Bool.and_eq_true,
    Bool.not_eq_true', decide_eq_true_eq, Prod.exists, exists_eq_right]
  constructor
  · rintro ⟨word, posted, ⟨closed, inside⟩, accepts⟩
    exact ⟨closed, word, posted, inside, accepts⟩
  · rintro ⟨closed, word, posted, inside, accepts⟩
    exact ⟨word, posted, ⟨closed, inside⟩, accepts⟩

theorem vectorAt_wordNumber (few : ix.words.length ≤ 2 ^ 31) {i : Nat} {word : Bytes}
    (at_i : ix.words[i]? = some word) : vectorAt ix.words (wordNumber i) = .ok word := by
  have small : i < 2 ^ 31 := Nat.lt_of_lt_of_le (List.getElem?_eq_some_iff.mp at_i).1 few
  rw [wordNumber_of_lt small, vectorAt_of_lt at_i small]

/-- With at most `2 ^ 31` words, `get` throws nothing and returns the answer of
the index. -/
theorem Represents.get_spec (h : pg.Represents ix) (few : ix.words.length ≤ 2 ^ 31)
    (fnmatch : Bytes → Bytes → Bool) (text : Bytes) :
    ∃ pg', pg.get fnmatch text = .ok (ix.answer fnmatch text, pg') ∧ pg'.Represents ix := by
  obtain ⟨result, pg', ran, rep', sorted, members⟩ := h.get_ok fnmatch text (by
    rintro i ⟨_, word, at_i, _⟩
    exact ⟨word, vectorAt_wordNumber few at_i⟩)
  have same : result = ix.answer fnmatch text := by
    refine SortedUnique.eq_of_pairwise_lt sorted (SortedUnique.pairwise_sortUnique _) fun p => ?_
    rw [members, Index.answer, SortedUnique.mem_sortUnique, List.mem_append, or_comm,
      mem_candidates]
    apply or_congr_left
    constructor
    · rintro ⟨i, ⟨closed, word, at_i, inside⟩, word', at_number, posted, accepts⟩
      obtain rfl : word = word' :=
        Except.ok.inj ((vectorAt_wordNumber few at_i).symm.trans at_number)
      exact ⟨closed, word, posted, inside, accepts⟩
    · rintro ⟨closed, word, posted, inside, accepts⟩
      obtain ⟨i, at_i⟩ := List.mem_iff_getElem?.mp (mem_wordsOf.mpr ⟨p, posted⟩)
      exact ⟨i, ⟨closed, word, at_i, inside⟩, word, vectorAt_wordNumber few at_i, posted, accepts⟩
  exact ⟨pg', same ▸ ran, rep'⟩

/-- The entries of the node map are the posted words with their patterns. -/
theorem Stores.mem_entries_iff (h : pg.Stores accepting postings)
    (entry : Sigma fun _ : Bytes => ParaglobNode) :
    entry ∈ pg.metaToNodeMap.entries ↔ entry.1 ∈ wordsOf postings ∧
      entry.2 = ⟨entry.1, patternsOf postings entry.1⟩ := by
  obtain ⟨word, node⟩ := entry
  rw [← AList.mem_lookup_iff, Option.mem_def, h.nodes]
  split
  · rename_i known
    simp [known, eq_comm]
  · rename_i unknown
    simp [unknown]

theorem mem_foldl_mergePatterns {entries : List (Sigma fun _ : Bytes => ParaglobNode)}
    {target : List Bytes} {p : Bytes} :
    p ∈ entries.foldl (fun patterns entry => entry.2.mergePatterns patterns) target ↔
      p ∈ target ∨ ∃ entry ∈ entries, p ∈ entry.2.patterns := by
  induction entries generalizing target with
  | nil => simp
  | cons entry entries ih =>
      rw [List.foldl_cons, ih, ParaglobNode.mergePatterns, List.mem_append, or_assoc, or_left_comm]
      simp only [List.mem_cons, exists_eq_or_imp]

theorem Represents.getPatterns_eq (h : pg.Represents ix) : pg.getPatterns = ix.patterns := by
  apply SortedUnique.sortUnique_congr
  intro p
  rw [List.mem_append, List.mem_append, mem_foldl_mergePatterns, h.singles]
  apply or_congr_left
  rw [List.mem_map]
  constructor
  · rintro (none | ⟨entry, mem, hp⟩)
    · exact absurd none List.not_mem_nil
    · obtain ⟨_, node⟩ := (h.stores.mem_entries_iff entry).mp mem
      rw [node] at hp
      exact ⟨(entry.1, p), mem_patternsOf.mp hp, rfl⟩
  · rintro ⟨⟨word, p⟩, posted, rfl⟩
    have known : word ∈ wordsOf ix.postings := mem_wordsOf.mpr ⟨p, posted⟩
    exact Or.inr ⟨⟨word, ⟨word, patternsOf ix.postings word⟩⟩,
      (h.stores.mem_entries_iff _).mpr ⟨known, rfl⟩, mem_patternsOf.mpr posted⟩

theorem Stores.mem_keys_iff (h : pg.Stores accepting postings) (word : Bytes) :
    word ∈ pg.metaToNodeMap.keys ↔ word ∈ wordsOf postings := by
  rw [← AList.mem_keys, ← AList.lookup_isSome, h.nodes]
  split
  · rename_i known
    simp [known]
  · rename_i unknown
    simp [unknown]

/-- Two Paraglobs compare equal when they have the same meta words. -/
theorem Represents.equal_iff {other : Paraglob} {ix' : Index} (h : pg.Represents ix)
    (h' : other.Represents ix') :
    pg.equal other = true ↔ ∀ w, w ∈ ix.words ↔ w ∈ ix'.words := by
  have keys := h.stores.mem_keys_iff
  have keys' := h'.stores.mem_keys_iff
  have lengths : ∀ m : NodeMap, m.entries.length = m.keys.length :=
    fun m => (List.length_map Sigma.fst).symm
  rw [equal, NodeMap.equal, Bool.and_eq_true, beq_iff_eq, lengths, lengths, List.all_eq_true]
  constructor
  · rintro ⟨size, found⟩
    have subset : pg.metaToNodeMap.keys ⊆ other.metaToNodeMap.keys := by
      intro w hw
      have mem := (h.stores.mem_entries_iff ⟨w, ⟨w, patternsOf ix.postings w⟩⟩).mpr
        ⟨(keys w).mp hw, rfl⟩
      have listed := found _ mem
      by_cases known : w ∈ wordsOf ix'.postings
      · exact (keys' w).mpr known
      · rw [h'.stores.nodes, if_neg known] at listed
        cases listed
    have perm := (List.subperm_of_subset pg.metaToNodeMap.keys_nodup subset).perm_of_length_le
      (Nat.le_of_eq size.symm)
    intro w
    exact (keys w).symm.trans (perm.mem_iff.trans (keys' w))
  · intro same
    have perm : pg.metaToNodeMap.keys.Perm other.metaToNodeMap.keys :=
      (List.perm_ext_iff_of_nodup pg.metaToNodeMap.keys_nodup other.metaToNodeMap.keys_nodup).mpr
        fun w => (keys w).trans ((same w).trans (keys' w).symm)
    refine ⟨perm.length_eq, ?_⟩
    intro entry mem
    obtain ⟨known, node⟩ := (h.stores.mem_entries_iff entry).mp mem
    have listed : entry.1 ∈ wordsOf ix'.postings := (same entry.1).mp known
    rw [h'.stores.nodes, if_pos listed, node]
    exact beq_self_eq_true entry.1

end Paraglob
