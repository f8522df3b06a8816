import Paraglob.Core.Construction
import Paraglob.Core.Identity

/-!
# The patterns tell everything

A Paraglob can be built in many ways: its patterns come in any order and any number
of times, between compilations and questions, and some calls fail. Whatever calls it
went through, its list of patterns says how it answers, as long as no pattern has a
word that is too long for the trie and the words can be numbered.
-/

open Multifast

namespace Index

/-- A pattern that is posted at all is posted completely. -/
def Whole (ix : Index) : Prop := ∀ e ∈ ix.postings, posted e.2 ⊆ ix.postings

variable {ix : Index}

theorem whole_empty : empty.Whole := fun _ he => absurd he List.not_mem_nil

theorem Whole.close (whole : ix.Whole) : ix.close.Whole := whole

theorem Whole.add (whole : ix.Whole) (pattern : Bytes) : (ix.add pattern).2.Whole := by
  rw [Index.add]
  split
  · intro e he
    cases List.mem_append.mp he with
    | inl earlier => exact List.subset_append_of_subset_left _ (whole e earlier)
    | inr new =>
        obtain ⟨word, _, rfl⟩ := List.mem_map.mp new
        exact List.subset_append_right _ _
  · exact whole

theorem mem_patterns {p : Bytes} :
    p ∈ ix.patterns ↔ (∃ word, (word, p) ∈ ix.postings) ∨ p ∈ ix.singles := by
  simp only [patterns, SortedUnique.mem_sortUnique, List.mem_append, List.mem_map, Prod.exists,
    exists_eq_right]

theorem nil_not_mem_patterns (ix : Index) : [] ∉ ix.patterns := by
  rw [mem_patterns]
  rintro (⟨word, posted⟩ | kept)
  · have own := (ix.honest _ posted).1
    rw [Glob.metaWords_nil] at own
    exact absurd own List.not_mem_nil
  · exact (ix.wordless _ kept).1 rfl

theorem mem_singles_iff {p : Bytes} :
    p ∈ ix.singles ↔ p ∈ ix.patterns ∧ Glob.metaWords p = [] := by
  constructor
  · intro kept
    exact ⟨mem_patterns.mpr (Or.inr kept), (ix.wordless p kept).2⟩
  · rintro ⟨listed, none⟩
    cases mem_patterns.mp listed with
    | inl posted =>
        obtain ⟨word, posted⟩ := posted
        have own := (ix.honest _ posted).1
        rw [none] at own
        exact absurd own List.not_mem_nil
    | inr kept => exact kept

section Whole

variable (whole : ix.Whole) (fits : ∀ p ∈ ix.patterns, (Glob.metaWords p).all short = true)

include whole fits

/-- Without long words the patterns determine the postings, up to their order. -/
theorem Whole.mem_postings_iff {word p : Bytes} :
    (word, p) ∈ ix.postings ↔ p ∈ ix.patterns ∧ word ∈ Glob.metaWords p := by
  constructor
  · intro posted
    exact ⟨mem_patterns.mpr (Or.inl ⟨word, posted⟩), (ix.honest _ posted).1⟩
  · rintro ⟨listed, hw⟩
    cases mem_patterns.mp listed with
    | inl known =>
        obtain ⟨other, known⟩ := known
        have all := whole _ known
        rw [posted_of_short (fits p listed)] at all
        exact all (List.mem_map_of_mem hw)
    | inr kept =>
        rw [(ix.wordless p kept).2] at hw
        exact absurd hw List.not_mem_nil

theorem Whole.mem_words_iff {word : Bytes} :
    word ∈ ix.words ↔ word ∈ ix.patterns.flatMap Glob.metaWords := by
  rw [List.mem_flatMap]
  exact mem_wordsOf.trans (exists_congr fun p => whole.mem_postings_iff fits)

theorem Whole.length_words_le {patterns : List Bytes} (subset : ix.patterns ⊆ patterns) :
    ix.words.length ≤ (patterns.flatMap Glob.metaWords).length := by
  have words : ix.words ⊆ patterns.flatMap Glob.metaWords := by
    intro word hw
    obtain ⟨p, listed, own⟩ := List.mem_flatMap.mp ((whole.mem_words_iff fits).mp hw)
    exact List.mem_flatMap.mpr ⟨p, subset listed, own⟩
  exact (List.subperm_of_subset (nodup_wordsOf _) words).length_le

theorem Whole.mem_answer_iff {fnmatch : Bytes → Bytes → Bool} {text p : Bytes} :
    p ∈ ix.close.answer fnmatch text ↔ p ∈ ix.patterns ∧ (Glob.metaWords p = [] ∨
      (∃ word ∈ Glob.metaWords p, word <:+: text) ∧ fnmatch p.cStr text.cStr = true) := by
  rw [answer, SortedUnique.mem_sortUnique, List.mem_append, Paraglob.mem_candidates]
  simp only [Index.close, true_and, mem_singles_iff, whole.mem_postings_iff fits]
  constructor
  · rintro (⟨word, ⟨listed, own⟩, inside, accepts⟩ | ⟨listed, none⟩)
    · exact ⟨listed, Or.inr ⟨⟨word, own, inside⟩, accepts⟩⟩
    · exact ⟨listed, Or.inl none⟩
  · rintro ⟨listed, none | ⟨⟨word, own, inside⟩, accepts⟩⟩
    · exact Or.inr ⟨listed, none⟩
    · exact Or.inl ⟨word, ⟨listed, own⟩, inside, accepts⟩

end Whole

end Index

namespace Paraglob

variable {fnmatch : Bytes → Bytes → Bool} {pg : Paraglob}

/-- Every reachable state stands for an index that posts its patterns completely. -/
theorem Reachable.whole (reachable : Reachable fnmatch pg) : ∃ ix, pg.Represents ix ∧ ix.Whole := by
  induction reachable with
  | create => exact ⟨.empty, represents_create, Index.whole_empty⟩
  | @add _ _ pattern _ _ returns ih =>
      obtain ⟨ix, h, whole⟩ := ih
      obtain ⟨pg', ran, h'⟩ := h.add_spec pattern
      obtain ⟨_, rfl⟩ := Prod.mk.inj (Except.ok.inj (ran.symm.trans returns))
      exact ⟨_, h', whole.add pattern⟩
  | compile _ returns ih =>
      obtain ⟨ix, h, whole⟩ := ih
      obtain ⟨pg', ran, h'⟩ := h.compile_spec
      obtain rfl := Except.ok.inj (ran.symm.trans returns)
      exact ⟨_, h', whole.close⟩
  | get _ returns ih =>
      obtain ⟨ix, h, whole⟩ := ih
      exact ⟨ix, (h.of_get returns).1, whole⟩

/-- A compiled Paraglob answers by its patterns alone, whatever calls it went through. -/
theorem Reachable.get_spec (reachable : Reachable fnmatch pg) (closed : pg.compile = .ok pg)
    {patterns : List Bytes} (subset : pg.getPatterns ⊆ patterns)
    (fits : ∀ p ∈ patterns, (Glob.metaWords p).all short = true)
    (few : (patterns.flatMap Glob.metaWords).length ≤ 2 ^ 31) (text : Bytes) :
    ∃ result asked, pg.get fnmatch text = .ok (result, asked) ∧ result.Pairwise (· < ·) ∧
      ∀ p, p ∈ result ↔ p ∈ pg.getPatterns ∧ (Glob.metaWords p = [] ∨
        (∃ word ∈ Glob.metaWords p, word <:+: text) ∧ fnmatch p.cStr text.cStr = true) := by
  obtain ⟨ix, h, whole⟩ := reachable.whole
  obtain ⟨compiled, ran, h'⟩ := h.compile_spec
  obtain rfl := Except.ok.inj (closed.symm.trans ran)
  rw [h.getPatterns_eq] at subset ⊢
  have fits' : ∀ p ∈ ix.patterns, (Glob.metaWords p).all short = true :=
    fun p hp => fits p (subset hp)
  have fewer : ix.close.words.length ≤ 2 ^ 31 := (whole.length_words_le fits' subset).trans few
  obtain ⟨asked, answered, _⟩ := h'.get_spec fewer fnmatch text
  exact ⟨_, asked, answered, SortedUnique.pairwise_sortUnique _,
    fun p => whole.mem_answer_iff fits'⟩

theorem Reachable.addEach {patterns : List Bytes} {pg' : Paraglob}
    (reachable : Reachable fnmatch pg) (returns : pg.addEach patterns = .ok pg') :
    Reachable fnmatch pg' := by
  induction patterns generalizing pg with
  | nil =>
      obtain rfl := Except.ok.inj returns
      exact reachable
  | cons pattern patterns ih =>
      rw [Paraglob.addEach] at returns
      obtain ⟨⟨added, pg₁⟩, ran, rest⟩ := exists_of_bind_eq_ok returns
      cases added with
      | true => exact ih (.add reachable ran) rest
      | false => cases rest

theorem reachable_of_ofPatterns (fnmatch : Bytes → Bytes → Bool) {patterns : List Bytes}
    (returns : ofPatterns patterns = .ok pg) :
    Reachable fnmatch pg ∧ pg.compile = .ok pg := by
  have again := (represents_of_ofPatterns returns).1.compile_of_closed rfl
  rw [ofPatterns] at returns
  obtain ⟨opened, added, compiles⟩ := exists_of_bind_eq_ok returns
  exact ⟨.compile (Reachable.addEach .create added) compiles, again⟩

/-- `other` answers every text as `pg` does. -/
def SameAnswers (fnmatch : Bytes → Bytes → Bool) (pg other : Paraglob) : Prop :=
  ∀ text, ∃ result asked asked',
    pg.get fnmatch text = .ok (result, asked) ∧ other.get fnmatch text = .ok (result, asked')

theorem Reachable.sameAnswers {other : Paraglob} (reachable : Reachable fnmatch pg)
    (reachable' : Reachable fnmatch other) (closed : pg.compile = .ok pg)
    (closed' : other.compile = .ok other) (same : other.getPatterns = pg.getPatterns)
    (fits : ∀ p ∈ pg.getPatterns, (Glob.metaWords p).all short = true)
    (few : (pg.getPatterns.flatMap Glob.metaWords).length ≤ 2 ^ 31) :
    SameAnswers fnmatch pg other := by
  intro text
  obtain ⟨result, asked, answered, sorted, members⟩ :=
    reachable.get_spec closed (List.Subset.refl _) fits few text
  obtain ⟨result', asked', answered', sorted', members'⟩ :=
    reachable'.get_spec closed' (same ▸ List.Subset.refl _) fits few text
  obtain rfl : result = result' := by
    apply SortedUnique.eq_of_pairwise_lt sorted sorted'
    intro p
    rw [members, members', same]
  exact ⟨result, asked, asked', answered, answered'⟩

theorem getPatterns_of_ofPatterns {patterns : List Bytes} (returns : ofPatterns patterns = .ok pg) :
    pg.getPatterns = SortedUnique.sortUnique (patterns.filter (· ≠ [])) := by
  obtain ⟨closed, fits⟩ := represents_of_ofPatterns returns
  exact closed.getPatterns_eq.trans (Index.patterns_ofPatterns fits)

theorem Reachable.rebuild (reachable : Reachable fnmatch pg)
    (fits : ∀ p ∈ pg.getPatterns, (Glob.metaWords p).all short = true)
    (few : (pg.getPatterns.flatMap Glob.metaWords).length ≤ 2 ^ 31) :
    ∃ compiled rebuilt, pg.compile = .ok compiled ∧ ofPatterns pg.getPatterns = .ok rebuilt ∧
      rebuilt.getPatterns = pg.getPatterns ∧ rebuilt.equal pg = true ∧
      SameAnswers fnmatch compiled rebuilt := by
  obtain ⟨ix, h, whole⟩ := reachable.whole
  obtain ⟨compiled, ran, h'⟩ := h.compile_spec
  obtain ⟨rebuilt, built, closed⟩ := ofPatterns_spec fits
  obtain ⟨reachable', again⟩ := reachable_of_ofPatterns fnmatch built
  have listed := h.getPatterns_eq
  have compiledListed : compiled.getPatterns = pg.getPatterns := h'.getPatterns_eq.trans listed.symm
  have same : rebuilt.getPatterns = pg.getPatterns := by
    have complete : pg.getPatterns.filter (· ≠ []) = pg.getPatterns := by
      apply List.filter_eq_self.mpr
      intro p hp
      rw [listed] at hp
      exact decide_eq_true fun empty => ix.nil_not_mem_patterns (empty ▸ hp)
    rw [getPatterns_of_ofPatterns built, complete]
    exact SortedUnique.sortUnique_eq_self pg.pairwise_getPatterns
  refine ⟨compiled, rebuilt, ran, built, same, ?_, ?_⟩
  · apply (closed.equal_iff h).mpr
    intro word
    have words : word ∈ ix.words ↔ word ∈ ix.patterns.flatMap Glob.metaWords :=
      whole.mem_words_iff fun p hp => fits p (listed ▸ hp)
    rw [← listed] at words
    exact (Index.mem_words_ofPatterns fits).trans words.symm
  · apply (Reachable.compile reachable ran).sameAnswers reachable' (h'.compile_of_closed rfl) again
    · exact same.trans compiledListed.symm
    · exact compiledListed.symm ▸ fits
    · exact compiledListed.symm ▸ few

/-- A compiled Paraglob with the patterns of two others merges their answers. -/
theorem get_union {pg₁ pg₂ : Paraglob} (reachable : Reachable fnmatch pg)
    (reachable₁ : Reachable fnmatch pg₁) (reachable₂ : Reachable fnmatch pg₂)
    (closed : pg.compile = .ok pg) (closed₁ : pg₁.compile = .ok pg₁)
    (closed₂ : pg₂.compile = .ok pg₂)
    (joined : ∀ p, p ∈ pg.getPatterns ↔ p ∈ pg₁.getPatterns ∨ p ∈ pg₂.getPatterns)
    (fits : ∀ p ∈ pg.getPatterns, ∀ word ∈ Glob.metaWords p, word.length ≤ acPatternMaxLength)
    (few : (pg.getPatterns.flatMap Glob.metaWords).length ≤ 2 ^ 31) (text : Bytes) :
    ∃ result₁ asked₁ result₂ asked₂ asked, pg₁.get fnmatch text = .ok (result₁, asked₁) ∧
      pg₂.get fnmatch text = .ok (result₂, asked₂) ∧
      pg.get fnmatch text = .ok (SortedUnique.sortUnique (result₁ ++ result₂), asked) := by
  simp only [← all_short_iff] at fits
  obtain ⟨result₁, asked₁, answered₁, _, members₁⟩ :=
    reachable₁.get_spec closed₁ (fun p hp => (joined p).mpr (Or.inl hp)) fits few text
  obtain ⟨result₂, asked₂, answered₂, _, members₂⟩ :=
    reachable₂.get_spec closed₂ (fun p hp => (joined p).mpr (Or.inr hp)) fits few text
  obtain ⟨result, asked, answered, sorted, members⟩ :=
    reachable.get_spec closed (List.Subset.refl _) fits few text
  obtain rfl : result = SortedUnique.sortUnique (result₁ ++ result₂) := by
    apply SortedUnique.eq_of_pairwise_lt sorted (SortedUnique.pairwise_sortUnique _)
    intro p
    rw [SortedUnique.mem_sortUnique, List.mem_append, members, members₁, members₂, joined,
      or_and_right]
  exact ⟨result₁, asked₁, result₂, asked₂, asked, answered₁, answered₂, answered⟩

/-- `a*` and `?b` joined. -/
theorem get_union_ab :
    ∃ pg pg₁ pg₂, ofPatterns [[97, 42], [63, 98]] = .ok pg ∧ ofPatterns [[97, 42]] = .ok pg₁ ∧
      ofPatterns [[63, 98]] = .ok pg₂ ∧ ∀ text, ∃ result₁ asked₁ result₂ asked₂ asked,
        pg₁.get (Fnmatch.fnmatch Fnmatch.cLocale) text = .ok (result₁, asked₁) ∧
        pg₂.get (Fnmatch.fnmatch Fnmatch.cLocale) text = .ok (result₂, asked₂) ∧
        pg.get (Fnmatch.fnmatch Fnmatch.cLocale) text =
          .ok (SortedUnique.sortUnique (result₁ ++ result₂), asked) := by
  obtain ⟨pg, built, _⟩ := ofPatterns_spec (by decide +kernel :
    ∀ p ∈ ([[97, 42], [63, 98]] : List Bytes), (Glob.metaWords p).all short = true)
  obtain ⟨pg₁, built₁, _⟩ := ofPatterns_spec
    (by decide +kernel : ∀ p ∈ ([[97, 42]] : List Bytes), (Glob.metaWords p).all short = true)
  obtain ⟨pg₂, built₂, _⟩ := ofPatterns_spec
    (by decide +kernel : ∀ p ∈ ([[63, 98]] : List Bytes), (Glob.metaWords p).all short = true)
  obtain ⟨reachable, closed⟩ := reachable_of_ofPatterns (Fnmatch.fnmatch Fnmatch.cLocale) built
  obtain ⟨reachable₁, closed₁⟩ := reachable_of_ofPatterns (Fnmatch.fnmatch Fnmatch.cLocale) built₁
  obtain ⟨reachable₂, closed₂⟩ := reachable_of_ofPatterns (Fnmatch.fnmatch Fnmatch.cLocale) built₂
  have listed : pg.getPatterns = [[63, 98], [97, 42]] :=
    (getPatterns_of_ofPatterns built).trans (by decide +kernel)
  have listed₁ : pg₁.getPatterns = [[97, 42]] :=
    (getPatterns_of_ofPatterns built₁).trans (by decide +kernel)
  have listed₂ : pg₂.getPatterns = [[63, 98]] :=
    (getPatterns_of_ofPatterns built₂).trans (by decide +kernel)
  refine ⟨pg, pg₁, pg₂, built, built₁, built₂, fun text => ?_⟩
  apply get_union reachable reachable₁ reachable₂ closed closed₁ closed₂
  · intro p
    simp only [listed, listed₁, listed₂, List.mem_cons, List.not_mem_nil, or_false]
    exact or_comm
  · rw [listed]
    decide +kernel
  · rw [listed]
    decide +kernel

end Paraglob
