import Paraglob.Core.Runs
import Paraglob.Library.Fnmatch

/-!
# What makes two Paraglobs the same

`get_patterns` lists the patterns that were added, and a Paraglob that is built
from this list answers every text as the original does. The comparison
`operator==` looks at less: it compares the node maps, whose nodes are equal when
their meta words are, so it tells two Paraglobs apart only by their meta words.
-/

open Multifast

namespace Index

variable {patterns : List Bytes}

theorem patterns_ofPatterns (fits : ∀ p ∈ patterns, (Glob.metaWords p).all short = true) :
    (ofPatterns patterns).patterns = SortedUnique.sortUnique (patterns.filter (· ≠ [])) := by
  apply SortedUnique.sortUnique_congr
  intro p
  simp only [List.mem_append, List.mem_map, Prod.exists, exists_eq_right, mem_ofPatterns_singles,
    mem_ofPatterns_postings fits, List.mem_filter, decide_eq_true_eq]
  constructor
  · rintro (⟨word, hp, hw⟩ | ⟨hp, nonempty, _⟩)
    · refine ⟨hp, ?_⟩
      rintro rfl
      rw [Glob.metaWords_nil] at hw
      exact absurd hw List.not_mem_nil
    · exact ⟨hp, nonempty⟩
  · rintro ⟨hp, nonempty⟩
    cases words : Glob.metaWords p with
    | nil => exact Or.inr ⟨hp, nonempty, rfl⟩
    | cons word rest => exact Or.inl ⟨word, hp, List.mem_cons_self⟩

theorem mem_words_ofPatterns (fits : ∀ p ∈ patterns, (Glob.metaWords p).all short = true)
    {word : Bytes} :
    word ∈ (ofPatterns patterns).words ↔ word ∈ patterns.flatMap Glob.metaWords := by
  rw [ofPatterns_words fits, List.mem_eraseDups]

theorem length_words_ofPatterns_le {others : List Bytes}
    (fits : ∀ p ∈ patterns, (Glob.metaWords p).all short = true) (subset : others ⊆ patterns) :
    (ofPatterns others).words.length ≤ (ofPatterns patterns).words.length := by
  have fits' : ∀ p ∈ others, (Glob.metaWords p).all short = true := fun p hp => fits p (subset hp)
  have words : (ofPatterns others).words ⊆ (ofPatterns patterns).words := by
    intro word hw
    rw [mem_words_ofPatterns fits', List.mem_flatMap] at hw
    obtain ⟨p, hp, hw⟩ := hw
    exact (mem_words_ofPatterns fits).mpr (List.mem_flatMap.mpr ⟨p, subset hp, hw⟩)
  exact (List.subperm_of_subset (nodup_wordsOf _) words).length_le

theorem answer_ofPatterns_congr {others : List Bytes}
    (fits : ∀ p ∈ patterns, (Glob.metaWords p).all short = true)
    (fits' : ∀ p ∈ others, (Glob.metaWords p).all short = true)
    (same : ∀ p, p ≠ [] → (p ∈ patterns ↔ p ∈ others)) (fnmatch : Bytes → Bytes → Bool)
    (text : Bytes) :
    (ofPatterns patterns).close.answer fnmatch text =
      (ofPatterns others).close.answer fnmatch text := by
  apply SortedUnique.sortUnique_congr
  intro p
  have posted : ∀ word, (word, p) ∈ (ofPatterns patterns).postings ↔
      (word, p) ∈ (ofPatterns others).postings := by
    intro word
    rw [mem_ofPatterns_postings fits, mem_ofPatterns_postings fits']
    refine and_congr_left fun hw => same p ?_
    rintro rfl
    rw [Glob.metaWords_nil] at hw
    exact absurd hw List.not_mem_nil
  have kept : p ∈ (ofPatterns patterns).singles ↔ p ∈ (ofPatterns others).singles := by
    rw [mem_ofPatterns_singles, mem_ofPatterns_singles]
    exact and_congr_left fun single => same p single.1
  rw [List.mem_append, List.mem_append, Paraglob.mem_candidates, Paraglob.mem_candidates]
  simp only [close, posted, kept]

end Index

namespace Paraglob

variable {fnmatch : Bytes → Bytes → Bool} {patterns : List Bytes} {pg : Paraglob}

theorem pairwise_getPatterns (pg : Paraglob) : pg.getPatterns.Pairwise (· < ·) :=
  SortedUnique.pairwise_sortUnique _

/-- `get_patterns` is the sorted list of the non-empty patterns that were added. -/
theorem getPatterns_of_addEach (added : create.addEach patterns = .ok pg) :
    pg.getPatterns = SortedUnique.sortUnique (patterns.filter (· ≠ [])) := by
  obtain ⟨rep, fits⟩ := represents_of_addEach added
  exact rep.getPatterns_eq.trans (Index.patterns_ofPatterns fits)

theorem mem_getPatterns_of_addEach (added : create.addEach patterns = .ok pg) {p : Bytes} :
    p ∈ pg.getPatterns ↔ p ∈ patterns ∧ p ≠ [] := by
  rw [getPatterns_of_addEach added, SortedUnique.mem_sortUnique, List.mem_filter, decide_eq_true_eq]

section Comparing

variable {ps qs : List Bytes} {p q : Paraglob}

theorem equal_iff_same_words (addedP : create.addEach ps = .ok p)
    (addedQ : create.addEach qs = .ok q) :
    p.equal q = true ↔
      ∀ word, word ∈ ps.flatMap Glob.metaWords ↔ word ∈ qs.flatMap Glob.metaWords := by
  obtain ⟨repP, fitsP⟩ := represents_of_addEach addedP
  obtain ⟨repQ, fitsQ⟩ := represents_of_addEach addedQ
  have compared := repP.equal_iff repQ
  simp only [Index.mem_words_ofPatterns fitsP, Index.mem_words_ofPatterns fitsQ] at compared
  exact compared

theorem getPatterns_eq_iff (addedP : create.addEach ps = .ok p)
    (addedQ : create.addEach qs = .ok q) (nonemptyP : ∀ x ∈ ps, x ≠ [])
    (nonemptyQ : ∀ x ∈ qs, x ≠ []) : p.getPatterns = q.getPatterns ↔ ∀ x, x ∈ ps ↔ x ∈ qs := by
  have listedP : ∀ x, x ∈ p.getPatterns ↔ x ∈ ps :=
    fun x => (mem_getPatterns_of_addEach addedP).trans (and_iff_left_of_imp (nonemptyP x))
  have listedQ : ∀ x, x ∈ q.getPatterns ↔ x ∈ qs :=
    fun x => (mem_getPatterns_of_addEach addedQ).trans (and_iff_left_of_imp (nonemptyQ x))
  constructor
  · intro same x
    exact (listedP x).symm.trans (same ▸ listedQ x)
  · intro same
    exact SortedUnique.eq_of_pairwise_lt p.pairwise_getPatterns q.pairwise_getPatterns
      fun x => (listedP x).trans ((same x).trans (listedQ x).symm)

/-- Comparing two Paraglobs compares their patterns, if and only if the patterns are the
same or the meta words differ. -/
theorem equal_iff_same_patterns (addedP : create.addEach ps = .ok p)
    (addedQ : create.addEach qs = .ok q) (nonemptyP : ∀ x ∈ ps, x ≠ [])
    (nonemptyQ : ∀ x ∈ qs, x ≠ []) :
    (p.equal q = true ↔ p.getPatterns = q.getPatterns) ↔
      ((∀ word, word ∈ ps.flatMap Glob.metaWords ↔ word ∈ qs.flatMap Glob.metaWords) →
        ∀ x, x ∈ ps ↔ x ∈ qs) := by
  rw [equal_iff_same_words addedP addedQ, getPatterns_eq_iff addedP addedQ nonemptyP nonemptyQ]
  constructor
  · intro compares
    exact compares.mp
  · intro told
    refine ⟨told, fun same word => ?_⟩
    simp only [List.mem_flatMap, same]

/-- `a*` and `b`, added in two orders, once with a repetition. -/
theorem equal_iff_same_patterns_ab :
    ∃ p q, create.addEach [[97, 42], [98]] = .ok p ∧
      create.addEach [[98], [97, 42], [98]] = .ok q ∧
      (p.equal q = true ↔ p.getPatterns = q.getPatterns) := by
  obtain ⟨p, addedP, _⟩ := represents_create.addEach_spec rfl
    (by decide +kernel : ∀ x ∈ ([[97, 42], [98]] : List Bytes), (Glob.metaWords x).all short = true)
  obtain ⟨q, addedQ, _⟩ := represents_create.addEach_spec rfl (by decide +kernel :
    ∀ x ∈ ([[98], [97, 42], [98]] : List Bytes), (Glob.metaWords x).all short = true)
  refine ⟨p, q, addedP, addedQ, ?_⟩
  apply (equal_iff_same_patterns addedP addedQ (by decide) (by decide)).mpr
  intro _ x
  simp only [List.mem_cons, List.not_mem_nil, or_false]
  tauto

/-- `a*` and `*a` have the same meta word. -/
theorem equal_star_suffix :
    ¬ ∀ (ps qs : List Bytes) (p q : Paraglob), create.addEach ps = .ok p →
      create.addEach qs = .ok q → (∀ x ∈ ps, x ≠ []) → (∀ x ∈ qs, x ≠ []) →
        (p.equal q = true ↔ p.getPatterns = q.getPatterns) := by
  intro compares
  obtain ⟨p, addedP, _⟩ := represents_create.addEach_spec rfl
    (by decide +kernel : ∀ x ∈ ([[97, 42]] : List Bytes), (Glob.metaWords x).all short = true)
  obtain ⟨q, addedQ, _⟩ := represents_create.addEach_spec rfl
    (by decide +kernel : ∀ x ∈ ([[42, 97]] : List Bytes), (Glob.metaWords x).all short = true)
  have words : ([[97, 42]] : List Bytes).flatMap Glob.metaWords =
      ([[42, 97]] : List Bytes).flatMap Glob.metaWords := by decide +kernel
  have equal := (equal_iff_same_words addedP addedQ).mpr fun word => by rw [words]
  have listed := (compares _ _ p q addedP addedQ (by decide) (by decide)).mp equal
  have same := (getPatterns_eq_iff addedP addedQ (by decide) (by decide)).mp listed [97, 42]
  exact absurd (same.mp (by decide)) (by decide)

end Comparing

/-- The list of patterns determines the Paraglob: it has the patterns that were added, and a
Paraglob built from it has the same list and, with at most `2 ^ 31` meta words, the same answers. -/
theorem rebuilt_from_patterns (fnmatch : Bytes → Bytes → Bool)
    (added : create.addEach patterns = .ok pg) :
    pg.getPatterns = SortedUnique.sortUnique (patterns.filter (· ≠ [])) ∧
      ∃ rebuilt, ofPatterns pg.getPatterns = .ok rebuilt ∧
        rebuilt.getPatterns = pg.getPatterns ∧
        ∃ compiled, pg.compile = .ok compiled ∧
          ((patterns.flatMap Glob.metaWords).eraseDups.length ≤ 2 ^ 31 →
            ∀ text, ∃ result asked asked', compiled.get fnmatch text = .ok (result, asked) ∧
              rebuilt.get fnmatch text = .ok (result, asked')) := by
  have listed := getPatterns_of_addEach added
  obtain ⟨rep, fits⟩ := represents_of_addEach added
  obtain ⟨compiled, ran, rep'⟩ := rep.compile_spec
  have members : ∀ p, p ∈ pg.getPatterns ↔ p ∈ patterns ∧ p ≠ [] :=
    fun p => mem_getPatterns_of_addEach added
  have subset : pg.getPatterns ⊆ patterns := fun p hp => ((members p).mp hp).1
  have fits' : ∀ p ∈ pg.getPatterns, (Glob.metaWords p).all short = true :=
    fun p hp => fits p (subset hp)
  obtain ⟨rebuilt, built, closed⟩ := ofPatterns_spec fits'
  refine ⟨listed, rebuilt, built, ?_, compiled, ran, fun few text => ?_⟩
  · have complete : pg.getPatterns.filter (· ≠ []) = pg.getPatterns :=
      List.filter_eq_self.mpr fun p hp => decide_eq_true ((members p).mp hp).2
    have again : rebuilt.getPatterns = SortedUnique.sortUnique (pg.getPatterns.filter (· ≠ [])) :=
      closed.getPatterns_eq.trans (Index.patterns_ofPatterns fits')
    rw [again, complete, SortedUnique.sortUnique_eq_self pg.pairwise_getPatterns]
  · have few' : (Index.ofPatterns patterns).close.words.length ≤ 2 ^ 31 :=
      Index.ofPatterns_words fits ▸ few
    have fewer : (Index.ofPatterns pg.getPatterns).close.words.length ≤ 2 ^ 31 :=
      (Index.length_words_ofPatterns_le fits subset).trans few'
    have same := Index.answer_ofPatterns_congr fits fits'
      (fun p nonempty => ((members p).trans (and_iff_left nonempty)).symm) fnmatch text
    obtain ⟨asked, answered, _⟩ := rep'.get_spec few' fnmatch text
    obtain ⟨asked', answered', _⟩ := closed.get_spec fewer fnmatch text
    exact ⟨_, asked, asked', answered, same ▸ answered'⟩

/-- `b*`, the empty pattern, `a`, and `b*` once more. -/
theorem rebuilt_from_patterns_ab :
    ∃ pg rebuilt compiled, create.addEach [[98, 42], [], [97], [98, 42]] = .ok pg ∧
      pg.getPatterns = SortedUnique.sortUnique
        (([[98, 42], [], [97], [98, 42]] : List Bytes).filter (· ≠ [])) ∧
      ofPatterns pg.getPatterns = .ok rebuilt ∧ rebuilt.getPatterns = pg.getPatterns ∧
      pg.compile = .ok compiled ∧
      ∀ text, ∃ result asked asked',
        compiled.get (Fnmatch.fnmatch Fnmatch.cLocale) text = .ok (result, asked) ∧
          rebuilt.get (Fnmatch.fnmatch Fnmatch.cLocale) text = .ok (result, asked') := by
  obtain ⟨pg, added, _⟩ := represents_create.addEach_spec rfl (by decide +kernel :
    ∀ x ∈ ([[98, 42], [], [97], [98, 42]] : List Bytes), (Glob.metaWords x).all short = true)
  obtain ⟨listed, rebuilt, built, relisted, compiled, ran, answers⟩ :=
    rebuilt_from_patterns (Fnmatch.fnmatch Fnmatch.cLocale) added
  exact ⟨pg, rebuilt, compiled, added, listed, built, relisted, ran, answers (by decide +kernel)⟩

/-- A number in 32 binary digits, the lowest first. -/
def digits (i : Nat) : Bytes := (List.range 32).map fun k => if i.testBit k then 49 else 48

/-- 32 letters `z`. -/
def top : Bytes := List.replicate 32 122

/-- `n` words of 32 digits behind a word that is greater than all of them. -/
def manyWords (n : Nat) : List Bytes := top :: (List.range n).map digits

private theorem eraseDups_eq_self {α : Type} [BEq α] [LawfulBEq α] {xs : List α} (distinct : xs.Nodup) :
    xs.eraseDups = xs := by
  induction xs with
  | nil => rfl
  | cons a xs ih =>
      obtain ⟨fresh, distinct⟩ := List.nodup_cons.mp distinct
      have kept : xs.filter (fun b => !b == a) = xs := by
        apply List.filter_eq_self.mpr
        intro b hb
        simpa using fun same : b = a => fresh (same ▸ hb)
      rw [List.eraseDups_cons, kept, ih distinct]

theorem digits_inj {i j : Nat} (hi : i < 2 ^ 32) (hj : j < 2 ^ 32) (same : digits i = digits j) :
    i = j := by
  apply Nat.eq_of_testBit_eq
  intro k
  by_cases low : k < 32
  · have at_k := List.map_inj_left.mp same k (List.mem_range.mpr low)
    cases hik : i.testBit k <;> cases hjk : j.testBit k <;> simp [hik, hjk] at at_k ⊢
  · have big : 2 ^ 32 ≤ 2 ^ k := Nat.pow_le_pow_right (by omega) (by omega)
    rw [Nat.testBit_lt_two_pow (hi.trans_le big), Nat.testBit_lt_two_pow (hj.trans_le big)]

theorem digits_lt_top (i : Nat) : digits i < top := by
  have first : (if i.testBit 0 then 49 else 48 : UInt8) < 122 := by
    split <;> decide
  exact List.cons_lt_cons_iff.mpr (Or.inl first)

theorem nodup_manyWords {n : Nat} (few : n ≤ 2 ^ 32) : (manyWords n).Nodup := by
  refine List.nodup_cons.mpr ⟨?_, List.nodup_range.map_on ?_⟩
  · intro mem
    obtain ⟨i, _, same⟩ := List.mem_map.mp mem
    exact absurd same (ne_of_lt (digits_lt_top i))
  · intro i hi j hj same
    exact digits_inj ((List.mem_range.mp hi).trans_le few) ((List.mem_range.mp hj).trans_le few) same

theorem manyWords_spec {n : Nat} {word : Bytes} (hw : word ∈ manyWords n) :
    word.length = 32 ∧ word ≤ top ∧ Glob.metaWords word = [word] := by
  have literals : ∀ w : Bytes, w.length = 32 → (∀ c ∈ w, c = 48 ∨ c = 49 ∨ c = 122) →
      Glob.metaWords w = [w] := by
    intro w length letters
    apply Glob.metaWords_of_literals (List.ne_nil_of_length_pos (by omega))
    intro c hc
    obtain rfl | rfl | rfl := letters c hc <;> decide
  cases List.mem_cons.mp hw with
  | inl isTop =>
      subst isTop
      refine ⟨rfl, le_rfl, literals top rfl fun c hc => ?_⟩
      exact Or.inr (Or.inr (List.eq_of_mem_replicate hc))
  | inr isDigits =>
      obtain ⟨i, _, rfl⟩ := List.mem_map.mp isDigits
      refine ⟨rfl, (digits_lt_top i).le, literals (digits i) rfl fun c hc => ?_⟩
      obtain ⟨k, _, rfl⟩ := List.mem_map.mp hc
      split
      · exact Or.inr (Or.inl rfl)
      · exact Or.inl rfl

theorem fits_manyWords (n : Nat) : ∀ p ∈ manyWords n, (Glob.metaWords p).all short = true := by
  intro p hp
  obtain ⟨length, _, own⟩ := manyWords_spec hp
  simp [own, short, length, acPatternMaxLength]

theorem words_of_perm {n : Nat} (few : n ≤ 2 ^ 32) {patterns : List Bytes}
    (perm : patterns.Perm (manyWords n)) : (Index.ofPatterns patterns).close.words = patterns := by
  have spec : ∀ p ∈ patterns, Glob.metaWords p = [p] :=
    fun p hp => (manyWords_spec (perm.mem_iff.mp hp)).2.2
  have fits : ∀ p ∈ patterns, (Glob.metaWords p).all short = true :=
    fun p hp => fits_manyWords n p (perm.mem_iff.mp hp)
  change (Index.ofPatterns patterns).words = patterns
  rw [Index.ofPatterns_words fits, List.flatMap_congr spec, List.flatMap_singleton',
    eraseDups_eq_self (perm.nodup_iff.mpr (nodup_manyWords few))]

/-- The greatest word is found under the number of its own position only. -/
theorem found_top_iff {n i : Nat} (few : n ≤ 2 ^ 32) {patterns : List Bytes}
    (perm : patterns.Perm (manyWords n)) :
    Found (Index.ofPatterns patterns).close top i ↔ patterns[i]? = some top := by
  rw [Found, words_of_perm few perm]
  constructor
  · rintro ⟨_, word, at_i, inside⟩
    obtain ⟨length, _⟩ := manyWords_spec (perm.mem_iff.mp (List.mem_of_getElem? at_i))
    rwa [← inside.eq_of_length length]
  · intro at_i
    exact ⟨rfl, top, at_i, List.infix_rfl⟩

theorem get_top_returns (fnmatch : Bytes → Bytes → Bool) {n : Nat} (few : n ≤ 2 ^ 32)
    {pg : Paraglob} (rep : pg.Represents (Index.ofPatterns (manyWords n)).close) :
    ∃ result pg', pg.get fnmatch top = .ok (result, pg') := by
  obtain ⟨result, pg', ran, _⟩ := rep.get_ok fnmatch top (by
    intro i here
    have at_i := (found_top_iff few (.refl _)).mp here
    have at_zero : i = 0 := by
      have bound : i < (manyWords n).length := (List.getElem?_eq_some_iff.mp at_i).1
      exact (List.getElem?_inj bound (nodup_manyWords few)).mp at_i
    refine ⟨top, ?_⟩
    rw [at_zero, words_of_perm few (.refl _), wordNumber_of_lt (by decide)]
    exact vectorAt_of_lt rfl (by decide))
  exact ⟨result, pg', ran⟩

theorem get_top_throws (fnmatch : Bytes → Bytes → Bool) {patterns : List Bytes}
    (perm : patterns.Perm (manyWords (2 ^ 31))) (sorted : patterns.Pairwise (· < ·))
    {pg : Paraglob} (rep : pg.Represents (Index.ofPatterns patterns).close) :
    pg.get fnmatch top = .error .outOfRange := by
  have length : patterns.length = 2 ^ 31 + 1 := by
    rw [perm.length_eq, manyWords, List.length_cons, List.length_map, List.length_range]
  have last : patterns[2 ^ 31]? = some top := by
    have atLast := SortedUnique.last_of_pairwise_lt sorted (perm.mem_iff.mpr List.mem_cons_self)
      fun p hp => (manyWords_spec (perm.mem_iff.mp hp)).2.1
    rwa [length, Nat.add_sub_cancel] at atLast
  have here : Found (Index.ofPatterns patterns).close top (2 ^ 31) :=
    (found_top_iff (by decide) perm).mpr last
  apply rep.get_error fnmatch here
  intro word at_number
  have wraps : ((wordNumber (2 ^ 31)) % 2 ^ 64).toNat = 2 ^ 64 - 2 ^ 31 := by decide
  rw [vectorAt, wraps, words_of_perm (by decide) perm, List.getElem?_eq_none (by omega)] at at_number
  cases at_number

/-- `2 ^ 31 + 1` words, the greatest of them added first: the original returns, and the
Paraglob rebuilt from its patterns throws. -/
theorem rebuilt_manyWords :
    ¬ ∀ (patterns : List Bytes) (pg compiled rebuilt : Paraglob),
      create.addEach patterns = .ok pg → pg.compile = .ok compiled →
        ofPatterns pg.getPatterns = .ok rebuilt → ∀ text,
          (compiled.get (Fnmatch.fnmatch Fnmatch.cLocale) text).map Prod.fst =
            (rebuilt.get (Fnmatch.fnmatch Fnmatch.cLocale) text).map Prod.fst := by
  intro same
  have fits := fits_manyWords (2 ^ 31)
  obtain ⟨pg, added, rep⟩ := represents_create.addEach_spec rfl fits
  obtain ⟨compiled, ran, rep'⟩ := rep.compile_spec
  have perm : pg.getPatterns.Perm (manyWords (2 ^ 31)) := by
    apply (List.perm_ext_iff_of_nodup pg.pairwise_getPatterns.sortedLT.nodup
      (nodup_manyWords (by decide))).mpr
    intro p
    rw [mem_getPatterns_of_addEach added]
    apply and_iff_left_of_imp
    intro hp
    obtain ⟨length, _⟩ := manyWords_spec hp
    exact List.ne_nil_of_length_pos (by omega)
  obtain ⟨rebuilt, built, closed⟩ := ofPatterns_spec fun p hp => fits p (perm.mem_iff.mp hp)
  obtain ⟨result, asked, returned⟩ :=
    get_top_returns (Fnmatch.fnmatch Fnmatch.cLocale) (by decide) rep'
  have threw := get_top_throws (Fnmatch.fnmatch Fnmatch.cLocale) perm pg.pairwise_getPatterns closed
  have equal := same _ pg compiled rebuilt added ran built top
  rw [returned, threw] at equal
  cases equal

end Paraglob
