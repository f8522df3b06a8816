import Paraglob.Core.Runs
import Paraglob.Library.Fnmatch

/-!
# What `get` returns

The answer of a Paraglob is compared with a scan over the patterns that were
added: a pattern without meta words is always selected, every other pattern is
selected when one of its meta words occurs in the text and `fnmatch` accepts.
The patterns without meta words are returned without a call of `fnmatch`, which
is where false positives come from.
-/

/-- What a scan over the patterns selects. -/
def Selects (fnmatch : Bytes → Bytes → Bool) (p text : Bytes) : Prop :=
  (p ≠ [] ∧ Glob.metaWords p = []) ∨
    (∃ word ∈ Glob.metaWords p, word <:+: text) ∧ fnmatch p.cStr text.cStr = true

instance (fnmatch : Bytes → Bytes → Bool) (p text : Bytes) : Decidable (Selects fnmatch p text) :=
  inferInstanceAs (Decidable (_ ∨ _))

/-- The answer of a closed index over a list of patterns is the scan. -/
theorem Index.mem_answer_ofPatterns {patterns : List Bytes}
    (fits : ∀ p ∈ patterns, (Glob.metaWords p).all short = true)
    (fnmatch : Bytes → Bytes → Bool) (text p : Bytes) :
    p ∈ (Index.ofPatterns patterns).close.answer fnmatch text ↔
      p ∈ patterns ∧ Selects fnmatch p text := by
  rw [answer, SortedUnique.mem_sortUnique, List.mem_append, Paraglob.mem_candidates]
  change _ ∨ p ∈ (Index.ofPatterns patterns).singles ↔ _
  rw [mem_ofPatterns_singles]
  constructor
  · rintro (⟨_, word, posted, inside, accepts⟩ | ⟨hp, single⟩)
    · obtain ⟨hp, hw⟩ := (mem_ofPatterns_postings fits).mp posted
      exact ⟨hp, Or.inr ⟨⟨word, hw, inside⟩, accepts⟩⟩
    · exact ⟨hp, Or.inl single⟩
  · rintro ⟨hp, single | ⟨⟨word, hw, inside⟩, accepts⟩⟩
    · exact Or.inr ⟨hp, single⟩
    · exact Or.inl ⟨rfl, word, (mem_ofPatterns_postings fits).mpr ⟨hp, hw⟩, inside, accepts⟩

namespace Paraglob

variable {fnmatch : Bytes → Bytes → Bool}

/-- Every `get` on a compiled Paraglob returns what the scan selects, in strictly
increasing order, whatever was asked before. -/
theorem get_eq_naive_scan (fnmatch : Bytes → Bytes → Bool) {patterns : List Bytes} {pg : Paraglob}
    (added : create.addEach patterns = .ok pg)
    (few : (patterns.flatMap Glob.metaWords).eraseDups.length < 2 ^ 31) :
    ∃ compiled, pg.compile = .ok compiled ∧ ∀ earlier : List Bytes,
      ∃ asked, getEach fnmatch compiled earlier = .ok asked ∧ ∀ text : Bytes,
        ∃ result last, asked.get fnmatch text = .ok (result, last) ∧
          result.Pairwise (· < ·) ∧
          ∀ p, p ∈ result ↔ p ∈ patterns ∧ Selects fnmatch p text := by
  obtain ⟨rep, fits⟩ := represents_of_addEach added
  obtain ⟨compiled, ran, closed⟩ := rep.compile_spec
  have few' : (Index.ofPatterns patterns).close.words.length ≤ 2 ^ 31 :=
    Index.ofPatterns_words fits ▸ Nat.le_of_lt few
  refine ⟨compiled, ran, fun earlier => ?_⟩
  obtain ⟨asked, ran', rep'⟩ := closed.getEach_spec few' earlier
  refine ⟨asked, ran', fun text => ?_⟩
  obtain ⟨last, answered, _⟩ := rep'.get_spec few' fnmatch text
  exact ⟨_, last, answered, SortedUnique.pairwise_sortUnique _,
    Index.mem_answer_ofPatterns fits fnmatch text⟩

/-- `a*b`, `?c` and `*`, asked for `ba` and then for `ab`. -/
theorem get_eq_naive_scan_abc :
    ∃ pg compiled asked result last,
      create.addEach [[97, 42, 98], [63, 99], [42]] = .ok pg ∧ pg.compile = .ok compiled ∧
      getEach (Fnmatch.fnmatch Fnmatch.cLocale) compiled [[98, 97]] = .ok asked ∧
      asked.get (Fnmatch.fnmatch Fnmatch.cLocale) [97, 98] = .ok (result, last) ∧
      result.Pairwise (· < ·) ∧
      ∀ p, p ∈ result ↔ p ∈ [[97, 42, 98], [63, 99], [42]] ∧
        Selects (Fnmatch.fnmatch Fnmatch.cLocale) p [97, 98] := by
  have fits : ∀ p ∈ ([[97, 42, 98], [63, 99], [42]] : List Bytes),
      (Glob.metaWords p).all short = true := by decide +kernel
  obtain ⟨pg, added, _⟩ := represents_create.addEach_spec rfl fits
  obtain ⟨compiled, ran, asks⟩ :=
    get_eq_naive_scan (Fnmatch.fnmatch Fnmatch.cLocale) added (by decide +kernel)
  obtain ⟨asked, ran', answers⟩ := asks [[98, 97]]
  obtain ⟨result, last, answered, rest⟩ := answers [97, 98]
  exact ⟨pg, compiled, asked, result, last, added, ran, ran', answered, rest⟩

/-- A compiled Paraglob returns only patterns that match if and only if the text is
matched by every pattern that is kept beside the postings. -/
theorem no_false_positives_iff (fnmatch : Bytes → Bytes → Bool) {patterns result : List Bytes}
    {text : Bytes} (earlier : List Bytes) {compiled pg pg' : Paraglob} (noNul : ∀ p ∈ patterns, 0 ∉ p)
    (noNulText : 0 ∉ text) (built : Paraglob.ofPatterns patterns = .ok compiled)
    (asked : getEach fnmatch compiled earlier = .ok pg)
    (returns : pg.get fnmatch text = .ok (result, pg')) :
    (∀ p ∈ result, fnmatch p text = true) ↔
      ∀ p ∈ patterns, p ≠ [] → Glob.metaWords p = [] → fnmatch p text = true := by
  obtain ⟨rep, fits⟩ := represents_of_ofPatterns built
  obtain ⟨_, _, members⟩ := (rep.of_getEach asked).of_get returns
  constructor
  · intro sound p hp nonempty none
    exact sound p ((members p).mpr (Or.inl (Index.mem_ofPatterns_singles.mpr ⟨hp, nonempty, none⟩)))
  · intro kept p hp
    cases (members p).mp hp with
    | inl single =>
        obtain ⟨hp, nonempty, none⟩ := Index.mem_ofPatterns_singles.mp single
        exact kept p hp nonempty none
    | inr candidate =>
        obtain ⟨_, _, word, _, posted, accepts⟩ := candidate
        obtain ⟨hp, _⟩ := (Index.mem_ofPatterns_postings fits).mp posted
        rwa [Bytes.cStr_eq_self (noNul p hp), Bytes.cStr_eq_self noNulText] at accepts

/-- `*` and `a?` on `b`. -/
theorem no_false_positives_iff_star :
    ∃ compiled result pg', Paraglob.ofPatterns [[42], [97, 63]] = .ok compiled ∧
      compiled.get (Fnmatch.fnmatch Fnmatch.cLocale) [98] = .ok (result, pg') ∧
      ∀ p ∈ result, Fnmatch.fnmatch Fnmatch.cLocale p [98] = true := by
  have fits : ∀ p ∈ ([[42], [97, 63]] : List Bytes), (Glob.metaWords p).all short = true := by
    decide +kernel
  obtain ⟨compiled, pg', built, answered⟩ := get_of_ofPatterns fits (by decide +kernel)
    (Fnmatch.fnmatch Fnmatch.cLocale) [98]
  refine ⟨compiled, _, pg', built, answered, ?_⟩
  exact (no_false_positives_iff (Fnmatch.fnmatch Fnmatch.cLocale) [] (by decide) (by decide) built
    rfl answered).mpr (by decide +kernel)

/-- `[a]` has no meta words, so it is returned for `b`, which it does not match. -/
theorem false_positive_bracket :
    ¬ ∀ (patterns : List Bytes) (text : Bytes) (pg pg' : Paraglob) (result : List Bytes),
      (∀ p ∈ patterns, 0 ∉ p) → 0 ∉ text → Paraglob.ofPatterns patterns = .ok pg →
        pg.get (Fnmatch.fnmatch Fnmatch.cLocale) text = .ok (result, pg') →
          ∀ p ∈ result, Fnmatch.fnmatch Fnmatch.cLocale p text = true := by
  intro sound
  have fits : ∀ p ∈ ([[91, 97, 93]] : List Bytes), (Glob.metaWords p).all short = true := by
    decide +kernel
  obtain ⟨pg, pg', built, answered⟩ := get_of_ofPatterns fits (by decide +kernel)
    (Fnmatch.fnmatch Fnmatch.cLocale) [98]
  have selected := (Index.mem_answer_ofPatterns fits (Fnmatch.fnmatch Fnmatch.cLocale) [98]
    [91, 97, 93]).mpr ⟨by simp, Or.inl (by decide +kernel)⟩
  have matched := sound _ _ pg pg' _ (by decide) (by decide) built answered _ selected
  exact absurd matched (by decide +kernel)

end Paraglob
