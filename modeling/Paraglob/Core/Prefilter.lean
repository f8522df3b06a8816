import Paraglob.Core.Matching

/-!
# The prefilter

A pattern is tried on a text only when one of its meta words occurs in it. Where
the splitter and `fnmatch` read the pattern alike, every meta word occurs in
every text that matches, in order and without overlap. They read it differently
when a backslash escapes a character, or when a bracket expression contains a `[`
or begins with a `]`: then a meta word can be text that no match has to contain,
and the pattern is hidden.
-/

open Multifast Glob

/-- The words occur in the text one after the other, without overlap. -/
def OccurInOrder : List Bytes → Bytes → Prop
  | [], _ => True
  | word :: words, text =>
      ∃ before after, text = before ++ word ++ after ∧ OccurInOrder words after

namespace OccurInOrder

theorem prepend {words : List Bytes} {text : Bytes} (front : Bytes)
    (h : OccurInOrder words text) : OccurInOrder words (front ++ text) := by
  cases words with
  | nil => trivial
  | cons word words =>
      obtain ⟨before, after, rfl, rest⟩ := h
      exact ⟨front ++ before, after, by simp, rest⟩

theorem emit_append {run text : Bytes} {words : List Bytes} (h : OccurInOrder words text) :
    OccurInOrder (emit run ++ words) (run ++ text) := by
  rw [emit]
  split
  · exact h.prepend run
  · exact ⟨[], text, rfl, h⟩

theorem infix_of_mem {words : List Bytes} {text word : Bytes} (h : OccurInOrder words text)
    (hw : word ∈ words) : word <:+: text := by
  induction words generalizing text with
  | nil => exact absurd hw List.not_mem_nil
  | cons v words ih =>
      obtain ⟨before, after, rfl, rest⟩ := h
      cases List.mem_cons.mp hw with
      | inl same => exact same ▸ ⟨before, after, rfl⟩
      | inr later => exact (ih rest later).trans (List.suffix_append _ after).isInfix

end OccurInOrder

namespace Glob

/-- The bodies of the regions the splitter skips. -/
def bodies : Bytes → List Bytes
  | [] => []
  | c :: rest =>
      if c = openBracket then
        match _h : afterClose rest with
        | some tail => rest.takeWhile (· ≠ closeBracket) :: bodies tail
        | none => bodies rest
      else bodies rest
termination_by s => s.length
decreasing_by
  all_goals
    simp only [List.length_cons]
    first
      | omega
      | exact (afterClose_length _h).trans (Nat.lt_succ_self _)

/-- The documented syntax: no backslash, and no skipped region whose body contains
a `[` or is empty up to a leading `!` or `^`. -/
structure Documented (pattern : Bytes) : Prop where
  noBackslash : Fnmatch.backslash ∉ pattern
  body : ∀ body ∈ bodies pattern, openBracket ∉ body ∧ Fnmatch.dropNegation body ≠ []

instance (pattern : Bytes) : Decidable (Documented pattern) :=
  decidable_of_iff (Fnmatch.backslash ∉ pattern ∧
    ∀ body ∈ bodies pattern, openBracket ∉ body ∧ Fnmatch.dropNegation body ≠ [])
    ⟨fun h => ⟨h.1, h.2⟩, fun h => ⟨h.1, h.2⟩⟩

theorem bodies_region {rest tail : Bytes} (close : afterClose rest = some tail) :
    bodies (openBracket :: rest) = rest.takeWhile (· ≠ closeBracket) :: bodies tail := by
  rw [bodies, if_pos rfl]
  split
  · rename_i tail' close'
    obtain rfl : tail = tail' := Option.some.inj (close.symm.trans close')
    rfl
  · rename_i absent
    exact absurd (close.symm.trans absent) (by simp)

theorem bodies_literal {c : UInt8} {rest : Bytes}
    (noRegion : c = openBracket → afterClose rest = none) : bodies (c :: rest) = bodies rest := by
  rw [bodies]
  split
  · rename_i bracket
    split
    · rename_i tail close
      exact absurd (close.symm.trans (noRegion bracket)) (by simp)
    · rfl
  · rfl

theorem afterClose_eq_some {s tail : Bytes} (close : afterClose s = some tail) :
    s = s.takeWhile (· ≠ closeBracket) ++ closeBracket :: tail := by
  induction s with
  | nil => cases close
  | cons c s ih =>
      rw [afterClose] at close
      split at close
      · rename_i here
        cases close
        rw [List.takeWhile_cons_of_neg (by simp [here]), here]
        rfl
      · rename_i other
        rw [List.takeWhile_cons_of_pos (by simp [other]), List.cons_append, ← ih close]

theorem not_mem_of_afterClose {s : Bytes} (unclosed : afterClose s = none) : closeBracket ∉ s := by
  induction s with
  | nil => exact List.not_mem_nil
  | cons c s ih =>
      rw [afterClose] at unclosed
      split at unclosed
      · cases unclosed
      · rename_i other
        intro mem
        cases List.mem_cons.mp mem with
        | inl same => exact other same.symm
        | inr later => exact ih unclosed later

namespace Documented

variable {c : UInt8} {rest tail : Bytes}

theorem of_literal (doc : Documented (c :: rest))
    (noRegion : c = openBracket → afterClose rest = none) : Documented rest where
  noBackslash mem := doc.noBackslash (List.mem_cons_of_mem _ mem)
  body := bodies_literal noRegion ▸ doc.body

theorem of_region (doc : Documented (openBracket :: rest)) (close : afterClose rest = some tail) :
    Documented tail where
  noBackslash mem := doc.noBackslash (by
    rw [afterClose_eq_some close]
    simp [mem])
  body body mem := doc.body body (bodies_region close ▸ List.mem_cons_of_mem _ mem)

/-- `fnmatch` reads a skipped region of a documented pattern as one bracket expression. -/
theorem bracket_eq (doc : Documented (openBracket :: rest)) (close : afterClose rest = some tail)
    (loc : Fnmatch.Locale) :
    ∃ negated ms, Fnmatch.bracket loc rest = some (.bracket negated ms, tail) := by
  have cut := afterClose_eq_some close
  obtain ⟨noOpen, proper⟩ := doc.body (rest.takeWhile (· ≠ closeBracket))
    (bodies_region close ▸ List.mem_cons_self)
  have simple : Fnmatch.Simple (rest.takeWhile (· ≠ closeBracket)) := by
    intro c hc
    have inside := List.mem_takeWhile_imp hc
    refine ⟨of_decide_eq_true inside, ?_, ?_⟩
    · rintro rfl
      exact noOpen hc
    · rintro rfl
      exact doc.noBackslash (List.mem_cons_of_mem _ ((List.takeWhile_sublist _).mem hc))
  obtain ⟨negated, ms, found⟩ := Fnmatch.bracket_of_simple loc tail simple proper
  refine ⟨negated, ms, ?_⟩
  rw [cut]
  exact found

end Documented

/-- The scan and the matcher side by side: what is left of the pattern matches the
text behind the run that is being collected. -/
theorem scan_occurInOrder (loc : Fnmatch.Locale) (run : Bytes) {s text : Bytes} (doc : Documented s)
    (matched : Fnmatch.matchItems loc (Fnmatch.parse loc s) text = true) :
    OccurInOrder (scan run s) (run ++ text) := by
  induction run, s using scan.induct generalizing text with
  | case1 run =>
      rw [scan, ← List.append_nil (emit run)]
      exact OccurInOrder.emit_append trivial
  | case2 run c rest wild ih =>
      have doc' : Documented rest := doc.of_literal fun bracket => by
        rw [bracket] at wild
        exact absurd wild (by decide)
      rw [scan_wildcard wild]
      apply OccurInOrder.emit_append
      cases List.mem_cons.mp wild with
      | inl isStar =>
          rw [isStar, show star = Fnmatch.star from rfl, Fnmatch.parse_star,
            Fnmatch.matchItems_star_iff] at matched
          obtain ⟨skipped, rest', rfl, matched'⟩ := matched
          exact (ih doc' matched').prepend skipped
      | inr isQuestion =>
          rw [List.mem_singleton.mp isQuestion, show question = Fnmatch.question from rfl,
            Fnmatch.parse_question] at matched
          obtain ⟨d, rest', rfl, matched'⟩ := Fnmatch.matchItems_question matched
          exact (ih doc' matched').prepend [d]
  | case3 run rest tail close wild ih =>
      obtain ⟨negated, ms, found⟩ := doc.bracket_eq close loc
      rw [show openBracket = Fnmatch.openBracket from rfl, Fnmatch.parse_bracket found] at matched
      obtain ⟨d, rest', rfl, matched'⟩ := Fnmatch.matchItems_bracket matched
      rw [scan_region close]
      exact OccurInOrder.emit_append ((ih (doc.of_region close) matched').prepend [d])
  | case4 run rest absent wild ih =>
      have noExpression : Fnmatch.bracket loc rest = none :=
        Fnmatch.bracket_eq_none (not_mem_of_afterClose absent)
      rw [Fnmatch.parse_literal (by decide) (by decide) (by decide) fun _ => noExpression] at matched
      obtain ⟨rest', rfl, matched'⟩ := Fnmatch.matchItems_literal matched
      rw [scan_literal wild fun _ => absent, List.append_cons run openBracket rest']
      exact ih (doc.of_literal fun _ => absent) matched'
  | case5 run c rest wild other ih =>
      have notStar : c ≠ star := fun same => wild (by simp [same])
      have notQuestion : c ≠ question := fun same => wild (by simp [same])
      have notBackslash : c ≠ Fnmatch.backslash := fun same =>
        doc.noBackslash (same ▸ List.mem_cons_self)
      rw [Fnmatch.parse_literal notStar notQuestion notBackslash
        fun bracket => absurd bracket other] at matched
      obtain ⟨rest', rfl, matched'⟩ := Fnmatch.matchItems_literal matched
      rw [scan_literal wild fun bracket => absurd bracket other, List.append_cons run c rest']
      exact ih (doc.of_literal fun bracket => absurd bracket other) matched'

theorem metaWords_occurInOrder {pattern text : Bytes} (doc : Documented pattern)
    (loc : Fnmatch.Locale) (matched : Fnmatch.fnmatch loc pattern text = true) :
    OccurInOrder (metaWords pattern) text :=
  metaWords_eq_scan pattern ▸ scan_occurInOrder loc [] doc matched

end Glob

/-- Where the documented syntax is used, the meta words of a pattern occur in order and without
overlap in every text that `fnmatch` matches it to. -/
theorem Paraglob.metaWords_necessary (loc : Fnmatch.Locale) (pg : Paraglob) {pattern text : Bytes}
    (noNul : 0 ∉ pattern) (noNulText : 0 ∉ text) (doc : Documented pattern)
    (matched : Fnmatch.fnmatch loc pattern.cStr text.cStr = true) :
    OccurInOrder (pg.getMetaWords pattern).1 text := by
  rw [Bytes.cStr_eq_self noNul, Bytes.cStr_eq_self noNulText] at matched
  rw [getMetaWords_eq]
  exact metaWords_occurInOrder doc loc matched

/-- The words `a` and `b[` of `a*[!x]b[` occur in `aybb[`. -/
theorem Paraglob.metaWords_necessary_ab :
    OccurInOrder (Paraglob.create.getMetaWords [97, 42, 91, 33, 120, 93, 98, 91]).1
      [97, 121, 98, 98, 91] :=
  Paraglob.metaWords_necessary Fnmatch.cLocale Paraglob.create (by decide) (by decide)
    (by decide +kernel) (by decide +kernel)

/-- The distinct meta words of a list of patterns, in the order of their numbers. -/
def distinctWords (patterns : List Bytes) : List Bytes :=
  (patterns.flatMap Glob.metaWords).eraseDups

/-- The word in position `i` occurs in the text. -/
def OccursAt (patterns : List Bytes) (text : Bytes) (i : Nat) : Prop :=
  ∃ word, (distinctWords patterns)[i]? = some word ∧ word <:+: text

/-- Following the number of the word in position `i` leads to `word`. -/
def LeadsTo (patterns : List Bytes) (i : Nat) (word : Bytes) : Prop :=
  vectorAt (distinctWords patterns) (Paraglob.wordNumber i) = .ok word

/-- `get` returns, and no pattern that matches is missing from the result. -/
def NoFalseNegatives (fnmatch : Bytes → Bytes → Bool) (patterns : List Bytes) (text : Bytes)
    (pg : Paraglob) : Prop :=
  ∃ result pg', pg.get fnmatch text = .ok (result, pg') ∧
    ∀ p ∈ patterns, fnmatch p text = true → p ∈ result

namespace Paraglob

/-- What a closed index over a list of patterns answers, in terms of the list. -/
theorem noFalseNegatives_iff_leadsTo (fnmatch : Bytes → Bytes → Bool) {patterns : List Bytes}
    {text : Bytes} {pg : Paraglob} (nonempty : ∀ p ∈ patterns, p ≠ [])
    (noNul : ∀ p ∈ patterns, 0 ∉ p) (noNulText : 0 ∉ text)
    (fits : ∀ p ∈ patterns, (Glob.metaWords p).all short = true)
    (rep : pg.Represents (Index.ofPatterns patterns).close) :
    NoFalseNegatives fnmatch patterns text pg ↔
      (∀ i, OccursAt patterns text i → ∃ word, LeadsTo patterns i word) ∧
        ∀ p ∈ patterns, fnmatch p text = true → Glob.metaWords p = [] ∨
          ∃ i, OccursAt patterns text i ∧ ∃ word, LeadsTo patterns i word ∧
            word ∈ Glob.metaWords p := by
  have words : (Index.ofPatterns patterns).close.words = distinctWords patterns :=
    Index.ofPatterns_words fits
  have found : ∀ i, Found (Index.ofPatterns patterns).close text i ↔ OccursAt patterns text i := by
    intro i
    rw [Found, OccursAt, words]
    exact and_iff_right rfl
  have postings : ∀ {word p : Bytes}, (word, p) ∈ (Index.ofPatterns patterns).close.postings ↔
      p ∈ patterns ∧ word ∈ Glob.metaWords p := Index.mem_ofPatterns_postings fits
  have accepts : ∀ p ∈ patterns, fnmatch p.cStr text.cStr = fnmatch p text := fun p hp => by
    rw [Bytes.cStr_eq_self (noNul p hp), Bytes.cStr_eq_self noNulText]
  constructor
  · rintro ⟨result, pg', returns, complete⟩
    obtain ⟨_, valid, members⟩ := rep.of_get returns
    rw [words] at valid members
    refine ⟨fun i occurs => valid i ((found i).mpr occurs), ?_⟩
    intro p hp matched
    cases (members p).mp (complete p hp matched) with
    | inl single => exact Or.inl (Index.mem_ofPatterns_singles.mp single).2.2
    | inr candidate =>
        obtain ⟨i, here, word, leads, posted, _⟩ := candidate
        exact Or.inr ⟨i, (found i).mp here, word, leads, (postings.mp posted).2⟩
  · rintro ⟨valid, listed⟩
    obtain ⟨result, pg', returns, _, _, members⟩ := rep.get_ok fnmatch text (by
      intro i here
      rw [words]
      exact valid i ((found i).mp here))
    refine ⟨result, pg', returns, ?_⟩
    intro p hp matched
    apply (members p).mpr
    cases listed p hp matched with
    | inl none => exact Or.inl (Index.mem_ofPatterns_singles.mpr ⟨hp, nonempty p hp, none⟩)
    | inr some =>
        obtain ⟨i, occurs, word, leads, hw⟩ := some
        rw [words]
        exact Or.inr ⟨i, (found i).mpr occurs, word, leads, postings.mpr ⟨hp, hw⟩,
          (accepts p hp).trans matched⟩

theorem leadsTo_iff {patterns : List Bytes} (few : (distinctWords patterns).length < 2 ^ 31)
    {text : Bytes} {i : Nat} {word : Bytes} (occurs : OccursAt patterns text i) :
    LeadsTo patterns i word ↔ (distinctWords patterns)[i]? = some word := by
  obtain ⟨word', at_i, _⟩ := occurs
  have small : i < 2 ^ 31 := Nat.lt_trans (List.getElem?_eq_some_iff.mp at_i).1 few
  rw [LeadsTo, wordNumber_of_lt small, vectorAt_of_lt at_i small, at_i]
  simp only [Except.ok.injEq, Option.some.injEq]

/-- With fewer than `2 ^ 31` words, the numbers drop out of the condition. -/
theorem leadsTo_condition_iff {fnmatch : Bytes → Bytes → Bool} {patterns : List Bytes}
    {text : Bytes} (few : (distinctWords patterns).length < 2 ^ 31) :
    ((∀ i, OccursAt patterns text i → ∃ word, LeadsTo patterns i word) ∧
        ∀ p ∈ patterns, fnmatch p text = true → Glob.metaWords p = [] ∨
          ∃ i, OccursAt patterns text i ∧ ∃ word, LeadsTo patterns i word ∧
            word ∈ Glob.metaWords p) ↔
      ∀ p ∈ patterns, fnmatch p text = true →
        Glob.metaWords p = [] ∨ ∃ word ∈ Glob.metaWords p, word <:+: text := by
  constructor
  · rintro ⟨_, listed⟩ p hp matched
    apply (listed p hp matched).imp_right
    rintro ⟨i, occurs, word, leads, hw⟩
    have at_i := (leadsTo_iff few occurs).mp leads
    obtain ⟨word', at_i', inside⟩ := occurs
    obtain rfl : word = word' := Option.some.inj (at_i.symm.trans at_i')
    exact ⟨word, hw, inside⟩
  · intro listed
    constructor
    · intro i occurs
      have ⟨word, at_i, _⟩ := occurs
      exact ⟨word, (leadsTo_iff few occurs).mpr at_i⟩
    · intro p hp matched
      apply (listed p hp matched).imp_right
      rintro ⟨word, hw, inside⟩
      have known : word ∈ distinctWords patterns :=
        List.mem_eraseDups.mpr (List.mem_flatMap.mpr ⟨p, hp, hw⟩)
      obtain ⟨i, at_i⟩ := List.mem_iff_getElem?.mp known
      have occurs : OccursAt patterns text i := ⟨word, at_i, inside⟩
      exact ⟨i, occurs, word, (leadsTo_iff few occurs).mpr at_i, hw⟩

/-- No pattern that matches is hidden if and only if the numbers of the words found
lead to words again, one of them a meta word of the pattern. With fewer than
`2 ^ 31` words this says that a meta word of the pattern occurs in the text, which
is so for every documented pattern that is matched as documented. -/
theorem no_false_negatives_iff (fnmatch : Bytes → Bytes → Bool) {patterns : List Bytes}
    {text : Bytes} (earlier : List Bytes) {compiled pg : Paraglob}
    (nonempty : ∀ p ∈ patterns, p ≠ []) (noNul : ∀ p ∈ patterns, 0 ∉ p) (noNulText : 0 ∉ text)
    (built : Paraglob.ofPatterns patterns = .ok compiled)
    (asked : getEach fnmatch compiled earlier = .ok pg) :
    (NoFalseNegatives fnmatch patterns text pg ↔
      (∀ i, OccursAt patterns text i → ∃ word, LeadsTo patterns i word) ∧
        ∀ p ∈ patterns, fnmatch p text = true → Glob.metaWords p = [] ∨
          ∃ i, OccursAt patterns text i ∧ ∃ word, LeadsTo patterns i word ∧
            word ∈ Glob.metaWords p) ∧
    ((distinctWords patterns).length < 2 ^ 31 →
      (NoFalseNegatives fnmatch patterns text pg ↔
        ∀ p ∈ patterns, fnmatch p text = true →
          Glob.metaWords p = [] ∨ ∃ word ∈ Glob.metaWords p, word <:+: text) ∧
      ∀ loc, (∀ p ∈ patterns, Glob.Documented p ∧
          fnmatch p text = Fnmatch.fnmatch loc p text) →
        NoFalseNegatives fnmatch patterns text pg) := by
  obtain ⟨rep, fits⟩ := represents_of_ofPatterns built
  have numbers := noFalseNegatives_iff_leadsTo fnmatch nonempty noNul noNulText fits
    (rep.of_getEach asked)
  refine ⟨numbers, fun few => ?_⟩
  have words := numbers.trans (leadsTo_condition_iff few)
  refine ⟨words, fun loc documented => words.mpr ?_⟩
  intro p hp matched
  obtain ⟨doc, posix⟩ := documented p hp
  cases listed : Glob.metaWords p with
  | nil => exact Or.inl rfl
  | cons word rest =>
      have ordered := Glob.metaWords_occurInOrder doc loc (posix ▸ matched)
      rw [listed] at ordered
      exact Or.inr ⟨word, List.mem_cons_self, ordered.infix_of_mem List.mem_cons_self⟩

/-- `[!x]b*` is documented, and `ab` is not hidden from it. -/
theorem no_false_negatives_iff_bracket :
    ∃ compiled, Paraglob.ofPatterns [[91, 33, 120, 93, 98, 42]] = .ok compiled ∧
      NoFalseNegatives (Fnmatch.fnmatch Fnmatch.cLocale) [[91, 33, 120, 93, 98, 42]] [97, 98]
        compiled := by
  have fits : ∀ p ∈ ([[91, 33, 120, 93, 98, 42]] : List Bytes),
      (Glob.metaWords p).all short = true := by decide +kernel
  obtain ⟨compiled, built, _⟩ := ofPatterns_spec fits
  refine ⟨compiled, built, ?_⟩
  have documented : ∀ p ∈ ([[91, 33, 120, 93, 98, 42]] : List Bytes), Glob.Documented p := by
    decide +kernel
  exact ((no_false_negatives_iff (Fnmatch.fnmatch Fnmatch.cLocale) [] (by decide) (by decide)
    (by decide) built rfl).2 (by decide +kernel)).2 Fnmatch.cLocale
      fun p hp => ⟨documented p hp, rfl⟩

/-- `fnmatch` reads `[]a]` as one bracket expression, so `[]a]b` matches `ab`. The
splitter ends the region at the first `]` and looks for `a]b`. -/
theorem false_negative_bracket :
    ¬ ∀ (patterns : List Bytes) (text : Bytes) (pg : Paraglob),
      (∀ p ∈ patterns, p ≠ []) → (∀ p ∈ patterns, 0 ∉ p) → 0 ∉ text →
        Paraglob.ofPatterns patterns = .ok pg →
          NoFalseNegatives (Fnmatch.fnmatch Fnmatch.cLocale) patterns text pg := by
  intro complete
  have fits : ∀ p ∈ ([[91, 93, 97, 93, 98]] : List Bytes),
      (Glob.metaWords p).all short = true := by decide +kernel
  obtain ⟨pg, pg', built, answered⟩ := get_of_ofPatterns fits (by decide +kernel)
    (Fnmatch.fnmatch Fnmatch.cLocale) [97, 98]
  obtain ⟨result, pg'', returns, found⟩ :=
    complete [[91, 93, 97, 93, 98]] [97, 98] pg (by decide) (by decide) (by decide) built
  obtain ⟨rfl, _⟩ := Prod.mk.inj (Except.ok.inj (answered.symm.trans returns))
  have selected := (Index.mem_answer_ofPatterns fits _ _ _).mp
    (found [91, 93, 97, 93, 98] (by decide) (by decide +kernel))
  exact absurd selected.2 (by decide +kernel)

end Paraglob
