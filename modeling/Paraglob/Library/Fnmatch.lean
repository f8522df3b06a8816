import Mathlib.Data.List.Infix
import Mathlib.Tactic.Common

/-!
# Shell pattern matching

`fnmatch` without flags, as POSIX describes it for strings of bytes in a locale
whose characters are single bytes. A pattern is parsed into items, each of which
matches a string of its own: `*` any string, `?` and a bracket expression one
character, every other character itself. A `[` that starts no bracket expression
is an ordinary character, and `\` makes the next character ordinary.

What POSIX leaves to the locale or unspecified is a parameter: the characters of
a class, an equivalence class or a collating symbol, the order of a range,
whether `^` negates like `!`, and whether `\` escapes inside brackets.
-/

namespace Fnmatch

abbrev Str := List UInt8

def star : UInt8 := '*'.toUInt8
def question : UInt8 := '?'.toUInt8
def openBracket : UInt8 := '['.toUInt8
def closeBracket : UInt8 := ']'.toUInt8
def backslash : UInt8 := '\\'.toUInt8
def bang : UInt8 := '!'.toUInt8
def caret : UInt8 := '^'.toUInt8
def hyphen : UInt8 := '-'.toUInt8
def colon : UInt8 := ':'.toUInt8
def period : UInt8 := '.'.toUInt8
def equals : UInt8 := '='.toUInt8

/-- What the locale and the implementation decide. The end points of a range are names of
collating elements; a character is the name of itself. -/
structure Locale where
  classMember : Str → UInt8 → Bool
  equivalent : Str → UInt8 → Bool
  collating : Str → UInt8 → Bool
  inRange : Str → Str → UInt8 → Bool
  caretNegates : Bool
  backslashInBrackets : Bool

/-- The letters between two bounds. -/
def between (lo hi c : UInt8) : Bool := lo ≤ c && c ≤ hi

/-- The C locale over ASCII, with `^` and `\` special inside brackets. -/
def cLocale : Locale where
  classMember name c :=
    let upper := between 65 90 c
    let lower := between 97 122 c
    let digit := between 48 57 c
    let graph := between 33 126 c
    if name = "upper".toUTF8.toList then upper
    else if name = "lower".toUTF8.toList then lower
    else if name = "digit".toUTF8.toList then digit
    else if name = "alpha".toUTF8.toList then upper || lower
    else if name = "alnum".toUTF8.toList then upper || lower || digit
    else if name = "xdigit".toUTF8.toList then digit || between 65 70 c || between 97 102 c
    else if name = "graph".toUTF8.toList then graph
    else if name = "print".toUTF8.toList then graph || c = 32
    else if name = "punct".toUTF8.toList then graph && !(upper || lower || digit)
    else if name = "space".toUTF8.toList then c = 32 || between 9 13 c
    else if name = "blank".toUTF8.toList then c = 32 || c = 9
    else if name = "cntrl".toUTF8.toList then c < 32 || c = 127
    else false
  equivalent name c := name = [c]
  collating name c := name = [c]
  inRange
    | [lo], [hi] => between lo hi
    | _, _ => fun _ => false
  caretNegates := true
  backslashInBrackets := true

inductive Member where
  | char (c : UInt8)
  | range (lo hi : Str)
  | charClass (name : Str)
  | equivalence (name : Str)
  | symbol (name : Str)
deriving DecidableEq

/-- An item of a pattern. A backslash at the end of a pattern matches nothing. -/
inductive Item where
  | star
  | question
  | bracket (negated : Bool) (members : List Member)
  | literal (c : UInt8)
  | danglingBackslash
deriving DecidableEq

/-- The text in front of the first `d` that is followed by `]`, and what follows both. -/
def delimited (d : UInt8) : Str → Option (Str × Str)
  | c :: c' :: rest =>
      if c = d ∧ c' = closeBracket then some ([], rest)
      else (delimited d (c' :: rest)).map fun found => (c :: found.1, found.2)
  | _ => none

/-- A class, an equivalence class or a collating symbol, behind its `[`. -/
def symbolic : Str → Option (Member × Str)
  | d :: rest =>
      if d = colon then (delimited d rest).map fun found => (.charClass found.1, found.2)
      else if d = equals then (delimited d rest).map fun found => (.equivalence found.1, found.2)
      else if d = period then (delimited d rest).map fun found => (.symbol found.1, found.2)
      else none
  | [] => none

/-- The end point of a range that begins with the character `hi`: a collating symbol or a
character. -/
def endPoint (loc : Locale) (hi : UInt8) (rest : Str) : Str × Str :=
  if hi = openBracket then
    match symbolic rest with
    | some (.symbol name, rest) => (name, rest)
    | _ => ([hi], rest)
  else if hi = backslash ∧ loc.backslashInBrackets then
    match rest with
    | hi :: rest => ([hi], rest)
    | [] => ([hi], [])
  else ([hi], rest)

/-- A range that starts at `lo`, when a hyphen and an end point follow, or `single`. -/
def rangeOr (loc : Locale) (lo : Str) (single : Member) : Str → Member × Str
  | hy :: hi :: rest =>
      if hy = hyphen ∧ hi ≠ closeBracket then
        (.range lo (endPoint loc hi rest).1, (endPoint loc hi rest).2)
      else (single, hy :: hi :: rest)
  | rest => (single, rest)

/-- A single character or the start of a range, with its first character read. -/
def charOrRange (loc : Locale) (lo : UInt8) (rest : Str) : Member × Str :=
  rangeOr loc [lo] (.char lo) rest

/-- The member that begins with the character `c`. -/
def member (loc : Locale) (c : UInt8) (rest : Str) : Member × Str :=
  if c = openBracket then
    match symbolic rest with
    | some (.symbol name, rest) => rangeOr loc name (.symbol name) rest
    | some found => found
    | none => charOrRange loc c rest
  else if c = backslash ∧ loc.backslashInBrackets then
    match rest with
    | e :: rest => charOrRange loc e rest
    | [] => (.char c, [])
  else charOrRange loc c rest

theorem delimited_suffix {d : UInt8} {s : Str} {found : Str × Str}
    (h : delimited d s = some found) : found.2 <:+ s := by
  fun_induction delimited d s generalizing found with
  | case1 c c' rest stop =>
      cases h
      exact (List.suffix_cons c' rest).trans (List.suffix_cons c _)
  | case2 c c' rest stop ih =>
      obtain ⟨inner, hinner, rfl⟩ := Option.map_eq_some_iff.mp h
      exact (ih hinner).trans (List.suffix_cons c _)
  | case3 => cases h

theorem symbolic_suffix {s : Str} {found : Member × Str} (h : symbolic s = some found) :
    found.2 <:+ s := by
  cases s with
  | nil => cases h
  | cons d rest =>
      have inner : ∀ {g : Str × Str → Member × Str}, (∀ x, (g x).2 = x.2) →
          (delimited d rest).map g = some found → found.2 <:+ d :: rest := by
        intro g keeps h
        obtain ⟨inner, hinner, rfl⟩ := Option.map_eq_some_iff.mp h
        rw [keeps]
        exact (delimited_suffix hinner).trans (List.suffix_cons d rest)
      rw [symbolic] at h
      split at h
      · exact inner (fun _ => rfl) h
      · split at h
        · exact inner (fun _ => rfl) h
        · split at h
          · exact inner (fun _ => rfl) h
          · cases h

theorem endPoint_suffix (loc : Locale) (hi : UInt8) (rest : Str) :
    (endPoint loc hi rest).2 <:+ rest := by
  fun_cases endPoint loc hi rest with
  | case1 _ _ _ _ found => exact symbolic_suffix found
  | case2 => exact List.suffix_rfl
  | case3 _ _ hi rest => exact List.suffix_cons hi rest
  | case4 => exact List.suffix_rfl
  | case5 => exact List.suffix_rfl

theorem rangeOr_suffix (loc : Locale) (lo : Str) (single : Member) (rest : Str) :
    (rangeOr loc lo single rest).2 <:+ rest := by
  fun_cases rangeOr loc lo single rest with
  | case1 hy hi rest => exact (endPoint_suffix loc hi rest).trans ⟨[hy, hi], rfl⟩
  | case2 => exact List.suffix_rfl
  | case3 => exact List.suffix_rfl

theorem member_suffix (loc : Locale) (c : UInt8) (rest : Str) :
    (member loc c rest).2 <:+ rest := by
  fun_cases member loc c rest with
  | case1 _ _ name rest found =>
      exact (rangeOr_suffix loc name _ rest).trans (symbolic_suffix found)
  | case2 _ _ _ _ found => exact symbolic_suffix found
  | case3 => exact rangeOr_suffix loc [c] _ rest
  | case4 _ _ e rest => exact (rangeOr_suffix loc [e] _ rest).trans (List.suffix_cons e rest)
  | case5 => exact List.suffix_rfl
  | case6 => exact rangeOr_suffix loc [c] _ rest

/-- The members up to the closing bracket, and what follows it. A `]` in the first
place is a member. -/
def members (loc : Locale) (first : Bool) : Str → Option (List Member × Str)
  | [] => none
  | c :: rest =>
      if c = closeBracket ∧ first = false then some ([], rest)
      else
        (members loc false (member loc c rest).2).map fun found =>
          ((member loc c rest).1 :: found.1, found.2)
termination_by s => s.length
decreasing_by exact Nat.lt_succ_of_le (member_suffix loc c rest).length_le

/-- The bracket expression behind its `[`. -/
def bracket (loc : Locale) (s : Str) : Option (Item × Str) :=
  match s with
  | [] => none
  | c :: rest =>
      if c = bang ∨ c = caret ∧ loc.caretNegates then
        (members loc true rest).map fun found => (.bracket true found.1, found.2)
      else
        (members loc true s).map fun found => (.bracket false found.1, found.2)

theorem members_suffix {loc : Locale} {first : Bool} {s : Str} {found : List Member × Str}
    (h : members loc first s = some found) : found.2 <:+ s := by
  induction first, s using members.induct loc generalizing found with
  | case1 first => simp [members] at h
  | case2 first c rest close =>
      rw [members, if_pos close] at h
      cases h
      exact List.suffix_cons c rest
  | case3 first c rest other ih =>
      rw [members, if_neg other] at h
      obtain ⟨inner, hinner, rfl⟩ := Option.map_eq_some_iff.mp h
      exact (ih hinner).trans ((member_suffix loc c rest).trans (List.suffix_cons c rest))

theorem bracket_suffix {loc : Locale} {s : Str} {found : Item × Str}
    (h : bracket loc s = some found) : found.2 <:+ s := by
  cases s with
  | nil => cases h
  | cons c rest =>
      rw [bracket] at h
      split at h
      · obtain ⟨inner, hinner, rfl⟩ := Option.map_eq_some_iff.mp h
        exact (members_suffix hinner).trans (List.suffix_cons c rest)
      · obtain ⟨inner, hinner, rfl⟩ := Option.map_eq_some_iff.mp h
        exact members_suffix hinner

def parse (loc : Locale) : Str → List Item
  | [] => []
  | c :: rest =>
      if c = star then .star :: parse loc rest
      else if c = question then .question :: parse loc rest
      else if c = backslash then
        match rest with
        | e :: rest => .literal e :: parse loc rest
        | [] => [.danglingBackslash]
      else if c = openBracket then
        match _h : bracket loc rest with
        | some (item, tail) => item :: parse loc tail
        | none => .literal c :: parse loc rest
      else .literal c :: parse loc rest
termination_by s => s.length
decreasing_by
  all_goals
    simp only [List.length_cons]
    first
      | omega
      | exact Nat.lt_succ_of_le (bracket_suffix _h).length_le

theorem parse_star (loc : Locale) (rest : Str) :
    parse loc (star :: rest) = .star :: parse loc rest := by
  rw [parse.eq_def]
  rfl

theorem parse_question (loc : Locale) (rest : Str) :
    parse loc (question :: rest) = .question :: parse loc rest := by
  rw [parse.eq_def]
  rfl

theorem parse_bracket {loc : Locale} {rest tail : Str} {item : Item}
    (found : bracket loc rest = some (item, tail)) :
    parse loc (openBracket :: rest) = item :: parse loc tail := by
  rw [parse.eq_def]
  simp only [if_neg (show openBracket ≠ star by decide),
    if_neg (show openBracket ≠ question by decide), if_neg (show openBracket ≠ backslash by decide),
    if_true]
  split
  · rename_i item' tail' found'
    obtain ⟨rfl, rfl⟩ := Prod.mk.inj (Option.some.inj (found.symm.trans found'))
    rfl
  · rename_i absent
    exact absurd (found.symm.trans absent) (by simp)

/-- Any other character is an item of its own, a `[` that opens nothing included. -/
theorem parse_literal {loc : Locale} {c : UInt8} {rest : Str} (star' : c ≠ star)
    (question' : c ≠ question) (escape : c ≠ backslash)
    (opens : c = openBracket → bracket loc rest = none) :
    parse loc (c :: rest) = .literal c :: parse loc rest := by
  rw [parse.eq_def]
  simp only [if_neg star', if_neg question', if_neg escape]
  split
  · rename_i open'
    split
    · rename_i item tail found
      exact absurd (found.symm.trans (opens open')) (by simp)
    · rfl
  · rfl

theorem members_eq_none {loc : Locale} {first : Bool} {s : Str}
    (unclosed : closeBracket ∉ s) : members loc first s = none := by
  induction first, s using members.induct loc with
  | case1 first => rw [members]
  | case2 first c rest close => exact absurd (close.1 ▸ List.mem_cons_self) unclosed
  | case3 first c rest other ih =>
      have rest' : closeBracket ∉ (member loc c rest).2 := fun mem =>
        unclosed (List.mem_cons_of_mem _ ((member_suffix loc c rest).subset mem))
      rw [members, if_neg other, ih rest']
      rfl

theorem bracket_eq_none {loc : Locale} {s : Str} (unclosed : closeBracket ∉ s) :
    bracket loc s = none := by
  cases s with
  | nil => rfl
  | cons c rest =>
      have rest' : closeBracket ∉ rest := fun mem => unclosed (List.mem_cons_of_mem _ mem)
      rw [bracket]
      split
      · rw [members_eq_none rest']
        rfl
      · rw [members_eq_none unclosed]
        rfl

/-- Characters without a meaning of their own inside brackets. -/
def Simple (body : Str) : Prop := ∀ c ∈ body, c ≠ closeBracket ∧ c ≠ openBracket ∧ c ≠ backslash

theorem Simple.of_suffix {body body' : Str} (simple : Simple body) (suffix : body' <:+ body) :
    Simple body' :=
  fun c hc => simple c (suffix.subset hc)

theorem charOrRange_char {loc : Locale} {lo hy hi : UInt8} {rest : Str}
    (single : ¬ (hy = hyphen ∧ hi ≠ closeBracket)) :
    charOrRange loc lo (hy :: hi :: rest) = (.char lo, hy :: hi :: rest) :=
  if_neg single

theorem charOrRange_range {loc : Locale} {lo hi : UInt8} {rest : Str} (proper : hi ≠ closeBracket)
    (noOpen : hi ≠ openBracket) (plain : ¬ (hi = backslash ∧ loc.backslashInBrackets = true)) :
    charOrRange loc lo (hyphen :: hi :: rest) = (.range [lo] [hi], rest) := by
  have ends : endPoint loc hi rest = ([hi], rest) := by
    rw [endPoint.eq_def, if_neg noOpen, if_neg plain]
  rw [charOrRange, rangeOr, ends]
  exact if_pos ⟨rfl, proper⟩

theorem member_of_simple (loc : Locale) {c : UInt8} {body : Str} (tail : Str)
    (simple : Simple (c :: body)) :
    ∃ m rest, member loc c (body ++ closeBracket :: tail) = (m, rest ++ closeBracket :: tail) ∧
      rest <:+ body := by
  obtain ⟨_, noOpen, noEscape⟩ := simple c (by simp)
  rw [member.eq_def, if_neg noOpen, if_neg fun h => noEscape h.1]
  match body, simple with
  | [], _ =>
      refine ⟨.char c, [], ?_, List.suffix_rfl⟩
      cases tail with
      | nil => rfl
      | cons d tail => exact charOrRange_char fun h => absurd h.1 (by decide)
  | [d], _ =>
      refine ⟨.char c, [d], ?_, List.suffix_rfl⟩
      exact charOrRange_char fun h => h.2 rfl
  | d :: e :: body, simple =>
      obtain ⟨noClose, noOpen', noEscape'⟩ := simple e (by simp)
      by_cases ranges : d = hyphen
      · subst ranges
        exact ⟨_, body, charOrRange_range noClose noOpen' fun h => noEscape' h.1, ⟨[hyphen, e], rfl⟩⟩
      · exact ⟨_, d :: e :: body, charOrRange_char fun h => ranges h.1, List.suffix_rfl⟩

/-- A simple body is closed by the first `]` behind it. -/
theorem members_of_simple (loc : Locale) (first : Bool) {body : Str} (tail : Str)
    (simple : Simple body) (nonempty : first = true → body ≠ []) :
    ∃ ms, members loc first (body ++ closeBracket :: tail) = some (ms, tail) := by
  induction size : body.length using Nat.strongRecOn generalizing first body with
  | ind n ih =>
      cases body with
      | nil =>
          have later : first = false := by
            cases first with
            | false => rfl
            | true => exact absurd rfl (nonempty rfl)
          exact ⟨[], by rw [List.nil_append, members, if_pos ⟨rfl, later⟩]⟩
      | cons c body =>
          obtain ⟨m, rest, one, suffix⟩ := member_of_simple loc tail simple
          have smaller : rest.length < n := by
            have := suffix.length_le
            rw [← size, List.length_cons]
            omega
          obtain ⟨ms, more⟩ := ih _ smaller false
            (simple.of_suffix (suffix.trans (List.suffix_cons c body))) (by simp) rfl
          refine ⟨m :: ms, ?_⟩
          rw [List.cons_append, members, if_neg fun h => (simple c (by simp)).1 h.1, one, more]
          rfl

/-- A bracket body without a leading `!` or `^`. -/
def dropNegation : Str → Str
  | [] => []
  | c :: rest => if c = bang ∨ c = caret then rest else c :: rest

/-- A simple body that is not just a negation makes a bracket expression. -/
theorem bracket_of_simple (loc : Locale) {body : Str} (tail : Str) (simple : Simple body)
    (nonempty : dropNegation body ≠ []) :
    ∃ negated ms, bracket loc (body ++ closeBracket :: tail) = some (.bracket negated ms, tail) := by
  cases body with
  | nil => exact absurd rfl nonempty
  | cons c body =>
      rw [List.cons_append, bracket]
      by_cases negation : c = bang ∨ c = caret ∧ loc.caretNegates = true
      · have proper : body ≠ [] := by
          rintro rfl
          rw [dropNegation, if_pos (negation.imp_right And.left)] at nonempty
          exact nonempty rfl
        obtain ⟨ms, found⟩ := members_of_simple loc true tail
          (simple.of_suffix (List.suffix_cons c body)) fun _ => proper
        exact ⟨true, ms, by rw [if_pos negation, found]; rfl⟩
      · obtain ⟨ms, found⟩ := members_of_simple loc true tail simple fun _ => List.cons_ne_nil _ _
        exact ⟨false, ms, by rw [if_neg negation, ← List.cons_append, found]; rfl⟩

def memberMatches (loc : Locale) (c : UInt8) : Member → Bool
  | .char a => c = a
  | .range lo hi => loc.inRange lo hi c
  | .charClass name => loc.classMember name c
  | .equivalence name => loc.equivalent name c
  | .symbol name => loc.collating name c

def matchItems (loc : Locale) : List Item → Str → Bool
  | [], text => text.isEmpty
  | .star :: items, text => text.tails.any (matchItems loc items)
  | .question :: items, _ :: text => matchItems loc items text
  | .bracket negated members :: items, c :: text =>
      (members.any (memberMatches loc c) != negated) && matchItems loc items text
  | .literal a :: items, c :: text => c = a && matchItems loc items text
  | _ :: _, _ => false

theorem matchItems_star_iff {loc : Locale} {items : List Item} {text : Str} :
    matchItems loc (.star :: items) text = true ↔
      ∃ skipped rest, text = skipped ++ rest ∧ matchItems loc items rest = true := by
  rw [matchItems, List.any_eq_true]
  constructor
  · rintro ⟨rest, hrest, matched⟩
    obtain ⟨skipped, rfl⟩ := (List.mem_tails _ _).mp hrest
    exact ⟨skipped, rest, rfl, matched⟩
  · rintro ⟨skipped, rest, rfl, matched⟩
    exact ⟨rest, (List.mem_tails _ _).mpr ⟨skipped, rfl⟩, matched⟩

theorem matchItems_question {loc : Locale} {items : List Item} {text : Str}
    (h : matchItems loc (.question :: items) text = true) :
    ∃ c rest, text = c :: rest ∧ matchItems loc items rest = true := by
  cases text with
  | nil => cases h
  | cons c rest => exact ⟨c, rest, rfl, h⟩

theorem matchItems_bracket {loc : Locale} {negated : Bool} {ms : List Member}
    {items : List Item} {text : Str}
    (h : matchItems loc (.bracket negated ms :: items) text = true) :
    ∃ c rest, text = c :: rest ∧ matchItems loc items rest = true := by
  cases text with
  | nil => cases h
  | cons c rest => exact ⟨c, rest, rfl, (Bool.and_eq_true_iff.mp h).2⟩

theorem matchItems_literal {loc : Locale} {a : UInt8} {items : List Item} {text : Str}
    (h : matchItems loc (.literal a :: items) text = true) :
    ∃ rest, text = a :: rest ∧ matchItems loc items rest = true := by
  cases text with
  | nil => cases h
  | cons c rest =>
      obtain ⟨same, matched⟩ := Bool.and_eq_true_iff.mp h
      exact ⟨rest, by rw [of_decide_eq_true same], matched⟩

/-- `fnmatch` with flags 0, with true for a match. -/
def fnmatch (loc : Locale) (pattern text : Str) : Bool :=
  matchItems loc (parse loc pattern) text

/-- The symbol in `[[.a.]-c]b` is the start of a range. -/
example : fnmatch cLocale [91, 91, 46, 97, 46, 93, 45, 99, 93, 98] [98, 98] = true := by
  decide +kernel

end Fnmatch
