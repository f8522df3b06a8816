import Paraglob.Basic
import Mathlib.Data.List.FinRange

/-!
# Splitting a pattern into meta words

`split_on_brackets` cuts a pattern at every pair of a `[` and the next `]`, and
`get_meta_words` cuts each piece at `*` and `?` and keeps what is not empty. Both
move a position through the string with `find_first_of`. A position is an index
that is at most the length of the string, which is the condition under which
`std::string::substr` does not throw.
-/

namespace Glob

def star : UInt8 := '*'.toUInt8
def question : UInt8 := '?'.toUInt8
def openBracket : UInt8 := '['.toUInt8
def closeBracket : UInt8 := ']'.toUInt8

/-- A position in a string, the one past its last byte included. -/
abbrev Position (s : Bytes) := Fin (s.length + 1)

/-- `s.find_first_of(set, pos)`, with `npos` as `none`. -/
def findFirstOf (s set : Bytes) (pos : Position s) : Option (Fin s.length) :=
  (List.finRange s.length).find? fun i => pos.val ≤ i.val && s.get i ∈ set

/-- `s.substr(pos, n)`. -/
def substr (s : Bytes) (pos : Position s) (n : Nat) : Bytes := (s.drop pos).take n

theorem le_of_findFirstOf {s set : Bytes} {pos : Position s} {i : Fin s.length}
    (h : findFirstOf s set pos = some i) : pos.val ≤ i.val := by
  have found := List.find?_some h
  simp only [Bool.and_eq_true, decide_eq_true_eq] at found
  exact found.1

/-- The loop of `split_on_brackets` from position `prev` on. -/
def splitOnBracketsFrom (s : Bytes) (prev : Position s) : List Bytes :=
  match _hpos : findFirstOf s [openBracket] prev with
  | none => [substr s prev (s.length - prev)]
  | some pos =>
      match _hend : findFirstOf s [closeBracket] pos.castSucc with
      | none => [substr s prev (s.length - prev)]
      | some endBracket =>
          substr s prev (pos - prev) :: splitOnBracketsFrom s endBracket.succ
termination_by s.length - prev
decreasing_by
  have := le_of_findFirstOf _hpos
  have := le_of_findFirstOf _hend
  simp only [Fin.val_castSucc, Fin.val_succ] at *
  omega

/-- `Paraglob::split_on_brackets`. -/
def splitOnBrackets (s : Bytes) : List Bytes := splitOnBracketsFrom s 0

/-- The inner loop of `get_meta_words` over one piece, from position `prev` on. -/
def splitOnWildcardsFrom (word : Bytes) (prev : Position word) : List Bytes :=
  match _hpos : findFirstOf word [star, question] prev with
  | some pos =>
      if prev.val < pos.val then
        substr word prev (pos - prev) :: splitOnWildcardsFrom word pos.succ
      else
        splitOnWildcardsFrom word pos.succ
  | none => if prev.val < word.length then [substr word prev word.length] else []
termination_by word.length - prev
decreasing_by
  all_goals
    have := le_of_findFirstOf _hpos
    simp only [Fin.val_succ] at *
    omega

/-- The words `get_meta_words` collects for a pattern. -/
def metaWords (pattern : Bytes) : List Bytes :=
  (splitOnBrackets pattern).flatMap fun word => splitOnWildcardsFrom word 0

end Glob
