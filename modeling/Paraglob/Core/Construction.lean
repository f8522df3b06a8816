import Paraglob.Core.Runs
import Paraglob.Library.Fnmatch

/-!
# Constructing and compiling

The vector constructor adds its patterns one by one and throws on the first one
that is not added, which is the first with a word that is too long for the trie;
nothing else makes it fail. A Paraglob that was compiled can be compiled again at
any later time without effect.
-/

open Multifast

theorem all_short_iff {pattern : Bytes} : (Glob.metaWords pattern).all short = true ↔
    ∀ word ∈ Glob.metaWords pattern, word.length ≤ acPatternMaxLength := by
  simp only [List.all_eq_true, short, decide_eq_true_eq]

theorem all_short_eq_false_iff {pattern : Bytes} : (Glob.metaWords pattern).all short = false ↔
    ∃ word ∈ Glob.metaWords pattern, acPatternMaxLength < word.length := by
  simp only [List.all_eq_false, short, decide_eq_true_eq, Nat.not_le]

theorem exists_first_long {patterns : List Bytes}
    (long : ∃ p ∈ patterns, (Glob.metaWords p).all short = false) :
    ∃ front pattern rest, patterns = front ++ pattern :: rest ∧
      (∀ p ∈ front, (Glob.metaWords p).all short = true) ∧
      (Glob.metaWords pattern).all short = false := by
  obtain ⟨p, hp, exceeds⟩ := long
  have some : (patterns.find? fun p => !(Glob.metaWords p).all short).isSome :=
    List.find?_isSome.mpr ⟨p, hp, by rw [exceeds]; rfl⟩
  obtain ⟨pattern, found⟩ := Option.isSome_iff_exists.mp some
  obtain ⟨first, front, rest, split, before⟩ := List.find?_eq_some_iff_append.mp found
  refine ⟨front, pattern, rest, split, fun p hp => ?_, Bool.not_eq_true' _ ▸ first⟩
  exact (Bool.not_not _).symm.trans (before p hp)

namespace Paraglob

variable {fnmatch : Bytes → Bytes → Bool} {pg pg' compiled : Paraglob} {ix : Index}

theorem addEach_append (pg : Paraglob) (front rest : List Bytes) :
    pg.addEach (front ++ rest) = (pg.addEach front >>= fun pg => pg.addEach rest) := by
  induction front generalizing pg with
  | nil => rfl
  | cons pattern front ih =>
      rw [List.cons_append, addEach, addEach]
      cases pg.add pattern with
      | error fault => rfl
      | ok returned =>
          obtain ⟨added, pg'⟩ := returned
          cases added with
          | true => exact ih pg'
          | false => rfl

/-- The constructor throws on the first pattern with a long word and names it. -/
theorem ofPatterns_of_long {front rest : List Bytes} {pattern : Bytes}
    (fits : ∀ p ∈ front, (Glob.metaWords p).all short = true)
    (long : (Glob.metaWords pattern).all short = false) :
    ofPatterns (front ++ pattern :: rest) = .error (.addError (addErrorText pattern)) := by
  obtain ⟨opened, ran, rep⟩ := represents_create.addEach_spec rfl fits
  obtain ⟨pg', refused, _⟩ := rep.add_spec pattern
  have accepting : (Index.empty.addAll front).accepting = true := Index.empty.addAll_accepting front
  have failed : ((Index.empty.addAll front).add pattern).1 = false := by
    rw [Index.add, if_pos accepting]
    exact long
  rw [failed] at refused
  have thrown : opened.addEach (pattern :: rest) = .error (.addError (addErrorText pattern)) := by
    rw [addEach]
    exact bind_of_ok refused _
  rw [ofPatterns, addEach_append, bind_of_ok ran]
  exact bind_of_error thrown _

/-- The constructor throws `add_error` if and only if some pattern has a word that is too
long, and returns otherwise. Whatever it throws names the first such pattern. -/
theorem construction_fails_iff (patterns : List Bytes) :
    ((∃ what, ofPatterns patterns = .error (.addError what)) ↔
      ∃ p ∈ patterns, ∃ word ∈ Glob.metaWords p, acPatternMaxLength < word.length) ∧
    ((∃ pg, ofPatterns patterns = .ok pg) ↔
      ∀ p ∈ patterns, ∀ word ∈ Glob.metaWords p, word.length ≤ acPatternMaxLength) ∧
    ∀ fault, ofPatterns patterns = .error fault → ∃ front pattern rest,
      patterns = front ++ pattern :: rest ∧ fault = .addError (addErrorText pattern) ∧
      (∀ p ∈ front, ∀ word ∈ Glob.metaWords p, word.length ≤ acPatternMaxLength) ∧
      ∃ word ∈ Glob.metaWords pattern, acPatternMaxLength < word.length := by
  simp only [← all_short_iff, ← all_short_eq_false_iff]
  by_cases fits : ∀ p ∈ patterns, (Glob.metaWords p).all short = true
  · obtain ⟨pg, built, _⟩ := ofPatterns_spec fits
    have noLong : ¬ ∃ p ∈ patterns, (Glob.metaWords p).all short = false := by
      rintro ⟨p, hp, exceeds⟩
      exact Bool.noConfusion ((fits p hp).symm.trans exceeds)
    rw [built]
    exact ⟨iff_of_false (by rintro ⟨_, failed⟩; cases failed) noLong,
      iff_of_true ⟨pg, rfl⟩ fits, fun _ failed => by cases failed⟩
  · have long : ∃ p ∈ patterns, (Glob.metaWords p).all short = false := by
      simpa only [not_forall, Bool.not_eq_true, exists_prop] using fits
    obtain ⟨front, pattern, rest, split, before, exceeds⟩ := exists_first_long long
    have failed : ofPatterns patterns = .error (.addError (addErrorText pattern)) := by
      rw [split]
      exact ofPatterns_of_long before exceeds
    rw [failed]
    refine ⟨iff_of_true ⟨_, rfl⟩ long, iff_of_false (by rintro ⟨_, built⟩; cases built) fits, ?_⟩
    intro fault same
    exact ⟨front, pattern, rest, split, (Except.error.inj same).symm, before, exceeds⟩

/-- The states that calls of `add`, `compile` and `get` lead to from a state. A `get` that throws
has searched the text before. -/
inductive Later (fnmatch : Bytes → Bytes → Bool) (start : Paraglob) : Paraglob → Prop where
  | refl : Later fnmatch start start
  | add {pg pg' : Paraglob} {pattern : Bytes} {added : Bool} (earlier : Later fnmatch start pg)
      (returns : pg.add pattern = .ok (added, pg')) : Later fnmatch start pg'
  | compile {pg pg' : Paraglob} (earlier : Later fnmatch start pg)
      (returns : pg.compile = .ok pg') : Later fnmatch start pg'
  | get {pg pg' : Paraglob} {text : Bytes} {result : List Bytes}
      (earlier : Later fnmatch start pg) (returns : pg.get fnmatch text = .ok (result, pg')) :
      Later fnmatch start pg'
  | getThrows {pg : Paraglob} {text : Bytes} {ids : List Int} {myAc : AhoCorasickPlus}
      {fault : Fault} (earlier : Later fnmatch start pg)
      (searches : pg.myAc.findAll text false = .ok (ids, myAc))
      (throws : pg.get fnmatch text = .error fault) : Later fnmatch start { pg with myAc }

/-- A closed index stays closed. -/
theorem Later.represents (later : Later fnmatch pg pg') (h : pg.Represents ix)
    (closed : ix.accepting = false) : ∃ ix', pg'.Represents ix' ∧ ix'.accepting = false := by
  induction later with
  | refl => exact ⟨ix, h, closed⟩
  | @add _ _ pattern _ _ returns ih =>
      obtain ⟨ix', h', closed'⟩ := ih
      obtain ⟨pg', ran, grown⟩ := h'.add_spec pattern
      obtain ⟨_, rfl⟩ := Prod.mk.inj (Except.ok.inj (ran.symm.trans returns))
      exact ⟨_, grown, (ix'.add_accepting pattern).trans closed'⟩
  | compile _ returns ih =>
      obtain ⟨ix', h', _⟩ := ih
      obtain ⟨pg', ran, h''⟩ := h'.compile_spec
      obtain rfl := Except.ok.inj (ran.symm.trans returns)
      exact ⟨_, h'', rfl⟩
  | get _ returns ih =>
      obtain ⟨ix', h', closed'⟩ := ih
      exact ⟨ix', (h'.of_get returns).1, closed'⟩
  | @getThrows _ text _ _ _ _ searches _ ih =>
      obtain ⟨ix', h', closed'⟩ := ih
      obtain ⟨ids, myAc, ran, asked, _⟩ := h'.findAll_spec text
      obtain ⟨_, rfl⟩ := Prod.mk.inj (Except.ok.inj (ran.symm.trans searches))
      exact ⟨ix', asked, closed'⟩

theorem Represents.compile_of_closed (h : pg.Represents ix) (closed : ix.accepting = false) :
    pg.compile = .ok pg := by
  obtain ⟨d, rep, _⟩ := h.stores.trie
  rw [closed] at rep
  rw [compile, AhoCorasickPlus.finalize, rep.finalize_of_closed]
  rfl

/-- Once a Paraglob was compiled, compiling it again at any later time leaves everything as it
is, every node of the trie included, and so every answer. -/
theorem compile_again (reachable : Reachable fnmatch pg) (returns : pg.compile = .ok compiled)
    (later : Later fnmatch compiled pg') : pg'.compile = .ok pg' := by
  obtain ⟨ix, h⟩ := reachable.represents
  obtain ⟨compiled', ran, closed⟩ := h.compile_spec
  obtain rfl := Except.ok.inj (ran.symm.trans returns)
  obtain ⟨ix', h', closed'⟩ := later.represents closed rfl
  exact h'.compile_of_closed closed'

/-- After adding `ab`, `b` and `b*ab`, compiling, a failed add of `c`, and asking for `abab`, which
returns all three. -/
theorem compile_again_ab :
    ∃ pg₁ pg₂ pg₃ compiled refused asked, create.add [97, 98] = .ok (true, pg₁) ∧
      pg₁.add [98] = .ok (true, pg₂) ∧ pg₂.add [98, 42, 97, 98] = .ok (true, pg₃) ∧
      pg₃.compile = .ok compiled ∧ compiled.add [99] = .ok (false, refused) ∧
      refused.get (fun _ _ => true) [97, 98, 97, 98] =
        .ok ([[97, 98], [98], [98, 42, 97, 98]], asked) ∧
      asked.compile = .ok asked := by
  obtain ⟨pg₁, added₁, rep₁⟩ := represents_create.add_returns
    (show (Index.empty.add [97, 98]).1 = true by decide +kernel)
  obtain ⟨pg₂, added₂, rep₂⟩ := rep₁.add_returns
    (show (Index.add _ [98]).1 = true by decide +kernel)
  obtain ⟨pg₃, added₃, rep₃⟩ := rep₂.add_returns
    (show (Index.add _ [98, 42, 97, 98]).1 = true by decide +kernel)
  obtain ⟨compiled, ran, closed⟩ := rep₃.compile_spec
  obtain ⟨refused, failed, rep⟩ := closed.add_returns
    (show (Index.add _ [99]).1 = false by decide +kernel)
  obtain ⟨asked, answered, _⟩ :=
    rep.get_spec (by decide +kernel) (fun _ _ => true) [97, 98, 97, 98]
  have three : refused.get (fun _ _ => true) [97, 98, 97, 98] =
      .ok ([[97, 98], [98], [98, 42, 97, 98]], asked) := by
    rw [answered]
    exact congrArg (fun found => Except.ok (found, asked)) (by decide +kernel)
  have reachable : Reachable (fun _ _ => true) pg₃ :=
    .add (.add (.add .create added₁) added₂) added₃
  exact ⟨pg₁, pg₂, pg₃, compiled, refused, asked, added₁, added₂, added₃, ran, failed, three,
    compile_again reachable ran (.get (.add .refl failed) answered)⟩

end Paraglob
