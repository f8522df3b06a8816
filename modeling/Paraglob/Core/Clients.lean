import Paraglob.Core.Serialization
import Paraglob.Library.Objects

/-!
# Clients of Paraglobs

A program that uses the class holds any number of Paraglobs, makes new ones from
patterns and from serialized bytes, and calls their member functions in any order,
also those that fail and those that make little sense. The file compares it with the
same program over indices, where nothing is searched and nothing is numbered. The
program cannot tell them apart.
-/

open Multifast

namespace Paraglob

inductive Make
  | create
  | ofPatterns (patterns : List Bytes)
  | ofSerialized (serialized : Bytes)

inductive Ask
  | add (pattern : Bytes)
  | compile
  | get (text : Bytes)
  | getPatterns
  | serialize

/-- `operator==`. -/
inductive Compare
  | equal

/-- What a program sees of a call. -/
inductive Outcome
  | nothing
  | flag (result : Bool)
  | strings (result : List Bytes)
  | bytes (result : Bytes)
  | thrown (fault : Fault)
deriving DecidableEq

/-- What a program sees of a constructor. -/
def made {State : Type} : Except Fault State → Outcome × Option State
  | .ok s => (.nothing, some s)
  | .error fault => (.thrown fault, none)

/-- The Paraglob after a `get` that throws: the text was searched. -/
def searched (pg : Paraglob) (text : Bytes) : Paraglob :=
  match pg.myAc.findAll text false with
  | .ok (_, myAc) => { pg with myAc }
  | .error _ => pg

/-- The class as it is. An exception of `add` or `compile` would leave it in between; there is
none. -/
def code (fnmatch : Bytes → Bytes → Bool) : Objects.Class Make Ask Compare Outcome Paraglob where
  make
    | .create => made (.ok create)
    | .ofPatterns patterns => made (ofPatterns patterns)
    | .ofSerialized serialized => made (ofSerialized serialized)
  ask
    | .add pattern, pg =>
        match pg.add pattern with
        | .ok (added, pg) => (.flag added, pg)
        | .error fault => (.thrown fault, pg)
    | .compile, pg =>
        match pg.compile with
        | .ok pg => (.nothing, pg)
        | .error fault => (.thrown fault, pg)
    | .get text, pg =>
        match pg.get fnmatch text with
        | .ok (result, pg) => (.strings result, pg)
        | .error fault => (.thrown fault, pg.searched text)
    | .getPatterns, pg => (.strings pg.getPatterns, pg)
    | .serialize, pg => (.bytes pg.serialize, pg)
  compare
    | .equal, pg, other => .flag (pg.equal other)

end Paraglob

namespace Index

open Paraglob

/-- The index of some patterns, unless one of them has a word that is too long. -/
def build (patterns : List Bytes) : Except Fault Index :=
  match patterns.find? fun p => !(Glob.metaWords p).all short with
  | some pattern => .error (.addError (addErrorText pattern))
  | none => .ok (ofPatterns patterns).close

def sameWords (ix other : Index) : Bool :=
  ix.words.all (· ∈ other.words) && other.words.all (· ∈ ix.words)

/-- The class as an index would have it. -/
def meaning (fnmatch : Bytes → Bytes → Bool) : Objects.Class Make Ask Compare Outcome Index where
  make
    | .create => made (.ok empty)
    | .ofPatterns patterns => made (build patterns)
    | .ofSerialized serialized => made (ParaglobSerializer.unserialize serialized >>= build)
  ask
    | .add pattern, ix => (.flag (ix.add pattern).1, (ix.add pattern).2)
    | .compile, ix => (.nothing, ix.close)
    | .get text, ix => (.strings (ix.answer fnmatch text), ix)
    | .getPatterns, ix => (.strings ix.patterns, ix)
    | .serialize, ix => (.bytes (ParaglobSerializer.serialize ix.patterns), ix)
  compare
    | .equal, ix, other => .flag (ix.sameWords other)

/-- The serialized bytes can be read without leaving them, and an index that is searched has at
most `2 ^ 31` words. -/
def contract : Objects.Contract Make Ask Index where
  make
    | .ofSerialized serialized => ParaglobSerializer.unserialize serialized ≠ .error .outOfBounds
    | _ => True
  ask
    | .get _, ix => ix.words.length ≤ 2 ^ 31
    | _, _ => True

instance : DecidablePred contract.make
  | .create | .ofPatterns _ => .isTrue trivial
  | .ofSerialized serialized => inferInstanceAs
      (Decidable (ParaglobSerializer.unserialize serialized ≠ .error .outOfBounds))

instance : ∀ question, DecidablePred (contract.ask question)
  | .get _, ix => inferInstanceAs (Decidable (ix.words.length ≤ 2 ^ 31))
  | .add _, _ | .compile, _ | .getPatterns, _ | .serialize, _ => .isTrue trivial

end Index

namespace Paraglob

/-- A constructor fails on both sides, with the same exception, or both Paraglobs are built. -/
theorem made_ofPatterns (patterns : List Bytes) :
    (made (ofPatterns patterns)).1 = (made (Index.build patterns)).1 ∧
      Option.Rel Represents (made (ofPatterns patterns)).2 (made (Index.build patterns)).2 := by
  rw [Index.build]
  cases first : patterns.find? fun p => !(Glob.metaWords p).all short with
  | none =>
      have fits : ∀ p ∈ patterns, (Glob.metaWords p).all short = true := by
        intro p hp
        simpa using List.find?_eq_none.mp first p hp
      obtain ⟨pg, built, rep⟩ := ofPatterns_spec fits
      rw [built]
      exact ⟨rfl, .some rep⟩
  | some pattern =>
      obtain ⟨long, front, rest, rfl, before⟩ := List.find?_eq_some_iff_append.mp first
      have fits : ∀ p ∈ front, (Glob.metaWords p).all short = true := by
        intro p hp
        simpa using before p hp
      rw [ofPatterns_of_long fits (Bool.not_eq_true' _ ▸ long)]
      exact ⟨rfl, .none⟩

theorem Represents.equal_eq {pg other : Paraglob} {ix ix' : Index} (h : pg.Represents ix)
    (h' : other.Represents ix') : pg.equal other = ix.sameWords ix' := by
  rw [Bool.eq_iff_iff, h.equal_iff h', Index.sameWords, Bool.and_eq_true, List.all_eq_true,
    List.all_eq_true]
  simp only [decide_eq_true_eq]
  exact ⟨fun same => ⟨fun w => (same w).mp, fun w => (same w).mpr⟩,
    fun both w => ⟨both.1 w, both.2 w⟩⟩

theorem simulates (fnmatch : Bytes → Bytes → Bool) :
    Objects.Simulates (code fnmatch) (Index.meaning fnmatch) Index.contract Represents where
  make how _ := by
    cases how with
    | create => exact ⟨rfl, .some represents_create⟩
    | ofPatterns patterns => exact made_ofPatterns patterns
    | ofSerialized serialized =>
        simp only [code, Index.meaning, ofSerialized]
        cases ParaglobSerializer.unserialize serialized with
        | ok patterns => exact made_ofPatterns patterns
        | error fault => exact ⟨rfl, .none⟩
  ask question pg ix rep allowed := by
    cases question with
    | add pattern =>
        obtain ⟨pg', ran, rep'⟩ := rep.add_spec pattern
        simp only [code, ran]
        exact ⟨rfl, rep'⟩
    | compile =>
        obtain ⟨pg', ran, rep'⟩ := rep.compile_spec
        simp only [code, ran]
        exact ⟨rfl, rep'⟩
    | get text =>
        obtain ⟨pg', ran, rep'⟩ := rep.get_spec allowed fnmatch text
        simp only [code, ran]
        exact ⟨rfl, rep'⟩
    | getPatterns => exact ⟨congrArg Outcome.strings rep.getPatterns_eq, rep⟩
    | serialize =>
        exact ⟨congrArg (Outcome.bytes ∘ ParaglobSerializer.serialize) rep.getPatterns_eq, rep⟩
  compare question pg ix other ix' rep rep' := by
    cases question with
    | equal => exact congrArg Outcome.flag (rep.equal_eq rep')

/-- A program that holds any number of Paraglobs and calls their constructors, member functions
and `==` in any order sees what it sees of indices, as long as it reads no bytes that the
reader leaves and searches no Paraglob with more than `2 ^ 31` meta words. -/
theorem clients_see_indices (fnmatch : Bytes → Bytes → Bool)
    {calls : List (Objects.Call Make Ask Compare)}
    (kept : Index.contract.Kept (Index.meaning fnmatch) [] calls) :
    (code fnmatch).run [] calls = (Index.meaning fnmatch).run [] calls :=
  (simulates fnmatch).run .nil kept

/-- A Paraglob with `a*` and `?` is written and read back. The copy is asked for `ba`, and then
the original is told to take `b`, which it refuses because it is compiled. -/
theorem clients_see_indices_a :
    let written := ParaglobSerializer.serialize [[63], [97, 42]]
    (code (Fnmatch.fnmatch Fnmatch.cLocale)).run [] [.make (.ofPatterns [[97, 42], [63]]),
        .ask 0 .serialize, .make (.ofSerialized written), .compare 0 1 .equal,
        .ask 1 (.get [98, 97]), .ask 0 (.add [98])] =
      [some .nothing, some (.bytes written), some .nothing, some (.flag true),
        some (.strings [[63]]), some (.flag false)] :=
  (clients_see_indices _ (by decide +kernel)).trans (by decide +kernel)

end Paraglob
