import Paraglob.Core.Refinement

/-!
# Runs of a Paraglob

A Paraglob lives through any sequence of `add`, `compile` and `get`. Every state
it can reach stands for an index, whatever failed on the way and however often it
was compiled. This needs no bound on the number of meta words; the bound is only
needed to know that `get` returns.
-/

open Multifast

namespace Paraglob

/-- The states that calls which return normally lead to. -/
inductive Reachable (fnmatch : Bytes → Bytes → Bool) : Paraglob → Prop where
  | create : Reachable fnmatch create
  | add {pg pg' : Paraglob} {pattern : Bytes} {added : Bool} (earlier : Reachable fnmatch pg)
      (returns : pg.add pattern = .ok (added, pg')) : Reachable fnmatch pg'
  | compile {pg pg' : Paraglob} (earlier : Reachable fnmatch pg)
      (returns : pg.compile = .ok pg') : Reachable fnmatch pg'
  | get {pg pg' : Paraglob} {text : Bytes} {result : List Bytes}
      (earlier : Reachable fnmatch pg) (returns : pg.get fnmatch text = .ok (result, pg')) :
      Reachable fnmatch pg'

variable {fnmatch : Bytes → Bytes → Bool} {pg pg' : Paraglob} {ix : Index}

/-- Every reachable state stands for an index. -/
theorem Reachable.represents (reachable : Reachable fnmatch pg) : ∃ ix, pg.Represents ix := by
  induction reachable with
  | create => exact ⟨.empty, represents_create⟩
  | @add _ _ pattern _ _ returns ih =>
      obtain ⟨ix, h⟩ := ih
      obtain ⟨pg', ran, h'⟩ := h.add_spec pattern
      obtain ⟨_, rfl⟩ := Prod.mk.inj (Except.ok.inj (ran.symm.trans returns))
      exact ⟨_, h'⟩
  | compile _ returns ih =>
      obtain ⟨ix, h⟩ := ih
      obtain ⟨pg', ran, h'⟩ := h.compile_spec
      obtain rfl := Except.ok.inj (ran.symm.trans returns)
      exact ⟨_, h'⟩
  | get _ returns ih =>
      obtain ⟨ix, h⟩ := ih
      exact ⟨ix, (h.of_get returns).1⟩

def getEach (fnmatch : Bytes → Bytes → Bool) (pg : Paraglob) : List Bytes → Except Fault Paraglob
  | [] => .ok pg
  | text :: rest => do
      let (_, pg) ← pg.get fnmatch text
      getEach fnmatch pg rest

end Paraglob

def Index.addAll (ix : Index) (patterns : List Bytes) : Index :=
  patterns.foldl (fun ix pattern => (ix.add pattern).2) ix

namespace Index

variable {ix : Index}

theorem add_accepting (ix : Index) (pattern : Bytes) :
    (ix.add pattern).2.accepting = ix.accepting := by
  rw [add]
  split
  · rename_i accepting
    exact accepting.symm
  · rfl

theorem addAll_accepting (ix : Index) (patterns : List Bytes) :
    (ix.addAll patterns).accepting = ix.accepting := by
  induction patterns generalizing ix with
  | nil => rfl
  | cons pattern patterns ih => exact (ih _).trans (ix.add_accepting pattern)

theorem addAll_singles (ix : Index) (patterns : List Bytes) :
    (ix.addAll patterns).singles = ix.singles ++ patterns.flatMap single := by
  induction patterns generalizing ix with
  | nil => exact (List.append_nil _).symm
  | cons pattern patterns ih =>
      have step : (ix.add pattern).2.singles = ix.singles ++ single pattern := by
        rw [add]
        split <;> rfl
      rw [List.flatMap_cons, ← List.append_assoc, ← step]
      exact ih _

theorem addAll_postings (accepting : ix.accepting = true) (patterns : List Bytes) :
    (ix.addAll patterns).postings = ix.postings ++ patterns.flatMap posted := by
  induction patterns generalizing ix with
  | nil => exact (List.append_nil _).symm
  | cons pattern patterns ih =>
      have step : (ix.add pattern).2.postings = ix.postings ++ posted pattern := by
        rw [add, if_pos accepting]
      rw [List.flatMap_cons, ← List.append_assoc, ← step]
      exact ih ((ix.add_accepting pattern).trans accepting)

end Index

namespace Paraglob

variable {fnmatch : Bytes → Bytes → Bool} {pg pg' : Paraglob} {ix : Index}

theorem Represents.of_addEach (h : pg.Represents ix) {patterns : List Bytes}
    (returns : pg.addEach patterns = .ok pg') :
    pg'.Represents (ix.addAll patterns) ∧
      (ix.accepting = true → ∀ p ∈ patterns, (Glob.metaWords p).all short = true) := by
  induction patterns generalizing pg ix with
  | nil =>
      obtain rfl := Except.ok.inj returns
      exact ⟨h, fun _ p hp => absurd hp List.not_mem_nil⟩
  | cons pattern patterns ih =>
      obtain ⟨pg₁, ran, h₁⟩ := h.add_spec pattern
      rw [addEach, ran] at returns
      cases added : (ix.add pattern).1 with
      | false =>
          rw [added] at returns
          cases returns
      | true =>
          rw [added] at returns
          obtain ⟨h', rest⟩ := ih h₁ returns
          refine ⟨h', ?_⟩
          intro accepting p hp
          cases List.mem_cons.mp hp with
          | inl same =>
              rw [Index.add, if_pos accepting] at added
              exact same ▸ added
          | inr later => exact rest ((ix.add_accepting pattern).trans accepting) p later

theorem Represents.addEach_spec (h : pg.Represents ix) (accepting : ix.accepting = true)
    {patterns : List Bytes} (fits : ∀ p ∈ patterns, (Glob.metaWords p).all short = true) :
    ∃ pg', pg.addEach patterns = .ok pg' ∧ pg'.Represents (ix.addAll patterns) := by
  induction patterns generalizing pg ix with
  | nil => exact ⟨pg, rfl, h⟩
  | cons pattern patterns ih =>
      obtain ⟨pg₁, ran, h₁⟩ := h.add_spec pattern
      have added : (ix.add pattern).1 = true := by
        rw [Index.add, if_pos accepting]
        exact fits pattern (by simp)
      obtain ⟨pg₂, rest, h₂⟩ := ih h₁ ((ix.add_accepting pattern).trans accepting)
        fun p hp => fits p (List.mem_cons_of_mem _ hp)
      refine ⟨pg₂, ?_, h₂⟩
      rw [addEach, ran, added]
      exact rest

theorem Represents.of_getEach (h : pg.Represents ix) {texts : List Bytes}
    (returns : getEach fnmatch pg texts = .ok pg') : pg'.Represents ix := by
  induction texts generalizing pg with
  | nil =>
      obtain rfl := Except.ok.inj returns
      exact h
  | cons text texts ih =>
      rw [getEach] at returns
      obtain ⟨asked, ran, rest⟩ := exists_of_bind_eq_ok returns
      exact ih (h.of_get ran).1 rest

theorem Represents.getEach_spec (h : pg.Represents ix) (few : ix.words.length ≤ 2 ^ 31)
    (texts : List Bytes) :
    ∃ pg', getEach fnmatch pg texts = .ok pg' ∧ pg'.Represents ix := by
  induction texts generalizing pg with
  | nil => exact ⟨pg, rfl, h⟩
  | cons text texts ih =>
      obtain ⟨pg₁, ran, h₁⟩ := h.get_spec few fnmatch text
      obtain ⟨pg₂, rest, h₂⟩ := ih h₁
      refine ⟨pg₂, ?_, h₂⟩
      rw [getEach]
      exact (bind_of_ok ran _).trans rest

end Paraglob

/-- The open index after adding a list of patterns to a new Paraglob. -/
def Index.ofPatterns (patterns : List Bytes) : Index := Index.empty.addAll patterns

namespace Index

variable {patterns : List Bytes}

theorem mem_ofPatterns_singles {p : Bytes} :
    p ∈ (ofPatterns patterns).singles ↔ p ∈ patterns ∧ p ≠ [] ∧ Glob.metaWords p = [] := by
  rw [ofPatterns, addAll_singles, empty, List.nil_append, List.mem_flatMap]
  constructor
  · rintro ⟨pattern, hp, kept⟩
    obtain ⟨rfl, none, nonempty⟩ := mem_single.mp kept
    exact ⟨hp, nonempty, none⟩
  · rintro ⟨hp, nonempty, none⟩
    exact ⟨p, hp, mem_single.mpr ⟨rfl, none, nonempty⟩⟩

theorem posted_of_short {pattern : Bytes} (fits : (Glob.metaWords pattern).all short = true) :
    posted pattern = (Glob.metaWords pattern).map fun word => (word, pattern) := by
  rw [posted, List.takeWhile_eq_self_iff.mpr (List.all_eq_true.mp fits)]

theorem ofPatterns_postings (fits : ∀ p ∈ patterns, (Glob.metaWords p).all short = true) :
    (ofPatterns patterns).postings =
      patterns.flatMap fun p => (Glob.metaWords p).map fun word => (word, p) := by
  rw [ofPatterns, addAll_postings rfl, empty, List.nil_append]
  exact List.flatMap_congr fun p hp => posted_of_short (fits p hp)

theorem mem_ofPatterns_postings (fits : ∀ p ∈ patterns, (Glob.metaWords p).all short = true)
    {word p : Bytes} :
    (word, p) ∈ (ofPatterns patterns).postings ↔ p ∈ patterns ∧ word ∈ Glob.metaWords p := by
  rw [ofPatterns_postings fits, List.mem_flatMap]
  constructor
  · rintro ⟨pattern, hp, posted⟩
    obtain ⟨v, hv, same⟩ := List.mem_map.mp posted
    obtain ⟨rfl, rfl⟩ := Prod.mk.inj same
    exact ⟨hp, hv⟩
  · rintro ⟨hp, hw⟩
    exact ⟨p, hp, List.mem_map_of_mem hw⟩

theorem ofPatterns_words (fits : ∀ p ∈ patterns, (Glob.metaWords p).all short = true) :
    (ofPatterns patterns).words = (patterns.flatMap Glob.metaWords).eraseDups := by
  rw [words, ofPatterns_postings fits, wordsOf, List.map_flatMap]
  have words : ∀ p, ((Glob.metaWords p).map fun word => (word, p)).map Prod.fst =
      Glob.metaWords p := by
    intro p
    rw [List.map_map]
    exact List.map_id _
  simp only [words]

end Index

namespace Paraglob

variable {patterns : List Bytes} {pg : Paraglob}

theorem represents_of_addEach (returns : create.addEach patterns = .ok pg) :
    pg.Represents (.ofPatterns patterns) ∧
      ∀ p ∈ patterns, (Glob.metaWords p).all short = true :=
  have built := represents_create.of_addEach returns
  ⟨built.1, built.2 rfl⟩

theorem ofPatterns_spec (fits : ∀ p ∈ patterns, (Glob.metaWords p).all short = true) :
    ∃ pg, Paraglob.ofPatterns patterns = .ok pg ∧
      pg.Represents (Index.ofPatterns patterns).close := by
  obtain ⟨opened, added, rep⟩ := represents_create.addEach_spec rfl fits
  obtain ⟨compiled, ran, rep'⟩ := rep.compile_spec
  refine ⟨compiled, ?_, rep'⟩
  rw [Paraglob.ofPatterns, added]
  exact ran

theorem get_of_ofPatterns (fits : ∀ p ∈ patterns, (Glob.metaWords p).all short = true)
    (few : (patterns.flatMap Glob.metaWords).eraseDups.length ≤ 2 ^ 31)
    (fnmatch : Bytes → Bytes → Bool) (text : Bytes) :
    ∃ pg pg', Paraglob.ofPatterns patterns = .ok pg ∧
      pg.get fnmatch text = .ok ((Index.ofPatterns patterns).close.answer fnmatch text, pg') := by
  obtain ⟨pg, built, rep⟩ := ofPatterns_spec fits
  have few' : (Index.ofPatterns patterns).close.words.length ≤ 2 ^ 31 :=
    Index.ofPatterns_words fits ▸ few
  obtain ⟨pg', answered, _⟩ := rep.get_spec few' fnmatch text
  exact ⟨pg, pg', built, answered⟩

theorem represents_of_ofPatterns (returns : Paraglob.ofPatterns patterns = .ok pg) :
    pg.Represents (Index.ofPatterns patterns).close ∧
      ∀ p ∈ patterns, (Glob.metaWords p).all short = true := by
  rw [Paraglob.ofPatterns] at returns
  obtain ⟨opened, added, rest⟩ := exists_of_bind_eq_ok returns
  obtain ⟨rep, fits⟩ := represents_of_addEach added
  obtain ⟨compiled, ran, rep'⟩ := rep.compile_spec
  obtain rfl := Except.ok.inj (ran.symm.trans rest)
  exact ⟨rep', fits⟩

end Paraglob
