import Paraglob.Core.Patterns
import Paraglob.Serializer.RoundTrip
import Mathlib.Algebra.Group.Action.Defs
import Mathlib.Algebra.Order.BigOperators.Group.List
import Mathlib.Algebra.Order.Ring.Nat

/-!
# A Paraglob and its serialization

A Paraglob is written as the list of its patterns and read back by building a new
one from them; nothing of the trie is written. A Paraglob that is read back answers
every text as the original does. What decides whether it is read back are the
one-byte lengths of the serializer, and patterns of these lengths are never refused.
-/

open Multifast

namespace Glob

theorem sum_length_emit (run : Bytes) : ((emit run).map List.length).sum = run.length := by
  rw [emit]
  split
  · rename_i none
    rw [none]
    rfl
  · exact Nat.add_zero _

theorem sum_length_scan_le (run s : Bytes) :
    ((scan run s).map List.length).sum ≤ run.length + s.length := by
  induction run, s using scan.induct with
  | case1 run =>
      rw [scan, sum_length_emit]
      exact Nat.le_add_right _ _
  | case2 run c rest wild ih =>
      rw [scan_wildcard wild, List.map_append, List.sum_append, sum_length_emit, List.length_cons]
      rw [List.length_nil] at ih
      omega
  | case3 run rest tail close wild ih =>
      have shorter := afterClose_length close
      rw [scan_region close, List.map_append, List.sum_append, sum_length_emit, List.length_cons]
      rw [List.length_nil] at ih
      omega
  | case4 run rest absent wild ih =>
      rw [scan_literal wild fun _ => absent, List.length_cons]
      rw [List.length_append, List.length_singleton] at ih
      omega
  | case5 run c rest wild other ih =>
      rw [scan_literal wild fun bracket => absurd bracket other, List.length_cons]
      rw [List.length_append, List.length_singleton] at ih
      omega

variable {pattern word : Bytes}

theorem sum_length_metaWords_le (pattern : Bytes) :
    ((metaWords pattern).map List.length).sum ≤ pattern.length := by
  have cut := sum_length_scan_le [] pattern
  rwa [List.length_nil, Nat.zero_add, ← metaWords_eq_scan] at cut

theorem length_le_of_mem_metaWords (hw : word ∈ metaWords pattern) :
    word.length ≤ pattern.length :=
  (List.single_le_sum (fun _ _ => Nat.zero_le _) _ (List.mem_map_of_mem hw)).trans
    (sum_length_metaWords_le pattern)

theorem length_metaWords_le (pattern : Bytes) : (metaWords pattern).length ≤ pattern.length := by
  have each : ∀ n ∈ (metaWords pattern).map List.length, 1 ≤ n := by
    intro n hn
    obtain ⟨word, hw, rfl⟩ := List.mem_map.mp hn
    exact List.length_pos_iff.mpr (ne_nil_of_mem_metaWords hw)
  have counted := List.length_le_sum_of_one_le _ each
  rw [List.length_map] at counted
  exact counted.trans (sum_length_metaWords_le pattern)

end Glob

/-- The patterns that the one-byte fields of the serializer can hold. -/
def Storable (patterns : List Bytes) : Prop :=
  patterns.length < 256 ∧ ∀ p ∈ patterns, p.length < 256

namespace Storable

variable {patterns : List Bytes}

theorem fits (storable : Storable patterns) {p : Bytes} (hp : p ∈ patterns) :
    (Glob.metaWords p).all short = true := by
  apply all_short_iff.mpr
  intro word hw
  have words := Glob.length_le_of_mem_metaWords hw
  have small := storable.2 p hp
  rw [acPatternMaxLength]
  omega

theorem sortUnique (storable : Storable patterns) (keep : Bytes → Bool) :
    Storable (SortedUnique.sortUnique (patterns.filter keep)) := by
  constructor
  · calc (SortedUnique.sortUnique (patterns.filter keep)).length
        ≤ (patterns.filter keep).length := SortedUnique.length_sortUnique_le _
      _ ≤ patterns.length := List.length_filter_le _ _
      _ < 256 := storable.1
  · intro p hp
    exact storable.2 p (List.mem_of_mem_filter (SortedUnique.mem_sortUnique.mp hp))

theorem unserialize_serialize (storable : Storable patterns) :
    ParaglobSerializer.unserialize (ParaglobSerializer.serialize patterns) = .ok patterns := by
  obtain ⟨few, small⟩ := storable
  obtain ⟨records, rfl⟩ := ParaglobSerializer.exists_records_of_short small
  rw [List.length_map] at few
  let count : ParaglobSerializer.Field := .plain (UInt8.ofNat records.length)
  have announced : records.length = count.low.toNat := (UInt8.toNat_ofNat_of_lt' few).symm
  apply ParaglobSerializer.unserialize_eq_ok_iff.mpr
  refine ⟨count, records.map ParaglobSerializer.Record.plain,
    ParaglobSerializer.serialize_bodies announced, ?_, ?_⟩
  · exact (List.length_map _).trans announced
  · exact List.map_map

theorem few (storable : Storable patterns) :
    (patterns.flatMap Glob.metaWords).length ≤ 2 ^ 31 := by
  have each : ∀ n ∈ patterns.map fun p => (Glob.metaWords p).length, n ≤ 255 := by
    intro n hn
    obtain ⟨p, hp, rfl⟩ := List.mem_map.mp hn
    exact (Glob.length_metaWords_le p).trans (Nat.le_of_lt_succ (storable.2 p hp))
  have total := List.sum_le_card_nsmul _ 255 each
  have count := storable.1
  rw [List.length_map, smul_eq_mul] at total
  rw [List.length_flatMap]
  omega

end Storable

namespace Paraglob

variable {fnmatch : Bytes → Bytes → Bool} {pg : Paraglob}

/-- `Paraglob::serialize`. -/
def serialize (pg : Paraglob) : Bytes := ParaglobSerializer.serialize pg.getPatterns

/-- The constructor from serialized data. -/
def ofSerialized (serialized : Bytes) : Except Fault Paraglob := do
  let patterns ← ParaglobSerializer.unserialize serialized
  ofPatterns patterns

/-- A Paraglob is read back with its patterns if and only if there are fewer than 256
patterns, each of fewer than 256 bytes. -/
theorem ofSerialized_restores_iff (reachable : Reachable fnmatch pg) :
    (∃ rebuilt, ofSerialized pg.serialize = .ok rebuilt ∧
        rebuilt.getPatterns = pg.getPatterns) ↔
      pg.getPatterns.length < 256 ∧ ∀ p ∈ pg.getPatterns, p.length < 256 := by
  constructor
  · rintro ⟨rebuilt, returns, same⟩
    obtain ⟨patterns, read, built⟩ := exists_of_bind_eq_ok returns
    have storable : Storable patterns := ParaglobSerializer.short_of_unserialize read
    rw [← same, getPatterns_of_ofPatterns built]
    exact storable.sortUnique _
  · rintro ⟨few, small⟩
    have storable : Storable pg.getPatterns := ⟨few, small⟩
    obtain ⟨_, rebuilt, _, built, same, _⟩ :=
      reachable.rebuild (fun p hp => storable.fits hp) storable.few
    exact ⟨rebuilt, (bind_of_ok (storable.unserialize_serialize) _).trans built, same⟩

/-- A new Paraglob after adding `a*`. -/
theorem ofSerialized_restores_iff_a :
    ∃ pg rebuilt, create.add [97, 42] = .ok (true, pg) ∧ ofSerialized pg.serialize = .ok rebuilt ∧
      rebuilt.getPatterns = pg.getPatterns := by
  obtain ⟨pg, ran, rep⟩ := represents_create.add_spec [97, 42]
  have status : (Index.empty.add [97, 42]).1 = true := by decide +kernel
  have reachable : Reachable (Fnmatch.fnmatch Fnmatch.cLocale) pg := .add .create ran
  have listed : pg.getPatterns = [[97, 42]] := rep.getPatterns_eq.trans (by decide +kernel)
  obtain ⟨rebuilt, returns, same⟩ := (ofSerialized_restores_iff reachable).mpr (by
    rw [listed]
    decide)
  exact ⟨pg, rebuilt, status ▸ ran, returns, same⟩

/-- What is read back equals the original, is written as the original was, and answers every
text as the compiled original does. -/
theorem ofSerialized_serialize (reachable : Reachable fnmatch pg)
    (few : pg.getPatterns.length < 256) (small : ∀ p ∈ pg.getPatterns, p.length < 256) :
    ∃ compiled rebuilt, pg.compile = .ok compiled ∧ ofSerialized pg.serialize = .ok rebuilt ∧
      rebuilt.equal pg = true ∧ rebuilt.serialize = pg.serialize ∧
      SameAnswers fnmatch compiled rebuilt := by
  have storable : Storable pg.getPatterns := ⟨few, small⟩
  obtain ⟨compiled, rebuilt, ran, built, same, equal, answers⟩ :=
    reachable.rebuild (fun p hp => storable.fits hp) storable.few
  exact ⟨compiled, rebuilt, ran, (bind_of_ok (storable.unserialize_serialize) _).trans built,
    equal, congrArg ParaglobSerializer.serialize same, answers⟩

theorem ofSerialized_serialize_a :
    ∃ pg compiled rebuilt, create.add [97, 42] = .ok (true, pg) ∧ pg.compile = .ok compiled ∧
      ofSerialized pg.serialize = .ok rebuilt ∧ rebuilt.equal pg = true ∧
      rebuilt.serialize = pg.serialize ∧
      SameAnswers (Fnmatch.fnmatch Fnmatch.cLocale) compiled rebuilt := by
  obtain ⟨pg, ran, rep⟩ := represents_create.add_spec [97, 42]
  have status : (Index.empty.add [97, 42]).1 = true := by decide +kernel
  have reachable : Reachable (Fnmatch.fnmatch Fnmatch.cLocale) pg := .add .create ran
  have listed : pg.getPatterns = [[97, 42]] := rep.getPatterns_eq.trans (by decide +kernel)
  obtain ⟨compiled, rebuilt, closed, returns, rest⟩ := ofSerialized_serialize reachable
    (by rw [listed]; decide) (by rw [listed]; decide)
  exact ⟨pg, compiled, rebuilt, status ▸ ran, closed, returns, rest⟩

/-- Whatever bytes are read, the constructor fails where the reader does: no pattern that was
read is refused. The Paraglob it returns has the patterns that were read, and writing it
and reading it once more yields the same bytes and the same answers. -/
theorem ofSerialized_spec (fnmatch : Bytes → Bytes → Bool) (b : Bytes) :
    (∀ fault, ofSerialized b = .error fault ↔ ParaglobSerializer.unserialize b = .error fault) ∧
    ∀ patterns, ParaglobSerializer.unserialize b = .ok patterns → ∃ pg again,
      ofSerialized b = .ok pg ∧
      pg.getPatterns = SortedUnique.sortUnique (patterns.filter (· ≠ [])) ∧
      ofSerialized pg.serialize = .ok again ∧ again.serialize = pg.serialize ∧
      SameAnswers fnmatch pg again := by
  cases read : ParaglobSerializer.unserialize b with
  | error fault =>
      have failed : ofSerialized b = .error fault := bind_of_error read _
      rw [failed]
      exact ⟨fun other => by rw [Except.error.injEq, Except.error.injEq],
        fun patterns returned => by cases returned⟩
  | ok patterns =>
      have storable : Storable patterns := ParaglobSerializer.short_of_unserialize read
      obtain ⟨pg, built, _⟩ := ofPatterns_spec fun p hp => storable.fits hp
      have returned : ofSerialized b = .ok pg := (bind_of_ok read _).trans built
      have listed := getPatterns_of_ofPatterns built
      obtain ⟨reachable, closed⟩ := reachable_of_ofPatterns fnmatch built
      have storable' : Storable pg.getPatterns := listed ▸ storable.sortUnique _
      obtain ⟨compiled, again, ran, rebuilt, same, _, answers⟩ :=
        reachable.rebuild (fun p hp => storable'.fits hp) storable'.few
      obtain rfl := Except.ok.inj (closed.symm.trans ran)
      have read' : ofSerialized pg.serialize = .ok again :=
        (bind_of_ok storable'.unserialize_serialize _).trans rebuilt
      rw [returned]
      refine ⟨fun fault => iff_of_false (by rintro ⟨⟩) (by rintro ⟨⟩), ?_⟩
      rintro _ ⟨⟩
      exact ⟨pg, again, rfl, listed, read', congrArg ParaglobSerializer.serialize same, answers⟩

end Paraglob
