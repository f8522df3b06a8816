import Mathlib.Data.List.Dedup
import Paraglob.Multifast.Automaton

/-!
# The nodes of a trie

A trie has a node for every beginning of a pattern it accepted, and no others:
patterns that are refused create nothing, and finalizing neither creates nor
removes nodes. So the strings on the paths are known from the dictionary, and so
is the number of nodes.
-/

namespace Multifast

open LongestSuffix

/-- The beginnings of entries. The empty string is one even when there are no entries. -/
def Dictionary.Begins (d : Dictionary) (s : Bytes) : Prop :=
  s = [] ∨ ∃ q ∈ d.entries, s <+: q.ptext

instance (d : Dictionary) (s : Bytes) : Decidable (d.Begins s) :=
  inferInstanceAs (Decidable (s = [] ∨ ∃ q ∈ d.entries, s <+: q.ptext))

/-- What a text ends with and an entry begins with, at its longest. -/
def Dictionary.pending (d : Dictionary) (h : Bytes) : Bytes :=
  (h.tails.find? fun s => d.Begins s).getD []

/-- Every path spells the beginning of an entry. -/
def Spelled (mp : Mpool) (path : Nat → Bytes) (d : Dictionary) : Prop :=
  ∀ {i}, i < mp.length → d.Begins (path i)

variable {mp : Mpool} {path : Nat → Bytes} {d d' : Dictionary} {s : Bytes}

theorem Dictionary.Begins.mono (begins : d.Begins s) (more : ∀ q ∈ d.entries, q ∈ d'.entries) :
    d'.Begins s :=
  begins.imp_right fun ⟨q, hq, begun⟩ => ⟨q, more q hq, begun⟩

theorem Dictionary.insert_of_refused {patt : AcPattern}
    (refused : (d.insert patt).1 ≠ .success) : (d.insert patt).2 = d := by
  by_cases zero : patt.ptext.length = 0
  · rw [d.insert_of_zero zero]
  by_cases long : patt.ptext.length > acPatternMaxLength
  · rw [d.insert_of_long zero long]
  by_cases known : d.Has patt.ptext
  · rw [d.insert_of_has zero long known]
  · exact absurd (d.insert_of_not_has zero long known).1 refused

def Dictionary.insertEach (d : Dictionary) (patts : List AcPattern) : Dictionary :=
  patts.foldl (fun d patt => (d.insert patt).2) d

theorem Dictionary.pending_spec (d : Dictionary) (h : Bytes) :
    d.pending h <:+ h ∧ d.Begins (d.pending h) ∧
      ∀ s, s <:+ h → d.Begins s → s.length ≤ (d.pending h).length := by
  rw [pending]
  induction h with
  | nil =>
      refine ⟨List.nil_suffix, Or.inl rfl, ?_⟩
      intro s suffix _
      rw [List.suffix_nil.mp suffix]
      exact Nat.zero_le _
  | cons a h ih =>
      rw [List.tails_cons, List.find?_cons]
      by_cases whole : d.Begins (a :: h)
      · rw [decide_eq_true whole]
        exact ⟨List.suffix_rfl, whole, fun s suffix _ => suffix.length_le⟩
      · rw [decide_eq_false whole]
        obtain ⟨suffix, begins, longest⟩ := ih
        refine ⟨suffix.trans (List.suffix_cons a h), begins, ?_⟩
        intro s inside begun
        cases List.suffix_cons_iff.mp inside with
        | inl same => exact absurd (same ▸ begun) whole
        | inr shorter => exact longest s shorter begun

/-- Only what was pending can still be pending when more is read. -/
theorem Dictionary.pending_append_length_le (d : Dictionary) (h t : Bytes) :
    (d.pending (h ++ t)).length ≤ (d.pending h).length + t.length := by
  obtain ⟨suffix, begins, _⟩ := d.pending_spec (h ++ t)
  obtain ⟨_, _, longest⟩ := d.pending_spec h
  by_cases short : (d.pending (h ++ t)).length ≤ t.length
  · omega
  · obtain ⟨front, split⟩ := List.suffix_of_suffix_length_le (List.suffix_append h t) suffix
      (Nat.le_of_not_le short)
    rw [← split] at suffix begins ⊢
    have begun : d.Begins front := begins.imp
      (fun none => (List.append_eq_nil_iff.mp none).1)
      fun ⟨q, hq, whole⟩ => ⟨q, hq, (List.prefix_append front t).trans whole⟩
    have bound := longest front (List.suffix_append_self_iff.mp suffix) begun
    rw [List.length_append]
    omega

theorem Spelled.isPath_iff (spelled : Spelled mp path d) (lab : Labelling mp path)
    (present : ∀ q ∈ d.entries, IsPath mp path q.ptext) : IsPath mp path s ↔ d.Begins s := by
  constructor
  · rintro ⟨i, inside, rfl⟩
    exact spelled inside
  · rintro (rfl | ⟨q, hq, more, whole⟩)
    · exact lab.prefixClosed.nil
    · exact lab.prefixClosed.of_append more (whole ▸ present q hq)

/-- The saved node of a search knows what is pending. -/
theorem Finalized.path_stateAfter (fin : Finalized mp path d) (spelled : Spelled mp path d)
    (h : Bytes) : path (mp.stateAfter h) = d.pending h := by
  obtain ⟨inside, longest⟩ := fin.labelling.stateAfter_spec h
  obtain ⟨suffix, begins, maximal⟩ := d.pending_spec h
  have shorter := longest.max _ suffix
    ((spelled.isPath_iff fin.labelling fin.present).mpr begins)
  have bound := maximal _ longest.suffix (spelled inside)
  exact (shorter.eq_of_length (Nat.le_antisymm shorter.length_le bound)).symm

/-- The strings on the paths, in the order of their entries. -/
def Dictionary.beginnings (d : Dictionary) : List Bytes :=
  ([] :: d.entries.flatMap fun q => q.ptext.inits).dedup

theorem Dictionary.mem_beginnings : s ∈ d.beginnings ↔ d.Begins s := by
  rw [beginnings, List.mem_dedup, List.mem_cons, List.mem_flatMap]
  simp only [List.mem_inits]
  rfl

/-- There is one node for each of them. -/
theorem Spelled.perm_beginnings (spelled : Spelled mp path d) (lab : Labelling mp path)
    (present : ∀ q ∈ d.entries, IsPath mp path q.ptext) :
    ((List.range mp.length).map path).Perm d.beginnings := by
  have labels : ((List.range mp.length).map path).Nodup := by
    apply List.Nodup.map_on _ List.nodup_range
    intro i hi j hj same
    exact lab.inj (List.mem_range.mp hi) (List.mem_range.mp hj) same
  rw [List.perm_ext_iff_of_nodup labels (show d.beginnings.Nodup from List.nodup_dedup _)]
  intro s
  rw [Dictionary.mem_beginnings, ← spelled.isPath_iff lab present, List.mem_map]
  simp only [List.mem_range]
  rfl

namespace AcTrie

variable {thiz : AcTrie} {h : Bytes}

theorem spelled_create : Spelled create.nodes (fun _ => []) .empty := fun _ => Or.inl rfl

/-- Adding a pattern, with the strings on the paths. A pattern that is refused leaves them
alone, one that is accepted adds its beginnings. -/
theorem Open.add_spelled (opened : thiz.Open path d) (spelled : Spelled thiz.nodes path d)
    (patt : AcPattern) :
    ∃ path', (thiz.add patt).2.Open path' (d.insert patt).2 ∧
      Spelled (thiz.add patt).2.nodes path' (d.insert patt).2 := by
  obtain ⟨status, _, unchanged⟩ := opened.add_spec patt
  by_cases accepted : (d.insert patt).1 = .success
  · have added := status.trans accepted
    have entries := d.insert_entries patt
    rw [if_pos accepted] at entries
    obtain ⟨nodes, root, count, trieOpen, lastNode, base, text, position, wm⟩ := thiz
    obtain rfl : trieOpen = true := opened.trieOpen
    obtain rfl : root = 0 := opened.root
    obtain ⟨path', lab', grown, last, label, fresh⟩ :=
      Mpool.addPath_spec opened.raw.labelling opened.raw.labelling.pos patt.ptext
    rw [opened.raw.labelling.root, List.nil_append] at label fresh
    have short : patt.ptext.length ≤ acPatternMaxLength :=
      (d.insert patt).2.short patt (entries ▸ List.mem_append_right _ List.mem_cons_self)
    have raw' := opened.raw.grow lab' grown fun i old new => (fresh i old new).length_le.trans short
    have final := raw'.final last
    rw [label] at final
    have nonzero : patt.ptext.length ≠ 0 := fun zero => by simp [d.insert_of_zero zero] at accepted
    have unknown : ¬ d.Has patt.ptext := fun known => by
      simp [d.insert_of_has nonzero (Nat.not_lt.mpr short) known] at accepted
    rw [add]
    simp only [nonzero, Nat.not_lt.mpr short, Bool.not_true, Bool.false_eq_true, if_false]
    rw [if_neg fun accepts => unknown (final.mp accepts)]
    refine ⟨path', ⟨opened.trieOpen, opened.root, raw'.accept last label unknown entries,
      opened.lastNode, opened.basePosition, opened.wm⟩, ?_⟩
    intro i inside
    rw [Mpool.length_update] at inside
    obtain old | new := Nat.lt_or_ge i nodes.length
    · rw [grown.label i old]
      exact (spelled old).mono fun q hq => entries ▸ List.mem_append_left _ hq
    · exact Or.inr ⟨patt, entries ▸ List.mem_append_right _ List.mem_cons_self, fresh i new inside⟩
  · rw [unchanged accepted, Dictionary.insert_of_refused accepted]
    exact ⟨path, opened, spelled⟩

/-- The run lemma: whatever is handed to a new trie, its paths are known. -/
theorem Open.addEach_spelled (opened : thiz.Open path d) (spelled : Spelled thiz.nodes path d)
    (patts : List AcPattern) :
    ∃ path', (thiz.addEach patts).Open path' (d.insertEach patts) ∧
      Spelled (thiz.addEach patts).nodes path' (d.insertEach patts) ∧
      (d.insertEach patts).entries = d.entries ++ thiz.added patts := by
  induction patts generalizing thiz path d with
  | nil => exact ⟨path, opened, spelled, (List.append_nil _).symm⟩
  | cons patt patts ih =>
      obtain ⟨status, _⟩ := opened.add_spec patt
      obtain ⟨path₁, opened₁, spelled₁⟩ := opened.add_spelled spelled patt
      obtain ⟨path', opened', spelled', entries⟩ := ih opened₁ spelled₁
      refine ⟨path', opened', spelled', entries.trans ?_⟩
      rw [d.insert_entries, ← status, added]
      by_cases accepted : (thiz.add patt).1 = .success
      · rw [if_pos accepted, if_pos accepted, List.append_assoc, List.singleton_append]
      · rw [if_neg accepted, if_neg accepted]

theorem Open.finalize_spelled (opened : thiz.Open path d) (spelled : Spelled thiz.nodes path d) :
    ∃ thiz', thiz.finalize = .ok thiz' ∧ thiz'.Closed path d [] ∧ Listed thiz'.nodes path d ∧
      Spelled thiz'.nodes path d ∧ thiz'.nodes.length = thiz.nodes.length := by
  have closable := opened.raw.closable
  have ranked : Ranked thiz.nodes path d := opened.raw.ranked
  obtain ⟨nodes, buffer, linked, linking, links⟩ := traverseSetFailure_spec closable
  obtain ⟨nodes', collected, finalized, listed, length⟩ :=
    traverseAction_spec (closable.of_linking linking) (ranked.of_linking linking) links
  have kept : nodes'.length = thiz.nodes.length := length.trans linking.length
  refine ⟨{ thiz with nodes := nodes', trieOpen := false }, ?_, ?_, listed, ?_, kept⟩
  · rw [finalize, opened.root]
    exact (bind_of_ok linked _).trans (bind_of_ok collected _)
  · exact ⟨rfl, opened.root, finalized, opened.lastNode, opened.basePosition, opened.wm⟩
  · intro i inside
    exact spelled (kept ▸ inside)

/-- A trie has one node for each distinct beginning of the patterns it accepted: the strings that
lead from the root to its nodes are these beginnings, one to each node. Finalizing changes neither
the nodes there are nor the strings that lead to them. -/
theorem nodes_length_eq (patts : List AcPattern) :
    ∃ thiz path, (create.addEach patts).finalize = .ok thiz ∧
      (∀ s n, (create.addEach patts).reach s = some n ↔
        n < (create.addEach patts).nodes.length ∧ path n = s) ∧
      (∀ s, thiz.reach s = (create.addEach patts).reach s) ∧
      (Dictionary.empty.insertEach patts).entries = create.added patts ∧
      ((List.range (create.addEach patts).nodes.length).map path).Perm
        (Dictionary.empty.insertEach patts).beginnings ∧
      (create.addEach patts).nodes.length =
        (Dictionary.empty.insertEach patts).beginnings.length ∧
      thiz.nodes.length = (create.addEach patts).nodes.length := by
  obtain ⟨path, opened, spelled, entries⟩ := open_create.addEach_spelled spelled_create patts
  obtain ⟨thiz, ran, closed, _, _, length⟩ := opened.finalize_spelled spelled
  have beginnings := spelled.perm_beginnings opened.raw.labelling opened.raw.present
  have counted := beginnings.length_eq
  rw [List.length_map, List.length_range] at counted
  have reaches : ∀ s n, (create.addEach patts).reach s = some n ↔
      n < (create.addEach patts).nodes.length ∧ path n = s :=
    fun _ _ => reach_eq_some_iff opened.root opened.raw.labelling
  refine ⟨thiz, path, ran, reaches, ?_, entries, beginnings, counted, length⟩
  intro s
  apply Option.ext
  intro n
  rw [reaches, ← length]
  exact closed.idle.reach_eq_some_iff

end AcTrie

end Multifast
