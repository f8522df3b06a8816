import Paraglob.Multifast.Automaton

/-!
# The occurrences a search reports

A search reports, at every position of a text, the patterns that end there, the
longest first. The file says so without nodes, for a text that may continue an
earlier one, and draws the two conclusions about `findAll`: on a text of its own it
returns every occurrence once, and a text that is handed over in chunks gives the
same numbers as the whole.
-/

namespace Multifast

open LongestSuffix

namespace Dictionary

variable {d : Dictionary} {h t : Bytes} {base : Nat} {m : AcMatch}

/-- What ends in a text that continues `h`, with positions counted from `base`. -/
def occurrences (d : Dictionary) (h : Bytes) (base : Nat) (t : Bytes) : List AcMatch :=
  (List.range t.length).filterMap fun i =>
    if d.ending (h ++ t.take (i + 1)) = [] then none
    else some ⟨d.ending (h ++ t.take (i + 1)), base + i + 1⟩

theorem mem_occurrences :
    m ∈ d.occurrences h base t ↔ ∃ i < t.length, d.ending (h ++ t.take (i + 1)) ≠ [] ∧
      m = ⟨d.ending (h ++ t.take (i + 1)), base + i + 1⟩ := by
  simp only [occurrences, List.mem_filterMap, List.mem_range]
  apply exists_congr
  intro i
  apply and_congr_right
  intro _
  split
  · rename_i none
    exact iff_of_false (by simp) fun some => some.1 none
  · rename_i some
    rw [Option.some.injEq, eq_comm]
    exact (and_iff_right some).symm

/-- The first letter reports what ends with it, and is part of `h` for the others. -/
theorem occurrences_cons (d : Dictionary) (h : Bytes) (base : Nat) (alpha : UInt8) (t : Bytes) :
    d.occurrences h base (alpha :: t) =
      if d.ending (h ++ [alpha]) = [] then d.occurrences (h ++ [alpha]) (base + 1) t
      else ⟨d.ending (h ++ [alpha]), base + 1⟩ :: d.occurrences (h ++ [alpha]) (base + 1) t := by
  have later : ∀ i, h ++ (alpha :: t).take (i + 1 + 1) = h ++ [alpha] ++ t.take (i + 1) := by
    intro i
    rw [List.take_succ_cons, List.append_cons]
  have first : h ++ (alpha :: t).take (0 + 1) = h ++ [alpha] := rfl
  have counted : ∀ i, base + (i + 1) + 1 = base + 1 + i + 1 := by
    intro i
    omega
  rw [occurrences, List.length_cons, List.range_succ_eq_map, List.filterMap_cons,
    List.filterMap_map, first]
  simp only [Function.comp_def, Nat.succ_eq_add_one, later, counted]
  split
  · rename_i none
    split
    · rfl
    · rename_i some
      rw [if_neg some] at none
      cases none
  · rename_i m some
    split
    · rename_i none
      rw [if_pos none] at some
      cases some
    · rename_i notNil
      rw [if_neg notNil] at some
      rw [← Option.some.inj some]
      rfl

theorem map_shift_occurrences (base' : Nat) :
    (d.occurrences h base t).map (AcMatch.shift base base') = d.occurrences h base' t := by
  rw [occurrences, List.map_filterMap, occurrences]
  apply List.filterMap_congr
  intro i _
  split
  · rfl
  · simp only [Option.map_some, AcMatch.shift, Option.some.injEq, AcMatch.mk.injEq, true_and]
    omega

/-- What was read before makes no difference if and only if no entry ends in the text that
begins before it. -/
theorem occurrences_eq_iff :
    d.occurrences h base t = d.occurrences [] base t ↔
      ∀ q ∈ d.entries, ∀ i < t.length, q.ptext <:+ h ++ t.take (i + 1) →
        q.ptext <:+ t.take (i + 1) := by
  constructor
  · intro same q hq i hi suffix
    have listed : q ∈ d.ending (h ++ t.take (i + 1)) := d.mem_ending.mpr ⟨hq, suffix⟩
    have reported : ⟨d.ending (h ++ t.take (i + 1)), base + i + 1⟩ ∈ d.occurrences [] base t :=
      same ▸ mem_occurrences.mpr ⟨i, hi, List.ne_nil_of_mem listed, rfl⟩
    obtain ⟨j, _, _, match_eq⟩ := mem_occurrences.mp reported
    obtain ⟨patterns, position⟩ := AcMatch.mk.inj match_eq
    obtain rfl : i = j := by omega
    rw [patterns] at listed
    exact (d.mem_ending.mp listed).2
  · intro inside
    apply List.filterMap_congr
    intro i hi
    have short := d.ending_append_of_forall h fun q hq =>
      inside q hq i (List.mem_range.mp hi)
    rw [short, List.nil_append]

end Dictionary

variable {mp : Mpool} {path : Nat → Bytes} {d : Dictionary}

theorem Finalized.matched_stateAfter (fin : Finalized mp path d) (listed : Listed mp path d)
    (s : Bytes) : (mp.node (mp.stateAfter s)).matched = d.ending s := by
  obtain ⟨inside, longest⟩ := fin.labelling.stateAfter_spec s
  rw [listed inside, d.ending_of_isLongest fin.present longest]

theorem Finalized.reports_eq (fin : Finalized mp path d) (listed : Listed mp path d)
    (h t : Bytes) : mp.reports h t = d.occurrences h h.length t := by
  induction t generalizing h with
  | nil => rfl
  | cons alpha t ih =>
      have matched := fin.matched_stateAfter listed (h ++ [alpha])
      have complete := fin.complete (fin.labelling.stateAfter_spec (h ++ [alpha])).1
      have grown : (h ++ [alpha]).length = h.length + 1 := by
        rw [List.length_append, List.length_singleton]
      rw [Mpool.reports, d.occurrences_cons, ih, grown, matched]
      by_cases some : d.ending (h ++ [alpha]) = []
      · have notFinal : (mp.node (mp.stateAfter (h ++ [alpha]))).final ≠ true := fun final =>
          complete.matched_ne_nil.mp final (matched.trans some)
        rw [if_neg notFinal, if_pos some]
      · have final := complete.matched_ne_nil.mpr (matched ▸ some)
        rw [if_pos final, if_neg some]

end Multifast

namespace AhoCorasickPlus

open Multifast

/-- Hand words and their numbers to the automaton one after the other. -/
def addEach (ac : AhoCorasickPlus) (words : List (Bytes × PatternId)) : AhoCorasickPlus :=
  words.foldl (fun ac word => (ac.addPattern word.1 word.2).2) ac

/-- Call `findAll` several times and put the numbers together. -/
def findEach (ac : AhoCorasickPlus) :
    List (Bytes × Bool) → Except Fault (List Int × AhoCorasickPlus)
  | [] => .ok ([], ac)
  | (text, keep) :: rest => do
      let (ids, ac) ← ac.findAll text keep
      let (more, ac) ← ac.findEach rest
      .ok (ids ++ more, ac)

/-- The numbers of the words that end a string, the longest word first. -/
def idsEnding (words : List (Bytes × PatternId)) (s : Bytes) : List Int :=
  s.tails.filterMap fun w => (words.find? fun word => word.1 = w).map fun word => toInt word.2.toNat

/-- The pattern that is made of a word and its number. -/
def patternOf (word : Bytes × PatternId) : AcPattern := ⟨word.1, word.2.toNat⟩

theorem patternOf_id (word : Bytes × PatternId) : (patternOf word).id = word.2.toNat := rfl

variable {ac : AhoCorasickPlus} {path : Nat → Bytes} {d : Dictionary} {h : Bytes}
variable {words : List (Bytes × PatternId)}

theorem addEach_automata (ac : AhoCorasickPlus) (words : List (Bytes × PatternId)) :
    (ac.addEach words).automata = ac.automata.addEach (words.map patternOf) := by
  induction words generalizing ac with
  | nil => rfl
  | cons word words ih => exact ih _

theorem toInt_inj {i j : PatternId} (same : toInt i.toNat = toInt j.toNat) : i = j := by
  have bound := i.toNat_lt
  have bound' := j.toNat_lt
  have wide := congrArg (· % ((2 ^ 32 : Nat) : Int)) same
  simp only [toInt, Int.bmod_emod] at wide
  exact UInt32.toNat_inj.mp (by omega)

theorem map_ending_eq_idsEnding (entries : d.entries = words.map patternOf) (s : Bytes) :
    (d.ending s).map (fun q => toInt q.id) = idsEnding words s := by
  rw [Dictionary.ending, List.map_filterMap, idsEnding]
  apply List.filterMap_congr
  intro w _
  rw [Dictionary.find, entries, List.find?_map, Option.map_map]
  simp only [Function.comp_def, patternOf]
  rfl

theorem mem_idsEnding (entries : d.entries = words.map patternOf) (s : Bytes) (n : Int) :
    n ∈ idsEnding words s ↔ ∃ word ∈ words, word.1 <:+ s ∧ n = toInt word.2.toNat := by
  rw [← map_ending_eq_idsEnding entries, List.mem_map]
  constructor
  · rintro ⟨q, hq, rfl⟩
    obtain ⟨entry, suffix⟩ := d.mem_ending.mp hq
    rw [entries] at entry
    obtain ⟨word, hw, rfl⟩ := List.mem_map.mp entry
    exact ⟨word, hw, suffix, by rw [patternOf_id]⟩
  · rintro ⟨word, hw, suffix, number⟩
    have entry : patternOf word ∈ d.entries := entries ▸ List.mem_map_of_mem hw
    have ends : patternOf word ∈ d.ending s := d.mem_ending.mpr ⟨entry, suffix⟩
    exact ⟨patternOf word, ends, by rw [number, patternOf_id]⟩

theorem nodup_idsEnding (entries : d.entries = words.map patternOf)
    (ids : (words.map Prod.snd).Nodup) (s : Bytes) : (idsEnding words s).Nodup := by
  rw [← map_ending_eq_idsEnding entries]
  apply ((d.nodup_ending s).of_map _).map_on
  intro p hp q hq same
  have entry := (d.mem_ending.mp hp).1
  have entry' := (d.mem_ending.mp hq).1
  rw [entries] at entry entry'
  obtain ⟨word, hw, rfl⟩ := List.mem_map.mp entry
  obtain ⟨word', hw', rfl⟩ := List.mem_map.mp entry'
  rw [List.inj_on_of_nodup_map ids hw hw' (toInt_inj same)]

theorem reportedIds_occurrences (entries : d.entries = words.map patternOf) (base : Nat)
    (t : Bytes) :
    reportedIds (d.occurrences [] base t) =
      (List.range t.length).flatMap fun i => idsEnding words (t.take (i + 1)) := by
  rw [reportedIds, Dictionary.occurrences, List.filterMap_eq_flatMap_toList, List.flatMap_assoc]
  apply List.flatMap_congr
  intro i _
  rw [← map_ending_eq_idsEnding entries, List.nil_append]
  split
  · rename_i none
    rw [none]
    rfl
  · exact List.flatMap_singleton _ _

theorem findEach_closed (closed : ac.automata.Closed path d h) (calls : List (Bytes × Bool)) :
    ∃ ids ac' h', ac.findEach calls = .ok (ids, ac') ∧ ac'.automata.Closed path d h' ∧
      ac'.automata.nodes = ac.automata.nodes := by
  induction calls generalizing ac h with
  | nil => exact ⟨[], ac, h, rfl, closed, rfl⟩
  | cons call calls ih =>
      obtain ⟨text, keep⟩ := call
      obtain ⟨ac₁, ran, closed₁, nodes⟩ := findAll_of_closed closed text keep
      obtain ⟨more, ac', h', rest, closed', nodes'⟩ := ih closed₁
      refine ⟨reportedIds (ac.automata.nodes.reports (if keep then h else []) text) ++ more, ac',
        h', ?_, closed', nodes'.trans nodes⟩
      rw [findEach]
      exact (bind_of_ok ran _).trans (bind_of_ok rest _)

/-- Texts that continue each other report what their concatenation reports. -/
theorem findEach_chunks (closed : ac.automata.Closed path d h) (chunks : List Bytes) :
    ∃ ac', ac.findEach (chunks.map fun chunk => (chunk, true)) =
      .ok (reportedIds (ac.automata.nodes.reports h chunks.flatten), ac') := by
  induction chunks generalizing ac h with
  | nil => exact ⟨ac, rfl⟩
  | cons chunk chunks ih =>
      obtain ⟨ac₁, ran, closed₁, nodes⟩ := findAll_of_closed closed chunk true
      obtain ⟨ac', rest⟩ := ih closed₁
      refine ⟨ac', ?_⟩
      rw [nodes] at rest
      rw [List.map_cons, findEach, List.flatten_cons, Mpool.reports_append, reportedIds_append]
      exact (bind_of_ok ran _).trans (bind_of_ok rest _)

/-- After distinct nonempty words of at most 1024 letters were added with distinct numbers and
the automaton was finalized, `findAll` on any text returns for every end position the numbers of
the words that end there, each once, whatever was searched before. -/
theorem findAll_eq_occurrences (distinct : (words.map Prod.fst).Nodup)
    (ids : (words.map Prod.snd).Nodup)
    (proper : ∀ word ∈ words, word.1 ≠ [] ∧ word.1.length ≤ acPatternMaxLength) :
    ∃ ac, (create.addEach words).finalize = .ok ac ∧
      (∀ earlier, ∃ found asked, ac.findEach earlier = .ok (found, asked) ∧
        ∀ text, ∃ asked', asked.findAll text false =
          .ok ((List.range text.length).flatMap fun i => idsEnding words (text.take (i + 1)),
            asked')) ∧
      ∀ s, (idsEnding words s).Nodup ∧
        ∀ n, n ∈ idsEnding words s ↔ ∃ word ∈ words, word.1 <:+ s ∧ n = toInt word.2.toNat := by
  obtain ⟨thiz, path, d, ran, closed, listed, accepted⟩ :=
    AcTrie.finalize_addEach (words.map patternOf)
  have entries : d.entries = words.map patternOf := by
    rw [accepted]
    apply AcTrie.open_create.added_eq_self
    · rw [List.map_map]
      exact distinct
    · intro p hp
      obtain ⟨word, hw, rfl⟩ := List.mem_map.mp hp
      exact proper word hw
    · rintro p _ ⟨q, hq, _⟩
      cases hq
  refine ⟨⟨thiz⟩, ?_, ?_, fun s => ⟨nodup_idsEnding entries ids s, mem_idsEnding entries s⟩⟩
  · rw [finalize, addEach_automata]
    exact bind_of_ok ran _
  · intro earlier
    have start : (AhoCorasickPlus.mk thiz).automata.Closed path d [] := closed
    obtain ⟨found, asked, h', asks, closed', nodes⟩ := findEach_closed start earlier
    refine ⟨found, asked, asks, fun text => ?_⟩
    obtain ⟨asked', answered, _⟩ := findAll_of_closed closed' text false
    refine ⟨asked', ?_⟩
    have listed' : Listed asked.automata.nodes path d := nodes ▸ listed
    have reported := closed'.finalized.reports_eq listed' [] text
    change _ = Except.ok (reportedIds (asked.automata.nodes.reports [] text), _) at answered
    rw [answered, reported, reportedIds_occurrences entries]

/-- The words `ab`, `b` and `abc` with the numbers 0, 1 and 7, in the text `abcb`. -/
theorem findAll_eq_occurrences_abc :
    ∃ ac asked', (create.addEach [([97, 98], 0), ([98], 1), ([97, 98, 99], 7)]).finalize = .ok ac ∧
      ac.findAll [97, 98, 99, 98] false = .ok ([0, 1, 7, 1], asked') := by
  have distinct : (([([97, 98], 0), ([98], 1), ([97, 98, 99], 7)] :
      List (Bytes × PatternId)).map Prod.fst).Nodup := by decide
  obtain ⟨ac, ran, asks, _⟩ := findAll_eq_occurrences distinct (by decide) (by decide)
  obtain ⟨_, asked, none, answers⟩ := asks []
  obtain ⟨_, rfl⟩ := Prod.mk.inj (Except.ok.inj none)
  obtain ⟨asked', answered⟩ := answers [97, 98, 99, 98]
  have numbers : ((List.range 4).flatMap fun i => idsEnding
      [([97, 98], 0), ([98], 1), ([97, 98, 99], 7)] (List.take (i + 1) [97, 98, 99, 98])) =
        [0, 1, 7, 1] := by decide +kernel
  refine ⟨ac, asked', ran, ?_⟩
  rw [← numbers]
  exact answered

/-- The states that calls on the wrapper lead to. -/
inductive Reachable : AhoCorasickPlus → Prop where
  | create : Reachable create
  | addPattern {ac : AhoCorasickPlus} (pattern : Bytes) (id : PatternId)
      (earlier : Reachable ac) : Reachable (ac.addPattern pattern id).2
  | finalize {ac ac' : AhoCorasickPlus} (earlier : Reachable ac)
      (returns : ac.finalize = .ok ac') : Reachable ac'
  | findAll {ac ac' : AhoCorasickPlus} {text : Bytes} {keep : Bool} {ids : List Int}
      (earlier : Reachable ac) (returns : ac.findAll text keep = .ok (ids, ac')) : Reachable ac'

theorem Reachable.represents (reachable : Reachable ac) :
    ∃ accepting d, ac.automata.Represents accepting d := by
  induction reachable with
  | create => exact ⟨true, .empty, AcTrie.represents_create⟩
  | @addPattern ac pattern id _ ih =>
      obtain ⟨accepting, d, rep⟩ := ih
      cases accepting with
      | true =>
          obtain ⟨ac', ran, rep', _⟩ := addPattern_spec rep pattern id
          rw [ran]
          exact ⟨true, _, rep'⟩
      | false =>
          rw [addPattern_of_closed rep]
          exact ⟨false, d, rep⟩
  | finalize _ returns ih =>
      obtain ⟨_, d, rep⟩ := ih
      obtain ⟨ac', ran, rep'⟩ := finalize_spec rep
      obtain rfl := Except.ok.inj (ran.symm.trans returns)
      exact ⟨false, d, rep'⟩
  | @findAll _ _ text keep _ _ returns ih =>
      obtain ⟨_, d, rep⟩ := ih
      cases rep with
      | opened h =>
          obtain ⟨ac', ran, opened⟩ := findAll_of_open h text keep
          obtain ⟨_, rfl⟩ := Prod.mk.inj (Except.ok.inj (ran.symm.trans returns))
          exact ⟨true, d, .opened opened⟩
      | closed closed =>
          obtain ⟨ac', ran, closed', _⟩ := findAll_of_closed closed text keep
          obtain ⟨_, rfl⟩ := Prod.mk.inj (Except.ok.inj (ran.symm.trans returns))
          exact ⟨false, d, .closed closed'⟩

theorem reportedIds_reports {mp : Mpool} (fin : Finalized mp path d) (h t : Bytes) :
    reportedIds (mp.reports h t) = (List.range t.length).flatMap fun i =>
      (mp.node (mp.stateAfter (h ++ t.take (i + 1)))).matched.map fun q => toInt q.id := by
  induction t generalizing h with
  | nil => rfl
  | cons alpha t ih =>
      have later : ∀ i, h ++ (alpha :: t).take (i + 1 + 1) = h ++ [alpha] ++ t.take (i + 1) := by
        intro i
        rw [List.take_succ_cons, List.append_cons]
      have first : h ++ (alpha :: t).take (0 + 1) = h ++ [alpha] := rfl
      have complete := fin.complete (fin.labelling.stateAfter_spec (h ++ [alpha])).1
      rw [List.length_cons, List.range_succ_eq_map, List.flatMap_cons, List.flatMap_map, first]
      simp only [Nat.succ_eq_add_one, later]
      rw [← ih, Mpool.reports]
      split
      · rfl
      · rename_i notFinal
        have none := Classical.not_not.mp (notFinal ∘ complete.matched_ne_nil.mpr)
        rw [none]
        rfl

/-- On a finalized automaton with any history, a text that is handed over in chunks gives the
same numbers in the same order as the whole text. At every position of the text they are the
numbers of the words that end there, each word once, wherever it began. -/
theorem findAll_chunks (reachable : Reachable ac) (finalized : ac.automata.trieOpen = false)
    (chunk : Bytes) (chunks : List Bytes) :
    ∃ ids whole parts, ac.findAll (chunk ++ chunks.flatten) false = .ok (ids, whole) ∧
      ac.findEach ((chunk, false) :: chunks.map fun chunk => (chunk, true)) = .ok (ids, parts) ∧
      ∃ found : Nat → List AcPattern,
        ids = ((List.range (chunk ++ chunks.flatten).length).flatMap fun i =>
          (found i).map fun q => toInt q.id) ∧
        ∀ i, (found i).Nodup ∧ ∀ word id, ⟨word, id⟩ ∈ found i ↔
          ac.automata.Accepts word id ∧ word <:+ (chunk ++ chunks.flatten).take (i + 1) := by
  obtain ⟨accepting, d, rep⟩ := reachable.represents
  have accepts := rep.accepts_iff
  cases rep with
  | opened h => exact absurd (h.trieOpen.symm.trans finalized) (by decide)
  | closed closed =>
      obtain ⟨whole, ran, _⟩ := findAll_of_closed closed (chunk ++ chunks.flatten) false
      obtain ⟨ac₁, first, closed₁, nodes⟩ := findAll_of_closed closed chunk false
      obtain ⟨parts, rest⟩ := findEach_chunks closed₁ chunks
      refine ⟨_, whole, parts, ran, ?_, _, reportedIds_reports closed.finalized _ _, ?_⟩
      · rw [nodes] at rest
        rw [findEach, Mpool.reports_append, reportedIds_append]
        exact (bind_of_ok first _).trans (bind_of_ok rest _)
      · intro i
        have inside := (closed.finalized.labelling.stateAfter_spec
          ([] ++ (chunk ++ chunks.flatten).take (i + 1))).1
        refine ⟨(closed.finalized.complete inside).distinct.of_map _, fun word id => ?_⟩
        rw [accepts]
        exact closed.finalized.mem_matched_iff _ _

/-- The word `ab` straddles the borders between three chunks, the middle one of which is empty. -/
theorem findAll_chunks_ab :
    ∃ ac ids whole parts, (create.addPattern [97, 98] 5).2.finalize = .ok ac ∧
      ac.findAll [97, 98] false = .ok (ids, whole) ∧
      ac.findEach [([97], false), ([], true), ([98], true)] = .ok (ids, parts) ∧ 5 ∈ ids := by
  have start : create.automata.Represents true .empty := AcTrie.represents_create
  obtain ⟨opened, added, rep, _⟩ := addPattern_spec start [97, 98] 5
  obtain ⟨ac, ran, closed⟩ := finalize_spec rep
  obtain rfl : opened = (create.addPattern [97, 98] 5).2 := (congrArg Prod.snd added).symm
  obtain ⟨ids, whole, parts, together, apart, found, split, ending⟩ := findAll_chunks
    (.finalize (.addPattern [97, 98] 5 .create) ran) closed.trieOpen_eq [97] [[], [98]]
  have accepts : ac.automata.Accepts [97, 98] 5 := (closed.accepts_iff _ _).mpr (by decide)
  have straddles : ⟨[97, 98], 5⟩ ∈ found 1 := ((ending 1).2 _ _).mpr ⟨accepts, List.suffix_rfl⟩
  refine ⟨ac, ids, whole, parts, ran, together, apart, ?_⟩
  rw [split]
  exact List.mem_flatMap.mpr ⟨1, by decide, List.mem_map_of_mem straddles⟩

end AhoCorasickPlus
