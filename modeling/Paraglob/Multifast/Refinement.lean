import Paraglob.Multifast.Idempotence
import Paraglob.Multifast.Plus
import Paraglob.Multifast.Resumption

/-!
# The trie refines its dictionary

Between two calls a trie is open or closed and stands for a dictionary. The file
proves what every function of the trie does in these terms: adding is insertion
into the dictionary and leaves the trie alone when it fails, finalizing closes
the trie and keeps the dictionary, and a search reports the entries that occur in
its text. The search state that survives a call is part of the relation, since
the next call may resume it.
-/

namespace Multifast

open LongestSuffix

namespace AcTrie

/-- An open trie between two calls. Nothing has been searched yet. -/
structure Open (thiz : AcTrie) (path : Nat → Bytes) (d : Dictionary) : Prop where
  trieOpen : thiz.trieOpen = true
  root : thiz.root = 0
  raw : Raw thiz.nodes path d
  lastNode : thiz.lastNode = 0
  basePosition : thiz.basePosition = 0
  wm : thiz.wm = .search

/-- A finalized trie that has read `h` since its search state was reset. -/
structure Closed (thiz : AcTrie) (path : Nat → Bytes) (d : Dictionary) (h : Bytes) : Prop where
  trieOpen : thiz.trieOpen = false
  root : thiz.root = 0
  finalized : Finalized thiz.nodes path d
  lastNode : thiz.lastNode = thiz.nodes.stateAfter h
  basePosition : thiz.basePosition = h.length
  wm : thiz.wm = .search

/-- The trie stands for the dictionary, and accepts patterns or not. -/
inductive Represents (thiz : AcTrie) : Bool → Dictionary → Prop where
  | opened {path : Nat → Bytes} {d : Dictionary} (h : thiz.Open path d) :
      Represents thiz true d
  | closed {path : Nat → Bytes} {d : Dictionary} {h : Bytes} (closed : thiz.Closed path d h) :
      Represents thiz false d

variable {thiz : AcTrie} {path : Nat → Bytes} {d : Dictionary} {h : Bytes}

theorem open_create : create.Open (fun _ => []) .empty :=
  ⟨rfl, rfl, Raw.create, rfl, rfl, rfl⟩

theorem represents_create : create.Represents true .empty := .opened open_create

theorem Represents.trieOpen_eq {accepting : Bool} (rep : thiz.Represents accepting d) :
    thiz.trieOpen = accepting := by
  cases rep with
  | opened h => exact h.trieOpen
  | closed h => exact h.trieOpen

theorem Represents.closable {accepting : Bool} (rep : thiz.Represents accepting d) :
    thiz.root = 0 ∧ ∃ path, Closable thiz.nodes path d := by
  cases rep with
  | opened h => exact ⟨h.root, _, h.raw.closable⟩
  | closed h => exact ⟨h.root, _, h.finalized.closable⟩

/-- The word leads to a final node, which lists it under the number. Other patterns in
the list of the node were inherited from suffixes of the word. -/
def Accepts (thiz : AcTrie) (word : Bytes) (id : Int) : Prop :=
  ∃ n, thiz.nodes.walk thiz.root word = some n ∧ (thiz.nodes.node n).final = true ∧
    ⟨word, id⟩ ∈ (thiz.nodes.node n).matched

theorem Represents.accepts_iff {accepting : Bool} (rep : thiz.Represents accepting d)
    (word : Bytes) (id : Int) : thiz.Accepts word id ↔ ⟨word, id⟩ ∈ d.entries := by
  obtain ⟨root, path, closable⟩ := rep.closable
  have lab := closable.labelling
  rw [Accepts, root]
  constructor
  · rintro ⟨n, reached, _, mem⟩
    obtain ⟨inside, _⟩ := (lab.walk_eq_some_iff lab.pos).mp reached
    exact ((closable.sound inside).matched _ mem).1
  · intro entry
    obtain ⟨n, inside, label⟩ := closable.present _ entry
    obtain ⟨mem, final⟩ := (closable.sound inside).own _ entry label.symm
    refine ⟨n, (lab.walk_eq_some_iff lab.pos).mpr ⟨inside, ?_⟩, final, mem⟩
    rw [label, lab.root, List.nil_append]

theorem Represents.mem_entries {accepting : Bool} (rep : thiz.Represents accepting d)
    {nod : ActNode} (hn : nod ∈ thiz.nodes) {q : AcPattern} (hq : q ∈ nod.matched) :
    q ∈ d.entries := by
  obtain ⟨_, path, closable⟩ := rep.closable
  obtain ⟨n, inside, rfl⟩ := Mpool.exists_node hn
  exact ((closable.sound inside).matched q hq).1

theorem add_of_closed (closed : thiz.trieOpen = false) (patt : AcPattern) :
    thiz.add patt = (.trieClosed, thiz) := by
  simp [add, closed]

theorem Open.add_spec (h : thiz.Open path d) (patt : AcPattern) :
    (thiz.add patt).1 = (d.insert patt).1 ∧
      (∃ path', (thiz.add patt).2.Open path' (d.insert patt).2) ∧
      ((d.insert patt).1 ≠ .success → (thiz.add patt).2 = thiz) := by
  obtain ⟨nodes, root, count, trieOpen, lastNode, base, text, position, wm⟩ := thiz
  obtain rfl : trieOpen = true := h.trieOpen
  obtain rfl : root = 0 := h.root
  have lab := h.raw.labelling
  rw [add]
  by_cases zero : patt.ptext.length = 0
  · rw [d.insert_of_zero zero]
    simp only [zero]
    exact ⟨rfl, ⟨path, h⟩, fun _ => rfl⟩
  by_cases long : patt.ptext.length > acPatternMaxLength
  · rw [d.insert_of_long zero long]
    simp only [zero, long]
    exact ⟨rfl, ⟨path, h⟩, fun _ => rfl⟩
  obtain ⟨path', lab', grown, last, label, fresh⟩ := Mpool.addPath_spec lab lab.pos patt.ptext
  rw [lab.root, List.nil_append] at label fresh
  have raw' := h.raw.grow lab' grown fun i old new =>
    (fresh i old new).length_le.trans (Nat.le_of_not_gt long)
  have final := raw'.final last
  rw [label] at final
  simp only [zero, long, Bool.not_true, Bool.false_eq_true, if_false]
  by_cases known : d.Has patt.ptext
  · have unchanged : (nodes.addPath 0 patt.ptext).1 = nodes := by
      obtain ⟨q, hq, same⟩ := known
      apply Mpool.addPath_of_isPath lab lab.pos patt.ptext
      rw [lab.root, List.nil_append, ← same]
      exact h.raw.present q hq
    rw [d.insert_of_has zero long known, if_pos (final.mpr known), unchanged]
    exact ⟨rfl, ⟨path, h⟩, fun _ => rfl⟩
  · obtain ⟨inserted, entries⟩ := d.insert_of_not_has zero long known
    rw [inserted, if_neg fun accepts => known (final.mp accepts)]
    refine ⟨rfl, ⟨path', ?_⟩, fun failed => absurd rfl failed⟩
    exact ⟨h.trieOpen, h.root, raw'.accept last label known entries, h.lastNode,
      h.basePosition, h.wm⟩

/-- Finalizing an open trie closes it, and all its nodes list their entries in order. -/
theorem Open.finalize_spec (h : thiz.Open path d) :
    ∃ thiz', thiz.finalize = .ok thiz' ∧ thiz'.Closed path d [] ∧ Listed thiz'.nodes path d := by
  obtain ⟨nodes, ran, finalized, listed⟩ :=
    AcTrie.finalize_spec h.root h.raw.closable h.raw.ranked
  exact ⟨_, ran, ⟨rfl, h.root, finalized, h.lastNode, h.basePosition, h.wm⟩, listed⟩

theorem Represents.finalize_of_closed (rep : thiz.Represents false d) :
    thiz.finalize = .ok thiz := by
  cases rep with
  | closed closed => exact finalize_of_finalized closed.root closed.trieOpen closed.finalized

/-- Finalizing an open or a finalized trie closes it over the same dictionary. -/
theorem Represents.finalize_spec {accepting : Bool} (rep : thiz.Represents accepting d) :
    ∃ thiz', thiz.finalize = .ok thiz' ∧ thiz'.Represents false d := by
  cases rep with
  | opened h =>
      obtain ⟨thiz', ran, closed, _⟩ := h.finalize_spec
      exact ⟨thiz', ran, .closed closed⟩
  | closed closed => exact ⟨thiz, finalize_of_closed (.closed closed), .closed closed⟩

/-- A finalized trie in the middle of a text: `h` has been read since the last
reset, and `rest` is the unread part of the text. -/
structure Searching (thiz : AcTrie) (path : Nat → Bytes) (d : Dictionary) (h rest : Bytes) :
    Prop where
  trieOpen : thiz.trieOpen = false
  root : thiz.root = 0
  finalized : Finalized thiz.nodes path d
  lastNode : thiz.lastNode = thiz.nodes.stateAfter h
  text : ∃ text, thiz.text = some text ∧ text.drop thiz.position = rest
  read : thiz.position + thiz.basePosition = h.length
  wm : thiz.wm = .search

theorem Closed.setText_spec (closed : thiz.Closed path d h) (text : Bytes) (keep : Bool) :
    (thiz.setText text keep).Searching path d (if keep then h else []) text := by
  cases keep with
  | true =>
      exact ⟨closed.trieOpen, closed.root, closed.finalized, closed.lastNode, ⟨text, rfl, rfl⟩,
        (Nat.zero_add _).trans closed.basePosition, closed.wm⟩
  | false =>
      exact ⟨closed.trieOpen, closed.root, closed.finalized, closed.root, ⟨text, rfl, rfl⟩, rfl,
        closed.wm⟩

theorem Closed.idle (closed : thiz.Closed path d h) : thiz.Idle path d h :=
  ⟨closed.trieOpen, closed.root, closed.finalized, closed.lastNode, closed.wm⟩

theorem Searching.idle {rest : Bytes} (searching : thiz.Searching path d h rest) :
    thiz.Idle path d h :=
  ⟨searching.trieOpen, searching.root, searching.finalized, searching.lastNode, searching.wm⟩

end AcTrie

end Multifast

namespace AhoCorasickPlus

open Multifast LongestSuffix

variable {ac : AhoCorasickPlus} {path : Nat → Bytes} {d : Dictionary}

theorem addPattern_spec (rep : ac.automata.Represents true d) (pattern : Bytes) (id : PatternId) :
    ∃ ac', ac.addPattern pattern id =
        (.ofStatus (d.insert ⟨pattern, id.toNat⟩).1, ac') ∧
      ac'.automata.Represents true (d.insert ⟨pattern, id.toNat⟩).2 ∧
      ((d.insert ⟨pattern, id.toNat⟩).1 ≠ .success → ac' = ac) := by
  cases rep with
  | opened h =>
      obtain ⟨status, ⟨path', opened⟩, unchanged⟩ := h.add_spec ⟨pattern, id.toNat⟩
      refine ⟨_, ?_, .opened opened, fun failed => congrArg AhoCorasickPlus.mk (unchanged failed)⟩
      rw [← status]
      rfl

theorem addPattern_of_closed (rep : ac.automata.Represents false d) (pattern : Bytes)
    (id : PatternId) : ac.addPattern pattern id = (.automataClosed, ac) := by
  rw [addPattern, AcTrie.add_of_closed rep.trieOpen_eq]
  rfl

theorem finalize_spec {accepting : Bool} (rep : ac.automata.Represents accepting d) :
    ∃ ac', ac.finalize = .ok ac' ∧ ac'.automata.Represents false d := by
  obtain ⟨automata, ran, closed⟩ := rep.finalize_spec
  refine ⟨⟨automata⟩, ?_, closed⟩
  rw [finalize]
  exact bind_of_ok ran _

/-- The numbers `findAll` collects from the matches. -/
def reportedIds (ms : List AcMatch) : List Int :=
  ms.flatMap fun m => m.patterns.map fun p => toInt p.id

theorem reportedIds_append (ms more : List AcMatch) :
    reportedIds (ms ++ more) = reportedIds ms ++ reportedIds more := List.flatMap_append

theorem mem_reportedIds {ms : List AcMatch} {n : Int} :
    n ∈ reportedIds ms ↔ ∃ q, (∃ m ∈ ms, q ∈ m.patterns) ∧ toInt q.id = n := by
  simp only [reportedIds, List.mem_flatMap, List.mem_map]
  constructor
  · rintro ⟨m, hm, q, hq, id⟩
    exact ⟨q, ⟨m, hm, hq⟩, id⟩
  · rintro ⟨q, ⟨m, hm, hq⟩, id⟩
    exact ⟨m, hm, q, hq, id⟩

/-- The loop of `findAll` keeps the numbers of the matches and drops their positions. -/
theorem findAllLoop_eq (fuel : Nat) (thiz : AcTrie) :
    findAllLoop fuel thiz =
      (thiz.findNextLoop fuel).map fun found => (reportedIds found.1, found.2) := by
  induction fuel generalizing thiz with
  | zero => rfl
  | succ fuel ih =>
      rw [findAllLoop, AcTrie.findNextLoop]
      cases thiz.findNext with
      | error fault => rfl
      | ok found =>
          obtain ⟨m, thiz'⟩ := found
          simp only [bind, Except.bind, ih]
          split
          · rfl
          · cases AcTrie.findNextLoop fuel thiz' <;> rfl

theorem findAllLoop_spec {thiz : AcTrie} {h rest : Bytes}
    (searching : thiz.Searching path d h rest) {fuel : Nat} (enough : rest.length < fuel) :
    ∃ thiz', findAllLoop fuel thiz = .ok (reportedIds (thiz.nodes.reports h rest), thiz') ∧
      thiz'.Closed path d (h ++ rest) ∧ thiz'.nodes = thiz.nodes := by
  obtain ⟨text, loaded, unread⟩ := searching.text
  have read := searching.read
  obtain ⟨thiz', ran, idle, nodes, base⟩ :=
    searching.idle.findNextLoop_spec loaded unread enough
  have same : AcMatch.shift h.length h.length = id := funext (AcMatch.shift_self h.length)
  rw [read, same, List.map_id] at ran
  have reached : thiz'.basePosition = (h ++ rest).length := by
    rw [base, List.length_append, ← read]
    omega
  refine ⟨thiz', ?_, ⟨idle.trieOpen, idle.root, idle.finalized, idle.lastNode, reached, idle.wm⟩,
    nodes⟩
  rw [findAllLoop_eq, ran]
  rfl

theorem findAll_of_closed {ac : AhoCorasickPlus} {h : Bytes} (closed : ac.automata.Closed path d h)
    (text : Bytes) (keep : Bool) :
    ∃ ac', ac.findAll text keep =
        .ok (reportedIds (ac.automata.nodes.reports (if keep then h else []) text), ac') ∧
      ac'.automata.Closed path d ((if keep then h else []) ++ text) ∧
      ac'.automata.nodes = ac.automata.nodes := by
  have searching := closed.setText_spec text keep
  obtain ⟨thiz', ran, closed', nodes⟩ := findAllLoop_spec searching (Nat.lt_succ_self _)
  rw [AcTrie.setText_nodes] at ran nodes
  refine ⟨⟨thiz'⟩, ?_, closed', nodes⟩
  rw [findAll]
  exact bind_of_ok ran _

theorem findAll_of_open (h : ac.automata.Open path d) (text : Bytes) (keep : Bool) :
    ∃ ac', ac.findAll text keep = .ok ([], ac') ∧ ac'.automata.Open path d := by
  let automata := ac.automata.setText text keep
  have opened : automata.Open path d := by
    cases keep with
    | true => exact ⟨h.trieOpen, h.root, h.raw, h.lastNode, h.basePosition, h.wm⟩
    | false => exact ⟨h.trieOpen, h.root, h.raw, h.root, rfl, h.wm⟩
  have nothing : automata.findNext = .ok (⟨[], 0⟩, { automata with wm := .search }) := by
    simp only [AcTrie.findNext, AcTrie.search, opened.trieOpen, if_true]
    rfl
  refine ⟨⟨{ automata with wm := .search }⟩, ?_,
    ⟨opened.trieOpen, opened.root, opened.raw, opened.lastNode, opened.basePosition, rfl⟩⟩
  have ended : findAllLoop (text.length + 1) automata =
      .ok ([], { automata with wm := .search }) := by
    rw [findAllLoop]
    exact bind_of_ok nothing _
  rw [findAll]
  exact bind_of_ok ended _

/-- A text that does not continue an earlier one: the numbers found are those of
the entries that occur in it. -/
theorem findAll_spec {accepting : Bool} (rep : ac.automata.Represents accepting d) (text : Bytes) :
    ∃ ids ac', ac.findAll text false = .ok (ids, ac') ∧
      ac'.automata.Represents accepting d ∧
      ∀ n, n ∈ ids ↔ accepting = false ∧ ∃ q ∈ d.entries, q.ptext <:+: text ∧ toInt q.id = n := by
  cases rep with
  | opened h =>
      obtain ⟨ac', ran, opened⟩ := findAll_of_open h text false
      exact ⟨[], ac', ran, .opened opened, by simp⟩
  | closed closed =>
      obtain ⟨ac', ran, closed', _⟩ := findAll_of_closed closed text false
      refine ⟨_, ac', ran, .closed closed', ?_⟩
      intro n
      rw [mem_reportedIds]
      constructor
      · rintro ⟨q, reported, id⟩
        obtain ⟨entry, ends⟩ := (closed.finalized.mem_reports _ _ q).mp reported
        exact ⟨rfl, q, entry, (infix_iff_exists_take _ _ (d.nonempty q entry)).mpr ends, id⟩
      · rintro ⟨_, q, entry, inside, id⟩
        have ends := (infix_iff_exists_take _ _ (d.nonempty q entry)).mp inside
        exact ⟨q, (closed.finalized.mem_reports _ _ q).mpr ⟨entry, ends⟩, id⟩

end AhoCorasickPlus
