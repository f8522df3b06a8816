import Paraglob.Multifast.Automaton

/-!
# The prefix array

`ac_trie_finalize` keeps the string on the path of the current node in a local
array of `AC_PATTRN_MAX_LENGTH` characters. The functions below are those of the
first traversal, with two additions that no result depends on: a cell remembers
the edge whose letter was written to it, and every access is recorded. Erasing
the additions gives the traversal itself. What is recorded shows that every access
is inside the array, and that every cell that is read was written for the path of
the node whose failure node is sought.
-/

namespace Multifast

open LongestSuffix

/-- The prefix array with the edges its letters come from. -/
abbrev EdgeBuffer := List (Option ActEdge)

/-- An access to the prefix array: the node the traversal stands on, the index, and the edge
whose letter is written or had been written to the cell. -/
inductive Access where
  | write (node index : Nat) (edge : ActEdge)
  | read (node index : Nat) (edge : ActEdge)
deriving DecidableEq

def Access.index : Access → Nat
  | .write _ index _ => index
  | .read _ index _ => index

namespace EdgeBuffer

def declared : EdgeBuffer := List.replicate acPatternMaxLength none

def write (buffer : EdgeBuffer) (i : Nat) (edge : ActEdge) : Except Fault EdgeBuffer :=
  if i < buffer.length then .ok (buffer.set i (some edge)) else .error .outOfBounds

def read (buffer : EdgeBuffer) (j : Nat) : Except Fault ActEdge :=
  match buffer[j]? with
  | some (some edge) => .ok edge
  | _ => .error .outOfBounds

def letters (buffer : EdgeBuffer) : PrefixBuffer := buffer.map (Option.map ActEdge.alpha)

end EdgeBuffer

namespace Mpool

/-- `suffixNode` for the current node `node`, with the accesses. -/
def tracedSuffixNode (mp : Mpool) (buffer : EdgeBuffer) (node depth j n : Nat) :
    Except Fault (Option Nat × List Access) :=
  if j < depth then do
    let edge ← buffer.read j
    match (mp.node n).findNext edge.alpha with
    | none => .ok (none, [.read node j edge])
    | some next => do
        let (found, accesses) ← mp.tracedSuffixNode buffer node depth (j + 1) next
        .ok (found, .read node j edge :: accesses)
  else
    .ok (some n, [])
termination_by depth - j

/-- `failureLoop` for the current node `node`, with the accesses. -/
def tracedFailureLoop (mp : Mpool) (root : Nat) (buffer : EdgeBuffer) (node depth i : Nat) :
    Except Fault (Option Nat × List Access) :=
  if i < depth then do
    match ← mp.tracedSuffixNode buffer node depth i root with
    | (some n, accesses) => .ok (some n, accesses)
    | (none, accesses) => do
        let (found, more) ← mp.tracedFailureLoop root buffer node depth (i + 1)
        .ok (found, accesses ++ more)
  else
    .ok (none, [])
termination_by depth - i

/-- `setFailure` with the accesses. -/
def tracedSetFailure (root node : Nat) (mp : Mpool) (buffer : EdgeBuffer) :
    Except Fault (Mpool × List Access) :=
  if node = root then .ok (mp, [])
  else do
    match ← mp.tracedFailureLoop root buffer node (mp.node node).depth 1 with
    | (some n, accesses) =>
        .ok (mp.update node fun x => { x with failureNode := some n }, accesses)
    | (none, accesses) =>
        .ok (mp.update node fun x =>
          if x.failureNode.isNone then { x with failureNode := some root } else x, accesses)

end Mpool

/-- The store of the traversal that records its accesses. -/
structure Traced where
  nodes : Mpool
  buffer : EdgeBuffer
  accesses : List Access

/-- The store without what is recorded. -/
def Traced.erase (s : Traced) : Mpool × PrefixBuffer := (s.nodes, s.buffer.letters)

namespace Mpool

/-- `setFailureWalk` with the accesses. -/
def tracedWalk (root : Nat) : DepthFirst.Walk Traced Nat ActEdge Fault where
  edges s n := (s.nodes.node n).outgoing
  target := ActEdge.next
  visit n s := do
    let (nodes, accesses) ← tracedSetFailure root n s.nodes s.buffer
    .ok { s with nodes, accesses := s.accesses ++ accesses }
  follow n e s := do
    let buffer ← s.buffer.write (s.nodes.node n).depth e
    .ok { s with buffer, accesses := s.accesses ++ [.write n (s.nodes.node n).depth e] }
  exhausted := .outOfFuel

end Mpool

/-- `ac_trie_finalize` with the accesses to its prefix array. -/
def AcTrie.tracedFinalize (thiz : AcTrie) : Except Fault (AcTrie × List Access) := do
  let traced ← (Mpool.tracedWalk thiz.root).run (thiz.nodes.length + 1) thiz.root
    ⟨thiz.nodes, .declared, []⟩
  let nodes ← Mpool.traverseAction Mpool.nodeCollectMatches (traced.nodes.length + 1) thiz.root
    traced.nodes
  .ok ({ thiz with nodes, trieOpen := false }, traced.accesses)

namespace EdgeBuffer

variable {buffer : EdgeBuffer}

theorem letters_declared : declared.letters = PrefixBuffer.declared := List.map_replicate

theorem letters_write (buffer : EdgeBuffer) (i : Nat) (edge : ActEdge) :
    letters <$> buffer.write i edge = buffer.letters.write i edge.alpha := by
  rw [EdgeBuffer.write, PrefixBuffer.write, letters, List.length_map]
  split
  · exact congrArg Except.ok (List.map_set)
  · rfl

theorem letters_read (buffer : EdgeBuffer) (j : Nat) :
    ActEdge.alpha <$> buffer.read j = buffer.letters.read j := by
  rw [EdgeBuffer.read, PrefixBuffer.read, letters, List.getElem?_map]
  cases buffer[j]? with
  | none => rfl
  | some cell => cases cell <;> rfl

end EdgeBuffer

namespace Mpool

theorem tracedSuffixNode_erase (mp : Mpool) (buffer : EdgeBuffer) (node depth j n : Nat) :
    Prod.fst <$> mp.tracedSuffixNode buffer node depth j n =
      mp.suffixNode buffer.letters depth j n := by
  induction remaining : depth - j generalizing j n with
  | zero =>
      have done : ¬ j < depth := by omega
      rw [tracedSuffixNode, suffixNode, if_neg done, if_neg done]
      rfl
  | succ remaining ih =>
      have more : j < depth := by omega
      rw [tracedSuffixNode, suffixNode, if_pos more, if_pos more, ← buffer.letters_read,
        bind_map_left, map_bind]
      apply bind_congr
      intro edge
      cases (mp.node n).findNext edge.alpha with
      | none => rfl
      | some next =>
          have rest := ih (j + 1) next (by omega)
          dsimp only
          rw [← rest]
          cases mp.tracedSuffixNode buffer node depth (j + 1) next <;> rfl

theorem tracedFailureLoop_erase (mp : Mpool) (root : Nat) (buffer : EdgeBuffer)
    (node depth i : Nat) :
    Prod.fst <$> mp.tracedFailureLoop root buffer node depth i =
      mp.failureLoop root buffer.letters depth i := by
  induction remaining : depth - i generalizing i with
  | zero =>
      have done : ¬ i < depth := by omega
      rw [tracedFailureLoop, failureLoop, if_neg done, if_neg done]
      rfl
  | succ remaining ih =>
      have more : i < depth := by omega
      have rest := ih (i + 1) (by omega)
      rw [tracedFailureLoop, failureLoop, if_pos more, if_pos more,
        ← mp.tracedSuffixNode_erase buffer node, bind_map_left, map_bind]
      apply bind_congr
      rintro ⟨found, accesses⟩
      cases found with
      | some n => rfl
      | none =>
          dsimp only
          rw [← rest]
          cases mp.tracedFailureLoop root buffer node depth (i + 1) <;> rfl

theorem tracedSetFailure_erase (root node : Nat) (mp : Mpool) (buffer : EdgeBuffer) :
    Prod.fst <$> tracedSetFailure root node mp buffer = setFailure root node mp buffer.letters := by
  rw [tracedSetFailure, setFailure]
  split
  · rfl
  · rw [← mp.tracedFailureLoop_erase root buffer node, bind_map_left, map_bind]
    apply bind_congr
    rintro ⟨found, accesses⟩
    cases found <;> rfl

theorem tracedWalk_erases (root : Nat) : (tracedWalk root).Erases (setFailureWalk root) Traced.erase where
  edges _ _ := rfl
  target _ := rfl
  visit n s := by
    change Traced.erase <$> (tracedSetFailure root n s.nodes s.buffer >>= _) =
      setFailure root n s.nodes s.buffer.letters >>= _
    rw [← tracedSetFailure_erase, bind_map_left, map_bind]
    rfl
  follow n e s := by
    change Traced.erase <$> (s.buffer.write (s.nodes.node n).depth e >>= _) =
      s.buffer.letters.write (s.nodes.node n).depth e.alpha >>= _
    rw [← s.buffer.letters_write, bind_map_left, map_bind]
    rfl
  exhausted := rfl

end Mpool

/-- Erasing the accesses of `ac_trie_finalize` leaves what it does. -/
theorem AcTrie.tracedFinalize_erase (thiz : AcTrie) :
    Prod.fst <$> thiz.tracedFinalize = thiz.finalize := by
  have ran := (Mpool.tracedWalk_erases thiz.root).run (thiz.nodes.length + 1) thiz.root
    ⟨thiz.nodes, .declared, []⟩
  rw [Traced.erase, EdgeBuffer.letters_declared] at ran
  rw [tracedFinalize, finalize, Mpool.traverseSetFailure, ← ran, bind_map_left, map_bind]
  apply bind_congr
  intro traced
  rw [map_bind]
  rfl

/-- All accesses are reads for the current node in front of its depth, with the edges that are in
the cells. -/
def EdgeBuffer.Explains (buffer : EdgeBuffer) (node depth : Nat) (accesses : List Access) : Prop :=
  ∀ access ∈ accesses, ∃ j < depth, ∃ edge, access = .read node j edge ∧
    buffer[j]? = some (some edge)

namespace EdgeBuffer

variable {buffer : EdgeBuffer} {node depth j : Nat} {edge : ActEdge} {accesses more : List Access}

theorem getElem?_of_read (ran : buffer.read j = .ok edge) : buffer[j]? = some (some edge) := by
  rw [read] at ran
  split at ran
  · rename_i found
    rw [found, Except.ok.inj ran]
  · cases ran

theorem Explains.nil : buffer.Explains node depth [] := fun _ mem => absurd mem List.not_mem_nil

theorem Explains.cons (within : j < depth) (ran : buffer.read j = .ok edge)
    (rest : buffer.Explains node depth accesses) :
    buffer.Explains node depth (.read node j edge :: accesses) := by
  intro access mem
  cases List.mem_cons.mp mem with
  | inl here => exact ⟨j, within, edge, here, getElem?_of_read ran⟩
  | inr later => exact rest access later

theorem Explains.append (first : buffer.Explains node depth accesses)
    (second : buffer.Explains node depth more) :
    buffer.Explains node depth (accesses ++ more) := by
  intro access mem
  exact (List.mem_append.mp mem).elim (first access) (second access)

end EdgeBuffer

namespace Mpool

variable {mp mp' : Mpool} {buffer : EdgeBuffer} {root node depth n i j : Nat}
variable {found : Option Nat} {accesses : List Access}

theorem tracedSuffixNode_explains
    (ran : mp.tracedSuffixNode buffer node depth j n = .ok (found, accesses)) :
    buffer.Explains node depth accesses := by
  induction remaining : depth - j generalizing j n accesses with
  | zero =>
      rw [tracedSuffixNode, if_neg (by omega)] at ran
      obtain ⟨_, rfl⟩ := Prod.mk.inj (Except.ok.inj ran)
      exact .nil
  | succ remaining ih =>
      have more : j < depth := by omega
      rw [tracedSuffixNode, if_pos more] at ran
      obtain ⟨edge, read, ran⟩ := exists_of_bind_eq_ok ran
      cases step : (mp.node n).findNext edge.alpha with
      | none =>
          rw [step] at ran
          obtain ⟨_, rfl⟩ := Prod.mk.inj (Except.ok.inj ran)
          exact .cons more read .nil
      | some next =>
          rw [step] at ran
          obtain ⟨⟨found', later⟩, ran', ended⟩ := exists_of_bind_eq_ok ran
          obtain ⟨rfl, rfl⟩ := Prod.mk.inj (Except.ok.inj ended)
          exact .cons more read (ih ran' (by omega))

theorem tracedFailureLoop_explains
    (ran : mp.tracedFailureLoop root buffer node depth i = .ok (found, accesses)) :
    buffer.Explains node depth accesses := by
  induction remaining : depth - i generalizing i accesses with
  | zero =>
      rw [tracedFailureLoop, if_neg (by omega)] at ran
      obtain ⟨_, rfl⟩ := Prod.mk.inj (Except.ok.inj ran)
      exact .nil
  | succ remaining ih =>
      rw [tracedFailureLoop, if_pos (by omega)] at ran
      obtain ⟨⟨reached, first⟩, inner, ran⟩ := exists_of_bind_eq_ok ran
      have reads := tracedSuffixNode_explains inner
      cases reached with
      | some n =>
          obtain ⟨_, rfl⟩ := Prod.mk.inj (Except.ok.inj ran)
          exact reads
      | none =>
          obtain ⟨⟨found', later⟩, ran', ended⟩ := exists_of_bind_eq_ok ran
          obtain ⟨rfl, rfl⟩ := Prod.mk.inj (Except.ok.inj ended)
          exact reads.append (ih ran' (by omega))

theorem tracedSetFailure_explains
    (ran : tracedSetFailure root node mp buffer = .ok (mp', accesses)) :
    buffer.Explains node (mp.node node).depth accesses := by
  rw [tracedSetFailure] at ran
  split at ran
  · obtain ⟨_, rfl⟩ := Prod.mk.inj (Except.ok.inj ran)
    exact .nil
  · obtain ⟨⟨found, reads⟩, inner, ran⟩ := exists_of_bind_eq_ok ran
    have explained := tracedFailureLoop_explains inner
    cases found with
    | none =>
        obtain ⟨_, rfl⟩ := Prod.mk.inj (Except.ok.inj ran)
        exact explained
    | some n =>
        obtain ⟨_, rfl⟩ := Prod.mk.inj (Except.ok.inj ran)
        exact explained

end Mpool

/-- The cells hold the edges on the way from the root along the string `s`. -/
structure EdgeBuffer.Follows (buffer : EdgeBuffer) (mp : Mpool) (path : Nat → Bytes) (s : Bytes) :
    Prop where
  length : buffer.length = acPatternMaxLength
  cells : ∀ k < s.length, ∃ edge, buffer[k]? = some (some edge) ∧ s[k]? = some edge.alpha ∧
    edge.next < mp.length ∧ path edge.next = s.take (k + 1)

namespace EdgeBuffer.Follows

variable {buffer : EdgeBuffer} {mp : Mpool} {path : Nat → Bytes} {s t : Bytes}

theorem declared : EdgeBuffer.declared.Follows mp path [] :=
  ⟨List.length_replicate, fun _ hk => absurd hk (Nat.not_lt_zero _)⟩

theorem of_append (h : buffer.Follows mp path (s ++ t)) : buffer.Follows mp path s := by
  refine ⟨h.length, ?_⟩
  intro k hk
  have longer : k < (s ++ t).length := by
    rw [List.length_append]
    omega
  obtain ⟨edge, cell, letter, inside, label⟩ := h.cells k longer
  rw [List.getElem?_append_left hk] at letter
  rw [List.take_append_of_le_length hk] at label
  exact ⟨edge, cell, letter, inside, label⟩

theorem holds (h : buffer.Follows mp path s) : buffer.letters.Holds s := by
  refine ⟨(List.length_map _).trans h.length, ?_⟩
  intro k hk
  obtain ⟨edge, cell, letter, _⟩ := h.cells k hk
  rw [List.getElem?_eq_getElem hk] at letter
  rw [letters, List.getElem?_map, cell, Option.some.inj letter]
  rfl

theorem write (h : buffer.Follows mp path s) {edge : ActEdge} (inside : edge.next < mp.length)
    (label : path edge.next = s ++ [edge.alpha]) (room : s.length < acPatternMaxLength) :
    ∃ buffer' : EdgeBuffer, buffer.write s.length edge = .ok buffer' ∧
      buffer'.Follows mp path (path edge.next) := by
  have within : s.length < buffer.length := h.length ▸ room
  refine ⟨buffer.set s.length (some edge), if_pos within, ?_, ?_⟩
  · rw [List.length_set, h.length]
  · rw [label]
    intro k hk
    rw [List.length_append, List.length_singleton] at hk
    by_cases last : k = s.length
    · subst last
      refine ⟨edge, List.getElem?_set_self within, List.getElem?_concat_length, inside, ?_⟩
      rw [label, List.take_of_length_le (by simp)]
    · have before : k < s.length := by omega
      obtain ⟨edge', cell, letter, inside', label'⟩ := h.cells k before
      refine ⟨edge', ?_, ?_, inside', ?_⟩
      · rw [List.getElem?_set_ne (Ne.symm last), cell]
      · rw [List.getElem?_append_left before, letter]
      · rw [label', List.take_append_of_le_length before]

end EdgeBuffer.Follows

/-- The access belongs to the path of the current node: an edge that leaves it is written in
the cell of its depth, and a cell that is read holds the edge of the path in its place. -/
def Access.OnPath (thiz : AcTrie) : Access → Prop
  | .write node index edge => ∃ s, thiz.reach s = some node ∧ index = s.length ∧
      thiz.reach (s ++ [edge.alpha]) = some edge.next
  | .read node index edge => ∃ s, thiz.reach s = some node ∧ s[index]? = some edge.alpha ∧
      thiz.reach (s.take (index + 1)) = some edge.next

namespace AcTrie

variable {thiz : AcTrie} {path : Nat → Bytes}

/-- What finalization records so far is in order. -/
def Recorded (thiz : AcTrie) (accesses : List Access) : Prop :=
  ∀ access ∈ accesses, access.index < acPatternMaxLength ∧ access.OnPath thiz

theorem Recorded.append {accesses more : List Access} (first : thiz.Recorded accesses)
    (second : thiz.Recorded more) : thiz.Recorded (accesses ++ more) := by
  intro access mem
  exact (List.mem_append.mp mem).elim (first access) (second access)

theorem recorded_reads (root : thiz.root = 0) (lab : Labelling thiz.nodes path)
    (shallow : Shallow thiz.nodes path) {node : Nat} (valid : node < thiz.nodes.length)
    {buffer : EdgeBuffer} (follows : buffer.Follows thiz.nodes path (path node))
    {accesses : List Access} (reads : buffer.Explains node (path node).length accesses) :
    thiz.Recorded accesses := by
  intro access mem
  obtain ⟨j, within, edge, rfl, cell⟩ := reads access mem
  obtain ⟨edge', cell', letter, inside, label⟩ := follows.cells j within
  obtain rfl : edge = edge' := Option.some.inj (Option.some.inj (cell.symm.trans cell'))
  refine ⟨Nat.lt_of_lt_of_le within (shallow node valid), path node, ?_, letter, ?_⟩
  · exact (reach_eq_some_iff root lab).mpr ⟨valid, rfl⟩
  · exact (reach_eq_some_iff root lab).mpr ⟨inside, label⟩

theorem tracedWalk_steps (root : thiz.root = 0) (lab : Labelling thiz.nodes path)
    (shallow : Shallow thiz.nodes path) :
    (Mpool.tracedWalk 0).Steps
      (fun s => Linking thiz.nodes s.nodes path ∧ thiz.Recorded s.accesses)
      (fun n s => n < thiz.nodes.length ∧ s.buffer.Follows thiz.nodes path (path n))
      (fun _ _ => True)
      (fun n e => n < thiz.nodes.length ∧ e ∈ (thiz.nodes.node n).outgoing)
      (fun n => thiz.nodes.length - n) where
  visit := by
    rintro n ⟨mp, buffer, accesses⟩ ⟨linking, recorded⟩ ⟨valid, follows⟩
    have valid' : n < mp.length := linking.length.symm ▸ valid
    obtain ⟨mp', ran, linking', _⟩ := linking.setFailure_spec valid' follows.holds
    rw [← Mpool.tracedSetFailure_erase] at ran
    obtain ⟨⟨nodes, reads⟩, traced, same⟩ := exists_of_map_eq_ok ran
    obtain rfl : nodes = mp' := same
    have explained := Mpool.tracedSetFailure_explains traced
    rw [linking.labelling.depth valid'] at explained
    refine ⟨⟨nodes, buffer, accesses ++ reads⟩, ?_,
      ⟨linking', recorded.append (recorded_reads root lab shallow valid follows explained)⟩,
      ⟨valid, follows⟩, trivial, fun _ done => done⟩
    exact bind_of_ok traced _
  edges := by
    rintro n ⟨mp, buffer, accesses⟩ ⟨linking, _⟩ ⟨valid, _⟩ e
    change e ∈ (mp.node n).outgoing ↔ _
    rw [linking.outgoing]
    exact (and_iff_right valid).symm
  follow := by
    rintro n e ⟨mp, buffer, accesses⟩ ⟨linking, recorded⟩ ⟨valid, follows⟩ ⟨_, he⟩
    obtain ⟨inside, _, label⟩ := lab.target valid e he
    have room : (path n).length < acPatternMaxLength := by
      have := shallow e.next inside
      rw [label, List.length_append, List.length_singleton] at this
      omega
    obtain ⟨buffer', wrote, follows'⟩ := follows.write inside label room
    have depth : (mp.node n).depth = (path n).length :=
      linking.labelling.depth (linking.length.symm ▸ valid)
    refine ⟨⟨mp, buffer', accesses ++ [.write n (path n).length e]⟩, ?_,
      ⟨linking, recorded.append ?_⟩, ⟨inside, follows'⟩, fun _ done => done⟩
    · rw [← depth] at wrote ⊢
      exact bind_of_ok wrote _
    · intro access mem
      rw [List.mem_singleton.mp mem]
      refine ⟨room, path n, ?_, rfl, ?_⟩
      · exact (reach_eq_some_iff root lab).mpr ⟨valid, rfl⟩
      · exact (reach_eq_some_iff root lab).mpr ⟨inside, label⟩
  back := by
    rintro n e ⟨mp, buffer, accesses⟩ ⟨valid, he⟩ _ ⟨_, follows⟩
    obtain ⟨_, _, label⟩ := lab.target valid e he
    exact ⟨valid, (label ▸ follows : buffer.Follows _ path (path n ++ [e.alpha])).of_append⟩
  rank := by
    rintro n e ⟨valid, he⟩
    obtain ⟨inside, below, _⟩ := lab.target valid e he
    change thiz.nodes.length - e.next < thiz.nodes.length - n
    omega

/-- The traversal of a trie that can be finalized ends with a record that is in order. -/
theorem tracedWalk_recorded (root : thiz.root = 0) {d : Dictionary}
    (closable : Closable thiz.nodes path d) :
    ∃ traced, (Mpool.tracedWalk 0).run (thiz.nodes.length + 1) 0 ⟨thiz.nodes, .declared, []⟩ =
      .ok traced ∧ thiz.Recorded traced.accesses := by
  have lab := closable.labelling
  have start : Linking thiz.nodes thiz.nodes path := ⟨lab, rfl, fun _ => rfl, closable.link⟩
  have nothing : thiz.Recorded [] := fun _ mem => absurd mem List.not_mem_nil
  have here : EdgeBuffer.declared.Follows thiz.nodes path (path 0) := lab.root ▸ .declared
  have enough : thiz.nodes.length - 0 < thiz.nodes.length + 1 := Nat.lt_succ_self _
  obtain ⟨traced, ran, ⟨_, recorded⟩, _⟩ := DepthFirst.Walk.run_complete
    (s := ⟨thiz.nodes, .declared, []⟩) (tracedWalk_steps root lab closable.shallow) enough
    ⟨start, nothing⟩ ⟨lab.pos, here⟩
  exact ⟨traced, ran, recorded⟩

theorem recorded_of_tracedFinalize (root : thiz.root = 0) {d : Dictionary}
    (closable : Closable thiz.nodes path d) {thiz' : AcTrie} {accesses : List Access}
    (returned : thiz.tracedFinalize = .ok (thiz', accesses)) : thiz.Recorded accesses := by
  obtain ⟨traced, walked, recorded⟩ := tracedWalk_recorded root closable
  rw [tracedFinalize, root] at returned
  obtain ⟨traced', ran, rest⟩ := exists_of_bind_eq_ok returned
  obtain rfl : traced = traced' := Except.ok.inj (walked.symm.trans ran)
  obtain ⟨nodes, _, ended⟩ := exists_of_bind_eq_ok rest
  obtain ⟨_, rfl⟩ := Prod.mk.inj (Except.ok.inj ended)
  exact recorded

theorem exists_accesses {thiz' : AcTrie} (ran : thiz.finalize = .ok thiz') :
    ∃ accesses, thiz.tracedFinalize = .ok (thiz', accesses) := by
  rw [← tracedFinalize_erase] at ran
  obtain ⟨⟨_, accesses⟩, returned, same⟩ := exists_of_map_eq_ok ran
  obtain rfl : _ = thiz' := same
  exact ⟨accesses, returned⟩

/-- Whatever patterns a trie was fed with, every access of `ac_trie_finalize` to its prefix
array uses an index in range, and every cell that is read holds the letter that was written for
the edge on the path from the root to the current node. -/
theorem prefix_accesses (patts : List AcPattern) :
    ∃ thiz accesses, (create.addEach patts).finalize = .ok thiz ∧
      (create.addEach patts).tracedFinalize = .ok (thiz, accesses) ∧
      ∀ access ∈ accesses, access.index < acPatternMaxLength ∧
        access.OnPath (create.addEach patts) := by
  obtain ⟨path, d, opened, _⟩ := open_create.addEach_spec patts
  obtain ⟨thiz, ran, _⟩ := opened.finalize_spec
  obtain ⟨accesses, returned⟩ := exists_accesses ran
  exact ⟨thiz, accesses, ran, returned,
    recorded_of_tracedFinalize opened.root opened.raw.closable returned⟩

/-- With the words `ab` and `b`, the failure node of `ab` is found by reading one cell, and the
first cell is written again on the way to `b`. -/
example : ((create.addEach [⟨[97, 98], 0⟩, ⟨[98], 1⟩]).tracedFinalize).toOption.map Prod.snd =
    some [.write 0 0 ⟨97, 1⟩, .write 1 1 ⟨98, 2⟩, .read 2 1 ⟨98, 2⟩, .write 0 0 ⟨98, 3⟩] := by
  decide +kernel

end AcTrie

end Multifast
