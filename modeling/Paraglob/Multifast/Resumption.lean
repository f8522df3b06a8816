import Paraglob.Multifast.Scanning

/-!
# Saved search states

Between two calls a finalized trie remembers a node and two positions. The node
stands for what was read so far, and every call goes on from it: this file
describes the three entry points `ac_trie_search`, `ac_trie_settext` and
`ac_trie_findnext` for any node that may have been saved. The positions are taken
as they are; only what they are counted from depends on them.
-/

namespace Multifast

open LongestSuffix

namespace AcTrie

/-- A callback that collects the matches and never stops the search. -/
def collect (matchp : AcMatch) (found : List AcMatch) : List AcMatch × Bool :=
  (found ++ [matchp], false)

/-- All matches `ac_trie_search` hands to its callback. -/
def searchAll (thiz : AcTrie) (text : Bytes) (keep : Bool) :
    Except Fault (List AcMatch × AcTrie) := do
  let (_, thiz, found) ← thiz.search (some text) keep collect []
  .ok (found, thiz)

/-- Call `ac_trie_findnext` until its match is empty. -/
def findNextLoop : Nat → AcTrie → Except Fault (List AcMatch × AcTrie)
  | 0, _ => .error .outOfFuel
  | fuel + 1, thiz => do
      let (matchp, thiz) ← thiz.findNext
      if matchp.size = 0 then .ok ([], thiz)
      else
        let (rest, thiz) ← findNextLoop fuel thiz
        .ok (matchp :: rest, thiz)

/-- `ac_trie_settext`, then `ac_trie_findnext` until its match is empty. -/
def findNextAll (thiz : AcTrie) (text : Bytes) (keep : Bool) :
    Except Fault (List AcMatch × AcTrie) :=
  findNextLoop (text.length + 1) (thiz.setText text keep)

theorem scan_collect (mp : Mpool) (shift : AcMatch → AcMatch) (h : Bytes) (position : Nat)
    (text : Bytes) (found : List AcMatch) :
    mp.scan (fun m => collect (shift m)) h position text found =
      .ended (position + text.length) (mp.stateAfter (h ++ text))
        (found ++ (mp.reports h text).map shift) := by
  have all := mp.scan_all (fun m found => found ++ [shift m]) h position text found
  rw [List.foldl_append_eq_append, ← List.flatMap_def, ← List.map_eq_flatMap] at all
  exact all

@[simp] theorem started_nodes (thiz : AcTrie) (keep : Bool) :
    (if keep then thiz else thiz.reset).nodes = thiz.nodes := by
  cases keep <;> rfl

@[simp] theorem setText_nodes (thiz : AcTrie) (text : Bytes) (keep : Bool) :
    (thiz.setText text keep).nodes = thiz.nodes := by
  cases keep <;> rfl

/-- A finalized trie between two calls, whose saved node has read `h`. -/
structure Idle (thiz : AcTrie) (path : Nat → Bytes) (d : Dictionary) (h : Bytes) : Prop where
  trieOpen : thiz.trieOpen = false
  root : thiz.root = 0
  finalized : Finalized thiz.nodes path d
  lastNode : thiz.lastNode = thiz.nodes.stateAfter h
  wm : thiz.wm = .search

variable {thiz : AcTrie} {path : Nat → Bytes} {d : Dictionary} {h text rest : Bytes} {σ : Type}

theorem Idle.reset (idle : thiz.Idle path d h) (keep : Bool) :
    (if keep then thiz else thiz.reset).Idle path d (if keep then h else []) := by
  cases keep with
  | true => exact idle
  | false => exact ⟨idle.trieOpen, idle.root, idle.finalized, idle.root, idle.wm⟩

theorem Idle.setText (idle : thiz.Idle path d h) (text : Bytes) (keep : Bool) :
    (thiz.setText text keep).Idle path d (if keep then h else []) := by
  obtain ⟨trieOpen, root, finalized, lastNode, wm⟩ := idle.reset keep
  exact ⟨trieOpen, root, finalized, lastNode, wm⟩

theorem Idle.enough (idle : thiz.Idle path d h) (text : Bytes) (position : Nat) :
    2 * (text.length - position) + (path (thiz.nodes.stateAfter h)).length <
      2 * text.length + thiz.nodes.length + 1 := by
  have lab := idle.finalized.labelling
  have inside := (lab.stateAfter_spec h).1
  have depth := lab.path_length_le inside
  omega

/-- `ac_trie_search` starts on the saved node, also when it resets the trie. -/
theorem Idle.search_eq (idle : thiz.Idle path d h) (text : Bytes) (keep : Bool)
    (callback : AcMatch → σ → σ × Bool) (user : σ) :
    thiz.search (some text) keep callback user =
      let started := if keep then thiz else thiz.reset
      let exit := thiz.nodes.scan (fun m => callback (m.shift h.length started.basePosition)) h 0
        text user
      match exit with
      | .broken _ _ user => .ok (1, started, user)
      | .ended position current user =>
          .ok (0, { started with
            lastNode := current, basePosition := started.basePosition + position }, user) := by
  have wm : (if keep then thiz else thiz.reset).wm = .search := by
    cases keep <;> exact idle.wm
  have ran := searchLoop_eq_scan idle.finalized (if keep then thiz else thiz.reset).basePosition
    callback user (List.drop_zero (l := text)) (idle.enough text 0)
  rw [Nat.zero_add] at ran
  rw [search, idle.trieOpen, idle.wm, idle.lastNode]
  simp only [started_nodes, ran, wm, Bool.false_eq_true, if_false, reduceCtorEq]
  rfl

theorem Idle.search_spec (idle : thiz.Idle path d h) (text : Bytes) (keep : Bool)
    (callback : AcMatch → σ → σ × Bool) (user : σ) :
    ∃ code thiz' user' h', thiz.search (some text) keep callback user = .ok (code, thiz', user') ∧
      thiz'.Idle path d h' ∧ thiz'.nodes = thiz.nodes := by
  have started := idle.reset keep
  have nodes := thiz.started_nodes keep
  rw [idle.search_eq]
  obtain ⟨consumed, position, user', exit⟩ := thiz.nodes.scan_exits
    (fun m => callback (m.shift h.length (if keep then thiz else thiz.reset).basePosition)) h 0
    text user
  cases exit with
  | inl ended =>
      simp only [ended]
      exact ⟨_, _, _, h ++ consumed, rfl,
        ⟨started.trieOpen, started.root, started.finalized, by rw [nodes], started.wm⟩, nodes⟩
  | inr broken =>
      simp only [broken]
      exact ⟨_, _, _, _, rfl, started, nodes⟩

/-- A search that is not stopped delivers what the text completes after `h`, with positions
counted from the last reset. -/
theorem Idle.searchAll_spec (idle : thiz.Idle path d h) (text : Bytes) (keep : Bool) :
    ∃ thiz', thiz.searchAll text keep =
        .ok ((thiz.nodes.reports h text).map
          (AcMatch.shift h.length (if keep then thiz.basePosition else 0)), thiz') ∧
      thiz'.Idle path d (h ++ text) ∧ thiz'.nodes = thiz.nodes := by
  have started := idle.reset keep
  have nodes := thiz.started_nodes keep
  have base : (if keep then thiz else thiz.reset).basePosition =
      if keep then thiz.basePosition else 0 := by
    cases keep <;> rfl
  have all := scan_collect thiz.nodes
    (AcMatch.shift h.length (if keep then thiz.basePosition else 0)) h 0 text []
  rw [searchAll, idle.search_eq]
  simp only [base]
  rw [all]
  exact ⟨_, rfl,
    ⟨started.trieOpen, started.root, started.finalized, by rw [nodes], started.wm⟩, nodes⟩

theorem Idle.findNext_spec (idle : thiz.Idle path d h) (loaded : thiz.text = some text)
    (unread : text.drop thiz.position = rest) :
    (thiz.nodes.reports h rest = [] ∧ ∃ thiz', thiz.findNext = .ok (⟨[], 0⟩, thiz') ∧
        thiz'.Idle path d (h ++ rest) ∧ thiz'.nodes = thiz.nodes ∧
        thiz'.basePosition = thiz.basePosition + (thiz.position + rest.length)) ∨
      ∃ consumed rest' m thiz', rest = consumed ++ rest' ∧ consumed ≠ [] ∧
        thiz.nodes.reports h rest = m :: thiz.nodes.reports (h ++ consumed) rest' ∧
        thiz.findNext = .ok (m.shift h.length (thiz.position + thiz.basePosition), thiz') ∧
        thiz'.Idle path d (h ++ consumed) ∧ thiz'.nodes = thiz.nodes ∧
        thiz'.basePosition = thiz.basePosition ∧ thiz'.text = some text ∧
        thiz'.position = thiz.position + consumed.length := by
  obtain ⟨nodes, root, count, trieOpen, lastNode, base, text', position, wm⟩ := thiz
  obtain rfl : text' = some text := loaded
  obtain rfl : trieOpen = false := idle.trieOpen
  obtain rfl : lastNode = nodes.stateAfter h := idle.lastNode
  obtain rfl : wm = .search := idle.wm
  have fin : Finalized nodes path d := idle.finalized
  have ran := searchLoop_eq_scan fin base matchHandler ⟨[], 0⟩ unread (idle.enough text position)
  obtain ⟨nothing, ended⟩ | ⟨consumed, rest', m, parts, nonempty, first, broken⟩ :=
    nodes.scan_first (AcMatch.shift h.length (position + base)) h position rest ⟨[], 0⟩
  · have ran' := ran.trans (congrArg Except.ok ended)
    let thiz' : AcTrie :=
      { nodes, root, patternsCount := count, trieOpen := false
        lastNode := nodes.stateAfter (h ++ rest), basePosition := base + (position + rest.length)
        text := some text, position, wm := .search }
    refine Or.inl ⟨nothing, thiz', ?_, ⟨rfl, idle.root, fin, rfl, rfl⟩, rfl, rfl⟩
    simp only [findNext, search, ran', Bool.false_eq_true, if_false, if_true]
    rfl
  · have ran' := ran.trans (congrArg Except.ok broken)
    let thiz' : AcTrie :=
      { nodes, root, patternsCount := count, trieOpen := false
        lastNode := nodes.stateAfter (h ++ consumed), basePosition := base
        text := some text, position := position + consumed.length, wm := .search }
    refine Or.inr ⟨consumed, rest', m, thiz', parts, nonempty, first, ?_,
      ⟨rfl, idle.root, fin, rfl, rfl⟩, rfl, rfl, rfl, rfl⟩
    simp only [findNext, search, ran', Bool.false_eq_true, if_false, if_true]
    rfl

/-- Asking until nothing more is found returns the matches of the rest of the text, one by
one. Each of them consumes a letter, so this ends. -/
theorem Idle.findNextLoop_spec (idle : thiz.Idle path d h) (loaded : thiz.text = some text)
    (unread : text.drop thiz.position = rest) {fuel : Nat} (enough : rest.length < fuel) :
    ∃ thiz', findNextLoop fuel thiz = .ok ((thiz.nodes.reports h rest).map
        (AcMatch.shift h.length (thiz.position + thiz.basePosition)), thiz') ∧
      thiz'.Idle path d (h ++ rest) ∧ thiz'.nodes = thiz.nodes ∧
      thiz'.basePosition = thiz.basePosition + (thiz.position + rest.length) := by
  induction fuel generalizing thiz h rest with
  | zero => exact absurd enough (Nat.not_lt_zero _)
  | succ fuel ih =>
      cases idle.findNext_spec loaded unread with
      | inl none =>
          obtain ⟨nothing, thiz', ran, idle', nodes, base⟩ := none
          refine ⟨thiz', ?_, idle', nodes, base⟩
          rw [findNextLoop, ran, nothing]
          rfl
      | inr some =>
          obtain ⟨consumed, rest', m, thiz', parts, nonempty, first, ran, idle', nodes, base,
            loaded', position⟩ := some
          have unread' : text.drop thiz'.position = rest' := by
            rw [position, ← List.drop_drop, unread, parts, List.drop_left]
          have progress := List.length_pos_iff.mpr nonempty
          have lengths := congrArg List.length parts
          rw [List.length_append] at lengths
          obtain ⟨thiz'', ran', idle'', nodes', base'⟩ := ih idle' loaded' unread' (by omega)
          have found : m.patterns ≠ [] := by
            apply idle.finalized.patterns_ne_nil (h := h) (t := rest)
            rw [first]
            exact List.mem_cons_self
          have counted : thiz'.position + thiz'.basePosition =
              thiz.position + thiz.basePosition + consumed.length := by
            rw [position, base]
            omega
          rw [List.length_append, counted, AcMatch.shift_add, nodes] at ran'
          refine ⟨thiz'', ?_, ?_, nodes'.trans nodes, by rw [base', base, position]; omega⟩
          · rw [findNextLoop, ran, first]
            change (if m.patterns.length = 0 then _ else _) = _
            rw [if_neg fun zero => found (List.length_eq_zero_iff.mp zero), ran']
            rfl
          · rw [parts, ← List.append_assoc]
            exact idle''

theorem Idle.findNextAll_spec (idle : thiz.Idle path d h) (text : Bytes) (keep : Bool) :
    ∃ thiz', thiz.findNextAll text keep =
        .ok ((thiz.nodes.reports (if keep then h else []) text).map
          (AcMatch.shift (if keep then h else []).length (if keep then thiz.basePosition else 0)),
          thiz') ∧
      thiz'.Idle path d ((if keep then h else []) ++ text) ∧ thiz'.nodes = thiz.nodes := by
  have loaded : (thiz.setText text keep).text = some text := rfl
  have unread : text.drop (thiz.setText text keep).position = text := List.drop_zero
  obtain ⟨thiz', ran, idle', nodes, _⟩ :=
    (idle.setText text keep).findNextLoop_spec loaded unread (Nat.lt_succ_self _)
  have counted : (thiz.setText text keep).position + (thiz.setText text keep).basePosition =
      if keep then thiz.basePosition else 0 := by
    cases keep <;> exact Nat.zero_add _
  rw [setText_nodes, counted] at ran
  exact ⟨thiz', ran, idle', nodes.trans (thiz.setText_nodes text keep)⟩

end AcTrie

end Multifast
