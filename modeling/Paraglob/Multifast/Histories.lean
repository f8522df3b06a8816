import Paraglob.Multifast.Occurrences

/-!
# Searches after searches

A finalized trie is searched again and again, through two entry points and with
callbacks that may stop anywhere. Every state it gets into has saved some node of
the trie. From any of them a search ends, and `ac_trie_settext` starts afresh when
it is told to. `ac_trie_search` does not: it takes the saved node before it resets
the trie, so a word may be found that began in an earlier text.
-/

namespace Multifast

open LongestSuffix

namespace AcTrie

/-- The states that searches of any kind, in any order, lead to. -/
inductive Searched (start : AcTrie) : AcTrie → Prop where
  | start : Searched start start
  | search {thiz thiz' : AcTrie} {σ : Type} {text : Bytes} {keep : Bool}
      {callback : AcMatch → σ → σ × Bool} {user user' : σ} {code : Int}
      (earlier : Searched start thiz)
      (returns : thiz.search (some text) keep callback user = .ok (code, thiz', user')) :
      Searched start thiz'
  | setText {thiz : AcTrie} (text : Bytes) (keep : Bool) (earlier : Searched start thiz) :
      Searched start (thiz.setText text keep)
  | findNext {thiz thiz' : AcTrie} {m : AcMatch} (earlier : Searched start thiz)
      (returns : thiz.findNext = .ok (m, thiz')) : Searched start thiz'

variable {start thiz : AcTrie} {path : Nat → Bytes} {d : Dictionary} {h text : Bytes}

theorem Idle.findNext_of_none (idle : thiz.Idle path d h) (missing : thiz.text = none) :
    thiz.findNext = .error .nullPointer := by
  simp only [findNext, search, idle.trieOpen, missing, Bool.false_eq_true, if_false]
  rfl

theorem Searched.idle (searched : Searched start thiz) (idle : start.Idle path d []) :
    ∃ h, thiz.Idle path d h ∧ thiz.nodes = start.nodes := by
  induction searched with
  | start => exact ⟨[], idle, rfl⟩
  | @search thiz thiz' σ text keep callback user user' code _ returns ih =>
      obtain ⟨h, idle, nodes⟩ := ih
      obtain ⟨_, _, _, h', ran, idle', nodes'⟩ := idle.search_spec text keep callback user
      obtain ⟨_, same⟩ := Prod.mk.inj (Except.ok.inj (ran.symm.trans returns))
      obtain ⟨rfl, _⟩ := Prod.mk.inj same
      exact ⟨h', idle', nodes'.trans nodes⟩
  | @setText thiz text keep _ ih =>
      obtain ⟨h, idle, nodes⟩ := ih
      exact ⟨_, idle.setText text keep, (thiz.setText_nodes text keep).trans nodes⟩
  | @findNext thiz thiz' m _ returns ih =>
      obtain ⟨h, idle, nodes⟩ := ih
      cases loaded : thiz.text with
      | none =>
          rw [idle.findNext_of_none loaded] at returns
          cases returns
      | some text =>
          cases idle.findNext_spec loaded rfl with
          | inl none =>
              obtain ⟨_, _, ran, idle', nodes', _⟩ := none
              obtain ⟨_, rfl⟩ := Prod.mk.inj (Except.ok.inj (ran.symm.trans returns))
              exact ⟨_, idle', nodes'.trans nodes⟩
          | inr some =>
              obtain ⟨_, _, _, _, _, _, _, ran, idle', nodes', _⟩ := some
              obtain ⟨_, rfl⟩ := Prod.mk.inj (Except.ok.inj (ran.symm.trans returns))
              exact ⟨_, idle', nodes'.trans nodes⟩

theorem Searched.automaton {patts : List AcPattern}
    (built : (create.addEach patts).finalize = .ok start) (searched : Searched start thiz) :
    ∃ path d h, start.Idle path d [] ∧ Listed start.nodes path d ∧
      thiz.Idle path d h ∧ Listed thiz.nodes path d ∧ d.entries = create.added patts := by
  obtain ⟨_, path, d, ran, closed, listed, entries⟩ := finalize_addEach patts
  obtain rfl := Except.ok.inj (ran.symm.trans built)
  obtain ⟨h, idle, nodes⟩ := searched.idle closed.idle
  exact ⟨path, d, h, closed.idle, listed, idle, nodes ▸ listed, entries⟩

theorem Idle.failure_depth (idle : thiz.Idle path d h) {nod : ActNode} (hn : nod ∈ thiz.nodes)
    {f : Nat} (link : nod.failureNode = some f) :
    f < thiz.nodes.length ∧ (thiz.nodes.node f).depth < nod.depth := by
  have lab := idle.finalized.labelling
  obtain ⟨n, inside, rfl⟩ := Mpool.exists_node hn
  by_cases root : n = 0
  · rw [root, idle.finalized.links.root] at link
    cases link
  · obtain ⟨_, f', inside', link', border⟩ := idle.finalized.links.linked inside root
    obtain rfl : f = f' := Option.some.inj (link.symm.trans link')
    rw [lab.depth inside, lab.depth inside']
    exact ⟨inside', border.border_length (lab.path_ne_nil inside root)⟩

/-- From every saved state of a finalized trie every search ends: failure transitions lead to
shallower nodes, and every match consumes a letter. -/
theorem searches_end {patts : List AcPattern}
    (built : (create.addEach patts).finalize = .ok start) (searched : Searched start thiz) :
    (∀ nod ∈ thiz.nodes, ∀ f, nod.failureNode = some f →
      f < thiz.nodes.length ∧ (thiz.nodes.node f).depth < nod.depth) ∧
    (∀ (σ : Type) (text : Bytes) (keep : Bool) (callback : AcMatch → σ → σ × Bool) (user : σ),
      ∃ returned, thiz.search (some text) keep callback user = .ok returned) ∧
    (∀ text, thiz.text = some text → ∃ m thiz', thiz.findNext = .ok (m, thiz') ∧
      (m.size ≠ 0 → thiz.position < thiz'.position ∧ thiz'.position ≤ text.length)) ∧
    ∀ text keep, ∃ returned, (AhoCorasickPlus.mk thiz).findAll text keep = .ok returned := by
  obtain ⟨path, d, h, _, _, idle, _⟩ := searched.automaton built
  refine ⟨fun nod hn f link => idle.failure_depth hn link, ?_, ?_, ?_⟩
  · intro σ text keep callback user
    obtain ⟨code, thiz', user', _, ran, _⟩ := idle.search_spec text keep callback user
    exact ⟨_, ran⟩
  · intro text loaded
    cases idle.findNext_spec loaded rfl with
    | inl none =>
        obtain ⟨_, thiz', ran, _⟩ := none
        exact ⟨_, thiz', ran, fun found => absurd rfl found⟩
    | inr some =>
        obtain ⟨consumed, rest, m, thiz', parts, nonempty, _, ran, _, _, _, _, position⟩ := some
        have progress := List.length_pos_iff.mpr nonempty
        have lengths := congrArg List.length parts
        rw [List.length_drop, List.length_append] at lengths
        refine ⟨_, thiz', ran, fun _ => ?_⟩
        rw [position]
        omega
  · intro text keep
    obtain ⟨thiz', ran, _⟩ := idle.findNextAll_spec text keep
    have loop := AhoCorasickPlus.findAllLoop_eq (text.length + 1) (thiz.setText text keep)
    change _ = Except.map _ (thiz.findNextAll text keep) at loop
    rw [ran] at loop
    rw [AhoCorasickPlus.findAll]
    exact ⟨_, bind_of_ok loop _⟩

/-- The search for `b` after a search for `a`, in a trie with the word `ab`. -/
theorem searches_end_ab :
    ∃ start thiz found, (create.addEach [⟨[97, 98], 0⟩]).finalize = .ok start ∧
      start.searchAll [97] true = .ok (found, thiz) ∧
      (∀ nod ∈ thiz.nodes, ∀ f, nod.failureNode = some f →
        f < thiz.nodes.length ∧ (thiz.nodes.node f).depth < nod.depth) ∧
      ∃ returned, thiz.search (some [98]) true collect [] = .ok returned := by
  obtain ⟨start, _, _, built, closed, _⟩ := finalize_addEach [⟨[97, 98], 0⟩]
  obtain ⟨code, thiz, found, _, ran, _⟩ := closed.idle.search_spec [97] true collect []
  have searched : Searched start thiz := .search .start ran
  obtain ⟨links, ends, _⟩ := searches_end built searched
  refine ⟨start, thiz, found, built, ?_, links, ends _ _ _ _ _⟩
  rw [searchAll]
  exact bind_of_ok ran _

/-- A search that is told to start afresh delivers what ends in the text behind the string of
the saved node. -/
theorem Idle.searchAll_occurrences (idle : thiz.Idle path d h) (listed : Listed thiz.nodes path d)
    (text : Bytes) :
    ∃ thiz', thiz.searchAll text false = .ok (d.occurrences h 0 text, thiz') ∧
      thiz'.Idle path d (h ++ text) ∧ thiz'.nodes = thiz.nodes := by
  obtain ⟨thiz', ran, saved⟩ := idle.searchAll_spec text false
  refine ⟨thiz', ?_, saved⟩
  rw [ran, idle.finalized.reports_eq listed, d.map_shift_occurrences]
  rfl

theorem Idle.findNextAll_occurrences (idle : thiz.Idle path d h) (listed : Listed thiz.nodes path d)
    (text : Bytes) :
    ∃ thiz', thiz.findNextAll text false = .ok (d.occurrences [] 0 text, thiz') := by
  obtain ⟨thiz', ran, _⟩ := idle.findNextAll_spec text false
  refine ⟨thiz', ?_⟩
  rw [ran, idle.finalized.reports_eq listed]
  exact congrArg (fun found => Except.ok (found, thiz')) (d.map_shift_occurrences 0)

/-- After any history `ac_trie_search` with `keep = 0` delivers the matches that
`ac_trie_settext` and `ac_trie_findnext` deliver, and that it would deliver on the new trie, if
and only if every pattern that ends in the text behind the string of the saved node ends in the
text itself. -/
theorem searchAll_eq_findNextAll_iff {patts : List AcPattern}
    (built : (create.addEach patts).finalize = .ok start) (searched : Searched start thiz)
    (text : Bytes) :
    ∃ s found found' thiz₁ thiz₂ thiz₃, thiz.reach s = some thiz.lastNode ∧
      thiz.searchAll text false = .ok (found, thiz₁) ∧
      thiz.findNextAll text false = .ok (found', thiz₂) ∧
      start.searchAll text false = .ok (found', thiz₃) ∧
      (found = found' ↔ ∀ q ∈ create.added patts, ∀ i < text.length,
        q.ptext <:+ s ++ text.take (i + 1) → q.ptext <:+ text.take (i + 1)) := by
  obtain ⟨path, d, h, new, listed, idle, listed', entries⟩ := searched.automaton built
  obtain ⟨s, saved, idle'⟩ := idle.lastNode_spec
  obtain ⟨thiz₁, first, _⟩ := idle'.searchAll_occurrences listed' text
  obtain ⟨thiz₂, second⟩ := idle'.findNextAll_occurrences listed' text
  obtain ⟨thiz₃, fresh, _⟩ := new.searchAll_occurrences listed text
  refine ⟨s, _, _, thiz₁, thiz₂, thiz₃, saved, first, second, fresh, ?_⟩
  rw [d.occurrences_eq_iff, entries]

/-- After a search for `a` in a trie with the word `ab`, the text `ab` is searched alike. -/
theorem searchAll_eq_findNextAll_ab :
    ∃ start none thiz found thiz₁ thiz₂, (create.addEach [⟨[97, 98], 0⟩]).finalize = .ok start ∧
      start.searchAll [97] false = .ok (none, thiz) ∧
      thiz.searchAll [97, 98] false = .ok (found, thiz₁) ∧
      thiz.findNextAll [97, 98] false = .ok (found, thiz₂) := by
  obtain ⟨start, _, _, built, closed, _⟩ := finalize_addEach [⟨[97, 98], 0⟩]
  obtain ⟨code, thiz, none, _, ran, _⟩ := closed.idle.search_spec [97] false collect []
  have searched : Searched start thiz := .search .start ran
  obtain ⟨s, found, found', thiz₁, thiz₂, _, _, first, second, _, same⟩ :=
    searchAll_eq_findNextAll_iff built searched [97, 98]
  have added : create.added [⟨[97, 98], 0⟩] = [⟨[97, 98], 0⟩] := by decide +kernel
  rw [added] at same
  obtain rfl : found = found' := by
    apply same.mpr
    intro q hq i hi suffix
    rw [List.mem_singleton.mp hq] at suffix ⊢
    cases i with
    | zero =>
        obtain ⟨t, ends⟩ := suffix
        have last := congrArg List.getLast? ends
        simp at last
    | succ i =>
        obtain rfl : i = 0 := by
          rw [List.length_cons, List.length_singleton] at hi
          omega
        exact List.suffix_refl _
  refine ⟨start, none, thiz, found, thiz₁, thiz₂, built, ?_, first, second⟩
  rw [searchAll]
  exact bind_of_ok ran _

/-- A search for `b` finds the word `ab` when an earlier text ended with `a`. -/
theorem searchAll_straddling_ab :
    ∃ start thiz thiz₁ thiz₂, (create.addEach [⟨[97, 98], 0⟩]).finalize = .ok start ∧
      start.searchAll [97] false = .ok ([], thiz) ∧
      thiz.searchAll [98] false = .ok ([⟨[⟨[97, 98], 0⟩], 1⟩], thiz₁) ∧
      thiz.findNextAll [98] false = .ok ([], thiz₂) := by
  obtain ⟨start, path, d, built, closed, listed, entries⟩ := finalize_addEach [⟨[97, 98], 0⟩]
  obtain ⟨thiz, ran, idle, nodes⟩ := closed.idle.searchAll_occurrences listed [97]
  have listed' : Listed thiz.nodes path d := nodes ▸ listed
  obtain ⟨thiz₁, first, _⟩ := idle.searchAll_occurrences listed' [98]
  obtain ⟨thiz₂, second⟩ := idle.findNextAll_occurrences listed' [98]
  have added : create.added [⟨[97, 98], 0⟩] = [⟨[97, 98], 0⟩] := by decide +kernel
  have find : d.find = fun w => [(⟨[97, 98], 0⟩ : AcPattern)].find? fun q => q.ptext = w := by
    funext w
    rw [Dictionary.find, entries, added]
  rw [Dictionary.occurrences] at ran first second
  simp only [Dictionary.ending, find] at ran first second
  exact ⟨start, thiz, thiz₁, thiz₂, built, ran, first, second⟩

variable {σ : Type}

/-- Hand over matches until the callback stops the search, and say whether it did. -/
def deliver (callback : AcMatch → σ → σ × Bool) : List AcMatch → σ → σ × Bool
  | [], user => (user, false)
  | m :: found, user =>
      match callback m user with
      | (user, true) => (user, true)
      | (user, false) => deliver callback found user

theorem scan_deliver (mp : Mpool) (shift : AcMatch → AcMatch)
    (callback : AcMatch → σ → σ × Bool) (h : Bytes) (position : Nat) (text : Bytes) (user : σ) :
    if (deliver callback ((mp.reports h text).map shift) user).2 then
      ∃ position' current, mp.scan (fun m => callback (shift m)) h position text user =
        .broken position' current (deliver callback ((mp.reports h text).map shift) user).1
    else mp.scan (fun m => callback (shift m)) h position text user =
      .ended (position + text.length) (mp.stateAfter (h ++ text))
        (deliver callback ((mp.reports h text).map shift) user).1 := by
  induction text generalizing h position user with
  | nil =>
      rw [List.append_nil]
      rfl
  | cons alpha text ih =>
      have later := ih (h ++ [alpha]) (position + 1)
      have letter : position + 1 + text.length = position + (alpha :: text).length := by
        rw [List.length_cons]
        omega
      rw [← List.append_cons, letter] at later
      rw [Mpool.reports, Mpool.scan]
      by_cases final : (mp.node (mp.stateAfter (h ++ [alpha]))).final
      · rw [if_pos final, if_pos final, List.map_cons, deliver]
        cases answer : callback
            (shift ⟨(mp.node (mp.stateAfter (h ++ [alpha]))).matched, h.length + 1⟩) user with
        | mk user' stop =>
            cases stop with
            | true => exact ⟨_, _, rfl⟩
            | false => exact later user'
      · rw [if_neg final, if_neg final]
        exact later user

/-- With any callback `ac_trie_search` delivers the matches that it delivers to a callback that
never stops, up to the one at which the callback stops it. A search that was stopped leaves no
trace: the trie is as it was, or as a reset leaves it. -/
theorem search_delivers {patts : List AcPattern}
    (built : (create.addEach patts).finalize = .ok start) (searched : Searched start thiz)
    (text : Bytes) (keep : Bool) (callback : AcMatch → σ → σ × Bool) (user : σ) :
    ∃ found ended, thiz.searchAll text keep = .ok (found, ended) ∧
      thiz.search (some text) keep callback user =
        if (deliver callback found user).2 then
          .ok (1, if keep then thiz else thiz.reset, (deliver callback found user).1)
        else .ok (0, ended, (deliver callback found user).1) := by
  obtain ⟨path, d, h, _, _, idle, _⟩ := searched.automaton built
  let started := if keep then thiz else thiz.reset
  let shift := AcMatch.shift h.length started.basePosition
  let found := (thiz.nodes.reports h text).map shift
  have all := scan_collect thiz.nodes shift h 0 text []
  have exit := scan_deliver thiz.nodes shift callback h 0 text user
  refine ⟨found, { started with
    lastNode := thiz.nodes.stateAfter (h ++ text)
    basePosition := started.basePosition + (0 + text.length) }, ?_, ?_⟩
  · rw [searchAll, idle.search_eq]
    dsimp only
    rw [all]
    rfl
  · rw [idle.search_eq]
    dsimp only
    by_cases stops : (deliver callback found user).2
    · rw [if_pos stops] at exit
      obtain ⟨_, _, broken⟩ := exit
      rw [broken, if_pos stops]
    · rw [if_neg stops] at exit
      rw [exit, if_neg stops]

/-- The callback counts the letters `a` and stops at the second of three. -/
theorem search_delivers_aaa :
    ∃ start, (create.addEach [⟨[97], 0⟩]).finalize = .ok start ∧
      start.search (some [97, 97, 97]) false (fun _ n => (n + 1, decide (n = 1))) 0 =
        .ok (1, start.reset, 2) := by
  obtain ⟨start, path, d, built, closed, listed, entries⟩ := finalize_addEach [⟨[97], 0⟩]
  obtain ⟨_, ran, _⟩ := closed.idle.searchAll_occurrences listed [97, 97, 97]
  obtain ⟨found, ended, all, stopped⟩ := search_delivers built .start [97, 97, 97] false
    (fun _ n => (n + 1, decide (n = 1))) 0
  have added : create.added [⟨[97], 0⟩] = [⟨[97], 0⟩] := by decide +kernel
  have find : d.find = fun w => [(⟨[97], 0⟩ : AcPattern)].find? fun q => q.ptext = w := by
    funext w
    rw [Dictionary.find, entries, added]
  rw [Dictionary.occurrences] at ran
  simp only [Dictionary.ending, find] at ran
  obtain ⟨rfl, _⟩ := Prod.mk.inj (Except.ok.inj (all.symm.trans ran))
  exact ⟨start, built, stopped⟩

end AcTrie

end Multifast
