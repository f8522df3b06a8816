import Paraglob.Multifast.Order

/-!
# Finalization

`ac_trie_finalize` first sets all failure nodes and then collects all matches.
The file composes the two traversals: from a pool that is faithful to a
dictionary they end normally, and they leave an Aho-Corasick automaton for the
same dictionary. What they ask of the pool also holds of their own result, so
finalizing twice is covered.
-/

namespace Multifast

open LongestSuffix

namespace ActNode

variable {x y : ActNode} {s : Bytes} {d : Dictionary}

/-- A node with path `s` accepts its own entry and nothing that does not end here. -/
structure Sound (d : Dictionary) (s : Bytes) (x : ActNode) : Prop where
  own : ∀ q ∈ d.entries, q.ptext = s → q ∈ x.matched ∧ x.final = true
  matched : ∀ q ∈ x.matched, q ∈ d.entries ∧ q.ptext <:+ s
  distinct : (x.matched.map AcPattern.ptext).Nodup
  final : x.final = true → ∃ q ∈ d.entries, q.ptext <:+ s

/-- A node with path `s` accepts every entry that ends here, and its edges are sorted. -/
structure Complete (d : Dictionary) (s : Bytes) (x : ActNode) : Prop where
  matched : ∀ q, q ∈ x.matched ↔ q ∈ d.entries ∧ q.ptext <:+ s
  distinct : (x.matched.map AcPattern.ptext).Nodup
  final : x.final = true ↔ ∃ q ∈ d.entries, q.ptext <:+ s
  sorted : EdgesSorted x.outgoing

theorem Complete.sound (h : Complete d s x) : Sound d s x where
  own q hq same :=
    have suffix : q.ptext <:+ s := same ▸ List.suffix_rfl
    ⟨(h.matched q).mpr ⟨hq, suffix⟩, h.final.mpr ⟨q, hq, suffix⟩⟩
  matched q hq := (h.matched q).mp hq
  distinct := h.distinct
  final := h.final.mp

theorem Complete.matched_ne_nil (h : Complete d s x) : x.final = true ↔ x.matched ≠ [] := by
  rw [h.final]
  constructor
  · rintro ⟨q, hq⟩
    exact List.ne_nil_of_mem ((h.matched q).mpr hq)
  · intro some
    obtain ⟨q, hq⟩ := List.exists_mem_of_ne_nil _ some
    exact ⟨q, (h.matched q).mp hq⟩

/-- `y` is `x` up to its matches and the order of its edges. -/
structure Rearranged (x y : ActNode) : Prop where
  depth : y.depth = x.depth
  failureNode : y.failureNode = x.failureNode
  outgoing : y.outgoing.Perm x.outgoing

theorem Rearranged.rfl : Rearranged x x := ⟨.refl _, .refl _, .refl _⟩

theorem Rearranged.trans {z : ActNode} (h : Rearranged x y) (h' : Rearranged y z) :
    Rearranged x z :=
  ⟨h'.depth.trans h.depth, h'.failureNode.trans h.failureNode, h'.outgoing.trans h.outgoing⟩

theorem Rearranged.sortEdges (h : Rearranged x y) : Rearranged x y.sortEdges :=
  ⟨h.depth, h.failureNode, y.sortEdges_perm.trans h.outgoing⟩

theorem inheritAll_rearranged (chain : List ActNode) (x : ActNode) :
    Rearranged x (inheritAll chain x) := by
  have same := inheritAll_unmatched chain x
  have depth := congrArg ActNode.depth same
  have failureNode := congrArg ActNode.failureNode same
  have outgoing := congrArg ActNode.outgoing same
  exact ⟨depth, failureNode, List.Perm.of_eq outgoing⟩

end ActNode

/-- What finalization needs: a pool that knows its dictionary and holds nothing
wrong. It allows failure nodes that are set and matches that were inherited. -/
structure Closable (mp : Mpool) (path : Nat → Bytes) (d : Dictionary) : Prop where
  labelling : Labelling mp path
  shallow : Shallow mp path
  present : ∀ q ∈ d.entries, IsPath mp path q.ptext
  link : ∀ {i}, i < mp.length → (mp.node i).failureNode = none ∨ Linked mp path i
  sound : ∀ {i}, i < mp.length → (mp.node i).Sound d (path i)

/-- The automaton that finalization produces. -/
structure Finalized (mp : Mpool) (path : Nat → Bytes) (d : Dictionary) : Prop where
  labelling : Labelling mp path
  shallow : Shallow mp path
  present : ∀ q ∈ d.entries, IsPath mp path q.ptext
  links : Links mp path
  complete : ∀ {i}, i < mp.length → (mp.node i).Complete d (path i)

variable {mp mp₀ : Mpool} {path : Nat → Bytes} {d : Dictionary} {nod : Nat}

theorem Raw.closable (raw : Raw mp path d) : Closable mp path d where
  labelling := raw.labelling
  shallow _ hi := raw.shallow hi
  present := raw.present
  link hi := Or.inl (raw.failure hi)
  sound := by
    intro i hi
    have members : ∀ q, q ∈ (mp.node i).matched ↔ q ∈ d.entries ∧ q.ptext = path i := by
      intro q
      rw [raw.matched hi, List.mem_filter, decide_eq_true_eq]
    constructor
    · intro q hq same
      exact ⟨(members q).mpr ⟨hq, same⟩, (raw.final hi).mpr ⟨q, hq, same⟩⟩
    · intro q hq
      obtain ⟨entry, same⟩ := (members q).mp hq
      exact ⟨entry, same ▸ List.suffix_rfl⟩
    · rw [raw.matched hi]
      exact d.distinct.sublist (List.filter_sublist.map _)
    · intro final
      obtain ⟨q, hq, same⟩ := (raw.final hi).mp final
      exact ⟨q, hq, same ▸ List.suffix_rfl⟩

theorem Raw.ranked (raw : Raw mp path d) : Ranked mp path d := by
  intro i hi
  have own : (mp.node i).matched = (d.find (path i)).toList := by
    rw [raw.matched hi]
    exact d.filter_eq_find (path i)
  constructor
  · rw [own]
  · rw [own, d.ending_eq_find_append]
    exact List.prefix_append _ _

theorem Finalized.closable (fin : Finalized mp path d) : Closable mp path d where
  labelling := fin.labelling
  shallow := fin.shallow
  present := fin.present
  link := by
    intro i hi
    by_cases root : i = 0
    · exact Or.inl (root ▸ fin.links.root)
    · exact Or.inr (fin.links.linked hi root)
  sound hi := (fin.complete hi).sound

theorem Labelling.below_root (lab : Labelling mp path) {σ : Type}
    (walk : DepthFirst.Walk σ Nat ActEdge Fault) (target : walk.target = ActEdge.next) {i : Nat}
    (valid : i < mp.length) :
    walk.Below (fun n e => n < mp.length ∧ e ∈ (mp.node n).outgoing) 0 i := by
  induction i using Nat.strongRecOn with
  | ind i ih =>
      by_cases root : i = 0
      · exact root ▸ Relation.ReflTransGen.refl
      · obtain ⟨j, hj, e, he, next, below, _⟩ := lab.exists_parent valid root
        exact (ih j below hj).tail ⟨e, ⟨hj, he⟩, by rw [target, next]⟩

theorem Closable.of_linking (closable : Closable mp₀ path d) (linking : Linking mp₀ mp path) :
    Closable mp path d where
  labelling := linking.labelling
  shallow i hi := closable.shallow i (linking.length ▸ hi)
  present := by
    intro q hq
    obtain ⟨i, hi, label⟩ := closable.present q hq
    exact ⟨i, linking.length ▸ hi, label⟩
  link := linking.link
  sound := by
    intro i hi
    have old := closable.sound (i := i) (linking.length ▸ hi)
    have matched : (mp.node i).matched = (mp₀.node i).matched := by
      have := congrArg ActNode.matched (linking.same i)
      exact this
    have final : (mp.node i).final = (mp₀.node i).final := by
      have := congrArg ActNode.final (linking.same i)
      exact this
    exact ⟨matched ▸ final ▸ old.own, matched ▸ old.matched, matched ▸ old.distinct,
      final ▸ old.final⟩

theorem Ranked.of_linking (ranked : Ranked mp₀ path d) (linking : Linking mp₀ mp path) :
    Ranked mp path d := by
  intro i hi
  have matched : (mp.node i).matched = (mp₀.node i).matched := by
    have := congrArg ActNode.matched (linking.same i)
    exact this
  have old := ranked (i := i) (linking.length ▸ hi)
  exact ⟨matched ▸ old.own, matched ▸ old.initial⟩

/-- `ac_trie_traverse_setfailure` stays inside the prefix array and sets all
failure nodes. -/
theorem traverseSetFailure_spec (closable : Closable mp path d) :
    ∃ mp' buffer, Mpool.traverseSetFailure 0 (mp.length + 1) 0 (mp, PrefixBuffer.declared) =
        .ok (mp', buffer) ∧
      Linking mp mp' path ∧ Links mp' path := by
  have lab := closable.labelling
  have start : Linking mp mp path := ⟨lab, rfl, fun _ => rfl, closable.link⟩
  have here : 0 < mp.length ∧ PrefixBuffer.declared.Holds (path 0) :=
    ⟨lab.pos, lab.root ▸ PrefixBuffer.Holds.declared⟩
  have enough : mp.length - 0 < mp.length + 1 := Nat.lt_succ_self _
  obtain ⟨⟨mp', buffer⟩, ran, linking, _, done, _⟩ := DepthFirst.Walk.run_complete
    (s := (mp, PrefixBuffer.declared)) (setFailureWalk_steps lab closable.shallow) enough
    start here
  have linked : ∀ {i}, i < mp'.length → i = 0 ∨ Linked mp' path i := by
    intro i hi
    have old : i < mp.length := by
      rw [← linking.length]
      exact hi
    exact done i (lab.below_root _ rfl old)
  refine ⟨mp', buffer, ran, linking, ⟨?_, ?_⟩⟩
  · cases linking.link linking.labelling.pos with
    | inl none => exact none
    | inr linked => exact absurd rfl linked.1
  · intro i hi ne
    exact (linked hi).resolve_left ne

/-- The pool `mp` during the second traversal of `mp₀`. -/
structure Collecting (mp₀ mp : Mpool) (path : Nat → Bytes) (d : Dictionary) : Prop where
  length : mp.length = mp₀.length
  rearranged : ∀ i, (mp₀.node i).Rearranged (mp.node i)
  sound : ∀ {i}, i < mp.length → (mp.node i).Sound d (path i)

namespace Collecting

theorem labelling (h : Collecting mp₀ mp path d) (lab : Labelling mp₀ path) :
    Labelling mp path :=
  lab.congr h.length (fun i _ => (h.rearranged i).depth) (fun i _ => (h.rearranged i).outgoing)

theorem isPath_iff (h : Collecting mp₀ mp path d) (s : Bytes) :
    IsPath mp path s ↔ IsPath mp₀ path s := by
  rw [IsPath, IsPath, h.length]

theorem links (h : Collecting mp₀ mp path d) (links : Links mp₀ path) : Links mp path where
  root := (h.rearranged 0).failureNode.trans links.root
  linked := by
    intro i hi ne
    obtain ⟨_, f, inside, link, border⟩ := links.linked (h.length ▸ hi) ne
    have paths : IsPath mp path = IsPath mp₀ path := funext fun s => propext (h.isPath_iff s)
    exact ⟨ne, f, h.length ▸ inside, (h.rearranged i).failureNode.trans link, paths ▸ border⟩

variable {chain : List Nat}

/-- A node on the chain has entries only that end with the path of `nod` as well. -/
theorem sound_of_mem (h : Collecting mp₀ mp path d)
    (chained : IsChain mp path nod chain) {n : ActNode} (hn : n ∈ chain.map mp.node) :
    ∃ f, path f <:+ path nod ∧ n.Sound d (path f) := by
  obtain ⟨f, hf, rfl⟩ := List.mem_map.mp hn
  obtain ⟨inside, suffix, _⟩ := (chained f).mp hf
  exact ⟨f, suffix, h.sound inside⟩

/-- An entry that ends the path of `nod` makes it or a node on the chain final. -/
theorem final_own_or_chain (h : Collecting mp₀ mp path d)
    (present : ∀ q ∈ d.entries, IsPath mp₀ path q.ptext) (valid : nod < mp.length)
    (chained : IsChain mp path nod chain)
    {q : AcPattern} (hq : q ∈ d.entries) (suffix : q.ptext <:+ path nod) :
    (mp.node nod).final = true ∨ ∃ n ∈ chain.map mp.node, n.final = true := by
  obtain ⟨f, hf, label⟩ := (h.isPath_iff _).mpr (present q hq)
  by_cases same : q.ptext = path nod
  · exact Or.inl ((h.sound valid).own q hq same).2
  · rw [← label] at same suffix
    exact Or.inr ⟨mp.node f, List.mem_map_of_mem ((chained f).mpr ⟨hf, suffix, same⟩),
      ((h.sound hf).own q hq label.symm).2⟩

/-- Inheriting from the nodes of all proper suffixes makes a node complete. -/
theorem complete_inheritAll (h : Collecting mp₀ mp path d) (lab₀ : Labelling mp₀ path)
    (present : ∀ q ∈ d.entries, IsPath mp₀ path q.ptext) (valid : nod < mp.length)
    (chained : IsChain mp path nod chain)
    (listed : (ActNode.inheritAll (chain.map mp.node) (mp.node nod)).matched =
      d.ending (path nod)) :
    (ActNode.inheritAll (chain.map mp.node) (mp.node nod)).sortEdges.Complete d (path nod) := by
  constructor
  · intro q
    change q ∈ (ActNode.inheritAll (chain.map mp.node) (mp.node nod)).matched ↔ _
    rw [listed, d.mem_ending]
  · change ((ActNode.inheritAll (chain.map mp.node) (mp.node nod)).matched.map _).Nodup
    rw [listed]
    exact d.nodup_ending (path nod)
  · change (ActNode.inheritAll (chain.map mp.node) (mp.node nod)).final = true ↔ _
    rw [ActNode.inheritAll_final]
    constructor
    · rintro (final | ⟨n, hn, final⟩)
      · exact (h.sound valid).final final
      · obtain ⟨f, suffix, sound⟩ := h.sound_of_mem chained hn
        obtain ⟨q, entry, ends⟩ := sound.final final
        exact ⟨q, entry, ends.trans suffix⟩
    · rintro ⟨q, hq, suffix⟩
      exact h.final_own_or_chain present valid chained hq suffix
  · apply ActNode.sortEdges_sorted
    have edges := (ActNode.inheritAll_rearranged (chain.map mp.node) (mp.node nod)).outgoing
    exact (edges.map ActEdge.alpha).nodup_iff.mpr ((h.labelling lab₀).letters valid)

theorem nodeCollectMatches_spec (h : Collecting mp₀ mp path d) (ranked : Ranked mp path d)
    (lab₀ : Labelling mp₀ path) (links₀ : Links mp₀ path)
    (present : ∀ q ∈ d.entries, IsPath mp₀ path q.ptext) (valid : nod < mp.length) :
    ∃ mp', Mpool.nodeCollectMatches nod mp = .ok mp' ∧ Collecting mp₀ mp' path d ∧
      (mp'.node nod).Complete d (path nod) ∧ (mp'.node nod).matched = d.ending (path nod) ∧
      ∀ i, i ≠ nod → mp'.node i = mp.node i := by
  have lab := h.labelling lab₀
  have enough : (path nod).length < mp.length :=
    Nat.lt_of_le_of_lt (lab.path_length_le valid) valid
  obtain ⟨chain, ran, failures⟩ := Mpool.collectLoop_spec lab (h.links links₀) valid
    (Nat.le_refl _) mp.length enough id (fun _ => rfl)
  have listed : (ActNode.inheritAll (chain.map mp.node) (mp.node nod)).matched =
      d.ending (path nod) :=
    failures.inheritAll_matched lab.root ranked
      (fun q hq => (h.isPath_iff _).mpr (present q hq)) (d.ending_eq_find_append _)
      (ranked valid).own (ranked valid).initial
  have complete := h.complete_inheritAll lab₀ present valid (failures.isChain lab) listed
  let mp' := mp.update nod fun x => (ActNode.inheritAll (chain.map mp.node) x).sortEdges
  have self : mp'.node nod = (ActNode.inheritAll (chain.map mp.node) (mp.node nod)).sortEdges :=
    Mpool.node_update_self valid _
  have other : ∀ i, i ≠ nod → mp'.node i = mp.node i := fun i ne => Mpool.node_update_ne ne _
  refine ⟨mp', ?_, ⟨?_, ?_, ?_⟩, self ▸ complete, self ▸ listed, other⟩
  · have nothing : mp.update nod id = mp := List.modify_id nod mp
    rw [nothing] at ran
    rw [Mpool.nodeCollectMatches, ran]
    change Except.ok (Mpool.update (Mpool.update _ _ _) _ _) = _
    rw [Mpool.update_update]
    rfl
  · exact (Mpool.length_update mp nod _).trans h.length
  · intro i
    by_cases same : i = nod
    · subst same
      rw [self]
      exact ((h.rearranged i).trans (ActNode.inheritAll_rearranged _ _)).sortEdges
    · rw [other i same]
      exact h.rearranged i
  · intro i hi
    by_cases same : i = nod
    · subst same
      rw [self]
      exact complete.sound
    · rw [other i same]
      exact h.sound (Mpool.length_update mp nod _ ▸ hi)

end Collecting

theorem actionWalk_steps (lab₀ : Labelling mp₀ path) (links₀ : Links mp₀ path)
    (present : ∀ q ∈ d.entries, IsPath mp₀ path q.ptext) :
    (Mpool.actionWalk Mpool.nodeCollectMatches).Steps
      (fun mp => Collecting mp₀ mp path d ∧ Ranked mp path d) (fun n mp => n < mp.length)
      (fun n mp => (mp.node n).Complete d (path n) ∧ (mp.node n).matched = d.ending (path n))
      (fun n e => n < mp₀.length ∧ e ∈ (mp₀.node n).outgoing)
      (fun n => mp₀.length - n) where
  visit := by
    rintro n mp ⟨collecting, ranked⟩ valid
    obtain ⟨mp', ran, collecting', complete, listed, others⟩ :=
      collecting.nodeCollectMatches_spec ranked lab₀ links₀ present valid
    have length : mp'.length = mp.length := collecting'.length.trans collecting.length.symm
    refine ⟨mp', ran, ⟨collecting', ?_⟩, length ▸ valid, ⟨complete, listed⟩, ?_⟩
    · intro i hi
      by_cases same : i = n
      · exact same ▸ .of_eq listed
      · exact others i same ▸ ranked (length ▸ hi)
    · intro m done
      by_cases same : m = n
      · exact same ▸ ⟨complete, listed⟩
      · exact others m same ▸ done
  edges := by
    rintro n mp ⟨collecting, _⟩ valid e
    have valid₀ : n < mp₀.length := collecting.length ▸ valid
    have same := (collecting.rearranged n).outgoing.mem_iff (a := e)
    exact ⟨fun he => ⟨valid₀, same.mp he⟩, fun he => same.mpr he.2⟩
  follow := by
    rintro n e mp ⟨collecting, ranked⟩ _ ⟨valid₀, he⟩
    obtain ⟨inside, _, _⟩ := lab₀.target valid₀ e he
    exact ⟨mp, rfl, ⟨collecting, ranked⟩, collecting.length ▸ inside, fun _ done => done⟩
  back := by
    rintro n e mp ⟨valid₀, _⟩ ⟨collecting, _⟩ _
    exact collecting.length ▸ valid₀
  rank := by
    rintro n e ⟨valid₀, he⟩
    obtain ⟨inside, below, _⟩ := lab₀.target valid₀ e he
    change mp₀.length - e.next < mp₀.length - n
    omega

/-- `ac_trie_traverse_action` with `node_collect_matches` completes every node. -/
theorem traverseAction_spec (closable : Closable mp path d) (ranked : Ranked mp path d)
    (links : Links mp path) :
    ∃ mp', Mpool.traverseAction Mpool.nodeCollectMatches (mp.length + 1) 0 mp = .ok mp' ∧
      Finalized mp' path d ∧ Listed mp' path d ∧ mp'.length = mp.length := by
  have lab := closable.labelling
  have start : Collecting mp mp path d := ⟨rfl, fun _ => .rfl, closable.sound⟩
  have enough : mp.length - 0 < mp.length + 1 := Nat.lt_succ_self _
  obtain ⟨mp', ran, ⟨collecting, _⟩, _, done, _⟩ := DepthFirst.Walk.run_complete
    (actionWalk_steps lab links closable.present) enough ⟨start, ranked⟩ lab.pos
  have finished := fun {i : Nat} (hi : i < mp'.length) =>
    done i (lab.below_root _ rfl (collecting.length ▸ hi))
  refine ⟨mp', ran, ?_, fun hi => (finished hi).2, collecting.length⟩
  constructor
  · exact collecting.labelling lab
  · intro i hi
    exact closable.shallow i (collecting.length ▸ hi)
  · intro q hq
    exact (collecting.isPath_iff _).mpr (closable.present q hq)
  · exact collecting.links links
  · intro i hi
    exact (finished hi).1

/-- `ac_trie_finalize` ends normally and produces the automaton of the dictionary. -/
theorem AcTrie.finalize_spec {thiz : AcTrie} (root : thiz.root = 0)
    (closable : Closable thiz.nodes path d) (ranked : Ranked thiz.nodes path d) :
    ∃ nodes, thiz.finalize = .ok { thiz with nodes, trieOpen := false } ∧
      Finalized nodes path d ∧ Listed nodes path d := by
  obtain ⟨nodes, buffer, linked, linking, links⟩ := traverseSetFailure_spec closable
  obtain ⟨nodes', collected, finalized, listed, _⟩ :=
    traverseAction_spec (closable.of_linking linking) (ranked.of_linking linking) links
  refine ⟨nodes', ?_, finalized, listed⟩
  rw [AcTrie.finalize, root]
  exact (bind_of_ok linked _).trans (bind_of_ok collected _)

end Multifast
