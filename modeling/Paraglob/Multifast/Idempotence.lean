import Paraglob.Multifast.Finalization

/-!
# Finalizing twice

Nothing stops a caller from finalizing a trie again. The second pass runs over
nodes whose failure nodes are set, whose lists hold inherited patterns and whose
edges are sorted. It finds the same borders, every pattern it collects is there
already, and sorting sorted edges moves none of them. So it changes no node.
-/

namespace Multifast

open LongestSuffix

namespace ActNode

variable {x n : ActNode} {p : AcPattern}

theorem acceptPattern_of_mem (mem : p ∈ x.matched) : x.acceptPattern p = x := by
  have known : x.hasPattern p = true := List.any_eq_true.mpr ⟨p, mem, beq_self_eq_true _⟩
  rw [acceptPattern, if_pos known]

theorem foldl_acceptPattern_of_subset {ps : List AcPattern} (subset : ∀ p ∈ ps, p ∈ x.matched) :
    ps.foldl acceptPattern x = x := by
  induction ps with
  | nil => rfl
  | cons p ps ih =>
      rw [List.foldl_cons, acceptPattern_of_mem (subset p List.mem_cons_self)]
      exact ih fun q hq => subset q (List.mem_cons_of_mem p hq)

theorem inherit_of_subset (subset : ∀ p ∈ n.matched, p ∈ x.matched)
    (final : n.final = true → x.final = true) : x.inherit n = x := by
  rw [inherit, foldl_acceptPattern_of_subset subset]
  by_cases isFinal : n.final = true
  · rw [if_pos isFinal, ← final isFinal]
  · rw [if_neg isFinal]

theorem inheritAll_of_subset {chain : List ActNode}
    (subset : ∀ n ∈ chain, (∀ p ∈ n.matched, p ∈ x.matched) ∧ (n.final = true → x.final = true)) :
    inheritAll chain x = x := by
  induction chain with
  | nil => rfl
  | cons n chain ih =>
      obtain ⟨patterns, final⟩ := subset n List.mem_cons_self
      change inheritAll chain (x.inherit n) = x
      rw [inherit_of_subset patterns final]
      exact ih fun m hm => subset m (List.mem_cons_of_mem n hm)

theorem sortEdges_of_sorted (sorted : EdgesSorted x.outgoing) : x.sortEdges = x := by
  have inOrder : x.outgoing.Pairwise fun l r => 0 < edgeCompare r l :=
    sorted.imp fun less => edgeCompare_pos.mpr (Int.le_of_lt less)
  rw [sortEdges, inOrder.insertionSort_eq]

/-- A node with path `s` knows what the nodes of the suffixes of `s` know. -/
theorem Complete.subset {d : Dictionary} {s t : Bytes} (h : Complete d s x) (h' : Complete d t n)
    (suffix : t <:+ s) :
    (∀ p ∈ n.matched, p ∈ x.matched) ∧ (n.final = true → x.final = true) := by
  constructor
  · intro p hp
    obtain ⟨entry, ends⟩ := (h'.matched p).mp hp
    exact (h.matched p).mpr ⟨entry, ends.trans suffix⟩
  · intro final
    obtain ⟨q, entry, ends⟩ := h'.final.mp final
    exact h.final.mpr ⟨q, entry, ends.trans suffix⟩

end ActNode

namespace Mpool

theorem ext_node {mp mp' : Mpool} (length : mp'.length = mp.length)
    (nodes : ∀ i, i < mp.length → mp'.node i = mp.node i) : mp' = mp := by
  apply List.ext_getElem length
  intro i hi' hi
  have same := nodes i hi
  simpa [node, hi, hi'] using same

theorem update_eq_self {mp : Mpool} {n : Nat} {f : ActNode → ActNode}
    (fixed : f (mp.node n) = mp.node n) (valid : n < mp.length) : mp.update n f = mp := by
  apply ext_node (length_update mp n f)
  intro i _
  by_cases same : i = n
  · rw [same, node_update_self valid, fixed]
  · exact node_update_ne same f

end Mpool

variable {mp mp' : Mpool} {path : Nat → Bytes} {d : Dictionary} {nod : Nat}

theorem Linking.eq_of_links (linking : Linking mp mp' path) (links : Links mp path)
    (links' : Links mp' path) : mp' = mp := by
  apply Mpool.ext_node linking.length
  intro i hi
  have failureNode : (mp'.node i).failureNode = (mp.node i).failureNode := by
    by_cases root : i = 0
    · rw [root, links.root, links'.root]
    · obtain ⟨_, f, inside, link, border⟩ := links.linked hi root
      obtain ⟨_, f', inside', link', border'⟩ := links'.linked (linking.length ▸ hi) root
      have paths : IsPath mp' path = IsPath mp path := by
        funext s
        rw [IsPath, IsPath, linking.length]
      have same := linking.labelling.inj inside' (linking.length ▸ inside)
        ((paths ▸ border').unique border)
      rw [link, link', same]
  have restored : ∀ x : ActNode, x = { x.unlinked with failureNode := x.failureNode } :=
    fun _ => rfl
  rw [restored (mp'.node i), restored (mp.node i), linking.same i, failureNode]

namespace Finalized

/-- Collecting the matches of a node again finds nothing new. -/
theorem nodeCollectMatches_eq (fin : Finalized mp path d) (valid : nod < mp.length) :
    Mpool.nodeCollectMatches nod mp = .ok mp := by
  have lab := fin.labelling
  obtain ⟨chain, ran, failures⟩ := Mpool.collectLoop_spec lab fin.links valid (Nat.le_refl _)
    mp.length (Nat.lt_of_le_of_lt (lab.path_length_le valid) valid) id (fun _ => rfl)
  have nothing : ActNode.inheritAll (chain.map mp.node) (mp.node nod) = mp.node nod := by
    apply ActNode.inheritAll_of_subset
    intro n hn
    obtain ⟨f, hf, rfl⟩ := List.mem_map.mp hn
    obtain ⟨inside, suffix, _⟩ := (failures.isChain lab f).mp hf
    exact (fin.complete valid).subset (fin.complete inside) suffix
  have sorted := ActNode.sortEdges_of_sorted (fin.complete valid).sorted
  have start : mp.update nod id = mp := List.modify_id nod mp
  rw [start] at ran
  rw [Mpool.nodeCollectMatches, ran]
  change Except.ok (Mpool.update (mp.update nod (ActNode.inheritAll _)) nod _) = _
  rw [Mpool.update_eq_self nothing valid, Mpool.update_eq_self sorted valid]

theorem traverseAction_eq (fin : Finalized mp path d) :
    Mpool.traverseAction Mpool.nodeCollectMatches (mp.length + 1) 0 mp = .ok mp := by
  have steps : (Mpool.actionWalk Mpool.nodeCollectMatches).Steps (fun s => s = mp)
      (fun n _ => n < mp.length) (fun _ _ => True)
      (fun n e => n < mp.length ∧ e ∈ (mp.node n).outgoing) (fun n => mp.length - n) := by
    constructor
    case visit =>
      rintro n s rfl valid
      exact ⟨_, fin.nodeCollectMatches_eq valid, rfl, valid, trivial, fun _ done => done⟩
    case edges =>
      rintro n s rfl valid e
      exact ⟨fun he => ⟨valid, he⟩, fun he => he.2⟩
    case follow =>
      rintro n e s rfl _ ⟨valid, he⟩
      exact ⟨_, rfl, rfl, (fin.labelling.target valid e he).1, fun _ done => done⟩
    case back =>
      intro n e s child _ _
      exact child.1
    case rank =>
      rintro n e ⟨valid, he⟩
      have below := (fin.labelling.target valid e he).2.1
      change mp.length - e.next < mp.length - n
      omega
  obtain ⟨_, ran, rfl, _⟩ :=
    DepthFirst.Walk.run_complete steps (Nat.lt_succ_self _) rfl fin.labelling.pos
  exact ran

end Finalized

theorem AcTrie.finalize_of_finalized {thiz : AcTrie} (root : thiz.root = 0)
    (closed : thiz.trieOpen = false) (fin : Finalized thiz.nodes path d) :
    thiz.finalize = .ok thiz := by
  obtain ⟨nodes, buffer, linked, linking, links⟩ := traverseSetFailure_spec fin.closable
  obtain rfl := linking.eq_of_links fin.links links
  have whole : { thiz with root := 0, trieOpen := false } = thiz := by
    rw [← root, ← closed]
  have returned : thiz.finalize = .ok { thiz with root := 0, trieOpen := false } := by
    rw [AcTrie.finalize, root]
    exact (bind_of_ok linked _).trans (bind_of_ok fin.traverseAction_eq _)
  rw [returned, whole]

end Multifast
