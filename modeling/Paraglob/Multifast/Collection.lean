import Paraglob.Multifast.Failure

/-!
# Collecting matches along failure chains

`node_collect_matches` walks up the failure chain of a node, takes over the
patterns and the final flag of every node on it, and sorts the edges. The nodes on
the chain are the nodes of the proper suffixes of its path. The file describes the
walk and what it leaves alone. Which patterns arrive, and in which order, is the
subject of the next one.
-/

namespace Multifast

open LongestSuffix

namespace ActNode

variable {nod : ActNode}

/-- A node without what `node_collect_matches` changes, the order of its edges apart. -/
def unmatched (x : ActNode) : ActNode := { x with final := false, matched := [] }

@[simp] theorem acceptPattern_unmatched (nod : ActNode) (p : AcPattern) :
    (nod.acceptPattern p).unmatched = nod.unmatched := by
  unfold acceptPattern
  split <;> rfl

@[simp] theorem acceptPattern_final (nod : ActNode) (p : AcPattern) :
    (nod.acceptPattern p).final = nod.final := by
  unfold acceptPattern
  split <;> rfl

theorem foldl_acceptPattern_unmatched (ps : List AcPattern) (nod : ActNode) :
    (ps.foldl acceptPattern nod).unmatched = nod.unmatched := by
  induction ps generalizing nod with
  | nil => rfl
  | cons p ps ih => rw [List.foldl_cons, ih, acceptPattern_unmatched]

theorem foldl_acceptPattern_final (ps : List AcPattern) (nod : ActNode) :
    (ps.foldl acceptPattern nod).final = nod.final := by
  induction ps generalizing nod with
  | nil => rfl
  | cons p ps ih => rw [List.foldl_cons, ih, acceptPattern_final]

@[simp] theorem inherit_unmatched (nod n : ActNode) :
    (nod.inherit n).unmatched = nod.unmatched := by
  unfold inherit
  split
  · exact foldl_acceptPattern_unmatched n.matched nod
  · exact foldl_acceptPattern_unmatched n.matched nod

theorem inherit_final (nod n : ActNode) : (nod.inherit n).final = (nod.final || n.final) := by
  unfold inherit
  cases n.final with
  | true => simp
  | false => simpa using foldl_acceptPattern_final n.matched nod

/-- All rounds of `node_collect_matches` over the nodes of a failure chain. -/
def inheritAll (chain : List ActNode) (nod : ActNode) : ActNode := chain.foldl inherit nod

theorem inheritAll_unmatched (chain : List ActNode) (nod : ActNode) :
    (inheritAll chain nod).unmatched = nod.unmatched := by
  induction chain generalizing nod with
  | nil => rfl
  | cons n chain ih => exact (ih _).trans (inherit_unmatched nod n)

theorem inheritAll_final (chain : List ActNode) (nod : ActNode) :
    (inheritAll chain nod).final = true ↔ nod.final = true ∨ ∃ n ∈ chain, n.final = true := by
  induction chain generalizing nod with
  | nil => simp [inheritAll]
  | cons n chain ih =>
      change (inheritAll chain (nod.inherit n)).final = true ↔ _
      rw [ih, inherit_final, Bool.or_eq_true, or_assoc]
      simp only [List.mem_cons, exists_eq_or_imp]

theorem edgeCompare_pos {l r : ActEdge} :
    0 < edgeCompare r l ↔ l.alpha.signed ≤ r.alpha.signed := by
  unfold edgeCompare
  split <;> omega

/-- The comparison never reports equality, but edges with distinct letters are
sorted strictly all the same. -/
theorem sortEdges_sorted (distinct : (nod.outgoing.map ActEdge.alpha).Nodup) :
    EdgesSorted nod.sortEdges.outgoing := by
  let le : ActEdge → ActEdge → Prop := fun l r => 0 < edgeCompare r l
  have total : Std.Total le := ⟨fun l r => by
    change 0 < edgeCompare r l ∨ 0 < edgeCompare l r
    rw [edgeCompare_pos, edgeCompare_pos]
    exact Int.le_total _ _⟩
  have trans : IsTrans ActEdge le := ⟨fun l m r h h' => by
    exact edgeCompare_pos.mpr ((edgeCompare_pos.mp h).trans (edgeCompare_pos.mp h'))⟩
  have sorted : (nod.sortEdges.outgoing).Pairwise le :=
    List.pairwise_insertionSort le nod.outgoing
  have letters : (nod.sortEdges.outgoing.map ActEdge.alpha).Nodup :=
    ((List.perm_insertionSort le nod.outgoing).map _).nodup_iff.mpr distinct
  have apart : (nod.sortEdges.outgoing).Pairwise fun l r => l.alpha ≠ r.alpha :=
    List.pairwise_map.mp letters
  apply (sorted.and apart).imp
  rintro l r ⟨le, ne⟩
  exact lt_of_le_of_ne (edgeCompare_pos.mp le) fun same => ne (UInt8.signed_inj.mp same)

theorem sortEdges_perm (nod : ActNode) : nod.sortEdges.outgoing.Perm nod.outgoing :=
  List.perm_insertionSort _ _

end ActNode

/-- All failure nodes are set: none for the root, the border for every other node. -/
structure Links (mp : Mpool) (path : Nat → Bytes) : Prop where
  root : (mp.node 0).failureNode = none
  linked : ∀ {i}, i < mp.length → i ≠ 0 → Linked mp path i

variable {mp : Mpool} {path : Nat → Bytes} {nod n : Nat}

/-- The chain consists of the nodes of the proper suffixes of the path of `n`. -/
def IsChain (mp : Mpool) (path : Nat → Bytes) (n : Nat) (chain : List Nat) : Prop :=
  ∀ f, f ∈ chain ↔ f < mp.length ∧ path f <:+ path n ∧ path f ≠ path n

theorem Labelling.isChain_root (lab : Labelling mp path) : IsChain mp path 0 [] := by
  intro f
  rw [lab.root, List.suffix_nil]
  simp

/-- The chain of a node is its failure node in front of the chain of that. -/
theorem IsChain.cons (lab : Labelling mp path) {f : Nat} {chain : List Nat} (inside : f < mp.length)
    (border : IsBorder (IsPath mp path) (path n) (path f))
    (shorter : (path f).length < (path n).length) (rest : IsChain mp path f chain) :
    IsChain mp path n (f :: chain) := by
  intro k
  rw [List.mem_cons, rest k]
  have proper : path k <:+ path f → path k ≠ path n := by
    intro suffix same
    have := suffix.length_le
    rw [same] at this
    omega
  constructor
  · rintro (rfl | ⟨hk, suffix, _⟩)
    · exact ⟨inside, border.border_suffix, proper List.suffix_rfl⟩
    · exact ⟨hk, suffix.trans border.border_suffix, proper suffix⟩
  · rintro ⟨hk, suffix, ne⟩
    have onBorder := border.suffix_border suffix ne (Labelling.isPath hk)
    by_cases same : path k = path f
    · exact Or.inl (lab.inj hk inside same)
    · exact Or.inr ⟨hk, onBorder, same⟩

/-- The nodes that the failure nodes lead to from `n`, down to the root. -/
inductive FailureChain (mp : Mpool) (path : Nat → Bytes) : Nat → List Nat → Prop where
  | root : FailureChain mp path 0 []
  | link {n f : Nat} {chain : List Nat} (nonempty : path n ≠ []) (inside : f < mp.length)
      (border : IsBorder (IsPath mp path) (path n) (path f))
      (rest : FailureChain mp path f chain) : FailureChain mp path n (f :: chain)

theorem FailureChain.isChain (lab : Labelling mp path) {chain : List Nat}
    (h : FailureChain mp path n chain) : IsChain mp path n chain := by
  induction h with
  | root => exact lab.isChain_root
  | link nonempty inside border _ ih =>
      exact .cons lab inside border (border.border_length nonempty) ih

namespace Mpool

theorem update_update (mp : Mpool) (n : Nat) (f g : ActNode → ActNode) :
    (mp.update n f).update n g = mp.update n fun x => g (f x) :=
  List.modify_modify_eq f g n mp

/-- The loop of `node_collect_matches` from `n` on visits the failure chain of `n`. The lists
of the nodes on it are read while only `nod` changes. -/
theorem collectLoop_spec (lab : Labelling mp path) (links : Links mp path)
    (valid : n < mp.length) (below : (path n).length ≤ (path nod).length) (fuel : Nat)
    (enough : (path n).length < fuel) (g : ActNode → ActNode)
    (kept : ∀ x, (g x).failureNode = x.failureNode) :
    ∃ chain : List Nat, collectLoop nod fuel n (mp.update nod g) =
        .ok (mp.update nod fun x => ActNode.inheritAll (chain.map mp.node) (g x)) ∧
      FailureChain mp path n chain := by
  induction fuel generalizing n g with
  | zero => exact absurd enough (Nat.not_lt_zero _)
  | succ fuel ih =>
      have link : ((mp.update nod g).node n).failureNode = (mp.node n).failureNode := by
        by_cases same : n = nod
        · subst same
          rw [node_update_self valid, kept]
        · rw [node_update_ne same]
      by_cases root : n = 0
      · subst root
        refine ⟨[], ?_, .root⟩
        rw [collectLoop, link, links.root]
        rfl
      · obtain ⟨_, f, inside, next, border⟩ := links.linked valid root
        have nonempty := lab.path_ne_nil valid root
        have shorter : (path f).length < (path n).length := border.border_length nonempty
        have apart : f ≠ nod := by
          rintro rfl
          omega
        let g' : ActNode → ActNode := fun x => (g x).inherit (mp.node f)
        have kept' : ∀ x, (g' x).failureNode = x.failureNode := by
          intro x
          have links := congrArg ActNode.failureNode (ActNode.inherit_unmatched (g x) (mp.node f))
          exact Eq.trans links (kept x)
        obtain ⟨chain, ran, rest⟩ := ih inside (by omega) (by omega) g' kept'
        refine ⟨f :: chain, ?_, .link nonempty inside border rest⟩
        rw [collectLoop, link, next]
        change collectLoop nod fuel f ((mp.update nod g).update nod
          fun x => x.inherit ((mp.update nod g).node f)) = _
        rw [node_update_ne apart, update_update]
        exact ran

end Mpool

end Multifast
