import Mathlib.Data.List.Nodup
import Mathlib.Data.List.Perm.Basic
import Mathlib.Logic.Relator
import Paraglob.Library.DepthFirst

/-!
# The order of a walk over a tree

When no step of a depth-first walk changes the edges, the walk is a loop over a
list of nodes that can be told in advance. If every node has one parent at most
and children have a smaller rank, that list holds every node below the start, and
each of them once. The same nodes, in another order, are passed when a node is
visited after its children.
-/

namespace DepthFirst

variable {ν : Type*}

def preorder (children : ν → List ν) : Nat → ν → List ν
  | 0, _ => []
  | fuel + 1, n => n :: (children n).flatMap (preorder children fuel)

def postorder (children : ν → List ν) : Nat → ν → List ν
  | 0, _ => []
  | fuel + 1, n => (children n).flatMap (postorder children fuel) ++ [n]

/-- A child is listed once, under one parent, and has a smaller rank. -/
structure IsTree (children : ν → List ν) (rank : ν → Nat) : Prop where
  rank : ∀ {n m}, m ∈ children n → rank m < rank n
  once : ∀ n, (children n).Nodup
  parent : ∀ {n n' m}, m ∈ children n → m ∈ children n' → n = n'

/-- `m` is `n` or below it. -/
def Reaches (children : ν → List ν) : ν → ν → Prop :=
  Relation.ReflTransGen fun n m => m ∈ children n

variable {children : ν → List ν} {rank : ν → Nat} {n m : ν} {fuel : Nat}

theorem postorder_perm (children : ν → List ν) (fuel : Nat) (n : ν) :
    (postorder children fuel n).Perm (preorder children fuel n) := by
  induction fuel generalizing n with
  | zero => exact List.Perm.nil
  | succ fuel ih =>
      have below : ((children n).flatMap (postorder children fuel)).Perm
          ((children n).flatMap (preorder children fuel)) :=
        List.Perm.flatMap_left _ fun m _ => ih m
      exact (List.perm_append_singleton n _).trans (below.cons n)

theorem Reaches.rank_le (tree : IsTree children rank) (below : Reaches children n m) :
    rank m ≤ rank n := by
  induction below with
  | refl => exact Nat.le_refl _
  | tail _ child ih => exact Nat.le_trans (Nat.le_of_lt (tree.rank child)) ih

theorem mem_preorder (tree : IsTree children rank) (enough : rank n < fuel) :
    m ∈ preorder children fuel n ↔ Reaches children n m := by
  induction fuel generalizing n with
  | zero => exact absurd enough (Nat.not_lt_zero _)
  | succ fuel ih =>
      have later : ∀ {c}, c ∈ children n → (m ∈ preorder children fuel c ↔ Reaches children c m) :=
        fun child => ih (Nat.lt_of_lt_of_le (tree.rank child) (Nat.le_of_lt_succ enough))
      rw [preorder, List.mem_cons, List.mem_flatMap]
      constructor
      · rintro (rfl | ⟨c, child, inside⟩)
        · exact Relation.ReflTransGen.refl
        · exact ((later child).mp inside).head child
      · intro below
        obtain rfl | ⟨c, child, rest⟩ := Relation.ReflTransGen.cases_head below
        · exact Or.inl rfl
        · exact Or.inr ⟨c, child, (later child).mpr rest⟩

theorem Reaches.total (tree : IsTree children rank) {c c' : ν} (below : Reaches children c m)
    (below' : Reaches children c' m) : Reaches children c c' ∨ Reaches children c' c := by
  have unique : Relator.RightUnique (Function.swap fun n m => m ∈ children n) :=
    fun _ _ _ child child' => tree.parent child child'
  have up := Relation.reflTransGen_swap.mpr below
  have up' := Relation.reflTransGen_swap.mpr below'
  cases Relation.ReflTransGen.total_of_right_unique unique up up' with
  | inl chain => exact Or.inr (Relation.reflTransGen_swap.mp chain)
  | inr chain => exact Or.inl (Relation.reflTransGen_swap.mp chain)

theorem IsTree.not_reaches_sibling (tree : IsTree children rank) {c c' : ν}
    (child : c ∈ children n) (child' : c' ∈ children n) (ne : c ≠ c') :
    ¬ Reaches children c c' := by
  intro below
  obtain rfl | ⟨p, above, last⟩ := Relation.ReflTransGen.cases_tail below
  · exact ne rfl
  · obtain rfl := tree.parent last child'
    have le := Reaches.rank_le tree above
    exact absurd (tree.rank child) (Nat.not_lt.mpr le)

theorem nodup_preorder (tree : IsTree children rank) (enough : rank n < fuel) :
    (preorder children fuel n).Nodup := by
  induction fuel generalizing n with
  | zero => exact absurd enough (Nat.not_lt_zero _)
  | succ fuel ih =>
      have enough' : ∀ {c}, c ∈ children n → rank c < fuel := fun child =>
        Nat.lt_of_lt_of_le (tree.rank child) (Nat.le_of_lt_succ enough)
      rw [preorder, List.nodup_cons]
      constructor
      · intro again
        obtain ⟨c, child, inside⟩ := List.mem_flatMap.mp again
        have le := Reaches.rank_le tree ((mem_preorder tree (enough' child)).mp inside)
        exact absurd (tree.rank child) (Nat.not_lt.mpr le)
      · refine List.nodup_flatMap.mpr ⟨fun c child => ih (enough' child), ?_⟩
        apply (tree.once n).imp_of_mem
        intro c c' child child' ne m inside inside'
        have below := (mem_preorder tree (enough' child)).mp inside
        have below' := (mem_preorder tree (enough' child')).mp inside'
        cases Reaches.total tree below below' with
        | inl chain => exact tree.not_reaches_sibling child child' ne chain
        | inr chain => exact tree.not_reaches_sibling child' child (Ne.symm ne) chain

/-- The list with the children first holds what is below its last node. -/
theorem mem_postorder (tree : IsTree children rank) (enough : rank n < fuel) :
    m ∈ postorder children fuel n ↔ Reaches children n m :=
  (postorder_perm children fuel n).mem_iff.trans (mem_preorder tree enough)

theorem pairwise_postorder (tree : IsTree children rank) (enough : rank n < fuel) :
    (postorder children fuel n).Pairwise fun a b => b ∉ children a := by
  induction fuel generalizing n with
  | zero => exact absurd enough (Nat.not_lt_zero _)
  | succ fuel ih =>
      have enough' : ∀ {c}, c ∈ children n → rank c < fuel := fun child =>
        Nat.lt_of_lt_of_le (tree.rank child) (Nat.le_of_lt_succ enough)
      rw [postorder, List.pairwise_append]
      refine ⟨?_, List.pairwise_singleton _ _, ?_⟩
      · refine List.pairwise_flatMap.mpr ⟨fun c child => ih (enough' child), ?_⟩
        apply (tree.once n).imp_of_mem
        intro c c' child child' ne a inside b inside' below
        have above := (mem_postorder tree (enough' child)).mp inside
        have above' := (mem_postorder tree (enough' child')).mp inside'
        cases Reaches.total tree (above.tail below) above' with
        | inl chain => exact tree.not_reaches_sibling child child' ne chain
        | inr chain => exact tree.not_reaches_sibling child' child (Ne.symm ne) chain
      · intro a inside b last below
        rw [List.mem_singleton.mp last] at below
        obtain ⟨c, child, inside⟩ := List.mem_flatMap.mp inside
        have le := Reaches.rank_le tree ((mem_postorder tree (enough' child)).mp inside)
        have lt := tree.rank below
        have lt' := tree.rank child
        omega

/-- A walk that leaves the edges alone loops over the nodes in their order. -/
theorem Walk.run_eq_foldlM {σ ε φ : Type*} {walk : Walk σ ν ε φ} (tree : IsTree children rank)
    (edges : ∀ s n, (walk.edges s n).map walk.target = children n)
    (follow : ∀ n e s, walk.follow n e s = .ok s) (enough : rank n < fuel) (s : σ) :
    walk.run fuel n s = (preorder children fuel n).foldlM (fun s n => walk.visit n s) s := by
  induction fuel generalizing n s with
  | zero => exact absurd enough (Nat.not_lt_zero _)
  | succ fuel ih =>
      have loop : ∀ (es : List ε) (s : σ), (∀ e ∈ es, walk.target e ∈ children n) →
          es.foldlM (fun s e => walk.follow n e s >>= walk.run fuel (walk.target e)) s =
            ((es.map walk.target).flatMap (preorder children fuel)).foldlM
              (fun s n => walk.visit n s) s := by
        intro es
        induction es with
        | nil => exact fun _ _ => rfl
        | cons e es rest =>
            intro s owned
            have enough' : rank (walk.target e) < fuel :=
              Nat.lt_of_lt_of_le (tree.rank (owned e List.mem_cons_self)) (Nat.le_of_lt_succ enough)
            have first : walk.follow n e s >>= walk.run fuel (walk.target e) =
                (preorder children fuel (walk.target e)).foldlM (fun s n => walk.visit n s) s := by
              rw [follow]
              exact ih enough' s
            rw [List.foldlM_cons, first, List.map_cons, List.flatMap_cons, List.foldlM_append]
            exact bind_congr fun s => rest s fun e he => owned e (List.mem_cons_of_mem _ he)
      rw [Walk.run, preorder, List.foldlM_cons]
      refine bind_congr fun s => ?_
      rw [← edges s n]
      apply loop
      intro e he
      rw [← edges s n]
      exact List.mem_map_of_mem he

end DepthFirst
