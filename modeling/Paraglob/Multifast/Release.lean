import Paraglob.Multifast.Bookmarks
import Paraglob.Multifast.Occurrences
import Paraglob.Multifast.Programs

/-!
# Releasing a trie

`ac_trie_release` frees the two vectors of every node in a walk that has to come to a
node after its children: the edges that the walk follows are in one of the vectors.
What was freed is recorded here, and it is a fault to free or to read it again. The
nodes themselves go with the blocks of the pool.
-/

namespace Multifast

open DepthFirst

/-- What can go wrong. -/
inductive ReleaseFault where
  | outOfFuel
  | useAfterFree
  | doubleFree
deriving DecidableEq

/-- The nodes of a trie, and those whose vectors were freed, in the order in which that was done. -/
structure Vectors where
  nodes : Mpool
  freed : List Nat
deriving DecidableEq

namespace Vectors

/-- `node_release_vectors`. -/
def nodeReleaseVectors (nod : Nat) (s : Vectors) : Except ReleaseFault Vectors :=
  if nod ∈ s.freed then .error .doubleFree else .ok { s with freed := s.freed ++ [nod] }

/-- `ac_trie_traverse_action`, in either order. Every round of its loop reads the edges. -/
def traverseAction (func : Nat → Vectors → Except ReleaseFault Vectors) (topDown : Bool) :
    Nat → Nat → Vectors → Except ReleaseFault Vectors
  | 0, _, _ => .error .outOfFuel
  | fuel + 1, node, s => do
      let s ← if topDown then func node s else .ok s
      let s ← (s.nodes.node node).outgoing.foldlM (fun s e =>
        if node ∈ s.freed then .error .useAfterFree
        else traverseAction func topDown fuel e.next s) s
      if topDown then .ok s else func node s

end Vectors

/-- The walk of `ac_trie_release`, with the last parameter of the traversal. -/
def AcTrie.releaseVectors (thiz : AcTrie) (topDown : Bool) : Except ReleaseFault Vectors :=
  Vectors.traverseAction Vectors.nodeReleaseVectors topDown (thiz.nodes.length + 1) thiz.root
    ⟨thiz.nodes, []⟩

namespace Vectors

variable {rank : Nat → Nat} {nodes : Mpool} {n fuel : Nat} {freed : List Nat}

theorem nodeReleaseVectors_of_fresh (fresh : n ∉ freed) :
    nodeReleaseVectors n ⟨nodes, freed⟩ = .ok ⟨nodes, freed ++ [n]⟩ := if_neg fresh

theorem edges_spec (tree : IsTree nodes.children rank)
    (enough : ∀ c ∈ nodes.children n, rank c < fuel)
    (child : ∀ c ∈ nodes.children n, ∀ freed, (∀ m, Reaches nodes.children c m → m ∉ freed) →
      traverseAction nodeReleaseVectors false fuel c ⟨nodes, freed⟩ =
        .ok ⟨nodes, freed ++ postorder nodes.children fuel c⟩)
    (es : List ActEdge) (owned : ∀ e ∈ es, e.next ∈ nodes.children n)
    (once : (es.map ActEdge.next).Nodup) (freed : List Nat) (here : n ∉ freed)
    (fresh : ∀ e ∈ es, ∀ m, Reaches nodes.children e.next m → m ∉ freed) :
    es.foldlM (fun (s : Vectors) e =>
        if n ∈ s.freed then .error .useAfterFree
        else traverseAction nodeReleaseVectors false fuel e.next s) ⟨nodes, freed⟩ =
      .ok ⟨nodes, freed ++ (es.map ActEdge.next).flatMap (postorder nodes.children fuel)⟩ := by
  induction es generalizing freed with
  | nil =>
      rw [List.map_nil, List.flatMap_nil, List.append_nil]
      rfl
  | cons e es rest =>
      obtain ⟨apart, once⟩ := List.nodup_cons.mp once
      have own := owned e List.mem_cons_self
      have owned' : ∀ e' ∈ es, e'.next ∈ nodes.children n :=
        fun e' he' => owned e' (List.mem_cons_of_mem _ he')
      have below : ∀ {m}, m ∈ postorder nodes.children fuel e.next →
          Reaches nodes.children e.next m := (mem_postorder tree (enough _ own)).mp
      have first := child e.next own freed (fresh e List.mem_cons_self)
      have here' : n ∉ freed ++ postorder nodes.children fuel e.next := by
        intro gone
        cases List.mem_append.mp gone with
        | inl earlier => exact here earlier
        | inr later => exact absurd (tree.rank own) (Nat.not_lt.mpr ((below later).rank_le tree))
      have fresh' : ∀ e' ∈ es, ∀ m, Reaches nodes.children e'.next m →
          m ∉ freed ++ postorder nodes.children fuel e.next := by
        intro e' he' m below' gone
        cases List.mem_append.mp gone with
        | inl earlier => exact fresh e' (List.mem_cons_of_mem _ he') m below' earlier
        | inr later =>
            have ne : e.next ≠ e'.next := fun same => apart (same ▸ List.mem_map_of_mem he')
            cases Reaches.total tree (below later) below' with
            | inl chain => exact tree.not_reaches_sibling own (owned' e' he') ne chain
            | inr chain => exact tree.not_reaches_sibling (owned' e' he') own (Ne.symm ne) chain
      rw [List.foldlM_cons, if_neg here, bind_of_ok first, rest owned' once _ here' fresh',
        List.map_cons, List.flatMap_cons, List.append_assoc]

/-- The walk from a node below which nothing was freed frees all of it, the children first. -/
theorem traverseAction_spec (tree : IsTree nodes.children rank) (enough : rank n < fuel)
    (fresh : ∀ m, Reaches nodes.children n m → m ∉ freed) :
    traverseAction nodeReleaseVectors false fuel n ⟨nodes, freed⟩ =
      .ok ⟨nodes, freed ++ postorder nodes.children fuel n⟩ := by
  induction fuel generalizing n freed with
  | zero => exact absurd enough (Nat.not_lt_zero _)
  | succ fuel ih =>
      have enough' : ∀ c ∈ nodes.children n, rank c < fuel := fun c child =>
        Nat.lt_of_lt_of_le (tree.rank child) (Nat.le_of_lt_succ enough)
      have ran := edges_spec tree enough' (fun c child freed => ih (enough' c child))
        (nodes.node n).outgoing (fun e he => List.mem_map_of_mem he) (tree.once n) freed
        (fresh n .refl) (fun e he m below => fresh m (below.head (List.mem_map_of_mem he)))
      have last : n ∉ freed ++ (nodes.children n).flatMap (postorder nodes.children fuel) := by
        intro gone
        cases List.mem_append.mp gone with
        | inl earlier => exact fresh n .refl earlier
        | inr later =>
            obtain ⟨c, child, inside⟩ := List.mem_flatMap.mp later
            have below := (mem_postorder tree (enough' c child)).mp inside
            exact absurd (tree.rank child) (Nat.not_lt.mpr (below.rank_le tree))
      rw [traverseAction]
      refine (bind_of_ok ran _).trans ?_
      refine (nodeReleaseVectors_of_fresh last).trans ?_
      rw [List.append_assoc]
      rfl

/-- From the top, the walk reads the edges of the first node that has any after they were freed. -/
theorem traverseAction_topDown {e : ActEdge} {es : List ActEdge} (fresh : n ∉ freed)
    (edges : (nodes.node n).outgoing = e :: es) :
    traverseAction nodeReleaseVectors true (fuel + 1) n ⟨nodes, freed⟩ = .error .useAfterFree := by
  have gone : n ∈ freed ++ [n] := List.mem_append_right _ (List.mem_singleton_self n)
  rw [traverseAction]
  refine (bind_of_ok (nodeReleaseVectors_of_fresh fresh) _).trans ?_
  refine bind_of_error ?_ _
  rw [edges, List.foldlM_cons, if_pos gone]
  rfl

theorem traverseAction_leaf (fresh : n ∉ freed) (edges : (nodes.node n).outgoing = []) :
    traverseAction nodeReleaseVectors true (fuel + 1) n ⟨nodes, freed⟩ =
      .ok ⟨nodes, freed ++ [n]⟩ := by
  rw [traverseAction]
  refine (bind_of_ok (nodeReleaseVectors_of_fresh fresh) _).trans ?_
  refine (bind_of_ok (a := ⟨nodes, freed ++ [n]⟩) ?_ _).trans rfl
  rw [edges]
  rfl

end Vectors

theorem AcTrie.Represents.labelling {thiz : AcTrie} {accepting : Bool} {d : Dictionary}
    (rep : thiz.Represents accepting d) :
    thiz.root = 0 ∧ ∃ path, Labelling thiz.nodes path := by
  cases rep with
  | opened h => exact ⟨h.root, _, h.raw.labelling⟩
  | closed h => exact ⟨h.root, _, h.finalized.labelling⟩

theorem Labelling.root_edges {mp : Mpool} {path : Nat → Bytes} (lab : Labelling mp path) :
    (mp.node 0).outgoing ≠ [] ↔ 1 < mp.length := by
  constructor
  · intro some
    obtain ⟨e, he⟩ := List.exists_mem_of_ne_nil _ some
    obtain ⟨inside, above, _⟩ := lab.target lab.pos e he
    exact Nat.lt_of_le_of_lt above inside
  · intro more
    obtain ⟨j, _, e, he, _, below, _⟩ := lab.exists_parent more Nat.one_ne_zero
    obtain rfl : j = 0 := Nat.lt_one_iff.mp below
    exact List.ne_nil_of_mem he

end Multifast

namespace AhoCorasickPlus

open Multifast DepthFirst

variable {ac : AhoCorasickPlus}

/-- Whatever calls a trie went through, releasing it frees the vectors of every node once, those
of a node after those of its children, and reads nothing that was freed. A walk from the top
would read freed edges as soon as the trie has more than its root. -/
theorem releaseVectors_spec (reachable : Reachable ac) :
    (∃ freed, ac.automata.releaseVectors false = .ok ⟨ac.automata.nodes, freed⟩ ∧
      freed.Perm (List.range ac.automata.nodes.length) ∧
      freed.Pairwise fun n m => m ∉ ac.automata.nodes.children n) ∧
    (ac.automata.releaseVectors true = .error .useAfterFree ↔ 1 < ac.automata.nodes.length) := by
  obtain ⟨accepting, d, rep⟩ := reachable.represents
  obtain ⟨root, path, lab⟩ := rep.labelling
  have enough : ac.automata.nodes.length - 0 < ac.automata.nodes.length + 1 := Nat.lt_succ_self _
  rw [AcTrie.releaseVectors, AcTrie.releaseVectors, root]
  constructor
  · refine ⟨_, Vectors.traverseAction_spec lab.isTree enough fun _ _ => List.not_mem_nil, ?_, ?_⟩
    · exact (postorder_perm _ _ _).trans lab.preorder_perm
    · exact pairwise_postorder lab.isTree enough
  · rw [← lab.root_edges]
    constructor
    · intro failed none
      rw [Vectors.traverseAction_leaf List.not_mem_nil none] at failed
      cases failed
    · intro some
      obtain ⟨e, es, edges⟩ := List.exists_cons_of_ne_nil some
      exact Vectors.traverseAction_topDown List.not_mem_nil edges

/-- A trie with `ab` and `ac` that was not finalized. -/
theorem releaseVectors_spec_ab :
    ∃ ac, ac = ((create.addPattern [97, 98] 0).2.addPattern [97, 99] 1).2 ∧
      (∃ freed, ac.automata.releaseVectors false = .ok ⟨ac.automata.nodes, freed⟩ ∧
        freed.Perm (List.range 4)) ∧
      ac.automata.releaseVectors true = .error .useAfterFree := by
  obtain ⟨⟨freed, ran, once, _⟩, topDown⟩ :=
    releaseVectors_spec (.addPattern [97, 99] 1 (.addPattern [97, 98] 0 .create))
  have size :
      ((create.addPattern [97, 98] 0).2.addPattern [97, 99] 1).2.automata.nodes.length = 4 := by
    decide +kernel
  refine ⟨_, rfl, ⟨freed, ran, size ▸ once⟩, topDown.mpr ?_⟩
  rw [size]
  decide

end AhoCorasickPlus

namespace Multifast

open Buffers

/-- The pool has allocated what is behind the memory of the program that created it, a buffer for
each of its blocks, and has left that memory as it was. -/
def Owns (memory : Memory UInt8) (s : PoolState) : Prop :=
  ∃ more, s.memory = memory ++ more ∧
    mpoolFree s.pool = (List.range' memory.length more.length).reverse

/-- A pointer into a block. -/
def Inside (memory : Memory UInt8) (r : Option Slot) : Prop :=
  ∀ slot, r = some slot → memory.length ≤ slot.buffer

variable {memory : Memory UInt8} {s s' : PoolState} {size : UInt64} {r : Option Slot}
  {c c' : Program PoolState}

theorem Owns.take (owns : Owns memory s) (size : UInt64) :
    Owns memory (s.take size).2 ∧ Inside memory (s.take size).1 := by
  obtain ⟨more, grown, chain⟩ := owns
  refine ⟨⟨more, grown, chain⟩, ?_⟩
  rintro slot ⟨⟩
  have listed : s.pool.block.bp ∈ mpoolFree s.pool := List.mem_cons_self
  rw [chain, List.mem_reverse, List.mem_range'_1] at listed
  exact listed.1

theorem Owns.newBlock (owns : Owns memory s) (size : UInt64) :
    Owns memory { memory := (mpoolNewBlock s.memory size).2
                  pool := ⟨(mpoolNewBlock s.memory size).1, s.pool.block :: s.pool.next⟩ } := by
  obtain ⟨more, grown, chain⟩ := owns
  refine ⟨more ++ [List.replicate (mpoolNewBlock s.memory size).1.size.toNat none], ?_, ?_⟩
  · change s.memory ++ _ = _
    rw [grown, List.append_assoc]
    rfl
  · change s.memory.length :: mpoolFree s.pool = _
    rw [chain, grown, List.length_append, List.length_append, List.length_singleton,
      List.range'_concat, List.reverse_append, Nat.one_mul]
    rfl

theorem Owns.malloc (owns : Owns memory s) (size : UInt64) :
    Owns memory (mpoolMalloc s size).2 ∧ Inside memory (mpoolMalloc s size).1 := by
  by_cases zero : size = 0
  · subst zero
    exact ⟨owns, by rintro slot ⟨⟩⟩
  · simp only [mpoolMalloc, if_neg zero]
    split
    · exact (owns.newBlock _).take _
    · exact owns.take _

theorem Owns.store (owns : Owns memory s) {slot : Slot} {k : Nat} {bytes : Bytes}
    (inside : memory.length ≤ slot.buffer)
    (stored : mpool.store s (slot.shift k) bytes = .ok s') : Owns memory s' := by
  rw [Allocator.store] at stored
  split at stored
  · rename_i written ran
    obtain rfl := Except.ok.inj stored
    obtain ⟨more, grown, chain⟩ := owns
    obtain ⟨cells, _, _, rfl⟩ := store_eq_some_iff.mp ran
    refine ⟨more.set (slot.buffer - memory.length) (overwrite cells (slot.offset + k) bytes),
      ?_, ?_⟩
    · change s.memory.set slot.buffer _ = _
      rw [grown, List.set_append_right _ _ inside]
      rfl
    · rw [List.length_set]
      exact chain
  · cases stored

theorem Owns.strndup (owns : Owns memory s) {str : Option Bytes} {n : UInt64}
    (ran : mpool.strndup s str n = .ok (r, s')) : Owns memory s' ∧ Inside memory r := by
  cases str with
  | none =>
      obtain ⟨rfl, rfl⟩ := Prod.mk.inj (Except.ok.inj ran)
      exact ⟨owns, by rintro slot ⟨⟩⟩
  | some str =>
      have got :
          Owns memory (mpool.malloc s (n + 1)).2 ∧ Inside memory (mpool.malloc s (n + 1)).1 :=
        owns.malloc (n + 1)
      cases piece : mpool.malloc s (n + 1) with
      | mk ret s₁ =>
          rw [piece] at got
          obtain ⟨owns₁, inside⟩ := got
          cases ret with
          | none =>
              simp only [Allocator.strndup, piece] at ran
              obtain ⟨rfl, rfl⟩ := Prod.mk.inj (Except.ok.inj ran)
              exact ⟨owns₁, inside⟩
          | some ret =>
              simp only [Allocator.strndup, piece] at ran
              split at ran
              · cases ran
              · obtain ⟨s₂, copied, ran⟩ := exists_of_bind_eq_ok ran
                obtain ⟨s₃, ended, ran⟩ := exists_of_bind_eq_ok ran
                obtain ⟨rfl, rfl⟩ := Prod.mk.inj (Except.ok.inj ran)
                have here := inside ret rfl
                exact ⟨(owns₁.store (k := 0) here copied).store here ended, inside⟩

theorem Owns.nodeCopyPattern (owns : Owns memory s) {patt : AcPatternTexts} {slots : AcPatternSlots}
    (ran : mpool.nodeCopyPattern s patt = .ok (slots, s')) :
    Owns memory s' ∧ ∀ r ∈ slots.pointers, Inside memory r := by
  obtain ⟨⟨ptext, s₁⟩, copied₁, ran⟩ := exists_of_bind_eq_ok ran
  obtain ⟨⟨rtext, s₂⟩, copied₂, ran⟩ := exists_of_bind_eq_ok ran
  obtain ⟨⟨id, s₃⟩, copied₃, ran⟩ := exists_of_bind_eq_ok ran
  obtain ⟨rfl, rfl⟩ := Prod.mk.inj (Except.ok.inj ran)
  obtain ⟨owns₁, inside₁⟩ := owns.strndup copied₁
  obtain ⟨owns₂, inside₂⟩ := owns₁.strndup copied₂
  have last : Owns memory s₃ ∧ ∀ r ∈ id.pointers, Inside memory r := by
    cases given : patt.id with
    | number n =>
        rw [given] at copied₃
        obtain ⟨rfl, rfl⟩ := Prod.mk.inj (Except.ok.inj copied₃)
        exact ⟨owns₂, fun r hr => absurd hr List.not_mem_nil⟩
    | stringy str =>
        rw [given] at copied₃
        obtain ⟨⟨r₃, s₄⟩, duplicated, rest⟩ := exists_of_bind_eq_ok copied₃
        obtain ⟨rfl, rfl⟩ := Prod.mk.inj (Except.ok.inj rest)
        have spec : Owns memory s₄ ∧ Inside memory r₃ := by
          cases str with
          | none =>
              obtain ⟨rfl, rfl⟩ := Prod.mk.inj (Except.ok.inj duplicated)
              exact ⟨owns₂, by rintro slot ⟨⟩⟩
          | some str =>
              obtain ⟨len, _, duplicated⟩ := exists_of_bind_eq_ok duplicated
              exact owns₂.strndup duplicated
        exact ⟨spec.1, fun r hr => List.mem_singleton.mp hr ▸ spec.2⟩
  refine ⟨last.1, fun r hr => ?_⟩
  obtain rfl | hr := List.mem_cons.mp hr
  · exact inside₁
  · obtain rfl | hr := List.mem_cons.mp hr
    · exact inside₂
    · exact last.2 r hr

/-- The pool of a program and the pointers it was given. -/
structure Clean (memory : Memory UInt8) (c : Program PoolState) : Prop where
  owns : Owns memory c.state
  inside : ∀ r ∈ c.pointers, Inside memory r

theorem Clean.pointer (clean : Clean memory c) {piece : Nat} {slot : Slot}
    (found : c.pointer piece = .ok slot) : memory.length ≤ slot.buffer :=
  clean.inside _ (List.mem_of_getElem? (Program.pointer_eq_ok found)) slot rfl

theorem Clean.serve (clean : Clean memory c) {request : Request}
    (served : mpool.serve c request = .ok c') : Clean memory c' := by
  cases request with
  | malloc size =>
      obtain rfl := Except.ok.inj served
      obtain ⟨owns, inside⟩ := clean.owns.malloc size
      refine ⟨owns, fun r hr => ?_⟩
      cases List.mem_append.mp hr with
      | inl earlier => exact clean.inside r earlier
      | inr new => exact List.mem_singleton.mp new ▸ inside
  | copyPattern patt =>
      obtain ⟨⟨slots, s₁⟩, copied, rest⟩ := exists_of_bind_eq_ok served
      obtain rfl := Except.ok.inj rest
      obtain ⟨owns, inside⟩ := clean.owns.nodeCopyPattern copied
      refine ⟨owns, fun r hr => ?_⟩
      cases List.mem_append.mp hr with
      | inl earlier => exact clean.inside r earlier
      | inr new => exact inside r new
  | store piece offset bytes =>
      obtain ⟨slot, found, rest⟩ := exists_of_bind_eq_ok served
      obtain ⟨s₁, stored, rest⟩ := exists_of_bind_eq_ok rest
      obtain rfl := Except.ok.inj rest
      exact ⟨clean.owns.store (clean.pointer found) stored, clean.inside⟩
  | load piece offset n =>
      obtain ⟨slot, found, rest⟩ := exists_of_bind_eq_ok served
      split at rest
      · obtain rfl := Except.ok.inj rest
        exact ⟨clean.owns, clean.inside⟩
      · cases rest

end Multifast
