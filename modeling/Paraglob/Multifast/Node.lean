import Paraglob.Basic
import Mathlib.Data.List.Sort

/-!
# The trie node

Nodes are allocated from a memory pool and never freed while the trie lives, so
a node pointer is the position of the node in the pool. The functions below are
those of `node.c`. Vector capacities, the debugging identifier and the
replacement bookmark are not represented: no function here reads them.
-/

namespace Multifast

/-- `AC_PATTRN_MAX_LENGTH`. -/
def acPatternMaxLength : Nat := 1024

/-- A pattern the trie is fed with: its search text and its number. -/
structure AcPattern where
  ptext : Bytes
  id : Int
deriving DecidableEq

/-- An outgoing edge: its letter and its target. -/
structure ActEdge where
  alpha : UInt8
  next : Nat
deriving DecidableEq

/-- A trie node, with the values of `node_init` as defaults. -/
structure ActNode where
  final : Bool := false
  depth : Nat := 0
  failureNode : Option Nat := none
  outgoing : List ActEdge := []
  matched : List AcPattern := []
deriving DecidableEq

/-- `node_init`. -/
def nodeInit : ActNode := {}

/-- The memory pool as an array of nodes in allocation order. -/
abbrev Mpool := List ActNode

namespace Mpool

/-- Dereference a node pointer. -/
def node (mp : Mpool) (n : Nat) : ActNode := mp.getD n nodeInit

/-- Assign to the fields of one node. -/
def update (mp : Mpool) (n : Nat) (f : ActNode → ActNode) : Mpool := mp.modify n f

theorem exists_node {mp : Mpool} {nod : ActNode} (mem : nod ∈ mp) :
    ∃ n < mp.length, mp.node n = nod := by
  obtain ⟨n, inside, rfl⟩ := List.mem_iff_getElem.mp mem
  exact ⟨n, inside, by simp [node, inside]⟩

@[simp] theorem length_update (mp : Mpool) (n : Nat) (f : ActNode → ActNode) :
    (mp.update n f).length = mp.length := List.length_modify f mp n

@[simp] theorem node_update_self {mp : Mpool} {n : Nat} (valid : n < mp.length)
    (f : ActNode → ActNode) : (mp.update n f).node n = f (mp.node n) := by
  simp [node, update, valid]

theorem node_update_ne {mp : Mpool} {n m : Nat} (ne : m ≠ n) (f : ActNode → ActNode) :
    (mp.update n f).node m = mp.node m := by
  simp [node, update, List.getElem?_modify_ne f mp (Ne.symm ne)]

end Mpool

namespace ActNode

/-- `node_find_next`: linear search, used while the edges are not sorted. -/
def findNext (nod : ActNode) (alpha : UInt8) : Option Nat :=
  (nod.outgoing.find? fun e => e.alpha == alpha).map ActEdge.next

/-- The loop of `node_find_next_bs` between two `int` bounds. -/
def findNextBsLoop (nod : ActNode) (alpha : UInt8) :
    Nat → Int → Int → Except Fault (Option Nat)
  | 0, _, _ => .error .outOfFuel
  | fuel + 1, min, max =>
      if min ≤ max then
        let mid := ((min + max) >>> (1 : Nat)).toNat
        match nod.outgoing[mid]? with
        | none => .error .outOfBounds
        | some edge =>
            if alpha.signed > edge.alpha.signed then
              nod.findNextBsLoop alpha fuel (mid + 1) max
            else if alpha.signed < edge.alpha.signed then
              nod.findNextBsLoop alpha fuel min (mid - 1)
            else
              .ok (some edge.next)
      else
        .ok none

/-- `node_find_next_bs`: binary search, used once the edges are sorted. -/
def findNextBs (nod : ActNode) (alpha : UInt8) : Except Fault (Option Nat) :=
  nod.findNextBsLoop alpha (nod.outgoing.length + 1) 0 (toInt (nod.outgoing.length - 1))

/-- `node_has_pattern`: some accepted pattern has the same length and letters. -/
def hasPattern (thiz : ActNode) (patt : AcPattern) : Bool :=
  thiz.matched.any fun txt => txt.ptext == patt.ptext

/-- `node_accept_pattern`. Deep and shallow copies hold the same value. -/
def acceptPattern (nod : ActNode) (newPatt : AcPattern) : ActNode :=
  if nod.hasPattern newPatt then nod else { nod with matched := nod.matched ++ [newPatt] }

/-- `node_edge_compare`, which never reports equality. -/
def edgeCompare (l r : ActEdge) : Int :=
  if l.alpha.signed ≥ r.alpha.signed then 1 else -1

/-- `node_sort_edges`: any sort by the comparison function. -/
def sortEdges (nod : ActNode) : ActNode :=
  { nod with outgoing := nod.outgoing.insertionSort fun l r => 0 < edgeCompare r l }

/-- One round of `node_collect_matches`: take over the patterns and the final
flag of a node on the failure chain. -/
def inherit (nod n : ActNode) : ActNode :=
  let nod := n.matched.foldl acceptPattern nod
  if n.final then { nod with final := true } else nod

end ActNode

namespace Mpool

/-- `node_create`. -/
def nodeCreate (mp : Mpool) : Mpool × Nat := (mp ++ [nodeInit], mp.length)

/-- `node_add_edge`. -/
def nodeAddEdge (mp : Mpool) (nod next : Nat) (alpha : UInt8) : Mpool :=
  mp.update nod fun n => { n with outgoing := n.outgoing ++ [⟨alpha, next⟩] }

/-- `node_create_next`: no node when the edge already exists. -/
def nodeCreateNext (mp : Mpool) (nod : Nat) (alpha : UInt8) : Option (Mpool × Nat) :=
  if ((mp.node nod).findNext alpha).isSome then none
  else
    let (mp, next) := mp.nodeCreate
    some (mp.nodeAddEdge nod next alpha, next)

/-- The loop of `node_collect_matches` up the failure chain of `nod`. -/
def collectLoop (nod : Nat) : Nat → Nat → Mpool → Except Fault Mpool
  | 0, _, _ => .error .outOfFuel
  | fuel + 1, n, mp =>
      match (mp.node n).failureNode with
      | none => .ok mp
      | some n => collectLoop nod fuel n (mp.update nod fun x => x.inherit (mp.node n))

/-- `node_collect_matches`. -/
def nodeCollectMatches (nod : Nat) (mp : Mpool) : Except Fault Mpool := do
  let mp ← collectLoop nod mp.length nod mp
  .ok (mp.update nod ActNode.sortEdges)

end Mpool

end Multifast
