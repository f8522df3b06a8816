import Paraglob.Library.DepthFirst
import Paraglob.Multifast.Node

/-!
# The Aho-Corasick trie

The functions of `ahocorasick.c`: adding patterns while the trie is open,
finalizing it, and searching texts in it. A search may stop at a match and be
resumed, so the trie also carries the node and the positions where the last
search stopped. The replacement data of multifast is not represented.
-/

namespace Multifast

/-- The return status of `ac_trie_add`. -/
inductive AcStatus where
  | success
  | duplicatePattern
  | longPattern
  | zeroPattern
  | trieClosed
deriving DecidableEq

/-- The working modes in use. -/
inductive WorkingMode where
  | search
  | findnext
deriving DecidableEq

/-- A reported match: its patterns and the end position they share. -/
structure AcMatch where
  patterns : List AcPattern
  position : Nat
deriving DecidableEq

/-- `AC_MATCH_t::size`. -/
def AcMatch.size (m : AcMatch) : Nat := m.patterns.length

/-- The trie with its saved search state. -/
structure AcTrie where
  nodes : Mpool
  root : Nat
  patternsCount : Nat
  trieOpen : Bool
  lastNode : Nat
  basePosition : Nat
  text : Option Bytes
  position : Nat
  wm : WorkingMode
deriving DecidableEq

/-- The local array `prefix` of `ac_trie_finalize`. A cell holds nothing until it
is written. -/
abbrev PrefixBuffer := List (Option UInt8)

namespace PrefixBuffer

/-- The array as declared: `AC_PATTRN_MAX_LENGTH` cells, none of them written. -/
def declared : PrefixBuffer := List.replicate acPatternMaxLength none

def write (buffer : PrefixBuffer) (i : Nat) (alpha : UInt8) : Except Fault PrefixBuffer :=
  if i < buffer.length then .ok (buffer.set i (some alpha)) else .error .outOfBounds

def read (buffer : PrefixBuffer) (j : Nat) : Except Fault UInt8 :=
  match buffer[j]? with
  | some (some alpha) => .ok alpha
  | _ => .error .outOfBounds

end PrefixBuffer

namespace Mpool

/-- The loop of `ac_trie_add` over the letters of the pattern: follow the edges
that exist and create the nodes that are missing. -/
def addPath (mp : Mpool) (n : Nat) : Bytes → Mpool × Nat
  | [] => (mp, n)
  | alpha :: rest =>
      match (mp.node n).findNext alpha with
      | some next => mp.addPath next rest
      | none =>
          match mp.nodeCreateNext n alpha with
          | none => (mp, n)
          | some (created, next) =>
              addPath (created.update next fun x => { x with depth := (mp.node n).depth + 1 })
                next rest

/-- The inner loop of `ac_trie_set_failure`: walk down from `n` along
`prefix[j]`, ..., `prefix[depth - 1]`. -/
def suffixNode (mp : Mpool) (buffer : PrefixBuffer) (depth j : Nat) (n : Nat) :
    Except Fault (Option Nat) :=
  if j < depth then do
    let alpha ← buffer.read j
    match (mp.node n).findNext alpha with
    | none => .ok none
    | some next => mp.suffixNode buffer depth (j + 1) next
  else
    .ok (some n)
termination_by depth - j

/-- The outer loop of `ac_trie_set_failure`: the first `i` whose suffix is a path. -/
def failureLoop (mp : Mpool) (root : Nat) (buffer : PrefixBuffer) (depth i : Nat) :
    Except Fault (Option Nat) :=
  if i < depth then do
    match ← mp.suffixNode buffer depth i root with
    | some n => .ok (some n)
    | none => mp.failureLoop root buffer depth (i + 1)
  else
    .ok none
termination_by depth - i

/-- `ac_trie_set_failure`. -/
def setFailure (root node : Nat) (mp : Mpool) (buffer : PrefixBuffer) : Except Fault Mpool :=
  if node = root then .ok mp
  else do
    match ← mp.failureLoop root buffer (mp.node node).depth 1 with
    | some n => .ok (mp.update node fun x => { x with failureNode := some n })
    | none =>
        .ok (mp.update node fun x =>
          if x.failureNode.isNone then { x with failureNode := some root } else x)

/-- One level of `ac_trie_traverse_setfailure`: set the failure node of the node
reached, and write the letter of an edge before following it. -/
def setFailureWalk (root : Nat) :
    DepthFirst.Walk (Mpool × PrefixBuffer) Nat ActEdge Fault where
  edges s n := (s.1.node n).outgoing
  target := ActEdge.next
  visit n s := do
    let mp ← setFailure root n s.1 s.2
    .ok (mp, s.2)
  follow n e s := do
    let buffer ← s.2.write (s.1.node n).depth e.alpha
    .ok (s.1, buffer)
  exhausted := .outOfFuel

/-- `ac_trie_traverse_setfailure`. -/
def traverseSetFailure (root : Nat) (fuel : Nat) (n : Nat) (s : Mpool × PrefixBuffer) :
    Except Fault (Mpool × PrefixBuffer) :=
  (setFailureWalk root).run fuel n s

/-- One level of `ac_trie_traverse_action` with `top_down` set. -/
def actionWalk (func : Nat → Mpool → Except Fault Mpool) :
    DepthFirst.Walk Mpool Nat ActEdge Fault where
  edges mp n := (mp.node n).outgoing
  target := ActEdge.next
  visit := func
  follow _ _ mp := .ok mp
  exhausted := .outOfFuel

/-- `ac_trie_traverse_action` with `top_down` set. -/
def traverseAction (func : Nat → Mpool → Except Fault Mpool) (fuel : Nat) (n : Nat)
    (mp : Mpool) : Except Fault Mpool :=
  (actionWalk func).run fuel n mp

end Mpool

/-- How the loop of `ac_trie_search` is left: broken by the callback, or because
the text is used up. -/
inductive SearchExit (σ : Type) where
  | broken (position : Nat) (current : Nat) (user : σ)
  | ended (position : Nat) (current : Nat) (user : σ)

namespace AcTrie

/-- `ac_trie_create`. -/
def create : AcTrie :=
  let (nodes, root) := Mpool.nodeCreate []
  { nodes, root, patternsCount := 0, trieOpen := true, lastNode := root, basePosition := 0
    text := none, position := 0, wm := .search }

/-- `ac_trie_add`. -/
def add (thiz : AcTrie) (patt : AcPattern) : AcStatus × AcTrie :=
  if !thiz.trieOpen then (.trieClosed, thiz)
  else if patt.ptext.length = 0 then (.zeroPattern, thiz)
  else if patt.ptext.length > acPatternMaxLength then (.longPattern, thiz)
  else
    let (nodes, n) := thiz.nodes.addPath thiz.root patt.ptext
    if (nodes.node n).final then (.duplicatePattern, { thiz with nodes })
    else
      (.success, { thiz with
        nodes := nodes.update n fun x => { x with final := true }.acceptPattern patt
        patternsCount := thiz.patternsCount + 1 })

/-- `ac_trie_finalize`. The fuel covers the longest path of a trie. -/
def finalize (thiz : AcTrie) : Except Fault AcTrie := do
  let (nodes, _) ← Mpool.traverseSetFailure thiz.root (thiz.nodes.length + 1) thiz.root
    (thiz.nodes, PrefixBuffer.declared)
  let nodes ← Mpool.traverseAction Mpool.nodeCollectMatches (nodes.length + 1) thiz.root nodes
  .ok { thiz with nodes, trieOpen := false }

/-- `ac_trie_reset`. -/
def reset (thiz : AcTrie) : AcTrie := { thiz with lastNode := thiz.root, basePosition := 0 }

variable {σ : Type}

/-- The main loop of `ac_trie_search`. A match is reported after a letter was
consumed, never after a failure transition. -/
def searchLoop (nodes : Mpool) (basePosition : Nat) (text : Bytes)
    (callback : AcMatch → σ → σ × Bool) : Nat → Nat → Nat → σ → Except Fault (SearchExit σ)
  | 0, _, _, _ => .error .outOfFuel
  | fuel + 1, position, current, user =>
      match text[position]? with
      | none => .ok (.ended position current user)
      | some alpha => do
          match ← (nodes.node current).findNextBs alpha with
          | none =>
              match (nodes.node current).failureNode with
              | some failure =>
                  searchLoop nodes basePosition text callback fuel position failure user
              | none =>
                  searchLoop nodes basePosition text callback fuel (position + 1) current user
          | some next =>
              if (nodes.node next).final then
                match callback ⟨(nodes.node next).matched, position + 1 + basePosition⟩ user with
                | (user, true) => .ok (.broken (position + 1) next user)
                | (user, false) =>
                    searchLoop nodes basePosition text callback fuel (position + 1) next user
              else
                searchLoop nodes basePosition text callback fuel (position + 1) next user

/-- `ac_trie_search`. The callback also returns whether it breaks the loop. -/
def search (thiz : AcTrie) (text : Option Bytes) (keep : Bool)
    (callback : AcMatch → σ → σ × Bool) (user : σ) : Except Fault (Int × AcTrie × σ) :=
  if thiz.trieOpen then .ok (-1, thiz, user)
  else
    let position := if thiz.wm = .findnext then thiz.position else 0
    let current := thiz.lastNode
    let thiz := if keep then thiz else thiz.reset
    match text with
    | none => .error .nullPointer
    | some text => do
        match ← searchLoop thiz.nodes thiz.basePosition text callback
            (2 * text.length + thiz.nodes.length + 1) position current user with
        | .broken position current user =>
            if thiz.wm = .findnext then
              .ok (1, { thiz with position, lastNode := current }, user)
            else
              .ok (1, thiz, user)
        | .ended position current user =>
            .ok (0, { thiz with
              lastNode := current, basePosition := thiz.basePosition + position }, user)

/-- `ac_trie_settext`. -/
def setText (thiz : AcTrie) (text : Bytes) (keep : Bool) : AcTrie :=
  let thiz := if keep then thiz else thiz.reset
  { thiz with text := some text, position := 0 }

/-- `ac_trie_match_handler`: keep the match and stop. -/
def matchHandler (matchp : AcMatch) (_ : AcMatch) : AcMatch × Bool := (matchp, true)

/-- `ac_trie_findnext`. The match has size zero when nothing more is found. -/
def findNext (thiz : AcTrie) : Except Fault (AcMatch × AcTrie) := do
  let thiz := { thiz with wm := .findnext }
  let (_, thiz, result) ← thiz.search thiz.text true matchHandler ⟨[], 0⟩
  .ok (result, { thiz with wm := .search })

end AcTrie

end Multifast
