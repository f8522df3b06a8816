import Paraglob.Multifast.Trie

/-!
# The C++ wrapper of the trie

`AhoCorasickPlus` translates the status of an insertion and collects the numbers
of all patterns found in a text. A pattern number enters as an `unsigned int`, is
stored as a `long`, and leaves as an `int`.
-/

open Multifast

/-- `AhoCorasickPlus::EnumReturnStatus`. -/
inductive EnumReturnStatus where
  | success
  | duplicatePattern
  | longPattern
  | zeroPattern
  | automataClosed
  | failed
deriving DecidableEq

/-- `AhoCorasickPlus::PatternId`. -/
abbrev PatternId := UInt32

/-- The `switch` of `addPattern` over the status of `ac_trie_add`. -/
def EnumReturnStatus.ofStatus : AcStatus → EnumReturnStatus
  | .success => .success
  | .duplicatePattern => .duplicatePattern
  | .longPattern => .longPattern
  | .zeroPattern => .zeroPattern
  | .trieClosed => .automataClosed

/-- The wrapper owns one trie. -/
structure AhoCorasickPlus where
  automata : AcTrie
deriving DecidableEq

namespace AhoCorasickPlus

/-- The constructor. -/
def create : AhoCorasickPlus := ⟨AcTrie.create⟩

/-- `AhoCorasickPlus::addPattern`. -/
def addPattern (ac : AhoCorasickPlus) (pattern : Bytes) (id : PatternId) :
    EnumReturnStatus × AhoCorasickPlus :=
  let patt : AcPattern := { ptext := pattern, id := id.toNat }
  let (status, automata) := ac.automata.add patt
  (.ofStatus status, ⟨automata⟩)

/-- `AhoCorasickPlus::finalize`. -/
def finalize (ac : AhoCorasickPlus) : Except Fault AhoCorasickPlus := do
  let automata ← ac.automata.finalize
  .ok ⟨automata⟩

/-- `AhoCorasickPlus::search`. -/
def search (ac : AhoCorasickPlus) (text : Bytes) (keep : Bool) : AhoCorasickPlus :=
  ⟨ac.automata.setText text keep⟩

/-- The loop of `findAll`: ask for the next match until it is empty. -/
def findAllLoop : Nat → AcTrie → Except Fault (List Int × AcTrie)
  | 0, _ => .error .outOfFuel
  | fuel + 1, automata => do
      let (matchp, automata) ← automata.findNext
      if matchp.size = 0 then .ok ([], automata)
      else
        let ids := matchp.patterns.map fun p => toInt p.id
        let (rest, automata) ← findAllLoop fuel automata
        .ok (ids ++ rest, automata)

/-- `AhoCorasickPlus::findAll`. Every match consumes a letter, so the fuel covers
one round for each letter and the last, empty one. -/
def findAll (ac : AhoCorasickPlus) (text : Bytes) (keep : Bool) :
    Except Fault (List Int × AhoCorasickPlus) := do
  let ac := ac.search text keep
  let (ids, automata) ← findAllLoop (text.length + 1) ac.automata
  .ok (ids, ⟨automata⟩)

end AhoCorasickPlus
