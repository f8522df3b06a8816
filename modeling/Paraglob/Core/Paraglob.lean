import Paraglob.Core.Splitter
import Paraglob.Library.SortedUnique
import Paraglob.Multifast.Plus
import Mathlib.Data.List.AList

/-!
# Paraglob

A Paraglob keeps, for every meta word, a node with the patterns that contain the
word, and an Aho-Corasick automaton that finds the meta words of a text. The
matcher `fnmatch` of the C library is a parameter: it is called on the two C
strings and says whether they match.
-/

/-- A meta word and the patterns it belongs to. -/
structure ParaglobNode where
  metaWord : Bytes
  patterns : List Bytes
deriving DecidableEq

namespace ParaglobNode

/-- The constructor. -/
def create (metaWord initPattern : Bytes) : ParaglobNode :=
  { metaWord, patterns := [initPattern] }

/-- `ParaglobNode::operator==`. -/
def equal (node other : ParaglobNode) : Bool := node.metaWord == other.metaWord

/-- `ParaglobNode::add_pattern`. -/
def addPattern (node : ParaglobNode) (pattern : Bytes) : ParaglobNode :=
  { node with patterns := node.patterns ++ [pattern] }

/-- `ParaglobNode::merge_matches`. -/
def mergeMatches (fnmatch : Bytes → Bytes → Bool) (node : ParaglobNode) (target : List Bytes)
    (text : Bytes) : List Bytes :=
  target ++ node.patterns.filter fun candidate => fnmatch candidate.cStr text.cStr

/-- `ParaglobNode::merge_patterns`, which inserts at the front. -/
def mergePatterns (node : ParaglobNode) (target : List Bytes) : List Bytes :=
  node.patterns ++ target

end ParaglobNode

/-- `std::unordered_map<std::string, ParaglobNode>`. The order of the entries is
not specified, and no result below depends on it. -/
abbrev NodeMap := AList fun _ : Bytes => ParaglobNode

namespace NodeMap

/-- `at`. -/
def atKey (m : NodeMap) (key : Bytes) : Except Fault ParaglobNode :=
  match m.lookup key with
  | some node => .ok node
  | none => .error .outOfRange

/-- `emplace`, which leaves an existing entry alone. -/
def emplace (m : NodeMap) (key : Bytes) (node : ParaglobNode) : NodeMap :=
  if key ∈ m then m else m.insert key node

/-- `operator==`: as many entries, and for each of them an equal one in the other map. -/
def equal (m other : NodeMap) : Bool :=
  m.entries.length == other.entries.length &&
    m.entries.all fun entry =>
      match other.lookup entry.1 with
      | some node => entry.2.equal node
      | none => false

end NodeMap

/-- `v.at(id)` for an index of type `int`, which is converted to `size_t`. -/
def vectorAt {α : Type} (v : List α) (id : Int) : Except Fault α :=
  match v[(id % 2 ^ 64).toNat]? with
  | some a => .ok a
  | none => .error .outOfRange

/-- The members of the class. -/
structure Paraglob where
  myAc : AhoCorasickPlus
  metaToNodeMap : NodeMap
  metaWords : List Bytes
  singleWildcards : List Bytes

namespace Paraglob

/-- The default constructor. -/
def create : Paraglob :=
  { myAc := .create, metaToNodeMap := ∅, metaWords := [], singleWildcards := [] }

/-- `Paraglob::get_meta_words`. A pattern without meta words is kept aside. -/
def getMetaWords (pg : Paraglob) (pattern : Bytes) : List Bytes × Paraglob :=
  let metaWords := Glob.metaWords pattern
  if metaWords.length = 0 ∧ pattern ≠ [] then
    (metaWords, { pg with singleWildcards := pg.singleWildcards ++ [pattern] })
  else
    (metaWords, pg)

/-- The loop of `Paraglob::add` over the meta words of the pattern. -/
def addWords (pg : Paraglob) (pattern : Bytes) : List Bytes → Except Fault (Bool × Paraglob)
  | [] => .ok (true, pg)
  | metaWord :: rest => do
      let patId : PatternId := UInt32.ofNat pg.metaWords.length
      match pg.myAc.addPattern metaWord patId with
      | (.success, myAc) =>
          addWords { pg with
            myAc
            metaWords := pg.metaWords ++ [metaWord]
            metaToNodeMap := pg.metaToNodeMap.emplace metaWord (.create metaWord pattern) }
            pattern rest
      | (.duplicatePattern, myAc) =>
          let node ← pg.metaToNodeMap.atKey metaWord
          addWords { pg with
            myAc
            metaToNodeMap := pg.metaToNodeMap.insert metaWord (node.addPattern pattern) }
            pattern rest
      | (_, myAc) => .ok (false, { pg with myAc })

/-- `Paraglob::add`. -/
def add (pg : Paraglob) (pattern : Bytes) : Except Fault (Bool × Paraglob) :=
  let (metaWords, pg) := pg.getMetaWords pattern
  pg.addWords pattern metaWords

/-- `Paraglob::compile`. -/
def compile (pg : Paraglob) : Except Fault Paraglob := do
  let myAc ← pg.myAc.finalize
  .ok { pg with myAc }

/-- The text of the `add_error` thrown for a pattern. -/
def addErrorText (pattern : Bytes) : Bytes :=
  "Failed to add pattern: ".toUTF8.toList ++ pattern

/-- The loop of the vector constructor: add every pattern, throw on the first
that is not added. -/
def addEach (pg : Paraglob) : List Bytes → Except Fault Paraglob
  | [] => .ok pg
  | pattern :: rest => do
      match ← pg.add pattern with
      | (true, pg) => pg.addEach rest
      | (false, _) => .error (.addError (addErrorText pattern))

/-- The constructor from a vector of patterns. -/
def ofPatterns (patterns : List Bytes) : Except Fault Paraglob := do
  let pg ← create.addEach patterns
  pg.compile

/-- The loop of `Paraglob::get` over the numbers of the meta words found. -/
def mergeLoop (fnmatch : Bytes → Bytes → Bool) (pg : Paraglob) (text : Bytes)
    (patterns : List Bytes) : List Int → Except Fault (List Bytes)
  | [] => .ok patterns
  | id :: rest => do
      let metaWord ← vectorAt pg.metaWords id
      let node ← pg.metaToNodeMap.atKey metaWord
      mergeLoop fnmatch pg text (node.mergeMatches fnmatch patterns text) rest

/-- `Paraglob::get`. -/
def get (fnmatch : Bytes → Bytes → Bool) (pg : Paraglob) (text : Bytes) :
    Except Fault (List Bytes × Paraglob) := do
  let (ids, myAc) ← pg.myAc.findAll text false
  let patterns ← mergeLoop fnmatch pg text [] ids
  let patterns := patterns ++ pg.singleWildcards
  .ok (SortedUnique.sortUnique patterns, { pg with myAc })

/-- `Paraglob::get_patterns`. -/
def getPatterns (pg : Paraglob) : List Bytes :=
  let patterns := pg.metaToNodeMap.entries.foldl
    (fun patterns entry => entry.2.mergePatterns patterns) []
  SortedUnique.sortUnique (patterns ++ pg.singleWildcards)

/-- `Paraglob::operator==`. -/
def equal (pg other : Paraglob) : Bool := pg.metaToNodeMap.equal other.metaToNodeMap

end Paraglob
