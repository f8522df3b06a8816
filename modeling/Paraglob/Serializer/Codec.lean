import Paraglob.Basic

/-!
# The serializer

A vector of strings is written as its length followed by the strings, each behind
its own length; a length takes the eight bytes of a `uint64_t` in the order of a
little-endian machine. The reader moves an iterator through the bytes. An
iterator is an index here, and dereferencing it outside the vector is a fault.
-/

namespace ParaglobSerializer

/-- The size of the integer fields, `sizeof(uint64_t)`. -/
def intSize : Nat := 8

/-- `add_int`. -/
def addInt (a : UInt64) (target : Bytes) : Bytes :=
  target ++ (List.range intSize).map fun k => UInt8.ofNat (a.toNat / 256 ^ k)

/-- `ParaglobSerializer::serialize`. -/
def serialize (v : List Bytes) : Bytes :=
  v.foldl (fun ret s => addInt (UInt64.ofNat s.length) ret ++ s)
    (addInt (UInt64.ofNat v.length) [])

/-- `*it`. -/
def deref (vsp : Bytes) (it : Nat) : Except Fault UInt8 :=
  match vsp[it]? with
  | some c => .ok c
  | none => .error .outOfBounds

/-- `get_int_and_move`. The cast is applied to the byte at the iterator, so the value
of the integer is that of its first byte. -/
def getIntAndMove (vsp : Bytes) (start : Nat) : Except Fault (UInt64 × Nat) :=
  match deref vsp start with
  | .ok c => .ok (c.toUInt64, start + intSize)
  | .error fault => .error fault

theorem getIntAndMove_eq_ok {vsp : Bytes} {start next : Nat} {a : UInt64}
    (moved : getIntAndMove vsp start = .ok (a, next)) : next = start + intSize := by
  rw [getIntAndMove] at moved
  split at moved
  · exact (Prod.mk.inj (Except.ok.inj moved)).2.symm
  · cases moved

/-- The constructor of a string from two iterators: `l` bytes from `first` on. -/
def copyString (vsp : Bytes) (first : Nat) : Nat → Except Fault Bytes
  | 0 => .ok []
  | l + 1 => do
      let c ← deref vsp first
      let rest ← copyString vsp (first + 1) l
      .ok (c :: rest)

/-- The loop of `unserialize`: the strings read and the iterator it ends with. -/
def readStrings (vsp : Bytes) (it : Nat) (ret : List Bytes) : Except Fault (List Bytes × Nat) :=
  if it < vsp.length then
    match _moved : getIntAndMove vsp it with
    | .ok (l, first) =>
        match copyString vsp first l.toNat with
        | .ok s => readStrings vsp (first + l.toNat) (ret ++ [s])
        | .error fault => .error fault
    | .error fault => .error fault
  else .ok (ret, it)
termination_by vsp.length - it
decreasing_by
  have next := getIntAndMove_eq_ok _moved
  rw [intSize] at next
  omega

def endedUnexpectedly : Bytes := "Serialization data ended unexpectedly.".toUTF8.toList
def readMore : Bytes := "Read more patterns than expected.".toUTF8.toList
def readFewer : Bytes := "Read fewer patterns than expected.".toUTF8.toList

/-- `ParaglobSerializer::unserialize`. -/
def unserialize (vsp : Bytes) : Except Fault (List Bytes) := do
  let (nStrings, it) ← getIntAndMove vsp 0
  if it > vsp.length then .error (.underflowError endedUnexpectedly)
  else do
    let (ret, it) ← readStrings vsp it []
    if it > vsp.length then .error (.underflowError endedUnexpectedly)
    else if ret.length > nStrings.toNat then .error (.overflowError readMore)
    else if ret.length < nStrings.toNat then .error (.underflowError readFewer)
    else .ok ret

end ParaglobSerializer
