import Paraglob.Multifast.Trie
import Mathlib.Data.List.DropRight

/-!
# Replacing patterns in a text

The functions of `replace.c`, and `node_book_replacement`. A pattern may carry a
text that is to be put in its place. A text is read in chunks: the matches found
are booked as nominees, everything in front of the prefix of a pattern that the
text ends with is copied to a buffer with the nominees replaced, and the rest is
kept in the backlog until the next chunk decides about it. A full buffer is handed
to a callback. Callbacks return nothing, so a callback is represented by a name
from `κ`, and the calls are recorded.
-/

namespace Multifast

/-- `MF_REPLACE_MODE_t`. -/
inductive MfReplaceMode where
  | default
  | normal
  | lazy
deriving DecidableEq

/-- `MF_REPLACEMENT_BUFFER_SIZE`. -/
def mfReplacementBufferSize : Nat := 2048

/-- The difference of two values of type `size_t`. -/
def sizeSub (m n : Nat) : Nat := if n ≤ m then m - n else m + 2 ^ 64 - n

/-- `struct mf_replacement_nominee`, with a pattern that is not null. -/
structure MfReplacementNominee where
  pattern : AcPattern
  position : Nat
deriving DecidableEq

/-- The position at which the pattern begins. -/
def MfReplacementNominee.start (nom : MfReplacementNominee) : Nat :=
  sizeSub nom.position nom.pattern.ptext.length

/-- `MF_REPLACEMENT_DATA_t`. The texts are what was written to the two arrays. `cbf` is
the callback with its parameter `user`: nothing is known of both until the first
replacement sets them. The last field is not one of the structure: it records the calls
of callbacks. -/
structure MfReplacementData (κ : Type) where
  buffer : Bytes
  backlog : Bytes
  hasReplacement : UInt32
  noms : List MfReplacementNominee
  curser : Nat
  replaceMode : MfReplaceMode
  cbf : Option κ
  delivered : List (κ × Bytes)

/-- What `memcpy` reads from `length` cells on from `start`. -/
def readCells (cells : Bytes) (start length : Nat) : Except Fault Bytes :=
  if start + length ≤ cells.length ∨ length = 0 then .ok ((cells.drop start).take length)
  else .error .outOfBounds

namespace MfReplacementData

variable {κ : Type}

/-- `mf_repdata_init`, which sets all fields but `cbf` and `user`. -/
def init : MfReplacementData κ :=
  { buffer := [], backlog := [], hasReplacement := 0, noms := [], curser := 0
    replaceMode := .default, cbf := none, delivered := [] }

/-- `mf_repdata_reset`. -/
def reset (rd : MfReplacementData κ) : MfReplacementData κ :=
  { rd with buffer := [], backlog := [], curser := 0, noms := [] }

/-- `mf_repdata_flush`. -/
def flush (rd : MfReplacementData κ) : Except Fault (MfReplacementData κ) :=
  match rd.cbf with
  | none => .error .uninitialized
  | some cbf => .ok { rd with delivered := rd.delivered ++ [(cbf, rd.buffer)], buffer := [] }

/-- `mf_repdata_push_nominee`. -/
def pushNominee (rd : MfReplacementData κ) (newNom : MfReplacementNominee) :
    MfReplacementData κ :=
  { rd with noms := rd.noms ++ [newNom] }

/-- `mf_repdata_booknominee` for a nominee whose pattern may be null. -/
def bookNominee (rd : MfReplacementData κ) (pattern : Option AcPattern) (position : Nat) :
    MfReplacementData κ :=
  match pattern with
  | none => rd
  | some pattern =>
      let newNom : MfReplacementNominee := ⟨pattern, position⟩
      match rd.replaceMode with
      | .lazy =>
          if newNom.start < rd.curser then rd
          else
            match rd.noms.getLast? with
            | some prevNom => if newNom.start < prevNom.position then rd else rd.pushNominee newNom
            | none => rd.pushNominee newNom
      | .default | .normal =>
          -- The nominees at the end of the array that are factors of the new one are popped.
          pushNominee
            { rd with noms := rd.noms.rdropWhile fun prevNom => newNom.start ≤ prevNom.start }
            newNom

/-- The loop of `mf_repdata_appendtext` over what is left of the text. A round copies as much
as the buffer takes and flushes the buffer when it is full. -/
def appendLoop : Nat → MfReplacementData κ → Bytes → Except Fault (MfReplacementData κ)
  | 0, _, _ => .error .outOfFuel
  | fuel + 1, rd, text =>
      if text.length = 0 then .ok rd
      else do
        let remainingBufspace := sizeSub mfReplacementBufferSize rd.buffer.length
        let copyLen := if remainingBufspace ≥ text.length then text.length else remainingBufspace
        let rd := { rd with buffer := rd.buffer ++ text.take copyLen }
        let rd ← if rd.buffer.length = mfReplacementBufferSize then rd.flush else .ok rd
        appendLoop fuel rd (text.drop copyLen)

/-- `mf_repdata_appendtext`. A round that copies nothing empties the buffer for the next one. -/
def appendText (rd : MfReplacementData κ) (text : Bytes) : Except Fault (MfReplacementData κ) :=
  appendLoop (text.length + 2) rd text

/-- `mf_repdata_appendfactor` for the letters of the whole text from `fromPos` up to `toPos`.
The chunk at hand begins at `basePosition`, what is before it is taken from the backlog. -/
def appendFactor (rd : MfReplacementData κ) (instr : Option Bytes)
    (basePosition fromPos toPos : Nat) : Except Fault (MfReplacementData κ) :=
  if toPos < fromPos then .ok rd
  else if basePosition ≤ fromPos then
    match instr with
    | none => .error .nullPointer
    | some instr => do
        let factor ← readCells instr (fromPos - basePosition) (toPos - fromPos)
        rd.appendText factor
  else
    let backlogBasePos := sizeSub basePosition rd.backlog.length
    if fromPos < backlogBasePos then .ok rd
    else if toPos < basePosition then do
      let factor ← readCells rd.backlog (fromPos - backlogBasePos) (toPos - fromPos)
      rd.appendText factor
    else do
      let factor ← readCells rd.backlog (fromPos - backlogBasePos)
        (sizeSub (rd.backlog.length + backlogBasePos) fromPos)
      let rd ← rd.appendText factor
      match instr with
      | none => .error .nullPointer
      | some instr => do
          let factor ← readCells instr 0 (toPos - basePosition)
          rd.appendText factor

/-- `mf_repdata_savetobacklog`. The array has room for `AC_PATTRN_MAX_LENGTH` letters. -/
def saveToBacklog (rd : MfReplacementData κ) (instr : Bytes) (basePosition bgPos : Nat) :
    Except Fault (MfReplacementData κ) :=
  let bgPosR := if basePosition < bgPos then bgPos - basePosition else 0
  if instr.length = bgPosR then .ok rd
  else if instr.length < bgPosR then .ok rd
  else if rd.backlog.length + (instr.length - bgPosR) ≤ acPatternMaxLength then
    .ok { rd with backlog := rd.backlog ++ instr.drop bgPosR }
  else .error .outOfBounds

/-- The loop of `mf_repdata_do_replace` over the nominees: the index it stops at, and the nominees
that are not consumed. -/
def consumeNominees (rtext : AcPattern → Option Bytes) (instr : Option Bytes)
    (basePosition toPosition : Nat) : Nat → List MfReplacementNominee → MfReplacementData κ →
      Except Fault (Nat × List MfReplacementNominee × MfReplacementData κ)
  | index, [], rd => .ok (index, [], rd)
  | index, nom :: noms, rd =>
      if toPosition ≤ nom.start then .ok (index, nom :: noms, rd)
      else do
        let rd ← rd.appendFactor instr basePosition rd.curser nom.start
        match rtext nom.pattern with
        | none => .error .nullPointer
        | some text => do
            let rd ← rd.appendText text
            -- The index has 32 bits. When it wraps, the loop goes over the same nominees again,
            -- none of which stops it.
            if index + 1 = 2 ^ 32 then .error .outOfFuel
            else
              consumeNominees rtext instr basePosition toPosition (index + 1) noms
                { rd with curser := nom.position }

/-- The `memcpy` of `mf_repdata_do_replace`, which moves what is left to the front of the array. -/
def moveNominees (index : Nat) (noms : List MfReplacementNominee) :
    Except Fault (List MfReplacementNominee) :=
  if noms.length ≠ 0 ∧ index ≠ 0 ∧ index < noms.length then .error .overlap else .ok noms

/-- `mf_repdata_do_replace`. -/
def doReplace (rd : MfReplacementData κ) (rtext : AcPattern → Option Bytes) (instr : Option Bytes)
    (basePosition toPosition : Nat) : Except Fault (MfReplacementData κ) :=
  if toPosition < basePosition then .ok rd
  else do
    let (index, rest, rd) ← consumeNominees rtext instr basePosition toPosition 0 rd.noms rd
    let noms ← moveNominees index rest
    let rd := { rd with noms }
    let rd ←
      if toPosition > rd.curser then do
        let rd ← rd.appendFactor instr basePosition rd.curser toPosition
        .ok { rd with curser := toPosition }
      else .ok rd
    if basePosition ≤ rd.curser then .ok { rd with backlog := [] } else .ok rd

end MfReplacementData

/-- One round of `node_book_replacement`: a longer pattern with a replacement wins. -/
def bookLonger (rtext : AcPattern → Option Bytes) (longest : Option AcPattern)
    (pattern : AcPattern) : Option AcPattern :=
  if (rtext pattern).isSome then
    match longest with
    | none => some pattern
    | some l => if pattern.ptext.length > l.ptext.length then some pattern else some l
  else longest

/-- `node_book_replacement`: what the field `to_be_replaced` of the node, which holds `booked`,
is set to, and the value that is returned. -/
def nodeBookReplacement (rtext : AcPattern → Option Bytes) (nod : ActNode)
    (booked : Option AcPattern) : Option AcPattern × UInt32 :=
  if !nod.final then (booked, 0)
  else
    let longest := nod.matched.foldl (bookLonger rtext) none
    (longest, if longest.isSome then 1 else 0)

/-- The fields `to_be_replaced` of the nodes. -/
abbrev Bookmarks := Nat → Option AcPattern

/-- One level of `mf_repdata_bookreplacements`. The sum is accumulated in the store. -/
def bookReplacementsWalk (rtext : AcPattern → Option Bytes) (nodes : Mpool) :
    DepthFirst.Walk (Bookmarks × UInt32) Nat ActEdge Fault where
  edges _ n := (nodes.node n).outgoing
  target := ActEdge.next
  visit n s :=
    let (longest, ret) := nodeBookReplacement rtext (nodes.node n) (s.1 n)
    .ok (Function.update s.1 n longest, s.2 + ret)
  follow _ _ s := .ok s
  exhausted := .outOfFuel

/-- `mf_repdata_bookreplacements`. -/
def bookReplacements (rtext : AcPattern → Option Bytes) (nodes : Mpool) (fuel n : Nat)
    (bookmarks : Bookmarks) : Except Fault (Bookmarks × UInt32) :=
  (bookReplacementsWalk rtext nodes).run fuel n (bookmarks, 0)

/-- A trie with its replacement data. No two patterns of a trie have the same search text, so
`rtexts` keeps the replacement texts that are not null beside the patterns. -/
structure ReplaceTrie (κ : Type) where
  trie : AcTrie
  rtexts : List (AcPattern × Bytes)
  toBeReplaced : Bookmarks
  repdata : MfReplacementData κ

namespace ReplaceTrie

variable {κ σ : Type}

/-- The field `rtext` of a pattern of the trie. -/
def rtext (thiz : ReplaceTrie κ) (patt : AcPattern) : Option Bytes := thiz.rtexts.lookup patt

/-- `ac_trie_create`. -/
def create : ReplaceTrie κ :=
  { trie := .create, rtexts := [], toBeReplaced := fun _ => none, repdata := .init }

/-- `ac_trie_add` for a pattern with the field `rtext`. -/
def add (thiz : ReplaceTrie κ) (patt : AcPattern) (rtext : Option Bytes) :
    AcStatus × ReplaceTrie κ :=
  let (status, trie) := thiz.trie.add patt
  if status = .success then
    (status, { thiz with trie, rtexts := thiz.rtexts ++ (rtext.map (Prod.mk patt)).toList })
  else (status, { thiz with trie })

/-- `ac_trie_finalize` with `mf_repdata_allocbuf`. Both arrays are new, so letters that are still
counted in them were never written. -/
def finalize (thiz : ReplaceTrie κ) : Except Fault (ReplaceTrie κ) := do
  let trie ← thiz.trie.finalize
  let (toBeReplaced, count) ←
    bookReplacements thiz.rtext trie.nodes (trie.nodes.length + 1) trie.root thiz.toBeReplaced
  if count ≠ 0 ∧ (thiz.repdata.buffer ≠ [] ∨ thiz.repdata.backlog ≠ []) then .error .uninitialized
  else
    .ok { thiz with trie, toBeReplaced, repdata := { thiz.repdata with hasReplacement := count } }

/-- `ac_trie_search`. -/
def search (thiz : ReplaceTrie κ) (text : Option Bytes) (keep : Bool)
    (callback : AcMatch → σ → σ × Bool) (user : σ) :
    Except Fault (Int × ReplaceTrie κ × σ) := do
  let (code, trie, user) ← thiz.trie.search text keep callback user
  if thiz.trie.trieOpen || keep then .ok (code, { thiz with trie }, user)
  else .ok (code, { thiz with trie, repdata := thiz.repdata.reset }, user)

/-- `ac_trie_settext`. -/
def setText (thiz : ReplaceTrie κ) (text : Bytes) (keep : Bool) : ReplaceTrie κ :=
  { thiz with
    trie := thiz.trie.setText text keep
    repdata := if keep then thiz.repdata else thiz.repdata.reset }

/-- `ac_trie_findnext`. -/
def findNext (thiz : ReplaceTrie κ) : Except Fault (AcMatch × ReplaceTrie κ) := do
  let (result, trie) ← thiz.trie.findNext
  .ok (result, { thiz with trie })

/-- The main loop of `multifast_replace`. A nominee is booked after a letter was consumed, never
after a failure transition. -/
def replaceLoop (nodes : Mpool) (toBeReplaced : Bookmarks) (basePosition : Nat) (instr : Bytes) :
    Nat → Nat → Nat → MfReplacementData κ → Except Fault (Nat × Nat × MfReplacementData κ)
  | 0, _, _, _ => .error .outOfFuel
  | fuel + 1, positionR, current, rd =>
      match instr[positionR]? with
      | none => .ok (positionR, current, rd)
      | some alpha => do
          match ← (nodes.node current).findNextBs alpha with
          | none =>
              match (nodes.node current).failureNode with
              | some failure =>
                  replaceLoop nodes toBeReplaced basePosition instr fuel positionR failure rd
              | none =>
                  replaceLoop nodes toBeReplaced basePosition instr fuel (positionR + 1) current rd
          | some next =>
              if (nodes.node next).final then
                replaceLoop nodes toBeReplaced basePosition instr fuel (positionR + 1) next
                  (rd.bookNominee (toBeReplaced next) (basePosition + (positionR + 1)))
              else
                replaceLoop nodes toBeReplaced basePosition instr fuel (positionR + 1) next rd

/-- `multifast_replace`. -/
def multifastReplace (thiz : ReplaceTrie κ) (instr : Bytes) (mode : MfReplaceMode) (callback : κ) :
    Except Fault (Int × ReplaceTrie κ) :=
  if thiz.trie.trieOpen then .ok (-1, thiz)
  else if thiz.repdata.hasReplacement = 0 then .ok (-2, thiz)
  else do
    let rd := { thiz.repdata with cbf := some callback, replaceMode := mode }
    let basePosition := thiz.trie.basePosition
    let (positionR, current, rd) ← replaceLoop thiz.trie.nodes thiz.toBeReplaced basePosition instr
      (2 * instr.length + thiz.trie.nodes.length + 1) 0 thiz.trie.lastNode rd
    let backlogPos := sizeSub (basePosition + instr.length) (thiz.trie.nodes.node current).depth
    let rd ← rd.doReplace thiz.rtext (some instr) basePosition backlogPos
    let rd ← rd.saveToBacklog instr basePosition backlogPos
    .ok (0, { thiz with
      trie := { thiz.trie with
        text := some instr, lastNode := current, basePosition := basePosition + positionR }
      repdata := rd })

/-- `multifast_rep_flush`. -/
def multifastRepFlush (thiz : ReplaceTrie κ) (keep : Bool) : Except Fault (ReplaceTrie κ) := do
  let basePosition := thiz.trie.basePosition
  let rd ←
    if keep then .ok thiz.repdata
    else thiz.repdata.doReplace thiz.rtext thiz.trie.text basePosition basePosition
  let rd ← rd.flush
  if keep then .ok { thiz with repdata := rd }
  else .ok { thiz with
    trie := { thiz.trie with lastNode := thiz.trie.root, basePosition := 0 }
    repdata := rd.reset }

end ReplaceTrie

end Multifast
