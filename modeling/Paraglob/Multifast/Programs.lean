import Paraglob.Multifast.Pool
import Mathlib.Data.List.Forall2

/-!
# Programs that use the pool

A program asks for pieces, has patterns copied, and stores and loads in the pieces it
was given. Run once with the pool and once with the allocator of the C library, it
sees no difference, unless it asks for an empty piece and the library hands one out.
-/

open Buffers

namespace Multifast

namespace Allocator

variable {σ : Type} (A : Allocator σ)

/-- `mpool_strndup` for the bytes at `str`, with any allocator. -/
def strndup (s : σ) (str : Option Bytes) (n : UInt64) : Except Fault (Option Slot × σ) :=
  match str with
  | none => .ok (none, s)
  | some str =>
      match A.malloc s (n + 1) with
      | (none, s) => .ok (none, s)
      | (some ret, s) =>
          if str.length < n.toNat then .error .outOfBounds
          else do
            let s ← A.store s ret (str.take n.toNat)
            let s ← A.store s (ret.shift n.toNat) [0]
            .ok (some ret, s)

/-- `strlen`. -/
def strlen (str : Bytes) : Except Fault UInt64 :=
  if 0 ∈ str then .ok (UInt64.ofNat (str.idxOf 0)) else .error .outOfBounds

/-- `mpool_strdup`. -/
def strdup (s : σ) (str : Option Bytes) : Except Fault (Option Slot × σ) :=
  match str with
  | none => .ok (none, s)
  | some bytes => do
      let len ← strlen bytes
      A.strndup s str len

end Allocator

/-- `AC_TEXT_t`: what is at `astring`, and the length. -/
structure AcText where
  astring : Option Bytes
  length : UInt64
deriving DecidableEq

/-- `AC_PATTID_t`. -/
inductive AcPattid (str : Type) where
  | number (n : Int)
  | stringy (s : Option str)
deriving DecidableEq

/-- `AC_PATTERN_t` with the texts that are at its pointers. -/
structure AcPatternTexts where
  ptext : AcText
  rtext : AcText
  id : AcPattid Bytes
deriving DecidableEq

/-- `AC_PATTERN_t` with pointers. -/
structure AcPatternSlots where
  ptext : Option Slot × UInt64
  rtext : Option Slot × UInt64
  id : AcPattid Slot
deriving DecidableEq

def AcPattid.pointers : AcPattid Slot → List (Option Slot)
  | .stringy str => [str]
  | .number _ => []

/-- The pointers of a pattern. -/
def AcPatternSlots.pointers (slots : AcPatternSlots) : List (Option Slot) :=
  slots.ptext.1 :: slots.rtext.1 :: slots.id.pointers

namespace Allocator

variable {σ : Type} (A : Allocator σ)

/-- The last step of `node_copy_pattern`. -/
def copyId (s : σ) : AcPattid Bytes → Except Fault (AcPattid Slot × σ)
  | .stringy str => do
      let (stringy, s) ← A.strdup s str
      .ok (.stringy stringy, s)
  | .number n => .ok (.number n, s)

/-- `node_copy_pattern`, where a letter takes one byte. -/
def nodeCopyPattern (s : σ) (patt : AcPatternTexts) : Except Fault (AcPatternSlots × σ) := do
  let (ptext, s) ← A.strndup s patt.ptext.astring patt.ptext.length
  let (rtext, s) ← A.strndup s patt.rtext.astring patt.rtext.length
  let (id, s) ← A.copyId s patt.id
  .ok (⟨(ptext, patt.ptext.length), (rtext, patt.rtext.length), id⟩, s)

end Allocator

/-- What a program does with the pieces that it was given, which it knows by their numbers. -/
inductive Request where
  | malloc (size : UInt64)
  | copyPattern (patt : AcPatternTexts)
  | store (piece offset : Nat) (bytes : Bytes)
  | load (piece offset n : Nat)
deriving DecidableEq

/-- A program: the pointers that it was given, and the cells that it read. -/
structure Program (σ : Type) where
  state : σ
  pointers : List (Option Slot)
  loaded : List (Cells UInt8)
deriving DecidableEq

def Program.pointer {σ : Type} (c : Program σ) (piece : Nat) : Except Fault Slot :=
  match c.pointers[piece]? with
  | some (some slot) => .ok slot
  | some none => .error .nullPointer
  | none => .error .outOfBounds

namespace Allocator

variable {σ : Type} (A : Allocator σ)

/-- One step of a program. -/
def serve (c : Program σ) : Request → Except Fault (Program σ)
  | .malloc size =>
      let (ret, s) := A.malloc c.state size
      .ok { c with state := s, pointers := c.pointers ++ [ret] }
  | .copyPattern patt => do
      let (slots, s) ← A.nodeCopyPattern c.state patt
      .ok { c with state := s, pointers := c.pointers ++ slots.pointers }
  | .store piece offset bytes => do
      let slot ← c.pointer piece
      let s ← A.store c.state (slot.shift offset) bytes
      .ok { c with state := s }
  | .load piece offset n => do
      let slot ← c.pointer piece
      match Buffers.load (A.memory c.state) (slot.shift offset) n with
      | some cells => .ok { c with loaded := c.loaded ++ [cells] }
      | none => .error .outOfBounds

def run (c : Program σ) (requests : List Request) : Except Fault (Program σ) :=
  requests.foldlM A.serve c

end Allocator

variable {parts : List (Buffers.Part UInt8)} {memory memory' : Memory UInt8} {s : PoolState}
variable {size : UInt64}

/-- The two pointers are null, or they are the beginnings of a buffer and of its part. -/
def Matches (parts : List (Buffers.Part UInt8)) (r r' : Option Slot) : Prop :=
  (r = none ∧ r' = none) ∨ ∃ i p, parts[i]? = some p ∧ r = some ⟨i, 0⟩ ∧ r' = some p.1

/-- Parts that stay where they are, with more of them behind. -/
def Extends (parts parts' : List (Buffers.Part UInt8)) : Prop :=
  parts.map extent <+: parts'.map extent

variable {parts' : List (Buffers.Part UInt8)} {r r' : Option Slot}

theorem Extends.refl (parts : List (Buffers.Part UInt8)) : Extends parts parts := List.prefix_rfl

theorem Extends.trans {parts'' : List (Buffers.Part UInt8)} (first : Extends parts parts')
    (second : Extends parts' parts'') : Extends parts parts'' := List.IsPrefix.trans first second

theorem Extends.append (parts more : List (Buffers.Part UInt8)) :
    Extends parts (parts ++ more) := by
  rw [Extends, List.map_append]
  exact List.prefix_append _ _

theorem Extends.of_eq (same : parts'.map extent = parts.map extent) : Extends parts parts' :=
  ⟨[], (List.append_nil _).trans same.symm⟩

theorem Extends.getElem? (grown : Extends parts parts') {i : Nat} {p : Buffers.Part UInt8}
    (at_i : parts[i]? = some p) : ∃ p', parts'[i]? = some p' ∧ p'.1 = p.1 := by
  obtain ⟨more, whole⟩ := grown
  have at_i' : (parts'.map extent)[i]? = some (extent p) := by
    have earlier : i < (parts.map extent).length := by
      rw [List.length_map]
      exact (List.getElem?_eq_some_iff.mp at_i).1
    rw [← whole, List.getElem?_append_left earlier, List.getElem?_map, at_i]
    rfl
  rw [List.getElem?_map, Option.map_eq_some_iff] at at_i'
  obtain ⟨p', at_i', same⟩ := at_i'
  exact ⟨p', at_i', (Prod.mk.inj same).1⟩

theorem Matches.mono (matched : Matches parts r r') (grown : Extends parts parts') :
    Matches parts' r r' := by
  obtain null | ⟨i, p, at_i, rfl, rfl⟩ := matched
  · exact Or.inl null
  · obtain ⟨p', at_i', same⟩ := grown.getElem? at_i
    exact Or.inr ⟨i, p', at_i', rfl, same ▸ rfl⟩

theorem cLibrary_malloc (emptyPieces : Bool) (memory : Memory UInt8) (nonzero : size ≠ 0) :
    (cLibrary emptyPieces).malloc memory size =
      (some ⟨memory.length, 0⟩, alloc memory size.toNat) := if_neg fun both => nonzero both.1

theorem system_malloc (memory : Memory UInt8) (nonzero : size ≠ 0) :
    system.malloc memory size = (some ⟨memory.length, 0⟩, alloc memory size.toNat) :=
  cLibrary_malloc false memory nonzero

theorem Simulates.getElem?_concat (h : Simulates parts memory s) (p : Buffers.Part UInt8) :
    (parts ++ [p])[memory.length]? = some p := by
  rw [h.buffers, Buffers.buffers, List.length_map]
  exact List.getElem?_concat_length

/-- Both allocators hand out a piece, or none does. -/
theorem Simulates.malloc_matches (h : Simulates parts memory s)
    (small : size.toNat + 15 < 2 ^ 64) :
    ∃ parts' r' s', mpoolMalloc s size = (r', s') ∧
      Simulates parts' (system.malloc memory size).2 s' ∧ Extends parts parts' ∧
      Matches parts' (system.malloc memory size).1 r' := by
  by_cases zero : size = 0
  · subst zero
    exact ⟨parts, none, s, rfl, h, .refl parts, Or.inl ⟨rfl, rfl⟩⟩
  · obtain ⟨slot, s', ran, h'⟩ := h.malloc zero small
    rw [system_malloc memory zero]
    exact ⟨_, some slot, s', ran, h', .append parts _,
      Or.inr ⟨memory.length, _, h.getElem?_concat _, rfl, rfl⟩⟩

theorem toNat_succ {n : UInt64} (small : n.toNat + 16 < 2 ^ 64) :
    (n + 1).toNat = n.toNat + 1 ∧ n + 1 ≠ 0 := by
  have next : (n + 1).toNat = n.toNat + 1 := by
    rw [UInt64.toNat_add]
    exact Nat.mod_eq_of_lt (Nat.lt_of_le_of_lt (Nat.add_le_add_left (by decide) _) small)
  refine ⟨next, fun zero => ?_⟩
  rw [zero] at next
  cases next

theorem Simulates.strndup (h : Simulates parts memory s) {str : Option Bytes} {n : UInt64}
    (small : n.toNat + 16 < 2 ^ 64) (ran : system.strndup memory str n = .ok (r, memory')) :
    ∃ parts' r' s', mpool.strndup s str n = .ok (r', s') ∧ Simulates parts' memory' s' ∧
      Extends parts parts' ∧ Matches parts' r r' := by
  cases str with
  | none =>
      obtain ⟨rfl, rfl⟩ := Prod.mk.inj (Except.ok.inj ran)
      exact ⟨parts, none, s, rfl, h, .refl parts, Or.inl ⟨rfl, rfl⟩⟩
  | some str =>
      obtain ⟨next, nonzero⟩ := toNat_succ small
      obtain ⟨slot, s₁, got, h₁⟩ := h.malloc nonzero (next ▸ small)
      have at_new := h.getElem?_concat (slot, List.replicate (n + 1).toNat none)
      have got' : mpool.malloc s (n + 1) = (some slot, s₁) := got
      simp only [Allocator.strndup, system_malloc memory nonzero] at ran
      simp only [Allocator.strndup, got']
      by_cases missing : str.length < n.toNat
      · rw [if_pos missing] at ran
        cases ran
      · rw [if_neg missing] at ran ⊢
        obtain ⟨memory₂, copied, ran⟩ := exists_of_bind_eq_ok ran
        obtain ⟨memory₃, ended, ran⟩ := exists_of_bind_eq_ok ran
        obtain ⟨rfl, rfl⟩ := Prod.mk.inj (Except.ok.inj ran)
        obtain ⟨parts₂, s₂, copied', h₂, same₂⟩ := h₁.store (k := 0) at_new copied
        obtain ⟨p₂, at_new₂, start₂⟩ := (Extends.of_eq same₂).getElem? at_new
        obtain ⟨parts₃, s₃, written, h₃, same₃⟩ := h₂.store at_new₂ ended
        obtain ⟨p₃, at_new₃, start₃⟩ := (Extends.of_eq same₃).getElem? at_new₂
        rw [start₂] at written
        refine ⟨parts₃, some slot, s₃, ?_, h₃, ?_, ?_⟩
        · exact (bind_of_ok copied' _).trans (bind_of_ok written _)
        · exact (Extends.append parts _).trans ((Extends.of_eq same₂).trans (.of_eq same₃))
        · exact Or.inr ⟨memory.length, p₃, at_new₃, rfl, by rw [start₃, start₂]⟩

/-- Sizes that are not within 16 bytes of the greatest `size_t`. -/
def AcPatternTexts.Small (patt : AcPatternTexts) : Prop :=
  patt.ptext.length.toNat + 16 < 2 ^ 64 ∧ patt.rtext.length.toNat + 16 < 2 ^ 64 ∧
    ∀ str, patt.id = .stringy (some str) → str.length + 16 < 2 ^ 64

theorem toNat_strlen {bytes : Bytes} {len : UInt64} (small : bytes.length + 16 < 2 ^ 64)
    (measured : Allocator.strlen bytes = .ok len) :
    len.toNat = bytes.idxOf 0 ∧ len.toNat + 16 < 2 ^ 64 := by
  rw [Allocator.strlen] at measured
  split at measured
  · rename_i ended
    have inside := List.idxOf_lt_length_of_mem ended
    have exact_len : len.toNat = bytes.idxOf 0 := by
      rw [← Except.ok.inj measured]
      apply UInt64.toNat_ofNat_of_lt'
      rw [UInt64.size]
      omega
    refine ⟨exact_len, ?_⟩
    omega
  · cases measured

theorem Simulates.copyId (h : Simulates parts memory s) {id : AcPattid Bytes}
    {pointer : AcPattid Slot}
    (small : ∀ str, id = .stringy (some str) → str.length + 16 < 2 ^ 64)
    (ran : system.copyId memory id = .ok (pointer, memory')) :
    ∃ parts' pointer' s', mpool.copyId s id = .ok (pointer', s') ∧ Simulates parts' memory' s' ∧
      Extends parts parts' ∧ List.Forall₂ (Matches parts') pointer.pointers pointer'.pointers := by
  cases id with
  | number n =>
      obtain ⟨rfl, rfl⟩ := Prod.mk.inj (Except.ok.inj ran)
      exact ⟨parts, .number n, s, rfl, h, .refl parts, .nil⟩
  | stringy str =>
      obtain ⟨⟨r, memory₁⟩, copied, ran⟩ := exists_of_bind_eq_ok ran
      obtain ⟨rfl, rfl⟩ := Prod.mk.inj (Except.ok.inj ran)
      have copy : ∃ parts' r' s', mpool.strdup s str = .ok (r', s') ∧ Simulates parts' memory₁ s' ∧
          Extends parts parts' ∧ Matches parts' r r' := by
        cases str with
        | none =>
            obtain ⟨rfl, rfl⟩ := Prod.mk.inj (Except.ok.inj copied)
            exact ⟨parts, none, s, rfl, h, .refl parts, Or.inl ⟨rfl, rfl⟩⟩
        | some str =>
            obtain ⟨len, measured, copied⟩ := exists_of_bind_eq_ok copied
            obtain ⟨parts', r', s', ran', rest⟩ :=
              h.strndup (toNat_strlen (small str rfl) measured).2 copied
            exact ⟨parts', r', s', (bind_of_ok measured _).trans ran', rest⟩
      obtain ⟨parts', r', s', ran', h', grown, matched⟩ := copy
      exact ⟨parts', .stringy r', s', bind_of_ok ran' _, h', grown, .cons matched .nil⟩

theorem Simulates.nodeCopyPattern (h : Simulates parts memory s) {patt : AcPatternTexts}
    {slots : AcPatternSlots} (small : patt.Small)
    (ran : system.nodeCopyPattern memory patt = .ok (slots, memory')) :
    ∃ parts' slots' s', mpool.nodeCopyPattern s patt = .ok (slots', s') ∧
      Simulates parts' memory' s' ∧ Extends parts parts' ∧
      List.Forall₂ (Matches parts') slots.pointers slots'.pointers := by
  obtain ⟨ptextSmall, rtextSmall, idSmall⟩ := small
  obtain ⟨⟨ptext, memory₁⟩, copied₁, ran⟩ := exists_of_bind_eq_ok ran
  obtain ⟨⟨rtext, memory₂⟩, copied₂, ran⟩ := exists_of_bind_eq_ok ran
  obtain ⟨⟨id, memory₃⟩, copied₃, ran⟩ := exists_of_bind_eq_ok ran
  obtain ⟨rfl, rfl⟩ := Prod.mk.inj (Except.ok.inj ran)
  obtain ⟨parts₁, ptext', s₁, ran₁, h₁, grown₁, matched₁⟩ := h.strndup ptextSmall copied₁
  obtain ⟨parts₂, rtext', s₂, ran₂, h₂, grown₂, matched₂⟩ := h₁.strndup rtextSmall copied₂
  obtain ⟨parts₃, id', s₃, ran₃, h₃, grown₃, matched₃⟩ := h₂.copyId idSmall copied₃
  refine ⟨parts₃, ⟨(ptext', patt.ptext.length), (rtext', patt.rtext.length), id'⟩, s₃, ?_, h₃,
    ?_, ?_⟩
  · exact (bind_of_ok ran₁ _).trans ((bind_of_ok ran₂ _).trans (bind_of_ok ran₃ _))
  · exact grown₁.trans (grown₂.trans grown₃)
  · exact .cons (matched₁.mono (grown₂.trans grown₃)) (.cons (matched₂.mono grown₃) matched₃)

def Request.Small : Request → Prop
  | .malloc size => size.toNat + 15 < 2 ^ 64
  | .copyPattern patt => patt.Small
  | .store _ _ _ => True
  | .load _ _ _ => True

/-- The same program with the two allocators. -/
structure Agrees (parts : List (Buffers.Part UInt8)) (c : Program (Memory UInt8))
    (c' : Program PoolState) : Prop where
  state : Simulates parts c.state c'.state
  pointers : List.Forall₂ (Matches parts) c.pointers c'.pointers
  loaded : c'.loaded = c.loaded

variable {c c₁ : Program (Memory UInt8)} {c' : Program PoolState}

theorem Program.pointer_eq_ok {σ : Type} {c : Program σ} {piece : Nat} {slot : Slot}
    (found : c.pointer piece = .ok slot) : c.pointers[piece]? = some (some slot) := by
  rw [Program.pointer] at found
  split at found
  · rename_i at_piece
    rw [at_piece, Except.ok.inj found]
  · cases found
  · cases found

theorem Agrees.pointer (h : Agrees parts c c') {piece : Nat} {slot : Slot}
    (found : c.pointer piece = .ok slot) :
    ∃ i p, parts[i]? = some p ∧ slot = ⟨i, 0⟩ ∧ c'.pointer piece = .ok p.1 := by
  obtain ⟨bound, value⟩ := List.getElem?_eq_some_iff.mp (Program.pointer_eq_ok found)
  have bound' : piece < c'.pointers.length := h.pointers.length_eq ▸ bound
  have matched : Matches parts c.pointers[piece] c'.pointers[piece] :=
    h.pointers.get bound bound'
  rw [value] at matched
  obtain ⟨null, _⟩ | ⟨i, p, at_i, same, same'⟩ := matched
  · cases null
  · refine ⟨i, p, at_i, Option.some.inj same, ?_⟩
    have at_piece' : c'.pointers[piece]? = some (some p.1) :=
      (List.getElem?_eq_getElem bound').trans (congrArg some same')
    simp only [Program.pointer, at_piece']

theorem Agrees.grow (h : Agrees parts c c') {more more' : List (Option Slot)}
    (state : Simulates parts' memory' s) (grown : Extends parts parts')
    (matched : List.Forall₂ (Matches parts') more more') :
    Agrees parts' { c with state := memory', pointers := c.pointers ++ more }
      { c' with state := s, pointers := c'.pointers ++ more' } where
  state := state
  pointers := List.rel_append (h.pointers.imp fun _ _ earlier => earlier.mono grown) matched
  loaded := h.loaded

theorem Agrees.serve (h : Agrees parts c c') {request : Request} (small : request.Small)
    (served : system.serve c request = .ok c₁) :
    ∃ parts' c₁', mpool.serve c' request = .ok c₁' ∧ Agrees parts' c₁ c₁' := by
  cases request with
  | malloc size =>
      obtain rfl := Except.ok.inj served
      obtain ⟨parts', r', s', ran, state, grown, matched⟩ := h.state.malloc_matches small
      refine ⟨parts', _, ?_, h.grow state grown (.cons matched .nil)⟩
      exact congrArg (fun (got : Option Slot × PoolState) => Except.ok
        { c' with state := got.2, pointers := c'.pointers ++ [got.1] }) ran
  | copyPattern patt =>
      obtain ⟨⟨slots, memory₁⟩, copied, rest⟩ := exists_of_bind_eq_ok served
      obtain rfl := Except.ok.inj rest
      obtain ⟨parts', slots', s', ran, state, grown, matched⟩ :=
        h.state.nodeCopyPattern small copied
      exact ⟨parts', _, bind_of_ok ran _, h.grow state grown matched⟩
  | store piece offset bytes =>
      obtain ⟨slot, found, rest⟩ := exists_of_bind_eq_ok served
      obtain ⟨memory₁, stored, rest⟩ := exists_of_bind_eq_ok rest
      obtain rfl := Except.ok.inj rest
      obtain ⟨i, p, at_i, rfl, found'⟩ := h.pointer found
      obtain ⟨parts', s', ran, state, same⟩ := h.state.store at_i stored
      have pointers : List.Forall₂ (Matches parts') c.pointers c'.pointers :=
        h.pointers.imp fun _ _ earlier => earlier.mono (.of_eq same)
      exact ⟨parts', _, (bind_of_ok found' _).trans (bind_of_ok ran _), state, pointers, h.loaded⟩
  | load piece offset n =>
      obtain ⟨slot, found, rest⟩ := exists_of_bind_eq_ok served
      obtain ⟨i, p, at_i, rfl, found'⟩ := h.pointer found
      split at rest
      · rename_i cells read
        obtain rfl := Except.ok.inj rest
        have read' : Buffers.load (mpool.memory c'.state) (p.1.shift offset) n = some cells :=
          h.state.load at_i read
        refine ⟨parts, { c' with loaded := c'.loaded ++ [cells] }, ?_, h.state, h.pointers, ?_⟩
        · refine (bind_of_ok found' _).trans ?_
          simp only [read']
        · exact congrArg (· ++ [cells]) h.loaded
      · cases rest

theorem Agrees.run (h : Agrees parts c c') {requests : List Request}
    (small : ∀ request ∈ requests, request.Small) (served : system.run c requests = .ok c₁) :
    ∃ parts' c₁', mpool.run c' requests = .ok c₁' ∧ Agrees parts' c₁ c₁' := by
  induction requests generalizing parts c c' with
  | nil =>
      obtain rfl := Except.ok.inj served
      exact ⟨parts, c', rfl, h⟩
  | cons request requests ih =>
      obtain ⟨c₂, first, rest⟩ := exists_of_bind_eq_ok served
      obtain ⟨parts₂, c₂', first', h₂⟩ := h.serve (small request List.mem_cons_self) first
      obtain ⟨parts₃, c₃', rest', h₃⟩ :=
        ih h₂ (fun later hl => small later (List.mem_cons_of_mem _ hl)) rest
      exact ⟨parts₃, c₃', (bind_of_ok first' _).trans rest', h₃⟩

theorem isSome_of_matches {l l' : List (Option Slot)}
    (matched : List.Forall₂ (Matches parts) l l') :
    l'.map Option.isSome = l.map Option.isSome := by
  induction matched with
  | nil => rfl
  | cons first _ ih =>
      obtain ⟨rfl, rfl⟩ | ⟨i, p, _, rfl, rfl⟩ := first
      · exact congrArg (false :: ·) ih
      · exact congrArg (true :: ·) ih

theorem exists_part_of_matches {l l' : List (Option Slot)} {slot : Slot}
    (matched : List.Forall₂ (Matches parts) l l') (mem : some slot ∈ l') :
    ∃ p ∈ parts, slot = p.1 := by
  induction matched with
  | nil => exact absurd mem List.not_mem_nil
  | cons first _ ih =>
      cases List.mem_cons.mp mem with
      | inl here =>
          obtain ⟨_, null⟩ | ⟨i, p, at_i, _, same⟩ := first
          · exact absurd (here.trans null) (Option.some_ne_none slot)
          · exact ⟨p, List.mem_of_getElem? at_i, Option.some.inj (here.trans same)⟩
      | inr later => exact ih later

theorem simulates_create (memory : Memory UInt8) (size : UInt64) :
    Simulates [] [] (mpoolCreate memory size) := by
  have blank : ∀ size : UInt64, Simulates [] []
      { memory := alloc memory size.toNat
        pool := { block := ⟨size, memory.length, 0⟩, next := [] } } := by
    intro size
    refine ⟨rfl, layout_concat_iff.mpr ⟨⟨?_, ?_⟩, holds_alloc memory size.toNat, ?_⟩, Nat.zero_le _,
      rfl, ?_⟩
    · intro p hp
      exact absurd hp List.not_mem_nil
    · exact List.Pairwise.nil
    · intro p hp
      exact absurd hp List.not_mem_nil
    · intro p hp
      exact absurd hp List.not_mem_nil
  exact blank _

section EmptyPieces

variable (emptyPieces : Bool)

theorem strndup_cLibrary (memory : Memory UInt8) (str : Option Bytes) {n : UInt64}
    (small : n.toNat + 16 < 2 ^ 64) :
    (cLibrary emptyPieces).strndup memory str n = system.strndup memory str n := by
  cases str with
  | none => rfl
  | some str =>
      obtain ⟨_, nonzero⟩ := toNat_succ small
      simp only [Allocator.strndup, cLibrary_malloc _ memory nonzero]
      rfl

theorem copyId_cLibrary {id : AcPattid Bytes}
    (small : ∀ str, id = .stringy (some str) → str.length + 16 < 2 ^ 64) :
    (cLibrary emptyPieces).copyId memory id = system.copyId memory id := by
  cases id with
  | number n => rfl
  | stringy str =>
      cases str with
      | none => rfl
      | some str =>
          simp only [Allocator.copyId, Allocator.strdup]
          cases measured : Allocator.strlen str with
          | error fault => rfl
          | ok len =>
              have copied := strndup_cLibrary emptyPieces memory (some str)
                (toNat_strlen (small str rfl) measured).2
              exact congrArg (· >>= _) copied

/-- Only a request for an empty piece shows what the library does with it. -/
theorem serve_cLibrary (c : Program (Memory UInt8)) {request : Request} (small : request.Small)
    (nonempty : emptyPieces = true → request ≠ .malloc 0) :
    (cLibrary emptyPieces).serve c request = system.serve c request := by
  cases request with
  | malloc size =>
      cases emptyPieces with
      | false => rfl
      | true =>
          have nonzero : size ≠ 0 := fun zero => nonempty rfl (congrArg Request.malloc zero)
          simp only [Allocator.serve, cLibrary_malloc _ _ nonzero]
  | copyPattern patt =>
      obtain ⟨ptextSmall, rtextSmall, idSmall⟩ := small
      simp only [Allocator.serve, Allocator.nodeCopyPattern, strndup_cLibrary _ _ _ ptextSmall,
        strndup_cLibrary _ _ _ rtextSmall, copyId_cLibrary _ idSmall]
  | store piece offset bytes => rfl
  | load piece offset n => rfl

theorem run_cLibrary {requests : List Request} (small : ∀ request ∈ requests, request.Small)
    (nonempty : emptyPieces = true → .malloc 0 ∉ requests) :
    (cLibrary emptyPieces).run c requests = system.run c requests := by
  induction requests generalizing c with
  | nil => rfl
  | cons request requests ih =>
      have first := serve_cLibrary emptyPieces c (small request List.mem_cons_self)
        fun empty here => nonempty empty (here ▸ List.mem_cons_self)
      rw [Allocator.run, Allocator.run, List.foldlM_cons, List.foldlM_cons, first]
      refine bind_congr fun next => ih (fun later hl => small later (List.mem_cons_of_mem _ hl)) ?_
      exact fun empty mem => nonempty empty (List.mem_cons_of_mem _ mem)

end EmptyPieces

/-- A program that stays inside the pieces it is given cannot tell the pool from `malloc`: with
the pool it runs to its end too, reads the same cells and gets null pointers at the same
places. All other pointers are aligned. Where `malloc` has empty pieces, the program may not
ask for one. -/
theorem mpool_serves (emptyPieces : Bool) (memory : Memory UInt8) (size : UInt64)
    (requests : List Request) (small : ∀ request ∈ requests, request.Small)
    (nonempty : emptyPieces = true → .malloc 0 ∉ requests)
    (served : (cLibrary emptyPieces).run ⟨[], [], []⟩ requests = .ok c) :
    ∃ c', mpool.run ⟨mpoolCreate memory size, [], []⟩ requests = .ok c' ∧ c'.loaded = c.loaded ∧
      c'.pointers.map Option.isSome = c.pointers.map Option.isSome ∧
      ∀ slot, some slot ∈ c'.pointers → slot.offset % 16 = 0 := by
  have start : Agrees [] ⟨[], [], []⟩ ⟨mpoolCreate memory size, [], []⟩ :=
    ⟨simulates_create memory size, .nil, rfl⟩
  rw [run_cLibrary emptyPieces small nonempty] at served
  obtain ⟨parts, c', ran, agrees⟩ := start.run small served
  refine ⟨c', ran, agrees.loaded, isSome_of_matches agrees.pointers, fun slot mem => ?_⟩
  obtain ⟨p, hp, rfl⟩ := exists_part_of_matches agrees.pointers mem
  exact agrees.state.starts p hp

/-- A piece, a copy of the pattern `ab` behind it, and a write to the piece, with blocks of 16
bytes. -/
theorem mpool_serves_ab :
    ∃ c', mpool.run ⟨mpoolCreate [] 16, [], []⟩
        [.malloc 5, .copyPattern ⟨⟨some [97, 98], 2⟩, ⟨none, 0⟩, .number 7⟩, .store 0 1 [1, 2],
          .load 1 0 3, .load 0 0 3] = .ok c' ∧
      c'.loaded = [[some 97, some 98, some 0], [none, some 1, some 2]] ∧
      c'.pointers.map Option.isSome = [true, true, false] ∧
      ∀ slot, some slot ∈ c'.pointers → slot.offset % 16 = 0 := by
  let c : Program (Memory UInt8) :=
    ⟨[[none, some 1, some 2, none, none], [some 97, some 98, some 0]],
      [some ⟨0, 0⟩, some ⟨1, 0⟩, none],
      [[some 97, some 98, some 0], [none, some 1, some 2]]⟩
  have served : (cLibrary true).run ⟨[], [], []⟩
      [.malloc 5, .copyPattern ⟨⟨some [97, 98], 2⟩, ⟨none, 0⟩, .number 7⟩, .store 0 1 [1, 2],
        .load 1 0 3, .load 0 0 3] = .ok c := rfl
  refine mpool_serves true [] 16 _ ?_ (by decide) served
  intro request mem
  simp only [List.mem_cons, List.not_mem_nil, or_false] at mem
  obtain rfl | rfl | rfl | rfl | rfl := mem
  · exact (by decide : (5 : UInt64).toNat + 15 < 2 ^ 64)
  · exact ⟨by decide, by decide, by rintro _ ⟨⟩⟩
  · trivial
  · trivial
  · trivial

end Multifast
