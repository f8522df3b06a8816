import Paraglob.Basic
import Paraglob.Library.Buffers
import Mathlib.Data.Nat.Bitwise

/-!
# The memory pool

The nodes of a trie and the copies of its patterns are taken from a pool, which cuts
pieces from blocks and starts a new block when a piece does not fit. Nothing is given
back before the trie is released. Every piece behaves like a buffer of its own, however
many pieces follow. This is why the trie in the other files has no memory, but nodes and
patterns that stay as they are.
-/

open Buffers

namespace Multifast

/-- What hands out pieces of a memory. -/
structure Allocator (σ : Type) where
  malloc : σ → UInt64 → Option Slot × σ
  memory : σ → Memory UInt8
  write : σ → Memory UInt8 → σ

/-- The allocator of the C library: every piece is a buffer, and there is room for all of them.
A library is free to answer a size of zero with a null pointer or with an empty buffer. -/
def cLibrary (emptyPieces : Bool) : Allocator (Memory UInt8) where
  malloc memory size :=
    if size = 0 ∧ emptyPieces = false then (none, memory)
    else (some ⟨memory.length, 0⟩, alloc memory size.toNat)
  memory := id
  write _ memory := memory

/-- The library that has no empty pieces, like the pool. -/
abbrev system : Allocator (Memory UInt8) := cLibrary false

/-- `MPOOL_BLOCK_SIZE`. -/
def mpoolBlockSize : UInt64 := 24 * 1024

/-- `struct mpool_block`. The block pointer is the number of a buffer, and the free area is
given by its offset from there. -/
structure MpoolBlock where
  size : UInt64
  bp : Nat
  free : Nat
deriving DecidableEq

/-- `struct mpool`: the current block, and those that follow it in the chain. -/
structure BlockPool where
  block : MpoolBlock
  next : List MpoolBlock
deriving DecidableEq

/-- A pool and the memory of the program. -/
structure PoolState where
  memory : Memory UInt8
  pool : BlockPool
deriving DecidableEq

/-- `mpool_new_block`. -/
def mpoolNewBlock (memory : Memory UInt8) (size : UInt64) : MpoolBlock × Memory UInt8 :=
  let size := if size = 0 then mpoolBlockSize else size
  (⟨size, memory.length, 0⟩, alloc memory size.toNat)

/-- `mpool_create`. -/
def mpoolCreate (memory : Memory UInt8) (size : UInt64) : PoolState :=
  let (block, memory) := mpoolNewBlock memory size
  { memory, pool := { block, next := [] } }

/-- The multiple of 16 that is asked for, computed in `size_t`. -/
def alignUp (size : UInt64) : UInt64 := (size + 15) &&& ~~~0xF

/-- The piece at the free area of the current block. -/
def PoolState.take (s : PoolState) (size : UInt64) : Option Slot × PoolState :=
  let block := s.pool.block
  (some ⟨block.bp, block.free⟩,
    { s with pool.block := { block with free := block.free + size.toNat } })

/-- `mpool_malloc`. -/
def mpoolMalloc (s : PoolState) (size : UInt64) : Option Slot × PoolState :=
  if size = 0 then (none, s)
  else
    let size := alignUp size
    let block := s.pool.block
    let remain := block.size.toNat - block.free
    if remain < size.toNat then
      let blockSize := if size > block.size then size else block.size
      let (newBlock, memory) := mpoolNewBlock s.memory blockSize
      PoolState.take { memory, pool := { block := newBlock, next := block :: s.pool.next } } size
    else s.take size

/-- `mpool_free`: the buffers that are freed, in this order. -/
def mpoolFree (pool : BlockPool) : List Nat := (pool.block :: pool.next).map MpoolBlock.bp

/-- The pool as an allocator. -/
def mpool : Allocator PoolState where
  malloc := mpoolMalloc
  memory := PoolState.memory
  write s memory := { s with memory }

/-- Write some bytes. -/
def Allocator.store {σ : Type} (A : Allocator σ) (s : σ) (slot : Slot) (bytes : Bytes) :
    Except Fault σ :=
  match Buffers.store (A.memory s) slot bytes with
  | some memory => .ok (A.write s memory)
  | none => .error .outOfBounds

theorem land_not_fifteen {x : Nat} (small : x < 2 ^ 64) : x &&& (2 ^ 64 - 16) = x / 16 * 16 := by
  apply Nat.eq_of_testBit_eq
  intro i
  have cleared : (x / 2 ^ 4 * 2 ^ 4).testBit i = (decide (4 ≤ i) && x.testBit i) := by
    rw [Nat.mul_comm, Nat.testBit_two_pow_mul, Nat.testBit_div_two_pow]
    by_cases low : 4 ≤ i
    · rw [Nat.sub_add_cancel low]
    · simp only [low, decide_false, Bool.false_and]
  have mask :
      (2 ^ 64 - (2 ^ 4 - 1 + 1) : Nat).testBit i = (decide (i < 64) && !decide (i < 4)) := by
    rw [Nat.testBit_two_pow_sub_succ (by decide), Nat.testBit_two_pow_sub_one]
  have high : x.testBit i = true → i < 64 := by
    intro set
    by_contra out
    have bound := Nat.pow_le_pow_right (by decide : 0 < 2) (Nat.not_lt.mp out)
    rw [Nat.testBit_lt_two_pow (Nat.lt_of_lt_of_le small bound)] at set
    cases set
  rw [Nat.testBit_and]
  refine (congrArg (x.testBit i && ·) mask).trans (Eq.trans ?_ cleared.symm)
  cases set : x.testBit i with
  | false => simp only [Bool.false_and, Bool.and_false]
  | true =>
      simp only [high set, decide_true, Bool.true_and, Bool.and_true, ← decide_not, Nat.not_lt]

theorem toNat_alignUp {size : UInt64} (small : size.toNat + 15 < 2 ^ 64) :
    (alignUp size).toNat = (size.toNat + 15) / 16 * 16 := by
  have sum : (size + 15).toNat = size.toNat + 15 := by
    rw [UInt64.toNat_add]
    exact Nat.mod_eq_of_lt small
  rw [alignUp, UInt64.toNat_and, sum]
  exact land_not_fifteen small

/-- The cells that the current block still has. -/
def MpoolBlock.area (block : MpoolBlock) : Buffers.Part UInt8 :=
  (⟨block.bp, block.free⟩, List.replicate (block.size.toNat - block.free) none)

/-- The pool holds every buffer of the memory in a part of its own, and has unwritten cells
behind the last of them. -/
structure Simulates (parts : List (Buffers.Part UInt8)) (memory : Memory UInt8) (s : PoolState) :
    Prop where
  buffers : memory = buffers parts
  layout : Layout (parts ++ [s.pool.block.area]) s.memory
  bound : s.pool.block.free ≤ s.pool.block.size.toNat
  aligned : s.pool.block.free % 16 = 0
  starts : ∀ p ∈ parts, p.1.offset % 16 = 0

variable {parts : List (Buffers.Part UInt8)} {memory memory' : Memory UInt8} {s : PoolState}
variable {size : UInt64}

theorem Simulates.take (h : Simulates parts memory s) {used : Nat} (fits : used ≤ size.toNat)
    (multiple : size.toNat % 16 = 0)
    (room : size.toNat ≤ s.pool.block.size.toNat - s.pool.block.free) :
    ∃ slot s', s.take size = (some slot, s') ∧
      Simulates (parts ++ [(slot, List.replicate used none)]) (alloc memory used) s' := by
  have bound := h.bound
  have aligned := h.aligned
  refine ⟨⟨s.pool.block.bp, s.pool.block.free⟩, _, rfl, ?_, ?_, ?_, ?_, ?_⟩
  · rw [h.buffers, Buffers.buffers, Buffers.buffers, List.map_append]
    rfl
  · have split := h.layout.split fits room
    rw [Nat.sub_sub] at split
    exact split
  · change s.pool.block.free + size.toNat ≤ s.pool.block.size.toNat
    omega
  · change (s.pool.block.free + size.toNat) % 16 = 0
    omega
  · intro p hp
    cases List.mem_append.mp hp with
    | inl earlier => exact h.starts p earlier
    | inr new =>
        rw [List.mem_singleton.mp new]
        exact aligned

theorem Simulates.renew (h : Simulates parts memory s) (size : UInt64) (next : List MpoolBlock) :
    Simulates parts memory
      { memory := alloc s.memory size.toNat
        pool := { block := ⟨size, s.memory.length, 0⟩, next } } where
  buffers := h.buffers
  layout := h.layout.renew size.toNat
  bound := Nat.zero_le _
  aligned := rfl
  starts := h.starts

theorem mpoolNewBlock_of_ne (memory : Memory UInt8) (nonzero : size ≠ 0) :
    mpoolNewBlock memory size = (⟨size, memory.length, 0⟩, alloc memory size.toNat) := by
  simp only [mpoolNewBlock, if_neg nonzero]

/-- `mpool_malloc` hands out a part that is as long as was asked for. -/
theorem Simulates.malloc (h : Simulates parts memory s) (nonzero : size ≠ 0)
    (small : size.toNat + 15 < 2 ^ 64) :
    ∃ slot s', mpoolMalloc s size = (some slot, s') ∧
      Simulates (parts ++ [(slot, List.replicate size.toNat none)]) (alloc memory size.toNat)
        s' := by
  have rounded := toNat_alignUp small
  have positive : 0 < size.toNat :=
    Nat.pos_of_ne_zero fun zero => nonzero (UInt64.toNat_inj.mp zero)
  have fits : size.toNat ≤ (alignUp size).toNat := by omega
  have multiple : (alignUp size).toNat % 16 = 0 := by
    rw [rounded]
    exact Nat.mul_mod_left _ _
  simp only [mpoolMalloc, if_neg nonzero]
  split
  · let blockSize := if alignUp size > s.pool.block.size then alignUp size else s.pool.block.size
    have large : (alignUp size).toNat ≤ blockSize.toNat := by
      simp only [blockSize]
      split
      · exact Nat.le_refl _
      · rename_i enough
        exact UInt64.le_iff_toNat_le.mp (UInt64.not_lt.mp enough)
    have nonzero' : blockSize ≠ 0 := by
      intro zero
      rw [zero] at large
      exact absurd (Nat.lt_of_lt_of_le positive (Nat.le_trans fits large)) (Nat.lt_irrefl _)
    rw [mpoolNewBlock_of_ne s.memory nonzero']
    exact (h.renew blockSize (s.pool.block :: s.pool.next)).take fits multiple large
  · rename_i room
    exact h.take fits multiple (Nat.not_lt.mp room)

theorem Simulates.store (h : Simulates parts memory s) {i k : Nat} {p : Buffers.Part UInt8}
    {bytes : Bytes}
    (at_i : parts[i]? = some p)
    (stored : system.store memory (Slot.shift ⟨i, 0⟩ k) bytes = .ok memory') :
    ∃ parts' s', mpool.store s (p.1.shift k) bytes = .ok s' ∧ Simulates parts' memory' s' ∧
      parts'.map extent = parts.map extent := by
  rw [Allocator.store, Slot.shift, Nat.zero_add] at stored
  split at stored
  · rename_i written ran
    obtain rfl : written = memory' := Except.ok.inj stored
    obtain ⟨cells, at_cells, inside, rfl⟩ := store_eq_some_iff.mp ran
    change memory[i]? = some cells at at_cells
    rw [h.buffers, getElem?_buffers, at_i] at at_cells
    obtain rfl := Option.some.inj at_cells
    have earlier : i < parts.length := (List.getElem?_eq_some_iff.mp at_i).1
    have at_i' : (parts ++ [s.pool.block.area])[i]? = some p :=
      (List.getElem?_append_left earlier).trans at_i
    obtain ⟨memory', ran', layout⟩ := h.layout.store at_i' inside
    have extents := extents_set at_i inside
    refine ⟨parts.set i (p.1, overwrite p.2 k bytes), { s with memory := memory' }, ?_, ?_, extents⟩
    · have ran'' : Buffers.store (mpool.memory s) (p.1.shift k) bytes = some memory' := ran'
      simp only [Allocator.store, ran'']
      rfl
    · refine ⟨?_, ?_, h.bound, h.aligned, ?_⟩
      · rw [buffers_set, ← h.buffers]
        rfl
      · rw [List.set_append_left _ _ earlier] at layout
        exact layout
      · intro q hq
        have mem : extent q ∈ parts.map extent := extents ▸ List.mem_map_of_mem hq
        obtain ⟨q', hq', same⟩ := List.mem_map.mp mem
        have starts := h.starts q' hq'
        rw [(Prod.mk.inj same).1] at starts
        exact starts
  · cases stored

theorem Simulates.load (h : Simulates parts memory s) {i k n : Nat} {p : Buffers.Part UInt8}
    {cells : Cells UInt8} (at_i : parts[i]? = some p)
    (read : Buffers.load memory (Slot.shift ⟨i, 0⟩ k) n = some cells) :
    Buffers.load s.memory (p.1.shift k) n = some cells := by
  rw [h.buffers, Slot.shift, Nat.zero_add] at read
  exact (layout_concat_iff.mp h.layout).1.load at_i read

end Multifast
