import Mathlib.Data.List.Basic
import Mathlib.Tactic.Common

/-!
# Memory in buffers

A memory is a list of buffers, which are numbered in the order of their allocation.
An access names a buffer and an offset and fails outside the buffer; a cell that was
never written holds nothing. One memory can be laid out in another: every buffer of
the first is a part of a buffer of the second, and the parts are apart. Then an
access to a buffer of the first is an access to its part, with the same result.
-/

namespace Buffers

variable {α : Type*}

abbrev Cells (α : Type*) := List (Option α)

abbrev Memory (α : Type*) := List (Cells α)

/-- A place in a memory. -/
structure Slot where
  buffer : Nat
  offset : Nat
deriving DecidableEq

def Slot.shift (slot : Slot) (k : Nat) : Slot := ⟨slot.buffer, slot.offset + k⟩

/-- A new buffer has the next number. -/
def alloc (memory : Memory α) (size : Nat) : Memory α := memory ++ [List.replicate size none]

/-- `n` cells. -/
def load (memory : Memory α) (slot : Slot) (n : Nat) : Option (Cells α) :=
  match memory[slot.buffer]? with
  | some cells =>
      if slot.offset + n ≤ cells.length then some ((cells.drop slot.offset).take n) else none
  | none => none

def overwrite (cells : Cells α) (offset : Nat) (xs : List α) : Cells α :=
  cells.take offset ++ (xs.map some ++ cells.drop (offset + xs.length))

def store (memory : Memory α) (slot : Slot) (xs : List α) : Option (Memory α) :=
  match memory[slot.buffer]? with
  | some cells =>
      if slot.offset + xs.length ≤ cells.length then
        some (memory.set slot.buffer (overwrite cells slot.offset xs))
      else none
  | none => none

variable {memory memory' : Memory α} {cells part : Cells α} {slot : Slot} {xs : List α}

theorem load_eq_some_iff {n : Nat} :
    load memory slot n = some part ↔ ∃ cells, memory[slot.buffer]? = some cells ∧
      slot.offset + n ≤ cells.length ∧ part = (cells.drop slot.offset).take n := by
  rw [load]
  cases memory[slot.buffer]? with
  | none => simp only [reduceCtorEq, false_and, exists_false]
  | some cells =>
      by_cases inside : slot.offset + n ≤ cells.length
      · simp only [Option.some.injEq, exists_eq_left', inside, if_true, true_and]
        exact eq_comm
      · simp only [reduceCtorEq, Option.some.injEq, exists_eq_left', inside, if_false, false_and]

theorem store_eq_some_iff :
    store memory slot xs = some memory' ↔ ∃ cells, memory[slot.buffer]? = some cells ∧
      slot.offset + xs.length ≤ cells.length ∧
      memory' = memory.set slot.buffer (overwrite cells slot.offset xs) := by
  rw [store]
  cases memory[slot.buffer]? with
  | none => simp only [reduceCtorEq, false_and, exists_false]
  | some cells =>
      by_cases inside : slot.offset + xs.length ≤ cells.length
      · simp only [Option.some.injEq, exists_eq_left', inside, if_true, true_and]
        exact eq_comm
      · simp only [reduceCtorEq, Option.some.injEq, exists_eq_left', inside, if_false, false_and]

theorem length_overwrite {offset : Nat} (inside : offset + xs.length ≤ cells.length) :
    (overwrite cells offset xs).length = cells.length := by
  simp only [overwrite, List.length_append, List.length_take, List.length_map, List.length_drop]
  omega

theorem getElem?_overwrite {offset : Nat} (inside : offset + xs.length ≤ cells.length) (i : Nat) :
    (overwrite cells offset xs)[i]? =
      if offset ≤ i ∧ i < offset + xs.length then (xs.map some)[i - offset]? else cells[i]? := by
  have front : (cells.take offset).length = offset := by
    rw [List.length_take]
    omega
  rw [overwrite, List.getElem?_append, front]
  split
  · rename_i before
    rw [if_neg (by omega), List.getElem?_take, if_pos before]
  · rename_i after
    rw [List.getElem?_append, List.length_map]
    split
    · rw [if_pos (by omega)]
    · rw [if_neg (by omega), List.getElem?_drop]
      exact congrArg (cells[·]?) (by omega)

theorem getElem?_of_store (stored : store memory slot xs = some memory') {i : Nat}
    (ne : i ≠ slot.buffer) : memory'[i]? = memory[i]? := by
  obtain ⟨cells, _, _, rfl⟩ := store_eq_some_iff.mp stored
  exact List.getElem?_set_ne (Ne.symm ne)

theorem length_of_store (stored : store memory slot xs = some memory') :
    memory'.length = memory.length := by
  obtain ⟨cells, _, _, rfl⟩ := store_eq_some_iff.mp stored
  exact List.length_set

theorem store_concat (memory : Memory α) (front : Cells α) {back : Cells α}
    (inside : xs.length ≤ back.length) :
    store (memory ++ [front ++ back]) ⟨memory.length, front.length⟩ xs =
      some (memory ++ [front ++ (xs.map some ++ back.drop xs.length)]) := by
  refine store_eq_some_iff.mpr ⟨front ++ back, List.getElem?_concat_length, ?_, ?_⟩
  · rw [List.length_append]
    exact Nat.add_le_add_left inside _
  · rw [List.set_append_right _ _ (Nat.le_refl _), Nat.sub_self, overwrite, List.take_left,
      List.drop_append, List.drop_eq_nil_of_le (Nat.le_add_right _ _), List.nil_append,
      Nat.add_sub_cancel_left]
    rfl

theorem load_iff_getElem? :
    load memory slot part.length = some part ↔ ∃ cells, memory[slot.buffer]? = some cells ∧
      slot.offset + part.length ≤ cells.length ∧
      ∀ i < part.length, cells[slot.offset + i]? = part[i]? := by
  rw [load_eq_some_iff]
  refine exists_congr fun cells => and_congr_right fun _ => and_congr_right fun inside => ?_
  constructor
  · intro same i bound
    rw [same, List.getElem?_take, if_pos bound, List.getElem?_drop]
  · intro same
    apply List.ext_getElem?
    intro i
    rw [List.getElem?_take, List.getElem?_drop]
    split
    · rename_i bound
      exact (same i bound).symm
    · rename_i outside
      exact List.getElem?_eq_none (Nat.not_lt.mp outside)

/-- A part of a memory: where it begins, and its cells. -/
abbrev Part (α : Type*) := Slot × Cells α

/-- The cells of a part are where it says. -/
def Holds (memory : Memory α) (p : Part α) : Prop := load memory p.1 p.2.length = some p.2

/-- Where a part lies. -/
def extent (p : Part α) : Slot × Nat := (p.1, p.2.length)

/-- Two extents have no cell in common. -/
def Apart (p q : Slot × Nat) : Prop :=
  p.1.buffer ≠ q.1.buffer ∨ p.1.offset + p.2 ≤ q.1.offset ∨ q.1.offset + q.2 ≤ p.1.offset

theorem Apart.symm {p q : Slot × Nat} (apart : Apart p q) : Apart q p := by
  rw [Apart] at apart ⊢
  exact apart.imp Ne.symm Or.symm

variable {p q : Part α} {k n : Nat}

theorem Holds.piece (held : Holds memory p) (inside : k + part.length ≤ p.2.length)
    (same : ∀ i < part.length, p.2[k + i]? = part[i]?) : Holds memory (p.1.shift k, part) := by
  obtain ⟨cells, at_buffer, bound, whole⟩ := load_iff_getElem?.mp held
  refine load_iff_getElem?.mpr ⟨cells, at_buffer, ?_, fun i (small : i < part.length) => ?_⟩
  · simp only [Slot.shift]
    omega
  · rw [← same i small, ← whole (k + i) (by omega), Slot.shift, Nat.add_assoc]

theorem Holds.load (held : Holds memory p) (inside : k + n ≤ p.2.length) :
    Buffers.load memory (p.1.shift k) n = some ((p.2.drop k).take n) := by
  have size : ((p.2.drop k).take n).length = n := by
    rw [List.length_take, List.length_drop]
    omega
  have piece : Holds memory (p.1.shift k, (p.2.drop k).take n) := by
    apply held.piece
    · rwa [size]
    · intro i small
      rw [size] at small
      rw [List.getElem?_take, if_pos small, List.getElem?_drop]
  rwa [Holds, size] at piece

/-- A store that stays inside a part changes it as it would change a buffer, and leaves what
is apart from it as it is. -/
theorem Holds.store (held : Holds memory p) (inside : k + xs.length ≤ p.2.length) :
    ∃ memory', Buffers.store memory (p.1.shift k) xs = some memory' ∧
      Holds memory' (p.1, overwrite p.2 k xs) ∧
      ∀ q, Apart (extent p) (extent q) → Holds memory q → Holds memory' q := by
  obtain ⟨cells, at_buffer, bound, same⟩ := load_iff_getElem?.mp held
  have inside' : p.1.offset + k + xs.length ≤ cells.length := by omega
  have at_buffer' : ∀ cells', (memory.set p.1.buffer cells')[p.1.buffer]? = some cells' :=
    fun _ => List.getElem?_set_self (List.getElem?_eq_some_iff.mp at_buffer).1
  refine ⟨memory.set p.1.buffer (overwrite cells (p.1.offset + k) xs),
    store_eq_some_iff.mpr ⟨cells, at_buffer, inside', rfl⟩, ?_, ?_⟩
  · apply load_iff_getElem?.mpr
    refine ⟨_, at_buffer' _, ?_, ?_⟩
    · rw [length_overwrite inside', length_overwrite inside]
      exact bound
    · intro i small
      change i < (overwrite p.2 k xs).length at small
      change (overwrite cells (p.1.offset + k) xs)[p.1.offset + i]? = (overwrite p.2 k xs)[i]?
      rw [length_overwrite inside] at small
      rw [getElem?_overwrite inside', getElem?_overwrite inside]
      by_cases written : k ≤ i ∧ i < k + xs.length
      · rw [if_pos (by omega), if_pos written]
        exact congrArg ((xs.map some)[·]?) (by omega)
      · rw [if_neg (by omega), if_neg written]
        exact same i small
  · intro q apart other
    obtain ⟨cells', at_other, bound', same'⟩ := load_iff_getElem?.mp other
    apply load_iff_getElem?.mpr
    by_cases here : p.1.buffer = q.1.buffer
    · rw [← here, at_buffer] at at_other
      obtain rfl := Option.some.inj at_other
      refine ⟨overwrite cells (p.1.offset + k) xs, here ▸ at_buffer' _, ?_, ?_⟩
      · rwa [length_overwrite inside']
      · intro i small
        have between := apart.resolve_left (not_not.mpr here)
        simp only [extent] at between
        rw [getElem?_overwrite inside', if_neg (by omega)]
        exact same' i small
    · refine ⟨cells', ?_, bound', same'⟩
      rwa [List.getElem?_set_ne here]

theorem Holds.alloc (held : Holds memory p) (size : Nat) : Holds (Buffers.alloc memory size) p := by
  obtain ⟨cells, at_buffer, rest⟩ := load_eq_some_iff.mp held
  refine load_eq_some_iff.mpr ⟨cells, ?_, rest⟩
  have inside := (List.getElem?_eq_some_iff.mp at_buffer).1
  rw [Buffers.alloc, List.getElem?_append_left inside, at_buffer]

theorem Holds.buffer_lt (held : Holds memory p) : p.1.buffer < memory.length := by
  obtain ⟨cells, at_buffer, _⟩ := load_eq_some_iff.mp held
  exact (List.getElem?_eq_some_iff.mp at_buffer).1

theorem holds_alloc (memory : Memory α) (size : Nat) :
    Holds (Buffers.alloc memory size) (⟨memory.length, 0⟩, List.replicate size none) := by
  refine load_eq_some_iff.mpr ⟨List.replicate size none, List.getElem?_concat_length, ?_, ?_⟩
  · exact Nat.le_of_eq (Nat.zero_add _)
  · rw [List.drop_zero, List.take_length]

/-- The parts are in the memory, and they are apart from each other. They stand for a memory of
their own, in which each of them is a buffer. -/
structure Layout (parts : List (Part α)) (memory : Memory α) : Prop where
  holds : ∀ p ∈ parts, Holds memory p
  apart : (parts.map extent).Pairwise Apart

/-- The memory that some parts stand for. -/
def buffers (parts : List (Part α)) : Memory α := parts.map Prod.snd

variable {parts : List (Part α)} {i : Nat}

theorem layout_concat_iff : Layout (parts ++ [p]) memory ↔
    Layout parts memory ∧ Holds memory p ∧ ∀ q ∈ parts, Apart (extent q) (extent p) := by
  have extents : ((parts ++ [p]).map extent).Pairwise Apart ↔
      (parts.map extent).Pairwise Apart ∧ ∀ q ∈ parts, Apart (extent q) (extent p) := by
    simp only [List.map_append, List.map_singleton, List.pairwise_append, List.pairwise_singleton,
      true_and, List.mem_map, List.mem_singleton, forall_exists_index, and_imp,
      forall_apply_eq_imp_iff₂, forall_eq]
  constructor
  · intro layout
    obtain ⟨apart, last⟩ := extents.mp layout.apart
    refine ⟨⟨fun q hq => ?_, apart⟩, ?_, last⟩
    · exact layout.holds q (List.mem_append_left _ hq)
    · exact layout.holds p (List.mem_append_right _ (List.mem_singleton_self p))
  · rintro ⟨layout, held, last⟩
    refine ⟨fun q hq => ?_, extents.mpr ⟨layout.apart, last⟩⟩
    cases List.mem_append.mp hq with
    | inl earlier => exact layout.holds q earlier
    | inr isLast => exact List.mem_singleton.mp isLast ▸ held

theorem Layout.apart_of_ne (layout : Layout parts memory) {j : Nat} (at_i : parts[i]? = some p)
    (at_j : parts[j]? = some q) (ne : i ≠ j) : Apart (extent p) (extent q) := by
  have ordered : ∀ {i j : Nat} {p q : Part α}, parts[i]? = some p → parts[j]? = some q → i < j →
      Apart (extent p) (extent q) := by
    intro i j p q at_i at_j before
    obtain ⟨bound, rfl⟩ := List.getElem?_eq_some_iff.mp at_i
    obtain ⟨bound', rfl⟩ := List.getElem?_eq_some_iff.mp at_j
    exact List.pairwise_iff_getElem.mp (List.pairwise_map.mp layout.apart) i j bound bound' before
  cases Nat.lt_or_gt_of_ne ne with
  | inl before => exact ordered at_i at_j before
  | inr after => exact (ordered at_j at_i after).symm

theorem extents_set (at_i : parts[i]? = some p) (inside : k + xs.length ≤ p.2.length) :
    (parts.set i (p.1, overwrite p.2 k xs)).map extent = parts.map extent := by
  have same : extent (p.1, overwrite p.2 k xs) = extent p :=
    congrArg (Prod.mk p.1) (length_overwrite inside)
  have here : (parts.map extent)[i]? = some (extent p) := by
    rw [List.getElem?_map, at_i]
    rfl
  obtain ⟨bound, value⟩ := List.getElem?_eq_some_iff.mp here
  rw [List.map_set, same, ← value]
  exact List.set_getElem_self bound

theorem getElem?_buffers (parts : List (Part α)) (i : Nat) :
    (buffers parts)[i]? = parts[i]?.map Prod.snd := List.getElem?_map ..

theorem Layout.load (layout : Layout parts memory) (at_i : parts[i]? = some p)
    (loaded : Buffers.load (buffers parts) ⟨i, k⟩ n = some part) :
    Buffers.load memory (p.1.shift k) n = some part := by
  obtain ⟨cells, at_cells, inside, rfl⟩ := load_eq_some_iff.mp loaded
  rw [getElem?_buffers, at_i] at at_cells
  obtain rfl := Option.some.inj at_cells
  exact (layout.holds p (List.mem_of_getElem? at_i)).load inside

theorem Layout.store (layout : Layout parts memory) (at_i : parts[i]? = some p)
    (inside : k + xs.length ≤ p.2.length) :
    ∃ memory', Buffers.store memory (p.1.shift k) xs = some memory' ∧
      Layout (parts.set i (p.1, overwrite p.2 k xs)) memory' := by
  obtain ⟨memory', ran, held, others⟩ := (layout.holds p (List.mem_of_getElem? at_i)).store inside
  refine ⟨memory', ran, ?_, ?_⟩
  · intro q hq
    obtain ⟨j, at_j⟩ := List.mem_iff_getElem?.mp hq
    rw [List.getElem?_set] at at_j
    split at at_j
    · split at at_j
      · exact Option.some.inj at_j ▸ held
      · cases at_j
    · rename_i ne
      exact others q (layout.apart_of_ne at_i at_j ne) (layout.holds q (List.mem_of_getElem? at_j))
  · rw [extents_set at_i inside]
    exact layout.apart

theorem buffers_set (parts : List (Part α)) (i : Nat) (p : Part α) :
    buffers (parts.set i p) = (buffers parts).set i p.2 := List.map_set ..

/-- Unwritten cells can be given away in two pieces, with a gap between them. -/
theorem Layout.split {slot : Slot} {room : Nat}
    (layout : Layout (parts ++ [(slot, List.replicate room none)]) memory) (fits : k ≤ n)
    (inside : n ≤ room) :
    Layout (parts ++ [(slot, List.replicate k none)] ++
      [(slot.shift n, List.replicate (room - n) none)]) memory := by
  obtain ⟨layout, held, apart⟩ := layout_concat_iff.mp layout
  have blank : ∀ {i j : Nat}, i + j ≤ room →
      Holds memory (slot.shift i, List.replicate j none) := by
    intro i j bound
    apply held.piece
    · simp only [List.length_replicate]
      exact bound
    · intro l small
      rw [List.length_replicate] at small
      rw [List.getElem?_replicate_of_lt small, List.getElem?_replicate_of_lt (by omega)]
  have first : Holds memory (slot, List.replicate k none) :=
    blank (i := 0) ((Nat.zero_add k).symm ▸ Nat.le_trans fits inside)
  have second : Holds memory (slot.shift n, List.replicate (room - n) none) :=
    blank (Nat.le_of_eq (Nat.add_sub_of_le inside))
  refine layout_concat_iff.mpr ⟨layout_concat_iff.mpr ⟨layout, first, ?_⟩, second, ?_⟩
  · intro q hq
    have whole := apart q hq
    simp only [Apart, extent, List.length_replicate] at whole ⊢
    omega
  · intro q hq
    cases List.mem_append.mp hq with
    | inl earlier =>
        have whole := apart q earlier
        simp only [Apart, extent, List.length_replicate, Slot.shift] at whole ⊢
        omega
    | inr isFirst =>
        rw [List.mem_singleton.mp isFirst]
        simp only [Apart, extent, List.length_replicate, Slot.shift]
        omega

/-- The last part can be given up for a new buffer. -/
theorem Layout.renew (layout : Layout (parts ++ [p]) memory) (size : Nat) :
    Layout (parts ++ [(⟨memory.length, 0⟩, List.replicate size none)]) (alloc memory size) := by
  obtain ⟨layout, _⟩ := layout_concat_iff.mp layout
  refine layout_concat_iff.mpr ⟨⟨?_, layout.apart⟩, holds_alloc memory size, ?_⟩
  · intro q hq
    exact (layout.holds q hq).alloc size
  · intro q hq
    exact Or.inl (Nat.ne_of_lt (layout.holds q hq).buffer_lt)

end Buffers
