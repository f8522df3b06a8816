import Paraglob.Multifast.Programs

/-!
# Copies outlive what follows

With the allocator of the C library every piece is a buffer of its own, so what one
piece holds is changed by no other step than a store in it. The pool inherits this:
the patterns of a trie stay as they were copied, whatever is added later.
-/

open Buffers

namespace Multifast

/-- What `mpool_strndup` copies of a text. -/
def AcText.copied (text : AcText) : Option Bytes :=
  text.astring.map fun bytes => bytes.take text.length.toNat ++ [0]

def AcPattid.copies : AcPattid Bytes → List (Option Bytes)
  | .stringy str => [str.map fun bytes => bytes.take (bytes.idxOf 0) ++ [0]]
  | .number _ => []

def AcPatternTexts.copies (patt : AcPatternTexts) : List (Option Bytes) :=
  patt.ptext.copied :: patt.rtext.copied :: patt.id.copies

/-- How many pointers a step yields. -/
def Request.pieces : Request → Nat
  | .malloc _ => 1
  | .copyPattern patt => patt.copies.length
  | .store _ _ _ => 0
  | .load _ _ _ => 0

/-- The steps number new buffers one after the other. -/
def Grants (memory : Memory UInt8) (pointers : List (Option Slot)) (memory' : Memory UInt8) :
    Prop :=
  ∃ more, memory' = memory ++ more ∧
    pointers.filterMap id = (List.range' memory.length more.length).map fun j => ⟨j, 0⟩

/-- The pointer is null like the string, or the buffer at it holds the string. -/
def HoldsString (memory : Memory UInt8) (r : Option Slot) (str : Option Bytes) : Prop :=
  (r = none ∧ str = none) ∨ ∃ j bytes, r = some ⟨j, 0⟩ ∧ str = some bytes ∧
    memory[j]? = some (bytes.map some)

variable {memory memory' memory'' : Memory UInt8} {pointers pointers' : List (Option Slot)}
  {r : Option Slot} {str : Option Bytes} {parts : List (Buffers.Part UInt8)}
  {c c₁ : Program (Memory UInt8)} {c' : Program PoolState}

theorem Grants.nil (memory : Memory UInt8) : Grants memory [] memory :=
  ⟨[], (List.append_nil _).symm, rfl⟩

theorem Grants.append (first : Grants memory pointers memory')
    (second : Grants memory' pointers' memory'') :
    Grants memory (pointers ++ pointers') memory'' := by
  obtain ⟨more, rfl, numbers⟩ := first
  obtain ⟨more', rfl, numbers'⟩ := second
  refine ⟨more ++ more', List.append_assoc _ _ _, ?_⟩
  rw [List.filterMap_append, numbers, numbers', List.length_append, List.length_append,
    ← List.range'_append_1, List.map_append]

theorem Grants.concat (memory : Memory UInt8) (cells : Cells UInt8) :
    Grants memory [some ⟨memory.length, 0⟩] (memory ++ [cells]) := ⟨[cells], rfl, rfl⟩

theorem HoldsString.mono (holds : HoldsString memory r str)
    (grants : Grants memory pointers memory') : HoldsString memory' r str := by
  obtain ⟨more, rfl, _⟩ := grants
  obtain null | ⟨j, bytes, rfl, rfl, at_j⟩ := holds
  · exact Or.inl null
  · refine Or.inr ⟨j, bytes, rfl, rfl, ?_⟩
    rwa [List.getElem?_append_left (List.getElem?_eq_some_iff.mp at_j).1]

theorem system_store {slot : Slot} {bytes : Bytes}
    (stored : Buffers.store memory slot bytes = some memory') :
    system.store memory slot bytes = .ok memory' := by
  have stored' : Buffers.store (system.memory memory) slot bytes = some memory' := stored
  simp only [Allocator.store, stored']
  rfl

theorem system_strndup {n : UInt64} (small : n.toNat + 16 < 2 ^ 64)
    (ran : system.strndup memory str n = .ok (r, memory')) :
    Grants memory [r] memory' ∧
      HoldsString memory' r (str.map fun bytes => bytes.take n.toNat ++ [0]) := by
  cases str with
  | none =>
      obtain ⟨rfl, rfl⟩ := Prod.mk.inj (Except.ok.inj ran)
      exact ⟨.nil memory, Or.inl ⟨rfl, rfl⟩⟩
  | some str =>
      obtain ⟨next, nonzero⟩ := toNat_succ small
      simp only [Allocator.strndup, system_malloc memory nonzero] at ran
      by_cases missing : str.length < n.toNat
      · rw [if_pos missing] at ran
        cases ran
      · rw [if_neg missing] at ran
        have size : (str.take n.toNat).length = n.toNat :=
          List.length_take_of_le (Nat.not_lt.mp missing)
        have copied : system.store (alloc memory (n + 1).toNat) ⟨memory.length, 0⟩
              (str.take n.toNat) =
            .ok (memory ++ [(str.take n.toNat).map some ++ [none]]) := by
          have rest : (List.replicate (n + 1).toNat (none : Option UInt8)).drop
              (str.take n.toNat).length = [none] := by
            rw [size, next, List.drop_replicate, Nat.add_sub_cancel_left, List.replicate_one]
          refine system_store ((store_concat memory [] ?_).trans ?_)
          · rw [size, List.length_replicate, next]
            exact Nat.le_succ _
          · rw [rest, List.nil_append]
        have ended : system.store (memory ++ [(str.take n.toNat).map some ++ [none]])
            (Slot.shift ⟨memory.length, 0⟩ n.toNat) [0] =
            .ok (memory ++ [(str.take n.toNat ++ [0]).map some]) := by
          have stored : Buffers.store (memory ++ [(str.take n.toNat).map some ++ [none]])
              ⟨memory.length, ((str.take n.toNat).map some).length⟩ [0] =
              some (memory ++ [(str.take n.toNat).map some ++ [some 0]]) := by
            apply store_concat
            exact Nat.le_refl 1
          rw [List.length_map, size] at stored
          rw [Slot.shift, Nat.zero_add, List.map_append]
          exact system_store stored
        rw [bind_of_ok copied, bind_of_ok ended] at ran
        obtain ⟨rfl, rfl⟩ := Prod.mk.inj (Except.ok.inj ran)
        exact ⟨.concat memory _, Or.inr ⟨memory.length, _, rfl, rfl, List.getElem?_concat_length⟩⟩

theorem system_copyId {id : AcPattid Bytes} {pointer : AcPattid Slot}
    (small : ∀ str, id = .stringy (some str) → str.length + 16 < 2 ^ 64)
    (ran : system.copyId memory id = .ok (pointer, memory')) :
    Grants memory pointer.pointers memory' ∧
      List.Forall₂ (HoldsString memory') pointer.pointers id.copies := by
  cases id with
  | number n =>
      obtain ⟨rfl, rfl⟩ := Prod.mk.inj (Except.ok.inj ran)
      exact ⟨.nil memory, .nil⟩
  | stringy str =>
      obtain ⟨⟨r, memory₁⟩, copied, ran⟩ := exists_of_bind_eq_ok ran
      obtain ⟨rfl, rfl⟩ := Prod.mk.inj (Except.ok.inj ran)
      cases str with
      | none =>
          obtain ⟨rfl, rfl⟩ := Prod.mk.inj (Except.ok.inj copied)
          exact ⟨.nil memory, .cons (Or.inl ⟨rfl, rfl⟩) .nil⟩
      | some str =>
          obtain ⟨len, measured, copied⟩ := exists_of_bind_eq_ok copied
          obtain ⟨exact_len, short⟩ := toNat_strlen (small str rfl) measured
          obtain ⟨grants, holds⟩ := system_strndup short copied
          rw [Option.map_some, exact_len] at holds
          exact ⟨grants, .cons holds .nil⟩

theorem system_nodeCopyPattern {patt : AcPatternTexts} {slots : AcPatternSlots} (small : patt.Small)
    (ran : system.nodeCopyPattern memory patt = .ok (slots, memory')) :
    Grants memory slots.pointers memory' ∧
      List.Forall₂ (HoldsString memory') slots.pointers patt.copies := by
  obtain ⟨ptextSmall, rtextSmall, idSmall⟩ := small
  obtain ⟨⟨ptext, memory₁⟩, copied₁, ran⟩ := exists_of_bind_eq_ok ran
  obtain ⟨⟨rtext, memory₂⟩, copied₂, ran⟩ := exists_of_bind_eq_ok ran
  obtain ⟨⟨id, memory₃⟩, copied₃, ran⟩ := exists_of_bind_eq_ok ran
  obtain ⟨rfl, rfl⟩ := Prod.mk.inj (Except.ok.inj ran)
  obtain ⟨grants₁, holds₁⟩ := system_strndup ptextSmall copied₁
  obtain ⟨grants₂, holds₂⟩ := system_strndup rtextSmall copied₂
  obtain ⟨grants₃, holds₃⟩ := system_copyId idSmall copied₃
  refine ⟨(grants₁.append grants₂).append grants₃, ?_⟩
  exact .cons ((holds₁.mono grants₂).mono grants₃) (.cons (holds₂.mono grants₃) holds₃)

theorem Grants.distinct (grants : Grants memory pointers memory') {i j : Nat} {slot slot' : Slot}
    (at_i : pointers[i]? = some (some slot)) (at_j : pointers[j]? = some (some slot'))
    (ne : i ≠ j) : slot.buffer ≠ slot'.buffer := by
  obtain ⟨more, _, numbers⟩ := grants
  have distinct : (pointers.filterMap id).Pairwise fun a b => a.buffer ≠ b.buffer := by
    rw [numbers, List.pairwise_map]
    exact List.nodup_range'
  rw [List.pairwise_filterMap] at distinct
  have ordered : ∀ {i j : Nat} {a b : Slot}, pointers[i]? = some (some a) →
      pointers[j]? = some (some b) → i < j → a.buffer ≠ b.buffer := by
    intro i j a b at_i at_j before
    obtain ⟨bound, here⟩ := List.getElem?_eq_some_iff.mp at_i
    obtain ⟨bound', there⟩ := List.getElem?_eq_some_iff.mp at_j
    exact List.pairwise_iff_getElem.mp distinct i j bound bound' before a here b there
  cases Nat.lt_or_gt_of_ne ne with
  | inl before => exact ordered at_i at_j before
  | inr after => exact (ordered at_j at_i after).symm

theorem Grants.of_length (grants : Grants [] pointers memory)
    (same : memory'.length = memory.length) : Grants [] pointers memory' := by
  obtain ⟨more, rfl, numbers⟩ := grants
  exact ⟨memory', rfl, numbers.trans (by rw [same])⟩

theorem grants_malloc (memory : Memory UInt8) (size : UInt64) :
    Grants memory [(system.malloc memory size).1] (system.malloc memory size).2 := by
  by_cases zero : size = 0
  · subst zero
    exact ⟨[], (List.append_nil memory).symm, rfl⟩
  · rw [system_malloc memory zero]
    exact .concat memory _

/-- The piece is a copy of the string. -/
def Program.Copies (c : Program (Memory UInt8)) (piece : Nat) (str : Option Bytes) : Prop :=
  ∃ r, c.pointers[piece]? = some r ∧ HoldsString c.state r str

theorem Program.Copies.grow {piece : Nat} (copies : c.Copies piece str)
    (grants : Grants c.state pointers memory) :
    Program.Copies { c with state := memory, pointers := c.pointers ++ pointers } piece str := by
  obtain ⟨r, at_piece, holds⟩ := copies
  refine ⟨r, ?_, holds.mono grants⟩
  rwa [List.getElem?_append_left (List.getElem?_eq_some_iff.mp at_piece).1]

/-- A step with `malloc` for the allocator: it numbers the buffers and changes no piece but the
one it stores in. -/
theorem system_serve (grants : Grants [] c.pointers c.state) {request : Request}
    (small : request.Small) (served : system.serve c request = .ok c₁) :
    Grants [] c₁.pointers c₁.state ∧ c₁.pointers.length = c.pointers.length + request.pieces ∧
      ∀ piece str, (∀ offset bytes, request ≠ .store piece offset bytes) → c.Copies piece str →
        c₁.Copies piece str := by
  cases request with
  | malloc size =>
      obtain rfl := Except.ok.inj served
      have more := grants_malloc c.state size
      exact ⟨grants.append more, List.length_append, fun piece str _ copies => copies.grow more⟩
  | copyPattern patt =>
      obtain ⟨⟨slots, memory₁⟩, copied, rest⟩ := exists_of_bind_eq_ok served
      obtain rfl := Except.ok.inj rest
      obtain ⟨more, holds⟩ := system_nodeCopyPattern small copied
      refine ⟨grants.append more, ?_, fun piece str _ copies => copies.grow more⟩
      rw [List.length_append, holds.length_eq]
      rfl
  | store piece offset bytes' =>
      obtain ⟨slot, found, rest⟩ := exists_of_bind_eq_ok served
      obtain ⟨memory₁, stored, rest⟩ := exists_of_bind_eq_ok rest
      obtain rfl := Except.ok.inj rest
      rw [Allocator.store] at stored
      split at stored
      · rename_i written ran
        obtain rfl : written = memory₁ := Except.ok.inj stored
        have length : written.length = c.state.length := length_of_store ran
        refine ⟨grants.of_length length, rfl, ?_⟩
        rintro piece' str other ⟨r, at_piece', holds⟩
        refine ⟨r, at_piece', ?_⟩
        obtain null | ⟨j, bytes, rfl, rfl, at_j⟩ := holds
        · exact Or.inl null
        · have apart : piece' ≠ piece := by
            rintro rfl
            exact other offset bytes' rfl
          have ne : j ≠ slot.buffer :=
            grants.distinct at_piece' (Program.pointer_eq_ok found) apart
          exact Or.inr ⟨j, bytes, rfl, rfl, (getElem?_of_store ran ne).trans at_j⟩
      · cases stored
  | load piece offset n =>
      obtain ⟨slot, found, rest⟩ := exists_of_bind_eq_ok served
      split at rest
      · obtain rfl := Except.ok.inj rest
        exact ⟨grants, rfl, fun piece str _ copies => copies⟩
      · cases rest

theorem system_run (grants : Grants [] c.pointers c.state) {requests : List Request}
    (small : ∀ request ∈ requests, request.Small) (served : system.run c requests = .ok c₁) :
    Grants [] c₁.pointers c₁.state ∧
      c₁.pointers.length = c.pointers.length + (requests.map Request.pieces).sum ∧
      ∀ piece str, (∀ offset bytes, Request.store piece offset bytes ∉ requests) →
        c.Copies piece str → c₁.Copies piece str := by
  induction requests generalizing c with
  | nil =>
      obtain rfl := Except.ok.inj served
      exact ⟨grants, rfl, fun piece str _ copies => copies⟩
  | cons request requests ih =>
      obtain ⟨c₂, first, rest⟩ := exists_of_bind_eq_ok served
      obtain ⟨grants₂, length₂, keeps₂⟩ :=
        system_serve grants (small request List.mem_cons_self) first
      obtain ⟨grants₁, length₁, keeps₁⟩ :=
        ih grants₂ (fun later hl => small later (List.mem_cons_of_mem _ hl)) rest
      refine ⟨grants₁, ?_, fun piece str spared copies => ?_⟩
      · rw [length₁, length₂, List.map_cons, List.sum_cons, Nat.add_assoc]
      · apply keeps₁ piece str
          (fun offset bytes later => spared offset bytes (List.mem_cons_of_mem _ later))
        exact keeps₂ piece str
          (fun offset bytes same => spared offset bytes (same ▸ List.mem_cons_self)) copies

theorem run_append {σ : Type} (A : Allocator σ) (c : Program σ) (before after : List Request) :
    A.run c (before ++ after) = A.run c before >>= fun c => A.run c after :=
  List.foldlM_append

theorem system_copies {patt : AcPatternTexts} (small : patt.Small)
    (served : system.serve c (.copyPattern patt) = .ok c₁) {i : Nat}
    (at_i : patt.copies[i]? = some str) : c₁.Copies (c.pointers.length + i) str := by
  obtain ⟨⟨slots, memory₁⟩, copied, rest⟩ := exists_of_bind_eq_ok served
  obtain rfl := Except.ok.inj rest
  obtain ⟨_, holds⟩ := system_nodeCopyPattern small copied
  obtain ⟨bound, value⟩ := List.getElem?_eq_some_iff.mp at_i
  have bound' : i < slots.pointers.length := holds.length_eq ▸ bound
  have here : HoldsString memory₁ slots.pointers[i] patt.copies[i] := holds.get bound' bound
  refine ⟨slots.pointers[i], ?_, value ▸ here⟩
  rw [List.getElem?_append_right (Nat.le_add_right _ _), Nat.add_sub_cancel_left]
  exact List.getElem?_eq_getElem bound'

/-- The pointer with the number is null like the string, or the string is at it. -/
def Program.Shows (c : Program PoolState) (piece : Nat) (str : Option Bytes) : Prop :=
  (str = none ∧ c.pointers[piece]? = some none) ∨ ∃ slot bytes, str = some bytes ∧
    c.pointers[piece]? = some (some slot) ∧
    Buffers.load c.state.memory slot bytes.length = some (bytes.map some)

theorem Agrees.shows (h : Agrees parts c c') {piece : Nat} (copies : c.Copies piece str) :
    c'.Shows piece str := by
  obtain ⟨r, at_piece, holds⟩ := copies
  obtain ⟨bound, value⟩ := List.getElem?_eq_some_iff.mp at_piece
  have bound' : piece < c'.pointers.length := h.pointers.length_eq ▸ bound
  have matched : Matches parts c.pointers[piece] c'.pointers[piece] := h.pointers.get bound bound'
  have at_piece' := List.getElem?_eq_getElem bound'
  rw [value] at matched
  obtain ⟨rfl, null⟩ | ⟨i, p, at_i, rfl, same⟩ := matched
  · obtain ⟨_, none⟩ | ⟨_, _, some, _⟩ := holds
    · exact Or.inl ⟨none, at_piece'.trans (congrArg some null)⟩
    · cases some
  · obtain ⟨none, _⟩ | ⟨j, bytes, same', rfl, at_j⟩ := holds
    · cases none
    · obtain rfl : i = j := congrArg Slot.buffer (Option.some.inj same')
      refine Or.inr ⟨p.1, bytes, rfl, at_piece'.trans (congrArg some same), ?_⟩
      have read :
          Buffers.load c.state (Slot.shift ⟨i, 0⟩ 0) bytes.length = some (bytes.map some) := by
        refine load_eq_some_iff.mpr ⟨bytes.map some, at_j, ?_, ?_⟩
        · rw [List.length_map]
          exact Nat.le_of_eq (Nat.zero_add _)
        · exact (List.take_of_length_le (Nat.le_of_eq (List.length_map _))).symm
      exact h.state.load at_i read

/-- A pattern that was copied into the pool stays there: whatever pieces and copies follow and
whatever is stored in other pieces, its texts are found at their pointers, each with a
zero byte behind it. -/
theorem copies_last (memory : Memory UInt8) (size : UInt64) (before after : List Request)
    (patt : AcPatternTexts)
    (small : ∀ request ∈ before ++ .copyPattern patt :: after, request.Small)
    (served : system.run ⟨[], [], []⟩ (before ++ .copyPattern patt :: after) = .ok c)
    (spared : ∀ piece offset bytes, Request.store piece offset bytes ∈ after →
      piece < (before.map Request.pieces).sum ∨
        (before.map Request.pieces).sum + patt.copies.length ≤ piece) :
    ∃ c', mpool.run ⟨mpoolCreate memory size, [], []⟩ (before ++ .copyPattern patt :: after) =
        .ok c' ∧
      ∀ i str, patt.copies[i]? = some str → c'.Shows ((before.map Request.pieces).sum + i) str := by
  have start : Agrees [] ⟨[], [], []⟩ ⟨mpoolCreate memory size, [], []⟩ :=
    ⟨simulates_create memory size, .nil, rfl⟩
  obtain ⟨parts, c', ran, agrees⟩ := start.run small served
  refine ⟨c', ran, fun i str at_i => agrees.shows ?_⟩
  rw [run_append] at served
  obtain ⟨c₁, first, rest⟩ := exists_of_bind_eq_ok served
  obtain ⟨c₂, copied, rest⟩ := exists_of_bind_eq_ok rest
  have smallBefore : ∀ request ∈ before, request.Small :=
    fun request mem => small request (List.mem_append_left _ mem)
  have smallRest : ∀ request ∈ Request.copyPattern patt :: after, request.Small :=
    fun request mem => small request (List.mem_append_right _ mem)
  obtain ⟨grants₁, length₁, _⟩ := system_run (Grants.nil []) smallBefore first
  have smallCopy := smallRest _ List.mem_cons_self
  obtain ⟨grants₂, _⟩ := system_serve grants₁ smallCopy copied
  have there := system_copies smallCopy copied at_i
  rw [length₁, List.length_nil, Nat.zero_add] at there
  obtain ⟨_, _, keeps⟩ :=
    system_run grants₂ (fun request mem => smallRest request (List.mem_cons_of_mem _ mem)) rest
  apply keeps _ _ _ there
  intro offset bytes stored
  have bound : i < patt.copies.length := (List.getElem?_eq_some_iff.mp at_i).1
  have outside := spared _ offset bytes stored
  omega

/-- The pattern `ab` with the identifier `c`, copied between two pieces. -/
theorem copies_last_ab :
    ∃ c', mpool.run ⟨mpoolCreate [] 16, [], []⟩ [.malloc 5,
        .copyPattern ⟨⟨some [97, 98], 2⟩, ⟨none, 0⟩, .stringy (some [99, 0])⟩,
        .store 0 0 [1], .malloc 40] = .ok c' ∧
      c'.Shows 1 (some [97, 98, 0]) ∧ c'.Shows 2 none ∧ c'.Shows 3 (some [99, 0]) := by
  let c : Program (Memory UInt8) :=
    ⟨[[some 1, none, none, none, none], [some 97, some 98, some 0], [some 99, some 0],
        List.replicate 40 none],
      [some ⟨0, 0⟩, some ⟨1, 0⟩, none, some ⟨2, 0⟩, some ⟨3, 0⟩], []⟩
  obtain ⟨c', ran, shows⟩ := copies_last (c := c) [] 16 [.malloc 5] [.store 0 0 [1], .malloc 40]
    ⟨⟨some [97, 98], 2⟩, ⟨none, 0⟩, .stringy (some [99, 0])⟩ (by
      intro request mem
      simp only [List.mem_append, List.mem_cons, List.not_mem_nil, or_false] at mem
      obtain rfl | rfl | rfl | rfl := mem
      · exact (by decide : (5 : UInt64).toNat + 15 < 2 ^ 64)
      · exact ⟨by decide, by decide, by rintro _ ⟨⟩; decide⟩
      · trivial
      · exact (by decide : (40 : UInt64).toNat + 15 < 2 ^ 64)) rfl (by
      intro piece offset bytes stored
      simp only [List.mem_cons, Request.store.injEq, reduceCtorEq, List.not_mem_nil,
        or_false] at stored
      rw [stored.1]
      exact Or.inl (by decide))
  exact ⟨c', ran, shows 0 _ rfl, shows 1 _ rfl, shows 2 _ rfl⟩

end Multifast
