import Paraglob.Serializer.Codec

/-!
# How the reader sees its bytes

The reader takes the first byte of an integer field for its value and skips the
other seven. To it a vector of bytes is a field with the number of strings and a
list of records, each a field and as many bytes as the field says. Every vector
has such a layout up to a tail that is no complete record, and the layout decides
what the reader does.
-/

namespace ParaglobSerializer

/-- An integer field: the byte that is read and the bytes that are skipped. -/
structure Field where
  low : UInt8
  upper : Bytes
  size : upper.length + 1 = intSize

/-- A string behind the field with its length. -/
structure Record where
  field : Field
  body : Bytes
  size : body.length = field.low.toNat

def Field.bytes (field : Field) : Bytes := field.low :: field.upper

def Record.bytes (r : Record) : Bytes := r.field.bytes ++ r.body

def concat (records : List Record) : Bytes := records.flatMap Record.bytes

/-- A complete vector of bytes. -/
def layout (count : Field) (records : List Record) : Bytes := count.bytes ++ concat records

@[simp] theorem Field.length_bytes (field : Field) : field.bytes.length = intSize := field.size

theorem Record.length_bytes (r : Record) : r.bytes.length = intSize + r.field.low.toNat := by
  rw [bytes, List.length_append, Field.length_bytes, r.size]

/-- The bytes are the beginning of a record and end before it is complete. -/
def Cut (tail : Bytes) : Prop :=
  ∃ c more, tail = c :: more ∧ tail.length < intSize + c.toNat

theorem exists_field {c : UInt8} {more : Bytes} (long : intSize ≤ more.length + 1) :
    ∃ (field : Field) (rest : Bytes), field.low = c ∧ c :: more = field.bytes ++ rest := by
  rw [intSize] at long
  have size : (more.take 7).length + 1 = intSize := by
    rw [List.length_take, intSize]
    omega
  refine ⟨⟨c, more.take 7, size⟩, more.drop 7, rfl, ?_⟩
  exact congrArg (c :: ·) (List.take_append_drop 7 more).symm

theorem exists_record {s : Bytes} (nonempty : s ≠ []) :
    Cut s ∨ ∃ (r : Record) (rest : Bytes), s = r.bytes ++ rest := by
  obtain ⟨c, more, rfl⟩ := List.exists_cons_of_ne_nil nonempty
  by_cases cut : (c :: more).length < intSize + c.toNat
  · exact Or.inl ⟨c, more, rfl, cut⟩
  · have long := Nat.le_of_not_lt cut
    obtain ⟨field, rest, rfl, parts⟩ :=
      exists_field (c := c) (Nat.le_trans (Nat.le_add_right _ _) long)
    rw [parts, List.length_append, field.length_bytes] at long
    have size : (rest.take field.low.toNat).length = field.low.toNat := by
      rw [List.length_take]
      omega
    refine Or.inr ⟨⟨field, rest.take field.low.toNat, size⟩, rest.drop field.low.toNat, ?_⟩
    rw [parts, Record.bytes, List.append_assoc, List.take_append_drop]

/-- Every string of bytes is a list of records with a tail that is empty or cut short. -/
theorem exists_records (s : Bytes) :
    ∃ records tail, s = concat records ++ tail ∧ (tail = [] ∨ Cut tail) := by
  induction h : s.length using Nat.strong_induction_on generalizing s with
  | _ n ih =>
      by_cases empty : s = []
      · exact ⟨[], [], empty, Or.inl rfl⟩
      · cases exists_record empty with
        | inl cut => exact ⟨[], s, rfl, Or.inr cut⟩
        | inr complete =>
            obtain ⟨r, rest, rfl⟩ := complete
            have shorter : rest.length < n := by
              rw [← h, List.length_append, r.length_bytes, intSize]
              omega
            obtain ⟨records, tail, rfl, ends⟩ := ih rest.length shorter rest rfl
            exact ⟨r :: records, tail, (List.append_assoc _ _ _).symm, ends⟩

section Reading

variable {vsp : Bytes} {it : Nat} {ret : List Bytes}

theorem length_of_drop {c : UInt8} {more : Bytes} (here : vsp.drop it = c :: more) :
    vsp.length = it + more.length + 1 := by
  have lengths := congrArg List.length here
  rw [List.length_drop, List.length_cons] at lengths
  omega

theorem deref_of_drop {c : UInt8} {more : Bytes} (here : vsp.drop it = c :: more) :
    deref vsp it = .ok c := by
  have found : vsp[it]? = some c := by
    rw [← List.head?_drop, here]
    rfl
  rw [deref, found]

theorem deref_of_le (outside : vsp.length ≤ it) : deref vsp it = .error .outOfBounds := by
  rw [deref, List.getElem?_eq_none outside]

theorem getIntAndMove_of_drop {c : UInt8} {more : Bytes} (here : vsp.drop it = c :: more) :
    getIntAndMove vsp it = .ok (c.toUInt64, it + intSize) := by
  rw [getIntAndMove, deref_of_drop here]

theorem copyString_of_drop {s rest : Bytes} (here : vsp.drop it = s ++ rest) :
    copyString vsp it s.length = .ok s := by
  induction s generalizing it with
  | nil => rfl
  | cons c s ih =>
      have next : vsp.drop (it + 1) = s ++ rest := by
        rw [← List.tail_drop, here]
        rfl
      rw [List.length_cons, copyString, deref_of_drop here, ih next]
      rfl

theorem copyString_overrun {l : Nat} (some : 0 < l) (overrun : vsp.length < it + l) :
    copyString vsp it l = .error .outOfBounds := by
  induction l generalizing it with
  | zero => exact absurd some (Nat.lt_irrefl 0)
  | succ l ih =>
      rw [copyString]
      cases here : vsp.drop it with
      | nil =>
          rw [deref_of_le (List.drop_eq_nil_iff.mp here)]
          rfl
      | cons c more =>
          have inside := length_of_drop here
          rw [deref_of_drop here, ih (by omega) (by omega)]
          rfl

theorem readStrings_end (ended : vsp.length ≤ it) : readStrings vsp it ret = .ok (ret, it) := by
  rw [readStrings, if_neg (Nat.not_lt.mpr ended)]

/-- One round of the loop is a copy, whose success or failure decides. -/
theorem readStrings_step {c : UInt8} {more : Bytes} (here : vsp.drop it = c :: more) :
    (∀ s, copyString vsp (it + intSize) c.toNat = .ok s →
      readStrings vsp it ret = readStrings vsp (it + intSize + c.toNat) (ret ++ [s])) ∧
    ∀ fault, copyString vsp (it + intSize) c.toNat = .error fault →
      readStrings vsp it ret = .error fault := by
  have inside : it < vsp.length := by
    have length := length_of_drop here
    omega
  have moved := getIntAndMove_of_drop here
  rw [readStrings, if_pos inside]
  split
  · rename_i l first moved'
    obtain ⟨rfl, rfl⟩ := Prod.mk.inj (Except.ok.inj (moved.symm.trans moved'))
    constructor
    · intro s copied
      simp only [UInt8.toNat_toUInt64, copied]
    · intro fault failed
      simp only [UInt8.toNat_toUInt64, failed]
  · rename_i fault failed
    rw [moved] at failed
    cases failed

theorem readStrings_record {r : Record} {rest : Bytes} (here : vsp.drop it = r.bytes ++ rest) :
    readStrings vsp it ret = readStrings vsp (it + r.bytes.length) (ret ++ [r.body]) := by
  have body : vsp.drop (it + intSize) = r.body ++ rest := by
    rw [← List.drop_drop, here, Record.bytes, List.append_assoc]
    exact List.drop_left' r.field.length_bytes
  have copied := copyString_of_drop body
  rw [r.size] at copied
  have first : vsp.drop it = r.field.low :: (r.field.upper ++ r.body ++ rest) := here
  rw [(readStrings_step first).1 r.body copied, r.length_bytes, Nat.add_assoc]

theorem readStrings_records {records : List Record} {tail : Bytes}
    (here : vsp.drop it = concat records ++ tail) :
    readStrings vsp it ret =
      readStrings vsp (it + (concat records).length) (ret ++ records.map Record.body) := by
  induction records generalizing it ret with
  | nil => rw [concat, List.flatMap_nil, List.length_nil, List.map_nil, List.append_nil]; rfl
  | cons r records ih =>
      have split : vsp.drop it = r.bytes ++ (concat records ++ tail) :=
        here.trans (List.append_assoc _ _ _)
      have next : vsp.drop (it + r.bytes.length) = concat records ++ tail := by
        rw [← List.drop_drop, split, List.drop_left]
      have length : (concat (r :: records)).length = r.bytes.length + (concat records).length :=
        List.length_append
      rw [readStrings_record split, ih next, length, Nat.add_assoc, List.map_cons,
        ← List.append_cons]

theorem readStrings_cut_empty {more : Bytes} (here : vsp.drop it = 0 :: more)
    (cut : more.length + 1 < intSize) :
    readStrings vsp it ret = .ok (ret ++ [[]], it + intSize) ∧ vsp.length < it + intSize := by
  have length := length_of_drop here
  have past : vsp.length < it + intSize := by omega
  refine ⟨?_, past⟩
  rw [(readStrings_step here).1 [] rfl]
  exact readStrings_end (Nat.le_of_lt past)

/-- A body that is cut short is read past the end. -/
theorem readStrings_cut {c : UInt8} {more : Bytes} (here : vsp.drop it = c :: more)
    (cut : more.length + 1 < intSize + c.toNat) (some : c ≠ 0) :
    readStrings vsp it ret = .error .outOfBounds := by
  have length := length_of_drop here
  have positive : 0 < c.toNat := by
    rw [Nat.pos_iff_ne_zero]
    exact fun zero => some (UInt8.toNat_inj.mp zero)
  exact (readStrings_step here).2 _ (copyString_overrun positive (by omega))

end Reading

section Unserializing

variable {count : Field} {records : List Record} {tail : Bytes}

/-- Behind a complete first field, `unserialize` is its loop and the checks after it. -/
theorem unserialize_of_count (count : Field) (more : Bytes) :
    unserialize (count.bytes ++ more) =
      readStrings (count.bytes ++ more) intSize [] >>= fun (strings, last) =>
        if last > (count.bytes ++ more).length then .error (.underflowError endedUnexpectedly)
        else if strings.length > count.low.toNat then .error (.overflowError readMore)
        else if strings.length < count.low.toNat then .error (.underflowError readFewer)
        else .ok strings := by
  have first : (count.bytes ++ more).drop 0 = count.low :: (count.upper ++ more) := rfl
  have long : ¬ 0 + intSize > (count.bytes ++ more).length := by
    rw [List.length_append, count.length_bytes]
    omega
  rw [unserialize, getIntAndMove_of_drop first]
  change (if 0 + intSize > (count.bytes ++ more).length then _ else _) = _
  rw [if_neg long, Nat.zero_add, UInt8.toNat_toUInt64]

theorem drop_count (count : Field) (more : Bytes) : (count.bytes ++ more).drop intSize = more :=
  List.drop_left' count.length_bytes

theorem unserialize_layout (count : Field) (records : List Record) :
    unserialize (layout count records) =
      if records.length > count.low.toNat then .error (.overflowError readMore)
      else if records.length < count.low.toNat then .error (.underflowError readFewer)
      else .ok (records.map Record.body) := by
  have here : (layout count records).drop intSize = concat records ++ [] := by
    rw [layout, drop_count, List.append_nil]
  have length : intSize + (concat records).length = (layout count records).length := by
    rw [layout, List.length_append, count.length_bytes]
  have read : readStrings (layout count records) intSize [] =
      .ok (records.map Record.body, (layout count records).length) := by
    rw [readStrings_records here, length, readStrings_end (Nat.le_refl _), List.nil_append]
  have checked := unserialize_of_count count (concat records)
  rw [← layout, read] at checked
  rw [checked]
  change (if (layout count records).length > (layout count records).length then _ else _) = _
  rw [if_neg (Nat.lt_irrefl _), List.length_map]

theorem unserialize_cut_empty {more : Bytes} (cut : more.length + 1 < intSize) :
    unserialize (count.bytes ++ (concat records ++ 0 :: more)) =
      .error (.underflowError endedUnexpectedly) := by
  have here := drop_count count (concat records ++ 0 :: more)
  have rest : (count.bytes ++ (concat records ++ 0 :: more)).drop
      (intSize + (concat records).length) = 0 :: more := by
    rw [← List.drop_drop, here, List.drop_left]
  obtain ⟨read, past⟩ := readStrings_cut_empty rest cut
  rw [unserialize_of_count, readStrings_records here, read]
  exact if_pos past

theorem unserialize_cut {c : UInt8} {more : Bytes} (cut : more.length + 1 < intSize + c.toNat)
    (some : c ≠ 0) :
    unserialize (count.bytes ++ (concat records ++ c :: more)) = .error .outOfBounds := by
  have here := drop_count count (concat records ++ c :: more)
  have rest : (count.bytes ++ (concat records ++ c :: more)).drop
      (intSize + (concat records).length) = c :: more := by
    rw [← List.drop_drop, here, List.drop_left]
  rw [unserialize_of_count, readStrings_records here, readStrings_cut rest cut some]
  rfl

theorem unserialize_short {c : UInt8} {more : Bytes} (cut : more.length + 1 < intSize) :
    unserialize (c :: more) = .error (.underflowError endedUnexpectedly) := by
  have first : (c :: more).drop 0 = c :: more := rfl
  have short : 0 + intSize > (c :: more).length := by
    rw [List.length_cons, Nat.zero_add]
    exact cut
  rw [unserialize, getIntAndMove_of_drop first]
  exact if_pos short

end Unserializing

end ParaglobSerializer
