import Paraglob.Serializer.Layout

/-!
# Writing and reading back

The writer fills all eight bytes of an integer field, the reader looks at the
first one only. So the two agree as long as the number of strings and the length
of each of them fit one byte, the reader accepts vectors that differ from what the
writer writes in the bytes it skips, and its checks, which stand behind the reads,
come too late for a vector that ends within a string.
-/

namespace ParaglobSerializer

variable {b : Bytes} {v : List Bytes}

theorem bytes_cases (b : Bytes) :
    b = [] ∨ (∃ c more, b = c :: more ∧ more.length + 1 < intSize) ∨
      ∃ count records tail, b = Field.bytes count ++ (concat records ++ tail) ∧
        (tail = [] ∨ Cut tail) := by
  cases b with
  | nil => exact Or.inl rfl
  | cons c more =>
      apply Or.inr
      by_cases short : more.length + 1 < intSize
      · exact Or.inl ⟨c, more, rfl, short⟩
      · obtain ⟨count, rest, _, parts⟩ := exists_field (c := c) (Nat.le_of_not_lt short)
        obtain ⟨records, tail, rfl, ends⟩ := exists_records rest
        exact Or.inr ⟨count, records, tail, parts, ends⟩

/-- The vectors that are accepted have a layout with the announced number of records. -/
theorem unserialize_eq_ok_iff :
    unserialize b = .ok v ↔ ∃ count records, b = layout count records ∧
      records.length = count.low.toNat ∧ records.map Record.body = v := by
  constructor
  · intro accepted
    obtain rfl | ⟨c, more, rfl, short⟩ | ⟨count, records, tail, rfl, ends⟩ := bytes_cases b
    · cases accepted
    · rw [unserialize_short short] at accepted
      cases accepted
    · obtain rfl | ⟨c, more, rfl, cut⟩ := ends
      · rw [List.append_nil] at accepted ⊢
        change unserialize (layout count records) = _ at accepted
        rw [unserialize_layout] at accepted
        split at accepted
        · cases accepted
        · split at accepted
          · cases accepted
          · exact ⟨count, records, rfl, by omega, Except.ok.inj accepted⟩
      · by_cases empty : c = 0
        · subst empty
          rw [unserialize_cut_empty cut] at accepted
          cases accepted
        · rw [unserialize_cut cut empty] at accepted
          cases accepted
  · rintro ⟨count, records, rfl, announced, rfl⟩
    rw [unserialize_layout, if_neg (by omega), if_neg (by omega)]

/-- The bytes of an integer field, the lowest first. -/
def intBytes (n : Nat) : Bytes := (List.range intSize).map fun k => UInt8.ofNat (n / 256 ^ k)

/-- What does not fit eight bytes is cut off, by the conversion or by the bytes. -/
theorem addInt_ofNat (n : Nat) (target : Bytes) :
    addInt (UInt64.ofNat n) target = target ++ intBytes n := by
  rw [addInt, intBytes, List.append_cancel_left_eq]
  apply List.map_congr_left
  intro k inside
  have small : k < 8 := List.mem_range.mp inside
  have split : 2 ^ 64 = 256 ^ k * 256 ^ (8 - k) := by
    rw [← Nat.pow_add, Nat.add_sub_of_le (Nat.le_of_lt small)]
    rfl
  apply UInt8.toNat_inj.mp
  rw [UInt8.toNat_ofNat', UInt8.toNat_ofNat', UInt64.toNat_ofNat', split,
    Nat.mod_mul_right_div_self]
  exact Nat.mod_mod_of_dvd _ (Nat.pow_dvd_pow 256 (Nat.sub_pos_of_lt small))

theorem serialize_eq (v : List Bytes) :
    serialize v = intBytes v.length ++ v.flatMap fun s => intBytes s.length ++ s := by
  have loop : ∀ start, v.foldl (fun ret s => addInt (UInt64.ofNat s.length) ret ++ s) start =
      start ++ v.flatMap fun s => intBytes s.length ++ s := by
    induction v with
    | nil => exact fun start => (List.append_nil start).symm
    | cons s v ih =>
        intro start
        rw [List.foldl_cons, ih, addInt_ofNat, List.flatMap_cons]
        simp only [List.append_assoc]
  rw [serialize, loop, addInt_ofNat, List.nil_append]

/-- The field of an integer that fits one byte. -/
def Field.plain (low : UInt8) : Field := ⟨low, List.replicate 7 0, rfl⟩

def Record.plain (r : Record) : Record := ⟨.plain r.field.low, r.body, r.size⟩

theorem intBytes_toNat (low : UInt8) : intBytes low.toNat = (Field.plain low).bytes := by
  have first : UInt8.ofNat (low.toNat / 256 ^ 0) = low := by
    rw [Nat.pow_zero, Nat.div_one, UInt8.ofNat_toNat]
  have others : (List.range 7).map (fun k => UInt8.ofNat (low.toNat / 256 ^ (k + 1))) =
      List.replicate 7 0 := by
    refine List.eq_replicate_iff.mpr ⟨rfl, fun c hc => ?_⟩
    obtain ⟨k, _, rfl⟩ := List.mem_map.mp hc
    have small : low.toNat < 256 ^ (k + 1) :=
      low.toNat_lt.trans_le (Nat.le_self_pow (Nat.succ_ne_zero k) 256)
    rw [Nat.div_eq_of_lt small]
    rfl
  rw [intBytes, intSize, List.range_succ_eq_map, List.map_cons, List.map_map, first]
  exact congrArg (low :: ·) others

theorem serialize_bodies {count : Field} {records : List Record}
    (announced : records.length = count.low.toNat) :
    serialize (records.map Record.body) =
      layout (.plain count.low) (records.map Record.plain) := by
  have same : ∀ r : Record, intBytes r.body.length ++ r.body = r.plain.bytes := by
    intro r
    rw [r.size, intBytes_toNat]
    rfl
  rw [serialize_eq, List.length_map, announced, intBytes_toNat, layout, concat, List.flatMap_map,
    List.flatMap_map]
  simp only [same]

theorem Field.plain_bytes_eq_iff (field : Field) (front back : Bytes) :
    (Field.plain field.low).bytes ++ front = field.bytes ++ back ↔
      field.upper = List.replicate 7 0 ∧ front = back := by
  have lengths : (Field.plain field.low).bytes.length = field.bytes.length := by
    rw [length_bytes, length_bytes]
  constructor
  · intro same
    obtain ⟨fields, rest⟩ := List.append_inj same lengths
    exact ⟨(List.cons.inj fields).2.symm, rest⟩
  · rintro ⟨zero, rfl⟩
    rw [bytes, bytes, zero]
    rfl

theorem concat_plain_eq_iff (records : List Record) :
    concat (records.map Record.plain) = concat records ↔
      ∀ r ∈ records, r.field.upper = List.replicate 7 0 := by
  induction records with
  | nil => exact iff_of_true rfl fun r hr => absurd hr List.not_mem_nil
  | cons r records ih =>
      have split : concat ((r :: records).map Record.plain) = concat (r :: records) ↔
          (Field.plain r.field.low).bytes ++ (r.body ++ concat (records.map Record.plain)) =
            r.field.bytes ++ (r.body ++ concat records) := by
        rw [← List.append_assoc, ← List.append_assoc]
        rfl
      rw [split, Field.plain_bytes_eq_iff, List.append_cancel_left_eq, ih, List.forall_mem_cons]

theorem exists_records_of_short (fits : ∀ s ∈ v, s.length < 256) :
    ∃ records : List Record, records.map Record.body = v := by
  induction v with
  | nil => exact ⟨[], rfl⟩
  | cons s v ih =>
      obtain ⟨records, bodies⟩ := ih fun t ht => fits t (List.mem_cons_of_mem _ ht)
      have size : s.length = (UInt8.ofNat s.length).toNat :=
        (UInt8.toNat_ofNat_of_lt' (fits s List.mem_cons_self)).symm
      exact ⟨⟨.plain (UInt8.ofNat s.length), s, size⟩ :: records, congrArg (s :: ·) bodies⟩

/-- What the reader accepts has few and short strings. -/
theorem short_of_unserialize (accepted : unserialize b = .ok v) :
    v.length < 256 ∧ ∀ s ∈ v, s.length < 256 := by
  obtain ⟨count, records, _, announced, rfl⟩ := unserialize_eq_ok_iff.mp accepted
  constructor
  · rw [List.length_map, announced]
    exact count.low.toNat_lt
  · intro s hs
    obtain ⟨r, _, rfl⟩ := List.mem_map.mp hs
    rw [r.size]
    exact r.field.low.toNat_lt

/-- Decoding undoes encoding if and only if there are fewer than 256 strings, each of fewer
than 256 bytes. -/
theorem unserialize_serialize_iff (v : List Bytes) :
    unserialize (serialize v) = .ok v ↔ v.length < 256 ∧ ∀ s ∈ v, s.length < 256 := by
  constructor
  · exact short_of_unserialize
  · rintro ⟨few, fits⟩
    obtain ⟨records, rfl⟩ := exists_records_of_short fits
    rw [List.length_map] at few
    let count : Field := .plain (UInt8.ofNat records.length)
    have announced : records.length = count.low.toNat := (UInt8.toNat_ofNat_of_lt' few).symm
    refine unserialize_eq_ok_iff.mpr
      ⟨count, records.map Record.plain, serialize_bodies announced, ?_, ?_⟩
    · rw [List.length_map, announced]
    · rw [List.map_map]
      rfl

/-- One string of 256 bytes is not read back. -/
theorem long_string_not_restored :
    ¬ ∀ v : List Bytes, v.length < 2 ^ 64 → (∀ s ∈ v, s.length < 2 ^ 64) →
      unserialize (serialize v) = .ok v := by
  intro restores
  have restored := restores [List.replicate 256 97] (by decide) (by
    intro s hs
    rw [List.mem_singleton.mp hs, List.length_replicate]
    decide)
  have short := (short_of_unserialize restored).2 _ List.mem_cons_self
  rw [List.length_replicate] at short
  exact absurd short (by decide)

/-- A vector is returned or one of the two errors is thrown. -/
def EndsNormally (result : Except Fault (List Bytes)) : Prop :=
  (∃ v, result = .ok v) ∨
    ∃ what, result = .error (.underflowError what) ∨ result = .error (.overflowError what)

/-- There is a first byte, and what follows the first field is a list of complete records
with nothing behind them, or with the field of an empty string that is cut short. -/
def Readable (b : Bytes) : Prop :=
  b ≠ [] ∧ ∃ records tail, b.drop intSize = concat records ++ tail ∧
    (tail = [] ∨ ∃ more, tail = 0 :: more ∧ tail.length < intSize)

theorem not_endsNormally : ¬ EndsNormally (.error .outOfBounds) := by
  rintro (⟨v, returned⟩ | ⟨what, thrown | thrown⟩)
  · cases returned
  · cases thrown
  · cases thrown

theorem endsNormally_layout (count : Field) (records : List Record) :
    EndsNormally (unserialize (layout count records)) := by
  rw [unserialize_layout]
  split
  · exact Or.inr ⟨_, Or.inr rfl⟩
  · split
    · exact Or.inr ⟨_, Or.inl rfl⟩
    · exact Or.inl ⟨_, rfl⟩

/-- The reader stays inside the vector, and returns or throws one of its errors, if and only
if the vector is readable. -/
theorem unserialize_endsNormally_iff (b : Bytes) :
    EndsNormally (unserialize b) ↔ Readable b := by
  constructor
  · intro ends
    obtain rfl | ⟨c, more, rfl, short⟩ | ⟨count, records, tail, rfl, cases⟩ := bytes_cases b
    · exact absurd ends not_endsNormally
    · have rest : (c :: more).drop intSize = [] := List.drop_eq_nil_iff.mpr (Nat.le_of_lt short)
      exact ⟨List.cons_ne_nil _ _, [], [], rest, Or.inl rfl⟩
    · refine ⟨List.cons_ne_nil _ _, records, tail, drop_count _ _, ?_⟩
      obtain rfl | ⟨c, more, rfl, cut⟩ := cases
      · exact Or.inl rfl
      · by_cases empty : c = 0
        · subst empty
          exact Or.inr ⟨more, rfl, cut⟩
        · rw [unserialize_cut cut empty] at ends
          exact absurd ends not_endsNormally
  · rintro ⟨nonempty, records, tail, rest, ends⟩
    obtain rfl | ⟨c, more, rfl, short⟩ | ⟨count, _, _, rfl, _⟩ := bytes_cases b
    · exact absurd rfl nonempty
    · rw [unserialize_short short]
      exact Or.inr ⟨_, Or.inl rfl⟩
    · rw [drop_count] at rest
      rw [rest]
      obtain rfl | ⟨more, rfl, cut⟩ := ends
      · rw [List.append_nil]
        exact endsNormally_layout count records
      · rw [unserialize_cut_empty cut]
        exact Or.inr ⟨_, Or.inl rfl⟩

/-- The empty vector is read at index 0. -/
theorem empty_read_outside :
    ¬ ∀ b : Bytes, EndsNormally (unserialize b) :=
  fun ends => not_endsNormally (ends [])

/-- An accepted vector is the encoding of what it is read as, if and only if all skipped
bytes of its fields are zero. -/
theorem canonical_iff (b : Bytes) :
    (∀ v, unserialize b = .ok v → serialize v = b) ↔
      ∀ count records, b = layout count records → records.length = count.low.toNat →
        count.upper = List.replicate 7 0 ∧ ∀ r ∈ records, r.field.upper = List.replicate 7 0 := by
  constructor
  · rintro canonical count records rfl announced
    have same := canonical _ (unserialize_eq_ok_iff.mpr ⟨count, records, rfl, announced, rfl⟩)
    rw [serialize_bodies announced, layout, layout, Field.plain_bytes_eq_iff,
      concat_plain_eq_iff] at same
    exact same
  · intro zero v accepted
    obtain ⟨count, records, rfl, announced, rfl⟩ := unserialize_eq_ok_iff.mp accepted
    rw [serialize_bodies announced, layout, layout, Field.plain_bytes_eq_iff, concat_plain_eq_iff]
    exact zero count records rfl announced

/-- One of the two errors is thrown. -/
def Rejects (result : Except Fault (List Bytes)) : Prop :=
  ∃ what, result = .error (.underflowError what) ∨ result = .error (.overflowError what)

/-- What is read is what would be written as the vector, and a vector that is never written is
rejected. -/
def ReadsOnlyWritten (b : Bytes) : Prop :=
  (∀ v, unserialize b = .ok v → serialize v = b) ∧
    ((∀ v, serialize v ≠ b) → Rejects (unserialize b))

/-- The vector is a count and as many strings, each behind its length, and these numbers fill all
eight bytes of their fields. -/
def Written (b : Bytes) : Prop :=
  ∃ v : List Bytes, b = intBytes v.length ++ v.flatMap fun s => intBytes s.length ++ s

theorem written_iff : Written b ↔ ∃ v, serialize v = b := by
  simp only [Written, serialize_eq, eq_comm]

/-- The reader accepts only what the writer writes, and rejects everything else, if and only if
the skipped bytes of an accepted layout are zero and the vector is readable or written. -/
theorem serialize_unserialize_iff (b : Bytes) :
    ReadsOnlyWritten b ↔
      (∀ count records, b = layout count records → records.length = count.low.toNat →
        count.upper = List.replicate 7 0 ∧ ∀ r ∈ records, r.field.upper = List.replicate 7 0) ∧
      (Readable b ∨ Written b) := by
  rw [ReadsOnlyWritten, canonical_iff, written_iff]
  refine and_congr_right fun zero => ?_
  have canonical := (canonical_iff b).mpr zero
  constructor
  · intro rejects
    by_cases written : ∃ v, serialize v = b
    · exact Or.inr written
    · exact Or.inl ((unserialize_endsNormally_iff b).mp (Or.inr (rejects (not_exists.mp written))))
  · intro readable never
    cases readable with
    | inl readable =>
        apply ((unserialize_endsNormally_iff b).mpr readable).resolve_left
        rintro ⟨v, accepted⟩
        exact never v (canonical v accepted)
    | inr written =>
        obtain ⟨v, written⟩ := written
        exact absurd written (never v)

/-- A vector whose count has a skipped byte that is not zero. -/
theorem skipped_byte_accepted : ¬ ∀ b : Bytes, ReadsOnlyWritten b := by
  intro only
  have accepted : unserialize [0, 1, 0, 0, 0, 0, 0, 0] = .ok [] :=
    unserialize_layout ⟨0, [1, 0, 0, 0, 0, 0, 0], rfl⟩ []
  exact absurd ((only _).1 _ accepted) (by decide)

end ParaglobSerializer
