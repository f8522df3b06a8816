import Paraglob.Multifast.Trie

/-!
# What a trie stands for

An open trie accepts patterns: it refuses the empty one, those that are too long
and those it already has. What it has accepted is a list of patterns with
distinct, nonempty, short search texts. A `Dictionary` is such a list together
with these facts, and `insert` says what adding a pattern means. Nothing here
mentions nodes; later files prove that the trie is faithful to its dictionary.
-/

namespace Multifast

/-- The accepted patterns in the order in which they were added. -/
structure Dictionary where
  entries : List AcPattern
  distinct : (entries.map AcPattern.ptext).Nodup
  nonempty : ∀ q ∈ entries, q.ptext ≠ []
  short : ∀ q ∈ entries, q.ptext.length ≤ acPatternMaxLength

namespace Dictionary

def empty : Dictionary := ⟨[], by simp, by simp, by simp⟩

def Has (d : Dictionary) (word : Bytes) : Prop := ∃ q ∈ d.entries, q.ptext = word

instance (d : Dictionary) (word : Bytes) : Decidable (d.Has word) :=
  inferInstanceAs (Decidable (∃ q ∈ d.entries, q.ptext = word))

/-- Add a pattern to an open trie. -/
def insert (d : Dictionary) (patt : AcPattern) : AcStatus × Dictionary :=
  if zero : patt.ptext.length = 0 then (.zeroPattern, d)
  else if long : patt.ptext.length > acPatternMaxLength then (.longPattern, d)
  else if known : d.Has patt.ptext then (.duplicatePattern, d)
  else (.success, {
    entries := d.entries ++ [patt]
    distinct := by
      rw [List.map_append, List.nodup_append]
      refine ⟨d.distinct, by simp, ?_⟩
      rintro w hw w' hw' rfl
      obtain ⟨q, hq, rfl⟩ := List.mem_map.mp hw
      exact known ⟨q, hq, by simpa using hw'⟩
    nonempty := by
      intro q hq
      obtain hq | hq := List.mem_append.mp hq
      · exact d.nonempty q hq
      · rw [List.mem_singleton.mp hq]
        exact fun empty => zero (by simp [empty])
    short := by
      intro q hq
      obtain hq | hq := List.mem_append.mp hq
      · exact d.short q hq
      · rw [List.mem_singleton.mp hq]
        exact Nat.le_of_not_gt long })

variable (d : Dictionary) {patt : AcPattern}

theorem insert_of_zero (zero : patt.ptext.length = 0) : d.insert patt = (.zeroPattern, d) :=
  dif_pos zero

theorem insert_of_long (zero : patt.ptext.length ≠ 0)
    (long : patt.ptext.length > acPatternMaxLength) : d.insert patt = (.longPattern, d) := by
  rw [insert, dif_neg zero, dif_pos long]

theorem insert_of_has (zero : patt.ptext.length ≠ 0)
    (long : ¬ patt.ptext.length > acPatternMaxLength) (known : d.Has patt.ptext) :
    d.insert patt = (.duplicatePattern, d) := by
  rw [insert, dif_neg zero, dif_neg long, dif_pos known]

theorem insert_of_not_has (zero : patt.ptext.length ≠ 0)
    (long : ¬ patt.ptext.length > acPatternMaxLength) (known : ¬ d.Has patt.ptext) :
    (d.insert patt).1 = .success ∧ (d.insert patt).2.entries = d.entries ++ [patt] := by
  rw [insert, dif_neg zero, dif_neg long, dif_neg known]
  exact ⟨rfl, rfl⟩

theorem insert_eq_duplicate_iff : (d.insert patt).1 = .duplicatePattern ↔ d.Has patt.ptext := by
  constructor
  · intro status
    by_contra unknown
    by_cases zero : patt.ptext.length = 0
    · rw [d.insert_of_zero zero] at status
      cases status
    · by_cases long : patt.ptext.length > acPatternMaxLength
      · rw [d.insert_of_long zero long] at status
        cases status
      · rw [(d.insert_of_not_has zero long unknown).1] at status
        cases status
  · intro known
    obtain ⟨q, hq, same⟩ := known
    have zero : patt.ptext.length ≠ 0 := fun empty =>
      d.nonempty q hq (same.trans (List.length_eq_zero_iff.mp empty))
    have long : ¬ patt.ptext.length > acPatternMaxLength :=
      Nat.not_lt.mpr (same ▸ d.short q hq)
    rw [d.insert_of_has zero long ⟨q, hq, same⟩]

theorem eq_of_ptext_eq {p q : AcPattern} (hp : p ∈ d.entries)
    (hq : q ∈ d.entries) (same : p.ptext = q.ptext) : p = q :=
  List.inj_on_of_nodup_map d.distinct hp hq same

end Dictionary

end Multifast
