import Paraglob.Multifast.Sessions

/-!
# Texts in chunks

A client hands over a text in chunks, each with a mode, and flushes in the end. The
file follows such a run: which marks are chosen, how much of the text is undecided
after every chunk, whether this makes the session fail, and what the callback has
received when it is over. Then it looks for chunks that never overflow the backlog,
and for some that do.
-/

namespace Multifast

open LongestSuffix Substitution

namespace Dictionary

variable {d : Dictionary} {rtext : AcPattern → Option Bytes} {h : Bytes} {cut : Nat}

/-- The undecided text fits into the backlog after every chunk. -/
def Fits (d : Dictionary) : Bytes → Nat → List Bytes → Prop
  | _, _, [] => True
  | h, cut, instr :: rest =>
      (h ++ instr).length - d.nextCut h cut instr ≤ acPatternMaxLength ∧
        d.Fits (h ++ instr) (d.nextCut h cut instr) rest

instance decidableFits (d : Dictionary) :
    (h : Bytes) → (cut : Nat) → (chunks : List Bytes) → Decidable (d.Fits h cut chunks)
  | _, _, [] => .isTrue trivial
  | h, cut, instr :: rest =>
      have := d.decidableFits (h ++ instr) (d.nextCut h cut instr) rest
      inferInstanceAs (Decidable (_ ∧ _))

/-- How a session fails, if it does. Marks are chosen with every chunk, by the rule of its mode. -/
def sessionFault (d : Dictionary) (rtext : AcPattern → Option Bytes) :
    Bytes → List (Mark UInt8) → Nat → List (Bytes × MfReplaceMode) → Option Fault
  | _, _, _, [] => none
  | h, marks, cut, (instr, mode) :: rest =>
      let marks' := (d.marks rtext h instr).foldl mode.book marks
      (d.chunkFault h marks' cut instr).or
        (d.sessionFault rtext (h ++ instr) marks' (d.nextCut h cut instr) rest)

/-- A session that does not fail. -/
def Safe (d : Dictionary) (rtext : AcPattern → Option Bytes)
    (calls : List (Bytes × MfReplaceMode)) : Prop := d.sessionFault rtext [] [] 0 calls = none

instance (d : Dictionary) (rtext : AcPattern → Option Bytes)
    (calls : List (Bytes × MfReplaceMode)) : Decidable (d.Safe rtext calls) :=
  inferInstanceAs (Decidable (_ = _))

/-- The marks that are chosen when every chunk comes with a mode. -/
def chosen (d : Dictionary) (rtext : AcPattern → Option Bytes) :
    Bytes → List (Mark UInt8) → List (Bytes × MfReplaceMode) → List (Mark UInt8)
  | _, marks, [] => marks
  | h, marks, (instr, mode) :: rest =>
      d.chosen rtext (h ++ instr) ((d.marks rtext h instr).foldl mode.book marks) rest

theorem marks_append (d : Dictionary) (rtext : AcPattern → Option Bytes) (h t u : Bytes) :
    d.marks rtext h (t ++ u) = d.marks rtext h t ++ d.marks rtext (h ++ t) u := by
  rw [marks, marks, marks, ← List.map_append]
  congr 1
  rw [nominees, List.length_append, List.range_add, List.filterMap_append, List.filterMap_map]
  congr 1
  · apply List.filterMap_congr
    intro i inside
    have := List.mem_range.mp inside
    rw [List.take_append_of_le_length (by omega)]
  · apply List.filterMap_congr
    intro i _
    have split : h ++ (t ++ u).take (t.length + i + 1) = h ++ t ++ u.take (i + 1) := by
      rw [Nat.add_assoc, List.take_length_add_append, List.append_assoc]
    have position : h.length + (t.length + i) + 1 = (h ++ t).length + i + 1 := by
      rw [List.length_append]
      omega
    simp only [Function.comp_def, split, position]

theorem marks_spec {d : Dictionary} {rtext : AcPattern → Option Bytes} {t : Bytes}
    {m : Mark UInt8} (mem : m ∈ d.marks rtext [] t) :
    m.start < m.stop ∧ m.stop ≤ t.length ∧
      ∃ q ∈ d.entries, rtext q = some m.text ∧ q.ptext = (t.take m.stop).drop m.start := by
  obtain ⟨nom, listed, rfl⟩ := List.mem_map.mp mem
  obtain ⟨entry, replaced, covers, proper, _, inside, suffix⟩ := nominee_spec listed
  rw [List.nil_append] at inside suffix
  refine ⟨proper, inside, nom.pattern, entry, ?_, ?_⟩
  · obtain ⟨r, found⟩ := Option.isSome_iff_exists.mp replaced
    rw [MfReplacementNominee.mark, found]
    rfl
  · obtain ⟨front, parts⟩ := suffix
    have lengths := congrArg List.length parts
    rw [List.length_append, List.length_take] at lengths
    have start : nom.start = front.length := by omega
    change nom.pattern.ptext = (t.take nom.position).drop nom.start
    rw [← parts, start, List.drop_left]

/-- With one mode for all chunks, the chunks make no difference to the choice. -/
theorem chosen_eq (d : Dictionary) (rtext : AcPattern → Option Bytes) (mode : MfReplaceMode)
    (chunks : List Bytes) (h : Bytes) (marks : List (Mark UInt8)) :
    d.chosen rtext h marks (chunks.map (·, mode)) =
      (d.marks rtext h chunks.flatten).foldl mode.book marks := by
  induction chunks generalizing h marks with
  | nil => rfl
  | cons instr chunks ih =>
      rw [List.flatten_cons, marks_append, List.foldl_append]
      exact ih (h ++ instr) _

theorem sessionFault_of_marks_eq_nil {calls : List (Bytes × MfReplaceMode)}
    (nothing : d.marks rtext h (calls.map Prod.fst).flatten = [])
    (fits : d.Fits h cut (calls.map Prod.fst)) : d.sessionFault rtext h [] cut calls = none := by
  induction calls generalizing h cut with
  | nil => rfl
  | cons call calls ih =>
      obtain ⟨instr, mode⟩ := call
      rw [List.map_cons, List.flatten_cons, marks_append, List.append_eq_nil_iff] at nothing
      obtain ⟨here, fits⟩ := fits
      rw [sessionFault, nothing.1, chunkFault]
      dsimp only [List.foldl_nil]
      rw [show begunIn _ _ ([] : List (Mark UInt8)) = 0 from rfl, crowding_zero, Option.none_or,
        if_pos here, Option.none_or]
      exact ih nothing.2 fits

end Dictionary

namespace ReplaceTrie

variable {κ : Type} {thiz : ReplaceTrie κ} {path : Nat → Bytes} {d : Dictionary}
variable {before h : Bytes} {marks : List (Mark UInt8)} {cut : Nat}

def replaceEach (thiz : ReplaceTrie κ) (callback : κ) :
    List (Bytes × MfReplaceMode) → Except Fault (ReplaceTrie κ)
  | [] => .ok thiz
  | (instr, mode) :: rest => do
      let (_, thiz) ← thiz.multifastReplace instr mode callback
      thiz.replaceEach callback rest

/-- Hand over chunks and end the session. -/
def replaceAll (thiz : ReplaceTrie κ) (callback : κ) (calls : List (Bytes × MfReplaceMode)) :
    Except Fault (ReplaceTrie κ) := do
  let thiz ← thiz.replaceEach callback calls
  thiz.multifastRepFlush false

/-- The run lemma of a session. -/
theorem Session.replaceEach_spec (session : thiz.Session path d before h marks cut)
    (callback : κ) (calls : List (Bytes × MfReplaceMode)) :
    match d.sessionFault thiz.rtext h marks cut calls with
    | some fault => thiz.replaceEach callback calls = .error fault
    | none =>
      ∃ thiz' cut', thiz.replaceEach callback calls = .ok thiz' ∧
        thiz'.Session path d before (h ++ (calls.map Prod.fst).flatten)
          (d.chosen thiz.rtext h marks calls) cut' ∧
        thiz'.rtexts = thiz.rtexts ∧ (calls ≠ [] → thiz'.repdata.cbf = some callback) ∧
        thiz.repdata.Delivers callback thiz'.repdata := by
  induction calls generalizing thiz h marks cut with
  | nil =>
      refine ⟨thiz, cut, rfl, ?_, rfl, fun none => absurd rfl none, .refl _ _⟩
      rw [List.map_nil, List.flatten_nil, List.append_nil]
      exact session
  | cons call calls ih =>
      obtain ⟨instr, mode⟩ := call
      have step := session.multifastReplace_spec instr mode callback
      rw [Dictionary.sessionFault]
      dsimp only at step ⊢
      cases here : d.chunkFault h ((d.marks thiz.rtext h instr).foldl mode.book marks) cut
          instr with
      | some fault =>
          rw [here] at step
          exact bind_of_error step _
      | none =>
          rw [here] at step
          obtain ⟨thiz₁, ran₁, session₁, rtexts₁, callable₁, delivers₁⟩ := step
          have rest := ih session₁
          rw [rtext_congr rtexts₁] at rest
          rw [Option.none_or]
          cases later : d.sessionFault thiz.rtext (h ++ instr)
              ((d.marks thiz.rtext h instr).foldl mode.book marks) (d.nextCut h cut instr)
              calls with
          | some fault =>
              rw [later] at rest
              exact (bind_of_ok ran₁ _).trans rest
          | none =>
              rw [later] at rest
              obtain ⟨thiz', cut', ran, session', rtexts, callable, delivers⟩ := rest
              refine ⟨thiz', cut', (bind_of_ok ran₁ _).trans ran, ?_, rtexts.trans rtexts₁, ?_,
                delivers₁.trans delivers⟩
              · rw [List.append_assoc] at session'
                exact session'
              · intro _
                by_cases none : calls = []
                · rw [none] at ran
                  exact Except.ok.inj ran ▸ callable₁
                · exact callable none

theorem Session.replaceAll_spec
    (session : thiz.Session path d (thiz.repdata.delivered.flatMap Prod.snd) [] [] 0)
    (callback : κ) {calls : List (Bytes × MfReplaceMode)} (some : calls ≠ []) :
    match d.sessionFault thiz.rtext [] [] 0 calls with
    | .some fault => thiz.replaceAll callback calls = .error fault
    | none =>
      ∃ thiz' blocks last, thiz.replaceAll callback calls = .ok thiz' ∧
        thiz'.Session path d (thiz'.repdata.delivered.flatMap Prod.snd) [] [] 0 ∧
        thiz'.rtexts = thiz.rtexts ∧
        thiz'.repdata.delivered =
          thiz.repdata.delivered ++ (blocks ++ [last]).map (Prod.mk callback) ∧
        (blocks ++ [last]).flatten =
          substitute (calls.map Prod.fst).flatten (d.chosen thiz.rtext [] [] calls) ∧
        (∀ block ∈ blocks, block.length = mfReplacementBufferSize) ∧
        last.length < mfReplacementBufferSize := by
  have run := session.replaceEach_spec callback calls
  cases fails : d.sessionFault thiz.rtext [] [] 0 calls with
  | some fault =>
      rw [fails] at run
      exact bind_of_error run _
  | none =>
      rw [fails] at run
      obtain ⟨thiz₁, cut, ran₁, session₁, rtexts₁, callable, delivers₁⟩ := run
      obtain ⟨thiz', last, ran, session', rtexts, _, empty, short, rd, delivers, delivered⟩ :=
        session₁.multifastRepFlush_spec (callable some)
      obtain ⟨blocks, received, full⟩ := delivers₁.trans delivers
      have output := session'.output_eq
      rw [MfReplacementData.output, empty, List.append_nil] at output
      have all : thiz'.repdata.delivered =
          thiz.repdata.delivered ++ (blocks ++ [last]).map (Prod.mk callback) := by
        rw [delivered, received, List.append_assoc, List.map_append, List.map_singleton]
      have received' : ((blocks ++ [last]).map (Prod.mk callback)).flatMap Prod.snd =
          (blocks ++ [last]).flatten := by
        rw [List.flatMap_map, List.flatMap_id']
      refine ⟨thiz', blocks, last, (bind_of_ok ran₁ _).trans ran, output ▸ session',
        rtexts.trans rtexts₁, all, ?_, full, short⟩
      rw [all, List.flatMap_append, received'] at output
      exact List.append_cancel_left output

end ReplaceTrie

namespace Dictionary

variable {d : Dictionary} {h : Bytes} {cut n : Nat}

theorem pending_length_le (bound : ∀ q ∈ d.entries, q.ptext.length ≤ n) (h : Bytes) :
    (d.pending h).length ≤ n := by
  obtain ⟨_, none | ⟨q, hq, begun⟩, _⟩ := d.pending_spec h
  · rw [none]
    exact Nat.zero_le n
  · exact begun.length_le.trans (bound q hq)

theorem nextCut_of_long {instr : Bytes} (long : ∀ q ∈ d.entries, q.ptext.length ≤ instr.length)
    (h : Bytes) (cut : Nat) :
    d.nextCut h cut instr = (h ++ instr).length - (d.pending (h ++ instr)).length :=
  if_pos (pending_length_le long _)

theorem fits_cons_of_long {instr : Bytes} {chunks : List Bytes}
    (long : ∀ q ∈ d.entries, q.ptext.length ≤ instr.length)
    (rest : d.Fits (h ++ instr) ((h ++ instr).length - (d.pending (h ++ instr)).length) chunks) :
    d.Fits h cut (instr :: chunks) := by
  have cut' := nextCut_of_long long h cut
  have undecided := pending_length_le d.short (h ++ instr)
  refine ⟨?_, cut' ▸ rest⟩
  rw [cut']
  omega

/-- Chunks that are at least as long as all patterns never overflow the backlog. The last chunk
may be shorter if no pattern is longer than half of the backlog. -/
theorem fits_of_long (chunks : List Bytes)
    (long : ∀ instr ∈ chunks.dropLast, ∀ q ∈ d.entries, q.ptext.length ≤ instr.length)
    (last : (∀ q ∈ d.entries, 2 * q.ptext.length ≤ acPatternMaxLength) ∨
      ∀ instr ∈ chunks, ∀ q ∈ d.entries, q.ptext.length ≤ instr.length) (h : Bytes) :
    d.Fits h (h.length - (d.pending h).length) chunks := by
  induction chunks generalizing h with
  | nil => trivial
  | cons instr chunks ih =>
      by_cases more : chunks = []
      · rw [more] at last ⊢
        cases last with
        | inl short =>
            refine ⟨?_, trivial⟩
            have half : ∀ q ∈ d.entries, q.ptext.length ≤ acPatternMaxLength / 2 := by
              intro q hq
              have := short q hq
              omega
            have before := pending_length_le half h
            have after := pending_length_le half (h ++ instr)
            have whole : acPatternMaxLength = 1024 := rfl
            rw [nextCut, List.length_append]
            split <;> omega
        | inr all =>
            exact fits_cons_of_long (all instr List.mem_cons_self) trivial
      · rw [List.dropLast_cons_of_ne_nil more] at long
        apply fits_cons_of_long (long instr List.mem_cons_self)
        apply ih fun instr' mem => long instr' (List.mem_cons_of_mem _ mem)
        exact last.imp_right fun all instr' mem => all instr' (List.mem_cons_of_mem _ mem)

theorem nextCut_repeated {q : AcPattern} (hq : q ∈ d.entries) {w : Bytes}
    (twice : w ++ w <+: q.ptext) (some : w ≠ []) (k : Nat) :
    d.nextCut (List.replicate k w).flatten 0 w = 0 := by
  have proper := List.length_pos_iff.mpr some
  have again : (List.replicate k w).flatten ++ w = (List.replicate (k + 1) w).flatten := by
    rw [List.replicate_succ', List.flatten_concat]
  obtain ⟨_, _, longest⟩ := d.pending_spec (List.replicate (k + 1) w).flatten
  rw [nextCut, again]
  cases k with
  | zero =>
      have once : (List.replicate (0 + 1) w).flatten = w := by simp
      rw [once] at longest ⊢
      have begun : w <+: q.ptext := (List.prefix_append w w).trans twice
      have bound := longest w List.suffix_rfl (Or.inr ⟨q, hq, begun⟩)
      split
      · omega
      · rfl
  | succ k =>
      have suffix : w ++ w <:+ (List.replicate (k + 1 + 1) w).flatten := by
        refine ⟨(List.replicate k w).flatten, ?_⟩
        rw [List.replicate_succ', List.flatten_concat, List.replicate_succ', List.flatten_concat,
          List.append_assoc]
      have bound := longest _ suffix (Or.inr ⟨q, hq, twice⟩)
      rw [List.length_append] at bound
      exact if_neg (by omega)

theorem sessionFault_repeated_cons {q : AcPattern} (hq : q ∈ d.entries) {w : Bytes}
    (twice : w ++ w <+: q.ptext) (some : w ≠ []) (rtext : AcPattern → Option Bytes)
    (mode : MfReplaceMode) (marks : List (Mark UInt8)) (k : Nat)
    (calls : List (Bytes × MfReplaceMode)) :
    ∃ marks', d.sessionFault rtext (List.replicate k w).flatten marks 0 ((w, mode) :: calls) =
      (if (k + 1) * w.length ≤ acPatternMaxLength then none else .some .outOfBounds).or
        (d.sessionFault rtext (List.replicate (k + 1) w).flatten marks' 0 calls) := by
  have cut := nextCut_repeated hq twice some k
  have again : (List.replicate k w).flatten ++ w = (List.replicate (k + 1) w).flatten := by
    rw [List.replicate_succ', List.flatten_concat]
  have length : (List.replicate (k + 1) w).flatten.length = (k + 1) * w.length := by
    rw [List.length_flatten, List.map_replicate, List.sum_replicate_nat]
  refine ⟨(d.marks rtext (List.replicate k w).flatten w).foldl mode.book marks, ?_⟩
  rw [sessionFault, chunkFault, cut, begunIn_self, crowding_zero, Option.none_or, again, length,
    Nat.sub_zero]

/-- A text that repeats such a word, handed over word by word, is undecided from its beginning
on. -/
theorem sessionFault_replicate {q : AcPattern} (hq : q ∈ d.entries) {w : Bytes}
    (twice : w ++ w <+: q.ptext) (some : w ≠ []) (rtext : AcPattern → Option Bytes)
    (mode : MfReplaceMode) (marks : List (Mark UInt8)) (k n : Nat) :
    d.sessionFault rtext (List.replicate k w).flatten marks 0 (List.replicate (n + 1) (w, mode)) =
      if (k + (n + 1)) * w.length ≤ acPatternMaxLength then none else .some .outOfBounds := by
  induction n generalizing k marks with
  | zero =>
      obtain ⟨marks', step⟩ := sessionFault_repeated_cons hq twice some rtext mode marks k []
      exact step.trans Option.or_none
  | succ n ih =>
      obtain ⟨marks', step⟩ := sessionFault_repeated_cons hq twice some rtext mode marks k
        (List.replicate (n + 1) (w, mode))
      rw [List.replicate_succ, step, ih, show k + 1 + (n + 1) = k + (n + 1 + 1) by omega]
      have grows : (k + 1) * w.length ≤ (k + (n + 1 + 1)) * w.length :=
        Nat.mul_le_mul_right _ (by omega)
      by_cases whole : (k + (n + 1 + 1)) * w.length ≤ acPatternMaxLength
      · rw [if_pos (grows.trans whole)]
        exact Option.none_or
      · rw [if_neg whole]
        split <;> rfl

end Dictionary

end Multifast
