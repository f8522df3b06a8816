import Paraglob.Multifast.Nesting

/-!
# Replacing a whole text

What the client receives is the text with the chosen marks replaced, whatever the
chunks are, as long as no chunk makes the replacement fail. The file says what the
marks of the modes are, when a session fails, and that it leaves nothing behind for
the next one.
-/

namespace Multifast

open LongestSuffix Substitution

theorem blocks_unique {α : Type*} {n : Nat} {blocks blocks' : List (List α)} {last last' : List α}
    (full : ∀ block ∈ blocks, block.length = n) (full' : ∀ block ∈ blocks', block.length = n)
    (short : last.length < n) (short' : last'.length < n)
    (same : (blocks ++ [last]).flatten = (blocks' ++ [last']).flatten) :
    blocks ++ [last] = blocks' ++ [last'] := by
  induction blocks generalizing blocks' with
  | nil =>
      cases blocks' with
      | nil => simpa using same
      | cons block' blocks' =>
          have length := congrArg List.length same
          have := full' block' List.mem_cons_self
          simp at length
          omega
  | cons block blocks ih =>
      have whole := full block List.mem_cons_self
      cases blocks' with
      | nil =>
          have length := congrArg List.length same
          simp at length
          omega
      | cons block' blocks' =>
          have whole' := full' block' List.mem_cons_self
          obtain ⟨rfl, rest⟩ := List.append_inj same (whole.trans whole'.symm)
          exact congrArg (block :: ·) (ih (fun b hb => full b (List.mem_cons_of_mem _ hb))
            (fun b hb => full' b (List.mem_cons_of_mem _ hb)) rest)

/-- The calls of the callback hand over the text in full buffers and a rest. -/
def Receives {κ : Type} (callback : κ) (calls : List (κ × Bytes)) (text : Bytes) : Prop :=
  ∃ blocks last, calls = (blocks ++ [last]).map (Prod.mk callback) ∧
    (blocks ++ [last]).flatten = text ∧
    (∀ block ∈ blocks, block.length = mfReplacementBufferSize) ∧
    last.length < mfReplacementBufferSize

/-- The text decides what the calls are. -/
theorem Receives.unique {κ : Type} {callback : κ} {calls calls' : List (κ × Bytes)} {text : Bytes}
    (first : Receives callback calls text) (second : Receives callback calls' text) :
    calls = calls' := by
  obtain ⟨blocks, last, rfl, flat, full, short⟩ := first
  obtain ⟨blocks', last', rfl, flat', full', short'⟩ := second
  rw [blocks_unique full full' short short' (flat.trans flat'.symm)]

namespace ReplaceTrie

variable {κ : Type} {thiz : ReplaceTrie κ} {patts : List (AcPattern × Option Bytes)}
variable {mode : MfReplaceMode} {chunks : List Bytes}

theorem replaceAll_run (built : (create.addEach patts).finalize = .ok thiz)
    (replacing : thiz.repdata.hasReplacement ≠ 0) (callback : κ)
    {calls : List (Bytes × MfReplaceMode)} (nonempty : calls ≠ []) :
    match (dictionary patts).sessionFault thiz.rtext [] [] 0 calls with
    | some fault => thiz.replaceAll callback calls = .error fault
    | none =>
      ∃ thiz', thiz.replaceAll callback calls = .ok thiz' ∧
        Receives callback thiz'.repdata.delivered (substitute (calls.map Prod.fst).flatten
          ((dictionary patts).chosen thiz.rtext [] [] calls)) := by
  obtain ⟨path, session, nothing, _⟩ := session_of_finalize built replacing
  have begun : thiz.Session path (dictionary patts) (thiz.repdata.delivered.flatMap Prod.snd)
      [] [] 0 := by rwa [nothing]
  have run := begun.replaceAll_spec callback nonempty
  cases fails : (dictionary patts).sessionFault thiz.rtext [] [] 0 calls with
  | some fault =>
      rw [fails] at run
      exact run
  | none =>
      rw [fails] at run
      obtain ⟨thiz', blocks, last, ran, _, _, delivered, flat, full, short⟩ := run
      rw [nothing, List.nil_append] at delivered
      exact ⟨thiz', ran, blocks, last, delivered, flat, full, short⟩

theorem replaceAll_mode (built : (create.addEach patts).finalize = .ok thiz)
    (replacing : thiz.repdata.hasReplacement ≠ 0) (callback : κ) (nonempty : chunks ≠ [])
    (safe : (dictionary patts).Safe thiz.rtext (chunks.map (·, mode))) :
    ∃ thiz', thiz.replaceAll callback (chunks.map (·, mode)) = .ok thiz' ∧
      Receives callback thiz'.repdata.delivered (substitute chunks.flatten
        (((dictionary patts).marks thiz.rtext [] chunks.flatten).foldl mode.book [])) := by
  have calls : chunks.map (·, mode) ≠ [] := by simpa using nonempty
  have run := replaceAll_run built replacing callback calls
  have only : (chunks.map (·, mode)).map Prod.fst = chunks := by simp [Function.comp_def]
  rw [safe, only, Dictionary.chosen_eq] at run
  exact run

theorem rtext_of_finalize (built : (create.addEach patts).finalize = .ok thiz) :
    thiz.rtext = fun q => (replacements ((create : ReplaceTrie κ).added patts)).lookup q := by
  obtain ⟨thiz', _, ran, _, rtexts, _⟩ := finalize_addEach (κ := κ) patts
  obtain rfl := Except.ok.inj (ran.symm.trans built)
  funext q
  exact congrArg (List.lookup q) rtexts

/-- One accepted replacement is enough, unless the number of nodes overflows. -/
theorem replacing_of_added (built : (create.addEach patts).finalize = .ok thiz)
    (few : (dictionary patts).beginnings.length < 2 ^ 32) {q : AcPattern} {r : Bytes}
    (mem : (q, some r) ∈ (create : ReplaceTrie κ).added patts) :
    thiz.repdata.hasReplacement ≠ 0 := by
  obtain ⟨thiz', _, ran, _, rtexts, _, _, repdata⟩ := finalize_addEach (κ := κ) patts
  obtain rfl := Except.ok.inj (ran.symm.trans built)
  rw [repdata]
  change UInt32.ofNat _ ≠ 0
  intro zero
  have count := congrArg UInt32.toNat zero
  rw [UInt32.toNat_ofNat_of_lt' (Nat.lt_of_le_of_lt List.countP_le_length few)] at count
  have entry : q ∈ (dictionary patts).entries := by
    rw [entries_dictionary]
    exact List.mem_map.mpr ⟨_, mem, rfl⟩
  have begins : q.ptext ∈ (dictionary patts).beginnings :=
    Dictionary.mem_beginnings.mpr (Or.inr ⟨q, entry, List.prefix_rfl⟩)
  have replaced : thiz'.rtext q = some r := by
    rw [rtext, rtexts]
    exact (lookup_added patts q r).mpr mem
  refine List.countP_eq_zero.mp count _ begins ?_
  rw [Dictionary.replaceable, List.find?_isSome]
  exact ⟨q, (dictionary patts).mem_ending.mpr ⟨entry, List.suffix_rfl⟩, by rw [replaced]; rfl⟩

/-- Two patterns that may overlap: `ab` becomes `x`, and `bc` becomes `y`. -/
def overlapping : List (AcPattern × Option Bytes) :=
  [(⟨[97, 98], 0⟩, some [120]), (⟨[98, 99], 1⟩, some [121])]

theorem replacing_overlapping : ∃ thiz : ReplaceTrie Unit,
    (create.addEach overlapping).finalize = .ok thiz ∧ thiz.repdata.hasReplacement ≠ 0 := by
  obtain ⟨thiz, _, built, _⟩ := finalize_addEach (κ := Unit) overlapping
  have mem : (⟨[97, 98], 0⟩, some [120]) ∈ (create : ReplaceTrie Unit).added overlapping := by
    decide
  exact ⟨thiz, built, replacing_of_added built (by decide) mem⟩

/-- Unless the mode is lazy, all marks are replaced that no mark with a later end contains. -/
theorem replaceAll_outermost (built : (create.addEach patts).finalize = .ok thiz)
    (replacing : thiz.repdata.hasReplacement ≠ 0) (callback : κ) (outer : mode ≠ .lazy)
    (nonempty : chunks ≠ [])
    (safe : (dictionary patts).Safe thiz.rtext (chunks.map (·, mode))) :
    ∃ thiz', thiz.replaceAll callback (chunks.map (·, mode)) = .ok thiz' ∧
      Receives callback thiz'.repdata.delivered (substitute chunks.flatten
        (outermost ((dictionary patts).marks thiz.rtext [] chunks.flatten))) := by
  obtain ⟨thiz', ran, receives⟩ := replaceAll_mode built replacing callback nonempty safe
  rw [MfReplaceMode.book_of_ne_lazy outer,
    ((dictionary patts).found_marks thiz.rtext [] chunks.flatten).foldl_bookOuter] at receives
  exact ⟨thiz', ran, receives⟩

/-- Both patterns of `abc` are replaced, although they overlap. -/
theorem replaceAll_outermost_abc : ∃ thiz thiz' : ReplaceTrie Unit,
    (create.addEach overlapping).finalize = .ok thiz ∧
      thiz.replaceAll () [([97, 98], .normal), ([99], .normal)] = .ok thiz' ∧
      Receives () thiz'.repdata.delivered [120, 121] := by
  obtain ⟨thiz, built, replacing⟩ := replacing_overlapping
  have safe : (dictionary overlapping).Safe thiz.rtext
      ([[97, 98], [99]].map (·, MfReplaceMode.normal)) := by
    rw [rtext_of_finalize built]
    decide
  have outer : MfReplaceMode.normal ≠ .lazy := by decide
  obtain ⟨thiz', ran, receives⟩ := replaceAll_outermost built replacing () outer (by decide) safe
  rw [rtext_of_finalize built] at receives
  exact ⟨thiz, thiz', built, ran, receives⟩

/-- In the lazy mode the marks are replaced that do not begin before the end of an earlier choice.
So what is replaced does not overlap, and what is not replaced overlaps a replacement that ends
earlier. -/
theorem replaceAll_firsts (built : (create.addEach patts).finalize = .ok thiz)
    (replacing : thiz.repdata.hasReplacement ≠ 0) (callback : κ) (nonempty : chunks ≠ [])
    (safe : (dictionary patts).Safe thiz.rtext (chunks.map (·, .lazy))) :
    let found := (dictionary patts).marks thiz.rtext [] chunks.flatten
    ∃ thiz', thiz.replaceAll callback (chunks.map (·, .lazy)) = .ok thiz' ∧
      Receives callback thiz'.repdata.delivered (substitute chunks.flatten (firsts 0 found)) ∧
      ((firsts 0 found).Pairwise fun m n => m.stop ≤ n.start) ∧
      ∀ m ∈ found, m ∉ firsts 0 found →
        ∃ p ∈ firsts 0 found, p.stop < m.stop ∧ m.start < p.stop := by
  intro found
  obtain ⟨thiz', ran, receives⟩ := replaceAll_mode built replacing callback nonempty safe
  have proper : ∀ m ∈ found, m.start ≤ m.stop := fun m mem =>
    Nat.le_of_lt (Dictionary.marks_spec mem).1
  have chosen : found.foldl bookFirst [] = firsts 0 found := foldl_bookFirst [] found
  refine ⟨thiz', ran, chosen ▸ receives, disjoint_firsts proper, ?_⟩
  intro m mem skipped
  have ordered := (dictionary patts).found_marks thiz.rtext [] chunks.flatten
  exact (ordered.exists_firsts_of_not_mem mem skipped).resolve_left (Nat.not_lt_zero _)

/-- Only the first pattern of `abc` is replaced. -/
theorem replaceAll_firsts_abc : ∃ thiz thiz' : ReplaceTrie Unit,
    (create.addEach overlapping).finalize = .ok thiz ∧
      thiz.replaceAll () [([97, 98], .lazy), ([99], .lazy)] = .ok thiz' ∧
      Receives () thiz'.repdata.delivered [120, 99] := by
  obtain ⟨thiz, built, replacing⟩ := replacing_overlapping
  have safe : (dictionary overlapping).Safe thiz.rtext
      ([[97, 98], [99]].map (·, MfReplaceMode.lazy)) := by
    rw [rtext_of_finalize built]
    decide
  obtain ⟨thiz', ran, receives, _⟩ := replaceAll_firsts built replacing () (by decide) safe
  rw [rtext_of_finalize built] at receives
  exact ⟨thiz, thiz', built, ran, receives⟩

/-- If the candidates in the beginnings of patterns are nested, a session only fails when the
undecided text does not fit into the backlog. If they are not and some letter is in no
pattern, there is a text for which the nominees are moved onto each other. -/
theorem replaceAll_overlap (built : (create.addEach patts).finalize = .ok thiz)
    (replacing : thiz.repdata.hasReplacement ≠ 0) (callback : κ) :
    ((dictionary patts).Nests thiz.rtext → ∀ calls, calls ≠ [] →
        (dictionary patts).Fits [] 0 (calls.map Prod.fst) →
        (∀ call ∈ calls, acPatternMaxLength + call.1.length < 2 ^ 32) →
        ∃ thiz', thiz.replaceAll callback calls = .ok thiz') ∧
      (¬ (dictionary patts).Nests thiz.rtext →
        ∀ c, (∀ q ∈ (dictionary patts).entries, c ∉ q.ptext) →
        ∃ text, thiz.replaceAll callback [(text, .normal)] = .error .overlap) := by
  constructor
  · intro nests calls nonempty fits short
    have safe := nests.safe fits short
    have run := replaceAll_run built replacing callback nonempty
    rw [safe] at run
    obtain ⟨thiz', ran, _⟩ := run
    exact ⟨thiz', ran⟩
  · intro beside c absent
    obtain ⟨text, overlaps⟩ := Dictionary.exists_overlap absent beside
    have run := replaceAll_run built replacing callback (List.cons_ne_nil (text, .normal) [])
    rw [overlaps] at run
    exact ⟨text, run⟩

/-- In the beginning `abcd` of `abcde` there are the candidates `b` and `d`. -/
theorem replaceAll_overlap_abcde : ∃ thiz : ReplaceTrie Unit,
    (create.addEach [(⟨[98], 0⟩, some [120]), (⟨[100], 1⟩, some [121]),
      (⟨[97, 98, 99, 100, 101], 2⟩, none)]).finalize = .ok thiz ∧
      ∃ text, thiz.replaceAll () [(text, .normal)] = .error .overlap := by
  let patts : List (AcPattern × Option Bytes) :=
    [(⟨[98], 0⟩, some [120]), (⟨[100], 1⟩, some [121]), (⟨[97, 98, 99, 100, 101], 2⟩, none)]
  obtain ⟨thiz, _, built, _⟩ := finalize_addEach (κ := Unit) patts
  have mem : (⟨[98], 0⟩, some [120]) ∈ (create : ReplaceTrie Unit).added patts := by decide
  have replacing := replacing_of_added built (by decide) mem
  have beside : ¬ (dictionary patts).Nests thiz.rtext := by
    rw [rtext_of_finalize built]
    decide
  have absent : ∀ q ∈ (dictionary patts).entries, (122 : UInt8) ∉ q.ptext := by decide
  exact ⟨thiz, built, (replaceAll_overlap built replacing ()).2 beside 122 absent⟩

/-- What the client receives does not depend on the chunks. -/
theorem replaceAll_chunks (built : (create.addEach patts).finalize = .ok thiz)
    (replacing : thiz.repdata.hasReplacement ≠ 0) (callback : κ) (mode : MfReplaceMode)
    {chunks' : List Bytes} (nonempty : chunks ≠ []) (nonempty' : chunks' ≠ [])
    (safe : (dictionary patts).Safe thiz.rtext (chunks.map (·, mode)))
    (safe' : (dictionary patts).Safe thiz.rtext (chunks'.map (·, mode)))
    (same : chunks.flatten = chunks'.flatten) :
    ∃ thiz₁ thiz₂, thiz.replaceAll callback (chunks.map (·, mode)) = .ok thiz₁ ∧
      thiz.replaceAll callback (chunks'.map (·, mode)) = .ok thiz₂ ∧
      thiz₁.repdata.delivered = thiz₂.repdata.delivered := by
  obtain ⟨thiz₁, ran₁, receives₁⟩ := replaceAll_mode built replacing callback nonempty safe
  obtain ⟨thiz₂, ran₂, receives₂⟩ := replaceAll_mode built replacing callback nonempty' safe'
  rw [← same] at receives₂
  exact ⟨thiz₁, thiz₂, ran₁, ran₂, receives₁.unique receives₂⟩

/-- The text `abc` in two pieces and letter by letter. -/
theorem replaceAll_chunks_abc : ∃ thiz thiz₁ thiz₂ : ReplaceTrie Unit,
    (create.addEach overlapping).finalize = .ok thiz ∧
      thiz.replaceAll () [([97, 98], .lazy), ([99], .lazy)] = .ok thiz₁ ∧
      thiz.replaceAll () [([97], .lazy), ([98], .lazy), ([99], .lazy)] = .ok thiz₂ ∧
      thiz₁.repdata.delivered = thiz₂.repdata.delivered := by
  obtain ⟨thiz, built, replacing⟩ := replacing_overlapping
  have safe : (dictionary overlapping).Safe thiz.rtext
        ([[97, 98], [99]].map (·, MfReplaceMode.lazy)) ∧
      (dictionary overlapping).Safe thiz.rtext
        ([[97], [98], [99]].map (·, MfReplaceMode.lazy)) := by
    rw [rtext_of_finalize built]
    decide
  obtain ⟨thiz₁, thiz₂, same⟩ :=
    replaceAll_chunks built replacing () .lazy (by decide) (by decide) safe.1 safe.2 rfl
  exact ⟨thiz, thiz₁, thiz₂, built, same⟩

/-- Chunks that are at least as long as all patterns are never too much for the backlog, and with
nested candidates the client receives what it receives for the text in one piece. The last
chunk may be shorter if no pattern is longer than half of the backlog. -/
theorem replaceAll_long (built : (create.addEach patts).finalize = .ok thiz)
    (replacing : thiz.repdata.hasReplacement ≠ 0) (callback : κ) (mode : MfReplaceMode)
    (nonempty : chunks ≠ []) (nests : (dictionary patts).Nests thiz.rtext)
    (short : acPatternMaxLength + chunks.flatten.length < 2 ^ 32)
    (long : ∀ instr ∈ chunks.dropLast, ∀ q ∈ (dictionary patts).entries,
      q.ptext.length ≤ instr.length)
    (last : (∀ q ∈ (dictionary patts).entries, 2 * q.ptext.length ≤ acPatternMaxLength) ∨
      ∀ instr ∈ chunks, ∀ q ∈ (dictionary patts).entries, q.ptext.length ≤ instr.length) :
    ∃ thiz₁ thiz₂, thiz.replaceAll callback (chunks.map (·, mode)) = .ok thiz₁ ∧
      thiz.replaceAll callback [(chunks.flatten, mode)] = .ok thiz₂ ∧
      thiz₁.repdata.delivered = thiz₂.repdata.delivered := by
  have fits : (dictionary patts).Fits [] 0 ((chunks.map (·, mode)).map Prod.fst) := by
    rw [List.map_map]
    simpa [Function.comp_def] using Dictionary.fits_of_long chunks long last []
  have whole : (dictionary patts).Fits [] 0 [chunks.flatten] := by
    obtain ⟨suffix, _⟩ := (dictionary patts).pending_spec chunks.flatten
    have undecided := Dictionary.pending_length_le (dictionary patts).short chunks.flatten
    have cut : (dictionary patts).nextCut [] 0 chunks.flatten =
        chunks.flatten.length - ((dictionary patts).pending chunks.flatten).length :=
      if_pos suffix.length_le
    refine ⟨?_, trivial⟩
    rw [cut, List.nil_append]
    omega
  have safe : (dictionary patts).Safe thiz.rtext (chunks.map (·, mode)) := by
    apply nests.safe fits
    intro call mem
    obtain ⟨instr, inside, rfl⟩ := List.mem_map.mp mem
    have part := (List.sublist_flatten_of_mem inside).length_le
    dsimp only
    omega
  have safe' : (dictionary patts).Safe thiz.rtext ([chunks.flatten].map (·, mode)) := by
    refine nests.safe (show (dictionary patts).Fits [] 0
      ([(chunks.flatten, mode)].map Prod.fst) from whole) ?_
    intro call mem
    rw [List.mem_singleton.mp mem]
    exact short
  obtain ⟨thiz₁, ran₁, receives₁⟩ := replaceAll_mode built replacing callback nonempty safe
  obtain ⟨thiz₂, ran₂, receives₂⟩ := replaceAll_mode built replacing callback
    (List.cons_ne_nil chunks.flatten []) safe'
  rw [List.flatten_singleton] at receives₂
  exact ⟨thiz₁, thiz₂, ran₁, ran₂, receives₁.unique receives₂⟩

/-- The last chunk may be short here. -/
theorem replaceAll_long_abc : ∃ thiz thiz₁ thiz₂ : ReplaceTrie Unit,
    (create.addEach overlapping).finalize = .ok thiz ∧
      thiz.replaceAll () [([97, 98], .normal), ([99], .normal)] = .ok thiz₁ ∧
      thiz.replaceAll () [([97, 98, 99], .normal)] = .ok thiz₂ ∧
      thiz₁.repdata.delivered = thiz₂.repdata.delivered := by
  obtain ⟨thiz, built, replacing⟩ := replacing_overlapping
  have long : ∀ instr ∈ ([[97, 98], [99]] : List Bytes).dropLast,
      ∀ q ∈ (dictionary overlapping).entries,
      q.ptext.length ≤ instr.length := by decide
  have nests : (dictionary overlapping).Nests thiz.rtext := by
    rw [rtext_of_finalize built]
    decide
  obtain ⟨thiz₁, thiz₂, same⟩ := replaceAll_long built replacing () .normal (by decide) nests
    (by decide) long (Or.inl (by decide))
  exact ⟨thiz, thiz₁, thiz₂, built, same⟩

/-- When a pattern begins with a word twice, and the text repeats this word and is handed over word
by word, the backlog overflows as soon as the text is longer than it. -/
theorem replaceAll_repeated (built : (create.addEach patts).finalize = .ok thiz)
    (replacing : thiz.repdata.hasReplacement ≠ 0) (callback : κ) (mode : MfReplaceMode)
    {q : AcPattern} (entry : q ∈ (dictionary patts).entries) {w : Bytes} (nonempty : w ≠ [])
    (twice : w ++ w <+: q.ptext) (n : Nat) :
    if (n + 1) * w.length ≤ acPatternMaxLength then
      ∃ thiz', thiz.replaceAll callback (List.replicate (n + 1) (w, mode)) = .ok thiz'
    else thiz.replaceAll callback (List.replicate (n + 1) (w, mode)) = .error .outOfBounds := by
  have some := List.cons_ne_nil (w, mode) (.replicate n (w, mode))
  have run := replaceAll_run built replacing callback some
  have fault := Dictionary.sessionFault_replicate entry twice nonempty thiz.rtext mode [] 0 n
  rw [Nat.zero_add] at fault
  rw [← List.replicate_succ,
    show ([] : Bytes) = (List.replicate 0 w).flatten from rfl, fault] at run
  by_cases short : (n + 1) * w.length ≤ acPatternMaxLength
  · rw [if_pos short] at run ⊢
    obtain ⟨thiz', ran, _⟩ := run
    exact ⟨thiz', ran⟩
  · rw [if_neg short] at run ⊢
    exact run

/-- The text of 1025 letters `a`, handed over letter by letter, with the pattern `aa`. -/
theorem replaceAll_repeated_aa : ∃ thiz : ReplaceTrie Unit,
    (create.addEach [(⟨[97, 97], 0⟩, some [98])]).finalize = .ok thiz ∧
      thiz.replaceAll () (List.replicate 1025 ([97], .normal)) = .error .outOfBounds := by
  obtain ⟨thiz, _, built, _⟩ := finalize_addEach (κ := Unit) [(⟨[97, 97], 0⟩, some [98])]
  have mem : (⟨[97, 97], 0⟩, some [98]) ∈
      (create : ReplaceTrie Unit).added [(⟨[97, 97], 0⟩, some [98])] := by decide
  have replacing := replacing_of_added built (by decide) mem
  have entry : (⟨[97, 97], 0⟩ : AcPattern) ∈
      (dictionary [(⟨[97, 97], 0⟩, some [98])]).entries := by decide
  have overflows := replaceAll_repeated built replacing () .normal entry
    (List.cons_ne_nil 97 []) List.prefix_rfl 1024
  exact ⟨thiz, built, overflows⟩

/-- Texts come out as they are if no pattern with a replacement occurs in them, and in the lazy mode
also if every replacement is the pattern itself. -/
theorem replaceAll_harmless (built : (create.addEach patts).finalize = .ok thiz)
    (replacing : thiz.repdata.hasReplacement ≠ 0) (callback : κ) (nonempty : chunks ≠ [])
    (harmless : (∀ q r, (q, some r) ∈ (create : ReplaceTrie κ).added patts →
        ¬ q.ptext <:+: chunks.flatten) ∧ (dictionary patts).Fits [] 0 chunks ∨
      mode = .lazy ∧ (∀ q r, (q, some r) ∈ (create : ReplaceTrie κ).added patts →
        r = q.ptext) ∧ (dictionary patts).Safe thiz.rtext (chunks.map (·, .lazy))) :
    ∃ thiz', thiz.replaceAll callback (chunks.map (·, mode)) = .ok thiz' ∧
      Receives callback thiz'.repdata.delivered chunks.flatten := by
  obtain ⟨_, _, _, rtexts⟩ := session_of_finalize built replacing
  have known : ∀ q r, thiz.rtext q = some r →
      (q, some r) ∈ (create : ReplaceTrie κ).added patts := by
    intro q r found
    apply (lookup_added patts q r).mp
    rw [← rtexts]
    exact found
  let found := (dictionary patts).marks thiz.rtext [] chunks.flatten
  cases harmless with
  | inl absent =>
      obtain ⟨absent, fits⟩ := absent
      have none : found = [] := by
        rw [List.eq_nil_iff_forall_not_mem]
        intro m mem
        obtain ⟨_, _, q, _, replaced, occurs⟩ := Dictionary.marks_spec mem
        apply absent q m.text (known q _ replaced)
        rw [occurs]
        exact (List.drop_suffix _ _).isInfix.trans (List.take_prefix _ _).isInfix
      have only : (chunks.map (·, mode)).map Prod.fst = chunks := by simp [Function.comp_def]
      have safe : (dictionary patts).Safe thiz.rtext (chunks.map (·, mode)) :=
        Dictionary.sessionFault_of_marks_eq_nil (by rw [only]; exact none) (by rwa [only])
      obtain ⟨thiz', ran, receives⟩ := replaceAll_mode built replacing callback nonempty safe
      change Receives _ _ (substitute _ (found.foldl mode.book [])) at receives
      rw [none, List.foldl_nil, substitute_nil] at receives
      exact ⟨thiz', ran, receives⟩
  | inr itself =>
      obtain ⟨rfl, itself, safe⟩ := itself
      obtain ⟨thiz', ran, receives⟩ := replaceAll_mode built replacing callback nonempty safe
      have chosen : found.foldl bookFirst [] = firsts 0 found := foldl_bookFirst [] found
      have proper : ∀ m ∈ found, m.start ≤ m.stop := fun m mem =>
        Nat.le_of_lt (Dictionary.marks_spec mem).1
      have kept := firsts_sublist 0 found
      have same : substitute chunks.flatten (firsts 0 found) = chunks.flatten := by
        apply substitute_eq_self (disjoint_firsts proper)
        · intro m mem
          exact ⟨proper m (kept.mem mem), (Dictionary.marks_spec (kept.mem mem)).2.1⟩
        · intro m mem
          obtain ⟨_, _, q, _, replaced, occurs⟩ := Dictionary.marks_spec (kept.mem mem)
          rw [← occurs]
          exact itself q m.text (known q _ replaced)
      change Receives _ _ (substitute _ (found.foldl bookFirst [])) at receives
      rw [chosen, same] at receives
      exact ⟨thiz', ran, receives⟩

/-- No pattern occurs in `ba`. -/
theorem replaceAll_harmless_ba : ∃ thiz thiz' : ReplaceTrie Unit,
    (create.addEach overlapping).finalize = .ok thiz ∧
      thiz.replaceAll () [([98], .normal), ([97], .normal)] = .ok thiz' ∧
      Receives () thiz'.repdata.delivered [98, 97] := by
  obtain ⟨thiz, built, replacing⟩ := replacing_overlapping
  have fits : (dictionary overlapping).Fits [] 0 [[98], [97]] := by decide
  have absent : ∀ q r, (q, some r) ∈ (create : ReplaceTrie Unit).added overlapping →
      ¬ q.ptext <:+: [[98], [97]].flatten := by
    intro q r mem
    have known : ∀ patt ∈ (create : ReplaceTrie Unit).added overlapping,
        ¬ patt.1.ptext <:+: [[98], [97]].flatten := by decide
    exact known _ mem
  obtain ⟨thiz', ran, receives⟩ :=
    replaceAll_harmless built replacing () (by decide) (Or.inl ⟨absent, fits⟩)
  exact ⟨thiz, thiz', built, ran, receives⟩

/-- `ac_trie_finalize` books in every node the longest accepted pattern with a replacement that
ends the string on its path, and counts these nodes modulo `2 ^ 32`. When the count is zero, nothing
is ever replaced. -/
theorem finalize_bookmarks (patts : List (AcPattern × Option Bytes)) :
    ∃ thiz : ReplaceTrie κ, (create.addEach patts).finalize = .ok thiz ∧
      (∀ n s, thiz.trie.reach s = some n → ∀ q, thiz.toBeReplaced n = some q ↔
        (∃ r, (q, some r) ∈ (create : ReplaceTrie κ).added patts) ∧ q.ptext <:+ s ∧
          ∀ p r, (p, some r) ∈ (create : ReplaceTrie κ).added patts → p.ptext <:+ s →
            p.ptext.length ≤ q.ptext.length) ∧
      thiz.repdata.hasReplacement = UInt32.ofNat (((List.range thiz.trie.nodes.length).countP
        fun n => (thiz.toBeReplaced n).isSome)) ∧
      (thiz.repdata.hasReplacement = 0 → ∀ instr mode callback,
        thiz.multifastReplace instr mode callback = .ok (-2, thiz)) := by
  obtain ⟨thiz, path, ran, ready, rtexts, _, _, repdata⟩ := finalize_addEach (κ := κ) patts
  have lab := ready.finalized.labelling
  have known : ∀ q, (q ∈ (dictionary patts).entries ∧ (thiz.rtext q).isSome) ↔
      ∃ r, (q, some r) ∈ (create : ReplaceTrie κ).added patts := by
    intro q
    rw [rtext, rtexts, Option.isSome_iff_exists, entries_dictionary]
    simp only [lookup_added]
    exact and_iff_right_of_imp fun ⟨r, mem⟩ => List.mem_map.mpr ⟨_, mem, rfl⟩
  refine ⟨thiz, ran, ?_, ?_, ?_⟩
  · intro n s reached q
    obtain ⟨inside, rfl⟩ := (AcTrie.reach_eq_some_iff ready.root lab).mp reached
    rw [ready.booked n inside, Dictionary.replaceable_eq_some_iff]
    constructor
    · rintro ⟨⟨entry, replaced, suffix⟩, longest⟩
      refine ⟨(known q).mp ⟨entry, replaced⟩, suffix, ?_⟩
      intro p r mem suffix'
      obtain ⟨entry', replaced'⟩ := (known p).mpr ⟨r, mem⟩
      exact longest p entry' replaced' suffix'
    · rintro ⟨replaced, suffix, longest⟩
      obtain ⟨entry, replaced⟩ := (known q).mpr replaced
      refine ⟨⟨entry, replaced, suffix⟩, ?_⟩
      intro p entry' replaced' suffix'
      obtain ⟨r, mem⟩ := (known p).mp ⟨entry', replaced'⟩
      exact longest p r mem suffix'
  · have spelled : Spelled thiz.trie.nodes path (dictionary patts) := ready.spelled
    have order := spelled.perm_beginnings lab ready.finalized.present
    rw [repdata]
    change UInt32.ofNat _ = _
    rw [← order.countP_eq, List.countP_map]
    congr 1
    apply List.countP_congr
    intro n inside
    rw [ready.booked n (List.mem_range.mp inside)]
    rfl
  · intro none instr mode callback
    rw [multifastReplace, ready.trieOpen, if_neg Bool.false_ne_true, if_pos none]

end ReplaceTrie

end Multifast
