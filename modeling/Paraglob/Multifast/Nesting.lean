import Paraglob.Multifast.Chunks

/-!
# Nested candidates

When a chunk consumes some nominees, what is left of them is moved to the front of
their array with `memcpy`, which is only defined when the cells it reads and the
cells it writes have nothing in common. The file says for which patterns this never
goes wrong: in no beginning of a pattern may two candidates stand side by side or
overlap. For all others it finds a text with which it does.
-/

namespace Multifast

open LongestSuffix Substitution

theorem countP_le_one {α : Type} {p : α → Bool} {l : List α}
    (apart : l.Pairwise fun a b => p a → ¬ p b) : l.countP p ≤ 1 := by
  induction l with
  | nil => exact Nat.zero_le 1
  | cons a l ih =>
      obtain ⟨first, rest⟩ := List.pairwise_cons.mp apart
      by_cases here : p a
      · rw [List.countP_cons_of_pos here, List.countP_eq_zero.mpr fun b hb => first b hb here]
      · rw [List.countP_cons_of_neg here]
        exact ih rest

theorem one_lt_countP {α : Type} {p : α → Bool} {l : List α} {a b : α} (ha : a ∈ l) (hb : b ∈ l)
    (counted : p a) (counted' : p b) (ne : a ≠ b) : 1 < l.countP p := by
  by_contra one
  rw [List.countP_eq_length_filter] at one
  have ha' := List.mem_filter.mpr ⟨ha, counted⟩
  have hb' := List.mem_filter.mpr ⟨hb, counted'⟩
  cases kept : l.filter p with
  | nil => simp [kept] at ha'
  | cons x rest =>
      cases rest with
      | nil =>
          rw [kept, List.mem_singleton] at ha' hb'
          exact ne (ha'.trans hb'.symm)
      | cons y rest => simp [kept] at one

theorem ascending_foldl_book {mode : MfReplaceMode} {marks found : List (Mark UInt8)}
    (sorted : Ascending marks) (proper : ∀ m ∈ marks, m.start < m.stop) (ordered : Found found)
    (proper' : ∀ m ∈ found, m.start < m.stop)
    (behind : ∀ m ∈ marks, ∀ n ∈ found, m.stop < n.stop) :
    Ascending (found.foldl mode.book marks) := by
  induction found generalizing marks with
  | nil => exact sorted
  | cons n found ih =>
      obtain ⟨first, ordered⟩ := List.pairwise_cons.mp ordered
      have last := fun m hm => behind m hm n List.mem_cons_self
      have step : Ascending (mode.book marks n) := by
        by_cases lazy : mode = .lazy
        · rw [lazy]
          exact sorted.bookFirst proper last
        · rw [MfReplaceMode.book_of_ne_lazy lazy]
          exact sorted.bookOuter last
      refine ih step ?_ ordered (fun m hm => proper' m (List.mem_cons_of_mem _ hm)) ?_
      · intro m hm
        cases mem_book hm with
        | inl old => exact proper m old
        | inr here => exact here ▸ proper' n List.mem_cons_self
      · intro m hm p hp
        cases mem_book hm with
        | inl old => exact behind m old p (List.mem_cons_of_mem _ hp)
        | inr here => exact here ▸ first p hp

namespace Dictionary

variable {d : Dictionary} {rtext : AcPattern → Option Bytes} {h s t u : Bytes} {q : AcPattern}
variable {m : Mark UInt8} {marks : List (Mark UInt8)} {cut cut' : Nat} {c : UInt8}

/-- Of two candidates in the beginning of a pattern, one always contains the other. -/
def Nests (d : Dictionary) (rtext : AcPattern → Option Bytes) : Prop :=
  ∀ s ∈ d.beginnings, ∀ m ∈ d.marks rtext [] s, ∀ n ∈ d.marks rtext [] s,
    m.start < n.start → n.stop ≤ m.stop

instance (d : Dictionary) (rtext : AcPattern → Option Bytes) : Decidable (d.Nests rtext) :=
  inferInstanceAs (Decidable (∀ s ∈ d.beginnings, ∀ m ∈ d.marks rtext [] s,
    ∀ n ∈ d.marks rtext [] s, m.start < n.start → n.stop ≤ m.stop))

theorem mem_marks :
    m ∈ d.marks rtext [] s ↔ ∃ i < s.length, ∃ q,
      d.replaceable rtext (s.take (i + 1)) = some q ∧ m.start + q.ptext.length = i + 1 ∧
        m.stop = i + 1 ∧ m.text = (rtext q).getD [] := by
  rw [marks, List.mem_map]
  constructor
  · rintro ⟨nom, listed, rfl⟩
    obtain ⟨i, inside, found, position⟩ := mem_nominees.mp listed
    obtain ⟨_, _, covers, _⟩ := nominee_spec listed
    rw [List.length_nil, Nat.zero_add] at position
    exact ⟨i, inside, nom.pattern, found, covers.trans position, position, rfl⟩
  · rintro ⟨i, inside, q, found, covers, stop, text⟩
    let nom : MfReplacementNominee := ⟨q, i + 1⟩
    have listed : nom ∈ d.nominees rtext [] s :=
      mem_nominees.mpr ⟨i, inside, found, by simp [nom]⟩
    obtain ⟨_, _, covers', _⟩ := nominee_spec listed
    have start : nom.start = m.start := Nat.add_right_cancel (covers'.trans covers.symm)
    refine ⟨nom, listed, ?_⟩
    rw [MfReplacementNominee.mark, start, ← text, show nom.position = m.stop from stop.symm]

/-- What a text contains in its last part is found in that part alone. -/
theorem marks_of_append (mem : m ∈ d.marks rtext [] (u ++ s)) (inside : u.length ≤ m.start) :
    ∃ n ∈ d.marks rtext [] s, n.start + u.length = m.start ∧ n.stop + u.length = m.stop := by
  obtain ⟨i, valid, q, found, covers, stop, text⟩ := mem_marks.mp mem
  obtain ⟨⟨entry, replaced, suffix⟩, longest⟩ := replaceable_eq_some_iff.mp found
  have nonempty := List.length_pos_iff.mpr (d.nonempty q entry)
  rw [List.length_append] at valid
  have split : (u ++ s).take (i + 1) = u ++ s.take (i - u.length + 1) := by
    rw [show i + 1 = u.length + (i - u.length + 1) by omega, List.take_length_add_append]
  rw [split] at suffix longest
  have alone : q.ptext <:+ s.take (i - u.length + 1) := by
    apply List.suffix_of_suffix_length_le suffix (List.suffix_append _ _)
    rw [List.length_take]
    omega
  have found' : d.replaceable rtext (s.take (i - u.length + 1)) = some q :=
    replaceable_eq_some_iff.mpr ⟨⟨entry, replaced, alone⟩, fun p hp replaced' suffix' =>
      longest p hp replaced' (suffix'.trans (List.suffix_append _ _))⟩
  refine ⟨⟨m.start - u.length, m.stop - u.length, m.text⟩, mem_marks.mpr
    ⟨i - u.length, by omega, q, found', ?_, ?_, text⟩, ?_, ?_⟩
  all_goals
    dsimp only
    omega

theorem length_le_of_separator (absent : c ∉ q.ptext) (suffix : q.ptext <:+ u ++ c :: t) :
    q.ptext.length ≤ t.length := by
  by_contra long
  have reaches : c :: t <:+ q.ptext :=
    List.suffix_of_suffix_length_le (List.suffix_append u _) suffix (Nat.not_le.mp long)
  exact absent (reaches.mem List.mem_cons_self)

theorem marks_append_of_separator (absent : ∀ q ∈ d.entries, c ∉ q.ptext)
    (mem : m ∈ d.marks rtext [] s) :
    ∃ n ∈ d.marks rtext [] (u ++ c :: s), n.start = m.start + (u.length + 1) ∧
      n.stop = m.stop + (u.length + 1) := by
  obtain ⟨i, valid, q, found, covers, stop, text⟩ := mem_marks.mp mem
  obtain ⟨⟨entry, replaced, suffix⟩, longest⟩ := replaceable_eq_some_iff.mp found
  let j := i + (u.length + 1)
  have split : (u ++ c :: s).take (j + 1) = u ++ c :: s.take (i + 1) := by
    rw [show j + 1 = u.length + (i + 1 + 1) by omega, List.take_length_add_append,
      List.take_succ_cons]
  have behind : s.take (i + 1) <:+ u ++ c :: s.take (i + 1) :=
    (List.suffix_cons c _).trans (List.suffix_append u _)
  have found' : d.replaceable rtext ((u ++ c :: s).take (j + 1)) = some q := by
    rw [split]
    refine replaceable_eq_some_iff.mpr ⟨⟨entry, replaced, suffix.trans behind⟩, ?_⟩
    intro p hp replaced' suffix'
    have short := length_le_of_separator (absent p hp) suffix'
    exact longest p hp replaced' (List.suffix_of_suffix_length_le suffix' behind short)
  have valid' : j < (u ++ c :: s).length := by
    rw [List.length_append, List.length_cons]
    omega
  refine ⟨⟨m.start + (u.length + 1), m.stop + (u.length + 1), m.text⟩,
    mem_marks.mpr ⟨j, valid', q, found', ?_, ?_, text⟩, rfl, rfl⟩
  all_goals
    dsimp only
    omega

/-- With nested candidates at most one nominee is left behind a cut, and one can be moved. -/
theorem Nests.crowding_eq_none (nests : d.Nests rtext)
    (known : ∀ m ∈ marks, m ∈ d.marks rtext [] h) (sorted : Ascending marks)
    (cuts : cut' = cut ∨ cut' + (d.pending h).length = h.length)
    (few : begunIn cut cut' marks < 2 ^ 32) :
    crowding (begunIn cut cut' marks) (begunFrom cut' marks) = none := by
  cases cuts with
  | inl same => rw [same, begunIn_self, crowding_zero]
  | inr pending =>
      obtain ⟨⟨front, whole⟩, begins, _⟩ := d.pending_spec h
      have size := congrArg List.length whole
      rw [List.length_append] at size
      rw [← whole] at known
      have one : begunFrom cut' marks ≤ 1 := by
        apply countP_le_one
        apply sorted.imp_of_mem
        rintro m n hm hn ⟨starts, stops⟩ behind behind'
        have behind := of_decide_eq_true behind
        have behind' := of_decide_eq_true behind'
        -- Both marks are candidates in what is pending.
        obtain ⟨m', hm', start, stop⟩ := marks_of_append (known m hm) (by omega)
        obtain ⟨n', hn', start', stop'⟩ := marks_of_append (known n hn) (by omega)
        have nested := nests _ (mem_beginnings.mpr begins) m' hm' n' hn' (by omega)
        omega
      by_cases some : begunIn cut cut' marks = 0
      · rw [some, crowding_zero]
      · exact crowding_of_le few (by omega)

/-- The run lemma: with nested candidates no session fails whose undecided text fits. -/
theorem Nests.sessionFault_eq_none (nests : d.Nests rtext)
    (known : ∀ m ∈ marks, m ∈ d.marks rtext [] h) (sorted : Ascending marks)
    (undecided : h.length - cut ≤ acPatternMaxLength) {calls : List (Bytes × MfReplaceMode)}
    (fits : d.Fits h cut (calls.map Prod.fst))
    (short : ∀ call ∈ calls, acPatternMaxLength + call.1.length < 2 ^ 32) :
    d.sessionFault rtext h marks cut calls = none := by
  induction calls generalizing h marks cut with
  | nil => rfl
  | cons call calls ih =>
      obtain ⟨instr, mode⟩ := call
      obtain ⟨here, fits⟩ := fits
      have small : acPatternMaxLength + instr.length < 2 ^ 32 :=
        short (instr, mode) List.mem_cons_self
      have known' : ∀ m ∈ (d.marks rtext h instr).foldl mode.book marks,
          m ∈ d.marks rtext [] (h ++ instr) := by
        intro m mem
        rw [marks_append]
        exact List.mem_append.mpr ((mem_foldl_book mem).imp_left (known m))
      have sorted' : Ascending ((d.marks rtext h instr).foldl mode.book marks) := by
        refine ascending_foldl_book sorted (fun m hm => (marks_spec (known m hm)).1)
          (d.found_marks rtext h instr) ?_ ?_
        · intro m hm
          obtain ⟨nom, listed, rfl⟩ := List.mem_map.mp hm
          obtain ⟨_, _, _, proper, _⟩ := nominee_spec listed
          exact proper
        · intro m hm n hn
          obtain ⟨nom, listed, rfl⟩ := List.mem_map.mp hn
          obtain ⟨_, _, _, _, behind, _⟩ := nominee_spec listed
          exact Nat.lt_of_le_of_lt (marks_spec (known m hm)).2.1 behind
      have cuts : d.nextCut h cut instr = cut ∨
          d.nextCut h cut instr + (d.pending (h ++ instr)).length = (h ++ instr).length := by
        have inside := (d.pending_spec (h ++ instr)).1.length_le
        rw [nextCut]
        split
        · exact Or.inr (Nat.sub_add_cancel inside)
        · exact Or.inl rfl
      have few : begunIn cut (d.nextCut h cut instr)
          ((d.marks rtext h instr).foldl mode.book marks) < 2 ^ 32 := by
        have bound := sorted'.begunIn_le cut (d.nextCut h cut instr)
        rw [List.length_append] at cuts
        omega
      have apart := nests.crowding_eq_none known' sorted' cuts few
      rw [sessionFault, chunkFault, apart, Option.none_or, if_pos here, Option.none_or]
      exact ih known' sorted' here fits fun call mem => short call (List.mem_cons_of_mem _ mem)

theorem Nests.safe (nests : d.Nests rtext) {calls : List (Bytes × MfReplaceMode)}
    (fits : d.Fits [] 0 (calls.map Prod.fst))
    (short : ∀ call ∈ calls, acPatternMaxLength + call.1.length < 2 ^ 32) : d.Safe rtext calls :=
  nests.sessionFault_eq_none (by simp) List.Pairwise.nil (Nat.zero_le _) fits short

theorem exists_shortest (entry : q ∈ d.entries) (replaced : (rtext q).isSome) :
    ∃ p ∈ d.entries, (rtext p).isSome ∧
      ∀ q ∈ d.entries, (rtext q).isSome → p.ptext.length ≤ q.ptext.length := by
  induction size : q.ptext.length using Nat.strong_induction_on generalizing q with
  | _ size' ih =>
      by_cases least : ∀ p ∈ d.entries, (rtext p).isSome → q.ptext.length ≤ p.ptext.length
      · exact ⟨q, entry, replaced, least⟩
      · simp only [not_forall, Nat.not_le] at least
        obtain ⟨p, entry', replaced', shorter⟩ := least
        exact ih _ (size ▸ shorter) entry' replaced' rfl

theorem mark_self (entry : q ∈ d.entries) (replaced : (rtext q).isSome) (s : Bytes) :
    ∃ m ∈ d.marks rtext [] (q.ptext ++ s), m.start = 0 ∧ m.stop = q.ptext.length := by
  have positive := List.length_pos_iff.mpr (d.nonempty q entry)
  have last := Nat.sub_add_cancel positive
  have found : d.replaceable rtext ((q.ptext ++ s).take (q.ptext.length - 1 + 1)) = some q := by
    rw [last, List.take_left]
    exact replaceable_eq_some_iff.mpr ⟨⟨entry, replaced, List.suffix_rfl⟩,
      fun p _ _ suffix => suffix.length_le⟩
  have inside : q.ptext.length - 1 < (q.ptext ++ s).length := by
    rw [List.length_append]
    omega
  exact ⟨⟨0, q.ptext.length, (rtext q).getD []⟩, mem_marks.mpr
    ⟨_, inside, q, found, (Nat.zero_add _).trans last.symm, last.symm, rfl⟩, rfl, rfl⟩

/-- The candidates of a text that is a shortest pattern, a letter that no pattern has, and some more
letters. -/
theorem marks_shortest (shortest : ∀ p ∈ d.entries, (rtext p).isSome →
      u.length ≤ p.ptext.length) (absent : ∀ q ∈ d.entries, c ∉ q.ptext)
    (mem : m ∈ d.marks rtext [] (u ++ c :: s)) :
    m.start = 0 ∧ m.stop = u.length ∨ u.length < m.start := by
  obtain ⟨proper, inside, p, entry, replaced, covers⟩ := marks_spec mem
  have long := shortest p entry (by rw [replaced]; rfl)
  have size := congrArg List.length covers
  rw [List.length_drop, List.length_take] at size
  by_cases front : m.stop ≤ u.length
  · omega
  · refine Or.inr (Nat.lt_of_not_le fun before => absent p entry ?_)
    have letter : (u ++ c :: s)[u.length]? = some c := by simp
    rw [covers]
    refine List.mem_of_getElem? (i := u.length - m.start) ?_
    rw [List.getElem?_drop, Nat.add_sub_of_le before, List.getElem?_take_of_lt (by omega)]
    exact letter

theorem marks_take (mem : m ∈ d.marks rtext [] s) {n : Nat} (inside : m.stop ≤ n)
    (le : n ≤ s.length) : m ∈ d.marks rtext [] (s.take n) := by
  obtain ⟨i, _, q, found, covers, stop, text⟩ := mem_marks.mp mem
  have same : (s.take n).take (i + 1) = s.take (i + 1) := by
    rw [List.take_take, Nat.min_eq_left (by omega)]
  refine mem_marks.mpr ⟨i, ?_, q, same ▸ found, covers, stop, text⟩
  rw [List.length_take]
  omega

theorem pending_of_separator (absent : ∀ q ∈ d.entries, c ∉ q.ptext) (begins : d.Begins s) :
    d.pending (u ++ c :: s) = s := by
  obtain ⟨suffix, begun, longest⟩ := d.pending_spec (u ++ c :: s)
  have behind : s <:+ u ++ c :: s := (List.suffix_cons c s).trans (List.suffix_append u _)
  have shorter := longest s behind begins
  have inside : (d.pending (u ++ c :: s)).length ≤ s.length := by
    obtain none | ⟨q, entry, start⟩ := begun
    · rw [none]
      exact Nat.zero_le _
    · by_contra long
      have reaches : c :: s <:+ d.pending (u ++ c :: s) :=
        List.suffix_of_suffix_length_le (List.suffix_append u _) suffix (Nat.not_le.mp long)
      exact absent q entry (start.mem (reaches.mem List.mem_cons_self))
  exact (List.suffix_of_suffix_length_le suffix behind inside).eq_of_length
    (Nat.le_antisymm inside shorter)

/-- One candidate that is cut off, and two behind the cut that stand side by side. -/
theorem crowding_of_beside {found : List (Mark UInt8)} {first n : Mark UInt8} {k : Nat}
    (ordered : Found found) (apart : ∀ x ∈ found, x.start = 0 ∧ x.stop = k ∨ k < x.start)
    (hfirst : first ∈ found) (zero : first.start = 0) (hm : m ∈ found) (hn : n ∈ found)
    (behind : k < m.start) (proper : m.start < m.stop) (starts : m.start < n.start)
    (stops : m.stop < n.stop) (last : ∀ x ∈ found, x.stop ≤ n.stop) :
    crowding (begunIn 0 (k + 1) (outermost found)) (begunFrom (k + 1) (outermost found)) =
      some .overlap := by
  have first_chosen : first ∈ outermost found := by
    refine mem_outermost.mpr ⟨hfirst, fun x hx later => ?_⟩
    have := apart x hx
    have := apart first hfirst
    omega
  have last_chosen : n ∈ outermost found :=
    mem_outermost.mpr ⟨hn, fun x hx later => absurd (last x hx) (Nat.not_le.mpr later)⟩
  -- What contains `m` is another choice behind the cut, since `n` begins later and ends last.
  obtain ⟨o, outer, before, after⟩ := ordered.exists_outermost hm
  have beyond := apart o (mem_outermost.mp outer).1
  have front := apart first hfirst
  have few : begunIn 0 (k + 1) (outermost found) ≤ 1 := by
    apply countP_le_one
    apply ordered.ascending_outermost.imp_of_mem
    intro x y hx hy both early early'
    have early := of_decide_eq_true early
    have early' := of_decide_eq_true early'
    have := apart x (mem_outermost.mp hx).1
    have := apart y (mem_outermost.mp hy).1
    omega
  have some : 0 < begunIn 0 (k + 1) (outermost found) :=
    List.countP_pos_iff.mpr ⟨first, first_chosen, decide_eq_true (by omega)⟩
  have many : 1 < begunFrom (k + 1) (outermost found) :=
    one_lt_countP outer last_chosen (decide_eq_true (by omega)) (decide_eq_true (by omega))
      (by rintro rfl; omega)
  rw [crowding, if_neg (by omega), if_pos ⟨by omega, by omega⟩]

/-- The text is a shortest candidate, a letter that no pattern has, and a beginning with two
candidates side by side: one nominee is consumed and two are left. -/
theorem exists_overlap (absent : ∀ q ∈ d.entries, c ∉ q.ptext) (beside : ¬ d.Nests rtext) :
    ∃ text, d.sessionFault rtext [] [] 0 [(text, .normal)] = some .overlap := by
  simp only [Nests, not_forall, Nat.not_le] at beside
  obtain ⟨whole, beginning, m, hm, n, hn, starts, stops⟩ := beside
  obtain ⟨_, inside, p, entry, replaced, _⟩ := marks_spec hn
  obtain ⟨q, entry, replaced, shortest⟩ :=
    exists_shortest entry (show (rtext p).isSome by rw [replaced]; rfl)
  let s := whole.take n.stop
  let text := q.ptext ++ c :: s
  have size : s.length = n.stop := List.length_take_of_le inside
  have begins : d.Begins s := (mem_beginnings.mp beginning).imp
    (fun none => by rw [show s = whole.take n.stop from rfl, none, List.take_nil])
    fun ⟨p, hp, start⟩ => ⟨p, hp, (List.take_prefix _ _).trans start⟩
  have length : text.length = q.ptext.length + 1 + n.stop := by
    rw [List.length_append, List.length_cons, size]
    omega
  have pending : (d.pending ([] ++ text)).length = n.stop :=
    (congrArg List.length (pending_of_separator absent begins)).trans size
  have cut : d.nextCut [] 0 text = q.ptext.length + 1 := by
    rw [nextCut, pending, if_pos (by omega), List.nil_append, length]
    omega
  obtain ⟨m', hm', start, stop⟩ := marks_append_of_separator (u := q.ptext) absent
    (marks_take hm (Nat.le_of_lt stops) inside)
  obtain ⟨n', hn', start', stop'⟩ := marks_append_of_separator (u := q.ptext) absent
    (marks_take hn (Nat.le_refl _) inside)
  obtain ⟨first, hfirst, zero, _⟩ := mark_self entry replaced (c :: s)
  have found : Found (d.marks rtext [] text) := d.found_marks rtext [] text
  have last : ∀ x ∈ d.marks rtext [] text, x.stop ≤ n'.stop := by
    intro x hx
    have := (marks_spec hx).2.1
    omega
  have apart : ∀ x ∈ d.marks rtext [] text,
      x.start = 0 ∧ x.stop = q.ptext.length ∨ q.ptext.length < x.start :=
    fun x hx => marks_shortest shortest absent hx
  have overlaps := crowding_of_beside found apart hfirst zero hm' hn' (by omega)
    (marks_spec hm').1 (by omega) (by omega) last
  refine ⟨text, ?_⟩
  rw [sessionFault, chunkFault, show MfReplaceMode.normal.book = bookOuter from rfl,
    found.foldl_bookOuter, cut, overlaps]
  rfl

end Dictionary

end Multifast
