import Paraglob.Multifast.Bookmarks
import Paraglob.Multifast.Buffering
import Paraglob.Multifast.Occurrences
import Paraglob.Multifast.Size

/-!
# Replacing a text chunk by chunk

A replacement reads a text in chunks and replaces what it is sure of. The marks of
the whole text, chosen by the rule of the mode, say what the result will be. The
state between two chunks stands for a part of it: some marks are consumed and
copied, the others are still nominees, and the text behind the last position that
was decided about is in the backlog. The last step hands over the rest.
-/

namespace Multifast

open LongestSuffix Substitution

/-- How a mode chooses among the marks that come in. -/
def MfReplaceMode.book : MfReplaceMode → List (Mark UInt8) → Mark UInt8 → List (Mark UInt8)
  | .lazy => bookFirst
  | .default | .normal => bookOuter

theorem MfReplaceMode.book_of_ne_lazy {mode : MfReplaceMode} (outer : mode ≠ .lazy) :
    mode.book = bookOuter := by
  cases mode with
  | lazy => exact absurd rfl outer
  | default => rfl
  | normal => rfl

theorem mem_book {mode : MfReplaceMode} {marks : List (Mark UInt8)} {m n : Mark UInt8}
    (h : n ∈ mode.book marks m) : n ∈ marks ∨ n = m := by
  by_cases lazy : mode = .lazy
  · rw [lazy] at h
    change n ∈ bookFirst marks m at h
    rw [bookFirst] at h
    split at h
    · exact Or.inl h
    · exact (List.mem_append.mp h).imp_right List.mem_singleton.mp
  · rw [MfReplaceMode.book_of_ne_lazy lazy] at h
    exact (List.mem_append.mp h).imp (List.rdropWhile_prefix _ _).mem List.mem_singleton.mp

theorem mem_foldl_book {mode : MfReplaceMode} {marks found : List (Mark UInt8)} {m : Mark UInt8}
    (h : m ∈ found.foldl mode.book marks) : m ∈ marks ∨ m ∈ found := by
  induction found generalizing marks with
  | nil => exact Or.inl h
  | cons n found ih =>
      cases ih h with
      | inl booked =>
          cases mem_book booked with
          | inl old => exact Or.inl old
          | inr here => exact Or.inr (here ▸ List.mem_cons_self)
      | inr later => exact Or.inr (List.mem_cons_of_mem _ later)

namespace MfReplacementData

variable {κ : Type} {rd : MfReplacementData κ} {rtext : AcPattern → Option Bytes}
variable {marks consumed : List (Mark UInt8)} {cut : Nat} {nom : MfReplacementNominee}

/-- The nominees are the chosen marks that are not consumed yet, because they begin at `cut` or
later. Copying goes on behind the consumed marks, and not in front of `cut`. -/
structure Booked (rd : MfReplacementData κ) (rtext : AcPattern → Option Bytes)
    (marks consumed : List (Mark UInt8)) (cut : Nat) : Prop where
  split : marks = consumed ++ rd.noms.map (·.mark rtext)
  early : ∀ m ∈ consumed, m.start < cut
  late : ∀ nom ∈ rd.noms, cut ≤ nom.start
  curser : rd.curser = max (reached 0 consumed) cut
  sorted : Ascending marks
  proper : ∀ m ∈ marks, m.start < m.stop
  replaced : ∀ nom ∈ rd.noms, (rtext nom.pattern).isSome

theorem bookOuter_map (noms : List MfReplacementNominee) (nom : MfReplacementNominee) :
    bookOuter (noms.map (·.mark rtext)) (nom.mark rtext) =
      ((noms.rdropWhile fun prevNom => nom.start ≤ prevNom.start) ++ [nom]).map (·.mark rtext) := by
  rw [bookOuter, List.map_append, List.rdropWhile, List.rdropWhile, ← List.map_reverse,
    List.dropWhile_map, ← List.map_reverse]
  rfl

/-- The last nominee that begins before the new one ends decides in the lazy mode, and the cursor
decides when there is none. -/
theorem Booked.bookFirst_iff (booked : rd.Booked rtext marks consumed cut)
    (behind : cut ≤ nom.start) :
    nom.start < reached 0 marks ↔
      nom.start < rd.curser ∨ ∃ prevNom ∈ rd.noms.getLast?, nom.start < prevNom.position := by
  rw [booked.split, reached_append, booked.curser]
  cases last : rd.noms.getLast? with
  | none =>
      rw [List.getLast?_eq_none_iff.mp last]
      simp only [List.map_nil, Option.mem_def, reduceCtorEq, false_and, exists_false, or_false]
      change nom.start < reached 0 consumed ↔ _
      omega
  | some prevNom =>
      obtain ⟨init, noms⟩ := List.getLast?_eq_some_iff.mp last
      have here : prevNom ∈ rd.noms := noms ▸ List.mem_append_right _ (List.mem_singleton_self _)
      have mark : prevNom.mark rtext ∈ marks := by
        rw [booked.split]
        exact List.mem_append_right _ (List.mem_map_of_mem here)
      have ends : reached (reached 0 consumed) (rd.noms.map (·.mark rtext)) = prevNom.position := by
        rw [noms, List.map_append]
        exact reached_concat _ _ _
      have inside : reached 0 consumed ≤ prevNom.position := by
        cases consumed using List.reverseRecOn with
        | nil => exact Nat.zero_le _
        | append_singleton front x =>
            have before := booked.sorted
            rw [booked.split] at before
            rw [reached_concat]
            exact Nat.le_of_lt ((List.pairwise_append.mp before).2.2 x
              (List.mem_append_right _ (List.mem_singleton_self _)) _
              (List.mem_map_of_mem here)).2
      have start := booked.late prevNom here
      have whole : prevNom.start < prevNom.position := booked.proper _ mark
      simp only [ends, Option.mem_def, Option.some.injEq, exists_eq_left']
      omega

theorem bookNominee_lazy (lazy : rd.replaceMode = .lazy) (nom : MfReplacementNominee) :
    rd.bookNominee (some nom.pattern) nom.position =
      if nom.start < rd.curser ∨ ∃ prevNom ∈ rd.noms.getLast?, nom.start < prevNom.position then rd
      else rd.pushNominee nom := by
  simp only [bookNominee, lazy]
  cases last : rd.noms.getLast? with
  | none => simp only [Option.mem_def, reduceCtorEq, false_and, exists_false, or_false]
  | some prevNom =>
      simp only [Option.mem_def, Option.some.injEq, exists_eq_left']
      by_cases early : nom.start < rd.curser
      · rw [if_pos early, if_pos (Or.inl early)]
      · rw [if_neg early]
        by_cases inside : nom.start < prevNom.position
        · rw [if_pos inside, if_pos (Or.inr inside)]
        · rw [if_neg inside, if_neg (not_or.mpr ⟨early, inside⟩)]

theorem bookNominee_outer (outer : rd.replaceMode ≠ .lazy) (nom : MfReplacementNominee) :
    rd.bookNominee (some nom.pattern) nom.position =
      { rd with
        noms := (rd.noms.rdropWhile fun prevNom => nom.start ≤ prevNom.start) ++ [nom] } := by
  unfold bookNominee
  cases mode : rd.replaceMode with
  | lazy => exact absurd mode outer
  | default => rfl
  | normal => rfl

theorem bookNominee_eq (rd : MfReplacementData κ) (nom : MfReplacementNominee) :
    rd.bookNominee (some nom.pattern) nom.position =
      { rd with noms := (rd.bookNominee (some nom.pattern) nom.position).noms } := by
  by_cases mode : rd.replaceMode = .lazy
  · rw [bookNominee_lazy mode]
    split <;> rfl
  · rw [bookNominee_outer mode]

theorem mem_bookNominee {n : MfReplacementNominee}
    (h : n ∈ (rd.bookNominee (some nom.pattern) nom.position).noms) : n ∈ rd.noms ∨ n = nom := by
  by_cases mode : rd.replaceMode = .lazy
  · rw [bookNominee_lazy mode] at h
    split at h
    · exact Or.inl h
    · exact (List.mem_append.mp h).imp_right List.mem_singleton.mp
  · rw [bookNominee_outer mode] at h
    exact (List.mem_append.mp h).imp (List.rdropWhile_prefix _ _).mem List.mem_singleton.mp

/-- The step lemma of booking: a nominee that ends last and begins at `cut` or later is chosen or
not as its mark is. -/
theorem Booked.bookNominee_spec (booked : rd.Booked rtext marks consumed cut)
    (behind : cut ≤ nom.start) (proper : nom.start < nom.position)
    (replaced : (rtext nom.pattern).isSome) (last : ∀ m ∈ marks, m.stop < nom.position) :
    (rd.bookNominee (some nom.pattern) nom.position).Booked rtext
      (rd.replaceMode.book marks (nom.mark rtext)) consumed cut := by
  have before : ∀ m ∈ consumed, m.start < (nom.mark rtext).start := fun m hm =>
    Nat.lt_of_lt_of_le (booked.early m hm) behind
  have chosen : rd.replaceMode.book marks (nom.mark rtext) =
      consumed ++ (rd.bookNominee (some nom.pattern) nom.position).noms.map (·.mark rtext) ∧
        Ascending (rd.replaceMode.book marks (nom.mark rtext)) := by
    by_cases mode : rd.replaceMode = .lazy
    · rw [bookNominee_lazy mode, mode]
      refine ⟨?_, booked.sorted.bookFirst booked.proper last⟩
      have decides := booked.bookFirst_iff behind
      change (if nom.start < reached 0 marks then marks else marks ++ [nom.mark rtext]) = _
      by_cases skipped : nom.start < reached 0 marks
      · rw [if_pos skipped, if_pos (decides.mp skipped), booked.split]
      · rw [if_neg skipped, if_neg (mt decides.mpr skipped), booked.split, pushNominee,
          List.map_append, List.append_assoc]
        rfl
    · rw [MfReplaceMode.book_of_ne_lazy mode, bookNominee_outer mode]
      refine ⟨?_, booked.sorted.bookOuter last⟩
      rw [booked.split, bookOuter_append before, bookOuter_map]
  obtain ⟨chosen, sorted⟩ := chosen
  refine ⟨chosen, booked.early, ?_, ?_, sorted, ?_, ?_⟩
  · intro n hn
    cases mem_bookNominee hn with
    | inl old => exact booked.late n old
    | inr new => exact new ▸ behind
  · rw [bookNominee_eq]
    exact booked.curser
  · intro m hm
    rw [chosen] at hm
    cases List.mem_append.mp hm with
    | inl old => exact booked.proper m (booked.split ▸ List.mem_append_left _ old)
    | inr here =>
        obtain ⟨n, hn, rfl⟩ := List.mem_map.mp here
        cases mem_bookNominee hn with
        | inl old =>
            exact booked.proper _ (booked.split ▸ List.mem_append_right _ (List.mem_map_of_mem old))
        | inr new => exact new ▸ proper
  · intro n hn
    cases mem_bookNominee hn with
    | inl old => exact booked.replaced n old
    | inr new => exact new ▸ replaced

/-- The nominees of a chunk, booked in their order. -/
def bookEach (rd : MfReplacementData κ) (noms : List MfReplacementNominee) : MfReplacementData κ :=
  noms.foldl (fun rd nom => rd.bookNominee (some nom.pattern) nom.position) rd

theorem bookEach_eq (rd : MfReplacementData κ) (noms : List MfReplacementNominee) :
    rd.bookEach noms = { rd with noms := (rd.bookEach noms).noms } := by
  induction noms generalizing rd with
  | nil => rfl
  | cons nom noms ih =>
      have step := rd.bookNominee_eq nom
      have rest := ih (rd.bookNominee (some nom.pattern) nom.position)
      change bookEach _ noms = { rd with noms := (bookEach _ noms).noms }
      rw [rest, step]

theorem Booked.bookEach_spec (booked : rd.Booked rtext marks consumed cut)
    {noms : List MfReplacementNominee}
    (new : ∀ nom ∈ noms, cut ≤ nom.start ∧ nom.start < nom.position ∧ (rtext nom.pattern).isSome)
    (ordered : Found (noms.map (·.mark rtext)))
    (behind : ∀ m ∈ marks, ∀ nom ∈ noms, m.stop < nom.position) :
    (rd.bookEach noms).Booked rtext
      ((noms.map (·.mark rtext)).foldl rd.replaceMode.book marks) consumed cut := by
  induction noms generalizing rd marks with
  | nil => exact booked
  | cons nom noms ih =>
      obtain ⟨first, ordered⟩ := List.pairwise_cons.mp ordered
      obtain ⟨start, proper, replaced⟩ := new nom List.mem_cons_self
      have step := booked.bookNominee_spec start proper replaced fun m hm =>
        behind m hm nom List.mem_cons_self
      have mode :
          (rd.bookNominee (some nom.pattern) nom.position).replaceMode = rd.replaceMode := by
        rw [bookNominee_eq]
      have rest := ih step (fun n hn => new n (List.mem_cons_of_mem _ hn)) ordered (by
        intro m hm n hn
        cases mem_book hm with
        | inl old => exact behind m old n (List.mem_cons_of_mem _ hn)
        | inr here => exact here ▸ first _ (List.mem_map_of_mem hn))
      rw [mode] at rest
      exact rest

end MfReplacementData

namespace Dictionary

variable {d : Dictionary} {rtext : AcPattern → Option Bytes} {h t : Bytes}
variable {nom : MfReplacementNominee}

/-- The nominees of a text that continues `h`. -/
def nominees (d : Dictionary) (rtext : AcPattern → Option Bytes) (h t : Bytes) :
    List MfReplacementNominee :=
  (List.range t.length).filterMap fun i =>
    (d.replaceable rtext (h ++ t.take (i + 1))).map fun q => ⟨q, h.length + i + 1⟩

/-- The marks they stand for. -/
def marks (d : Dictionary) (rtext : AcPattern → Option Bytes) (h t : Bytes) : List (Mark UInt8) :=
  (d.nominees rtext h t).map (·.mark rtext)

theorem mem_nominees :
    nom ∈ d.nominees rtext h t ↔ ∃ i < t.length,
      d.replaceable rtext (h ++ t.take (i + 1)) = some nom.pattern ∧
        nom.position = h.length + i + 1 := by
  simp only [nominees, List.mem_filterMap, List.mem_range, Option.map_eq_some_iff]
  apply exists_congr
  intro i
  apply and_congr_right
  intro _
  constructor
  · rintro ⟨q, found, rfl⟩
    exact ⟨found, rfl⟩
  · rintro ⟨found, position⟩
    exact ⟨nom.pattern, found, by rw [← position]⟩

theorem nominee_spec (mem : nom ∈ d.nominees rtext h t) :
    nom.pattern ∈ d.entries ∧ (rtext nom.pattern).isSome ∧
      nom.start + nom.pattern.ptext.length = nom.position ∧ nom.start < nom.position ∧
      h.length < nom.position ∧ nom.position ≤ (h ++ t).length ∧
      nom.pattern.ptext <:+ (h ++ t).take nom.position := by
  obtain ⟨i, inside, found, position⟩ := mem_nominees.mp mem
  obtain ⟨⟨entry, replaced, suffix⟩, _⟩ := replaceable_eq_some_iff.mp found
  have nonempty := List.length_pos_iff.mpr (d.nonempty _ entry)
  have length := suffix.length_le
  have taken : h ++ t.take (i + 1) = (h ++ t).take nom.position := by
    rw [position, Nat.add_assoc, List.take_length_add_append]
  rw [List.length_append, List.length_take] at length
  have start : nom.start = nom.position - nom.pattern.ptext.length :=
    sizeSub_of_le (by omega)
  rw [taken] at suffix
  rw [List.length_append]
  exact ⟨entry, replaced, by omega, by omega, by omega, by omega, suffix⟩

/-- There is one nominee at most for each end. -/
theorem found_marks (d : Dictionary) (rtext : AcPattern → Option Bytes) (h t : Bytes) :
    Found (d.marks rtext h t) := by
  rw [marks, nominees, List.map_filterMap]
  apply List.Pairwise.filterMap _ _ List.pairwise_lt_range
  intro i j before m hm n hn
  obtain ⟨_, here, rfl⟩ := Option.map_eq_some_iff.mp hm
  obtain ⟨_, there, rfl⟩ := Option.map_eq_some_iff.mp hn
  obtain ⟨_, _, rfl⟩ := Option.map_eq_some_iff.mp here
  obtain ⟨_, _, rfl⟩ := Option.map_eq_some_iff.mp there
  change h.length + i + 1 < h.length + j + 1
  omega

end Dictionary

variable {mp : Mpool} {path : Nat → Bytes} {d : Dictionary} {rtext : AcPattern → Option Bytes}
variable {h t : Bytes} {nom : MfReplacementNominee}

theorem Finalized.start_of_nominee (fin : Finalized mp path d)
    (mem : nom ∈ d.nominees rtext h t) :
    h.length ≤ nom.start + (path (mp.stateAfter h)).length := by
  obtain ⟨entry, _, covers, _, inside, ends, suffix⟩ := Dictionary.nominee_spec mem
  rw [List.length_append] at ends
  by_cases late : h.length ≤ nom.start
  · omega
  · -- The pattern begins with the rest of `h` from the start of the nominee on.
    have begun : h.drop nom.start <+: nom.pattern.ptext := by
      obtain ⟨front, parts⟩ := suffix
      have lengths := congrArg List.length parts
      rw [List.length_append, List.length_take, List.length_append] at lengths
      rw [List.take_append, List.take_of_length_le (Nat.le_of_lt inside)] at parts
      have dropped := congrArg (List.drop nom.start) parts
      rw [List.drop_left' (by omega),
        List.drop_append_of_le_length (Nat.le_of_not_le late)] at dropped
      exact ⟨_, dropped.symm⟩
    obtain ⟨more, joined⟩ := begun
    have isPath : IsPath mp path (h.drop nom.start) := by
      apply fin.labelling.prefixClosed.of_append more
      rw [joined]
      exact fin.present _ entry
    have longest := (fin.labelling.stateAfter_spec h).2
    have bound := (longest.max _ (List.drop_suffix _ _) isPath).length_le
    rw [List.length_drop] at bound
    omega

/-- Where a search was left, and what its client made of the matches. -/
def SearchExit.left {σ : Type} : SearchExit σ → Nat × Nat × σ
  | .broken position current user => (position, current, user)
  | .ended position current user => (position, current, user)

/-- The callback of `ac_trie_search` that books the patterns of a match. -/
def bookMatch {κ : Type} (rtext : AcPattern → Option Bytes) (matchp : AcMatch)
    (rd : MfReplacementData κ) : MfReplacementData κ :=
  rd.bookNominee (matchp.patterns.foldl (bookLonger rtext) none) matchp.position

/-- The loop of `multifast_replace` is the loop of `ac_trie_search` with a callback that books
what the bookmarks say. -/
theorem replaceLoop_eq_searchLoop {κ : Type} (rtext : AcPattern → Option Bytes)
    {toBeReplaced : Bookmarks}
    (booked : ∀ n, (mp.node n).final = true →
      toBeReplaced n = (mp.node n).matched.foldl (bookLonger rtext) none)
    (basePosition : Nat) (instr : Bytes) (fuel positionR current : Nat)
    (rd : MfReplacementData κ) :
    ReplaceTrie.replaceLoop mp toBeReplaced basePosition instr fuel positionR current rd =
      (AcTrie.searchLoop mp basePosition instr (fun m rd => (bookMatch rtext m rd, false)) fuel
        positionR current rd).map SearchExit.left := by
  induction fuel generalizing positionR current rd with
  | zero => rfl
  | succ fuel ih =>
      rw [ReplaceTrie.replaceLoop, AcTrie.searchLoop]
      cases instr[positionR]? with
      | none => rfl
      | some alpha =>
          dsimp only
          cases (mp.node current).findNextBs alpha with
          | error fault => rfl
          | ok next =>
              cases next with
              | none =>
                  cases failure : (mp.node current).failureNode with
                  | none => exact ih _ _ _
                  | some f => exact ih _ _ _
              | some next =>
                  simp only [bind, Except.bind]
                  by_cases final : (mp.node next).final = true
                  · rw [if_pos final, if_pos final, booked next final, Nat.add_comm basePosition]
                    exact ih _ _ _
                  · rw [if_neg final, if_neg final]
                    exact ih _ _ _

namespace ReplaceTrie

variable {κ : Type} {thiz : ReplaceTrie κ} {instr : Bytes} {rd : MfReplacementData κ}

/-- A finalized trie whose bookmarks are those of its dictionary. -/
structure Ready (thiz : ReplaceTrie κ) (path : Nat → Bytes) (d : Dictionary) : Prop where
  trieOpen : thiz.trie.trieOpen = false
  root : thiz.trie.root = 0
  finalized : Finalized thiz.trie.nodes path d
  listed : Listed thiz.trie.nodes path d
  spelled : Spelled thiz.trie.nodes path d
  booked : ∀ n < thiz.trie.nodes.length,
    thiz.toBeReplaced n = d.replaceable thiz.rtext (path n)

/-- The bookmark of a final node is the first pattern it lists that has a replacement. -/
theorem Ready.toBeReplaced_eq (ready : thiz.Ready path d) {n : Nat}
    (final : (thiz.trie.nodes.node n).final = true) :
    thiz.toBeReplaced n =
      (thiz.trie.nodes.node n).matched.foldl (bookLonger thiz.rtext) none := by
  have valid : n < thiz.trie.nodes.length := by
    by_contra outside
    have none : thiz.trie.nodes.node n = nodeInit := by
      simp [Mpool.node, List.getElem?_eq_none (Nat.le_of_not_lt outside)]
    rw [none] at final
    cases final
  rw [ready.booked n valid, ready.listed valid]
  exact (foldl_bookLonger (d.pairwise_ending _)).symm

theorem foldl_bookMatch (d : Dictionary) (rtext : AcPattern → Option Bytes) (h t : Bytes)
    (rd : MfReplacementData κ) :
    (d.occurrences h h.length t).foldl (fun rd m => bookMatch rtext m rd) rd =
      rd.bookEach (d.nominees rtext h t) := by
  rw [Dictionary.occurrences, MfReplacementData.bookEach, Dictionary.nominees, List.foldl_filterMap,
    List.foldl_filterMap]
  congr 1
  funext rd i
  have chosen : (d.ending (h ++ t.take (i + 1))).foldl (bookLonger rtext) none = _ :=
    foldl_bookLonger (d.pairwise_ending _)
  by_cases none : d.ending (h ++ t.take (i + 1)) = []
  · rw [if_pos none, Dictionary.replaceable, none]
    rfl
  · rw [if_neg none]
    change rd.bookNominee (List.foldl _ _ _) _ = _
    rw [chosen, Dictionary.replaceable]
    cases (d.ending (h ++ t.take (i + 1))).find? fun q => (rtext q).isSome <;> rfl

/-- The main loop reads the chunk, ends on the node of the whole text and books the nominees. -/
theorem Ready.replaceLoop_spec (ready : thiz.Ready path d) (h instr : Bytes)
    (rd : MfReplacementData κ) :
    replaceLoop thiz.trie.nodes thiz.toBeReplaced h.length instr
        (2 * instr.length + thiz.trie.nodes.length + 1) 0 (thiz.trie.nodes.stateAfter h) rd =
      .ok (instr.length, thiz.trie.nodes.stateAfter (h ++ instr),
        rd.bookEach (d.nominees thiz.rtext h instr)) := by
  have lab := ready.finalized.labelling
  have inside := (lab.stateAfter_spec h).1
  have depth := lab.path_length_le inside
  have enough : 2 * (instr.length - 0) + (path (thiz.trie.nodes.stateAfter h)).length <
      2 * instr.length + thiz.trie.nodes.length + 1 := by omega
  have ran := AcTrie.searchLoop_eq_scan ready.finalized h.length
    (fun m rd => (bookMatch thiz.rtext m rd, false)) rd (List.drop_zero (l := instr)) enough
  have same : AcMatch.shift h.length (0 + h.length) = id := by
    rw [Nat.zero_add]
    exact funext (AcMatch.shift_self h.length)
  simp only [same, id] at ran
  rw [replaceLoop_eq_searchLoop thiz.rtext (fun n final => ready.toBeReplaced_eq final),
    ran, Mpool.scan_all, ready.finalized.reports_eq ready.listed, foldl_bookMatch, Nat.zero_add]
  rfl

end ReplaceTrie

end Multifast
