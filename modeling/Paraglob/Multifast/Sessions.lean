import Paraglob.Multifast.Replacement

/-!
# Replacement sessions

A session begins on a fresh trie and ends when it is flushed for good. In between,
the trie stands for what was read, for the marks that were chosen, and for the
position up to which everything is decided. The file proves what one call of
`multifast_replace` and of `multifast_rep_flush` does to this, and from that what
any sequence of calls does. What can go wrong depends on the text and the chunks
alone: the undecided text does not fit into the backlog, or a chunk decides about
some nominees in front of a larger number of others, which are then moved onto
themselves.
-/

namespace Multifast

open LongestSuffix Substitution

namespace ReplaceTrie

variable {κ : Type} {thiz : ReplaceTrie κ}

/-- Hand patterns with their fields `rtext` to the trie one after the other, whatever it
answers. -/
def addEach (thiz : ReplaceTrie κ) (patts : List (AcPattern × Option Bytes)) : ReplaceTrie κ :=
  patts.foldl (fun thiz patt => (thiz.add patt.1 patt.2).2) thiz

/-- Those of the patterns for which `ac_trie_add` returns success. -/
def added (thiz : ReplaceTrie κ) :
    List (AcPattern × Option Bytes) → List (AcPattern × Option Bytes)
  | [] => []
  | patt :: rest =>
      if (thiz.add patt.1 patt.2).1 = .success then patt :: (thiz.add patt.1 patt.2).2.added rest
      else (thiz.add patt.1 patt.2).2.added rest

/-- The replacement texts that are not null. -/
def replacements (patts : List (AcPattern × Option Bytes)) : List (AcPattern × Bytes) :=
  patts.filterMap fun patt => patt.2.map (Prod.mk patt.1)

theorem add_eq (thiz : ReplaceTrie κ) (patt : AcPattern) (rtext : Option Bytes) :
    (thiz.add patt rtext).1 = (thiz.trie.add patt).1 ∧
      (thiz.add patt rtext).2.trie = (thiz.trie.add patt).2 ∧
      (thiz.add patt rtext).2.rtexts = thiz.rtexts ++
        (if (thiz.trie.add patt).1 = .success then replacements [(patt, rtext)] else []) ∧
      (thiz.add patt rtext).2.toBeReplaced = thiz.toBeReplaced ∧
      (thiz.add patt rtext).2.repdata = thiz.repdata := by
  rw [add]
  by_cases accepted : (thiz.trie.add patt).1 = .success
  · simp only [if_pos accepted, true_and, and_true]
    cases rtext <;> rfl
  · simp only [if_neg accepted, true_and, and_true]
    exact (List.append_nil _).symm

theorem addEach_eq (thiz : ReplaceTrie κ) (patts : List (AcPattern × Option Bytes)) :
    (thiz.addEach patts).trie = thiz.trie.addEach (patts.map Prod.fst) ∧
      (thiz.added patts).map Prod.fst = thiz.trie.added (patts.map Prod.fst) ∧
      (thiz.addEach patts).rtexts = thiz.rtexts ++ replacements (thiz.added patts) ∧
      (thiz.addEach patts).toBeReplaced = thiz.toBeReplaced ∧
      (thiz.addEach patts).repdata = thiz.repdata := by
  induction patts generalizing thiz with
  | nil => exact ⟨rfl, rfl, (List.append_nil _).symm, rfl, rfl⟩
  | cons patt patts ih =>
      obtain ⟨status, trie, rtexts, toBeReplaced, repdata⟩ := thiz.add_eq patt.1 patt.2
      obtain ⟨trie', accepted, rtexts', toBeReplaced', repdata'⟩ :=
        ih (thiz.add patt.1 patt.2).2
      refine ⟨?_, ?_, ?_, toBeReplaced'.trans toBeReplaced, repdata'.trans repdata⟩
      · exact trie'.trans (congrArg (AcTrie.addEach · _) trie)
      · rw [trie] at accepted
        rw [added, List.map_cons, AcTrie.added, status]
        split
        · exact congrArg (patt.1 :: ·) accepted
        · exact accepted
      · refine rtexts'.trans ?_
        rw [rtexts, added, status, List.append_assoc]
        congr 1
        split
        · exact List.filterMap_append.symm
        · rfl

/-- Patterns are known by their search texts, so each keeps the replacement it came with. -/
theorem lookup_replacements {patts : List (AcPattern × Option Bytes)}
    (distinct : (patts.map Prod.fst).Nodup) (q : AcPattern) (r : Bytes) :
    (replacements patts).lookup q = some r ↔ (q, some r) ∈ patts := by
  induction patts with
  | nil => simp [replacements]
  | cons patt patts ih =>
      obtain ⟨patt, rtext⟩ := patt
      obtain ⟨fresh, distinct⟩ := List.nodup_cons.mp distinct
      have rest := ih distinct
      by_cases same : q = patt
      · subst same
        have absent : ∀ r, (q, r) ∉ patts := by
          intro r mem
          exact fresh (List.mem_map.mpr ⟨_, mem, rfl⟩)
        cases rtext with
        | none =>
            have none : replacements ((q, none) :: patts) = replacements patts := rfl
            simp [none, rest, absent]
        | some text =>
            have first : replacements ((q, some text) :: patts) =
              (q, text) :: replacements patts := rfl
            simp [first, absent, eq_comm]
      · have other : (replacements ((patt, rtext) :: patts)).lookup q =
            (replacements patts).lookup q := by
          cases rtext with
          | none => rfl
          | some text =>
              have apart : (q == patt) = false := beq_eq_false_iff_ne.mpr same
              change List.lookup q ((patt, text) :: _) = _
              rw [List.lookup_cons, apart]
              rfl
        rw [other, rest]
        simp [same]

/-- The dictionary of a new trie that was fed with the patterns. -/
def dictionary (patts : List (AcPattern × Option Bytes)) : Dictionary :=
  Dictionary.empty.insertEach (patts.map Prod.fst)

/-- Finalizing a new trie that was fed with any patterns books what its dictionary says. -/
theorem finalize_addEach (patts : List (AcPattern × Option Bytes)) :
    ∃ (thiz : ReplaceTrie κ) (path : Nat → Bytes), (create.addEach patts).finalize = .ok thiz ∧
      thiz.Ready path (dictionary patts) ∧
      thiz.rtexts = replacements ((create : ReplaceTrie κ).added patts) ∧
      thiz.trie.lastNode = 0 ∧ thiz.trie.basePosition = 0 ∧
      thiz.repdata = { MfReplacementData.init with
        hasReplacement := UInt32.ofNat ((dictionary patts).beginnings.countP fun s =>
          ((dictionary patts).replaceable thiz.rtext s).isSome) } := by
  let d := dictionary patts
  obtain ⟨trie, accepted, rtexts, toBeReplaced, repdata⟩ :=
    addEach_eq (create : ReplaceTrie κ) patts
  obtain ⟨path, opened, spelled, entries⟩ :=
    AcTrie.open_create.addEach_spelled AcTrie.spelled_create (patts.map Prod.fst)
  obtain ⟨trie', ran, closed, listed, spelled', _⟩ := opened.finalize_spelled spelled
  let thiz := (create : ReplaceTrie κ).addEach patts
  obtain ⟨booked, walked, bookmarks⟩ :=
    closed.finalized.bookReplacements_spec listed thiz.rtext fun n _ =>
      Or.inl (congrFun toBeReplaced n)
  have counted : ((List.range trie'.nodes.length).countP fun n =>
      (d.replaceable thiz.rtext (path n)).isSome) =
        d.beginnings.countP fun s => (d.replaceable thiz.rtext s).isSome := by
    have order := spelled'.perm_beginnings closed.finalized.labelling closed.finalized.present
    exact List.countP_map.symm.trans
      (order.countP_eq fun s => (d.replaceable thiz.rtext s).isSome)
  rw [← closed.root] at walked
  let thiz' : ReplaceTrie κ := { thiz with
    trie := trie', toBeReplaced := booked
    repdata := { thiz.repdata with
      hasReplacement := UInt32.ofNat ((List.range trie'.nodes.length).countP fun n =>
        (d.replaceable thiz.rtext (path n)).isSome) } }
  refine ⟨thiz', path, ?_, ⟨closed.trieOpen, closed.root, closed.finalized, listed, spelled',
    bookmarks⟩, rtexts, closed.lastNode.trans rfl, closed.basePosition, ?_⟩
  · rw [finalize, trie]
    have nothing : ¬ (thiz.repdata.buffer ≠ [] ∨ thiz.repdata.backlog ≠ []) := by
      rw [show thiz.repdata = .init from repdata]
      simp [MfReplacementData.init]
    refine (bind_of_ok ran _).trans ((bind_of_ok walked _).trans ?_)
    exact if_neg fun both => nothing both.2
  · simp only [thiz', counted, show thiz.repdata = .init from repdata]
    rfl

theorem entries_dictionary (patts : List (AcPattern × Option Bytes)) :
    (dictionary patts).entries = ((create : ReplaceTrie κ).added patts).map Prod.fst := by
  obtain ⟨_, accepted, _⟩ := addEach_eq (create : ReplaceTrie κ) patts
  obtain ⟨_, _, _, entries⟩ :=
    AcTrie.open_create.addEach_spelled AcTrie.spelled_create (patts.map Prod.fst)
  exact entries.trans accepted.symm

theorem lookup_added (patts : List (AcPattern × Option Bytes)) (q : AcPattern) (r : Bytes) :
    (replacements ((create : ReplaceTrie κ).added patts)).lookup q = some r ↔
      (q, some r) ∈ (create : ReplaceTrie κ).added patts := by
  apply lookup_replacements
  rw [← entries_dictionary]
  exact (dictionary patts).distinct.of_map _

end ReplaceTrie

namespace Dictionary

/-- The position up to which everything is decided after the chunk, when it was `cut` before. -/
def nextCut (d : Dictionary) (h : Bytes) (cut : Nat) (instr : Bytes) : Nat :=
  let pending := (d.pending (h ++ instr)).length
  if pending ≤ instr.length then (h ++ instr).length - pending else cut

/-- How a chunk makes `multifast_replace` fail, when `marks` are chosen after it was scanned: by the
nominees it consumes and those it leaves, or by the text that is still undecided. -/
def chunkFault (d : Dictionary) (h : Bytes) (marks : List (Mark UInt8)) (cut : Nat)
    (instr : Bytes) : Option Fault :=
  let cut' := d.nextCut h cut instr
  (crowding (begunIn cut cut' marks) (begunFrom cut' marks)).or
    (if (h ++ instr).length - cut' ≤ acPatternMaxLength then none else some .outOfBounds)

end Dictionary

namespace MfReplacementData

variable {κ : Type} {rd rd' : MfReplacementData κ} {rtext : AcPattern → Option Bytes}
variable {before h instr : Bytes} {marks : List (Mark UInt8)} {cut toPosition : Nat}

/-- Everything that is decided was written: the text up to `cut`, with the marks replaced that
begin in it. -/
def Written (rd : MfReplacementData κ) (rtext : AcPattern → Option Bytes) (before h : Bytes)
    (marks : List (Mark UInt8)) (cut : Nat) : Prop :=
  ∃ consumed, rd.Booked rtext marks consumed cut ∧
    rd.output = before ++ copied h 0 consumed cut

/-- The callback was called with full buffers only. -/
def Delivers (rd : MfReplacementData κ) (callback : κ) (rd' : MfReplacementData κ) : Prop :=
  ∃ blocks : List Bytes, rd'.delivered = rd.delivered ++ blocks.map (Prod.mk callback) ∧
    ∀ block ∈ blocks, block.length = mfReplacementBufferSize

theorem Delivers.refl (rd : MfReplacementData κ) (callback : κ) : rd.Delivers callback rd :=
  ⟨[], (List.append_nil _).symm, by simp⟩

theorem Delivers.trans {rd'' : MfReplacementData κ} {callback : κ}
    (first : rd.Delivers callback rd') (second : rd'.Delivers callback rd'') :
    rd.Delivers callback rd'' := by
  obtain ⟨blocks, delivered, full⟩ := first
  obtain ⟨blocks', delivered', full'⟩ := second
  refine ⟨blocks ++ blocks', ?_, ?_⟩
  · rw [delivered', delivered, List.append_assoc, List.map_append]
  · intro block mem
    exact (List.mem_append.mp mem).elim (full block) (full' block)

theorem Appends.delivers {text : Bytes} {callback : κ} (appends : Appends rd text rd')
    (callable : rd.cbf = some callback) : rd.Delivers callback rd' := by
  obtain ⟨calls, delivered, full⟩ := appends.full
  have same : ∀ call ∈ calls, Prod.mk callback call.2 = call := by
    intro call mem
    have := (full call mem).1
    rw [callable, Option.some.injEq] at this
    exact Prod.ext this rfl
  refine ⟨calls.map Prod.snd, ?_, ?_⟩
  · rw [delivered, List.map_map, Function.comp_def, List.map_congr_left same, List.map_id']
  · intro block mem
    obtain ⟨call, there, rfl⟩ := List.mem_map.mp mem
    exact (full call there).2

theorem Booked.nothing (noms : rd.noms = []) (curser : rd.curser = 0) :
    rd.Booked rtext [] [] 0 where
  split := by rw [noms]; rfl
  early := by simp
  late := by simp
  curser := curser
  sorted := List.Pairwise.nil
  proper := by simp
  replaced := by simp [noms]

theorem Written.congr (written : rd.Written rtext before h marks cut) (noms : rd'.noms = rd.noms)
    (curser : rd'.curser = rd.curser) (output : rd'.output = rd.output) :
    rd'.Written rtext before h marks cut := by
  obtain ⟨consumed, booked, out⟩ := written
  exact ⟨consumed, ⟨noms ▸ booked.split, booked.early, noms ▸ booked.late, curser ▸ booked.curser,
    booked.sorted, booked.proper, noms ▸ booked.replaced⟩, output.trans out⟩

/-- Marks that begin in front of `cut` do not look at the text behind it. -/
theorem Written.append (written : rd.Written rtext before h marks cut) (le : cut ≤ h.length)
    (t : Bytes) : rd.Written rtext before (h ++ t) marks cut := by
  obtain ⟨consumed, booked, output⟩ := written
  refine ⟨consumed, booked, ?_⟩
  rw [copied_append_text _ le]
  · exact output
  · intro m hm
    exact Nat.le_of_lt (Nat.lt_of_lt_of_le (booked.early m hm) le)

theorem Written.bookEach (written : rd.Written rtext before h marks cut)
    {noms : List MfReplacementNominee}
    (new : ∀ nom ∈ noms, cut ≤ nom.start ∧ nom.start < nom.position ∧ (rtext nom.pattern).isSome)
    (ordered : Found (noms.map (·.mark rtext)))
    (behind : ∀ m ∈ marks, ∀ nom ∈ noms, m.stop < nom.position) :
    (rd.bookEach noms).Written rtext before h
      ((noms.map (·.mark rtext)).foldl rd.replaceMode.book marks) cut := by
  obtain ⟨consumed, booked, output⟩ := written
  refine ⟨consumed, booked.bookEach_spec new ordered behind, ?_⟩
  rw [bookEach_eq]
  exact output

/-- Nominees are kept in the order of their starts, so those that begin late are together at the
end. -/
theorem Booked.le_start_of_mem_dropWhile {consumed : List (Mark UInt8)}
    (booked : rd.Booked rtext marks consumed cut) {nom : MfReplacementNominee}
    (mem : nom ∈ rd.noms.dropWhile fun nom => nom.start < toPosition) : toPosition ≤ nom.start := by
  have sorted : rd.noms.Pairwise fun m n => m.start < n.start := by
    have all := booked.sorted
    rw [booked.split] at all
    exact (List.pairwise_map.mp (List.pairwise_append.mp all).2.1).imp fun both => both.1
  cases rest : rd.noms.dropWhile fun nom => nom.start < toPosition with
  | nil => simp [rest] at mem
  | cons first others =>
      have sublist : (first :: others).Sublist rd.noms := rest ▸ List.dropWhile_sublist _
      have stopped := List.head?_dropWhile_not (fun nom => decide (nom.start < toPosition)) rd.noms
      rw [rest] at mem stopped
      have start : toPosition ≤ first.start := by simpa using stopped
      cases List.mem_cons.mp mem with
      | inl here => exact here ▸ start
      | inr later =>
          have := (List.pairwise_cons.mp (sorted.sublist sublist)).1 nom later
          omega

theorem max_reached {consumed front : List (Mark UInt8)} (le : cut ≤ toPosition) :
    max (reached (max (reached 0 consumed) cut) front) toPosition =
      max (reached 0 (consumed ++ front)) toPosition := by
  rw [reached_append]
  by_cases none : front = []
  · rw [none]
    change max (max (reached 0 consumed) cut) toPosition = max (reached 0 consumed) toPosition
    omega
  · rw [reached_eq_of_ne_nil none (max (reached 0 consumed) cut) (reached 0 consumed)]

theorem Booked.length_takeWhile {consumed : List (Mark UInt8)}
    (booked : rd.Booked rtext marks consumed cut) :
    (rd.noms.takeWhile fun nom => nom.start < toPosition).length = begunIn cut toPosition marks := by
  have old : begunIn cut toPosition consumed = 0 := by
    rw [begunIn, List.countP_eq_zero]
    intro m hm
    have := booked.early m hm
    rw [decide_eq_true_eq]
    omega
  have front : ∀ nom ∈ rd.noms.takeWhile fun nom => nom.start < toPosition,
      cut ≤ nom.start ∧ nom.start < toPosition := by
    intro nom mem
    have begins := List.mem_takeWhile_imp mem
    exact ⟨booked.late nom ((List.takeWhile_sublist _).mem mem), of_decide_eq_true begins⟩
  have rest : ∀ nom ∈ rd.noms.dropWhile fun nom => nom.start < toPosition,
      ¬ (cut ≤ nom.start ∧ nom.start < toPosition) := fun nom mem both =>
    Nat.not_lt.mpr (booked.le_start_of_mem_dropWhile mem) both.2
  have split : begunIn cut toPosition marks =
      rd.noms.countP fun nom => cut ≤ nom.start ∧ nom.start < toPosition := by
    rw [booked.split, begunIn, List.countP_append, List.countP_map]
    exact (congrArg (· + _) old).trans (Nat.zero_add _)
  rw [split, ← List.takeWhile_append_dropWhile (p := fun nom => nom.start < toPosition)
    (l := rd.noms), List.countP_append, List.countP_eq_length.mpr (by simpa using front),
    List.countP_eq_zero.mpr (by simpa using rest), List.takeWhile_append_dropWhile, Nat.add_zero]

theorem Booked.length_dropWhile {consumed : List (Mark UInt8)}
    (booked : rd.Booked rtext marks consumed cut) (le : cut ≤ toPosition) :
    (rd.noms.dropWhile fun nom => nom.start < toPosition).length = begunFrom toPosition marks := by
  have old : begunFrom toPosition consumed = 0 := by
    rw [begunFrom, List.countP_eq_zero]
    intro m hm
    have := booked.early m hm
    rw [decide_eq_true_eq]
    omega
  have front : ∀ nom ∈ rd.noms.takeWhile fun nom => nom.start < toPosition,
      ¬ toPosition ≤ nom.start := by
    intro nom mem
    have begins := List.mem_takeWhile_imp mem
    exact Nat.not_le.mpr (of_decide_eq_true begins)
  have rest : ∀ nom ∈ rd.noms.dropWhile fun nom => nom.start < toPosition,
      toPosition ≤ nom.start := fun nom mem => booked.le_start_of_mem_dropWhile mem
  have split : begunFrom toPosition marks = rd.noms.countP fun nom => toPosition ≤ nom.start := by
    rw [booked.split, begunFrom, List.countP_append, List.countP_map]
    exact (congrArg (· + _) old).trans (Nat.zero_add _)
  rw [split, ← List.takeWhile_append_dropWhile (p := fun nom => nom.start < toPosition)
    (l := rd.noms), List.countP_append, List.countP_eq_zero.mpr (by simpa using front),
    List.countP_eq_length.mpr (by simpa using rest), List.takeWhile_append_dropWhile, Nat.zero_add]

/-- Deciding about the text up to a position of the chunk writes it, and uses up the backlog. -/
theorem Written.doReplace_spec (written : rd.Written rtext before h marks cut)
    (loaded : rd.Loaded h cut) (late : h.length ≤ toPosition)
    (inside : toPosition ≤ (h ++ instr).length) :
    match crowding (begunIn cut toPosition marks) (begunFrom toPosition marks) with
    | some fault => rd.doReplace rtext (some instr) h.length toPosition = .error fault
    | none =>
      ∃ rd' noms curser text, rd.doReplace rtext (some instr) h.length toPosition = .ok rd' ∧
        rd'.Written rtext before (h ++ instr) marks toPosition ∧
        Appends { rd with noms, curser, backlog := [] } text rd' := by
  have le := loaded.le
  obtain ⟨consumed, booked, output⟩ := written.append le instr
  have behind : cut ≤ rd.curser := booked.curser ▸ Nat.le_max_right _ _
  have nominees : ∀ nom ∈ rd.noms, (rtext nom.pattern).isSome ∧ cut ≤ nom.position := by
    intro nom mem
    have mark : nom.mark rtext ∈ marks :=
      booked.split ▸ List.mem_append_right _ (List.mem_map_of_mem mem)
    have start := booked.late nom mem
    have whole : nom.start < nom.position := booked.proper _ mark
    exact ⟨booked.replaced nom mem, by omega⟩
  have replaced := loaded.doReplace_spec behind late inside nominees
  dsimp only at replaced
  rw [booked.length_takeWhile, booked.length_dropWhile (le.trans late)] at replaced
  cases crowded : crowding (begunIn cut toPosition marks) (begunFrom toPosition marks) with
  | some fault =>
      rw [crowded] at replaced
      exact replaced
  | none =>
      rw [crowded] at replaced
      obtain ⟨rd', ran, appends⟩ := replaced
      let front := (rd.noms.takeWhile fun nom => nom.start < toPosition).map (·.mark rtext)
      have noms : rd'.noms = rd.noms.dropWhile fun nom => nom.start < toPosition := appends.noms
      refine ⟨rd', _, _, _, ran, ⟨consumed ++ front, ?_, ?_⟩, appends⟩
      · refine ⟨?_, ?_, ?_, ?_, booked.sorted, booked.proper, ?_⟩
        · rw [noms, List.append_assoc, ← List.map_append, List.takeWhile_append_dropWhile]
          exact booked.split
        · intro m hm
          cases List.mem_append.mp hm with
          | inl old => exact Nat.lt_of_lt_of_le (booked.early m old) (le.trans late)
          | inr new =>
              obtain ⟨nom, taken, rfl⟩ := List.mem_map.mp new
              have front := List.mem_takeWhile_imp taken
              exact of_decide_eq_true front
        · intro nom mem
          exact booked.le_start_of_mem_dropWhile (noms ▸ mem)
        · refine Eq.trans appends.curser ?_
          change max (reached rd.curser front) toPosition = _
          rw [booked.curser]
          exact max_reached (le.trans late)
        · intro nom mem
          rw [noms] at mem
          exact booked.replaced nom ((List.dropWhile_sublist _).mem mem)
      · have parts : copied (h ++ instr) 0 (consumed ++ front) toPosition =
            copied (h ++ instr) 0 consumed cut ++
              copied (h ++ instr) rd.curser front toPosition := by
          rw [booked.curser]
          apply copied_append _ (le.trans late)
          intro m hm
          obtain ⟨nom, taken, rfl⟩ := List.mem_map.mp hm
          exact booked.late nom ((List.takeWhile_sublist _).mem taken)
        rw [parts, ← List.append_assoc, ← output]
        exact appends.output

/-- What happens after the chunk was scanned, when its last `pending` letters may belong to a
pattern that goes on. When they are more than the chunk, nothing is decided. -/
theorem Written.settle_spec {callback : κ} {pending : Nat}
    (written : rd.Written rtext before h marks cut) (loaded : rd.Loaded h cut)
    (callable : rd.cbf = some callback) (le : pending ≤ (h ++ instr).length) :
    let bgPos := (h ++ instr).length - pending
    let cut' := if pending ≤ instr.length then bgPos else cut
    match crowding (begunIn cut cut' marks) (begunFrom cut' marks) with
    | some fault => rd.doReplace rtext (some instr) h.length bgPos = .error fault
    | none =>
      ∃ rd', rd.doReplace rtext (some instr) h.length bgPos = .ok rd' ∧
        rd'.saveToBacklog instr h.length bgPos =
          (if (h ++ instr).length - cut' ≤ acPatternMaxLength then
            .ok { rd' with backlog := (h ++ instr).drop cut' }
          else .error .outOfBounds) ∧
        rd'.Written rtext before (h ++ instr) marks cut' ∧
        rd'.buffer.length < mfReplacementBufferSize ∧ rd'.cbf = some callback ∧
        rd'.hasReplacement = rd.hasReplacement ∧ rd.Delivers callback rd' := by
  intro bgPos cut'
  have size : (h ++ instr).length = h.length + instr.length := List.length_append
  by_cases short : pending ≤ instr.length
  · have late : h.length ≤ bgPos := by omega
    have inside : bgPos ≤ (h ++ instr).length := Nat.sub_le _ _
    have same : cut' = bgPos := if_pos short
    have replaced := written.doReplace_spec loaded late inside
    rw [same]
    cases crowded : crowding (begunIn cut bgPos marks) (begunFrom bgPos marks) with
    | some fault =>
        rw [crowded] at replaced
        exact replaced
    | none =>
        rw [crowded] at replaced
        obtain ⟨rd', noms, curser, text, ran, written', appends⟩ := replaced
        exact ⟨rd', ran, saveToBacklog_of_le appends.backlog late inside, written', appends.room,
          appends.cbf.trans callable, appends.hasReplacement, appends.delivers callable⟩
  · have early : bgPos < h.length := by omega
    have same : cut' = cut := if_neg short
    rw [same, begunIn_self, crowding_zero]
    exact ⟨rd, if_pos early, loaded.saveToBacklog_of_lt early, written.append loaded.le instr,
      loaded.room, callable, rfl, .refl rd callback⟩

theorem Written.noms_eq_nil (written : rd.Written rtext before (h ++ instr) marks h.length)
    (stops : ∀ m ∈ marks, m.stop ≤ h.length) : rd.noms = [] := by
  obtain ⟨consumed, booked, _⟩ := written
  rw [List.eq_nil_iff_forall_not_mem]
  intro nom mem
  have mark : nom.mark rtext ∈ marks :=
    booked.split ▸ List.mem_append_right _ (List.mem_map_of_mem mem)
  have stop : nom.position ≤ h.length := stops _ mark
  have whole : nom.start < nom.position := booked.proper _ mark
  have := booked.late nom mem
  omega

theorem Written.output_eq (written : rd.Written rtext before (h ++ instr) marks h.length)
    (stops : ∀ m ∈ marks, m.stop ≤ h.length) : rd.output = before ++ substitute h marks := by
  have none := written.noms_eq_nil stops
  obtain ⟨consumed, booked, output⟩ := written
  have all : marks = consumed := by rw [booked.split, none, List.map_nil, List.append_nil]
  rw [output, ← all, copied_append_text _ (Nat.le_refl _)]
  · rfl
  · intro m hm
    exact Nat.le_of_lt (Nat.lt_of_lt_of_le (booked.proper m hm) (stops m hm))

end MfReplacementData

namespace ReplaceTrie

variable {κ : Type} {thiz : ReplaceTrie κ} {path : Nat → Bytes} {d : Dictionary}
variable {before h : Bytes} {marks : List (Mark UInt8)} {cut : Nat}

theorem rtext_congr {thiz' : ReplaceTrie κ} (rtexts : thiz'.rtexts = thiz.rtexts) :
    thiz'.rtext = thiz.rtext := funext fun q => congrArg (List.lookup q) rtexts

theorem Ready.congr {thiz' : ReplaceTrie κ} (ready : thiz.Ready path d)
    (nodes : thiz'.trie.nodes = thiz.trie.nodes) (root : thiz'.trie.root = thiz.trie.root)
    (trieOpen : thiz'.trie.trieOpen = thiz.trie.trieOpen) (rtexts : thiz'.rtexts = thiz.rtexts)
    (toBeReplaced : thiz'.toBeReplaced = thiz.toBeReplaced) : thiz'.Ready path d where
  trieOpen := trieOpen.trans ready.trieOpen
  root := root.trans ready.root
  finalized := nodes ▸ ready.finalized
  listed := nodes ▸ ready.listed
  spelled := nodes ▸ ready.spelled
  booked := by
    rw [nodes, toBeReplaced, rtext_congr rtexts]
    exact ready.booked

/-- A replacement between two calls. The text `h` was read, the marks of it were chosen, and it is
decided up to `cut`. Other sessions have put out `before`. -/
structure Session (thiz : ReplaceTrie κ) (path : Nat → Bytes) (d : Dictionary) (before h : Bytes)
    (marks : List (Mark UInt8)) (cut : Nat) : Prop where
  ready : thiz.Ready path d
  replacing : thiz.repdata.hasReplacement ≠ 0
  lastNode : thiz.trie.lastNode = thiz.trie.nodes.stateAfter h
  basePosition : thiz.trie.basePosition = h.length
  text : thiz.repdata.cbf ≠ none → thiz.trie.text ≠ none
  room : thiz.repdata.buffer.length < mfReplacementBufferSize
  backlog : thiz.repdata.backlog = h.drop cut
  fits : thiz.repdata.backlog.length ≤ acPatternMaxLength
  decided : cut + (d.pending h).length ≤ h.length
  stops : ∀ m ∈ marks, m.stop ≤ h.length
  written : thiz.repdata.Written thiz.rtext before h marks cut

theorem Ready.session (ready : thiz.Ready path d) (replacing : thiz.repdata.hasReplacement ≠ 0)
    (lastNode : thiz.trie.lastNode = 0) (basePosition : thiz.trie.basePosition = 0)
    (text : thiz.repdata.cbf ≠ none → thiz.trie.text ≠ none)
    (fresh : thiz.repdata.reset = thiz.repdata) :
    thiz.Session path d (thiz.repdata.delivered.flatMap Prod.snd) [] [] 0 := by
  have buffer : thiz.repdata.buffer = [] := by rw [← fresh]; rfl
  have backlog : thiz.repdata.backlog = [] := by rw [← fresh]; rfl
  have noms : thiz.repdata.noms = [] := by rw [← fresh]; rfl
  have curser : thiz.repdata.curser = 0 := by rw [← fresh]; rfl
  refine ⟨ready, replacing, lastNode, basePosition, text, ?_, backlog, ?_, Nat.le_refl 0, by simp,
    [], .nothing noms curser, ?_⟩
  · rw [buffer]
    exact Nat.zero_lt_succ _
  · rw [backlog]
    exact Nat.zero_le _
  · rw [MfReplacementData.output, buffer]
    rfl

theorem Session.output_eq (session : thiz.Session path d before [] [] 0) :
    thiz.repdata.output = before := by
  obtain ⟨consumed, booked, output⟩ := session.written
  have none : consumed = [] := List.append_eq_nil_iff.mp booked.split.symm |>.1
  rw [output, none]
  exact List.append_nil _

theorem Session.bookEach_spec (session : thiz.Session path d before h marks cut) (instr : Bytes)
    {rd : MfReplacementData κ} (written : rd.Written thiz.rtext before h marks cut) :
    (rd.bookEach (d.nominees thiz.rtext h instr)).Written thiz.rtext before h
      ((d.marks thiz.rtext h instr).foldl rd.replaceMode.book marks) cut := by
  apply written.bookEach _ (d.found_marks thiz.rtext h instr)
  · intro m hm nom mem
    obtain ⟨_, _, _, _, behind, _⟩ := Dictionary.nominee_spec mem
    exact Nat.lt_of_le_of_lt (session.stops m hm) behind
  · intro nom mem
    obtain ⟨_, replaced, _, proper, _⟩ := Dictionary.nominee_spec mem
    have start := session.ready.finalized.start_of_nominee mem
    have decided := session.decided
    rw [session.ready.finalized.path_stateAfter session.ready.spelled] at start
    exact ⟨by omega, proper, replaced⟩

theorem Session.settle_spec (session : thiz.Session path d before h marks cut) (instr : Bytes)
    (mode : MfReplaceMode) (callback : κ) :
    let marks' := (d.marks thiz.rtext h instr).foldl mode.book marks
    let cut' := d.nextCut h cut instr
    let current := thiz.trie.nodes.stateAfter (h ++ instr)
    let bgPos := sizeSub (h.length + instr.length) (thiz.trie.nodes.node current).depth
    ∃ rd₁,
      replaceLoop thiz.trie.nodes thiz.toBeReplaced h.length instr
          (2 * instr.length + thiz.trie.nodes.length + 1) 0 thiz.trie.lastNode
          { thiz.repdata with cbf := some callback, replaceMode := mode } =
        .ok (instr.length, current, rd₁) ∧
      match crowding (begunIn cut cut' marks') (begunFrom cut' marks') with
      | some fault => rd₁.doReplace thiz.rtext (some instr) h.length bgPos = .error fault
      | none =>
        ∃ rd₂, rd₁.doReplace thiz.rtext (some instr) h.length bgPos = .ok rd₂ ∧
          rd₂.saveToBacklog instr h.length bgPos =
            (if (h ++ instr).length - cut' ≤ acPatternMaxLength then
              .ok { rd₂ with backlog := (h ++ instr).drop cut' }
            else .error .outOfBounds) ∧
          rd₂.Written thiz.rtext before (h ++ instr) marks' cut' ∧
          rd₂.buffer.length < mfReplacementBufferSize ∧ rd₂.cbf = some callback ∧
          rd₂.hasReplacement = thiz.repdata.hasReplacement ∧
          thiz.repdata.Delivers callback rd₂ := by
  intro marks' cut' current bgPos
  have ready := session.ready
  have lab := ready.finalized.labelling
  let rd : MfReplacementData κ := { thiz.repdata with cbf := some callback, replaceMode := mode }
  let rd₁ := rd.bookEach (d.nominees thiz.rtext h instr)
  have rd₁_eq : rd₁ = { rd with noms := rd₁.noms } := rd.bookEach_eq _
  have le : cut ≤ h.length := (Nat.le_add_right _ _).trans session.decided
  have begun : rd.Written thiz.rtext before h marks cut := session.written.congr rfl rfl rfl
  have written : rd₁.Written thiz.rtext before h marks' cut := session.bookEach_spec instr begun
  have loaded : rd₁.Loaded h cut := by
    rw [rd₁_eq]
    exact ⟨⟨callback, rfl⟩, session.room, session.backlog, session.fits, le⟩
  have callable : rd₁.cbf = some callback := by rw [rd₁_eq]
  obtain ⟨suffix, _⟩ := d.pending_spec (h ++ instr)
  have settled := written.settle_spec loaded callable suffix.length_le
  have scanned := ready.replaceLoop_spec h instr rd
  have depth : (thiz.trie.nodes.node current).depth = (d.pending (h ++ instr)).length := by
    rw [lab.depth (lab.stateAfter_spec _).1, ready.finalized.path_stateAfter ready.spelled]
  have position : bgPos = (h ++ instr).length - (d.pending (h ++ instr)).length := by
    change sizeSub _ _ = _
    rw [depth, ← List.length_append]
    exact sizeSub_of_le suffix.length_le
  rw [session.lastNode, position]
  refine ⟨rd₁, scanned, ?_⟩
  change match crowding (begunIn cut cut' marks') (begunFrom cut' marks') with
    | some fault => _
    | none => _ at settled
  cases crowded : crowding (begunIn cut cut' marks') (begunFrom cut' marks') with
  | some fault =>
      rw [crowded] at settled
      exact settled
  | none =>
      rw [crowded] at settled
      obtain ⟨rd₂, replaced, saved, written₂, room, callable₂, count, delivers⟩ := settled
      refine ⟨rd₂, replaced, saved, written₂, room, callable₂, ?_, ?_⟩
      · rw [count, rd₁_eq]
      · obtain ⟨blocks, delivered, full⟩ := delivers
        rw [rd₁_eq] at delivered
        exact ⟨blocks, delivered, full⟩

/-- What a chunk does to a session, unless it fails. -/
theorem Session.multifastReplace_spec (session : thiz.Session path d before h marks cut)
    (instr : Bytes) (mode : MfReplaceMode) (callback : κ) :
    let marks' := (d.marks thiz.rtext h instr).foldl mode.book marks
    match d.chunkFault h marks' cut instr with
    | some fault => thiz.multifastReplace instr mode callback = .error fault
    | none =>
      ∃ thiz', thiz.multifastReplace instr mode callback = .ok (0, thiz') ∧
        thiz'.Session path d before (h ++ instr) marks' (d.nextCut h cut instr) ∧
        thiz'.rtexts = thiz.rtexts ∧ thiz'.repdata.cbf = some callback ∧
        thiz.repdata.Delivers callback thiz'.repdata := by
  intro marks'
  have ready := session.ready
  obtain ⟨rd₁, scanned, settled⟩ := session.settle_spec instr mode callback
  obtain ⟨suffix, _⟩ := d.pending_spec (h ++ instr)
  let bgPos := sizeSub (h.length + instr.length)
    (thiz.trie.nodes.node (thiz.trie.nodes.stateAfter (h ++ instr))).depth
  have ran : thiz.multifastReplace instr mode callback =
      (rd₁.doReplace thiz.rtext (some instr) h.length bgPos >>= fun rd₂ =>
        rd₂.saveToBacklog instr h.length bgPos >>= fun rd₃ =>
        .ok (0, { thiz with
          trie := { thiz.trie with
            text := some instr, lastNode := thiz.trie.nodes.stateAfter (h ++ instr)
            basePosition := h.length + instr.length }
          repdata := rd₃ })) := by
    rw [multifastReplace, ready.trieOpen, if_neg Bool.false_ne_true, if_neg session.replacing]
    simp only [session.basePosition]
    exact bind_of_ok scanned _
  rw [ran, Dictionary.chunkFault]
  cases crowded : crowding (begunIn cut (d.nextCut h cut instr) marks')
      (begunFrom (d.nextCut h cut instr) marks') with
  | some fault =>
      rw [crowded] at settled
      exact bind_of_error settled _
  | none =>
      rw [crowded] at settled
      obtain ⟨rd₂, replaced, saved, written₂, room, callable₂, count, delivers⟩ := settled
      rw [bind_of_ok replaced, Option.none_or]
      by_cases fits : (h ++ instr).length - d.nextCut h cut instr ≤ acPatternMaxLength
      · have stops : ∀ m ∈ marks', m.stop ≤ (h ++ instr).length := by
          intro m hm
          cases mem_foldl_book hm with
          | inl old =>
              have := session.stops m old
              rw [List.length_append]
              omega
          | inr new =>
              obtain ⟨nom, mem, rfl⟩ := List.mem_map.mp new
              obtain ⟨_, _, _, _, _, inside, _⟩ := Dictionary.nominee_spec mem
              exact inside
        have decided :
          d.nextCut h cut instr + (d.pending (h ++ instr)).length ≤ (h ++ instr).length := by
          have before := session.decided
          have shrinks := d.pending_append_length_le h instr
          have inside := suffix.length_le
          rw [Dictionary.nextCut]
          split
          · exact Nat.le_of_eq (Nat.sub_add_cancel inside)
          · rw [List.length_append]
            omega
        rw [if_pos fits] at saved ⊢
        refine ⟨_, bind_of_ok saved _, ?_, rfl, callable₂, delivers⟩
        refine ⟨ready.congr rfl rfl rfl rfl rfl, ?_, rfl, List.length_append.symm,
          fun _ => Option.some_ne_none _, room, rfl, ?_, decided, stops,
          written₂.congr rfl rfl rfl⟩
        · exact count ▸ session.replacing
        · change ((h ++ instr).drop (d.nextCut h cut instr)).length ≤ _
          rw [List.length_drop]
          exact fits
      · rw [if_neg fits] at saved ⊢
        exact bind_of_error saved _

theorem flush_of_some {rd : MfReplacementData κ} {callback : κ}
    (callable : rd.cbf = some callback) :
    rd.flush = .ok { rd with
      delivered := rd.delivered ++ [(callback, rd.buffer)], buffer := [] } := by
  rw [MfReplacementData.flush, callable]

theorem Session.multifastRepFlush_keep (session : thiz.Session path d before h marks cut)
    {callback : κ} (callable : thiz.repdata.cbf = some callback) :
    ∃ thiz', thiz.multifastRepFlush true = .ok thiz' ∧ thiz'.Session path d before h marks cut ∧
      thiz'.rtexts = thiz.rtexts ∧ thiz'.repdata.cbf = some callback ∧
      thiz'.repdata.delivered = thiz.repdata.delivered ++ [(callback, thiz.repdata.buffer)] := by
  let rd : MfReplacementData κ := { thiz.repdata with
    delivered := thiz.repdata.delivered ++ [(callback, thiz.repdata.buffer)], buffer := [] }
  have output : rd.output = thiz.repdata.output := by simp [MfReplacementData.output, rd]
  refine ⟨{ thiz with repdata := rd }, bind_of_ok (flush_of_some callable) _, ?_, rfl, callable,
    rfl⟩
  exact ⟨session.ready.congr rfl rfl rfl rfl rfl, session.replacing, session.lastNode,
    session.basePosition, session.text, Nat.zero_lt_succ _, session.backlog, session.fits,
    session.decided, session.stops, session.written.congr rfl rfl output⟩

theorem Session.finish_spec (session : thiz.Session path d before h marks cut) {callback : κ}
    (callable : thiz.repdata.cbf = some callback) :
    ∃ rd noms curser out text, thiz.trie.text = some text ∧
      thiz.repdata.doReplace thiz.rtext thiz.trie.text thiz.trie.basePosition
        thiz.trie.basePosition = .ok rd ∧
      rd.Written thiz.rtext before (h ++ text) marks h.length ∧
      MfReplacementData.Appends { thiz.repdata with noms, curser, backlog := [] } out rd := by
  obtain ⟨text, loadedText⟩ := Option.ne_none_iff_exists'.mp
    (session.text (callable ▸ Option.some_ne_none callback))
  have le : cut ≤ h.length := (Nat.le_add_right _ _).trans session.decided
  have loaded : thiz.repdata.Loaded h cut :=
    ⟨⟨callback, callable⟩, session.room, session.backlog, session.fits, le⟩
  have replaced := session.written.doReplace_spec loaded (Nat.le_refl h.length)
    (show h.length ≤ (h ++ text).length by rw [List.length_append]; exact Nat.le_add_right _ _)
  -- All marks begin in what was read, and no more of it is undecided than the backlog holds.
  obtain ⟨consumed, booked, _⟩ := session.written
  have few := booked.sorted.begunIn_le cut h.length
  have fits := session.fits
  rw [session.backlog, List.length_drop] at fits
  have none : begunFrom h.length marks = 0 := by
    rw [begunFrom, List.countP_eq_zero]
    intro m hm
    have := booked.proper m hm
    have := session.stops m hm
    rw [decide_eq_true_eq]
    omega
  have size : acPatternMaxLength = 1024 := rfl
  rw [none, crowding_of_le (by omega) (Nat.zero_le _)] at replaced
  obtain ⟨rd, noms, curser, out, ran, written, appends⟩ := replaced
  rw [← loadedText, ← session.basePosition] at ran
  exact ⟨rd, noms, curser, out, text, loadedText, ran, written, appends⟩

/-- The last flush writes the rest of the text, hands it over and ends the session. -/
theorem Session.multifastRepFlush_spec (session : thiz.Session path d before h marks cut)
    {callback : κ} (callable : thiz.repdata.cbf = some callback) :
    ∃ thiz' last, thiz.multifastRepFlush false = .ok thiz' ∧
      thiz'.Session path d (before ++ substitute h marks) [] [] 0 ∧
      thiz'.rtexts = thiz.rtexts ∧ thiz'.repdata.cbf = some callback ∧
      thiz'.repdata.buffer = [] ∧ last.length < mfReplacementBufferSize ∧
      ∃ rd, thiz.repdata.Delivers callback rd ∧
        thiz'.repdata.delivered = rd.delivered ++ [(callback, last)] := by
  obtain ⟨rd, noms, curser, out, text, loadedText, ran, written, appends⟩ :=
    session.finish_spec callable
  have output := written.output_eq session.stops
  have callable' : rd.cbf = some callback := appends.cbf.trans callable
  let thiz' : ReplaceTrie κ := { thiz with
    trie := { thiz.trie with lastNode := thiz.trie.root, basePosition := 0 }
    repdata := { rd with
      delivered := rd.delivered ++ [(callback, rd.buffer)]
      buffer := [], backlog := [], curser := 0, noms := [] } }
  have ready : thiz'.Ready path d := session.ready.congr rfl rfl rfl rfl rfl
  have replacing : thiz'.repdata.hasReplacement ≠ 0 := appends.hasReplacement ▸ session.replacing
  have begun := ready.session replacing session.ready.root rfl
    (fun _ => loadedText ▸ Option.some_ne_none text) rfl
  have whole : thiz'.repdata.delivered.flatMap Prod.snd = before ++ substitute h marks := by
    rw [← output]
    simp [thiz', MfReplacementData.output]
  refine ⟨thiz', rd.buffer, ?_, whole ▸ begun, rfl, callable', rfl, appends.room, rd,
    appends.delivers callable, rfl⟩
  exact (bind_of_ok ran _).trans (bind_of_ok (flush_of_some callable') _)

/-- A finalized trie that has replacements and was not used yet is ready for a session. -/
theorem session_of_finalize {patts : List (AcPattern × Option Bytes)}
    (built : ((create : ReplaceTrie κ).addEach patts).finalize = .ok thiz)
    (replacing : thiz.repdata.hasReplacement ≠ 0) :
    ∃ path, thiz.Session path (dictionary patts) [] [] [] 0 ∧ thiz.repdata.delivered = [] ∧
      thiz.rtexts = replacements ((create : ReplaceTrie κ).added patts) := by
  obtain ⟨thiz', path, ran, ready, rtexts, lastNode, base, repdata⟩ :=
    finalize_addEach (κ := κ) patts
  obtain rfl := Except.ok.inj (ran.symm.trans built)
  have nothing : thiz'.repdata.delivered = [] := by rw [repdata]; rfl
  have unset : thiz'.repdata.cbf = none := by rw [repdata]; rfl
  have fresh : thiz'.repdata.reset = thiz'.repdata := by rw [repdata]; rfl
  have session := ready.session replacing lastNode base (fun called => absurd unset called) fresh
  rw [nothing] at session
  exact ⟨path, session, nothing, rtexts⟩

end ReplaceTrie

end Multifast
