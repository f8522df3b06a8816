import Paraglob.Multifast.Flushes

/-!
# Searching and replacing on one trie

A trie keeps one node and one position for all its clients. A search that is over
leaves them where it ended, and so does a search that was given up, or a replacement
that was not flushed. The file shows that one call of `ac_trie_settext` with `keep = 0`
makes up for any history.
-/

namespace Multifast

open LongestSuffix Substitution

namespace AcTrie

variable {thiz thiz' thiz'' : AcTrie} {σ : Type}

/-- Two tries differ in their saved search states at most. -/
structure Alike (thiz thiz' : AcTrie) : Prop where
  nodes : thiz'.nodes = thiz.nodes
  root : thiz'.root = thiz.root
  patternsCount : thiz'.patternsCount = thiz.patternsCount
  trieOpen : thiz'.trieOpen = thiz.trieOpen
  wm : thiz'.wm = thiz.wm

theorem Alike.refl (thiz : AcTrie) : thiz.Alike thiz := ⟨rfl, rfl, rfl, rfl, rfl⟩

theorem Alike.trans (first : thiz.Alike thiz') (second : thiz'.Alike thiz'') :
    thiz.Alike thiz'' where
  nodes := second.nodes.trans first.nodes
  root := second.root.trans first.root
  patternsCount := second.patternsCount.trans first.patternsCount
  trieOpen := second.trieOpen.trans first.trieOpen
  wm := second.wm.trans first.wm

theorem alike_started (thiz : AcTrie) (keep : Bool) :
    thiz.Alike (if keep then thiz else thiz.reset) := by
  cases keep <;> exact ⟨rfl, rfl, rfl, rfl, rfl⟩

theorem alike_setText (thiz : AcTrie) (text : Bytes) (keep : Bool) :
    thiz.Alike (thiz.setText text keep) := by
  cases keep <;> exact ⟨rfl, rfl, rfl, rfl, rfl⟩

theorem alike_of_search {text : Option Bytes} {keep : Bool} {callback : AcMatch → σ → σ × Bool}
    {user user' : σ} {code : Int}
    (returns : thiz.search text keep callback user = .ok (code, thiz', user')) :
    thiz.Alike thiz' := by
  have started := thiz.alike_started keep
  rw [search] at returns
  by_cases opened : thiz.trieOpen
  · rw [if_pos opened] at returns
    cases returns
    exact .refl thiz
  · rw [if_neg opened] at returns
    cases text with
    | none => cases returns
    | some text =>
        obtain ⟨exit, _, rest⟩ := exists_of_bind_eq_ok returns
        cases exit with
        | broken position current user =>
            by_cases wm : (if keep then thiz else thiz.reset).wm = .findnext
            · simp only [if_pos wm] at rest
              cases rest
              exact started.trans ⟨rfl, rfl, rfl, rfl, rfl⟩
            · simp only [if_neg wm] at rest
              cases rest
              exact started
        | ended position current user =>
            cases rest
            exact started.trans ⟨rfl, rfl, rfl, rfl, rfl⟩

theorem alike_of_findNext (wm : thiz.wm = .search) {m : AcMatch}
    (returns : thiz.findNext = .ok (m, thiz')) : thiz.Alike thiz' := by
  obtain ⟨⟨code, searched, user⟩, ran, rest⟩ := exists_of_bind_eq_ok returns
  cases rest
  have found := alike_of_search ran
  exact ⟨found.nodes, found.root, found.patternsCount, found.trieOpen, wm.symm⟩

theorem Alike.setText_eq (alike : thiz.Alike thiz') (text : Bytes) :
    thiz'.setText text false = thiz.setText text false := by
  obtain ⟨nodes, root, patternsCount, trieOpen, wm⟩ := alike
  simp only [setText, Bool.false_eq_true, if_false, reset, nodes, root, patternsCount, trieOpen, wm]

end AcTrie

namespace MfReplacementData

variable {κ : Type} {rd rd' : MfReplacementData κ}

theorem count_of_flush (returns : rd.flush = .ok rd') : rd'.hasReplacement = rd.hasReplacement := by
  rw [flush] at returns
  cases called : rd.cbf with
  | none =>
      rw [called] at returns
      cases returns
  | some callback =>
      rw [called] at returns
      cases returns
      rfl

theorem count_of_appendLoop {fuel : Nat} {text : Bytes}
    (returns : appendLoop fuel rd text = .ok rd') : rd'.hasReplacement = rd.hasReplacement := by
  induction fuel generalizing rd text with
  | zero => cases returns
  | succ fuel ih =>
      rw [appendLoop] at returns
      by_cases done : text.length = 0
      · rw [if_pos done] at returns
        cases returns
        rfl
      · rw [if_neg done] at returns
        dsimp only at returns
        generalize (if sizeSub mfReplacementBufferSize rd.buffer.length ≥ text.length then
          text.length else sizeSub mfReplacementBufferSize rd.buffer.length) = copyLen at returns
        split at returns
        · obtain ⟨rd₁, flushed, rest⟩ := exists_of_bind_eq_ok returns
          have same := count_of_flush flushed
          exact (ih rest).trans same
        · obtain ⟨rd₁, kept, rest⟩ := exists_of_bind_eq_ok returns
          cases kept
          have same := ih rest
          exact same

theorem count_of_appendText {text : Bytes} (returns : rd.appendText text = .ok rd') :
    rd'.hasReplacement = rd.hasReplacement := count_of_appendLoop returns

theorem count_of_appendFactor {instr : Option Bytes} {basePosition fromPos toPos : Nat}
    (returns : rd.appendFactor instr basePosition fromPos toPos = .ok rd') :
    rd'.hasReplacement = rd.hasReplacement := by
  unfold appendFactor at returns
  split at returns
  · cases returns
    rfl
  · split at returns
    · cases instr with
      | none => cases returns
      | some instr =>
          obtain ⟨factor, _, rest⟩ := exists_of_bind_eq_ok returns
          exact count_of_appendText rest
    · dsimp only at returns
      split at returns
      · cases returns
        rfl
      · split at returns
        · obtain ⟨factor, _, rest⟩ := exists_of_bind_eq_ok returns
          exact count_of_appendText rest
        · obtain ⟨factor, _, rest⟩ := exists_of_bind_eq_ok returns
          obtain ⟨rd₁, first, rest⟩ := exists_of_bind_eq_ok rest
          cases instr with
          | none => cases rest
          | some instr =>
              obtain ⟨factor', _, rest⟩ := exists_of_bind_eq_ok rest
              exact (count_of_appendText rest).trans (count_of_appendText first)

theorem count_of_consumeNominees {rtext : AcPattern → Option Bytes} {instr : Option Bytes}
    {basePosition toPosition index index' : Nat} {noms left : List MfReplacementNominee}
    (returns : consumeNominees rtext instr basePosition toPosition index noms rd =
      .ok (index', left, rd')) : rd'.hasReplacement = rd.hasReplacement := by
  induction noms generalizing rd index with
  | nil =>
      cases returns
      rfl
  | cons nom noms ih =>
      rw [consumeNominees] at returns
      split at returns
      · cases returns
        rfl
      · obtain ⟨rd₁, first, rest⟩ := exists_of_bind_eq_ok returns
        cases replaced : rtext nom.pattern with
        | none =>
            rw [replaced] at rest
            cases rest
        | some text =>
            rw [replaced] at rest
            obtain ⟨rd₂, second, rest⟩ := exists_of_bind_eq_ok rest
            split at rest
            · cases rest
            · exact (ih rest).trans
                ((count_of_appendText second).trans (count_of_appendFactor first))

theorem count_of_doReplace {rtext : AcPattern → Option Bytes} {instr : Option Bytes}
    {basePosition toPosition : Nat}
    (returns : rd.doReplace rtext instr basePosition toPosition = .ok rd') :
    rd'.hasReplacement = rd.hasReplacement := by
  rw [doReplace] at returns
  split at returns
  · cases returns
    rfl
  · obtain ⟨⟨index, left, rd₁⟩, consumed, rest⟩ := exists_of_bind_eq_ok returns
    obtain ⟨noms, _, rest⟩ := exists_of_bind_eq_ok rest
    have begun := count_of_consumeNominees consumed
    dsimp only at rest
    split at rest
    · obtain ⟨rd₂, factor, rest⟩ := exists_of_bind_eq_ok rest
      obtain ⟨rd₃, moved, rest⟩ := exists_of_bind_eq_ok rest
      cases moved
      have middle := count_of_appendFactor factor
      split at rest <;> cases rest <;> exact middle.trans begun
    · obtain ⟨rd₃, kept, rest⟩ := exists_of_bind_eq_ok rest
      cases kept
      split at rest <;> cases rest <;> exact begun

theorem count_of_saveToBacklog {instr : Bytes} {basePosition bgPos : Nat}
    (returns : rd.saveToBacklog instr basePosition bgPos = .ok rd') :
    rd'.hasReplacement = rd.hasReplacement := by
  rw [saveToBacklog] at returns
  generalize (if basePosition < bgPos then bgPos - basePosition else 0) = bgPosR at returns
  split at returns
  · cases returns
    rfl
  · split at returns
    · cases returns
      rfl
    · split at returns
      · cases returns
        rfl
      · cases returns

theorem count_bookNominee (rd : MfReplacementData κ) (pattern : Option AcPattern)
    (position : Nat) : (rd.bookNominee pattern position).hasReplacement = rd.hasReplacement := by
  cases pattern with
  | none => rfl
  | some pattern =>
      have booked := rd.bookNominee_eq ⟨pattern, position⟩
      rw [booked]

end MfReplacementData

namespace ReplaceTrie

variable {κ : Type} {thiz thiz' thiz'' start : ReplaceTrie κ}

theorem count_of_replaceLoop {nodes : Mpool} {toBeReplaced : Bookmarks} {instr : Bytes}
    {basePosition fuel positionR current stopped last : Nat} {rd rd' : MfReplacementData κ}
    (returns : replaceLoop nodes toBeReplaced basePosition instr fuel positionR current rd =
      .ok (stopped, last, rd')) : rd'.hasReplacement = rd.hasReplacement := by
  induction fuel generalizing positionR current rd with
  | zero => cases returns
  | succ fuel ih =>
      rw [replaceLoop] at returns
      split at returns
      · cases returns
        rfl
      · obtain ⟨found, _, rest⟩ := exists_of_bind_eq_ok returns
        cases found with
        | none =>
            dsimp only at rest
            split at rest <;> exact ih rest
        | some next =>
            dsimp only at rest
            split at rest
            · exact (ih rest).trans (MfReplacementData.count_bookNominee rd _ _)
            · exact ih rest

/-- Two tries differ in their saved search states and in what is being replaced at most. -/
structure Kept (start thiz : ReplaceTrie κ) : Prop where
  trie : start.trie.Alike thiz.trie
  rtexts : thiz.rtexts = start.rtexts
  toBeReplaced : thiz.toBeReplaced = start.toBeReplaced
  hasReplacement : thiz.repdata.hasReplacement = start.repdata.hasReplacement

theorem Kept.refl (thiz : ReplaceTrie κ) : thiz.Kept thiz := ⟨.refl _, rfl, rfl, rfl⟩

theorem Kept.trans (first : thiz.Kept thiz') (second : thiz'.Kept thiz'') : thiz.Kept thiz'' where
  trie := first.trie.trans second.trie
  rtexts := second.rtexts.trans first.rtexts
  toBeReplaced := second.toBeReplaced.trans first.toBeReplaced
  hasReplacement := second.hasReplacement.trans first.hasReplacement

theorem kept_setText (thiz : ReplaceTrie κ) (text : Bytes) (keep : Bool) :
    thiz.Kept (thiz.setText text keep) := by
  refine ⟨AcTrie.alike_setText _ _ _, rfl, rfl, ?_⟩
  cases keep <;> rfl

theorem kept_of_search {σ : Type} {text : Option Bytes} {keep : Bool}
    {callback : AcMatch → σ → σ × Bool} {user user' : σ} {code : Int}
    (returns : thiz.search text keep callback user = .ok (code, thiz', user')) :
    thiz.Kept thiz' := by
  obtain ⟨⟨code, trie, user⟩, ran, rest⟩ := exists_of_bind_eq_ok returns
  have alike := AcTrie.alike_of_search ran
  dsimp only at rest
  split at rest <;> cases rest <;> exact ⟨alike, rfl, rfl, rfl⟩

theorem kept_of_findNext (wm : thiz.trie.wm = .search) {m : AcMatch}
    (returns : thiz.findNext = .ok (m, thiz')) : thiz.Kept thiz' := by
  obtain ⟨⟨result, trie⟩, ran, rest⟩ := exists_of_bind_eq_ok returns
  cases rest
  exact ⟨AcTrie.alike_of_findNext wm ran, rfl, rfl, rfl⟩

theorem kept_of_multifastReplace {instr : Bytes} {mode : MfReplaceMode} {callback : κ} {code : Int}
    (returns : thiz.multifastReplace instr mode callback = .ok (code, thiz')) :
    thiz.Kept thiz' := by
  rw [multifastReplace] at returns
  split at returns
  · cases returns
    exact .refl thiz
  · split at returns
    · cases returns
      exact .refl thiz
    · obtain ⟨⟨stopped, last, rd₁⟩, scanned, rest⟩ := exists_of_bind_eq_ok returns
      obtain ⟨rd₂, replaced, rest⟩ := exists_of_bind_eq_ok rest
      obtain ⟨rd₃, saved, rest⟩ := exists_of_bind_eq_ok rest
      cases rest
      have first := count_of_replaceLoop scanned
      have second := MfReplacementData.count_of_doReplace replaced
      have third := MfReplacementData.count_of_saveToBacklog saved
      exact ⟨⟨rfl, rfl, rfl, rfl, rfl⟩, rfl, rfl, third.trans (second.trans first)⟩

theorem kept_of_multifastRepFlush {keep : Bool}
    (returns : thiz.multifastRepFlush keep = .ok thiz') : thiz.Kept thiz' := by
  cases keep with
  | false =>
      obtain ⟨rd₁, replaced, rest⟩ := exists_of_bind_eq_ok returns
      obtain ⟨rd₂, flushed, rest⟩ := exists_of_bind_eq_ok rest
      cases rest
      have first := MfReplacementData.count_of_doReplace replaced
      have second := MfReplacementData.count_of_flush flushed
      exact ⟨⟨rfl, rfl, rfl, rfl, rfl⟩, rfl, rfl, second.trans first⟩
  | true =>
      have only : (thiz.repdata.flush >>= fun rd => .ok { thiz with repdata := rd }) = .ok thiz' :=
        returns
      obtain ⟨rd₁, flushed, rest⟩ := exists_of_bind_eq_ok only
      cases rest
      exact ⟨.refl _, rfl, rfl, MfReplacementData.count_of_flush flushed⟩

/-- What clients make of a trie with the calls that search and replace, as long as these return. -/
inductive Used (start : ReplaceTrie κ) : ReplaceTrie κ → Prop
  | start : Used start start
  | setText {thiz : ReplaceTrie κ} (text : Bytes) (keep : Bool) (used : Used start thiz) :
      Used start (thiz.setText text keep)
  | search {thiz thiz' : ReplaceTrie κ} {σ : Type} {text : Option Bytes} {keep : Bool}
      {callback : AcMatch → σ → σ × Bool} {user user' : σ} {code : Int} (used : Used start thiz)
      (returns : thiz.search text keep callback user = .ok (code, thiz', user')) : Used start thiz'
  | findNext {thiz thiz' : ReplaceTrie κ} {m : AcMatch} (used : Used start thiz)
      (returns : thiz.findNext = .ok (m, thiz')) : Used start thiz'
  | replace {thiz thiz' : ReplaceTrie κ} {instr : Bytes} {mode : MfReplaceMode} {callback : κ}
      {code : Int} (used : Used start thiz)
      (returns : thiz.multifastReplace instr mode callback = .ok (code, thiz')) : Used start thiz'
  | flush {thiz thiz' : ReplaceTrie κ} {keep : Bool} (used : Used start thiz)
      (returns : thiz.multifastRepFlush keep = .ok thiz') : Used start thiz'

/-- No use of a trie changes more than the state that the next call sets. -/
theorem Used.kept (used : start.Used thiz) (wm : start.trie.wm = .search) : start.Kept thiz := by
  induction used with
  | start => exact .refl start
  | setText text keep _ ih => exact ih.trans (kept_setText _ text keep)
  | search _ returns ih => exact ih.trans (kept_of_search returns)
  | findNext _ returns ih => exact ih.trans (kept_of_findNext (ih.trie.wm.trans wm) returns)
  | replace _ returns ih => exact ih.trans (kept_of_multifastReplace returns)
  | flush _ returns ih => exact ih.trans (kept_of_multifastRepFlush returns)

variable {patts : List (AcPattern × Option Bytes)} {path : Nat → Bytes} {d : Dictionary}

theorem wm_of_finalize (built : (create.addEach patts).finalize = .ok start) :
    start.trie.wm = .search := by
  obtain ⟨trie, _⟩ := addEach_eq (create : ReplaceTrie κ) patts
  obtain ⟨trie', finalized, rest⟩ := exists_of_bind_eq_ok built
  obtain ⟨_, _, rest⟩ := exists_of_bind_eq_ok rest
  rw [trie] at finalized
  dsimp only at rest
  split at rest
  · cases rest
  cases rest
  obtain ⟨closed', _, _, again, closed, _⟩ := AcTrie.finalize_addEach (patts.map Prod.fst)
  obtain rfl := Except.ok.inj (again.symm.trans finalized)
  exact closed.wm

/-- A new text begins a session on any trie that was kept. -/
theorem Ready.session_setText (ready : start.Ready path d)
    (replacing : start.repdata.hasReplacement ≠ 0) (kept : start.Kept thiz) (text : Bytes) :
    (thiz.setText text false).Session path d
      ((thiz.setText text false).repdata.delivered.flatMap Prod.snd) [] [] 0 := by
  have kept' := kept.trans (thiz.kept_setText text false)
  have ready' := ready.congr kept'.trie.nodes kept'.trie.root kept'.trie.trieOpen kept'.rtexts
    kept'.toBeReplaced
  have replacing' : (thiz.setText text false).repdata.hasReplacement ≠ 0 := by
    rw [kept'.hasReplacement]
    exact replacing
  have root : (thiz.setText text false).trie.lastNode = 0 := kept.trie.root.trans ready.root
  exact ready'.session replacing' root rfl (fun _ => nofun) rfl

/-- Whatever was searched, given up, replaced or not flushed: a new text is read as on an unused
trie. -/
theorem setText_restores (built : (create.addEach patts).finalize = .ok start)
    (replacing : start.repdata.hasReplacement ≠ 0) (used : start.Used thiz) (text : Bytes) :
    (thiz.setText text false).trie = (start.setText text false).trie ∧
      ∀ callback calls, calls ≠ [] →
        ((thiz.setText text false).replaceAll callback calls).map (fun t => t.repdata.delivered) =
          (start.replaceAll callback calls).map fun t =>
            thiz.repdata.delivered ++ t.repdata.delivered := by
  have kept := used.kept (wm_of_finalize built)
  refine ⟨kept.trie.setText_eq text, ?_⟩
  intro callback calls nonempty
  obtain ⟨path, unused, nothing, _⟩ := session_of_finalize built replacing
  have again := unused.ready.session_setText replacing kept text
  have run := again.replaceAll_spec callback nonempty
  have run₁ := replaceAll_run built replacing callback nonempty
  have same : (thiz.setText text false).rtext = start.rtext := rtext_congr kept.rtexts
  rw [same] at run
  cases fails : (dictionary patts).sessionFault start.rtext [] [] 0 calls with
  | some fault =>
      rw [fails] at run run₁
      rw [run, run₁]
      rfl
  | none =>
      rw [fails] at run run₁
      obtain ⟨thiz', blocks, last, ran, _, _, delivered, flat, full, short⟩ := run
      obtain ⟨thiz₁, ran₁, receives⟩ := run₁
      -- The text decides the calls, and the text is the same.
      have calls := receives.unique ⟨blocks, last, rfl, flat, full, short⟩
      have before : (thiz.setText text false).repdata.delivered = thiz.repdata.delivered := rfl
      rw [ran, ran₁, Except.map, Except.map, delivered, before, calls]

/-- A replacement that is given up after `a`, and the text `bc` after it. -/
theorem setText_restores_bc : ∃ start thiz : ReplaceTrie Unit,
    (create.addEach overlapping).finalize = .ok start ∧ start.Used thiz ∧
      thiz.trie.basePosition = 1 ∧
      (thiz.setText [98, 99] false).trie = (start.setText [98, 99] false).trie ∧
      ∀ callback calls, calls ≠ [] →
        ((thiz.setText [98, 99] false).replaceAll callback calls).map
            (fun t => t.repdata.delivered) =
          (start.replaceAll callback calls).map fun t =>
            thiz.repdata.delivered ++ t.repdata.delivered := by
  obtain ⟨start, built, replacing⟩ := replacing_overlapping
  obtain ⟨path, session, _⟩ := session_of_finalize built replacing
  have step := session.multifastReplace_spec [97] .normal ()
  have fault : (dictionary overlapping).chunkFault []
      (((dictionary overlapping).marks start.rtext [] [97]).foldl MfReplaceMode.normal.book []) 0
      [97] = none := by
    rw [rtext_of_finalize built]
    decide
  dsimp only at step
  rw [fault] at step
  obtain ⟨thiz, ran, session', _⟩ := step
  have used : start.Used thiz := .replace .start ran
  obtain ⟨same, replaced⟩ := setText_restores built replacing used [98, 99]
  exact ⟨start, thiz, built, used, session'.basePosition, same, replaced⟩

end ReplaceTrie

end Multifast
