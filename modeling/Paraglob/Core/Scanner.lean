import Paraglob.Core.Splitter

/-!
# The splitter as one scan

The two stages of the splitter move positions around; what they compute is one
scan from left to right. The scan collects a run of literal characters. A
wildcard ends the run, and so does a `[` that has a later `]`, in which case
everything up to the first such `]` is skipped. Runs that are not empty are the
meta words of the pattern.
-/

namespace Glob

/-- The characters that `get_meta_words` searches for. -/
abbrev wildcards : Bytes := [star, question]

/-- A finished run, if it is one. -/
def emit (run : Bytes) : List Bytes := if run = [] then [] else [run]

/-- What follows the first `]`, if there is one. -/
def afterClose : Bytes → Option Bytes
  | [] => none
  | c :: rest => if c = closeBracket then some rest else afterClose rest

theorem afterClose_length {s tail : Bytes} (h : afterClose s = some tail) :
    tail.length < s.length := by
  induction s with
  | nil => cases h
  | cons c s ih =>
      rw [afterClose] at h
      split at h
      · cases h
        exact Nat.lt_succ_self _
      · exact (ih h).trans (Nat.lt_succ_self _)

/-- The scan, with the run that is being collected. -/
def scan (run : Bytes) : Bytes → List Bytes
  | [] => emit run
  | c :: rest =>
      if c ∈ wildcards then emit run ++ scan [] rest
      else if c = openBracket then
        match _h : afterClose rest with
        | some tail => emit run ++ scan [] tail
        | none => scan (run ++ [c]) rest
      else scan (run ++ [c]) rest
termination_by s => s.length
decreasing_by
  all_goals
    simp only [List.length_cons]
    first
      | omega
      | exact (afterClose_length _h).trans (Nat.lt_succ_self _)

/-- The scan of a piece that holds no skipped region. -/
def scanPiece (run : Bytes) : Bytes → List Bytes
  | [] => emit run
  | c :: rest =>
      if c ∈ wildcards then emit run ++ scanPiece [] rest else scanPiece (run ++ [c]) rest

theorem scan_wildcard {run rest : Bytes} {c : UInt8} (wild : c ∈ wildcards) :
    scan run (c :: rest) = emit run ++ scan [] rest := by
  rw [scan, if_pos wild]

theorem scan_region {run rest tail : Bytes} (close : afterClose rest = some tail) :
    scan run (openBracket :: rest) = emit run ++ scan [] tail := by
  rw [scan, if_neg (by decide), if_pos rfl]
  split
  · rename_i tail' close'
    obtain rfl : tail = tail' := Option.some.inj (close.symm.trans close')
    rfl
  · rename_i absent
    exact absurd (close.symm.trans absent) (by simp)

theorem scan_literal {run rest : Bytes} {c : UInt8} (literal : c ∉ wildcards)
    (noRegion : c = openBracket → afterClose rest = none) :
    scan run (c :: rest) = scan (run ++ [c]) rest := by
  rw [scan, if_neg literal]
  split
  · rename_i bracket
    split
    · rename_i tail close
      exact absurd (close.symm.trans (noRegion bracket)) (by simp)
    · rfl
  · rfl

theorem scan_literals {run gap rest : Bytes} (literal : ∀ c ∈ gap, c ∉ wildcards ∧ c ≠ openBracket) :
    scan run (gap ++ rest) = scan (run ++ gap) rest := by
  induction gap generalizing run with
  | nil => rw [List.nil_append, List.append_nil]
  | cons c gap ih =>
      obtain ⟨wild, bracket⟩ := literal c List.mem_cons_self
      rw [List.cons_append, scan_literal wild fun same => absurd same bracket,
        ih fun d hd => literal d (List.mem_cons_of_mem _ hd), List.append_assoc]
      rfl

theorem emit_of_ne {run : Bytes} (nonempty : run ≠ []) : emit run = [run] := if_neg nonempty

theorem ne_nil_of_mem_emit {run w : Bytes} (h : w ∈ emit run) : w ≠ [] := by
  rw [emit] at h
  split at h
  · exact absurd h List.not_mem_nil
  · rename_i nonempty
    rw [List.mem_singleton.mp h]
    exact nonempty

theorem findFirstOf_some {s set : Bytes} {pos : Position s} {i : Fin s.length}
    (h : findFirstOf s set pos = some i) :
    s.drop pos = substr s pos (i - pos) ++ s[i] :: s.drop (i + 1) ∧
      (∀ c ∈ substr s pos (i - pos), c ∉ set) ∧ s[i] ∈ set := by
  have after := le_of_findFirstOf h
  obtain ⟨found, k, hk, same, before⟩ := List.find?_eq_some_iff_getElem.mp h
  simp only [Bool.and_eq_true, decide_eq_true_eq] at found
  rw [List.getElem_finRange] at same
  obtain rfl : k = i.val := congrArg Fin.val same
  refine ⟨?_, ?_, found.2⟩
  · have rest : s.drop i = s[i] :: s.drop (i + 1) := List.drop_eq_getElem_cons i.isLt
    have whole := List.take_append_drop (i - pos) (s.drop pos)
    rw [List.drop_drop, Nat.add_sub_cancel' after, rest] at whole
    exact whole.symm
  · intro c hc
    obtain ⟨k, hk, rfl⟩ := List.mem_take_iff_getElem.mp hc
    have inside : k < i - pos := (Nat.lt_min.mp hk).1
    have skipped := before (pos + k) (by omega)
    simpa using skipped

theorem findFirstOf_none {s set : Bytes} {pos : Position s} (h : findFirstOf s set pos = none) :
    ∀ c ∈ s.drop pos, c ∉ set := by
  intro c hc
  obtain ⟨k, hk, rfl⟩ := List.mem_drop_iff_getElem.mp hc
  have skipped := List.find?_eq_none.mp h ⟨pos + k, by omega⟩ (List.mem_finRange _)
  simpa using skipped

theorem scanPiece_append {run gap : Bytes} (rest : Bytes) (literal : ∀ c ∈ gap, c ∉ wildcards) :
    scanPiece run (gap ++ rest) = scanPiece (run ++ gap) rest := by
  induction gap generalizing run with
  | nil => rw [List.append_nil, List.nil_append]
  | cons c gap ih =>
      have head : c ∉ wildcards := literal c (by simp)
      rw [List.cons_append, scanPiece, if_neg head,
        ih fun d hd => literal d (List.mem_cons_of_mem _ hd), List.append_assoc,
        List.singleton_append]

theorem splitOnWildcardsFrom_some {word : Bytes} {prev : Position word} {pos : Fin word.length}
    (found : findFirstOf word wildcards prev = some pos) :
    splitOnWildcardsFrom word prev =
      emit (substr word prev (pos - prev)) ++ splitOnWildcardsFrom word pos.succ := by
  have size : (substr word prev (pos - prev)).length = pos - prev := by
    simp only [substr, List.length_take, List.length_drop]
    omega
  rw [splitOnWildcardsFrom]
  split
  · rename_i pos' found'
    obtain rfl : pos = pos' := Option.some.inj (found.symm.trans found')
    rw [emit]
    by_cases proper : prev.val < pos.val
    · have nonempty : substr word prev (pos - prev) ≠ [] := by
        rw [← List.length_pos_iff, size]
        omega
      rw [if_pos proper, if_neg nonempty, List.singleton_append]
    · have empty : substr word prev (pos - prev) = [] := by
        rw [← List.length_eq_zero_iff, size]
        omega
      rw [if_neg proper, if_pos empty, List.nil_append]
  · rename_i absent
    exact absurd (found.symm.trans absent) (by simp)

theorem splitOnWildcardsFrom_none {word : Bytes} {prev : Position word}
    (absent : findFirstOf word wildcards prev = none) :
    splitOnWildcardsFrom word prev = emit (word.drop prev) := by
  rw [splitOnWildcardsFrom]
  split
  · rename_i pos found
    exact absurd (absent.symm.trans found) (by simp)
  · rw [emit, substr, List.take_of_length_le (by simp)]
    by_cases more : prev.val < word.length
    · rw [if_pos more, if_neg (mt List.drop_eq_nil_iff.mp (Nat.not_le_of_lt more))]
    · rw [if_neg more, if_pos (List.drop_eq_nil_iff.mpr (Nat.le_of_not_lt more))]

/-- The inner loop of `get_meta_words` is the scan of its piece. -/
theorem splitOnWildcardsFrom_eq (word : Bytes) (prev : Position word) :
    splitOnWildcardsFrom word prev = scanPiece [] (word.drop prev) := by
  induction remaining : word.length - prev using Nat.strongRecOn generalizing prev with
  | ind remaining ih =>
      cases found : findFirstOf word wildcards prev with
      | some pos =>
          obtain ⟨cut, literal, wild⟩ := findFirstOf_some found
          have after := le_of_findFirstOf found
          rw [splitOnWildcardsFrom_some found, cut, scanPiece_append _ literal, scanPiece,
            if_pos wild, List.nil_append, ih _ ?_ pos.succ rfl]
          · rfl
          · rw [Fin.val_succ]
            omega
      | none =>
          have literal := findFirstOf_none found
          rw [splitOnWildcardsFrom_none found, ← List.append_nil (word.drop prev),
            scanPiece_append [] literal, List.append_nil]
          rfl

theorem afterClose_append {gap : Bytes} (rest : Bytes) (closed : ∀ c ∈ gap, c ≠ closeBracket) :
    afterClose (gap ++ closeBracket :: rest) = some rest := by
  induction gap with
  | nil => exact if_pos rfl
  | cons c gap ih =>
      rw [List.cons_append, afterClose, if_neg (closed c (by simp))]
      exact ih fun d hd => closed d (List.mem_cons_of_mem _ hd)

theorem afterClose_eq_none {s : Bytes} (closed : ∀ c ∈ s, c ≠ closeBracket) :
    afterClose s = none := by
  induction s with
  | nil => rfl
  | cons c s ih =>
      rw [afterClose, if_neg (closed c (by simp))]
      exact ih fun d hd => closed d (List.mem_cons_of_mem _ hd)

theorem scan_append {run gap rest tail : Bytes} (outside : ∀ c ∈ gap, c ≠ openBracket)
    (close : afterClose rest = some tail) :
    scan run (gap ++ openBracket :: rest) = scanPiece run gap ++ scan [] tail := by
  induction gap generalizing run with
  | nil => exact scan_region close
  | cons c gap ih =>
      have head : c ≠ openBracket := outside c (by simp)
      have rest' : ∀ d ∈ gap, d ≠ openBracket := fun d hd => outside d (List.mem_cons_of_mem _ hd)
      rw [List.cons_append, scanPiece]
      by_cases wild : c ∈ wildcards
      · rw [if_pos wild, scan_wildcard wild, ih rest', List.append_assoc]
      · rw [if_neg wild, scan_literal wild fun bracket => absurd bracket head, ih rest']

theorem scan_eq_scanPiece {run s : Bytes}
    (noRegion : ∀ front rest, s = front ++ openBracket :: rest → afterClose rest = none) :
    scan run s = scanPiece run s := by
  induction s generalizing run with
  | nil => rw [scan, scanPiece]
  | cons c s ih =>
      have rest : ∀ front rest, s = front ++ openBracket :: rest → afterClose rest = none := by
        intro front rest split
        exact noRegion (c :: front) rest (by rw [split]; rfl)
      rw [scanPiece]
      by_cases wild : c ∈ wildcards
      · rw [if_pos wild, scan_wildcard wild, ih rest]
      · have head : c = openBracket → afterClose s = none := by
          rintro rfl
          exact noRegion [] s rfl
        rw [if_neg wild, scan_literal wild head, ih rest]

theorem afterClose_drop {s : Bytes} {pos : Fin s.length} (bracket : s[pos] = openBracket) :
    afterClose (s.drop (pos + 1)) =
      (findFirstOf s [closeBracket] pos.castSucc).map fun endBracket => s.drop (endBracket + 1) := by
  have here : s.drop pos = openBracket :: s.drop (pos + 1) := by
    rw [List.drop_eq_getElem_cons pos.isLt, ← bracket]
    rfl
  have skip : afterClose (s.drop pos) = afterClose (s.drop (pos + 1)) := by
    rw [here, afterClose, if_neg (by decide)]
  rw [← skip]
  cases found : findFirstOf s [closeBracket] pos.castSucc with
  | none =>
      exact afterClose_eq_none
        fun c hc same => findFirstOf_none found c hc (List.mem_singleton.mpr same)
  | some endBracket =>
      obtain ⟨cut, gap, closing⟩ := findFirstOf_some found
      rw [List.mem_singleton.mp closing] at cut
      rw [Fin.val_castSucc] at cut
      rw [cut]
      exact afterClose_append _ fun c hc same => gap c hc (List.mem_singleton.mpr same)

theorem splitOnWildcards_scan {piece : Bytes}
    (noRegion : ∀ front rest, piece = front ++ openBracket :: rest → afterClose rest = none) :
    splitOnWildcardsFrom piece 0 = scan [] piece := by
  rw [scan_eq_scanPiece noRegion, splitOnWildcardsFrom_eq]
  rfl

/-- When the first `[` has no later `]`, no `[` has. -/
theorem noRegion_of_first {gap rest : Bytes} (outside : ∀ c ∈ gap, c ≠ openBracket)
    (closed : ∀ c ∈ rest, c ≠ closeBracket) (front tail : Bytes)
    (cut : gap ++ openBracket :: rest = front ++ openBracket :: tail) :
    afterClose tail = none := by
  apply afterClose_eq_none
  intro c hc
  cases List.append_eq_append_iff.mp cut with
  | inl longer =>
      obtain ⟨middle, rfl, same⟩ := longer
      cases middle with
      | nil =>
          obtain ⟨_, rfl⟩ := List.cons.inj same
          exact closed c hc
      | cons d middle =>
          obtain ⟨_, rfl⟩ := List.cons.inj same
          exact closed c (by simp [hc])
  | inr shorter =>
      obtain ⟨middle, rfl, same⟩ := shorter
      cases middle with
      | nil =>
          obtain ⟨_, rfl⟩ := List.cons.inj same
          exact closed c hc
      | cons d middle =>
          obtain ⟨rfl, _⟩ := List.cons.inj same
          exact absurd rfl (outside openBracket (by simp))

/-- The pieces of `split_on_brackets`, cut at wildcards, are the runs of one scan. -/
theorem splitOnBracketsFrom_scan (s : Bytes) (prev : Position s) :
    (splitOnBracketsFrom s prev).flatMap (fun word => splitOnWildcardsFrom word 0) =
      scan [] (s.drop prev) := by
  induction remaining : s.length - prev using Nat.strongRecOn generalizing prev with
  | ind remaining ih =>
      have rest : substr s prev (s.length - prev) = s.drop prev := by
        rw [substr, List.take_of_length_le (by simp)]
      rw [splitOnBracketsFrom]
      split
      · rename_i absent
        have outside := findFirstOf_none absent
        rw [List.flatMap_singleton, rest]
        apply splitOnWildcards_scan
        intro front tail cut
        exact absurd (List.mem_singleton.mpr rfl) (outside openBracket (by simp [cut]))
      · rename_i pos found
        obtain ⟨cut, outside, bracket⟩ := findFirstOf_some found
        have region := afterClose_drop (List.mem_singleton.mp bracket)
        have outside' : ∀ c ∈ substr s prev (pos - prev), c ≠ openBracket :=
          fun c hc same => outside c hc (List.mem_singleton.mpr same)
        rw [List.mem_singleton.mp bracket] at cut
        split
        · rename_i absent
          have closed : ∀ c ∈ s.drop (pos + 1), c ≠ closeBracket := by
            intro c hc same
            refine findFirstOf_none absent c ?_ (List.mem_singleton.mpr same)
            rw [Fin.val_castSucc, List.drop_eq_getElem_cons pos.isLt]
            exact List.mem_cons_of_mem _ hc
          rw [List.flatMap_singleton, rest]
          apply splitOnWildcards_scan
          intro front tail cut'
          exact noRegion_of_first outside' closed front tail (cut.symm.trans cut')
        · rename_i endBracket foundEnd
          have before := le_of_findFirstOf found
          have after := le_of_findFirstOf foundEnd
          rw [foundEnd] at region
          rw [List.flatMap_cons, ih _ ?_ endBracket.succ rfl, cut, scan_append outside' region,
            splitOnWildcardsFrom_eq]
          · rfl
          · simp only [Fin.val_castSucc, Fin.val_succ] at *
            omega

/-- The meta words of a pattern are the runs of one scan. -/
theorem metaWords_eq_scan (pattern : Bytes) : metaWords pattern = scan [] pattern :=
  splitOnBracketsFrom_scan pattern 0

theorem metaWords_nil : metaWords [] = [] := by
  rw [metaWords_eq_scan, scan]
  rfl

theorem metaWords_of_literals {pattern : Bytes} (nonempty : pattern ≠ [])
    (literal : ∀ c ∈ pattern, c ∉ wildcards ∧ c ≠ openBracket) :
    metaWords pattern = [pattern] := by
  have joined : scan [] (pattern ++ []) = scan pattern [] := scan_literals literal
  rw [List.append_nil] at joined
  rw [metaWords_eq_scan, joined, scan, emit_of_ne nonempty]

theorem ne_nil_of_mem_scan {run s w : Bytes} (h : w ∈ scan run s) : w ≠ [] := by
  induction run, s using scan.induct with
  | case1 run =>
      rw [scan] at h
      exact ne_nil_of_mem_emit h
  | case2 run c rest wild ih =>
      rw [scan_wildcard wild] at h
      exact (List.mem_append.mp h).elim ne_nil_of_mem_emit ih
  | case3 run rest tail close wild ih =>
      rw [scan_region close] at h
      exact (List.mem_append.mp h).elim ne_nil_of_mem_emit ih
  | case4 run rest absent wild ih =>
      rw [scan_literal wild fun _ => absent] at h
      exact ih h
  | case5 run c rest wild other ih =>
      rw [scan_literal wild fun bracket => absurd bracket other] at h
      exact ih h

theorem ne_nil_of_mem_metaWords {pattern w : Bytes} (h : w ∈ metaWords pattern) : w ≠ [] :=
  ne_nil_of_mem_scan (metaWords_eq_scan pattern ▸ h)

end Glob
