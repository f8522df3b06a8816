import Paraglob.Multifast.Finalization

/-!
# Searching a finalized trie

While it searches, the automaton stands on the node of the longest suffix of what
it has read that is a path. `stateAfter` computes that node from scratch, and
`scan` is the search written with it: one round for each letter, no failure
nodes, no fuel. The loop of `ac_trie_search` refines `scan`, because a chain of
failure transitions ends at the same node and every transition of the chain
makes the node shallower.
-/

namespace Multifast

open LongestSuffix

namespace Mpool

/-- The node reached from `n` along the letters of a string. -/
def walk (mp : Mpool) (n : Nat) : Bytes → Option Nat
  | [] => some n
  | alpha :: rest =>
      match (mp.node n).findNext alpha with
      | some next => mp.walk next rest
      | none => none

/-- The node of the longest suffix of `s` that is a path. -/
def stateAfter (mp : Mpool) (s : Bytes) : Nat := (s.tails.findSome? (mp.walk 0)).getD 0

variable {σ : Type}

/-- The search over the rest of a text, when `h` has been read since the last
reset and `position` letters of it belong to the text. -/
def scan (mp : Mpool) (callback : AcMatch → σ → σ × Bool) (h : Bytes) (position : Nat) :
    Bytes → σ → SearchExit σ
  | [], user => .ended position (mp.stateAfter h) user
  | alpha :: rest, user =>
      let next := mp.stateAfter (h ++ [alpha])
      if (mp.node next).final then
        match callback ⟨(mp.node next).matched, h.length + 1⟩ user with
        | (user, true) => .broken (position + 1) next user
        | (user, false) => mp.scan callback (h ++ [alpha]) (position + 1) rest user
      else
        mp.scan callback (h ++ [alpha]) (position + 1) rest user

/-- All matches of a text that is read after `h`. -/
def reports (mp : Mpool) (h : Bytes) : Bytes → List AcMatch
  | [] => []
  | alpha :: rest =>
      let next := mp.stateAfter (h ++ [alpha])
      if (mp.node next).final then
        ⟨(mp.node next).matched, h.length + 1⟩ :: mp.reports (h ++ [alpha]) rest
      else
        mp.reports (h ++ [alpha]) rest

end Mpool

namespace Labelling

variable {mp : Mpool} {path : Nat → Bytes} {n m : Nat} {s : Bytes}

theorem walk_eq_some_iff (lab : Labelling mp path) (valid : n < mp.length) :
    mp.walk n s = some m ↔ m < mp.length ∧ path m = path n ++ s := by
  induction s generalizing n with
  | nil =>
      rw [Mpool.walk, Option.some.injEq, List.append_nil]
      constructor
      · rintro rfl
        exact ⟨valid, rfl⟩
      · rintro ⟨hm, same⟩
        exact (lab.inj hm valid same).symm
  | cons alpha rest ih =>
      have split : path n ++ alpha :: rest = path n ++ [alpha] ++ rest := by simp
      rw [Mpool.walk, split]
      cases found : (mp.node n).findNext alpha with
      | some next =>
          obtain ⟨inside, label⟩ := (lab.findNext_eq_some_iff valid).mp found
          rw [← label]
          exact ih inside
      | none =>
          have missing := (lab.findNext_eq_none_iff valid).mp found
          constructor
          · intro h
            cases h
          · rintro ⟨hm, label⟩
            exact absurd (lab.prefixClosed.of_append rest ⟨m, hm, label⟩) missing

theorem stateAfter_spec (lab : Labelling mp path) (s : Bytes) :
    mp.stateAfter s < mp.length ∧ IsLongest (IsPath mp path) s (path (mp.stateAfter s)) := by
  induction s with
  | nil =>
      change 0 < mp.length ∧ IsLongest (IsPath mp path) [] (path 0)
      exact ⟨lab.pos, lab.root ▸ IsLongest.nil lab.prefixClosed⟩
  | cons alpha s ih =>
      cases found : mp.walk 0 (alpha :: s) with
      | some n =>
          have here : mp.stateAfter (alpha :: s) = n := by
            simp [Mpool.stateAfter, List.tails, found]
          obtain ⟨inside, label⟩ := (lab.walk_eq_some_iff lab.pos).mp found
          rw [lab.root, List.nil_append] at label
          rw [here, label]
          exact ⟨inside, IsLongest.of_mem ⟨n, inside, label⟩⟩
      | none =>
          have there : mp.stateAfter (alpha :: s) = mp.stateAfter s := by
            simp [Mpool.stateAfter, List.tails, found]
          have out : ¬ IsPath mp path (alpha :: s) := by
            rintro ⟨m, hm, label⟩
            have reached := (lab.walk_eq_some_iff lab.pos).mpr ⟨hm, by rw [lab.root, label]; rfl⟩
            rw [found] at reached
            cases reached
          rw [there]
          exact ⟨ih.1, ih.2.cons_of_not_mem out⟩

theorem eq_stateAfter (lab : Labelling mp path) (valid : n < mp.length)
    (longest : IsLongest (IsPath mp path) s (path n)) : n = mp.stateAfter s :=
  have spec := lab.stateAfter_spec s
  lab.inj valid spec.1 (longest.unique spec.2)

theorem stateAfter_path (lab : Labelling mp path) (valid : n < mp.length) :
    mp.stateAfter (path n) = n :=
  (lab.eq_stateAfter valid (IsLongest.of_mem (isPath valid))).symm

end Labelling

variable {mp : Mpool} {path : Nat → Bytes} {d : Dictionary} {σ : Type}

/-- An entry ends where the node of the longest suffix accepts it. -/
theorem Finalized.mem_matched_iff (fin : Finalized mp path d) (s : Bytes) (q : AcPattern) :
    q ∈ (mp.node (mp.stateAfter s)).matched ↔ q ∈ d.entries ∧ q.ptext <:+ s := by
  obtain ⟨inside, longest⟩ := fin.labelling.stateAfter_spec s
  rw [(fin.complete inside).matched q]
  exact and_congr_right fun hq => (longest.suffix_iff (fin.present q hq)).symm

theorem Finalized.root_final (fin : Finalized mp path d) : (mp.node 0).final = false := by
  rw [← Bool.not_eq_true, (fin.complete fin.labelling.pos).final, fin.labelling.root]
  rintro ⟨q, hq, suffix⟩
  exact d.nonempty q hq (List.suffix_nil.mp suffix)

theorem Mpool.reports_append (mp : Mpool) (h t u : Bytes) :
    mp.reports h (t ++ u) = mp.reports h t ++ mp.reports (h ++ t) u := by
  induction t generalizing h with
  | nil => rw [List.append_nil]; rfl
  | cons alpha t ih =>
      rw [List.cons_append, reports, reports, ih, List.append_cons h alpha t]
      split <;> rfl

theorem Finalized.patterns_ne_nil (fin : Finalized mp path d) {h t : Bytes} {m : AcMatch}
    (hm : m ∈ mp.reports h t) : m.patterns ≠ [] := by
  induction t generalizing h with
  | nil => exact absurd hm List.not_mem_nil
  | cons alpha t ih =>
      have complete := fin.complete (fin.labelling.stateAfter_spec (h ++ [alpha])).1
      rw [Mpool.reports] at hm
      split at hm
      · rename_i final
        cases List.mem_cons.mp hm with
        | inl here => exact here ▸ complete.matched_ne_nil.mp final
        | inr later => exact ih later
      · exact ih hm

/-- The reported patterns are the entries that end somewhere in the text. -/
theorem Finalized.mem_reports (fin : Finalized mp path d) (h t : Bytes) (q : AcPattern) :
    (∃ m ∈ mp.reports h t, q ∈ m.patterns) ↔
      q ∈ d.entries ∧ ∃ i < t.length, q.ptext <:+ h ++ t.take (i + 1) := by
  induction t generalizing h with
  | nil => simp [Mpool.reports]
  | cons alpha t ih =>
      have here := fin.mem_matched_iff (h ++ [alpha]) q
      have complete := fin.complete (fin.labelling.stateAfter_spec (h ++ [alpha])).1
      have rest : ∀ i, h ++ [alpha] ++ t.take (i + 1) = h ++ (alpha :: t).take (i + 1 + 1) := by
        intro i
        rw [List.take_succ_cons, List.append_assoc, List.singleton_append]
      -- The match at this letter, or one at a later letter.
      have split : (∃ m ∈ mp.reports h (alpha :: t), q ∈ m.patterns) ↔
          q ∈ (mp.node (mp.stateAfter (h ++ [alpha]))).matched ∨
            ∃ m ∈ mp.reports (h ++ [alpha]) t, q ∈ m.patterns := by
        rw [Mpool.reports]
        split
        · simp only [List.mem_cons, exists_eq_or_imp]
        · rename_i notFinal
          constructor
          · exact Or.inr
          · rintro (accepts | later)
            · exact absurd (complete.matched_ne_nil.mpr (List.ne_nil_of_mem accepts)) notFinal
            · exact later
      rw [split, here, ih]
      constructor
      · rintro (⟨hq, suffix⟩ | ⟨hq, i, hi, suffix⟩)
        · exact ⟨hq, 0, Nat.succ_pos _, by simpa using suffix⟩
        · exact ⟨hq, i + 1, Nat.succ_lt_succ hi, rest i ▸ suffix⟩
      · rintro ⟨hq, i, hi, suffix⟩
        cases i with
        | zero => exact Or.inl ⟨hq, by simpa using suffix⟩
        | succ i => exact Or.inr ⟨hq, i, Nat.lt_of_succ_lt_succ hi, rest i ▸ suffix⟩

/-- A scan that stops at the first match either finds none or stops right after
the letter that completes it. -/
theorem Mpool.scan_first (mp : Mpool) (keepMatch : AcMatch → σ) (h : Bytes) (position : Nat)
    (text : Bytes) (user : σ) :
    (mp.reports h text = [] ∧ mp.scan (fun m _ => (keepMatch m, true)) h position text user =
        .ended (position + text.length) (mp.stateAfter (h ++ text)) user) ∨
      ∃ consumed rest m, text = consumed ++ rest ∧ consumed ≠ [] ∧
        mp.reports h text = m :: mp.reports (h ++ consumed) rest ∧
        mp.scan (fun m _ => (keepMatch m, true)) h position text user =
          .broken (position + consumed.length) (mp.stateAfter (h ++ consumed)) (keepMatch m) := by
  induction text generalizing h position with
  | nil =>
      left
      rw [List.append_nil]
      exact ⟨rfl, rfl⟩
  | cons alpha text ih =>
      rw [Mpool.reports, Mpool.scan]
      by_cases final : (mp.node (mp.stateAfter (h ++ [alpha]))).final = true
      · right
        simp only [final, if_true]
        exact ⟨[alpha], text, _, rfl, List.cons_ne_nil _ _, rfl, rfl⟩
      · simp only [final, if_false, Bool.false_eq_true]
        rw [List.append_cons h alpha text]
        cases ih (h ++ [alpha]) (position + 1) with
        | inl none =>
            left
            rw [List.length_cons, Nat.add_comm text.length 1, ← Nat.add_assoc]
            exact none
        | inr some =>
            obtain ⟨consumed, rest, m, split, _, first, stopped⟩ := some
            right
            refine ⟨alpha :: consumed, rest, m, by rw [split]; rfl, List.cons_ne_nil _ _, ?_, ?_⟩
            · rw [List.append_cons h alpha consumed]
              exact first
            · rw [List.append_cons h alpha consumed, List.length_cons,
                Nat.add_comm consumed.length 1, ← Nat.add_assoc]
              exact stopped

theorem Mpool.scan_all (mp : Mpool) (take : AcMatch → σ → σ) (h : Bytes) (position : Nat)
    (text : Bytes) (user : σ) :
    mp.scan (fun m user => (take m user, false)) h position text user =
      .ended (position + text.length) (mp.stateAfter (h ++ text))
        ((mp.reports h text).foldl (fun user m => take m user) user) := by
  induction text generalizing h position user with
  | nil =>
      rw [List.append_nil]
      rfl
  | cons alpha text ih =>
      rw [Mpool.reports, Mpool.scan, List.append_cons h alpha text, List.length_cons,
        Nat.add_comm text.length 1, ← Nat.add_assoc]
      simp only [ih]
      split <;> rfl

theorem Mpool.scan_exits (mp : Mpool) (callback : AcMatch → σ → σ × Bool) (h : Bytes)
    (position : Nat) (text : Bytes) (user : σ) :
    ∃ consumed position' user',
      mp.scan callback h position text user =
          .ended position' (mp.stateAfter (h ++ consumed)) user' ∨
        mp.scan callback h position text user =
          .broken position' (mp.stateAfter (h ++ consumed)) user' := by
  induction text generalizing h position user with
  | nil => exact ⟨[], position, user, Or.inl (by rw [List.append_nil]; rfl)⟩
  | cons alpha text ih =>
      have later : ∀ user, ∃ consumed position' user',
          mp.scan callback (h ++ [alpha]) (position + 1) text user =
              .ended position' (mp.stateAfter (h ++ consumed)) user' ∨
            mp.scan callback (h ++ [alpha]) (position + 1) text user =
              .broken position' (mp.stateAfter (h ++ consumed)) user' := by
        intro user
        obtain ⟨consumed, rest⟩ := ih (h ++ [alpha]) (position + 1) user
        rw [← List.append_cons] at rest
        exact ⟨alpha :: consumed, rest⟩
      rw [Mpool.scan]
      split
      · split
        · exact ⟨[alpha], position + 1, _, Or.inr rfl⟩
        · exact later _
      · exact later user

/-- The match with its position counted from another start: `read` letters there are
`offset` letters here. -/
def AcMatch.shift (read offset : Nat) (m : AcMatch) : AcMatch :=
  { m with position := m.position + offset - read }

theorem AcMatch.shift_self (read : Nat) (m : AcMatch) : m.shift read read = m := by
  rw [shift, Nat.add_sub_cancel]

theorem AcMatch.shift_add (read offset n : Nat) :
    AcMatch.shift (read + n) (offset + n) = AcMatch.shift read offset := by
  funext m
  rw [shift, shift, ← Nat.add_assoc, Nat.add_sub_add_right]

namespace AcTrie

/-- The rounds of the search loop that read one letter: failure transitions while
there is no edge, then the transition that consumes the letter. -/
theorem searchLoop_letter (fin : Finalized mp path d) {h text : Bytes} {alpha : UInt8}
    {position current : Nat} (base : Nat) (callback : AcMatch → σ → σ × Bool) (user : σ)
    (valid : current < mp.length)
    (candidate : IsCandidate (IsPath mp path) h alpha (path current))
    (letter : text[position]? = some alpha) {fuel : Nat}
    (enough : 2 * (text.length - position) + (path current).length < fuel) :
    ∃ fuel', 2 * (text.length - (position + 1)) +
        (path (mp.stateAfter (h ++ [alpha]))).length < fuel' ∧
      searchLoop mp base text callback fuel position current user =
        let next := mp.stateAfter (h ++ [alpha])
        if (mp.node next).final then
          match callback ⟨(mp.node next).matched, position + 1 + base⟩ user with
          | (user, true) => .ok (.broken (position + 1) next user)
          | (user, false) => searchLoop mp base text callback fuel' (position + 1) next user
        else
          searchLoop mp base text callback fuel' (position + 1) next user := by
  have lab := fin.labelling
  have more : position < text.length := (List.getElem?_eq_some_iff.mp letter).1
  induction fuel generalizing current with
  | zero => exact absurd enough (Nat.not_lt_zero _)
  | succ fuel ih =>
      have lookup := ActNode.findNextBs_eq (fin.complete valid).sorted (lab.letters valid) alpha
      rw [searchLoop]
      simp only [letter, lookup]
      cases found : (mp.node current).findNext alpha with
      | some next =>
          obtain ⟨inside, label⟩ := (lab.findNext_eq_some_iff valid).mp found
          have longest : IsLongest (IsPath mp path) (h ++ [alpha]) (path next) := by
            rw [label]
            exact candidate.extend ⟨next, inside, label⟩
          obtain rfl := lab.eq_stateAfter inside longest
          refine ⟨fuel, ?_, rfl⟩
          rw [label, List.length_append, List.length_singleton]
          omega
      | none =>
          have stuck := (lab.findNext_eq_none_iff valid).mp found
          by_cases root : current = 0
          · subst root
            rw [lab.root] at candidate stuck
            have restart := candidate.restart lab.prefixClosed stuck
            have zero : 0 = mp.stateAfter (h ++ [alpha]) :=
              lab.eq_stateAfter lab.pos (lab.root.symm ▸ restart)
            refine ⟨fuel, ?_, ?_⟩
            · rw [← zero]
              omega
            · rw [← zero]
              simp only [fin.links.root, fin.root_final]
              rfl
          · obtain ⟨_, f, inside, link, border⟩ := fin.links.linked valid root
            have shorter := border.border_length (lab.path_ne_nil valid root)
            obtain ⟨fuel', potential, reached⟩ := ih inside
              (candidate.fallback lab.prefixClosed stuck border) (by omega)
            refine ⟨fuel', potential, ?_⟩
            rw [← reached]
            simp only [link]
            rfl

/-- The search loop refines the scan, and it ends within its fuel. The scan counts
positions from the start of `h`, the loop from the last reset. -/
theorem searchLoop_eq_scan (fin : Finalized mp path d) {h text rest : Bytes}
    {position : Nat} (base : Nat) (callback : AcMatch → σ → σ × Bool) (user : σ)
    (split : text.drop position = rest) {fuel : Nat}
    (enough : 2 * (text.length - position) + (path (mp.stateAfter h)).length < fuel) :
    searchLoop mp base text callback fuel position (mp.stateAfter h) user =
      .ok (mp.scan (fun m => callback (m.shift h.length (position + base))) h position rest
        user) := by
  induction rest generalizing h position fuel user with
  | nil =>
      have used : text[position]? = none := by
        rw [← List.head?_drop, split]
        rfl
      cases fuel with
      | zero => exact absurd enough (Nat.not_lt_zero _)
      | succ fuel =>
          rw [searchLoop]
          simp only [used]
          rfl
  | cons alpha rest ih =>
      have letter : text[position]? = some alpha := by
        rw [← List.head?_drop, split]
        rfl
      have split' : text.drop (position + 1) = rest := by
        rw [← List.tail_drop, split]
        rfl
      obtain ⟨inside, longest⟩ := fin.labelling.stateAfter_spec h
      have candidate := longest.candidate fin.labelling.prefixClosed alpha
      obtain ⟨fuel', enough', reached⟩ :=
        searchLoop_letter fin base callback user inside candidate letter enough
      -- Both counts grow by one letter, so they stay as far apart.
      have apart : AcMatch.shift (h ++ [alpha]).length (position + 1 + base) =
          AcMatch.shift h.length (position + base) := by
        rw [List.length_append, List.length_singleton, Nat.add_right_comm]
        exact AcMatch.shift_add _ _ 1
      have here : position + 1 + base = h.length + 1 + (position + base) - h.length := by omega
      have continued := fun user => ih user split' enough'
      rw [apart] at continued
      rw [reached, Mpool.scan, here]
      simp only [continued]
      split
      · split
        · rename_i stopped
          simp only [AcMatch.shift, stopped]
        · rename_i went
          simp only [AcMatch.shift, went]
      · rfl

end AcTrie

end Multifast
