import Paraglob.Multifast.Histories
import Mathlib.Algebra.Order.Ring.Nat

/-!
# The cost of searching

The functions below are those of the search with one addition that no result depends
on: they count the rounds of the main loop and the edges that the lookups compare with
a letter. Erasing the counts gives the search itself. A failure transition makes the
saved node shallower, so the depth of the node pays for it, over all the texts that
are searched one after the other.
-/

namespace Multifast

/-- The rounds of the main loop and the edges that were looked at. -/
structure Cost where
  rounds : Nat
  probes : Nat
deriving DecidableEq

namespace ActNode

/-- `findNextBsLoop`, counting the edges it looks at from `probes` on. -/
def countedFindNextBsLoop (nod : ActNode) (alpha : UInt8) :
    Nat → Int → Int → Nat → Except Fault (Option Nat × Nat)
  | 0, _, _, _ => .error .outOfFuel
  | fuel + 1, min, max, probes =>
      if min ≤ max then
        let mid := ((min + max) >>> (1 : Nat)).toNat
        match nod.outgoing[mid]? with
        | none => .error .outOfBounds
        | some edge =>
            if alpha.signed > edge.alpha.signed then
              nod.countedFindNextBsLoop alpha fuel (mid + 1) max (probes + 1)
            else if alpha.signed < edge.alpha.signed then
              nod.countedFindNextBsLoop alpha fuel min (mid - 1) (probes + 1)
            else
              .ok (some edge.next, probes + 1)
      else
        .ok (none, probes)

/-- `findNextBs` with the number of edges it looks at. -/
def countedFindNextBs (nod : ActNode) (alpha : UInt8) (probes : Nat) :
    Except Fault (Option Nat × Nat) :=
  nod.countedFindNextBsLoop alpha (nod.outgoing.length + 1) 0 (toInt (nod.outgoing.length - 1))
    probes

end ActNode

namespace AcTrie

variable {σ : Type}

/-- `searchLoop`, counting its rounds and the edges they look at from `cost` on. -/
def countedSearchLoop (nodes : Mpool) (basePosition : Nat) (text : Bytes)
    (callback : AcMatch → σ → σ × Bool) :
    Nat → Nat → Nat → σ → Cost → Except Fault (SearchExit σ × Cost)
  | 0, _, _, _, _ => .error .outOfFuel
  | fuel + 1, position, current, user, cost =>
      match text[position]? with
      | none => .ok (.ended position current user, cost)
      | some alpha => do
          let (found, probes) ← (nodes.node current).countedFindNextBs alpha cost.probes
          let cost := ⟨cost.rounds + 1, probes⟩
          match found with
          | none =>
              match (nodes.node current).failureNode with
              | some failure =>
                  countedSearchLoop nodes basePosition text callback fuel position failure user cost
              | none =>
                  countedSearchLoop nodes basePosition text callback fuel (position + 1) current
                    user cost
          | some next =>
              if (nodes.node next).final then
                match callback ⟨(nodes.node next).matched, position + 1 + basePosition⟩ user with
                | (user, true) => .ok (.broken (position + 1) next user, cost)
                | (user, false) =>
                    countedSearchLoop nodes basePosition text callback fuel (position + 1) next
                      user cost
              else
                countedSearchLoop nodes basePosition text callback fuel (position + 1) next user
                  cost

/-- `search` with its cost. -/
def countedSearch (thiz : AcTrie) (text : Option Bytes) (keep : Bool)
    (callback : AcMatch → σ → σ × Bool) (user : σ) (cost : Cost) :
    Except Fault ((Int × AcTrie × σ) × Cost) :=
  if thiz.trieOpen then .ok ((-1, thiz, user), cost)
  else
    let position := if thiz.wm = .findnext then thiz.position else 0
    let current := thiz.lastNode
    let thiz := if keep then thiz else thiz.reset
    match text with
    | none => .error .nullPointer
    | some text => do
        match ← countedSearchLoop thiz.nodes thiz.basePosition text callback
            (2 * text.length + thiz.nodes.length + 1) position current user cost with
        | (.broken position current user, cost) =>
            if thiz.wm = .findnext then
              .ok ((1, { thiz with position, lastNode := current }, user), cost)
            else
              .ok ((1, thiz, user), cost)
        | (.ended position current user, cost) =>
            .ok ((0, { thiz with
              lastNode := current, basePosition := thiz.basePosition + position }, user), cost)

/-- `findNext` with its cost. -/
def countedFindNext (thiz : AcTrie) (cost : Cost) : Except Fault ((AcMatch × AcTrie) × Cost) := do
  let thiz := { thiz with wm := .findnext }
  let ((_, thiz, result), cost) ← thiz.countedSearch thiz.text true matchHandler ⟨[], 0⟩ cost
  .ok ((result, { thiz with wm := .search }), cost)

end AcTrie

end Multifast

open Multifast

namespace AhoCorasickPlus

/-- `findAllLoop` with its cost. -/
def countedFindAllLoop : Nat → AcTrie → Cost → Except Fault ((List Int × AcTrie) × Cost)
  | 0, _, _ => .error .outOfFuel
  | fuel + 1, automata, cost => do
      let ((matchp, automata), cost) ← automata.countedFindNext cost
      if matchp.size = 0 then .ok (([], automata), cost)
      else
        let ids := matchp.patterns.map fun p => toInt p.id
        let ((rest, automata), cost) ← countedFindAllLoop fuel automata cost
        .ok ((ids ++ rest, automata), cost)

/-- `findAll` with its cost. -/
def countedFindAll (ac : AhoCorasickPlus) (text : Bytes) (keep : Bool) (cost : Cost) :
    Except Fault ((List Int × AhoCorasickPlus) × Cost) := do
  let ac := ac.search text keep
  let ((ids, automata), cost) ← countedFindAllLoop (text.length + 1) ac.automata cost
  .ok ((ids, ⟨automata⟩), cost)

/-- `findEach` with the cost of all its calls. -/
def countedFindEach (ac : AhoCorasickPlus) :
    List (Bytes × Bool) → Cost → Except Fault ((List Int × AhoCorasickPlus) × Cost)
  | [], cost => .ok (([], ac), cost)
  | (text, keep) :: rest, cost => do
      let ((ids, ac), cost) ← ac.countedFindAll text keep cost
      let ((more, ac), cost) ← ac.countedFindEach rest cost
      .ok ((ids ++ more, ac), cost)

end AhoCorasickPlus

namespace Multifast

namespace ActNode

theorem countedFindNextBsLoop_erase (nod : ActNode) (alpha : UInt8) (fuel : Nat) (min max : Int)
    (probes : Nat) :
    Prod.fst <$> nod.countedFindNextBsLoop alpha fuel min max probes =
      nod.findNextBsLoop alpha fuel min max := by
  induction fuel generalizing min max probes with
  | zero => rfl
  | succ fuel ih =>
      rw [countedFindNextBsLoop, findNextBsLoop]
      by_cases more : min ≤ max
      · rw [if_pos more, if_pos more]
        dsimp only
        cases nod.outgoing[((min + max) >>> (1 : Nat)).toNat]? with
        | none => rfl
        | some edge =>
            dsimp only
            by_cases above : alpha.signed > edge.alpha.signed
            · rw [if_pos above, if_pos above, ih]
            · rw [if_neg above, if_neg above]
              by_cases under : alpha.signed < edge.alpha.signed
              · rw [if_pos under, if_pos under, ih]
              · rw [if_neg under, if_neg under]
                rfl
      · rw [if_neg more, if_neg more]
        rfl

theorem countedFindNextBs_erase (nod : ActNode) (alpha : UInt8) (probes : Nat) :
    Prod.fst <$> nod.countedFindNextBs alpha probes = nod.findNextBs alpha :=
  nod.countedFindNextBsLoop_erase alpha _ _ _ probes

end ActNode

namespace AcTrie

variable {σ : Type}

theorem countedSearchLoop_erase (nodes : Mpool) (basePosition : Nat) (text : Bytes)
    (callback : AcMatch → σ → σ × Bool) (fuel position current : Nat) (user : σ) (cost : Cost) :
    Prod.fst <$>
        countedSearchLoop nodes basePosition text callback fuel position current user cost =
      searchLoop nodes basePosition text callback fuel position current user := by
  induction fuel generalizing position current user cost with
  | zero => rfl
  | succ fuel ih =>
      rw [countedSearchLoop, searchLoop]
      cases text[position]? with
      | none => rfl
      | some alpha =>
          dsimp only
          rw [← (nodes.node current).countedFindNextBs_erase alpha cost.probes, bind_map_left,
            map_bind]
          apply bind_congr
          rintro ⟨found, probes⟩
          cases found with
          | none =>
              dsimp only
              cases (nodes.node current).failureNode with
              | none => exact ih _ _ _ _
              | some failure => exact ih _ _ _ _
          | some next =>
              dsimp only
              by_cases final : (nodes.node next).final
              · rw [if_pos final, if_pos final]
                obtain ⟨user', stop⟩ :=
                  callback ⟨(nodes.node next).matched, position + 1 + basePosition⟩ user
                cases stop with
                | true => rfl
                | false => exact ih _ _ _ _
              · rw [if_neg final, if_neg final]
                exact ih _ _ _ _

theorem countedSearch_erase (thiz : AcTrie) (text : Option Bytes) (keep : Bool)
    (callback : AcMatch → σ → σ × Bool) (user : σ) (cost : Cost) :
    Prod.fst <$> thiz.countedSearch text keep callback user cost =
      thiz.search text keep callback user := by
  rw [countedSearch, search]
  by_cases opened : thiz.trieOpen
  · rw [if_pos opened, if_pos opened]
    rfl
  · rw [if_neg opened, if_neg opened]
    cases text with
    | none => rfl
    | some text =>
        dsimp only
        rw [← countedSearchLoop_erase _ _ _ _ _ _ _ _ cost, bind_map_left, map_bind]
        apply bind_congr
        rintro ⟨exit, cost'⟩
        cases exit with
        | broken position current user =>
            by_cases wm : (if keep then thiz else thiz.reset).wm = .findnext
            · simp only [if_pos wm]
              rfl
            · simp only [if_neg wm]
              rfl
        | ended position current user => rfl

theorem countedFindNext_erase (thiz : AcTrie) (cost : Cost) :
    Prod.fst <$> thiz.countedFindNext cost = thiz.findNext := by
  rw [countedFindNext, findNext, ← countedSearch_erase _ _ _ _ _ cost, bind_map_left, map_bind]
  rfl

end AcTrie

end Multifast

namespace AhoCorasickPlus

theorem countedFindAllLoop_erase (fuel : Nat) (automata : AcTrie) (cost : Cost) :
    Prod.fst <$> countedFindAllLoop fuel automata cost = findAllLoop fuel automata := by
  induction fuel generalizing automata cost with
  | zero => rfl
  | succ fuel ih =>
      rw [countedFindAllLoop, findAllLoop, ← automata.countedFindNext_erase cost, bind_map_left,
        map_bind]
      apply bind_congr
      rintro ⟨⟨matchp, automata'⟩, cost'⟩
      dsimp only
      by_cases none : matchp.size = 0
      · rw [if_pos none, if_pos none]
        rfl
      · rw [if_neg none, if_neg none, ← ih automata' cost', bind_map_left, map_bind]
        rfl

theorem countedFindAll_erase (ac : AhoCorasickPlus) (text : Bytes) (keep : Bool) (cost : Cost) :
    Prod.fst <$> ac.countedFindAll text keep cost = ac.findAll text keep := by
  rw [countedFindAll, findAll, ← countedFindAllLoop_erase _ _ cost, bind_map_left, map_bind]
  rfl

theorem countedFindEach_erase (ac : AhoCorasickPlus) (calls : List (Bytes × Bool)) (cost : Cost) :
    Prod.fst <$> ac.countedFindEach calls cost = ac.findEach calls := by
  induction calls generalizing ac cost with
  | nil => rfl
  | cons call calls ih =>
      obtain ⟨text, keep⟩ := call
      rw [countedFindEach, findEach, ← ac.countedFindAll_erase text keep cost, bind_map_left,
        map_bind]
      apply bind_congr
      rintro ⟨⟨ids, ac'⟩, cost'⟩
      dsimp only
      rw [← ih ac' cost', bind_map_left, map_bind]
      rfl

end AhoCorasickPlus

namespace Multifast

namespace ActNode

/-- Every probe halves what is left between the bounds. -/
theorem countedFindNextBsLoop_probes {nod : ActNode} {alpha : UInt8} {fuel : Nat} {min max : Int}
    {probes probes' : Nat} {found : Option Nat}
    (ran : nod.countedFindNextBsLoop alpha fuel min max probes = .ok (found, probes'))
    {bits : Nat} (low : 0 ≤ min) (few : max - min + 1 < 2 ^ bits) : probes' ≤ probes + bits := by
  induction fuel generalizing min max probes bits with
  | zero => cases ran
  | succ fuel ih =>
      rw [countedFindNextBsLoop] at ran
      by_cases more : min ≤ max
      · rw [if_pos more] at ran
        obtain ⟨mid, middle⟩ : ∃ mid : Nat, (mid : Int) = (min + max) >>> (1 : Nat) :=
          ⟨((min + max) >>> (1 : Nat)).toNat, Int.toNat_of_nonneg (by
            rw [Int.shiftRight_eq_div_pow]
            omega)⟩
        have half : (mid : Int) = (min + max) / 2 := by
          rw [middle, Int.shiftRight_eq_div_pow]
          rfl
        rw [← middle, Int.toNat_natCast] at ran
        cases bits with
        | zero =>
            rw [pow_zero] at few
            omega
        | succ bits =>
            rw [pow_succ] at few
            dsimp only at ran
            cases here : nod.outgoing[mid]? with
            | none =>
                rw [here] at ran
                cases ran
            | some edge =>
                rw [here] at ran
                dsimp only at ran
                by_cases above : alpha.signed > edge.alpha.signed
                · rw [if_pos above] at ran
                  have rest : probes' ≤ probes + 1 + bits := ih ran (by omega) (by omega)
                  omega
                · rw [if_neg above] at ran
                  by_cases under : alpha.signed < edge.alpha.signed
                  · rw [if_pos under] at ran
                    have rest : probes' ≤ probes + 1 + bits := ih ran low (by omega)
                    omega
                  · rw [if_neg under] at ran
                    cases ran
                    omega
      · rw [if_neg more] at ran
        cases ran
        omega

theorem countedFindNextBs_probes {nod : ActNode}
    (distinct : (nod.outgoing.map ActEdge.alpha).Nodup) {alpha : UInt8} {probes probes' : Nat}
    {found : Option Nat} (ran : nod.countedFindNextBs alpha probes = .ok (found, probes')) :
    probes' ≤ probes + 9 := by
  have few := outgoing_length_le distinct
  have bound : toInt (nod.outgoing.length - 1) = nod.outgoing.length - 1 := by
    rw [toInt, Int.bmod_eq_of_le] <;> omega
  rw [countedFindNextBs, bound] at ran
  exact countedFindNextBsLoop_probes ran (Int.le_refl 0) (by omega)

end ActNode

/-- From `cost` to `cost'` some letters were read, and the depth of the node on which the search
stands went from `depth` to `depth'`. Each letter pays for two rounds, and the second is saved as
depth until a failure transition takes it. -/
structure Cost.Pays (cost : Cost) (letters depth depth' : Nat) (cost' : Cost) : Prop where
  rounds : cost'.rounds + depth' ≤ cost.rounds + 2 * letters + depth
  probes : cost'.probes + 9 * cost.rounds ≤ cost.probes + 9 * cost'.rounds

namespace Cost

variable {cost cost' cost'' : Cost} {letters letters' depth depth' depth'' : Nat}

theorem Pays.refl (cost : Cost) (letters depth : Nat) : cost.Pays letters depth depth cost :=
  ⟨by omega, Nat.le_refl _⟩

theorem Pays.trans (first : cost.Pays letters depth depth' cost')
    (second : cost'.Pays letters' depth' depth'' cost'') :
    cost.Pays (letters + letters') depth depth'' cost'' := by
  obtain ⟨rounds, probes⟩ := first
  obtain ⟨rounds', probes'⟩ := second
  exact ⟨by omega, by omega⟩

theorem Pays.round {probes : Nat} (few : probes ≤ cost.probes + 9)
    (paid : depth' + 1 ≤ 2 * letters + depth) :
    cost.Pays letters depth depth' ⟨cost.rounds + 1, probes⟩ :=
  ⟨by dsimp only; omega, by dsimp only; omega⟩

theorem Pays.mono (pays : cost.Pays letters depth depth' cost') (more : letters ≤ letters')
    (deeper : depth ≤ depth'') : cost.Pays letters' depth'' depth' cost' := by
  obtain ⟨rounds, probes⟩ := pays
  exact ⟨by omega, probes⟩

end Cost

/-- Where a search stopped: the position in the text and the node. -/
def SearchExit.place {σ : Type} : SearchExit σ → Nat × Nat
  | .broken position current _ => (position, current)
  | .ended position current _ => (position, current)

namespace AcTrie

variable {thiz : AcTrie} {path : Nat → Bytes} {d : Dictionary} {h : Bytes} {σ : Type}

theorem countedFindNextBs_spec {mp : Mpool} (fin : Finalized mp path d) {n : Nat}
    (valid : n < mp.length) (alpha : UInt8) (probes : Nat) :
    ∃ found probes', (mp.node n).countedFindNextBs alpha probes = .ok (found, probes') ∧
      (mp.node n).findNextBs alpha = .ok found ∧ probes' ≤ probes + 9 := by
  have letters := fin.labelling.letters valid
  have plain := ActNode.findNextBs_eq (fin.complete valid).sorted letters alpha
  have erased := ((mp.node n).countedFindNextBs_erase alpha probes).trans plain
  obtain ⟨⟨found, probes'⟩, ran, same⟩ := exists_of_map_eq_ok erased
  obtain rfl : found = (mp.node n).findNext alpha := same
  exact ⟨_, probes', ran, plain, ActNode.countedFindNextBs_probes letters ran⟩

theorem lookup_spec {mp : Mpool} (fin : Finalized mp path d) {n : Nat} (valid : n < mp.length)
    {alpha : UInt8} {probes probes' : Nat} {found : Option Nat}
    (ran : (mp.node n).countedFindNextBs alpha probes = .ok (found, probes')) :
    probes' ≤ probes + 9 ∧ ∀ next, found = some next →
      next < mp.length ∧ (mp.node next).depth = (mp.node n).depth + 1 := by
  have lab := fin.labelling
  refine ⟨ActNode.countedFindNextBs_probes (lab.letters valid) ran, ?_⟩
  rintro next rfl
  have erased := (mp.node n).countedFindNextBs_erase alpha probes
  rw [ran, ActNode.findNextBs_eq (fin.complete valid).sorted (lab.letters valid)] at erased
  have child := (Except.ok.inj erased).symm
  obtain ⟨inside, label⟩ := (lab.findNext_eq_some_iff valid).mp child
  rw [lab.depth inside, lab.depth valid, label, List.length_append, List.length_singleton]
  exact ⟨inside, rfl⟩

/-- The letters that the main loop reads pay for its rounds. -/
theorem countedSearchLoop_pays {mp : Mpool} (fin : Finalized mp path d) {base : Nat} {text : Bytes}
    {callback : AcMatch → σ → σ × Bool} {fuel position current : Nat} {user : σ}
    {cost cost' : Cost} {exit : SearchExit σ} (valid : current < mp.length)
    (ran : countedSearchLoop mp base text callback fuel position current user cost =
      .ok (exit, cost')) :
    ∃ letters, exit.place.1 = position + letters ∧ position + letters ≤ max position text.length ∧
      cost.Pays letters (mp.node current).depth (mp.node exit.place.2).depth cost' := by
  induction fuel generalizing position current user cost with
  | zero => cases ran
  | succ fuel ih =>
      rw [countedSearchLoop] at ran
      cases read : text[position]? with
      | none =>
          rw [read] at ran
          cases ran
          exact ⟨0, rfl, by omega, .refl _ _ _⟩
      | some alpha =>
          have more : position < text.length := (List.getElem?_eq_some_iff.mp read).1
          rw [read] at ran
          dsimp only at ran
          obtain ⟨⟨found, probes⟩, looked, ran⟩ := exists_of_bind_eq_ok ran
          obtain ⟨few, child⟩ := lookup_spec fin valid looked
          dsimp only at ran
          -- One round leads to `next`, and the rest of the loop goes on from there.
          have later (read : Nat) {next : Nat} {user : σ} (valid' : next < mp.length)
              (once : read ≤ 1)
              (paid : (mp.node next).depth + 1 ≤ 2 * read + (mp.node current).depth)
              (ran : countedSearchLoop mp base text callback fuel (position + read) next user
                ⟨cost.rounds + 1, probes⟩ = .ok (exit, cost')) :
              ∃ letters, exit.place.1 = position + letters ∧
                position + letters ≤ max position text.length ∧
                cost.Pays letters (mp.node current).depth (mp.node exit.place.2).depth cost' := by
            obtain ⟨letters, place, inside, pays⟩ := ih valid' ran
            exact ⟨read + letters, by omega, by omega, (Cost.Pays.round few paid).trans pays⟩
          cases found with
          | none =>
              dsimp only at ran
              by_cases root : current = 0
              · subst root
                rw [fin.links.root] at ran
                exact later 1 valid (Nat.le_refl 1) (by omega) ran
              · obtain ⟨_, failure, inside, link, border⟩ := fin.links.linked valid root
                have shorter := border.border_length (fin.labelling.path_ne_nil valid root)
                rw [← fin.labelling.depth inside, ← fin.labelling.depth valid] at shorter
                rw [link] at ran
                exact later 0 inside (by omega) (by omega) ran
          | some next =>
              obtain ⟨inside, deeper⟩ := child next rfl
              dsimp only at ran
              by_cases final : (mp.node next).final
              · rw [if_pos final] at ran
                cases answer : callback ⟨(mp.node next).matched, position + 1 + base⟩ user with
                | mk user' stop =>
                    rw [answer] at ran
                    cases stop with
                    | true =>
                        cases ran
                        have deeper' :
                            (mp.node next).depth + 1 ≤ 2 * 1 + (mp.node current).depth := by
                          omega
                        exact ⟨1, rfl, by omega, .round few deeper'⟩
                    | false => exact later 1 inside (Nat.le_refl 1) (by omega) ran
              · rw [if_neg final] at ran
                exact later 1 inside (Nat.le_refl 1) (by omega) ran

/-- The depth of the saved node. -/
def savedDepth (thiz : AcTrie) : Nat := (thiz.nodes.node thiz.lastNode).depth

theorem Idle.findNext_moves (idle : thiz.Idle path d h) {text : Bytes}
    (loaded : thiz.text = some text) {m : AcMatch} {thiz' : AcTrie}
    (ran : thiz.findNext = .ok (m, thiz')) :
    (∃ h', thiz'.Idle path d h') ∧ (m.size ≠ 0 → thiz.position < thiz'.position) := by
  cases idle.findNext_spec loaded rfl with
  | inl none =>
      obtain ⟨_, thiz'', ran', idle', _⟩ := none
      obtain ⟨rfl, rfl⟩ := Prod.mk.inj (Except.ok.inj (ran.symm.trans ran'))
      exact ⟨⟨_, idle'⟩, fun some => absurd rfl some⟩
  | inr some =>
      obtain ⟨consumed, _, _, thiz'', _, nonempty, _, ran', idle', _, _, _, position⟩ := some
      obtain ⟨_, rfl⟩ := Prod.mk.inj (Except.ok.inj (ran.symm.trans ran'))
      have := List.length_pos_iff.mpr nonempty
      exact ⟨⟨_, idle'⟩, fun _ => by omega⟩

theorem Idle.countedFindNext_pays (idle : thiz.Idle path d h) {text : Bytes}
    (loaded : thiz.text = some text) (inside : thiz.position ≤ text.length) {cost cost' : Cost}
    {m : AcMatch} {thiz' : AcTrie} (ran : thiz.countedFindNext cost = .ok ((m, thiz'), cost')) :
    (∃ h', thiz'.Idle path d h') ∧ thiz'.text = some text ∧
      ∃ letters, thiz.position + letters ≤ text.length ∧
        (m.size ≠ 0 → thiz'.position = thiz.position + letters) ∧
        cost.Pays letters thiz.savedDepth thiz'.savedDepth cost' := by
  have valid : thiz.lastNode < thiz.nodes.length :=
    idle.lastNode ▸ (idle.finalized.labelling.stateAfter_spec h).1
  have erased := thiz.countedFindNext_erase cost
  rw [ran] at erased
  have found := idle.findNext_moves loaded erased.symm
  rw [countedFindNext] at ran
  obtain ⟨⟨⟨code, searched, result⟩, cost₁⟩, search, ran⟩ := exists_of_bind_eq_ok ran
  cases ran
  rw [countedSearch, if_neg (by simp [idle.trieOpen])] at search
  simp only [loaded] at search
  obtain ⟨⟨exit, cost₂⟩, looped, search⟩ := exists_of_bind_eq_ok search
  obtain ⟨letters, place, within, pays⟩ := countedSearchLoop_pays idle.finalized valid looped
  have within' : thiz.position + letters ≤ text.length :=
    within.trans (max_le inside (Nat.le_refl _))
  cases exit with
  | broken position current user =>
      simp only [if_true] at search
      cases search
      exact ⟨found.1, rfl, letters, within', fun _ => place, pays⟩
  | ended position current user =>
      cases search
      refine ⟨found.1, rfl, letters, within', fun some => ?_, pays⟩
      exact absurd (found.2 some) (Nat.lt_irrefl _)

end AcTrie

end Multifast

namespace AhoCorasickPlus

variable {ac : AhoCorasickPlus} {path : Nat → Bytes} {d : Dictionary} {h : Bytes}

theorem countedFindAllLoop_pays {fuel : Nat} {automata automata' : AcTrie} {text : Bytes}
    {ids : List Int} {cost cost' : Cost} (idle : automata.Idle path d h)
    (loaded : automata.text = some text) (inside : automata.position ≤ text.length)
    (ran : countedFindAllLoop fuel automata cost = .ok ((ids, automata'), cost')) :
    (∃ h', automata'.Idle path d h') ∧
      cost.Pays (text.length - automata.position) automata.savedDepth automata'.savedDepth
        cost' := by
  induction fuel generalizing automata h ids cost with
  | zero => cases ran
  | succ fuel ih =>
      rw [countedFindAllLoop] at ran
      obtain ⟨⟨⟨m, automata₁⟩, cost₁⟩, found, ran⟩ := exists_of_bind_eq_ok ran
      obtain ⟨⟨h', idle'⟩, loaded', letters, inside', moved, pays⟩ :=
        idle.countedFindNext_pays loaded inside found
      dsimp only at ran
      by_cases none : m.size = 0
      · rw [if_pos none] at ran
        cases ran
        exact ⟨⟨h', idle'⟩, pays.mono (by omega) (Nat.le_refl _)⟩
      · rw [if_neg none] at ran
        obtain ⟨⟨⟨rest, automata₂⟩, cost₂⟩, more, ran⟩ := exists_of_bind_eq_ok ran
        cases ran
        have position := moved none
        obtain ⟨saved, pays'⟩ := ih idle' loaded' (by omega) more
        exact ⟨saved, (pays.trans pays').mono (by omega) (Nat.le_refl _)⟩

theorem countedFindAll_pays {text : Bytes} {keep : Bool} {ids : List Int}
    {ac' : AhoCorasickPlus} {cost cost' : Cost} (idle : ac.automata.Idle path d h)
    (ran : ac.countedFindAll text keep cost = .ok ((ids, ac'), cost')) :
    (∃ h', ac'.automata.Idle path d h') ∧
      cost.Pays text.length ac.automata.savedDepth ac'.automata.savedDepth cost' := by
  rw [countedFindAll] at ran
  obtain ⟨⟨⟨found, automata'⟩, cost₁⟩, looped, ran⟩ := exists_of_bind_eq_ok ran
  cases ran
  have loaded : (ac.search text keep).automata.text = some text := rfl
  have start : (ac.search text keep).automata.position = 0 := rfl
  obtain ⟨saved, pays⟩ := countedFindAllLoop_pays (idle.setText text keep) loaded
    (start.trans_le (Nat.zero_le _)) looped
  refine ⟨saved, pays.mono (Nat.sub_le _ _) ?_⟩
  cases keep with
  | true => exact Nat.le_refl _
  | false =>
      have lab := idle.finalized.labelling
      change (ac.automata.nodes.node ac.automata.root).depth ≤ _
      rw [idle.root, lab.depth lab.pos, lab.root]
      exact Nat.zero_le _

theorem countedFindEach_pays {calls : List (Bytes × Bool)} {ids : List Int}
    {ac' : AhoCorasickPlus} {cost cost' : Cost} (idle : ac.automata.Idle path d h)
    (ran : ac.countedFindEach calls cost = .ok ((ids, ac'), cost')) :
    cost.Pays (calls.map fun call => call.1.length).sum ac.automata.savedDepth
      ac'.automata.savedDepth cost' := by
  induction calls generalizing ac h ids cost with
  | nil =>
      cases ran
      exact .refl _ _ _
  | cons call calls ih =>
      obtain ⟨text, keep⟩ := call
      rw [countedFindEach] at ran
      obtain ⟨⟨⟨found, ac₁⟩, cost₁⟩, here, ran⟩ := exists_of_bind_eq_ok ran
      obtain ⟨⟨⟨more, ac₂⟩, cost₂⟩, rest, ran⟩ := exists_of_bind_eq_ok ran
      cases ran
      obtain ⟨⟨h', idle'⟩, pays⟩ := countedFindAll_pays idle here
      rw [List.map_cons, List.sum_cons]
      exact pays.trans (ih idle' rest)

/-- All searches on an automaton together take at most two rounds for each letter of their texts,
and a lookup compares the letter with at most nine edges. -/
theorem findEach_cost (words : List (Bytes × PatternId)) :
    ∃ ac, (create.addEach words).finalize = .ok ac ∧
      (∀ n < ac.automata.nodes.length, ∀ alpha probes, ∃ found probes',
        (ac.automata.nodes.node n).countedFindNextBs alpha probes = .ok (found, probes') ∧
          (ac.automata.nodes.node n).findNextBs alpha = .ok found ∧ probes' ≤ probes + 9) ∧
      ∀ calls, ∃ returned cost,
        ac.findEach calls = .ok returned ∧ ac.countedFindEach calls ⟨0, 0⟩ = .ok (returned, cost) ∧
          cost.rounds ≤ 2 * (calls.map fun call => call.1.length).sum ∧
          cost.probes ≤ 9 * cost.rounds := by
  obtain ⟨thiz, path, d, ran, closed, _⟩ := AcTrie.finalize_addEach (words.map patternOf)
  refine ⟨⟨thiz⟩, ?_, ?_, ?_⟩
  · rw [finalize, addEach_automata]
    exact bind_of_ok ran _
  · intro n valid alpha probes
    exact AcTrie.countedFindNextBs_spec closed.finalized valid alpha probes
  · intro calls
    have start : (AhoCorasickPlus.mk thiz).automata.Closed path d [] := closed
    obtain ⟨ids, ac', _, searched, _⟩ := findEach_closed start calls
    have erased := (AhoCorasickPlus.mk thiz).countedFindEach_erase calls ⟨0, 0⟩
    rw [searched] at erased
    obtain ⟨⟨returned, cost⟩, counted, same⟩ := exists_of_map_eq_ok erased
    obtain rfl : returned = (ids, ac') := same
    obtain ⟨rounds, probes⟩ := countedFindEach_pays start.idle counted
    have lab := closed.finalized.labelling
    have shallow : (AhoCorasickPlus.mk thiz).automata.savedDepth = 0 := by
      rw [AcTrie.savedDepth, start.lastNode, ← lab.root, lab.stateAfter_path lab.pos,
        lab.depth lab.pos, lab.root]
      rfl
    rw [shallow] at rounds
    dsimp only at rounds probes
    exact ⟨_, cost, searched, counted, by omega, by omega⟩

end AhoCorasickPlus
